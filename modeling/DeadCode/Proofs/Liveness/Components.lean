import DeadCode.Proofs.Traversal
import DeadCode.Proofs.Verification

/-! # The order of a sweep goes by components

The components of a graph, each once and behind all those it leads into, are a condensation of it. A
way from a node back to itself changes none of them. Whatever condensation of the blocks is taken,
and however the blocks of each component are sorted by their ranks, the outcome has every block
once, the components in one piece each, and a block behind those that it leads to for good. Ranks
differ, so there is only one way to sort a component. The components that the order of a sweep is
made of are such a condensation, and they are sorted already.
-/
namespace DeadCode

namespace Graph

variable {α : Type} {next other : α → List α} {nodes : List α} {parts : List (List α)}

/-- The components of a graph, each once and behind all those it leads into. -/
structure Condensation (next : α → List α) (nodes : List α) (parts : List (List α)) : Prop where
  perm : parts.flatten.Perm nodes
  nonempty : ∀ c ∈ parts, c ≠ []
  mem_iff : ∀ c ∈ parts, ∀ a ∈ c, ∀ b, b ∈ c ↔ Reaches next a b ∧ Reaches next b a
  sinksFirst : parts.Pairwise fun c d => ∀ a ∈ c, ∀ b ∈ d, ¬ Reaches next a b

theorem Condensation.congr (h : Condensation next nodes parts)
    (hreach : ∀ a b, Reaches next a b ↔ Reaches other a b) : Condensation other nodes parts := by
  refine ⟨h.perm, h.nonempty, ?_, ?_⟩
  · intro c hc a ha b
    rw [h.mem_iff c hc a ha b, hreach, hreach]
  · apply h.sinksFirst.imp
    intro c d hcd a ha b hb
    rw [← hreach]
    exact hcd a ha b hb

theorem reaches_filter_ne [DecidableEq α] {a b : α} :
    Reaches (fun a => (next a).filter (· ≠ a)) a b ↔ Reaches next a b := by
  constructor
  · intro h
    induction h with
    | refl a => exact .refl a
    | step hnext _ ih => exact .step (List.mem_filter.mp hnext).1 ih
  · intro h
    induction h with
    | refl a => exact .refl a
    | @step a b c hnext _ ih =>
      by_cases hba : b = a
      · exact hba ▸ ih
      · exact .step (List.mem_filter.mpr ⟨hnext, by simpa using hba⟩) ih

theorem Condensation.pairwise_back (h : Condensation next nodes parts) {sort : List α → List α}
    (hsort : ∀ c ∈ parts, (sort c).Perm c) :
    (parts.flatMap sort).Pairwise fun a b => Reaches next a b → Reaches next b a := by
  refine List.pairwise_flatMap.mpr ⟨?_, ?_⟩
  · intro c hc
    refine List.pairwise_of_forall_mem_list fun a ha b hb _ => ?_
    rw [(hsort c hc).mem_iff] at ha hb
    exact ((h.mem_iff c hc a ha b).mp hb).2
  · apply h.sinksFirst.imp_of_mem
    intro c d hc hd hcd a ha b hb hab
    rw [(hsort c hc).mem_iff] at ha
    rw [(hsort d hd).mem_iff] at hb
    exact absurd hab (hcd a ha b hb)

end Graph

namespace Func
variable {fn : Func}

theorem WellFormed.next_eq_succ (hw : fn.WellFormed) : fn.next = fn.succ := by
  funext b
  refine List.filter_eq_self.mpr fun s hs => ?_
  unfold succ at hs
  split at hs
  · next block hb => exact hw.targets block (mem_blocks hb) s hs
  · cases hs

def arcs (fn : Func) (b : Int) : List Int := (fn.succ b).filter (· ≠ b)

/-- Lists the components of the blocks one after another, each in one piece and sorted by the ranks
of its blocks, and every block behind those that it leads to and that do not lead back to it. -/
structure ByComponents (fn : Func) (order : List Int) : Prop where
  perm : order.Perm fn.blockIds
  together : ∀ b ∈ fn.blockIds, ∃ before part after, order = before ++ part ++ after ∧
    (∀ c, c ∈ part ↔ Graph.Reaches fn.succ b c ∧ Graph.Reaches fn.succ c b) ∧
    (part.Pairwise fun c d => fn.rank c < fn.rank d) ∧
    ∀ other : List Int, other.Perm part →
      (other.Pairwise fun c d => fn.rank c ≤ fn.rank d) → other = part
  behind : ∀ a ∈ fn.blockIds, ∀ b ∈ fn.blockIds, Graph.Reaches fn.succ a b →
    ¬ Graph.Reaches fn.succ b a → order.idxOf b < order.idxOf a

theorem rank_inj {a b : Int} (ha : a ∈ fn.blockIds) (hb : b ∈ fn.blockIds)
    (h : fn.rank a = fn.rank b) : a = b := by
  have hnodup : (fn.ranking.map fn.rank).Nodup :=
    List.pairwise_map.mpr ((pairwise_ranking fn).imp Nat.ne_of_lt)
  rw [← fn.ranking_perm.mem_iff] at ha hb
  exact List.inj_on_of_nodup_map hnodup ha hb h

theorem pairwise_rank_lt {part : List Int} (hn : part.Nodup) (hsub : part ⊆ fn.blockIds)
    (hle : part.Pairwise fun c d => fn.rank c ≤ fn.rank d) :
    (part.Pairwise fun c d => fn.rank c < fn.rank d) ∧
      ∀ other : List Int, other.Perm part →
        (other.Pairwise fun c d => fn.rank c ≤ fn.rank d) → other = part := by
  constructor
  · apply (hle.and hn).imp_of_mem
    intro c d hc hd ⟨hcd, hne⟩
    exact Nat.lt_of_le_of_ne hcd fun heq => hne (rank_inj (hsub hc) (hsub hd) heq)
  · intro other hperm hother
    refine hperm.eq_of_pairwise ?_ hother hle
    intro c d hc hd hcd hdc
    exact rank_inj (hsub (hperm.subset hc)) (hsub hd) (Nat.le_antisymm hcd hdc)

theorem reaches_arcs {a b : Int} : Graph.Reaches fn.arcs a b ↔ Graph.Reaches fn.succ a b :=
  Graph.reaches_filter_ne

theorem byComponents_flatMap {parts : List (List Int)}
    (h : Graph.Condensation fn.succ fn.blockIds parts) {sort : List Int → List Int}
    (hsort : ∀ c ∈ parts, (sort c).Perm c ∧ (sort c).Pairwise fun a b => fn.rank a ≤ fn.rank b) :
    fn.ByComponents (parts.flatMap sort) := by
  have hperm : (parts.flatMap sort).Perm fn.blockIds := by
    have hflat := List.Perm.flatMap_left parts fun c hc => (hsort c hc).1
    rw [List.flatMap_id'] at hflat
    exact hflat.trans h.perm
  have hnodup := hperm.nodup_iff.mpr (nodup_blockIds fn)
  refine ⟨hperm, ?_, ?_⟩
  · intro b hb
    obtain ⟨c, hc, hbc⟩ := List.mem_flatten.mp (h.perm.mem_iff.mpr hb)
    obtain ⟨pre, post, rfl⟩ := List.append_of_mem hc
    rw [List.flatMap_append, List.flatMap_cons, ← List.append_assoc] at hperm hnodup ⊢
    have hwithin : sort c <:+: pre.flatMap sort ++ sort c ++ post.flatMap sort := ⟨_, _, rfl⟩
    obtain ⟨hsame, hle⟩ := hsort c hc
    obtain ⟨hlt, honly⟩ := pairwise_rank_lt (hnodup.sublist hwithin.sublist)
      (fun x hx => hperm.subset (hwithin.subset hx)) hle
    refine ⟨_, sort c, _, rfl, fun d => ?_, hlt, honly⟩
    rw [hsame.mem_iff]
    exact h.mem_iff c hc b hbc d
  · intro a ha b hb hab hba
    have hback := h.pairwise_back fun c hc => (hsort c hc).1
    have hne : a ≠ b := by
      rintro rfl
      exact hba hab
    rw [← hperm.mem_iff] at ha hb
    exact (idxOf_lt_or_of_pairwise hback ha hb hne).resolve_right fun hR => hba (hR hab)

theorem mem_components {c : List Int} (hc : c ∈ fn.components) :
    (∃ b ∈ c, ∀ x, x ∈ c ↔ Graph.Reaches fn.next b x ∧ Graph.Reaches fn.next x b) ∧
      c.Pairwise fun a b => fn.rank a < fn.rank b := by
  simp only [components, VisitOrder.components, List.mem_flatMap, List.mem_map, List.mem_filter,
    decide_eq_true_eq] at hc
  obtain ⟨size, -, b, ⟨⟨hb, hleader⟩, -⟩, rfl⟩ := hc
  have hblock : ∀ {x}, x ∈ fn.ranking ↔ x ∈ fn.blockIds := fn.ranking_perm.mem_iff
  refine ⟨⟨b, List.mem_of_mem_head? hleader, fun x => ?_⟩, (pairwise_ranking fn).filter _⟩
  rw [VisitOrder.mem_component, mem_reachTable (hblock.mp hb)]
  constructor
  · rintro ⟨hx, hbx, hxb⟩
    exact ⟨hbx, (mem_reachTable (hblock.mp hx)).mp hxb⟩
  · rintro ⟨hbx, hxb⟩
    have hx := mem_blockIds_of_reaches (hblock.mp hb) hbx
    exact ⟨hblock.mpr hx, hbx, (mem_reachTable hx).mpr hxb⟩

theorem condensation_components (fn : Func) :
    Graph.Condensation fn.next fn.blockIds fn.components := by
  have hnodup := fn.visitOrder_perm.nodup_iff.mpr (nodup_blockIds fn)
  have hmem : ∀ c ∈ fn.components, ∀ a ∈ c, ∀ b,
      b ∈ c ↔ Graph.Reaches fn.next a b ∧ Graph.Reaches fn.next b a := by
    intro c hc a ha b
    obtain ⟨⟨l, -, hl⟩, -⟩ := mem_components hc
    obtain ⟨hla, hal⟩ := (hl a).mp ha
    rw [hl b]
    constructor
    · rintro ⟨hlb, hbl⟩
      exact ⟨hal.trans hlb, hbl.trans hla⟩
    · rintro ⟨hab, hba⟩
      exact ⟨hla.trans hab, hba.trans hal⟩
  refine ⟨fn.visitOrder_perm, ?_, hmem, ?_⟩
  · intro c hc
    obtain ⟨⟨l, hl, -⟩, -⟩ := mem_components hc
    exact List.ne_nil_of_mem hl
  · -- a component that led to a later one would be led to from there, and so be the same
    have hback := (List.pairwise_flatten.mp (pairwise_back_visitOrder fn)).2
    have hdiff := (List.pairwise_flatten.mp hnodup).2
    apply (hback.and hdiff).imp_of_mem
    intro c d hc _ ⟨hback, hdiff⟩ a ha b hb hab
    have hbc : b ∈ c := (hmem c hc a ha b).mpr ⟨hab, hback a ha b hb hab⟩
    exact hdiff b hbc b hb rfl

/-- The visiting order goes by components. Ranks tell blocks apart. The components that the order is
made of are all the components of the blocks, each once and behind those it leads into. Any other
such list of the components, with each of them sorted by ranks, also gives an order by components.
-/
theorem visitOrder_by_components (hv : fn.malformed? = none) :
    (∀ a ∈ fn.blockIds, ∀ b ∈ fn.blockIds, fn.rank a = fn.rank b → a = b) ∧
    Graph.Condensation fn.arcs fn.blockIds fn.components ∧
    fn.ByComponents fn.visitOrder ∧
    ∀ parts : List (List Int), Graph.Condensation fn.arcs fn.blockIds parts →
      ∀ sort : List Int → List Int,
        (∀ c ∈ parts, (sort c).Perm c ∧ (sort c).Pairwise fun a b => fn.rank a ≤ fn.rank b) →
        fn.ByComponents (parts.flatMap sort) := by
  have hw := malformed?_eq_none_iff.mp hv
  have hown := condensation_components fn
  rw [hw.next_eq_succ] at hown
  refine ⟨fun a ha b hb => rank_inj ha hb, hown.congr fun a b => reaches_arcs.symm, ?_, ?_⟩
  · have horder := byComponents_flatMap hown fun c hc =>
      ⟨.refl c, (mem_components hc).2.imp Nat.le_of_lt⟩
    rwa [List.flatMap_id'] at horder
  · intro parts hparts sort hsort
    exact byComponents_flatMap (hparts.congr fun a b => reaches_arcs) hsort

/-- A loop of two blocks, one of which also leads back to itself, and another loop of two blocks that
control never gets to; two blocks name a target twice. -/
def knots : Func := changeAll ⟨0, "knots", 1, 0, 0, [], []⟩ [
  .addBlock "entry", .addBlock "head", .addBlock "body", .addBlock "exit", .addBlock "stray",
  .addBlock "back",
  .addTerminator 0 "cond_br" (.arg 0 0) [] [1, 1],
  .addTerminator 1 "switch" (.arg 0 0) [] [1, 2, 3],
  .addTerminator 2 "br" .absent [] [1],
  .addTerminator 3 "ret" .absent [] [],
  .addTerminator 4 "switch" (.arg 0 0) [] [5, 5, 3],
  .addTerminator 5 "br" .absent [] [4]]

theorem visitOrder_knots_by_components :
    knots.malformed? = none ∧ knots.components = [[3], [2, 1], [4, 5], [0]] ∧
      Graph.Condensation knots.arcs knots.blockIds [[3], [2, 1], [4, 5], [0]] ∧
      ∃ before part after, [3, 2, 1, 4, 5, 0] = before ++ part ++ after ∧
        ∀ c, c ∈ part ↔ Graph.Reaches knots.succ 5 c ∧ Graph.Reaches knots.succ c 5 := by
  have hv : knots.malformed? = none := by decide
  have hparts : knots.components = [[3], [2, 1], [4, 5], [0]] := by decide
  have horder : knots.visitOrder = [3, 2, 1, 4, 5, 0] := by decide
  obtain ⟨-, hown, hby, -⟩ := visitOrder_by_components hv
  rw [hparts] at hown
  rw [horder] at hby
  obtain ⟨before, part, after, hsplit, hpart, -⟩ := hby.together 5 (by decide)
  exact ⟨hv, hparts, hown, before, part, after, hsplit, hpart⟩

end Func
end DeadCode
