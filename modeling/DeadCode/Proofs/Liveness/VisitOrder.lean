import DeadCode.Liveness.VisitOrder
import DeadCode.Proofs.Graph
import Mathlib.Data.List.Perm.Subperm

/-! # A sweep visits every block once, sinks first

The components are the classes of an equivalence, so that every block is in the component of exactly
one leader. Put one behind another, the components have every block once. A component that leads
into another reaches more blocks than that one, unless the two are the same, so it comes later.
Inside a component the blocks stand by their ranks.
-/
namespace DeadCode

namespace VisitOrder
variable {reach : Int → List Int} {ranking : List Int}

/-- What makes `reach` a preorder on the ranked blocks, with at most all of them in each list. -/
structure Closed (reach : Int → List Int) (ranking : List Int) : Prop where
  refl : ∀ a ∈ ranking, a ∈ reach a
  trans : ∀ a ∈ ranking, ∀ b ∈ ranking, ∀ c, b ∈ reach a → c ∈ reach b → c ∈ reach a
  length_le : ∀ a ∈ ranking, (reach a).length ≤ ranking.length

theorem mem_component {b c : Int} :
    c ∈ component reach ranking b ↔ c ∈ ranking ∧ c ∈ reach b ∧ b ∈ reach c := by
  simp [component]

theorem Closed.component_eq (h : Closed reach ranking) {b c : Int} (hb : b ∈ ranking)
    (hc : c ∈ component reach ranking b) : component reach ranking c = component reach ranking b := by
  obtain ⟨hcr, hbc, hcb⟩ := mem_component.mp hc
  unfold component
  refine List.filter_congr fun d hd => ?_
  simp only [decide_eq_decide]
  constructor
  · rintro ⟨hcd, hdc⟩
    exact ⟨h.trans b hb c hcr d hbc hcd, h.trans d hd c hcr b hdc hcb⟩
  · rintro ⟨hbd, hdb⟩
    exact ⟨h.trans c hcr b hb d hcb hbd, h.trans d hd b hb c hdb hbc⟩

def IsLeader (reach : Int → List Int) (ranking : List Int) (b : Int) : Prop :=
  (component reach ranking b).head? = some b

theorem Closed.exists_leader (h : Closed reach ranking) {c : Int} (hc : c ∈ ranking) :
    ∃ b ∈ ranking, IsLeader reach ranking b ∧ c ∈ component reach ranking b := by
  have hself : c ∈ component reach ranking c := mem_component.mpr ⟨hc, h.refl c hc, h.refl c hc⟩
  obtain ⟨b, rest, he⟩ := List.exists_cons_of_ne_nil (List.ne_nil_of_mem hself)
  have hb : b ∈ component reach ranking c := by simp [he]
  have hsame := h.component_eq hc hb
  refine ⟨b, (mem_component.mp hb).1, ?_, ?_⟩
  · rw [IsLeader, hsame, he]
    rfl
  · rwa [hsame]

theorem Closed.eq_of_mem (h : Closed reach ranking) {a b c : Int} (ha : a ∈ ranking)
    (hb : b ∈ ranking) (hla : IsLeader reach ranking a) (hlb : IsLeader reach ranking b)
    (hca : c ∈ component reach ranking a) (hcb : c ∈ component reach ranking b) : a = b := by
  have hsame := (h.component_eq ha hca).symm.trans (h.component_eq hb hcb)
  rw [IsLeader, hsame, hlb] at hla
  exact (Option.some.inj hla).symm

theorem Closed.mem_flatten_components (h : Closed reach ranking) {c : Int} :
    c ∈ (components reach ranking).flatten ↔ c ∈ ranking := by
  simp only [components, List.mem_flatten, List.mem_flatMap, List.mem_map, List.mem_filter,
    decide_eq_true_eq, List.mem_range]
  constructor
  · rintro ⟨_, ⟨size, -, b, -, rfl⟩, hc⟩
    exact (mem_component.mp hc).1
  · intro hc
    obtain ⟨b, hb, hl, hcb⟩ := h.exists_leader hc
    exact ⟨_, ⟨_, Nat.lt_succ_of_le (h.length_le b hb), b, ⟨⟨hb, hl⟩, rfl⟩, rfl⟩, hcb⟩

/-- A relation that holds inside every component, and between a component and a later one that
reaches at least as many blocks, holds along the whole list. -/
theorem pairwise_flatten_components (hn : ranking.Nodup) {P : Int → Int → Prop}
    (hin : ∀ c ∈ ranking, (component reach ranking c).Pairwise P)
    (hacross : ∀ c ∈ ranking, ∀ d ∈ ranking, IsLeader reach ranking c → IsLeader reach ranking d →
      c ≠ d → (reach c).length ≤ (reach d).length →
      ∀ a ∈ component reach ranking c, ∀ b ∈ component reach ranking d, P a b) :
    (components reach ranking).flatten.Pairwise P := by
  refine List.pairwise_flatten.mpr ⟨?_, List.pairwise_flatMap.mpr ⟨?_, ?_⟩⟩
  · intro l hl
    simp only [components, List.mem_flatMap, List.mem_map, List.mem_filter] at hl
    obtain ⟨size, -, c, ⟨⟨hc, -⟩, -⟩, rfl⟩ := hl
    exact hin c hc
  · -- leaders that reach equally many blocks
    intro size _
    refine List.pairwise_map.mpr (List.Pairwise.imp_of_mem ?_ ((hn.filter _).filter _))
    intro c d hc hd hne
    simp only [List.mem_filter, decide_eq_true_eq] at hc hd
    exact hacross c hc.1.1 d hd.1.1 hc.1.2 hd.1.2 hne (by omega)
  · -- leaders of which the second reaches more
    refine List.Pairwise.imp ?_ List.pairwise_lt_range
    intro m n hmn l hl k hk
    obtain ⟨c, hc, rfl⟩ := List.mem_map.mp hl
    obtain ⟨d, hd, rfl⟩ := List.mem_map.mp hk
    simp only [List.mem_filter, decide_eq_true_eq] at hc hd
    refine hacross c hc.1.1 d hd.1.1 hc.1.2 hd.1.2 ?_ (by omega)
    rintro rfl
    omega

theorem Closed.nodup_flatten_components (h : Closed reach ranking) (hn : ranking.Nodup) :
    (components reach ranking).flatten.Nodup := by
  refine pairwise_flatten_components hn (fun c _ => hn.filter _) ?_
  rintro c hc d hd hlc hld hne - a hac b hbd rfl
  exact hne (h.eq_of_mem hc hd hlc hld hac hbd)

/-- Components are sorted by the number of blocks they reach. A component that leads to a later one
reaches no more blocks than that one, so it is reached from there. -/
theorem Closed.back_flatten_components (h : Closed reach ranking) (hn : ranking.Nodup)
    (hnodup : ∀ a ∈ ranking, (reach a).Nodup) :
    (components reach ranking).flatten.Pairwise fun a b => b ∈ reach a → a ∈ reach b := by
  have hback : ∀ {c d a b : Int}, c ∈ ranking → d ∈ ranking →
      (reach c).length ≤ (reach d).length → a ∈ component reach ranking c →
      b ∈ component reach ranking d → b ∈ reach a → a ∈ reach b := by
    intro c d a b hc hd hle ha hb hab
    obtain ⟨har, hca, hac⟩ := mem_component.mp ha
    obtain ⟨hbr, hdb, hbd⟩ := mem_component.mp hb
    have hcd : d ∈ reach c := h.trans c hc a har d hca (h.trans a har b hbr d hab hbd)
    have hsub : reach d ⊆ reach c := fun x hx => h.trans c hc d hd x hcd hx
    have hperm := (List.subperm_of_subset (hnodup d hd) hsub).perm_of_length_le hle
    have hdc : c ∈ reach d := hperm.mem_iff.mpr (h.refl c hc)
    exact h.trans b hbr d hd a hbd (h.trans d hd c hc a hdc hca)
  refine pairwise_flatten_components hn ?_ ?_
  · intro c hc
    exact List.pairwise_of_forall_mem_list fun a ha b hb => hback hc hc (Nat.le_refl _) ha hb
  · intro c hc d hd _ _ _ hle a ha b hb
    exact hback hc hd hle ha hb

theorem Closed.ranked_flatten_components (h : Closed reach ranking) (hn : ranking.Nodup)
    {P : Int → Int → Prop} (hp : ranking.Pairwise P) :
    (components reach ranking).flatten.Pairwise fun a b => b ∈ reach a → a ∈ reach b → P a b := by
  refine pairwise_flatten_components hn ?_ ?_
  · intro c _
    exact (hp.filter _).imp fun hab _ _ => hab
  · intro c hc d hd hlc hld hne _ a ha b hb hab hba
    obtain ⟨har, -⟩ := mem_component.mp ha
    obtain ⟨hbr, -⟩ := mem_component.mp hb
    have hbc : b ∈ component reach ranking c := by
      rw [← h.component_eq hc ha]
      exact mem_component.mpr ⟨hbr, hab, hba⟩
    exact absurd (h.eq_of_mem hc hd hlc hld hbc hb) hne

end VisitOrder

namespace Func
variable {fn : Func}

theorem length_blockIds (fn : Func) : fn.blockIds.length = fn.blocks.length := by
  simp [blockIds]

theorem mem_blockIds_of_reaches {b c : Int} (hb : b ∈ fn.blockIds)
    (hbc : Graph.Reaches fn.next b c) : c ∈ fn.blockIds := by
  refine hbc.mem_of_closed ?_ hb
  intro a _ d hd
  exact mem_blockIds.mpr (List.mem_filter.mp hd).2

theorem zero_mem_blockIds (hne : fn.blocks ≠ []) : (0 : Int) ∈ fn.blockIds := by
  have hpos := List.length_pos_iff.mpr hne
  simp only [mem_blockIds, hasBlock, decide_eq_true_eq]
  omega

theorem bounds_next {b : Int} (hb : b ∈ fn.blockIds) :
    Graph.Bounds fn.next b fn.blocks.length := by
  intro l hn hreach
  have hsub : l ⊆ fn.blockIds := fun c hc => mem_blockIds_of_reaches hb (hreach c hc)
  rw [← length_blockIds]
  exact (List.subperm_of_subset hn hsub).length_le

theorem mem_postOrder_next {b c : Int} (hb : b ∈ fn.blockIds) :
    c ∈ Graph.postOrder fn.next fn.blocks.length b ↔ Graph.Reaches fn.next b c :=
  Graph.mem_postOrder (bounds_next hb)

theorem mem_reachTable {b c : Int} (hb : b ∈ fn.blockIds) :
    c ∈ (nth? fn.reachTable b).getD [] ↔ Graph.Reaches fn.next b c := by
  rw [← mem_postOrder_next hb]
  obtain ⟨n, hn, rfl⟩ := List.mem_map.mp hb
  have hlt := List.mem_range.mp hn
  simp [reachTable, nth?, blockIds, List.getElem?_map, List.getElem?_range hlt]

theorem nodup_reachTable {b : Int} (hb : b ∈ fn.blockIds) :
    ((nth? fn.reachTable b).getD []).Nodup := by
  obtain ⟨n, hn, rfl⟩ := List.mem_map.mp hb
  have hlt := List.mem_range.mp hn
  simpa [reachTable, nth?, blockIds, List.getElem?_map, List.getElem?_range hlt]
    using Graph.nodup_postOrder

theorem ranking_perm (fn : Func) : fn.ranking.Perm fn.blockIds := by
  have hnodup : fn.postOrder.Nodup := by
    unfold postOrder
    split
    · exact List.nodup_nil
    · exact Graph.nodup_postOrder
  have hsub : ∀ b ∈ fn.postOrder, b ∈ fn.blockIds := by
    intro b hb
    unfold postOrder at hb
    split at hb
    · simp at hb
    · next hne =>
      have hroot := zero_mem_blockIds hne
      exact mem_blockIds_of_reaches hroot ((mem_postOrder_next hroot).mp hb)
  refine (List.perm_ext_iff_of_nodup ?_ (nodup_blockIds fn)).mpr ?_
  · refine List.nodup_append.mpr ⟨hnodup, (nodup_blockIds fn).filter _, ?_⟩
    rintro b hb c hc rfl
    simp only [List.mem_filter, decide_eq_true_eq] at hc
    exact hc.2 hb
  · intro b
    simp only [ranking, List.mem_append, List.mem_filter, decide_eq_true_eq]
    constructor
    · rintro (hb | hb)
      · exact hsub b hb
      · exact hb.1
    · intro hb
      by_cases hp : b ∈ fn.postOrder
      · exact .inl hp
      · exact .inr ⟨hb, hp⟩

theorem nodup_ranking (fn : Func) : fn.ranking.Nodup :=
  fn.ranking_perm.nodup_iff.mpr (nodup_blockIds fn)

theorem closed_reachTable (fn : Func) :
    VisitOrder.Closed (fun b => (nth? fn.reachTable b).getD []) fn.ranking := by
  have hmem : ∀ {b}, b ∈ fn.ranking → b ∈ fn.blockIds := fun hb => fn.ranking_perm.mem_iff.mp hb
  refine ⟨?_, ?_, ?_⟩
  · intro b hb
    exact (mem_reachTable (hmem hb)).mpr (.refl b)
  · intro a ha b hb c hab hbc
    have hrab := (mem_reachTable (hmem ha)).mp hab
    have hrbc := (mem_reachTable (hmem hb)).mp hbc
    exact (mem_reachTable (hmem ha)).mpr (hrab.trans hrbc)
  · intro b hb
    rw [fn.ranking_perm.length_eq, length_blockIds]
    exact bounds_next (hmem hb) _ (nodup_reachTable (hmem hb))
      fun c hc => (mem_reachTable (hmem hb)).mp hc

theorem visitOrder_perm (fn : Func) : fn.visitOrder.Perm fn.blockIds := by
  have hclosed := closed_reachTable fn
  refine (List.perm_ext_iff_of_nodup (hclosed.nodup_flatten_components (nodup_ranking fn))
    (nodup_blockIds fn)).mpr ?_
  intro b
  exact hclosed.mem_flatten_components.trans fn.ranking_perm.mem_iff

/-- A block that reaches a later one is also reached from there. -/
theorem pairwise_back_visitOrder (fn : Func) :
    fn.visitOrder.Pairwise fun a b => Graph.Reaches fn.next a b → Graph.Reaches fn.next b a := by
  have hmem : ∀ {b}, b ∈ fn.ranking → b ∈ fn.blockIds := fun hb => fn.ranking_perm.mem_iff.mp hb
  have hpair := (closed_reachTable fn).back_flatten_components (nodup_ranking fn)
    fun b hb => nodup_reachTable (hmem hb)
  refine hpair.imp_of_mem ?_
  intro a b ha hb hback hab
  have ha' := fn.visitOrder_perm.mem_iff.mp ha
  have hb' := fn.visitOrder_perm.mem_iff.mp hb
  exact (mem_reachTable hb').mp (hback ((mem_reachTable ha').mpr hab))

/-- Where a block comes in post-order, if control gets there; the others come last, by number. -/
def rank (fn : Func) (b : Int) : Nat :=
  if b ∈ fn.postOrder then fn.postOrder.idxOf b else fn.blocks.length + b.toNat

theorem pairwise_ranking (fn : Func) : fn.ranking.Pairwise fun a b => fn.rank a < fn.rank b := by
  have hnodup := (List.nodup_append.mp (nodup_ranking fn)).1
  refine List.pairwise_append.mpr ⟨?_, ?_, ?_⟩
  · refine List.pairwise_iff_getElem.mpr ?_
    intro i j hi hj hij
    simpa [rank, hnodup.idxOf_getElem] using hij
  · refine (fn.pairwise_blockIds.filter _).imp_of_mem ?_
    intro a b ha hb hab
    simp only [List.mem_filter, decide_eq_true_eq, mem_blockIds, hasBlock] at ha hb
    simp only [rank, ha.2, hb.2, if_false]
    omega
  · intro a ha b hb
    simp only [List.mem_filter, decide_eq_true_eq] at hb
    have hlt := List.idxOf_lt_length_of_mem ha
    have hle : fn.postOrder.length ≤ fn.blocks.length := by
      rw [← length_blockIds, ← fn.ranking_perm.length_eq, ranking, List.length_append]
      exact Nat.le_add_right _ _
    simp only [rank, ha, hb.2, if_true, if_false]
    omega

theorem pairwise_rank_visitOrder (fn : Func) :
    fn.visitOrder.Pairwise fun a b =>
      Graph.Reaches fn.next a b → Graph.Reaches fn.next b a → fn.rank a < fn.rank b := by
  have hpair := (closed_reachTable fn).ranked_flatten_components (nodup_ranking fn)
    (pairwise_ranking fn)
  refine hpair.imp_of_mem ?_
  intro a b ha hb hlt hab hba
  have ha' := fn.visitOrder_perm.mem_iff.mp ha
  have hb' := fn.visitOrder_perm.mem_iff.mp hb
  exact hlt ((mem_reachTable ha').mpr hab) ((mem_reachTable hb').mpr hba)

end Func
end DeadCode
