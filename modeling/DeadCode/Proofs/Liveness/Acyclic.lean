import DeadCode.Proofs.Liveness.SweepCount

/-! # One sweep where nothing comes round

If no block is reached from a block it leads to, the order of a sweep has every block behind all
that it leads to. A visit then finds the final sets behind the merges of all targets, and makes its
own block final. One sweep does this for all blocks, and a second one changes nothing.
-/
namespace DeadCode
namespace Func
variable {fn : Func} {facts more : Facts} {order : List Int} {b : Int}

def Acyclic (fn : Func) : Prop := ∀ b, ∀ s ∈ fn.next b, ¬ Graph.Reaches fn.next s b

theorem mem_blockIds_of_mem_next {s : Int} (hs : s ∈ fn.next b) : s ∈ fn.blockIds :=
  mem_blockIds.mpr (List.mem_filter.mp hs).2

instance (fn : Func) : Decidable fn.Acyclic :=
  decidable_of_iff (∀ b ∈ fn.blockIds, ∀ s ∈ fn.next b,
      b ∉ Graph.postOrder fn.next fn.blocks.length s) <| by
    constructor
    · intro h b s hs hreach
      have hs' := mem_blockIds_of_mem_next hs
      exact h b (mem_blockIds_of_reaches hs' hreach) s hs ((mem_postOrder_next hs').mpr hreach)
    · intro h b _ s hs hmem
      exact h b s hs ((mem_postOrder_next (mem_blockIds_of_mem_next hs)).mp hmem)

/-- Lists every block once, and a block ahead of one that it reaches only if it is also reached from
there. -/
structure SinksFirst (fn : Func) (order : List Int) : Prop where
  perm : order.Perm fn.blockIds
  back : order.Pairwise fun a b => Graph.Reaches fn.next a b → Graph.Reaches fn.next b a

theorem sinksFirst_visitOrder (fn : Func) : fn.SinksFirst fn.visitOrder :=
  ⟨visitOrder_perm fn, pairwise_back_visitOrder fn⟩

def CompleteAt (fn : Func) (facts : Facts) (b : Int) : Prop :=
  ∀ k v, v.tracked = true → (fn.Needs v ⟨b, k⟩ → facts.LiveBefore ⟨b, k⟩ v) ∧
    (fn.NeedsAfter v ⟨b, k⟩ → facts.LiveAfter ⟨b, k⟩ v)

theorem CompleteAt.mono (h : fn.CompleteAt facts b) (hle : facts.Within more) : fn.CompleteAt more b := by
  intro k v hv
  exact ⟨fun hn => hle.before _ v ((h k v hv).1 hn), fun hn => hle.after _ v ((h k v hv).2 hn)⟩

/-- A visit completes its block if the targets of the block are complete. -/
theorem Growing.completeAt_visit (h : fn.Growing facts) (hw : fn.WellFormed)
    (hnext : ∀ s ∈ fn.next b, fn.CompleteAt facts s) : fn.CompleteAt (fn.visit facts b) b := by
  intro k v hv
  have hend : ∀ k, fn.at? ⟨b, k⟩ = none → ¬ (v.tracked = true ∧ fn.Needs v ⟨b, k⟩) ∧
      ¬ (v.tracked = true ∧ fn.NeedsAfter v ⟨b, k⟩) := by
    intro k hnone
    constructor
    · intro hn
      obtain ⟨x, hx⟩ := hn.2.exists_at?
      simp [hnone] at hx
    · intro hn
      obtain ⟨x, hx⟩ := hn.2.exists_at?
      simp [hnone] at hx
  cases hb : fn.block? b with
  | none =>
    obtain ⟨hB, hA⟩ := hend k (by simp [at?, hb])
    exact ⟨fun hn => absurd ⟨hv, hn⟩ hB, fun hn => absurd ⟨hv, hn⟩ hA⟩
  | some block =>
    have hentry : ∀ k t, fn.at? ⟨b, k⟩ = some t → t.kind = .terminator → ∀ s ∈ t.node.targets,
        fn.EntryLive (fun p v => v.tracked = true ∧ fn.Needs v p) s v →
        fn.EntryLive facts.LiveBefore s v := by
      intro k t ht hk s hs hlive
      obtain ⟨target, htarget, hv, hn⟩ := hlive
      have hmem : s ∈ fn.next b := List.mem_filter.mpr
        ⟨(hw.mem_succ ht hk hs).2, mem_blockIds.mp (mem_blockIds_of_block? htarget)⟩
      exact ⟨target, htarget, (hnext s hmem _ v hv).1 hn⟩
    obtain ⟨hB, hA⟩ := StepEquations.mono hb
      (fun _ _ hx => (liveEquations_needs fn).stepEquations hx)
      (fun _ _ hx => h.fits.stepEquations_visit hx) hentry hend k
    exact ⟨fun hn => hB ⟨hv, hn⟩, fun hn => hA ⟨hv, hn⟩⟩

/-- A sweep completes its blocks one after another, if each leads only to earlier ones and to blocks
that were complete before. -/
theorem Growing.completeAt_sweep (h : fn.Growing facts) (hw : fn.WellFormed)
    (hlater : order.Pairwise fun a b => b ∉ fn.next a) (hself : ∀ b ∈ order, b ∉ fn.next b)
    (hnext : ∀ b ∈ order, ∀ s ∈ fn.next b, fn.CompleteAt facts s ∨ s ∈ order) :
    ∀ b ∈ order, fn.CompleteAt (fn.sweep order facts) b := by
  induction order generalizing facts with
  | nil => simp
  | cons c rest ih =>
    obtain ⟨hc, hlater⟩ := List.pairwise_cons.mp hlater
    obtain ⟨hcself, hself⟩ := List.forall_mem_cons.mp hself
    have hcomplete : fn.CompleteAt (fn.visit facts c) c := by
      refine h.completeAt_visit hw fun s hs => ?_
      rcases hnext c List.mem_cons_self s hs with hdone | hmem
      · exact hdone
      · rcases List.mem_cons.mp hmem with rfl | hrest
        · exact absurd hs hcself
        · exact absurd hs (hc s hrest)
    intro b hb
    rcases List.mem_cons.mp hb with rfl | hrest
    · exact hcomplete.mono ((h.visit b).sweep rest).2
    · refine ih (h.visit c) hlater hself ?_ b hrest
      intro a ha s hs
      rcases hnext a (List.mem_cons_of_mem c ha) s hs with hdone | hmem
      · exact .inl (hdone.mono (h.rising c))
      · rcases List.mem_cons.mp hmem with rfl | hrest
        · exact .inl hcomplete
        · exact .inr hrest

theorem Growing.eq_settled (h : fn.Growing facts) (hall : fn.blockIds ⊆ order)
    (hcomplete : ∀ b ∈ fn.blockIds, fn.CompleteAt facts b) : facts = fn.settled order := by
  have hmem : ∀ {p : Place} {x : Instr}, fn.at? p = some x → p.block ∈ fn.blockIds := by
    intro p x hx
    obtain ⟨block, hb, -⟩ := at?_eq_some_iff.mp hx
    exact mem_blockIds_of_block? hb
  refine h.fits.eq_of_within (growing_settled fn order).1.fits ⟨?_, ?_⟩ ⟨?_, ?_⟩
  · intro p v hv
    exact (liveBefore_settled_iff hall).mpr (h.before_needed p v hv)
  · intro p v hv
    exact (liveAfter_settled_iff hall).mpr (h.after_needed p v hv)
  · intro p v hv
    obtain ⟨htracked, hn⟩ := (liveBefore_settled_iff hall).mp hv
    obtain ⟨x, hx⟩ := hn.exists_at?
    exact (hcomplete p.block (hmem hx) p.index v htracked).1 hn
  · intro p v hv
    obtain ⟨htracked, hn⟩ := (liveAfter_settled_iff hall).mp hv
    obtain ⟨x, hx⟩ := hn.exists_at?
    exact (hcomplete p.block (hmem hx) p.index v htracked).2 hn

theorem SinksFirst.sweep_noFacts (ho : fn.SinksFirst order) (hw : fn.WellFormed)
    (ha : fn.Acyclic) : fn.sweep order fn.noFacts = fn.settled order := by
  have hlater : order.Pairwise fun a b => b ∉ fn.next a := by
    refine ho.back.imp ?_
    intro a b hback hmem
    exact ha a b hmem (hback (.step hmem (.refl b)))
  have hself : ∀ b ∈ order, b ∉ fn.next b := fun b _ hmem => ha b b hmem (.refl b)
  have hgrow := growing_noFacts fn
  have hcomplete := hgrow.completeAt_sweep hw hlater hself fun b _ s hs =>
    .inr (ho.perm.mem_iff.mpr (mem_blockIds_of_mem_next hs))
  exact (hgrow.sweep order).1.eq_settled ho.perm.symm.subset
    fun b hb => hcomplete b (ho.perm.mem_iff.mpr hb)

/-- If control never returns to a block, the analysis takes at most two sweeps. Its order of blocks
has sinks first. After one sweep in this order, or in any other that has sinks first, the live sets
at every place hold exactly the followed values that are needed there, so they are the sets of the
map, and a second sweep changes nothing. -/
theorem analyze_acyclic (hv : fn.malformed? = none) (ha : fn.Acyclic) :
    ∃ lv, fn.analyze = .ok lv ∧ lv.sweeps ≤ 2 ∧ fn.SinksFirst fn.visitOrder ∧
      ∀ order, fn.SinksFirst order →
        (∀ p v, ((fn.sweep order fn.noFacts).LiveBefore p v ↔ v.tracked = true ∧ fn.Needs v p) ∧
          ((fn.sweep order fn.noFacts).LiveAfter p v ↔ v.tracked = true ∧ fn.NeedsAfter v p)) ∧
          fn.liveEntries (fn.sweep order fn.noFacts) = lv.entries ∧
          ∃ k ≤ 2, ∀ fuel, k ≤ fuel →
            fn.settle order fuel fn.noFacts = (fn.sweep order fn.noFacts, k) := by
  have hw := malformed?_eq_none_iff.mp hv
  have hall := blockIds_subset_visitOrder fn
  have hcount : ∀ order, fn.SinksFirst order → ∃ k ≤ 2,
      (∀ fuel, k ≤ fuel → fn.settle order fuel fn.noFacts = (fn.settled order, k)) ∧
        fn.settle order fn.sweepBound fn.noFacts = (fn.settled order, k) := by
    intro order ho
    have hfix : fn.sweep order ((fn.sweep order)^[1] fn.noFacts) =
        (fn.sweep order)^[1] fn.noFacts := by
      rw [Function.iterate_one, ho.sweep_noFacts hw ha]
      exact (growing_settled fn order).2
    obtain ⟨i, hi, -, hfuel, hbound⟩ := exists_settle_eq_settled hfix
    exact ⟨i + 1, by omega, hfuel, hbound⟩
  refine ⟨fn.liveness, analyze_eq hv, ?_, sinksFirst_visitOrder fn, ?_⟩
  · obtain ⟨k, hk, -, hbound⟩ := hcount _ (sinksFirst_visitOrder fn)
    rw [liveness, hbound]
    exact hk
  · intro order ho
    obtain ⟨k, hk, hfuel, -⟩ := hcount order ho
    have hfirst := ho.sweep_noFacts hw ha
    have horder := ho.perm.symm.subset
    refine ⟨fun p v => ?_, ?_, k, hk, ?_⟩
    · rw [hfirst]
      exact ⟨liveBefore_settled_iff horder, liveAfter_settled_iff horder⟩
    · rw [hfirst, liveness_entries, settled_eq horder hall]
    · rw [hfirst]
      exact hfuel

def forked : Func := changeAll ⟨0, "forked", 1, 0, 0, [], []⟩ [
  .addBlock "entry", .addBlock "left", .addBlock "right", .addBlock "join", .addBlock "stray",
  .addPlain 0 "neg" [.arg 0 0],
  .addTerminator 0 "br" (.instr 0 0) [] [1, 2],
  .addPlain 1 "inc" [.instr 0 0],
  .addTerminator 1 "br" .absent [] [3],
  .addTerminator 2 "br" .absent [] [3],
  .addMerge 3 [⟨1, .instr 0 2⟩, ⟨2, .arg 0 0⟩, ⟨4, .const 0 0⟩],
  .addTerminator 3 "ret" .absent [.instr 0 5, .instr 0 0] [],
  .addTerminator 4 "br" (.arg 0 0) [] [3, 3]]

theorem analyze_forked_acyclic :
    forked.malformed? = none ∧ forked.Acyclic ∧
      (forked.sweep forked.visitOrder forked.noFacts).LiveBefore ⟨0, 0⟩ (.arg 0 0) ∧
      ∃ lv, forked.analyze = .ok lv ∧ lv.sweeps = 2 ∧
        forked.liveEntries (forked.sweep forked.visitOrder forked.noFacts) = lv.entries := by
  have hv : forked.malformed? = none := by decide
  have ha : forked.Acyclic := by decide
  obtain ⟨lv, hlv, -, ho, hfirst⟩ := analyze_acyclic hv ha
  obtain ⟨hexact, hentries, -⟩ := hfirst _ ho
  have hread : forked.Needs (.arg 0 0) ⟨0, 0⟩ := .here (.inl ⟨_, rfl, by decide⟩)
  refine ⟨hv, ha, (hexact _ _).1.mpr ⟨rfl, hread⟩, lv, hlv, ?_, hentries⟩
  have hself : forked.analyze = .ok forked.liveness := analyze_eq hv
  obtain rfl := Except.ok.inj (hlv.symm.trans hself)
  decide

end Func
end DeadCode
