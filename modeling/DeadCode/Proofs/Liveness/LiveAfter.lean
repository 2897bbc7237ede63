import DeadCode.Proofs.Liveness.Strict

/-! # Live, but after no instruction

What is live before an instruction is live after the one that control comes from. Control comes to
every instruction behind another one, and to the first one behind the merges from the blocks that
lead there. Only the head of a block that has no predecessor has no instruction that control comes
from: a value that is read at such heads and nowhere else is live somewhere, but after no
instruction.
-/
namespace DeadCode

namespace Node

theorem kind_of_mem_operands {node : Node} {v : Value} (hv : v ∈ node.operands) :
    node.kind ≠ .merge := by
  intro hk
  rw [operands_of_merge hk] at hv
  cases hv

theorem not_mem_operands_of_mem_edges {node : Node} {e : Edge} (he : e ∈ node.edges) (v : Value) :
    v ∉ node.operands := by
  rw [operands_of_merge (kind_of_mem_edges he)]
  exact List.not_mem_nil

end Node

namespace Func
variable {fn : Func} {v : Value} {p : Place} {x : Instr}

/-- The first place of a block that has no predecessor. -/
def IsSource (fn : Func) (p : Place) : Prop := p.index = 0 ∧ fn.pred p.block = []

/-- The value is used, and only as an operand of first instructions of blocks that have no
predecessor. -/
structure UsedAtSources (fn : Func) (v : Value) : Prop where
  tracked : v.tracked = true
  used : ∃ x ∈ fn.code, v ∈ x.node.uses
  atSource : ∀ p x, fn.at? p = some x → v ∈ x.node.uses →
    v ∈ x.node.operands ∧ x.kind ≠ .merge ∧ fn.IsSource p

theorem WellFormed.not_isSource_of_flows (hw : fn.WellFormed) {q : Place} (hflow : fn.Flows q p) :
    ¬ fn.IsSource p := by
  rintro ⟨hindex, hpred⟩
  cases hflow with
  | next => cases hindex
  | jump hx hk hs hb =>
    have hmem := mem_pred.mpr (hw.mem_succ hx hk hs)
    rw [hpred] at hmem
    cases hmem

theorem WellFormed.exists_flows (hw : fn.WellFormed) (hx : fn.at? p = some x)
    (hk : x.kind ≠ .merge) (hp : ¬ fn.IsSource p) : ∃ q, fn.Flows q p := by
  obtain ⟨b, k⟩ := p
  cases k with
  | succ k =>
    rw [at?_eq_codeOf] at hx
    have hlt := (List.getElem?_eq_some_iff.mp hx).1
    have hy : (fn.codeOf b)[k]? = some (fn.codeOf b)[k] := List.getElem?_eq_getElem (by omega)
    have hyk := hw.not_terminator_of_mem_take hx (List.mem_take_iff_getElem.mpr ⟨k, by omega, rfl⟩)
    rw [← at?_eq_codeOf] at hx hy
    exact ⟨⟨b, k⟩, .next hy hyk hx⟩
  | zero =>
    have hpred : fn.pred b ≠ [] := fun hpred => hp ⟨rfl, hpred⟩
    obtain ⟨q, hq⟩ := List.exists_mem_of_ne_nil _ hpred
    obtain ⟨-, front, last, -, -, hlast, -, htarget, hat⟩ := hw.exists_end (mem_pred.mp hq).2
    obtain ⟨block, hb, hx⟩ := at?_eq_some_iff.mp hx
    -- the first instruction is not a merge, so this is where control comes in
    have hmerges : block.merges.length = 0 := by
      cases hcode : block.code with
      | nil => simp [hcode] at hx
      | cons y rest =>
        obtain rfl : y = x := by simpa [hcode] using hx
        simp [BasicBlock.merges, hcode, hk]
    have hjump := Flows.jump hat hlast htarget hb
    rw [hmerges] at hjump
    exact ⟨_, hjump⟩

def UsedOffSources (fn : Func) (v : Value) : Prop :=
  ∃ p x, fn.at? p = some x ∧ v ∈ x.node.uses ∧ ¬ (v ∈ x.node.operands ∧ fn.IsSource p)

theorem EdgeReads.usedOffSources (h : fn.EdgeReads p v) : fn.UsedOffSources v := by
  obtain ⟨t, s, block, -, -, -, hb, m, hm, he⟩ := h
  obtain ⟨q, hq⟩ := exists_at?_of_mem_code (mem_code hb (BasicBlock.mem_code_of_mem_merges hm))
  exact ⟨q, m, hq, Node.mem_uses_iff.mpr (.inr ⟨_, he⟩),
    fun h => Node.not_mem_operands_of_mem_edges he v h.1⟩

/-- If control comes to the start of a path, it comes to the place that reads. -/
theorem WellFormed.usedOffSources_of_needs (hw : fn.WellFormed) (hn : fn.Needs v p)
    (hflow : ∃ q, fn.Flows q p) : fn.UsedOffSources v := by
  induction hn with
  | @here p hreads =>
    rcases hreads with ⟨x, hx, hop⟩ | hedge
    · obtain ⟨q, hflow⟩ := hflow
      exact ⟨p, x, hx, Node.mem_uses_iff.mpr (.inl hop), fun h => hw.not_isSource_of_flows hflow h.2⟩
    · exact hedge.usedOffSources
  | later hstep _ _ ih => exact ih ⟨_, hstep⟩

theorem WellFormed.exists_needsAfter_iff (hw : fn.WellFormed) :
    (∃ p, fn.NeedsAfter v p) ↔ fn.UsedOffSources v := by
  constructor
  · rintro ⟨p, ⟨q, hflow, hq⟩ | hedge⟩
    · exact hw.usedOffSources_of_needs hq ⟨p, hflow⟩
    · exact hedge.usedOffSources
  · rintro ⟨p, x, hx, huse, hnot⟩
    rcases Node.mem_uses_iff.mp huse with hop | ⟨b, he⟩
    · have hp : ¬ fn.IsSource p := fun h => hnot ⟨hop, h⟩
      obtain ⟨q, hflow⟩ := hw.exists_flows hx (Node.kind_of_mem_operands hop) hp
      exact ⟨q, .inl ⟨p, hflow, .here (.inl ⟨x, hx, hop⟩)⟩⟩
    · obtain ⟨-, front, -, -, -, -, -, hread⟩ := hw.exists_edgeReads (mem_code_of_at? hx) he
      exact ⟨_, .inr hread⟩

theorem usedAtSources_iff : fn.UsedAtSources v ↔
    v.tracked = true ∧ (∃ x ∈ fn.code, v ∈ x.node.uses) ∧ ¬ fn.UsedOffSources v := by
  constructor
  · rintro ⟨htracked, hused, hall⟩
    refine ⟨htracked, hused, ?_⟩
    rintro ⟨p, x, hx, huse, hnot⟩
    obtain ⟨hop, -, hp⟩ := hall p x hx huse
    exact hnot ⟨hop, hp⟩
  · rintro ⟨htracked, hused, hnone⟩
    refine ⟨htracked, hused, ?_⟩
    intro p x hx huse
    by_contra hnot
    refine hnone ⟨p, x, hx, huse, fun h => hnot ⟨h.1, Node.kind_of_mem_operands h.1, h.2⟩⟩

theorem UsedOffSources.used (h : fn.UsedOffSources v) : ∃ x ∈ fn.code, v ∈ x.node.uses := by
  obtain ⟨p, x, hx, huse, -⟩ := h
  exact ⟨x, mem_code_of_at? hx, huse⟩

theorem WellFormed.exists_liveSomewhere (hw : fn.WellFormed) (v : Value) :
    ∃ somewhere, fn.liveness.liveSomewhere fn v = .ok somewhere ∧
      (somewhere = true ↔ v.tracked = true ∧ ∃ x ∈ fn.code, v ∈ x.node.uses) := by
  refine ⟨_, answer_liveness _ _, ?_⟩
  rw [← hw.mem_support, Liveness.mem_support]
  simp [or_comm]

theorem WellFormed.exists_liveAfterSome (hw : fn.WellFormed) (v : Value) :
    ∃ after, fn.liveness.liveAfterSome fn v = .ok after ∧
      (after = true ↔ v.tracked = true ∧ fn.UsedOffSources v) := by
  refine ⟨_, answer_liveness _ _, ?_⟩
  rw [← hw.exists_needsAfter_iff, ← exists_mem_after_iff]
  simp

/-- In a function that the verifier accepts, a value is live somewhere but after no instruction if
and only if it is followed, used, and read only by the first instructions of blocks that have no
predecessor. For all other values the two questions have the same answer. -/
theorem liveSomewhere_and_not_liveAfterSome_iff (hv : fn.malformed? = none) :
    ∃ lv, fn.analyze = .ok lv ∧ ∀ v, ∃ somewhere after,
      lv.liveSomewhere fn v = .ok somewhere ∧ lv.liveAfterSome fn v = .ok after ∧
        (somewhere = true ∧ after = false ↔ fn.UsedAtSources v) ∧
        (¬ fn.UsedAtSources v → somewhere = after) := by
  have hw := malformed?_eq_none_iff.mp hv
  refine ⟨fn.liveness, analyze_eq hv, fun v => ?_⟩
  obtain ⟨somewhere, hask, hsomewhere⟩ := hw.exists_liveSomewhere v
  obtain ⟨after, hask', hafter⟩ := hw.exists_liveAfterSome v
  refine ⟨somewhere, after, hask, hask', ?_⟩
  rw [usedAtSources_iff, ← Bool.not_eq_true, hsomewhere, hafter]
  refine ⟨⟨?_, ?_⟩, fun hnot => Bool.eq_iff_iff.mpr ?_⟩
  · rintro ⟨⟨htracked, hused⟩, hoff⟩
    exact ⟨htracked, hused, fun h => hoff ⟨htracked, h⟩⟩
  · rintro ⟨htracked, hused, hoff⟩
    exact ⟨⟨htracked, hused⟩, fun h => hoff h.2⟩
  · rw [hsomewhere, hafter]
    refine and_congr_right fun htracked => ⟨fun hused => ?_, UsedOffSources.used⟩
    by_contra hoff
    exact hnot ⟨htracked, hused, hoff⟩

theorem liveSomewhere_and_not_liveAfterSome_island :
    island.malformed? = none ∧ ∃ lv, island.analyze = .ok lv ∧
      island.UsedAtSources (.instr 0 0) ∧
      lv.liveSomewhere island (.instr 0 0) = .ok true ∧
      lv.liveAfterSome island (.instr 0 0) = .ok false ∧
      ¬ island.UsedAtSources (.instr 0 1) ∧
      lv.liveSomewhere island (.instr 0 1) = .ok true ∧
      lv.liveAfterSome island (.instr 0 1) = .ok true := by
  have hv : island.malformed? = none := by decide
  obtain ⟨lv, hlv, hboth⟩ := liveSomewhere_and_not_liveAfterSome_iff hv
  have hself : island.analyze = .ok island.liveness := analyze_eq hv
  obtain rfl := Except.ok.inj (hlv.symm.trans hself)
  obtain ⟨_, _, hask, hask', hiff, -⟩ := hboth (.instr 0 0)
  obtain ⟨_, _, hask₁, hask₁', hiff₁, -⟩ := hboth (.instr 0 1)
  have hlive : island.liveness.liveSomewhere island (.instr 0 0) = .ok true := by decide
  have hafter : island.liveness.liveAfterSome island (.instr 0 0) = .ok false := by decide
  have hafter₁ : island.liveness.liveAfterSome island (.instr 0 1) = .ok true := by decide
  obtain rfl := Except.ok.inj (hask.symm.trans hlive)
  obtain rfl := Except.ok.inj (hask'.symm.trans hafter)
  obtain rfl := Except.ok.inj (hask₁'.symm.trans hafter₁)
  refine ⟨hv, _, hlv, hiff.mp ⟨rfl, rfl⟩, hlive, hafter, ?_, by decide, hafter₁⟩
  rw [← hiff₁]
  rintro ⟨-, hfalse⟩
  cases hfalse

end Func
end DeadCode
