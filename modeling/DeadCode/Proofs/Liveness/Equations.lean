import DeadCode.Liveness.Path
import DeadCode.Proofs.Verification
import Mathlib.Tactic.Tauto

/-! # The liveness equations and their least solution

The equations tie what is live before and after an instruction to what is live at its neighbours in
the flow. Being needed on some path solves them, and every solution has at least what is needed:
paths are the least solution.
-/
namespace DeadCode

namespace Node

theorem mem_uses_iff {node : Node} {v : Value} :
    v ∈ node.uses ↔ v ∈ node.operands ∨ ∃ p, ⟨p, v⟩ ∈ node.edges := by
  cases node with
  | plain op args => simp [uses, operands, edges]
  | merge edges =>
    simp only [uses, operands, Node.edges, List.mem_map, List.not_mem_nil, false_or]
    constructor
    · rintro ⟨e, he, rfl⟩
      exact ⟨e.pred, he⟩
    · rintro ⟨p, he⟩
      exact ⟨_, he, rfl⟩
  | term op cond args succ => simp [uses, operands, edges]

end Node

namespace Func
variable {fn : Func} {v : Value}

theorem at?_eq_some_iff {p : Place} {x : Instr} :
    fn.at? p = some x ↔ ∃ block, fn.block? p.block = some block ∧ block.code[p.index]? = some x := by
  unfold at?
  cases fn.block? p.block with
  | none => simp
  | some block => simp

theorem mem_code_of_at? {p : Place} {x : Instr} (hx : fn.at? p = some x) : x ∈ fn.code := by
  obtain ⟨block, hb, hx⟩ := at?_eq_some_iff.mp hx
  exact mem_code hb (List.mem_of_getElem? hx)

theorem exists_at?_of_mem_code {x : Instr} (hx : x ∈ fn.code) : ∃ p, fn.at? p = some x := by
  obtain ⟨b, block, hb, hx⟩ := mem_code_iff.mp hx
  obtain ⟨k, hk⟩ := List.mem_iff_getElem?.mp hx
  exact ⟨⟨b, k⟩, at?_eq_some_iff.mpr ⟨block, hb, hk⟩⟩

theorem WellFormed.mem_succ (hw : fn.WellFormed) {p : Place} {t : Instr} (ht : fn.at? p = some t)
    (hk : t.kind = .terminator) {s : Int} (hs : s ∈ t.node.targets) :
    fn.hasBlock p.block ∧ s ∈ fn.succ p.block := by
  obtain ⟨block, hb, ht⟩ := at?_eq_some_iff.mp ht
  have hsucc := (hw.succ_eq_targets (mem_blocks hb) (List.mem_of_getElem? ht) hk).2
  exact ⟨hasBlock_iff.mpr (by simp [hb]), by simpa [succ, hb, hsucc] using hs⟩

def EdgeUse (fn : Func) (b s : Int) (v : Value) : Prop :=
  v.tracked = true ∧ ∃ block, fn.block? s = some block ∧
    ∃ m ∈ block.merges, ⟨b, v⟩ ∈ m.node.edges

/-- The value is live behind the merges of block `s`. -/
def EntryLive (fn : Func) (before : Place → Value → Prop) (s : Int) (v : Value) : Prop :=
  ∃ block, fn.block? s = some block ∧ before ⟨s, block.merges.length⟩ v

/-- The equations of liveness: `before p v` and `after p v` say that `v` is live before and after the
instruction at `p`. -/
structure LiveEquations (fn : Func) (before after : Place → Value → Prop) : Prop where
  before_iff : ∀ p x v, fn.at? p = some x →
    (before p v ↔ v ∈ x.node.operands ∧ v.tracked = true ∨ after p v ∧ ¬ fn.Defines p v)
  after_next : ∀ b k x v, fn.at? ⟨b, k⟩ = some x → x.kind ≠ .terminator →
    (after ⟨b, k⟩ v ↔ before ⟨b, k + 1⟩ v)
  after_exit : ∀ p t v, fn.at? p = some t → t.kind = .terminator →
    (after p v ↔ ∃ s ∈ t.node.targets, fn.EntryLive before s v ∨ fn.EdgeUse p.block s v)

theorem Flows.exists_at? {p q : Place} (h : fn.Flows p q) : ∃ x, fn.at? p = some x := by
  cases h with
  | next hx => exact ⟨_, hx⟩
  | jump hx => exact ⟨_, hx⟩

theorem Needs.exists_at? {p : Place} (h : fn.Needs v p) : ∃ x, fn.at? p = some x := by
  cases h with
  | here hreads =>
    rcases hreads with ⟨x, hx, -⟩ | ⟨t, s, block, ht, -⟩
    · exact ⟨x, hx⟩
    · exact ⟨t, ht⟩
  | later hflow => exact hflow.exists_at?

theorem NeedsAfter.exists_at? {p : Place} (h : fn.NeedsAfter v p) : ∃ x, fn.at? p = some x := by
  rcases h with ⟨q, hflow, -⟩ | ⟨t, -, -, ht, -⟩
  · exact hflow.exists_at?
  · exact ⟨t, ht⟩

theorem Reads.exists_user {p : Place} (h : fn.Reads p v) : ∃ x ∈ fn.code, v ∈ x.node.uses := by
  rcases h with ⟨x, hx, hop⟩ | ⟨t, s, block, -, -, -, hb, m, hm, he⟩
  · exact ⟨x, mem_code_of_at? hx, Node.mem_uses_iff.mpr (.inl hop)⟩
  · exact ⟨m, mem_code hb (BasicBlock.mem_code_of_mem_merges hm),
      Node.mem_uses_iff.mpr (.inr ⟨_, he⟩)⟩

theorem Needs.exists_user {p : Place} (h : fn.Needs v p) : ∃ x ∈ fn.code, v ∈ x.node.uses := by
  induction h with
  | here hreads => exact hreads.exists_user
  | later _ _ _ ih => exact ih

theorem NeedsAfter.exists_user {p : Place} (h : fn.NeedsAfter v p) :
    ∃ x ∈ fn.code, v ∈ x.node.uses := by
  rcases h with ⟨q, -, hq⟩ | hedge
  · exact hq.exists_user
  · exact Reads.exists_user (.inr hedge)

theorem not_defines_of_terminator {p : Place} {t : Instr} (ht : fn.at? p = some t)
    (hk : t.kind = .terminator) : ¬ fn.Defines p v := by
  rintro ⟨x, hx, hkind, -⟩
  rw [ht] at hx
  exact hkind (Option.some.inj hx ▸ hk)

theorem EdgeReads.exists_terminator {p : Place} (h : fn.EdgeReads p v) :
    ∃ t, fn.at? p = some t ∧ t.kind = .terminator := by
  obtain ⟨t, -, -, ht, hk, -⟩ := h
  exact ⟨t, ht, hk⟩

theorem NeedsAfter.needs {p : Place} (h : fn.NeedsAfter v p) (hdef : ¬ fn.Defines p v) :
    fn.Needs v p := by
  rcases h with ⟨q, hflow, hq⟩ | hedge
  · exact .later hflow hdef hq
  · exact .here (.inr hedge)

theorem needs_iff {p : Place} {x : Instr} (hx : fn.at? p = some x) :
    fn.Needs v p ↔ v ∈ x.node.operands ∨ fn.NeedsAfter v p ∧ ¬ fn.Defines p v := by
  constructor
  · intro h
    cases h with
    | here hreads =>
      rcases hreads with ⟨y, hy, hop⟩ | hedge
      · rw [hx] at hy
        exact .inl (Option.some.inj hy ▸ hop)
      · obtain ⟨t, ht, hk⟩ := hedge.exists_terminator
        exact .inr ⟨.inr hedge, not_defines_of_terminator ht hk⟩
    | later hflow hdef hq => exact .inr ⟨.inl ⟨_, hflow, hq⟩, hdef⟩
  · rintro (hop | ⟨hafter, hdef⟩)
    · exact .here (.inl ⟨x, hx, hop⟩)
    · exact hafter.needs hdef

/-- Being needed is a solution of the equations. -/
theorem liveEquations_needs (fn : Func) :
    fn.LiveEquations (fun p v => v.tracked = true ∧ fn.Needs v p)
      (fun p v => v.tracked = true ∧ fn.NeedsAfter v p) := by
  constructor
  · intro p x v hx
    rw [needs_iff hx]
    tauto
  · intro b k x v hx hk
    constructor
    · rintro ⟨hv, ⟨q, hflow, hq⟩ | ⟨t, s, block, ht, htk, -⟩⟩
      · cases hflow with
        | next _ _ _ => exact ⟨hv, hq⟩
        | jump hy hyk =>
          rw [hx] at hy
          exact absurd (Option.some.inj hy ▸ hyk) hk
      · rw [hx] at ht
        exact absurd (Option.some.inj ht ▸ htk) hk
    · rintro ⟨hv, hq⟩
      obtain ⟨y, hy⟩ := hq.exists_at?
      exact ⟨hv, .inl ⟨_, .next hx hk hy, hq⟩⟩
  · intro p t v ht hk
    constructor
    · rintro ⟨hv, ⟨q, hflow, hq⟩ | ⟨u, s, block, hu, -, hs, hb, hm⟩⟩
      · cases hflow with
        | next hy hyk =>
          rw [ht] at hy
          exact absurd hk (Option.some.inj hy ▸ hyk)
        | jump hy _ hs hb =>
          rw [ht] at hy
          obtain rfl := Option.some.inj hy
          exact ⟨_, hs, .inl ⟨_, hb, hv, hq⟩⟩
      · rw [ht] at hu
        obtain rfl := Option.some.inj hu
        exact ⟨s, hs, .inr ⟨hv, block, hb, hm⟩⟩
    · rintro ⟨s, hs, ⟨block, hb, hv, hq⟩ | ⟨hv, block, hb, hm⟩⟩
      · exact ⟨hv, .inl ⟨_, .jump ht hk hs hb, hq⟩⟩
      · exact ⟨hv, .inr ⟨t, s, block, ht, hk, hs, hb, hm⟩⟩

namespace LiveEquations
variable {before after : Place → Value → Prop}

theorem after_of_edgeReads (h : fn.LiveEquations before after) (hv : v.tracked = true) {p : Place}
    (hedge : fn.EdgeReads p v) : after p v := by
  obtain ⟨t, s, block, ht, hk, hs, hb, hm⟩ := hedge
  exact (h.after_exit p t v ht hk).mpr ⟨s, hs, .inr ⟨hv, block, hb, hm⟩⟩

theorem after_of_flows (h : fn.LiveEquations before after) {p q : Place} (hflow : fn.Flows p q)
    (hq : before q v) : after p v := by
  cases hflow with
  | next hx hk _ => exact (h.after_next _ _ _ v hx hk).mpr hq
  | jump ht hk hs hb => exact (h.after_exit _ _ v ht hk).mpr ⟨_, hs, .inl ⟨_, hb, hq⟩⟩

/-- Every solution contains what is needed, by induction on the path. -/
theorem before_of_needs (h : fn.LiveEquations before after) (hv : v.tracked = true) {p : Place}
    (hn : fn.Needs v p) : before p v := by
  induction hn with
  | here hreads =>
    rcases hreads with ⟨x, hx, hop⟩ | hedge
    · exact (h.before_iff _ x v hx).mpr (.inl ⟨hop, hv⟩)
    · obtain ⟨t, ht, hk⟩ := hedge.exists_terminator
      exact (h.before_iff _ t v ht).mpr
        (.inr ⟨h.after_of_edgeReads hv hedge, not_defines_of_terminator ht hk⟩)
  | later hflow hdef hq ih =>
    obtain ⟨x, hx⟩ := (Needs.later hflow hdef hq).exists_at?
    exact (h.before_iff _ x v hx).mpr (.inr ⟨h.after_of_flows hflow ih, hdef⟩)

theorem after_of_needsAfter (h : fn.LiveEquations before after) (hv : v.tracked = true)
    {p : Place} (hn : fn.NeedsAfter v p) : after p v := by
  rcases hn with ⟨q, hflow, hq⟩ | hedge
  · exact h.after_of_flows hflow (h.before_of_needs hv hq)
  · exact h.after_of_edgeReads hv hedge

end LiveEquations
end Func
end DeadCode
