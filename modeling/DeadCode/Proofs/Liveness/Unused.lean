import DeadCode.Liveness.Dead
import DeadCode.Proofs.Liveness.Exact
import DeadCode.Proofs.Removal

/-! # Function-wide deadness is the absence of uses

In a well-formed function every use is read at some place: an operand where it stands, what a merge
takes where the block it comes from ends. So what is live somewhere is what some instruction uses,
and the instructions found dead are those without a user. They can be removed all at once.
-/
namespace DeadCode

namespace Liveness

theorem mem_support {lv : Liveness} {v : Value} :
    v ∈ lv.support ↔ ∃ e ∈ lv.entries, v ∈ e.sides.before ∨ v ∈ e.sides.after := by
  have fold : ∀ (entries : List LiveEntry) (all : ValueSet),
      v ∈ entries.foldl (fun all e => all ∪ e.sides.before ∪ e.sides.after) all ↔
        v ∈ all ∨ ∃ e ∈ entries, v ∈ e.sides.before ∨ v ∈ e.sides.after := by
    intro entries
    induction entries with
    | nil => simp
    | cons e rest ih =>
      intro all
      rw [List.foldl_cons, ih]
      simp only [ValueSet.mem_union, List.mem_cons, exists_eq_or_imp, or_assoc]
  simpa [support] using fold lv.entries ∅

end Liveness

namespace Func
variable {fn : Func}

theorem answer_liveness {α : Type} (operation : Operation) (a : α) :
    fn.liveness.answer fn operation a = .ok a := by
  simp only [Liveness.answer, Liveness.breach?_liveness]

theorem exists_mem_entries_iff {P : LiveSides → Prop} :
    (∃ e ∈ fn.liveness.entries, P e.sides) ↔
      ∃ p s, (fn.settled fn.visitOrder).at? p = some s ∧ P s := by
  constructor
  · rintro ⟨e, he, hP⟩
    obtain ⟨p, x, s, hx, hs, rfl⟩ := mem_liveEntries.mp he
    exact ⟨p, s, hs, hP⟩
  · rintro ⟨p, s, hs, hP⟩
    obtain ⟨e, he, rfl⟩ := exists_mem_entries hs
    exact ⟨e, he, hP⟩

theorem exists_mem_before_iff {v : Value} :
    (∃ e ∈ fn.liveness.entries, v ∈ e.sides.before) ↔ v.tracked = true ∧ ∃ p, fn.Needs v p := by
  rw [exists_mem_entries_iff (P := fun s => v ∈ s.before), ← exists_and_left]
  exact exists_congr fun p => liveBefore_settled_iff (blockIds_subset_visitOrder fn)

theorem exists_mem_after_iff {v : Value} :
    (∃ e ∈ fn.liveness.entries, v ∈ e.sides.after) ↔
      v.tracked = true ∧ ∃ p, fn.NeedsAfter v p := by
  rw [exists_mem_entries_iff (P := fun s => v ∈ s.after), ← exists_and_left]
  exact exists_congr fun p => liveAfter_settled_iff (blockIds_subset_visitOrder fn)

theorem mem_support_liveness {v : Value} :
    v ∈ fn.liveness.support ↔ v.tracked = true ∧ ∃ p, fn.Needs v p ∨ fn.NeedsAfter v p := by
  simp only [Liveness.mem_support, and_or_left, exists_or, exists_mem_before_iff,
    exists_mem_after_iff]

theorem WellFormed.exists_end (h : fn.WellFormed) {b s : Int} (hs : s ∈ fn.succ b) :
    ∃ block front last, fn.block? b = some block ∧ block.code = front ++ [last] ∧
      last.kind = .terminator ∧ (∀ x ∈ front, x.kind ≠ .terminator) ∧ s ∈ last.node.targets ∧
      fn.at? ⟨b, front.length⟩ = some last := by
  cases hb : fn.block? b with
  | none => simp [succ, hb] at hs
  | some block =>
    obtain ⟨front, last, hcode, hlast, hfront⟩ := h.ended block (mem_blocks hb)
    have htargets := (h.succ_eq_targets (mem_blocks hb) (by simp [hcode]) hlast).2
    simp only [succ, hb, htargets] at hs
    exact ⟨block, front, last, rfl, hcode, hlast, hfront, hs, by simp [at?, hb, hcode]⟩

theorem WellFormed.mem_merges (h : fn.WellFormed) {b : Int} {block : BasicBlock}
    (hb : fn.block? b = some block) {x : Instr} (hx : x ∈ block.code) (hk : x.kind = .merge) :
    x ∈ block.merges := by
  rw [← block.merges_append_body] at hx
  rcases List.mem_append.mp hx with hm | hbody
  · exact hm
  · exact absurd hk (h.not_merge_of_mem_body (mem_blocks hb) hbody)

/-- A value that a merge takes from a block is read at the end of that block. -/
theorem WellFormed.exists_edgeReads (h : fn.WellFormed) {x : Instr} (hx : x ∈ fn.code) {p : Int}
    {v : Value} (he : ⟨p, v⟩ ∈ x.node.edges) :
    ∃ block front last, fn.block? p = some block ∧ block.code = front ++ [last] ∧
      last.kind = .terminator ∧ (∀ y ∈ front, y.kind ≠ .terminator) ∧
      fn.EdgeReads ⟨p, front.length⟩ v := by
  have hk : x.kind = .merge := Node.kind_of_mem_edges he
  obtain ⟨b, target, hb, hxb⟩ := mem_code_iff.mp hx
  obtain ⟨-, hsucc⟩ := ((h.edges b target hb x hxb hk).2 p).mp (List.mem_map_of_mem he)
  obtain ⟨block, front, last, hp, hcode, hlast, hfront, htarget, hat⟩ := h.exists_end hsucc
  exact ⟨block, front, last, hp, hcode, hlast, hfront, last, b, target, hat, hlast, htarget, hb, x,
    h.mem_merges hb hxb hk, he⟩

theorem WellFormed.exists_reads (h : fn.WellFormed) {x : Instr} (hx : x ∈ fn.code) {v : Value}
    (hv : v ∈ x.node.uses) : ∃ p, fn.Reads p v := by
  rcases Node.mem_uses_iff.mp hv with hop | ⟨p, he⟩
  · obtain ⟨q, hq⟩ := exists_at?_of_mem_code hx
    exact ⟨q, .inl ⟨x, hq, hop⟩⟩
  · obtain ⟨-, front, -, -, -, -, -, hread⟩ := h.exists_edgeReads hx he
    exact ⟨⟨p, front.length⟩, .inr hread⟩

theorem WellFormed.mem_support (h : fn.WellFormed) {v : Value} :
    v ∈ fn.liveness.support ↔ v.tracked = true ∧ ∃ x ∈ fn.code, v ∈ x.node.uses := by
  rw [mem_support_liveness]
  refine and_congr_right fun _ => ⟨?_, ?_⟩
  · rintro ⟨p, hn | hn⟩
    · exact hn.exists_user
    · exact hn.exists_user
  · rintro ⟨x, hx, hv⟩
    obtain ⟨p, hp⟩ := h.exists_reads hx hv
    exact ⟨p, .inl (.here hp)⟩

def unused (fn : Func) : List Int := fn.liveness.deadInstrs fn false

/-- The instructions, terminators apart, that no instruction of the function refers to. -/
def unreferenced (fn : Func) : List Int :=
  (fn.code.filter fun x =>
    x.kind ≠ .terminator ∧ ∀ y ∈ fn.code, x.value fn.id ∉ y.node.uses).map (·.id)

/-- The dead instructions are those that no instruction refers to. -/
theorem WellFormed.unused_eq (h : fn.WellFormed) : fn.unused = fn.unreferenced := by
  refine congrArg (List.map Instr.id) (List.filter_congr fun x _ => ?_)
  have hsupport : x.value fn.id ∈ fn.liveness.support ↔ ∃ y ∈ fn.code, x.value fn.id ∈ y.node.uses := by
    rw [h.mem_support]
    exact and_iff_right rfl
  simp [hsupport]

theorem WellFormed.mem_unused (h : fn.WellFormed) {i : Int} :
    i ∈ fn.unused ↔
      (∃ x ∈ fn.code, x.id = i ∧ x.kind ≠ .terminator) ∧ ∀ user, ¬ fn.UsedBy i user := by
  simp only [h.unused_eq, unreferenced, List.mem_map, List.mem_filter, decide_eq_true_eq]
  constructor
  · rintro ⟨x, ⟨hx, hk, huse⟩, rfl⟩
    refine ⟨⟨x, hx, rfl, hk⟩, ?_⟩
    rintro user ⟨y, hy, -, hv⟩
    exact huse y hy hv
  · rintro ⟨⟨x, hx, rfl, hk⟩, huse⟩
    exact ⟨x, ⟨hx, hk, fun y hy hv => huse y.id ⟨y, hy, rfl, hv⟩⟩, rfl⟩

theorem Consistent.nodup_deadInstrs (h : fn.Consistent) (lv : Liveness) (localOnly : Bool) :
    (lv.deadInstrs fn localOnly).Nodup := h.nodup_ids.sublist (List.filter_sublist.map _)

theorem Consistent.nodup_unused (h : fn.Consistent) : fn.unused.Nodup := h.nodup_deadInstrs _ _

theorem WellFormed.removable_unused (h : fn.WellFormed) : fn.Removable fn.unused := by
  constructor
  · intro i hi
    exact (h.mem_unused.mp hi).1
  · intro x hx _ i hi hv
    exact (h.mem_unused.mp hi).2 x.id ⟨x, hx, rfl, hv⟩

/-- If the verifier accepts the function, its map finds those instructions dead, in program order
and each once, that are no terminators and that no instruction refers to, not even themselves or one
that control never comes to. The values that are live somewhere are the followed values in use. -/
theorem dead_analyze_eq (hc : fn.Consistent) (hv : fn.malformed? = none) :
    ∃ lv, fn.analyze = .ok lv ∧ lv.dead fn false = .ok fn.unreferenced ∧ fn.unreferenced.Nodup ∧
      ∀ v, lv.liveSomewhere fn v =
        .ok (decide (v.tracked = true ∧ ∃ x ∈ fn.code, v ∈ x.node.uses)) := by
  have hw := malformed?_eq_none_iff.mp hv
  refine ⟨fn.liveness, analyze_eq hv, ?_, ?_, fun v => ?_⟩
  · rw [← hw.unused_eq]
    exact answer_liveness .dead fn.unused
  · rw [← hw.unused_eq]
    exact hc.nodup_unused
  · rw [Liveness.liveSomewhere, answer_liveness, Except.ok.injEq, ← decide_eq_decide.mpr hw.mem_support,
      Bool.eq_iff_iff, decide_eq_true_eq, Liveness.mem_support]
    simp [or_comm]

/-- Value 0 is read only by an instruction that control never comes to, and 1 reads itself. -/
def island : Func := changeAll ⟨0, "island", 0, 0, 0, [], []⟩ [
  .addBlock "entry", .addBlock "island",
  .addPlain 0 "one" [],
  .addPlain 0 "loop" [.instr 0 1],
  .addPlain 0 "two" [],
  .addTerminator 0 "ret" .absent [] [],
  .addPlain 1 "neg" [.instr 0 0],
  .addTerminator 1 "ret" .absent [] []]

theorem consistent_island : island.Consistent := by
  have hstart : create 0 "island" 0 = .ok ⟨0, "island", 0, 0, 0, [], []⟩ := rfl
  exact (consistent_create hstart).changeAll _

theorem dead_analyze_island :
    island.Consistent ∧ island.malformed? = none ∧
      ∃ lv, island.analyze = .ok lv ∧ lv.dead island false = .ok [2, 4] ∧
        lv.liveSomewhere island (.instr 0 0) = .ok true ∧
        lv.liveSomewhere island (.instr 0 4) = .ok false := by
  have hv : island.malformed? = none := by decide
  obtain ⟨lv, hlv, hdead, -, hlive⟩ := dead_analyze_eq consistent_island hv
  refine ⟨consistent_island, hv, lv, hlv, ?_, ?_, ?_⟩
  · rw [hdead]
    decide
  · rw [hlive]
    decide
  · rw [hlive]
    decide

end Func
end DeadCode
