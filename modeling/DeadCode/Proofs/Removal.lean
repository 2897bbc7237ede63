import DeadCode.Proofs.Verification

/-! # What a removal needs and what it leaves

A list of instructions can be removed if they are all there, none of them is a terminator, and no
instruction that stays refers to one of them. The removal then leaves a well-formed function if it
was given one: terminators and the targets in them stay, merges still lead their blocks, and every
operand that is left is still there.
-/
namespace DeadCode
namespace Func
variable {fn : Func} {ins : List Int}

/-- The listed instructions are alive, none is a terminator, and none is used by one that stays. -/
structure Removable (fn : Func) (ins : List Int) : Prop where
  present : ∀ i ∈ ins, ∃ x ∈ fn.code, x.id = i ∧ x.kind ≠ .terminator
  unused : ∀ x ∈ fn.code, x.id ∉ ins → ∀ i ∈ ins, Value.instr fn.id i ∉ x.node.uses

theorem removalFault?_eq_none_iff (h : fn.Consistent) {i : Int} :
    fn.removalFault? i = none ↔ ∃ x ∈ fn.code, x.id = i ∧ x.kind ≠ .terminator := by
  unfold removalFault?
  cases hs : fn.slot i with
  | error m =>
    simp only [reduceCtorEq, false_iff]
    rintro ⟨x, hx, rfl, -⟩
    obtain ⟨b, block, hb, hx⟩ := mem_code_iff.mp hx
    rw [h.slot_eq hb hx] at hs
    cases hs
  | ok s =>
    obtain ⟨hn, ha⟩ := slot_eq_ok_iff.mp hs
    obtain ⟨block, hb, x, hx, rfl⟩ := h.placed i s hn ha
    have hk : s.kind = x.kind := by
      rw [h.slot_eq hb hx] at hs
      exact (congrArg Slot.kind (Except.ok.inj hs)).symm
    by_cases ht : s.kind = .terminator
    · simp only [ht, ↓reduceIte, reduceCtorEq, false_iff]
      rintro ⟨y, hy, hid, hyk⟩
      rw [h.eq_of_mem_code hy (mem_code hb hx) hid, ← hk] at hyk
      exact hyk ht
    · simp only [ht, ↓reduceIte, true_iff]
      exact ⟨x, mem_code hb hx, rfl, hk ▸ ht⟩

theorem clashAt?_eq_none_iff {x : Instr} :
    fn.clashAt? ins x = none ↔
      (x.id ∉ ins → ∀ i ∈ ins, Value.instr fn.id i ∉ x.node.uses) := by
  unfold clashAt?
  by_cases hx : x.id ∈ ins
  · simp [hx]
  · simp only [hx, ↓reduceIte, List.findSome?_eq_none_iff, not_false_eq_true, true_imp_iff]
    constructor
    · intro h i hi hv
      have hn := h _ hv
      simp [hi] at hn
    · intro h v hv
      cases v with
      | absent => rfl
      | arg owner i => rfl
      | const owner n => rfl
      | instr owner i =>
        simp only [ite_eq_right_iff, reduceCtorEq, imp_false, not_and]
        rintro rfl hi
        exact h i hi hv

/-- A removal succeeds if and only if its list is removable. An empty list changes nothing. -/
theorem removeAll_eq_ok_iff (h : fn.Consistent) {rest : Func} :
    fn.removeAll ins = .ok rest ↔
      fn.Removable ins ∧ rest = if ins = [] then fn else fn.without ins := by
  have hpresent : ins.findSome? fn.removalFault? = none ↔
      ∀ i ∈ ins, ∃ x ∈ fn.code, x.id = i ∧ x.kind ≠ .terminator := by
    rw [List.findSome?_eq_none_iff]
    exact forall₂_congr fun i _ => removalFault?_eq_none_iff h
  have hunused : fn.code.findSome? (fn.clashAt? ins) = none ↔
      ∀ x ∈ fn.code, x.id ∉ ins → ∀ i ∈ ins, Value.instr fn.id i ∉ x.node.uses := by
    rw [List.findSome?_eq_none_iff]
    exact forall₂_congr fun x _ => clashAt?_eq_none_iff
  unfold removeAll
  cases hp : ins.findSome? fn.removalFault? with
  | some m =>
    simp only [reduceCtorEq, false_iff]
    rintro ⟨hr, -⟩
    simp [hpresent.mpr hr.present] at hp
  | none =>
    by_cases he : ins = []
    · subst he
      simp only [↓reduceIte, Except.ok.injEq]
      exact ⟨fun e => ⟨⟨by simp, by simp⟩, e.symm⟩, fun e => e.2.symm⟩
    · cases hc : fn.code.findSome? (fn.clashAt? ins) with
      | some m =>
        simp only [he, ↓reduceIte, reduceCtorEq, false_iff]
        rintro ⟨hr, -⟩
        simp [hunused.mpr hr.unused] at hc
      | none =>
        simp only [he, ↓reduceIte, Except.ok.injEq]
        exact ⟨fun e => ⟨⟨hpresent.mp hp, hunused.mp hc⟩, e.symm⟩, fun e => e.2.symm⟩

theorem find?_filter_notMem {i : Int} (hi : i ∉ ins) (code : List Instr) :
    (code.filter (·.id ∉ ins)).find? (·.id = i) = code.find? (·.id = i) := by
  rw [List.find?_filter]
  congr 1
  funext x
  by_cases hx : x.id = i
  · simp [hx, hi]
  · simp [hx]

namespace Removable

theorem alive (hr : fn.Removable ins) (h : fn.Consistent) {i : Int} (hi : i ∈ ins) :
    fn.alive i = true := by
  obtain ⟨x, hx, hid, -⟩ := hr.present i hi
  exact h.alive_iff.mpr ⟨x, hx, hid⟩

theorem id_notMem (hr : fn.Removable ins) (h : fn.Consistent) {t : Instr} (ht : t ∈ fn.code)
    (hk : t.kind = .terminator) : t.id ∉ ins := by
  intro hi
  obtain ⟨x, hx, hid, hxk⟩ := hr.present t.id hi
  rw [h.eq_of_mem_code hx ht hid] at hxk
  exact hxk hk

theorem length_code_without (hr : fn.Removable ins) (hne : ins ≠ []) :
    (fn.without ins).code.length < fn.code.length := by
  obtain ⟨i, hi⟩ := List.exists_mem_of_ne_nil _ hne
  obtain ⟨x, hx, rfl, -⟩ := hr.present i hi
  rw [Func.code_without]
  exact List.length_filter_lt_length_iff_exists.mpr ⟨x, hx, by simpa using hi⟩

theorem size_add_eraseDups (hr : fn.Removable ins) (h : fn.Consistent) :
    (fn.without ins).size + ins.eraseDups.length = fn.size := by
  have hgone := h.length_eraseDups fun i hi => hr.alive h hi
  have hle := List.length_filter_le (fun x : Instr => decide (x.id ∈ ins)) fn.code
  have hsize := h.size_eq
  change fn.size - ins.eraseDups.length + ins.eraseDups.length = fn.size
  omega

theorem code_without (hr : fn.Removable ins) (h : fn.Consistent) (hw : fn.WellFormed)
    {block : BasicBlock} (hblock : block ∈ fn.blocks) :
    ∃ before last, block.code = before ++ [last] ∧ last.kind = .terminator ∧
      (∀ x ∈ before, x.kind ≠ .terminator) ∧
      (block.without ins).code = before.filter (·.id ∉ ins) ++ [last] := by
  obtain ⟨before, last, he, hk, hbefore⟩ := hw.ended block hblock
  refine ⟨before, last, he, hk, hbefore, ?_⟩
  obtain ⟨b, hb⟩ := mem_blocks_iff.mp hblock
  have hstay := hr.id_notMem h (mem_code hb (by simp [he])) hk
  simp [BasicBlock.without, he, List.filter_append, hstay]

theorem succ_block (hr : fn.Removable ins) (h : fn.Consistent) (hw : fn.WellFormed)
    {block : BasicBlock} (hblock : block ∈ fn.blocks) : (block.without ins).succ = block.succ := by
  obtain ⟨before, last, he, -, -, he'⟩ := hr.code_without h hw hblock
  simp only [BasicBlock.succ, BasicBlock.terminator?, he, he', List.getLast?_append,
    List.getLast?_singleton, Option.some_or]

theorem succ_eq (hr : fn.Removable ins) (h : fn.Consistent) (hw : fn.WellFormed) (b : Int) :
    (fn.without ins).succ b = fn.succ b := by
  simp only [succ, block?_without]
  cases hb : fn.block? b with
  | none => rfl
  | some block => exact hr.succ_block h hw (mem_blocks hb)

theorem readable (hr : fn.Removable ins) {x : Instr} (hx : x ∈ fn.code) (hstay : x.id ∉ ins)
    {v : Value} (hv : v ∈ x.node.uses) (hread : fn.Readable v) : (fn.without ins).Readable v := by
  cases v with
  | absent => exact hread
  | const owner n => exact hread
  | arg owner i => exact hread
  | instr owner i =>
    obtain ⟨rfl, s, hs, ha, hk⟩ := hread
    have hi : i ∉ ins := fun hi => hr.unused x hx hstay i hi hv
    refine ⟨rfl, s, ?_, ha, hk⟩
    simp [slots_without, hs, hi]

/-- A removal keeps a function well-formed. -/
theorem wellFormed (hr : fn.Removable ins) (h : fn.Consistent) (hw : fn.WellFormed) :
    (fn.without ins).WellFormed := by
  have hlen : (fn.without ins).blocks.length = fn.blocks.length := by simp [without]
  have hhas : ∀ b, (fn.without ins).hasBlock b = fn.hasBlock b := by
    intro b
    simp only [hasBlock, hlen]
  have hmem : ∀ {block}, block ∈ (fn.without ins).blocks →
      ∃ old ∈ fn.blocks, old.without ins = block := List.mem_map.mp
  refine ⟨?_, ?_, ?_, ?_, ?_, ?_⟩
  · simpa [without] using hw.nonempty
  · intro block hblock s hs
    obtain ⟨old, ho, rfl⟩ := hmem hblock
    rw [hr.succ_block h hw ho] at hs
    rw [hhas]
    exact hw.targets old ho s hs
  · intro block hblock
    obtain ⟨old, ho, rfl⟩ := hmem hblock
    obtain ⟨before, last, -, hk, hbefore, he⟩ := hr.code_without h hw ho
    exact ⟨_, last, he, hk, fun x hx => hbefore x (List.mem_filter.mp hx).1⟩
  · intro block hblock before x y after he hy
    obtain ⟨old, ho, rfl⟩ := hmem hblock
    have hp := (hw.pairwise_merges ho).sublist (List.filter_sublist (p := fun x => x.id ∉ ins))
    change (old.without ins).code.Pairwise _ at hp
    rw [he] at hp
    exact (List.pairwise_cons.mp (List.pairwise_append.mp hp).2.1).1 y (by simp) hy
  · intro b block hb x hx hk
    rw [block?_without] at hb
    obtain ⟨old, ho, rfl⟩ := Option.map_eq_some_iff.mp hb
    obtain ⟨hx, -⟩ := List.mem_filter.mp hx
    obtain ⟨hnodup, hpreds⟩ := hw.edges b old ho x hx hk
    refine ⟨hnodup, fun p => ?_⟩
    rw [hhas, hr.succ_eq h hw]
    exact hpreds p
  · intro x hx v hv
    obtain ⟨hx, hstay⟩ := mem_code_without.mp hx
    exact hr.readable hx hstay hv (hw.operands x hx v hv)

end Removable
end Func
end DeadCode
