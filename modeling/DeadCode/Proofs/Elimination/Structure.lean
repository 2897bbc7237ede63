import DeadCode.Proofs.Elimination.Chains

/-! # What removals leave in place

However many instructions are removed, and however an elimination ends, the function that is left is
the given one without some of its instructions. Terminators and all that they need are never among
these. The other instructions stay in their blocks and in the same order.
-/
namespace DeadCode
namespace Func
variable {fn mid rest : Func} {ins : List Int} {i : Int}

/-- The second function is the first with instructions taken out that no terminator needs. -/
structure Trimmed (fn rest : Func) : Prop where
  accepted : rest.malformed? = none
  needed : ∀ i t, fn.IsTerminator t → Relation.ReflTransGen fn.UsedBy i t → rest.alive i = true
  instr_eq : ∀ i, rest.alive i = true → rest.instr i = fn.instr i
  slot_eq : ∀ i, rest.alive i = true → rest.slot i = fn.slot i
  block_eq : ∀ b, rest.block? b = (fn.block? b).map fun block =>
    { block with code := block.code.filter fun x => rest.alive x.id }
  succ_eq : ∀ b, rest.succ b = fn.succ b
  pred_eq : ∀ b, rest.pred b = fn.pred b
  argCount_eq : rest.argCount = fn.argCount
  id_eq : rest.id = fn.id

theorem alive_iff_slot : fn.alive i = true ↔ ∃ s, fn.slot i = .ok s := by
  rw [alive_eq_true_iff]
  exact exists_congr fun s => slot_eq_ok_iff.symm

/-- An instruction is alive if a chain of users leads from it to a terminator. -/
theorem WellFormed.alive_of_needed (hw : fn.WellFormed) (hc : fn.Consistent) {t : Int}
    (ht : fn.IsTerminator t) (h : Relation.ReflTransGen fn.UsedBy i t) : fn.alive i = true := by
  rcases Relation.ReflTransGen.cases_head h with rfl | ⟨user, ⟨x, hx, -, hv⟩, -⟩
  · obtain ⟨x, hx, hid, -⟩ := ht
    exact hc.alive_iff.mpr ⟨x, hx, hid⟩
  · obtain ⟨-, s, hs, ha, -⟩ := hw.operands x hx _ hv
    exact alive_eq_true_iff.mpr ⟨s, hs, ha⟩

namespace Removable

theorem notMem_of_needed (hr : fn.Removable ins) (hc : fn.Consistent) {t : Int}
    (ht : fn.IsTerminator t) (h : Relation.ReflTransGen fn.UsedBy i t) : i ∉ ins := by
  induction h using Relation.ReflTransGen.head_induction_on with
  | refl =>
    obtain ⟨x, hx, rfl, hk⟩ := ht
    exact hr.id_notMem hc hx hk
  | head hstep _ ih =>
    obtain ⟨x, hx, rfl, hv⟩ := hstep
    intro hi
    exact hr.unused x hx ih _ hi hv

theorem slot_without (hi : i ∉ ins) : (fn.without ins).slot i = fn.slot i := by
  unfold slot
  rw [slots_without]
  cases nth? fn.slots i with
  | none => rfl
  | some s => simp [hi, Func.without]

theorem instr_without (hi : i ∉ ins) : (fn.without ins).instr i = fn.instr i := by
  unfold instr
  rw [slot_without hi]
  cases fn.slot i with
  | error m => rfl
  | ok s =>
    dsimp only
    rw [block?_without]
    cases fn.block? s.block with
    | none => rfl
    | some block =>
      simp only [Option.map_some, Option.bind_some, BasicBlock.without, find?_filter_notMem hi]
      rfl

theorem trimmed (hr : fn.Removable ins) (hc : fn.Consistent) (hw : fn.WellFormed) :
    fn.Trimmed (fn.without ins) := by
  have halive : ∀ {i}, (fn.without ins).alive i = true ↔ fn.alive i = true ∧ i ∉ ins :=
    alive_without
  refine ⟨(hr.wellFormed hc hw).malformed?_eq_none, ?_, ?_, ?_, ?_, hr.succ_eq hc hw, ?_, rfl, rfl⟩
  · intro i t ht h
    exact halive.mpr ⟨hw.alive_of_needed hc ht h, hr.notMem_of_needed hc ht h⟩
  · intro i hi
    exact instr_without (halive.mp hi).2
  · intro i hi
    exact slot_without (halive.mp hi).2
  · intro b
    rw [block?_without]
    cases hb : fn.block? b with
    | none => rfl
    | some block =>
      have hfilter : block.code.filter (·.id ∉ ins) =
          block.code.filter fun x => (fn.without ins).alive x.id := by
        apply List.filter_congr
        intro x hx
        have hx : fn.alive x.id = true := hc.alive_iff.mpr ⟨x, mem_code hb hx, rfl⟩
        rw [Bool.eq_iff_iff, halive, decide_eq_true_eq]
        exact (and_iff_right hx).symm
      simp only [Option.map_some, BasicBlock.without, hfilter]
  · intro b
    have hids : (fn.without ins).blockIds = fn.blockIds := by simp [blockIds, Func.without]
    simp only [pred, hids, hr.succ_eq hc hw]

end Removable

namespace Trimmed

theorem refl (hc : fn.Consistent) (hw : fn.WellFormed) : fn.Trimmed fn := by
  refine ⟨hw.malformed?_eq_none, fun i t => hw.alive_of_needed hc, fun _ _ => rfl, fun _ _ => rfl, ?_,
    fun _ => rfl, fun _ => rfl, rfl, rfl⟩
  intro b
  cases hb : fn.block? b with
  | none => rfl
  | some block =>
    have hall : block.code.filter (fun x => fn.alive x.id) = block.code := by
      apply List.filter_eq_self.mpr
      intro x hx
      exact hc.alive_iff.mpr ⟨x, mem_code hb hx, rfl⟩
    simp only [Option.map_some, hall]

theorem alive (h : fn.Trimmed rest) (hi : rest.alive i = true) : fn.alive i = true := by
  obtain ⟨s, hs⟩ := alive_iff_slot.mp hi
  exact alive_iff_slot.mpr ⟨s, h.slot_eq i hi ▸ hs⟩

theorem mem_code (h : fn.Trimmed rest) {x : Instr} (hx : x ∈ fn.code)
    (ha : rest.alive x.id = true) : x ∈ rest.code := by
  obtain ⟨b, block, hb, hx⟩ := mem_code_iff.mp hx
  have hb' := h.block_eq b
  rw [hb] at hb'
  exact Func.mem_code hb' (List.mem_filter.mpr ⟨hx, ha⟩)

/-- A chain of users that leads to a terminator is kept from its first instruction to its last. -/
theorem chain (h : fn.Trimmed rest) {t : Int} (ht : fn.IsTerminator t)
    (hchain : Relation.ReflTransGen fn.UsedBy i t) :
    rest.IsTerminator t ∧ Relation.ReflTransGen rest.UsedBy i t := by
  constructor
  · obtain ⟨x, hx, rfl, hk⟩ := ht
    exact ⟨x, h.mem_code hx (h.needed _ _ ⟨x, hx, rfl, hk⟩ .refl), rfl, hk⟩
  · induction hchain using Relation.ReflTransGen.head_induction_on with
    | refl => exact .refl
    | head hstep hlater ih =>
      obtain ⟨x, hx, rfl, hv⟩ := hstep
      rw [← h.id_eq] at hv
      exact .head ⟨x, h.mem_code hx (h.needed _ _ ht hlater), rfl, hv⟩ ih

theorem trans (h : fn.Trimmed mid) (h' : mid.Trimmed rest) : fn.Trimmed rest := by
  refine ⟨h'.accepted, ?_, ?_, ?_, ?_, ?_, ?_, ?_, ?_⟩
  · intro i t ht hchain
    obtain ⟨ht', hchain'⟩ := h.chain ht hchain
    exact h'.needed i t ht' hchain'
  · intro i hi
    exact (h'.instr_eq i hi).trans (h.instr_eq i (h'.alive hi))
  · intro i hi
    exact (h'.slot_eq i hi).trans (h.slot_eq i (h'.alive hi))
  · intro b
    rw [h'.block_eq, h.block_eq, Option.map_map]
    congr 1
    funext block
    simp only [Function.comp_apply, List.filter_filter]
    congr 2
    funext x
    rw [Bool.eq_iff_iff, Bool.and_eq_true]
    exact and_iff_left_of_imp h'.alive
  · intro b
    exact (h'.succ_eq b).trans (h.succ_eq b)
  · intro b
    exact (h'.pred_eq b).trans (h.pred_eq b)
  · exact h'.argCount_eq.trans h.argCount_eq
  · exact h'.id_eq.trans h.id_eq

end Trimmed

theorem Thins.trimmed (ht : fn.Thins rest) (hc : fn.Consistent) (hw : fn.WellFormed) :
    fn.Trimmed rest := by
  induction ht with
  | refl fn => exact .refl hc hw
  | step hr _ ih => exact (hr.trimmed hc hw).trans (ih (hr.consistent hc) (hr.wellFormed hc hw))

theorem thins_removeAll (hc : fn.Consistent) (h : fn.removeAll ins = .ok rest) : fn.Thins rest := by
  obtain ⟨hr, rfl⟩ := (removeAll_eq_ok_iff hc).mp h
  split
  · exact .refl fn
  · exact .step hr (.refl _)

/-- A successful removal, and an elimination however it ends, trim a function that the verifier
accepts. The verifier still accepts the function, its terminators and all that they need are left,
and the instructions that are left keep their number, payload, block and order. The names, targets
and predecessors of the blocks and the number of arguments are the same. -/
theorem trimmed_removeAll_eliminate (hc : fn.Consistent) (hv : fn.malformed? = none) :
    (∀ ins rest, fn.removeAll ins = .ok rest → fn.Trimmed rest) ∧
      ∀ o, fn.Trimmed (fn.eliminate o).func := by
  have hw := malformed?_eq_none_iff.mp hv
  constructor
  · intro ins rest h
    exact (thins_removeAll hc h).trimmed hc hw
  · intro o
    exact (thins_eliminate hc o).trimmed hc hw

/-- The first instruction reads a value that is computed behind it. -/
def lookahead : Func := changeAll ⟨0, "lookahead", 0, 0, 0, [], []⟩ [
  .addBlock "entry",
  .addPlain 0 "neg" [.instr 0 1],
  .addPlain 0 "one" [],
  .addPlain 0 "neg" [.instr 0 1],
  .addTerminator 0 "ret" .absent [.instr 0 0] []]

theorem trimmed_eliminate_lookahead :
    lookahead.Consistent ∧ lookahead.malformed? = none ∧
      (lookahead.eliminate ⟨1, true, true, none, .standard false⟩).ending =
        .halted (.misuse (.stillUsed 1 0 "lookahead")) ∧
      (lookahead.eliminate ⟨1, true, true, none, .standard false⟩).func.alive 2 = false ∧
      lookahead.Trimmed (lookahead.eliminate ⟨1, true, true, none, .standard false⟩).func := by
  have hstart : create 0 "lookahead" 0 = .ok ⟨0, "lookahead", 0, 0, 0, [], []⟩ := rfl
  have hc : lookahead.Consistent := (consistent_create hstart).changeAll _
  have hv : lookahead.malformed? = none := by decide
  exact ⟨hc, hv, by decide, by decide, (trimmed_removeAll_eliminate hc hv).2 _⟩

end Func
end DeadCode
