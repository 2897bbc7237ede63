import DeadCode.Proofs.Liveness.Sweep
import Mathlib.Algebra.Group.Action.Defs
import Mathlib.Algebra.Order.BigOperators.Group.List
import Mathlib.Algebra.Order.Ring.Nat
import Mathlib.Data.List.Perm.Subperm

/-! # Sweeps settle

Every sweep that changes something puts a value into a set, and only values in use get into them.
The sets have room for no more than that, so within the bound on sweeps there is one that changes
nothing.
-/
namespace DeadCode

namespace ValueSet

theorem nodup_members (s : ValueSet) : s.members.Nodup := by
  refine s.increasing.imp ?_
  rintro v w hlt rfl
  exact Value.Precedes.irrefl v hlt

theorem length_le_of_subset {s : ValueSet} {l : List Value} (h : ∀ v ∈ s, v ∈ l) :
    s.members.length ≤ l.length := (List.subperm_of_subset s.nodup_members h).length_le

theorem eq_of_subset_of_length_le {s t : ValueSet} (h : ∀ v ∈ s, v ∈ t)
    (hle : t.members.length ≤ s.members.length) : s = t := by
  have hp := (List.subperm_of_subset s.nodup_members h).perm_of_length_le hle
  ext v
  exact hp.mem_iff

end ValueSet

def LiveSides.weight (s : LiveSides) : Nat := s.before.members.length + s.after.members.length

def Facts.weightAt (facts : Facts) (p : Place) : Nat :=
  match facts.at? p with
  | some s => s.weight
  | none => 0

namespace Func
variable {fn : Func} {facts : Facts}

def places (fn : Func) : List Place :=
  fn.blockIds.flatMap fun b =>
    (List.range ((fn.block? b).elim 0 (·.code.length))).map fun k => ⟨b, k⟩

theorem mem_places {p : Place} : p ∈ fn.places ↔ ∃ x, fn.at? p = some x := by
  obtain ⟨b, k⟩ := p
  simp only [places, List.mem_flatMap, List.mem_map, List.mem_range, Place.mk.injEq,
    at?_eq_some_iff]
  constructor
  · rintro ⟨c, -, j, hj, rfl, rfl⟩
    cases hb : fn.block? c with
    | none => simp [hb] at hj
    | some block =>
      simp only [hb, Option.elim_some] at hj
      exact ⟨_, block, rfl, List.getElem?_eq_getElem hj⟩
  · rintro ⟨x, block, hb, hx⟩
    obtain ⟨hlt, -⟩ := List.getElem?_eq_some_iff.mp hx
    exact ⟨b, mem_blockIds_of_block? hb, k, by simpa [hb] using hlt, rfl, rfl⟩

theorem length_places (fn : Func) : fn.places.length = fn.code.length := by
  have hmap : fn.blockIds.map (fun b => (fn.block? b).elim 0 (·.code.length)) =
      fn.blocks.map (·.code.length) := by
    refine List.ext_getElem (by simp [blockIds]) ?_
    intro n hn hn'
    have hlt : n < fn.blocks.length := by simpa using hn'
    simp [blockIds, block?, nth?, hlt]
  simp only [places, code, List.length_flatMap, List.length_map, List.length_range, hmap]

def weight (fn : Func) (facts : Facts) : Nat := (fn.places.map facts.weightAt).sum

def used (fn : Func) : List Value := fn.code.flatMap (·.node.uses)

theorem Growing.weight_le (h : fn.Growing facts) :
    fn.weight facts ≤ 2 * fn.code.length * fn.used.length := by
  have hat : ∀ w ∈ fn.places.map facts.weightAt, w ≤ 2 * fn.used.length := by
    intro w hw
    obtain ⟨p, hp, rfl⟩ := List.mem_map.mp hw
    obtain ⟨x, hx⟩ := mem_places.mp hp
    obtain ⟨s, hs⟩ := h.fits.exists_sides hx
    have hB : s.before.members.length ≤ fn.used.length := by
      refine ValueSet.length_le_of_subset fun v hv => ?_
      exact List.mem_flatMap.mpr (h.before_needed p v ⟨s, hs, hv⟩).2.exists_user
    have hA : s.after.members.length ≤ fn.used.length := by
      refine ValueSet.length_le_of_subset fun v hv => ?_
      exact List.mem_flatMap.mpr (h.after_needed p v ⟨s, hs, hv⟩).2.exists_user
    simp only [Facts.weightAt, hs, LiveSides.weight]
    omega
  have hsum := List.sum_le_card_nsmul _ _ hat
  rw [List.length_map, length_places, smul_eq_mul] at hsum
  calc fn.weight facts ≤ fn.code.length * (2 * fn.used.length) := hsum
    _ = 2 * fn.code.length * fn.used.length := by rw [← mul_assoc, mul_comm fn.code.length 2]

theorem Fits.weightAt_le {more : Facts} (h : fn.Fits facts) (h' : fn.Fits more)
    (hle : facts.Within more) (p : Place) :
    facts.weightAt p ≤ more.weightAt p ∧
      (facts.weightAt p = more.weightAt p → facts.at? p = more.at? p) := by
  unfold Facts.weightAt
  cases hs : facts.at? p with
  | none => simp [h'.at?_eq_none_iff.mpr (h.at?_eq_none_iff.mp hs)]
  | some s =>
    obtain ⟨x, hx⟩ := h.exists_instr hs
    obtain ⟨t, ht⟩ := h'.exists_sides hx
    have hB : ∀ v ∈ s.before, v ∈ t.before := by
      intro v hv
      simpa [Facts.LiveBefore, ht] using hle.before p v ⟨s, hs, hv⟩
    have hA : ∀ v ∈ s.after, v ∈ t.after := by
      intro v hv
      simpa [Facts.LiveAfter, ht] using hle.after p v ⟨s, hs, hv⟩
    have hBle := ValueSet.length_le_of_subset hB
    have hAle := ValueSet.length_le_of_subset hA
    simp only [ht, LiveSides.weight]
    refine ⟨by omega, fun he => ?_⟩
    obtain ⟨sb, sa⟩ := s
    obtain ⟨tb, ta⟩ := t
    dsimp only at hB hA hBle hAle he
    rw [ValueSet.eq_of_subset_of_length_le hB (by omega),
      ValueSet.eq_of_subset_of_length_le hA (by omega)]

theorem Fits.weight_lt {more : Facts} (h : fn.Fits facts) (h' : fn.Fits more)
    (hle : facts.Within more) (hne : facts ≠ more) : fn.weight facts < fn.weight more := by
  have hat : ∃ p ∈ fn.places, facts.at? p ≠ more.at? p := by
    by_contra hnone
    push Not at hnone
    refine hne (h.ext h' fun p => ?_)
    cases hx : fn.at? p with
    | none => rw [h.at?_eq_none_iff.mpr hx, h'.at?_eq_none_iff.mpr hx]
    | some x => exact hnone p (mem_places.mpr ⟨x, hx⟩)
  obtain ⟨p, hp, hdiff⟩ := hat
  refine List.sum_lt_sum _ _ (fun q _ => (h.weightAt_le h' hle q).1) ⟨p, hp, ?_⟩
  obtain ⟨hlep, heqp⟩ := h.weightAt_le h' hle p
  exact lt_of_le_of_ne hlep fun he => hdiff (heqp he)

/-- How many values the sets could still take. -/
def room (fn : Func) (facts : Facts) : Nat :=
  2 * fn.code.length * fn.used.length - fn.weight facts

theorem room_lt_sweepBound (fn : Func) (facts : Facts) : fn.room facts < fn.sweepBound := by
  change 2 * fn.code.length * fn.used.length - fn.weight facts <
    2 * fn.code.length * fn.used.length + 1
  omega

theorem Growing.room_sweep_lt (h : fn.Growing facts) {order : List Int}
    (hne : fn.sweep order facts ≠ facts) : fn.room (fn.sweep order facts) < fn.room facts := by
  obtain ⟨hgrow, hle⟩ := h.sweep order
  have hlt := h.fits.weight_lt hgrow.fits hle hne.symm
  have hbound := hgrow.weight_le
  unfold room
  omega

/-- After enough sweeps the sets do not change any more. -/
theorem Growing.settle (h : fn.Growing facts) (order : List Int) {fuel : Nat}
    (hfuel : fn.room facts < fuel) :
    fn.Growing (fn.settle order fuel facts).1 ∧
      fn.sweep order (fn.settle order fuel facts).1 = (fn.settle order fuel facts).1 := by
  induction fuel generalizing facts with
  | zero => omega
  | succ fuel ih =>
    rw [Func.settle]
    by_cases he : fn.sweep order facts = facts
    · rw [if_pos he, he]
      exact ⟨h, he⟩
    · rw [if_neg he]
      have hlt := h.room_sweep_lt he
      exact ih (h.sweep order).1 (by omega)

end Func
end DeadCode
