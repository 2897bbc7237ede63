import DeadCode.Liveness.Basic
import DeadCode.Proofs.Liveness.Settle
import DeadCode.Proofs.Liveness.VisitOrder

/-! # Exactness of liveness

The sets in which sweeps end are the least solution of the equations, so they are what paths say and
do not depend on the order of the blocks. A live map hands them out instruction by instruction.
-/
namespace DeadCode

namespace Func
variable {fn : Func} {order : List Int}

/-- The sets in which sweeps in this order end. -/
def settled (fn : Func) (order : List Int) : Facts :=
  (fn.settle order fn.sweepBound fn.noFacts).1

theorem growing_settled (fn : Func) (order : List Int) :
    fn.Growing (fn.settled order) ∧ fn.sweep order (fn.settled order) = fn.settled order :=
  (growing_noFacts fn).settle order (room_lt_sweepBound fn fn.noFacts)

theorem liveEquations_settled (h : fn.blockIds ⊆ order) :
    fn.LiveEquations (fn.settled order).LiveBefore (fn.settled order).LiveAfter := by
  obtain ⟨hgrow, hfix⟩ := growing_settled fn order
  exact hgrow.liveEquations fun b hb => hgrow.visit_eq hfix (h hb)

theorem liveBefore_settled_iff (h : fn.blockIds ⊆ order) {p : Place} {v : Value} :
    (fn.settled order).LiveBefore p v ↔ v.tracked = true ∧ fn.Needs v p := by
  constructor
  · exact (growing_settled fn order).1.before_needed p v
  · rintro ⟨hv, hn⟩
    exact (liveEquations_settled h).before_of_needs hv hn

theorem liveAfter_settled_iff (h : fn.blockIds ⊆ order) {p : Place} {v : Value} :
    (fn.settled order).LiveAfter p v ↔ v.tracked = true ∧ fn.NeedsAfter v p := by
  constructor
  · exact (growing_settled fn order).1.after_needed p v
  · rintro ⟨hv, hn⟩
    exact (liveEquations_settled h).after_of_needsAfter hv hn

theorem within_settled {other : List Int} (h : fn.blockIds ⊆ order) (h' : fn.blockIds ⊆ other) :
    (fn.settled order).Within (fn.settled other) := by
  constructor
  · intro p v hv
    exact (liveBefore_settled_iff h').mpr ((liveBefore_settled_iff h).mp hv)
  · intro p v hv
    exact (liveAfter_settled_iff h').mpr ((liveAfter_settled_iff h).mp hv)

/-- The order of the blocks does not matter as long as all blocks are visited. -/
theorem settled_eq {other : List Int} (h : fn.blockIds ⊆ order) (h' : fn.blockIds ⊆ other) :
    fn.settled order = fn.settled other :=
  (growing_settled fn order).1.fits.eq_of_within (growing_settled fn other).1.fits
    (within_settled h h') (within_settled h' h)

theorem mem_liveEntries {facts : Facts} {e : LiveEntry} :
    e ∈ fn.liveEntries facts ↔ ∃ p x s, fn.at? p = some x ∧ facts.at? p = some s ∧
      e = ⟨x.id, s, x.node.useTable⟩ := by
  simp only [liveEntries, List.mem_flatMap, List.mem_map, Prod.exists]
  constructor
  · rintro ⟨block, sets, hzip, x, s, hpair, rfl⟩
    obtain ⟨n, hn⟩ := List.mem_iff_getElem?.mp hzip
    obtain ⟨k, hk⟩ := List.mem_iff_getElem?.mp hpair
    obtain ⟨hblock, hsets⟩ := List.getElem?_zip_eq_some.mp hn
    obtain ⟨hx, hs⟩ := List.getElem?_zip_eq_some.mp hk
    exact ⟨⟨n, k⟩, x, s, at?_eq_some_iff.mpr ⟨block, hblock, hx⟩,
      Option.bind_eq_some_iff.mpr ⟨sets, hsets, hs⟩, rfl⟩
  · rintro ⟨p, x, s, hx, hs, rfl⟩
    obtain ⟨block, hblock, hx⟩ := at?_eq_some_iff.mp hx
    obtain ⟨sets, hsets, hs⟩ := Option.bind_eq_some_iff.mp hs
    obtain ⟨n, hpn, hsets⟩ := nth?_eq_some_iff.mp hsets
    obtain ⟨m, hpm, hblock⟩ := nth?_eq_some_iff.mp hblock
    obtain rfl : m = n := by omega
    exact ⟨block, sets, List.mem_of_getElem? (List.getElem?_zip_eq_some.mpr ⟨hblock, hsets⟩),
      x, s, List.mem_of_getElem? (List.getElem?_zip_eq_some.mpr ⟨hx, hs⟩), rfl⟩

theorem liveness_entries (fn : Func) :
    fn.liveness.entries = fn.liveEntries (fn.settled fn.visitOrder) := rfl

theorem exists_mem_entries {p : Place} {s : LiveSides}
    (hs : (fn.settled fn.visitOrder).at? p = some s) : ∃ e ∈ fn.liveness.entries, e.sides = s := by
  obtain ⟨x, hx⟩ := (growing_settled fn fn.visitOrder).1.fits.exists_instr hs
  exact ⟨_, mem_liveEntries.mpr ⟨p, x, s, hx, hs, rfl⟩, rfl⟩

theorem blockIds_subset_visitOrder (fn : Func) : fn.blockIds ⊆ fn.visitOrder :=
  fn.visitOrder_perm.symm.subset

theorem Consistent.place_eq (h : fn.Consistent) {p q : Place} {x y : Instr}
    (hx : fn.at? p = some x) (hy : fn.at? q = some y) (hid : x.id = y.id) : p = q := by
  obtain ⟨block, hb, hx⟩ := at?_eq_some_iff.mp hx
  obtain ⟨other, hc, hy⟩ := at?_eq_some_iff.mp hy
  obtain ⟨b, k⟩ := p
  obtain ⟨c, j⟩ := q
  dsimp only at hb hc hx hy
  obtain ⟨rfl, rfl⟩ := h.eq_of_id hb hc (List.mem_of_getElem? hx) (List.mem_of_getElem? hy) hid
  obtain rfl : block = other := Option.some.inj (hb.symm.trans hc)
  have hnodup : block.code.Nodup :=
    List.Nodup.of_map _ ((h.increasing block (mem_blocks hb)).imp fun hlt => Int.ne_of_lt hlt)
  have hlt := (List.getElem?_eq_some_iff.mp hx).1
  rw [(List.getElem?_inj hlt hnodup).mp (hx.trans hy.symm)]

/-- The live map of a consistent function has an entry for every instruction. -/
theorem Consistent.find?_liveness (h : fn.Consistent) {p : Place} {x : Instr}
    (hx : fn.at? p = some x) :
    ∃ s, (fn.settled fn.visitOrder).at? p = some s ∧
      fn.liveness.find? x.id = some ⟨x.id, s, x.node.useTable⟩ := by
  obtain ⟨s, hs⟩ := (growing_settled fn fn.visitOrder).1.fits.exists_sides hx
  refine ⟨s, hs, ?_⟩
  have hmem : ⟨x.id, s, x.node.useTable⟩ ∈ fn.liveness.entries :=
    mem_liveEntries.mpr ⟨p, x, s, hx, hs, rfl⟩
  cases hfind : fn.liveness.find? x.id with
  | none =>
    have hnone := List.find?_eq_none.mp hfind _ hmem
    simp at hnone
  | some e =>
    obtain ⟨q, y, t, hy, ht, rfl⟩ := mem_liveEntries.mp (List.mem_of_find?_eq_some hfind)
    have hid : y.id = x.id := by simpa using List.find?_some hfind
    obtain rfl := h.place_eq hy hx hid
    obtain rfl := Option.some.inj (hy.symm.trans hx)
    rw [Option.some.inj (ht.symm.trans hs)]

end Func

namespace Liveness

def Before (lv : Liveness) (fn : Func) (p : Place) (v : Value) : Prop :=
  ∃ x e, fn.at? p = some x ∧ lv.of fn x.id = .ok e ∧ v ∈ e.sides.before

def After (lv : Liveness) (fn : Func) (p : Place) (v : Value) : Prop :=
  ∃ x e, fn.at? p = some x ∧ lv.of fn x.id = .ok e ∧ v ∈ e.sides.after

end Liveness

namespace Func
variable {fn : Func}

theorem of_liveness {i : Int} {e : LiveEntry} (h : fn.liveness.find? i = some e) :
    fn.liveness.of fn i = .ok e := by
  simp only [Liveness.of, Liveness.breach?_liveness, h]

theorem Consistent.exists_of_liveness_iff (h : fn.Consistent) {p : Place} {P : LiveSides → Prop} :
    (∃ x e, fn.at? p = some x ∧ fn.liveness.of fn x.id = .ok e ∧ P e.sides) ↔
      ∃ s, (fn.settled fn.visitOrder).at? p = some s ∧ P s := by
  constructor
  · rintro ⟨x, e, hx, hof, he⟩
    obtain ⟨s, hs, hfind⟩ := h.find?_liveness hx
    obtain rfl := Except.ok.inj ((of_liveness hfind).symm.trans hof)
    exact ⟨s, hs, he⟩
  · rintro ⟨s, hs, he⟩
    obtain ⟨x, hx⟩ := (growing_settled fn fn.visitOrder).1.fits.exists_instr hs
    obtain ⟨t, ht, hfind⟩ := h.find?_liveness hx
    obtain rfl := Option.some.inj (ht.symm.trans hs)
    exact ⟨x, _, hx, of_liveness hfind, he⟩

theorem Consistent.before_liveness (h : fn.Consistent) :
    fn.liveness.Before fn = (fn.settled fn.visitOrder).LiveBefore :=
  funext₂ fun _ v => propext (h.exists_of_liveness_iff (P := fun s => v ∈ s.before))

theorem Consistent.after_liveness (h : fn.Consistent) :
    fn.liveness.After fn = (fn.settled fn.visitOrder).LiveAfter :=
  funext₂ fun _ v => propext (h.exists_of_liveness_iff (P := fun s => v ∈ s.after))

/-- The analysis of a function that the verifier accepts gives every instruction the followed values
that some path from there reads before defining them. This is the least solution of the equations,
and sweeps in any order end in it. -/
theorem analyze_exact (hc : fn.Consistent) (hv : fn.malformed? = none) :
    ∃ lv, fn.analyze = .ok lv ∧
      (∀ p x, fn.at? p = some x → ∃ e, lv.of fn x.id = .ok e ∧
        (∀ v, v ∈ e.sides.before ↔ v.tracked = true ∧ fn.Needs v p) ∧
        ∀ v, v ∈ e.sides.after ↔ v.tracked = true ∧ fn.NeedsAfter v p) ∧
      fn.LiveEquations (lv.Before fn) (lv.After fn) ∧
      (∀ before after, fn.LiveEquations before after →
        (∀ p v, lv.Before fn p v → before p v) ∧ ∀ p v, lv.After fn p v → after p v) ∧
      ∀ order, fn.blockIds ⊆ order →
        fn.sweep order (fn.settled order) = fn.settled order ∧
          fn.liveEntries (fn.settled order) = lv.entries := by
  have hall := blockIds_subset_visitOrder fn
  refine ⟨fn.liveness, analyze_eq hv, ?_, ?_, ?_, ?_⟩
  · intro p x hx
    obtain ⟨s, hs, hfind⟩ := hc.find?_liveness hx
    refine ⟨_, of_liveness hfind, fun v => ?_, fun v => ?_⟩
    · rw [← liveBefore_settled_iff hall]
      simp [Facts.LiveBefore, hs]
    · rw [← liveAfter_settled_iff hall]
      simp [Facts.LiveAfter, hs]
  · rw [hc.before_liveness, hc.after_liveness]
    exact liveEquations_settled hall
  · intro before after hsol
    rw [hc.before_liveness, hc.after_liveness]
    constructor
    · intro p v hlive
      obtain ⟨htr, hn⟩ := (liveBefore_settled_iff hall).mp hlive
      exact hsol.before_of_needs htr hn
    · intro p v hlive
      obtain ⟨htr, hn⟩ := (liveAfter_settled_iff hall).mp hlive
      exact hsol.after_of_needsAfter htr hn
  · intro order horder
    refine ⟨(growing_settled fn order).2, ?_⟩
    rw [liveness_entries, settled_eq horder hall]

theorem analyze_countdown_exact :
    countdown.Consistent ∧ countdown.malformed? = none ∧
      ∃ lv e, countdown.analyze = .ok lv ∧ lv.of countdown 3 = .ok e ∧
        (∀ v, v ∈ e.sides.before ↔ v.tracked = true ∧ countdown.Needs v ⟨1, 2⟩) ∧
        ∀ v, v ∈ e.sides.after ↔ v.tracked = true ∧ countdown.NeedsAfter v ⟨1, 2⟩ := by
  refine ⟨consistent_countdown, malformed?_countdown, ?_⟩
  obtain ⟨lv, hlv, hexact, -⟩ := analyze_exact consistent_countdown malformed?_countdown
  have hat : countdown.at? ⟨1, 2⟩ = some ⟨3, .plain "sub" [.instr 0 1, .const 0 1]⟩ := by decide
  obtain ⟨e, he⟩ := hexact _ _ hat
  exact ⟨lv, e, hlv, he⟩

end Func
end DeadCode
