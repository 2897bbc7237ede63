import DeadCode.Proofs.Liveness.Unused
import Mathlib.Data.Finset.Card
import Mathlib.Order.Monotone.Basic

/-! # How many sweeps it takes

What a visit finds out about a value depends on the blocks behind whose merges the value is live.
Once a sweep has added none to these blocks, the next one does nothing for the value. There are no
more of them than the function has blocks, in whatever order they are visited, and this bounds the
sweeps for all values at once. The first sweep is the last one if and only if nothing is there to be
followed.
-/
namespace DeadCode

def Facts.SameAt (v : Value) (facts other : Facts) : Prop :=
  ∀ p, (facts.LiveBefore p v ↔ other.LiveBefore p v) ∧ (facts.LiveAfter p v ↔ other.LiveAfter p v)

theorem Facts.SameAt.entryLive_iff {fn : Func} {facts other : Facts} {v : Value}
    (h : facts.SameAt v other) {s : Int} :
    fn.EntryLive facts.LiveBefore s v ↔ fn.EntryLive other.LiveBefore s v :=
  ⟨fun hlive => hlive.imp fun p => (h p).1.mp, fun hlive => hlive.imp fun p => (h p).1.mpr⟩

namespace Func
variable {fn : Func} {facts other : Facts} {order : List Int} {v : Value}

theorem at?_sweep_of_notMem {p : Place} (hp : p.block ∉ order) :
    (fn.sweep order facts).at? p = facts.at? p := by
  induction order generalizing facts with
  | nil => rfl
  | cons b rest ih =>
    exact (ih (List.not_mem_of_not_mem_cons hp)).trans
      (at?_visit_of_ne (List.ne_of_not_mem_cons hp))

/-- What a sweep leaves in a block comes from the last visit there. -/
theorem Growing.exists_visit (h : fn.Growing facts) {b : Int} (hb : b ∈ order) :
    ∃ mid, fn.Growing mid ∧ facts.Within mid ∧ mid.Within (fn.sweep order facts) ∧
      ∀ p : Place, p.block = b → (fn.sweep order facts).at? p = (fn.visit mid b).at? p := by
  induction order generalizing facts with
  | nil => simp at hb
  | cons c rest ih =>
    by_cases hrest : b ∈ rest
    · obtain ⟨mid, hmid, hle, hle', hat⟩ := ih (h.visit c) hrest
      exact ⟨mid, hmid, (h.rising c).trans hle, hle', hat⟩
    · obtain rfl : b = c := (List.mem_cons.mp hb).resolve_right hrest
      refine ⟨facts, h, .refl facts, (h.sweep _).2, ?_⟩
      intro p hp
      exact at?_sweep_of_notMem (hp ▸ hrest)

section
variable (h : fn.Growing facts) (hentry : ∀ s, fn.EntryLive (fn.sweep order facts).LiveBefore s v →
  fn.EntryLive facts.LiveBefore s v)
include h hentry

/-- If a sweep did not make the value live behind the merges of any further block, then later visits
do not change the places where it is live. -/
theorem Growing.visit_sameAt {b : Int} (hb : b ∈ order) (hfits : fn.Fits other)
    (hsame : other.SameAt v (fn.sweep order facts)) :
    (fn.visit other b).SameAt v (fn.sweep order facts) := by
  intro p
  by_cases hp : p.block = b
  · obtain ⟨mid, hmid, hle, hle', hat⟩ := h.exists_visit hb
    -- `mid` lies between two states that agree behind the merges
    have hto : ∀ s, fn.EntryLive other.LiveBefore s v → fn.EntryLive mid.LiveBefore s v := by
      intro s hlive
      exact (hentry s (hsame.entryLive_iff.mp hlive)).imp fun q => hle.before q v
    have hfrom : ∀ s, fn.EntryLive mid.LiveBefore s v → fn.EntryLive other.LiveBefore s v := by
      intro s hlive
      exact hsame.entryLive_iff.mpr (hlive.imp fun q => hle'.before q v)
    obtain ⟨hB, hA⟩ := hfits.visit_mono hmid.fits hto hp
    obtain ⟨hB', hA'⟩ := hmid.fits.visit_mono hfits hfrom hp
    unfold Facts.LiveBefore Facts.LiveAfter at *
    rw [hat p hp]
    exact ⟨⟨hB, hB'⟩, ⟨hA, hA'⟩⟩
  · have hsame := hsame p
    unfold Facts.LiveBefore Facts.LiveAfter at *
    rwa [at?_visit_of_ne hp]

theorem Growing.sweep_sameAt :
    (fn.sweep order (fn.sweep order facts)).SameAt v (fn.sweep order facts) := by
  have hrun : ∀ rest ⊆ order, ∀ other : Facts, fn.Fits other →
      other.SameAt v (fn.sweep order facts) →
      (fn.sweep rest other).SameAt v (fn.sweep order facts) := by
    intro rest
    induction rest with
    | nil => exact fun _ _ _ hsame => hsame
    | cons b rest ih =>
      intro hsub other hfits hsame
      obtain ⟨hb, hrest⟩ := List.cons_subset.mp hsub
      exact ih hrest _ (hfits.visit b) (h.visit_sameAt hentry hb hfits hsame)
  exact hrun order (List.Subset.refl _) _ (h.sweep order).1.fits fun p => ⟨Iff.rfl, Iff.rfl⟩

end

def entered (fn : Func) (facts : Facts) (v : Value) : Finset Int :=
  fn.blockIds.toFinset.filter fun s => v ∈ fn.entryIn facts s

theorem mem_entered {s : Int} : s ∈ fn.entered facts v ↔ fn.EntryLive facts.LiveBefore s v := by
  simp only [entered, Finset.mem_filter, List.mem_toFinset, mem_entryIn, and_iff_right_iff_imp]
  rintro ⟨block, hb, -⟩
  exact mem_blockIds_of_block? hb

theorem card_entered_le (fn : Func) (facts : Facts) (v : Value) :
    (fn.entered facts v).card ≤ fn.blocks.length :=
  calc (fn.entered facts v).card ≤ fn.blockIds.toFinset.card := Finset.card_filter_le _ _
    _ ≤ fn.blockIds.length := List.toFinset_card_le _
    _ = fn.blocks.length := length_blockIds fn

theorem entered_subset (hle : facts.Within other) : fn.entered facts v ⊆ fn.entered other v := by
  intro s hs
  exact mem_entered.mpr ((mem_entered.mp hs).imp fun p => hle.before p v)

theorem growing_iterate (fn : Func) (order : List Int) (k : Nat) :
    fn.Growing ((fn.sweep order)^[k] fn.noFacts) := by
  induction k with
  | zero => exact growing_noFacts fn
  | succ k ih =>
    rw [Function.iterate_succ_apply']
    exact (ih.sweep order).1

theorem Growing.sweep_sameAt_of_card (h : fn.Growing facts)
    (hcard : (fn.entered facts v).card = (fn.entered (fn.sweep order facts) v).card) :
    (fn.sweep order (fn.sweep order facts)).SameAt v (fn.sweep order facts) := by
  have heq := Finset.eq_of_subset_of_card_le (entered_subset (h.sweep order).2) hcard.ge
  refine h.sweep_sameAt fun s hs => ?_
  rw [← mem_entered, heq]
  exact mem_entered.mpr hs

theorem Facts.SameAt.entered_eq (h : facts.SameAt v other) : fn.entered facts v = fn.entered other v := by
  ext s
  rw [mem_entered, mem_entered, h.entryLive_iff]

/-- One sweep more than there are blocks is enough. -/
theorem sweep_iterate_eq (fn : Func) (order : List Int) :
    fn.sweep order ((fn.sweep order)^[fn.blocks.length + 1] fn.noFacts) =
      (fn.sweep order)^[fn.blocks.length + 1] fn.noFacts := by
  have hgrow := growing_iterate fn order
  have hsame : ∀ v, (fn.sweep order ((fn.sweep order)^[fn.blocks.length + 1] fn.noFacts)).SameAt v
      ((fn.sweep order)^[fn.blocks.length + 1] fn.noFacts) := by
    intro v
    have hstable := Nat.stabilises_of_monotone
      (f := fun k => (fn.entered ((fn.sweep order)^[k] fn.noFacts) v).card)
      (b := fn.blocks.length) (n := fn.blocks.length + 1) ?_ ?_ ?_ (Nat.le_succ _)
    · rw [Function.iterate_succ_apply'] at hstable ⊢
      exact (hgrow _).sweep_sameAt_of_card hstable.symm
    · refine monotone_nat_of_le_succ fun k => ?_
      rw [Function.iterate_succ_apply']
      exact Finset.card_le_card (entered_subset ((hgrow k).sweep order).2)
    · exact fun k => card_entered_le fn _ v
    · intro k hk
      simp only [Function.iterate_succ_apply'] at hk ⊢
      rw [Facts.SameAt.entered_eq ((hgrow k).sweep_sameAt_of_card hk)]
  refine ((hgrow _).sweep order).1.fits.eq_of_within (hgrow _).fits ?_ ((hgrow _).sweep order).2
  exact ⟨fun p v => (hsame v p).1.mp, fun p v => (hsame v p).2.mp⟩

theorem settle_of_sweep_eq (he : fn.sweep order facts = facts) {fuel : Nat} (hfuel : 0 < fuel) :
    fn.settle order fuel facts = (facts, 1) := by
  obtain ⟨fuel, rfl⟩ : ∃ n, fuel = n + 1 := ⟨fuel - 1, by omega⟩
  rw [settle, if_pos he, he]

theorem settle_of_sweep_ne (hne : fn.sweep order facts ≠ facts) (fuel : Nat) :
    fn.settle order (fuel + 1) facts =
      ((fn.settle order fuel (fn.sweep order facts)).1,
        (fn.settle order fuel (fn.sweep order facts)).2 + 1) := by
  rw [settle, if_neg hne]

theorem Growing.settle_eq_of_le (h : fn.Growing facts) {fuel more : Nat}
    (hfuel : fn.room facts < fuel) (hle : fuel ≤ more) :
    fn.settle order more facts = fn.settle order fuel facts := by
  induction fuel generalizing facts more with
  | zero => omega
  | succ fuel ih =>
    obtain ⟨more, rfl⟩ : ∃ n, more = n + 1 := ⟨more - 1, by omega⟩
    by_cases he : fn.sweep order facts = facts
    · rw [settle_of_sweep_eq he (by omega), settle_of_sweep_eq he (by omega)]
    · have hlt := h.room_sweep_lt he
      rw [settle_of_sweep_ne he, settle_of_sweep_ne he,
        ih (h.sweep order).1 (by omega) (by omega)]

/-- The sets after `i` sweeps are the first that another sweep leaves as they are. -/
def FirstFixed (fn : Func) (order : List Int) (facts : Facts) (i : Nat) : Prop :=
  fn.sweep order ((fn.sweep order)^[i] facts) = (fn.sweep order)^[i] facts ∧
    ∀ j < i, fn.sweep order ((fn.sweep order)^[j] facts) ≠ (fn.sweep order)^[j] facts

theorem firstFixed_zero (he : fn.sweep order facts = facts) : fn.FirstFixed order facts 0 :=
  ⟨he, fun j hj => absurd hj (Nat.not_lt_zero j)⟩

theorem FirstFixed.succ {i : Nat} (h : fn.FirstFixed order (fn.sweep order facts) i)
    (hne : fn.sweep order facts ≠ facts) : fn.FirstFixed order facts (i + 1) := by
  refine ⟨h.1, fun j hj => ?_⟩
  cases j with
  | zero => exact hne
  | succ j => exact h.2 j (by omega)

theorem FirstFixed.eq_zero_iff {i : Nat} (h : fn.FirstFixed order facts i) :
    i = 0 ↔ fn.sweep order facts = facts := by
  constructor
  · rintro rfl
    exact h.1
  · intro he
    by_contra hne
    exact h.2 0 (by omega) he

/-- If `j` sweeps are enough, at most one more is made, whatever the fuel: the last sweep is the
first one that changes nothing. -/
theorem exists_settle {j : Nat}
    (hfix : fn.sweep order ((fn.sweep order)^[j] facts) = (fn.sweep order)^[j] facts) :
    ∃ i ≤ j, fn.FirstFixed order facts i ∧ ∀ fuel, i < fuel →
      fn.settle order fuel facts = ((fn.sweep order)^[i] facts, i + 1) := by
  induction j generalizing facts with
  | zero =>
    exact ⟨0, Nat.le_refl 0, firstFixed_zero hfix, fun fuel hfuel => settle_of_sweep_eq hfix hfuel⟩
  | succ j ih =>
    by_cases he : fn.sweep order facts = facts
    · exact ⟨0, Nat.zero_le _, firstFixed_zero he, fun fuel hfuel => settle_of_sweep_eq he hfuel⟩
    · obtain ⟨i, hi, hfirst, hsettle⟩ := ih hfix
      refine ⟨i + 1, by omega, hfirst.succ he, fun fuel hfuel => ?_⟩
      obtain ⟨fuel, rfl⟩ : ∃ n, fuel = n + 1 := ⟨fuel - 1, by omega⟩
      rw [settle_of_sweep_ne he, hsettle fuel (by omega)]
      rfl

theorem exists_settle_eq_settled {j : Nat}
    (hfix : fn.sweep order ((fn.sweep order)^[j] fn.noFacts) = (fn.sweep order)^[j] fn.noFacts) :
    ∃ i ≤ j, fn.FirstFixed order fn.noFacts i ∧
      (∀ fuel, i < fuel → fn.settle order fuel fn.noFacts = (fn.settled order, i + 1)) ∧
      fn.settle order fn.sweepBound fn.noFacts = (fn.settled order, i + 1) := by
  obtain ⟨i, hi, hfirst, hsettle⟩ := exists_settle hfix
  have hbound := room_lt_sweepBound fn fn.noFacts
  -- the bound may be smaller than `i + 1`, but fuel beyond the bound makes no difference
  have hsame : fn.settle order fn.sweepBound fn.noFacts = ((fn.sweep order)^[i] fn.noFacts, i + 1) := by
    rw [← (growing_noFacts fn).settle_eq_of_le hbound (Nat.le_max_left fn.sweepBound (i + 1))]
    exact hsettle _ (Nat.lt_of_lt_of_le (Nat.lt_succ_self i) (Nat.le_max_right _ _))
  have hsettled : fn.settled order = (fn.sweep order)^[i] fn.noFacts := congrArg Prod.fst hsame
  rw [hsettled]
  exact ⟨i, hi, hfirst, hsettle, hsame⟩

def UsesConstantsOnly (fn : Func) : Prop := ∀ x ∈ fn.code, ∀ v ∈ x.node.uses, v.tracked = false

theorem WellFormed.sweep_noFacts_eq_iff (h : fn.WellFormed) (hall : fn.blockIds ⊆ order) :
    fn.sweep order fn.noFacts = fn.noFacts ↔ fn.UsesConstantsOnly := by
  obtain ⟨hgrow, hle⟩ := (growing_noFacts fn).sweep order
  constructor
  · intro he x hx v hv
    have hsettled : fn.settled order = fn.noFacts := by
      rw [settled, settle_of_sweep_eq he (Nat.zero_lt_of_lt (room_lt_sweepBound fn fn.noFacts))]
    by_contra htracked
    obtain ⟨p, hp⟩ := h.exists_reads hx hv
    have hlive := (liveBefore_settled_iff hall).mpr ⟨by simpa using htracked, .here hp⟩
    rw [hsettled] at hlive
    obtain ⟨s, hs, hmem⟩ := hlive
    simp [at?_noFacts hs] at hmem
  · intro hno
    have hunused : ∀ v, v.tracked = true → ¬ ∃ x ∈ fn.code, v ∈ x.node.uses := by
      rintro v hv ⟨x, hx, huse⟩
      simp [hno x hx v huse] at hv
    refine hgrow.fits.eq_of_within (fits_noFacts fn) ⟨?_, ?_⟩ hle
    · intro p v hv
      obtain ⟨htracked, hneeds⟩ := hgrow.before_needed p v hv
      exact absurd hneeds.exists_user (hunused v htracked)
    · intro p v hv
      obtain ⟨htracked, hneeds⟩ := hgrow.after_needed p v hv
      exact absurd hneeds.exists_user (hunused v htracked)

/-- Sweeps over the blocks of a function that the verifier accepts, in any order, end after at most
two more than there are blocks, counting the last one, which changes nothing. Only one sweep is made
if and only if no instruction uses the value of an instruction or an argument. The same holds of the
sweeps of the analysis. -/
theorem analyze_sweeps_le (hv : fn.malformed? = none) :
    (∀ order, fn.blockIds ⊆ order → ∃ k ≤ fn.blocks.length + 2,
      (∀ fuel, k ≤ fuel → fn.settle order fuel fn.noFacts = (fn.settled order, k)) ∧
        fn.sweep order (fn.settled order) = fn.settled order ∧ (k = 1 ↔ fn.UsesConstantsOnly)) ∧
      ∃ lv, fn.analyze = .ok lv ∧ lv.sweeps ≤ fn.blocks.length + 2 ∧
        (lv.sweeps = 1 ↔ fn.UsesConstantsOnly) := by
  have hw := malformed?_eq_none_iff.mp hv
  have hcount : ∀ order, fn.blockIds ⊆ order → ∃ k ≤ fn.blocks.length + 2,
      (∀ fuel, k ≤ fuel → fn.settle order fuel fn.noFacts = (fn.settled order, k)) ∧
        fn.settle order fn.sweepBound fn.noFacts = (fn.settled order, k) ∧
        (k = 1 ↔ fn.UsesConstantsOnly) := by
    intro order hall
    obtain ⟨i, hi, hfirst, hfuel, hbound⟩ := exists_settle_eq_settled (sweep_iterate_eq fn order)
    refine ⟨i + 1, by omega, hfuel, hbound, ?_⟩
    rw [Nat.add_eq_right, hfirst.eq_zero_iff, hw.sweep_noFacts_eq_iff hall]
  constructor
  · intro order hall
    obtain ⟨k, hk, hfuel, -, hone⟩ := hcount order hall
    exact ⟨k, hk, hfuel, (growing_settled fn order).2, hone⟩
  · obtain ⟨k, hk, -, hbound, hone⟩ := hcount fn.visitOrder (blockIds_subset_visitOrder fn)
    have hsweeps : fn.liveness.sweeps = k := by
      rw [liveness, hbound]
    refine ⟨fn.liveness, analyze_eq hv, ?_⟩
    rw [hsweeps]
    exact ⟨hk, hone⟩

def spin : Func := changeAll ⟨0, "spin", 0, 0, 0, [], []⟩ [
  .addBlock "entry",
  .addPlain 0 "neg" [.instr 0 1],
  .addPlain 0 "one" [],
  .addTerminator 0 "br" .absent [] [0]]

/-- The bound is attained: the second sweep carries the value around the loop, and the third finds
nothing new. -/
theorem analyze_spin_sweeps :
    spin.malformed? = none ∧ ¬ spin.UsesConstantsOnly ∧
      (∃ k ≤ 3, ∀ fuel, k ≤ fuel → spin.settle [0] fuel spin.noFacts = (spin.settled [0], k)) ∧
      ∃ lv, spin.analyze = .ok lv ∧ lv.sweeps = spin.blocks.length + 2 := by
  have hv : spin.malformed? = none := by decide
  obtain ⟨hany, lv, hlv, -, hone⟩ := analyze_sweeps_le hv
  have hsweeps : lv.sweeps = 3 := by
    have hself : spin.analyze = .ok spin.liveness := analyze_eq hv
    obtain rfl := Except.ok.inj (hlv.symm.trans hself)
    decide
  refine ⟨hv, ?_, ?_, lv, hlv, hsweeps⟩
  · rw [← hone, hsweeps]
    decide
  · obtain ⟨k, hk, hfuel, -⟩ := hany [0] (by decide)
    exact ⟨k, hk, hfuel⟩

end Func
end DeadCode
