import DeadCode.Elimination.Basic
import DeadCode.Proofs.Removal

/-! # What an elimination can do to a function

A round changes the function by one removal that is not refused, or not at all. So, however an
elimination ends, the function it leaves is got from the one it was given by such removals, and
whatever each of them keeps the whole elimination keeps.
-/
namespace DeadCode
namespace Func
variable {fn rest : Func} {ins : List Int}

/-- The second function is got from the first by successful removals. -/
inductive Thins : Func → Func → Prop
  | refl (fn : Func) : Thins fn fn
  | step {fn rest : Func} {ins : List Int} : fn.Removable ins → Thins (fn.without ins) rest →
      Thins fn rest

theorem Removable.consistent (hr : fn.Removable ins) (h : fn.Consistent) :
    (fn.without ins).Consistent := h.without fun _ hi => hr.alive h hi

theorem Thins.consistent (ht : Thins fn rest) (h : fn.Consistent) : rest.Consistent := by
  induction ht with
  | refl fn => exact h
  | step hr _ ih => exact ih (hr.consistent h)

theorem Thins.wellFormed (ht : Thins fn rest) (h : fn.Consistent) (hw : fn.WellFormed) :
    rest.WellFormed := by
  induction ht with
  | refl fn => exact hw
  | step hr _ ih => exact ih (hr.consistent h) (hr.wellFormed h hw)

/-- A release either takes its list out of the function, or is stopped and leaves the function as it
is. -/
theorem release_cases (h : fn.Consistent) (lv : Liveness) (ins : List Int) :
    (lv.breach? fn .release = none ∧ fn.Removable ins ∧ lv.release fn ins =
        ⟨{ lv with consumed := true }, if ins = [] then fn else fn.without ins, none⟩) ∨
      ∃ map fault, (map = lv ∨ map = { lv with consumed := true }) ∧
        lv.release fn ins = ⟨map, fn, some fault⟩ := by
  unfold Liveness.release
  cases lv.breach? fn .release with
  | some b => exact .inr ⟨lv, _, .inl rfl, rfl⟩
  | none =>
    cases ins.findSome? (Liveness.releaseFault? fn) with
    | some fault => exact .inr ⟨lv, fault, .inl rfl, rfl⟩
    | none =>
      cases hr : fn.removeAll ins with
      | error m => exact .inr ⟨_, _, .inr rfl, rfl⟩
      | ok rest =>
        obtain ⟨hrem, rfl⟩ := (removeAll_eq_ok_iff h).mp hr
        exact .inl ⟨rfl, hrem, rfl⟩

theorem releaseFault?_eq_none_iff (hc : fn.Consistent) {i : Int} :
    Liveness.releaseFault? fn i = none ↔ ∃ x ∈ fn.code, x.id = i ∧ x.kind ≠ .terminator := by
  rw [← removalFault?_eq_none_iff hc]
  unfold Liveness.releaseFault? removalFault?
  cases fn.slot i with
  | error m => simp
  | ok s => by_cases hk : s.kind = .terminator <;> simp [hk]

theorem Removable.release_eq (hr : fn.Removable ins) (hc : fn.Consistent) (hne : ins ≠ []) :
    fn.liveness.release fn ins = ⟨{ fn.liveness with consumed := true }, fn.without ins, none⟩ := by
  have hfault : ins.findSome? (Liveness.releaseFault? fn) = none := by
    rw [List.findSome?_eq_none_iff]
    intro i hi
    exact (releaseFault?_eq_none_iff hc).mpr (hr.present i hi)
  have hremove : fn.removeAll ins = .ok (fn.without ins) :=
    (removeAll_eq_ok_iff hc).mpr ⟨hr, by simp [hne]⟩
  simp only [Liveness.release, Liveness.breach?_liveness, hfault, hremove]

theorem Removable.roundFault?_without (hr : fn.Removable ins) (hc : fn.Consistent)
    (hw : fn.WellFormed) (verify : Bool) (number : Nat) :
    (fn.without ins).roundFault? verify number = none := by
  simp [roundFault?, (hr.wellFormed hc hw).malformed?_eq_none]

/-- A round finds nothing, or removes what it finds and is followed by further rounds, or is
refused. -/
theorem WellFormed.course_cases (hw : fn.WellFormed) (hc : fn.Consistent) (localOnly verify : Bool)
    (fuel number : Nat) {dead : List Int} (hdead : fn.liveness.deadInstrs fn localOnly = dead) :
    dead = [] ∧ course localOnly verify (fuel + 1) number fn =
        ⟨[⟨[], fn.liveness.sweeps⟩], fn, none⟩ ∨
      dead ≠ [] ∧ fn.Removable dead ∧ course localOnly verify (fuel + 1) number fn =
        (let rest := course localOnly verify fuel (number + 1) (fn.without dead)
         { rest with rounds := ⟨dead, fn.liveness.sweeps⟩ :: rest.rounds }) ∨
      dead ≠ [] ∧ ¬ fn.Removable dead ∧ ∃ fault, course localOnly verify (fuel + 1) number fn =
        ⟨[⟨dead, fn.liveness.sweeps⟩], fn, some fault⟩ := by
  rw [course, hdead]
  by_cases hne : dead = []
  · exact .inl ⟨hne, by simp [hne]⟩
  · by_cases hr : fn.Removable dead
    · refine .inr (.inl ⟨hne, hr, ?_⟩)
      simp only [hne, ↓reduceIte, hr.release_eq hc hne, hr.roundFault?_without hc hw, Option.or_none]
    · rcases release_cases hc fn.liveness dead with ⟨-, hrem, -⟩ | ⟨map, fault, -, he⟩
      · exact absurd hrem hr
      · exact .inr (.inr ⟨hne, hr, fault, by simp [hne, he]⟩)

theorem thins_release (h : fn.Consistent) (lv : Liveness) (ins : List Int) :
    Thins fn (lv.release fn ins).func := by
  rcases release_cases h lv ins with ⟨-, hr, he⟩ | ⟨map, fault, -, he⟩
  · rw [he]
    dsimp only
    split
    · exact .refl fn
    · exact .step hr (.refl _)
  · rw [he]
    exact .refl fn

theorem Thins.trans {mid : Func} (hl : Thins fn mid) (hr : Thins mid rest) : Thins fn rest := by
  induction hl with
  | refl fn => exact hr
  | step hrem _ ih => exact .step hrem (ih hr)

theorem thins_course (localOnly verify : Bool) (fuel number : Nat) (h : fn.Consistent) :
    Thins fn (course localOnly verify fuel number fn).func := by
  induction fuel generalizing number fn with
  | zero => exact .refl fn
  | succ fuel ih =>
    rw [course]
    dsimp only
    split
    · exact .refl fn
    · have hr := thins_release h fn.liveness (fn.liveness.deadInstrs fn localOnly)
      split
      · exact hr
      · exact hr.trans (ih (number + 1) (hr.consistent h))

theorem thins_eliminate (h : fn.Consistent) (o : Options) : Thins fn (fn.eliminate o).func := by
  unfold eliminate
  cases fn.malformed? with
  | some m => exact .refl fn
  | none =>
    cases fn.writeTrace o.trace with
    | none => exact .refl fn
    | some sink => exact thins_course _ _ _ _ h

end Func
end DeadCode
