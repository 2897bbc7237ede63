import DeadCode.Proofs.Elimination.Rounds

/-! # The stages of an elimination

Each round finds the function as the rounds before it have left it. Whichever way deadness is asked,
the rounds of an elimination run through these stages one by one, up to the first at which nothing
is found or the removal is refused. More rounds than there are instructions are never needed.
-/
namespace DeadCode
namespace Func
variable {fn : Func} {localOnly : Bool} {c : Course} {k : Nat}

def idle (localOnly : Bool) (fn : Func) : List Int := fn.liveness.deadInstrs fn localOnly

def round (localOnly : Bool) (fn : Func) : Round := ⟨fn.idle localOnly, fn.liveness.sweeps⟩

def relieved (localOnly : Bool) (fn : Func) : Func := fn.without (fn.idle localOnly)

/-- The function after `k` rounds that were not refused. -/
def stage (localOnly : Bool) (fn : Func) (k : Nat) : Func := (relieved localOnly)^[k] fn

theorem stage_zero : fn.stage localOnly 0 = fn := rfl

theorem stage_succ : fn.stage localOnly (k + 1) = (fn.relieved localOnly).stage localOnly k :=
  Function.iterate_succ_apply _ _ _

theorem stage_succ_eq_without :
    fn.stage localOnly (k + 1) =
      (fn.stage localOnly k).without ((fn.stage localOnly k).idle localOnly) :=
  Function.iterate_succ_apply' _ _ _

/-- The rounds run through the stages before stage `k` and end there. -/
structure RunsTo (localOnly : Bool) (fn : Func) (k : Nat) (c : Course) : Prop where
  rounds_eq : c.rounds = (List.range (k + 1)).map fun j => (fn.stage localOnly j).round localOnly
  func_eq : c.func = fn.stage localOnly k
  busy : ∀ j < k, (fn.stage localOnly j).idle localOnly ≠ []
  removable : ∀ j < k, (fn.stage localOnly j).Removable ((fn.stage localOnly j).idle localOnly)
  fault?_iff : c.fault? = none ↔ (fn.stage localOnly k).idle localOnly = []

namespace RunsTo

/-- If a round removes something and the rounds after it run to stage `k` of the function that it
leaves, then all of them run to stage `k + 1`. -/
theorem cons (h : (fn.relieved localOnly).RunsTo localOnly k c) (hne : fn.idle localOnly ≠ [])
    (hr : fn.Removable (fn.idle localOnly)) :
    fn.RunsTo localOnly (k + 1) { c with rounds := fn.round localOnly :: c.rounds } := by
  refine ⟨?_, ?_, ?_, ?_, ?_⟩
  · rw [List.range_succ_eq_map, List.map_cons, List.map_map, h.rounds_eq]
    simp only [Function.comp_def, stage_succ, stage_zero]
  · rw [stage_succ]
    exact h.func_eq
  · intro j hj
    cases j with
    | zero => exact hne
    | succ j =>
      rw [stage_succ]
      exact h.busy j (by omega)
  · intro j hj
    cases j with
    | zero => exact hr
    | succ j =>
      rw [stage_succ]
      exact h.removable j (by omega)
  · rw [stage_succ]
    exact h.fault?_iff

theorem thins (h : fn.RunsTo localOnly k c) {j : Nat} (hj : j ≤ k) :
    fn.Thins (fn.stage localOnly j) := by
  induction j with
  | zero => exact .refl fn
  | succ j ih =>
    rw [stage_succ_eq_without]
    exact (ih (by omega)).trans (.step (h.removable j (by omega)) (.refl _))

end RunsTo

/-- By induction on the bound: a round that removes something leaves fewer instructions. -/
theorem WellFormed.exists_runsTo (hw : fn.WellFormed) (hc : fn.Consistent) (localOnly verify : Bool)
    {fuel : Nat} (number : Nat) (hfuel : fn.code.length < fuel) :
    ∃ k, fn.RunsTo localOnly k (course localOnly verify fuel number fn) := by
  induction fuel generalizing fn number with
  | zero => omega
  | succ fuel ih =>
    have hidle : fn.liveness.deadInstrs fn localOnly = fn.idle localOnly := rfl
    rcases hw.course_cases hc localOnly verify fuel number hidle with
      ⟨hnone, he⟩ | ⟨hne, hr, he⟩ | ⟨hne, -, fault, he⟩
    · rw [he]
      refine ⟨0, ?_, rfl, by simp, by simp, by simp [stage_zero, hnone]⟩
      simp [stage_zero, round, hnone]
    · have hlt := hr.length_code_without hne
      obtain ⟨k, hk⟩ := ih (hr.wellFormed hc hw) (hr.consistent hc) (number + 1) (by omega)
      rw [he]
      exact ⟨k + 1, hk.cons hne hr⟩
    · rw [he]
      exact ⟨0, by simp [stage_zero, round], rfl, by simp, by simp, by simp [stage_zero, hne]⟩

theorem WellFormed.course_eq_of_lt (hw : fn.WellFormed) (hc : fn.Consistent)
    (localOnly verify : Bool) {fuel bound : Nat} (number : Nat) (hfuel : fn.code.length < fuel)
    (hbound : fn.code.length < bound) :
    course localOnly verify fuel number fn = course localOnly verify bound number fn := by
  induction fuel generalizing fn number bound with
  | zero => omega
  | succ fuel ih =>
    cases bound with
    | zero => omega
    | succ bound =>
      rw [course, course]
      by_cases hne : fn.liveness.deadInstrs fn localOnly = []
      · simp only [hne, ↓reduceIte]
      · rcases release_cases hc fn.liveness (fn.liveness.deadInstrs fn localOnly) with
          ⟨-, hr, he⟩ | ⟨map, fault, -, he⟩
        · have hlt := hr.length_code_without hne
          have hrest : _ = course localOnly verify bound (number + 1) _ :=
            ih (hr.wellFormed hc hw) (hr.consistent hc) (number + 1) (by omega) (by omega)
          simp only [hne, ↓reduceIte, he, hrest]
        · simp only [hne, ↓reduceIte, he, Option.some_or]

end Func
end DeadCode
