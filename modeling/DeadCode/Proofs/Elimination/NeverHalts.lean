import DeadCode.Proofs.Elimination.Rounds
import DeadCode.Proofs.Liveness.Answered

/-! # A default elimination never halts half-way

The rounds of an elimination start from a function that the verifier has accepted, and each leaves
one that it would accept. So in every round all look-ups are answered, the removal is not refused,
and a second look of the verifier finds nothing; and there are rounds enough.
-/
namespace DeadCode
namespace Func
variable {fn start : Func}

/-- The rounds of an elimination. They fail if a look-up of the analysis or of the search for dead
instructions fails, or if the rounds do not end within the bound. -/
def course? (localOnly verify : Bool) : Nat → Nat → Func → Option Course
  | 0, _, _ => none
  | fuel + 1, number, fn => do
    let lv ← fn.liveness?
    let dead ← lv.dead? fn localOnly
    let round : Round := ⟨dead, lv.sweeps⟩
    if round.dead = [] then return ⟨[round], fn, none⟩
    else
      let released := lv.release fn round.dead
      match released.fault?.or (released.func.roundFault? verify number) with
      | some fault => return ⟨[round], released.func, some fault⟩
      | none =>
        let rest ← course? localOnly verify fuel (number + 1) released.func
        return { rest with rounds := round :: rest.rounds }

theorem WellFormed.course?_succ (hw : fn.WellFormed) (hc : fn.Consistent) {localOnly : Bool}
    (hdead : fn.liveness.deadInstrs fn localOnly = fn.unused) (verify : Bool) (fuel number : Nat) :
    course? localOnly verify (fuel + 1) number fn =
      if fn.unused = [] then some ⟨[⟨[], fn.liveness.sweeps⟩], fn, none⟩
      else (course? localOnly verify fuel (number + 1) fn.pruned).map fun rest =>
        { rest with rounds := ⟨fn.unused, fn.liveness.sweeps⟩ :: rest.rounds } := by
  have hanswer : fn.liveness.dead? fn localOnly = some fn.unused := by
    rw [hc.dead?_liveness, hdead]
  rw [course?, hw.liveness?_eq hc]
  by_cases hne : fn.unused = []
  · simp [hanswer, hne]
  · have hrem := hw.removable_unused
    simp [hanswer, hne, hrem.release_eq hc hne, hrem.roundFault?_without hc hw, pruned,
      Option.map_eq_bind]

theorem WellFormed.course?_eq (hw : fn.WellFormed) (hc : fn.Consistent) (verify : Bool)
    {fuel : Nat} (number : Nat) (hfuel : fn.code.length < fuel) :
    course? false verify fuel number fn = some (course false verify fuel number fn) := by
  induction fuel generalizing fn number with
  | zero => omega
  | succ fuel ih =>
    rw [hw.course?_succ hc rfl, hw.course_succ hc rfl]
    by_cases hne : fn.unused = []
    · rw [if_pos hne, if_pos hne]
    · have hrem := hw.removable_unused
      have hlt := hrem.length_code_without hne
      have hrest : course? false verify fuel (number + 1) fn.pruned = _ :=
        ih (hrem.wellFormed hc hw) (hrem.consistent hc) (number + 1) (by omega)
      rw [if_neg hne, if_neg hne, hrest]
      rfl

/-- A default elimination of a function with any history either does not begin, because the verifier
rejects the function or the trace is refused, or converges. Every instruction of the function is in
the directory. In every round all look-ups are answered, the removal is accepted and the function
stays well-formed. -/
theorem eliminate_never_halts {id : Nat} {name : String} {argCount : Int} {history : List Change}
    {o : Options} (hstart : create id name argCount = .ok start)
    (hfn : fn = start.changeAll history) (hl : o.localDeadness = false) :
    (∀ x ∈ fn.code, ∃ s, fn.slot x.id = .ok s) ∧
      ((∃ m, fn.malformed? = some m ∧ (fn.eliminate o).ending = .rejected (.malformed m)) ∨
        fn.malformed? = none ∧
          course? false o.verifyRounds (fn.code.length + 1) 1 fn = some (fn.begun o) ∧
          (fn.begun o).fault? = none ∧
          (fn.writeTrace o.trace = none ∧ (fn.eliminate o).ending = .rejected .write ∨
            fn.writeTrace o.trace ≠ none ∧ (fn.eliminate o).ending = .converged)) := by
  have hc : fn.Consistent := hfn ▸ (consistent_create hstart).changeAll history
  constructor
  · intro x hx
    obtain ⟨b, block, hb, hx⟩ := mem_code_iff.mp hx
    exact ⟨_, hc.slot_eq hb hx⟩
  · cases hm : fn.malformed? with
    | some m => exact .inl ⟨m, rfl, by simp [eliminate, hm, reject]⟩
    | none =>
      have hw := malformed?_eq_none_iff.mp hm
      have hfault : (fn.begun o).fault? = none := by
        rw [begun, hl]
        exact (hw.completes_course hc _ 1 (by omega)).unstopped
      refine .inr ⟨rfl, ?_, hfault, ?_⟩
      · rw [begun, hl]
        exact hw.course?_eq hc _ 1 (by omega)
      · by_cases ht : fn.writeTrace o.trace = none
        · exact .inl ⟨ht, by simp [eliminate, hm, ht, reject]⟩
        · exact .inr ⟨ht, (eliminate_of_begun hm ht hfault).2.2⟩

theorem eliminate_countdown_never_halts :
    create 0 "countdown" 1 = .ok ⟨0, "countdown", 1, 0, 0, [], []⟩ ∧
      countdown = changeAll ⟨0, "countdown", 1, 0, 0, [], []⟩ countdownHistory ∧
      course? false true (countdown.code.length + 1) 1 countdown ≠ none ∧
      (countdown.eliminate ⟨1, true, false, none, .standard false⟩).ending = .converged := by
  refine ⟨create_countdown, rfl, ?_⟩
  obtain ⟨-, ⟨m, hm, -⟩ | ⟨-, hcourse, -, ⟨ht, -⟩ | ⟨-, hend⟩⟩⟩ :=
    eliminate_never_halts (o := ⟨1, true, false, none, .standard false⟩) create_countdown
      (show countdown = changeAll _ countdownHistory from rfl) rfl
  · rw [malformed?_countdown] at hm
    cases hm
  · cases ht
  · exact ⟨by rw [hcourse]; simp, hend⟩

end Func
end DeadCode
