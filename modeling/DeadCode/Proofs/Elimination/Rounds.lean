import DeadCode.Proofs.Elimination.Chains
import Mathlib.Data.Set.Card

/-! # The rounds of a default elimination

A round that asks about the whole function removes the instructions without a user, and nothing
refuses that. Round after round every chain of users gets shorter by one, so an instruction goes in
the round that its longest chain says, and the rounds end when nothing is left to go.
-/
namespace DeadCode
namespace Func
variable {fn : Func} {ins : List Int}

theorem WellFormed.course_succ (hw : fn.WellFormed) (hc : fn.Consistent) {localOnly : Bool}
    (hdead : fn.liveness.deadInstrs fn localOnly = fn.unused) (verify : Bool) (fuel number : Nat) :
    course localOnly verify (fuel + 1) number fn =
      if fn.unused = [] then ⟨[⟨[], fn.liveness.sweeps⟩], fn, none⟩
      else
        let rest := course localOnly verify fuel (number + 1) fn.pruned
        { rest with rounds := ⟨fn.unused, fn.liveness.sweeps⟩ :: rest.rounds } := by
  rcases hw.course_cases hc localOnly verify fuel number hdead with
    ⟨hne, he⟩ | ⟨hne, -, he⟩ | ⟨-, hno, -⟩
  · rw [he, if_pos hne]
  · rw [he, if_neg hne, pruned]
  · exact absurd hw.removable_unused hno

/-- What the rounds of a default elimination come to. -/
structure Completes (fn : Func) (c : Course) : Prop where
  unstopped : c.fault? = none
  falls : ∀ k i, (∃ round, c.rounds[k]? = some round ∧ i ∈ round.dead) ↔ fn.FallsIn (k + 1) i
  nodup : ∀ round ∈ c.rounds, round.dead.Nodup
  ended : ∃ front last, c.rounds = front ++ [last] ∧ last.dead = [] ∧
    ∀ round ∈ front, round.dead ≠ []
  alive_iff : ∀ i, c.func.alive i = true ↔ fn.alive i = true ∧ ∀ k, ¬ fn.FallsIn k i

theorem WellFormed.completes_of_unused_eq_nil (hw : fn.WellFormed) (hc : fn.Consistent)
    (hnone : fn.unused = []) (sweeps : Nat) : fn.Completes ⟨[⟨[], sweeps⟩], fn, none⟩ := by
  have hno : ∀ k i, ¬ fn.FallsIn k i := fun k i h => hw.unused_ne_nil hc h hnone
  refine ⟨rfl, ?_, by simp, ⟨[], _, rfl, rfl, by simp⟩, by simp [hno]⟩
  intro k i
  simp only [hno, iff_false]
  rintro ⟨round, hround, hi⟩
  obtain rfl := List.mem_singleton.mp (List.mem_of_getElem? hround)
  simp at hi

theorem Completes.cons {c : Course} (h : fn.pruned.Completes c) (hw : fn.WellFormed)
    (hc : fn.Consistent) (hne : fn.unused ≠ []) (sweeps : Nat) :
    fn.Completes { c with rounds := ⟨fn.unused, sweeps⟩ :: c.rounds } := by
  refine ⟨h.unstopped, ?_, ?_, ?_, ?_⟩
  · intro k i
    cases k with
    | zero => simp [hw.fallsIn_one_iff hc]
    | succ k =>
      rw [← hw.fallsIn_pruned_iff hc, ← h.falls]
      simp
  · rw [List.forall_mem_cons]
    exact ⟨hc.nodup_unused, h.nodup⟩
  · obtain ⟨front, last, he, hlast, hfront⟩ := h.ended
    refine ⟨⟨fn.unused, sweeps⟩ :: front, last, by simp [he], hlast, ?_⟩
    rw [List.forall_mem_cons]
    exact ⟨hne, hfront⟩
  · intro i
    have halive : fn.pruned.alive i = true ↔ fn.alive i = true ∧ i ∉ fn.unused := alive_without
    rw [h.alive_iff i, halive, and_assoc]
    refine and_congr_right fun _ => ⟨?_, ?_⟩
    · rintro ⟨hstay, hrest⟩ k hk
      obtain ⟨n, rfl⟩ := Nat.exists_eq_add_of_lt hk.pos
      cases n with
      | zero => exact hstay ((hw.fallsIn_one_iff hc).mp hk)
      | succ n => exact hrest (n + 1) ((hw.fallsIn_pruned_iff hc).mpr (by simpa using hk))
    · intro hno
      refine ⟨fun hi => hno 1 ((hw.fallsIn_one_iff hc).mpr hi), fun k hk => ?_⟩
      obtain ⟨n, rfl⟩ := Nat.exists_eq_add_of_lt hk.pos
      exact hno (n + 2) ((hw.fallsIn_pruned_iff hc).mp (by simpa using hk))

/-- By induction on the rounds, each of which makes the function smaller. -/
theorem WellFormed.completes_course (hw : fn.WellFormed) (hc : fn.Consistent) (verify : Bool)
    {fuel : Nat} (number : Nat) (hfuel : fn.code.length < fuel) :
    fn.Completes (course false verify fuel number fn) := by
  induction fuel generalizing fn number with
  | zero => omega
  | succ fuel ih =>
    rw [hw.course_succ hc rfl]
    by_cases hne : fn.unused = []
    · rw [if_pos hne]
      exact hw.completes_of_unused_eq_nil hc hne _
    · rw [if_neg hne]
      have hrem := hw.removable_unused
      have hlt := hrem.length_code_without hne
      have hrest := ih (hrem.wellFormed hc hw) (hrem.consistent hc) (number + 1)
        (by omega)
      exact hrest.cons hw hc hne _

namespace Completes
variable {c : Course}

theorem perRound_eq (h : fn.Completes c) :
    c.rounds.map (·.dead.length) =
      (List.range c.rounds.length).map fun k => {i | fn.FallsIn (k + 1) i}.ncard := by
  refine List.ext_getElem (by simp) ?_
  intro k hk _
  have hlt : k < c.rounds.length := by simpa using hk
  have hround := List.getElem?_eq_getElem hlt
  have hset : {i | fn.FallsIn (k + 1) i} = (c.rounds[k].dead.toFinset : Set Int) := by
    ext i
    simp [← h.falls, hround]
  rw [List.getElem_map, List.getElem_map, List.getElem_range, hset, Set.ncard_coe_finset,
    List.toFinset_card_of_nodup (h.nodup _ (List.getElem_mem hlt))]

/-- There is one more round than there are rounds in which something is removed. -/
theorem length_rounds (h : fn.Completes c) :
    ∃ top, c.rounds.length = top + 1 ∧ (∀ k i, fn.FallsIn k i → k ≤ top) ∧
      (top = 0 ∨ ∃ i, fn.FallsIn top i) := by
  obtain ⟨front, last, he, hlast, hfront⟩ := h.ended
  refine ⟨front.length, by simp [he], ?_, ?_⟩
  · intro k i hk
    obtain ⟨n, rfl⟩ := Nat.exists_eq_add_of_lt hk.pos
    obtain ⟨round, hround, hi⟩ := (h.falls n i).mpr (by simpa using hk)
    have hlt := (List.getElem?_eq_some_iff.mp hround).1
    have hne : n ≠ front.length := by
      rintro rfl
      rw [he, List.getElem?_concat_length] at hround
      rw [← Option.some.inj hround, hlast] at hi
      simp at hi
    simp only [he, List.length_append, List.length_singleton] at hlt
    omega
  · cases hlen : front.length with
    | zero => exact .inl rfl
    | succ n =>
      have hlt : n < front.length := by omega
      obtain ⟨i, hi⟩ := List.exists_mem_of_ne_nil _ (hfront _ (List.getElem_mem hlt))
      refine .inr ⟨i, (h.falls n i).mp ⟨_, ?_, hi⟩⟩
      rw [he, List.getElem?_append_left hlt, List.getElem?_eq_getElem hlt]

theorem alive_eq_false_iff (h : fn.Completes c) (hc : fn.Consistent) {i : Int}
    (hi : fn.alive i = true) : c.func.alive i = false ↔ fn.Expendable i := by
  rw [← Bool.not_eq_true, h.alive_iff]
  constructor
  · intro hgone
    by_contra hno
    exact hgone ⟨hi, fun k hk => hno hk.expendable⟩
  · rintro hexp ⟨-, hno⟩
    obtain ⟨k, hk⟩ := hexp.exists_fallsIn hc hi
    exact hno k hk

end Completes

def begun (fn : Func) (o : Options) : Course :=
  course o.localDeadness o.verifyRounds (fn.code.length + 1) 1 fn

theorem eliminate_eq_of_begun {o : Options} {sink : Option Sink} (hv : fn.malformed? = none)
    (ht : fn.writeTrace o.trace = some sink) :
    fn.eliminate o = {
      func := (fn.begun o).func
      sink
      records := o.logger.keep (fn.begun o).records
      tally := .ofRounds (fn.begun o).rounds
      result := .ofRounds (fn.begun o).rounds
      ending := match (fn.begun o).fault? with
        | some fault => .halted fault
        | none => .converged } := by
  simp only [eliminate, hv, ht]
  rfl

theorem eliminate_of_begun {o : Options} (hv : fn.malformed? = none)
    (ht : fn.writeTrace o.trace ≠ none) (hfault : (fn.begun o).fault? = none) :
    (fn.eliminate o).func = (fn.begun o).func ∧
      (fn.eliminate o).result = .ofRounds (fn.begun o).rounds ∧
      (fn.eliminate o).ending = .converged := by
  obtain ⟨sink, hs⟩ := Option.ne_none_iff_exists'.mp ht
  rw [eliminate_eq_of_begun hv hs, hfault]
  exact ⟨rfl, rfl, rfl⟩

/-- A default elimination removes exactly the instructions from which no chain of users reaches a
terminator or a cycle, each in the round that is the length of its longest chain. So the chains
determine the counts of all rounds, and no instruction that a cycle of uses depends on is removed.
-/
theorem eliminate_by_chains (hc : fn.Consistent) (hv : fn.malformed? = none) {o : Options}
    (hl : o.localDeadness = false) (ht : fn.writeTrace o.trace ≠ none) :
    (fn.eliminate o).ending = .converged ∧
      (∀ i, fn.alive i = true → ((fn.eliminate o).func.alive i = false ↔ fn.Expendable i)) ∧
      (fn.eliminate o).result = .ofRounds (fn.begun o).rounds ∧
      (∀ k i, (∃ round, (fn.begun o).rounds[k]? = some round ∧ i ∈ round.dead) ↔
        fn.FallsIn (k + 1) i) ∧
      (fn.eliminate o).result.perRound =
        (List.range (fn.eliminate o).result.rounds).map (fun k => {i | fn.FallsIn (k + 1) i}.ncard) ∧
      (∃ top, (fn.eliminate o).result.rounds = top + 1 ∧ (∀ k i, fn.FallsIn k i → k ≤ top) ∧
        (top = 0 ∨ ∃ i, fn.FallsIn top i)) ∧
      ∀ i j, fn.alive i = true → Relation.ReflTransGen fn.UsedBy i j →
        Relation.TransGen fn.UsedBy j j → (fn.eliminate o).func.alive i = true := by
  have hdone : fn.Completes (fn.begun o) := by
    rw [begun, hl]
    exact (malformed?_eq_none_iff.mp hv).completes_course hc _ 1 (by omega)
  obtain ⟨hfunc, hresult, hending⟩ := eliminate_of_begun hv ht hdone.unstopped
  rw [hfunc, hresult, hending]
  refine ⟨rfl, fun i hi => hdone.alive_eq_false_iff hc hi, rfl, hdone.falls, hdone.perRound_eq,
    hdone.length_rounds, ?_⟩
  intro i j hi hto hcycle
  rw [← Bool.not_eq_false, hdone.alive_eq_false_iff hc hi]
  exact not_expendable_of_cycle hto hcycle

theorem eliminate_countdown_by_chains :
    countdown.Consistent ∧ countdown.malformed? = none ∧
      countdown.writeTrace (some (.create 0 1)) ≠ none ∧
      (countdown.eliminate ⟨1, true, false, some (.create 0 1), .standard false⟩).ending =
        .converged ∧
      countdown.FallsIn 2 5 ∧ countdown.Expendable 6 ∧
      (countdown.eliminate ⟨1, true, false, some (.create 0 1), .standard false⟩).func.alive 4 =
        true := by
  have ht : countdown.writeTrace (some (.create 0 1)) ≠ none := by
    simp [writeTrace, Sink.write, Sink.create]
  obtain ⟨hending, hgone, -, hfalls, -, -, hcycle⟩ :=
    eliminate_by_chains (o := ⟨1, true, false, some (.create 0 1), .standard false⟩)
      consistent_countdown malformed?_countdown rfl ht
  have h24 : countdown.UsedBy 2 4 := ⟨_, List.mem_of_getElem? (i := 4) rfl, rfl, by decide⟩
  have h42 : countdown.UsedBy 4 2 := ⟨_, List.mem_of_getElem? (i := 2) rfl, rfl, by decide⟩
  refine ⟨consistent_countdown, malformed?_countdown, ht, hending, ?_, ?_, ?_⟩
  · exact (hfalls 1 5).mp ⟨⟨[5], 3⟩, by decide, by decide⟩
  · exact (hgone 6 (by decide)).mp (by decide)
  · exact hcycle 4 4 (by decide) .refl (.head h42 (.single h24))

end Func
end DeadCode
