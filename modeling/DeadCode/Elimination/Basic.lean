import DeadCode.Liveness.Dead
import DeadCode.Liveness.Text
import DeadCode.Options

/-! # Elimination of dead code

Each round analyses the function and removes the instructions found dead; removing them may leave
others without a user, so rounds go on until one finds nothing. The trace, if there is one, gets
the analysis of the first round in a single write before anything is removed.
-/
namespace DeadCode

/-- What an elimination did. The last round is the one that found nothing. -/
structure Result where
  rounds : Nat
  removed : Nat
  perRound : List Nat
deriving DecidableEq, Repr

structure Tally where
  funcs : Nat
  rounds : Nat
  sweeps : Nat
  removed : Nat
deriving DecidableEq, Repr

def Tally.zero : Tally := ⟨0, 0, 0, 0⟩

def Tally.add (s t : Tally) : Tally :=
  ⟨s.funcs + t.funcs, s.rounds + t.rounds, s.sweeps + t.sweeps, s.removed + t.removed⟩

inductive Rejection where
  | malformed (m : Malformed)
  | write
deriving DecidableEq, Repr

def Rejection.message : Rejection → String
  | malformed m => m.message
  | write => refusedWrite

structure Round where
  dead : List Int
  sweeps : Nat
deriving DecidableEq, Repr

def Round.total (count : Round → Nat) (rounds : List Round) : Nat :=
  rounds.foldl (fun sum round => sum + count round) 0

def Result.ofRounds (rounds : List Round) : Result :=
  ⟨rounds.length, Round.total (·.dead.length) rounds, rounds.map (·.dead.length)⟩

def Tally.ofRounds (rounds : List Round) : Tally :=
  ⟨1, rounds.length, Round.total (·.sweeps) rounds, Round.total (·.dead.length) rounds⟩

/-- The rounds of an elimination, the function they leave, and what stopped them half-way. -/
structure Course where
  rounds : List Round
  func : Func
  fault? : Option Fault

namespace Func

def roundFault? (fn : Func) (verify : Bool) (number : Nat) : Option Fault :=
  if verify then fn.malformed?.map fun m => .breach ⟨.eliminate, .broken number m⟩ else none

/-- The rounds from round `number` on. Every round but the last removes an instruction, so the
number of instructions bounds them. -/
def course (localOnly verify : Bool) : Nat → Nat → Func → Course
  | 0, _, fn => ⟨[], fn, none⟩
  | fuel + 1, number, fn =>
    let lv := fn.liveness
    let round : Round := ⟨lv.deadInstrs fn localOnly, lv.sweeps⟩
    if round.dead = [] then ⟨[round], fn, none⟩
    else
      let released := lv.release fn round.dead
      match released.fault?.or (released.func.roundFault? verify number) with
      | some fault => ⟨[round], released.func, some fault⟩
      | none =>
        let rest := course localOnly verify fuel (number + 1) released.func
        { rest with rounds := round :: rest.rounds }

end Func

def roundRecord (func : String) (round : Round) (number : Nat) : Record :=
  ⟨Level.debug, "dce round",
    [("func", .text func), ("round", .number number), ("removed", .number round.dead.length),
      ("sweeps", .number round.sweeps)]⟩

def closingRecord (fn : Func) (result : Result) : Record :=
  ⟨Level.debug, "dce converged",
    [("func", .text fn.name), ("rounds", .number result.rounds),
      ("removed", .number result.removed), ("remaining", .number fn.size)]⟩

/-- The records of a course; one that was stopped has no closing record. -/
def Course.records (c : Course) : List Record :=
  let rounds := c.rounds.zipIdx.map fun (round, k) => roundRecord c.func.name round (k + 1)
  match c.fault? with
  | some _ => rounds
  | none => rounds ++ [closingRecord c.func (.ofRounds c.rounds)]

inductive Ending where
  | converged
  | rejected (r : Rejection)
  | halted (f : Fault)
deriving DecidableEq, Repr

structure Elimination where
  func : Func
  sink : Option Sink
  records : List Record
  tally : Tally
  result : Result
  ending : Ending

namespace Func

def writeTrace (fn : Func) : Option Sink → Option (Option Sink)
  | none => some none
  | some sink => (sink.write (fn.liveness.traceText fn)).map some

def reject (fn : Func) (o : Options) (tally : Tally) (r : Rejection) : Elimination :=
  ⟨fn, o.trace, [], tally, .ofRounds [], .rejected r⟩

def eliminate (fn : Func) (o : Options) : Elimination :=
  match fn.malformed? with
  | some m => fn.reject o .zero (.malformed m)
  | none =>
    match fn.writeTrace o.trace with
    | none => fn.reject o (.ofRounds []) .write
    | some sink =>
      let c := course o.localDeadness o.verifyRounds (fn.code.length + 1) 1 fn
      { func := c.func
        sink
        records := o.logger.keep c.records
        tally := .ofRounds c.rounds
        result := .ofRounds c.rounds
        ending := match c.fault? with
          | some fault => .halted fault
          | none => .converged }

end Func

end DeadCode
