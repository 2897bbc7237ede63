import DeadCode.Elimination.Basic

/-! # Elimination in a program

A program holds functions by number. A batch eliminates in several of them, one after another; the
functions share nothing but the trace sink and the totals. A function that is rejected does not
stop the others, and the first failure is reported at the end.
-/
namespace DeadCode

structure Program where
  funcs : List Func

namespace Program

def empty : Program := ⟨[]⟩

def func? (p : Program) (f : Nat) : Option Func := p.funcs[f]?

def set (p : Program) (f : Nat) (fn : Func) : Program := ⟨p.funcs.set f fn⟩

def create (p : Program) (name : String) (argCount : Int) : Except Misuse (Program × Func) :=
  match Func.create p.funcs.length name argCount with
  | .error m => .error m
  | .ok fn => .ok (⟨p.funcs ++ [fn]⟩, fn)

end Program

inductive Failure where
  | rejected (func : String) (cause : Rejection)
  | halted (f : Fault)
deriving DecidableEq, Repr

def rejectionText (func : String) (cause : Rejection) : String :=
  "dce: cannot eliminate dead code of " ++ func ++ ": " ++ cause.message

structure Batch where
  program : Program
  sink : Option Sink
  records : List Record
  tally : Tally
  results : List Result
  failure? : Option Failure

namespace Batch

def start (p : Program) (o : Options) (count : Nat) : Batch :=
  ⟨p, o.trace, [], .zero, List.replicate count (.ofRounds []), none⟩

def failureOf (fn : Func) : Ending → Option Failure
  | .converged => none
  | .rejected r => some (.rejected fn.name r)
  | .halted f => some (.halted f)

/-- Eliminates in one function and files the result under `place`; a number that names no function
is passed over. -/
def step (o : Options) (batch : Batch) (place f : Nat) : Batch :=
  match batch.program.func? f with
  | none => batch
  | some fn =>
    let e := fn.eliminate { o with trace := batch.sink }
    { program := batch.program.set f e.func
      sink := e.sink
      records := batch.records ++ e.records
      tally := batch.tally.add e.tally
      results := match e.ending with
        | .converged => batch.results.set place e.result
        | _ => batch.results
      failure? := batch.failure?.or (failureOf fn e.ending) }

def run (o : Options) (schedule : List (Nat × Nat)) (batch : Batch) : Batch :=
  schedule.foldl (fun batch (place, f) => batch.step o place f) batch

/-- The results in the order of the list, or the first failure. -/
def outcome (batch : Batch) : Except Failure (List Result) :=
  match batch.failure? with
  | some failure => .error failure
  | none => .ok batch.results

end Batch

namespace Program

def eliminateEach (p : Program) (o : Options) (fs : List Nat) : Batch :=
  Batch.run o (fs.zipIdx.map fun (f, place) => (place, f)) (.start p o fs.length)

end Program

end DeadCode
