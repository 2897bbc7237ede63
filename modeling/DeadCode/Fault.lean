import DeadCode.Func.Verify

/-! # Faults of the analysis

A live map describes a function as it was when it was analysed. To ask it about a function that has
changed since, or after its own removal, is a breach of its contract, and so is a removal round that
would take out a terminator or leave a malformed function behind.
-/
namespace DeadCode

inductive Operation where
  | func
  | of
  | each
  | liveAfterSome
  | liveSomewhere
  | trace
  | string
  | dead
  | release
  | eliminate
deriving DecidableEq, Repr

def Operation.name : Operation → String
  | func => "Func"
  | of => "Of"
  | each => "Each"
  | liveAfterSome => "LiveOutAnywhere"
  | liveSomewhere => "LiveAnywhere"
  | trace => "Trace"
  | string => "String"
  | dead => "dead"
  | release => "release"
  | eliminate => "Eliminate"

inductive BreachCause where
  | consumed
  | stale (func : String)
  | unknownInstr (instr : Int)
  | terminator (instr : Int)
  | broken (round : Nat) (malformed : Malformed)
deriving DecidableEq, Repr

def BreachCause.reason : BreachCause → String
  | consumed => "liveness map was consumed by a removal round"
  | stale func => "function " ++ func ++ " changed since the liveness analysis"
  | unknownInstr i => instrText i ++ " is not part of the analyzed function"
  | terminator i => "terminator " ++ instrText i ++ " selected for removal"
  | broken n m => "round " ++ toString n ++ " broke the function: " ++ m.message

structure Breach where
  operation : Operation
  cause : BreachCause
deriving DecidableEq, Repr

def Breach.message (b : Breach) : String :=
  "dce: invariant violated in " ++ b.operation.name ++ ": " ++ b.cause.reason

/-- What can stop an operation half-way. -/
inductive Fault where
  | misuse (m : Misuse)
  | breach (b : Breach)
deriving DecidableEq, Repr

end DeadCode
