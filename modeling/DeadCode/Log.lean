/-! # Log records

A record has a level, a message and named fields. A logger keeps the records of its level and
above.
-/
namespace DeadCode

namespace Level

def debug : Int := -4
def info : Int := 0

end Level

inductive Field where
  | number (n : Int)
  | text (s : String)
deriving DecidableEq, Repr

structure Record where
  level : Int
  message : String
  fields : List (String × Field)
deriving DecidableEq, Repr

structure Logger where
  /-- Tells the loggers of one list of settings apart; the standard logger has none. -/
  label : Option Nat
  level : Int
deriving DecidableEq, Repr

namespace Logger

/-- The logger in use when no other is set. -/
def standard (debug : Bool) : Logger := ⟨none, if debug then Level.debug else Level.info⟩

def enabled (l : Logger) (level : Int) : Bool := decide (l.level ≤ level)

def keep (l : Logger) (records : List Record) : List Record :=
  records.filter fun r => l.enabled r.level

end Logger

end DeadCode
