import DeadCode.Log
import DeadCode.Misuse
import DeadCode.Numeral
import DeadCode.Sink

/-! # Options

The options of an elimination start from defaults that the environment may change, and are then
changed by a list of settings, of which the later ones win. A setting that makes no sense is
refused when it is made.
-/
namespace DeadCode

structure Options where
  maxWorkers : Int
  verifyRounds : Bool
  localDeadness : Bool
  trace : Option Sink
  logger : Logger
deriving DecidableEq, Repr

inductive Setting where
  | maxWorkers (n : Int)
  | verifyRounds (on : Bool)
  | localDeadness (on : Bool)
  | trace (sink : Option Sink)
  | logger (logger : Option Logger)
deriving DecidableEq, Repr

/-- Reads a count from a variable that holds `text`. An unset variable is empty and stands for the
fallback. Counts are 64-bit words: a numeral beyond them is refused, and one in their upper half
reads as a negative number. -/
def readCount (key text : String) (fallback least : Int) : Except Misuse Int :=
  if text = "" then .ok fallback
  else match Numeral.read? text.toList with
    | none => .error (.invalidSetting key)
    | some n =>
      if UInt64.size ≤ n then .error (.invalidSetting key)
      else
        let count := Int.bmod n UInt64.size
        if count < least then .error (.smallSetting key) else .ok count

namespace Setting

def fault? : Setting → Option Misuse
  | maxWorkers n => if n < 1 then some (.workerCount n) else none
  | logger none => some .missingLogger
  | _ => none

def apply (o : Options) : Setting → Options
  | maxWorkers n => { o with maxWorkers := n }
  | verifyRounds on => { o with verifyRounds := on }
  | localDeadness on => { o with localDeadness := on }
  | trace sink => { o with trace := sink }
  | logger (some l) => { o with logger := l }
  | logger none => o

/-- The settings that are made before the first one that cannot be. -/
def made (settings : List Setting) : List Setting :=
  settings.takeWhile fun s => s.fault?.isNone

end Setting

namespace Options

/-- The defaults: as many workers as there are processors, unless variables say otherwise. -/
def ofEnvironment (env : String → String) (processors : Int) : Except Misuse Options :=
  match readCount "DCE_MAX_WORKERS" (env "DCE_MAX_WORKERS") processors 1 with
  | .error m => .error m
  | .ok maxWorkers =>
    .ok {
      maxWorkers
      verifyRounds := env "DCE_VERIFY_ROUNDS" = "yes"
      localDeadness := false
      trace := none
      logger := .standard (env "DCE_DEBUG" = "yes") }

def build (defaults : Options) (settings : List Setting) : Except Misuse Options :=
  match settings.findSome? (·.fault?) with
  | some m => .error m
  | none => .ok (settings.foldl Setting.apply defaults)

def workersWithin (limit n : Int) : Int := if limit ≤ 0 ∨ n < limit then n else limit

def workers (o : Options) (n : Int) : Int := workersWithin o.maxWorkers n

end Options

end DeadCode
