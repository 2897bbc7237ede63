import DeadCode.Elimination.Basic
import DeadCode.Proofs.Verification

/-! # Eliminations that are turned down

An elimination is a loop of rounds, and the trace is written inside of it, by a writer that may
refuse the text. The loop is taken here turn by turn, with any writer. A turn writes only before the
first round has been counted, and it refuses to go on only when that write is refused, so nothing
has been removed or counted by then; the turns behind it leave the writer alone. With a sink for its
writer the loop comes to what the elimination comes to.
-/
namespace DeadCode

/-- Anything that takes text. A write may change the state of the writer, and reports whether the
text was taken. -/
abbrev Writer (σ : Type) := String → σ → σ × Bool

def Result.count (result : Result) (round : Round) : Result :=
  ⟨result.rounds + 1, result.removed + round.dead.length, result.perRound ++ [round.dead.length]⟩

def Tally.count (tally : Tally) (round : Round) : Tally :=
  ⟨tally.funcs, tally.rounds + 1, tally.sweeps + round.sweeps, tally.removed + round.dead.length⟩

/-- An elimination under way; `trace` is the state of the writer, if there is one. -/
structure Task (σ : Type) where
  func : Func
  trace : Option σ
  records : List Record
  tally : Tally
  result : Result

inductive Turn (σ : Type) where
  | again (t : Task σ)
  | stop (t : Task σ) (ending : Ending)

def Turn.follow {σ : Type} (next : Task σ → Option (Task σ × Ending)) :
    Turn σ → Option (Task σ × Ending)
  | again t => next t
  | stop t ending => some (t, ending)

namespace Task
variable {σ : Type} {o : Options} {w : Writer σ} {t t' : Task σ} {ending : Ending} {fuel : Nat}

/-- The trace is written to a buffer line by line, and the buffer to the writer in one write. -/
def written (w : Writer σ) (lv : Liveness) (fn : Func) : Option σ → Except Breach (Option σ × Bool)
  | none => .ok (none, true)
  | some s =>
    match lv.trace fn (Sink.create 0 (-1)) with
    | .error b => .error b
    | .ok (buffer, _) => .ok (some (w buffer.text s).1, (w buffer.text s).2)

def count (o : Options) (round : Round) (t : Task σ) : Task σ :=
  { t with
    records := t.records ++ o.logger.keep [roundRecord t.func.name round (t.result.rounds + 1)]
    tally := t.tally.count round
    result := t.result.count round }

def finding (o : Options) (lv : Liveness) (fn : Func) : Round :=
  ⟨lv.deadInstrs fn o.localDeadness, lv.sweeps⟩

def round (o : Options) (lv : Liveness) (t : Task σ) : Turn σ :=
  let round := finding o lv t.func
  let t := t.count o round
  if round.dead = [] then
    .stop { t with records := t.records ++ o.logger.keep [closingRecord t.func t.result] } .converged
  else
    let released := lv.release t.func round.dead
    match released.fault?.or (released.func.roundFault? o.verifyRounds t.result.rounds) with
    | some fault => .stop { t with func := released.func } (.halted fault)
    | none => .again { t with func := released.func }

/-- A turn of the loop. Only the first analysis is traced. -/
def turn (o : Options) (w : Writer σ) (t : Task σ) : Turn σ :=
  let lv := t.func.liveness
  if t.result.rounds = 0 then
    match written w lv t.func t.trace with
    | .error b => .stop t (.halted (.breach b))
    | .ok (trace, false) => .stop { t with trace } (.rejected .write)
    | .ok (trace, true) => { t with trace }.round o lv
  else t.round o lv

def run (o : Options) (w : Writer σ) : Nat → Task σ → Option (Task σ × Ending)
  | 0, _ => none
  | fuel + 1, t => (t.turn o w).follow (run o w fuel)

end Task

def roundRecords (name : String) (rounds : List Round) : List Record :=
  rounds.zipIdx.map fun (round, k) => roundRecord name round (k + 1)

namespace Task
variable {σ : Type} {o : Options} {w : Writer σ} {t t' : Task σ} {ending : Ending} {fuel : Nat}

end Task

namespace Task
variable {σ : Type} {o : Options} {w : Writer σ} {trace : Option σ} {fn : Func} {lv : Liveness}
  {fuel : Nat}

def past (o : Options) (fn : Func) (trace : Option σ) (done : List Round) : Task σ :=
  ⟨fn, trace, o.logger.keep (roundRecords fn.name done), .ofRounds done, .ofRounds done⟩

end Task

def Elimination.task (e : Elimination) : Task Sink := ⟨e.func, e.sink, e.records, e.tally, e.result⟩

namespace Func
variable {σ : Type} {fn : Func} {o : Options} {w : Writer σ} {trace : Option σ} {fuel : Nat}

end Func
end DeadCode
