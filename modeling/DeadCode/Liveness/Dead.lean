import DeadCode.Func.Remove
import DeadCode.Liveness.Basic

/-! # Dead instructions

An instruction is dead if its value is live nowhere in the function, or, when only its own place is
asked about, if its value is not live after it. Terminators are never dead. Releasing dead
instructions takes them out of the function and uses the map up.
-/
namespace DeadCode

namespace Liveness

def support (lv : Liveness) : ValueSet :=
  lv.entries.foldl (fun all e => all ∪ e.sides.before ∪ e.sides.after) ∅

def liveAt (lv : Liveness) (i : Int) (v : Value) : Bool :=
  match lv.find? i with
  | some e => v ∈ e.sides.after
  | none => false

/-- The instructions whose value nothing needs, in program order. -/
def deadInstrs (lv : Liveness) (fn : Func) (localOnly : Bool) : List Int :=
  let support := lv.support
  let needed := fun x : Instr =>
    if localOnly then lv.liveAt x.id (x.value fn.id) else decide (x.value fn.id ∈ support)
  (fn.code.filter fun x => x.kind ≠ .terminator ∧ ¬ needed x).map (·.id)

def dead (lv : Liveness) (fn : Func) (localOnly : Bool) : Except Breach (List Int) :=
  lv.answer fn .dead (lv.deadInstrs fn localOnly)

structure Released where
  map : Liveness
  func : Func
  fault? : Option Fault

def releaseFault? (fn : Func) (i : Int) : Option Fault :=
  match fn.slot i with
  | .error m => some (.misuse m)
  | .ok s => if s.kind = .terminator then some (.breach ⟨.release, .terminator i⟩) else none

/-- Takes instructions out of the function. Once the list has been looked through the map is used
up, even if the removal itself is then refused. -/
def release (lv : Liveness) (fn : Func) (ins : List Int) : Released :=
  match lv.breach? fn .release with
  | some b => ⟨lv, fn, some (.breach b)⟩
  | none =>
    match ins.findSome? (releaseFault? fn) with
    | some fault => ⟨lv, fn, some fault⟩
    | none =>
      let used := { lv with consumed := true }
      match fn.removeAll ins with
      | .error m => ⟨used, fn, some (.misuse m)⟩
      | .ok rest => ⟨used, rest, none⟩

end Liveness

end DeadCode
