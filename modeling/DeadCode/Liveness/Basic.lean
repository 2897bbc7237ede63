import DeadCode.Fault
import DeadCode.Liveness.Sweep
import DeadCode.Liveness.VisitOrder

/-! # Live maps

The result of the analysis: the live sets of every instruction, with the number of sweeps it took.
A map belongs to one state of one function. Its accessors are given the function as it is now, and
answer only if the epoch has not moved and no removal has used the map up.
-/
namespace DeadCode

/-- The live sets of one instruction. A merge also has, for each block among its edges, the values
it takes from there. -/
structure LiveEntry where
  instr : Int
  sides : LiveSides
  uses : Option (List (Int × ValueSet))
deriving DecidableEq

structure Liveness where
  func : Nat
  epoch : UInt64
  sweeps : Nat
  entries : List LiveEntry
  consumed : Bool
deriving DecidableEq

namespace Node

def noteUse (e : Edge) : List (Int × ValueSet) → List (Int × ValueSet)
  | [] => [(e.pred, ValueSet.ofList ([e.value].filter (·.tracked)))]
  | (p, vs) :: rest =>
    if e.pred = p then (p, vs.insertAll ([e.value].filter (·.tracked))) :: rest
    else if e.pred < p then
      (e.pred, ValueSet.ofList ([e.value].filter (·.tracked))) :: (p, vs) :: rest
    else (p, vs) :: noteUse e rest

/-- What a merge takes from each block; other instructions have no such table. -/
def useTable : Node → Option (List (Int × ValueSet))
  | merge edges => some (edges.foldl (fun table e => noteUse e table) [])
  | _ => none

end Node

namespace Func

def liveEntries (fn : Func) (facts : Facts) : List LiveEntry :=
  (fn.blocks.zip facts).flatMap fun (block, sets) =>
    (block.code.zip sets).map fun (x, s) => ⟨x.id, s, x.node.useTable⟩

/-- The live map of a function that is known to be well-formed. -/
def liveness (fn : Func) : Liveness :=
  let (facts, sweeps) := fn.settle fn.visitOrder fn.sweepBound fn.noFacts
  ⟨fn.id, fn.epoch, sweeps, fn.liveEntries facts, false⟩

def analyze (fn : Func) : Except Malformed Liveness :=
  match fn.malformed? with
  | some m => .error m
  | none => .ok fn.liveness

theorem analyze_eq {fn : Func} (hv : fn.malformed? = none) : fn.analyze = .ok fn.liveness := by
  simp only [analyze, hv]

end Func

namespace Liveness

/-- Why the map may not be asked about the function as it is now. -/
def breach? (lv : Liveness) (fn : Func) (operation : Operation) : Option Breach :=
  if lv.consumed then some ⟨operation, .consumed⟩
  else if fn.epoch ≠ lv.epoch then some ⟨operation, .stale fn.name⟩
  else none

theorem breach?_liveness (fn : Func) (operation : Operation) :
    fn.liveness.breach? fn operation = none := by
  simp [breach?, Func.liveness]

def answer {α : Type} (lv : Liveness) (fn : Func) (operation : Operation) (a : α) :
    Except Breach α :=
  match lv.breach? fn operation with
  | some b => .error b
  | none => .ok a

def funcId (lv : Liveness) (fn : Func) : Except Breach Nat := lv.answer fn .func lv.func

def find? (lv : Liveness) (i : Int) : Option LiveEntry := lv.entries.find? (·.instr = i)

def of (lv : Liveness) (fn : Func) (i : Int) : Except Breach LiveEntry :=
  match lv.breach? fn .of with
  | some b => .error b
  | none =>
    match lv.find? i with
    | some e => .ok e
    | none => .error ⟨.of, .unknownInstr i⟩

def each (lv : Liveness) (fn : Func) : Except Breach (List LiveEntry) :=
  lv.answer fn .each lv.entries

def liveAfterSome (lv : Liveness) (fn : Func) (v : Value) : Except Breach Bool :=
  lv.answer fn .liveAfterSome (lv.entries.any fun e => v ∈ e.sides.after)

def liveSomewhere (lv : Liveness) (fn : Func) (v : Value) : Except Breach Bool :=
  lv.answer fn .liveSomewhere
    (lv.entries.any fun e => v ∈ e.sides.after ∨ v ∈ e.sides.before)

end Liveness

end DeadCode
