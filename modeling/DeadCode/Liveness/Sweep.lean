import DeadCode.ValueSet
import DeadCode.Func.Flow

/-! # Sweeps of the liveness equations

A value is live before an instruction that reads it, and before one that it is live after and that
does not define it. It is live after an instruction if it is live before the next one; after a
terminator, if it is live before the first instruction behind the merges of a target, or if a merge
there takes it from this block. A sweep applies the equations once to every block, from its end to
its start; sweeps are repeated until one of them changes nothing.
-/
namespace DeadCode

structure LiveSides where
  before : ValueSet
  after : ValueSet
deriving DecidableEq

abbrev Facts := List (List LiveSides)

namespace Instr

def value (owner : Nat) (x : Instr) : Value := .instr owner x.id

def liveBefore (owner : Nat) (x : Instr) (out : ValueSet) : ValueSet :=
  let kept := if x.kind = .terminator then out else out.erase (x.value owner)
  kept.insertAll (x.node.operands.filter (·.tracked))

theorem mem_liveBefore {owner : Nat} {x : Instr} {out : ValueSet} {v : Value} :
    v ∈ x.liveBefore owner out ↔
      v ∈ out ∧ (x.kind = .terminator ∨ v ≠ x.value owner) ∨ v ∈ x.node.operands ∧ v.tracked := by
  unfold liveBefore
  by_cases h : x.kind = .terminator
  · simp [h]
  · simp [h]

end Instr

def frontIn : List LiveSides → ValueSet
  | [] => ∅
  | s :: _ => s.before

/-- The live sets of a stretch of code, from its end to its start. What is live after a terminator
depends on its targets only. -/
def pass (owner : Nat) (exit : List Int → ValueSet) : List Instr → List LiveSides
  | [] => []
  | x :: rest =>
    let later := pass owner exit rest
    let out := if x.kind = .terminator then exit x.node.targets else frontIn later
    ⟨x.liveBefore owner out, out⟩ :: later

@[simp] theorem length_pass (owner : Nat) (exit : List Int → ValueSet) (code : List Instr) :
    (pass owner exit code).length = code.length := by
  induction code with
  | nil => rfl
  | cons x rest ih => simp [pass, ih]

namespace Func

/-- What is live in block `s` behind its merges. -/
def entryIn (fn : Func) (facts : Facts) (s : Int) : ValueSet :=
  match fn.block? s, nth? facts s with
  | some block, some sets => frontIn (sets.drop block.merges.length)
  | _, _ => ∅

def edgeUses (fn : Func) (b s : Int) : List Value :=
  match fn.block? s with
  | some block => block.usesFrom b
  | none => []

def exitOut (fn : Func) (facts : Facts) (b : Int) (targets : List Int) : ValueSet :=
  targets.foldl (fun out s => (out ∪ fn.entryIn facts s).insertAll (fn.edgeUses b s)) ∅

theorem mem_exitOut {fn : Func} {facts : Facts} {b : Int} {targets : List Int} {v : Value} :
    v ∈ fn.exitOut facts b targets ↔
      ∃ s ∈ targets, v ∈ fn.entryIn facts s ∨ v ∈ fn.edgeUses b s := by
  have fold : ∀ out : ValueSet,
      v ∈ targets.foldl
          (fun out s => (out ∪ fn.entryIn facts s).insertAll (fn.edgeUses b s)) out ↔
        v ∈ out ∨ ∃ s ∈ targets, v ∈ fn.entryIn facts s ∨ v ∈ fn.edgeUses b s := by
    induction targets with
    | nil => simp
    | cons s rest ih =>
      intro out
      rw [List.foldl_cons, ih]
      simp only [ValueSet.mem_insertAll, ValueSet.mem_union, List.mem_cons]
      grind
  simpa [exitOut] using fold ∅

def visit (fn : Func) (facts : Facts) (b : Int) : Facts :=
  match fn.block? b with
  | some block => modifyNth facts (fun _ => pass fn.id (fn.exitOut facts b) block.code) b
  | none => facts

def sweep (fn : Func) (order : List Int) (facts : Facts) : Facts := order.foldl fn.visit facts

def noFacts (fn : Func) : Facts := fn.blocks.map fun block => block.code.map fun _ => ⟨∅, ∅⟩

/-- Sweeps until nothing changes, and counts the sweeps, the last one included. -/
def settle (fn : Func) (order : List Int) : Nat → Facts → Facts × Nat
  | 0, facts => (facts, 0)
  | fuel + 1, facts =>
    let swept := fn.sweep order facts
    if swept = facts then (swept, 1)
    else
      let (settled, sweeps) := fn.settle order fuel swept
      (settled, sweeps + 1)

/-- Every sweep but the last one puts a value into a set. There are two sets for an instruction,
and only values in use get into them. -/
def sweepBound (fn : Func) : Nat :=
  2 * fn.code.length * (fn.code.flatMap (·.node.uses)).length + 1

end Func

end DeadCode
