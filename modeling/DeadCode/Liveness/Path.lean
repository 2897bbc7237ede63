import DeadCode.Func.Flow

/-! # Flow paths

What it means for a value to be live, said without any equation: from a place on, some path of the
control flow reads the value before any instruction on the way defines it. The value that a merge
takes from a block is read where that block ends.
-/
namespace DeadCode

structure Place where
  block : Int
  index : Nat
deriving DecidableEq, Repr

namespace Func

def at? (fn : Func) (p : Place) : Option Instr :=
  match fn.block? p.block with
  | some block => block.code[p.index]?
  | none => none

/-- Control goes to the next instruction, or behind the merges of a terminator's target. -/
inductive Flows (fn : Func) : Place → Place → Prop
  | next {b : Int} {k : Nat} {x y : Instr} : fn.at? ⟨b, k⟩ = some x → x.kind ≠ .terminator →
      fn.at? ⟨b, k + 1⟩ = some y → Flows fn ⟨b, k⟩ ⟨b, k + 1⟩
  | jump {b s : Int} {k : Nat} {x : Instr} {block : BasicBlock} : fn.at? ⟨b, k⟩ = some x →
      x.kind = .terminator → s ∈ x.node.targets → fn.block? s = some block →
      Flows fn ⟨b, k⟩ ⟨s, block.merges.length⟩

/-- A merge of a target of the terminator at `p` takes the value from this block. -/
def EdgeReads (fn : Func) (p : Place) (v : Value) : Prop :=
  ∃ t s block, fn.at? p = some t ∧ t.kind = .terminator ∧ s ∈ t.node.targets ∧
    fn.block? s = some block ∧ ∃ m ∈ block.merges, ⟨p.block, v⟩ ∈ m.node.edges

def Reads (fn : Func) (p : Place) (v : Value) : Prop :=
  (∃ x, fn.at? p = some x ∧ v ∈ x.node.operands) ∨ fn.EdgeReads p v

def Defines (fn : Func) (p : Place) (v : Value) : Prop :=
  ∃ x, fn.at? p = some x ∧ x.kind ≠ .terminator ∧ v = .instr fn.id x.id

/-- Some path from this place reads the value before defining it. -/
inductive Needs (fn : Func) (v : Value) : Place → Prop
  | here {p : Place} : fn.Reads p v → Needs fn v p
  | later {p q : Place} : fn.Flows p q → ¬ fn.Defines p v → Needs fn v q → Needs fn v p

/-- The value is needed behind this place, or on the way out of it. -/
def NeedsAfter (fn : Func) (v : Value) (p : Place) : Prop :=
  (∃ q, fn.Flows p q ∧ fn.Needs v q) ∨ fn.EdgeReads p v

end Func

end DeadCode
