import DeadCode.Node

/-! # Functions

A function holds its blocks, each block the instructions attached to it in program order. Beside
them a directory keeps one slot for every instruction number ever given out, so that a removed
instruction is told from one that never was. The epoch counts the changes made to the function.
-/
namespace DeadCode

structure Instr where
  id : Int
  node : Node
deriving DecidableEq, Repr

namespace Instr

def kind (x : Instr) : Kind := x.node.kind
def text (x : Instr) : String := x.node.text x.id

end Instr

structure BasicBlock where
  name : String
  code : List Instr
deriving DecidableEq, Repr

namespace BasicBlock

def terminator? (b : BasicBlock) : Option Instr :=
  b.code.getLast?.filter (·.kind = .terminator)

/-- The targets of the terminator; a block without one leads nowhere. -/
def succ (b : BasicBlock) : List Int :=
  match b.terminator? with
  | some t => t.node.targets
  | none => []

def merges (b : BasicBlock) : List Instr := b.code.takeWhile (·.kind = .merge)

def body (b : BasicBlock) : List Instr := b.code.dropWhile (·.kind = .merge)

/-- The merge uses that control leaving `p` for this block brings about. -/
def usesFrom (p : Int) (b : BasicBlock) : List Value := b.merges.flatMap (·.node.usesFrom p)

end BasicBlock

structure Slot where
  block : Int
  kind : Kind
  alive : Bool
deriving DecidableEq, Repr

structure Func where
  id : Nat
  name : String
  argCount : Nat
  size : Nat
  epoch : UInt64
  blocks : List BasicBlock
  slots : List Slot
deriving DecidableEq, Repr

namespace Func

def create (id : Nat) (name : String) (argCount : Int) : Except Misuse Func :=
  if argCount < 0 then .error (.argCount argCount)
  else .ok ⟨id, name, argCount.toNat, 0, 0, [], []⟩

def rename (fn : Func) (name : String) : Func := { fn with name }

def block? (fn : Func) (b : Int) : Option BasicBlock := nth? fn.blocks b

def block (fn : Func) (b : Int) : Except Misuse BasicBlock :=
  match fn.block? b with
  | some block => .ok block
  | none => .error (.invalidBlock b fn.name)

def blockIds (fn : Func) : List Int := (List.range fn.blocks.length).map Int.ofNat

/-- The first block created is where control enters. -/
def entry (fn : Func) : Except Misuse Int :=
  if fn.blocks = [] then .error (.noBlocks fn.name) else .ok 0

def code (fn : Func) : List Instr := fn.blocks.flatMap (·.code)

/-- The directory's word on an instruction that is still there. -/
def slot (fn : Func) (i : Int) : Except Misuse Slot :=
  match nth? fn.slots i with
  | none => .error (.invalidInstr i fn.name)
  | some s => if s.alive then .ok s else .error (.removedInstr i fn.name)

def alive (fn : Func) (i : Int) : Bool :=
  match nth? fn.slots i with
  | none => false
  | some s => s.alive

/-- The instruction itself, found in the block that its slot names. -/
def instr (fn : Func) (i : Int) : Except Misuse Instr :=
  match fn.slot i with
  | .error m => .error m
  | .ok s =>
    match (fn.block? s.block).bind (·.code.find? (·.id = i)) with
    | some x => .ok x
    | none => .error (.invalidInstr i fn.name)

def value (fn : Func) (i : Int) : Except Misuse Value :=
  match fn.slot i with
  | .error m => .error m
  | .ok _ => .ok (.instr fn.id i)

def arg (fn : Func) (i : Int) : Except Misuse Value :=
  if 0 ≤ i ∧ i < fn.argCount then .ok (.arg fn.id i) else .error (.argIndex i)

def const (fn : Func) (n : Int) : Value := .const fn.id n

end Func

end DeadCode
