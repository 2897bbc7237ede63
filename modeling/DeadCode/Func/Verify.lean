import DeadCode.Func.Flow

/-! # Verification

A function is well-formed if every block ends in its only terminator, merges lead their blocks and
have exactly one edge per predecessor, jumps stay inside the function, and every operand is there.
The verifier reports the first rule that is broken, and where.
-/
namespace DeadCode

inductive Position where
  | whole
  | block (b : Int)
  | instr (b : Int) (index : Int)
deriving DecidableEq, Repr

namespace Position

/-- Block -1 stands for the whole function, a negative index for the whole block. -/
def ofIndices (b i : Int) : Position :=
  if b = -1 then whole else if i < 0 then block b else instr b i

def blockIndex : Position → Int
  | whole => -1
  | block b => b
  | instr b _ => b

def instrIndex : Position → Int
  | whole => 0
  | block _ => -1
  | instr _ i => i

def text : Position → String
  | whole => "func"
  | block b => blockText b
  | instr b i => blockText b ++ ".ins[" ++ toString i ++ "]"

end Position

inductive Violation where
  | noBlocks
  | strayTarget (target : Int)
  | noTerminator
  | plainEnd (instr : Int)
  | mergeEnd (instr : Int)
  | earlyTerminator (instr : Int)
  | lateMerge (instr : Int)
  | strayEdge (pred : Int)
  | repeatedEdge (pred : Int)
  | missingEdge (pred : Int)
  | missingOperand
  | foreignArg (value : Value)
  | argRange (value : Value)
  | foreignInstr (value : Value)
  | dangling (value : Value)
  | terminatorValue (value : Value)
deriving DecidableEq, Repr

def Violation.reason : Violation → String
  | noBlocks => "no basic blocks"
  | strayTarget s => "successor " ++ blockText s ++ " is not in the function"
  | noTerminator => "block has no terminator"
  | plainEnd i => "plain instruction " ++ instrText i ++ " ends the block"
  | mergeEnd i => "merge instruction " ++ instrText i ++ " ends the block"
  | earlyTerminator i => "terminator " ++ instrText i ++ " is not the last instruction"
  | lateMerge i => "merge instruction " ++ instrText i ++ " follows a non-merge instruction"
  | strayEdge p => "incoming value from " ++ blockText p ++ " which is not a predecessor"
  | repeatedEdge p => "duplicated incoming value from " ++ blockText p
  | missingEdge p => "missing incoming value from " ++ blockText p
  | missingOperand => "missing operand"
  | foreignArg v => "argument " ++ v.text ++ " belongs to another function"
  | argRange v => "argument " ++ v.text ++ " is out of range"
  | foreignInstr v => "value " ++ v.text ++ " belongs to another function"
  | dangling v => "dangling operand " ++ v.text
  | terminatorValue v => "operand " ++ v.text ++ " refers to a terminator"

structure Malformed where
  func : String
  position : Position
  violation : Violation
deriving DecidableEq, Repr

def Malformed.message (m : Malformed) : String :=
  "malformed IR in " ++ m.func ++ " at " ++ m.position.text ++ ": " ++ m.violation.reason

namespace Func

def valueFault? (fn : Func) (v : Value) : Option Violation :=
  match v with
  | .absent => some .missingOperand
  | .const .. => none
  | .arg owner i =>
    if owner ≠ fn.id then some (.foreignArg v)
    else if 0 ≤ i ∧ i < fn.argCount then none
    else some (.argRange v)
  | .instr owner i =>
    if owner ≠ fn.id then some (.foreignInstr v)
    else match fn.slot i with
      | .error _ => some (.dangling v)
      | .ok s => if s.kind = .terminator then some (.terminatorValue v) else none

/-- What is wrong with a merge's edges, of which those from `seen` have been passed. -/
def edgeFault? (fn : Func) (preds : List Int) : List Int → List Edge → Option Violation
  | _, [] => none
  | seen, e :: rest =>
    if e.pred ∉ preds then some (.strayEdge e.pred)
    else if e.pred ∈ seen then some (.repeatedEdge e.pred)
    else match fn.valueFault? e.value with
      | some fault => some fault
      | none => fn.edgeFault? preds (e.pred :: seen) rest

/-- What is wrong with the edges of a merge in block `b`. Each of them is tested against the block's
`row` in the table of predecessors, and the predecessors themselves must all have an edge. -/
def mergeFault? (fn : Func) (b : Int) (row : List Int) (edges : List Edge) : Option Violation :=
  match fn.edgeFault? row [] edges with
  | some fault => some fault
  | none => ((fn.pred b).find? (· ∉ edges.map (·.pred))).map .missingEdge

def instrFault? (fn : Func) (b : Int) (row : List Int) (before : Option Kind) (last : Bool)
    (x : Instr) : Option Violation :=
  match x.node with
  | .plain _ args => if last then some (.plainEnd x.id) else args.findSome? fn.valueFault?
  | .merge edges =>
    if last then some (.mergeEnd x.id)
    else if before = none ∨ before = some .merge then fn.mergeFault? b row edges
    else some (.lateMerge x.id)
  | .term .. =>
    if last then x.node.operands.findSome? fn.valueFault? else some (.earlyTerminator x.id)

def codeFault? (fn : Func) (b : Int) (row : List Int) :
    Nat → Option Kind → List Instr → Option (Nat × Violation)
  | _, _, [] => none
  | index, before, x :: rest =>
    match fn.instrFault? b row before rest.isEmpty x with
    | some fault => some (index, fault)
    | none => fn.codeFault? b row (index + 1) (some x.kind) rest

/-- A target outside the function is laid to the block's last instruction. -/
def targetFault? (fn : Func) (b : Int) : Option Malformed :=
  match fn.block? b with
  | none => none
  | some block =>
    (block.succ.find? fun s => !fn.hasBlock s).map fun s =>
      ⟨fn.name, .instr b (block.code.length - 1), .strayTarget s⟩

def blockFault? (fn : Func) (table : List (Int × List Int)) (b : Int) : Option Malformed :=
  match fn.block? b with
  | none => none
  | some block =>
    if block.terminator? = none then some ⟨fn.name, .block b, .noTerminator⟩
    else (fn.codeFault? b (rowOf table b) 0 none block.code).map fun (index, fault) =>
      ⟨fn.name, .instr b index, fault⟩

/-- The first rule that the function breaks: targets are checked in all blocks before the rest. -/
def malformed? (fn : Func) : Option Malformed :=
  if fn.blocks = [] then some ⟨fn.name, .whole, .noBlocks⟩
  else match fn.blockIds.findSome? fn.targetFault? with
    | some m => some m
    | none => fn.blockIds.findSome? (fn.blockFault? fn.predTable)

def verify (fn : Func) : Except Malformed Unit :=
  match fn.malformed? with
  | some m => .error m
  | none => .ok ()

end Func

end DeadCode
