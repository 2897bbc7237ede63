import DeadCode.Misuse

/-! # Instruction payloads

A plain instruction computes one value from its operands. A merge takes the value that belongs to
the block control came from. A terminator ends its block: it may test a condition, and it names the
blocks control may go to next.
-/
namespace DeadCode

inductive Kind where
  | plain
  | merge
  | terminator
deriving DecidableEq, Repr

namespace Kind

def text : Kind → String
  | plain => "plain"
  | merge => "merge"
  | terminator => "terminator"

def ofCode : Int → Except Misuse Kind
  | 0 => .ok plain
  | 1 => .ok merge
  | 2 => .ok terminator
  | _ => .error .unknownKind

end Kind

/-- The value a merge takes when control arrives from the block `pred`. -/
structure Edge where
  pred : Int
  value : Value
deriving DecidableEq, Repr

inductive Node where
  | plain (op : String) (args : List Value)
  | merge (edges : List Edge)
  | term (op : String) (cond : Value) (args : List Value) (succ : List Int)
deriving DecidableEq, Repr

namespace Node

def kind : Node → Kind
  | plain .. => .plain
  | merge .. => .merge
  | term .. => .terminator

/-- The values read at the instruction's own place, the condition of a terminator first. A merge
reads nothing there: its values are read at the ends of the blocks control comes from. -/
def operands : Node → List Value
  | plain _ args => args
  | merge _ => []
  | term _ cond args _ => if cond = .absent then args else cond :: args

def uses : Node → List Value
  | merge edges => edges.map (·.value)
  | node => node.operands

def targets : Node → List Int
  | term _ _ _ succ => succ
  | _ => []

def edges : Node → List Edge
  | merge edges => edges
  | _ => []

def usesFrom (b : Int) (node : Node) : List Value :=
  (node.edges.filter fun e => e.pred = b ∧ e.value.tracked).map (·.value)

def insertEdge (e : Edge) : List Edge → List Edge
  | [] => [e]
  | d :: rest => if e.pred < d.pred then e :: d :: rest else d :: insertEdge e rest

/-- Edges by ascending block; those of one block keep their order. -/
def sortEdges (es : List Edge) : List Edge := es.foldl (fun sorted e => insertEdge e sorted) []

def edgeText (e : Edge) : String := blockText e.pred ++ ": " ++ e.value.text

def text (id : Int) : Node → String
  | plain op [] => instrText id ++ " = " ++ op
  | plain op args => instrText id ++ " = " ++ op ++ " " ++ Value.listText args
  | merge es =>
    instrText id ++ " = φ(" ++ String.intercalate ", " ((sortEdges es).map edgeText) ++ ")"
  | term op cond args succ =>
    match (operands (term op cond args succ)).map Value.text ++ succ.map blockText with
    | [] => op
    | parts => op ++ " " ++ String.intercalate ", " parts

inductive Patch where
  | op (op : String)
  | args (args : List Value)
  | edges (edges : List Edge)
  | cond (cond : Value)
  | succ (succ : List Int)
deriving DecidableEq, Repr

/-- Replaces one part; a payload without that part is left alone. -/
def patch : Patch → Node → Node
  | .op op, plain _ args => plain op args
  | .op op, term _ cond args succ => term op cond args succ
  | .args args, plain op _ => plain op args
  | .args args, term op cond _ succ => term op cond args succ
  | .edges edges, merge _ => merge edges
  | .cond cond, term op _ args succ => term op cond args succ
  | .succ succ, term op cond args _ => term op cond args succ
  | _, node => node

@[simp] theorem kind_patch (p : Patch) (node : Node) : (node.patch p).kind = node.kind := by
  cases p <;> cases node <;> rfl

end Node

end DeadCode
