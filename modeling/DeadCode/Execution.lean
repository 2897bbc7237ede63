import DeadCode.Func.Flow

/-! # Execution

A run of a function over any type of data. On entering a block all its merges take, at once, the
data of their edges for the block control came from; plain instructions then compute in order; the
terminator makes an event of all it reads, and picks one of its targets or stops. The events are
all that can be seen of a run.
-/
namespace DeadCode

structure Meaning (D : Type) where
  compute : String → List D → D
  argument : Int → D
  constant : Int → D
  absent : D
  /-- The position of the chosen target, if the run goes on. -/
  choose : String → Option D → List D → List Int → Option Nat

abbrev Store (D : Type) := Int → D

structure Event (D : Type) where
  block : Int
  op : String
  cond : Option D
  args : List D

structure Entering (D : Type) where
  block : Int
  origin : Option Int
  store : Store D

variable {D : Type}

namespace Store

def set (σ : Store D) (i : Int) (d : D) : Store D := fun j => if j = i then d else σ j

end Store

namespace Meaning

def read (m : Meaning D) (σ : Store D) : Value → D
  | .absent => m.absent
  | .instr _ i => σ i
  | .arg _ i => m.argument i
  | .const _ n => m.constant n

/-- The datum a merge takes from block `p`; without an edge for it, the merge keeps its own. -/
def mergeDatum (m : Meaning D) (σ : Store D) (p : Int) (x : Instr) : D :=
  match x.node.edges.find? (·.pred = p) with
  | some e => m.read σ e.value
  | none => σ x.id

/-- The merges of a block taken all at once. -/
def enter (m : Meaning D) (block : BasicBlock) (σ : Store D) : Option Int → Store D
  | none => σ
  | some p => fun i =>
    match block.merges.find? (·.id = i) with
    | some x => m.mergeDatum σ p x
    | none => σ i

def body (m : Meaning D) (b : Int) : List Instr → Store D → Option (Event D × Option (Entering D))
  | [], _ => none
  | x :: rest, σ =>
    match x.node with
    | .plain op args => m.body b rest (σ.set x.id (m.compute op (args.map (m.read σ))))
    | .merge _ => m.body b rest σ
    | .term op cond args succ =>
      let datum := if cond = .absent then none else some (m.read σ cond)
      let data := args.map (m.read σ)
      let target := (m.choose op datum data succ).bind (succ[·]?)
      some (⟨b, op, datum, data⟩, target.map fun s => ⟨s, some b, σ⟩)

def step (m : Meaning D) (fn : Func) (e : Entering D) : Option (Event D × Option (Entering D)) :=
  match fn.block? e.block with
  | some block => m.body e.block block.body (m.enter block e.store e.origin)
  | none => none

/-- The first `k` events from a state on, fewer if the run stops before. -/
def events (m : Meaning D) (fn : Func) : Nat → Entering D → List (Event D)
  | 0, _ => []
  | k + 1, e =>
    match m.step fn e with
    | none => []
    | some (event, none) => [event]
    | some (event, some next) => event :: m.events fn k next

def run (m : Meaning D) (fn : Func) (k : Nat) (σ : Store D) : List (Event D) :=
  m.events fn k ⟨0, none, σ⟩

end Meaning

end DeadCode
