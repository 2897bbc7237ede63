/-! # Walks of a directed graph

A graph is given by its successor function. The depth-first walk keeps the path to the node it is
at and the nodes it has left for good; a node is left once all its successors have been met, so the
nodes come out in post-order. The breadth-first walk meets the nodes level by level. Both take a
bound on the number of nodes that can be reached, and need no more steps than it allows.
-/
namespace DeadCode.Graph

variable {α : Type} [DecidableEq α] (next : α → List α)

/-- There is a path, perhaps of no edges, from the first node to the second. -/
inductive Reaches : α → α → Prop
  | refl (a : α) : Reaches a a
  | step {a b c : α} : b ∈ next a → Reaches b c → Reaches a c

/-- A depth-first walk: the path to the present node, and the nodes left for good. -/
structure Walk (α : Type) where
  path : List α
  left : List α

/-- Goes to the first successor not met before, or leaves the present node. -/
def Walk.step (w : Walk α) : Walk α :=
  match w.path with
  | [] => w
  | a :: rest =>
    match (next a).find? fun b => b ∉ w.path ∧ b ∉ w.left with
    | some b => ⟨b :: a :: rest, w.left⟩
    | none => ⟨rest, w.left ++ [a]⟩

def Walk.run : Nat → Walk α → Walk α
  | 0, w => w
  | n + 1, w => Walk.run n (w.step next)

/-- The nodes reached from `root` in post-order. Each of them is entered once and left once. -/
def postOrder (bound : Nat) (root : α) : List α :=
  (Walk.run next (2 * bound) ⟨[root], []⟩).left

structure Tide (α : Type) where
  queue : List α
  met : List α

def Tide.meet (t : Tide α) (b : α) : Tide α :=
  if b ∈ t.met then t else ⟨t.queue ++ [b], t.met ++ [b]⟩

def Tide.run : Nat → Tide α → Tide α
  | 0, t => t
  | n + 1, t =>
    match t.queue with
    | [] => t
    | a :: rest => Tide.run n ((next a).foldl Tide.meet ⟨rest, t.met⟩)

def levelOrder (bound : Nat) (root : α) : List α :=
  (Tide.run next bound ⟨[root], [root]⟩).met

end DeadCode.Graph
