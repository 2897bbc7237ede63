import DeadCode.ValueSet

/-! # Sets built step by step

Sets are made empty or as copies of others, and change while values are added and deleted and other
sets are poured in. Beside the sets that keep their members in order there are piles, which keep
them in none: whoever goes through a pile meets each member once, but in an order that nothing
fixes. Two piles are compared by their sizes and by one looking for its members in the other, and a
pile is sorted when it is to be printed. Piles serve to say what the order of a set is worth.
-/
namespace DeadCode

inductive SetAction where
  | create
  | add (s : Nat) (v : Value)
  | union (s other : Nat)
  | clone (s : Nat)
  | delete (s : Nat) (v : Value)
deriving DecidableEq, Repr

namespace ValueSet

/-- The sets after a step; one that was never made counts as empty. -/
def act (sets : List ValueSet) : SetAction → List ValueSet
  | .create => sets ++ [∅]
  | .add s v => sets.modify s fun set => (set.add v).1
  | .union s other => sets.modify s (· ∪ sets[other]?.getD ∅)
  | .clone s => sets ++ [sets[s]?.getD ∅]
  | .delete s v => sets.modify s (·.erase v)

def actAll (history : List SetAction) : List ValueSet := history.foldl act []

end ValueSet

abbrev Pile := List Value

namespace Pile

def add (p : Pile) (v : Value) : Pile := if v ∈ p then p else p ++ [v]

def addAll (p : Pile) (vs : List Value) : Pile := vs.foldl add p

def delete (p : Pile) (v : Value) : Pile := p.filter (· ≠ v)

/-- Compares the sizes, and looks for the members of the first in the second. -/
def equal (p q : Pile) : Bool := p.length = q.length ∧ ∀ v ∈ p, v ∈ q

def SortsTo (p : Pile) (vs : List Value) : Prop :=
  vs.Perm p ∧ vs.Pairwise fun v w => ¬ w.Less v

/-- The piles before and after a step. A pile that is poured into another comes in any order. -/
inductive Acts : List Pile → SetAction → List Pile → Prop
  | create (piles : List Pile) : Acts piles .create (piles ++ [[]])
  | add (piles : List Pile) (s : Nat) (v : Value) :
      Acts piles (.add s v) (piles.modify s (Pile.add · v))
  | union (piles : List Pile) (s other : Nat) (vs : List Value) :
      vs.Perm (piles[other]?.getD []) → Acts piles (.union s other) (piles.modify s (addAll · vs))
  | clone (piles : List Pile) (s : Nat) (vs : List Value) :
      vs.Perm (piles[s]?.getD []) → Acts piles (.clone s) (piles ++ [addAll [] vs])
  | delete (piles : List Pile) (s : Nat) (v : Value) :
      Acts piles (.delete s v) (piles.modify s (Pile.delete · v))

inductive Leaves : List SetAction → List Pile → Prop
  | nil : Leaves [] []
  | snoc {history : List SetAction} {action : SetAction} {piles after : List Pile} :
      Leaves history piles → Acts piles action after → Leaves (history ++ [action]) after

end Pile
end DeadCode
