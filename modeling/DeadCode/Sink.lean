/-! # Sinks

A sink takes text, one write at a time. It may be limited to a number of writes; a write beyond
the limit is refused and leaves nothing behind.
-/
namespace DeadCode

structure Sink where
  /-- Tells the sinks of one list of settings apart. -/
  label : Nat
  /-- The number of writes it still takes; none if there is no limit. -/
  room : Option Nat
  /-- The texts it has taken, in order. -/
  writes : List String
deriving DecidableEq, Repr

namespace Sink

/-- A new sink; a negative limit is no limit. -/
def create (label : Nat) (limit : Int) : Sink :=
  ⟨label, if limit < 0 then none else some limit.toNat, []⟩

def text (s : Sink) : String := String.join s.writes

def write (s : Sink) (text : String) : Option Sink :=
  match s.room with
  | none => some { s with writes := s.writes ++ [text] }
  | some 0 => none
  | some (n + 1) => some { s with room := some n, writes := s.writes ++ [text] }

/-- Writes the texts one by one until one is refused; tells whether all were taken. -/
def writeAll (s : Sink) : List String → Sink × Bool
  | [] => (s, true)
  | text :: rest =>
    match s.write text with
    | none => (s, false)
    | some s => s.writeAll rest

theorem writeAll_of_room_eq_none {s : Sink} (h : s.room = none) (texts : List String) :
    s.writeAll texts = ({ s with writes := s.writes ++ texts }, true) := by
  induction texts generalizing s with
  | nil => simp [writeAll]
  | cons text rest ih =>
    simp only [writeAll, write, h]
    rw [ih rfl, List.append_assoc, List.singleton_append]

end Sink

def refusedWrite : String := "write limit reached"

end DeadCode
