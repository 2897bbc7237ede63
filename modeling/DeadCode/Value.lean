import DeadCode.Handle

/-! # Values

A value is what an operand refers to: the result of an instruction, an argument of the function,
a constant, or nothing. Every value but the absent one belongs to the function that made it, and
two values are the same only if they agree in owner, kind and number.
-/
namespace DeadCode

inductive ValueKind where
  | absent
  | instr
  | arg
  | const
deriving DecidableEq, Repr

namespace ValueKind

/-- Kinds are numbered in the order in which values are printed. -/
def code : ValueKind → Nat
  | absent => 0
  | instr => 1
  | arg => 2
  | const => 3

/-- Numbers that stand for no kind read as the absent kind. -/
def ofCode : Int → ValueKind
  | 1 => instr
  | 2 => arg
  | 3 => const
  | _ => absent

def text : ValueKind → String
  | absent => "none"
  | instr => "instr"
  | arg => "arg"
  | const => "const"

theorem ofCode_code (k : ValueKind) : ofCode k.code = k := by cases k <;> rfl

theorem code_injective {j k : ValueKind} (h : j.code = k.code) : j = k := by
  rw [← ofCode_code j, ← ofCode_code k, h]

end ValueKind

inductive Value where
  | absent
  | instr (owner : Nat) (index : Int)
  | arg (owner : Nat) (index : Int)
  | const (owner : Nat) (literal : Int)
deriving DecidableEq, Repr

namespace Value

def kind : Value → ValueKind
  | absent => .absent
  | instr .. => .instr
  | arg .. => .arg
  | const .. => .const

def index : Value → Int
  | absent => 0
  | instr _ i => i
  | arg _ i => i
  | const _ n => n

def owner : Value → Nat
  | absent => 0
  | instr f _ => f
  | arg f _ => f
  | const f _ => f

/-- Liveness follows instruction results and arguments; constants are always there. -/
def tracked : Value → Bool
  | instr .. => true
  | arg .. => true
  | _ => false

def instr? : Value → Option Int
  | instr _ i => some i
  | _ => none

def arg? : Value → Option Int
  | arg _ i => some i
  | _ => none

def literal? : Value → Option Int
  | const _ n => some n
  | _ => none

def text : Value → String
  | absent => "<none>"
  | instr _ i => instrText i
  | arg _ i => "%arg" ++ toString i
  | const _ n => toString n

def listText (vs : List Value) : String := String.intercalate ", " (vs.map text)

def Less (v w : Value) : Prop :=
  v.kind.code < w.kind.code ∨ v.kind.code = w.kind.code ∧ v.index < w.index

instance (v w : Value) : Decidable (Less v w) := inferInstanceAs (Decidable (_ ∨ _))

/-- The printing order, made total on values of several functions by their owners. -/
def Precedes (v w : Value) : Prop :=
  v.Less w ∨ v.kind.code = w.kind.code ∧ v.index = w.index ∧ v.owner < w.owner

instance (v w : Value) : Decidable (Precedes v w) := inferInstanceAs (Decidable (_ ∨ _))

theorem eq_of_parts {v w : Value} (hk : v.kind.code = w.kind.code) (hi : v.index = w.index)
    (ho : v.owner = w.owner) : v = w := by
  have hk := ValueKind.code_injective hk
  cases v <;> cases w <;> simp_all [kind, index, owner]

theorem Precedes.irrefl (v : Value) : ¬ v.Precedes v := by
  unfold Precedes Less
  omega

theorem Precedes.trans {u v w : Value} (huv : u.Precedes v) (hvw : v.Precedes w) :
    u.Precedes w := by
  unfold Precedes Less at *
  omega

theorem precedes_or_eq_or_precedes (v w : Value) : v.Precedes w ∨ v = w ∨ w.Precedes v := by
  by_cases h : v.kind.code = w.kind.code ∧ v.index = w.index ∧ v.owner = w.owner
  · exact .inr (.inl (eq_of_parts h.1 h.2.1 h.2.2))
  · unfold Precedes Less
    omega

end Value

end DeadCode
