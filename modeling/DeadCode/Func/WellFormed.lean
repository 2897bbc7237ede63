import DeadCode.Func.Flow

/-! # Well-formed functions

Two properties that are stated without any algorithm. A function is consistent if its directory and
its blocks agree; every function that was built is. A function is well-formed if it keeps the rules
that an analysis relies on; the verifier decides whether it does.
-/
namespace DeadCode

def BasicBlock.Shaped (block : BasicBlock) : Prop :=
  ∃ merges plains ends : List Instr, block.code = merges ++ plains ++ ends ∧
    (∀ x ∈ merges, x.kind = .merge) ∧ (∀ x ∈ plains, x.kind = .plain) ∧
    (∀ x ∈ ends, x.kind = .terminator) ∧ ends.length ≤ 1

namespace Func

/-- The directory and the blocks agree. -/
structure Consistent (fn : Func) : Prop where
  attached : ∀ b block, fn.block? b = some block → ∀ x ∈ block.code,
    nth? fn.slots x.id = some ⟨b, x.kind, true⟩
  placed : ∀ i s, nth? fn.slots i = some s → s.alive = true →
    ∃ block, fn.block? s.block = some block ∧ ∃ x ∈ block.code, x.id = i
  increasing : ∀ block ∈ fn.blocks, (block.code.map (·.id)).Pairwise (· < ·)
  size_eq : fn.size = fn.code.length

def Readable (fn : Func) : Value → Prop
  | .absent => False
  | .const .. => True
  | .arg owner i => owner = fn.id ∧ 0 ≤ i ∧ i < fn.argCount
  | .instr owner i =>
    owner = fn.id ∧ ∃ s, nth? fn.slots i = some s ∧ s.alive = true ∧ s.kind ≠ .terminator

/-- The rules that an analysis relies on. -/
structure WellFormed (fn : Func) : Prop where
  nonempty : fn.blocks ≠ []
  targets : ∀ block ∈ fn.blocks, ∀ s ∈ block.succ, fn.hasBlock s
  ended : ∀ block ∈ fn.blocks, ∃ before last, block.code = before ++ [last] ∧
    last.kind = .terminator ∧ ∀ x ∈ before, x.kind ≠ .terminator
  mergesLead : ∀ block ∈ fn.blocks, ∀ before x y after,
    block.code = before ++ x :: y :: after → y.kind = .merge → x.kind = .merge
  edges : ∀ b block, fn.block? b = some block → ∀ x ∈ block.code, x.kind = .merge →
    (x.node.edges.map (·.pred)).Nodup ∧
      ∀ p, p ∈ x.node.edges.map (·.pred) ↔ fn.hasBlock p ∧ b ∈ fn.succ p
  operands : ∀ x ∈ fn.code, ∀ v ∈ x.node.uses, fn.Readable v

def UsedBy (fn : Func) (i user : Int) : Prop :=
  ∃ x ∈ fn.code, x.id = user ∧ Value.instr fn.id i ∈ x.node.uses

end Func

end DeadCode
