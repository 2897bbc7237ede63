import DeadCode.Func.Flow

/-! # Strict functions

In a strict function control can get to every block, and whatever way it takes, a value is computed
before it is read. A way from the entry runs whole blocks one after another; what a merge takes from
a block is read at the end of that block.
-/
namespace DeadCode.Func

/-- Control can come to block `b` from the entry by running the blocks of `way`, one by one. -/
inductive Leads (fn : Func) : List Int → Int → Prop
  | entry : Leads fn [] 0
  | step {way : List Int} {b s : Int} : Leads fn way b → s ∈ fn.succ b → Leads fn (way ++ [b]) s

def codeOf (fn : Func) (b : Int) : List Instr :=
  match fn.block? b with
  | some block => block.code
  | none => []

def executed (fn : Func) (way : List Int) : List Instr := way.flatMap fn.codeOf

/-- Every definition strictly dominates its uses, and no block is out of reach. -/
structure Strict (fn : Func) : Prop where
  reached : ∀ b, fn.hasBlock b → ∃ way, fn.Leads way b
  operands : ∀ b k x i, (fn.codeOf b)[k]? = some x → Value.instr fn.id i ∈ x.node.operands →
    ∀ way, fn.Leads way b → ∃ d ∈ fn.executed way ++ (fn.codeOf b).take k, d.id = i
  edges : ∀ x ∈ fn.code, ∀ p i, ⟨p, Value.instr fn.id i⟩ ∈ x.node.edges →
    ∀ way, fn.Leads way p → ∃ d ∈ fn.executed (way ++ [p]), d.id = i

end DeadCode.Func
