import DeadCode.Func.Basic

/-! # Removing instructions

A removal takes a whole list at once. It is refused, with nothing changed, if a listed instruction
is not there or is a terminator, or if an instruction that would stay behind still refers to one
that would go.
-/
namespace DeadCode.Func

def removalFault? (fn : Func) (i : Int) : Option Misuse :=
  match fn.slot i with
  | .error m => some m
  | .ok s => if s.kind = .terminator then some (.removedTerminator i s.block fn.name) else none

/-- The first listed instruction that `x`, itself not listed, refers to. -/
def clashAt? (fn : Func) (ins : List Int) (x : Instr) : Option Misuse :=
  if x.id ∈ ins then none
  else x.node.uses.findSome? fun
    | .instr owner i =>
      if owner = fn.id ∧ i ∈ ins then some (.stillUsed i x.id fn.name) else none
    | _ => none

def without (fn : Func) (ins : List Int) : Func :=
  { fn with
    blocks := fn.blocks.map fun b => { b with code := b.code.filter (·.id ∉ ins) }
    slots := fn.slots.mapIdx fun n s => if (n : Int) ∈ ins then { s with alive := false } else s
    size := fn.size - ins.eraseDups.length
    epoch := fn.epoch + 1 }

def removeAll (fn : Func) (ins : List Int) : Except Misuse Func :=
  match ins.findSome? fn.removalFault? with
  | some m => .error m
  | none =>
    if ins = [] then .ok fn
    else match fn.code.findSome? (fn.clashAt? ins) with
      | some m => .error m
      | none => .ok (fn.without ins)

def remove (fn : Func) (i : Int) : Except Misuse Func := fn.removeAll [i]

end DeadCode.Func
