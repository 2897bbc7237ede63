import DeadCode.Func.Basic

/-! # The printed form of a function -/
namespace DeadCode.Func

def headerText (fn : Func) : String :=
  let args := (List.range fn.argCount).map fun (i : Nat) => (Value.arg fn.id i).text
  "func " ++ fn.name ++ "(" ++ String.intercalate ", " args ++ ") \x7b"

def blockLines (b : Int) (block : BasicBlock) : List String :=
  let label := if block.name = "" then blockText b ++ ":" else blockText b ++ ": # " ++ block.name
  label :: block.code.map ("    " ++ ·.text)

/-- One line for the head, for every block label and for every instruction. -/
def render (fn : Func) : String :=
  let blocks := (fn.blockIds.zip fn.blocks).flatMap fun (b, block) => blockLines b block
  String.intercalate "\n" (fn.headerText :: blocks ++ ["\x7d"])

end DeadCode.Func
