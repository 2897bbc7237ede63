import DeadCode.Value

/-! # Misuse

An operation that is called with arguments it does not allow is refused, and the function it was
called on stays as it was. A refusal is kept as its cause; the wording stands in one place.
-/
namespace DeadCode

inductive Misuse where
  | argCount (n : Int)
  | argIndex (i : Int)
  | noBlocks (func : String)
  | invalidBlock (block : Int) (func : String)
  | invalidInstr (instr : Int) (func : String)
  | removedInstr (instr : Int) (func : String)
  | terminated (block : Int) (func : String)
  | lateMerge (block : Int) (func : String)
  | notInstr (value : Value) (func : String)
  | notMerge (value : Value)
  | removedTerminator (instr block : Int) (func : String)
  | stillUsed (instr user : Int) (func : String)
  | unknownKind
  | workerCount (n : Int)
  | missingLogger
  | invalidSetting (key : String)
  | smallSetting (key : String)
deriving DecidableEq, Repr

namespace Misuse

def message : Misuse → String
  | argCount n => "ir: invalid argument count: " ++ toString n
  | argIndex i => "ir: argument index out of range: " ++ toString i
  | noBlocks func => "ir: function has no basic blocks: " ++ func
  | invalidBlock b func => "ir: invalid basic block " ++ blockText b ++ " in " ++ func
  | invalidInstr i func => "ir: invalid instruction " ++ instrText i ++ " in " ++ func
  | removedInstr i func => "ir: use of removed instruction " ++ instrText i ++ " in " ++ func
  | terminated b func => "ir: " ++ blockText b ++ " of " ++ func ++ " is already terminated"
  | lateMerge b func =>
    "ir: merge instruction after non-merge instructions in " ++ blockText b ++ " of " ++ func
  | notInstr v func => "ir: " ++ v.text ++ " is not an instruction of " ++ func
  | notMerge v => "ir: " ++ v.text ++ " is not a merge instruction"
  | removedTerminator i b func =>
    "ir: cannot remove terminator " ++ instrText i ++ " of " ++ blockText b ++ " in " ++ func
  | stillUsed i user func =>
    "ir: cannot remove " ++ instrText i ++ " in " ++ func ++ ", still used by " ++ instrText user
  | unknownKind => "unreachable"
  | workerCount n => "dce: invalid worker count: " ++ toString n
  | missingLogger => "dce: nil logger"
  | invalidSetting key => "dce: invalid value for " ++ key
  | smallSetting key => "dce: value too small for " ++ key

end Misuse

end DeadCode
