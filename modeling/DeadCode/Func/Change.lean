import DeadCode.Func.Build
import DeadCode.Func.Remove

/-! # Histories

A function comes about by a sequence of changes, starting from the function without blocks. A
refused change leaves the function as it was. The short forms for jumps, branches and returns are
terminators like any other.
-/
namespace DeadCode

inductive Change where
  | addBlock (name : String)
  | addPlain (b : Int) (op : String) (args : List Value)
  | addMerge (b : Int) (edges : List Edge)
  | addEdge (merge : Value) (e : Edge)
  | addTerminator (b : Int) (op : String) (cond : Value) (args : List Value) (succ : List Int)
  | removeAll (ins : List Int)
  | edit (i : Int) (p : Node.Patch)
deriving DecidableEq, Repr

namespace Func

/-- The function after a change, unless the change is refused. -/
def change? (fn : Func) : Change → Except Misuse Func
  | .addBlock name => .ok (fn.addBlock name).1
  | .addPlain b op args => (fn.addPlain b op args).map (·.1)
  | .addMerge b edges => (fn.addMerge b edges).map (·.1)
  | .addEdge merge e => fn.addEdge merge e
  | .addTerminator b op cond args succ => (fn.addTerminator b op cond args succ).map (·.1)
  | .removeAll ins => fn.removeAll ins
  | .edit i p => fn.edit i p

def change (fn : Func) (c : Change) : Func :=
  match fn.change? c with
  | .ok changed => changed
  | .error _ => fn

def changeAll (fn : Func) (cs : List Change) : Func := cs.foldl change fn

end Func

end DeadCode
