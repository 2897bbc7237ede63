import DeadCode.Func.Basic

/-! # Building functions

Instructions are appended at the end of a block: merges first, then plain instructions, then one
terminator. Every change that succeeds moves the epoch; a refused one changes nothing. Payloads may
also be edited in place, which does not move the epoch.
-/
namespace DeadCode.Func

def addBlock (fn : Func) (name : String) : Func × Int :=
  ({ fn with blocks := fn.blocks ++ [⟨name, []⟩], epoch := fn.epoch + 1 }, fn.blocks.length)

/-- Attaches a new instruction at the end of a block, whatever the block holds. -/
def attach (fn : Func) (b : Int) (node : Node) : Func × Int :=
  let id : Int := fn.slots.length
  ({ fn with
      blocks := modifyNth fn.blocks (fun block => { block with code := block.code ++ [⟨id, node⟩] }) b
      slots := fn.slots ++ [⟨b, node.kind, true⟩]
      size := fn.size + 1
      epoch := fn.epoch + 1 }, id)

/-- Nothing goes after a terminator, and a merge only after merges. -/
def appendFault? (fn : Func) (b : Int) (block : BasicBlock) (node : Node) : Option Misuse :=
  match block.code.getLast? with
  | none => none
  | some last =>
    if last.kind = .terminator then some (.terminated b fn.name)
    else if node.kind = .merge ∧ last.kind ≠ .merge then some (.lateMerge b fn.name)
    else none

def append (fn : Func) (b : Int) (node : Node) : Except Misuse (Func × Int) :=
  match fn.block b with
  | .error m => .error m
  | .ok block =>
    match fn.appendFault? b block node with
    | some m => .error m
    | none => .ok (fn.attach b node)

def appendUnchecked (fn : Func) (b : Int) (node : Node) : Except Misuse (Func × Int) :=
  match fn.block b with
  | .error m => .error m
  | .ok _ => .ok (fn.attach b node)

def addPlain (fn : Func) (b : Int) (op : String) (args : List Value) : Except Misuse (Func × Int) :=
  fn.append b (.plain op args)

def addMerge (fn : Func) (b : Int) (edges : List Edge) : Except Misuse (Func × Int) :=
  fn.append b (.merge edges)

def addTerminator (fn : Func) (b : Int) (op : String) (cond : Value) (args : List Value)
    (succ : List Int) : Except Misuse (Func × Int) :=
  fn.append b (.term op cond args succ)

def jump (fn : Func) (b target : Int) : Except Misuse (Func × Int) :=
  fn.addTerminator b "br" .absent [] [target]

def branch (fn : Func) (b : Int) (cond : Value) (yes no : Int) : Except Misuse (Func × Int) :=
  fn.addTerminator b "br" cond [] [yes, no]

def ret (fn : Func) (b : Int) (args : List Value) : Except Misuse (Func × Int) :=
  fn.addTerminator b "ret" .absent args []

def modifyNode (fn : Func) (i : Int) (f : Node → Node) : Func :=
  { fn with blocks := fn.blocks.map fun block =>
      { block with code := block.code.map fun x => if x.id = i then { x with node := f x.node } else x } }

/-- Adds an edge to the merge that defines `merge`, behind those it has. -/
def addEdge (fn : Func) (merge : Value) (e : Edge) : Except Misuse Func :=
  match merge with
  | .instr owner i =>
    if owner ≠ fn.id then .error (.notInstr merge fn.name)
    else match fn.slot i with
      | .error m => .error m
      | .ok s =>
        if s.kind ≠ .merge then .error (.notMerge merge)
        else .ok { fn.modifyNode i fun node => node.patch (.edges (node.edges ++ [e])) with
          epoch := fn.epoch + 1 }
  | _ => .error (.notInstr merge fn.name)

def edit (fn : Func) (i : Int) (p : Node.Patch) : Except Misuse Func :=
  match fn.slot i with
  | .error m => .error m
  | .ok _ => .ok (fn.modifyNode i (·.patch p))

end DeadCode.Func
