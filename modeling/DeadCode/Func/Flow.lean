import DeadCode.Func.Basic
import DeadCode.Graph

/-! # Control flow

The edges between blocks are read off the terminators and never stored. A target that names no
block leads nowhere; such targets are left out wherever the graph is walked.
-/
namespace DeadCode.Func

def hasBlock (fn : Func) (b : Int) : Bool := decide (0 ≤ b ∧ b < fn.blocks.length)

theorem hasBlock_iff {fn : Func} {b : Int} : fn.hasBlock b ↔ (fn.block? b).isSome := by
  simp [hasBlock, block?, nth?_isSome_iff]

theorem mem_blockIds {fn : Func} {b : Int} : b ∈ fn.blockIds ↔ fn.hasBlock b := by
  simp only [blockIds, List.mem_map, List.mem_range, hasBlock, decide_eq_true_eq]
  constructor
  · rintro ⟨n, hn, rfl⟩
    exact ⟨Int.natCast_nonneg n, Int.ofNat_lt.2 hn⟩
  · rintro ⟨h0, hn⟩
    exact ⟨b.toNat, by omega, Int.toNat_of_nonneg h0⟩

theorem pairwise_blockIds (fn : Func) : fn.blockIds.Pairwise (· < ·) :=
  List.pairwise_lt_range.map Int.ofNat fun _ _ => Int.ofNat_lt.mpr

theorem nodup_blockIds (fn : Func) : fn.blockIds.Nodup := fn.pairwise_blockIds.imp Int.ne_of_lt

/-- The targets of a block's terminator, as written there. -/
def succ (fn : Func) (b : Int) : List Int :=
  match fn.block? b with
  | some block => block.succ
  | none => []

/-- The targets of a block's terminator that are blocks of the function. -/
def next (fn : Func) (b : Int) : List Int := (fn.succ b).filter fn.hasBlock

def pred (fn : Func) (b : Int) : List Int := fn.blockIds.filter fun p => b ∈ fn.succ p

@[simp] theorem mem_pred {fn : Func} {p b : Int} :
    p ∈ fn.pred b ↔ fn.hasBlock p ∧ b ∈ fn.succ p := by
  simp [pred, mem_blockIds]

/-- Notes the edge from `p` to `s` in a table kept in ascending order of its keys. -/
def notePred (p s : Int) : List (Int × List Int) → List (Int × List Int)
  | [] => [(s, [p])]
  | (t, ps) :: rest =>
    if s = t then (t, if p ∈ ps then ps else ps ++ [p]) :: rest
    else if s < t then (s, [p]) :: (t, ps) :: rest
    else (t, ps) :: notePred p s rest

/-- All predecessors at once: a key for every target, whether it names a block or not. -/
def predTable (fn : Func) : List (Int × List Int) :=
  fn.blockIds.foldl (fun table p => (fn.succ p).foldl (fun table s => notePred p s table) table) []

def rowOf (table : List (Int × List Int)) (s : Int) : List Int := (table.lookup s).getD []

def postOrder (fn : Func) : List Int :=
  if fn.blocks = [] then [] else Graph.postOrder fn.next fn.blocks.length 0

def reachable (fn : Func) : List Int :=
  if fn.blocks = [] then []
  else
    let met := Graph.levelOrder fn.next fn.blocks.length 0
    fn.blockIds.filter (· ∈ met)

end DeadCode.Func
