import DeadCode.Func.Flow

/-! # The order of a sweep

Liveness flows backwards, so a block is best visited after the blocks it leads to. Blocks that can
reach one another form a component; the components are taken by the number of blocks they reach,
fewest first, which puts every component behind those it leads into. Inside a component the order
is that of the ranking: post-order for the blocks control can get to, then the others.
-/
namespace DeadCode

namespace VisitOrder

def component (reach : Int → List Int) (ranking : List Int) (b : Int) : List Int :=
  ranking.filter fun c => c ∈ reach b ∧ b ∈ reach c

/-- All components, each given by the member that is ranked first. -/
def components (reach : Int → List Int) (ranking : List Int) : List (List Int) :=
  let leaders := ranking.filter fun b => (component reach ranking b).head? = some b
  (List.range (ranking.length + 1)).flatMap fun size =>
    (leaders.filter fun b => (reach b).length = size).map (component reach ranking)

end VisitOrder

namespace Func

/-- Post-order for the blocks control can get to, then the others by number. -/
def ranking (fn : Func) : List Int :=
  let reached := fn.postOrder
  reached ++ fn.blockIds.filter (· ∉ reached)

def reachTable (fn : Func) : List (List Int) :=
  fn.blockIds.map (Graph.postOrder fn.next fn.blocks.length)

def components (fn : Func) : List (List Int) :=
  let table := fn.reachTable
  VisitOrder.components (fun b => (nth? table b).getD []) fn.ranking

def visitOrder (fn : Func) : List Int := fn.components.flatten

end Func

end DeadCode
