import DeadCode.Elimination.Basic
import DeadCode.Func.Change

/-! # Sessions

Whoever works on a function may keep several live maps of it, made at different times. A session is
the function as it is now beside all these maps. Changes, releases and eliminations reach the
function through the session; the maps are not told, and have to notice by themselves.
-/
namespace DeadCode

structure Session where
  func : Func
  maps : List Liveness

/-- What can be done in a session. Live maps are numbered in the order in which they were made. -/
inductive Action where
  | change (c : Change)
  | analyze
  | release (map : Nat) (ins : List Int)
  | eliminate (o : Options)

def Action.inPlace : Action → Bool
  | .change (.edit _ _) => true
  | _ => false

namespace Session

/-- The session after an action. An action that fails may still use a map up, and an elimination
that is stopped leaves the rounds that it completed. -/
def act (s : Session) : Action → Session
  | .change c => { s with func := s.func.change c }
  | .analyze =>
    match s.func.analyze with
    | .ok lv => { s with maps := s.maps ++ [lv] }
    | .error _ => s
  | .release k ins =>
    match s.maps[k]? with
    | some lv =>
      let released := lv.release s.func ins
      ⟨released.func, s.maps.set k released.map⟩
    | none => s
  | .eliminate o => { s with func := (s.func.eliminate o).func }

def actAll (s : Session) (actions : List Action) : Session := actions.foldl act s

def fails (s : Session) : Action → Bool
  | .change c =>
    match s.func.change? c with
    | .ok _ => false
    | .error _ => true
  | .analyze => s.func.malformed?.isSome
  | .release k ins =>
    match s.maps[k]? with
    | some lv => (lv.release s.func ins).fault?.isSome
    | none => true
  | .eliminate o => (s.func.eliminate o).ending ≠ .converged

/-- The removal rounds that an action completes: all but the last round of an elimination. -/
def completed (s : Session) : Action → Nat
  | .eliminate o => (s.func.eliminate o).result.rounds - 1
  | _ => 0

/-- How often an action changes the function. A removal of nothing is no change. -/
def mutations (s : Session) : Action → Nat
  | .change c => if s.fails (.change c) ∨ c = .removeAll [] then 0 else 1
  | .analyze => 0
  | .release k ins => if s.fails (.release k ins) ∨ ins = [] then 0 else 1
  | .eliminate o => s.completed (.eliminate o)

def mutationsAll (s : Session) : List Action → Nat
  | [] => 0
  | a :: rest => s.mutations a + (s.act a).mutationsAll rest

end Session

inductive Query where
  | func
  | of (i : Int)
  | each
  | liveAfterSome (v : Value)
  | liveSomewhere (v : Value)
  | trace (sink : Sink)
  | render
  | dead (localOnly : Bool)

/-- A question that should succeed: it is about an instruction of the function, or goes to a sink
that takes everything. -/
def Query.Apt (fn : Func) : Query → Prop
  | .of i => fn.alive i = true
  | .trace sink => sink.room = none
  | _ => True

def Liveness.ask (lv : Liveness) (fn : Func) : Query → Except Breach Bool
  | .func => (lv.funcId fn).map fun _ => true
  | .of i => (lv.of fn i).map fun _ => true
  | .each => (lv.each fn).map fun _ => true
  | .liveAfterSome v => (lv.liveAfterSome fn v).map fun _ => true
  | .liveSomewhere v => (lv.liveSomewhere fn v).map fun _ => true
  | .trace sink => (lv.trace fn sink).map (·.2)
  | .render => (lv.render fn).map fun _ => true
  | .dead localOnly => (lv.dead fn localOnly).map fun _ => true

end DeadCode
