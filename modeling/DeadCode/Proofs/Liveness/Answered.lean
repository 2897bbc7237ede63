import DeadCode.Liveness.Dead
import DeadCode.Proofs.Liveness.Exact

/-! # Every look-up of the analysis is answered

The analysis looks things up as it goes: the directory entry of an instruction, the sets of the
instruction behind it, the target of a terminator among the blocks to visit, the first instruction
there behind the merges. The search for dead instructions then looks up each instruction in the
directory and, if only its own place is asked about, in the map. Here a look-up that finds nothing
is a failure, and so is a sweep too many. On a well-formed function nothing fails, and the results
are the live map and the dead instructions.
-/
namespace DeadCode

def frontIn? (sets : List LiveSides) : Option ValueSet := sets.head?.map (·.before)

theorem frontIn?_eq {sets : List LiveSides} (h : sets ≠ []) : frontIn? sets = some (frontIn sets) := by
  cases sets with
  | nil => exact absurd rfl h
  | cons s rest => rfl

namespace Func
variable {fn : Func} {facts : Facts} {order : List Int}

/-- What is live in block `s` behind its merges, if it is to be visited and there is something. -/
def entryIn? (fn : Func) (order : List Int) (facts : Facts) (s : Int) : Option ValueSet :=
  if s ∈ order then do
    let block ← fn.block? s
    let sets ← nth? facts s
    frontIn? (sets.drop block.merges.length)
  else none

def exitOut? (fn : Func) (order : List Int) (facts : Facts) (b : Int) (targets : List Int) :
    Option ValueSet :=
  targets.foldlM (fun out s => do
    let entry ← fn.entryIn? order facts s
    return (out ∪ entry).insertAll (fn.edgeUses b s)) ∅

/-- The live sets of a stretch of code, if every instruction is in the directory and every one that
is not a terminator has another one behind it. -/
def pass? (fn : Func) (exit : List Int → Option ValueSet) : List Instr → Option (List LiveSides)
  | [] => some []
  | x :: rest => do
    let later ← fn.pass? exit rest
    let _ ← (fn.slot x.id).toOption
    let out ← if x.kind = .terminator then exit x.node.targets else frontIn? later
    return ⟨x.liveBefore fn.id out, out⟩ :: later

def visit? (fn : Func) (order : List Int) (facts : Facts) (b : Int) : Option Facts := do
  let block ← fn.block? b
  let _ ← nth? facts b
  let sets ← fn.pass? (fn.exitOut? order facts b) block.code
  return modifyNth facts (fun _ => sets) b

def sweep? (fn : Func) (order : List Int) (facts : Facts) : Option Facts :=
  order.foldlM (fn.visit? order) facts

/-- Sweeps until nothing changes, and fails if that takes more than `fuel` sweeps. -/
def settle? (fn : Func) (order : List Int) : Nat → Facts → Option (Facts × Nat)
  | 0, _ => none
  | fuel + 1, facts => do
    let swept ← fn.sweep? order facts
    if swept = facts then return (swept, 1)
    else
      let (settled, sweeps) ← fn.settle? order fuel swept
      return (settled, sweeps + 1)

def liveness? (fn : Func) : Option Liveness := do
  let (facts, sweeps) ← fn.settle? fn.visitOrder fn.sweepBound fn.noFacts
  return ⟨fn.id, fn.epoch, sweeps, fn.liveEntries facts, false⟩

theorem WellFormed.entryIn?_eq (hw : fn.WellFormed) (hf : fn.Fits facts) {s : Int}
    (hs : s ∈ order) (hb : fn.hasBlock s) :
    fn.entryIn? order facts s = some (fn.entryIn facts s) := by
  obtain ⟨block, hblock⟩ := Option.isSome_iff_exists.mp (hasBlock_iff.mp hb)
  obtain ⟨sets, hsets, hlen⟩ := hf.exists_sets hblock
  obtain ⟨y, hy⟩ := hw.exists_head (mem_blocks hblock)
  have hlt := (List.getElem?_eq_some_iff.mp hy).1
  have hne : sets.drop block.merges.length ≠ [] := by
    rw [Ne, List.drop_eq_nil_iff]
    omega
  simp [entryIn?, entryIn, hs, hblock, hsets, frontIn?_eq hne]

theorem WellFormed.exitOut?_eq (hw : fn.WellFormed) (hf : fn.Fits facts) (b : Int)
    {targets : List Int} (ht : ∀ s ∈ targets, s ∈ order ∧ fn.hasBlock s) :
    fn.exitOut? order facts b targets = some (fn.exitOut facts b targets) := by
  have fold : ∀ out : ValueSet,
      targets.foldlM (fun out s => do
          let entry ← fn.entryIn? order facts s
          return (out ∪ entry).insertAll (fn.edgeUses b s)) out =
        some (targets.foldl
          (fun out s => (out ∪ fn.entryIn facts s).insertAll (fn.edgeUses b s)) out) := by
    induction targets with
    | nil => simp
    | cons s rest ih =>
      intro out
      obtain ⟨⟨hs, hb⟩, hrest⟩ := List.forall_mem_cons.mp ht
      rw [List.foldlM_cons, hw.entryIn?_eq hf hs hb]
      exact ih hrest _
  exact fold ∅

theorem pass?_eq {exit? : List Int → Option ValueSet} {exit : List Int → ValueSet}
    {code : List Instr} (hslot : ∀ x ∈ code, ∃ s, fn.slot x.id = .ok s)
    (hexit : ∀ x ∈ code, x.kind = .terminator → exit? x.node.targets = some (exit x.node.targets))
    (hlast : ∀ x, code.getLast? = some x → x.kind = .terminator) :
    fn.pass? exit? code = some (pass fn.id exit code) := by
  induction code with
  | nil => rfl
  | cons x rest ih =>
    obtain ⟨⟨s, hs⟩, hslots⟩ := List.forall_mem_cons.mp hslot
    obtain ⟨hx, hexits⟩ := List.forall_mem_cons.mp hexit
    have hrest : fn.pass? exit? rest = some (pass fn.id exit rest) := by
      refine ih hslots hexits fun y hy => hlast y ?_
      rw [List.getLast?_cons, hy, Option.getD_some]
    by_cases hk : x.kind = .terminator
    · simp [pass?, pass, hrest, hs, hk, hx hk, Except.toOption]
    · -- were nothing behind it, it would be the last
      have hne : pass fn.id exit rest ≠ [] := by
        intro hnil
        have hlen := congrArg List.length hnil
        rw [length_pass, List.length_nil] at hlen
        exact hk (hlast x (by simp [List.length_eq_zero_iff.mp hlen]))
      simp [pass?, pass, hrest, hs, hk, frontIn?_eq hne, Except.toOption]

theorem WellFormed.visit?_eq (hw : fn.WellFormed) (hc : fn.Consistent) (hf : fn.Fits facts)
    (horder : fn.blockIds ⊆ order) {b : Int} (hb : fn.hasBlock b) :
    fn.visit? order facts b = some (fn.visit facts b) := by
  obtain ⟨block, hblock⟩ := Option.isSome_iff_exists.mp (hasBlock_iff.mp hb)
  obtain ⟨sets, hsets, -⟩ := hf.exists_sets hblock
  have hmem := mem_blocks hblock
  have hpass : fn.pass? (fn.exitOut? order facts b) block.code =
      some (pass fn.id (fn.exitOut facts b) block.code) := by
    refine pass?_eq ?_ ?_ ?_
    · intro x hx
      exact ⟨_, hc.slot_eq hblock hx⟩
    · intro x hx hk
      refine hw.exitOut?_eq hf b fun s hs => ?_
      have hsb := hw.targets block hmem s ((hw.succ_eq_targets hmem hx hk).2 ▸ hs)
      exact ⟨horder (mem_blockIds.mpr hsb), hsb⟩
    · intro x hx
      obtain ⟨before, last, he, hlast, -⟩ := hw.ended block hmem
      rw [he, List.getLast?_concat] at hx
      exact Option.some.inj hx ▸ hlast
  simp [visit?, visit, hblock, hsets, hpass]

theorem WellFormed.sweep?_eq (hw : fn.WellFormed) (hc : fn.Consistent) (hf : fn.Fits facts)
    (horder : fn.blockIds ⊆ order) {todo : List Int} (htodo : ∀ b ∈ todo, fn.hasBlock b) :
    todo.foldlM (fn.visit? order) facts = some (fn.sweep todo facts) := by
  induction todo generalizing facts with
  | nil => rfl
  | cons b rest ih =>
    obtain ⟨hb, hrest⟩ := List.forall_mem_cons.mp htodo
    rw [List.foldlM_cons, hw.visit?_eq hc hf horder hb]
    exact ih (hf.visit b) hrest

theorem WellFormed.settle?_eq (hw : fn.WellFormed) (hc : fn.Consistent) (hg : fn.Growing facts)
    (horder : order.Perm fn.blockIds) {fuel : Nat}
    (hfuel : fn.room facts < fuel) :
    fn.settle? order fuel facts = some (fn.settle order fuel facts) := by
  induction fuel generalizing facts with
  | zero => omega
  | succ fuel ih =>
    have hsweep : fn.sweep? order facts = some (fn.sweep order facts) :=
      hw.sweep?_eq hc hg.fits horder.symm.subset fun b hb => mem_blockIds.mp (horder.subset hb)
    by_cases he : fn.sweep order facts = facts
    · simp [settle?, settle, hsweep, he]
    · have hlt := hg.room_sweep_lt he
      have hrest := ih (hg.sweep order).1 (by omega)
      simp [settle?, settle, hsweep, he, hrest]

theorem WellFormed.liveness?_eq (hw : fn.WellFormed) (hc : fn.Consistent) :
    fn.liveness? = some fn.liveness := by
  have hsettle := hw.settle?_eq hc (growing_noFacts fn) fn.visitOrder_perm
    (room_lt_sweepBound fn fn.noFacts)
  simp [liveness?, liveness, hsettle]

end Func

namespace Liveness
variable {lv : Liveness} {fn : Func} {localOnly : Bool}

/-- Whether an instruction is dead, if it is in the directory and, where only its own place is asked
about, in the map. -/
def isDead? (lv : Liveness) (fn : Func) (localOnly : Bool) (x : Instr) : Option Bool := do
  let _ ← (fn.slot x.id).toOption
  let live ← if localOnly then (lv.find? x.id).map (·.sides.after) else some lv.support
  return decide (x.kind ≠ .terminator ∧ x.value fn.id ∉ live)

def deadIn? (lv : Liveness) (fn : Func) (localOnly : Bool) : List Instr → Option (List Int)
  | [] => some []
  | x :: rest => do
    let dead ← lv.isDead? fn localOnly x
    let others ← lv.deadIn? fn localOnly rest
    return if dead then x.id :: others else others

def dead? (lv : Liveness) (fn : Func) (localOnly : Bool) : Option (List Int) := do
  let _ ← (lv.answer fn .dead ()).toOption
  lv.deadIn? fn localOnly fn.code

theorem deadIn?_eq {dead : Instr → Bool} {code : List Instr}
    (h : ∀ x ∈ code, lv.isDead? fn localOnly x = some (dead x)) :
    lv.deadIn? fn localOnly code = some ((code.filter dead).map (·.id)) := by
  induction code with
  | nil => rfl
  | cons x rest ih =>
    obtain ⟨hx, hrest⟩ := List.forall_mem_cons.mp h
    cases hd : dead x with
    | true => simp [deadIn?, hx, hd, ih hrest]
    | false => simp [deadIn?, hx, hd, ih hrest]

end Liveness

theorem Func.Consistent.dead?_liveness {fn : Func} (hc : fn.Consistent) (localOnly : Bool) :
    fn.liveness.dead? fn localOnly = some (fn.liveness.deadInstrs fn localOnly) := by
  simp only [Liveness.dead?, Liveness.answer, Liveness.breach?_liveness, Except.toOption,
    Option.bind_eq_bind, Option.bind_some]
  refine Liveness.deadIn?_eq fun x hx => ?_
  obtain ⟨p, hp⟩ := exists_at?_of_mem_code hx
  obtain ⟨b, block, hb, hmem⟩ := mem_code_iff.mp hx
  have hslot := hc.slot_eq hb hmem
  cases localOnly with
  | false => simp [Liveness.isDead?, hslot, Except.toOption]
  | true =>
    obtain ⟨s, -, hfind⟩ := hc.find?_liveness hp
    simp [Liveness.isDead?, Liveness.liveAt, hslot, hfind, Except.toOption]
end DeadCode
