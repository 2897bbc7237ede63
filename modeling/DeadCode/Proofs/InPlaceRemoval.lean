import DeadCode.Proofs.Removal
import Mathlib.Data.Finset.Card

/-! # Removal in place

A removal works on the function where it lies. It first looks up the listed instructions and then
all that would stay behind. Only after that it writes: in every block the survivors move up over the
cells of those that go, whose slots are marked one at a time, and what is left over at the end of
the block is cut off. Here each of these steps is a step on the state, and a look-up that fails
leaves the function as it is by then. A run that gets through leaves what the removal at one stroke
gives, and one that fails has written nothing.
-/
namespace DeadCode

/-- Work on a function in place. What it has written before it fails stays written. -/
abbrev InPlace := EStateM Misuse Func

namespace InPlace

def lookUp (i : Int) : InPlace Slot := do
  match (← get).slot i with
  | .ok s => return s
  | .error m => throw m

def collect (gone : List Int) (i : Int) : InPlace (List Int) := do
  let s ← lookUp i
  if s.kind = .terminator then throw (.removedTerminator i s.block (← get).name)
  else return gone.insert i

def checkUse (gone : List Int) (user : Int) (v : Value) : InPlace Unit := do
  let fn ← get
  match v with
  | .instr owner i => if owner = fn.id ∧ i ∈ gone then throw (.stillUsed i user fn.name) else return ()
  | _ => return ()

def checkUses (gone : List Int) (x : Instr) : InPlace Unit :=
  if x.id ∈ gone then return ()
  else do
    let _ ← lookUp x.id
    forM x.node.uses (checkUse gone x.id)

def readCell (b : Int) (k : Nat) : InPlace Instr := do
  let fn ← get
  match (fn.block? b).bind (·.code[k]?) with
  | some x => return x
  | none => throw (.invalidBlock b fn.name)

def modifyCells (b : Int) (f : List Instr → List Instr) : InPlace Unit :=
  modify fun fn =>
    { fn with blocks := modifyNth fn.blocks (fun block => { block with code := f block.code }) b }

def markDead (i : Int) : InPlace Unit := do
  let fn ← get
  match nth? fn.slots i with
  | some _ => set { fn with slots := modifyNth fn.slots (fun s => { s with alive := false }) i }
  | none => throw (.invalidInstr i fn.name)

/-- Reads the last `left` cells of a block, the first of which has index `read`, and moves the
instructions that stay up behind the `kept` cells in front. -/
def moveUp (gone : List Int) (b : Int) : (left read kept : Nat) → InPlace Nat
  | 0, _, kept => return kept
  | left + 1, read, kept => do
    let x ← readCell b read
    if x.id ∈ gone then do
      markDead x.id
      moveUp gone b left (read + 1) kept
    else do
      modifyCells b (·.set kept x)
      moveUp gone b left (read + 1) (kept + 1)

def compact (gone : List Int) (b : Int) : InPlace Unit := do
  let fn ← get
  match fn.block? b with
  | none => throw (.invalidBlock b fn.name)
  | some block =>
    let kept ← moveUp gone b block.code.length 0 0
    modifyCells b (·.take kept)

def removeAll (ins : List Int) : InPlace Unit := do
  let gone ← ins.foldlM collect []
  if gone = [] then return ()
  else do
    forM (← get).code (checkUses gone)
    forM (← get).blockIds (compact gone)
    modify fun fn => { fn with size := fn.size - gone.length, epoch := fn.epoch + 1 }

variable {fn : Func} {gone : List Int} {b : Int}

@[simp] theorem run_throw {α : Type} (m : Misuse) : (throw m : InPlace α).run fn = .error m fn := rfl

/-- The outcome of work that only reads: it fails if there is a fault, and the function is
unchanged. -/
def verdict {α : Type} (fn : Func) (a : α) : Option Misuse → EStateM.Result Misuse Func α
  | none => .ok a fn
  | some m => .error m fn

theorem collect_run (i : Int) :
    (collect gone i).run fn = verdict fn (gone.insert i) (fn.removalFault? i) := by
  cases hs : fn.slot i with
  | error m => simp [collect, lookUp, Func.removalFault?, verdict, hs]
  | ok s =>
    by_cases hk : s.kind = .terminator
    · simp [collect, lookUp, Func.removalFault?, verdict, hs, hk]
    · simp [collect, lookUp, Func.removalFault?, verdict, hs, hk]

theorem foldlM_collect_run (ins : List Int) :
    (ins.foldlM collect gone).run fn =
      verdict fn (ins.foldl (·.insert ·) gone) (ins.findSome? fn.removalFault?) := by
  induction ins generalizing gone with
  | nil => rfl
  | cons i rest ih =>
    rw [List.foldlM_cons, EStateM.run_bind, collect_run, List.findSome?_cons]
    cases fn.removalFault? i with
    | some m => rfl
    | none => exact ih

theorem forM_run {α : Type} {l : List α} {look : α → InPlace Unit} {fault? : α → Option Misuse}
    (h : ∀ a ∈ l, (look a).run fn = verdict fn () (fault? a)) :
    (forM l look).run fn = verdict fn () (l.findSome? fault?) := by
  induction l with
  | nil => rfl
  | cons a rest ih =>
    obtain ⟨ha, hrest⟩ := List.forall_mem_cons.mp h
    rw [List.forM_cons, EStateM.run_bind, ha, List.findSome?_cons]
    cases fault? a with
    | some m => rfl
    | none => exact ih hrest

theorem checkUses_run {x : Instr} {s : Slot} (hs : fn.slot x.id = .ok s) :
    (checkUses gone x).run fn = verdict fn () (fn.clashAt? gone x) := by
  unfold checkUses Func.clashAt?
  by_cases hx : x.id ∈ gone
  · simp [hx, verdict]
  · simp only [hx, ↓reduceIte]
    have hlook : (lookUp x.id).run fn = .ok s fn := by simp [lookUp, hs]
    rw [EStateM.run_bind, hlook]
    apply forM_run
    intro v _
    cases v with
    | absent => rfl
    | arg owner i => rfl
    | const owner n => rfl
    | instr owner i =>
      by_cases hc : owner = fn.id ∧ i ∈ gone
      · simp [checkUse, verdict, hc]
      · simp [checkUse, verdict, hc]

def marked (slots : List Slot) (dead : List Int) : List Slot :=
  slots.mapIdx fun n s => if (n : Int) ∈ dead then { s with alive := false } else s

theorem nth?_marked (slots : List Slot) (dead : List Int) (i : Int) :
    nth? (marked slots dead) i =
      (nth? slots i).map fun s => if i ∈ dead then { s with alive := false } else s := by
  cases i with
  | ofNat n => exact List.getElem?_mapIdx
  | negSucc n => rfl

theorem marked_nil (slots : List Slot) : marked slots [] = slots :=
  ext_nth? fun i => by simp [nth?_marked]

theorem marked_marked (slots : List Slot) (dead more : List Int) :
    marked (marked slots dead) more = marked slots (dead ++ more) := by
  apply ext_nth?
  intro i
  simp only [nth?_marked, Option.map_map, List.mem_append]
  congr 1
  funext s
  by_cases hd : i ∈ dead
  · simp [hd]
  · simp [hd]

/-- A function whose block `b` has these cells, with the slots of the dead marked. -/
def midway (fn : Func) (b : Int) (cells : List Instr) (dead : List Int) : Func :=
  { fn with
    blocks := modifyNth fn.blocks (fun block => { block with code := cells }) b
    slots := marked fn.slots dead }

theorem block?_midway {block : BasicBlock} (hb : fn.block? b = some block) (cells : List Instr)
    (dead : List Int) : (midway fn b cells dead).block? b = some { block with code := cells } := by
  change nth? (modifyNth fn.blocks _ b) b = _
  change nth? fn.blocks b = _ at hb
  simp [nth?_modifyNth, hb]

theorem readCell_run {block : BasicBlock} (hb : fn.block? b = some block) {cells : List Instr}
    {dead : List Int} {k : Nat} {x : Instr} (hx : cells[k]? = some x) :
    (readCell b k).run (midway fn b cells dead) = .ok x (midway fn b cells dead) := by
  simp [readCell, block?_midway hb, hx]

theorem modifyCells_run (f : List Instr → List Instr) (cells : List Instr) (dead : List Int) :
    (modifyCells b f).run (midway fn b cells dead) = .ok () (midway fn b (f cells) dead) := by
  have hblocks : modifyNth (midway fn b cells dead).blocks
      (fun block => { block with code := f block.code }) b = (midway fn b (f cells) dead).blocks := by
    apply ext_nth?
    intro i
    simp only [midway, nth?_modifyNth]
    split
    · simp [Function.comp_def]
    · rfl
  rw [modifyCells, EStateM.run_modify, hblocks]
  rfl

theorem markDead_run {cells : List Instr} {dead : List Int} {i : Int} {s : Slot}
    (hs : nth? fn.slots i = some s) :
    (markDead i).run (midway fn b cells dead) = .ok () (midway fn b cells (dead ++ [i])) := by
  have hslots : modifyNth (marked fn.slots dead) (fun s => { s with alive := false }) i =
      marked fn.slots (dead ++ [i]) := by
    apply ext_nth?
    intro j
    simp only [nth?_modifyNth, nth?_marked, List.mem_append, List.mem_singleton]
    by_cases hij : i = j
    · subst hij
      by_cases hd : i ∈ dead
      · simp [hs, hd]
      · simp [hs, hd]
    · simp [hij, Ne.symm hij]
  simp [markDead, midway, nth?_marked, hs, hslots]

/-- The cells of the block are in three parts: instructions that stay and have been moved, cells
with old contents, and cells not yet read. -/
theorem moveUp_run (gone : List Int) {block : BasicBlock} (hb : fn.block? b = some block)
    {rest : List Instr} (hslots : ∀ x ∈ rest, ∃ s, nth? fn.slots x.id = some s)
    (done old : List Instr) (dead : List Int) :
    ∃ old', (moveUp gone b rest.length (done ++ old).length done.length).run
        (midway fn b (done ++ old ++ rest) dead) =
      .ok (done ++ rest.filter (·.id ∉ gone)).length
        (midway fn b (done ++ rest.filter (·.id ∉ gone) ++ old')
          (dead ++ (rest.filter (·.id ∈ gone)).map (·.id))) := by
  induction rest generalizing done old dead with
  | nil => exact ⟨old, by simp [moveUp]⟩
  | cons x rest ih =>
    obtain ⟨⟨s, hs⟩, hrest⟩ := List.forall_mem_cons.mp hslots
    have hcell : (done ++ old ++ x :: rest)[(done ++ old).length]? = some x := by simp
    rw [List.length_cons, moveUp, EStateM.run_bind, readCell_run hb hcell]
    by_cases hx : x.id ∈ gone
    · obtain ⟨old', h⟩ := ih hrest done (old ++ [x]) (dead ++ [x.id])
      refine ⟨old', ?_⟩
      simp only [hx, ↓reduceIte, EStateM.run_bind, markDead_run hs]
      simpa [hx, Nat.add_assoc] using h
    · -- the cell behind the survivors is the first old one, or that of the instruction itself
      obtain ⟨old₁, hset, hlen⟩ : ∃ old₁, (done ++ old ++ x :: rest).set done.length x =
          done ++ [x] ++ old₁ ++ rest ∧ old₁.length = old.length := by
        cases old with
        | nil => exact ⟨[], by simp⟩
        | cons y old => exact ⟨old ++ [x], by simp⟩
      obtain ⟨old', h⟩ := ih hrest (done ++ [x]) old₁ dead
      refine ⟨old', ?_⟩
      have hread : (done ++ [x] ++ old₁).length = (done ++ old).length + 1 := by
        simp only [List.length_append, List.length_singleton, hlen]
        omega
      have hkept : (done ++ [x]).length = done.length + 1 := List.length_append
      rw [hread, hkept] at h
      simp only [hx, ↓reduceIte, EStateM.run_bind, modifyCells_run, hset]
      simpa [hx] using h

theorem midway_self {block : BasicBlock} (hb : fn.block? b = some block) :
    midway fn b block.code [] = fn := by
  have hblocks : modifyNth fn.blocks (fun other => { other with code := block.code }) b = fn.blocks := by
    apply ext_nth?
    intro i
    rw [nth?_modifyNth]
    split
    · next hi =>
      subst hi
      change nth? fn.blocks b = _ at hb
      simp [hb]
    · rfl
  rw [midway, hblocks, marked_nil]

theorem compact_run {block : BasicBlock} (hb : fn.block? b = some block)
    (hslots : ∀ x ∈ block.code, ∃ s, nth? fn.slots x.id = some s) :
    (compact gone b).run fn = .ok () (midway fn b (block.code.filter (·.id ∉ gone))
      ((block.code.filter (·.id ∈ gone)).map (·.id))) := by
  obtain ⟨old, h⟩ := moveUp_run gone hb hslots [] [] []
  simp only [List.nil_append, List.length_nil, midway_self hb] at h
  simp [compact, hb, h, modifyCells_run]

def partway (fn : Func) (gone : List Int) (n : Nat) : Func :=
  { fn with
    blocks := fn.blocks.mapIdx fun k block => if k < n then block.without gone else block
    slots := marked fn.slots
      ((((fn.blocks.take n).flatMap (·.code)).filter (·.id ∈ gone)).map (·.id)) }

theorem compact_partway_run (gone : List Int) {n : Nat} (hn : n < fn.blocks.length)
    (hslots : ∀ x ∈ fn.code, ∃ s, nth? fn.slots x.id = some s) :
    (compact gone n).run (partway fn gone n) = .ok () (partway fn gone (n + 1)) := by
  have hb : (partway fn gone n).block? n = some fn.blocks[n] := by
    simp [partway, Func.block?, hn]
  have hslots' : ∀ x ∈ fn.blocks[n].code, ∃ s, nth? (partway fn gone n).slots x.id = some s := by
    intro x hx
    obtain ⟨s, hs⟩ := hslots x (List.mem_flatMap.mpr ⟨_, List.getElem_mem hn, hx⟩)
    simp [partway, nth?_marked, hs]
  have hblocks : modifyNth (partway fn gone n).blocks
      (fun block => { block with code := fn.blocks[n].code.filter (·.id ∉ gone) }) n =
        (partway fn gone (n + 1)).blocks := by
    apply List.ext_getElem?
    intro m
    simp only [partway, modifyNth_natCast, List.getElem?_modify, List.getElem?_mapIdx]
    by_cases hm : n = m
    · subst hm
      simp [hn, BasicBlock.without]
    · have hlt : m < n + 1 ↔ m < n := by omega
      simp [hm, hlt]
  have hmarked : marked (partway fn gone n).slots
      ((fn.blocks[n].code.filter (·.id ∈ gone)).map (·.id)) = (partway fn gone (n + 1)).slots := by
    simp only [partway, marked_marked, List.take_add_one, List.getElem?_eq_getElem hn,
      Option.toList_some, List.flatMap_append, List.flatMap_singleton, List.filter_append,
      List.map_append]
  rw [compact_run hb hslots', midway, hblocks, hmarked]
  rfl

theorem forM_compact_run (gone : List Int) (hslots : ∀ x ∈ fn.code, ∃ s, nth? fn.slots x.id = some s) {left n : Nat}
    (hn : n + left = fn.blocks.length) :
    (forM ((List.range' n left).map Int.ofNat) (compact gone)).run (partway fn gone n) =
      .ok () (partway fn gone fn.blocks.length) := by
  induction left generalizing n with
  | zero =>
    rw [← hn]
    rfl
  | succ left ih =>
    rw [List.range'_succ, List.map_cons, List.forM_cons, EStateM.run_bind]
    have hstep := compact_partway_run gone (by omega : n < fn.blocks.length) hslots
    rw [Int.ofNat_eq_natCast, hstep]
    exact ih (by omega)

theorem mem_foldl_insert {ins : List Int} {i : Int} :
    i ∈ ins.foldl (·.insert ·) gone ↔ i ∈ gone ∨ i ∈ ins := by
  induction ins generalizing gone with
  | nil => simp
  | cons j rest ih =>
    rw [List.foldl_cons, ih, List.mem_insert_iff, List.mem_cons]
    tauto

theorem nodup_foldl_insert (ins : List Int) (h : gone.Nodup) :
    (ins.foldl (·.insert ·) gone).Nodup := by
  induction ins generalizing gone with
  | nil => exact h
  | cons j rest ih => exact ih h.insert

/-- The checks and the removal depend only on which numbers are listed. -/
theorem clashAt?_congr {ins : List Int} (hgone : ∀ i, i ∈ gone ↔ i ∈ ins) :
    fn.clashAt? gone = fn.clashAt? ins := by
  funext x
  simp only [Func.clashAt?, hgone]

theorem marked_eq_without {ins : List Int} {dead : List Int}
    (h : ∀ i, i ∈ dead ↔ i ∈ ins) : marked fn.slots dead = (fn.without ins).slots := by
  apply ext_nth?
  intro i
  simp only [nth?_marked, Func.slots_without, h]

theorem partway_zero : partway fn gone 0 = fn := by
  have hblocks : (fn.blocks.mapIdx fun k block => if k < 0 then block.without gone else block) =
      fn.blocks := List.ext_getElem? fun n => by simp
  simp only [partway, List.take_zero, List.flatMap_nil, List.filter_nil, List.map_nil, marked_nil,
    hblocks]

theorem partway_length {ins : List Int} (hc : fn.Consistent) (hins : ∀ i ∈ ins, fn.alive i = true)
    (hgone : ∀ i, i ∈ gone ↔ i ∈ ins) (hnodup : gone.Nodup) :
    { partway fn gone fn.blocks.length with
      size := fn.size - gone.length, epoch := fn.epoch + 1 } = fn.without ins := by
  have hblocks : (partway fn gone fn.blocks.length).blocks = (fn.without ins).blocks := by
    apply List.ext_getElem?
    intro n
    by_cases hn : n < fn.blocks.length
    · simp [partway, Func.without, BasicBlock.without, hn, hgone]
    · simp [partway, Func.without, hn]
  have hslots : (partway fn gone fn.blocks.length).slots = (fn.without ins).slots := by
    apply marked_eq_without
    intro i
    rw [List.take_length, List.mem_map]
    constructor
    · rintro ⟨x, hx, rfl⟩
      exact (hgone x.id).mp (by simpa using (List.mem_filter.mp hx).2)
    · intro hi
      obtain ⟨x, hx, rfl⟩ := hc.alive_iff.mp (hins i hi)
      exact ⟨x, List.mem_filter.mpr ⟨hx, by simpa [hgone] using hi⟩, rfl⟩
  have hlen : gone.length = ins.eraseDups.length := by
    refine ((List.perm_ext_iff_of_nodup hnodup (nodup_eraseDups ins)).mpr fun i => ?_).length_eq
    rw [hgone, List.mem_eraseDups]
  simp only [hblocks, hslots, hlen]
  rfl

/-- The removal in place gives the same function and the same error as `removeAll`, and if it fails
the function is unchanged. -/
theorem removeAll_run (hc : fn.Consistent) (ins : List Int) :
    (removeAll ins).run fn =
      match fn.removeAll ins with
      | .ok rest => .ok () rest
      | .error m => .error m fn := by
  rw [removeAll, EStateM.run_bind, foldlM_collect_run, Func.removeAll]
  cases hfault : ins.findSome? fn.removalFault? with
  | some m => rfl
  | none =>
    have hgone : ∀ i, i ∈ ins.foldl (·.insert ·) [] ↔ i ∈ ins := fun i => by
      simp [mem_foldl_insert]
    have hnodup := nodup_foldl_insert ins List.nodup_nil
    generalize ins.foldl (·.insert ·) [] = gone at hgone hnodup
    by_cases hins : ins = []
    · have hnil : gone = [] := by
        subst hins
        exact List.eq_nil_iff_forall_not_mem.mpr fun i => by simp [hgone]
      simp [verdict, hins, hnil]
    · have hne : gone ≠ [] := by
        obtain ⟨i, hi⟩ := List.exists_mem_of_ne_nil _ hins
        exact List.ne_nil_of_mem ((hgone i).mpr hi)
      have hlook : (forM fn.code (checkUses gone)).run fn =
          verdict fn () (fn.code.findSome? (fn.clashAt? ins)) := by
        rw [← clashAt?_congr hgone]
        apply forM_run
        intro x hx
        obtain ⟨b, block, hb, hx⟩ := Func.mem_code_iff.mp hx
        exact checkUses_run (hc.slot_eq hb hx)
      simp only [verdict, hins, hne, ↓reduceIte, EStateM.run_bind, EStateM.run_get, hlook]
      cases fn.code.findSome? (fn.clashAt? ins) with
      | some m => rfl
      | none =>
        have hslots : ∀ x ∈ fn.code, ∃ s, nth? fn.slots x.id = some s := by
          intro x hx
          obtain ⟨b, block, hb, hx⟩ := Func.mem_code_iff.mp hx
          exact ⟨_, hc.attached b block hb x hx⟩
        have halive : ∀ i ∈ ins, fn.alive i = true := by
          intro i hi
          have hnone := List.findSome?_eq_none_iff.mp hfault i hi
          obtain ⟨x, hx, hid, -⟩ := (Func.removalFault?_eq_none_iff hc).mp hnone
          exact hc.alive_iff.mpr ⟨x, hx, hid⟩
        have hwrite := forM_compact_run gone hslots (Nat.zero_add fn.blocks.length)
        rw [partway_zero, ← List.range_eq_range'] at hwrite
        simp only [Func.blockIds, hwrite, EStateM.run_modify]
        exact congrArg (EStateM.Result.ok ()) (partway_length hc halive hgone hnodup)

end InPlace

namespace Func
variable {fn : Func} {ins : List Int}

structure Purged (fn : Func) (ins : List Int) (rest : Func) : Prop where
  block : ∀ b, rest.block? b = (fn.block? b).map fun old =>
    { old with code := old.code.filter (·.id ∉ ins) }
  slot : ∀ i, nth? rest.slots i = (nth? fn.slots i).map fun old =>
    { old with alive := old.alive && decide (i ∉ ins) }
  dies : ∀ i, i ∈ ins ↔ fn.alive i = true ∧ rest.alive i = false
  size : rest.size + ins.toFinset.card = fn.size
  epoch : rest.epoch = fn.epoch + 1
  header : rest.id = fn.id ∧ rest.name = fn.name ∧ rest.argCount = fn.argCount

theorem Removable.purged (hr : fn.Removable ins) (hc : fn.Consistent) :
    fn.Purged ins (fn.without ins) := by
  refine ⟨block?_without ins, ?_, ?_, ?_, rfl, rfl, rfl, rfl⟩
  · intro i
    rw [slots_without]
    congr 1
    funext s
    by_cases hi : i ∈ ins
    · simp [hi]
    · simp [hi]
  · intro i
    rw [Bool.eq_false_iff, ne_eq, alive_without]
    constructor
    · intro hi
      exact ⟨hr.alive hc hi, fun hstay => hstay.2 hi⟩
    · intro hdies
      by_contra hi
      exact hdies.2 ⟨hdies.1, hi⟩
  · have hcard : ins.toFinset.card = ins.eraseDups.length := by
      rw [List.card_toFinset]
      refine ((List.perm_ext_iff_of_nodup ins.nodup_dedup (nodup_eraseDups ins)).mpr ?_).length_eq
      intro i
      rw [List.mem_dedup, List.mem_eraseDups]
    rw [hcard]
    exact hr.size_add_eraseDups hc

theorem removalFault?_eq_none_iff_slot {i : Int} :
    fn.removalFault? i = none ↔ ∃ s, fn.slot i = .ok s ∧ s.kind ≠ .terminator := by
  unfold removalFault?
  cases fn.slot i with
  | error m => simp
  | ok s => simp

theorem removable_iff (hc : fn.Consistent) :
    fn.Removable ins ↔ (∀ i ∈ ins, ∃ s, fn.slot i = .ok s ∧ s.kind ≠ .terminator) ∧
      ∀ x ∈ fn.code, x.id ∉ ins → ∀ i ∈ ins, Value.instr fn.id i ∉ x.node.uses := by
  have hslot : ∀ i, (∃ x ∈ fn.code, x.id = i ∧ x.kind ≠ .terminator) ↔
      ∃ s, fn.slot i = .ok s ∧ s.kind ≠ .terminator := fun i =>
    (removalFault?_eq_none_iff hc).symm.trans removalFault?_eq_none_iff_slot
  constructor
  · intro hr
    exact ⟨fun i hi => (hslot i).mp (hr.present i hi), hr.unused⟩
  · intro h
    exact ⟨fun i hi => (hslot i).mpr (h.1 i hi), h.2⟩

/-- A removal succeeds if and only if every listed instruction is alive and not a terminator, and no
instruction that stays uses one of their values. It leaves the function without the listed
instructions and otherwise as it was, and with an empty list it changes nothing. The removal in
place does the same, and if it is refused, by whichever check, it has written nothing. -/
theorem removeAll_exact (hc : fn.Consistent) (ins : List Int) :
    ((∃ rest, fn.removeAll ins = .ok rest) ↔
      (∀ i ∈ ins, ∃ s, fn.slot i = .ok s ∧ s.kind ≠ .terminator) ∧
        ∀ x ∈ fn.code, x.id ∉ ins → ∀ i ∈ ins, Value.instr fn.id i ∉ x.node.uses) ∧
      (∀ rest, fn.removeAll ins = .ok rest →
        (InPlace.removeAll ins).run fn = .ok () rest ∧
          if ins = [] then rest = fn else fn.Purged ins rest) ∧
      ∀ m, fn.removeAll ins = .error m →
        (InPlace.removeAll ins).run fn = .error m fn ∧ fn.change (.removeAll ins) = fn := by
  refine ⟨?_, ?_, ?_⟩
  · rw [← removable_iff hc]
    constructor
    · rintro ⟨rest, h⟩
      exact ((removeAll_eq_ok_iff hc).mp h).1
    · intro hr
      exact ⟨_, (removeAll_eq_ok_iff hc).mpr ⟨hr, rfl⟩⟩
  · intro rest h
    refine ⟨by rw [InPlace.removeAll_run hc, h], ?_⟩
    obtain ⟨hr, rfl⟩ := (removeAll_eq_ok_iff hc).mp h
    by_cases hins : ins = []
    · simp [hins]
    · simpa [hins] using hr.purged hc
  · intro m h
    refine ⟨by rw [InPlace.removeAll_run hc, h], ?_⟩
    simp [change, change?, h]

/-- The loop's second merge and the addition refer to each other, so they can only be removed
together. -/
theorem removeAll_countdown_exact :
    countdown.Consistent ∧
      (∃ rest, countdown.removeAll [6, 2, 4, 6, 5] = .ok rest ∧
        (InPlace.removeAll [6, 2, 4, 6, 5]).run countdown = .ok () rest ∧
        countdown.Purged [6, 2, 4, 6, 5] rest ∧ rest.size = 5) ∧
      (InPlace.removeAll [6, 2, 6]).run countdown =
        .error (.stillUsed 2 4 "countdown") countdown := by
  have hok : countdown.removeAll [6, 2, 4, 6, 5] = .ok (countdown.without [6, 2, 4, 6, 5]) := rfl
  have herr : countdown.removeAll [6, 2, 6] = .error (.stillUsed 2 4 "countdown") := rfl
  obtain ⟨-, hleft, -⟩ := removeAll_exact consistent_countdown [6, 2, 4, 6, 5]
  obtain ⟨-, -, hkept⟩ := removeAll_exact consistent_countdown [6, 2, 6]
  obtain ⟨hrun, hpurged⟩ := hleft _ hok
  exact ⟨consistent_countdown, ⟨_, hok, hrun, by simpa using hpurged, by decide⟩, (hkept _ herr).1⟩

end Func
end DeadCode
