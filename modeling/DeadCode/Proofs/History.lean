import DeadCode.Proofs.Verification
import Mathlib.Algebra.Order.Ring.Nat
import Mathlib.Data.List.Nodup

/-! # What holds through a history

Whatever changes were made to a function, refused ones among them, its directory says of every
number ever given out whether the instruction is there and where, and its blocks have the order that
building asks for. From one state to a later one the directory only grows: a slot keeps its block
and kind, the dead stay dead, and a new instruction takes a number that no earlier state knows.
-/
namespace DeadCode

theorem countP_eq_length_filter_range {α : Type} (p : α → Bool) (l : List α) :
    l.countP p = ((List.range l.length).filter fun n => l[n]?.any p).length := by
  have hall : (List.range l.length).map (fun n => l[n]?) = l.map some := by
    apply List.ext_getElem
    · simp
    · simp
  have hcount := congrArg (List.countP (Option.any p)) hall
  rw [List.countP_map, List.countP_map] at hcount
  rw [← List.countP_eq_length_filter]
  exact hcount.symm

namespace BasicBlock.Shaped
variable {block : BasicBlock}

theorem nil (name : String) : Shaped ⟨name, []⟩ := ⟨[], [], [], by simp⟩

theorem append (h : block.Shaped) {longer : BasicBlock} {x : Instr}
    (hlonger : longer.code = block.code ++ [x])
    (hopen : ∀ last, block.code.getLast? = some last →
      last.kind ≠ .terminator ∧ (x.kind = .merge → last.kind = .merge)) :
    longer.Shaped := by
  obtain ⟨merges, plains, ends, hcode, hm, hp, he, hlen⟩ := h
  -- the block has no terminator yet, or that would be its last instruction
  obtain rfl : ends = [] := by
    rcases List.eq_nil_or_concat ends with rfl | ⟨front, t, rfl⟩
    · rfl
    · have hlast : block.code.getLast? = some t := by simp [hcode]
      exact absurd (he t (by simp)) (hopen t hlast).1
  rw [List.append_nil] at hcode
  cases hx : x.kind with
  | terminator =>
    exact ⟨merges, plains, [x], by simp [hlonger, hcode], hm, hp, by simpa using hx, by simp⟩
  | plain =>
    refine ⟨merges, plains ++ [x], [], by simp [hlonger, hcode], hm, ?_, by simp, by simp⟩
    intro y hy
    rcases List.mem_append.mp hy with hy | hy
    · exact hp y hy
    · rwa [List.mem_singleton.mp hy]
  | merge =>
    obtain rfl : plains = [] := by
      rcases List.eq_nil_or_concat plains with rfl | ⟨front, y, rfl⟩
      · rfl
      · have hlast : block.code.getLast? = some y := by simp [hcode]
        have hy := hp y (by simp)
        rw [(hopen y hlast).2 hx] at hy
        cases hy
    refine ⟨merges ++ [x], [], [], by simp [hlonger, hcode], ?_, by simp, by simp, by simp⟩
    intro y hy
    rcases List.mem_append.mp hy with hy | hy
    · exact hm y hy
    · rwa [List.mem_singleton.mp hy]

theorem map (h : block.Shaped) {f : Instr → Instr} (hf : ∀ x, (f x).kind = x.kind) :
    Shaped { block with code := block.code.map f } := by
  obtain ⟨merges, plains, ends, hcode, hm, hp, he, hlen⟩ := h
  have hall : ∀ {part : List Instr} {k : Kind}, (∀ x ∈ part, x.kind = k) →
      ∀ x ∈ part.map f, x.kind = k := by
    intro part k hk x hx
    obtain ⟨y, hy, rfl⟩ := List.mem_map.mp hx
    rw [hf]
    exact hk y hy
  exact ⟨merges.map f, plains.map f, ends.map f, by simp [hcode], hall hm, hall hp, hall he,
    by simpa using hlen⟩

theorem without (h : block.Shaped) (ins : List Int) : (block.without ins).Shaped := by
  obtain ⟨merges, plains, ends, hcode, hm, hp, he, hlen⟩ := h
  refine ⟨merges.filter (·.id ∉ ins), plains.filter (·.id ∉ ins), ends.filter (·.id ∉ ins),
    by simp [BasicBlock.without, hcode], ?_, ?_, ?_, (List.length_filter_le _ _).trans hlen⟩
  · intro x hx
    exact hm x (List.mem_of_mem_filter hx)
  · intro x hx
    exact hp x (List.mem_of_mem_filter hx)
  · intro x hx
    exact he x (List.mem_of_mem_filter hx)

end BasicBlock.Shaped

namespace Func
variable {fn rest later start : Func}

theorem getLast?_of_appendFault? {b : Int} {block : BasicBlock} {node : Node}
    (h : fn.appendFault? b block node = none) {last : Instr}
    (hlast : block.code.getLast? = some last) :
    last.kind ≠ .terminator ∧ (node.kind = .merge → last.kind = .merge) := by
  simp only [appendFault?, hlast] at h
  split at h
  · cases h
  · next hk =>
    split at h
    · cases h
    · next hm => exact ⟨hk, fun hn => by_contra fun hl => hm ⟨hn, hl⟩⟩

theorem shaped_becomes (hr : fn.Becomes rest) (h : ∀ block ∈ fn.blocks, block.Shaped) :
    ∀ block ∈ rest.blocks, block.Shaped := by
  intro block hmem
  cases hr with
  | same => exact h block hmem
  | block name =>
    rcases List.mem_append.mp hmem with hmem | hmem
    · exact h block hmem
    · rw [List.mem_singleton.mp hmem]
      exact .nil name
  | instr hb hf =>
    obtain ⟨c, hc⟩ := mem_blocks_iff.mp hmem
    obtain ⟨old, ho, he⟩ := Consistent.block?_attach hc
    have hold := h old (mem_blocks ho)
    rcases he with rfl | ⟨rfl, he⟩
    · exact hold
    · obtain rfl := Option.some.inj (hb.symm.trans ho)
      exact hold.append he fun _ hlast => getLast?_of_appendFault? hf hlast
  | payload i hf epoch =>
    obtain ⟨old, ho, rfl⟩ := List.mem_map.mp hmem
    apply (h old ho).map
    intro x
    split
    · exact hf x.node
    · rfl
  | fewer hins =>
    obtain ⟨old, ho, rfl⟩ := List.mem_map.mp hmem
    exact (h old ho).without _

/-- The directory and the blocks of a function that was built: a dead number is attached nowhere, a
living one exactly once, in the block and with the kind that its slot names. -/
structure Arena (fn : Func) : Prop where
  dead : ∀ i s, nth? fn.slots i = some s → s.alive = false → fn.code.filter (·.id = i) = []
  alive : ∀ i s, nth? fn.slots i = some s → s.alive = true → ∃ x, fn.code.filter (·.id = i) = [x] ∧
    x.kind = s.kind ∧ ∃ block, fn.block? s.block = some block ∧ x ∈ block.code
  numbered : ∀ x ∈ fn.code, 0 ≤ x.id ∧ x.id < fn.slots.length
  increasing : ∀ block ∈ fn.blocks, (block.code.map (·.id)).Pairwise (· < ·)
  shaped : ∀ block ∈ fn.blocks, block.Shaped
  size_eq_alive : fn.size = fn.slots.countP (·.alive)
  size_eq_sum : fn.size = (fn.blocks.map (·.code.length)).sum

namespace Consistent

theorem filter_id (h : fn.Consistent) {x : Instr} (hx : x ∈ fn.code) :
    fn.code.filter (·.id = x.id) = [x] := by
  apply List.perm_singleton.mp
  have hnodup : fn.code.Nodup := .of_map _ h.nodup_ids
  apply (List.perm_ext_iff_of_nodup (hnodup.filter _) (List.nodup_singleton x)).mpr
  intro y
  simp only [List.mem_filter, decide_eq_true_eq, List.mem_singleton]
  constructor
  · intro hy
    exact h.eq_of_mem_code hy.1 hx hy.2
  · intro hy
    subst hy
    exact ⟨hx, rfl⟩

theorem countP_alive (h : fn.Consistent) : fn.slots.countP (·.alive) = fn.code.length := by
  let living : List Nat := (List.range fn.slots.length).filter fun n => fn.slots[n]?.any (·.alive)
  have hcast : (living.map Int.ofNat).Nodup :=
    (List.nodup_range.filter _).map fun _ _ => Int.ofNat.inj
  have hp : (living.map Int.ofNat).Perm (fn.code.map (·.id)) := by
    apply (List.perm_ext_iff_of_nodup hcast h.nodup_ids).mpr
    intro i
    have hi : i ∈ living.map Int.ofNat ↔ fn.alive i = true := by
      rw [alive_eq_true_iff]
      constructor
      · intro hi
        obtain ⟨n, hn, rfl⟩ := List.mem_map.mp hi
        exact (Option.any_eq_true _ _).mp (List.mem_filter.mp hn).2
      · rintro ⟨s, hs, ha⟩
        obtain ⟨n, rfl, hn⟩ := nth?_eq_some_iff.mp hs
        have hlt := (List.getElem?_eq_some_iff.mp hn).1
        refine List.mem_map.mpr ⟨n, List.mem_filter.mpr ⟨List.mem_range.mpr hlt, ?_⟩, rfl⟩
        rw [hn]
        exact ha
    rw [hi, h.alive_iff, List.mem_map]
  have hlen := hp.length_eq
  rw [List.length_map, List.length_map] at hlen
  rw [countP_eq_length_filter_range]
  exact hlen

theorem arena (h : fn.Consistent) (hs : ∀ block ∈ fn.blocks, block.Shaped) : fn.Arena := by
  refine ⟨?_, ?_, fun x => h.lt_slots, h.increasing, hs, ?_, ?_⟩
  · intro i s hn hdead
    apply List.filter_eq_nil_iff.mpr
    intro x hx hid
    obtain ⟨t, ht, ha⟩ := alive_eq_true_iff.mp (h.alive_iff.mpr ⟨x, hx, of_decide_eq_true hid⟩)
    obtain rfl := Option.some.inj (hn.symm.trans ht)
    rw [hdead] at ha
    cases ha
  · intro i s hn ha
    obtain ⟨block, hb, x, hx, rfl⟩ := h.placed i s hn ha
    have hslot := Option.some.inj ((h.attached _ block hb x hx).symm.trans hn)
    exact ⟨x, h.filter_id (mem_code hb hx), congrArg Slot.kind hslot, block, hb, hx⟩
  · rw [h.countP_alive, h.size_eq]
  · rw [h.size_eq, code, List.length_flatMap]

end Consistent

/-- The directory of `later` continues that of `fn`: no slot is lost, none changes its block or its
kind, and what is dead stays dead. -/
def Evolves (fn later : Func) : Prop :=
  ∀ i s, nth? fn.slots i = some s → ∃ t, nth? later.slots i = some t ∧
    t.block = s.block ∧ t.kind = s.kind ∧ (s.alive = false → t.alive = false)

namespace Evolves

theorem of_slots_eq (h : later.slots = fn.slots) : fn.Evolves later := by
  intro i s hs
  rw [h]
  exact ⟨s, hs, rfl, rfl, fun ha => ha⟩

theorem trans (h : fn.Evolves rest) (h' : rest.Evolves later) : fn.Evolves later := by
  intro i s hs
  obtain ⟨t, ht, htb, htk, hta⟩ := h i s hs
  obtain ⟨u, hu, hub, huk, hua⟩ := h' i t ht
  exact ⟨u, hu, hub.trans htb, huk.trans htk, fun ha => hua (hta ha)⟩

theorem of_becomes (hr : fn.Becomes rest) : fn.Evolves rest := by
  cases hr with
  | same => exact of_slots_eq rfl
  | block name => exact of_slots_eq rfl
  | instr hb hf =>
    intro i s hs
    exact ⟨s, nth?_append_singleton.mpr (.inl hs), rfl, rfl, fun ha => ha⟩
  | payload i hf epoch => exact of_slots_eq rfl
  | @fewer ins hins =>
    intro i s hs
    rw [slots_without, hs]
    refine ⟨_, rfl, ?_⟩
    by_cases hi : i ∈ ins
    · simp [hi]
    · simp [hi]

theorem changeAll (fn : Func) (cs : List Change) : fn.Evolves (fn.changeAll cs) :=
  changeAll_induct (fun hr h => h.trans (of_becomes hr)) (of_slots_eq rfl) cs

/-- An instruction keeps its block and its kind. -/
theorem place_eq (h : fn.Evolves later) (hc : fn.Consistent) (hl : later.Consistent)
    {b c : Int} {block other : BasicBlock} {x y : Instr} (hb : fn.block? b = some block)
    (hx : x ∈ block.code) (ho : later.block? c = some other) (hy : y ∈ other.code)
    (hid : y.id = x.id) : c = b ∧ y.kind = x.kind := by
  obtain ⟨t, ht, htb, htk, -⟩ := h x.id _ (hc.attached b block hb x hx)
  have hslot := hl.attached c other ho y hy
  rw [hid, ht] at hslot
  obtain rfl := Option.some.inj hslot
  exact ⟨htb, htk⟩

end Evolves

/-- Every state that a history leads to, by changes that are made or refused, has its directory and
blocks in order. The directory of each state before it evolves into its own: a number keeps its block
and kind, and none that is dead comes back. The instruction appended next gets a number that no
state so far has a slot for. -/
theorem arena_of_history {id : Nat} {name : String} {argCount : Int}
    (hstart : create id name argCount = .ok start) (history : List Change) :
    (start.changeAll history).Arena ∧
      (∀ first, first <+: history →
        (start.changeAll first).Evolves (start.changeAll history) ∧
          ∀ b block x c other y, (start.changeAll first).block? b = some block → x ∈ block.code →
            (start.changeAll history).block? c = some other → y ∈ other.code → y.id = x.id →
              c = b ∧ y.kind = x.kind) ∧
      ∀ b node fn i, (start.changeAll history).append b node = .ok (fn, i) →
        fn.slot i = .ok ⟨b, node.kind, true⟩ ∧
          ∀ first, first <+: history → nth? (start.changeAll first).slots i = none := by
  have hc : ∀ cs, (start.changeAll cs).Consistent := (consistent_create hstart).changeAll
  have hshaped : ∀ block ∈ (start.changeAll history).blocks, block.Shaped := by
    apply changeAll_induct shaped_becomes
    have hempty : start.blocks = [] := by
      unfold create at hstart
      split at hstart
      · cases hstart
      · cases hstart
        rfl
    simp [hempty]
  have hevolves : ∀ first, first <+: history →
      (start.changeAll first).Evolves (start.changeAll history) := by
    rintro first ⟨later, rfl⟩
    rw [changeAll, changeAll, List.foldl_append]
    exact .changeAll _ later
  refine ⟨(hc history).arena hshaped, ?_, ?_⟩
  · intro first hf
    refine ⟨hevolves first hf, ?_⟩
    intro b block x c other y hb hx ho hy hid
    exact (hevolves first hf).place_eq (hc first) (hc history) hb hx ho hy hid
  · intro b node fn i h
    obtain ⟨block, -, -, hr⟩ := append_eq_ok_iff.mp h
    cases hr
    refine ⟨slot_eq_ok_iff.mpr ⟨nth?_append_singleton.mpr (.inr ⟨rfl, rfl⟩), rfl⟩, ?_⟩
    intro first hf
    -- a slot of an earlier state would still be there, below the next free number
    cases hs : nth? (start.changeAll first).slots (start.changeAll history).slots.length with
    | none => rfl
    | some s =>
      obtain ⟨t, ht, -⟩ := hevolves first hf _ s hs
      simp at ht

/-- The negated square is taken out, then two changes are refused: a second removal of it and an
instruction behind a terminator. A payload is edited and a block added. -/
def countdownSequel : List Change := [
  .removeAll [6], .removeAll [6], .addPlain 1 "late" [], .edit 5 (.op "pow"), .addBlock "tail"]

theorem arena_countdown_sequel :
    ((changeAll ⟨0, "countdown", 1, 0, 0, [], []⟩ (countdownHistory ++ countdownSequel)).Arena ∧
      countdown.alive 6 = true ∧ (countdown.changeAll countdownSequel).alive 6 = false ∧
      countdown.Evolves (countdown.changeAll countdownSequel)) ∧
      ∃ fn, (countdown.changeAll countdownSequel).append 3 (.plain "one" []) = .ok (fn, 9) ∧
        fn.slot 9 = .ok ⟨3, .plain, true⟩ ∧ nth? countdown.slots 9 = none := by
  obtain ⟨ha, hevolves, hnew⟩ :=
    arena_of_history create_countdown (countdownHistory ++ countdownSequel)
  have hfirst : countdownHistory <+: countdownHistory ++ countdownSequel :=
    List.prefix_append _ _
  have hlater : changeAll ⟨0, "countdown", 1, 0, 0, [], []⟩ (countdownHistory ++ countdownSequel) =
      countdown.changeAll countdownSequel := List.foldl_append
  have happend : (countdown.changeAll countdownSequel).append 3 (.plain "one" []) =
      .ok ((countdown.changeAll countdownSequel).attach 3 (.plain "one" [])) := rfl
  rw [hlater] at hevolves hnew
  obtain ⟨hslot, hfresh⟩ := hnew 3 _ _ 9 happend
  exact ⟨⟨ha, by decide, by decide, (hevolves _ hfirst).1⟩, _, happend, hslot, hfresh _ hfirst⟩

end Func
end DeadCode
