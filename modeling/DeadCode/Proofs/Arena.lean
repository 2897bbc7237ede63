import DeadCode.Func.Change
import DeadCode.Func.WellFormed
import Mathlib.Data.List.Basic
import Mathlib.Data.List.Nodup

/-! # The arena of every function that was built

The directory and the blocks agree in the function without blocks, and every change keeps them in
agreement: a new instruction takes the next free number, a payload keeps its kind when it is edited,
and a removal empties the slots of exactly those instructions that leave their blocks. Hence in a
function that was built a number stands for at most one instruction.
-/
namespace DeadCode

def BasicBlock.without (block : BasicBlock) (ins : List Int) : BasicBlock :=
  { block with code := block.code.filter (·.id ∉ ins) }

theorem nth?_append_singleton {α : Type} {l : List α} {a c : α} {i : Int} :
    nth? (l ++ [a]) i = some c ↔ nth? l i = some c ∨ i = l.length ∧ c = a := by
  cases i with
  | negSucc n => simp [nth?]
  | ofNat n =>
    change (l ++ [a])[n]? = some c ↔ l[n]? = some c ∨ (n : Int) = l.length ∧ c = a
    rw [List.getElem?_append]
    split
    · next hn =>
      constructor
      · exact Or.inl
      · rintro (h | ⟨h, -⟩)
        · exact h
        · omega
    · next hn =>
      rw [List.getElem?_eq_none (by omega : l.length ≤ n), List.getElem?_singleton]
      split
      · simp only [Option.some.injEq, reduceCtorEq, false_or]
        exact ⟨fun h => ⟨by omega, h.symm⟩, fun h => h.2.symm⟩
      · simp only [reduceCtorEq, false_or, false_iff, not_and]
        omega

theorem nodup_eraseDups (l : List Int) : l.eraseDups.Nodup := by
  induction hn : l.length using Nat.strongRecOn generalizing l with
  | ind n ih =>
    cases l with
    | nil => simp
    | cons a rest =>
      rw [List.eraseDups_cons, List.nodup_cons]
      have hlen : (rest.filter fun b => !b == a).length < n := by
        have hle := List.length_filter_le (fun b => !b == a) rest
        simp only [List.length_cons] at hn
        omega
      refine ⟨?_, ih _ hlen _ rfl⟩
      rw [List.mem_eraseDups]
      simp

namespace Func
variable {fn : Func}

theorem mem_blocks_iff {block : BasicBlock} : block ∈ fn.blocks ↔ ∃ b, fn.block? b = some block := by
  constructor
  · intro h
    obtain ⟨n, hn⟩ := List.mem_iff_getElem?.mp h
    exact ⟨n, hn⟩
  · rintro ⟨b, hb⟩
    obtain ⟨n, -, hn⟩ := nth?_eq_some_iff.mp hb
    exact List.mem_iff_getElem?.mpr ⟨n, hn⟩

theorem mem_blocks {b : Int} {block : BasicBlock} (h : fn.block? b = some block) :
    block ∈ fn.blocks := mem_blocks_iff.mpr ⟨b, h⟩

theorem mem_blockIds_of_block? {b : Int} {block : BasicBlock} (h : fn.block? b = some block) :
    b ∈ fn.blockIds := mem_blockIds.mpr (hasBlock_iff.mpr (by simp [h]))

theorem mem_code_iff {x : Instr} :
    x ∈ fn.code ↔ ∃ b block, fn.block? b = some block ∧ x ∈ block.code := by
  simp only [code, List.mem_flatMap]
  constructor
  · rintro ⟨block, hblock, hx⟩
    obtain ⟨b, hb⟩ := mem_blocks_iff.mp hblock
    exact ⟨b, block, hb, hx⟩
  · rintro ⟨b, block, hb, hx⟩
    exact ⟨block, mem_blocks hb, hx⟩

theorem mem_code {b : Int} {block : BasicBlock} (hb : fn.block? b = some block) {x : Instr}
    (hx : x ∈ block.code) : x ∈ fn.code := mem_code_iff.mpr ⟨b, block, hb, hx⟩

theorem alive_eq_true_iff {i : Int} :
    fn.alive i = true ↔ ∃ s, nth? fn.slots i = some s ∧ s.alive = true := by
  unfold alive
  cases h : nth? fn.slots i with
  | none => simp
  | some s => simp

theorem slot_eq_ok_iff {i : Int} {s : Slot} :
    fn.slot i = .ok s ↔ nth? fn.slots i = some s ∧ s.alive = true := by
  unfold slot
  cases h : nth? fn.slots i with
  | none => simp
  | some t =>
    cases ha : t.alive with
    | false =>
      simp only [ha, Bool.false_eq_true, ↓reduceIte, reduceCtorEq, Option.some.injEq, false_iff, not_and]
      rintro rfl
      simp [ha]
    | true =>
      simp only [ha, ↓reduceIte, Except.ok.injEq, Option.some.injEq]
      constructor
      · rintro rfl
        exact ⟨rfl, ha⟩
      · exact And.left

namespace Consistent

theorem slot_eq (h : fn.Consistent) {b : Int} {block : BasicBlock} (hb : fn.block? b = some block)
    {x : Instr} (hx : x ∈ block.code) : fn.slot x.id = .ok ⟨b, x.kind, true⟩ :=
  slot_eq_ok_iff.mpr ⟨h.attached b block hb x hx, rfl⟩

theorem alive_iff (h : fn.Consistent) {i : Int} : fn.alive i = true ↔ ∃ x ∈ fn.code, x.id = i := by
  rw [alive_eq_true_iff]
  constructor
  · rintro ⟨s, hs, ha⟩
    obtain ⟨block, hb, x, hx, hi⟩ := h.placed i s hs ha
    exact ⟨x, mem_code hb hx, hi⟩
  · rintro ⟨x, hx, rfl⟩
    obtain ⟨b, block, hb, hx⟩ := mem_code_iff.mp hx
    exact ⟨_, h.attached b block hb x hx, rfl⟩

theorem lt_slots (h : fn.Consistent) {x : Instr} (hx : x ∈ fn.code) :
    0 ≤ x.id ∧ x.id < fn.slots.length := by
  obtain ⟨b, block, hb, hx⟩ := mem_code_iff.mp hx
  have hs := h.attached b block hb x hx
  exact (nth?_isSome_iff fn.slots x.id).mp (by simp [hs])

/-- An instruction number is attached at most once, and in one block only. -/
theorem eq_of_id (h : fn.Consistent) {b c : Int} {block other : BasicBlock}
    (hb : fn.block? b = some block) (hc : fn.block? c = some other) {x y : Instr}
    (hx : x ∈ block.code) (hy : y ∈ other.code) (hid : x.id = y.id) : b = c ∧ x = y := by
  have hsx := h.attached b block hb x hx
  have hsy := h.attached c other hc y hy
  rw [hid, hsy] at hsx
  obtain rfl : c = b := by
    injection hsx with hs
    injection hs
  obtain rfl : block = other := by
    rw [hb] at hc
    exact Option.some.inj hc
  refine ⟨rfl, ?_⟩
  have hp := h.increasing block (mem_blocks hb)
  have hn : (block.code.map (·.id)).Nodup := hp.imp fun hlt => Int.ne_of_lt hlt
  exact List.inj_on_of_nodup_map hn hx hy hid

theorem eq_of_mem_code (h : fn.Consistent) {x y : Instr} (hx : x ∈ fn.code) (hy : y ∈ fn.code)
    (hid : x.id = y.id) : x = y := by
  obtain ⟨b, block, hb, hx⟩ := mem_code_iff.mp hx
  obtain ⟨c, other, hc, hy⟩ := mem_code_iff.mp hy
  exact (h.eq_of_id hb hc hx hy hid).2

theorem nodup_ids (h : fn.Consistent) : (fn.code.map (·.id)).Nodup := by
  rw [code, List.map_flatMap]
  refine List.nodup_flatMap.mpr ⟨?_, ?_⟩
  · intro block hblock
    exact (h.increasing block hblock).imp fun hlt => Int.ne_of_lt hlt
  · -- two blocks at different positions share no number, since a slot names one block
    refine List.pairwise_iff_getElem.mpr ?_
    intro m n hm hn hmn
    have hbm : fn.block? (m : Int) = some fn.blocks[m] := List.getElem?_eq_getElem hm
    have hbn : fn.block? (n : Int) = some fn.blocks[n] := List.getElem?_eq_getElem hn
    intro i him hin
    obtain ⟨x, hx, rfl⟩ := List.mem_map.mp him
    obtain ⟨y, hy, hid⟩ := List.mem_map.mp hin
    have he := (h.eq_of_id hbm hbn hx hy hid.symm).1
    omega

end Consistent

theorem consistent_create {id : Nat} {name : String} {argCount : Int}
    (h : create id name argCount = .ok fn) : fn.Consistent := by
  unfold create at h
  split at h
  · cases h
  · cases h
    exact ⟨by simp [block?, nth?_eq_some_iff], by simp [nth?_eq_some_iff], by simp, rfl⟩

namespace Consistent

theorem addBlock (h : fn.Consistent) (name : String) : (fn.addBlock name).1.Consistent := by
  have hblock : ∀ {b block}, (fn.addBlock name).1.block? b = some block →
      fn.block? b = some block ∨ block.code = [] := by
    intro b block hb
    rcases nth?_append_singleton.mp hb with hb | ⟨-, rfl⟩
    · exact .inl hb
    · exact .inr rfl
  constructor
  · intro b block hb x hx
    rcases hblock hb with hb | he
    · exact h.attached b block hb x hx
    · simp [he] at hx
  · intro i s hs ha
    obtain ⟨block, hb, hx⟩ := h.placed i s hs ha
    exact ⟨block, nth?_append_singleton.mpr (.inl hb), hx⟩
  · intro block hmem
    obtain ⟨b, hb⟩ := mem_blocks_iff.mp hmem
    rcases hblock hb with hb | he
    · exact h.increasing block (mem_blocks hb)
    · simp [he]
  · have hs := h.size_eq
    simpa [Func.addBlock, code] using hs

theorem block?_attach {b : Int} {node : Node} {c : Int} {block : BasicBlock}
    (hc : (fn.attach b node).1.block? c = some block) :
    ∃ old, fn.block? c = some old ∧
      (block = old ∨ c = b ∧ block.code = old.code ++ [⟨fn.slots.length, node⟩]) := by
  simp only [Func.attach, block?, nth?_modifyNth] at hc
  split at hc
  · next hbc =>
    obtain ⟨old, ho, rfl⟩ := Option.map_eq_some_iff.mp hc
    exact ⟨old, ho, .inr ⟨hbc.symm, rfl⟩⟩
  · exact ⟨block, hc, .inl rfl⟩

theorem length_code_attach {b : Int} {block : BasicBlock} (hb : fn.block? b = some block)
    (node : Node) : (fn.attach b node).1.code.length = fn.code.length + 1 := by
  obtain ⟨n, rfl, hn⟩ := nth?_eq_some_iff.mp hb
  obtain ⟨hlt, rfl⟩ := List.getElem?_eq_some_iff.mp hn
  simp only [Func.attach, code, modifyNth_natCast, List.modify_eq_take_cons_drop hlt]
  conv_rhs => rw [← List.take_append_drop n fn.blocks, List.drop_eq_getElem_cons hlt]
  simp only [List.flatMap_append, List.flatMap_cons, List.length_append, List.length_cons,
    List.length_nil]
  omega

theorem attach (h : fn.Consistent) {b : Int} {block : BasicBlock} (hb : fn.block? b = some block)
    (node : Node) : (fn.attach b node).1.Consistent := by
  constructor
  · intro c other hc x hx
    obtain ⟨old, ho, he⟩ := block?_attach hc
    have hold : x ∈ old.code → nth? (fn.slots ++ [⟨b, node.kind, true⟩]) x.id =
        some ⟨c, x.kind, true⟩ := fun hx =>
      nth?_append_singleton.mpr (.inl (h.attached c old ho x hx))
    rcases he with rfl | ⟨rfl, he⟩
    · exact hold hx
    · rw [he] at hx
      rcases List.mem_append.mp hx with hx | hx
      · exact hold hx
      · obtain rfl := List.mem_singleton.mp hx
        exact nth?_append_singleton.mpr (.inr ⟨rfl, rfl⟩)
  · intro i s hs ha
    have hnew : ∀ {c old}, fn.block? c = some old → ∃ other,
        (fn.attach b node).1.block? c = some other ∧ old.code ⊆ other.code ∧
          (c = b → ⟨fn.slots.length, node⟩ ∈ other.code) := by
      intro c old ho
      simp only [Func.attach, block?, nth?_modifyNth]
      split
      · next hbc =>
        change nth? fn.blocks c = some old at ho
        rw [ho]
        exact ⟨_, rfl, by simp, by simp⟩
      · next hbc => exact ⟨old, ho, List.Subset.refl _, fun e => absurd e.symm hbc⟩
    rcases nth?_append_singleton.mp hs with hs | ⟨rfl, rfl⟩
    · obtain ⟨old, ho, x, hx, hid⟩ := h.placed i s hs ha
      obtain ⟨other, hc, hsub, -⟩ := hnew ho
      exact ⟨other, hc, x, hsub hx, hid⟩
    · obtain ⟨other, hc, -, hmem⟩ := hnew hb
      exact ⟨other, hc, _, hmem rfl, rfl⟩
  · intro other hmem
    obtain ⟨c, hc⟩ := mem_blocks_iff.mp hmem
    obtain ⟨old, ho, he⟩ := block?_attach hc
    have hinc := h.increasing old (mem_blocks ho)
    rcases he with rfl | ⟨-, he⟩
    · exact hinc
    · rw [he, List.map_append, List.pairwise_append]
      refine ⟨hinc, by simp, ?_⟩
      intro i hi j hj
      obtain ⟨x, hx, rfl⟩ := List.mem_map.mp hi
      obtain rfl := List.mem_singleton.mp hj
      exact (h.lt_slots (mem_code ho hx)).2
  · rw [length_code_attach hb, ← h.size_eq]
    rfl

/-- An edited payload keeps its kind, so the directory still describes it. -/
theorem modifyNode (h : fn.Consistent) (i : Int) {f : Node → Node}
    (hf : ∀ node, (f node).kind = node.kind) : (fn.modifyNode i f).Consistent := by
  let edited := fun x : Instr => if x.id = i then { x with node := f x.node } else x
  have hid : ∀ x, (edited x).id = x.id := by
    intro x
    simp only [edited]
    split <;> rfl
  have hkind : ∀ x, (edited x).kind = x.kind := by
    intro x
    simp only [edited, Instr.kind]
    split
    · exact hf x.node
    · rfl
  have hids : ∀ code : List Instr, (code.map edited).map (·.id) = code.map (·.id) := by
    intro code
    simp [hid]
  have hblock : ∀ b, (fn.modifyNode i f).block? b =
      (fn.block? b).map fun block => { block with code := block.code.map edited } := by
    intro b
    cases b with
    | ofNat n => exact List.getElem?_map
    | negSucc n => rfl
  constructor
  · intro b block hb x hx
    rw [hblock] at hb
    obtain ⟨old, ho, rfl⟩ := Option.map_eq_some_iff.mp hb
    obtain ⟨y, hy, rfl⟩ := List.mem_map.mp hx
    rw [hid, hkind]
    exact h.attached b old ho y hy
  · intro j s hs ha
    obtain ⟨old, ho, x, hx, hj⟩ := h.placed j s hs ha
    refine ⟨{ old with code := old.code.map edited }, ?_, edited x, List.mem_map_of_mem hx, ?_⟩
    · rw [hblock, ho]
      rfl
    · rw [hid, hj]
  · intro block hmem
    obtain ⟨old, ho, rfl⟩ := List.mem_map.mp hmem
    have hinc := h.increasing old ho
    rwa [← hids] at hinc
  · have hs := h.size_eq
    simpa [Func.modifyNode, code, List.flatMap_map, List.length_flatMap] using hs

end Consistent

theorem block?_without (ins : List Int) (b : Int) :
    (fn.without ins).block? b = (fn.block? b).map (·.without ins) := by
  cases b with
  | ofNat n => exact List.getElem?_map
  | negSucc n => rfl

theorem code_without (ins : List Int) :
    (fn.without ins).code = fn.code.filter (·.id ∉ ins) := by
  simp only [code, without, List.flatMap_map, List.filter_flatMap]

theorem mem_code_without {ins : List Int} {x : Instr} :
    x ∈ (fn.without ins).code ↔ x ∈ fn.code ∧ x.id ∉ ins := by
  simp [code_without]

theorem slots_without (ins : List Int) (i : Int) :
    nth? (fn.without ins).slots i =
      (nth? fn.slots i).map fun s => if i ∈ ins then { s with alive := false } else s := by
  cases i with
  | ofNat n => exact List.getElem?_mapIdx
  | negSucc n => rfl

theorem alive_without {ins : List Int} {i : Int} :
    (fn.without ins).alive i = true ↔ fn.alive i = true ∧ i ∉ ins := by
  unfold alive
  rw [slots_without]
  cases nth? fn.slots i with
  | none => simp
  | some s =>
    by_cases hi : i ∈ ins
    · simp [hi]
    · simp [hi]

namespace Consistent

theorem length_eraseDups (h : fn.Consistent) {ins : List Int}
    (hins : ∀ i ∈ ins, fn.alive i = true) :
    ins.eraseDups.length = (fn.code.filter (·.id ∈ ins)).length := by
  have hgone : ((fn.code.filter (·.id ∈ ins)).map (·.id)).Nodup :=
    h.nodup_ids.sublist (List.filter_sublist.map _)
  have hp : ins.eraseDups.Perm ((fn.code.filter (·.id ∈ ins)).map (·.id)) := by
    refine (List.perm_ext_iff_of_nodup (nodup_eraseDups ins) hgone).mpr ?_
    intro i
    simp only [List.mem_eraseDups, List.mem_map, List.mem_filter, decide_eq_true_eq]
    constructor
    · intro hi
      obtain ⟨x, hx, rfl⟩ := h.alive_iff.mp (hins i hi)
      exact ⟨x, ⟨hx, hi⟩, rfl⟩
    · rintro ⟨x, ⟨-, hi⟩, rfl⟩
      exact hi
  rw [hp.length_eq, List.length_map]

theorem without (h : fn.Consistent) {ins : List Int} (hins : ∀ i ∈ ins, fn.alive i = true) :
    (fn.without ins).Consistent := by
  constructor
  · intro b block hb x hx
    rw [block?_without] at hb
    obtain ⟨old, ho, rfl⟩ := Option.map_eq_some_iff.mp hb
    obtain ⟨hx, hi⟩ := List.mem_filter.mp hx
    rw [slots_without, h.attached b old ho x hx]
    simp only [decide_eq_true_eq] at hi
    simp [hi]
  · intro i s hs ha
    rw [slots_without] at hs
    obtain ⟨t, ht, hs⟩ := Option.map_eq_some_iff.mp hs
    by_cases hi : i ∈ ins
    · simp only [hi, ↓reduceIte] at hs
      subst hs
      cases ha
    · simp only [hi, ↓reduceIte] at hs
      subst hs
      obtain ⟨old, ho, x, hx, rfl⟩ := h.placed i t ht ha
      refine ⟨old.without ins, ?_, x, ?_, rfl⟩
      · rw [block?_without, ho]
        rfl
      · exact List.mem_filter.mpr ⟨hx, by simpa using hi⟩
  · intro block hmem
    obtain ⟨old, ho, rfl⟩ := List.mem_map.mp hmem
    exact (h.increasing old ho).sublist (List.filter_sublist.map _)
  · have hsplit := List.length_eq_length_filter_add (l := fn.code) fun x => decide (x.id ∈ ins)
    have hgone := h.length_eraseDups hins
    have hsize := h.size_eq
    have hkept : (fn.without ins).code.length =
        (fn.code.filter fun x => !decide (x.id ∈ ins)).length := by
      simp [code_without]
    change fn.size - ins.eraseDups.length = _
    omega

end Consistent

/-- All the functions that one change can make of a function. -/
inductive Becomes (fn : Func) : Func → Prop
  | same : fn.Becomes fn
  | block (name : String) : fn.Becomes (fn.addBlock name).1
  | instr {b : Int} {block : BasicBlock} {node : Node} (hb : fn.block? b = some block)
      (hf : fn.appendFault? b block node = none) : fn.Becomes (fn.attach b node).1
  | payload (i : Int) {f : Node → Node} (hf : ∀ node, (f node).kind = node.kind) (epoch : UInt64) :
      fn.Becomes { fn.modifyNode i f with epoch }
  | fewer {ins : List Int} (hins : ∀ i ∈ ins, fn.alive i = true) : fn.Becomes (fn.without ins)

theorem append_eq_ok_iff {b : Int} {node : Node} {r : Func × Int} :
    fn.append b node = .ok r ↔ ∃ block, fn.block? b = some block ∧
      fn.appendFault? b block node = none ∧ r = fn.attach b node := by
  unfold append block
  cases hb : fn.block? b with
  | none => simp
  | some block =>
    cases hf : fn.appendFault? b block node with
    | some m => simp [hf]
    | none => simp [hf, eq_comm]

theorem of_map_append_eq_ok {b : Int} {node : Node} {rest : Func}
    (hr : (fn.append b node).map (·.1) = .ok rest) :
    ∃ block, fn.block? b = some block ∧ fn.appendFault? b block node = none ∧
      rest = (fn.attach b node).1 := by
  cases ha : fn.append b node with
  | error m =>
    rw [ha] at hr
    cases hr
  | ok r =>
    rw [ha] at hr
    obtain ⟨block, hb, hf, rfl⟩ := append_eq_ok_iff.mp ha
    exact ⟨block, hb, hf, (Except.ok.inj hr).symm⟩

def withEdge (fn : Func) (i : Int) (e : Edge) : Func :=
  { fn.modifyNode i fun node => node.patch (.edges (node.edges ++ [e])) with epoch := fn.epoch + 1 }

theorem of_addEdge_eq_ok {merge : Value} {e : Edge} {rest : Func}
    (hr : fn.addEdge merge e = .ok rest) :
    ∃ i s, fn.slot i = .ok s ∧ s.kind = .merge ∧ rest = fn.withEdge i e := by
  unfold Func.addEdge at hr
  cases merge with
  | absent => cases hr
  | arg owner i => cases hr
  | const owner n => cases hr
  | instr owner i =>
    dsimp only at hr
    by_cases ho : owner ≠ fn.id
    · simp [ho] at hr
    · cases hs : fn.slot i with
      | error m => simp [ho, hs] at hr
      | ok s =>
        by_cases hk : s.kind ≠ .merge
        · simp [ho, hs, hk] at hr
        · simp only [ho, hs, hk, ↓reduceIte, Except.ok.injEq] at hr
          exact ⟨i, s, hs, not_not.mp hk, hr.symm⟩

namespace Becomes
variable {rest : Func}

theorem append {b : Int} {node : Node}
    (hr : (fn.append b node).map (·.1) = .ok rest) : fn.Becomes rest := by
  obtain ⟨block, hb, hf, rfl⟩ := of_map_append_eq_ok hr
  exact .instr hb hf

theorem addEdge {merge : Value} {e : Edge} (hr : fn.addEdge merge e = .ok rest) :
    fn.Becomes rest := by
  obtain ⟨i, s, -, -, rfl⟩ := of_addEdge_eq_ok hr
  exact .payload i (fun node => Node.kind_patch _ node) _

theorem edit {i : Int} {p : Node.Patch} (hr : fn.edit i p = .ok rest) : fn.Becomes rest := by
  unfold Func.edit at hr
  cases hs : fn.slot i with
  | error m => simp [hs] at hr
  | ok s =>
    simp only [hs, Except.ok.injEq] at hr
    subst hr
    exact .payload i (Node.kind_patch p) fn.epoch

theorem removeAll {ins : List Int} (hr : fn.removeAll ins = .ok rest) : fn.Becomes rest := by
  unfold Func.removeAll at hr
  cases hf : ins.findSome? fn.removalFault? with
  | some m => simp [hf] at hr
  | none =>
    have hins : ∀ i ∈ ins, fn.alive i = true := by
      intro i hi
      have hn := List.findSome?_eq_none_iff.mp hf i hi
      unfold removalFault? at hn
      cases hs : fn.slot i with
      | error m => simp [hs] at hn
      | ok s => exact alive_eq_true_iff.mpr ⟨s, slot_eq_ok_iff.mp hs⟩
    simp only [hf] at hr
    split at hr
    · cases hr
      exact .same
    · cases hc : fn.code.findSome? (fn.clashAt? ins) with
      | some m => simp [hc] at hr
      | none =>
        simp only [hc, Except.ok.injEq] at hr
        subst hr
        exact .fewer hins

end Becomes

theorem becomes_change (fn : Func) (c : Change) : fn.Becomes (fn.change c) := by
  unfold change
  cases hc : fn.change? c with
  | error m => exact .same
  | ok rest =>
    cases c with
    | addBlock name =>
      cases hc
      exact .block name
    | addPlain b op args => exact .append hc
    | addMerge b edges => exact .append hc
    | addEdge merge e => exact .addEdge hc
    | addTerminator b op cond args succ => exact .append hc
    | removeAll ins => exact .removeAll hc
    | edit i p => exact .edit hc

/-- A property that every single change keeps is kept by a whole history. -/
theorem changeAll_induct {motive : Func → Prop}
    (hstep : ∀ {fn rest}, fn.Becomes rest → motive fn → motive rest) (h : motive fn)
    (cs : List Change) : motive (fn.changeAll cs) := by
  induction cs generalizing fn with
  | nil => exact h
  | cons c rest ih => exact ih (hstep (becomes_change fn c) h)

namespace Consistent

theorem becomes {rest : Func} (hr : fn.Becomes rest) (h : fn.Consistent) : rest.Consistent := by
  cases hr with
  | same => exact h
  | block name => exact h.addBlock name
  | instr hb hf => exact h.attach hb _
  | payload i hf epoch =>
    have hm := h.modifyNode i hf
    exact ⟨hm.attached, hm.placed, hm.increasing, hm.size_eq⟩
  | fewer hins => exact h.without hins

/-- Every function that was built is consistent, whatever its history. -/
theorem changeAll (h : fn.Consistent) (cs : List Change) : (fn.changeAll cs).Consistent :=
  changeAll_induct becomes h cs

end Consistent
end Func
end DeadCode
