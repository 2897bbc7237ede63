import DeadCode.Proofs.History
import DeadCode.Proofs.Removal
import Mathlib.Algebra.Order.BigOperators.Group.List

/-! # Changes that the epoch counts

Every change that succeeds moves the epoch by one, edits in place apart. A block is never taken
away, a terminator cannot be removed, and nothing goes behind it. So a function whose blocks all
have their terminator never comes back to the blocks it had: it gains a block, or loses an
instruction for good, or one of its merges gains an edge.
-/
namespace DeadCode

theorem Node.length_edges_patch (node : Node) (e : Edge) :
    (node.patch (.edges (node.edges ++ [e]))).edges.length =
      node.edges.length + if node.kind = .merge then 1 else 0 := by
  cases node <;> simp [edges, patch, kind]

namespace Func
variable {fn mid rest later : Func} {n : Nat}

inductive Mutates (fn : Func) : Func → Prop
  | block (name : String) : fn.Mutates (fn.addBlock name).1
  | instr {b : Int} {block : BasicBlock} {node : Node} (hb : fn.block? b = some block)
      (hf : fn.appendFault? b block node = none) : fn.Mutates (fn.attach b node).1
  | edge {x : Instr} (hx : x ∈ fn.code) (hk : x.kind = .merge) (e : Edge) :
      fn.Mutates (fn.withEdge x.id e)
  | fewer {ins : List Int} (hne : ins ≠ []) (hr : fn.Removable ins) : fn.Mutates (fn.without ins)

/-- Every accepted change is counted by the epoch, except edits in place and removals of nothing. -/
theorem mutates_of_change? (hc : fn.Consistent) {c : Change} (hr : fn.change? c = .ok rest)
    (hne : c ≠ .removeAll []) (hplain : ∀ i p, c ≠ .edit i p) : fn.Mutates rest := by
  have happend : ∀ {b node}, (fn.append b node).map (·.1) = .ok rest → fn.Mutates rest := by
    intro b node ha
    obtain ⟨block, hb, hf, rfl⟩ := of_map_append_eq_ok ha
    exact .instr hb hf
  cases c with
  | addBlock name =>
    cases hr
    exact .block name
  | addPlain b op args => exact happend hr
  | addMerge b edges => exact happend hr
  | addTerminator b op cond args succ => exact happend hr
  | addEdge merge e =>
    obtain ⟨i, s, hs, hk, rfl⟩ := of_addEdge_eq_ok hr
    obtain ⟨hs, ha⟩ := slot_eq_ok_iff.mp hs
    obtain ⟨block, hb, x, hx, rfl⟩ := hc.placed i s hs ha
    refine .edge (mem_code hb hx) ?_ e
    rw [hc.attached _ _ hb x hx] at hs
    rw [← hk, ← Option.some.inj hs]
  | removeAll ins =>
    have hins : ins ≠ [] := fun he => hne (congrArg Change.removeAll he)
    obtain ⟨hrem, rfl⟩ := (removeAll_eq_ok_iff hc).mp hr
    rw [if_neg hins]
    exact .fewer hins hrem
  | edit i p => exact absurd rfl (hplain i p)

namespace Mutates

theorem becomes (h : fn.Mutates rest) (hc : fn.Consistent) : fn.Becomes rest := by
  cases h with
  | block name => exact .block name
  | instr hb hf => exact .instr hb hf
  | edge hx hk e => exact .payload _ (fun node => Node.kind_patch _ node) _
  | fewer hne hr => exact .fewer fun i hi => hr.alive hc hi

theorem epoch_eq (h : fn.Mutates rest) : rest.epoch = fn.epoch + 1 := by
  cases h <;> rfl

theorem length_blocks_le (h : fn.Mutates rest) : fn.blocks.length ≤ rest.blocks.length := by
  cases h with
  | block name => simp [addBlock]
  | instr hb hf => simp [attach]
  | edge hx hk e => simp [withEdge, modifyNode]
  | fewer hne hr => simp [without]

end Mutates

def Sealed (fn : Func) : Prop :=
  ∀ block ∈ fn.blocks, ∃ before last, block.code = before ++ [last] ∧ last.kind = .terminator

theorem WellFormed.sealed (hw : fn.WellFormed) : fn.Sealed := by
  intro block hblock
  obtain ⟨before, last, he, hk, -⟩ := hw.ended block hblock
  exact ⟨before, last, he, hk⟩

namespace Sealed

theorem appendFault?_ne_none (hs : fn.Sealed) {b : Int} {block : BasicBlock} {node : Node}
    (hb : fn.block? b = some block) : fn.appendFault? b block node ≠ none := by
  intro hf
  obtain ⟨before, last, he, hk⟩ := hs block (mem_blocks hb)
  exact (getLast?_of_appendFault? hf (by simp [he])).1 hk

theorem withEdge (hs : fn.Sealed) (i : Int) (e : Edge) : (fn.withEdge i e).Sealed := by
  intro block hblock
  obtain ⟨old, ho, rfl⟩ := List.mem_map.mp hblock
  obtain ⟨before, last, he, hk⟩ := hs old ho
  refine ⟨_, _, by rw [he, List.map_append, List.map_singleton], ?_⟩
  rw [← hk]
  unfold Instr.kind
  split
  · exact Node.kind_patch _ _
  · rfl

theorem without (hs : fn.Sealed) (hc : fn.Consistent) {ins : List Int} (hr : fn.Removable ins) :
    (fn.without ins).Sealed := by
  intro block hblock
  obtain ⟨old, ho, rfl⟩ := List.mem_map.mp hblock
  obtain ⟨before, last, he, hk⟩ := hs old ho
  obtain ⟨b, hb⟩ := mem_blocks_iff.mp ho
  have hstay := hr.id_notMem hc (mem_code hb (by simp [he])) hk
  exact ⟨before.filter (·.id ∉ ins), last, by simp [he, List.filter_append, hstay], hk⟩

end Sealed

def edgeCount (fn : Func) : Nat := (fn.code.map (·.node.edges.length)).sum

theorem code_withEdge (i : Int) (e : Edge) :
    (fn.withEdge i e).code = fn.code.map fun x =>
      if x.id = i then { x with node := x.node.patch (.edges (x.node.edges ++ [e])) } else x := by
  simp only [withEdge, modifyNode, code, List.flatMap_map, List.map_flatMap]

theorem edgeCount_lt_withEdge {x : Instr} (hx : x ∈ fn.code) (hk : x.kind = .merge) (e : Edge) :
    fn.edgeCount < (fn.withEdge x.id e).edgeCount := by
  rw [edgeCount, edgeCount, code_withEdge, List.map_map]
  apply List.sum_lt_sum
  · intro y _
    dsimp only [Function.comp_apply]
    split
    · rw [Node.length_edges_patch]
      omega
    · exact Nat.le_refl _
  · refine ⟨x, hx, ?_⟩
    have hnode : x.node.kind = .merge := hk
    rw [Function.comp_apply, if_pos rfl, Node.length_edges_patch, if_pos hnode]
    omega

/-- The later function has more blocks; or its blocks are as many and all have their terminator, but
an instruction is gone or an edge has come. -/
def Outgrows (fn later : Func) : Prop :=
  fn.blocks.length < later.blocks.length ∨
    later.Sealed ∧ fn.blocks.length = later.blocks.length ∧
      (later.code.length < fn.code.length ∨
        later.code.length = fn.code.length ∧ fn.edgeCount < later.edgeCount)

theorem Sealed.outgrows (hs : fn.Sealed) (hc : fn.Consistent) (h : fn.Mutates rest) :
    fn.Outgrows rest := by
  cases h with
  | block name => exact .inl (by simp [addBlock])
  | instr hb hf => exact absurd hf (hs.appendFault?_ne_none hb)
  | edge hx hk e =>
    refine .inr ⟨hs.withEdge _ e, by simp [Func.withEdge, modifyNode], .inr ⟨?_, ?_⟩⟩
    · rw [code_withEdge, List.length_map]
    · exact edgeCount_lt_withEdge hx hk e
  | fewer hne hr =>
    exact .inr ⟨hs.without hc hr, by simp [Func.without], .inl (hr.length_code_without hne)⟩

namespace Outgrows

theorem trans (h : fn.Outgrows mid) (h' : mid.Outgrows later) : fn.Outgrows later := by
  rcases h' with hlt | ⟨hs, hlen, h'⟩
  · rcases h with h | ⟨-, h, -⟩
    · exact .inl (by omega)
    · exact .inl (by omega)
  · rcases h with h | ⟨-, h, h''⟩
    · exact .inl (by omega)
    · exact .inr ⟨hs, by omega, by omega⟩

/-- One more counted change keeps the order. -/
theorem step (h : fn.Outgrows mid) (hc : mid.Consistent) (hm : mid.Mutates rest) :
    fn.Outgrows rest := by
  rcases h with hlt | h
  · exact .inl (hlt.trans_le hm.length_blocks_le)
  · exact trans (.inr h) (h.1.outgrows hc hm)

theorem blocks_ne (h : fn.Outgrows later) : later.blocks ≠ fn.blocks := by
  intro he
  have hcode : later.code = fn.code := by rw [code, code, he]
  simp only [Outgrows, edgeCount, he, hcode] at h
  omega

end Outgrows

/-- The second function is got from the first by this number of counted changes. -/
inductive MutatesIn (fn : Func) : Nat → Func → Prop
  | none : fn.MutatesIn 0 fn
  | step {n : Nat} {mid rest : Func} : fn.MutatesIn n mid → mid.Mutates rest →
      fn.MutatesIn (n + 1) rest

namespace MutatesIn

theorem trans {m : Nat} (h : fn.MutatesIn m mid) (h' : mid.MutatesIn n later) :
    fn.MutatesIn (m + n) later := by
  induction h' with
  | none => exact h
  | step _ hm ih => exact .step ih hm

theorem consistent (h : fn.MutatesIn n later) (hc : fn.Consistent) : later.Consistent := by
  induction h with
  | none => exact hc
  | step _ hm ih => exact ih.becomes (hm.becomes ih)

theorem epoch_eq (h : fn.MutatesIn n later) : later.epoch = fn.epoch + UInt64.ofNat n := by
  induction h with
  | none => simp
  | step _ hm ih =>
    rw [hm.epoch_eq, ih, UInt64.ofNat_add, ← UInt64.add_assoc]
    rfl

theorem eq_of_eq_zero (h : fn.MutatesIn n later) (hn : n = 0) : later = fn := by
  cases h with
  | none => rfl
  | step _ _ => cases hn

/-- If the epoch is the same and has not wrapped around, then nothing has changed. -/
theorem eq_zero_of_epoch_eq (h : fn.MutatesIn n later) (hn : n < 2 ^ 64)
    (he : later.epoch = fn.epoch) : n = 0 := by
  rw [h.epoch_eq, UInt64.add_eq_left] at he
  have hzero := congrArg UInt64.toNat he
  rwa [UInt64.toNat_ofNat', Nat.mod_eq_of_lt hn] at hzero

theorem eq_or_outgrows (h : fn.MutatesIn n later) (hs : fn.Sealed) (hc : fn.Consistent) :
    later = fn ∨ fn.Outgrows later := by
  induction h with
  | none => exact .inl rfl
  | step hto hm ih =>
    rcases ih with rfl | ho
    · exact .inr (hs.outgrows hc hm)
    · exact .inr (ho.step (hto.consistent hc) hm)

theorem eq_of_blocks_eq (h : fn.MutatesIn n later) (hs : fn.Sealed) (hc : fn.Consistent)
    (he : later.blocks = fn.blocks) : later = fn := by
  rcases h.eq_or_outgrows hs hc with heq | ho
  · exact heq
  · exact absurd he ho.blocks_ne

end MutatesIn
end Func
end DeadCode
