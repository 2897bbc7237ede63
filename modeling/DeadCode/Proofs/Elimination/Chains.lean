import DeadCode.Proofs.Elimination.Course
import DeadCode.Proofs.Liveness.Unused
import Mathlib.Data.Nat.SuccPred
import Mathlib.Order.SuccPred.Archimedean

/-! # Chains of users

Which instructions go, and when, can be read off the chains in which each instruction is used by the
next one. The instructions without a user are the ends of chains; taking them all out makes every
chain from an instruction that can go shorter by one.
-/
namespace DeadCode
namespace Func
variable {fn : Func} {ins : List Int} {i : Int}

def IsTerminator (fn : Func) (i : Int) : Prop := ∃ x ∈ fn.code, x.id = i ∧ x.kind = .terminator

/-- No chain of users from `i` reaches a terminator or comes back to one of its instructions. -/
def Expendable (fn : Func) (i : Int) : Prop :=
  ∀ c, (i :: c).IsChain fn.UsedBy → (i :: c).Nodup ∧ ∀ j ∈ i :: c, ¬ fn.IsTerminator j

def chainSizes (fn : Func) (i : Int) : Set Nat :=
  {n | ∃ c, (i :: c).IsChain fn.UsedBy ∧ (i :: c).length = n}

/-- Instruction `i` is expendable, and its longest chain of users has `k` instructions. -/
structure FallsIn (fn : Func) (k : Nat) (i : Int) : Prop where
  alive : fn.alive i = true
  expendable : fn.Expendable i
  longest : IsGreatest (fn.chainSizes i) k

theorem exists_mem_code_without_iff {P : Instr → Prop} :
    (∃ x ∈ (fn.without ins).code, x.id = i ∧ P x) ↔
      (∃ x ∈ fn.code, x.id = i ∧ P x) ∧ i ∉ ins := by
  constructor
  · rintro ⟨x, hx, rfl, hP⟩
    obtain ⟨hx, hstay⟩ := mem_code_without.mp hx
    exact ⟨⟨x, hx, rfl, hP⟩, hstay⟩
  · rintro ⟨⟨x, hx, rfl, hP⟩, hstay⟩
    exact ⟨x, mem_code_without.mpr ⟨hx, hstay⟩, rfl, hP⟩

theorem usedBy_without {user : Int} :
    (fn.without ins).UsedBy i user ↔ fn.UsedBy i user ∧ user ∉ ins := exists_mem_code_without_iff

theorem isTerminator_without :
    (fn.without ins).IsTerminator i ↔ fn.IsTerminator i ∧ i ∉ ins := exists_mem_code_without_iff

theorem isChain_without {c : List Int} :
    (i :: c).IsChain (fn.without ins).UsedBy ↔
      (i :: c).IsChain fn.UsedBy ∧ ∀ j ∈ c, j ∉ ins := by
  induction c generalizing i with
  | nil => simp
  | cons u rest ih =>
    rw [List.isChain_cons_cons, List.isChain_cons_cons, ih, usedBy_without, List.forall_mem_cons]
    tauto

theorem Consistent.alive_of_mem_chain (hc : fn.Consistent) {c : List Int}
    (hi : fn.alive i = true) (h : (i :: c).IsChain fn.UsedBy) : ∀ j ∈ i :: c, fn.alive j = true := by
  induction c generalizing i with
  | nil => simpa using hi
  | cons u rest ih =>
    obtain ⟨⟨x, hx, hid, -⟩, hrest⟩ := List.isChain_cons_cons.mp h
    rw [List.forall_mem_cons]
    exact ⟨hi, ih (hc.alive_iff.mpr ⟨x, hx, hid⟩) hrest⟩

theorem exists_user_of_isChain {l : List Int} {e j : Int} (h : (l ++ [e]).IsChain fn.UsedBy)
    (hj : j ∈ l) : ∃ user, fn.UsedBy j user := by
  obtain ⟨front, back, rfl⟩ := List.append_of_mem hj
  rw [List.append_assoc, List.cons_append] at h
  cases back with
  | nil => exact ⟨e, (List.isChain_append_cons_cons.mp h).2.1⟩
  | cons user rest => exact ⟨user, (List.isChain_append_cons_cons.mp h).2.1⟩

theorem WellFormed.mem_unused_iff (hw : fn.WellFormed) (hc : fn.Consistent) :
    i ∈ fn.unused ↔
      fn.alive i = true ∧ ¬ fn.IsTerminator i ∧ ∀ user, ¬ fn.UsedBy i user := by
  rw [hw.mem_unused, hc.alive_iff]
  constructor
  · rintro ⟨⟨x, hx, rfl, hk⟩, huse⟩
    refine ⟨⟨x, hx, rfl⟩, ?_, huse⟩
    rintro ⟨y, hy, hid, hyk⟩
    exact hk (hc.eq_of_mem_code hy hx hid ▸ hyk)
  · rintro ⟨⟨x, hx, rfl⟩, hterm, huse⟩
    exact ⟨⟨x, hx, rfl, fun hk => hterm ⟨x, hx, rfl, hk⟩⟩, huse⟩

def pruned (fn : Func) : Func := fn.without fn.unused

/-- Pruning cuts off at most the last instruction of a chain. -/
theorem WellFormed.shorten (hw : fn.WellFormed) (hc : fn.Consistent) {c : List Int}
    (h : (i :: c).IsChain fn.UsedBy) :
    ∃ c', (i :: c').IsChain fn.pruned.UsedBy ∧ (c = c' ∨ ∃ d ∈ fn.unused, c = c' ++ [d]) := by
  rcases List.eq_nil_or_concat c with rfl | ⟨front, e, rfl⟩
  · exact ⟨[], .singleton i, .inl rfl⟩
  · rw [List.concat_eq_append] at h ⊢
    have hfront : ∀ j ∈ front, j ∉ fn.unused := by
      intro j hj hdead
      obtain ⟨user, hu⟩ := exists_user_of_isChain (l := i :: front) h (List.mem_cons_of_mem i hj)
      exact ((hw.mem_unused_iff hc).mp hdead).2.2 user hu
    by_cases he : e ∈ fn.unused
    · have hshort : (i :: front).IsChain fn.UsedBy := by
        rw [← List.cons_append] at h
        exact h.left_of_append
      exact ⟨front, isChain_without.mpr ⟨hshort, hfront⟩, .inr ⟨e, he, rfl⟩⟩
    · refine ⟨front ++ [e], isChain_without.mpr ⟨h, ?_⟩, .inl rfl⟩
      intro j hj
      rcases List.mem_append.mp hj with hj | hj
      · exact hfront j hj
      · rwa [List.mem_singleton.mp hj]

/-- A chain from an expendable instruction that is left after pruning had one more user at its end
before. -/
theorem WellFormed.extend (hw : fn.WellFormed) (hc : fn.Consistent)
    (hi : fn.pruned.alive i = true) (hexp : fn.pruned.Expendable i) {c : List Int}
    (h : (i :: c).IsChain fn.pruned.UsedBy) :
    ∃ user, (i :: (c ++ [user])).IsChain fn.UsedBy := by
  have hrem := hw.removable_unused
  obtain ⟨front, e, he⟩ : ∃ front e, i :: c = front ++ [e] :=
    ⟨_, _, (List.dropLast_append_getLast (List.cons_ne_nil i c)).symm⟩
  have hmem : e ∈ i :: c := by simp [he]
  have halive := alive_without.mp ((hrem.consistent hc).alive_of_mem_chain hi h e hmem)
  have hterm : ¬ fn.IsTerminator e := fun ht =>
    (hexp c h).2 e hmem (isTerminator_without.mpr ⟨ht, halive.2⟩)
  -- the last instruction was not removed, so it has a user
  obtain ⟨user, hu⟩ : ∃ user, fn.UsedBy e user := by
    by_contra hnone
    push Not at hnone
    exact halive.2 ((hw.mem_unused_iff hc).mpr ⟨halive.1, hterm, hnone⟩)
  refine ⟨user, ?_⟩
  have hchain := (isChain_without.mp h).1
  rw [← List.cons_append, he]
  rw [he] at hchain
  simpa using ⟨hchain, hu⟩

theorem WellFormed.expendable_pruned (hw : fn.WellFormed) (hc : fn.Consistent)
    (hi : fn.pruned.alive i = true) : fn.pruned.Expendable i ↔ fn.Expendable i := by
  have hstay := (alive_without.mp hi).2
  constructor
  · intro hexp c h
    obtain ⟨c', h', hcut⟩ := hw.shorten hc h
    obtain ⟨hnodup, hterm⟩ := hexp c' h'
    have hkept : ∀ j ∈ i :: c', j ∉ fn.unused :=
      List.forall_mem_cons.mpr ⟨hstay, (isChain_without.mp h').2⟩
    have hfront : ∀ j ∈ i :: c', ¬ fn.IsTerminator j := fun j hj ht =>
      hterm j hj (isTerminator_without.mpr ⟨ht, hkept j hj⟩)
    rcases hcut with rfl | ⟨d, hd, rfl⟩
    · exact ⟨hnodup, hfront⟩
    · rw [← List.cons_append]
      constructor
      · refine List.nodup_append.mpr ⟨hnodup, List.nodup_singleton d, ?_⟩
        rintro j hj k hk rfl
        exact hkept j hj (List.mem_singleton.mp hk ▸ hd)
      · intro j hj
        rcases List.mem_append.mp hj with hj | hj
        · exact hfront j hj
        · rw [List.mem_singleton.mp hj]
          exact ((hw.mem_unused_iff hc).mp hd).2.1
  · intro hexp c h
    obtain ⟨hnodup, hterm⟩ := hexp c (isChain_without.mp h).1
    exact ⟨hnodup, fun j hj ht => hterm j hj (isTerminator_without.mp ht).1⟩

theorem WellFormed.longest_pruned (hw : fn.WellFormed) (hc : fn.Consistent)
    (hi : fn.pruned.alive i = true) (hexp : fn.pruned.Expendable i) {k : Nat} :
    IsGreatest (fn.pruned.chainSizes i) k ↔ IsGreatest (fn.chainSizes i) (k + 1) := by
  have hlonger : ∀ n ∈ fn.pruned.chainSizes i, n + 1 ∈ fn.chainSizes i := by
    rintro n ⟨c, h, rfl⟩
    obtain ⟨user, hu⟩ := hw.extend hc hi hexp h
    exact ⟨c ++ [user], hu, by simp⟩
  have hshorter : ∀ n ∈ fn.chainSizes i, ∃ m ∈ fn.pruned.chainSizes i, n ≤ m + 1 := by
    rintro n ⟨c, h, rfl⟩
    obtain ⟨c', h', rfl | ⟨d, hd, rfl⟩⟩ := hw.shorten hc h
    · exact ⟨_, ⟨c, h', rfl⟩, by omega⟩
    · exact ⟨_, ⟨c', h', rfl⟩, by simp⟩
  constructor
  · rintro ⟨hk, hmax⟩
    refine ⟨hlonger k hk, fun n hn => ?_⟩
    obtain ⟨m, hm, hle⟩ := hshorter n hn
    have := hmax hm
    omega
  · rintro ⟨hk, hmax⟩
    have hbound : ∀ m ∈ fn.pruned.chainSizes i, m ≤ k := fun m hm => by
      have := hmax (hlonger m hm)
      omega
    obtain ⟨m, hm, hle⟩ := hshorter (k + 1) hk
    obtain rfl : m = k := by
      have := hbound m hm
      omega
    exact ⟨hm, hbound⟩

theorem WellFormed.fallsIn_one_iff (hw : fn.WellFormed) (hc : fn.Consistent) :
    fn.FallsIn 1 i ↔ i ∈ fn.unused := by
  rw [hw.mem_unused_iff hc]
  constructor
  · rintro ⟨halive, hexp, -, hmax⟩
    refine ⟨halive, (hexp [] (.singleton i)).2 i (by simp), fun user hu => ?_⟩
    have := hmax ⟨[user], by simpa using hu, rfl⟩
    simp at this
  · rintro ⟨halive, hterm, huse⟩
    have hnil : ∀ c, (i :: c).IsChain fn.UsedBy → c = [] := by
      intro c h
      cases c with
      | nil => rfl
      | cons user rest => exact absurd (List.isChain_cons_cons.mp h).1 (huse user)
    refine ⟨halive, fun c h => ?_, ⟨[], .singleton i, rfl⟩, ?_⟩
    · rw [hnil c h]
      exact ⟨List.nodup_singleton i, by simpa using hterm⟩
    · rintro n ⟨c, h, rfl⟩
      simp [hnil c h]

theorem FallsIn.eq {k l : Nat} (h : fn.FallsIn k i) (h' : fn.FallsIn l i) : k = l :=
  h.longest.unique h'.longest

theorem FallsIn.pos {k : Nat} (h : fn.FallsIn k i) : 0 < k := by
  obtain ⟨c, -, rfl⟩ := h.longest.1
  simp

/-- Pruning brings every remaining instruction one round closer to its removal. -/
theorem WellFormed.fallsIn_pruned_iff (hw : fn.WellFormed) (hc : fn.Consistent) {k : Nat} :
    fn.pruned.FallsIn (k + 1) i ↔ fn.FallsIn (k + 2) i := by
  have halive : fn.pruned.alive i = true ↔ fn.alive i = true ∧ i ∉ fn.unused := alive_without
  constructor
  · rintro ⟨hi, hexp, hlong⟩
    exact ⟨(halive.mp hi).1, (hw.expendable_pruned hc hi).mp hexp,
      (hw.longest_pruned hc hi hexp).mp hlong⟩
  · intro h
    have hi : fn.pruned.alive i = true := by
      refine halive.mpr ⟨h.alive, fun hdead => ?_⟩
      have := h.eq ((hw.fallsIn_one_iff hc).mpr hdead)
      omega
    have hexp := (hw.expendable_pruned hc hi).mpr h.expendable
    exact ⟨hi, hexp, (hw.longest_pruned hc hi hexp).mpr h.longest⟩

/-- If an instruction is expendable, some instruction has no user: the end of a longest chain. -/
theorem WellFormed.unused_ne_nil (hw : fn.WellFormed) (hc : fn.Consistent) {k : Nat}
    (h : fn.FallsIn k i) : fn.unused ≠ [] := by
  intro hnone
  have hi : fn.pruned.alive i = true := alive_without.mpr ⟨h.alive, by simp [hnone]⟩
  have hexp := (hw.expendable_pruned hc hi).mpr h.expendable
  obtain ⟨⟨c, hchain, hlen⟩, hmax⟩ := h.longest
  have hkept : (i :: c).IsChain fn.pruned.UsedBy :=
    isChain_without.mpr ⟨hchain, fun j _ => by simp [hnone]⟩
  obtain ⟨user, hu⟩ := hw.extend hc hi hexp hkept
  have := hmax ⟨_, hu, rfl⟩
  simp only [List.length_cons, List.length_append] at hlen this
  omega

theorem Expendable.exists_fallsIn (h : fn.Expendable i) (hc : fn.Consistent)
    (hi : fn.alive i = true) : ∃ k, fn.FallsIn k i := by
  have hbound : BddAbove (fn.chainSizes i) := by
    refine ⟨fn.code.length, ?_⟩
    rintro n ⟨c, hchain, rfl⟩
    have hsub : i :: c ⊆ fn.code.map (·.id) := by
      intro j hj
      exact List.mem_map.mpr (hc.alive_iff.mp (hc.alive_of_mem_chain hi hchain j hj))
    simpa using (List.subperm_of_subset (h c hchain).1 hsub).length_le
  obtain ⟨k, hk⟩ := hbound.exists_isGreatest_of_nonempty ⟨1, [], .singleton i, rfl⟩
  exact ⟨k, hi, h, hk⟩

theorem not_expendable_of_cycle {j : Int} (hto : Relation.ReflTransGen fn.UsedBy i j)
    (hcycle : Relation.TransGen fn.UsedBy j j) : ¬ fn.Expendable i := by
  intro h
  obtain ⟨front, hfront, hlast⟩ := List.exists_isChain_cons_of_relationReflTransGen hto
  obtain ⟨u, hu, hback⟩ := Relation.TransGen.head'_iff.mp hcycle
  obtain ⟨loop, hloop, hend⟩ := List.exists_isChain_cons_of_relationReflTransGen hback
  have hchain : (i :: (front ++ u :: loop)).IsChain fn.UsedBy := by
    rw [← List.cons_append]
    refine hfront.append hloop ?_
    intro x hx y hy
    rw [List.getLast?_eq_some_getLast (List.cons_ne_nil i front), hlast] at hx
    cases hx
    cases hy
    exact hu
  have hnodup := (h _ hchain).1
  rw [← List.cons_append] at hnodup
  refine (List.nodup_append.mp hnodup).2.2 j ?_ j ?_ rfl
  · rw [← hlast]
    exact List.getLast_mem _
  · rw [← hend]
    exact List.getLast_mem _

end Func
end DeadCode
