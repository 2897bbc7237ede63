import DeadCode.Func.Change
import DeadCode.Proofs.Liveness.VisitOrder

/-! # The two walks through a function

The path of a depth-first walk leads from each of its nodes to those entered later. So when a node
is left, every successor of it has been left before or leads to it again, and the list of the nodes
left is a post-order with the root at its end. A breadth-first walk keeps the nodes it has met in
the order in which it looks at them, so those it has looked at come first and all their successors
have been met. Both come to their end, and both have then met what can be reached.
-/
namespace DeadCode

theorem idxOf_lt_or_of_pairwise {α : Type} [DecidableEq α] {R : α → α → Prop} {l : List α}
    (h : l.Pairwise R) {a b : α} (ha : a ∈ l) (hb : b ∈ l) (hne : a ≠ b) :
    l.idxOf b < l.idxOf a ∨ R a b := by
  refine or_iff_not_imp_left.mpr fun hnot => ?_
  have hlt : l.idxOf a < l.idxOf b :=
    Nat.lt_of_le_of_ne (Nat.le_of_not_lt hnot) fun heq => hne ((List.idxOf_inj ha).mp heq)
  have hpair := List.pairwise_iff_getElem.mp h _ _ (List.idxOf_lt_length_of_mem ha)
    (List.idxOf_lt_length_of_mem hb) hlt
  rwa [List.getElem_idxOf, List.getElem_idxOf] at hpair

namespace Graph

variable {α : Type} [DecidableEq α] {next : α → List α} {root : α} {bound : Nat}

/-- Lists every reachable node once, with the root last and each node behind its successors, except
those that lead back to it. -/
structure IsPostOrder (next : α → List α) (root : α) (order : List α) : Prop where
  nodup : order.Nodup
  mem_iff : ∀ a, a ∈ order ↔ Reaches next root a
  root_last : order.getLast? = some root
  behind : ∀ a ∈ order, ∀ b ∈ next a,
    order.idxOf b < order.idxOf a ∨ Reaches next b a

/-- The invariant of a depth-first walk, beside having met reachable nodes only. -/
structure Walk.Threaded (next : α → List α) (root : α) (w : Walk α) : Prop where
  thread : w.path.Pairwise fun a b => Reaches next b a
  returns : ∀ a ∈ w.left, ∀ b ∈ next a, b ∈ w.left ∨ Reaches next b a
  ordered : w.left.Pairwise fun a b => b ∈ next a → Reaches next b a
  bottom : (w.left ++ w.path).getLast? = some root

theorem Walk.Threaded.step {w : Walk α} (h : w.Threaded next root) (hf : w.Faithful next root) :
    (w.step next).Threaded next root := by
  cases hp : w.path with
  | nil =>
    have hs : w.step next = w := by simp [Walk.step, hp]
    rwa [hs]
  | cons a rest =>
    have hthread := h.thread
    have hbottom := h.bottom
    rw [hp] at hthread hbottom
    obtain ⟨ha, hrest⟩ := List.pairwise_cons.mp hthread
    rcases Walk.step_cases next hp with ⟨b, hb, -, hs⟩ | ⟨hall, hs⟩
    · rw [hs]
      refine ⟨List.pairwise_cons.mpr ⟨?_, h.thread⟩, h.returns, h.ordered, ?_⟩
      · intro c hc
        rw [hp] at hc
        rcases List.mem_cons.mp hc with rfl | hc
        · exact .step hb (.refl b)
        · exact (ha c hc).tail hb
      · simpa [hp, List.getLast?_append] using hbottom
    · rw [hs]
      refine ⟨hrest, ?_, ?_, by simpa using hbottom⟩
      · intro c hc b hb
        rcases List.mem_append.mp hc with hc | hc
        · exact (h.returns c hc b hb).imp_left (List.mem_append_left _)
        · obtain rfl := List.mem_singleton.mp hc
          -- a successor that has not been left is on the path, which leads to this node
          rcases List.mem_append.mp (hall b hb) with hpath | hleft
          · rw [hp] at hpath
            rcases List.mem_cons.mp hpath with rfl | hpath
            · exact .inr (.refl b)
            · exact .inr (ha b hpath)
          · exact .inl (List.mem_append_left _ hleft)
      · refine List.pairwise_append.mpr ⟨h.ordered, List.pairwise_singleton _ _, ?_⟩
        intro c hc b hb hcb
        obtain rfl := List.mem_singleton.mp hb
        have hnot : b ∉ w.left := fun hleft =>
          (List.nodup_append.mp hf.nodup).2.2 b (by simp [hp]) b hleft rfl
        exact (h.returns c hc b hcb).resolve_left hnot

theorem Walk.Threaded.run {w : Walk α} (h : w.Threaded next root) (hf : w.Faithful next root)
    (n : Nat) : (Walk.run next n w).Threaded next root := by
  induction n generalizing w with
  | zero => exact h
  | succ n ih => exact ih (h.step hf) hf.step

omit [DecidableEq α] in
theorem threaded_start (next : α → List α) (root : α) :
    (⟨[root], []⟩ : Walk α).Threaded next root :=
  ⟨by simp, by simp, by simp, by simp⟩

theorem Walk.run_add (m n : Nat) (w : Walk α) :
    Walk.run next (m + n) w = Walk.run next n (Walk.run next m w) := by
  induction m generalizing w with
  | zero => rw [Nat.zero_add, Walk.run]
  | succ m ih => rw [Nat.succ_add, Walk.run, Walk.run, ih]

/-- The walk from the root ends after two steps for each node, less one, and further steps do not
change it. -/
theorem Walk.run_start (hbound : Bounds next root bound) {n : Nat} (hn : 2 * bound ≤ n + 1) :
    Walk.run next n ⟨[root], []⟩ = ⟨[], postOrder next bound root⟩ := by
  have hone := hbound [root] (by simp) (by simpa using Reaches.refl root)
  have hpath : ∀ n, 2 * bound ≤ n + 1 → (Walk.run next n ⟨[root], []⟩).path = [] := by
    intro n hn
    apply (faithful_start next root).path_run hbound
    simp only [Walk.remaining, List.length_append, List.length_cons, List.length_nil] at hone ⊢
    omega
  have hfirst := hpath (2 * bound - 1) (by omega)
  have hstay : ∀ n, 2 * bound ≤ n + 1 →
      Walk.run next n ⟨[root], []⟩ = Walk.run next (2 * bound - 1) ⟨[root], []⟩ := by
    intro n hn
    rw [show n = 2 * bound - 1 + (n - (2 * bound - 1)) by omega, Walk.run_add,
      Walk.run_of_path_nil hfirst]
  rw [hstay n hn, postOrder, hstay (2 * bound) (by omega)]
  exact congrArg (Walk.mk · _) hfirst

theorem postOrder_eq {cap : Nat} (hbound : Bounds next root bound) (hcap : Bounds next root cap) :
    postOrder next bound root = postOrder next cap root := by
  have hrun := Walk.run_start hbound (n := 2 * (bound + cap)) (by omega)
  rw [Walk.run_start hcap (by omega)] at hrun
  exact (congrArg Walk.left hrun).symm

theorem isPostOrder_postOrder (hbound : Bounds next root bound) :
    IsPostOrder next root (postOrder next bound root) := by
  have hthreaded := (threaded_start next root).run (faithful_start next root) (2 * bound)
  rw [Walk.run_start hbound (by omega)] at hthreaded
  have hmem := fun a => mem_postOrder hbound (a := a)
  refine ⟨nodup_postOrder, hmem, by simpa using hthreaded.bottom, ?_⟩
  intro a ha b hb
  have hb' : b ∈ postOrder next bound root := (hmem b).mpr (((hmem a).mp ha).tail hb)
  by_cases hab : a = b
  · exact .inr (hab ▸ .refl a)
  · exact (idxOf_lt_or_of_pairwise hthreaded.ordered ha hb' hab).imp_right fun hback => hback hb

/-- The invariant of a breadth-first walk that has looked at the nodes `done`. -/
structure Tide.Faithful (next : α → List α) (root : α) (done : List α) (t : Tide α) : Prop where
  met_eq : t.met = done ++ t.queue
  nodup : t.met.Nodup
  reached : ∀ a ∈ t.met, Reaches next root a
  closed : ∀ a ∈ done, ∀ b ∈ next a, b ∈ t.met
  rooted : root ∈ t.met

theorem Tide.foldl_meet (bs : List α) (t : Tide α) (hn : t.met.Nodup) :
    ∃ new, bs.foldl Tide.meet t = ⟨t.queue ++ new, t.met ++ new⟩ ∧ (t.met ++ new).Nodup ∧
      new ⊆ bs ∧ bs ⊆ t.met ++ new := by
  induction bs generalizing t with
  | nil => exact ⟨[], by simp, by simpa using hn, by simp, by simp⟩
  | cons b bs ih =>
    rw [List.foldl_cons, Tide.meet]
    by_cases hb : b ∈ t.met
    · rw [if_pos hb]
      obtain ⟨new, hfold, hnodup, hnew, hall⟩ := ih t hn
      refine ⟨new, hfold, hnodup, List.subset_cons_of_subset b hnew, ?_⟩
      exact List.cons_subset.mpr ⟨List.mem_append_left _ hb, hall⟩
    · rw [if_neg hb]
      obtain ⟨new, hfold, hnodup, hnew, hall⟩ := ih ⟨t.queue ++ [b], t.met ++ [b]⟩
        (List.nodup_append.mpr ⟨hn, by simp, by grind⟩)
      simp only [List.append_assoc, List.singleton_append] at hfold hnodup hall
      refine ⟨b :: new, hfold, hnodup, List.cons_subset_cons b hnew, ?_⟩
      exact List.cons_subset.mpr ⟨by simp, hall⟩

theorem Tide.Faithful.run {done : List α} {t : Tide α} (h : t.Faithful next root done) (n : Nat) :
    ∃ done', (Tide.run next n t).Faithful next root done' ∧
      ((Tide.run next n t).queue = [] ∨ done'.length = done.length + n) := by
  induction n generalizing t done with
  | zero => exact ⟨done, h, .inr rfl⟩
  | succ n ih =>
    rw [Tide.run]
    cases hq : t.queue with
    | nil => exact ⟨done, h, .inl hq⟩
    | cons a rest =>
      obtain ⟨new, hfold, hnodup, hnew, hall⟩ := Tide.foldl_meet (next a) ⟨rest, t.met⟩ h.nodup
      have hmet : t.met = done ++ a :: rest := by rw [h.met_eq, hq]
      have hturn : (⟨rest ++ new, t.met ++ new⟩ : Tide α).Faithful next root (done ++ [a]) := by
        refine ⟨by simp [hmet], hnodup, ?_, ?_, List.mem_append_left _ h.rooted⟩
        · intro b hb
          rcases List.mem_append.mp hb with hb | hb
          · exact h.reached b hb
          · exact (h.reached a (by simp [hmet])).tail (hnew hb)
        · intro c hc b hb
          rcases List.mem_append.mp hc with hc | hc
          · exact List.mem_append_left _ (h.closed c hc b hb)
          · obtain rfl := List.mem_singleton.mp hc
            exact hall hb
      obtain ⟨done', hfaith, hdone⟩ := ih hturn
      simp only [hfold]
      refine ⟨done', hfaith, hdone.imp_right fun hlen => ?_⟩
      rw [hlen, List.length_append, List.length_singleton, Nat.add_right_comm, Nat.add_assoc]

theorem Tide.run_of_queue_nil {t : Tide α} (hq : t.queue = []) (n : Nat) :
    Tide.run next n t = t := by
  cases n with
  | zero => rfl
  | succ n => simp only [Tide.run, hq]

theorem Tide.run_add (m n : Nat) (t : Tide α) :
    Tide.run next (m + n) t = Tide.run next n (Tide.run next m t) := by
  induction m generalizing t with
  | zero => rw [Nat.zero_add, Tide.run]
  | succ m ih =>
    rw [Nat.succ_add]
    cases hq : t.queue with
    | nil => simp only [Tide.run_of_queue_nil hq]
    | cons a rest => simp only [Tide.run, hq, ih]

omit [DecidableEq α] in
theorem faithful_tide_start (next : α → List α) (root : α) :
    (⟨[root], [root]⟩ : Tide α).Faithful next root [] :=
  ⟨by simp, by simp, by simpa using Reaches.refl root, by simp, by simp⟩

theorem Tide.faithful_run_start (hbound : Bounds next root bound) :
    (Tide.run next bound ⟨[root], [root]⟩).Faithful next root (levelOrder next bound root) ∧
      (Tide.run next bound ⟨[root], [root]⟩).queue = [] := by
  obtain ⟨done, hfaith, hdone⟩ := (faithful_tide_start next root).run bound
  have hle := hbound _ hfaith.nodup hfaith.reached
  have hmet := hfaith.met_eq
  have hqueue : (Tide.run next bound ⟨[root], [root]⟩).queue = [] := by
    rcases hdone with hqueue | hlen
    · exact hqueue
    · rw [hmet, List.length_append, hlen, List.length_nil] at hle
      exact List.length_eq_zero_iff.mp (by omega)
  rw [hqueue, List.append_nil] at hmet
  refine ⟨?_, hqueue⟩
  rw [levelOrder, hmet]
  exact hfaith

theorem Tide.run_start (hbound : Bounds next root bound) {n : Nat} (hn : bound ≤ n) :
    Tide.run next n ⟨[root], [root]⟩ = ⟨[], levelOrder next bound root⟩ := by
  obtain ⟨-, hqueue⟩ := Tide.faithful_run_start hbound
  rw [show n = bound + (n - bound) by omega, Tide.run_add, Tide.run_of_queue_nil hqueue]
  exact congrArg (Tide.mk · _) hqueue

theorem levelOrder_eq {cap : Nat} (hbound : Bounds next root bound) (hcap : Bounds next root cap) :
    levelOrder next bound root = levelOrder next cap root := by
  have hrun := Tide.run_start hbound (n := bound + cap) (by omega)
  rw [Tide.run_start hcap (by omega)] at hrun
  exact (congrArg Tide.met hrun).symm

theorem nodup_levelOrder (hbound : Bounds next root bound) : (levelOrder next bound root).Nodup :=
  (Tide.faithful_run_start hbound).1.nodup

theorem mem_levelOrder (hbound : Bounds next root bound) {a : α} :
    a ∈ levelOrder next bound root ↔ Reaches next root a := by
  have hfaith := (Tide.faithful_run_start hbound).1
  constructor
  · exact hfaith.reached a
  · intro ha
    exact ha.mem_of_closed hfaith.closed hfaith.rooted

omit [DecidableEq α] in
theorem bounds_of_mem {l : List α} (hl : ∀ a, Reaches next root a → a ∈ l) :
    Bounds next root l.length := by
  intro m hn hreach
  exact (List.subperm_of_subset hn fun a ha => hl a (hreach a ha)).length_le

end Graph

namespace Func
variable {fn : Func}

theorem isPostOrder_postOrder (hne : fn.blocks ≠ []) :
    Graph.IsPostOrder fn.next 0 fn.postOrder := by
  rw [postOrder, if_neg hne]
  exact Graph.isPostOrder_postOrder (bounds_next (zero_mem_blockIds hne))

theorem mem_reachable (hne : fn.blocks ≠ []) {b : Int} :
    b ∈ fn.reachable ↔ Graph.Reaches fn.next 0 b := by
  have hroot := zero_mem_blockIds hne
  rw [reachable, if_neg hne]
  simp only [List.mem_filter, decide_eq_true_eq, Graph.mem_levelOrder (bounds_next hroot)]
  exact and_iff_right_of_imp (mem_blockIds_of_reaches hroot)

theorem pairwise_reachable (fn : Func) : fn.reachable.Pairwise (· < ·) := by
  unfold reachable
  split
  · exact .nil
  · exact fn.pairwise_blockIds.filter _

/-- Both walks through a function with at least one block come to their end, whatever its blocks
look like: the depth-first walk after two turns for each reachable block, less one, and the
breadth-first walk after one turn for each. The first gives a post-order of the reachable blocks.
The second meets the same blocks, and `reachable` lists them in ascending order. -/
theorem walks_exact (hne : fn.blocks ≠ []) :
    (∀ n, 2 * fn.postOrder.length ≤ n + 1 →
      Graph.Walk.run fn.next n ⟨[0], []⟩ = ⟨[], fn.postOrder⟩) ∧
    (∃ met, met.Perm fn.reachable ∧ ∀ n, fn.reachable.length ≤ n →
      Graph.Tide.run fn.next n ⟨[0], [0]⟩ = ⟨[], met⟩) ∧
    Graph.IsPostOrder fn.next 0 fn.postOrder ∧
    fn.reachable.Pairwise (· < ·) ∧ ∀ b, b ∈ fn.reachable ↔ b ∈ fn.postOrder := by
  have hbound := bounds_next (zero_mem_blockIds hne)
  have horder := isPostOrder_postOrder hne
  have hmem : ∀ b, b ∈ fn.reachable ↔ Graph.Reaches fn.next 0 b := fun b => mem_reachable hne
  refine ⟨?_, ⟨Graph.levelOrder fn.next fn.blocks.length 0, ?_, ?_⟩, horder, pairwise_reachable fn,
    fun b => (hmem b).trans (horder.mem_iff b).symm⟩
  · intro n hn
    have hfew := Graph.bounds_of_mem fun b => (horder.mem_iff b).mpr
    rw [Graph.Walk.run_start hfew hn, Graph.postOrder_eq hfew hbound, postOrder, if_neg hne]
  · refine (List.perm_ext_iff_of_nodup (Graph.nodup_levelOrder hbound)
      ((pairwise_reachable fn).imp Int.ne_of_lt)).mpr fun b => ?_
    rw [Graph.mem_levelOrder hbound, hmem]
  · intro n hn
    have hfew := Graph.bounds_of_mem fun b => (hmem b).mpr
    rw [Graph.Tide.run_start hfew hn, Graph.levelOrder_eq hfew hbound]

/-- Targets that name no block, a target named twice, a block without a terminator, a way back, and a
block that nothing leads to. -/
def ragged : Func := changeAll ⟨0, "ragged", 1, 0, 0, [], []⟩ [
  .addBlock "entry", .addBlock "left", .addBlock "open", .addBlock "right", .addBlock "stray",
  .addTerminator 0 "switch" (.arg 0 0) [] [9, 3, 1, 3],
  .addTerminator 1 "br" .absent [] [2],
  .addTerminator 3 "switch" (.arg 0 0) [] [-1, 3, 0, 2],
  .addTerminator 4 "br" .absent [] [1]]

theorem walks_ragged_exact :
    ragged.blocks ≠ [] ∧ ragged.postOrder = [2, 3, 1, 0] ∧ ragged.reachable = [0, 1, 2, 3] ∧
      Graph.Walk.run ragged.next 7 ⟨[0], []⟩ = ⟨[], [2, 3, 1, 0]⟩ ∧
      ∀ a ∈ [2, 3, 1, 0], ∀ b ∈ ragged.next a,
        [2, 3, 1, 0].idxOf b < [2, 3, 1, 0].idxOf a ∨ Graph.Reaches ragged.next b a := by
  have hne : ragged.blocks ≠ [] := by decide
  have hpost : ragged.postOrder = [2, 3, 1, 0] := by decide
  have hreach : ragged.reachable = [0, 1, 2, 3] := by decide
  obtain ⟨hwalk, -, horder, -⟩ := walks_exact hne
  rw [hpost] at hwalk horder
  exact ⟨hne, hpost, hreach, hwalk 7 (by decide), horder.behind⟩

end Func
end DeadCode
