import DeadCode.Graph
import Mathlib.Data.List.Nodup

/-! # The depth-first walk finds what can be reached

The nodes on the path and the nodes left for good are all different, all reached from the root, and
every successor of a node left for good has been met. A step enters a new node or leaves one, so the
walk is over after twice as many steps as there are nodes, and then it has left all it can reach.
-/
namespace DeadCode.Graph

variable {α : Type} [DecidableEq α] {next : α → List α} {root : α} {bound : Nat}

omit [DecidableEq α] in
theorem Reaches.trans {a b c : α} (hab : Reaches next a b) (hbc : Reaches next b c) :
    Reaches next a c := by
  induction hab with
  | refl a => exact hbc
  | step hnext _ ih => exact .step hnext (ih hbc)

omit [DecidableEq α] in
theorem Reaches.tail {a b c : α} (hab : Reaches next a b) (hbc : c ∈ next b) :
    Reaches next a c := hab.trans (.step hbc (.refl c))

omit [DecidableEq α] in
theorem Reaches.mem_of_closed {l : List α} (hl : ∀ a ∈ l, ∀ b ∈ next a, b ∈ l) {a b : α}
    (hab : Reaches next a b) (ha : a ∈ l) : b ∈ l := by
  induction hab with
  | refl a => exact ha
  | step hnext _ ih => exact ih (hl _ ha _ hnext)

/-- What holds of a walk from `root` at any time. -/
structure Walk.Faithful (next : α → List α) (root : α) (w : Walk α) : Prop where
  nodup : (w.path ++ w.left).Nodup
  reached : ∀ a ∈ w.path ++ w.left, Reaches next root a
  closed : ∀ a ∈ w.left, ∀ b ∈ next a, b ∈ w.path ++ w.left
  rooted : root ∈ w.path ++ w.left

/-- A step enters a successor that has not been met, or leaves a node whose successors all have. -/
theorem Walk.step_cases (next : α → List α) {w : Walk α} {a : α} {rest : List α}
    (hp : w.path = a :: rest) :
    (∃ b ∈ next a, b ∉ w.path ++ w.left ∧ w.step next = ⟨b :: w.path, w.left⟩) ∨
      (∀ b ∈ next a, b ∈ w.path ++ w.left) ∧ w.step next = ⟨rest, w.left ++ [a]⟩ := by
  unfold Walk.step
  simp only [hp]
  cases hf : (next a).find? fun b => b ∉ a :: rest ∧ b ∉ w.left with
  | some b =>
    left
    have hb := List.find?_some hf
    simp only [decide_eq_true_eq] at hb
    exact ⟨b, List.mem_of_find?_eq_some hf, by simpa [and_assoc] using hb, rfl⟩
  | none =>
    right
    refine ⟨fun b hb => ?_, rfl⟩
    have hn := List.find?_eq_none.mp hf b hb
    simp only [decide_eq_true_eq, not_and, not_not] at hn
    rw [List.mem_append]
    exact or_iff_not_imp_left.mpr hn

theorem Walk.Faithful.step {w : Walk α} (h : w.Faithful next root) :
    (w.step next).Faithful next root := by
  cases hp : w.path with
  | nil =>
    have hs : w.step next = w := by simp [Walk.step, hp]
    rwa [hs]
  | cons a rest =>
    have ha : Reaches next root a := h.reached a (by simp [hp])
    rcases Walk.step_cases next hp with ⟨b, hb, hnew, hs⟩ | ⟨hall, hs⟩
    · rw [hs]
      refine ⟨?_, ?_, ?_, List.mem_cons_of_mem b h.rooted⟩
      · exact List.nodup_cons.mpr ⟨hnew, h.nodup⟩
      · intro c hc
        rcases List.mem_cons.mp hc with rfl | hc
        · exact ha.tail hb
        · exact h.reached c hc
      · intro c hc d hd
        exact List.mem_cons_of_mem b (h.closed c hc d hd)
    · have hperm : (w.path ++ w.left).Perm (rest ++ (w.left ++ [a])) := by
        rw [hp, ← List.append_assoc]
        exact (List.perm_append_singleton a (rest ++ w.left)).symm
      rw [hs]
      refine ⟨hperm.nodup_iff.mp h.nodup, ?_, ?_, hperm.mem_iff.mp h.rooted⟩
      · intro c hc
        exact h.reached c (hperm.mem_iff.mpr hc)
      · intro c hc d hd
        rw [← hperm.mem_iff]
        rcases List.mem_append.mp hc with hc | hc
        · exact h.closed c hc d hd
        · obtain rfl := List.mem_singleton.mp hc
          exact hall d hd

theorem Walk.Faithful.run {w : Walk α} (h : w.Faithful next root) (n : Nat) :
    (Walk.run next n w).Faithful next root := by
  induction n generalizing w with
  | zero => exact h
  | succ n ih => exact ih h.step

def Walk.remaining (bound : Nat) (w : Walk α) : Nat :=
  2 * (bound - (w.path ++ w.left).length) + w.path.length

/-- Every list of different nodes reached from `root` has at most `bound` members. -/
def Bounds (next : α → List α) (root : α) (bound : Nat) : Prop :=
  ∀ l : List α, l.Nodup → (∀ a ∈ l, Reaches next root a) → l.length ≤ bound

theorem Walk.Faithful.remaining_step {w : Walk α} (h : w.Faithful next root)
    (hbound : Bounds next root bound) (hp : w.path ≠ []) :
    (w.step next).remaining bound < w.remaining bound := by
  obtain ⟨a, rest, hp⟩ := List.exists_cons_of_ne_nil hp
  have hle := hbound _ h.step.nodup h.step.reached
  rcases Walk.step_cases next hp with ⟨b, -, -, hs⟩ | ⟨-, hs⟩
  · rw [hs] at hle ⊢
    simp only [Walk.remaining, hp, List.length_append, List.length_cons] at hle ⊢
    omega
  · rw [hs] at hle ⊢
    simp only [Walk.remaining, hp, List.length_append, List.length_cons, List.length_nil] at hle ⊢
    omega

theorem Walk.run_of_path_nil {w : Walk α} (hp : w.path = []) (n : Nat) : Walk.run next n w = w := by
  induction n with
  | zero => rfl
  | succ n ih =>
    have hs : w.step next = w := by simp [Walk.step, hp]
    rwa [Walk.run, hs]

/-- After enough steps a walk has left the root. -/
theorem Walk.Faithful.path_run {w : Walk α} (h : w.Faithful next root)
    (hbound : Bounds next root bound) {n : Nat} (hn : w.remaining bound ≤ n) :
    (Walk.run next n w).path = [] := by
  induction n generalizing w with
  | zero =>
    rw [Walk.remaining] at hn
    change w.path = []
    exact List.length_eq_zero_iff.mp (by omega)
  | succ n ih =>
    by_cases hp : w.path = []
    · rw [Walk.run_of_path_nil hp]
      exact hp
    · have hlt := h.remaining_step hbound hp
      exact ih h.step (by omega)

omit [DecidableEq α] in
theorem faithful_start (next : α → List α) (root : α) :
    (⟨[root], []⟩ : Walk α).Faithful next root :=
  ⟨by simp, by simpa using Reaches.refl root, by simp, by simp⟩

theorem nodup_postOrder : (postOrder next bound root).Nodup :=
  ((faithful_start next root).run (2 * bound)).nodup.sublist (List.sublist_append_right _ _)

theorem mem_postOrder (hbound : Bounds next root bound) {a : α} :
    a ∈ postOrder next bound root ↔ Reaches next root a := by
  have hfaith := (faithful_start next root).run (2 * bound)
  have hpath : (Walk.run next (2 * bound) ⟨[root], []⟩).path = [] := by
    refine (faithful_start next root).path_run hbound ?_
    have hone := hbound [root] (by simp) (by simpa using Reaches.refl root)
    simp only [Walk.remaining, List.length_append, List.length_cons, List.length_nil] at hone ⊢
    omega
  constructor
  · intro ha
    exact hfaith.reached a (List.mem_append_right _ ha)
  · intro ha
    -- all nodes met have been left, and those are closed under successors
    have hclosed := hfaith.closed
    have hroot := hfaith.rooted
    rw [hpath, List.nil_append] at hclosed hroot
    exact ha.mem_of_closed hclosed hroot

end DeadCode.Graph
