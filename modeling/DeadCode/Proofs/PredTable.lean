import DeadCode.Func.Flow
import Mathlib.Logic.Basic

/-! # The table of predecessors

The table is filled block by block: a target that has no row gets one, and a row takes a block once,
however often the block names the target. After all blocks the rows are the lists of predecessors,
and a target has a row if and only if it has a predecessor.
-/
namespace DeadCode.Func
variable {fn : Func} {p s t : Int} {table : List (Int × List Int)}

def noted (p : Int) (row : List Int) : List Int := if p ∈ row then row else row ++ [p]

/-- Every target has one row, in ascending order. -/
def Keyed (table : List (Int × List Int)) : Prop := (table.map (·.1)).Pairwise (· < ·)

theorem mem_keys_notePred : t ∈ (notePred p s table).map (·.1) ↔ t = s ∨ t ∈ table.map (·.1) := by
  induction table with
  | nil => simp [notePred]
  | cons entry rest ih =>
    obtain ⟨key, row⟩ := entry
    unfold notePred
    split
    · next h => simp [h]
    · split
      · simp
      · simp only [List.map_cons, List.mem_cons, ih]
        grind

theorem Keyed.notePred (h : Keyed table) (p s : Int) : Keyed (notePred p s table) := by
  induction table with
  | nil => simp [Func.notePred, Keyed]
  | cons entry rest ih =>
    obtain ⟨key, row⟩ := entry
    obtain ⟨hkey, hrest⟩ := List.pairwise_cons.mp h
    unfold Func.notePred
    split
    · exact h
    · split
      · next hlt =>
        refine List.pairwise_cons.mpr ⟨fun t ht => ?_, h⟩
        rcases List.mem_cons.mp ht with rfl | ht
        · exact hlt
        · exact Int.lt_trans hlt (hkey t ht)
      · next hne hlt =>
        refine List.pairwise_cons.mpr ⟨fun t ht => ?_, ih hrest⟩
        rcases mem_keys_notePred.mp ht with rfl | ht
        · exact Int.lt_iff_le_and_ne.mpr ⟨Int.not_lt.mp hlt, Ne.symm hne⟩
        · exact hkey t ht

theorem lookup_cons_eq (key : Int) (row : List Int) (rest : List (Int × List Int)) (t : Int) :
    ((key, row) :: rest).lookup t = if t = key then some row else rest.lookup t := by
  by_cases h : t = key
  · simp [h]
  · have hne : (t == key) = false := by simpa using h
    simp [List.lookup_cons, hne, h]

theorem lookup_eq_none_iff_notMem : table.lookup s = none ↔ s ∉ table.map (·.1) := by
  simp only [List.lookup_eq_none_iff, List.mem_map, not_exists, not_and, bne_iff_ne]
  exact forall₂_congr fun _ _ => ne_comm

/-- Noting an edge changes the row of its target and no other. -/
theorem Keyed.lookup_notePred (h : Keyed table) (p s t : Int) :
    (Func.notePred p s table).lookup t =
      if t = s then some (noted p (rowOf table s)) else table.lookup t := by
  induction table with
  | nil => simp [Func.notePred, lookup_cons_eq, noted, rowOf]
  | cons entry rest ih =>
    obtain ⟨key, row⟩ := entry
    obtain ⟨hkey, hrest⟩ := List.pairwise_cons.mp h
    unfold Func.notePred
    split
    · next hs =>
      subst hs
      simp only [lookup_cons_eq, rowOf, noted, if_true, Option.getD_some]
      split <;> rfl
    · next hs =>
      split
      · next hlt =>
        -- the target is less than all that have a row
        have hnone : ((key, row) :: rest).lookup s = none := by
          refine lookup_eq_none_iff_notMem.mpr fun hmem => ?_
          rcases List.mem_cons.mp hmem with rfl | hmem
          · exact hs rfl
          · exact Int.lt_irrefl s (Int.lt_trans hlt (hkey s hmem))
        rw [lookup_cons_eq s, rowOf, hnone]
        rfl
      · rw [lookup_cons_eq, ih hrest, rowOf, rowOf, lookup_cons_eq, lookup_cons_eq, if_neg hs]
        split
        · next ht => rw [if_neg (fun h => hs (h.symm.trans ht))]
        · rfl

/-- The table has a row with the listed blocks for every target of theirs, and no other rows. -/
structure Records (fn : Func) (blocks : List Int) (table : List (Int × List Int)) : Prop where
  keyed : Keyed table
  lookup_eq : ∀ s, table.lookup s =
    if blocks.filter (s ∈ fn.succ ·) = [] then none else some (blocks.filter (s ∈ fn.succ ·))

theorem noted_noted (p : Int) (row : List Int) : noted p (noted p row) = noted p row := by
  unfold noted
  split <;> simp_all

theorem Keyed.foldl_notePred (h : Keyed table) (p : Int) (targets : List Int) :
    Keyed (targets.foldl (fun table s => Func.notePred p s table) table) ∧
      ∀ t, (targets.foldl (fun table s => Func.notePred p s table) table).lookup t =
        if t ∈ targets then some (noted p (rowOf table t)) else table.lookup t := by
  induction targets generalizing table with
  | nil => exact ⟨h, by simp⟩
  | cons s targets ih =>
    obtain ⟨hkeyed, hlookup⟩ := ih (h.notePred p s)
    refine ⟨hkeyed, fun t => ?_⟩
    rw [List.foldl_cons, hlookup t, rowOf, h.lookup_notePred]
    by_cases hts : t = s
    · subst hts
      simp [noted_noted, rowOf]
    · simp [hts, rowOf]

theorem Records.step {blocks : List Int} (h : fn.Records blocks table) (hp : p ∉ blocks) :
    fn.Records (blocks ++ [p]) ((fn.succ p).foldl (fun table s => notePred p s table) table) := by
  obtain ⟨hkeyed, hlookup⟩ := h.keyed.foldl_notePred p (fn.succ p)
  refine ⟨hkeyed, fun s => ?_⟩
  rw [hlookup s, rowOf, h.lookup_eq s, List.filter_append]
  by_cases hs : s ∈ fn.succ p
  · have hnot : p ∉ blocks.filter (s ∈ fn.succ ·) := fun hmem => hp (List.mem_filter.mp hmem).1
    by_cases hrow : blocks.filter (s ∈ fn.succ ·) = []
    · simp [hs, hrow, noted]
    · simp [hs, hrow, noted, hnot]
  · simp [hs]

theorem Records.run {blocks rest : List Int} (h : fn.Records blocks table)
    (hn : (blocks ++ rest).Nodup) :
    fn.Records (blocks ++ rest) (rest.foldl (fun table p =>
      (fn.succ p).foldl (fun table s => notePred p s table) table) table) := by
  induction rest generalizing blocks table with
  | nil => simpa using h
  | cons p rest ih =>
    have hp : p ∉ blocks := fun hmem => (List.nodup_append.mp hn).2.2 p hmem p List.mem_cons_self rfl
    rw [List.append_cons] at hn ⊢
    exact ih (h.step hp) hn

theorem records_predTable (fn : Func) : fn.Records fn.blockIds fn.predTable := by
  have hstart : fn.Records [] [] := ⟨.nil, by simp⟩
  exact hstart.run (nodup_blockIds fn)

theorem rowOf_predTable (fn : Func) (s : Int) : rowOf fn.predTable s = fn.pred s := by
  rw [rowOf, (records_predTable fn).lookup_eq s]
  change (if fn.pred s = [] then none else some (fn.pred s)).getD [] = fn.pred s
  split
  · next hnil => rw [hnil, Option.getD_none]
  · rfl

theorem mem_keys_predTable : s ∈ fn.predTable.map (·.1) ↔ ∃ p ∈ fn.blockIds, s ∈ fn.succ p := by
  rw [← not_iff_not, ← lookup_eq_none_iff_notMem, (records_predTable fn).lookup_eq s]
  simp

end DeadCode.Func
