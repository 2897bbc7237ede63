import DeadCode.Value

/-! # Sets of values

A set keeps its members in strictly increasing order, so that it has one representation only:
equal members mean equal sets, and the stored list is already the printed one.
-/
namespace DeadCode

def insertSorted (v : Value) : List Value → List Value
  | [] => [v]
  | w :: rest =>
    if v = w then w :: rest
    else if v.Precedes w then v :: w :: rest
    else w :: insertSorted v rest

theorem mem_insertSorted {u v : Value} {l : List Value} :
    u ∈ insertSorted v l ↔ u = v ∨ u ∈ l := by
  induction l with
  | nil => simp [insertSorted]
  | cons w rest ih =>
    unfold insertSorted
    split
    · subst_vars; simp
    · split
      · simp
      · simp only [List.mem_cons, ih]
        grind

theorem pairwise_insertSorted {v : Value} {l : List Value} (h : l.Pairwise Value.Precedes) :
    (insertSorted v l).Pairwise Value.Precedes := by
  induction l with
  | nil => simp [insertSorted]
  | cons w rest ih =>
    obtain ⟨hw, hrest⟩ := List.pairwise_cons.1 h
    unfold insertSorted
    split
    · exact h
    · split
      · next hv =>
        refine List.pairwise_cons.2 ⟨fun u hu => ?_, h⟩
        rcases List.mem_cons.1 hu with rfl | hu
        · exact hv
        · exact hv.trans (hw u hu)
      · next hne hv =>
        refine List.pairwise_cons.2 ⟨fun u hu => ?_, ih hrest⟩
        rcases mem_insertSorted.1 hu with rfl | hu
        · exact ((Value.precedes_or_eq_or_precedes u w).resolve_left hv).resolve_left hne
        · exact hw u hu

structure ValueSet where
  members : List Value
  increasing : members.Pairwise Value.Precedes
deriving DecidableEq

namespace ValueSet

instance : Membership Value ValueSet where
  mem s v := v ∈ s.members

instance (v : Value) (s : ValueSet) : Decidable (v ∈ s) :=
  inferInstanceAs (Decidable (v ∈ s.members))

instance : EmptyCollection ValueSet where
  emptyCollection := ⟨[], .nil⟩

instance : Inhabited ValueSet := ⟨∅⟩

def insert (s : ValueSet) (v : Value) : ValueSet :=
  ⟨insertSorted v s.members, pairwise_insertSorted s.increasing⟩

/-- Adds a value to the set, and tells whether it is new there. -/
def add (s : ValueSet) (v : Value) : ValueSet × Bool :=
  if v ∈ s then (s, false) else (s.insert v, true)

def insertAll (s : ValueSet) (vs : List Value) : ValueSet := vs.foldl insert s

def ofList (vs : List Value) : ValueSet := insertAll ∅ vs

def erase (s : ValueSet) (v : Value) : ValueSet :=
  ⟨s.members.filter (· ≠ v), s.increasing.filter _⟩

instance : Union ValueSet where
  union s t := s.insertAll t.members

def text (s : ValueSet) : String := "\x7b" ++ Value.listText s.members ++ "\x7d"

theorem mem_def {v : Value} {s : ValueSet} : v ∈ s ↔ v ∈ s.members := Iff.rfl

@[simp] theorem not_mem_empty (v : Value) : ¬ v ∈ (∅ : ValueSet) := List.not_mem_nil

@[simp] theorem mem_insert {u v : Value} {s : ValueSet} : u ∈ s.insert v ↔ u = v ∨ u ∈ s :=
  mem_insertSorted

@[simp] theorem mem_insertAll {u : Value} {s : ValueSet} {vs : List Value} :
    u ∈ s.insertAll vs ↔ u ∈ s ∨ u ∈ vs := by
  induction vs generalizing s with
  | nil => simp [insertAll]
  | cons v vs ih =>
    have h := ih (s := s.insert v)
    simp only [insertAll, List.foldl_cons, mem_insert, List.mem_cons] at h ⊢
    grind

@[simp] theorem mem_ofList {u : Value} {vs : List Value} : u ∈ ofList vs ↔ u ∈ vs := by
  simp [ofList]

@[simp] theorem mem_union {u : Value} {s t : ValueSet} : u ∈ s ∪ t ↔ u ∈ s ∨ u ∈ t :=
  mem_insertAll

@[simp] theorem mem_erase {u v : Value} {s : ValueSet} : u ∈ s.erase v ↔ u ∈ s ∧ u ≠ v := by
  simp [mem_def, erase]

theorem eq_of_mem_iff {l m : List Value} (hl : l.Pairwise Value.Precedes)
    (hm : m.Pairwise Value.Precedes) (h : ∀ v, v ∈ l ↔ v ∈ m) : l = m := by
  induction l generalizing m with
  | nil =>
    cases m with
    | nil => rfl
    | cons w _ => exact absurd ((h w).2 List.mem_cons_self) List.not_mem_nil
  | cons v l ih =>
    cases m with
    | nil => exact absurd ((h v).1 List.mem_cons_self) List.not_mem_nil
    | cons w m =>
      obtain ⟨hv, hl'⟩ := List.pairwise_cons.1 hl
      obtain ⟨hw, hm'⟩ := List.pairwise_cons.1 hm
      have hvw : v = w := by
        rcases List.mem_cons.1 ((h v).1 List.mem_cons_self) with hvw | hvm
        · exact hvw
        · rcases List.mem_cons.1 ((h w).2 List.mem_cons_self) with hwv | hwl
          · exact hwv.symm
          · exact absurd ((hv w hwl).trans (hw v hvm)) (Value.Precedes.irrefl v)
      subst hvw
      have htail : l = m := ih hl' hm' fun u => by
        have hu := h u
        simp only [List.mem_cons] at hu
        constructor
        · intro hul
          have hne : u ≠ v := fun e => Value.Precedes.irrefl v (e ▸ hv u hul)
          exact (hu.1 (.inr hul)).resolve_left hne
        · intro hum
          have hne : u ≠ v := fun e => Value.Precedes.irrefl v (e ▸ hw u hum)
          exact (hu.2 (.inr hum)).resolve_left hne
      rw [htail]

@[ext] theorem ext {s t : ValueSet} (h : ∀ v, v ∈ s ↔ v ∈ t) : s = t := by
  obtain ⟨l, hl⟩ := s
  obtain ⟨m, hm⟩ := t
  have hlm : l = m := eq_of_mem_iff hl hm h
  subst hlm
  rfl

theorem insert_eq_self {s : ValueSet} {v : Value} (h : v ∈ s) : s.insert v = s := by
  ext u
  rw [mem_insert, or_iff_right_of_imp]
  rintro rfl
  exact h

theorem add_eq (s : ValueSet) (v : Value) : s.add v = (s.insert v, decide (v ∉ s)) := by
  by_cases h : v ∈ s
  · simp [add, h, insert_eq_self h]
  · simp [add, h]

end ValueSet

end DeadCode
