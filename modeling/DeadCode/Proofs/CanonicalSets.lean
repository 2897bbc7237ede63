import DeadCode.Pile
import DeadCode.Proofs.Liveness.Settle
import DeadCode.Proofs.ValueText
import DeadCode.Proofs.Verification

/-! # One list, one text for every set

A pile and a set that came about by the same steps have the same members, in whatever order piles
were gone through. Comparing the sizes of two piles and looking for the members of one of them in
the other tells whether they have the same members. If all members are values of one function, there
is only one way to sort a pile, which gives the list that the set keeps, and only one set with a
given text.
-/
namespace DeadCode

namespace Value
variable {f : Nat} {v w : Value}

theorem Less.asymm (h : v.Less w) : ¬ w.Less v := by
  unfold Less at *
  omega

theorem Within.less_of_precedes (hv : v.Within f) (hw : w.Within f) (h : v.Precedes w) :
    v.Less w := by
  rcases h with h | ⟨hk, hi, ho⟩
  · exact h
  · rw [hv.eq_of_index_eq hw (ValueKind.code_injective hk) hi] at ho
    exact absurd ho (Nat.lt_irrefl _)

theorem Within.eq_of_not_less (hv : v.Within f) (hw : w.Within f) (hvw : ¬ v.Less w)
    (hwv : ¬ w.Less v) : v = w := by
  unfold Less at hvw hwv
  exact hv.eq_of_index_eq hw (ValueKind.code_injective (by omega)) (by omega)

end Value

namespace ValueSet

theorem pairwise_less {f : Nat} {s : ValueSet} (hf : ∀ v ∈ s, v.Within f) :
    s.members.Pairwise Value.Less :=
  s.increasing.imp_of_mem fun hv hw h => (hf _ hv).less_of_precedes (hf _ hw) h

end ValueSet

namespace Pile
variable {p q : Pile} {s t : ValueSet} {v : Value}

/-- The pile has the members of the set, each once. -/
structure Holds (p : Pile) (s : ValueSet) : Prop where
  nodup : p.Nodup
  mem_iff : ∀ v, v ∈ p ↔ v ∈ s

theorem Holds.perm (h : p.Holds s) : p.Perm s.members :=
  (List.perm_ext_iff_of_nodup h.nodup s.nodup_members).mpr h.mem_iff

theorem holds_empty : Holds [] ∅ := ⟨.nil, by simp⟩

theorem mem_add {u : Value} : u ∈ p.add v ↔ u = v ∨ u ∈ p := by
  unfold add
  split <;> grind

theorem Holds.add (h : p.Holds s) (v : Value) : (p.add v).Holds (s.insert v) := by
  refine ⟨?_, fun u => by rw [mem_add, ValueSet.mem_insert, h.mem_iff]⟩
  unfold Pile.add
  split
  · exact h.nodup
  · next hv => exact List.nodup_append.mpr ⟨h.nodup, by simp, by grind⟩

theorem Holds.addAll (h : p.Holds s) (vs : List Value) : (p.addAll vs).Holds (s.insertAll vs) := by
  induction vs generalizing p s with
  | nil => exact h
  | cons v vs ih => exact ih (h.add v)

theorem Holds.union (h : p.Holds s) (hq : q.Holds t) {vs : List Value} (hvs : vs.Perm q) :
    (p.addAll vs).Holds (s ∪ t) := by
  have hall := h.addAll vs
  refine ⟨hall.nodup, fun u => ?_⟩
  rw [hall.mem_iff, ValueSet.mem_insertAll, ValueSet.mem_union, hvs.mem_iff, hq.mem_iff]

theorem Holds.delete (h : p.Holds s) (v : Value) : (p.delete v).Holds (s.erase v) := by
  refine ⟨h.nodup.filter _, fun u => ?_⟩
  simp [Pile.delete, h.mem_iff]

section
variable {α β : Type} {R : α → β → Prop} {l : List α} {m : List β}

theorem forall₂_modify (h : List.Forall₂ R l m) {f : α → α} {g : β → β}
    (hfg : ∀ a b, R a b → R (f a) (g b)) (i : Nat) :
    List.Forall₂ R (l.modify i f) (m.modify i g) := by
  induction h generalizing i with
  | nil => simp
  | cons hab hrest ih =>
    cases i with
    | zero => simpa using ⟨hfg _ _ hab, hrest⟩
    | succ i => simpa using ⟨hab, ih i⟩

theorem forall₂_getD (h : List.Forall₂ R l m) {a : α} {b : β} (hab : R a b) (i : Nat) :
    R (l[i]?.getD a) (m[i]?.getD b) := by
  induction h generalizing i with
  | nil => simpa using hab
  | cons hxy _ ih =>
    cases i with
    | zero => simpa using hxy
    | succ i => simpa using ih i

end

theorem Acts.holds {piles after : List Pile} {sets : List ValueSet} {action : SetAction}
    (h : Acts piles action after) (hp : List.Forall₂ Holds piles sets) :
    List.Forall₂ Holds after (ValueSet.act sets action) := by
  cases h with
  | create => exact List.rel_append hp (.cons holds_empty .nil)
  | add s v => exact forall₂_modify hp (fun p t h => t.add_eq v ▸ h.add v) s
  | union s other vs hvs =>
    exact forall₂_modify hp (fun _ _ h => h.union (forall₂_getD hp holds_empty other) hvs) s
  | clone s vs hvs =>
    -- a copy is poured into an empty pile
    have hcopy := holds_empty.union (forall₂_getD hp holds_empty s) hvs
    refine List.rel_append hp (.cons ⟨hcopy.nodup, fun u => ?_⟩ .nil)
    simp [hcopy.mem_iff]
  | delete s v => exact forall₂_modify hp (fun _ _ h => h.delete v) s

theorem Leaves.holds {history : List SetAction} {piles : List Pile} (h : Leaves history piles) :
    List.Forall₂ Holds piles (ValueSet.actAll history) := by
  induction h with
  | nil => exact .nil
  | snoc _ hstep ih =>
    rw [ValueSet.actAll, List.foldl_concat]
    exact hstep.holds ih

theorem exists_leaves (history : List SetAction) : ∃ piles, Leaves history piles := by
  induction history using List.reverseRecOn with
  | nil => exact ⟨[], .nil⟩
  | append_singleton history action ih =>
    obtain ⟨piles, hp⟩ := ih
    cases action with
    | create => exact ⟨_, .snoc hp (.create piles)⟩
    | add s v => exact ⟨_, .snoc hp (.add piles s v)⟩
    | union s other => exact ⟨_, .snoc hp (.union piles s other _ (.refl _))⟩
    | clone s => exact ⟨_, .snoc hp (.clone piles s _ (.refl _))⟩
    | delete s v => exact ⟨_, .snoc hp (.delete piles s v)⟩

/-- Two piles have the same members if they have the same size and one contains the other. -/
theorem equal_iff (hp : p.Nodup) (hq : q.Nodup) :
    p.equal q = true ↔ ∀ v, v ∈ p ↔ v ∈ q := by
  simp only [equal, decide_eq_true_eq]
  constructor
  · rintro ⟨hlen, hsub⟩
    have hperm := (List.subperm_of_subset hp hsub).perm_of_length_le hlen.ge
    exact fun v => hperm.mem_iff
  · intro h
    have hperm := (List.perm_ext_iff_of_nodup hp hq).mpr h
    exact ⟨hperm.length_eq, fun v hv => (h v).mp hv⟩

/-- A pile of values of one function can be sorted in one way only, and the result is the list that
the set keeps. -/
theorem Holds.sortsTo_iff (h : p.Holds s) {f : Nat} (hf : ∀ v ∈ s, v.Within f) {vs : List Value} :
    p.SortsTo vs ↔ vs = s.members := by
  have hless := ValueSet.pairwise_less hf
  constructor
  · rintro ⟨hperm, hsorted⟩
    have hsame := hperm.trans h.perm
    refine hsame.eq_of_pairwise ?_ hsorted (hless.imp Value.Less.asymm)
    intro v w hv hw hvw hwv
    exact (hf v (hsame.subset hv)).eq_of_not_less (hf w hw) hwv hvw
  · rintro rfl
    exact ⟨h.perm.symm, hless.imp Value.Less.asymm⟩

theorem Leaves.exists_holds {history : List SetAction} {piles : List Pile}
    (h : Leaves history piles) {i : Nat} (hs : (ValueSet.actAll history)[i]? = some s) :
    ∃ p, piles[i]? = some p ∧ p.Holds s := by
  obtain ⟨hi, rfl⟩ := List.getElem?_eq_some_iff.mp hs
  have hlen := h.holds.length_eq
  refine ⟨piles[i], List.getElem?_eq_getElem (hlen ▸ hi), ?_⟩
  exact h.holds.get (hlen ▸ hi) hi

end Pile

namespace ValueSet

/-- Two sets whose members are values of one function, whatever steps they came about by, list their
members in increasing order and each once. They are equal if and only if they have the same members,
and if and only if they have the same text. Piles that the same steps leave have the same members as
the sets: comparing sizes and checking one inclusion decides whether two piles are equal, and
sorting a pile in any way gives the list of the set. So a trace determines the sets that it shows.
-/
theorem canonical_of_history {history history' : List SetAction} {i j : Nat} {s t : ValueSet}
    (hs : (actAll history)[i]? = some s) (ht : (actAll history')[j]? = some t) {f : Nat}
    (hsf : ∀ v ∈ s, v.Within f) (htf : ∀ v ∈ t, v.Within f) :
    s.members.Nodup ∧ s.members.Pairwise Value.Less ∧
    (s = t ↔ ∀ v, v ∈ s ↔ v ∈ t) ∧ (s.text = t.text ↔ s = t) ∧
    (∃ piles, Pile.Leaves history piles) ∧
    (∀ piles piles', Pile.Leaves history piles → Pile.Leaves history' piles' →
      ∃ p q, piles[i]? = some p ∧ piles'[j]? = some q ∧
        (∀ v, v ∈ p ↔ v ∈ s) ∧ (∀ v, v ∈ q ↔ v ∈ t) ∧
        (p.equal q = true ↔ ∀ v, v ∈ p ↔ v ∈ q) ∧ ∀ vs, p.SortsTo vs ↔ vs = s.members) ∧
    ∀ (lv lv' : Liveness) (fn fn' : Func), (∀ r ∈ lv.traced fn, ∀ v ∈ r, v.Within f) →
      (∀ r ∈ lv'.traced fn', ∀ v ∈ r, v.Within f) →
      (lv.traceText fn = lv'.traceText fn' ↔ lv.traced fn = lv'.traced fn') := by
  refine ⟨s.nodup_members, pairwise_less hsf, ⟨?_, ext⟩, ⟨text_inj hsf htf, congrArg text⟩,
    Pile.exists_leaves history, ?_, ?_⟩
  · rintro rfl v
    exact Iff.rfl
  · intro piles piles' h h'
    obtain ⟨p, hp, hps⟩ := h.exists_holds hs
    obtain ⟨q, hq, hqt⟩ := h'.exists_holds ht
    exact ⟨p, q, hp, hq, hps.mem_iff, hqt.mem_iff, Pile.equal_iff hps.nodup hqt.nodup,
      fun vs => hps.sortsTo_iff hsf⟩
  · intro lv lv' fn fn' hr hr'
    refine ⟨Liveness.traced_eq_of_traceText_eq hr hr', fun h => ?_⟩
    rw [Liveness.traceText, Liveness.traceText, Liveness.traceLines_eq, Liveness.traceLines_eq, h]

def copiedHistory : List SetAction := [
  .create, .add 0 (.instr 0 12), .add 0 (.const 0 (-1)), .add 0 .absent, .add 0 (.arg 0 12),
  .add 0 (.const 0 (-1)), .clone 0, .delete 0 (.instr 0 12)]

def pouredHistory : List SetAction := [
  .create, .add 0 (.arg 0 12), .create, .add 1 .absent, .add 1 (.const 0 (-1)), .add 1 (.const 0 5),
  .delete 1 (.const 0 5), .union 0 1, .add 0 (.instr 0 12)]

theorem canonical_copied_poured :
    let lv := Func.countdown.liveness
    ∃ s t : ValueSet, (actAll copiedHistory)[1]? = some s ∧ (actAll pouredHistory)[0]? = some t ∧
      (∀ v ∈ s, v.Within 0) ∧ (∀ v ∈ t, v.Within 0) ∧
      s.members = [.absent, .instr 0 12, .arg 0 12, .const 0 (-1)] ∧ s.text = t.text ∧
      (∀ piles piles' : List Pile,
        Pile.Leaves copiedHistory piles → Pile.Leaves pouredHistory piles' →
        ∃ p q : Pile, piles[1]? = some p ∧ piles'[0]? = some q ∧ p.equal q = true ∧
          p.SortsTo [.absent, .instr 0 12, .arg 0 12, .const 0 (-1)]) ∧
      (∀ r ∈ lv.traced Func.countdown, ∀ v ∈ r, v.Within 0) ∧
      ∀ (lv' : Liveness) (fn' : Func), (∀ r ∈ lv'.traced fn', ∀ v ∈ r, v.Within 0) →
        lv.traceText Func.countdown = lv'.traceText fn' →
        lv.traced Func.countdown = lv'.traced fn' := by
  intro lv
  obtain ⟨s, hs, ht, hmembers⟩ : ∃ s, (actAll copiedHistory)[1]? = some s ∧
      (actAll pouredHistory)[0]? = some s ∧
      s.members = [.absent, .instr 0 12, .arg 0 12, .const 0 (-1)] :=
    ⟨ofList [.absent, .instr 0 12, .arg 0 12, .const 0 (-1)], by decide, by decide, by decide⟩
  have hf : ∀ v ∈ s, v.Within 0 := by
    simp only [mem_def, hmembers]
    decide
  have htraced : ∀ r ∈ lv.traced Func.countdown, ∀ v ∈ r.members, v.Within 0 := by decide
  obtain ⟨-, -, -, htext, -, hpiles, htrace⟩ := canonical_of_history hs ht hf hf
  refine ⟨s, s, hs, ht, hf, hf, hmembers, htext.mpr rfl, ?_, htraced, fun lv' fn' hlv' =>
    (htrace lv lv' Func.countdown fn' htraced hlv').mp⟩
  intro piles piles' h h'
  obtain ⟨p, q, hp, hq, hps, hqs, hequal, hsort⟩ := hpiles piles piles' h h'
  exact ⟨p, q, hp, hq, hequal.mpr fun v => (hps v).trans (hqs v).symm, (hsort _).mpr hmembers.symm⟩

end ValueSet
end DeadCode
