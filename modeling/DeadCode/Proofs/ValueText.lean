import DeadCode.Liveness.Text
import Mathlib.Data.List.Basic

/-! # Printed values are told apart

The printed form of a value shows its kind by the signs in it and its number in decimal, so values
of one function print differently. No value prints a comma or a line end. So the text of a set can
be cut at its commas into the texts of its members, and a trace at its line ends into the texts of
its sets.
-/
namespace DeadCode

section
variable {α : Type} {c : α} {sep : List α}

theorem append_cons_inj_left {l m rest rest' : List α} (hl : c ∉ l) (hm : c ∉ m)
    (h : l ++ c :: rest = m ++ c :: rest') : l = m ∧ rest = rest' := by
  induction l generalizing m with
  | nil =>
    cases m with
    | nil => exact ⟨rfl, by simpa using h⟩
    | cons b m => exact absurd (by simp_all) hm
  | cons a l ih =>
    cases m with
    | nil => exact absurd (by simp_all) hl
    | cons b m =>
      simp only [List.cons_append, List.cons.injEq] at h
      obtain ⟨rfl, h⟩ := h
      obtain ⟨rfl, hrest⟩ := ih (fun hc => hl (.tail _ hc)) (fun hc => hm (.tail _ hc)) h
      exact ⟨rfl, hrest⟩

/-- A list of pieces can be read back off their concatenation if each piece is followed by a mark
whose first sign occurs in no piece. -/
theorem flatMap_append_cons_inj {ls ms : List (List α)} (hl : ∀ l ∈ ls, c ∉ l)
    (hm : ∀ m ∈ ms, c ∉ m)
    (h : ls.flatMap (· ++ c :: sep) = ms.flatMap (· ++ c :: sep)) : ls = ms := by
  induction ls generalizing ms with
  | nil =>
    cases ms with
    | nil => rfl
    | cons m ms => simp at h
  | cons l ls ih =>
    cases ms with
    | nil => simp at h
    | cons m ms =>
      obtain ⟨hl, hls⟩ := List.forall_mem_cons.mp hl
      obtain ⟨hm, hms⟩ := List.forall_mem_cons.mp hm
      simp only [List.flatMap_cons, List.append_assoc, List.cons_append] at h
      obtain ⟨rfl, hrest⟩ := append_cons_inj_left hl hm h
      rw [ih hls hms (List.append_cancel_left hrest)]

theorem intercalate_append {ls : List (List α)} (hne : ls ≠ []) :
    sep.intercalate ls ++ sep = ls.flatMap (· ++ sep) := by
  induction ls with
  | nil => exact absurd rfl hne
  | cons l ls ih =>
    cases ls with
    | nil => simp
    | cons m ls =>
      rw [List.intercalate_cons_cons, List.flatMap_cons, ← ih (List.cons_ne_nil m ls)]
      simp only [List.append_assoc]

theorem intercalate_inj {ls ms : List (List α)} (hl : ∀ l ∈ ls, c ∉ l ∧ l ≠ [])
    (hm : ∀ m ∈ ms, c ∉ m ∧ m ≠ []) (h : (c :: sep).intercalate ls = (c :: sep).intercalate ms) :
    ls = ms := by
  have hnil : ∀ {ls : List (List α)}, (∀ l ∈ ls, c ∉ l ∧ l ≠ []) →
      (c :: sep).intercalate ls = [] → ls = [] := by
    intro ls hl h
    match ls with
    | [] => rfl
    | [l] => exact absurd (by simpa using h) (hl l List.mem_cons_self).2
    | l :: m :: ls => simp [List.intercalate_cons_cons] at h
  by_cases hls : ls = []
  · subst hls
    exact (hnil hm (by simpa using h.symm)).symm
  · by_cases hms : ms = []
    · subst hms
      exact hnil hl (by simpa using h)
    · have hmarked : ls.flatMap (· ++ c :: sep) = ms.flatMap (· ++ c :: sep) := by
        rw [← intercalate_append hls, ← intercalate_append hms, h]
      exact flatMap_append_cons_inj (fun l hmem => (hl l hmem).1) (fun m hmem => (hm m hmem).1)
        hmarked

theorem notMem_intercalate {ls : List (List α)} (hsep : c ∉ sep) (hl : ∀ l ∈ ls, c ∉ l) :
    c ∉ sep.intercalate ls := by
  induction ls with
  | nil => simp
  | cons l ls ih =>
    obtain ⟨hl, hls⟩ := List.forall_mem_cons.mp hl
    cases ls with
    | nil => simpa using hl
    | cons m ls => simp [List.intercalate_cons_cons, hsep, hl, ih hls]

theorem map_inj_on {β : Type} {f : α → β} {l m : List α}
    (hf : ∀ a ∈ l, ∀ b ∈ m, f a = f b → a = b) (h : l.map f = m.map f) : l = m := by
  induction l generalizing m with
  | nil => simpa using h.symm
  | cons a l ih =>
    cases m with
    | nil => simp at h
    | cons b m =>
      obtain ⟨hab, hlm⟩ := List.cons.inj h
      rw [hf a List.mem_cons_self b List.mem_cons_self hab,
        ih (fun a ha b hb => hf a (.tail _ ha) b (.tail _ hb)) hlm]

end

namespace Value
variable {f : Nat} {v w : Value}

theorem notMem_toDigits {c : Char} (hdigit : c.isDigit = false) (n : Nat) :
    c ∉ Nat.toDigits 10 n := by
  intro h
  have hd := Nat.isDigit_of_mem_toDigits (by decide) (by decide) h
  simp [hdigit] at hd

theorem notMem_repr {c : Char} (hminus : c ≠ '-') (hdigit : c.isDigit = false) (i : Int) :
    c ∉ i.repr.toList := by
  have hdigits := notMem_toDigits hdigit
  rw [Int.repr_eq_if]
  split
  · simp [hdigits]
  · simp [hminus, hdigits]

theorem repr_ne_nil (i : Int) : i.repr.toList ≠ [] := by
  rw [Int.repr_eq_if]
  split
  · simp [Nat.toDigits_ne_nil]
  · simp

/-- The kind that the signs of a printed value show. -/
def kindShown (text : List Char) : ValueKind :=
  if '<' ∈ text then .absent
  else if 'a' ∈ text then .arg
  else if '%' ∈ text then .instr
  else .const

theorem kindShown_text (v : Value) : kindShown v.text.toList = v.kind := by
  have hless := notMem_repr (c := '<') (by decide) (by decide)
  have ha := notMem_repr (c := 'a') (by decide) (by decide)
  have hpercent := notMem_repr (c := '%') (by decide) (by decide)
  cases v with
  | absent => decide
  | instr f i => simp [kindShown, text, instrText, kind, hless, ha]
  | arg f i => simp [kindShown, text, kind, hless]
  | const f n => simp [kindShown, text, kind, hless, ha, hpercent]

def indexShown (text : List Char) : Int :=
  let size : Int := Nat.ofDigitChars 10 (text.filter Char.isDigit) 0
  if '-' ∈ text then -size else size

theorem indexShown_append_repr (front : List Char) (hminus : '-' ∉ front)
    (hdigit : front.filter Char.isDigit = []) (i : Int) :
    indexShown (front ++ i.repr.toList) = i := by
  have hdigits : ∀ n, (Nat.toDigits 10 n).filter Char.isDigit = Nat.toDigits 10 n := by
    intro n
    exact List.filter_eq_self.mpr fun c => Nat.isDigit_of_mem_toDigits (by decide) (by decide)
  have hnot := notMem_toDigits (c := '-') (by decide)
  rw [Int.repr_eq_if]
  split
  · next hi =>
    have hshown : indexShown (front ++ i.toNat.repr.toList) = i.toNat := by
      simp [indexShown, hminus, hdigit, hdigits, hnot]
    rw [hshown, Int.toNat_of_nonneg hi]
  · next hi =>
    have hshown : indexShown (front ++ ("-" ++ (-i).toNat.repr).toList) = -((-i).toNat : Int) := by
      simp [indexShown, hdigit, hdigits]
    rw [hshown, Int.toNat_of_nonneg (by omega), Int.neg_neg]

theorem indexShown_text (v : Value) : indexShown v.text.toList = v.index := by
  cases v with
  | absent => decide
  | instr f i =>
    simpa [text, instrText, index] using indexShown_append_repr ['%'] (by decide) rfl i
  | arg f i =>
    simpa [text, index] using indexShown_append_repr ['%', 'a', 'r', 'g'] (by decide) rfl i
  | const f n => simpa [text, index] using indexShown_append_repr [] (by decide) rfl n

/-- The value is one of the function's own, or none at all. -/
def Within (f : Nat) (v : Value) : Prop := v = .absent ∨ v.owner = f

instance (f : Nat) (v : Value) : Decidable (v.Within f) := inferInstanceAs (Decidable (_ ∨ _))

theorem Within.eq_of_index_eq (hv : v.Within f) (hw : w.Within f) (hk : v.kind = w.kind)
    (hi : v.index = w.index) : v = w := by
  apply eq_of_parts (congrArg ValueKind.code hk) hi
  cases v <;> cases w <;> simp_all [Within, kind, owner]

theorem Within.eq_of_text_eq (hv : v.Within f) (hw : w.Within f) (h : v.text = w.text) :
    v = w := by
  have hk : v.kind = w.kind := by rw [← kindShown_text, h, kindShown_text]
  have hi : v.index = w.index := by rw [← indexShown_text, h, indexShown_text]
  exact hv.eq_of_index_eq hw hk hi

theorem notMem_text {c : Char} (hdigit : c.isDigit = false) (hc : c ∉ "-%arg<none>".toList)
    (v : Value) : c ∉ v.text.toList := by
  simp only [String.reduceToList, List.mem_cons, List.not_mem_nil, or_false, not_or] at hc
  have hrepr := notMem_repr hc.1 hdigit
  cases v <;> simp [text, instrText, hc, hrepr]

theorem text_ne_nil (v : Value) : v.text.toList ≠ [] := by
  cases v with
  | absent => decide
  | instr f i => simp [text, instrText]
  | arg f i => simp [text]
  | const f n => simpa [text] using repr_ne_nil n

theorem listText_inj {vs ws : List Value} (hv : ∀ v ∈ vs, v.Within f) (hw : ∀ w ∈ ws, w.Within f)
    (h : listText vs = listText ws) : vs = ws := by
  have hpieces : ∀ vs : List Value,
      ∀ l ∈ (vs.map text).map String.toList, ',' ∉ l ∧ l ≠ [] := by
    intro vs l hl
    obtain ⟨_, ht, rfl⟩ := List.mem_map.mp hl
    obtain ⟨v, -, rfl⟩ := List.mem_map.mp ht
    exact ⟨v.notMem_text (by decide) (by decide), v.text_ne_nil⟩
  have hlists := congrArg String.toList h
  simp only [listText, String.toList_intercalate] at hlists
  have htexts := intercalate_inj (hpieces vs) (hpieces ws) hlists
  refine map_inj_on (fun v hv' w hw' => (hv v hv').eq_of_text_eq (hw w hw')) ?_
  exact map_inj_on (fun _ _ _ _ => String.toList_injective) htexts

end Value

namespace ValueSet

theorem lineEnd_notMem_text (s : ValueSet) : '\n' ∉ s.text.toList := by
  have hlist : '\n' ∉ (Value.listText s.members).toList := by
    rw [Value.listText, String.toList_intercalate]
    refine notMem_intercalate (by decide) fun l hl => ?_
    obtain ⟨_, ht, rfl⟩ := List.mem_map.mp hl
    obtain ⟨v, -, rfl⟩ := List.mem_map.mp ht
    exact v.notMem_text (by decide) (by decide)
  simp [text, hlist]

theorem text_inj {f : Nat} {s t : ValueSet} (hs : ∀ v ∈ s, v.Within f) (ht : ∀ v ∈ t, v.Within f)
    (h : s.text = t.text) : s = t := by
  have hlist : Value.listText s.members = Value.listText t.members := by
    simpa [text] using h
  have hmembers := Value.listText_inj hs ht hlist
  ext v
  rw [mem_def, mem_def, hmembers]

end ValueSet

namespace Liveness
variable {lv lv' : Liveness} {fn fn' : Func} {f : Nat}

/-- The sets that the trace shows, line by line: what is live before every instruction but merges. -/
def traced (lv : Liveness) (fn : Func) : List ValueSet :=
  fn.code.filterMap fun x =>
    if x.kind = .merge then none else (lv.find? x.id).map (·.sides.before)

theorem traceLines_eq (lv : Liveness) (fn : Func) :
    lv.traceLines fn = (lv.traced fn ++ [∅]).map fun s : ValueSet => s.text ++ "\n" := by
  simp only [traceLines, traced, List.map_append, List.map_filterMap]
  congr 1
  refine List.filterMap_congr fun x _ => ?_
  split
  · rfl
  · simp [Function.comp_def]

theorem toList_traceText (lv : Liveness) (fn : Func) :
    (lv.traceText fn).toList =
      ((lv.traced fn ++ [∅]).map fun s : ValueSet => s.text.toList).flatMap (· ++ ['\n']) := by
  rw [traceText, traceLines_eq, String.toList_join, List.flatMap_map, List.flatMap_map]
  simp

/-- The trace determines the sets that it shows. -/
theorem traced_eq_of_traceText_eq (hf : ∀ s ∈ lv.traced fn, ∀ v ∈ s, v.Within f)
    (hf' : ∀ s ∈ lv'.traced fn', ∀ v ∈ s, v.Within f)
    (h : lv.traceText fn = lv'.traceText fn') : lv.traced fn = lv'.traced fn' := by
  have hlines : ∀ sets : List ValueSet,
      ∀ l ∈ sets.map fun s : ValueSet => s.text.toList, '\n' ∉ l := by
    intro sets l hl
    obtain ⟨s, -, rfl⟩ := List.mem_map.mp hl
    exact s.lineEnd_notMem_text
  have hlists := congrArg String.toList h
  rw [toList_traceText, toList_traceText] at hlists
  have htexts := flatMap_append_cons_inj (hlines _) (hlines _) hlists
  simp only [List.map_append, List.append_cancel_right_eq] at htexts
  exact map_inj_on (fun s hs t ht heq =>
    ValueSet.text_inj (hf s hs) (hf' t ht) (String.toList_injective heq)) htexts

end Liveness
end DeadCode
