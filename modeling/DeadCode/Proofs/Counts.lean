import DeadCode.Options
import Mathlib.Data.String.Basic
import Mathlib.Tactic.FinCases

/-! # Counts are read as they are written

The reader of numerals takes one sign after another, and what it has taken so far are digits of the
number it holds. So it accepts exactly the texts of the grammar, each with the number it denotes. A
count passes through a word of 64 bits, whose upper half stands for negative numbers. If the least
count is not negative, the test against it also refuses all of these, so no numeral is read as a
number other than its own.
-/
namespace DeadCode

namespace Numeral
variable {base n d m : Nat} {c : Char} {cs done sign : List Char} {behindDigit : Bool}

theorem toNat_digitChar (hd : d < 16) :
    d.digitChar.toNat = if d < 10 then d + 48 else d + 87 := by
  revert d
  decide

theorem toNat_toLower (c : Char) :
    c.toLower.toNat = if 65 ≤ c.toNat ∧ c.toNat ≤ 90 then c.toNat + 32 else c.toNat := by
  have hupper : c.val ≥ 'A'.val ∧ c.val ≤ 'Z'.val ↔ 65 ≤ c.toNat ∧ c.toNat ≤ 90 := by
    simp [UInt32.le_iff_toNat_le]
  delta Char.toLower
  split
  · next h =>
    obtain ⟨h65, h90⟩ := hupper.mp h
    rw [if_pos ⟨h65, h90⟩]
    change (c.val + 32).toNat = c.toNat + 32
    rw [UInt32.toNat_add, Char.toNat_val]
    exact Nat.mod_eq_of_lt (by simp; omega)
  · next h => rw [if_neg (mt hupper.mpr h)]

theorem digit?_eq_some_iff (hd : d < 16) : digit? c = some d ↔ c.toLower = d.digitChar := by
  rw [← Char.toNat_inj, toNat_digitChar hd, toNat_toLower]
  simp only [digit?]
  split_ifs <;> simp <;> omega

theorem base?_of_digit (hd : d < 10) (hc : c.toLower = d.digitChar) : base? c = none := by
  have hdigit : digit? c = some d := (digit?_eq_some_iff (by omega)).mpr hc
  have hletter : ∀ l ∈ ['x', 'X', 'o', 'O', 'b', 'B'], c ≠ l := by
    rintro l hl rfl
    fin_cases hl <;> simp [digit?] at hdigit <;> omega
  simp only [List.forall_mem_cons] at hletter
  simp [base?, hletter]

theorem Digits.exists_head (h : Digits base n cs) :
    ∃ c, cs.head? = some c ∧ ∃ d < base, c.toLower = d.digitChar := by
  induction h with
  | first hd hc => exact ⟨_, rfl, _, hd, hc⟩
  | next _ _ _ _ ih =>
    obtain ⟨c, hhead, hc⟩ := ih
    exact ⟨c, by simp [hhead], hc⟩

theorem Digits.ne_nil (h : Digits base n cs) : cs ≠ [] := by
  cases h <;> simp

theorem readDigits_underscore :
    readDigits base true m ('_' :: cs) = readDigits base false m cs := by
  simp [readDigits]

section
variable (hbase : base ≤ 16)
include hbase

theorem readDigits_digit (hd : d < base) (hc : c.toLower = d.digitChar) :
    readDigits base behindDigit m (c :: cs) = readDigits base true (base * m + d) cs := by
  have hdigit : digit? c = some d := (digit?_eq_some_iff (by omega)).mpr hc
  have hgap : c ≠ '_' := by
    rintro rfl
    simp [digit?] at hdigit
  simp [readDigits, hgap, hdigit, hd]

/-- The reader either takes an underscore that stands behind a digit, or takes a digit. -/
theorem readDigits_cons_cases (h : readDigits base behindDigit m (c :: cs) = some n) :
    (c = '_' ∧ behindDigit = true ∧ readDigits base false m cs = some n) ∨
    ∃ d < base, c.toLower = d.digitChar ∧ readDigits base true (base * m + d) cs = some n := by
  simp only [readDigits] at h
  split at h
  next hc =>
    split at h
    next hb => exact .inl ⟨hc, hb, h⟩
    next => contradiction
  next =>
    split at h
    next d hdigit =>
      split at h
      next hd => exact .inr ⟨d, hd, (digit?_eq_some_iff (by omega)).mp hdigit, h⟩
      next => contradiction
    next => contradiction

theorem Digits.read_append (h : Digits base n cs) (behindDigit : Bool) (rest : List Char) :
    readDigits base behindDigit 0 (cs ++ rest) = readDigits base true n rest := by
  induction h generalizing rest with
  | first hd hc => simp [readDigits_digit hbase hd hc]
  | next _ hgap hd hc ih =>
    rcases hgap with rfl | rfl
    · simp [ih, readDigits_digit hbase hd hc]
    · simp [ih, readDigits_underscore, readDigits_digit hbase hd hc]

theorem Digits.of_readDigits (h : Digits base m done) :
    (readDigits base true m cs = some n → Digits base n (done ++ cs)) ∧
    (readDigits base false m cs = some n → Digits base n (done ++ '_' :: cs)) := by
  -- Both flags in one induction: an underscore leads from the first to the second, a digit back.
  induction cs generalizing m done with
  | nil =>
    constructor
    · intro hr
      obtain rfl : m = n := by simpa [readDigits] using hr
      simpa using h
    · simp [readDigits]
  | cons c cs ih =>
    constructor
    · intro hr
      rcases readDigits_cons_cases hbase hr with ⟨rfl, -, hr⟩ | ⟨d, hd, hc, hr⟩
      · exact (ih h).2 hr
      · simpa using (ih (h.next (.inl rfl) hd hc)).1 hr
    · intro hr
      rcases readDigits_cons_cases hbase hr with ⟨-, hb, -⟩ | ⟨d, hd, hc, hr⟩
      · contradiction
      · simpa using (ih (h.next (.inr rfl) hd hc)).1 hr

theorem readDigits_false_eq_some_iff :
    readDigits base false 0 cs = some n ↔ Digits base n cs := by
  constructor
  · intro hr
    cases cs with
    | nil => simp [readDigits] at hr
    | cons c cs =>
      rcases readDigits_cons_cases hbase hr with ⟨-, hb, -⟩ | ⟨d, hd, hc, hr⟩
      · contradiction
      · exact ((Digits.first hd hc).of_readDigits hbase).1 (by simpa using hr)
  · intro h
    simpa [readDigits] using h.read_append hbase false []

theorem readDigits_true_eq_some_iff :
    readDigits base true 0 cs = some n ↔
      cs = [] ∧ n = 0 ∨ ∃ gap rest, IsGap gap ∧ cs = gap ++ rest ∧ Digits base n rest := by
  constructor
  · intro hr
    cases cs with
    | nil => exact .inl ⟨rfl, by simpa [readDigits, eq_comm] using hr⟩
    | cons c cs =>
      rcases readDigits_cons_cases hbase hr with ⟨rfl, -, hr⟩ | ⟨d, hd, hc, hr⟩
      · exact .inr ⟨['_'], cs, .inr rfl, rfl, (readDigits_false_eq_some_iff hbase).mp hr⟩
      · have hread : readDigits base false 0 (c :: cs) = some n :=
          (readDigits_digit hbase hd hc).trans hr
        exact .inr ⟨[], c :: cs, .inl rfl, rfl, (readDigits_false_eq_some_iff hbase).mp hread⟩
  · rintro (⟨rfl, rfl⟩ | ⟨gap, rest, rfl | rfl, rfl, h⟩)
    · rfl
    · simpa [readDigits] using h.read_append hbase true []
    · simpa [readDigits] using h.read_append hbase false []

end

theorem mem_signs_iff :
    (sign, base) ∈ signs ↔
      (∃ c, base? c = some base ∧ sign = ['0', c]) ∨ sign = ['0'] ∧ base = 8 := by
  simp only [signs, base?, List.mem_cons, Prod.mk.injEq, List.not_mem_nil, or_false]
  grind

theorem base_le_of_mem_signs (h : (sign, base) ∈ signs) : base ≤ 16 := by
  simp only [signs, List.mem_cons, Prod.mk.injEq, List.not_mem_nil, or_false] at h
  omega

theorem read?_of_base? (h : base? c = some base) (hne : cs ≠ []) :
    read? ('0' :: c :: cs) = readDigits base true 0 cs := by
  obtain ⟨d, rest, rfl⟩ := List.exists_cons_of_ne_nil hne
  simp [read?, h]

theorem read?_of_zero (h : ∀ c ∈ cs.head?, base? c = none) :
    read? ('0' :: cs) = readDigits 8 true 0 cs := by
  match cs with
  | [] => rfl
  | [c] => rfl
  | c :: d :: rest => simp [read?, h c rfl]

theorem read?_of_head?_ne (h : cs.head? ≠ some '0') : read? cs = readDigits 10 false 0 cs := by
  unfold read?
  split <;> simp_all

theorem denotes_of_readDigits (hsign : (sign, base) ∈ signs) (hne : cs ≠ [])
    (h : readDigits base true 0 cs = some n) : Denotes (sign ++ cs) n := by
  rcases (readDigits_true_eq_some_iff (base_le_of_mem_signs hsign)).mp h with
    ⟨hnil, -⟩ | ⟨gap, rest, hgap, rfl, hdigits⟩
  · contradiction
  · rw [← List.append_assoc]
    exact .based hsign hgap hdigits

theorem base?_of_octal {gap : List Char} (hgap : IsGap gap) (h : Digits 8 n cs) :
    ∀ c ∈ (gap ++ cs).head?, base? c = none := by
  rcases hgap with rfl | rfl
  · obtain ⟨c, hhead, d, hd, hc⟩ := h.exists_head
    simpa [hhead] using base?_of_digit (by omega) hc
  · simp [base?]

/-- The reader accepts exactly the numerals, each with the number that it denotes. -/
theorem read?_eq_some_iff : read? cs = some n ↔ Denotes cs n := by
  have hoctal : (['0'], 8) ∈ signs := by decide
  constructor
  · intro h
    unfold read? at h
    split at h
    next c d rest =>
      split at h
      next base hc =>
        exact denotes_of_readDigits (mem_signs_iff.mpr (.inl ⟨c, hc, rfl⟩)) (by simp) h
      next => exact denotes_of_readDigits hoctal (by simp) h
    next rest _ =>
      cases rest with
      | nil =>
        obtain rfl : 0 = n := by simpa [readDigits] using h
        exact .zero
      | cons c rest => exact denotes_of_readDigits hoctal (by simp) h
    next _ hcs =>
      refine .decimal ((readDigits_false_eq_some_iff (by decide)).mp h) fun hzero => ?_
      obtain ⟨rest, rfl⟩ := List.head?_eq_some_iff.mp hzero
      exact hcs rest rfl
  · intro h
    cases h with
    | zero => rfl
    | decimal h hzero =>
      rw [read?_of_head?_ne hzero]
      exact (readDigits_false_eq_some_iff (by decide)).mpr h
    | @based base n sign gap cs hsign hgap h =>
      have hread : readDigits base true 0 (gap ++ cs) = some n :=
        (readDigits_true_eq_some_iff (base_le_of_mem_signs hsign)).mpr
          (.inr ⟨gap, cs, hgap, rfl, h⟩)
      rw [List.append_assoc]
      rcases mem_signs_iff.mp hsign with ⟨c, hc, rfl⟩ | ⟨rfl, rfl⟩
      · exact (read?_of_base? hc (by simp [h.ne_nil])).trans hread
      · exact (read?_of_zero (base?_of_octal hgap h)).trans hread

theorem toLower_digitChar (hd : d < 16) : d.digitChar.toLower = d.digitChar := by
  revert d
  decide

theorem digits_toDigits (hone : 1 < base) (hbase : base ≤ 16) (n : Nat) :
    Digits base n (Nat.toDigits base n) := by
  induction n using Nat.strong_induction_on with
  | _ n ih =>
    by_cases hn : n < base
    · rw [Nat.toDigits_of_lt_base hn]
      exact .first hn (toLower_digitChar (by omega))
    · have hd : n % base < base := Nat.mod_lt n (by omega)
      have hfront := ih (n / base) (Nat.div_lt_self (by omega) hone)
      have h := hfront.next (.inl rfl) hd (toLower_digitChar (by omega))
      rw [Nat.div_add_mod] at h
      rw [Nat.toDigits_of_base_le hone (by omega)]
      simpa using h

theorem head?_toDigits_ne_zero (hone : 1 < base) (hn : 0 < n) :
    (Nat.toDigits base n).head? ≠ some '0' := by
  induction n using Nat.strong_induction_on with
  | _ n ih =>
    by_cases hlt : n < base
    · rw [Nat.toDigits_of_lt_base hlt]
      simp
      omega
    · rw [Nat.toDigits_of_base_le hone (by omega),
        List.head?_append_of_ne_nil _ Nat.toDigits_ne_nil]
      exact ih (n / base) (Nat.div_lt_self hn hone) (Nat.div_pos (by omega) (by omega))

namespace Radix

theorem one_lt_base (r : Radix) : 1 < r.base := by cases r <;> decide

theorem base_le (r : Radix) : r.base ≤ 16 := by cases r <;> decide

theorem mem_signs {r : Radix} (hr : r ≠ .decimal) : (r.sign, r.base) ∈ signs := by
  cases r with
  | decimal => contradiction
  | hexadecimal | octal | binary => decide

/-- A written numeral is in the grammar and denotes the number that was written. -/
theorem denotes_write (r : Radix) (n : Nat) : Denotes (r.write n).toList n := by
  have hdigits := digits_toDigits r.one_lt_base r.base_le n
  rw [write, String.toList_ofList]
  by_cases hr : r = .decimal
  · subst hr
    rcases Nat.eq_zero_or_pos n with rfl | hn
    · exact .zero
    · exact .decimal hdigits (head?_toDigits_ne_zero (by decide) hn)
  · simpa using Denotes.based (mem_signs hr) (.inl rfl) hdigits

end Radix

end Numeral

section
variable {key text : String} {fallback least count : Int} {n : Nat}
open Numeral

theorem bmod_of_lt (hn : n < 2 ^ 63) : Int.bmod n (2 ^ 64) = n := by
  rw [Int.bmod_def]
  omega

theorem bmod_neg (hlow : 2 ^ 63 ≤ n) (hn : n < 2 ^ 64) : Int.bmod n (2 ^ 64) < 0 := by
  rw [Int.bmod_def]
  omega

theorem readCount_of_read? (h : read? text.toList = some n) :
    readCount key text fallback least =
      if 2 ^ 64 ≤ n then .error (.invalidSetting key)
      else if Int.bmod n (2 ^ 64) < least then .error (.smallSetting key)
      else .ok (Int.bmod n (2 ^ 64)) := by
  have hne : text ≠ "" := by
    rintro rfl
    simp [read?, readDigits] at h
  simp [readCount, hne, h, UInt64.size]

theorem readCount_of_read?_eq_none (hne : text ≠ "") (h : read? text.toList = none) :
    readCount key text fallback least = .error (.invalidSetting key) := by
  simp [readCount, hne, h]

/-- For a least count that is not negative, the test against it also refuses the upper half of the
words. -/
theorem readCount_of_denotes (hleast : 0 ≤ least) (h : Denotes text.toList n) :
    readCount key text fallback least =
      if least ≤ n ∧ n < 2 ^ 63 then .ok (n : Int)
      else .error (if n < 2 ^ 64 then .smallSetting key else .invalidSetting key) := by
  rw [readCount_of_read? (read?_eq_some_iff.mpr h)]
  rcases Nat.lt_or_ge n (2 ^ 63) with hlow | hlow
  · rw [if_neg (by omega : ¬ 2 ^ 64 ≤ n), bmod_of_lt hlow]
    by_cases hle : least ≤ n
    · rw [if_neg (by omega), if_pos ⟨hle, hlow⟩]
    · rw [if_pos (by omega), if_neg (fun hin => hle hin.1), if_pos (by omega)]
  · rw [if_neg (by omega : ¬ (least ≤ n ∧ n < 2 ^ 63))]
    by_cases hword : n < 2 ^ 64
    · have hneg := bmod_neg hlow hword
      rw [if_neg (by omega), if_pos (by omega), if_pos hword]
    · rw [if_pos (by omega), if_neg hword]

theorem readCount_eq_ok_iff (hleast : 0 ≤ least) (hne : text ≠ "") :
    readCount key text fallback least = .ok count ↔
      ∃ n : Nat, Denotes text.toList n ∧ count = n ∧ least ≤ n ∧ n < 2 ^ 63 := by
  constructor
  · intro hok
    cases hread : read? text.toList with
    | none => simp [readCount_of_read?_eq_none hne hread] at hok
    | some n =>
      have hn := read?_eq_some_iff.mp hread
      rw [readCount_of_denotes hleast hn] at hok
      split at hok
      next hin =>
        cases hok
        exact ⟨n, hn, rfl, hin⟩
      next => contradiction
  · rintro ⟨n, hn, rfl, hin⟩
    rw [readCount_of_denotes hleast hn, if_pos hin]

theorem least_le_of_readCount (hne : text ≠ "")
    (h : readCount key text fallback least = .ok count) : least ≤ count := by
  cases hread : read? text.toList with
  | none => simp [readCount_of_read?_eq_none hne hread] at h
  | some n =>
    rw [readCount_of_read? hread] at h
    split_ifs at h with hword hsmall
    have hcount : Int.bmod n (2 ^ 64) = count := Except.ok.inj h
    omega

/-- A count is never read as a number other than the one that was written. For a least count that
is not negative, the decimal, hexadecimal, octal and binary numerals of a number are read as this
number if it is neither below the least count nor too large for a signed word. The others are
refused: as too small also in the upper half of the words, which stands for negative numbers, and as
invalid beyond the words. Of all texts but the empty one, exactly those are read that denote such a
number. Whatever the least count is, no text but the empty one is read as less. -/
theorem readCount_exact (key : String) (fallback least : Int) :
    (0 ≤ least →
      (∀ (r : Radix) (n : Nat), readCount key (r.write n) fallback least =
        if least ≤ n ∧ n < 2 ^ 63 then .ok (n : Int)
        else .error (if n < 2 ^ 64 then .smallSetting key else .invalidSetting key)) ∧
      ∀ (text : String) (count : Int), text ≠ "" →
        (readCount key text fallback least = .ok count ↔
          ∃ n : Nat, Denotes text.toList n ∧ count = n ∧ least ≤ n ∧ n < 2 ^ 63)) ∧
    ∀ (text : String) (count : Int), text ≠ "" →
      readCount key text fallback least = .ok count → least ≤ count := by
  refine ⟨fun hleast => ⟨fun r n => ?_, fun text count hne => ?_⟩, fun text count hne => ?_⟩
  · exact readCount_of_denotes hleast (r.denotes_write n)
  · exact readCount_eq_ok_iff hleast hne
  · exact least_le_of_readCount hne

/-- The bounds of a signed word and of a word, in four bases; then a text that only the grammar
derives, and one that a negative least count lets pass. -/
theorem readCount_word_bounds :
    let read := readCount "DCE_MAX_WORKERS"
    (0 : Int) ≤ 1 ∧
    read "0x7fffffffffffffff" 4 1 = .ok 9223372036854775807 ∧
    read "9223372036854775808" 4 1 = .error (.smallSetting "DCE_MAX_WORKERS") ∧
    read "0o2000000000000000000000" 4 1 = .error (.invalidSetting "DCE_MAX_WORKERS") ∧
    read "0b0" 4 1 = .error (.smallSetting "DCE_MAX_WORKERS") ∧
    read "0X_00f_F" 4 1 = .ok 255 ∧
    read "18446744073709551613" 4 (-4) = .ok (-3) ∧ (-4 : Int) ≤ -3 := by
  intro read
  obtain ⟨hwrite, htext⟩ := (readCount_exact "DCE_MAX_WORKERS" 4 1).1 (by decide)
  have hlargest : Radix.hexadecimal.write (2 ^ 63 - 1) = "0x7fffffffffffffff" := by decide
  have hhalf : Radix.decimal.write (2 ^ 63) = "9223372036854775808" := by decide
  have hbeyond : Radix.octal.write (2 ^ 64) = "0o2000000000000000000000" := by decide
  have hzero : Radix.binary.write 0 = "0b0" := by decide
  have hupper : read "18446744073709551613" 4 (-4) = .ok (-3) := by decide
  refine ⟨by decide, ?_, ?_, ?_, ?_, ?_, hupper, ?_⟩
  · exact hlargest ▸ (hwrite .hexadecimal (2 ^ 63 - 1)).trans (by decide)
  · exact hhalf ▸ (hwrite .decimal (2 ^ 63)).trans (by decide)
  · exact hbeyond ▸ (hwrite .octal (2 ^ 64)).trans (by decide)
  · exact hzero ▸ (hwrite .binary 0).trans (by decide)
  · exact (htext "0X_00f_F" 255 (by decide)).mpr
      ⟨255, read?_eq_some_iff.mp (by decide), rfl, by decide, by decide⟩
  · exact (readCount_exact "DCE_MAX_WORKERS" 4 (-4)).2 _ _ (by decide) hupper

end
end DeadCode
