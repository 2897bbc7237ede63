/-! # Handles

Blocks and instructions are named by integers, counted from zero in the order of their creation.
A jump target or an old operand may hold any integer at all, and only a look-up says whether it
names anything; functions are numbered by the program that holds them.
-/
namespace DeadCode

variable {α : Type}

/-- The entry that a handle names, if it names one. -/
def nth? (l : List α) : Int → Option α
  | .ofNat n => l[n]?
  | .negSucc _ => none

/-- Changes the entry that a handle names, and nothing if it names none. -/
def modifyNth (l : List α) (f : α → α) : Int → List α
  | .ofNat n => l.modify n f
  | .negSucc _ => l

@[simp] theorem nth?_natCast (l : List α) (n : Nat) : nth? l (n : Int) = l[n]? := rfl
@[simp] theorem modifyNth_natCast (l : List α) (f : α → α) (n : Nat) :
    modifyNth l f (n : Int) = l.modify n f := rfl

@[simp] theorem length_modifyNth (l : List α) (f : α → α) (i : Int) :
    (modifyNth l f i).length = l.length := by
  cases i <;> simp [modifyNth]

theorem nth?_isSome_iff (l : List α) (i : Int) :
    (nth? l i).isSome ↔ 0 ≤ i ∧ i < (l.length : Int) := by
  cases i with
  | ofNat n => simp [nth?]
  | negSucc n => simp [nth?]

theorem nth?_eq_some_iff {l : List α} {i : Int} {a : α} :
    nth? l i = some a ↔ ∃ n : Nat, i = n ∧ l[n]? = some a := by
  cases i with
  | ofNat n =>
    constructor
    · intro h
      exact ⟨n, rfl, h⟩
    · rintro ⟨k, hk, h⟩
      obtain rfl : n = k := Int.ofNat.inj hk
      exact h
  | negSucc n =>
    constructor
    · intro h
      simp [nth?] at h
    · rintro ⟨k, hk, -⟩
      omega

theorem nth?_modifyNth (l : List α) (f : α → α) (i j : Int) :
    nth? (modifyNth l f i) j = if i = j then (nth? l j).map f else nth? l j := by
  cases i with
  | ofNat n =>
    cases j with
    | ofNat m =>
      simp only [nth?, modifyNth, List.getElem?_modify, Int.ofNat.injEq]
      split
      · subst_vars
        simp
      · simp
    | negSucc m => simp [nth?]
  | negSucc n =>
    cases j with
    | ofNat m => simp [nth?, modifyNth]
    | negSucc m => simp [nth?]

theorem ext_nth? {l m : List α} (h : ∀ i, nth? l i = nth? m i) : l = m :=
  List.ext_getElem? fun n => h n

theorem modifyNth_comm (l : List α) (f g : α → α) {i j : Int} (h : i ≠ j) :
    modifyNth (modifyNth l f i) g j = modifyNth (modifyNth l g j) f i := by
  cases i with
  | ofNat m =>
    cases j with
    | ofNat n => exact List.modify_modify_ne f g l fun e => h (congrArg Int.ofNat e)
    | negSucc n => rfl
  | negSucc m => rfl

def blockText (b : Int) : String := "bb_" ++ toString b
def instrText (i : Int) : String := "%" ++ toString i

end DeadCode
