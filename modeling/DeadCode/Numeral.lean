/-! # Numerals

A numeral is decimal unless it starts with a zero: `0x`, `0o` and `0b` announce the bases sixteen,
eight and two, and a bare leading zero also means eight. Letters may be of either case. A single
underscore may stand between two digits, or between the sign of the base and the first digit. Beside
the reader stand the grammar of numerals, with the number that each denotes, and a writer.
-/
namespace DeadCode.Numeral

def digit? (c : Char) : Option Nat :=
  let n := c.toNat
  if 48 ≤ n ∧ n ≤ 57 then some (n - 48)
  else if 97 ≤ n ∧ n ≤ 122 then some (n - 87)
  else if 65 ≤ n ∧ n ≤ 90 then some (n - 55)
  else none

/-- The base that a letter behind a leading zero announces. -/
def base? (c : Char) : Option Nat :=
  if c = 'x' ∨ c = 'X' then some 16
  else if c = 'o' ∨ c = 'O' then some 8
  else if c = 'b' ∨ c = 'B' then some 2
  else none

/-- Reads digits onto the number `n`. The flag says that a digit or the sign of the base stands
right before: an underscore needs one on its left, and so does the end. -/
def readDigits (base : Nat) : Bool → Nat → List Char → Option Nat
  | behindDigit, n, [] => if behindDigit then some n else none
  | behindDigit, n, c :: rest =>
    if c = '_' then
      if behindDigit then readDigits base false n rest else none
    else
      match digit? c with
      | some d => if d < base then readDigits base true (base * n + d) rest else none
      | none => none

def read? : List Char → Option Nat
  | '0' :: c :: d :: rest =>
    match base? c with
    | some base => readDigits base true 0 (d :: rest)
    | none => readDigits 8 true 0 (c :: d :: rest)
  | '0' :: rest => readDigits 8 true 0 rest
  | cs => readDigits 10 false 0 cs

def IsGap (cs : List Char) : Prop := cs = [] ∨ cs = ['_']

/-- Digits of the number `n`, with or without an underscore between two of them. -/
inductive Digits (base : Nat) : Nat → List Char → Prop
  | first {d : Nat} {c : Char} (hd : d < base) (hc : c.toLower = d.digitChar) : Digits base d [c]
  | next {n d : Nat} {cs gap : List Char} {c : Char} (h : Digits base n cs) (hgap : IsGap gap)
      (hd : d < base) (hc : c.toLower = d.digitChar) : Digits base (base * n + d) (cs ++ gap ++ [c])

def signs : List (List Char × Nat) := [
  (['0', 'x'], 16), (['0', 'X'], 16), (['0', 'o'], 8), (['0', 'O'], 8), (['0', 'b'], 2),
  (['0', 'B'], 2), (['0'], 8)]

/-- The numerals, with the numbers that they denote. -/
inductive Denotes : List Char → Nat → Prop
  | zero : Denotes ['0'] 0
  | decimal {n : Nat} {cs : List Char} (h : Digits 10 n cs) (hzero : cs.head? ≠ some '0') :
      Denotes cs n
  | based {base n : Nat} {sign gap cs : List Char} (hsign : (sign, base) ∈ signs) (hgap : IsGap gap)
      (h : Digits base n cs) : Denotes (sign ++ gap ++ cs) n

inductive Radix where
  | decimal
  | hexadecimal
  | octal
  | binary
deriving DecidableEq, Repr

namespace Radix

def base : Radix → Nat
  | decimal => 10
  | hexadecimal => 16
  | octal => 8
  | binary => 2

def sign : Radix → List Char
  | decimal => []
  | hexadecimal => ['0', 'x']
  | octal => ['0', 'o']
  | binary => ['0', 'b']

def write (r : Radix) (n : Nat) : String := String.ofList (r.sign ++ Nat.toDigits r.base n)

end Radix

end DeadCode.Numeral
