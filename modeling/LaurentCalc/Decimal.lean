/-!
# Decimal numbers

Expressions are written with decimal digits and with signs, and so is every number that the
calculator prints.  A sign stands before a term and, on its own account, before an exponent.  Both
directions live here, over digits as numbers below ten; characters come in only at the edge.

* `Sign.apply`, `Sign.ofInt` — the integer that a sign and a magnitude denote, and the sign an
  integer is printed with; zero is printed as a positive number.
* `Decimal.digits` — the digits of a natural number, without leading zeros.
* `Decimal.value` — the number a run of digits denotes, leading zeros or not.
* **`Decimal.value_digits`** — the value of the digits of `n` is `n`.
* `Decimal.text`, `Decimal.signedText` — how a number is printed.
* `Numeral` — a run of at least one digit, as it is written in an expression.
-/

namespace LaurentCalc

/-! ## Signs -/

inductive Sign where
  | plus
  | minus
deriving DecidableEq, Repr

namespace Sign

def char : Sign → Char
  | plus => '+'
  | minus => '-'

def apply : Sign → Nat → Int
  | plus, n => n
  | minus, n => -n

/-- The sign of an integer: minus below zero, plus otherwise. -/
def ofInt (n : Int) : Sign := if n < 0 then minus else plus

@[simp] theorem apply_ofInt (n : Int) : (ofInt n).apply n.natAbs = n := by
  rw [ofInt]
  split <;> simp only [apply] <;> omega

end Sign

/-! ## Digits -/

abbrev Digit := Fin 10

namespace Digit

def char (d : Digit) : Char := Char.ofNat ('0'.toNat + d)

/-- The digit that a character stands for: `0` to `9`, and no other character. -/
def ofChar? (c : Char) : Option Digit :=
  if h : '0' ≤ c ∧ c ≤ '9' then some (⟨c.toNat - '0'.toNat, by
    have h9 : c.toNat ≤ 57 := h.2
    show c.toNat - 48 < 10
    omega⟩) else none

theorem char_of_ofChar? {c : Char} {d : Digit} (h : ofChar? c = some d) : d.char = c := by
  rw [ofChar?] at h
  split at h
  next hc =>
    have h0 : 48 ≤ c.toNat := hc.1
    cases h
    show Char.ofNat (48 + (c.toNat - 48)) = c
    rw [show 48 + (c.toNat - 48) = c.toNat by omega, Char.ofNat_toNat]
  next => cases h

end Digit

/-! ## Digits of a number -/

namespace Decimal

/-- The digits of `n`, most significant first; the digits of `0` are a single zero. -/
def digits (n : Nat) : List Digit :=
  if h : n < 10 then [⟨n, h⟩] else digits (n / 10) ++ [⟨n % 10, Nat.mod_lt _ (by decide)⟩]

/-- The number that a run of digits denotes. -/
def value (ds : List Digit) : Nat := ds.foldl (fun v d => 10 * v + d.val) 0

theorem value_append_singleton (ds : List Digit) (d : Digit) :
    value (ds ++ [d]) = 10 * value ds + d.val := by
  simp [value, List.foldl_append]

/-- **Written digits read back.** -/
theorem value_digits (n : Nat) : value (digits n) = n := by
  fun_induction digits n with
  | case1 n h => simp [value]
  | case2 n h ih =>
    rw [value_append_singleton, ih]
    show 10 * (n / 10) + n % 10 = n
    omega

theorem digits_ne_nil (n : Nat) : digits n ≠ [] := by
  rw [digits]
  split <;> simp

def text (n : Nat) : String := String.ofList ((digits n).map Digit.char)

/-- The decimal text of an integer: a hyphen stands before a negative one, nothing before the
others. -/
def signedText (n : Int) : String := if n < 0 then "-" ++ text n.natAbs else text n.natAbs

end Decimal

/-! ## Numerals -/

/-- A run of at least one digit, kept as it was written.  The last digit comes first, so that
reading one more does not touch those before it. -/
structure Numeral where
  /-- The digits, from the last to the first. -/
  reversed : List Digit
  /-- There is at least one. -/
  reversed_ne_nil : reversed ≠ []
deriving DecidableEq, Repr

namespace Numeral

/-- The digits, in writing order. -/
def digits (n : Numeral) : List Digit := n.reversed.reverse

def single (d : Digit) : Numeral := ⟨[d], by simp⟩

def push (n : Numeral) (d : Digit) : Numeral := ⟨d :: n.reversed, by simp⟩

def ofNat (n : Nat) : Numeral :=
  ⟨(Decimal.digits n).reverse, fun h => Decimal.digits_ne_nil n (List.reverse_eq_nil_iff.1 h)⟩

/-- The number it denotes. -/
def value (n : Numeral) : Nat := Decimal.value n.digits

def chars (n : Numeral) : List Char := n.digits.map Digit.char

@[simp] theorem digits_single (d : Digit) : (single d).digits = [d] := rfl

@[simp] theorem digits_push (n : Numeral) (d : Digit) : (n.push d).digits = n.digits ++ [d] :=
  List.reverse_cons

@[simp] theorem digits_ofNat (n : Nat) : (ofNat n).digits = Decimal.digits n :=
  List.reverse_reverse _

@[simp] theorem value_ofNat (n : Nat) : (ofNat n).value = n := by
  rw [value, digits_ofNat, Decimal.value_digits]

end Numeral

end LaurentCalc
