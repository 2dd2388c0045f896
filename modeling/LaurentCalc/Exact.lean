/-!
# Exact arithmetic on 64-bit integers

Coefficients, exponents and values are 64-bit signed integers, but no operation of the calculator
is allowed to wrap silently.  Every sum and product is therefore formed in `Int`, where it is
exact, and only then brought back to 64 bits, if it fits.

* `Fits` — the integers that a 64-bit signed integer can hold.
* `int64?` — the 64-bit integer with a given value, if there is one.
* `add?`, `mul?` — the sum and the product, if they fit.
* **`int64?_eq_some_iff`** — `int64?` loses nothing and invents nothing, so a proof about the
  operations above only ever has to look at their integer values.
-/

namespace LaurentCalc

/-! ## The range -/

/-- The integers from `-2^63`, which is included, to `2^63`, which is not. -/
def Fits (n : Int) : Prop := -0x8000000000000000 ≤ n ∧ n < 0x8000000000000000

instance : DecidablePred Fits := fun n =>
  inferInstanceAs (Decidable (-0x8000000000000000 ≤ n ∧ n < 0x8000000000000000))

theorem fits_toInt (w : Int64) : Fits w.toInt := ⟨w.le_toInt, w.toInt_lt⟩

theorem Fits.toInt_ofInt {n : Int} (h : Fits n) : (Int64.ofInt n).toInt = n :=
  Int64.toInt_ofInt_of_le h.1 h.2

/-- Every integer in the range is the value of a 64-bit integer. -/
theorem exists_toInt_iff {n : Int} : (∃ w : Int64, w.toInt = n) ↔ Fits n := by
  constructor
  · rintro ⟨w, rfl⟩
    exact fits_toInt w
  · exact fun h => ⟨Int64.ofInt n, h.toInt_ofInt⟩

/-- The 64-bit integer whose value is `n`; there is none when `n` is out of range. -/
def int64? (n : Int) : Option Int64 := if Fits n then some (Int64.ofInt n) else none

/-- **Exactness.**  `int64? n` is the one 64-bit integer with the value `n`. -/
theorem int64?_eq_some_iff {n : Int} {w : Int64} : int64? n = some w ↔ w.toInt = n := by
  rw [int64?]
  split
  next h =>
    rw [Option.some.injEq]
    constructor
    · rintro rfl
      exact h.toInt_ofInt
    · rintro rfl
      exact Int64.ofInt_toInt w
  next h =>
    constructor
    · intro hn
      cases hn
    · rintro rfl
      exact absurd (fits_toInt w) h

theorem int64?_eq_none_iff {n : Int} : int64? n = none ↔ ¬ Fits n := by
  rw [int64?]
  split <;> simp_all

@[simp] theorem int64?_toInt (w : Int64) : int64? w.toInt = some w := int64?_eq_some_iff.2 rfl

/-! ## Checked operations -/

def add? (a b : Int64) : Option Int64 := int64? (a.toInt + b.toInt)

def mul? (a b : Int64) : Option Int64 := int64? (a.toInt * b.toInt)

theorem add?_eq_some_iff {a b w : Int64} : add? a b = some w ↔ w.toInt = a.toInt + b.toInt :=
  int64?_eq_some_iff

theorem mul?_eq_some_iff {a b w : Int64} : mul? a b = some w ↔ w.toInt = a.toInt * b.toInt :=
  int64?_eq_some_iff

/-- Two 64-bit integers of one value are equal, so zero is the only one of value zero. -/
theorem toInt_eq_zero_iff {w : Int64} : w.toInt = 0 ↔ w = 0 :=
  Int64.toInt_inj (y := 0)

end LaurentCalc
