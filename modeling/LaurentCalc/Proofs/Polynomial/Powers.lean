import LaurentCalc.Polynomial.Evaluation
import Mathlib.Algebra.Field.Rat
import Mathlib.Algebra.Group.Int.Units
import Mathlib.Algebra.Order.Ring.Basic
import Mathlib.Algebra.Order.Ring.Int
import Mathlib.Algebra.Ring.Int.Parity
import Mathlib.Data.Int.Cast.Lemmas
import Mathlib.Tactic.Lemma

/-!
# Powers

A power is computed by repeated squaring, and every square that is formed on the way has to fit in
64 bits.  One might fear that a square overflows although the power does not, the more so as the
range is not symmetric: the least integer of 64 bits is the cube of `-2^21`, but there is no square
of that size.  It does not happen.  A square is only formed ahead of a power that is at least as
large, and where the two are of one size, the power is a square as well.

Negative exponents are a matter of their own.  The power is a rational number then, and an integer
only for `1` and `-1`, which are their own inverses.

* `fits_pow_of_even` — an even power fits if a higher power does.
* **`natPower?_eq`** — repeated squaring finds every power that fits.
* `HasPower`, `exactPower` — the powers that are integers; **`intCast_eq_zpow_iff`** says so.
* **`power_eq`** — what is computed, and why it may be refused.
-/

namespace LaurentCalc

/-! ## Repeated squaring -/

/-- An even power is not negative, and it is only larger than a later one if it is no larger than
one. -/
lemma fits_pow_of_even {z : ℤ} {k n : ℕ} (hkn : 2 * k ≤ n) (h : Fits (z ^ n)) :
    Fits (z ^ (2 * k)) := by
  have hnonneg : 0 ≤ z ^ (2 * k) := Even.pow_nonneg (even_two_mul k) z
  refine ⟨by omega, ?_⟩
  rcases hkn.eq_or_lt with rfl | hlt
  · exact h.2
  · have habs : (z ^ (2 * k)).natAbs = z.natAbs ^ (2 * k) := Int.natAbs_pow z (2 * k)
    have habs' : (z ^ n).natAbs = z.natAbs ^ n := Int.natAbs_pow z n
    obtain ⟨hlow, hhigh⟩ := h
    by_cases hz : z.natAbs ≤ 1
    · have hone : z.natAbs ^ (2 * k) ≤ 1 := pow_le_one₀ (Nat.zero_le _) hz
      omega
    · have hgrows : z.natAbs ^ (2 * k) < z.natAbs ^ n := Nat.pow_lt_pow_right (by omega) hlt
      omega

lemma mul?_of_pow {z : ℤ} {i j : ℕ} {a b : Int64} (ha : a.toInt = z ^ i) (hb : b.toInt = z ^ j) :
    mul? a b = int64? (z ^ (i + j)) := by
  rw [mul?, ha, hb, pow_add]

/-- A number on the way to another does no harm if it fits whenever the other one does. -/
lemma int64?_bind {m n : ℤ} {f : Int64 → Option Int64} (hfits : Fits n → Fits m)
    (hf : ∀ w, w.toInt = m → f w = int64? n) : (int64? m).bind f = int64? n := by
  cases hw : int64? m with
  | some w => exact hf w (int64?_eq_some_iff.1 hw)
  | none => exact (int64?_eq_none_iff.2 (mt hfits (int64?_eq_none_iff.1 hw))).symm

/-- **Repeated squaring is exact**: it finds the power if it fits, and fails otherwise. -/
theorem natPower?_eq (b : Int64) (n : ℕ) : natPower? b n = int64? (b.toInt ^ n) := by
  have hb : ∀ b : Int64, b.toInt = b.toInt ^ 1 := fun b => (pow_one _).symm
  induction b, n using natPower?.induct with
  | case1 b =>
      rw [natPower?, if_pos rfl, pow_zero]
      exact (int64?_toInt 1).symm
  | case2 b => rw [natPower?, if_neg one_ne_zero, if_pos rfl, pow_one, int64?_toInt]
  | case3 b n h0 h1 ih =>
      rw [natPower?, if_neg h0, if_neg h1, mul?_of_pow (hb b) (hb b)]
      refine int64?_bind (fits_pow_of_even (k := 1) (by omega)) fun square hsquare => ?_
      rw [ih square, hsquare, ← pow_mul]
      refine int64?_bind (fits_pow_of_even (Nat.mul_div_le n 2)) fun p hp => ?_
      by_cases heven : n % 2 = 0
      · rw [if_pos heven, ← int64?_toInt p, hp, show 2 * (n / 2) = n by omega]
      · rw [if_neg heven, mul?_of_pow (hb b) hp, show 1 + 2 * (n / 2) = n by omega]

/-! ## Powers that are integers -/

/-- The power `x^e` is an integer.  With a negative exponent it is one only for `1` and `-1`. -/
def HasPower (x e : Int64) : Prop := 0 ≤ e ∨ x = 1 ∨ x = -1

instance (x e : Int64) : Decidable (HasPower x e) :=
  inferInstanceAs (Decidable (0 ≤ e ∨ x = 1 ∨ x = -1))

/-- The power `x^e`, if it is an integer.  For `1` and `-1` the sign of the exponent makes no
difference. -/
def exactPower (x e : Int64) : ℤ := x.toInt ^ e.toInt.natAbs

lemma isUnit_toInt_iff {x : Int64} : IsUnit x.toInt ↔ x = 1 ∨ x = -1 := by
  rw [Int.isUnit_iff, ← Int64.toInt_inj, ← Int64.toInt_inj]
  rfl

/-- **The integer powers**, as a fact about rational numbers.  Zero has no negative powers. -/
theorem intCast_eq_zpow_iff {x e : Int64} (h : 0 ≤ e ∨ x ≠ 0) (n : ℤ) :
    (n : ℚ) = (x.toInt : ℚ) ^ e.toInt ↔ HasPower x e ∧ n = exactPower x e := by
  rw [exactPower]
  by_cases he : 0 ≤ e
  · have hpower : (x.toInt : ℚ) ^ e.toInt = (x.toInt ^ e.toInt.natAbs : ℤ) := by
      have hn : 0 ≤ e.toInt := Int64.le_iff_toInt_le.1 he
      rw [Int.cast_pow, ← zpow_natCast, Int.natAbs_of_nonneg hn]
    rw [hpower, Int.cast_inj]
    exact (and_iff_right (.inl he)).symm
  · have hx : (x.toInt : ℚ) ≠ 0 := by
      rw [Ne, Int.cast_eq_zero, toInt_eq_zero_iff]
      exact h.resolve_left he
    have hneg : e.toInt < 0 := Int64.lt_iff_toInt_lt.1 (Int64.not_le.1 he)
    have hpos : e.toInt.natAbs ≠ 0 := by omega
    set k := e.toInt.natAbs with hk
    have hpower : (x.toInt : ℚ) ^ e.toInt = ((x.toInt ^ k : ℤ) : ℚ)⁻¹ := by
      rw [Int.cast_pow, ← zpow_natCast, ← zpow_neg, hk, Int.ofNat_natAbs_of_nonpos hneg.le,
        neg_neg]
    have hne : ((x.toInt ^ k : ℤ) : ℚ) ≠ 0 := by
      rw [Int.cast_pow]
      exact pow_ne_zero k hx
    rw [hpower, ← mul_eq_one_iff_eq_inv₀ hne, ← Int.cast_mul, ← Int.cast_one, Int.cast_inj,
      HasPower, or_iff_right he, ← isUnit_toInt_iff]
    constructor
    · intro hinverse
      have hunit : IsUnit (x.toInt ^ k) := .of_mul_eq_one_right n hinverse
      refine ⟨(isUnit_pow_iff hpos).1 hunit, ?_⟩
      rw [← mul_one n, ← Int.isUnit_mul_self hunit, ← mul_assoc, hinverse, one_mul]
    · rintro ⟨hunit, rfl⟩
      exact Int.isUnit_mul_self (hunit.pow k)

/-! ## What is computed -/

/-- The powers of `-1` are given by the parity of the exponent. -/
lemma neg_one_pow_natAbs (n : ℤ) : (-1 : ℤ) ^ n.natAbs = if n % 2 = 0 then 1 else -1 := by
  split
  next heven => exact (Int.natAbs_even.2 (Int.even_iff.2 heven)).neg_one_pow
  next hodd =>
    exact (Int.natAbs_odd.2 (Int.not_even_iff_odd.1 (mt Int.even_iff.1 hodd))).neg_one_pow

/-- **Powers are exact.**  A power is computed if it is an integer that fits.  It is refused if it
is no integer, and otherwise if it does not fit. -/
theorem power_eq (x e : Int64) :
    power x e
      = if HasPower x e then
          match int64? (exactPower x e) with
          | some w => .ok w
          | none => .error (.evaluationOverflow x)
        else .error (.nonIntegral x e) := by
  have hplus : int64? 1 = some 1 := int64?_toInt 1
  have hminus : int64? (-1) = some (-1) := int64?_toInt (-1)
  rw [power, exactPower]
  by_cases he : 0 ≤ e
  · have hn : 0 ≤ e.toInt := Int64.le_iff_toInt_le.1 he
    have hpower : HasPower x e := .inl he
    have hnat : e.toInt.natAbs = e.toInt.toNat := by omega
    rw [if_pos he, if_pos hpower, hnat]
    cases hvalue : int64? (x.toInt ^ e.toInt.toNat) with
    | some w => simp only [natPower?_eq, hvalue]
    | none => simp only [natPower?_eq, hvalue]
  · rw [if_neg he]
    by_cases hone : x = 1
    · have hpower : HasPower x e := .inr (.inl hone)
      have hvalue : x.toInt ^ e.toInt.natAbs = 1 := by
        rw [hone]
        exact one_pow _
      rw [if_pos hone, if_pos hpower, hvalue, hplus]
    · rw [if_neg hone]
      by_cases hneg : x = -1
      · have hpower : HasPower x e := .inr (.inr hneg)
        have hvalue : x.toInt = -1 := by rw [hneg]; rfl
        rw [if_pos hneg, if_pos hpower, hvalue, neg_one_pow_natAbs]
        by_cases heven : e.toInt % 2 = 0
        · rw [if_pos heven, if_pos heven, hplus]
        · rw [if_neg heven, if_neg heven, hminus]
      · have hnone : ¬ HasPower x e := by simp [HasPower, he, hone, hneg]
        rw [if_neg hneg, if_neg hnone]

lemma power_eq_ok_iff {x e w : Int64} :
    power x e = .ok w ↔ HasPower x e ∧ w.toInt = exactPower x e := by
  rw [power_eq, ← int64?_eq_some_iff]
  by_cases hpower : HasPower x e
  · rw [if_pos hpower, and_iff_right hpower]
    cases int64? (exactPower x e) <;> simp
  · simp [hpower]

lemma power_of_not_hasPower {x e : Int64} (h : ¬ HasPower x e) :
    power x e = .error (.nonIntegral x e) := by
  rw [power_eq, if_neg h]

lemma eq_of_power_eq_error {x e : Int64} {fault : Fault} (hpower : HasPower x e)
    (h : power x e = .error fault) : fault = .evaluationOverflow x := by
  rw [power_eq, if_pos hpower] at h
  split at h
  next => cases h
  next => exact (Except.error.inj h).symm

end LaurentCalc
