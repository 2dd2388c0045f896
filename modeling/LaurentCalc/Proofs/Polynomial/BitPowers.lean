import LaurentCalc.Proofs.Polynomial.Powers
import Mathlib.Algebra.Order.Ring.Canonical
import Mathlib.Tactic.Ring

/-!
# Powers from the lowest bit up

`natPower?` goes down to the highest bit of the exponent and multiplies on its way back.  The usual
loop goes the other way: it squares the base once for every bit, from the lowest one up, and beside
it keeps the product of the squares that belong to bits that are set.  It forms other numbers than
`natPower?` does, and it forms a square before it is known whether a product will need it.  Even so
it does not overflow on its own account either, and the two agree on every exponent.

The argument is an invariant of the loop.  Squares are even powers of the base, and the product kept
is an odd power of it, because the loop that keeps one starts at a bit that is set.  Neither can be
out of range while the power itself, which is odd too, is in range: an odd power has the sign of the
base, so that of two odd powers the one that is further out is the higher one.

* `multiplyUp`, `loopPower?` — the loop.
* `fits_pow_of_odd` — an odd power fits if a higher odd power does.
* **`multiplyUp_eq`**, **`loopPower?_eq`** — the invariant, and what the loop computes.
* **`power_exact`** — all that `power` gives.
-/

namespace LaurentCalc

/-! ## The loop -/

/-- The bits of `n` above the lowest one: `base` is squared for each of them, and multiplied into
`acc` if the bit is set. -/
def multiplyUp (acc base : Int64) (n : ℕ) : Option Int64 :=
  if n ≤ 1 then some acc
  else do
    let square ← mul? base base
    if n / 2 % 2 = 1 then do
      let acc' ← mul? acc square
      multiplyUp acc' square (n / 2)
    else multiplyUp acc square (n / 2)
termination_by n
decreasing_by all_goals omega

/-- The power `b^n`, if it fits.  Up to the lowest bit that is set there is nothing to multiply. -/
def loopPower? (b : Int64) (n : ℕ) : Option Int64 :=
  if n = 0 then some 1
  else if n % 2 = 0 then do
    let square ← mul? b b
    loopPower? square (n / 2)
  else multiplyUp b b n
termination_by n
decreasing_by omega

/-! ## What it computes -/

/-- Odd powers lie on the side of their base, the higher ones further out. -/
lemma fits_pow_of_odd {z : ℤ} {j n : ℕ} (hj : Odd j) (hn : Odd n) (hjn : j ≤ n)
    (h : Fits (z ^ n)) : Fits (z ^ j) := by
  have habs : (z ^ j).natAbs ≤ (z ^ n).natAbs := by
    rw [Int.natAbs_pow, Int.natAbs_pow]
    rcases Nat.eq_zero_or_pos z.natAbs with hz | hz
    · rw [hz, zero_pow hj.pos.ne', zero_pow hn.pos.ne']
    · exact Nat.pow_le_pow_right hz hjn
  obtain ⟨hlow, hhigh⟩ := h
  rcases le_or_gt 0 z with hz | hz
  · have hpos : 0 ≤ z ^ j := pow_nonneg hz j
    have hpos' : 0 ≤ z ^ n := pow_nonneg hz n
    exact ⟨by omega, by omega⟩
  · have hneg : z ^ j < 0 := hj.pow_neg hz
    have hneg' : z ^ n < 0 := hn.pow_neg hz
    exact ⟨by omega, by omega⟩

/-- **The invariant.**  If `base` is the power `z^s` and `acc` an odd power `z^j`, the loop finds
the power whose exponent has `s` for every unit of `n`, the lowest bit apart, on top of `j`. -/
theorem multiplyUp_eq {z : ℤ} {N s j n : ℕ} {acc base : Int64} (hbase : base.toInt = z ^ s)
    (hacc : acc.toInt = z ^ j) (hj : Odd j) (hN : j + s * (2 * (n / 2)) = N) :
    multiplyUp acc base n = int64? (z ^ N) := by
  induction acc, base, n using multiplyUp.induct generalizing s j with
  | case1 acc base n hn =>
      have hzero : n / 2 = 0 := by omega
      have hjN : j = N := by simpa [hzero] using hN
      rw [multiplyUp, if_pos hn, ← hjN, ← hacc, int64?_toInt]
  | case2 acc base n hn ihset ihclear =>
      have hle : 2 * s ≤ s * (2 * (n / 2)) := by
        rw [Nat.mul_comm 2 s]
        exact Nat.mul_le_mul_left s (by omega)
      have hNodd : Odd N := hN ▸ hj.add_even ((even_two_mul _).mul_left s)
      rw [multiplyUp, if_neg hn, mul?_of_pow hbase hbase, ← two_mul]
      refine int64?_bind (fits_pow_of_even (by omega)) fun square hsquare => ?_
      by_cases hbit : n / 2 % 2 = 1
      · have hj' : Odd (j + 2 * s) := hj.add_even (even_two_mul s)
        have hhalf : n / 2 = 2 * (n / 2 / 2) + 1 := by omega
        rw [if_pos hbit, mul?_of_pow hacc hsquare]
        refine int64?_bind (fits_pow_of_odd hj' hNodd (by omega)) fun acc' hacc' => ?_
        refine ihset square hbit acc' hsquare hacc' hj' ?_
        calc j + 2 * s + 2 * s * (2 * (n / 2 / 2))
            = j + s * (2 * (2 * (n / 2 / 2) + 1)) := by ring
          _ = N := by rw [← hhalf, hN]
      · have hhalf : n / 2 = 2 * (n / 2 / 2) := by omega
        rw [if_neg hbit]
        refine ihclear square hsquare hacc hj ?_
        calc j + 2 * s * (2 * (n / 2 / 2))
            = j + s * (2 * (2 * (n / 2 / 2))) := by ring
          _ = N := by rw [← hhalf, hN]

/-- **The loop is exact**, and so it gives what `natPower?` gives. -/
theorem loopPower?_eq (b : Int64) (n : ℕ) : loopPower? b n = int64? (b.toInt ^ n) := by
  induction b, n using loopPower?.induct with
  | case1 b =>
      rw [loopPower?, if_pos rfl, pow_zero]
      exact (int64?_toInt 1).symm
  | case2 b n hn heven ih =>
      have hb : b.toInt = b.toInt ^ 1 := (pow_one _).symm
      have hhalf : n = 2 * (n / 2) := by omega
      rw [loopPower?, if_neg hn, if_pos heven, mul?_of_pow hb hb]
      refine int64?_bind (fits_pow_of_even (k := 1) (by omega)) fun square hsquare => ?_
      rw [ih square, hsquare, ← pow_mul, ← hhalf]
  | case3 b n hn hodd =>
      have hb : b.toInt = b.toInt ^ 1 := (pow_one _).symm
      rw [loopPower?, if_neg hn, if_neg hodd]
      exact multiplyUp_eq hb hb odd_one (by omega)

/-! ## What `power` gives -/

/-- Read without a sign, an exponent that is not negative stays what it is. -/
lemma toNat_toUInt64 {e : Int64} (h : 0 ≤ e) : e.toUInt64.toNat = e.toInt.toNat := by
  have hnonneg : 0 ≤ e.toInt := Int64.le_iff_toInt_le.1 h
  rw [← Int64.toInt_toBitVec, BitVec.toInt_eq_toNat_cond] at hnonneg ⊢
  rw [← Int64.toNat_toBitVec]
  have hlt : e.toBitVec.toNat < 2 ^ 64 := e.toBitVec.isLt
  split at hnonneg <;> omega

lemma power_of_nonneg (x : Int64) {e : Int64} (h : 0 ≤ e) :
    power x e = (int64? (x.toInt ^ e.toInt.toNat)).elim (.error (.evaluationOverflow x)) .ok := by
  rw [power, if_pos h, natPower?_eq]
  cases int64? (x.toInt ^ e.toInt.toNat) <;> rfl

/-- Zero and the units have no large powers. -/
lemma fits_pow_of_natAbs_le_one {z : ℤ} (h : z.natAbs ≤ 1) (n : ℕ) : Fits (z ^ n) := by
  have hpow : (z ^ n).natAbs ≤ 1 := by
    rw [Int.natAbs_pow]
    exact pow_le_one₀ (Nat.zero_le _) h
  exact ⟨by omega, by omega⟩

/-- **Powers never overflow on their own account.**  With an exponent that is not negative, `power`
gives the exact power if it fits and an overflow if it does not, and so does the loop over the bits
of the exponent, read without a sign; for zero and the units there is no overflow at all.  With a
negative exponent it gives the power of a unit, which is `1`, or the sign of the parity of the
exponent, and it refuses every other base. -/
theorem power_exact (x e : Int64) :
    (0 ≤ e →
      power x e = (loopPower? x e.toUInt64.toNat).elim (.error (.evaluationOverflow x)) .ok
      ∧ (∀ w, power x e = .ok w ↔ w.toInt = x.toInt ^ e.toInt.toNat)
      ∧ ((∃ w, power x e = .ok w) ↔ Fits (x.toInt ^ e.toInt.toNat))
      ∧ (power x e = .error (.evaluationOverflow x) ↔ ¬ Fits (x.toInt ^ e.toInt.toNat))
      ∧ (x = 0 ∨ x = 1 ∨ x = -1 → ∃ w, power x e = .ok w))
    ∧ (e < 0 →
      ((∃ w, power x e = .ok w) ↔ x = 1 ∨ x = -1)
      ∧ (x = 1 → power x e = .ok 1)
      ∧ (x = -1 → power x e = .ok (if e.toInt % 2 = 0 then 1 else -1))
      ∧ (¬ (x = 1 ∨ x = -1) → power x e = .error (.nonIntegral x e))) := by
  constructor
  · intro he
    have hpower := power_of_nonneg x he
    have hok : ∀ w, power x e = .ok w ↔ w.toInt = x.toInt ^ e.toInt.toNat := by
      intro w
      rw [hpower, ← int64?_eq_some_iff]
      cases int64? (x.toInt ^ e.toInt.toNat) <;> simp
    have hfits : (∃ w, power x e = .ok w) ↔ Fits (x.toInt ^ e.toInt.toNat) := by
      simp only [hok, exists_toInt_iff]
    refine ⟨?_, hok, hfits, ?_, fun hx => hfits.2 (fits_pow_of_natAbs_le_one ?_ _)⟩
    · rw [hpower, loopPower?_eq, toNat_toUInt64 he]
    · rw [hpower, ← int64?_eq_none_iff]
      cases int64? (x.toInt ^ e.toInt.toNat) <;> simp
    · rcases hx with rfl | rfl | rfl <;> decide
  · intro he
    have hnonneg : ¬ 0 ≤ e := Int64.not_le.2 he
    have hone : x = 1 → power x e = .ok 1 := fun hx => by
      rw [power, if_neg hnonneg, if_pos hx]
    have hneg : x = -1 → power x e = .ok (if e.toInt % 2 = 0 then 1 else -1) := by
      rintro rfl
      rw [power, if_neg hnonneg, if_neg (by decide), if_pos rfl]
    have hrefused : ¬ (x = 1 ∨ x = -1) → power x e = .error (.nonIntegral x e) := fun hx =>
      power_of_not_hasPower (not_or.2 ⟨hnonneg, hx⟩)
    refine ⟨⟨?_, ?_⟩, hone, hneg, hrefused⟩
    · rintro ⟨w, hw⟩
      by_contra hx
      rw [hrefused hx] at hw
      cases hw
    · rintro (hx | hx)
      · exact ⟨_, hone hx⟩
      · exact ⟨_, hneg hx⟩

/-- The least integer as a power, squares that are one bit short of it, the highest and the lowest
exponent of a unit, and a power that is out of range by one. -/
theorem power_exact_least :
    power (-2) 63 = .ok (-9223372036854775808)
      ∧ power (-2097152) 3 = .ok (-9223372036854775808)
      ∧ power 2 63 = .error (.evaluationOverflow 2)
      ∧ (∃ w, power (-1) 9223372036854775807 = .ok w)
      ∧ power (-1) (-9223372036854775808) = .ok 1
      ∧ power (-1) (-9223372036854775807) = .ok (-1)
      ∧ power 0 (-1) = .error (.nonIntegral 0 (-1)) := by
  refine ⟨((power_exact (-2) 63).1 (by decide)).2.1 _ |>.2 (by decide +kernel),
    ((power_exact (-2097152) 3).1 (by decide)).2.1 _ |>.2 (by decide +kernel),
    ((power_exact 2 63).1 (by decide)).2.2.2.1.2 (by decide +kernel),
    ((power_exact (-1) 9223372036854775807).1 (by decide)).2.2.2.2 (.inr (.inr rfl)),
    ((power_exact (-1) (-9223372036854775808)).2 (by decide)).2.2.1 rfl,
    ((power_exact (-1) (-9223372036854775807)).2 (by decide)).2.2.1 rfl,
    ((power_exact 0 (-1)).2 (by decide)).2.2.2 (by decide)⟩

end LaurentCalc
