import LaurentCalc.Proofs.CanonicalForm.ExactSum
import Mathlib.Data.List.Induction

/-!
# How wide the sums of the groups get

The groups of a list keep sums without any bound.  A machine has no such numbers, but 128 bits are
as good: a list that can be stored has fewer than `2^64` terms, and each of them adds less than 64
bits.  What has to be shown is more than that the last sums fit.  Sums go up and down while the
terms come, in any order, and an addition that overflows on the way would be lost.  So the bound is
on every sum at every moment, by the number of terms that have come so far; the terms to come do not
enter into it.

* `FitsWide` — the range of 128 bits.
* `WideGroup`, `wideGroups?` — the groups with sums of 128 bits, none if an addition overflows.
* `natAbs_sum_le` — the bound, and **`fitsWide_sum`**, that it is narrow enough.
* `placeWide?_eq`, **`wideGroups?_eq`** — one term, and then all of them.
* **`wideGroups?_exact`** — nothing overflows, and every sum is exact.
-/

namespace LaurentCalc

/-- The integers that a 128-bit signed integer can hold. -/
def FitsWide (n : ℤ) : Prop := -2 ^ 127 ≤ n ∧ n < 2 ^ 127

/-! ## Groups with sums of 128 bits -/

/-- Like terms met so far, as in `LikeGroup`, but with a sum in two's complement. -/
structure WideGroup where
  first : Term
  last : Term
  sum : BitVec 128
deriving DecidableEq, Repr

namespace WideGroup

def exponent (g : WideGroup) : Int64 := g.first.exponent

/-- The group with the value of its sum. -/
def exact (g : WideGroup) : LikeGroup := ⟨g.first, g.last, g.sum.toInt⟩

/-- The group with one more term; there is none if the addition overflows. -/
def absorb? (g : WideGroup) (t : Term) : Option WideGroup :=
  let c := t.coefficient.toBitVec.signExtend 128
  if g.sum.saddOverflow c then none else some { g with last := t, sum := g.sum + c }

/-- A new group, to which its first term is added. -/
def single? (t : Term) : Option WideGroup := absorb? ⟨t, t, 0⟩ t

end WideGroup

/-- Put a term into its group, as `place` does. -/
def placeWide? (t : Term) : List WideGroup → Option (List WideGroup)
  | [] => (WideGroup.single? t).map ([·])
  | g :: gs =>
      if t.exponent = g.exponent then (g.absorb? t).map (· :: gs)
      else if g.exponent < t.exponent then (WideGroup.single? t).map (· :: g :: gs)
      else (placeWide? t gs).map (g :: ·)

/-- The groups of a list of terms, if no addition overflows at any moment. -/
def wideGroups? (ts : List Term) : Option (List WideGroup) :=
  (ts.filter fun t => ¬ t.IsZero).foldlM (fun gs t => placeWide? t gs) []

/-! ## The bound -/

/-- A sum is bounded by the number of terms that have come. -/
lemma natAbs_exactSum_le (ts : List Term) (e : Int64) :
    (exactSum ts e).natAbs ≤ ts.length * 2 ^ 63 := by
  induction ts with
  | nil => simp
  | cons t ts ih =>
      have ht := fits_toInt t.coefficient
      simp only [Fits] at ht
      rw [exactSum_cons, List.length_cons]
      split_ifs <;> omega

/-- **No sum gets wider than 128 bits**, with fewer than `2^64` terms. -/
theorem fitsWide_sum {ts : List Term} (h : ts.length < 2 ^ 64) {g : LikeGroup}
    (hg : g ∈ groups ts) : FitsWide g.sum := by
  have hle : g.sum.natAbs ≤ ts.length * 2 ^ 63 :=
    sum_of_mem_groups hg ▸ natAbs_exactSum_le ts g.exponent
  constructor <;> omega

/-! ## One term -/

namespace WideGroup

/-- An addition within the range is exact. -/
lemma absorb?_eq {g : WideGroup} {t : Term} (h : FitsWide (g.exact.absorb t).sum) :
    ∃ g', g.absorb? t = some g' ∧ g'.exact = g.exact.absorb t := by
  have hwide : (t.coefficient.toBitVec.signExtend 128).toInt = t.coefficient.toInt :=
    BitVec.toInt_signExtend_of_le (by decide)
  have hno : ¬ g.sum.saddOverflow (t.coefficient.toBitVec.signExtend 128) = true := by
    simp only [exact, LikeGroup.absorb, FitsWide] at h
    simp only [BitVec.saddOverflow, hwide, Bool.or_eq_true, decide_eq_true_eq]
    omega
  refine ⟨_, if_neg hno, ?_⟩
  simp only [exact, LikeGroup.absorb, BitVec.toInt_add_of_not_saddOverflow hno, hwide]

/-- A first term always fits. -/
lemma single?_eq (t : Term) : ∃ g, single? t = some g ∧ g.exact = .single t := by
  have ht := fits_toInt t.coefficient
  have hexact : (exact ⟨t, t, 0⟩).absorb t = .single t := by
    simp [exact, LikeGroup.absorb, LikeGroup.single]
  rw [← hexact]
  refine absorb?_eq ?_
  simp only [hexact, LikeGroup.single, Fits, FitsWide] at *
  omega

end WideGroup

/-- A term is put into its group without an overflow, if the sums that come of it fit. -/
lemma placeWide?_eq {t : Term} {gs : List WideGroup}
    (h : ∀ g ∈ place t (gs.map WideGroup.exact), FitsWide g.sum) :
    ∃ gs', placeWide? t gs = some gs'
      ∧ gs'.map WideGroup.exact = place t (gs.map WideGroup.exact) := by
  induction gs with
  | nil =>
      obtain ⟨g, hg, hexact⟩ := WideGroup.single?_eq t
      exact ⟨[g], by rw [placeWide?, hg]; rfl, by rw [List.map_singleton, hexact]; rfl⟩
  | cons g gs ih =>
      rw [List.map_cons] at h ⊢
      -- a group and its exact counterpart have one exponent, so the term finds the same place
      by_cases heq : t.exponent = g.exponent
      · have hplace : place t (g.exact :: gs.map WideGroup.exact)
            = g.exact.absorb t :: gs.map WideGroup.exact := if_pos heq
        rw [hplace] at h ⊢
        obtain ⟨g', hg', hexact⟩ := WideGroup.absorb?_eq (h _ List.mem_cons_self)
        exact ⟨g' :: gs, by rw [placeWide?, if_pos heq, hg']; rfl, by rw [List.map_cons, hexact]⟩
      · by_cases hlt : g.exponent < t.exponent
        · have hplace : place t (g.exact :: gs.map WideGroup.exact)
              = .single t :: g.exact :: gs.map WideGroup.exact :=
            (if_neg heq).trans (if_pos hlt)
          rw [hplace]
          obtain ⟨g', hg', hexact⟩ := WideGroup.single?_eq t
          exact ⟨g' :: g :: gs, by rw [placeWide?, if_neg heq, if_pos hlt, hg']; rfl,
            by rw [List.map_cons, hexact, List.map_cons]⟩
        · have hplace : place t (g.exact :: gs.map WideGroup.exact)
              = g.exact :: place t (gs.map WideGroup.exact) :=
            (if_neg heq).trans (if_neg hlt)
          rw [hplace] at h ⊢
          obtain ⟨gs', hgs', hexact⟩ := ih fun k hk => h k (List.mem_cons_of_mem _ hk)
          exact ⟨g :: gs', by rw [placeWide?, if_neg heq, if_neg hlt, hgs']; rfl,
            by rw [List.map_cons, hexact]⟩

/-! ## All of them -/

lemma wideGroups?_append_singleton (ts : List Term) (t : Term) :
    wideGroups? (ts ++ [t])
      = if t.IsZero then wideGroups? ts else (wideGroups? ts).bind (placeWide? t) := by
  by_cases hz : t.IsZero <;> simp [wideGroups?, List.filter_append, hz]

/-- **The groups are the same** with sums of 128 bits. -/
theorem wideGroups?_eq {ts : List Term} (h : ts.length < 2 ^ 64) :
    ∃ gs, wideGroups? ts = some gs ∧ gs.map WideGroup.exact = groups ts := by
  induction ts using List.reverseRecOn with
  | nil => exact ⟨[], rfl, rfl⟩
  | append_singleton ts t ih =>
      have hlength : ts.length < 2 ^ 64 := by
        rw [List.length_append] at h
        omega
      obtain ⟨gs, hgs, hexact⟩ := ih hlength
      have hfits : ∀ g ∈ groups (ts ++ [t]), FitsWide g.sum := fun g hg => fitsWide_sum h hg
      rw [groups_append_singleton] at hfits ⊢
      rw [wideGroups?_append_singleton]
      by_cases hz : t.IsZero
      · rw [if_pos hz, if_pos hz]
        exact ⟨gs, hgs, hexact⟩
      · rw [if_neg hz, ← hexact] at hfits ⊢
        rw [if_neg hz, hgs]
        exact placeWide?_eq hfits

/-- **Sums of 128 bits are exact.**  For fewer than `2^64` terms, the sums of the groups are in the
range of 128 bits after any number of them, so no addition has overflowed by then, and the sums of
128 bits are the exact ones.  It is these that are tested in the end, and what comes of them is the
canonical form. -/
theorem wideGroups?_exact {ts : List Term} (h : ts.length < 2 ^ 64) :
    (∀ k, (∀ g ∈ groups (ts.take k), FitsWide g.sum ∧ g.sum = exactSum (ts.take k) g.exponent)
      ∧ ∃ gs, wideGroups? (ts.take k) = some gs ∧ gs.map WideGroup.exact = groups (ts.take k))
    ∧ (wideGroups? ts).map (fun gs => settleAll (gs.map WideGroup.exact))
      = some (canonicalForm ts) := by
  constructor
  · intro k
    have hlength : (ts.take k).length < 2 ^ 64 := (List.length_take_le' k ts).trans_lt h
    exact ⟨fun g hg => ⟨fitsWide_sum hlength hg, sum_of_mem_groups hg⟩, wideGroups?_eq hlength⟩
  · obtain ⟨gs, hgs, hexact⟩ := wideGroups?_eq h
    rw [hgs, Option.map_some, hexact]
    rfl

/-- A sum that goes far below 64 bits and comes back, with another group in between. -/
theorem wideGroups?_exact_deep :
    let least : Term := ⟨-9223372036854775808, 1⟩
    let largest : Term := ⟨9223372036854775807, 1⟩
    let ts : List Term := [least, ⟨7, 3⟩, least, ⟨0, 5⟩, least, largest, ⟨-7, 3⟩, largest]
    ts.length < 2 ^ 64
      ∧ groups (ts.take 5) = [⟨⟨7, 3⟩, ⟨7, 3⟩, 7⟩, ⟨least, least, -27670116110564327424⟩]
      ∧ FitsWide (-27670116110564327424)
      ∧ (∃ gs, wideGroups? (ts.take 5) = some gs ∧ gs.map WideGroup.exact = groups (ts.take 5))
      ∧ (wideGroups? ts).map (fun gs => settleAll (gs.map WideGroup.exact))
        = some (.error (.coefficientOverflow least largest)) := by
  intro least largest ts
  have hlength : ts.length < 2 ^ 64 := by decide
  have hgroups : groups (ts.take 5)
      = [⟨⟨7, 3⟩, ⟨7, 3⟩, 7⟩, ⟨least, least, -27670116110564327424⟩] := by decide +kernel
  have hform : canonicalForm ts = .error (.coefficientOverflow least largest) := by decide +kernel
  obtain ⟨hmoments, hresult⟩ := wideGroups?_exact hlength
  obtain ⟨hsums, hwide⟩ := hmoments 5
  have hdeep := (hsums ⟨least, least, -27670116110564327424⟩ (by rw [hgroups]; decide)).1
  exact ⟨hlength, hgroups, hdeep, hwide, hform ▸ hresult⟩

end LaurentCalc
