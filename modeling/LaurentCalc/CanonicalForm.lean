import LaurentCalc.Term.Addition

/-!
# Canonical form

A list of terms means the sum of its terms.  Its canonical form has the same meaning and is the
only list of its kind that does: one term for each exponent whose coefficients do not cancel, the
highest exponent first.

Like terms are first *grouped* and summed without any bound, and only then brought back to 64
bits.  So the order of the terms has no influence on success, and a sum that leaves the range on
its way but comes back is no overflow.

* `Canonical` — what a canonical list looks like.
* `LikeGroup`, `groups` — the nonzero terms of one exponent, with their exact sum.
* `canonicalForm` — the canonical form, or the overflow with the highest exponent.
* **`canonical_of_canonicalForm`** — the canonical form is canonical.
-/

namespace LaurentCalc

/-! ## Canonical lists -/

/-- No term is zero, and the exponents decrease strictly. -/
structure Canonical (ts : List Term) : Prop where
  nonzero : ∀ t ∈ ts, ¬ t.IsZero
  pairwise : ts.Pairwise fun a b => b.exponent < a.exponent

instance (ts : List Term) : Decidable (Canonical ts) :=
  have hiff : (∀ t ∈ ts, ¬ t.IsZero) ∧ (ts.Pairwise fun a b => b.exponent < a.exponent)
      ↔ Canonical ts := ⟨fun h => ⟨h.1, h.2⟩, fun h => ⟨h.nonzero, h.pairwise⟩⟩
  decidable_of_decidable_of_iff hiff

/-! ## Groups of like terms -/

/-- The nonzero terms of one exponent met so far: the first, the last, and the exact sum of the
coefficients of all of them. -/
structure LikeGroup where
  first : Term
  last : Term
  sum : Int
deriving DecidableEq, Repr

namespace LikeGroup

def exponent (g : LikeGroup) : Int64 := g.first.exponent

def single (t : Term) : LikeGroup := ⟨t, t, t.coefficient.toInt⟩

def absorb (g : LikeGroup) (t : Term) : LikeGroup :=
  { g with last := t, sum := g.sum + t.coefficient.toInt }

/-- The term that the group amounts to, none if its coefficients cancel.  A sum out of range is
reported by the first and the last term of the group. -/
def settle (g : LikeGroup) : Except Fault (Option Term) :=
  match int64? g.sum with
  | some c => .ok (if c = 0 then none else some ⟨c, g.exponent⟩)
  | none => .error (.coefficientOverflow g.first g.last)

end LikeGroup

/-- Put a term into its group.  The groups stand in descending order of their exponents, and a new
one is opened at its place. -/
def place (t : Term) : List LikeGroup → List LikeGroup
  | [] => [.single t]
  | g :: gs =>
      if t.exponent = g.exponent then g.absorb t :: gs
      else if g.exponent < t.exponent then .single t :: g :: gs
      else g :: place t gs

/-- The groups of a list of terms; zero terms belong to none. -/
def groups (ts : List Term) : List LikeGroup :=
  (ts.filter fun t => ¬ t.IsZero).foldl (fun gs t => place t gs) []

/-- The terms that groups amount to; the first group out of range is the one reported. -/
def settleAll : List LikeGroup → Except Fault (List Term)
  | [] => .ok []
  | g :: gs => do
      let t ← g.settle
      let ts ← settleAll gs
      return t.toList ++ ts

def canonicalForm (ts : List Term) : Except Fault (List Term) := settleAll (groups ts)

/-! ## The canonical form is canonical -/

def Ordered (gs : List LikeGroup) : Prop := gs.Pairwise fun g h => h.exponent < g.exponent

/-- Placing a term adds its exponent to those of the groups, and no other. -/
theorem exponent_of_mem_place {t : Term} {gs : List LikeGroup} {h : LikeGroup}
    (hm : h ∈ place t gs) : h.exponent = t.exponent ∨ ∃ g ∈ gs, h.exponent = g.exponent := by
  induction gs with
  | nil =>
    rw [place, List.mem_singleton] at hm
    exact .inl (hm ▸ rfl)
  | cons g gs ih =>
    rw [place] at hm
    split at hm
    · rcases List.mem_cons.1 hm with rfl | hm
      · exact .inr ⟨g, List.mem_cons_self, rfl⟩
      · exact .inr ⟨h, List.mem_cons_of_mem g hm, rfl⟩
    · split at hm
      · rcases List.mem_cons.1 hm with rfl | hm
        · exact .inl rfl
        · exact .inr ⟨h, hm, rfl⟩
      · rcases List.mem_cons.1 hm with rfl | hm
        · exact .inr ⟨h, List.mem_cons_self, rfl⟩
        · exact (ih hm).imp_right fun ⟨k, hk, he⟩ => ⟨k, List.mem_cons_of_mem g hk, he⟩

theorem ordered_place (t : Term) {gs : List LikeGroup} (ho : Ordered gs) :
    Ordered (place t gs) := by
  induction ho with
  | nil => exact List.pairwise_singleton _ _
  | @cons g gs hg hgs ih =>
    rw [place]
    split
    · exact List.Pairwise.cons hg hgs
    next hne =>
      split
      next hlt =>
        refine List.Pairwise.cons (fun h hm => ?_) (List.Pairwise.cons hg hgs)
        rcases List.mem_cons.1 hm with rfl | hm
        · exact hlt
        · exact Int64.lt_trans (hg h hm) hlt
      next hnlt =>
        refine List.Pairwise.cons (fun h hm => ?_) ih
        rcases exponent_of_mem_place hm with he | ⟨k, hk, he⟩
        · exact he ▸ Int64.lt_of_le_of_ne (Int64.not_lt.1 hnlt) hne
        · exact he ▸ hg k hk

theorem ordered_groups (ts : List Term) : Ordered (groups ts) := by
  have step : ∀ (us : List Term) (gs : List LikeGroup), Ordered gs →
      Ordered (us.foldl (fun gs t => place t gs) gs) := by
    intro us
    induction us with
    | nil => exact fun _ h => h
    | cons u us ih => exact fun gs h => ih _ (ordered_place u h)
  exact step _ [] List.Pairwise.nil

/-- What a group amounts to is not zero and has the exponent of the group. -/
theorem LikeGroup.of_mem_settle {g : LikeGroup} {o : Option Term} {t : Term} (h : g.settle = .ok o)
    (ht : t ∈ o) : ¬ t.IsZero ∧ t.exponent = g.exponent := by
  rw [LikeGroup.settle] at h
  split at h
  next c _ =>
    cases h
    by_cases hc : c = 0
    · simp [hc] at ht
    · simp only [if_neg hc, Option.mem_def, Option.some.injEq] at ht
      exact ht ▸ ⟨hc, rfl⟩
  next => cases h

theorem settleAll_cons_eq_ok {g : LikeGroup} {gs : List LikeGroup} {r : List Term} :
    settleAll (g :: gs) = .ok r ↔
      ∃ o ts, g.settle = .ok o ∧ settleAll gs = .ok ts ∧ r = o.toList ++ ts := by
  rw [settleAll]
  cases g.settle with
  | error f => simp [bind, Except.bind]
  | ok o => cases settleAll gs <;> simp [bind, Except.bind, pure, Except.pure, eq_comm]

/-- Every settled term is nonzero and comes from a group of its exponent. -/
theorem of_mem_settleAll {gs : List LikeGroup} {r : List Term} (h : settleAll gs = .ok r) :
    ∀ t ∈ r, ¬ t.IsZero ∧ ∃ g ∈ gs, t.exponent = g.exponent := by
  induction gs generalizing r with
  | nil => cases h; simp
  | cons g gs ih =>
    obtain ⟨o, ts, ho, hts, rfl⟩ := settleAll_cons_eq_ok.1 h
    intro t ht
    rcases List.mem_append.1 ht with ht | ht
    · obtain ⟨hz, he⟩ := LikeGroup.of_mem_settle ho (Option.mem_toList.1 ht)
      exact ⟨hz, g, List.mem_cons_self, he⟩
    · obtain ⟨hz, k, hk, he⟩ := ih hts t ht
      exact ⟨hz, k, List.mem_cons_of_mem g hk, he⟩

theorem pairwise_settleAll {gs : List LikeGroup} {r : List Term} (ho : Ordered gs)
    (h : settleAll gs = .ok r) : r.Pairwise fun a b => b.exponent < a.exponent := by
  induction ho generalizing r with
  | nil => cases h; exact List.Pairwise.nil
  | @cons g gs hg _ ih =>
    obtain ⟨o, ts, hgo, hts, rfl⟩ := settleAll_cons_eq_ok.1 h
    cases o with
    | none => exact ih hts
    | some t =>
      refine List.Pairwise.cons (fun u hu => ?_) (ih hts)
      obtain ⟨_, k, hk, he⟩ := of_mem_settleAll hts u hu
      rw [he, (LikeGroup.of_mem_settle hgo rfl).2]
      exact hg k hk

/-- **The canonical form of a list is canonical.** -/
theorem canonical_of_canonicalForm {ts r : List Term} (h : canonicalForm ts = .ok r) :
    Canonical r :=
  ⟨fun t ht => (of_mem_settleAll h t ht).1, pairwise_settleAll (ordered_groups ts) h⟩

end LaurentCalc
