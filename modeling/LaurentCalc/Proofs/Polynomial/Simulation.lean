import LaurentCalc.Polynomial.Registers
import LaurentCalc.Proofs.Polynomial.Arithmetic

/-!
# Registers follow an exact machine

A run of steps on registers can overflow at many places: all terms of an addition are brought to
canonical form at once, a sum goes through a canonical form for each summand, and an expression
may be refused before anything is added.  The exact machine has none of this.  Its registers are
functions with unbounded coefficients; for each step it says which results are formed, in their
order, and the step counts only if all of them fit.

The bridge is `Realizes`: a calculation succeeds exactly if the results of the exact machine are
there and fit.  It is kept by reading a register on both sides (`Realizes.bind`), so each kind of
step needs only its own equation.

* `RegisterStep.formed?`, `ExactRegisters.perform` — the exact machine.
* **`RegisterStep.realizes_result`** — a step forms what the exact machine forms.
* **`Registers.exact_perform`**, `Registers.exact_run` — one step, and a whole run.
* **`Registers.run_simulation`** — the two machines side by side, with success, failure and frame.
-/

namespace LaurentCalc

/-! ## The exact machine -/

/-- The registers of the exact machine. -/
abbrev ExactRegisters := List ExactPolynomial

open ExactPolynomial in
/-- The results that a step forms, one after the other.  There are none at all if an expression
cannot be read, or if a register has not been made. -/
noncomputable def RegisterStep.formed? (ms : ExactRegisters) :
    RegisterStep → Option (List ExactPolynomial)
  | zero => some []
  | ofText text => do
      let m ← ofText? text
      return [m]
  | ofTerms ts => some [.ofTerms ts]
  | sumOfTexts a b => do
      let m ← ofText? a
      let n ← ofText? b
      return runningSums 0 [m, n]
  | sum is => do
      let ns ← is.mapM (ms[·]?)
      return runningSums 0 ns
  | copy i => do
      let m ← ms[i]?
      return [m]
  | negate i => do
      let m ← ms[i]?
      return [m.negate]
  | add i j => do
      let m ← ms[i]?
      let n ← ms[j]?
      return [m + n]
  | addText i text => do
      let m ← ms[i]?
      let n ← ofText? text
      return [m + n]

/-- The registers after a step.  Its last result is stored, zero if it forms none, provided that
all its results fit. -/
noncomputable def ExactRegisters.perform (ms : ExactRegisters) (step : RegisterStep) :
    ExactRegisters :=
  match step.formed? ms with
  | none => ms
  | some results =>
      if ∀ m ∈ results, m.Fitting then
        match step.target? with
        | none => ms ++ [results.getLastD 0]
        | some i => ms.set i (results.getLastD 0)
      else ms

/-! ## One step -/

/-- The polynomial is what is stored when these results are formed. -/
def Stored (results : List ExactPolynomial) (r : Polynomial) : Prop :=
  (∀ m ∈ results, m.Fitting) ∧ r.exact = results.getLastD 0

lemma stored_nil (r : Polynomial) : Stored [] r ↔ r = .zero := by
  rw [← Polynomial.exact_injective.eq_iff, Polynomial.exact_zero]
  simp [Stored]

lemma stored_singleton (m : ExactPolynomial) (r : Polynomial) : Stored [m] r ↔ r.exact = m := by
  constructor
  · exact fun h => h.2
  · rintro rfl
    exact ⟨fun n hn => List.mem_singleton.1 hn ▸ r.fitting_exact, rfl⟩

lemma stored_runningSums_pair (m n : ExactPolynomial) (r : Polynomial) :
    Stored (ExactPolynomial.runningSums 0 [m, n]) r ↔ m.Fitting ∧ r.exact = m + n := by
  simp only [Stored, ExactPolynomial.runningSums, zero_add, List.forall_mem_cons,
    List.getLastD_cons, List.getLastD_nil, List.not_mem_nil, false_imp_iff, implies_true, and_true]
  constructor
  · rintro ⟨⟨hm, -⟩, hr⟩
    exact ⟨hm, hr⟩
  · rintro ⟨hm, hr⟩
    exact ⟨⟨hm, hr ▸ r.fitting_exact⟩, hr⟩

/-- Results that fit can be stored. -/
lemma exists_stored_iff (results : List ExactPolynomial) :
    (∃ r, Stored results r) ↔ ∀ m ∈ results, m.Fitting := by
  constructor
  · rintro ⟨r, hfits, -⟩
    exact hfits
  · intro hfits
    have hlast : (results.getLastD 0).Fitting := by
      cases results with
      | nil => exact Polynomial.zero.fitting_exact
      | cons m ms =>
          rw [List.getLastD_cons]
          exact hfits _ List.getLastD_mem_cons
    obtain ⟨r, hr⟩ := (Polynomial.exists_exact_iff _).2 hlast
    exact ⟨r, hfits, hr⟩

/-- A calculation succeeds exactly if the results of the exact machine are all there and fit, and
then it makes the last one of them. -/
def Realizes (x : Except StepFault Polynomial) (o : Option (List ExactPolynomial)) : Prop :=
  ∀ r, x = .ok r ↔ ∃ results, o = some results ∧ Stored results r

lemma realizes_some {x : Except Fault Polynomial} {results : List ExactPolynomial}
    (h : ∀ r, x = .ok r ↔ Stored results r) :
    Realizes (x.mapError .calculation) (some results) := by
  intro r
  rw [mapError_eq_ok_iff, h]
  simp

/-- What is read first, and read as the same thing on both sides, does not matter. -/
lemma Realizes.bind {α β : Type} {meaning : α → β} {x : Except StepFault α} {o : Option β}
    (hx : x.toOption.map meaning = o) {f : α → Except StepFault Polynomial}
    {g : β → Option (List ExactPolynomial)} (h : ∀ a, Realizes (f a) (g (meaning a))) :
    Realizes (x >>= f) (o >>= g) := by
  subst hx
  cases x with
  | error fault =>
      intro r
      simp [bind_eq_ok_iff, Except.toOption]
  | ok a => exact h a

namespace Registers

lemma exact_read (rs : Registers) (i : ℕ) :
    (rs.read i).toOption.map Polynomial.exact = (rs.map Polynomial.exact)[i]? := by
  rw [List.getElem?_map, read]
  cases rs[i]? <;> rfl

lemma exact_mapM_read (rs : Registers) (is : List ℕ) :
    (is.mapM rs.read).toOption.map (·.map Polynomial.exact)
      = is.mapM ((rs.map Polynomial.exact)[·]?) := by
  induction is with
  | nil => rfl
  | cons i is ih =>
      rw [List.mapM_cons, List.mapM_cons, ← ih, ← exact_read]
      cases rs.read i with
      | error fault => rfl
      | ok p => cases is.mapM rs.read <;> rfl

end Registers

/-- **A step forms what the exact machine forms**, and fails if any of it does not fit. -/
theorem RegisterStep.realizes_result (rs : Registers) (step : RegisterStep) :
    Realizes (step.result rs) (step.formed? (rs.map Polynomial.exact)) := by
  cases step with
  | zero =>
      intro r
      simp [result, formed?, stored_nil, eq_comm]
  | ofText text =>
      intro r
      rw [result, mapError_eq_ok_iff, Polynomial.ofText_eq_ok_iff]
      simp [formed?, Option.bind_eq_some_iff, stored_singleton]
  | ofTerms ts =>
      refine realizes_some fun r => ?_
      rw [Polynomial.ofTerms_eq_ok_iff_exact, stored_singleton]
  | sumOfTexts a b =>
      intro r
      rw [result, mapError_eq_ok_iff, Polynomial.sumOfTexts_eq_ok_iff]
      simp [formed?, Option.bind_eq_some_iff, stored_runningSums_pair]
  | sum is =>
      refine Realizes.bind (rs.exact_mapM_read is) fun ps => realizes_some fun r => ?_
      exact Polynomial.foldlM_add_eq_ok_iff .zero r ps
  | copy i =>
      rw [result, ← bind_pure (rs.read i)]
      refine Realizes.bind (rs.exact_read i) fun p r => ?_
      simp [stored_singleton, Polynomial.exact_injective.eq_iff, pure, Except.pure, eq_comm]
  | negate i =>
      refine Realizes.bind (rs.exact_read i) fun p => realizes_some fun r => ?_
      rw [Polynomial.negate_eq_ok_iff, stored_singleton]
  | add i j =>
      refine Realizes.bind (rs.exact_read i) fun p => ?_
      refine Realizes.bind (rs.exact_read j) fun q => realizes_some fun r => ?_
      rw [Polynomial.add_eq_ok_iff, stored_singleton]
  | addText i text =>
      refine Realizes.bind (rs.exact_read i) fun p => fun r => ?_
      rw [mapError_eq_ok_iff, Polynomial.addText_eq_ok_iff]
      simp [Option.bind_eq_some_iff, stored_singleton]

/-- **A step succeeds exactly if its results are there and fit.** -/
lemma RegisterStep.exists_result_iff (rs : Registers) (step : RegisterStep) :
    (∃ r, step.result rs = .ok r)
      ↔ ∃ results, step.formed? (rs.map Polynomial.exact) = some results
        ∧ ∀ m ∈ results, m.Fitting := by
  simp only [step.realizes_result rs _, ← exists_stored_iff]
  constructor
  · rintro ⟨r, results, hformed, hr⟩
    exact ⟨results, hformed, r, hr⟩
  · rintro ⟨results, hformed, r, hr⟩
    exact ⟨r, results, hformed, hr⟩

/-- **One step.**  What the registers mean after a step is what the exact machine has there. -/
theorem Registers.exact_perform (rs : Registers) (step : RegisterStep) :
    (rs.perform step).1.map Polynomial.exact
      = ExactRegisters.perform (rs.map Polynomial.exact) step := by
  rw [perform, ExactRegisters.perform]
  cases hresult : step.result rs with
  | error fault =>
      cases hformed : step.formed? (rs.map Polynomial.exact) with
      | none => rfl
      | some results =>
          have hunfit : ¬ ∀ m ∈ results, m.Fitting := by
            intro hfits
            obtain ⟨r, hr⟩ := (step.exists_result_iff rs).2 ⟨results, hformed, hfits⟩
            rw [hresult] at hr
            cases hr
          simp only [if_neg hunfit]
  | ok r =>
      obtain ⟨results, hformed, hfits, hr⟩ := (step.realizes_result rs r).1 hresult
      simp only [hformed, if_pos hfits]
      cases step.target? with
      | none => simp [hr]
      | some i => simp [hr, List.map_set]

/-! ## Where a step reaches -/

namespace RegisterStep

/-- The expressions that a step reads. -/
def texts : RegisterStep → List String
  | ofText text => [text]
  | sumOfTexts a b => [a, b]
  | addText _ text => [text]
  | _ => []

/-- The registers that a step reads, the one it replaces included. -/
def operands : RegisterStep → List ℕ
  | sum is => is
  | copy i => [i]
  | negate i => [i]
  | add i j => [i, j]
  | addText i _ => [i]
  | _ => []

lemma exists_ofText?_iff (text : String) :
    (∃ m, ExactPolynomial.ofText? text = some m) ↔ ∃ ts, termsOfText text = .ok ts := by
  simp only [ExactPolynomial.ofText?_eq_some_iff]
  constructor
  · rintro ⟨_, ts, hts, -⟩
    exact ⟨ts, hts⟩
  · rintro ⟨ts, hts⟩
    exact ⟨_, ts, hts, rfl⟩

lemma exists_getElem?_iff {α : Type} (as : List α) (i : ℕ) :
    (∃ a, as[i]? = some a) ↔ i < as.length := by
  rw [← Option.isSome_iff_exists]
  simp

/-- Registers can be read together if each of them can. -/
lemma exists_mapM_getElem?_iff {α : Type} (as : List α) (is : List ℕ) :
    (∃ bs, is.mapM (as[·]?) = some bs) ↔ ∀ i ∈ is, i < as.length := by
  induction is with
  | nil => simp
  | cons i is ih =>
      rw [List.forall_mem_cons, ← ih, ← exists_getElem?_iff, List.mapM_cons]
      simp [Option.bind_eq_some_iff]

lemma exists_formed_iff (ms : ExactRegisters) (step : RegisterStep) :
    (∃ results, step.formed? ms = some results)
      ↔ (∀ text ∈ step.texts, ∃ ts, termsOfText text = .ok ts)
        ∧ ∀ i ∈ step.operands, i < ms.length := by
  simp only [← exists_ofText?_iff]
  cases step <;>
    simp [formed?, texts, operands, Option.bind_eq_some_iff, exists_getElem?_iff,
      exists_mapM_getElem?_iff, and_comm]

lemma mem_operands_of_target? {step : RegisterStep} {i : ℕ} (h : step.target? = some i) :
    i ∈ step.operands := by
  cases step <;> cases h <;> simp [operands]

end RegisterStep

namespace Registers

lemma exists_effect_iff (rs : Registers) (step : RegisterStep) :
    (∃ effect, (rs.perform step).2 = .ok effect) ↔ ∃ r, step.result rs = .ok r := by
  rw [perform]
  cases step.result rs with
  | error fault => simp
  | ok r => cases step.target? <;> simp

/-- A step that fails changes nothing. -/
lemma perform_of_error {rs : Registers} {step : RegisterStep} {fault : StepFault}
    (h : (rs.perform step).2 = .error fault) : (rs.perform step).1 = rs := by
  rw [perform] at h ⊢
  cases hresult : step.result rs with
  | error fault => rfl
  | ok r =>
      rw [hresult] at h
      cases htarget : step.target? <;> simp [htarget] at h

/-- A new register is the last one, and the others stay. -/
lemma perform_of_made {rs : Registers} {step : RegisterStep} {n : ℕ}
    (h : (rs.perform step).2 = .ok (.made n)) :
    step.target? = none ∧ n = rs.length ∧ ∃ r, (rs.perform step).1 = rs ++ [r] := by
  rw [perform] at h ⊢
  cases hresult : step.result rs with
  | error fault => simp [hresult] at h
  | ok r =>
      cases htarget : step.target? with
      | none => simpa [hresult, htarget, eq_comm] using h
      | some i => simp [hresult, htarget] at h

/-- Only the register that is added to is replaced. -/
lemma perform_of_replaced {rs : Registers} {step : RegisterStep} {n : ℕ}
    (h : (rs.perform step).2 = .ok (.replaced n)) :
    step.target? = some n ∧ n < rs.length ∧ (rs.perform step).1.length = rs.length
      ∧ ∀ j, j ≠ n → (rs.perform step).1[j]? = rs[j]? := by
  obtain ⟨r, hr⟩ := (rs.exists_effect_iff step).1 ⟨_, h⟩
  obtain ⟨results, hformed, -⟩ := (step.exists_result_iff rs).1 ⟨r, hr⟩
  have hmade := ((step.exists_formed_iff _).1 ⟨results, hformed⟩).2
  rw [perform, hr] at h ⊢
  cases htarget : step.target? with
  | none => simp [htarget] at h
  | some i =>
      obtain rfl : i = n := by simpa [htarget] using h
      have hi : i < rs.length := by
        simpa using hmade i (RegisterStep.mem_operands_of_target? htarget)
      refine ⟨rfl, hi, by simp, fun j hj => ?_⟩
      simp [List.getElem?_set_ne hj.symm]

end Registers

/-! ## Whole runs -/

/-- The registers after a run of steps, of which none is made at the start. -/
def Registers.run (steps : List RegisterStep) : Registers :=
  steps.foldl (fun rs step => (rs.perform step).1) []

noncomputable def ExactRegisters.run (steps : List RegisterStep) : ExactRegisters :=
  steps.foldl ExactRegisters.perform []

/-- **A whole run.**  The exact machine has what the registers mean. -/
theorem Registers.exact_run (steps : List RegisterStep) :
    ExactRegisters.run steps = (Registers.run steps).map Polynomial.exact := by
  rw [Registers.run, ExactRegisters.run, ← List.foldl_hom (List.map Polynomial.exact)]
  · rfl
  · exact fun rs step => (Registers.exact_perform rs step).symm

/-- The polynomial is canonical, and its coefficients are the values of the function. -/
structure Represents (p : Polynomial) (m : ExactPolynomial) : Prop where
  canonical : Canonical p.terms
  coefficient : ∀ e, (p.coefficient e).toInt = m e

lemma Polynomial.represents_exact (p : Polynomial) : Represents p p.exact :=
  ⟨p.canonical, fun e => (p.exact_apply e).symm⟩

/-- **Simulation.**  After any run the registers represent those of the exact machine.  The next
step succeeds exactly if its expressions can be read, its registers have been made, and all the
results that the exact machine forms fit, which is always so when a register is negated.  A step
that fails changes nothing, and one that succeeds makes the next register or replaces the one it
adds to; the others stay. -/
theorem Registers.run_simulation (steps : List RegisterStep) :
    let rs := Registers.run steps
    let ms := ExactRegisters.run steps
    List.Forall₂ Represents rs ms
    ∧ ∀ step : RegisterStep,
      ((∃ effect, (rs.perform step).2 = .ok effect) ↔
        ∃ results, step.formed? ms = some results ∧ ∀ m ∈ results, ∀ e, Fits (m e))
      ∧ ((∃ results, step.formed? ms = some results) ↔
        (∀ text ∈ step.texts, ∃ ts, termsOfText text = .ok ts)
          ∧ ∀ i ∈ step.operands, i < rs.length)
      ∧ (∀ i < rs.length, ∃ effect, (rs.perform (.negate i)).2 = .ok effect)
      ∧ (∀ fault, (rs.perform step).2 = .error fault → (rs.perform step).1 = rs)
      ∧ (∀ n, (rs.perform step).2 = .ok (.made n) →
        step.target? = none ∧ n = rs.length ∧ ∃ p, (rs.perform step).1 = rs ++ [p])
      ∧ (∀ n, (rs.perform step).2 = .ok (.replaced n) →
        step.target? = some n ∧ n < rs.length ∧ (rs.perform step).1.length = rs.length
          ∧ ∀ j, j ≠ n → (rs.perform step).1[j]? = rs[j]?) := by
  intro rs ms
  have hms : ms = rs.map Polynomial.exact := Registers.exact_run steps
  refine ⟨?_, fun step => ⟨?_, ?_, fun i hi => ?_, fun _ => perform_of_error,
    fun _ => perform_of_made, fun _ => perform_of_replaced⟩⟩
  · rw [hms, List.forall₂_map_right_iff, List.forall₂_same]
    exact fun p _ => p.represents_exact
  · rw [hms, exists_effect_iff, step.exists_result_iff]
    rfl
  · rw [step.exists_formed_iff, hms, List.length_map]
  · rw [exists_effect_iff, RegisterStep.exists_result_iff]
    refine ⟨[rs[i].exact.negate], ?_, ?_⟩
    · simp [RegisterStep.formed?, hi]
    · simpa using ExactPolynomial.fitting_negate rs[i].fitting_exact

/-- The least coefficient survives negation, then no other register can be added to it. -/
theorem Registers.run_simulation_least :
    let steps : List RegisterStep :=
      [.ofTerms [⟨-9223372036854775808, 1⟩, ⟨3, 0⟩], .negate 0, .addText 0 "1 + x", .sum [0, 1]]
    let rs := Registers.run steps
    rs.map Polynomial.terms
        = [[⟨-9223372036854775807, 1⟩, ⟨4, 0⟩], [⟨-9223372036854775808, 1⟩, ⟨-3, 0⟩]]
      ∧ List.Forall₂ Represents rs (ExactRegisters.run steps)
      ∧ (rs.perform (.add 1 0)).1 = rs := by
  intro steps rs
  have hfault : (rs.perform (.add 1 0)).2 = .error (.calculation (.coefficientOverflow
      ⟨-9223372036854775808, 1⟩ ⟨-9223372036854775807, 1⟩)) := by decide +kernel
  exact ⟨by decide +kernel, (run_simulation steps).1,
    ((run_simulation steps).2 (.add 1 0)).2.2.2.1 _ hfault⟩

end LaurentCalc
