import NiosBoard.Proofs.Machine.Halting
import NiosBoard.Proofs.Machine.Invariants
import NiosBoard.Proofs.Machine.SideEffects

/-! # Runs, one after another

A run executes instructions until a step ends it, by a halt or a fault, or until its limit. Whatever
the limit, it is the same instructions and the same last step; so a run that meets its limit can be
taken up again, and a run without a limit is one whose limit is large enough.
-/

namespace NiosBoard.Machine

variable {m m₁ m' : Machine} {r : EStateM.Result MachineError Machine Outcome}

/-- So many instructions are executed, one after another. -/
inductive Executes : Nat → Machine → Machine → Prop
  | refl (m : Machine) : Executes 0 m m
  | step {n : Nat} {m m₁ m' : Machine} (h : step m = .ok true m₁) (h' : Executes n m₁ m') :
      Executes (n + 1) m m'

/-- What a run gives whose next step is its last. -/
def ending? : EStateM.Result MachineError Machine Bool →
    Option (EStateM.Result MachineError Machine Outcome)
  | .ok true _ => none
  | .ok false m => some (.ok .halted m)
  | .error e m => some (.error e m)

/-- What a run without a limit gives in place of one that a limit has not ended. -/
def endless : EStateM.Result MachineError Machine Outcome → EStateM.Result MachineError Machine Unit
  | .ok _ m => .ok () m
  | .error e m => .error e m

/-- After so many instructions comes a step that ends the run like this. -/
def EndsAfter (n : Nat) (m : Machine) (r : EStateM.Result MachineError Machine Outcome) : Prop :=
  ∃ m₁, Executes n m m₁ ∧ ending? (step m₁) = some r

/-! ### One step -/

theorem ending?_eq_none_iff {x : EStateM.Result MachineError Machine Bool} :
    ending? x = none ↔ ∃ m, x = .ok true m := by
  cases x with
  | error e m => simp [ending?]
  | ok b m => cases b <;> simp [ending?]

theorem ending?_eq_halted_iff {x : EStateM.Result MachineError Machine Bool} :
    ending? x = some (.ok .halted m) ↔ x = .ok false m := by
  cases x with
  | error e m => simp [ending?]
  | ok b m => cases b <;> simp [ending?]

theorem ending?_eq_error_iff {x : EStateM.Result MachineError Machine Bool} {e : MachineError} :
    ending? x = some (.error e m) ↔ x = .error e m := by
  cases x with
  | error e m => simp [ending?]
  | ok b m => cases b <;> simp [ending?]

theorem ending?_ne_limitReached {x : EStateM.Result MachineError Machine Bool} :
    ending? x ≠ some (.ok .limitReached m) := by
  cases x with
  | error e m => nofun
  | ok b m => cases b <;> nofun

theorem awake_of_step (h : step m = .ok true m') : m.state ≠ .halted := by
  intro hHalted
  cases (step_of_halted hHalted).symm.trans h

theorem awake_after_step (h : step m = .ok true m') : m'.state ≠ .halted := by
  rcases of_step_eq_ok (awake_of_step h) h with ⟨-, hRunning⟩ | ⟨hFalse, -⟩
  · simp [hRunning]
  · cases hFalse

theorem steps_parts (n : Nat) : PreservedByParts fun m => m.steps = n :=
  ⟨fun _ _ => id, fun _ _ _ => id, fun _ _ => id, fun _ _ => id, fun _ _ _ => id⟩

theorem steps_of_stepWord {w : Word} {b : Bool} (h : stepWord w m = .ok b m') :
    m'.steps = m.steps + b.toNat := by
  unfold stepWord at h
  split at h
  · cases h
    rfl
  split at h
  · cases h
  next i _ =>
  have hKept := (steps_parts m.steps).execute i m rfl
  split at h
  · cases h
  · next hExecute =>
    cases h
    rw [hExecute] at hKept
    exact congrArg (· + 1) hKept

/-- A step counts if it executes an instruction. -/
theorem steps_of_step {b : Bool} (h : step m = .ok b m') : m'.steps = m.steps + b.toNat := by
  by_cases hHalted : m.state = .halted
  · cases (step_of_halted hHalted).symm.trans h
    rfl
  · obtain ⟨w, m₁, hLoad, hWord⟩ := exists_stepWord_of_step_eq_ok hHalted h
    rw [steps_of_stepWord hWord, of_loadMemory_eq_ok hLoad]

theorem steps_of_step_error {e : MachineError} (h : step m = .error e m') : m'.steps = m.steps := by
  obtain ⟨-, -, hAgrees⟩ := step_error h
  rw [hAgrees.steps, fetched_eq]

theorem stepUpTo_of_step (h : step m = .ok true m₁) (n : Nat) :
    stepUpTo (n + 1) m = stepUpTo n m₁ := by
  rw [stepUpTo]
  simp only [h]

theorem run_of_step (h : step m = .ok true m₁) : run m = run m₁ := by
  rw [run, h]

/-! ### Instructions one after another -/

theorem Executes.steps {n : Nat} (h : Executes n m m') : m'.steps = m.steps + n := by
  induction h with
  | refl => rfl
  | step hStep _ ih =>
    rw [ih, steps_of_step hStep, Bool.toNat_true]
    omega

theorem Executes.awake {n : Nat} (h : Executes n m m') (hAwake : m.state ≠ .halted) :
    m'.state ≠ .halted := by
  induction h with
  | refl => exact hAwake
  | step hStep _ ih => exact ih (awake_after_step hStep)

theorem Executes.stepUpTo {n : Nat} (h : Executes n m m') :
    stepUpTo n m = .ok .limitReached m' := by
  induction h with
  | refl => rfl
  | step hStep _ ih => exact (stepUpTo_of_step hStep _).trans ih

/-- What follows the instructions that were executed is all that matters. -/
theorem Executes.stepUpTo_add {k : Nat} (h : Executes k m m₁) (n : Nat) :
    Machine.stepUpTo (k + n) m = Machine.stepUpTo n m₁ := by
  induction h with
  | refl => rw [Nat.zero_add]
  | step hStep _ ih =>
    rw [Nat.succ_add, stepUpTo_of_step hStep, ih]

theorem Executes.run {n : Nat} (h : Executes n m m₁) : run m = run m₁ := by
  induction h with
  | refl => rfl
  | step hStep _ ih => exact (run_of_step hStep).trans ih

theorem EndsAfter.step {n : Nat} (hStep : step m = .ok true m₁) (h : EndsAfter n m₁ r) :
    EndsAfter (n + 1) m r := by
  obtain ⟨m₂, hExecutes, hEnding⟩ := h
  exact ⟨m₂, .step hStep hExecutes, hEnding⟩

/-! ### The two loops -/

theorem stepUpTo_of_ending? (h : ending? (step m) = some r) (n : Nat) :
    stepUpTo (n + 1) m = r := by
  rw [stepUpTo]
  simp only
  split
  · next hStep =>
    rw [hStep] at h
    cases h
  · next hStep =>
    rw [hStep] at h
    exact Option.some.inj h
  · next hStep =>
    rw [hStep] at h
    exact Option.some.inj h

theorem run_of_ending? (h : ending? (step m) = some r) : run m = some (endless r) := by
  rw [run]
  split
  · next hStep =>
    rw [hStep] at h
    cases h
  · next hStep =>
    rw [hStep] at h
    cases h
    rfl
  · next hStep =>
    rw [hStep] at h
    cases h
    rfl

/-- All that a loop can do: it executes as many instructions as it may, or it ends before. -/
theorem stepUpTo_cases (n : Nat) (m : Machine) :
    (∃ m', stepUpTo n m = .ok .limitReached m' ∧ Executes n m m') ∨
      ∃ k < n, EndsAfter k m (stepUpTo n m) := by
  induction n generalizing m with
  | zero => exact .inl ⟨m, rfl, .refl m⟩
  | succ n ih =>
    cases hEnding : ending? (step m) with
    | some r =>
      rw [stepUpTo_of_ending? hEnding]
      exact .inr ⟨0, Nat.succ_pos n, m, .refl m, hEnding⟩
    | none =>
      obtain ⟨m₁, hStep⟩ := ending?_eq_none_iff.mp hEnding
      rw [stepUpTo_of_step hStep]
      rcases ih m₁ with ⟨m', hLimit, hExecutes⟩ | ⟨k, hk, hEnds⟩
      · exact .inl ⟨m', hLimit, .step hStep hExecutes⟩
      · exact .inr ⟨k + 1, Nat.succ_lt_succ hk, hEnds.step hStep⟩

theorem EndsAfter.stepUpTo {k n : Nat} (h : EndsAfter k m r) (hk : k < n) : stepUpTo n m = r := by
  obtain ⟨m₁, hExecutes, hEnding⟩ := h
  obtain ⟨j, rfl⟩ := Nat.exists_eq_add_of_lt hk
  rw [Nat.add_assoc, hExecutes.stepUpTo_add]
  exact stepUpTo_of_ending? hEnding j

theorem stepUpTo_add (a b : Nat) (m : Machine) :
    stepUpTo (a + b) m =
      match stepUpTo a m with
      | .ok .limitReached m' => stepUpTo b m'
      | result => result := by
  rcases stepUpTo_cases a m with ⟨m', hLimit, hExecutes⟩ | ⟨k, hk, hEnds⟩
  · rw [hLimit, hExecutes.stepUpTo_add]
  · rw [hEnds.stepUpTo (Nat.lt_add_right b hk)]
    obtain ⟨m₁, -, hEnding⟩ := hEnds
    split
    · next hLimit =>
      rw [hLimit] at hEnding
      exact absurd hEnding ending?_ne_limitReached
    · rfl

theorem exists_endsAfter_of_run {r : EStateM.Result MachineError Machine Unit}
    (h : run m = some r) : ∃ n r', EndsAfter n m r' ∧ endless r' = r := by
  refine run.partial_correctness
    (fun m r => ∃ n r', EndsAfter n m r' ∧ endless r' = r) ?_ m r h
  intro rec ih m r hRun
  split at hRun
  · next m₁ hStep =>
    obtain ⟨n, r', hEnds, hr⟩ := ih m₁ r hRun
    exact ⟨n + 1, r', hEnds.step hStep, hr⟩
  · next m₁ hStep =>
    cases hRun
    exact ⟨0, .ok .halted m₁, ⟨m, .refl m, ending?_eq_halted_iff.mpr hStep⟩, rfl⟩
  · next e m₁ hStep =>
    cases hRun
    exact ⟨0, .error e m₁, ⟨m, .refl m, ending?_eq_error_iff.mpr hStep⟩, rfl⟩

theorem EndsAfter.run {n : Nat} (h : EndsAfter n m r) : run m = some (endless r) := by
  obtain ⟨m₁, hExecutes, hEnding⟩ := h
  rw [hExecutes.run, run_of_ending? hEnding]

/-! ### Runs with and without a limit -/

theorem not_endsAfter_limitReached {n : Nat} : ¬ EndsAfter n m (.ok .limitReached m') := by
  rintro ⟨m₁, -, hEnding⟩
  exact ending?_ne_limitReached hEnding

theorem stepUpTo_eq_limitReached_iff {n : Nat} :
    Machine.stepUpTo n m = .ok .limitReached m' ↔ Executes n m m' := by
  constructor
  · intro h
    rcases stepUpTo_cases n m with ⟨m₁, hLimit, hExecutes⟩ | ⟨k, -, hEnds⟩
    · cases hLimit.symm.trans h
      exact hExecutes
    · rw [h] at hEnds
      exact absurd hEnds not_endsAfter_limitReached
  · exact fun h => h.stepUpTo

theorem stepUpTo_eq_iff {n : Nat} (hr : ∀ m', r ≠ .ok .limitReached m') :
    Machine.stepUpTo n m = r ↔ ∃ k < n, EndsAfter k m r := by
  constructor
  · rintro rfl
    rcases stepUpTo_cases n m with ⟨m₁, hLimit, -⟩ | hEnds
    · exact absurd hLimit (hr m₁)
    · exact hEnds
  · rintro ⟨k, hk, hEnds⟩
    exact hEnds.stepUpTo hk

theorem runWithLimit_of_awake (h : m.state ≠ .halted) (n : Nat) :
    runWithLimit n m = Machine.stepUpTo n m := if_neg h

theorem runWithLimit_add (a b : Nat) (m : Machine) :
    runWithLimit (a + b) m =
      match runWithLimit a m with
      | .ok .limitReached m' => runWithLimit b m'
      | result => result := by
  by_cases hHalted : m.state = .halted
  · rw [runWithLimit_of_halted hHalted, runWithLimit_of_halted hHalted]
  rw [runWithLimit_of_awake hHalted, runWithLimit_of_awake hHalted, stepUpTo_add]
  split
  · next m' hLimit =>
    -- the machine at the seam has executed an instruction last, or none at all
    have hAwake := (stepUpTo_eq_limitReached_iff.mp hLimit).awake hHalted
    exact (runWithLimit_of_awake hAwake b).symm
  · rfl

theorem runWithLimit_eq_limitReached_iff {n : Nat} :
    runWithLimit n m = .ok .limitReached m' ↔ m.state ≠ .halted ∧ Executes n m m' := by
  by_cases hHalted : m.state = .halted
  · simp [runWithLimit_of_halted hHalted, hHalted]
  · simp [runWithLimit_of_awake hHalted, stepUpTo_eq_limitReached_iff, hHalted]

theorem EndsAfter.steps_halted {n : Nat} (h : EndsAfter n m (.ok .halted m')) :
    m'.steps = m.steps + n := by
  obtain ⟨m₁, hExecutes, hEnding⟩ := h
  rw [steps_of_step (ending?_eq_halted_iff.mp hEnding), hExecutes.steps]
  rfl

theorem EndsAfter.steps_error {n : Nat} {e : MachineError} (h : EndsAfter n m (.error e m')) :
    m'.steps = m.steps + n := by
  obtain ⟨m₁, hExecutes, hEnding⟩ := h
  rw [steps_of_step_error (ending?_eq_error_iff.mp hEnding), hExecutes.steps]

theorem endless_eq_ok_iff (hr : ∀ m', r ≠ .ok .limitReached m') :
    endless r = .ok () m' ↔ r = .ok .halted m' := by
  rcases r with ⟨_ | _, m₁⟩ | ⟨e, m₁⟩
  · simp [endless]
  · exact absurd rfl (hr m₁)
  · simp [endless]

theorem EndsAfter.eq_of_halted {n : Nat} (hHalted : m.state = .halted) (h : EndsAfter n m r) :
    r = .ok .halted m := by
  obtain ⟨m₁, hExecutes, hEnding⟩ := h
  cases hExecutes with
  | refl =>
    rw [step_of_halted hHalted] at hEnding
    exact (Option.some.inj hEnding).symm
  | step hStep _ => exact absurd hHalted (awake_of_step hStep)

theorem runWithLimit_eq_halted_iff {n : Nat} :
    runWithLimit n m = .ok .halted m' ↔
      (m.state = .halted ∧ m' = m) ∨ ∃ k < n, EndsAfter k m (.ok .halted m') := by
  by_cases hHalted : m.state = .halted
  · rw [runWithLimit_of_halted hHalted]
    constructor
    · intro h
      cases h
      exact .inl ⟨hHalted, rfl⟩
    · rintro (⟨-, rfl⟩ | ⟨k, -, hEnds⟩)
      · rfl
      · exact (hEnds.eq_of_halted hHalted).symm
  · rw [runWithLimit_of_awake hHalted, stepUpTo_eq_iff (by rintro _ ⟨⟩)]
    simp [hHalted]

theorem runWithLimit_eq_error_iff {n : Nat} {e : MachineError} :
    runWithLimit n m = .error e m' ↔ ∃ k < n, EndsAfter k m (.error e m') := by
  by_cases hHalted : m.state = .halted
  · rw [runWithLimit_of_halted hHalted]
    constructor
    · nofun
    · rintro ⟨k, -, hEnds⟩
      cases hEnds.eq_of_halted hHalted
  · rw [runWithLimit_of_awake hHalted, stepUpTo_eq_iff (by rintro _ ⟨⟩)]

theorem run_eq_some_iff {r : EStateM.Result MachineError Machine Unit} :
    Machine.run m = some r ↔ ∃ n r', EndsAfter n m r' ∧ endless r' = r := by
  constructor
  · exact exists_endsAfter_of_run
  · rintro ⟨n, r', hEnds, rfl⟩
    exact hEnds.run

theorem run_eq_ok_iff :
    Machine.run m = some (.ok () m') ↔ ∃ n, runWithLimit n m = .ok .halted m' := by
  rw [run_eq_some_iff]
  constructor
  · rintro ⟨n, r, hEnds, hr⟩
    rw [endless_eq_ok_iff (by rintro m₁ rfl; exact not_endsAfter_limitReached hEnds)] at hr
    rw [hr] at hEnds
    exact ⟨n + 1, runWithLimit_eq_halted_iff.mpr (.inr ⟨n, n.lt_succ_self, hEnds⟩)⟩
  · rintro ⟨n, h⟩
    rcases runWithLimit_eq_halted_iff.mp h with ⟨hHalted, rfl⟩ | ⟨k, -, hEnds⟩
    · exact ⟨0, _, ⟨m', .refl m', ending?_eq_halted_iff.mpr (step_of_halted hHalted)⟩, rfl⟩
    · exact ⟨k, _, hEnds, rfl⟩

theorem run_eq_error_iff {e : MachineError} :
    Machine.run m = some (.error e m') ↔ ∃ n, runWithLimit n m = .error e m' := by
  simp only [run_eq_some_iff, runWithLimit_eq_error_iff]
  constructor
  · rintro ⟨n, _ | ⟨e', m₁⟩, hEnds, hr⟩
    · cases hr
    · cases hr
      exact ⟨n + 1, n, n.lt_succ_self, hEnds⟩
  · rintro ⟨-, k, -, hEnds⟩
    exact ⟨k, _, hEnds, rfl⟩

/-- A limit is a pause: what the run does after it is what a run with a limit large enough for both
would have done, to the outcome or error, the machine and everything its bus reported. At the limit
exactly that many instructions were executed; a halt or an error comes before, right after fewer.
A run without a limit ends as some run with a limit does. -/
theorem runs_compose (m : Machine) :
    (∀ a b, runWithLimit (a + b) m =
      match runWithLimit a m with
      | .ok .limitReached m' => runWithLimit b m'
      | result => result) ∧
    (∀ a m', runWithLimit a m = .ok .limitReached m' ↔
      m.state ≠ .halted ∧ Executes a m m' ∧ m'.steps = m.steps + a) ∧
    (∀ a m', runWithLimit a m = .ok .halted m' ↔
      (m.state = .halted ∧ m' = m) ∨
        ∃ k < a, EndsAfter k m (.ok .halted m') ∧ m'.steps = m.steps + k) ∧
    (∀ a e m', runWithLimit a m = .error e m' ↔
      ∃ k < a, EndsAfter k m (.error e m') ∧ m'.steps = m.steps + k) ∧
    (∀ m', run m = some (.ok () m') ↔ ∃ n, runWithLimit n m = .ok .halted m') ∧
    (∀ e m', run m = some (.error e m') ↔ ∃ n, runWithLimit n m = .error e m') := by
  refine ⟨fun a b => runWithLimit_add a b m, fun a m' => ?_, fun a m' => ?_, fun a e m' => ?_,
    fun m' => run_eq_ok_iff, fun e m' => run_eq_error_iff⟩
  · rw [runWithLimit_eq_limitReached_iff, and_iff_left_of_imp Executes.steps]
  · simp only [and_iff_left_of_imp EndsAfter.steps_halted, runWithLimit_eq_halted_iff]
  · simp only [and_iff_left_of_imp EndsAfter.steps_error, runWithLimit_eq_error_iff]

end NiosBoard.Machine
