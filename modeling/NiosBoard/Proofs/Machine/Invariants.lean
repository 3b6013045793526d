import NiosBoard.Proofs.Machine.Fetch
import NiosBoard.Proofs.Machine.Registers

/-! # What holds in every session

Sessions with runs in them, from the new machine on. Registers change through the operations of the
register file only, so what these preserve holds after everything; the state of the run and the
number of steps change when a step succeeds and when the machine starts over.
-/

namespace NiosBoard

namespace RegisterFile

variable {r : RegisterFile} {i : Nat}

theorem isEnabled_eq_false_iff : r.isEnabled i = false ↔ r.cell i = .disabled := by
  rw [isEnabled, access?]
  cases r.cell i with
  | disabled => simp [Cell.access?]
  | enabled v a => simp [Cell.access?]

theorem check_of_disabled (h : r.isEnabled i = false) : r.check i = .error ⟨i⟩ := by
  rw [check, h]
  rfl

/-- Everything that happens to registers preserves `R`, but for enabling one. -/
structure Stable (R : RegisterFile → Prop) : Prop where
  touch : ∀ r i, R r → R (r.touch i)
  store : ∀ r i w, R r → R (r.store i w)
  resetAccess : ∀ r, R r → R r.resetAccess
  clear : ∀ r, R r → R r.clear
  disable : ∀ r i, R r → R (r.disable i)

theorem Stable.apply {R : RegisterFile → Prop} (h : Stable R) (hr : R r) {o : Op}
    (hEnable : ∀ i, o = .enable i → R (r.enable i)) : R (r.apply o) := by
  cases o with
  | read i =>
    rw [RegisterFile.apply, read]
    cases r.check i with
    | ok u => exact h.touch r i hr
    | error e => exact hr
  | write i w =>
    rw [RegisterFile.apply, write]
    cases r.check i with
    | ok u => exact h.store r i w hr
    | error e => exact hr
  | resetAccess => exact h.resetAccess r hr
  | clear => exact h.clear r hr
  | disable i => exact h.disable r i hr
  | enable i => exact hEnable i rfl

theorem peek_update_zero (f : Cell → Cell) (hf : i = 0 → (f (r.cell 0)).value = (r.cell 0).value) :
    (r.update i f).peek 0 = r.peek 0 := by
  rw [peek, cell_update]
  split
  · next h => exact hf h.1
  · rfl

theorem peek_enable_zero : (r.enable i).peek 0 = r.peek 0 := by
  apply peek_update_zero
  rintro rfl
  cases r.cell 0 <;> rfl

theorem stable_peek_zero : Stable fun r => r.peek 0 = 0 where
  touch r i h := (r.peek_touch i 0).trans h
  store r i w h := by
    refine (peek_update_zero _ ?_).trans h
    rintro rfl
    cases r.cell 0 <;> rfl
  resetAccess r h := (r.peek_resetAccess 0).trans h
  clear r h := by
    rw [peek, cell_clear]
    cases r.cell 0 <;> rfl
  disable r i h := by
    rw [peek, disable, cell_update]
    split
    · rfl
    · exact h

theorem cell_update_of_disabled {f : Cell → Cell} {j : Nat} (h : r.cell j = .disabled)
    (hf : i = j → f .disabled = .disabled) : (r.update i f).cell j = .disabled := by
  rw [cell_update, h]
  split
  · next hij => exact hf hij.1
  · rfl

theorem stable_disabled (j : Nat) : Stable fun r => r.cell j = .disabled where
  touch r i h := cell_update_of_disabled h fun _ => rfl
  store r i w h := cell_update_of_disabled h fun _ => rfl
  resetAccess r h := by rw [cell_resetAccess, h]; rfl
  clear r h := by rw [cell_clear, h]; rfl
  disable r i h := cell_update_of_disabled h fun _ => rfl

end RegisterFile

namespace Machine

variable {m : Machine}

/-- An operation, or a run until the program halts, fails or comes to a limit. -/
inductive Act where
  | op (o : Op)
  | runWithLimit (limit : Nat)

def act (m : Machine) : Act → Machine
  | .op o => m.apply o
  | .runWithLimit limit => left (m.runWithLimit limit)

def after (m : Machine) (as : List Act) : Machine := as.foldl act m

theorem leads_step {m₀ : Machine} : Preserves (Leads m₀) step := fun _ h => h.op .step

theorem leads_act {m₀ : Machine} (h : Leads m₀ m) (a : Act) : Leads m₀ (m.act a) := by
  cases a with
  | op o => exact h.op o
  | runWithLimit limit => exact leads_step.runWithLimit limit m h

theorem leads_after (m : Machine) (as : List Act) : Leads m (m.after as) := by
  suffices h : ∀ m', Leads m m' → Leads m (m'.after as) from h m .refl
  induction as with
  | nil => exact fun _ h => h
  | cons a as ih => exact fun m' h => ih _ (leads_act h a)

/-- What every act preserves that is one of those that occur, holds after all of them. -/
theorem after_of_forall {P : Machine → Prop} {as : List Act}
    (h : ∀ m, ∀ a ∈ as, P m → P (m.act a)) (hm : P m) : P (m.after as) := by
  induction as generalizing m with
  | nil => exact hm
  | cons a as ih =>
    refine ih ?_ (h m a List.mem_cons_self hm)
    intro m b hb
    exact h m b (List.mem_cons_of_mem a hb)

/-- An act preserves what its parts preserve. Loads, resets and what is done to the registers
directly are left to the caller. -/
theorem act_of_parts {P : Machine → Prop} (hParts : PreservedByParts P) (hStep : Preserves P step)
    (hOther : ∀ m memory bus, P m → P { m with memory := memory, bus := bus }) {a : Act}
    (hLoad : ∀ p entry, a = .op (.load p entry) → P (left (loadAt p entry m)))
    (hReset : a = .op .reset → P (left m.reset))
    (hRegisters : ∀ o, a = .op (.registers o) → P { m with registers := m.registers.apply o })
    (hm : P m) : P (m.act a) := by
  cases a with
  | runWithLimit limit => exact hStep.runWithLimit limit m hm
  | op o =>
    apply apply_of_parts hParts hStep hm
    intro hExecutes
    cases o with
    | load p entry => exact hLoad p entry rfl
    | reset => exact hReset rfl
    | registers o => exact hRegisters o rfl
    | _ => first | exact hOther m _ _ hm | cases hExecutes

/-- Of registers and run, instructions only mark and store registers. -/
theorem parts_of_registers {Q : RegisterFile → RunState → Nat → Prop}
    (hTouch : ∀ r i s n, Q r s n → Q (r.touch i) s n)
    (hStore : ∀ r i w s n, Q r s n → Q (r.store i w) s n) :
    PreservedByParts fun m => Q m.registers m.state m.steps where
  touch _ _ hm := hTouch _ _ _ _ hm
  store _ _ _ hm := hStore _ _ _ _ _ hm
  fetchAll _ _ hm := hm
  storeAll _ _ hm := hm
  pc _ _ _ hm := hm

/-! ### Registers -/

section Registers

variable {R : RegisterFile → Prop}

theorem stable_steps (h : RegisterFile.Stable R) : PreservedBySteps fun m => R m.registers where
  toPreservedByParts := parts_of_registers (fun r i _ _ => h.touch r i) fun r i w _ _ => h.store r i w
  resetAccess _ hm := h.resetAccess _ hm
  halt _ hm := hm
  advance _ hm := hm
  restorePc _ _ _ hm' := hm'

theorem stable_reset (h : RegisterFile.Stable R) : Preserves (fun m => R m.registers) reset := by
  intro m hm
  have hClear := h.clear _ hm
  rw [reset]
  split
  · exact hClear
  split
  · exact hClear
  · exact h.resetAccess _ (h.store _ _ _ hClear)

theorem stable_act (h : RegisterFile.Stable R) {a : Act}
    (hEnable : ∀ i, a = .op (.registers (.enable i)) → R (m.registers.enable i))
    (hm : R m.registers) : R (m.act a).registers := by
  have hSteps := stable_steps h
  refine act_of_parts hSteps.toPreservedByParts hSteps.step (fun _ _ _ hm => hm) ?_ ?_ ?_ hm
  · rintro p entry -
    rw [loadAt]
    split
    · exact hm
    · exact stable_reset h _ hm
  · rintro -
    exact stable_reset h m hm
  · rintro o rfl
    refine h.apply hm ?_
    rintro i rfl
    exact hEnable i rfl

end Registers

/-! ### Steps -/

/-- Steps are counted from zero. -/
def Counted (m : Machine) : Prop := m.state = .idle ∨ m.state = .loaded → m.steps = 0

theorem counted_steps : PreservedBySteps Counted where
  toPreservedByParts := parts_of_registers
    (Q := fun _ s n => s = .idle ∨ s = .loaded → n = 0) (fun _ _ _ _ h => h) fun _ _ _ _ _ h => h
  resetAccess _ hm := hm
  halt _ _ := by rintro (h | h) <;> cases h
  advance _ _ := by rintro (h | h) <;> cases h
  restorePc _ _ _ hm' := hm'

theorem steps_left_reset (m : Machine) : (left m.reset).steps = 0 := by
  rw [reset]
  split
  · rfl
  split <;> rfl

theorem counted_act {a : Act} (hm : Counted m) : Counted (m.act a) := by
  refine act_of_parts counted_steps.toPreservedByParts counted_steps.step (fun _ _ _ hm => hm)
    ?_ ?_ (fun _ _ => hm) hm
  · rintro p entry -
    rw [loadAt]
    split
    · exact hm
    · exact fun _ => steps_left_reset _
  · rintro - -
    exact steps_left_reset m

/-! ### The halt -/

def succeeds {ε α : Type} : EStateM.Result ε Machine α → Bool
  | .ok _ _ => true
  | .error _ _ => false

def restarts (m : Machine) : Act → Bool
  | .op (.load p entry) => succeeds (loadAt p entry m)
  | .op .reset => succeeds m.reset
  | _ => false

/-- Whether one of several acts is a load or a reset, and succeeds. -/
def everRestarts (m : Machine) : List Act → Bool
  | [] => false
  | a :: as => m.restarts a || (m.act a).everRestarts as

theorem step_of_halted (h : m.state = .halted) : step m = .ok false m := if_pos h

theorem run_of_halted (h : m.state = .halted) : run m = some (.ok () m) := by
  rw [run, step_of_halted h]

theorem runWithLimit_of_halted (h : m.state = .halted) (limit : Nat) :
    runWithLimit limit m = .ok .halted m := if_pos h

theorem state_reset_of_fails (h : succeeds m.reset = false) : (left m.reset).state = m.state := by
  rw [reset] at h ⊢
  split at h
  · cases h
  split at h
  · rfl
  · cases h

/-- Executing leaves the state alone, and a step of a halted machine does nothing. -/
theorem halted_act {a : Act} (ha : m.restarts a = false) (hm : m.state = .halted) :
    (m.act a).state = .halted := by
  have hParts : PreservedByParts fun m => m.state = .halted :=
    parts_of_registers (Q := fun _ s _ => s = .halted) (fun _ _ _ _ h => h) fun _ _ _ _ _ h => h
  have hStep : Preserves (fun m => m.state = .halted) step := by
    intro m hm
    rw [step_of_halted hm]
    exact hm
  refine act_of_parts hParts hStep (fun _ _ _ hm => hm) ?_ ?_ (fun _ _ => hm) hm
  · rintro p entry rfl
    rw [restarts, loadAt] at ha
    rw [loadAt]
    split
    · exact hm
    · next hAligned =>
      rw [if_neg hAligned] at ha
      exact (state_reset_of_fails ha).trans hm
  · rintro rfl
    exact (state_reset_of_fails ha).trans hm

theorem halted_after {as : List Act} (has : m.everRestarts as = false) (hm : m.state = .halted) :
    (m.after as).state = .halted := by
  induction as generalizing m with
  | nil => exact hm
  | cons a as ih =>
    rw [everRestarts, Bool.or_eq_false_iff] at has
    exact ih has.2 (halted_act has.1 hm)

/-- Steps and runs leave the machine alone. -/
structure Still (m : Machine) : Prop where
  state : m.state = .halted
  step : step m = .ok false m
  run : run m = some (.ok () m)
  runWithLimit : ∀ limit, runWithLimit limit m = .ok .halted m

theorem still_of_halted (h : m.state = .halted) : Still m :=
  ⟨h, step_of_halted h, run_of_halted h, runWithLimit_of_halted h⟩

/-! ### Sessions -/

/-- What holds of the machine in every session. -/
structure Lawful (m : Machine) : Prop where
  aligned : m.pc.toNat % 4 = 0
  zero : m.registers.peek 0 = 0
  readsZero : ∀ w r, m.registers.read 0 = .ok (w, r) → w = 0
  counted : m.state = .idle ∨ m.state = .loaded → m.steps = 0
  disabled : ∀ i, m.registers.isEnabled i = false →
    m.registers.peek i = 0 ∧ m.registers.read i = .error ⟨i⟩ ∧
      ∀ w, m.registers.write i w = .error ⟨i⟩
  /-- Programs are refused too. -/
  denied : ∀ i : RegIndex, m.registers.isEnabled i.toNat = false →
    readRegister i m = .error (.register ⟨i.toNat⟩) m ∧
      ∀ w, writeRegister i w m = .error (.register ⟨i.toNat⟩) m
  halted : m.state = .halted → Still m

theorem lawful_of_counted (hAligned : m.pc.toNat % 4 = 0) (hZero : m.registers.peek 0 = 0)
    (hCounted : Counted m) : Lawful m := by
  refine ⟨hAligned, hZero, ?_, hCounted, ?_, ?_, still_of_halted⟩
  · intro w r hRead
    rw [RegisterFile.read] at hRead
    split at hRead <;> cases hRead
    exact hZero
  · intro i hi
    have hCheck := RegisterFile.check_of_disabled hi
    rw [RegisterFile.isEnabled_eq_false_iff] at hi
    refine ⟨?_, ?_, ?_⟩
    · rw [RegisterFile.peek, hi]
      rfl
    · rw [RegisterFile.read, hCheck]
    · intro w
      rw [RegisterFile.write, hCheck]
  · intro i hi
    have hCheck := RegisterFile.check_of_disabled hi
    constructor
    · rw [readRegister, hCheck]
    · intro w
      rw [writeRegister, hCheck]

theorem lawful_after (acts : List Act) : Lawful (new.after acts) := by
  apply lawful_of_counted
  · exact (Reachable.sound (leads_after new acts)).aligned
  · refine after_of_forall (P := fun m => m.registers.peek 0 = 0) ?_ rfl
    intro m a _ hm
    refine stable_act RegisterFile.stable_peek_zero ?_ hm
    intro i _
    exact RegisterFile.peek_enable_zero.trans hm
  · refine after_of_forall ?_ fun _ => rfl
    intro m a _ hm
    exact counted_act hm

theorem disabled_after {i : Nat} {later : List Act}
    (hLater : .op (.registers (.enable i)) ∉ later) (hm : m.registers.isEnabled i = false) :
    (m.after later).registers.isEnabled i = false := by
  rw [RegisterFile.isEnabled_eq_false_iff] at hm ⊢
  refine after_of_forall (P := fun m => m.registers.cell i = .disabled) ?_ hm
  intro m a ha hm
  refine stable_act (RegisterFile.stable_disabled i) ?_ hm
  rintro j rfl
  refine RegisterFile.cell_update_of_disabled hm ?_
  rintro rfl
  exact absurd ha hLater

/-- After every session, whether its parts succeed or fail: the program counter is a word address,
register 0 reads zero, nothing has been counted before the first step, disabled registers show zero
and deny access, and a halted machine does not move. A register stays disabled until it is enabled,
and a machine halted until a load or a reset succeeds. -/
theorem session_invariants (acts : List Act) :
    Lawful (new.after acts) ∧
      (∀ i, (new.after acts).registers.isEnabled i = false →
        ∀ later, .op (.registers (.enable i)) ∉ later →
          ((new.after acts).after later).registers.isEnabled i = false) ∧
      ((new.after acts).state = .halted →
        ∀ later, (new.after acts).everRestarts later = false →
          Still ((new.after acts).after later)) := by
  refine ⟨lawful_after acts, ?_, ?_⟩
  · intro i hi later hLater
    exact disabled_after hLater hi
  · intro hHalted later hLater
    exact still_of_halted (halted_after hLater hHalted)

def lacking : Machine := new.apply (.registers (.disable 5))

/-- Without register 5 the machine halts, and stays as it is whatever is tried then. -/
theorem session_invariants_lacking :
    (new.after [.op (.registers (.disable 5)), .op .step]).state = .halted ∧
      lacking.halt.registers.isEnabled 5 = false ∧
      Still (lacking.halt.after [.op (.registers (.write 5 1)), .runWithLimit 3]) ∧
      (lacking.halt.after [.op (.registers (.write 5 1)), .runWithLimit 3]).registers.isEnabled 5 =
        false := by
  have hStep : step lacking = .ok false lacking.halt := by
    apply step_standard
    · exact nofun
    · rfl
    · rfl
  have hAfter : new.after [.op (.registers (.disable 5)), .op .step] = lacking.halt := by
    rw [after, List.foldl_cons, List.foldl_cons, List.foldl_nil]
    show left (step lacking) = _
    rw [hStep]
    rfl
  have hOff : lacking.halt.registers.isEnabled 5 = false := by
    have hDisable : (RegisterFile.new.disable 5).isEnabled 5 = false := by
      rw [RegisterFile.isEnabled_eq_false_iff, RegisterFile.disable, RegisterFile.cell_update,
        if_pos ⟨rfl, by decide⟩]
    exact ((RegisterFile.new.disable 5).isEnabled_resetAccess 5).trans hDisable
  obtain ⟨-, hDisabled, hHalted⟩ := session_invariants [.op (.registers (.disable 5)), .op .step]
  rw [hAfter] at hDisabled hHalted ⊢
  refine ⟨rfl, hOff, hHalted rfl _ rfl, hDisabled 5 hOff _ ?_⟩
  simp

end Machine

end NiosBoard
