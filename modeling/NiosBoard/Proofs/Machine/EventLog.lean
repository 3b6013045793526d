import NiosBoard.Proofs.Machine.EventDelivery
import NiosBoard.Proofs.Machine.Halting
import NiosBoard.Proofs.Machine.Invariants
import NiosBoard.Proofs.Machine.SideEffects
import NiosBoard.Proofs.Machine.View

/-! # The log of a run

Whoever listens while a machine of the board runs can follow it: from what they saw before and the
events since follow registers, program counter, RAM and LEDs, how many instructions were executed,
and whether the machine has halted.
-/

namespace NiosBoard

namespace Machine

variable {m m' m'' : Machine}

/-! ### Listeners -/

theorem numbered_steps : PreservedBySteps fun m => m.bus.Numbered where
  touch _ _ hm := hm
  store _ _ _ hm := EventBus.numbered_publish _ hm
  fetchAll _ _ hm := hm
  storeAll _ _ hm := EventBus.numbered_publishAll _ hm
  pc _ _ _ hm := hm
  resetAccess _ hm := hm
  halt _ hm := EventBus.numbered_publish _ hm
  advance _ hm := EventBus.numbered_publish _ hm
  restorePc _ _ _ hm' := hm'

theorem bus_left_reset (m : Machine) : (left m.reset).bus = m.bus := by
  rw [reset]
  split
  · rfl
  split <;> rfl

theorem numbered_apply (hm : m.bus.Numbered) (o : Op) : (m.apply o).bus.Numbered := by
  refine apply_of_parts (P := fun m => m.bus.Numbered) numbered_steps.toPreservedByParts
    numbered_steps.step hm ?_
  intro hExecutes
  cases o with
  | load p entry =>
    rw [apply, loadAt]
    split
    · exact hm
    · exact (bus_left_reset _).symm ▸ hm
  | reset => exact (bus_left_reset m).symm ▸ hm
  | registers o => exact hm
  | memory o => exact EventBus.numbered_publishAll _ hm
  | subscribe => exact EventBus.numbered_subscribe hm
  | publish e => exact EventBus.numbered_publish e hm
  | drain id =>
    apply EventBus.numbered_map _ hm
    intro l
    split <;> rfl
  | drop id =>
    apply EventBus.numbered_map _ hm
    intro l
    split <;> rfl
  | _ => cases hExecutes

theorem Reachable.numbered (h : Reachable m) : m.bus.Numbered := by
  induction h with
  | refl => exact fun _ hl => nomatch hl
  | op _ o ih => exact numbered_apply ih o

/-! ### Parts of instructions -/

/-- What there is to see, with the program counter at `pc`. -/
def viewAt (m : Machine) (pc : Word) : View :=
  ⟨m.registers.peek, pc, m.memory.ram?, m.memory.leds?⟩

def view (m : Machine) : View := m.viewAt m.pc

/-- A part of an instruction has published the events, and they tell what there is to see of it. The
program counter is not reported before the instruction is over. -/
structure Reports (m : Machine) (es : List Event) (m' : Machine) : Prop where
  bus : m'.bus = m.bus.publishAll es
  view : ∀ pc, m'.viewAt pc = es.foldl View.observe (m.viewAt pc)
  effects : ∀ e ∈ es, e.IsEffect
  state : m'.state = m.state
  steps : m'.steps = m.steps
  reported : m.memory.Reported → m'.memory.Reported

theorem Reports.refl (m : Machine) : Reports m [] m :=
  ⟨rfl, fun _ => rfl, List.forall_mem_nil _, rfl, rfl, id⟩

theorem Reports.trans {es es' : List Event} (h : Reports m es m') (h' : Reports m' es' m'') :
    Reports m (es ++ es') m'' where
  bus := by rw [h'.bus, h.bus, EventBus.publishAll_append]
  view pc := by rw [h'.view, h.view, List.foldl_append]
  effects := List.forall_mem_append.mpr ⟨h.effects, h'.effects⟩
  state := h'.state.trans h.state
  steps := h'.steps.trans h.steps
  reported hm := h'.reported (h.reported hm)

theorem reports_registers {r : RegisterFile} (h : r.peek = m.registers.peek) :
    Reports m [] { m with registers := r } where
  bus := rfl
  view pc := by rw [viewAt, h]; rfl
  effects := List.forall_mem_nil _
  state := rfl
  steps := rfl
  reported := id

theorem peek_store_eq_update (r : RegisterFile) (i : Nat) (w : Word) :
    (r.store i w).peek = Function.update r.peek i ((r.store i w).peek i) := by
  funext j
  by_cases h : j = i
  · subst h
    rw [Function.update_self]
  · rw [Function.update_of_ne h, RegisterFile.peek, RegisterFile.store, RegisterFile.cell_update,
      if_neg fun hSame => h hSame.1.symm]
    rfl

theorem reports_store (m : Machine) (i : Nat) (w : Word) :
    Reports m [.register i ((m.registers.store i w).peek i)] { m with
      registers := m.registers.store i w
      bus := m.bus.publish (.register i ((m.registers.store i w).peek i)) } where
  bus := rfl
  view pc := congrArg (fun r => View.mk r pc m.memory.ram? m.memory.leds?)
    (peek_store_eq_update m.registers i w)
  effects := List.forall_mem_singleton.mpr ⟨rfl, rfl⟩
  state := rfl
  steps := rfl
  reported := id

theorem reports_fetchAll (m : Machine) (addresses : List Word) :
    Reports m [] { m with memory := (m.memory.fetchAll addresses).2 } where
  bus := rfl
  view pc := (m.viewAt pc).withMemory_fetchAll m.memory addresses
  effects := List.forall_mem_nil _
  state := rfl
  steps := rfl
  reported hm := hm.fetchAll addresses

theorem reports_storeAll (hm : m.memory.Reported) (stores : List (Word × Byte)) :
    Reports m (m.memory.storeAll stores).2 { m with
      memory := (m.memory.storeAll stores).1
      bus := m.bus.publishAll (m.memory.storeAll stores).2 } where
  bus := rfl
  view pc := (m.viewAt pc).withMemory_storeAll hm stores
  effects := Memory.isEffect_storeAll m.memory stores
  state := rfl
  steps := rfl
  reported _ := hm.storeAll stores

theorem reports_pc (m : Machine) (pc : Word) : Reports m [] { m with pc := pc } where
  bus := rfl
  view _ := rfl
  effects := List.forall_mem_nil _
  state := rfl
  steps := rfl
  reported := id

theorem reports_parts {m₀ : Machine} (h₀ : m₀.memory.Reported) :
    PreservedByParts fun m => ∃ es, Reports m₀ es m where
  touch m i := by
    rintro ⟨es, hm⟩
    exact ⟨_, hm.trans (reports_registers (funext fun j => m.registers.peek_touch i j))⟩
  store m i w := by
    rintro ⟨es, hm⟩
    exact ⟨_, hm.trans (reports_store m i w)⟩
  fetchAll m addresses := by
    rintro ⟨es, hm⟩
    exact ⟨_, hm.trans (reports_fetchAll m addresses)⟩
  storeAll m stores := by
    rintro ⟨es, hm⟩
    exact ⟨_, hm.trans (reports_storeAll (hm.reported h₀) stores)⟩
  pc m pc _ := by
    rintro ⟨es, hm⟩
    exact ⟨_, hm.trans (reports_pc m pc)⟩

theorem reports_loadMemory (width : Width) (address : Word) (m : Machine) :
    Reports m [] (left (loadMemory width address m)) := by
  rw [loadMemory]
  split
  · exact .refl m
  · exact reports_fetchAll m _

/-! ### Steps and runs -/

/-- Between the machines the events were published, and they tell all that there is to see. -/
structure Logs (m : Machine) (es : List Event) (m' : Machine) : Prop where
  bus : m'.bus = m.bus.publishAll es
  view : m'.view = es.foldl View.observe m.view
  steps : m'.steps = m.steps + es.countP Event.isPc
  rests : m.state = .halted → es = [] ∧ m'.state = .halted
  halts : m.state ≠ .halted → m'.state = .halted →
    ∃ es₀, es = es₀ ++ [.halted m'.steps] ∧ ∀ e ∈ es₀, e.isHalted = false
  runs : m'.state ≠ .halted → ∀ e ∈ es, e.isHalted = false
  reported : m.memory.Reported → m'.memory.Reported

theorem Logs.refl (m : Machine) : Logs m [] m where
  bus := rfl
  view := rfl
  steps := rfl
  rests h := ⟨rfl, h⟩
  halts h h' := absurd h' h
  runs _ := List.forall_mem_nil _
  reported := id

theorem Logs.trans {es es' : List Event} (h : Logs m es m') (h' : Logs m' es' m'') :
    Logs m (es ++ es') m'' where
  bus := by rw [h'.bus, h.bus, EventBus.publishAll_append]
  view := by rw [h'.view, h.view, List.foldl_append]
  steps := by rw [h'.steps, h.steps, List.countP_append, Nat.add_assoc]
  rests hHalted := by
    obtain ⟨rfl, hHalted'⟩ := h.rests hHalted
    exact h'.rests hHalted'
  halts hAwake hHalted := by
    -- a machine that halts on the way publishes nothing after that
    by_cases hState : m'.state = .halted
    · obtain ⟨rfl, -⟩ := h'.rests hState
      have hSteps : m''.steps = m'.steps := h'.steps
      rw [List.append_nil, hSteps]
      exact h.halts hAwake hState
    · obtain ⟨es₀, rfl, hes₀⟩ := h'.halts hState hHalted
      exact ⟨es ++ es₀, (List.append_assoc ..).symm,
        List.forall_mem_append.mpr ⟨h.runs hState, hes₀⟩⟩
  runs hAwake := by
    have hState : m'.state ≠ .halted := fun hState => hAwake (h'.rests hState).2
    exact List.forall_mem_append.mpr ⟨h.runs hState, h'.runs hAwake⟩
  reported hm := h'.reported (h.reported hm)

theorem Reports.logs_advance {es : List Event} (h : Reports m es m') (hAwake : m.state ≠ .halted) :
    Logs m (es ++ [.pc m'.advance.pc]) m'.advance where
  bus := by
    rw [EventBus.publishAll_append, ← h.bus]
    rfl
  view := by
    rw [List.foldl_append]
    exact congrArg (View.observe · (.pc m'.advance.pc)) (h.view m.pc)
  steps := by
    have hNone : es.countP Event.isPc = 0 := by
      rw [List.countP_eq_zero]
      intro e he
      simp [(h.effects e he).1]
    rw [List.countP_append, hNone, ← h.steps]
    rfl
  rests hHalted := absurd hHalted hAwake
  halts _ hRunning := nomatch hRunning
  runs _ := by
    rw [List.forall_mem_append, List.forall_mem_singleton]
    exact ⟨fun e he => (h.effects e he).2, rfl⟩
  reported := h.reported

theorem logs_of_step_error {e : MachineError} (h : step m = .error e m') : Logs m [] m' := by
  obtain ⟨-, hPc, hAgrees⟩ := step_error h
  have hFetch : Reports m [] m.fetched := reports_loadMemory .word m.pc m
  have hState := hAgrees.state.trans hFetch.state
  refine ⟨hAgrees.bus.trans hFetch.bus, ?_, hAgrees.steps.trans hFetch.steps, ?_, ?_, ?_, ?_⟩
  · rw [view, hPc, viewAt, funext hAgrees.value, hAgrees.memory]
    exact hFetch.view m.pc
  · intro hHalted
    exact ⟨rfl, hState.trans hHalted⟩
  · intro hAwake hHalted
    exact absurd (hState.symm.trans hHalted) hAwake
  · exact fun _ => List.forall_mem_nil _
  · intro hm
    rw [hAgrees.memory]
    exact hFetch.reported hm

theorem reports_fetch {w : Word} {m₁ : Machine}
    (h : loadMemory .word m.pc { m with registers := m.registers.resetAccess } = .ok w m₁) :
    Reports m [] m₁ := by
  have hForget := reports_registers (funext m.registers.peek_resetAccess)
  have hLoad := reports_loadMemory .word m.pc { m with registers := m.registers.resetAccess }
  rw [h] at hLoad
  exact hForget.trans hLoad

theorem exists_logs_of_step_true (hm : m.memory.Reported) (h : step m = .ok true m') :
    ∃ es, Logs m (es ++ [.pc m'.pc]) m' ∧ ∀ e ∈ es, e.IsEffect := by
  have hAwake : m.state ≠ .halted := by
    intro hHalted
    cases (step_of_halted hHalted).symm.trans h
  obtain ⟨w, m₁, hLoad, hWord⟩ := exists_stepWord_of_step_eq_ok hAwake h
  rw [stepWord] at hWord
  split at hWord
  · cases hWord
  split at hWord
  · cases hWord
  next i hDecode =>
  have hExecute := (reports_parts hm).execute i m₁ ⟨[], reports_fetch hLoad⟩
  split at hWord
  · cases hWord
  · next hResult =>
    cases hWord
    rw [hResult] at hExecute
    obtain ⟨es, hReports⟩ := hExecute
    exact ⟨es, hReports.logs_advance hAwake, hReports.effects⟩

theorem logs_of_step_false (hAwake : m.state ≠ .halted) (h : step m = .ok false m') :
    Logs m [.halted m'.steps] m' := by
  obtain ⟨w, m₁, hLoad, hWord⟩ := exists_stepWord_of_step_eq_ok hAwake h
  have hReports := reports_fetch hLoad
  obtain rfl := of_loadMemory_eq_ok hLoad
  rw [stepWord] at hWord
  split at hWord
  · cases hWord
    refine ⟨rfl, hReports.view m.pc, rfl, ?_, ?_, ?_, hReports.reported⟩
    · intro hHalted
      exact absurd hHalted hAwake
    · intro _ _
      exact ⟨[], rfl, List.forall_mem_nil _⟩
    · intro hRuns
      exact absurd rfl hRuns
  split at hWord
  · cases hWord
  split at hWord <;> cases hWord

theorem exists_logs_step (hm : m.memory.Reported) : ∃ es, Logs m es (left (step m)) := by
  cases hStep : step m with
  | error e m' => exact ⟨[], logs_of_step_error hStep⟩
  | ok b m' =>
    cases b with
    | true =>
      obtain ⟨es, hLogs, -⟩ := exists_logs_of_step_true hm hStep
      exact ⟨_, hLogs⟩
    | false =>
      by_cases hHalted : m.state = .halted
      · cases (step_of_halted hHalted).symm.trans hStep
        exact ⟨[], .refl m⟩
      · exact ⟨_, logs_of_step_false hHalted hStep⟩

def Act.isRun : Act → Bool
  | .op .step => true
  | .runWithLimit _ => true
  | _ => false

/-- Every step on the way adds its events to the log, so the whole log tells the whole run. -/
theorem exists_logs_after (hm : m.memory.Reported) {acts : List Act}
    (hActs : ∀ a ∈ acts, a.isRun = true) : ∃ es, Logs m es (m.after acts) := by
  -- the invariant of the run is that there is a log from where it began
  have hStep : Preserves (fun m' => ∃ es, Logs m es m') step := by
    rintro m' ⟨es, hLogs⟩
    obtain ⟨es', hStep⟩ := exists_logs_step (hLogs.reported hm)
    exact ⟨_, hLogs.trans hStep⟩
  refine after_of_forall (P := fun m' => ∃ es, Logs m es m') ?_ ⟨[], .refl m⟩
  intro m' a ha hLogs
  have hRun := hActs a ha
  cases a with
  | runWithLimit limit => exact hStep.runWithLimit limit m' hLogs
  | op o =>
    cases o with
    | step => exact hStep m' hLogs
    | _ => cases hRun

/-! ### What a listener knows -/

/-- The listener has received the log since `m`, and it is complete. -/
structure Followed (m : Machine) (id : Nat) (log : List Event) (m' : Machine) : Prop where
  received : m'.bus.pending? id = some log
  view : m'.view = log.foldl View.observe m.view
  /-- The view shows every byte of RAM. -/
  ram : ∀ b ∈ m'.memory.blocks, ∀ bytes, b.backing = .ram bytes → ∀ k (hk : k < bytes.size),
    m'.view.ram (b.start + BitVec.ofNat 32 k) = some bytes[k]
  steps : m'.steps = m.steps + log.countP Event.isPc
  halts : m.state ≠ .halted → m'.state = .halted →
    ∃ es, log = es ++ [.halted m'.steps] ∧ ∀ e ∈ es, e.isHalted = false
  runs : m.state = .halted ∨ m'.state ≠ .halted → ∀ e ∈ log, e.isHalted = false
  /-- What a further step adds. -/
  next : ∀ m'', step m' = .ok true m'' → ∃ es,
    m''.bus.pending? id = some (log ++ (es ++ [.pc m''.pc])) ∧ ∀ e ∈ es, e.IsEffect
  fails : ∀ e m'', step m' = .error e m'' → m''.bus.pending? id = some log

theorem Logs.pending? {es log : List Event} {id : Nat} (h : Logs m es m')
    (hPending : m.bus.pending? id = some log) : m'.bus.pending? id = some (log ++ es) := by
  rw [h.bus, EventBus.pending?_publishAll, hPending, Option.map_some]

theorem Logs.followed {log : List Event} {id : Nat} (h : Logs m log m')
    (hPending : m.bus.pending? id = some []) (hWell : m'.memory.WellFormed)
    (hReported : m.memory.Reported) : Followed m id log m' where
  received := h.pending? hPending
  view := h.view
  ram _ hb _ hBytes _ hk := hWell.ram?_eq hb hBytes hk
  steps := h.steps
  halts := h.halts
  runs hRuns e he := by
    rcases hRuns with hHalted | hAwake
    · rw [(h.rests hHalted).1] at he
      cases he
    · exact h.runs hAwake e he
  next m'' hStep := by
    obtain ⟨es, hLogs, hEffects⟩ := exists_logs_of_step_true (h.reported hReported) hStep
    exact ⟨es, hLogs.pending? (h.pending? hPending), hEffects⟩
  fails e m'' hStep := by
    rw [(logs_of_step_error hStep).pending? (h.pending? hPending)]
    simp

/-- On the board, with more RAM or without, and with stores reported: whoever subscribes and then
lets the machine step and run receives a complete log of it, whether or not it fails. -/
theorem log_follows_run (h : Reachable m) (hAdded : ∀ b ∈ m.memory.added, b.isDevice = false)
    (hNotify : m.memory.notifyWrites = true) {acts : List Act}
    (hActs : ∀ a ∈ acts, a.isRun = true) :
    ∃ log, Followed m m.subscribe.1 log (m.subscribe.2.after acts) := by
  have hReported : m.subscribe.2.memory.Reported := ⟨h.board, hAdded, hNotify⟩
  have hPending := EventBus.pending?_subscribe h.numbered
  have hReachable : Reachable (m.subscribe.2.after acts) :=
    Leads.trans (h.op .subscribe) (leads_after _ acts)
  obtain ⟨log, hLogs⟩ := exists_logs_after hReported hActs
  obtain ⟨hReceived, hView, hRam, hSteps, hHalts, hRuns, hNext, hFails⟩ :=
    hLogs.followed hPending hReachable.wellFormed hReported
  exact ⟨log, hReceived, hView, hRam, hSteps, hHalts, hRuns, hNext, hFails⟩

/-- An instruction that notes the next address, and one that halts. -/
def notingSource : Text := "nextpc ra\ncall 0\n".toList

def noting : Instruction := .reg .nextpc ⟨0, 0, RegIndex.returnAddress, 0⟩

def reporting : Machine := new.apply (.memory (.notifyWrites true))

theorem reachable_reporting : Reachable reporting := Leads.refl.op _

theorem added_loaded_reporting {p : Program} (hFits : p.image.size ≤ Board.ramSize) :
    (reporting.loaded p 0).memory.added = [] := by
  have hBlanks := blanks_left_loadAt p 0 reporting
  rw [loadAt_eq_ok reachable_reporting hFits rfl] at hBlanks
  change (reporting.loaded p 0).memory.blanks = Memory.standard.blanks at hBlanks
  rw [Memory.added, hBlanks, Memory.blanks_standard, List.drop_length]

theorem exists_step_noting {p : Program} (h : AboutTo notingSource p 0 m)
    (hNoting : p.word 0 = noting.encode)
    (hEnabled : m.registers.isEnabled RegIndex.returnAddress.toNat = true) :
    ∃ m', step m = .ok true m' ∧ m'.pc = 4 ∧ m'.state = .running ∧ m'.steps = m.steps + 1 ∧
      m'.memory = m.memory ∧ m'.bus = m.bus.publishAll [.register 31 4, .pc 4] := by
  have hPc : m.pc = 0 := h.pc
  have hForgot : m.registers.resetAccess.isEnabled RegIndex.returnAddress.toNat = true :=
    (m.registers.isEnabled_resetAccess _).trans hEnabled
  have hShown : (m.registers.resetAccess.store RegIndex.returnAddress.toNat 4).peek 31 = 4 :=
    RegisterFile.peek_store hForgot (by decide) (by decide) 4
  have hExecute : execute noting { m with registers := m.registers.resetAccess } =
      .ok () (({ m with registers := m.registers.resetAccess }).linked 4) := by
    rw [noting, execute, bind_eq_of_ok (getPc_eq _)]
    simp only [hPc]
    exact writeRegister_returnAddress hForgot 4
  refine ⟨(({ m with registers := m.registers.resetAccess }).linked 4).advance, ?_, ?_, rfl, rfl,
    rfl, ?_⟩
  · rw [h.step_eq_stepInstruction hNoting (by decide), stepInstruction, hExecute]
  · show m.pc + 4 = 4
    rw [hPc]
    rfl
  · show (m.bus.publish (.register 31 ((m.registers.resetAccess.store
      RegIndex.returnAddress.toNat 4).peek 31))).publish (.pc (m.pc + 4)) = _
    rw [hShown, hPc]
    rfl

theorem after_notingSource {p : Program} (h : AboutTo notingSource p 0 m) (hLength : p.length = 2)
    (hNoting : p.word 0 = noting.encode) (hZero : p.word 4 = 0)
    (hNext : m.memory.peek .word 4 = .ok 0)
    (hEnabled : m.registers.isEnabled RegIndex.returnAddress.toNat = true) (hSteps : m.steps = 0) :
    (m.after [.op .step, .op .step]).state = .halted ∧
      (m.after [.op .step, .op .step]).bus =
        m.bus.publishAll [.register 31 4, .pc 4, .halted 1] := by
  obtain ⟨m', hStep, hPc, hState, hCount, hMemory, hBus⟩ := exists_step_noting h hNoting hEnabled
  have hAbout : AboutTo notingSource p 1 m' := by
    refine ⟨h.assembled, h.loaded.leads (.step .refl hStep), ?_, by omega, hPc, ?_⟩
    · rw [hState]
      nofun
    · rw [hMemory, hPc, hZero]
      exact hNext
  have hAfter : m.after [.op .step, .op .step] = m'.halt := by
    rw [after, List.foldl_cons, List.foldl_cons, List.foldl_nil]
    show left (step (left (step m))) = _
    rw [hStep]
    show left (step m') = _
    rw [hAbout.step_eq_halt hZero]
    rfl
  rw [hAfter]
  refine ⟨rfl, ?_⟩
  show m'.bus.publish (.halted m'.steps) = _
  rw [hBus, hCount, hSteps]
  rfl

/-- A listener follows the program to its halt. -/
theorem log_follows_run_notingSource :
    ∃ m, Reachable m ∧ (∀ b ∈ m.memory.added, b.isDevice = false) ∧
      m.memory.notifyWrites = true ∧ m.view.pc = 0 ∧
      Followed m m.subscribe.1 [.register 31 4, .pc 4, .halted 1]
        (m.subscribe.2.after [.op .step, .op .step]) ∧
      (m.subscribe.2.after [.op .step, .op .step]).state = .halted := by
  have hAccepted : (assemble notingSource).toOption.map (fun p =>
      (p.length, p.image.size, p.word 0, p.word 4)) = some (2, 12, noting.encode, 0) := by
    decide +kernel
  obtain ⟨p, hp, hFacts⟩ := exists_ok_of_map_eq hAccepted
  simp only [Prod.mk.injEq] at hFacts
  obtain ⟨hLength, hSize, hNoting, hZero⟩ := hFacts
  have hFits : p.image.size ≤ Board.ramSize := by
    rw [hSize]
    decide
  have hReachable : Reachable (reporting.loaded p 0) := by
    have hLoad := reachable_reporting.op (.load p 0)
    rwa [apply, loadAt_eq_ok reachable_reporting hFits rfl] at hLoad
  have hAdded : ∀ b ∈ (reporting.loaded p 0).memory.added, b.isDevice = false := by
    rw [added_loaded_reporting hFits]
    exact List.forall_mem_nil _
  have hEnabled : (RegisterFile.new.clear.store RegIndex.stackPointer.toNat
      Board.stackTop).resetAccess.isEnabled RegIndex.returnAddress.toNat = true := by
    decide +kernel
  have h₀ : AboutTo notingSource p 0 (reporting.loaded p 0) :=
    aboutTo_loaded reachable_reporting hp hFits (by omega)
  -- the listener makes no difference to what the machine is about to do
  have h₁ : AboutTo notingSource p 0 (reporting.loaded p 0).subscribe.2 :=
    ⟨hp, h₀.loaded.leads (Leads.refl.op .subscribe), h₀.awake, h₀.lt, h₀.pc, h₀.intact⟩
  have hNext := peek_loaded (a := 4) 0 reachable_reporting hFits (by rw [hSize]; decide)
  obtain ⟨hHalted, hBus⟩ := after_notingSource h₁ hLength hNoting hZero
    (hNext.trans (congrArg Except.ok hZero)) hEnabled rfl
  have hRuns : ∀ a ∈ [Act.op .step, .op .step], a.isRun = true := by decide
  obtain ⟨log, hFollowed⟩ := log_follows_run hReachable hAdded rfl hRuns
  have hPending : (reporting.loaded p 0).subscribe.2.bus.pending?
      (reporting.loaded p 0).subscribe.1 = some [] :=
    EventBus.pending?_subscribe hReachable.numbered
  have hReceived := hFollowed.received
  rw [hBus, EventBus.pending?_publishAll, hPending] at hReceived
  cases hReceived
  exact ⟨_, hReachable, hAdded, rfl, rfl, hFollowed, hHalted⟩

end Machine

end NiosBoard
