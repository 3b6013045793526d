import Mathlib.Data.List.Infix
import NiosBoard.Machine.Run
import NiosBoard.Proofs.Except
import NiosBoard.Proofs.Machine.Places

/-! # Sessions

All that can be done to a machine from outside, one operation after another, whether they succeed or
fail. A run is the steps it takes. Every machine that a session leads to has the memory map it began
with, possibly extended, and a program counter on a word boundary.
-/

namespace NiosBoard

namespace RegisterFile

inductive Op where
  | read (i : Nat)
  | write (i : Nat) (w : Word)
  | resetAccess
  | clear
  | disable (i : Nat)
  | enable (i : Nat)

def apply (r : RegisterFile) : Op → RegisterFile
  | .read i => ((r.read i).toOption.map Prod.snd).getD r
  | .write i w => (r.write i w).toOption.getD r
  | .resetAccess => r.resetAccess
  | .clear => r.clear
  | .disable i => r.disable i
  | .enable i => r.enable i

end RegisterFile

namespace Memory

inductive Op where
  | read (width : Width) (address : Word)
  | write (width : Width) (address v : Word)
  | loadImage (start : Word) (image : Array Byte)
  | reset
  | addRam (name : Text) (start : Word) (length : Nat)
  | addDevice (name : Text) (start : Word) (length : Nat) (d : Device)
  | notifyWrites (on : Bool)
  | toggleSwitch (index : Nat)
  | setButton (index : Nat) (pressed : Bool)
  | feedSerial (c : Byte)

/-- The memory after an operation, and the events it published. -/
def apply (m : Memory) : Op → Memory × List Event
  | .read width address => (((m.read width address).toOption.map Prod.snd).getD m, [])
  | .write width address v => (m.write width address v).toOption.getD (m, [])
  | .loadImage start image => ((m.loadImage start image).toOption.getD m, [])
  | .reset => (m.reset, [])
  | .addRam name start length => ((m.addRam name start length).toOption.getD m, [])
  | .addDevice name start length d => ((m.addDevice name start length d).toOption.getD m, [])
  | .notifyWrites on => ({ m with notifyWrites := on }, [])
  | .toggleSwitch index => ((m.toggleSwitch? index).getD m, [])
  | .setButton index pressed => ((m.setButton? index pressed).getD m, [])
  | .feedSerial c => (m.feedSerial c, [])

/-- The memory after operations, one after another. -/
def after (m : Memory) (os : List Op) : Memory := os.foldl (fun m o => (m.apply o).1) m

end Memory

namespace Machine

/-- The machine that a computation leaves behind, whether it fails or not. -/
def left {ε α : Type} : EStateM.Result ε Machine α → Machine
  | .ok _ m => m
  | .error _ m => m

inductive Op where
  | load (p : Program) (entry : Word)
  | reset
  | step
  | execute (i : Instruction)
  | setPc (pc : Word)
  | jump (target : Word)
  | readRegister (i : RegIndex)
  | writeRegister (i : RegIndex) (w : Word)
  | loadMemory (width : Width) (address : Word)
  | storeMemory (width : Width) (address w : Word)
  | registers (o : RegisterFile.Op)
  | memory (o : Memory.Op)
  | subscribe
  | publish (e : Event)
  | drain (id : Nat)
  | drop (id : Nat)

def apply (m : Machine) : Op → Machine
  | .load p entry => left (loadAt p entry m)
  | .reset => left (m.reset)
  | .step => left (m.step)
  | .execute i => left (execute i m)
  | .setPc pc => left (setPc pc m)
  | .jump target => left (jump target m)
  | .readRegister i => left (readRegister i m)
  | .writeRegister i w => left (writeRegister i w m)
  | .loadMemory width address => left (loadMemory width address m)
  | .storeMemory width address w => left (storeMemory width address w m)
  | .registers o => { m with registers := m.registers.apply o }
  | .memory o =>
    { m with memory := (m.memory.apply o).1, bus := m.bus.publishAll (m.memory.apply o).2 }
  | .subscribe => m.subscribe.2
  | .publish e => m.publish e
  | .drain id => { m with bus := m.bus.drain id }
  | .drop id => { m with bus := m.bus.drop id }

/-- Operations, one after another, lead from one machine to the other. -/
inductive Leads (m : Machine) : Machine → Prop
  | refl : Leads m m
  | op {m' : Machine} (h : Leads m m') (o : Op) : Leads m (m'.apply o)

def Reachable (m : Machine) : Prop := Leads new m

theorem Leads.trans {m m' m'' : Machine} (h : Leads m m') (h' : Leads m' m'') : Leads m m'' := by
  induction h' with
  | refl => exact h
  | op _ o ih => exact ih.op o

theorem Leads.step {m m' m'' : Machine} {b : Bool} (h : Leads m m')
    (hStep : m'.step = .ok b m'') : Leads m m'' := by
  have hLeft : m'' = m'.apply .step := by
    rw [apply, hStep]
    rfl
  exact hLeft ▸ h.op .step

/-- Whatever the computation leaves behind satisfies `P` if what it began with does. -/
def Preserves {ε α : Type} (P : Machine → Prop) (x : Exec ε α) : Prop := ∀ m, P m → P (left (x m))

theorem Preserves.bind {ε α β : Type} {P : Machine → Prop} {x : Exec ε α} {f : α → Exec ε β}
    (hx : Preserves P x) (hf : ∀ a, Preserves P (f a)) : Preserves P (x >>= f) := by
  intro m hm
  have hLeft := hx m hm
  show P (left (EStateM.bind x f m))
  unfold EStateM.bind
  cases hResult : x m with
  | ok a m' =>
    rw [hResult] at hLeft
    exact hf a m' hLeft
  | error e m' =>
    rw [hResult] at hLeft
    exact hLeft

theorem Preserves.pure {ε α : Type} {P : Machine → Prop} (a : α) :
    Preserves P (pure a : Exec ε α) := fun _ hm => hm

theorem Preserves.throw {ε α : Type} {P : Machine → Prop} (e : ε) :
    Preserves P (throw e : Exec ε α) := fun _ hm => hm

/-- What an instruction can change, one part after another, preserves `P`. -/
structure PreservedByParts (P : Machine → Prop) : Prop where
  touch : ∀ m i, P m → P { m with registers := m.registers.touch i }
  store : ∀ m i w, P m → P { m with
    registers := m.registers.store i w
    bus := m.bus.publish (.register i ((m.registers.store i w).peek i)) }
  fetchAll : ∀ m addresses, P m → P { m with memory := (m.memory.fetchAll addresses).2 }
  storeAll : ∀ m stores, P m → P { m with
    memory := (m.memory.storeAll stores).1
    bus := m.bus.publishAll (m.memory.storeAll stores).2 }
  pc : ∀ m (pc : Word), pc.toNat % 4 = 0 → P m → P { m with pc := pc }

section Parts

variable {P : Machine → Prop}

theorem Preserves.getPc : Preserves P getPc := fun _ hm => hm

theorem Preserves.checkRegister (i : RegIndex) : Preserves P (checkRegister i) := by
  intro m hm
  unfold Machine.checkRegister
  split <;> exact hm

namespace PreservedByParts

theorem readRegister (h : PreservedByParts P) (i : RegIndex) : Preserves P (readRegister i) := by
  intro m hm
  unfold Machine.readRegister
  split
  · exact hm
  · exact h.touch m _ hm

theorem writeRegister (h : PreservedByParts P) (i : RegIndex) (w : Word) :
    Preserves P (writeRegister i w) := by
  intro m hm
  unfold Machine.writeRegister
  split
  · exact hm
  · exact h.store m _ w hm

theorem loadMemory (h : PreservedByParts P) (width : Width) (address : Word) :
    Preserves P (loadMemory width address) := by
  intro m hm
  unfold Machine.loadMemory
  split
  · exact hm
  · exact h.fetchAll m _ hm

theorem storeMemory (h : PreservedByParts P) (width : Width) (address w : Word) :
    Preserves P (storeMemory width address w) := by
  intro m hm
  unfold Machine.storeMemory
  split
  · exact hm
  · exact h.storeAll m _ hm

theorem setPc (h : PreservedByParts P) (pc : Word) : Preserves P (setPc pc) := by
  intro m hm
  unfold Machine.setPc
  split
  · exact hm
  · next hAligned => exact h.pc m pc (Decidable.not_not.mp hAligned) hm

theorem jump (h : PreservedByParts P) (target : Word) :
    Preserves P (jump target) := by
  intro m hm
  unfold Machine.jump
  split
  · exact hm
  · exact h.setPc _ m hm

theorem effectiveAddress (h : PreservedByParts P) (f : ImmFields) :
    Preserves P (effectiveAddress f) :=
  (h.readRegister f.a).bind fun _ => .pure _

theorem execute (h : PreservedByParts P) (i : Instruction) :
    Preserves P (execute i) := by
  cases i with
  | jump op index =>
    cases op with
    | call => exact .bind .getPc fun _ => (h.jump _).bind fun _ => h.writeRegister _ _
    | jmpi => exact .bind .getPc fun _ => h.jump _
  | imm op f =>
    cases op with
    | arith op => exact (h.readRegister _).bind fun _ => h.writeRegister _ _
    | compare cond => exact (h.readRegister _).bind fun _ => h.writeRegister _ _
    | load kind io =>
      exact (h.effectiveAddress f).bind fun _ => .bind (.checkRegister _) fun _ =>
        (h.loadMemory _ _).bind fun _ => h.writeRegister _ _
    | store width io =>
      exact (h.effectiveAddress f).bind fun _ => (h.readRegister _).bind fun _ =>
        h.storeMemory _ _ _
    | br => exact .bind .getPc fun _ => h.setPc _
    | branch cond =>
      refine (h.readRegister _).bind fun a => (h.readRegister _).bind fun b => ?_
      split
      · exact .bind .getPc fun _ => h.setPc _
      · exact .pure _
  | reg op f =>
    cases op with
    | arith op =>
      refine (h.readRegister _).bind fun a => (h.readRegister _).bind fun b => ?_
      split
      · exact h.writeRegister _ _
      · exact .throw _
    | compare cond =>
      exact (h.readRegister _).bind fun _ => (h.readRegister _).bind fun _ => h.writeRegister _ _
    | shift op =>
      exact (h.readRegister _).bind fun _ => (h.readRegister _).bind fun _ => h.writeRegister _ _
    | shiftI op => exact (h.readRegister _).bind fun _ => h.writeRegister _ _
    | jmp => exact (h.readRegister _).bind fun _ => h.jump _
    | callr =>
      exact (h.readRegister _).bind fun _ => .bind .getPc fun _ =>
        (h.jump _).bind fun _ => h.writeRegister _ _
    | ret => exact (h.readRegister _).bind fun _ => h.jump _
    | nextpc => exact .bind .getPc fun _ => h.writeRegister _ _

end PreservedByParts

/-- What a step does beside its instruction preserves `P` too. -/
structure PreservedBySteps (P : Machine → Prop) : Prop extends PreservedByParts P where
  resetAccess : ∀ m, P m → P { m with registers := m.registers.resetAccess }
  halt : ∀ m, P m → P ({ m with state := .halted }.publish (.halted m.steps))
  advance : ∀ m, P m →
    P ({ m with pc := m.pc + 4, steps := m.steps + 1, state := .running }.publish (.pc (m.pc + 4)))
  restorePc : ∀ m m', P m → P m' → P { m' with pc := m.pc }

theorem PreservedBySteps.stepWord (h : PreservedBySteps P) (w : Word) :
    Preserves P (stepWord w) := by
  intro m hm
  unfold Machine.stepWord
  split
  · exact h.halt m hm
  split
  · exact hm
  next i hDecode =>
  have hLeft := h.execute i m hm
  cases hExecute : Machine.execute i m with
  | ok u m' =>
    rw [hExecute] at hLeft
    exact h.advance m' hLeft
  | error f m' =>
    rw [hExecute] at hLeft
    exact hLeft

theorem PreservedBySteps.step (h : PreservedBySteps P) : Preserves P step := by
  intro m hm
  unfold Machine.step
  split
  · exact hm
  have hLeft := ((h.loadMemory .word m.pc).bind h.stepWord)
    { m with registers := m.registers.resetAccess } (h.resetAccess m hm)
  simp only
  generalize (Machine.loadMemory .word m.pc >>= Machine.stepWord)
    { m with registers := m.registers.resetAccess } = result at hLeft ⊢
  cases result with
  | ok b m' => exact hLeft
  | error f m' => exact h.restorePc m m' hm hLeft

theorem Preserves.stepUpTo (h : Preserves P step) (n : Nat) : Preserves P (stepUpTo n) := by
  induction n with
  | zero => exact fun _ hm => hm
  | succ n ih =>
    intro m hm
    have hLeft := h m hm
    rw [Machine.stepUpTo]
    simp only
    cases hStep : step m with
    | ok b m' =>
      rw [hStep] at hLeft
      cases b with
      | true => exact ih m' hLeft
      | false => exact hLeft
    | error e m' =>
      rw [hStep] at hLeft
      exact hLeft

/-- A run is the steps it takes. -/
theorem Preserves.runWithLimit (h : Preserves P step) (limit : Nat) :
    Preserves P (runWithLimit limit) := by
  intro m hm
  unfold Machine.runWithLimit
  split
  · exact hm
  · exact h.stepUpTo limit m hm

end Parts

/-- What executing keeps: the blocks, what a reset goes back to, and a program counter on a word
boundary. -/
structure Steady (m m' : Machine) : Prop where
  blanks : m'.memory.blanks = m.memory.blanks
  snapshot : m'.snapshot = m.snapshot
  aligned : m.pc.toNat % 4 = 0 → m'.pc.toNat % 4 = 0

section Steady

variable {m₀ : Machine}

theorem Steady.refl : Steady m₀ m₀ := ⟨rfl, rfl, id⟩

theorem toNat_add_four_mod {pc : Word} (h : pc.toNat % 4 = 0) : (pc + 4).toNat % 4 = 0 := by
  rw [BitVec.toNat_add, show (4 : Word).toNat = 4 from rfl]
  omega

theorem steady_steps : PreservedBySteps (Steady m₀) where
  touch _ _ hm := ⟨hm.blanks, hm.snapshot, hm.aligned⟩
  store _ _ _ hm := ⟨hm.blanks, hm.snapshot, hm.aligned⟩
  fetchAll m _ hm := ⟨(Memory.blanks_fetchAll m.memory _).trans hm.blanks, hm.snapshot, hm.aligned⟩
  storeAll m _ hm := ⟨(Memory.blanks_storeAll m.memory _).trans hm.blanks, hm.snapshot, hm.aligned⟩
  pc _ _ hAligned hm := ⟨hm.blanks, hm.snapshot, fun _ => hAligned⟩
  resetAccess _ hm := ⟨hm.blanks, hm.snapshot, hm.aligned⟩
  halt _ hm := ⟨hm.blanks, hm.snapshot, hm.aligned⟩
  advance _ hm := ⟨hm.blanks, hm.snapshot, fun h => toNat_add_four_mod (hm.aligned h)⟩
  restorePc _ _ hm hm' := ⟨hm'.blanks, hm'.snapshot, hm.aligned⟩

end Steady

/-! ### Resets and loads -/

theorem blanks_left_reset (m : Machine) : (left m.reset).memory.blanks = m.memory.blanks := by
  unfold reset
  simp only
  split
  · exact Memory.blanks_reset m.memory
  next s hSnapshot =>
  split
  · exact Memory.blanks_reset m.memory
  · next hImage => exact (Memory.blanks_copyImage hImage).trans (Memory.blanks_reset m.memory)

theorem snapshot_left_reset (m : Machine) : (left m.reset).snapshot = m.snapshot := by
  unfold reset
  simp only
  split
  · rfl
  split <;> rfl

theorem blanks_left_loadAt (p : Program) (entry : Word) (m : Machine) :
    (left (loadAt p entry m)).memory.blanks = m.memory.blanks := by
  unfold loadAt
  split
  · rfl
  · exact blanks_left_reset _

end Machine

namespace Memory

theorem blanks_read {m m' : Memory} {width : Width} {address w : Word}
    (h : m.read width address = .ok (w, m')) : m'.blanks = m.blanks := by
  unfold read at h
  split at h
  · cases h
  · cases h
    exact blanks_fetchAll _ _

theorem blanks_write {m : Memory} {width : Width} {address v : Word} {result : Memory × List Event}
    (h : m.write width address v = .ok result) : result.1.blanks = m.blanks := by
  unfold write at h
  split at h
  · cases h
  · cases h
    exact blanks_storeAll m _

theorem blanks_loadImage {m m' : Memory} {start : Word} {image : Array Byte}
    (h : m.loadImage start image = .ok m') : m'.blanks = m.blanks := by
  unfold loadImage at h
  split at h
  · cases h
  · next hImage =>
    cases h
    exact blanks_copyImage hImage

theorem blanks_addRam {m m' : Memory} {name : Text} {start : Word} {length : Nat}
    (h : m.addRam name start length = .ok m') :
    m'.blanks = m.blanks ++ [⟨name, start, .ram (Array.replicate length 0)⟩] := by
  obtain ⟨-, -, h⟩ := bind_eq_ok_iff.mp h
  cases h
  simp [blanks, Block.reset]

theorem blanks_addDevice {m m' : Memory} {name : Text} {start : Word} {length : Nat} {d : Device}
    (h : m.addDevice name start length d = .ok m') :
    m'.blanks = m.blanks ++ [⟨name, start, .device d.reset length⟩] := by
  obtain ⟨-, -, h⟩ := bind_eq_ok_iff.mp h
  cases h
  simp [blanks, Block.reset]

/-- The block that an operation registers, if it succeeds in that. -/
def registers? (m : Memory) : Op → Option Block
  | .addRam name start length =>
    (m.addRam name start length).toOption.map fun _ =>
      ⟨name, start, .ram (Array.replicate length 0)⟩
  | .addDevice name start length d =>
    (m.addDevice name start length d).toOption.map fun _ => ⟨name, start, .device d length⟩
  | _ => none

theorem blanks_getD {m : Memory} {x : Option Memory}
    (h : ∀ m', x = some m' → m'.blanks = m.blanks) : (x.getD m).blanks = m.blanks ++ [] := by
  rw [List.append_nil]
  cases x with
  | none => rfl
  | some m' => exact h m' rfl

/-- Adding a block is the only operation that changes the blocks, and it adds at the end. -/
theorem blanks_apply (m : Memory) (o : Op) :
    (m.apply o).1.blanks = m.blanks ++ ((m.registers? o).map Block.reset).toList := by
  cases o with
  | read width address =>
    refine blanks_getD fun m' hm' => ?_
    obtain ⟨⟨w, m'⟩, hRead, rfl⟩ := Option.map_eq_some_iff.mp hm'
    exact blanks_read (toOption_eq_some_iff.mp hRead)
  | write width address v =>
    show ((m.write width address v).toOption.getD (m, [])).1.blanks = m.blanks ++ []
    rw [List.append_nil]
    cases h : m.write width address v with
    | ok result => exact blanks_write h
    | error e => rfl
  | loadImage start image =>
    exact blanks_getD fun m' hm' => blanks_loadImage (toOption_eq_some_iff.mp hm')
  | reset => exact (blanks_reset m).trans (List.append_nil _).symm
  | addRam name start length =>
    rw [apply, registers?]
    cases h : m.addRam name start length with
    | ok m' =>
      refine (blanks_addRam h).trans ?_
      simp [Except.toOption, Block.reset]
    | error e => exact (List.append_nil _).symm
  | addDevice name start length d =>
    rw [apply, registers?]
    cases h : m.addDevice name start length d with
    | ok m' => exact blanks_addDevice h
    | error e => exact (List.append_nil _).symm
  | notifyWrites on => exact (List.append_nil _).symm
  | toggleSwitch index =>
    refine blanks_getD fun m' hm' => ?_
    obtain ⟨d, -, rfl⟩ := Option.map_eq_some_iff.mp hm'
    rfl
  | setButton index pressed =>
    refine blanks_getD fun m' hm' => ?_
    obtain ⟨d, -, rfl⟩ := Option.map_eq_some_iff.mp hm'
    rfl
  | feedSerial c => exact (List.append_nil _).symm

theorem prefix_blanks_apply (m : Memory) (o : Op) : m.blanks <+: (m.apply o).1.blanks := by
  rw [blanks_apply]
  exact List.prefix_append _ _

end Memory

namespace Machine

/-- The operations that execute something, as programs do. -/
def Op.executes : Op → Bool
  | .step | .execute _ | .setPc _ | .jump _ => true
  | .readRegister _ | .writeRegister _ _ | .loadMemory _ _ | .storeMemory _ _ _ => true
  | _ => false

theorem apply_of_parts {P : Machine → Prop} {m : Machine} (hParts : PreservedByParts P)
    (hStep : Preserves P step) (hm : P m) {o : Op} (hOther : o.executes = false → P (m.apply o)) :
    P (m.apply o) := by
  cases o with
  | step => exact hStep m hm
  | execute i => exact hParts.execute i m hm
  | setPc pc => exact hParts.setPc pc m hm
  | jump target => exact hParts.jump target m hm
  | readRegister i => exact hParts.readRegister i m hm
  | writeRegister i w => exact hParts.writeRegister i w m hm
  | loadMemory width address => exact hParts.loadMemory width address m hm
  | storeMemory width address w => exact hParts.storeMemory width address w m hm
  | _ => exact hOther rfl

/-- Only loads, resets and what is done to the memory directly are not steady. -/
theorem apply_cases (m : Machine) (o : Op) :
    Steady m (m.apply o) ∨ (∃ p entry, o = .load p entry) ∨ o = .reset ∨ ∃ mo, o = .memory mo := by
  cases o with
  | load p entry => exact .inr (.inl ⟨p, entry, rfl⟩)
  | reset => exact .inr (.inr (.inl rfl))
  | memory mo => exact .inr (.inr (.inr ⟨mo, rfl⟩))
  | _ =>
    left
    apply apply_of_parts steady_steps.toPreservedByParts steady_steps.step .refl
    intro hOther
    first | exact ⟨rfl, rfl, id⟩ | cases hOther

/-- Adding a block is the only operation that changes the blocks, and it adds at the end. -/
theorem prefix_blanks_apply (m : Machine) (o : Op) :
    m.memory.blanks <+: (m.apply o).memory.blanks := by
  rcases apply_cases m o with hSteady | ⟨p, entry, rfl⟩ | rfl | ⟨mo, rfl⟩
  · exact hSteady.blanks ▸ List.prefix_rfl
  · exact blanks_left_loadAt p entry m ▸ List.prefix_rfl
  · exact blanks_left_reset m ▸ List.prefix_rfl
  · exact Memory.prefix_blanks_apply m.memory mo

theorem Leads.prefix_blanks {m m' : Machine} (h : Leads m m') :
    m.memory.blanks <+: m'.memory.blanks := by
  induction h with
  | refl => exact List.prefix_rfl
  | @op m' _ o ih => exact ih.trans (prefix_blanks_apply m' o)

/-- What every operation keeps: the blocks in `places` stay where they are, and the program counter
and the address a reset goes back to are word addresses. -/
structure Sound (places : List Place) (m : Machine) : Prop where
  map : places <+: m.memory.places
  aligned : m.pc.toNat % 4 = 0
  entry : ∀ s, m.snapshot = some s → s.entry.toNat % 4 = 0

namespace Sound

variable {places : List Place} {m m' : Machine}

theorem of_steady (h : m.Sound places) (hSteady : Steady m m') : m'.Sound places := by
  refine ⟨?_, hSteady.aligned h.aligned, hSteady.snapshot ▸ h.entry⟩
  rw [Memory.places_eq_map_blanks, hSteady.blanks, ← Memory.places_eq_map_blanks]
  exact h.map

theorem reset (h : m.Sound places) : (left m.reset).Sound places := by
  refine ⟨?_, ?_, (snapshot_left_reset m).symm ▸ h.entry⟩
  · rw [Memory.places_eq_map_blanks, blanks_left_reset, ← Memory.places_eq_map_blanks]
    exact h.map
  · unfold Machine.reset
    simp only
    split
    · rfl
    next s hSnapshot =>
    split
    · exact h.aligned
    · exact h.entry s hSnapshot

theorem loadAt (h : m.Sound places) (p : Program) (entry : Word) :
    (left (loadAt p entry m)).Sound places := by
  unfold Machine.loadAt
  split
  · exact h
  · next hAligned =>
    apply Sound.reset
    refine ⟨h.map, h.aligned, ?_⟩
    intro s hs
    cases hs
    exact Decidable.not_not.mp hAligned

theorem apply (h : m.Sound places) (o : Op) : (m.apply o).Sound places := by
  rcases apply_cases m o with hSteady | ⟨p, entry, rfl⟩ | rfl | ⟨mo, rfl⟩
  · exact h.of_steady hSteady
  · exact h.loadAt p entry
  · exact h.reset
  · refine ⟨h.map.trans ?_, h.aligned, h.entry⟩
    rw [Memory.places_eq_map_blanks, Memory.places_eq_map_blanks]
    exact (Memory.prefix_blanks_apply m.memory mo).map Block.place

end Sound

theorem Leads.sound {places : List Place} {m m' : Machine} (h : Leads m m') (hm : m.Sound places) :
    m'.Sound places := by
  induction h with
  | refl => exact hm
  | op _ o ih => exact ih.apply o

theorem Reachable.sound {m : Machine} (h : Reachable m) : m.Sound Memory.standard.places :=
  Leads.sound h ⟨List.prefix_rfl, rfl, fun _ hs => nomatch hs⟩

end Machine

end NiosBoard
