import NiosBoard.Proofs.Machine.Failure
import NiosBoard.Proofs.Machine.Halting
import NiosBoard.Proofs.Machine.RegisterSteps
import NiosBoard.Proofs.Machine.Runs

/-! # What the registers remember

Each enabled register says whether it was written, or else read, since its record was last begun
anew. The record is a summary of the operations so far: a read does not hide a write, and a register
that is disabled and enabled again has no past. A step begins all records anew, reads the source
operands of its instruction and writes the destination, so afterwards they describe just that
instruction.
-/

namespace NiosBoard

/-- The access that a register shows says whether it was written, or else read. -/
structure Recorded (access? : Option Access) (written read : Prop) : Prop where
  written_iff : access? = some .written ↔ written
  read_iff : access? = some .read ↔ read ∧ ¬ written
  untouched_iff : access? = some .untouched ↔ ¬ read ∧ ¬ written

namespace Recorded

variable {access? : Option Access} {written read written' read' : Prop}

theorem congr (h : Recorded access? written read) (hWritten : written ↔ written')
    (hRead : read ↔ read') : Recorded access? written' read' := by
  rwa [propext hWritten, propext hRead] at h

theorem untouched : Recorded (some .untouched) False False where
  written_iff := by simp
  read_iff := by simp
  untouched_iff := by simp

theorem isSome (h : Recorded access? written read) : access?.isSome = true := by
  by_cases hWritten : written
  · rw [h.written_iff.mpr hWritten, Option.isSome_some]
  by_cases hRead : read
  · rw [h.read_iff.mpr ⟨hRead, hWritten⟩, Option.isSome_some]
  · rw [h.untouched_iff.mpr ⟨hRead, hWritten⟩, Option.isSome_some]

end Recorded

/-! ### One operation -/

namespace Cell

variable {c : Cell} {written read : Prop}

/-- A read is recorded, but does not hide a write. -/
theorem recorded_markRead (h : Recorded c.access? written read) :
    Recorded c.markRead.access? written True := by
  have hWritten := h.written_iff
  cases c with
  | disabled => cases h.isSome
  | enabled v a =>
    cases a <;> constructor <;> simp_all [markRead, access?]

/-- A write is recorded, whatever was read. -/
theorem recorded_store (h : Recorded c.access? written read) (i : Nat) (w : Word) :
    Recorded (c.store i w).access? True read := by
  cases c with
  | disabled => cases h.isSome
  | enabled v a => constructor <;> simp [store, access?]

end Cell

namespace RegisterFile

variable {r : RegisterFile} {i j : Nat} {w : Word} {written read : Prop}

theorem access?_update_of_ne (h : i ≠ j) (f : Cell → Cell) :
    (r.update i f).access? j = r.access? j := by
  rw [access?, cell_update, if_neg fun hSame => h hSame.1]
  rfl

theorem exists_cell_of_isEnabled (h : r.isEnabled i = true) : ∃ v a, r.cell i = .enabled v a := by
  unfold isEnabled access? at h
  cases hCell : r.cell i with
  | disabled =>
    rw [hCell] at h
    cases h
  | enabled v a => exact ⟨v, a, rfl⟩

theorem access?_update_self (h : r.isEnabled i = true) (f : Cell → Cell) :
    (r.update i f).access? i = (f (r.cell i)).access? := by
  obtain ⟨v, a, hCell⟩ := exists_cell_of_isEnabled h
  rw [access?, cell_update, if_pos ⟨rfl, lt_of_cell_eq_enabled hCell⟩]

theorem recorded_touch (h : Recorded (r.access? j) written read) (i : Nat) :
    Recorded ((r.touch i).access? j) written (i = j ∨ read) := by
  by_cases hij : i = j
  · subst hij
    rw [touch, access?_update_self h.isSome]
    exact (Cell.recorded_markRead h).congr Iff.rfl (by simp)
  · rw [touch, access?_update_of_ne hij]
    exact h.congr Iff.rfl (by simp [hij])

theorem recorded_store (h : Recorded (r.access? j) written read) (i : Nat) (w : Word) :
    Recorded ((r.store i w).access? j) (i = j ∨ written) read := by
  by_cases hij : i = j
  · subst hij
    rw [store, access?_update_self h.isSome]
    exact (Cell.recorded_store h i w).congr (by simp) Iff.rfl
  · rw [store, access?_update_of_ne hij]
    exact h.congr (by simp [hij]) Iff.rfl

theorem recorded_resetAccess (h : r.isEnabled j = true) :
    Recorded (r.resetAccess.access? j) False False := by
  obtain ⟨v, a, hCell⟩ := exists_cell_of_isEnabled h
  rw [access?, cell_resetAccess, hCell]
  exact .untouched

theorem recorded_clear (h : r.isEnabled j = true) : Recorded (r.clear.access? j) False False := by
  obtain ⟨v, a, hCell⟩ := exists_cell_of_isEnabled h
  rw [access?, cell_clear, hCell]
  exact .untouched

theorem recorded_enable (hDisabled : r.isEnabled j = false) (h : (r.enable j).isEnabled j = true) :
    Recorded ((r.enable j).access? j) False False := by
  obtain ⟨v, a, hCell⟩ := exists_cell_of_isEnabled h
  have hLt := lt_of_cell_eq_enabled hCell
  rw [isEnabled_eq_false_iff] at hDisabled
  rw [access?, enable, cell_update, if_pos ⟨rfl, hLt⟩, hDisabled]
  exact .untouched

theorem isEnabled_clear : r.clear.isEnabled j = r.isEnabled j := by
  unfold isEnabled access?
  rw [cell_clear]
  cases r.cell j <;> rfl

theorem check_eq_ok_iff : r.check i = .ok () ↔ r.isEnabled i = true := by
  unfold check
  split <;> simp_all

theorem read_eq_ok_iff : (∃ v s, r.read i = .ok (v, s)) ↔ r.isEnabled i = true := by
  rw [← check_eq_ok_iff]
  unfold read
  cases r.check i <;> simp

theorem write_eq_ok_iff : (∃ s, r.write i w = .ok s) ↔ r.isEnabled i = true := by
  rw [← check_eq_ok_iff]
  unfold write
  cases r.check i <;> simp

/-! ### One operation after another -/

namespace Op

/-- The operation reads the register. -/
def Reads (o : Op) (r : RegisterFile) (i : Nat) : Prop := o = .read i ∧ ∃ v s, r.read i = .ok (v, s)

/-- The operation writes the register. -/
def Writes (o : Op) (r : RegisterFile) (i : Nat) : Prop :=
  ∃ w, o = .write i w ∧ ∃ s, r.write i w = .ok s

/-- The operation begins the record of the register anew. -/
def Restarts (o : Op) (r : RegisterFile) (i : Nat) : Prop :=
  o = .resetAccess ∨ o = .clear ∨ o = .enable i ∧ r.isEnabled i = false

end Op

theorem apply_read : r.apply (.read i) = if r.isEnabled i then r.touch i else r := by
  by_cases h : r.isEnabled i = true
  · rw [if_pos h, apply, RegisterFile.read, check_of_isEnabled h]
    rfl
  · rw [if_neg h, apply, RegisterFile.read, check_of_disabled (Bool.not_eq_true _ ▸ h)]
    rfl

theorem apply_write : r.apply (.write i w) = if r.isEnabled i then r.store i w else r := by
  by_cases h : r.isEnabled i = true
  · rw [if_pos h, apply, RegisterFile.write, check_of_isEnabled h]
    rfl
  · rw [if_neg h, apply, RegisterFile.write, check_of_disabled (Bool.not_eq_true _ ▸ h)]
    rfl

theorem ne_of_isEnabled_disable (h : (r.disable i).isEnabled j = true) : i ≠ j := by
  rintro rfl
  obtain ⟨v, a, hCell⟩ := exists_cell_of_isEnabled h
  have hLt := lt_of_cell_eq_enabled hCell
  rw [disable, cell_update, if_pos ⟨rfl, hLt⟩] at hCell
  cases hCell

/-- Enabling a register that is enabled changes nothing. -/
theorem access?_enable (h : i = j → r.isEnabled j = true) :
    (r.enable i).access? j = r.access? j := by
  by_cases hij : i = j
  · subst hij
    obtain ⟨v, a, hCell⟩ := exists_cell_of_isEnabled (h rfl)
    rw [enable, access?_update_self (h rfl), access?, hCell]
    rfl
  · exact access?_update_of_ne hij _

/-- What is recorded after an operation is what it does, and what was recorded unless the record
begins anew. -/
theorem recorded_apply (h : r.isEnabled j = true → Recorded (r.access? j) written read) (o : Op)
    (hEnabled : (r.apply o).isEnabled j = true) :
    Recorded ((r.apply o).access? j) (o.Writes r j ∨ written ∧ ¬ o.Restarts r j)
      (o.Reads r j ∨ read ∧ ¬ o.Restarts r j) := by
  unfold Op.Writes Op.Reads Op.Restarts
  simp only [read_eq_ok_iff, write_eq_ok_iff]
  cases o with
  | read i =>
    rw [apply_read] at hEnabled ⊢
    split at hEnabled
    next hi =>
      rw [isEnabled_touch] at hEnabled
      rw [if_pos hi]
      exact (recorded_touch (h hEnabled) i).congr (by simp) (by simp [hEnabled])
    next hi =>
      have hij : i ≠ j := fun hSame => hi (hSame ▸ hEnabled)
      rw [if_neg hi]
      exact (h hEnabled).congr (by simp) (by simp [hij])
  | write i w =>
    rw [apply_write] at hEnabled ⊢
    split at hEnabled
    next hi =>
      rw [isEnabled_store] at hEnabled
      rw [if_pos hi]
      exact (recorded_store (h hEnabled) i w).congr (by simp [hEnabled]) (by simp)
    next hi =>
      have hij : i ≠ j := fun hSame => hi (hSame ▸ hEnabled)
      rw [if_neg hi]
      exact (h hEnabled).congr (by simp [hij]) (by simp)
  | resetAccess =>
    have hBefore : r.isEnabled j = true := r.isEnabled_resetAccess j ▸ hEnabled
    exact (recorded_resetAccess hBefore).congr (by simp) (by simp)
  | clear =>
    have hBefore : r.isEnabled j = true := isEnabled_clear (r := r) ▸ hEnabled
    exact (recorded_clear hBefore).congr (by simp) (by simp)
  | disable i =>
    have hSame : (r.apply (.disable i)).access? j = r.access? j :=
      access?_update_of_ne (ne_of_isEnabled_disable hEnabled) _
    rw [isEnabled, hSame] at hEnabled
    rw [hSame]
    exact (h hEnabled).congr (by simp) (by simp)
  | enable i =>
    by_cases hBegins : i = j ∧ r.isEnabled j = false
    · obtain ⟨rfl, hDisabled⟩ := hBegins
      exact (recorded_enable hDisabled hEnabled).congr (by simp [hDisabled]) (by simp [hDisabled])
    · have hKeeps : i = j → r.isEnabled j = true := by simpa using hBegins
      have hSame : (r.apply (.enable i)).access? j = r.access? j := access?_enable hKeeps
      rw [isEnabled, hSame] at hEnabled
      rw [hSame]
      exact (h hEnabled).congr (by simpa using fun _ => hKeeps) (by simpa using fun _ => hKeeps)

/-- The registers after operations, one after another. -/
def after (r : RegisterFile) (os : List Op) : RegisterFile := os.foldl apply r

theorem after_concat (os : List Op) (o : Op) : r.after (os ++ [o]) = (r.after os).apply o :=
  List.foldl_concat ..

/-- One of the operations does with the register what `P` says, and none after it begins its record
anew. -/
def Since (P : Op → RegisterFile → Nat → Prop) (r : RegisterFile) (os : List Op) (i : Nat) : Prop :=
  ∃ before o later, os = before ++ o :: later ∧ P o (r.after before) i ∧
    ∀ between o' rest, later = between ++ o' :: rest →
      ¬ o'.Restarts (r.after (before ++ o :: between)) i

theorem not_since_nil {P : Op → RegisterFile → Nat → Prop} : ¬ Since P r [] i := by
  rintro ⟨before, o, later, hSplit, -⟩
  cases before <;> cases hSplit

theorem since_concat_iff {P : Op → RegisterFile → Nat → Prop} {os : List Op} {o : Op} :
    Since P r (os ++ [o]) i ↔
      P o (r.after os) i ∨ Since P r os i ∧ ¬ o.Restarts (r.after os) i := by
  constructor
  · rintro ⟨before, o₁, later, hSplit, hDone, hKept⟩
    rcases concat_eq_append_cons_iff.mp hSplit with ⟨rfl, rfl, rfl⟩ | ⟨later, rfl, rfl⟩
    · exact .inl hDone
    · refine .inr ⟨⟨before, o₁, later, rfl, hDone, fun between o' rest hLater => ?_⟩, ?_⟩
      · exact hKept between o' (rest ++ [o]) (by rw [hLater, List.append_assoc, List.cons_append])
      · exact hKept later o [] rfl
  · rintro (hDone | ⟨⟨before, o₁, later, rfl, hDone, hKept⟩, hLast⟩)
    · exact ⟨os, o, [], rfl, hDone, fun between o' rest hLater => by simp at hLater⟩
    · refine ⟨before, o₁, later ++ [o], by simp, hDone, fun between o' rest hLater => ?_⟩
      rcases concat_eq_append_cons_iff.mp hLater with ⟨-, rfl, rfl⟩ | ⟨rest, -, rfl⟩
      · exact hLast
      · exact hKept between o' rest rfl

theorem recorded_new (hEnabled : new.isEnabled j = true) :
    Recorded (new.access? j) False False := by
  obtain ⟨v, a, hCell⟩ := exists_cell_of_isEnabled hEnabled
  have hAt : new.cell j = .enabled 0 .untouched := by
    simp [cell, new, lt_of_cell_eq_enabled hCell]
  rw [access?, hAt]
  exact .untouched

/-- What an enabled register remembers of all the operations there were. -/
theorem recorded_after (os : List Op) (hEnabled : (new.after os).isEnabled j = true) :
    Recorded ((new.after os).access? j) (Since Op.Writes new os j) (Since Op.Reads new os j) := by
  induction os using List.reverseRecOn with
  | nil =>
    exact (recorded_new hEnabled).congr (iff_of_false id not_since_nil)
      (iff_of_false id not_since_nil)
  | append_singleton os o ih =>
    rw [after_concat] at hEnabled ⊢
    exact (recorded_apply ih o hEnabled).congr since_concat_iff.symm since_concat_iff.symm

/-! ### Reading some registers, then writing one -/

/-- The registers after some were read and then one was written, if any. -/
def used (r : RegisterFile) (sources : List RegIndex) (destination? : Option RegIndex) (w : Word) :
    RegisterFile :=
  let r := sources.foldl (fun r i => r.touch i.toNat) r
  match destination? with
  | none => r
  | some i => r.store i.toNat w

theorem used_append (sources more : List RegIndex) (destination? : Option RegIndex) (v w : Word) :
    r.used (sources ++ more) destination? w = (r.used sources none v).used more destination? w := by
  simp only [used, List.foldl_append]

theorem isEnabled_used (sources : List RegIndex) (destination? : Option RegIndex) (w : Word) :
    (r.used sources destination? w).isEnabled j = r.isEnabled j := by
  have hTouched : (sources.foldl (fun r i => r.touch i.toNat) r).isEnabled j = r.isEnabled j := by
    induction sources generalizing r with
    | nil => rfl
    | cons i sources ih => rw [List.foldl_cons, ih, isEnabled_touch]
  cases destination? with
  | none => exact hTouched
  | some i => exact (isEnabled_store w j).trans hTouched

theorem recorded_touches {j : RegIndex} (h : Recorded (r.access? j.toNat) written read)
    (sources : List RegIndex) :
    Recorded ((sources.foldl (fun r i => r.touch i.toNat) r).access? j.toNat) written
      (j ∈ sources ∨ read) := by
  induction sources generalizing r read with
  | nil => exact h.congr Iff.rfl (by simp)
  | cons i sources ih =>
    refine (ih (recorded_touch h i.toNat)).congr Iff.rfl ?_
    rw [List.mem_cons, ← BitVec.toNat_inj (x := j), eq_comm (a := j.toNat), or_assoc,
      or_left_comm]

theorem recorded_used {j : RegIndex} (h : Recorded (r.access? j.toNat) False False)
    (sources : List RegIndex) (destination? : Option RegIndex) (w : Word) :
    Recorded ((r.used sources destination? w).access? j.toNat) (destination? = some j)
      (j ∈ sources) := by
  have hTouched := (recorded_touches h sources).congr Iff.rfl (or_iff_left id)
  cases destination? with
  | none => exact hTouched.congr (by simp) Iff.rfl
  | some i =>
    refine (recorded_store hTouched i.toNat w).congr ?_ Iff.rfl
    rw [or_iff_left id, BitVec.toNat_inj, Option.some.injEq]

end RegisterFile

/-! ### What instructions read and write -/

namespace Instruction

/-- The registers that the instruction takes its operands from. -/
def sources : Instruction → List RegIndex
  | .jump _ _ => []
  | .imm op f =>
    match op with
    | .arith _ | .compare _ | .load _ _ => [f.a]
    | .store _ _ | .branch _ => [f.a, f.b]
    | .br => []
  | .reg op f =>
    match op with
    | .arith _ | .compare _ | .shift _ => [f.a, f.b]
    | .shiftI _ | .jmp | .callr => [f.a]
    | .ret => [RegIndex.returnAddress]
    | .nextpc => []

/-- The register that the instruction leaves its result in. -/
def destination? : Instruction → Option RegIndex
  | .jump .call _ => some RegIndex.returnAddress
  | .jump .jmpi _ => none
  | .imm op f =>
    match op with
    | .arith _ | .compare _ | .load _ _ => some f.b
    | .store _ _ | .branch _ | .br => none
  | .reg op f =>
    match op with
    | .arith _ | .compare _ | .shift _ | .shiftI _ | .nextpc => some f.c
    | .callr => some RegIndex.returnAddress
    | .jmp | .ret => none

end Instruction

namespace Machine

/-- A computation that succeeds has read these registers, and then written that one, if any. -/
def UsesRegisters {α : Type} (x : Exec Fault α) (sources : List RegIndex)
    (destination? : Option RegIndex) : Prop :=
  ∀ m a m', x m = .ok a m' → ∃ w, m'.registers = m.registers.used sources destination? w

section UsesRegisters

variable {α β : Type} {x : Exec Fault α} {f : α → Exec Fault β} {sources more : List RegIndex}
  {destination? : Option RegIndex}

theorem UsesRegisters.bind (hx : UsesRegisters x sources none)
    (hf : ∀ a, UsesRegisters (f a) more destination?) :
    UsesRegisters (x >>= f) (sources ++ more) destination? := by
  intro m b m' h
  change EStateM.bind x f m = _ at h
  rw [EStateM.bind] at h
  cases hFirst : x m with
  | error e m₁ =>
    rw [hFirst] at h
    cases h
  | ok a m₁ =>
    rw [hFirst] at h
    obtain ⟨v, hTouched⟩ := hx m a m₁ hFirst
    obtain ⟨w, hUsed⟩ := hf a m₁ b m' h
    exact ⟨w, by rw [hUsed, hTouched, RegisterFile.used_append]⟩

theorem usesRegisters_nil (h : ∀ m a m', x m = .ok a m' → m'.registers = m.registers) :
    UsesRegisters x [] none := fun m a m' hOk => ⟨0, h m a m' hOk⟩

end UsesRegisters

theorem getPc_uses : UsesRegisters getPc [] none := by
  apply usesRegisters_nil
  intro m a m' h
  cases h
  rfl

theorem setPc_uses (pc : Word) : UsesRegisters (setPc pc) [] none := by
  apply usesRegisters_nil
  intro m a m' h
  unfold setPc at h
  split at h <;> cases h
  rfl

theorem jump_uses (target : Word) : UsesRegisters (jump target) [] none := by
  apply usesRegisters_nil
  intro m a m' h
  rw [of_jump_eq_ok h]

theorem checkRegister_uses (i : RegIndex) : UsesRegisters (checkRegister i) [] none := by
  apply usesRegisters_nil
  intro m a m' h
  rw [(of_checkRegister_eq_ok h).1]

theorem loadMemory_uses (width : Width) (address : Word) :
    UsesRegisters (loadMemory width address) [] none :=
  usesRegisters_nil fun _ _ _ => registers_of_loadMemory_eq_ok

theorem storeMemory_uses (width : Width) (address w : Word) :
    UsesRegisters (storeMemory width address w) [] none := by
  apply usesRegisters_nil
  intro m a m' h
  rw [storeMemory_eq] at h
  split at h <;> cases h
  rfl

theorem readRegister_uses (i : RegIndex) : UsesRegisters (readRegister i) [i] none := by
  intro m v m' h
  exact ⟨0, by rw [(of_readRegister_eq_ok h).2]; rfl⟩

theorem writeRegister_uses (i : RegIndex) (w : Word) :
    UsesRegisters (writeRegister i w) [] (some i) := by
  intro m a m' h
  unfold writeRegister at h
  split at h <;> cases h
  exact ⟨w, rfl⟩

theorem effectiveAddress_uses (f : ImmFields) : UsesRegisters (effectiveAddress f) [f.a] none :=
  (readRegister_uses f.a).bind fun _ => usesRegisters_nil fun _ _ _ h => by cases h; rfl

/-- Every instruction reads its sources first and writes its destination last. -/
theorem execute_uses (i : Instruction) :
    UsesRegisters (execute i) i.sources i.destination? := by
  cases i with
  | jump op index =>
    cases op with
    | call => exact getPc_uses.bind fun _ => (jump_uses _).bind fun _ => writeRegister_uses _ _
    | jmpi => exact getPc_uses.bind fun _ => jump_uses _
  | imm op f =>
    cases op with
    | arith op => exact (readRegister_uses _).bind fun _ => writeRegister_uses _ _
    | compare cond => exact (readRegister_uses _).bind fun _ => writeRegister_uses _ _
    | load kind io =>
      exact (effectiveAddress_uses f).bind fun _ => (checkRegister_uses _).bind fun _ =>
        (loadMemory_uses _ _).bind fun _ => writeRegister_uses _ _
    | store width io =>
      exact (effectiveAddress_uses f).bind fun _ => (readRegister_uses _).bind fun _ =>
        storeMemory_uses _ _ _
    | br => exact getPc_uses.bind fun _ => setPc_uses _
    | branch cond =>
      refine (readRegister_uses _).bind fun a => (readRegister_uses _).bind fun b => ?_
      split
      · exact getPc_uses.bind fun _ => setPc_uses _
      · exact usesRegisters_nil fun _ _ _ h => by cases h; rfl
  | reg op f =>
    cases op with
    | arith op =>
      refine (readRegister_uses _).bind fun a => (readRegister_uses _).bind fun b => ?_
      split
      · exact writeRegister_uses _ _
      · exact fun _ _ _ h => by cases h
    | compare cond =>
      exact (readRegister_uses _).bind fun _ => (readRegister_uses _).bind fun _ =>
        writeRegister_uses _ _
    | shift op =>
      exact (readRegister_uses _).bind fun _ => (readRegister_uses _).bind fun _ =>
        writeRegister_uses _ _
    | shiftI op => exact (readRegister_uses _).bind fun _ => writeRegister_uses _ _
    | jmp => exact (readRegister_uses _).bind fun _ => jump_uses _
    | callr =>
      exact (readRegister_uses _).bind fun _ => getPc_uses.bind fun _ => (jump_uses _).bind
        fun _ => writeRegister_uses _ _
    | ret => exact (readRegister_uses _).bind fun _ => jump_uses _
    | nextpc => exact getPc_uses.bind fun _ => writeRegister_uses _ _

variable {m m' : Machine}

theorem AboutTo.read_eq {source : Text} {p : Program} {i : Nat} (h : AboutTo source p i m) :
    m.memory.read .word m.pc = .ok (p.word (4 * i), m.memory) := by
  have hRam : ∀ a ∈ Memory.accessed m.pc Width.word.bytes, m.memory.IsRam a := by
    refine Memory.isRam_of_mem_accessed h.loaded.reachable.sound.map ?_
    rw [h.toNat_pc]
    exact h.add_four_le_ramSize
  have hLoad := loadMemory_of_peek hRam h.intact
  rw [loadMemory_eq] at hLoad
  split at hLoad
  · cases hLoad
  next v memory hRead =>
  rw [EStateM.Result.ok.injEq] at hLoad
  obtain ⟨rfl, hSame⟩ := hLoad
  have hMemory : memory = m.memory := congrArg Machine.memory hSame
  rw [hRead, hMemory]

/-- What a step has fetched, decoded and executed that has not halted. -/
theorem exists_execute_of_step (h : step m = .ok true m') :
    ∃ w memory i m₂, m.memory.read .word m.pc = .ok (w, memory) ∧ Instruction.decode w = .ok i ∧
      execute i { m with registers := m.registers.resetAccess, memory := memory } = .ok () m₂ ∧
      m'.registers = m₂.registers := by
  obtain ⟨w, m₁, hLoad, hWord⟩ := exists_stepWord_of_step_eq_ok (awake_of_step h) h
  rw [loadMemory_eq] at hLoad
  split at hLoad
  · cases hLoad
  next v memory hRead =>
  cases hLoad
  unfold stepWord at hWord
  split at hWord
  · cases hWord
  split at hWord
  · cases hWord
  next i hDecode =>
  split at hWord
  · cases hWord
  next m₂ hExecute =>
  cases hWord
  exact ⟨_, _, i, m₂, hRead, hDecode, hExecute, rfl⟩

/-- The record of a register after a step is about the instruction of that step alone. -/
theorem recorded_step (h : step m = .ok true m') :
    ∃ w memory i, m.memory.read .word m.pc = .ok (w, memory) ∧ Instruction.decode w = .ok i ∧
      ∀ j : RegIndex, m'.registers.isEnabled j.toNat = true →
        Recorded (m'.registers.access? j.toNat) (i.destination? = some j) (j ∈ i.sources) := by
  obtain ⟨w, memory, i, m₂, hRead, hDecode, hExecute, hRegisters⟩ := exists_execute_of_step h
  obtain ⟨v, hUsed⟩ := execute_uses i _ _ _ hExecute
  refine ⟨w, memory, i, hRead, hDecode, fun j hEnabled => ?_⟩
  rw [hRegisters, hUsed] at hEnabled ⊢
  rw [RegisterFile.isEnabled_used, RegisterFile.isEnabled_resetAccess] at hEnabled
  exact RegisterFile.recorded_used (RegisterFile.recorded_resetAccess hEnabled) _ _ _

/-- Registers say what happened to them. After a step that executes an instruction, an enabled
register was written if it is the destination, or else read if it is a source. After any operations
on the registers, a register that lets itself be checked can be read and written, and it says
whether it was written, or else read, since its record was last begun anew. -/
theorem registers_record_accesses :
    (∀ m m' : Machine, step m = .ok true m' →
      ∃ w memory i, m.memory.read .word m.pc = .ok (w, memory) ∧ Instruction.decode w = .ok i ∧
        ∀ j : RegIndex, m'.registers.isEnabled j.toNat = true →
          Recorded (m'.registers.access? j.toNat) (i.destination? = some j) (j ∈ i.sources)) ∧
    ∀ (os : List RegisterFile.Op) (i : Nat),
      ((RegisterFile.new.after os).check i = .ok () ↔
        ∃ v s, (RegisterFile.new.after os).read i = .ok (v, s)) ∧
      (∀ w, (RegisterFile.new.after os).check i = .ok () ↔
        ∃ s, (RegisterFile.new.after os).write i w = .ok s) ∧
      ((RegisterFile.new.after os).isEnabled i = true →
        Recorded ((RegisterFile.new.after os).access? i)
          (RegisterFile.Since RegisterFile.Op.Writes RegisterFile.new os i)
          (RegisterFile.Since RegisterFile.Op.Reads RegisterFile.new os i)) := by
  refine ⟨fun m m' => recorded_step, fun os i => ⟨?_, fun w => ?_, RegisterFile.recorded_after os⟩⟩
  · rw [RegisterFile.check_eq_ok_iff, RegisterFile.read_eq_ok_iff]
  · rw [RegisterFile.check_eq_ok_iff, RegisterFile.write_eq_ok_iff]

def sumSource : Text := "add r2, r2, r3\n".toList

/-- A register that is read and then written was written. -/
theorem registers_record_accesses_sumSource :
    (∃ m m', Reachable m ∧ step m = .ok true m' ∧ m'.registers.access? 2 = some .written ∧
      m'.registers.access? 3 = some .read ∧ m'.registers.access? 4 = some .untouched) ∧
    (RegisterFile.new.after [.write 5 7, .read 5]).access? 5 = some .written := by
  refine ⟨?_, ?_⟩
  · have hAccepted : (assemble sumSource).toOption.map (fun p =>
        (p.length, p.image.size, p.word (4 * 0))) =
          some (1, 8, (Instruction.reg (.arith .add) ⟨2, 3, 2, 0⟩).encode) := by decide +kernel
    obtain ⟨p, hp, h, -, -, hWord⟩ := exists_aboutTo_new hAccepted (by decide) (by decide)
    obtain ⟨m', hStep, hStepped⟩ := h.exists_step_add (isEnabled_loaded_new p 0 (by decide))
      (isEnabled_loaded_new p 0 (by decide)) (isEnabled_loaded_new p 0 (by decide)) hWord
    have hEnabled : ∀ i < 32, m'.registers.isEnabled i = true := fun i hi =>
      (hStepped.enabled i).trans (isEnabled_loaded_new p 0 hi)
    obtain ⟨w, memory, i, hRead, hDecode, hRecorded⟩ := registers_record_accesses.1 _ _ hStep
    rw [h.read_eq] at hRead
    cases hRead
    rw [hWord, Instruction.decode_encode] at hDecode
    cases hDecode
    refine ⟨_, m', h.loaded.reachable, hStep, ?_, ?_, ?_⟩
    · exact (hRecorded 2 (hEnabled 2 (by decide))).written_iff.mpr (by decide)
    · exact (hRecorded 3 (hEnabled 3 (by decide))).read_iff.mpr (by decide)
    · exact (hRecorded 4 (hEnabled 4 (by decide))).untouched_iff.mpr (by decide)
  · have hFirst : RegisterFile.Since RegisterFile.Op.Writes RegisterFile.new
        ([] ++ [.write 5 7]) 5 :=
      RegisterFile.since_concat_iff.mpr (.inl ⟨7, rfl, _, rfl⟩)
    have hWrote : RegisterFile.Since RegisterFile.Op.Writes RegisterFile.new
        [.write 5 7, .read 5] 5 :=
      RegisterFile.since_concat_iff.mpr (.inr ⟨hFirst, by simp [RegisterFile.Op.Restarts]⟩)
    exact ((registers_record_accesses.2 _ 5).2.2 (by decide)).written_iff.mpr hWrote

end Machine

end NiosBoard
