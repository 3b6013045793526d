import NiosBoard.Proofs.Machine.ByteAccess
import NiosBoard.Proofs.Machine.MemoryMap

/-! # All or nothing

An access of several bytes is a check of all of them and then a loop over them, and a byte on its own
may fail: the block that answers for it is looked up once more. Here accesses are spelled out that
way, as computations that keep what they have done when they fail. They never fail half done, as the
two lookups agree at every address, whatever the loop has done to devices on its way.
-/

namespace NiosBoard.Memory

variable {m m' : Memory}

/-- A computation on memory that publishes events. Both are kept when it fails. -/
abbrev Access (α : Type) := EStateM MemoryError (Memory × List Event) α

def readByte (a : Word) : Access Byte := fun (m, es) =>
  match m.block? a with
  | none => .error ⟨a, .unmapped⟩ (m, es)
  | some _ => .ok (m.fetch a).1 ((m.fetch a).2, es)

def storeByte (a : Word) (v : Byte) : Access Unit := fun (m, es) =>
  match m.block? a with
  | none => .error ⟨a, .unmapped⟩ (m, es)
  | some _ => .ok () ((m.store a v).1, es ++ (m.store a v).2)

def ensure (check : Memory → Except MemoryError Unit) : Access Unit := fun (m, es) =>
  match check m with
  | .error e => .error e (m, es)
  | .ok () => .ok () (m, es)

def readLoop (as : List Word) : Access Word := do
  let bytes ← as.mapM readByte
  return Word.ofBytes bytes

def storeLoop (ss : List (Word × Byte)) : Access Unit := ss.forM fun s => storeByte s.1 s.2

/-- Reads a value byte by byte. -/
def readWide (width : Width) (a : Word) : Access Word := do
  ensure (·.checkMapped (accessed a width.bytes))
  readLoop (accessed a width.bytes)

/-- Writes a value byte by byte. -/
def writeWide (width : Width) (a v : Word) : Access Unit := do
  ensure (·.checkWritable (accessed a width.bytes))
  storeLoop (stores width a v)

/-! ### One computation after another -/

section

variable {α β : Type} {s s' : Memory × List Event} {es : List Event}

theorem bind_of_ok {x : Access α} {k : α → Access β} {a : α} (h : x s = .ok a s') :
    (x >>= k) s = k a s' := by
  show EStateM.bind x k s = _
  rw [EStateM.bind, h]

variable {check : Memory → Except MemoryError Unit}

theorem ensure_bind_of_ok (h : check m = .ok ()) (loop : Access α) :
    (do ensure check; loop) (m, es) = loop (m, es) :=
  bind_of_ok (by rw [ensure, h])

theorem ensure_bind_of_error {e : MemoryError} (h : check m = .error e) (loop : Access α) :
    (do ensure check; loop) (m, es) = .error e (m, es) := by
  show EStateM.bind (ensure check) (fun _ => loop) (m, es) = _
  rw [EStateM.bind, ensure, h]

end

/-! ### Faults -/

/-- No block has the address. -/
def Unmapped (m : Memory) (a : Word) : Prop := ∀ b ∈ m.blocks, a.toNat ∉ b.place.addresses

/-- A device that accepts no stores has the address. -/
def Guarded (m : Memory) (a : Word) : Prop :=
  ∃ b ∈ m.blocks, a.toNat ∈ b.place.addresses ∧
    ∃ d, b.device? m.panel = some d ∧ d.writable = false

/-- What is wrong with reading a byte. -/
inductive ReadFault (m : Memory) (a : Word) : MemoryErrorKind → Prop
  | unmapped (h : m.Unmapped a) : ReadFault m a .unmapped

/-- What is wrong with storing a byte. -/
inductive StoreFault (m : Memory) (a : Word) : MemoryErrorKind → Prop
  | unmapped (h : m.Unmapped a) : StoreFault m a .unmapped
  | readOnly (h : m.Guarded a) : StoreFault m a .readOnly

/-- What is wrong with copying an image of some size. -/
inductive ImageFault (m : Memory) (start : Word) (size : Nat) : MemoryErrorKind → Prop
  | unmapped (h : m.Unmapped start) : ImageFault m start size .unmapped
  | readOnly {b : Block} (hb : b ∈ m.blocks) (h : start.toNat ∈ b.place.addresses)
      (hDevice : b.isDevice = true) : ImageFault m start size .readOnly
  | tooLarge {b : Block} (hb : b ∈ m.blocks) (h : start.toNat ∈ b.place.addresses)
      (hRam : b.isDevice = false)
      (hLarge : b.start.toNat + b.length < start.toNat + size) : ImageFault m start size .tooLarge

/-- Of some addresses, in this order, the error is about the first with a fault. -/
inductive FirstFault (fault : Word → MemoryErrorKind → Prop) : List Word → MemoryError → Prop
  | here {a : Word} {as : List Word} {kind : MemoryErrorKind} (h : fault a kind) :
      FirstFault fault (a :: as) ⟨a, kind⟩
  | later {a : Word} {as : List Word} {e : MemoryError} (h : ∀ kind, ¬ fault a kind)
      (h' : FirstFault fault as e) : FirstFault fault (a :: as) e

theorem exists_firstFault_iff {fault : Word → MemoryErrorKind → Prop} {as : List Word} :
    (∃ e, FirstFault fault as e) ↔ ∃ a ∈ as, ∃ kind, fault a kind := by
  induction as with
  | nil =>
    simp only [List.not_mem_nil, false_and, exists_false, iff_false]
    nofun
  | cons a as ih =>
    rw [List.exists_mem_cons_iff, ← ih]
    constructor
    · rintro ⟨e, hHere | ⟨-, hLater⟩⟩
      · exact .inl ⟨_, ‹_›⟩
      · exact .inr ⟨e, hLater⟩
    · intro h
      by_cases hHere : ∃ kind, fault a kind
      · obtain ⟨kind, hFault⟩ := hHere
        exact ⟨_, .here hFault⟩
      · obtain ⟨e, hLater⟩ := h.resolve_left hHere
        exact ⟨e, .later (not_exists.mp hHere) hLater⟩

/-! ### The checks -/

theorem WellFormed.block?_eq_none_iff (h : m.WellFormed) {a : Word} :
    m.block? a = none ↔ m.Unmapped a := by
  rw [Option.eq_none_iff_forall_ne_some]
  simp only [ne_eq, h.block?_eq_some_iff, not_and]
  rfl

/-- The kind of fault that a read finds at an address, if it finds one. -/
def readError? (m : Memory) (a : Word) : Option MemoryErrorKind :=
  if m.isMapped a then none else some .unmapped

theorem WellFormed.readError?_eq_some_iff (h : m.WellFormed) {a : Word} {kind : MemoryErrorKind} :
    m.readError? a = some kind ↔ m.ReadFault a kind := by
  have hUnmapped : m.Unmapped a ↔ ¬ m.isMapped a = true := by
    rw [← h.block?_eq_none_iff, isMapped_eq_isSome, Option.not_isSome_iff_eq_none]
  rw [readError?]
  split
  · next hMapped =>
    refine ⟨nofun, ?_⟩
    rintro ⟨hFault⟩
    exact absurd hMapped (hUnmapped.mp hFault)
  · next hMapped =>
    constructor
    · intro hKind
      cases hKind
      exact .unmapped (hUnmapped.mpr hMapped)
    · rintro ⟨-⟩
      rfl

theorem WellFormed.guarded_iff (h : m.WellFormed) {a : Word} {b : Block}
    (hBlock : m.block? a = some b) :
    m.Guarded a ↔ ∃ d, b.device? m.panel = some d ∧ d.writable = false := by
  constructor
  · rintro ⟨c, hc, ha, hDevice⟩
    cases hBlock.symm.trans (h.block?_eq_some_iff.mpr ⟨hc, ha⟩)
    exact hDevice
  · intro hDevice
    obtain ⟨hb, ha⟩ := h.block?_eq_some_iff.mp hBlock
    exact ⟨b, hb, ha, hDevice⟩

theorem WellFormed.storeError?_eq_some_iff (h : m.WellFormed) {a : Word} {kind : MemoryErrorKind} :
    m.storeError? a = some kind ↔ m.StoreFault a kind := by
  cases hBlock : m.block? a with
  | none =>
    have hUnmapped := h.block?_eq_none_iff.mp hBlock
    simp only [storeError?, hBlock, Option.some.injEq]
    constructor
    · rintro rfl
      exact .unmapped hUnmapped
    · rintro (- | ⟨b, hb, ha, -⟩)
      · rfl
      · exact absurd ha (hUnmapped b hb)
  | some b =>
    have hMapped : ¬ m.Unmapped a := fun hUnmapped => by
      cases hBlock.symm.trans (h.block?_eq_none_iff.mpr hUnmapped)
    have hGuarded := h.guarded_iff hBlock
    simp only [storeError?, hBlock]
    constructor
    · intro hKind
      split at hKind
      · next d hDevice =>
        split at hKind <;> cases hKind
        next hWritable =>
        exact .readOnly (hGuarded.mpr ⟨d, hDevice, Bool.eq_false_iff.mpr hWritable⟩)
      · cases hKind
    · rintro (hUnmapped | hReadOnly)
      · exact absurd hUnmapped hMapped
      · obtain ⟨d, hDevice, hWritable⟩ := hGuarded.mp hReadOnly
        simp [hDevice, hWritable]

/-- A check that goes through addresses until one has a fault. -/
theorem eq_error_iff_firstFault {check : List Word → Except MemoryError Unit}
    {fault : Word → MemoryErrorKind → Prop} {fault? : Word → Option MemoryErrorKind}
    (hFault : ∀ a kind, fault? a = some kind ↔ fault a kind) (hNil : check [] = .ok ())
    (hCons : ∀ a as, check (a :: as) =
      match fault? a with
      | some kind => .error ⟨a, kind⟩
      | none => check as) (as : List Word) (e : MemoryError) :
    check as = .error e ↔ FirstFault fault as e := by
  induction as with
  | nil =>
    rw [hNil]
    exact ⟨nofun, nofun⟩
  | cons a as ih =>
    rw [hCons]
    cases hKind : fault? a with
    | some kind =>
      have hHere := (hFault a kind).mp hKind
      constructor
      · intro hError
        cases hError
        exact .here hHere
      · rintro (hSame | ⟨hNone, -⟩)
        · cases hKind.symm.trans ((hFault _ _).mpr hSame)
          rfl
        · exact absurd hHere (hNone kind)
    | none =>
      have hNone : ∀ kind, ¬ fault a kind := fun kind hHere => by
        cases hKind.symm.trans ((hFault a kind).mpr hHere)
      refine ih.trans ⟨.later hNone, ?_⟩
      rintro (hHere | ⟨-, hLater⟩)
      · exact absurd hHere (hNone _)
      · exact hLater

theorem WellFormed.checkMapped_eq_error_iff (h : m.WellFormed) (as : List Word) (e : MemoryError) :
    m.checkMapped as = .error e ↔ FirstFault m.ReadFault as e := by
  refine eq_error_iff_firstFault (fun _ _ => h.readError?_eq_some_iff) rfl ?_ as e
  intro a as
  rw [checkMapped, readError?]
  split <;> rfl

theorem WellFormed.checkWritable_eq_error_iff (h : m.WellFormed) (as : List Word)
    (e : MemoryError) : m.checkWritable as = .error e ↔ FirstFault m.StoreFault as e :=
  eq_error_iff_firstFault (fun _ _ => h.storeError?_eq_some_iff) rfl (fun _ _ => rfl) as e

/-! ### The loops -/

/-- Which addresses are mapped is a matter of the blocks, whatever they hold. -/
theorem isMapped_of_blanks (hBlanks : m'.blanks = m.blanks) (a : Word) :
    m'.isMapped a = m.isMapped a := by
  have hBlank : ∀ m : Memory, m.isMapped a = m.blanks.any (·.contains a) := by
    intro m
    simp only [isMapped, blanks, List.any_map, Function.comp_def, Block.contains_reset]
  rw [hBlank, hBlank, hBlanks]

theorem exists_block_of_isMapped {a : Word} (h : m.isMapped a = true) : ∃ b, m.block? a = some b := by
  rwa [isMapped_eq_isSome, Option.isSome_iff_exists] at h

theorem mapM_readByte {as : List Word} (h : ∀ a ∈ as, m.isMapped a = true) (es : List Event) :
    as.mapM readByte (m, es) = .ok (m.fetchAll as).1 ((m.fetchAll as).2, es) := by
  induction as generalizing m with
  | nil => rfl
  | cons a as ih =>
    obtain ⟨b, hBlock⟩ := exists_block_of_isMapped (h a List.mem_cons_self)
    have hByte : readByte a (m, es) = .ok (m.fetch a).1 ((m.fetch a).2, es) := by
      rw [readByte, hBlock]
    have hRest := ih (m := (m.fetch a).2) fun c hc => by
      rw [isMapped_of_blanks (blanks_fetch m a)]
      exact h c (List.mem_cons_of_mem a hc)
    rw [List.mapM_cons, bind_of_ok hByte, bind_of_ok hRest]
    rfl

theorem readLoop_eq {as : List Word} (h : ∀ a ∈ as, m.isMapped a = true) (es : List Event) :
    readLoop as (m, es) = .ok (Word.ofBytes (m.fetchAll as).1) ((m.fetchAll as).2, es) := by
  rw [readLoop, bind_of_ok (mapM_readByte h es)]
  rfl

theorem storeLoop_eq {ss : List (Word × Byte)} (h : ∀ s ∈ ss, m.isMapped s.1 = true)
    (es : List Event) :
    storeLoop ss (m, es) = .ok () ((m.storeAll ss).1, es ++ (m.storeAll ss).2) := by
  induction ss generalizing m es with
  | nil => exact congrArg (fun es => EStateM.Result.ok () (m, es)) (List.append_nil es).symm
  | cons s ss ih =>
    obtain ⟨b, hBlock⟩ := exists_block_of_isMapped (h s List.mem_cons_self)
    have hByte : storeByte s.1 s.2 (m, es) =
        .ok () ((m.store s.1 s.2).1, es ++ (m.store s.1 s.2).2) := by
      rw [storeByte, hBlock]
    have hRest := ih (m := (m.store s.1 s.2).1) (fun c hc => by
      rw [isMapped_of_blanks (blanks_store m s.1 s.2)]
      exact h c (List.mem_cons_of_mem s hc)) (es ++ (m.store s.1 s.2).2)
    have hLoop : storeLoop (s :: ss) = (do storeByte s.1 s.2; storeLoop ss) := rfl
    rw [hLoop, bind_of_ok hByte]
    refine hRest.trans ?_
    rw [List.append_assoc]
    rfl

theorem isMapped_of_checkMapped {as : List Word} (h : m.checkMapped as = .ok ()) :
    ∀ a ∈ as, m.isMapped a = true := by
  induction as with
  | nil => nofun
  | cons a as ih =>
    rw [checkMapped] at h
    split at h
    · next hMapped => exact List.forall_mem_cons.mpr ⟨hMapped, ih h⟩
    · cases h

theorem isMapped_of_checkWritable {as : List Word} (h : m.checkWritable as = .ok ()) :
    ∀ a ∈ as, m.isMapped a = true := by
  induction as with
  | nil => nofun
  | cons a as ih =>
    rw [checkWritable] at h
    split at h
    · cases h
    · next hNone =>
      refine List.forall_mem_cons.mpr ⟨?_, ih h⟩
      rw [isMapped_eq_isSome, Option.isSome_iff_ne_none]
      intro hBlock
      rw [storeError?, hBlock] at hNone
      cases hNone

theorem map_fst_stores (width : Width) (a v : Word) :
    (stores width a v).map Prod.fst = accessed a width.bytes := by
  refine List.map_fst_zip ?_
  simp [accessed]

/-! ### Whole accesses -/

/-- An access fails just where one of its bytes has a fault, at the first of them, and then nothing
has changed and nothing was published. Where no byte has one its loop runs through. -/
structure AllOrNothing {α : Type} (m : Memory) (access loop : Access α)
    (fault : Word → MemoryErrorKind → Prop) (as : List Word) : Prop where
  fails_iff : ∀ es, (∃ e s, access (m, es) = .error e s) ↔ ∃ a ∈ as, ∃ kind, fault a kind
  error_iff : ∀ es e s, access (m, es) = .error e s ↔ FirstFault fault as e ∧ s = (m, es)
  loop_succeeds : (∀ a ∈ as, ∀ kind, ¬ fault a kind) →
    ∀ es, ∃ x s, loop (m, es) = .ok x s ∧ access (m, es) = .ok x s

theorem allOrNothing_of_check {α : Type} {check : Memory → Except MemoryError Unit}
    {loop : Access α} {fault : Word → MemoryErrorKind → Prop} {as : List Word}
    (hCheck : ∀ e, check m = .error e ↔ FirstFault fault as e)
    (hLoop : check m = .ok () → ∀ es, ∃ x s, loop (m, es) = .ok x s) :
    AllOrNothing m (do ensure check; loop) loop fault as := by
  have hError : ∀ es e s, (do ensure check; loop : Access α) (m, es) = .error e s ↔
      FirstFault fault as e ∧ s = (m, es) := by
    intro es e s
    rw [← hCheck]
    cases hResult : check m with
    | error e' =>
      rw [ensure_bind_of_error hResult]
      simp [eq_comm]
    | ok u =>
      obtain ⟨x, s', hOk⟩ := hLoop hResult es
      rw [ensure_bind_of_ok hResult]
      simp [hOk]
  refine ⟨fun es => ?_, hError, fun hNone es => ?_⟩
  · simp only [hError, exists_eq_right]
    exact exists_firstFault_iff
  · have hPasses : check m = .ok () := by
      cases hResult : check m with
      | ok u => rfl
      | error e =>
        obtain ⟨a, ha, kind, hFault⟩ := exists_firstFault_iff.mp ⟨e, (hCheck e).mp hResult⟩
        exact absurd hFault (hNone a ha kind)
    obtain ⟨x, s, hOk⟩ := hLoop hPasses es
    exact ⟨x, s, hOk, (ensure_bind_of_ok hPasses loop).trans hOk⟩

theorem WellFormed.readWide_allOrNothing (h : m.WellFormed) (width : Width) (a : Word) :
    AllOrNothing m (readWide width a) (readLoop (accessed a width.bytes)) m.ReadFault
      (accessed a width.bytes) :=
  allOrNothing_of_check (h.checkMapped_eq_error_iff _) fun hPasses es =>
    ⟨_, _, readLoop_eq (isMapped_of_checkMapped hPasses) es⟩

theorem isMapped_of_mem_stores {width : Width} {a v : Word}
    (h : m.checkWritable (accessed a width.bytes) = .ok ()) :
    ∀ s ∈ stores width a v, m.isMapped s.1 = true := by
  intro s hs
  have hMem : s.1 ∈ (stores width a v).map Prod.fst := List.mem_map_of_mem hs
  rw [map_fst_stores] at hMem
  exact isMapped_of_checkWritable h s.1 hMem

theorem WellFormed.writeWide_allOrNothing (h : m.WellFormed) (width : Width) (a v : Word) :
    AllOrNothing m (writeWide width a v) (storeLoop (stores width a v)) m.StoreFault
      (accessed a width.bytes) :=
  allOrNothing_of_check (h.checkWritable_eq_error_iff _) fun hPasses es =>
    ⟨_, _, storeLoop_eq (isMapped_of_mem_stores hPasses) es⟩

theorem readWide_eq (m : Memory) (width : Width) (a : Word) (es : List Event) :
    readWide width a (m, es) =
      match m.read width a with
      | .error e => .error e (m, es)
      | .ok (w, m') => .ok w (m', es) := by
  rw [readWide, read]
  cases hCheck : m.checkMapped (accessed a width.bytes) with
  | error e => exact ensure_bind_of_error hCheck _
  | ok u =>
    rw [ensure_bind_of_ok hCheck]
    exact readLoop_eq (isMapped_of_checkMapped hCheck) es

theorem writeWide_eq (m : Memory) (width : Width) (a v : Word) (es : List Event) :
    writeWide width a v (m, es) =
      match m.write width a v with
      | .error e => .error e (m, es)
      | .ok (m', more) => .ok () (m', es ++ more) := by
  rw [writeWide, write]
  cases hCheck : m.checkWritable (accessed a width.bytes) with
  | error e => exact ensure_bind_of_error hCheck _
  | ok u =>
    rw [ensure_bind_of_ok hCheck]
    exact storeLoop_eq (isMapped_of_mem_stores hCheck) es

/-! ### Images -/

theorem WellFormed.imageFault_iff (h : m.WellFormed) {start : Word} {b : Block}
    (hBlock : m.block? start = some b) {size : Nat} {kind : MemoryErrorKind} :
    m.ImageFault start size kind ↔
      b.isDevice = true ∧ kind = .readOnly ∨
        b.isDevice = false ∧ b.length < b.offset start + size ∧ kind = .tooLarge := by
  obtain ⟨hb, ha⟩ := h.block?_eq_some_iff.mp hBlock
  have hOnly : ∀ c ∈ m.blocks, start.toNat ∈ c.place.addresses → c = b := by
    intro c hc hStart
    cases hBlock.symm.trans (h.block?_eq_some_iff.mpr ⟨hc, hStart⟩)
    rfl
  have hLarge : b.length < b.offset start + size ↔
      b.start.toNat + b.length < start.toNat + size := by
    have hFirst : b.start.toNat ≤ start.toNat := ha.1
    rw [h.offset_eq hBlock]
    omega
  rw [hLarge]
  constructor
  · rintro (hUnmapped | ⟨hc, hStart, hDevice⟩ | ⟨hc, hStart, hRam, hLarge⟩)
    · exact absurd ha (hUnmapped b hb)
    · cases hOnly _ hc hStart
      exact .inl ⟨hDevice, rfl⟩
    · cases hOnly _ hc hStart
      exact .inr ⟨hRam, hLarge, rfl⟩
  · rintro (⟨hDevice, rfl⟩ | ⟨hRam, hLarge, rfl⟩)
    · exact .readOnly hb ha hDevice
    · exact .tooLarge hb ha hRam hLarge

theorem WellFormed.loadImage_eq_error_iff (h : m.WellFormed) (start : Word) (image : Array Byte)
    (e : MemoryError) :
    m.loadImage start image = .error e ↔ e.address = start ∧ m.ImageFault start image.size e.kind := by
  obtain ⟨address, kind⟩ := e
  have hCheck : m.loadImage start image = .error ⟨address, kind⟩ ↔
      m.checkImage start image.size = .error ⟨address, kind⟩ := by
    rw [loadImage]
    cases m.checkImage start image.size with
    | error e => simp only [Except.error.injEq]
    | ok u => exact ⟨nofun, nofun⟩
  rw [hCheck, checkImage]
  cases hBlock : m.block? start with
  | none =>
    have hUnmapped := h.block?_eq_none_iff.mp hBlock
    constructor
    · intro hError
      cases hError
      exact ⟨rfl, .unmapped hUnmapped⟩
    · rintro ⟨rfl, - | ⟨hb, ha, -⟩ | ⟨hb, ha, -, -⟩⟩
      · rfl
      · exact absurd ha (hUnmapped _ hb)
      · exact absurd ha (hUnmapped _ hb)
  | some b =>
    rw [h.imageFault_iff hBlock]
    obtain ⟨name, first, bytes | ⟨d, n⟩ | ⟨input, n⟩⟩ := b
    · simp only [Block.isDevice, Block.length]
      split
      · next hFits => simp [Nat.not_lt.mpr hFits]
      · next hLarge => simp [Nat.not_le.mp hLarge, eq_comm]
    · simp [Block.isDevice, eq_comm]
    · simp [Block.isDevice, eq_comm]

/-- In every memory that operations lead to, reads and writes of any width at any address are all or
nothing. A read fails just if one of its bytes is unmapped; a write just if one is unmapped or in a
device that accepts no stores; the error is about the first such byte. The bytes of an access that
passes its check can all be read or stored, one after another. An image is copied if all of it fits
in the block of RAM that contains the start, and otherwise nothing is. -/
theorem accesses_all_or_nothing (h : m.Reached) :
    (∀ width a,
      AllOrNothing m (readWide width a) (readLoop (accessed a width.bytes)) m.ReadFault
        (accessed a width.bytes) ∧
      ∀ es, readWide width a (m, es) =
        match m.read width a with
        | .error e => .error e (m, es)
        | .ok (w, m') => .ok w (m', es)) ∧
    (∀ width a v,
      AllOrNothing m (writeWide width a v) (storeLoop (stores width a v)) m.StoreFault
        (accessed a width.bytes) ∧
      ∀ es, writeWide width a v (m, es) =
        match m.write width a v with
        | .error e => .error e (m, es)
        | .ok (m', more) => .ok () (m', es ++ more)) ∧
    ∀ start image,
      (∀ e, m.loadImage start image = .error e ↔
        e.address = start ∧ m.ImageFault start image.size e.kind) ∧
      m.apply (.loadImage start image) =
        (match m.loadImage start image with
          | .error _ => m
          | .ok m' => m', []) := by
  have hWell := h.wellFormed
  refine ⟨fun width a => ⟨hWell.readWide_allOrNothing width a, readWide_eq m width a⟩,
    fun width a v => ⟨hWell.writeWide_allOrNothing width a v, writeWide_eq m width a v⟩,
    fun start image => ⟨hWell.loadImage_eq_error_iff start image, ?_⟩⟩
  rw [apply]
  cases m.loadImage start image with
  | error e => rfl
  | ok m' => rfl

/-- Four bytes of RAM right below the switches. -/
def low : Block := ⟨"low".toList, 0xff20003c, .ram (Array.replicate 4 0)⟩

theorem clearOf_low : standard.ClearOf ⟨0xff20003c, 4, true⟩ := by
  rw [ClearOf, places_standard]
  simp only [List.forall_mem_cons, Place.addresses, Set.Ico_disjoint_Ico]
  refine ⟨?_, ?_, ?_, ?_, ?_, List.forall_mem_nil _⟩ <;> decide

theorem after_addRam_low : standard.after [.addRam low.name low.start 4] =
    { standard with blocks := standard.blocks ++ [low] } := by
  have hAdd := (standard_wellFormed.addRam low.name low.start 4).ok_iff.mpr
    ⟨⟨by decide, by decide⟩, clearOf_low⟩
  rw [after, List.foldl_cons, List.foldl_nil, apply, hAdd]
  rfl

/-- A word that begins in RAM and ends in the switches is not written, and one that begins in the
serial line and ends behind it is not read. -/
theorem accesses_all_or_nothing_low :
    ∃ m, m = standard.after [.addRam low.name low.start 4] ∧
      writeWide .word 0xff20003e 1 (m, []) = .error ⟨0xff200040, .readOnly⟩ (m, []) ∧
      readWide .word 0xff201002 (m, []) = .error ⟨0xff201004, .unmapped⟩ (m, []) := by
  refine ⟨_, rfl, ?_⟩
  obtain ⟨hReads, hWrites, -⟩ := accesses_all_or_nothing (.standard [.addRam low.name low.start 4])
  have hWell := standard_wellFormed.after [.addRam low.name low.start 4]
  rw [after_addRam_low] at hReads hWrites hWell ⊢
  constructor
  · refine ((hWrites .word 0xff20003e 1).1.error_iff [] _ _).mpr ⟨?_, rfl⟩
    have hLow : low ∈ standard.blocks ++ [low] := List.mem_append_right _ List.mem_cons_self
    have hRam : ∀ a : Word, a.toNat ∈ low.place.addresses → ∀ kind,
        ¬ StoreFault { standard with blocks := standard.blocks ++ [low] } a kind := by
      intro a ha kind hFault
      rw [← hWell.storeError?_eq_some_iff, storeError?, hWell.block?_eq_some_iff.mpr ⟨hLow, ha⟩]
        at hFault
      cases hFault
    have hGuarded : Guarded { standard with blocks := standard.blocks ++ [low] } 0xff200040 :=
      ⟨⟨"switches".toList, Board.switchesStart, .input .switches Board.deviceSize⟩, by simp [standard],
        Set.mem_Ico.mpr (by decide), _, rfl, rfl⟩
    have hFirst := hRam 0xff20003e (Set.mem_Ico.mpr (by decide))
    have hSecond := hRam 0xff20003f (Set.mem_Ico.mpr (by decide))
    exact .later hFirst (.later hSecond (.here (.readOnly hGuarded)))
  · refine ((hReads .word 0xff201002).1.error_iff [] _ _).mpr ⟨?_, rfl⟩
    have hUart : ∀ a : Word, a.toNat ∈ Set.Ico 0xff201000 0xff201004 → ∀ kind,
        ¬ ReadFault { standard with blocks := standard.blocks ++ [low] } a kind := by
      rintro a ha kind ⟨hUnmapped⟩
      exact hUnmapped ⟨"uart".toList, Board.uartStart, .input .uart Board.deviceSize⟩
        (by simp [standard]) ha
    have hUnmapped : Unmapped { standard with blocks := standard.blocks ++ [low] } 0xff201004 := by
      have hPlaces : (standard.blocks ++ [low]).map Block.place =
          standard.places ++ [⟨0xff20003c, 4, true⟩] := by
        rw [List.map_append]
        rfl
      have hApart : ∀ p ∈ standard.places ++ [⟨0xff20003c, 4, true⟩],
          (0xff201004 : Word).toNat ∉ p.addresses := by
        simp only [places_standard, List.cons_append, List.nil_append, List.forall_mem_cons,
          Place.addresses, Set.mem_Ico]
        refine ⟨?_, ?_, ?_, ?_, ?_, ?_, List.forall_mem_nil _⟩ <;> decide
      intro b hb
      exact hApart b.place (hPlaces ▸ List.mem_map_of_mem hb)
    have hThird := hUart 0xff201002 (Set.mem_Ico.mpr (by decide))
    have hFourth := hUart 0xff201003 (Set.mem_Ico.mpr (by decide))
    exact .later hThird (.later hFourth (.here (.unmapped hUnmapped)))

end NiosBoard.Memory
