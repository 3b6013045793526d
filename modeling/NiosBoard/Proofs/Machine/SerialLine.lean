import NiosBoard.Proofs.Machine.SideEffects

/-! # The serial line is a queue

A character from outside waits behind the receive register, or in it once an access has moved it
there. Where it is makes no difference: what waits is one queue, and only a read of the receive
register takes a character off it. An access to memory is a list of accesses to each serial line, so
the same holds however wide accesses are and whatever else they touch.
-/

namespace NiosBoard

namespace Uart

/-- The characters that no read has taken, the next one first. -/
def waiting (d : Uart) : List Byte := if d.ready then d.rx :: d.queue else d.queue

/-- The character that arrived last. -/
def last (d : Uart) : Byte := d.waiting.getLastD d.rx

inductive Access where
  | feed (c : Byte)
  | read (offset : Nat)
  | write (offset : Nat) (v : Byte)
  | peek (offset : Nat)
  deriving DecidableEq, Repr

def access (d : Uart) : Access → Uart
  | .feed c => d.feed c
  | .read offset => (d.read offset).2
  | .write offset v => (d.write offset v).1
  | .peek _ => d

def after (d : Uart) (as : List Access) : Uart := as.foldl access d

/-- The characters that come from outside, in order. -/
def fed (as : List Access) : List Byte :=
  as.filterMap fun
    | .feed c => some c
    | _ => none

def given (d : Uart) : List Access → List Byte
  | [] => []
  | .read offset :: as => (d.read offset).1 :: (d.access (.read offset)).given as
  | a :: as => (d.access a).given as

/-- The bytes that reads of the receive register give while a character waits, in order. -/
def taken (d : Uart) : List Access → List Byte
  | [] => []
  | a :: as =>
    (if a = .read rxOffset ∧ d.waiting ≠ [] then [(d.read rxOffset).1] else []) ++
      (d.access a).taken as

variable {d : Uart}

theorem waiting_feed (d : Uart) (c : Byte) : (d.feed c).waiting = d.waiting ++ [c] := by
  unfold waiting feed
  split <;> rfl

theorem waiting_refill (d : Uart) : d.refill.waiting = d.waiting := by
  obtain ⟨rx, _ | _, _ | ⟨c, rest⟩⟩ := d <;> rfl

theorem refill_of_waiting_eq_cons {c : Byte} {rest : List Byte} (h : d.waiting = c :: rest) :
    d.refill = ⟨c, true, rest⟩ := by
  obtain ⟨rx, _ | _, queue⟩ := d
  · cases h
    rfl
  · cases h
    rfl

theorem refill_of_waiting_eq_nil (h : d.waiting = []) : d.refill = d ∧ d.ready = false := by
  obtain ⟨rx, _ | _, queue⟩ := d
  · cases h
    exact ⟨rfl, rfl⟩
  · cases h

theorem read_of_ne (d : Uart) {offset : Nat} (h : offset ≠ rxOffset) :
    (d.read offset).2 = d.refill := by
  rw [read, if_neg h]
  split <;> rfl

theorem read_of_waiting_eq_cons {c : Byte} {rest : List Byte} (h : d.waiting = c :: rest) :
    d.read rxOffset = (c, ⟨c, false, rest⟩) := by
  rw [read, refill_of_waiting_eq_cons h]
  rfl

theorem read_of_waiting_eq_nil (h : d.waiting = []) : d.read rxOffset = (d.rx, d) := by
  obtain ⟨hRefill, hReady⟩ := refill_of_waiting_eq_nil h
  rw [read, hRefill, ← hReady]
  rfl

theorem getD_next? (d : Uart) : d.next?.getD d.rx = d.refill.rx := by
  obtain ⟨rx, ready, queue⟩ := d
  cases ready with
  | true => rfl
  | false => cases queue <;> rfl

theorem status_refill (d : Uart) :
    d.refill.status = if d.next?.isSome then d.status ||| rxReady else d.status := by
  obtain ⟨rx, ready, queue⟩ := d
  cases ready with
  | true => rfl
  | false =>
    cases queue with
    | nil => rfl
    | cons c rest => exact (by decide : (3 : Byte) = 2 ||| rxReady)

/-- A peek foresees what a read would answer. -/
theorem peek_eq_read (d : Uart) (offset : Nat) : d.peek offset = (d.read offset).1 := by
  unfold peek read
  simp only [getD_next?, ← status_refill]
  split
  · rfl
  · split <;> rfl

theorem fst_read_statusOffset (d : Uart) :
    (d.read statusOffset).1 = if d.waiting = [] then 2 else 3 := by
  obtain ⟨rx, _ | _, _ | ⟨c, rest⟩⟩ := d <;> rfl

theorem last_refill (d : Uart) : d.refill.last = d.last := by
  cases h : d.waiting with
  | nil => rw [(refill_of_waiting_eq_nil h).1]
  | cons c rest =>
    rw [last, waiting_refill, h, last, h]
    cases rest <;> rfl

/-- Only a character from outside is a new last one. -/
theorem last_access (d : Uart) (a : Access) : (d.access a).last = (fed [a]).getLastD d.last := by
  cases a with
  | feed c =>
    show (d.feed c).waiting.getLastD (d.feed c).rx = c
    simp [waiting_feed]
  | read offset =>
    by_cases h : offset = rxOffset
    · subst h
      cases hw : d.waiting with
      | nil => rw [access, read_of_waiting_eq_nil hw]; rfl
      | cons c rest =>
        rw [access, read_of_waiting_eq_cons hw]
        show rest.getLastD c = d.waiting.getLastD d.rx
        rw [hw, List.getLastD_cons]
    · rw [access, read_of_ne d h, last_refill]
      rfl
  | write offset v => exact last_refill d
  | peek offset => rfl

theorem last_after (d : Uart) (as : List Access) : (d.after as).last = (fed as).getLastD d.last := by
  induction as generalizing d with
  | nil => rfl
  | cons a as ih =>
    show ((d.access a).after as).last = _
    rw [ih, last_access]
    cases a with
    | feed c => exact (List.getLastD_cons ..).symm
    | _ => rfl

/-- An access takes what a read of the receive register gives, and adds what is fed. -/
theorem taken_append_waiting_access (d : Uart) (a : Access) :
    d.taken [a] ++ (d.access a).waiting = d.waiting ++ fed [a] := by
  cases a with
  | feed c => exact waiting_feed d c
  | read offset =>
    by_cases h : offset = rxOffset
    · subst h
      cases hw : d.waiting with
      | nil => simp [taken, access, read_of_waiting_eq_nil hw, hw, fed]
      | cons c rest =>
        have hRest : (⟨c, false, rest⟩ : Uart).waiting = rest := rfl
        simp [taken, access, read_of_waiting_eq_cons hw, hw, hRest, fed]
    · simp [taken, access, h, read_of_ne, waiting_refill, fed]
  | write offset v =>
    simp only [taken, access, write, waiting_refill, fed]
    simp
  | peek offset => simp [taken, access, fed]

theorem taken_cons (d : Uart) (a : Access) (as : List Access) :
    d.taken (a :: as) = d.taken [a] ++ (d.access a).taken as := by
  rw [taken, taken, taken, List.append_nil]

theorem fed_cons (a : Access) (as : List Access) : fed (a :: as) = fed [a] ++ fed as := by
  rw [fed, fed, fed, ← List.filterMap_append, List.singleton_append]

/-- Nothing is lost, doubled or reordered: what was taken and what still waits is what waited before
and what was fed since. -/
theorem taken_append_waiting (d : Uart) (as : List Access) :
    d.taken as ++ (d.after as).waiting = d.waiting ++ fed as := by
  induction as generalizing d with
  | nil => exact (List.append_nil _).symm
  | cons a as ih =>
    -- what waits after the first access is given away or kept by the others
    calc d.taken (a :: as) ++ (d.after (a :: as)).waiting
        = d.taken [a] ++ ((d.access a).taken as ++ ((d.access a).after as).waiting) := by
          rw [taken_cons, List.append_assoc]
          rfl
      _ = (d.taken [a] ++ (d.access a).waiting) ++ fed as := by rw [ih, List.append_assoc]
      _ = d.waiting ++ fed (a :: as) := by
          rw [taken_append_waiting_access, List.append_assoc, ← fed_cons]

/-- What accesses do to the characters that wait, when `last` is the one that arrived last. -/
structure Delivers (d : Uart) (last : Byte) : Prop where
  feed : ∀ c, (d.feed c).waiting = d.waiting ++ [c]
  next : ∀ c rest, d.waiting = c :: rest →
    (d.read rxOffset).1 = c ∧ (d.read rxOffset).2.waiting = rest
  none : d.waiting = [] → (d.read rxOffset).1 = last ∧ (d.read rxOffset).2.waiting = []
  other : ∀ offset, offset ≠ rxOffset → (d.read offset).2.waiting = d.waiting
  write : ∀ offset v, (d.write offset v).1.waiting = d.waiting
  /-- A peek leaves the line alone and shows what a read would give. -/
  peek : ∀ offset, d.access (.peek offset) = d ∧ d.peek offset = (d.read offset).1
  ready : (d.read statusOffset).1.getLsbD 0 = true ↔ d.waiting ≠ []
  idle : (d.read statusOffset).1.getLsbD 1 = true

theorem delivers (d : Uart) : d.Delivers d.last where
  feed := waiting_feed d
  next c rest h := by
    rw [read_of_waiting_eq_cons h]
    exact ⟨rfl, rfl⟩
  none h := by
    rw [read_of_waiting_eq_nil h, last, h]
    exact ⟨rfl, rfl⟩
  other offset h := by rw [read_of_ne d h, waiting_refill]
  write _ _ := waiting_refill d
  peek offset := ⟨rfl, peek_eq_read d offset⟩
  ready := by
    rw [fst_read_statusOffset]
    split
    · next h => simp [h]
    · next h => simp [h]
  idle := by
    rw [fst_read_statusOffset]
    split <;> rfl

end Uart

/-! ### Serial lines in memory -/

/-- Where a serial line is: on the panel of the board, or behind the block of this number. -/
inductive Line where
  | panel
  | own (k : Nat)
  deriving DecidableEq, Repr

namespace Device

def uart? : Device → Option Uart
  | .uart u => some u
  | _ => none

theorem isSome_uart?_of_reset_eq {d d' : Device} (h : d'.reset = d.reset) :
    d'.uart?.isSome = d.uart?.isSome := by
  cases d <;> cases d' <;> first | rfl | cases h

end Device

namespace Block

def line? (b : Block) (k : Nat) : Option Line :=
  match b.backing with
  | .ram _ => none
  | .device d _ => d.uart?.map fun _ => .own k
  | .input i _ => if i = .uart then some .panel else none

def uart? (b : Block) : Option Uart :=
  match b.backing with
  | .device d _ => d.uart?
  | _ => none

variable (b : Block)

theorem line?_reset (k : Nat) : b.reset.line? k = b.line? k := by
  obtain ⟨name, start, bytes | ⟨_ | _ | _ | _, n⟩ | ⟨i, n⟩⟩ := b <;> rfl

end Block

namespace Memory

variable {m m' : Memory} {l : Line} {a : Word}

def uart? (m : Memory) : Line → Option Uart
  | .panel => some m.panel.uart
  | .own k => m.blocks[k]?.bind Block.uart?

/-- The offset at which the line answers for an address, if it does. -/
def offset? (m : Memory) (l : Line) (a : Word) : Option Nat :=
  (m.block? a).bind fun b => if b.line? (m.index a) = some l then some (b.offset a) else none

theorem offset?_eq_blanks (m : Memory) (l : Line) (a : Word) :
    m.offset? l a = (m.blanks.find? (·.contains a)).bind fun b =>
      if b.line? (m.blanks.findIdx (·.contains a)) = some l then some (b.offset a) else none := by
  rw [← index_eq_blanks, blanks, find?_contains_map (Block.contains_reset · a), Option.bind_map]
  simp only [Function.comp_def, Block.line?_reset, Block.offset_reset]
  rfl

/-- What a block holds does not matter for which line answers. -/
theorem offset?_congr (h : m'.blanks = m.blanks) (l : Line) (a : Word) :
    m'.offset? l a = m.offset? l a := by
  rw [offset?_eq_blanks, offset?_eq_blanks, h]

theorem uart?_of_line? {b : Block} {d : Device} (hBlock : m.block? a = some b)
    (hDevice : b.device? m.panel = some d) (hLine : b.line? (m.index a) = some l) :
    m.uart? l = d.uart? := by
  obtain ⟨name, start, bytes | ⟨d₁, n⟩ | ⟨i, n⟩⟩ := b
  · cases hDevice
  · cases hDevice
    obtain ⟨u, hu, rfl⟩ := Option.map_eq_some_iff.mp hLine
    rw [uart?, getElem?_index, hBlock]
    rfl
  · cases hDevice
    cases i <;> cases hLine
    rfl

theorem uart?_putDevice_own {name : Text} {start : Word} {d d' : Device} {n : Nat}
    (hBlock : m.block? a = some ⟨name, start, .device d n⟩) (k : Nat) :
    (m.putDevice a ⟨name, start, .device d n⟩ d').uart? (.own k) =
      if m.index a = k then d'.uart? else m.uart? (.own k) := by
  show ((updateFirst a _ m.blocks)[k]?).bind Block.uart? = _
  rw [getElem?_updateFirst]
  by_cases hk : m.index a = k
  · subst hk
    rw [getElem?_index, hBlock, if_pos rfl]
    show (if m.index a = m.index a then _ else _ : Block).uart? = _
    rw [if_pos rfl]
    rfl
  · have hSame : (fun b : Block => if m.index a = k then { b with backing := .device d' n } else b) =
        id := funext fun b => if_neg hk
    rw [if_neg hk]
    show (m.blocks[k]?.map fun b : Block =>
      if m.index a = k then { b with backing := .device d' n } else b).bind Block.uart? = _
    rw [hSame, Option.map_id]
    rfl

theorem uart?_putDevice {b : Block} {d d' : Device} (hBlock : m.block? a = some b)
    (hDevice : b.device? m.panel = some d) (hReset : d'.reset = d.reset) (l : Line) :
    (m.putDevice a b d').uart? l =
      if b.line? (m.index a) = some l then d'.uart? else m.uart? l := by
  have hSome := Device.isSome_uart?_of_reset_eq hReset
  obtain ⟨name, start, bytes | ⟨d₁, n⟩ | ⟨i, n⟩⟩ := b
  · cases hDevice
  · cases hDevice
    cases l with
    | panel =>
      rw [if_neg (by simp [Block.line?])]
      rfl
    | own k =>
      rw [uart?_putDevice_own hBlock]
      by_cases hk : m.index a = k
      · subst hk
        have hUart : m.uart? (.own (m.index a)) = d.uart? := by
          rw [uart?, getElem?_index, hBlock]
          rfl
        rw [if_pos rfl, hUart]
        cases hu : d.uart? with
        | some u => rw [if_pos (by simp [Block.line?, hu])]
        | none =>
          rw [hu, Option.isSome_none, Option.isSome_eq_false_iff, Option.isNone_iff_eq_none] at hSome
          rw [hSome, ite_self]
      · rw [if_neg hk, if_neg]
        simp [Block.line?, hk]
  · cases hDevice
    cases l with
    | own k =>
      rw [if_neg (by simp [Block.line?])]
      rfl
    | panel =>
      cases i <;> cases d' <;> first | rfl | cases hReset

theorem offset?_of_block? {b : Block} (hBlock : m.block? a = some b) (l : Line) :
    m.offset? l a = if b.line? (m.index a) = some l then some (b.offset a) else none := by
  rw [offset?, hBlock, Option.bind_some]

theorem map_after_nil (x : Option Uart) : x.map (·.after []) = x := by
  cases x <;> rfl

theorem map_after_append (x : Option Uart) (as as' : List Uart.Access) :
    (x.map (·.after as)).map (·.after as') = x.map (·.after (as ++ as')) := by
  cases x with
  | none => rfl
  | some d => simp [Uart.after]

theorem uart?_congr (hPanel : m'.panel.uart = m.panel.uart)
    (hBlocks : m'.blocks.map Block.uart? = m.blocks.map Block.uart?) (l : Line) :
    m'.uart? l = m.uart? l := by
  have hOwn : ∀ (m : Memory) (k : Nat), m.uart? (.own k) = (m.blocks.map Block.uart?)[k]?.bind id := by
    intro m k
    rw [List.getElem?_map, Option.bind_map]
    rfl
  cases l with
  | panel => exact congrArg some hPanel
  | own k => rw [hOwn, hOwn, hBlocks]

/-- A device that answered an access is put back as a line that answered the access. -/
theorem uart?_putDevice_access {b : Block} {d d' : Device} {x : Nat → Uart.Access}
    (hBlock : m.block? a = some b) (hDevice : b.device? m.panel = some d)
    (hReset : d'.reset = d.reset)
    (hAccess : d'.uart? = d.uart?.map (·.access (x (b.offset a)))) (l : Line) :
    (m.putDevice a b d').uart? l =
      (m.uart? l).map (·.after ((m.offset? l a).toList.map x)) := by
  rw [uart?_putDevice hBlock hDevice hReset, offset?_of_block? hBlock]
  by_cases hLine : b.line? (m.index a) = some l
  · rw [if_pos hLine, if_pos hLine, hAccess, uart?_of_line? hBlock hDevice hLine]
    rfl
  · rw [if_neg hLine, if_neg hLine, Option.toList_none, List.map_nil, map_after_nil]

theorem offset?_of_ram {b : Block} (hBlock : m.block? a = some b)
    (hDevice : b.device? m.panel = none) (l : Line) : m.offset? l a = none := by
  obtain ⟨bytes, hBytes⟩ := b.exists_bytes_of_device? hDevice
  rw [offset?_of_block? hBlock, if_neg]
  simp [Block.line?, hBytes]

theorem uart?_fetch (m : Memory) (l : Line) (a : Word) :
    (m.fetch a).2.uart? l = (m.uart? l).map (·.after ((m.offset? l a).toList.map .read)) := by
  cases hBlock : m.block? a with
  | none =>
    rw [offset?, hBlock, fetch, hBlock]
    exact (map_after_nil _).symm
  | some b =>
    cases hDevice : b.device? m.panel with
    | none =>
      rw [offset?_of_ram hBlock hDevice]
      simp only [fetch, hBlock, hDevice]
      exact (map_after_nil _).symm
    | some d =>
      rw [fetch_of_device hBlock hDevice]
      refine uart?_putDevice_access hBlock hDevice (reset_read d _) ?_ l
      cases d <;> rfl

theorem exists_block_of_offset? {o : Nat} {u : Uart} (ho : m.offset? l a = some o)
    (hu : m.uart? l = some u) :
    ∃ b, m.block? a = some b ∧ b.device? m.panel = some (.uart u) ∧ b.offset a = o := by
  obtain ⟨b, hBlock, hOffset⟩ := Option.bind_eq_some_iff.mp ho
  split at hOffset
  · next hLine =>
    cases hOffset
    refine ⟨b, hBlock, ?_, rfl⟩
    cases hDevice : b.device? m.panel with
    | none => cases (offset?_of_ram hBlock hDevice l).symm.trans ho
    | some d =>
      have hLineUart := uart?_of_line? hBlock hDevice hLine
      rw [hu] at hLineUart
      cases d <;> cases hLineUart
      rfl
  · cases hOffset

theorem fst_fetch {o : Nat} {u : Uart} (ho : m.offset? l a = some o) (hu : m.uart? l = some u) :
    (m.fetch a).1 = (u.read o).1 := by
  obtain ⟨b, hBlock, hDevice, rfl⟩ := exists_block_of_offset? ho hu
  rw [fetch_of_device hBlock hDevice]
  rfl

theorem peekByte_of_offset? {o : Nat} {u : Uart} (ho : m.offset? l a = some o)
    (hu : m.uart? l = some u) : m.peekByte a = .ok (u.peek o) := by
  obtain ⟨⟨name, start, backing⟩, hBlock, hDevice, rfl⟩ := exists_block_of_offset? ho hu
  rw [peekByte, hBlock]
  cases backing with
  | ram bytes => cases hDevice
  | device d n =>
    cases hDevice
    rfl
  | input i n =>
    cases i <;> cases hDevice
    rfl

theorem uart?_store (m : Memory) (l : Line) (a : Word) (v : Byte) :
    (m.store a v).1.uart? l =
      (m.uart? l).map (·.after ((m.offset? l a).toList.map (.write · v))) := by
  cases hBlock : m.block? a with
  | none =>
    rw [offset?, hBlock, store_of_block?_eq_none hBlock]
    exact (map_after_nil _).symm
  | some b =>
    cases hDevice : b.device? m.panel with
    | none =>
      obtain ⟨bytes, hBytes⟩ := b.exists_bytes_of_device? hDevice
      rw [offset?_of_ram hBlock hDevice, store_of_ram hBlock hBytes, Option.toList_none,
        List.map_nil, map_after_nil]
      apply uart?_congr
      · rfl
      apply map_updateFirst
      intro c hc
      cases hBlock.symm.trans hc
      simp only [Block.uart?, hBytes]
    | some d =>
      rw [store_of_device hBlock hDevice]
      refine uart?_putDevice_access hBlock hDevice (reset_write d _ v) ?_ l
      cases d <;> rfl

def reads (m : Memory) (l : Line) (as : List Word) : List Uart.Access :=
  (as.filterMap (m.offset? l)).map .read

def writes (m : Memory) (l : Line) (ss : List (Word × Byte)) : List Uart.Access :=
  ss.filterMap fun s => (m.offset? l s.1).map (.write · s.2)

theorem reads_cons (m : Memory) (l : Line) (a : Word) (as : List Word) :
    m.reads l (a :: as) = (m.offset? l a).toList.map .read ++ m.reads l as := by
  rw [reads, List.filterMap_cons]
  cases m.offset? l a <;> rfl

theorem writes_cons (m : Memory) (l : Line) (s : Word × Byte) (ss : List (Word × Byte)) :
    m.writes l (s :: ss) = (m.offset? l s.1).toList.map (.write · s.2) ++ m.writes l ss := by
  rw [writes, List.filterMap_cons]
  cases m.offset? l s.1 <;> rfl

theorem reads_congr (h : m'.blanks = m.blanks) (l : Line) (as : List Word) :
    m'.reads l as = m.reads l as := by
  rw [reads, reads, funext (offset?_congr h l)]

theorem writes_congr (h : m'.blanks = m.blanks) (l : Line) (ss : List (Word × Byte)) :
    m'.writes l ss = m.writes l ss := by
  simp only [writes, offset?_congr h l]

theorem uart?_fetchAll (m : Memory) (l : Line) (as : List Word) :
    (m.fetchAll as).2.uart? l = (m.uart? l).map (·.after (m.reads l as)) := by
  induction as generalizing m with
  | nil => exact (map_after_nil _).symm
  | cons a as ih =>
    show ((m.fetch a).2.fetchAll as).2.uart? l = _
    rw [ih, uart?_fetch, map_after_append, reads_cons, reads_congr (blanks_fetch m a)]

theorem uart?_storeAll (m : Memory) (l : Line) (ss : List (Word × Byte)) :
    (m.storeAll ss).1.uart? l = (m.uart? l).map (·.after (m.writes l ss)) := by
  induction ss generalizing m with
  | nil => exact (map_after_nil _).symm
  | cons s ss ih =>
    show ((m.store s.1 s.2).1.storeAll ss).1.uart? l = _
    rw [ih, uart?_store, map_after_append, writes_cons, writes_congr (blanks_store m s.1 s.2)]

/-- What a wide read gets from a line are the bytes that the line gives, in the same order. -/
theorem given_fetchAll {u : Uart} (hu : m.uart? l = some u) (as : List Word) :
    ((as.zip (m.fetchAll as).1).filterMap fun s => (m.offset? l s.1).map fun _ => s.2) =
      u.given (m.reads l as) := by
  -- every read may change the line for the next one, but not which line answers
  induction as generalizing m u with
  | nil => rfl
  | cons a as ih =>
    have hNext := uart?_fetch m l a
    have hCongr := offset?_congr (blanks_fetch m a) l
    show (((a, (m.fetch a).1) :: as.zip ((m.fetch a).2.fetchAll as).1).filterMap _) = _
    rw [List.filterMap_cons, reads_cons]
    rw [hu] at hNext
    have hRest := ih hNext
    rw [reads_congr (blanks_fetch m a), funext hCongr] at hRest
    cases ho : m.offset? l a with
    | none =>
      rw [ho] at hRest
      exact hRest
    | some o =>
      rw [ho] at hRest
      rw [show u.given _ = (u.read o).1 :: _ from rfl, ← fst_fetch ho hu]
      exact congrArg _ hRest

/-! ### Histories -/

/-- The accesses to a line that an operation makes. -/
def accesses (m : Memory) (l : Line) : Op → List Uart.Access
  | .read width a =>
    match m.checkMapped (accessed a width.bytes) with
    | .ok () => m.reads l (accessed a width.bytes)
    | .error _ => []
  | .write width a v =>
    match m.checkWritable (accessed a width.bytes) with
    | .ok () => m.writes l (stores width a v)
    | .error _ => []
  | .feedSerial c => if l = .panel then [.feed c] else []
  | _ => []

def traffic (m : Memory) (l : Line) : List Op → List Uart.Access
  | [] => []
  | o :: os => m.accesses l o ++ (m.apply o).1.traffic l os

theorem uart?_append {d : Uart} (hd : m.uart? l = some d) (bs : List Block) :
    ({ m with blocks := m.blocks ++ bs } : Memory).uart? l = some d := by
  cases l with
  | panel => exact hd
  | own k =>
    obtain ⟨b, hb, hUart⟩ := Option.bind_eq_some_iff.mp hd
    obtain ⟨hk, -⟩ := List.getElem?_eq_some_iff.mp hb
    rw [uart?, List.getElem?_append_left hk, hb]
    exact hUart

theorem uart?_copyImage (m : Memory) (l : Line) (start : Word) (image : Array Byte) :
    (m.copyImage start image).uart? l = m.uart? l := by
  apply uart?_congr
  · rfl
  apply map_updateFirst
  rintro ⟨name, start, bytes | ⟨d, n⟩ | ⟨i, n⟩⟩ - <;> rfl

theorem uart?_apply {d : Uart} (hd : m.uart? l = some d) {o : Op} (ho : o ≠ .reset) :
    (m.apply o).1.uart? l = some (d.after (m.accesses l o)) := by
  cases o with
  | read width a =>
    rw [apply, accesses, read]
    cases m.checkMapped (accessed a width.bytes) with
    | ok u => exact (uart?_fetchAll m l _).trans (congrArg _ hd)
    | error e => exact hd
  | write width a v =>
    rw [apply, accesses, write]
    cases m.checkWritable (accessed a width.bytes) with
    | ok u => exact (uart?_storeAll m l _).trans (congrArg _ hd)
    | error e => exact hd
  | loadImage start image =>
    rw [apply, loadImage]
    cases m.checkImage start image.size with
    | error e => exact hd
    | ok u => exact (uart?_copyImage m l start image).trans hd
  | reset => exact absurd rfl ho
  | addRam name start length =>
    rw [apply, addRam]
    cases m.checkRange start length with
    | ok u => exact uart?_append hd _
    | error e => exact hd
  | addDevice name start length d' =>
    rw [apply, addDevice]
    cases m.checkRange start length with
    | ok u => exact uart?_append hd _
    | error e => exact hd
  | notifyWrites on => exact (uart?_congr rfl rfl l).trans hd
  | toggleSwitch index =>
    rw [apply, toggleSwitch?]
    cases m.panel.switches.toggle? index with
    | some d' => exact (uart?_congr rfl rfl l).trans hd
    | none => exact hd
  | setButton index pressed =>
    rw [apply, setButton?]
    cases m.panel.buttons.set? index pressed with
    | some d' => exact (uart?_congr rfl rfl l).trans hd
    | none => exact hd
  | feedSerial c =>
    cases l with
    | panel =>
      cases hd
      rfl
    | own k => exact hd

theorem uart?_after {d : Uart} (hd : m.uart? l = some d) {os : List Op} (hos : .reset ∉ os) :
    (m.after os).uart? l = some (d.after (m.traffic l os)) := by
  induction os generalizing m d with
  | nil => exact hd
  | cons o os ih =>
    rw [List.mem_cons, not_or] at hos
    have hNext := uart?_apply hd (Ne.symm hos.1)
    rw [traffic, Uart.after, List.foldl_append]
    exact ih hNext hos.2

def fedSerial (os : List Op) : List Byte :=
  os.filterMap fun
    | .feedSerial c => some c
    | _ => none

theorem fed_reads (m : Memory) (l : Line) (as : List Word) : Uart.fed (m.reads l as) = [] := by
  simp [reads, Uart.fed, List.filterMap_map]

theorem fed_writes (m : Memory) (l : Line) (ss : List (Word × Byte)) :
    Uart.fed (m.writes l ss) = [] := by
  rw [Uart.fed, List.filterMap_eq_nil_iff]
  intro x hx
  obtain ⟨s, -, hs⟩ := List.mem_filterMap.mp hx
  obtain ⟨o, -, rfl⟩ := Option.map_eq_some_iff.mp hs
  rfl

theorem fed_accesses (m : Memory) (l : Line) (o : Op) :
    Uart.fed (m.accesses l o) = if l = .panel then fedSerial [o] else [] := by
  cases o with
  | read width a =>
    rw [accesses]
    split
    · rw [fed_reads]; exact (ite_self _).symm
    · exact (ite_self _).symm
  | write width a v =>
    rw [accesses]
    split
    · rw [fed_writes]; exact (ite_self _).symm
    · exact (ite_self _).symm
  | feedSerial c =>
    rw [accesses]
    split <;> rfl
  | _ => exact (ite_self _).symm

theorem fed_traffic (m : Memory) (l : Line) (os : List Op) :
    Uart.fed (m.traffic l os) = if l = .panel then fedSerial os else [] := by
  induction os generalizing m with
  | nil => exact (ite_self _).symm
  | cons o os ih =>
    rw [traffic, Uart.fed, List.filterMap_append]
    show Uart.fed (m.accesses l o) ++ Uart.fed _ = _
    rw [fed_accesses, ih]
    split
    · exact (List.filterMap_append (l := [o])).symm
    · rfl

theorem uart_resetInputs {p : Panel} {bs : List Block}
    (h : p.uart = Uart.new ∨ ∃ b ∈ bs, ∃ k, b.line? k = some .panel) :
    (resetInputs p bs).uart = Uart.new := by
  induction bs generalizing p with
  | nil =>
    rcases h with hNew | ⟨b, hb, -⟩
    · exact hNew
    · cases hb
  | cons b bs ih =>
    apply ih
    rcases h with hNew | ⟨c, hc, hLine⟩
    · left
      obtain ⟨name, start, bytes | ⟨d, n⟩ | ⟨_ | _ | _, n⟩⟩ := b
      · exact hNew
      · exact hNew
      · exact hNew
      · exact hNew
      · rfl
    rcases List.mem_cons.mp hc with rfl | hc
    · left
      obtain ⟨name, start, bytes | ⟨d, n⟩ | ⟨_ | _ | _, n⟩⟩ := c <;>
        simp [Block.line?] at hLine
      rfl
    · exact .inr ⟨c, hc, hLine⟩

/-- A reset clears every line that answers for an address. -/
theorem uart?_reset {d : Uart} (hd : m.uart? l = some d) {o : Nat} (ho : m.offset? l a = some o) :
    m.reset.uart? l = some Uart.new := by
  cases l with
  | panel =>
    obtain ⟨b, hBlock, hOffset⟩ := Option.bind_eq_some_iff.mp ho
    split at hOffset
    · next hLine =>
      exact congrArg some (uart_resetInputs (.inr ⟨b, List.mem_of_find?_eq_some hBlock, _, hLine⟩))
    · cases hOffset
  | own k =>
    obtain ⟨⟨name, start, backing⟩, hb, hUart⟩ := Option.bind_eq_some_iff.mp hd
    rw [uart?, reset, List.getElem?_map, hb]
    obtain bytes | ⟨_ | _ | _ | d', n⟩ | ⟨i, n⟩ := backing <;> cases hUart
    rfl

theorem exists_bytes_of_read {d : Uart} (hd : m.uart? l = some d) {width : Width} {a w : Word}
    (hRead : m.read width a = .ok (w, m')) :
    ∃ bytes, w = Word.ofBytes bytes ∧ bytes.length = width.bytes ∧
      (((accessed a width.bytes).zip bytes).filterMap fun s =>
        (m.offset? l s.1).map fun _ => s.2) = d.given (m.accesses l (.read width a)) := by
  rw [read] at hRead
  rw [accesses]
  cases hMapped : m.checkMapped (accessed a width.bytes) with
  | error e =>
    rw [hMapped] at hRead
    cases hRead
  | ok u =>
    rw [hMapped] at hRead
    cases hRead
    refine ⟨_, rfl, ?_, given_fetchAll hd _⟩
    rw [length_fetchAll, accessed, List.length_map, List.length_range]

/-- A serial line loses no character, doubles none and keeps their order. First, what an access does
in every state that accesses lead to since power-on or a reset, and what a run of them adds up to.
Then, that memory makes of its operations such runs: for every line behind it, what is read, peeked,
written and fed, and that a reset begins anew. -/
theorem serial_line_is_queue :
    (∀ as : List Uart.Access, (Uart.new.after as).Delivers ((Uart.fed as).getLastD 0)) ∧
      (∀ as : List Uart.Access, Uart.new.taken as ++ (Uart.new.after as).waiting = Uart.fed as) ∧
      ∀ (m : Memory) (l : Line) (d : Uart), m.uart? l = some d →
        (∀ os : List Op, .reset ∉ os →
          (m.after os).uart? l = some (d.after (m.traffic l os)) ∧
            Uart.fed (m.traffic l os) = (if l = .panel then fedSerial os else []) ∧
            d.taken (m.traffic l os) ++ (d.after (m.traffic l os)).waiting =
              d.waiting ++ Uart.fed (m.traffic l os)) ∧
        (∀ (width : Width) (a w : Word) (m' : Memory), m.read width a = .ok (w, m') →
          ∃ bytes, w = Word.ofBytes bytes ∧ bytes.length = width.bytes ∧
            (((accessed a width.bytes).zip bytes).filterMap fun s =>
              (m.offset? l s.1).map fun _ => s.2) = d.given (m.accesses l (.read width a))) ∧
        ∀ (a : Word) (o : Nat), m.offset? l a = some o →
          m.peekByte a = .ok (d.peek o) ∧ m.reset.uart? l = some Uart.new := by
  refine ⟨?_, Uart.taken_append_waiting Uart.new, ?_⟩
  · intro as
    exact Uart.last_after Uart.new as ▸ (Uart.new.after as).delivers
  intro m l d hd
  refine ⟨?_, ?_, ?_⟩
  · intro os hos
    exact ⟨uart?_after hd hos, fed_traffic m l os, Uart.taken_append_waiting d _⟩
  · intro width a w m' hRead
    exact exists_bytes_of_read hd hRead
  · intro a o ho
    exact ⟨peekByte_of_offset? ho hd, uart?_reset hd ho⟩

/-! ### On the board -/

variable {bytes : Array Byte}

theorem offset?_uartStart (hSize : bytes.size = Board.ramSize) (u : Uart)
    (ha : a ∈ accessed Board.uartStart 4) :
    (board bytes u).offset? .panel a = some (a - Board.uartStart).toNat := by
  rw [offset?_of_block? (block?_uartStart hSize u ha), if_pos]
  · rfl
  · simp [Block.line?]

theorem accesses_half_uartStart (hSize : bytes.size = Board.ramSize) (u : Uart) :
    (board bytes u).accesses .panel (.read .half Board.uartStart) = [.read 0, .read 1] := by
  have hStart : Board.uartStart ∈ accessed Board.uartStart 4 := by decide
  have hNext : Board.uartStart + 1 ∈ accessed Board.uartStart 4 := by decide
  have hAccessed : accessed Board.uartStart Width.half.bytes =
      [Board.uartStart, Board.uartStart + 1] := rfl
  have hMapped : (board bytes u).checkMapped [Board.uartStart, Board.uartStart + 1] = .ok () := by
    apply checkMapped_eq_ok
    intro a ha
    rw [List.mem_pair] at ha
    rw [isMapped_eq_isSome]
    rcases ha with rfl | rfl
    · rw [block?_uartStart hSize u hStart, Option.isSome_some]
    · rw [block?_uartStart hSize u hNext, Option.isSome_some]
  rw [accesses, hAccessed, hMapped]
  simp only [reads_cons, offset?_uartStart hSize u hStart, offset?_uartStart hSize u hNext]
  rfl

/-- Two characters, and a read of half a word that takes the first. -/
def greeting : List Op :=
  [.feedSerial 0x6f, .feedSerial 0x6b, .read .half Board.uartStart]

theorem traffic_greeting :
    standard.traffic .panel greeting = [.feed 0x6f, .feed 0x6b, .read 0, .read 1] := by
  have hFed : (standard.apply (.feedSerial 0x6f)).1.apply (.feedSerial 0x6b) =
      (board (Array.replicate Board.ramSize 0) ⟨0, false, [0x6f, 0x6b]⟩, []) := rfl
  rw [greeting, traffic, traffic, traffic, traffic, hFed,
    accesses_half_uartStart Array.size_replicate]
  rfl

theorem serial_line_is_queue_greeting :
    standard.uart? .panel = some Uart.new ∧ Op.reset ∉ greeting ∧
      (standard.after greeting).uart? .panel = some ⟨0x6b, true, []⟩ ∧
      Uart.new.taken (standard.traffic .panel greeting) = [0x6f] ∧
      Uart.fed (standard.traffic .panel greeting) = [0x6f, 0x6b] := by
  have hStandard : standard.uart? .panel = some Uart.new := rfl
  have hNoReset : Op.reset ∉ greeting := by simp [greeting]
  obtain ⟨-, -, hMemory⟩ := serial_line_is_queue
  obtain ⟨hAfter, hFed, -⟩ := (hMemory standard .panel Uart.new hStandard).1 greeting hNoReset
  rw [hFed, hAfter, traffic_greeting]
  exact ⟨hStandard, hNoReset, rfl, rfl, rfl⟩

end Memory

end NiosBoard
