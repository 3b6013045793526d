import Mathlib
import NiosBoard.Proofs.Lists
import NiosBoard.Proofs.Machine.Session

/-! # The memory map

Containment is tested with a difference that wraps, and overlap at the two first addresses only.
For blocks that end inside the address space these tests decide whether an address lies in an
interval and whether two intervals meet. Every map that operations lead to is made of such blocks,
each apart from the others, so no address has two blocks that could answer for it.
-/

namespace NiosBoard

namespace Place

/-- The addresses of a place, as numbers. -/
def addresses (p : Place) : Set Nat := Set.Ico p.start.toNat (p.start.toNat + p.length)

/-- Not empty, and the last address is in the address space. -/
structure Fits (p : Place) : Prop where
  pos : 0 < p.length
  le : p.start.toNat + p.length ≤ 2 ^ 32

variable {p q : Place}

theorem Fits.contains_iff (h : p.Fits) (a : Word) : p.contains a = true ↔ a.toNat ∈ p.addresses := by
  have hLe := h.le
  have ha := a.isLt
  rw [contains, decide_eq_true_iff, BitVec.toNat_sub, addresses, Set.mem_Ico]
  omega

/-- Of two intervals that meet, one contains the first element of the other. -/
theorem not_disjoint_addresses_iff (hp : 0 < p.length) (hq : 0 < q.length) :
    ¬ Disjoint p.addresses q.addresses ↔
      q.start.toNat ∈ p.addresses ∨ p.start.toNat ∈ q.addresses := by
  simp only [addresses, Set.Ico_disjoint_Ico, Set.mem_Ico]
  omega

theorem Fits.overlap_iff (hp : p.Fits) (hq : q.Fits) :
    (p.contains q.start || q.contains p.start) = true ↔ ¬ Disjoint p.addresses q.addresses := by
  rw [Bool.or_eq_true, hp.contains_iff, hq.contains_iff, not_disjoint_addresses_iff hp.pos hq.pos]

end Place

namespace Memory

variable {m : Memory}

/-- Every block is not empty and inside the address space, and no two share an address. -/
structure WellFormed (m : Memory) : Prop where
  fits : ∀ p ∈ m.places, p.Fits
  disjoint : m.places.Pairwise fun p q => Disjoint p.addresses q.addresses

/-- No block has an address of the place. -/
def ClearOf (m : Memory) (p : Place) : Prop := ∀ q ∈ m.places, Disjoint q.addresses p.addresses

/-! ### Adding a block -/

theorem fits_iff_not_or (p : Place) : p.Fits ↔ ¬ (p.length = 0 ∨ 1 <<< 32 < p.start.toNat + p.length) := by
  have hPow : 1 <<< 32 = 2 ^ 32 := rfl
  constructor
  · rintro ⟨hPos, hLe⟩
    omega
  · intro h
    exact ⟨by omega, by omega⟩

theorem any_overlap_iff (h : m.WellFormed) {p : Place} (hp : p.Fits) :
    m.blocks.any (·.overlaps p.start p.length) = true ↔ ¬ m.ClearOf p := by
  have hPlaces : m.blocks.any (·.overlaps p.start p.length) =
      m.places.any fun q => q.contains p.start || p.contains q.start := by
    rw [places, List.any_map]
    rfl
  rw [hPlaces, List.any_eq_true, ClearOf]
  push Not
  refine exists_congr fun q => and_congr_right fun hq => ?_
  exact (h.fits q hq).overlap_iff hp

/-- The outcomes of the check of a place. They exclude each other. -/
theorem checkRange_iff (h : m.WellFormed) (p : Place) :
    (m.checkRange p.start p.length = .ok () ↔ p.Fits ∧ m.ClearOf p) ∧
      (m.checkRange p.start p.length = .error ⟨p.start, .tooLarge⟩ ↔ ¬ p.Fits) ∧
      (m.checkRange p.start p.length = .error ⟨p.start, .overlap⟩ ↔ p.Fits ∧ ¬ m.ClearOf p) := by
  unfold checkRange
  split
  · next hRange =>
    have hFits : ¬ p.Fits := fun hFits => (fits_iff_not_or p).mp hFits hRange
    simp [hFits]
  next hRange =>
  have hFits : p.Fits := (fits_iff_not_or p).mpr hRange
  split
  · next hOverlap => simp [hFits, (any_overlap_iff h hFits).mp hOverlap]
  · next hOverlap =>
    have hClear : m.ClearOf p := by
      by_contra hClear
      exact hOverlap ((any_overlap_iff h hFits).mpr hClear)
    simp [hFits, hClear]

/-- What becomes of a block that is to be added at a place: one of three, as the place demands. -/
structure Registers (m : Memory) (p : Place) (b : Block) (result : Except MemoryError Memory) :
    Prop where
  ok_iff : result = .ok { m with blocks := m.blocks ++ [b] } ↔ p.Fits ∧ m.ClearOf p
  tooLarge_iff : result = .error ⟨p.start, .tooLarge⟩ ↔ ¬ p.Fits
  overlap_iff : result = .error ⟨p.start, .overlap⟩ ↔ p.Fits ∧ ¬ m.ClearOf p
  kept : ¬ (p.Fits ∧ m.ClearOf p) → result.toOption.getD m = m

theorem WellFormed.registers (h : m.WellFormed) (p : Place) (b : Block) :
    Registers m p b (m.checkRange p.start p.length >>= fun _ =>
      .ok { m with blocks := m.blocks ++ [b] }) := by
  obtain ⟨hOk, hTooLarge, hOverlap⟩ := checkRange_iff h p
  cases hCheck : m.checkRange p.start p.length with
  | ok u =>
    rw [hCheck] at hOk hTooLarge hOverlap
    exact ⟨⟨fun _ => hOk.mp rfl, fun _ => rfl⟩, ⟨nofun, fun hn => nomatch hTooLarge.mpr hn⟩,
      ⟨nofun, fun hn => nomatch hOverlap.mpr hn⟩, fun hn => absurd (hOk.mp rfl) hn⟩
  | error e =>
    rw [hCheck] at hOk
    rw [hCheck, Except.error.injEq] at hTooLarge hOverlap
    refine ⟨⟨nofun, fun hn => nomatch hOk.mpr hn⟩, ?_, ?_, fun _ => rfl⟩
    · exact (Except.error.injEq ..).to_iff.trans hTooLarge
    · exact (Except.error.injEq ..).to_iff.trans hOverlap

theorem Registers.of_eq_ok {p : Place} {b : Block} {x : Except MemoryError Memory} {m' : Memory}
    (h : Registers m p b x) (hx : x = .ok m') : p.Fits ∧ m.ClearOf p := by
  by_contra hNot
  rw [Classical.not_and_iff_not_or_not] at hNot
  subst hx
  by_cases hFits : p.Fits
  · have hClear : ¬ m.ClearOf p := hNot.resolve_left (not_not_intro hFits)
    exact nomatch h.overlap_iff.mpr ⟨hFits, hClear⟩
  · exact nomatch h.tooLarge_iff.mpr hFits

theorem WellFormed.addRam (h : m.WellFormed) (name : Text) (start : Word) (length : Nat) :
    Registers m ⟨start, length, true⟩ ⟨name, start, .ram (Array.replicate length 0)⟩
      (m.addRam name start length) := h.registers ⟨start, length, true⟩ _

theorem WellFormed.addDevice (h : m.WellFormed) (name : Text) (start : Word) (length : Nat)
    (d : Device) :
    Registers m ⟨start, length, false⟩ ⟨name, start, .device d length⟩
      (m.addDevice name start length d) := h.registers ⟨start, length, false⟩ _

/-! ### Histories -/

theorem places_apply (m : Memory) (o : Op) :
    (m.apply o).1.places = m.places ++ ((m.registers? o).map Block.place).toList := by
  rw [places_eq_map_blanks, blanks_apply, List.map_append, ← places_eq_map_blanks]
  cases m.registers? o with
  | none => rfl
  | some b => exact congrArg (m.places ++ [·]) (place_reset b)

/-- An operation registers only what fits and is clear of all other blocks. -/
theorem WellFormed.of_registers? (h : m.WellFormed) {o : Op} {b : Block}
    (hb : m.registers? o = some b) : b.place.Fits ∧ m.ClearOf b.place := by
  cases o with
  | addRam name start length =>
    obtain ⟨m', hAdd, rfl⟩ := Option.map_eq_some_iff.mp hb
    have hPlace : Block.place ⟨name, start, .ram (Array.replicate length 0)⟩ =
        ⟨start, length, true⟩ := by
      simp [Block.place, Block.length, Block.isDevice]
    rw [hPlace]
    exact (h.addRam name start length).of_eq_ok (toOption_eq_some_iff.mp hAdd)
  | addDevice name start length d =>
    obtain ⟨m', hAdd, rfl⟩ := Option.map_eq_some_iff.mp hb
    exact (h.addDevice name start length d).of_eq_ok (toOption_eq_some_iff.mp hAdd)
  | _ => cases hb

theorem WellFormed.apply (h : m.WellFormed) (o : Op) : (m.apply o).1.WellFormed := by
  have hPlaces := places_apply m o
  cases hb : m.registers? o with
  | none =>
    rw [hb, Option.map_none, Option.toList_none, List.append_nil] at hPlaces
    exact ⟨hPlaces ▸ h.fits, hPlaces ▸ h.disjoint⟩
  | some b =>
    rw [hb, Option.map_some, Option.toList_some] at hPlaces
    obtain ⟨hFits, hClear⟩ := h.of_registers? hb
    constructor
    · rw [hPlaces, List.forall_mem_append]
      exact ⟨h.fits, List.forall_mem_singleton.mpr hFits⟩
    · rw [hPlaces, List.pairwise_append]
      refine ⟨h.disjoint, List.pairwise_singleton .., fun p hp q hq => ?_⟩
      rw [List.mem_singleton.mp hq]
      exact hClear p hp

theorem WellFormed.of_blanks {m' : Memory} (h : m.WellFormed) (hBlanks : m'.blanks = m.blanks) :
    m'.WellFormed := by
  have hPlaces : m'.places = m.places := by
    rw [places_eq_map_blanks, hBlanks, ← places_eq_map_blanks]
  exact ⟨hPlaces ▸ h.fits, hPlaces ▸ h.disjoint⟩

theorem empty_wellFormed : empty.WellFormed := ⟨nofun, .nil⟩

theorem places_standard : standard.places =
    [⟨Board.ramStart, Board.ramSize, true⟩, ⟨Board.ledsStart, Board.deviceSize, false⟩,
      ⟨Board.switchesStart, Board.deviceSize, false⟩,
      ⟨Board.buttonsStart, Board.deviceSize, false⟩,
      ⟨Board.uartStart, Board.deviceSize, false⟩] := by
  simp [places, standard, Block.place, Block.length, Block.isDevice]

theorem standard_wellFormed : standard.WellFormed := by
  constructor
  · rw [places_standard]
    simp only [List.forall_mem_cons]
    refine ⟨⟨?_, ?_⟩, ⟨?_, ?_⟩, ⟨?_, ?_⟩, ⟨?_, ?_⟩, ⟨?_, ?_⟩, nofun⟩ <;> decide
  · rw [places_standard]
    simp only [Place.addresses, Set.Ico_disjoint_Ico]
    decide

/-- The places that operations register, in order. -/
def registered (m : Memory) : List Op → List Place
  | [] => []
  | o :: os => ((m.registers? o).map Block.place).toList ++ (m.apply o).1.registered os

theorem places_after (m : Memory) (os : List Op) :
    (m.after os).places = m.places ++ m.registered os := by
  induction os generalizing m with
  | nil => exact (List.append_nil _).symm
  | cons o os ih =>
    show ((m.apply o).1.after os).places = _
    rw [ih, places_apply, registered, List.append_assoc]

theorem WellFormed.after (h : m.WellFormed) (os : List Op) : (m.after os).WellFormed := by
  induction os generalizing m with
  | nil => exact h
  | cons o os ih => exact ih (h.apply o)

/-! ### The block that answers -/

theorem WellFormed.contains_iff (h : m.WellFormed) {b : Block} (hb : b ∈ m.blocks) (a : Word) :
    b.contains a = true ↔ a.toNat ∈ b.place.addresses :=
  (h.fits b.place (List.mem_map_of_mem hb)).contains_iff a

theorem WellFormed.pairwise_blocks (h : m.WellFormed) (a : Word) :
    m.blocks.Pairwise fun b c => ¬ (b.contains a = true ∧ c.contains a = true) := by
  refine (List.pairwise_map.mp h.disjoint).imp_of_mem ?_
  rintro b c hb hc hDisjoint ⟨hContains, hContains'⟩
  rw [h.contains_iff hb] at hContains
  rw [h.contains_iff hc] at hContains'
  exact Set.disjoint_left.mp hDisjoint hContains hContains'

/-- Whichever block contains an address is the one that answers. -/
theorem WellFormed.block?_eq (h : m.WellFormed) {a : Word} {b : Block} (hb : b ∈ m.blocks)
    (hContains : b.contains a = true) : m.block? a = some b := by
  have hPairwise := h.pairwise_blocks a
  obtain ⟨before, rest, hSplit⟩ := List.append_of_mem hb
  rw [hSplit, List.pairwise_append] at hPairwise
  have hNone : before.find? (·.contains a) = none := by
    rw [List.find?_eq_none]
    intro c hc hBefore
    exact hPairwise.2.2 c hc b List.mem_cons_self ⟨hBefore, hContains⟩
  rw [block?, hSplit, List.find?_append, hNone, Option.none_or, List.find?_cons_of_pos]
  exact hContains

theorem WellFormed.offset_eq (h : m.WellFormed) {a : Word} {b : Block} (hb : m.block? a = some b) :
    b.offset a = a.toNat - b.start.toNat := by
  have hInside := (h.contains_iff (List.mem_of_find?_eq_some hb) a).mp (contains_of_block? hb)
  exact BitVec.toNat_sub_of_le (BitVec.le_def.mpr hInside.1)

theorem size_of_getElem?_places {k : Nat} {p : Place} {b : Block} {bytes : Array Byte}
    (hp : m.places[k]? = some p) (hb : m.blocks[k]? = some b) (hBytes : b.backing = .ram bytes) :
    bytes.size = p.length := by
  rw [places, List.getElem?_map, hb, Option.map_some, Option.some.injEq] at hp
  subst hp
  simp only [Block.place, Block.length, hBytes]

/-- What holds of every memory that operations make of no blocks at all or of the board. The blocks
are those registered, each as long as it was registered, and RAM has a byte for each of its
addresses. They are not empty, inside the address space and apart from each other, so that the order
they were registered in does not matter. A block can be added exactly where there is room. -/
theorem memory_map_well_formed {m₀ m : Memory} {os : List Op} (h₀ : m₀ = empty ∨ m₀ = standard)
    (hm : m = m₀.after os) :
    m.WellFormed ∧ m.places = m₀.places ++ m₀.registered os ∧
      (∀ (k : Nat) (p : Place) (b : Block) (bytes : Array Byte),
        (m₀.places ++ m₀.registered os)[k]? = some p → m.blocks[k]? = some b →
        b.backing = .ram bytes → bytes.size = p.length) ∧
      (∀ b ∈ m.blocks, ∀ a, b.contains a = true ↔ a.toNat ∈ b.place.addresses) ∧
      (∀ a, m.blocks.countP (·.contains a) ≤ 1 ∧
        ∀ bs : List Block, bs.Perm m.blocks → bs.find? (·.contains a) = m.block? a) ∧
      (∀ (a : Word) (b : Block) (bytes : Array Byte), m.block? a = some b → b.backing = .ram bytes →
        b.offset a = a.toNat - b.start.toNat ∧ b.offset a < bytes.size) ∧
      (∀ name start length,
        Registers m ⟨start, length, true⟩ ⟨name, start, .ram (Array.replicate length 0)⟩
          (m.addRam name start length)) ∧
      ∀ name start length d,
        Registers m ⟨start, length, false⟩ ⟨name, start, .device d length⟩
          (m.addDevice name start length d) := by
  have hStart : m₀.WellFormed := by
    rcases h₀ with rfl | rfl
    · exact empty_wellFormed
    · exact standard_wellFormed
  subst hm
  have h := hStart.after os
  have hPlaces := places_after m₀ os
  refine ⟨h, hPlaces, fun k p b bytes hp hb hBytes => ?_, fun b hb => h.contains_iff hb,
    fun a => ⟨?_, fun bs hbs => ?_⟩, fun a b bytes hb hBytes => ⟨h.offset_eq hb, ?_⟩,
    h.addRam, h.addDevice⟩
  · exact size_of_getElem?_places (hPlaces ▸ hp) hb hBytes
  · exact countP_le_one (h.pairwise_blocks a)
  · exact find?_eq_of_perm (countP_le_one (h.pairwise_blocks a)) hbs
  · have hContains := contains_of_block? hb
    rw [Block.contains, decide_eq_true_iff] at hContains
    simpa only [Block.length, hBytes] using hContains

/-- RAM that ends with the address space. -/
def high : Place := ⟨0xffffff00, 0x100, true⟩

theorem clearOf_high : standard.ClearOf high := by
  rw [ClearOf, places_standard]
  simp only [List.forall_mem_cons, Place.addresses, Set.Ico_disjoint_Ico]
  refine ⟨?_, ?_, ?_, ?_, ?_, nofun⟩ <;> decide

/-- Above the block that ends with the address space there is no room, and none within it. -/
theorem memory_map_well_formed_high :
    ∃ m, m = standard.after [.addRam "high".toList 0xffffff00 0x100] ∧ m.WellFormed ∧
      m.places = standard.places ++ [high] ∧
      m.addRam "clash".toList 0xfffffff0 0x10 = .error ⟨0xfffffff0, .overlap⟩ ∧
      m.addDevice "past".toList 0xfffffff0 0x11 (.leds Leds.new) =
        .error ⟨0xfffffff0, .tooLarge⟩ := by
  have hStandard : standard = standard.after [] := rfl
  obtain ⟨-, -, -, -, -, -, hAddRam, -⟩ := memory_map_well_formed (.inr rfl) hStandard
  have hAdd := (hAddRam "high".toList 0xffffff00 0x100).ok_iff.mpr ⟨⟨by decide, by decide⟩, clearOf_high⟩
  have hRegistered : standard.registered [.addRam "high".toList 0xffffff00 0x100] = [high] := by
    rw [registered, registers?, hAdd]
    simp [registered, Except.toOption, Block.place, Block.length, Block.isDevice, high]
  obtain ⟨hWell, hPlaces, -, -, -, -, hRam, hDevice⟩ := memory_map_well_formed (.inr rfl)
    (rfl : standard.after [.addRam "high".toList 0xffffff00 0x100] = _)
  rw [hRegistered] at hPlaces
  refine ⟨_, rfl, hWell, hPlaces, ?_, ?_⟩
  · refine (hRam "clash".toList 0xfffffff0 0x10).overlap_iff.mpr ⟨⟨by decide, by decide⟩, ?_⟩
    intro hClear
    have hHigh := hClear high (hPlaces ▸ List.mem_append_right _ List.mem_cons_self)
    rw [Place.addresses, Place.addresses, Set.Ico_disjoint_Ico] at hHigh
    exact absurd hHigh (by decide)
  · refine (hDevice "past".toList 0xfffffff0 0x11 _).tooLarge_iff.mpr ?_
    rintro ⟨-, hLe⟩
    exact absurd hLe (by decide)

end Memory

namespace Machine

variable {m : Machine}

theorem wellFormed_apply (hm : m.memory.WellFormed) (o : Op) : (m.apply o).memory.WellFormed := by
  rcases apply_cases m o with hSteady | ⟨p, entry, rfl⟩ | rfl | ⟨mo, rfl⟩
  · exact hm.of_blanks hSteady.blanks
  · exact hm.of_blanks (blanks_left_loadAt p entry m)
  · exact hm.of_blanks (blanks_left_reset m)
  · exact hm.apply mo

theorem Reachable.wellFormed (h : Reachable m) : m.memory.WellFormed := by
  induction h with
  | refl => exact Memory.standard_wellFormed
  | op _ o ih => exact wellFormed_apply ih o

end Machine

namespace Memory

variable {m : Memory}

/-- Operations lead to the memory: those of a machine in some session, or its own, on no blocks at
all or on the board. -/
inductive Reached : Memory → Prop
  | empty (os : List Op) : Reached (empty.after os)
  | standard (os : List Op) : Reached (standard.after os)
  | machine {m : Machine} (h : m.Reachable) : Reached m.memory

theorem Reached.wellFormed (h : m.Reached) : m.WellFormed := by
  cases h with
  | empty os => exact empty_wellFormed.after os
  | standard os => exact standard_wellFormed.after os
  | machine hReachable => exact hReachable.wellFormed

theorem WellFormed.block?_eq_some_iff (h : m.WellFormed) {a : Word} {b : Block} :
    m.block? a = some b ↔ b ∈ m.blocks ∧ a.toNat ∈ b.place.addresses := by
  constructor
  · intro hBlock
    have hb := List.mem_of_find?_eq_some hBlock
    exact ⟨hb, (h.contains_iff hb a).mp (contains_of_block? hBlock)⟩
  · rintro ⟨hb, ha⟩
    exact h.block?_eq hb ((h.contains_iff hb a).mpr ha)

end Memory

end NiosBoard
