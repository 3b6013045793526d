import NiosBoard.Proofs.Assembly.Image
import NiosBoard.Proofs.Assembly.SourceLines

/-! # The line table

The table names for every instruction the line of the source whose reading added it, in the order of
addresses. What a line adds, of itself or through macros that call each other, is numbered by that
line: a line inside the body of a macro adds nothing where it stands, and the line of a call adds
all that the body says.
-/

namespace NiosBoard

open Text

namespace Draft

variable {d d' d₁ : Draft} {line : Nat} {t raw : Text}

/-- The second draft has more instructions than the first, all of this line. -/
def Adds (line : Nat) (d d' : Draft) : Prop :=
  ∃ added, d'.code.toList = d.code.toList ++ added ∧ ∀ p ∈ added, p.line = line

theorem Adds.of_code_eq (line : Nat) (h : d'.code = d.code) : Adds line d d' :=
  ⟨[], by rw [h, List.append_nil], nofun⟩

theorem Adds.trans (h : Adds line d d₁) (h' : Adds line d₁ d') : Adds line d d' := by
  obtain ⟨added, hCode, hLines⟩ := h
  obtain ⟨added', hCode', hLines'⟩ := h'
  refine ⟨added ++ added', by rw [hCode', hCode, List.append_assoc], ?_⟩
  intro p hp
  rcases List.mem_append.mp hp with hp | hp
  · exact hLines p hp
  · exact hLines' p hp

/-- A call adds what its body adds, and all of that is of the line of the call. -/
theorem adds_of_statement {nesting : Nat} (h : d.statement nesting line t = .ok d') :
    Adds line d d' := by
  refine related_of_statement (R := Adds line) (fun _ => .of_code_eq line rfl) Adds.trans ?_ ?_ ?_ h
  · exact fun h => .of_code_eq line (keeps_of_defineLabel h).code
  · exact fun h => .of_code_eq line (keeps_of_directive h).code
  · intro d d' name operands h
    obtain ⟨-, p, hCode, hLine⟩ := appended_of_appendInstruction h
    exact ⟨[p], by rw [hCode, Array.toList_push], by simpa using hLine⟩

theorem adds_of_readLine (h : d.readLine line raw = .ok d') : Adds line d d' :=
  (code_eq_or_statement_of_readLine h).elim (.of_code_eq line) adds_of_statement

theorem getElem?_code_of_size_lt (h : d.code.toList <+: d'.code.toList) {i : Nat}
    (hi : i < d.code.size) : d'.code[i]? = d.code[i]? := by
  obtain ⟨added, hCode⟩ := h
  rw [← Array.getElem?_toList, ← hCode, List.getElem?_append_left (by simpa using hi),
    Array.getElem?_toList]

theorem Adds.line_eq (h : Adds line d d') {i : Nat} (hi : d.code.size ≤ i) {p : Pending}
    (hp : d'.code[i]? = some p) : p.line = line := by
  obtain ⟨added, hCode, hLines⟩ := h
  rw [← Array.getElem?_toList, hCode, List.getElem?_append_right (by simpa using hi)] at hp
  exact hLines p (List.mem_of_getElem? hp)

/-! ### Lines and what they add -/

/-- Of lines that are read from `d` on, the first of them by the number `first`, the one numbered
`line` adds instruction number `i`. -/
def LineAdds (first : Nat) (raws : List Text) (d : Draft) (line i : Nat) : Prop :=
  ∃ before raw after d₁ d₂,
    raws = before ++ raw :: after ∧ line = first + before.length ∧
      readLines first before d = .ok d₁ ∧ d₁.ended = false ∧
      d₁.readLine line raw = .ok d₂ ∧ d₁.code.size ≤ i ∧ i < d₂.code.size

variable {first i : Nat} {raws : List Text}

theorem readLines_append_cons {before after : List Text}
    (h : readLines first (before ++ raw :: after) d = .ok d')
    (hBefore : readLines first before d = .ok d₁) (hRunning : d₁.ended = false) :
    ∃ d₂, d₁.readLine (first + before.length) raw = .ok d₂ ∧ d₂.code.toList <+: d'.code.toList := by
  rw [readLines_append hBefore hRunning, readLines] at h
  obtain ⟨d₂, hLine, h⟩ := bind_eq_ok_iff.mp h
  refine ⟨d₂, hLine, ?_⟩
  split at h
  · cases h
    exact List.prefix_rfl
  · exact prefix_code_of_readLines h

theorem exists_lineAdds (hRunning : d.ended = false) (h : readLines first raws d = .ok d')
    (hi : d.code.size ≤ i) (hi' : i < d'.code.size) : ∃ line, LineAdds first raws d line i := by
  induction raws generalizing first d with
  | nil =>
    cases h
    exact absurd hi' (Nat.not_lt.mpr hi)
  | cons raw raws ih =>
    rw [readLines] at h
    obtain ⟨d₁, hLine, h⟩ := bind_eq_ok_iff.mp h
    by_cases hHere : i < d₁.code.size
    · exact ⟨first, ⟨[], raw, raws, d, d₁, rfl, rfl, rfl, hRunning, hLine, hi, hHere⟩⟩
    rw [Nat.not_lt] at hHere
    split at h
    · cases h
      exact absurd hi' (Nat.not_lt.mpr hHere)
    next hEnded =>
    obtain ⟨line, before, raw', after, d₂, d₃, rfl, hNumber, hBefore, hRest⟩ :=
      ih (Bool.eq_false_iff.mpr hEnded) h hHere
    refine ⟨line, ⟨raw :: before, raw', after, d₂, d₃, rfl, ?_, ?_, hRest⟩⟩
    · rw [hNumber, List.length_cons]
      omega
    · rw [readLines_cons hLine (Bool.eq_false_iff.mpr hEnded), hBefore]

theorem LineAdds.line_eq (hAdds : LineAdds first raws d line i)
    (h : readLines first raws d = .ok d') : ∃ p, d'.code[i]? = some p ∧ p.line = line := by
  obtain ⟨before, raw, after, d₁, d₂, rfl, rfl, hBefore, hRunning, hLine, hi, hi'⟩ := hAdds
  obtain ⟨d₂', hLine', hPrefix⟩ := readLines_append_cons h hBefore hRunning
  obtain rfl : d₂ = d₂' := Except.ok.inj (hLine.symm.trans hLine')
  have hp := Array.getElem?_eq_getElem hi'
  rw [getElem?_code_of_size_lt hPrefix hi']
  exact ⟨_, hp, (adds_of_readLine hLine).line_eq hi hp⟩

theorem LineAdds.le {line' i' : Nat} (hAdds : LineAdds first raws d line i)
    (hAdds' : LineAdds first raws d line' i') (hLe : i ≤ i') : line ≤ line' := by
  obtain ⟨before, raw, after, d₁, d₂, rfl, rfl, hBefore, hRunning, hLine, hi, -⟩ := hAdds
  obtain ⟨before', raw', after', d₁', d₂', hRaws, rfl, hBefore', hRunning', hLine', -, hi'⟩ :=
    hAdds'
  by_contra hLater
  -- the line numbered `line'` is among those that are read before the other one
  obtain ⟨mid, rfl⟩ : ∃ mid, before = before' ++ raw' :: mid := by
    rcases List.append_eq_append_iff.mp hRaws with ⟨more, hMore, -⟩ | ⟨more, hMore, hRest⟩
    · have hLength := congrArg List.length hMore
      rw [List.length_append] at hLength
      omega
    · cases more with
      | nil =>
        rw [List.append_nil] at hMore
        rw [hMore] at hLater
        omega
      | cons raw'' mid =>
        obtain ⟨rfl, -⟩ := List.cons.inj hRest
        exact ⟨mid, hMore⟩
  obtain ⟨d₃, hLine₃, hPrefix⟩ := readLines_append_cons hBefore hBefore' hRunning'
  obtain rfl : d₂' = d₃ := Except.ok.inj (hLine'.symm.trans hLine₃)
  have hSize := hPrefix.length_le
  rw [Array.length_toList, Array.length_toList] at hSize
  omega

end Draft

/-- Reading the line of this number adds instruction number `i` to what the source has said. -/
def Emitted (source : Text) (line i : Nat) : Prop :=
  Draft.LineAdds 1 (lines source) Draft.new line i

namespace Program

variable {p : Program} {source : Text}

/-! ### The table of a program -/

theorem lines_iff (h : assemble source = .ok p) (i line : Nat) :
    p.lines[i]? = some line ↔ Emitted source line i := by
  obtain ⟨d, hSource, hLink⟩ := bind_eq_ok_iff.mp h
  obtain ⟨is, chunks, placed, dataEnd, hLinks⟩ := Draft.link_eq_ok hLink
  obtain ⟨d', hLines, hClosed⟩ := bind_eq_ok_iff.mp hSource
  have hSame : d' = d := by
    split at hClosed
    · exact Except.ok.inj hClosed
    · cases hClosed
  subst hSame
  have hEntry : ∀ k, p.lines[i]? = some k ↔ ∃ q, d'.code[i]? = some q ∧ q.line = k := by
    intro k
    rw [hLinks.lines, Array.getElem?_map, Option.map_eq_some_iff]
  rw [hEntry]
  constructor
  · rintro ⟨q, hq, rfl⟩
    obtain ⟨hi, -⟩ := Array.getElem?_eq_some_iff.mp hq
    obtain ⟨k, hAdds⟩ := Draft.exists_lineAdds rfl hLines (Nat.zero_le i) hi
    obtain ⟨q', hq', rfl⟩ := hAdds.line_eq hLines
    rw [hq] at hq'
    cases hq'
    exact hAdds
  · exact fun hAdds => hAdds.line_eq hLines

theorem pairwise_lines (h : assemble source = .ok p) : p.lines.toList.Pairwise (· ≤ ·) := by
  rw [List.pairwise_iff_getElem]
  intro i j hi hj hLt
  have hEntry : ∀ k, (hk : k < p.lines.toList.length) → Emitted source p.lines.toList[k] k := by
    intro k hk
    rw [← lines_iff h, ← Array.getElem?_toList]
    exact List.getElem?_eq_getElem hk
  exact (hEntry i hi).le (hEntry j hj) hLt.le

/-! ### Lines and addresses -/

theorem toNat_instruction {i : Nat} (hSize : p.length < 2 ^ 30 - 1) (hi : i < p.length) :
    (p.start + BitVec.ofNat 32 (4 * i)).toNat = 4 * i := by
  rw [show p.start = 0#32 from rfl, BitVec.zero_add, BitVec.toNat_ofNat, Nat.mod_eq_of_lt]
  omega

theorem lineOfAddress?_instruction (hSize : p.length < 2 ^ 30 - 1) {i : Nat} (hi : i < p.length) :
    p.lineOfAddress? (p.start + BitVec.ofNat 32 (4 * i)) = p.lines[i]? := by
  have hStart : p.start.toNat = 0 := rfl
  rw [lineOfAddress?, toNat_instruction hSize hi, hStart, if_neg (Nat.not_lt_zero _)]
  simp only [Nat.sub_zero]
  rw [if_pos (Nat.mul_mod_right 4 i), Nat.mul_div_cancel_left i (by decide)]

theorem lineOfAddress?_eq_some {a : Word} {line : Nat} (h : p.lineOfAddress? a = some line) :
    ∃ i < p.length, a = p.start + BitVec.ofNat 32 (4 * i) ∧ p.lines[i]? = some line := by
  have hStart : p.start.toNat = 0 := rfl
  rw [lineOfAddress?, hStart, if_neg (Nat.not_lt_zero _)] at h
  simp only [Nat.sub_zero] at h
  split at h
  · next hAligned =>
    obtain ⟨hi, -⟩ := Array.getElem?_eq_some_iff.mp h
    refine ⟨a.toNat / 4, hi, ?_, h⟩
    rw [show p.start = 0#32 from rfl, BitVec.zero_add,
      Nat.mul_div_cancel' (Nat.dvd_of_mod_eq_zero hAligned), BitVec.ofNat_toNat, BitVec.setWidth_eq]
  · cases h

theorem isSome_lineOfAddress? (hSize : p.length < 2 ^ 30 - 1) (a : Word) :
    (p.lineOfAddress? a).isSome ↔ ∃ i < p.length, a = p.start + BitVec.ofNat 32 (4 * i) := by
  rw [Option.isSome_iff_exists]
  constructor
  · rintro ⟨line, h⟩
    obtain ⟨i, hi, ha, -⟩ := lineOfAddress?_eq_some h
    exact ⟨i, hi, ha⟩
  · rintro ⟨i, hi, rfl⟩
    rw [lineOfAddress?_instruction hSize hi]
    exact ⟨_, Array.getElem?_eq_getElem hi⟩

theorem addressOfLine?_eq_some {a : Word} {line : Nat} (h : p.addressOfLine? line = some a) :
    ∃ i < p.length, a = p.start + BitVec.ofNat 32 (4 * i) ∧ p.lines[i]? = some line ∧
      ∀ j, p.lines[j]? = some line → i ≤ j := by
  obtain ⟨i, hFind, rfl⟩ := Option.map_eq_some_iff.mp h
  obtain ⟨hi, hLine, hFirst⟩ := List.findIdx?_eq_some_iff_getElem.mp hFind
  rw [beq_iff_eq] at hLine
  refine ⟨i, hi, rfl, ?_, ?_⟩
  · rw [← Array.getElem?_toList, List.getElem?_eq_getElem hi, hLine]
  · intro j hj
    by_contra hLt
    rw [Nat.not_le] at hLt
    rw [← Array.getElem?_toList, List.getElem?_eq_getElem (hLt.trans hi), Option.some.injEq] at hj
    exact hFirst j hLt (beq_iff_eq.mpr hj)

theorem isSome_addressOfLine? (p : Program) (line : Nat) :
    (p.addressOfLine? line).isSome ↔ ∃ i : Nat, p.lines[i]? = some line := by
  rw [addressOfLine?, Option.isSome_map, List.findIdx?_isSome, List.any_eq_true]
  simp only [beq_iff_eq, ← Array.getElem?_toList]
  constructor
  · rintro ⟨k, hk, rfl⟩
    exact List.mem_iff_getElem?.mp hk
  · rintro ⟨i, hi⟩
    exact ⟨line, List.mem_of_getElem? hi, rfl⟩

structure LineTable (p : Program) (source : Text) : Prop where
  /-- There is one entry for each instruction. -/
  size : p.lines.size = (instructionsOf (trace source)).length
  /-- The entry of an instruction is the line that adds it. -/
  entry : ∀ i line, p.lines[i]? = some line ↔ Emitted source line i
  sorted : p.lines.toList.Pairwise (· ≤ ·)
  isSome_line : ∀ a, (p.lineOfAddress? a).isSome ↔
    ∃ i < p.length, a = p.start + BitVec.ofNat 32 (4 * i)
  line : ∀ i < p.length, p.lineOfAddress? (p.start + BitVec.ofNat 32 (4 * i)) = p.lines[i]?
  isSome_address : ∀ line, (p.addressOfLine? line).isSome ↔ ∃ i, Emitted source line i
  /-- The address of a line is the least whose line it is. -/
  address : ∀ line a, p.addressOfLine? line = some a →
    p.lineOfAddress? a = some line ∧ ∀ b, p.lineOfAddress? b = some line → a.toNat ≤ b.toNat

/-- In every program that is accepted, the line table is right about each instruction and complete
for each line. -/
theorem line_table_sound_and_complete (h : assemble source = .ok p)
    (hSize : p.length < 2 ^ 30 - 1) : p.LineTable source where
  size := (length_of_assemble h).symm
  entry := lines_iff h
  sorted := pairwise_lines h
  isSome_line := isSome_lineOfAddress? hSize
  line _ hi := lineOfAddress?_instruction hSize hi
  isSome_address line := by simp only [isSome_addressOfLine?, lines_iff h]
  address line a ha := by
    obtain ⟨i, hi, rfl, hLine, hFirst⟩ := addressOfLine?_eq_some ha
    refine ⟨(lineOfAddress?_instruction hSize hi).trans hLine, ?_⟩
    intro b hb
    obtain ⟨j, hj, rfl, hLine'⟩ := lineOfAddress?_eq_some hb
    rw [toNat_instruction hSize hi, toNat_instruction hSize hj]
    exact Nat.mul_le_mul_left 4 (hFirst j hLine')

/-- A macro that calls another one, a line with a label and no instruction, and data in between. -/
def nestedSource : Text :=
  (".macro twice a\nadd a, a, a\nadd a, a, a\n.endm\n.macro fourfold a\ntwice a\ntwice a\n" ++
    ".endm\nstart:\nnop\n.data\n.word start\n.text\nfourfold r2\nbr start\n").toList

/-- The call in line 14 adds four instructions, from address 4 on. -/
theorem line_table_sound_and_complete_nestedSource :
    ∃ p, assemble nestedSource = .ok p ∧ p.lines.toList = [10, 14, 14, 14, 14, 15] ∧
      p.LineTable nestedSource ∧ Emitted nestedSource 14 3 ∧ p.addressOfLine? 14 = some 4 ∧
      p.lineOfAddress? 4 = some 14 := by
  have hAccepted : (assemble nestedSource).toOption.map (·.lines.toList) =
      some [10, 14, 14, 14, 14, 15] := by
    decide +kernel
  obtain ⟨p, hp, hLines⟩ := exists_ok_of_map_eq hAccepted
  have hLength : p.length = 6 := by
    rw [length, ← Array.length_toList, hLines]
    rfl
  have hTable := line_table_sound_and_complete hp (by rw [hLength]; decide)
  have hEntry : p.lines[3]? = some 14 := by
    rw [← Array.getElem?_toList, hLines]
    rfl
  have hAddress : p.addressOfLine? 14 = some 4 := by
    rw [addressOfLine?, hLines]
    rfl
  exact ⟨p, hp, hLines, hTable, (hTable.entry 3 14).mp hEntry, hAddress,
    (hTable.address 14 4 hAddress).1⟩

end Program

end NiosBoard
