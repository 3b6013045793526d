import Mathlib.Data.List.Forall2
import Mathlib.Data.List.Nodup
import NiosBoard.Proofs.Assembly.Operands
import NiosBoard.Proofs.Assembly.Trace
import NiosBoard.Proofs.Lists
import NiosBoard.Proofs.Table

/-! # What the first pass keeps of a source

`Draft.Records d r` says that the draft `d` holds what the trace `r` lists: its instructions in
order, each at its address, its data items in order, and its labels, each where it belongs. The
statements, lines and whole sources that the first pass reads carry it along.
-/

namespace NiosBoard

open Text

/-- The pending instruction is what the line says, read for its own address. -/
def Pending.Reads (p : Pending) (s : InstructionLine) : Prop :=
  ∃ o, Opcode.ofMnemonic? s.name = some o ∧
    Pending.ofOperands o s.line p.address s.operands = .ok p

def Variable.Reads (v : Variable) (s : ItemLine) : Prop :=
  v.line = s.line ∧ DataItem.ofOperands s.kind s.operands = .ok v.item

namespace Draft

/-- The labels of data item number `k`, or of the end of the data when there are only `k` items. -/
def labelsAt (d : Draft) (k : Nat) : List Text :=
  ((d.data.toList.map (·.labels))[k]?).getD d.waiting

structure Records (d : Draft) (r : Trace) : Prop where
  region : d.region = r.region
  defined : d.defined = (labelsOf r.marks).reverse
  nodup : (labelsOf r.marks).Nodup
  code : List.Forall₂ Pending.Reads d.code.toList (instructionsOf r.marks)
  address : ∀ i p, d.code[i]? = some p → p.address = codeAddress i
  keys : d.symbols.keys = (codeLabelsOf r.marks).reverse
  codeLabel : ∀ before name after, r.marks = before ++ .codeLabel name :: after →
    d.symbols.get? name = some (codeAddress (instructionsOf before).length)
  data : List.Forall₂ Variable.Reads d.data.toList (itemsOf r.marks)
  dataNames : d.data.toList.flatMap (·.labels) ++ d.waiting = dataLabelsOf r.marks
  dataLabel : ∀ before name after, r.marks = before ++ .dataLabel name :: after →
    name ∈ d.labelsAt (itemsOf before).length

end Draft

namespace Draft.Records

variable {d : Draft} {r : Trace}

theorem length_code (h : d.Records r) : d.code.size = (instructionsOf r.marks).length := by
  simpa using h.code.length_eq

theorem length_data (h : d.Records r) : d.data.size = (itemsOf r.marks).length := by
  simpa using h.data.length_eq

theorem not_mem_keys (h : d.Records r) {name : Text} (hName : name ∉ labelsOf r.marks) :
    name ∉ d.symbols.keys := by
  rw [h.keys, List.mem_reverse]
  intro hMem
  obtain ⟨k, hk, hkName⟩ := List.mem_filterMap.mp hMem
  refine hName (List.mem_filterMap.mpr ⟨k, hk, ?_⟩)
  cases k <;> simp_all

theorem new : Draft.new.Records ⟨.text, []⟩ where
  region := rfl
  defined := rfl
  nodup := List.nodup_nil
  code := .nil
  address := by simp [Draft.new]
  keys := rfl
  codeLabel := by simp
  data := .nil
  dataNames := rfl
  dataLabel := by simp

theorem openRegion (h : d.Records r) (region : Region) :
    Records { d with region := region } { r with region := region } where
  region := rfl
  defined := h.defined
  nodup := h.nodup
  code := h.code
  address := h.address
  keys := h.keys
  codeLabel := h.codeLabel
  data := h.data
  dataNames := h.dataNames
  dataLabel := h.dataLabel

theorem addCodeLabel (h : d.Records r) {name : Text} (hNew : name ∉ labelsOf r.marks) :
    Records
      { d with
        defined := name :: d.defined
        symbols := d.symbols.insert name (codeAddress d.code.size) }
      (r.push (.codeLabel name)) where
  region := h.region
  defined := by simp [h.defined]
  nodup := by
    rw [Trace.labelsOf_push]
    exact List.Nodup.append h.nodup (List.nodup_singleton name) (by simpa using hNew)
  code := by simpa using h.code
  address := h.address
  keys := by
    rw [Table.keys_insert_of_not_mem (h.not_mem_keys hNew), h.keys]
    simp
  codeLabel := by
    intro before other after hMarks
    rw [Table.get?_insert]
    rcases concat_eq_append_cons_iff.mp hMarks with ⟨-, rfl, hName⟩ | ⟨rest, -, hMarks⟩
    · cases hName
      rw [if_pos rfl, h.length_code]
    · have hMem : other ∈ labelsOf r.marks := by
        rw [hMarks]
        simp [labelsOf]
      have hOther : other ≠ name := fun hEq => hNew (hEq ▸ hMem)
      rw [if_neg hOther, h.codeLabel before other rest hMarks]
  data := by simpa using h.data
  dataNames := by simpa using h.dataNames
  dataLabel := by
    intro before other after hMarks
    obtain ⟨rest, hMarks⟩ := exists_of_concat_eq_of_ne (by simp) hMarks
    exact h.dataLabel before other rest hMarks

theorem addDataLabel (h : d.Records r) {name : Text} (hNew : name ∉ labelsOf r.marks) :
    Records { d with defined := name :: d.defined, waiting := d.waiting ++ [name] }
      (r.push (.dataLabel name)) where
  region := h.region
  defined := by simp [h.defined]
  nodup := by
    rw [Trace.labelsOf_push]
    exact List.Nodup.append h.nodup (List.nodup_singleton name) (by simpa using hNew)
  code := by simpa using h.code
  address := h.address
  keys := by simpa using h.keys
  codeLabel := by
    intro before other after hMarks
    obtain ⟨rest, hMarks⟩ := exists_of_concat_eq_of_ne (by simp) hMarks
    exact h.codeLabel before other rest hMarks
  data := by simpa using h.data
  dataNames := by simp [← h.dataNames]
  dataLabel := by
    intro before other after hMarks
    rcases concat_eq_append_cons_iff.mp hMarks with ⟨-, rfl, hName⟩ | ⟨rest, -, hMarks⟩
    · cases hName
      simp [labelsAt, ← h.length_data]
    · have hMem := h.dataLabel before other rest hMarks
      unfold labelsAt at hMem ⊢
      cases hLabels : (d.data.toList.map (·.labels))[(itemsOf before).length]? with
      | none =>
        rw [hLabels] at hMem
        exact List.mem_append_left _ hMem
      | some labels =>
        rw [hLabels] at hMem
        exact hMem

theorem addInstruction (h : d.Records r) {s : InstructionLine} {p : Pending} (hReads : p.Reads s)
    (hAddress : p.address = codeAddress d.code.size) :
    Records { d with code := d.code.push p } (r.push (.instruction s)) where
  region := h.region
  defined := by simp [h.defined]
  nodup := by simpa using h.nodup
  code := by
    rw [Array.toList_push, Trace.instructionsOf_push]
    exact List.rel_append h.code (.cons hReads .nil)
  address := by
    intro i q hq
    rw [Array.getElem?_push] at hq
    split at hq
    · next hi =>
      cases hq
      rw [hi, hAddress]
    · exact h.address i q hq
  keys := by simpa using h.keys
  codeLabel := by
    intro before other after hMarks
    obtain ⟨rest, hMarks⟩ := exists_of_concat_eq_of_ne (by simp) hMarks
    exact h.codeLabel before other rest hMarks
  data := by simpa using h.data
  dataNames := by simpa using h.dataNames
  dataLabel := by
    intro before other after hMarks
    obtain ⟨rest, hMarks⟩ := exists_of_concat_eq_of_ne (by simp) hMarks
    exact h.dataLabel before other rest hMarks

theorem addItem (h : d.Records r) {s : ItemLine} {v : Variable} (hReads : v.Reads s)
    (hLabels : v.labels = d.waiting) :
    Records { d with waiting := [], data := d.data.push v } (r.push (.item s)) where
  region := h.region
  defined := by simp [h.defined]
  nodup := by simpa using h.nodup
  code := by simpa using h.code
  address := h.address
  keys := by simpa using h.keys
  codeLabel := by
    intro before other after hMarks
    obtain ⟨rest, hMarks⟩ := exists_of_concat_eq_of_ne (by simp) hMarks
    exact h.codeLabel before other rest hMarks
  data := by
    rw [Array.toList_push, Trace.itemsOf_push]
    exact List.rel_append h.data (.cons hReads .nil)
  dataNames := by simp [← h.dataNames, hLabels]
  dataLabel := by
    intro before other after hMarks
    obtain ⟨rest, hMarks⟩ := exists_of_concat_eq_of_ne (by simp) hMarks
    have hMem := h.dataLabel before other rest hMarks
    have hLe : (itemsOf before).length ≤ d.data.size := by
      rw [h.length_data, hMarks]
      simp [itemsOf]
    unfold labelsAt at hMem ⊢
    rcases Nat.lt_or_eq_of_le hLe with hLt | hEq
    · simpa [List.getElem?_append, hLt] using hMem
    · simpa [List.getElem?_append, hEq, hLabels] using hMem

end Draft.Records

/-! ### Reading a source -/

theorem located_eq_ok_iff {α : Type} {line : Nat} {x : Except Cause α} {a : α} :
    located line x = .ok a ↔ x = .ok a := by
  cases x <;> simp [located]

namespace Draft

theorem codeAddress_eq (i : Nat) : codeAddress i = BitVec.ofNat 32 (4 * i) := BitVec.zero_add _

theorem readLines_cons {line : Nat} {raw : Text} {d d' : Draft} (h : d.readLine line raw = .ok d')
    (hRunning : d'.ended = false) (raws : List Text) :
    readLines line (raw :: raws) d = readLines (line + 1) raws d' := by
  have hEnded : ¬ d'.ended = true := Bool.eq_false_iff.mp hRunning
  rw [readLines, h]
  exact if_neg hEnded

/-- All that a statement can do: its labels come first, then what it says is carried out. -/
theorem statement_eq_ok {nesting line : Nat} {t : Text} {d d' : Draft}
    (h : d.statement nesting line t = .ok d') :
    ∃ d₁ body, body = trim (Line.labels t).2 ∧
      (Line.labels t).1.foldlM (fun d name => d.defineLabel name (isDataLine body)) d = .ok d₁ ∧
      ((body = [] ∧ d' = d₁) ∨
        (body.head? = some '.' ∧ d₁.directive line body = .ok d') ∨
        ∃ name operands, body.head? ≠ some '.' ∧ Line.mnemonic? body = some (name, operands) ∧
          ((d₁.macros.contains name = true ∧ ∃ n calls, nesting = n + 1 ∧
              d₁.macros.expand name operands = .ok calls ∧
              calls.foldlM (fun d t => statement n line t d) d₁ = .ok d') ∨
            (d₁.macros.contains name = false ∧ d₁.appendInstruction line name operands = .ok d'))) := by
  rw [statement] at h
  obtain ⟨d₁, hLabels, h⟩ := bind_eq_ok_iff.mp h
  refine ⟨d₁, trim (Line.labels t).2, rfl, located_eq_ok_iff.mp hLabels, ?_⟩
  split at h
  · next hBody =>
    cases h
    exact .inl ⟨hBody, rfl⟩
  split at h
  · next hDot => exact .inr (.inl ⟨hDot, h⟩)
  next hDot =>
  split at h
  · cases h
  next name operands hName =>
  refine .inr (.inr ⟨name, operands, hDot, hName, ?_⟩)
  split at h
  · cases h
  split at h
  · next hMacro =>
    split at h
    · cases h
    next n h =>
    split at h
    · cases h
    next calls hCalls => exact .inl ⟨hMacro, n, calls, rfl, hCalls, h⟩
  · next hMacro => exact .inr ⟨by simpa using hMacro, h⟩

/-- What relates the drafts around each label, directive and instruction relates those around a
statement. Induction on the depth of macro calls. -/
theorem related_of_statement {R : Draft → Draft → Prop} {line : Nat} (hRefl : ∀ d, R d d)
    (hTrans : ∀ {d₁ d₂ d₃}, R d₁ d₂ → R d₂ d₃ → R d₁ d₃)
    (hLabel : ∀ {d d' name namesData}, d.defineLabel name namesData = .ok d' → R d d')
    (hDirective : ∀ {d d' body}, d.directive line body = .ok d' → R d d')
    (hAppend : ∀ {d d' name operands}, d.appendInstruction line name operands = .ok d' → R d d')
    {nesting : Nat} {t : Text} {d d' : Draft} (h : d.statement nesting line t = .ok d') : R d d' := by
  induction nesting using Nat.strongRecOn generalizing d d' t with
  | ind nesting ih =>
    obtain ⟨d₁, body, -, hLabels, hRest⟩ := statement_eq_ok h
    refine hTrans (foldlM_preserves (P := fun d₁ => R d d₁)
      (fun _ _ _ hR hd => hTrans hR (hLabel hd)) (hRefl d) hLabels) ?_
    rcases hRest with ⟨-, rfl⟩ | ⟨-, hd⟩ | ⟨name, operands, -, -, hRest⟩
    · exact hRefl d'
    · exact hDirective hd
    rcases hRest with ⟨-, n, calls, rfl, -, hd⟩ | ⟨-, hd⟩
    · exact foldlM_preserves (P := fun d₂ => R d₁ d₂)
        (fun _ _ _ hR hd => hTrans hR (ih n (Nat.lt_succ_self n) hd)) (hRefl d₁) hd
    · exact hAppend hd

namespace Records

variable {d d' : Draft} {r : Trace}

theorem defineLabel (h : d.Records r) {name : Text} {namesData : Bool}
    (hd : d.defineLabel name namesData = .ok d') :
    d'.Records (r.label namesData name) ∧ d'.macros = d.macros := by
  unfold Draft.defineLabel at hd
  unfold Trace.label
  split at hd
  · cases hd
  next hDefined =>
  have hNew : name ∉ labelsOf r.marks := by simpa [h.defined] using hDefined
  rw [← h.region]
  split at hd
  · next hData =>
    cases hd
    rw [if_pos hData]
    exact ⟨h.addDataLabel hNew, rfl⟩
  · next hData =>
    cases hd
    rw [if_neg hData]
    exact ⟨h.addCodeLabel hNew, rfl⟩

theorem declareGlobals (h : d.Records r) {line : Nat} {names : List Text}
    (hd : d.declareGlobals line names = .ok d') : d'.Records r ∧ d'.macros = d.macros := by
  refine foldlM_preserves (P := fun d₁ => d₁.Records r ∧ d₁.macros = d.macros) ?_ ⟨h, rfl⟩ hd
  rintro name d₁ d₂ ⟨hr, hm⟩ hd
  split at hd
  · cases hd
    exact ⟨{ hr with }, hm⟩
  · cases hd

theorem defineConstant (h : d.Records r) {operands : Text} {substituted : Bool}
    (hd : d.defineConstant operands substituted = .ok d') :
    d'.Records r ∧ d'.macros = d.macros := by
  unfold Draft.defineConstant at hd
  split at hd
  · split at hd
    · cases hd
    split at hd
    · cases hd
    cases hd
    exact ⟨{ h with }, rfl⟩
  · cases hd

theorem directive (h : d.Records r) {line : Nat} {t : Text}
    (hd : d.directive line t = .ok d') :
    d'.Records (r.directive line t) ∧ d'.macros = d.macros := by
  unfold Draft.directive at hd
  unfold Trace.directive
  cases hDirective : Line.directive? t with
  | none =>
    rw [hDirective] at hd
    cases hd
  | some parts =>
    obtain ⟨name, operands⟩ := parts
    rw [hDirective] at hd
    simp only at hd ⊢
    split at hd
    · next hName =>
      cases hd
      rw [hName]
      exact ⟨h.openRegion .text, rfl⟩
    · next hName =>
      cases hd
      rw [hName]
      exact ⟨h.openRegion .data, rfl⟩
    · next hName =>
      rw [hName]
      exact h.defineConstant (located_eq_ok_iff.mp hd)
    · next hName =>
      rw [hName]
      exact h.declareGlobals (located_eq_ok_iff.mp hd)
    · next hName =>
      rw [hName]
      split at hd
      · cases hd
      · cases hd
        exact ⟨{ h with }, rfl⟩
    · cases hd
    · next hName =>
      cases hd
      rw [hName]
      exact ⟨{ h with }, rfl⟩
    · next kind hName =>
      obtain ⟨item, hItem, hd⟩ := bind_eq_ok_iff.mp hd
      cases hd
      rw [hName]
      exact ⟨h.addItem ⟨rfl, located_eq_ok_iff.mp hItem⟩ rfl, rfl⟩
    · cases hd

theorem appendInstruction (h : d.Records r) {line : Nat} {name operands : Text}
    (hd : d.appendInstruction line name operands = .ok d') :
    d'.Records (r.push (.instruction ⟨line, name, operands⟩)) ∧ d'.macros = d.macros := by
  unfold Draft.appendInstruction at hd
  split at hd
  · cases hd
  next o hName =>
  obtain ⟨p, hp, hd⟩ := bind_eq_ok_iff.mp hd
  cases hd
  have hp := located_eq_ok_iff.mp hp
  rw [codeAddress_eq] at hp
  obtain ⟨⟨-, -, hAddress⟩, -⟩ := Pending.ofOperands_eq_ok hp
  exact ⟨h.addInstruction ⟨o, hName, hAddress ▸ hp⟩ (by rw [hAddress, codeAddress_eq]), rfl⟩

/-- Induction on the depth of macro calls; the macros do not change while a line is read. -/
theorem statement {nesting line : Nat} {t : Text} (h : d.Records r)
    (hd : d.statement nesting line t = .ok d') :
    d'.Records (r.statement d.macros line nesting t) ∧ d'.macros = d.macros := by
  induction nesting using Nat.strongRecOn generalizing d d' r t with
  | ind nesting ih =>
    obtain ⟨d₁, body, hBody, hLabels, hRest⟩ := statement_eq_ok hd
    obtain ⟨h₁, hMacros⟩ := foldlM_related (R := fun r d₁ => d₁.Records r ∧ d₁.macros = d.macros)
      (g := Trace.label (isDataLine body))
      (fun r name d₁ d₂ hr hd => by
        obtain ⟨h₂, hm⟩ := hr.1.defineLabel hd
        exact ⟨h₂, hm.trans hr.2⟩)
      ⟨h, rfl⟩ hLabels
    rw [Trace.statement, ← hBody]
    rcases hRest with ⟨rfl, rfl⟩ | ⟨hDot, hd⟩ | ⟨name, operands, hDot, hName, hRest⟩
    · exact ⟨h₁, hMacros⟩
    · obtain ⟨h₂, hm⟩ := h₁.directive hd
      simp only [if_pos hDot]
      exact ⟨h₂, hm.trans hMacros⟩
    rcases hRest with ⟨hMacro, n, calls, rfl, hCalls, hd⟩ | ⟨hMacro, hd⟩
    · rw [hMacros] at hMacro hCalls
      obtain ⟨h₂, hm⟩ := foldlM_related
        (R := fun r d₁ => d₁.Records r ∧ d₁.macros = d.macros)
        (g := Trace.statement d.macros line n)
        (fun r t d₁ d₂ hr hd => by
          obtain ⟨h₂, hm⟩ := ih n (Nat.lt_succ_self n) hr.1 hd
          rw [hr.2] at h₂ hm
          exact ⟨h₂, hm⟩)
        ⟨h₁, hMacros⟩ hd
      simp only [if_neg hDot, hName, hMacro, hCalls, if_true]
      exact ⟨h₂, hm⟩
    · obtain ⟨h₂, hm⟩ := h₁.appendInstruction hd
      rw [hMacros] at hMacro
      simp only [if_neg hDot, hName, hMacro]
      exact ⟨h₂, hm.trans hMacros⟩

/-- Instruction number `i` of the trace waits as number `i` of the draft, read for its address. -/
theorem exists_pending (h : d.Records r) {i : Nat} {s : InstructionLine}
    (hs : (instructionsOf r.marks)[i]? = some s) :
    ∃ q o, d.code[i]? = some q ∧ Opcode.ofMnemonic? s.name = some o ∧ q.line = s.line ∧
      ∀ symbols ins, q.instruction symbols = .ok ins →
        Spells symbols (4 * i) o (splitOperands s.operands) ins := by
  obtain ⟨q, hq, o, hName, hOperands⟩ := exists_getElem?_of_forall₂ h.code hs
  rw [Array.getElem?_toList] at hq
  rw [h.address i q hq, codeAddress_eq] at hOperands
  obtain ⟨⟨-, hLine, -⟩, hSpells⟩ := Pending.ofOperands_eq_ok hOperands
  exact ⟨q, o, hq, hName, hLine, hSpells⟩

theorem closeRecording (h : d.Records r) {recording : Recording}
    (hd : d.closeRecording recording = .ok d') : d'.Records r := by
  unfold Draft.closeRecording at hd
  split at hd
  · cases hd
    exact { h with }
  · cases hd

theorem readLine (h : d.Records r) {line : Nat} {raw : Text}
    (hd : d.readLine line raw = .ok d') : d'.Records (r.readLine d line raw) := by
  unfold Draft.readLine at hd
  unfold Trace.readLine
  simp only at hd ⊢
  split at hd
  · next recording hRecording =>
    rw [hRecording]
    split at hd
    · exact h.closeRecording hd
    · cases hd
      exact { h with }
  · next hRecording =>
    split at hd
    · next operands hConstant =>
      rw [hRecording, hConstant]
      exact (h.defineConstant (located_eq_ok_iff.mp hd)).1
    · next hConstant =>
      rw [hRecording, hConstant]
      exact (h.statement hd).1

theorem readLines {line : Nat} {raws : List Text} (h : d.Records r)
    (hd : readLines line raws d = .ok d') : d'.Records (Trace.readLines line raws d r) := by
  induction raws generalizing line d r with
  | nil =>
    cases hd
    exact h
  | cons raw raws ih =>
    rw [Draft.readLines] at hd
    obtain ⟨d₁, hLine, hd⟩ := bind_eq_ok_iff.mp hd
    have h₁ := h.readLine hLine
    rw [Trace.readLines, hLine]
    split at hd
    · next hEnded =>
      cases hd
      simpa only [if_pos hEnded] using h₁
    · next hEnded =>
      simpa only [if_neg hEnded] using ih h₁ hd

end Records

/-- A source that the first pass accepts leaves a draft that records its trace. -/
theorem records_of_ofSource {source : Text} {d : Draft} (h : ofSource source = .ok d) :
    ∃ region, d.Records ⟨region, trace source⟩ := by
  obtain ⟨d₁, hLines, h⟩ := bind_eq_ok_iff.mp h
  split at h
  · cases h
    exact ⟨_, Records.new.readLines hLines⟩
  · cases h

end Draft

end NiosBoard
