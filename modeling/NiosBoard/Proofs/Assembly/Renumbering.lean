import NiosBoard.Proofs.Assembly.BlankLines

/-! # Instructions and data items by other line numbers

Two drafts with the same instructions and data items, which have come from other lines and have
declared their labels in another order, go on in step when both read the same lines, and in the
second pass.
-/

namespace NiosBoard

open Text

/-- Both succeed, with related results, or both fail. -/
abbrev Together {ε α β : Type} (R : α → β → Prop) : Except ε α → Except ε β → Prop :=
  Alike (fun _ _ => True) R

theorem Together.located {α β : Type} {R : α → β → Prop} {x : Except Cause α} {x' : Except Cause β}
    (line : Nat) (h : Together R x x') : Together R (located line x) (NiosBoard.located line x') := by
  cases h with
  | ok h => exact .ok h
  | error _ => exact .error trivial

namespace Draft

/-- What keeps two drafts related around each label, directive and instruction keeps them related
around a statement. Induction on the depth of macro calls. -/
theorem statement_together {R : Draft → Draft → Prop} {line : Nat}
    (hSame : ∀ {d d'}, R d d' → d'.region = d.region ∧ d'.macros = d.macros)
    (hLabel : ∀ {d d'} name namesData, R d d' →
      Together R (d.defineLabel name namesData) (d'.defineLabel name namesData))
    (hDirective : ∀ {d d'} t, R d d' → Together R (d.directive line t) (d'.directive line t))
    (hAppend : ∀ {d d'} name operands, R d d' →
      Together R (d.appendInstruction line name operands) (d'.appendInstruction line name operands))
    (nesting : Nat) (t : Text) {d d' : Draft} (h : R d d') :
    Together R (d.statement nesting line t) (d'.statement nesting line t) := by
  induction nesting using Nat.strongRecOn generalizing d d' t with
  | ind nesting ih =>
    rw [statement, statement]
    dsimp only
    refine Alike.bind (Together.located line
      (Alike.foldlM (fun d d' name hd => hLabel name _ hd) _ h)) fun d₁ d₁' _ h₁ => ?_
    obtain ⟨hRegion, hMacros⟩ := hSame h₁
    rw [hRegion, hMacros]
    split
    · exact .ok h₁
    split
    · exact hDirective _ h₁
    split
    · exact .error trivial
    next name operands _ =>
    split
    · exact .error trivial
    split
    · split
      · exact .error trivial
      next n =>
      split
      · exact .error trivial
      · exact Alike.foldlM (fun d d' t hd => ih n (Nat.lt_succ_self n) t hd) _ h₁
    · exact hAppend name operands h₁

/-- The same draft, with other numbers for the lines of instructions and data items, and with the
labels declared in another order. -/
inductive Renumbered (f : Nat → Nat) (d : Draft) : Draft → Prop
  | intro {defined : List Text} (hDefined : defined.Perm d.defined) :
      Renumbered f d { d with
        code := d.code.map (·.relined f)
        data := d.data.map (·.relined f)
        defined := defined }

variable {f : Nat → Nat} {d d' : Draft} {line : Nat} {t raw : Text}

namespace Renumbered

theorem of_map {code : Array Pending} {data : Array Variable} {defined : List Text}
    (hCode : d.code.map (·.relined f) = code) (hData : d.data.map (·.relined f) = data)
    (hDefined : defined.Perm d.defined) :
    Renumbered f d { d with code := code, data := data, defined := defined } := by
  subst hCode hData
  exact .intro hDefined

theorem ended (h : Renumbered f d d') : d'.ended = d.ended := by
  obtain ⟨-⟩ := h
  rfl

theorem recording (h : Renumbered f d d') : d'.recording = d.recording := by
  obtain ⟨-⟩ := h
  rfl

theorem defineLabel (h : Renumbered f d d') (name : Text) (namesData : Bool) :
    Together (Renumbered f) (d.defineLabel name namesData) (d'.defineLabel name namesData) := by
  obtain ⟨hDefined⟩ := h
  rw [Draft.defineLabel, Draft.defineLabel, hDefined.contains_eq, Array.size_map]
  dsimp only
  split
  · exact .error trivial
  split
  · exact .ok (.intro (hDefined.cons name))
  · exact .ok (.intro (hDefined.cons name))

theorem defineConstant (h : Renumbered f d d') (operands : Text) (substituted : Bool) :
    Together (Renumbered f) (d.defineConstant operands substituted)
      (d'.defineConstant operands substituted) := by
  obtain ⟨hDefined⟩ := h
  rw [Draft.defineConstant, Draft.defineConstant]
  split
  · split
    · exact .error trivial
    split
    · exact .error trivial
    · exact .ok (.intro hDefined)
  · exact .error trivial

theorem declareGlobals (h : Renumbered f d d') (line : Nat) (names : List Text) :
    Together (Renumbered f) (d.declareGlobals line names) (d'.declareGlobals line names) := by
  refine Alike.foldlM ?_ names h
  rintro d d' name ⟨hDefined⟩
  dsimp only
  split
  · exact .ok (.intro hDefined)
  · exact .error trivial

theorem directive (h : Renumbered f d d') (hLine : f line = line) (t : Text) :
    Together (Renumbered f) (d.directive line t) (d'.directive line t) := by
  rw [Draft.directive, Draft.directive]
  cases Line.directive? t with
  | none => exact .error trivial
  | some found =>
    obtain ⟨word, operands⟩ := found
    dsimp only
    cases Directive.ofName? word with
    | none => exact .error trivial
    | some k =>
      cases k with
      | text =>
        obtain ⟨hDefined⟩ := h
        exact .ok (.intro hDefined)
      | data =>
        obtain ⟨hDefined⟩ := h
        exact .ok (.intro hDefined)
      | equ => exact (h.defineConstant operands false).located line
      | global => exact (h.declareGlobals line _).located line
      | openMacro =>
        dsimp only
        split
        · exact .error trivial
        · obtain ⟨hDefined⟩ := h
          exact .ok (.intro hDefined)
      | closeMacro => exact .error trivial
      | finish =>
        obtain ⟨hDefined⟩ := h
        exact .ok (.intro hDefined)
      | item kind =>
        obtain ⟨hDefined⟩ := h
        refine (Alike.refl (R := Eq) (fun _ => trivial) (fun _ => rfl) _).bind ?_
        rintro item _ - rfl
        refine .ok ?_
        have hItem : (d.data.push ⟨d.waiting, item, line⟩).map (·.relined f) =
            (d.data.map (·.relined f)).push ⟨d.waiting, item, line⟩ := by
          rw [Array.map_push, Variable.relined, hLine]
        rw [← hItem]
        exact .intro hDefined

theorem appendInstruction (h : Renumbered f d d') (hLine : f line = line) (name operands : Text) :
    Together (Renumbered f) (d.appendInstruction line name operands)
      (d'.appendInstruction line name operands) := by
  obtain ⟨hDefined⟩ := h
  rw [Draft.appendInstruction, Draft.appendInstruction]
  cases Opcode.ofMnemonic? name with
  | none => exact .error trivial
  | some o =>
    dsimp only
    rw [Array.size_map]
    refine (Alike.refl (R := Eq) (fun _ => trivial) (fun _ => rfl) _).bind ?_
    rintro p _ hp rfl
    have hSame := Pending.ofOperands_relined (f := f) o line (codeAddress d.code.size) operands
    rw [hLine, located_eq_ok_iff.mp hp] at hSame
    have hCode : (d.code.push p).map (·.relined f) = (d.code.map (·.relined f)).push p := by
      rw [Array.map_push, ← Except.ok.inj hSame]
    refine .ok ?_
    rw [← hCode]
    exact .intro hDefined

theorem statement (h : Renumbered f d d') (hLine : f line = line) (nesting : Nat) (t : Text) :
    Together (Renumbered f) (d.statement nesting line t) (d'.statement nesting line t) :=
  statement_together (fun ⟨_⟩ => ⟨rfl, rfl⟩) (fun name namesData h => h.defineLabel name namesData)
    (fun t h => h.directive hLine t) (fun name operands h => h.appendInstruction hLine name operands)
    nesting t h

theorem closeRecording (h : Renumbered f d d') (r : Recording) :
    Together (Renumbered f) (d.closeRecording r) (d'.closeRecording r) := by
  obtain ⟨hDefined⟩ := h
  rw [Draft.closeRecording, Draft.closeRecording]
  dsimp only
  split
  · exact .ok (.intro hDefined)
  · exact .error trivial

theorem readLine (h : Renumbered f d d') (hLine : f line = line) (raw : Text) :
    Together (Renumbered f) (d.readLine line raw) (d'.readLine line raw) := by
  have hConstants : d'.constants = d.constants := by
    obtain ⟨-⟩ := h
    rfl
  rw [Draft.readLine, Draft.readLine, h.recording, substituteConstants, substituteConstants, hConstants]
  split
  · split
    · exact h.closeRecording _
    · obtain ⟨hDefined⟩ := h
      exact .ok (.intro hDefined)
  · split
    · exact (h.defineConstant _ true).located line
    · exact h.statement hLine maxNesting _

theorem readLines {raws : List Text} (h : Renumbered f d d') (hLines : ∀ l, line ≤ l → f l = l) :
    Together (Renumbered f) (readLines line raws d) (readLines line raws d') := by
  induction raws generalizing line d d' with
  | nil => exact .ok h
  | cons raw raws ih =>
    rw [Draft.readLines, Draft.readLines]
    refine (h.readLine (hLines line le_rfl) raw).bind fun d₁ d₁' _ h₁ => ?_
    rw [h₁.ended]
    split
    · exact .ok h₁
    · exact ih h₁ fun l hl => hLines l (by omega)

end Renumbered

/-! ### The second pass -/

/-- The second pass looks at instructions, data items and labels, and hands the global names on. -/
theorem link_congr (hCode : d'.code = d.code) (hData : d'.data = d.data)
    (hSymbols : d'.symbols = d.symbols) (hWaiting : d'.waiting = d.waiting) :
    d'.link = (fun p => { p with globals := d'.globals }) <$> d.link := by
  simp only [link, dataStart, instructions, hCode, hData, hSymbols, hWaiting, map_bind, map_pure]

theorem Renumbered.link (h : Renumbered f d d') :
    d'.link.toOption = d.link.toOption.map fun p => { p with lines := p.lines.map f } := by
  have hLink : d'.link = (fun p => { p with globals := d.globals }) <$> (d.relined f).link := by
    obtain ⟨-⟩ := h
    exact link_congr rfl rfl rfl rfl
  have hGlobals : d.link = (fun p => { p with globals := d.globals }) <$> d.link :=
    link_congr rfl rfl rfl rfl
  rw [hLink, link_relined, hGlobals]
  cases d.link with
  | error e => rfl
  | ok p => rfl

end Draft

end NiosBoard
