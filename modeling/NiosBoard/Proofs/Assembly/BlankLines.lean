import NiosBoard.Proofs.Assembly.LineNumbers
import NiosBoard.Proofs.Text.Comments

/-! # Blank lines and comments in a source

Two sources that say the same, line by line but for lines that say nothing, are read in step: after
each line the drafts differ in line numbers and in the blank lines of macro bodies, and so do their
outcomes in line numbers alone.
-/

namespace NiosBoard

open Text

/-- The second list of lines, numbered from `k'` on, is the first, numbered from `k` on, with lines
rewritten that say the same, and with lines put in that say nothing; `f` gives the new numbers. -/
inductive Revised (f : Nat → Nat) : Nat → List Text → Nat → List Text → Prop
  | nil (k k' : Nat) : Revised f k [] k' []
  | line {k k' : Nat} {raw raw' : Text} {raws raws' : List Text} (hNumber : f k = k')
      (hSaid : said raw' = said raw) (h : Revised f (k + 1) raws (k' + 1) raws') :
      Revised f k (raw :: raws) k' (raw' :: raws')
  | blank {k k' : Nat} {c : Text} {raws raws' : List Text} (hBlank : said c = [])
      (h : Revised f k raws (k' + 1) raws') : Revised f k raws k' (c :: raws')

namespace Draft

variable {f : Nat → Nat} {d d' : Draft}

theorem readLine_congr {raw raw' : Text} (h : said raw' = said raw) (d : Draft) (line : Nat) :
    d.readLine line raw' = d.readLine line raw := by
  have hSame : trim (stripComment raw') = trim (stripComment raw) := h
  rw [readLine, readLine, hSame]

theorem readLine_revised (h : d'.relined id = d.relined f) {raw raw' : Text}
    (hSaid : said raw' = said raw) (line : Nat) :
    relinedWith id (relined id) (d'.readLine (f line) raw') =
      relinedWith f (relined f) (d.readLine line raw) := by
  rw [readLine_congr hSaid, ← readLine_relined (f := f) d line raw, ← h]
  exact (readLine_relined (f := id) d' (f line) raw).symm

theorem ended_eq (h : d'.relined id = d.relined f) : d'.ended = d.ended := by
  show (d'.relined id).ended = (d.relined f).ended
  rw [h]

theorem recording_eq (h : d'.relined id = d.relined f) :
    d'.recording.map (·.relined id) = d.recording.map (·.relined f) := by
  show (d'.relined id).recording = (d.relined f).recording
  rw [h]

/-- What is done with outcomes that differ in numbers keeps them so. -/
theorem relinedWith_bind_congr {β γ : Type} {x x' : Except LineError Draft}
    {k k' : Draft → Except LineError β} {g g' : β → γ}
    (hx : relinedWith id (relined id) x' = relinedWith f (relined f) x)
    (hk : ∀ d d', d'.relined id = d.relined f → relinedWith id g' (k' d') = relinedWith f g (k d)) :
    relinedWith id g' (x' >>= k') = relinedWith f g (x >>= k) := by
  cases x with
  | error e =>
    cases x' with
    | error e' => exact congrArg Except.error (Except.error.inj hx)
    | ok d' => cases hx
  | ok d =>
    cases x' with
    | error e' => cases hx
    | ok d' => exact hk d d' (Except.ok.inj hx)

theorem readLines_revised {k k' : Nat} {raws raws' : List Text} (hRevised : Revised f k raws k' raws')
    (h : d'.relined id = d.relined f) (hRunning : d.ended = false) :
    relinedWith id (relined id) (readLines k' raws' d') =
      relinedWith f (relined f) (readLines k raws d) := by
  induction hRevised generalizing d d' with
  | nil => exact congrArg Except.ok h
  | @line k k' raw raw' raws raws' hNumber hSaid _ ih =>
    have hLine := readLine_revised h hSaid k
    rw [hNumber] at hLine
    rw [readLines, readLines]
    refine relinedWith_bind_congr hLine fun d d' h => ?_
    rw [ended_eq h]
    split
    · exact congrArg Except.ok h
    · next hEnded => exact ih h (Bool.eq_false_iff.mpr hEnded)
  | @blank k k' c raws raws' hBlank _ ih =>
    obtain ⟨d'', hLine, hSame⟩ := readLine_of_blank hBlank d' k'
    have hRunning' : d''.ended = false := (ended_eq (hSame.trans h)).trans hRunning
    rw [readLines_cons hLine hRunning']
    exact ih (hSame.trans h) hRunning

theorem new_relined (f : Nat → Nat) : new.relined id = new.relined f := by
  simp [relined, new, Table.map, Table.empty]

theorem ofSource_revised {source source' : Text}
    (h : Revised f 1 (lines source) 1 (lines source')) :
    relinedWith id (relined id) (ofSource source') = relinedWith f (relined f) (ofSource source) := by
  rw [ofSource, ofSource]
  refine relinedWith_bind_congr (readLines_revised h (new_relined f) rfl) fun d d' h => ?_
  have hRecording := recording_eq h
  cases hd : d.recording with
  | none =>
    rw [hd, Option.map_none, Option.map_eq_none_iff] at hRecording
    rw [hRecording]
    exact congrArg Except.ok h
  | some r =>
    rw [hd, Option.map_some, Option.map_eq_some_iff] at hRecording
    obtain ⟨r', hr', hSame⟩ := hRecording
    have hName : (r'.relined id).name = (r.relined f).name := by rw [hSame]
    have hLine : (r'.relined id).line = (r.relined f).line := by rw [hSame]
    rw [hr']
    show Except.error (Cause.atLine (.expansion (.unterminated (r'.relined id).name))
      (r'.relined id).line) = _
    rw [hName, hLine]
    rfl

end Draft

theorem relinedWith_id (x : Except LineError Program) : relinedWith id (Program.relined id) x = x := by
  cases x with
  | error e => rfl
  | ok p => simp [relinedWith, Program.relined, Table.map_id]

/-- Revised sources assemble to the same program, or the same error, but for line numbers. -/
theorem assemble_revised {f : Nat → Nat} {source source' : Text}
    (h : Revised f 1 (lines source) 1 (lines source')) :
    assemble source' = relinedWith f (Program.relined f) (assemble source) := by
  have hSame : relinedWith id (Program.relined id) (assemble source') =
      relinedWith f (Program.relined f) (assemble source) := by
    refine Draft.relinedWith_bind_congr (Draft.ofSource_revised h) fun d d' h => ?_
    rw [← Draft.link_relined, ← Draft.link_relined, h]
  rw [← hSame, relinedWith_id]

/-! ### Revisions -/

namespace Revised

variable {f : Nat → Nat} {k k' : Nat} {raws raws' more more' : List Text}

theorem append (h : Revised f k raws k' raws')
    (h' : Revised f (k + raws.length) more (k' + raws'.length) more') :
    Revised f k (raws ++ more) k' (raws' ++ more') := by
  induction h with
  | nil => exact h'
  | @line k k' raw raw' raws raws' hNumber hSaid _ ih =>
    refine .line hNumber hSaid (ih ?_)
    rwa [List.length_cons, List.length_cons, ← Nat.add_assoc, ← Nat.add_assoc, Nat.add_right_comm k,
      Nat.add_right_comm k'] at h'
  | @blank k k' c raws raws' hBlank _ ih =>
    refine .blank hBlank (ih ?_)
    rwa [List.length_cons, ← Nat.add_assoc, Nat.add_right_comm k'] at h'

theorem moved (j : Nat) (h : ∀ l, k ≤ l → l < k + raws.length → f l = l + j) :
    Revised f k raws (k + j) raws := by
  induction raws generalizing k with
  | nil => exact .nil k (k + j)
  | cons raw raws ih =>
    rw [List.length_cons] at h
    refine .line (h k (Nat.le_refl k) (by omega)) rfl ?_
    rw [Nat.add_right_comm]
    exact ih fun l hl hl' => h l (by omega) (by omega)

end Revised

/-- The number of a line once another one was put in as number `k`. -/
def shift (k l : Nat) : Nat := if l < k then l else l + 1

theorem revised_insert {c : Text} (h : said c = []) (before after : List Text) :
    Revised (shift (before.length + 1)) 1 (before ++ after) 1 (before ++ c :: after) := by
  refine .append (.moved 0 fun l hl hl' => ?_) (.blank h (.moved 1 fun l hl hl' => ?_))
  · exact if_pos (by omega)
  · exact if_neg (by omega)

theorem revised_replace {raw raw' : Text} (h : said raw' = said raw) (before after : List Text) :
    Revised id 1 (before ++ raw :: after) 1 (before ++ raw' :: after) :=
  .append (.moved 0 fun _ _ _ => rfl) (.line rfl h (.moved 0 fun _ _ _ => rfl))

/-- A blank line or one with a comment alone, put in anywhere, moves the numbers of the lines behind
it and does nothing else. A comment put behind a blank at the end of a line with no literal open does
nothing at all. Errors are on a line of the source. -/
theorem blank_lines_only_move_numbers (source : Text) :
    (∀ source' before after c, lines source = before ++ after →
      lines source' = before ++ c :: after → BlankLine c →
      assemble source' = relinedWith (shift (before.length + 1))
        (Program.relined (shift (before.length + 1))) (assemble source)) ∧
    (∀ front rest c, source = front ++ rest → WholeLines front → '\n' ∉ c → '\r' ∉ c → BlankLine c →
      assemble (front ++ (c ++ '\n' :: rest)) = relinedWith (shift ((lines front).length + 1))
        (Program.relined (shift ((lines front).length + 1))) (assemble source)) ∧
    (∀ source' before after line b comment, lines source = before ++ line :: after →
      lines source' = before ++ (line ++ b :: comment) :: after → isBlank b = true →
      CommentOnly comment → Scan.outside.after (stripComment line) = .outside →
      assemble source' = assemble source) ∧
    ∀ e, assemble source = .error e → 1 ≤ e.line ∧ e.line ≤ (lines source).length := by
  have hInsert : ∀ source' before after c, lines source = before ++ after →
      lines source' = before ++ c :: after → BlankLine c →
      assemble source' = relinedWith (shift (before.length + 1))
        (Program.relined (shift (before.length + 1))) (assemble source) := by
    intro source' before after c hLines hLines' hBlank
    apply assemble_revised
    rw [hLines, hLines']
    exact revised_insert (said_of_blankLine hBlank) before after
  refine ⟨hInsert, ?_, ?_, fun e he => ?_⟩
  · rintro front rest c rfl hFront hNewline hReturn hBlank
    refine hInsert _ (lines front) (lines rest) c (lines_append hFront rest) ?_ hBlank
    rw [lines_append hFront, lines_append_newline hNewline hReturn]
  · intro source' before after line b comment hLines hLines' hb hComment hOutside
    rw [← relinedWith_id (assemble source)]
    apply assemble_revised
    rw [hLines, hLines']
    exact revised_replace (said_append hb hComment hOutside) before after
  · -- numbers that no line has may be changed at will
    have hRevised : Revised (fun l => if 1 ≤ l ∧ l ≤ (lines source).length then l else l + 1)
        1 (lines source) 1 (lines source) :=
      .moved 0 fun l hl hl' => if_pos ⟨hl, by omega⟩
    have hSame := assemble_revised hRevised
    rw [he] at hSame
    have hLine : e.line = if 1 ≤ e.line ∧ e.line ≤ (lines source).length then e.line else e.line + 1 :=
      congrArg LineError.line (Except.error.inj hSame)
    by_contra hOut
    rw [if_neg hOut] at hLine
    omega

def twiceSource : Text := ".macro twice a\n add a, a, a\n.endm\n.global go\ngo: twice r2\n".toList

/-- A comment in the body of the macro moves what comes after it; a blank line at the end moves
nothing, and a comment behind the call does nothing. Without the macro the call is refused, on its
own line. -/
theorem blank_lines_only_move_numbers_twiceSource :
    (assemble (".macro twice a\n # doubled\n add a, a, a\n.endm\n.global go\ngo: twice r2\n".toList)
      |>.toOption.map fun p => (p.lines, p.globals.entries)) = some (#[6], [("go".toList, 5)]) ∧
    ((assemble (twiceSource ++ "\t\n".toList)).toOption.map fun p => (p.lines, p.globals.entries)) =
      some (#[5], [("go".toList, 4)]) ∧
    assemble (".macro twice a\n add a, a, a\n.endm\n.global go\ngo: twice r2 // '\n".toList) =
      assemble twiceSource ∧
    ∃ e, assemble "nop\ntwice r2\n".toList = .error e ∧ 1 ≤ e.line ∧ e.line ≤ 2 := by
  obtain ⟨hLine, hInsert, hAppend, -⟩ := blank_lines_only_move_numbers twiceSource
  obtain ⟨-, -, -, hError⟩ := blank_lines_only_move_numbers "nop\ntwice r2\n".toList
  have hAccepted : (assemble twiceSource).toOption.map (fun p => (p.lines, p.globals.entries)) =
      some (#[5], [("go".toList, 4)]) := by decide +kernel
  obtain ⟨p, hp, hFacts⟩ := exists_ok_of_map_eq hAccepted
  obtain ⟨hLines, hGlobals⟩ := Prod.mk.inj hFacts
  have hMoved : ∀ k, ((p.relined (shift k)).lines, (p.relined (shift k)).globals.entries) =
      (#[shift k 5], [("go".toList, shift k 4)]) := by
    intro k
    simp [Program.relined, Table.map, hLines, hGlobals]
  refine ⟨?_, ?_, ?_, ?_⟩
  · have hBlank : BlankLine " # doubled".toList :=
      ⟨[' '], "# doubled".toList, rfl, List.forall_mem_singleton.mpr rfl, .inr (.inl rfl)⟩
    have hFront : (lines ".macro twice a\n".toList).length + 1 = 2 := by decide +kernel
    have hInserted := hInsert ".macro twice a\n".toList
      " add a, a, a\n.endm\n.global go\ngo: twice r2\n".toList " # doubled".toList rfl (.inr rfl)
      (by decide) (by decide) hBlank
    rw [hFront, hp] at hInserted
    have hSame := congrArg (fun x => x.toOption.map fun p : Program => (p.lines, p.globals.entries))
      hInserted
    exact hSame.trans (congrArg some (hMoved 2))
  · have hInserted := hLine (twiceSource ++ "\t\n".toList) (lines twiceSource) [] "\t".toList
      (List.append_nil _).symm (by decide +kernel)
      ⟨['\t'], [], rfl, List.forall_mem_singleton.mpr rfl, .inl rfl⟩
    have hFront : (lines twiceSource).length + 1 = 6 := by decide +kernel
    rw [hFront, hp] at hInserted
    rw [hInserted]
    exact congrArg some (hMoved 6)
  · exact hAppend _ [".macro twice a".toList, " add a, a, a".toList, ".endm".toList,
      ".global go".toList] [] "go: twice r2".toList ' ' "// '".toList (by decide +kernel)
      (by decide +kernel) rfl (.inr (.inr ⟨_, rfl⟩)) (by decide)
  · have hRefused : (assemble "nop\ntwice r2\n".toList).toOption.isSome = false := by decide +kernel
    have hTwo : (lines "nop\ntwice r2\n".toList).length = 2 := by decide +kernel
    cases he : assemble "nop\ntwice r2\n".toList with
    | ok p =>
      rw [he] at hRefused
      cases hRefused
    | error e => exact ⟨e, rfl, hTwo ▸ hError e he⟩

end NiosBoard
