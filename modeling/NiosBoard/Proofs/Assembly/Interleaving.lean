import NiosBoard.Proofs.Assembly.Renumbering
import NiosBoard.Proofs.Assembly.TextRegion

/-! # Code and data next to each other

An instruction and a data directive that are next to each other in the text region may be exchanged:
each does to the draft what the other leaves alone. Everything behind them is read in step, and the
second pass sees only other line numbers. One exchange after another sorts a whole block.
-/

namespace NiosBoard

open Text

namespace Draft

variable {d d' : Draft} {line : Nat} {raw code item operands operands' : Text}
  {labels labels' : List Text} {o : Opcode} {kind : DataKind} {f : Nat → Nat}

/-! ### Two lines exchanged -/

theorem readLines_two_eq_ok_iff {α β : Type} {a b : Text} {P : α → Prop} {Q : β → Prop}
    {g : α → Draft} {k : α → β → Draft}
    (hFirst : ∀ d₁, d.readLine line a = .ok d₁ ↔ Fresh d.defined labels ∧ ∃ x, P x ∧ d₁ = g x)
    (hSecond : ∀ x d₂, (g x).readLine (line + 1) b = .ok d₂ ↔
      Fresh (labels.reverse ++ d.defined) labels' ∧ ∃ y, Q y ∧ d₂ = k x y)
    (hRunning : ∀ x, (g x).ended = false) :
    readLines line [a, b] d = .ok d' ↔
      (Fresh d.defined labels ∧ Fresh (labels.reverse ++ d.defined) labels') ∧
        ∃ x y, P x ∧ Q y ∧ d' = k x y := by
  rw [readLines, bind_eq_ok_iff]
  constructor
  · rintro ⟨d₁, h, hRest⟩
    obtain ⟨hFresh, x, hx, rfl⟩ := (hFirst d₁).mp h
    rw [hRunning, if_neg Bool.false_ne_true, readLines_singleton] at hRest
    obtain ⟨hFresh', y, hy, rfl⟩ := (hSecond x d').mp hRest
    exact ⟨⟨hFresh, hFresh'⟩, x, y, hx, hy, rfl⟩
  · rintro ⟨⟨hFresh, hFresh'⟩, x, y, hx, hy, rfl⟩
    refine ⟨g x, (hFirst _).mpr ⟨hFresh, x, hx, rfl⟩, ?_⟩
    rw [hRunning, if_neg Bool.false_ne_true, readLines_singleton]
    exact (hSecond x _).mpr ⟨hFresh', y, hy, rfl⟩

theorem readLines_code_item_eq_ok_iff (hText : d.InText) (hRunning : d.ended = false)
    (hCode : d.SaysInstruction code labels o operands) (hItem : d.SaysItem item labels' kind operands') :
    readLines line [code, item] d = .ok d' ↔
      (Fresh d.defined labels ∧ Fresh (labels.reverse ++ d.defined) labels') ∧
        ∃ p i, Pending.ofOperands o line (codeAddress d.code.size) operands = .ok p ∧
          DataItem.ofOperands kind operands' = .ok i ∧
          d' = (d.withInstruction labels p).withItem labels' i (line + 1) :=
  readLines_two_eq_ok_iff (fun _ => hCode.readLine_eq_ok_iff hText)
    (fun p _ => (hItem.of_stays (stays_withInstruction d labels p)).readLine_eq_ok_iff
      (hText.of_stays (stays_withInstruction d labels p)))
    fun _ => hRunning

theorem readLines_item_code_eq_ok_iff (hText : d.InText) (hRunning : d.ended = false)
    (hCode : d.SaysInstruction code labels o operands) (hItem : d.SaysItem item labels' kind operands') :
    readLines line [item, code] d = .ok d' ↔
      (Fresh d.defined labels' ∧ Fresh (labels'.reverse ++ d.defined) labels) ∧
        ∃ i p, DataItem.ofOperands kind operands' = .ok i ∧
          Pending.ofOperands o (line + 1) (codeAddress d.code.size) operands = .ok p ∧
          d' = (d.withItem labels' i line).withInstruction labels p :=
  readLines_two_eq_ok_iff (fun _ => hItem.readLine_eq_ok_iff hText)
    (fun i _ => (hCode.of_stays (stays_withItem d labels' i line)).readLine_eq_ok_iff
      (hText.of_stays (stays_withItem d labels' i line)))
    fun _ => hRunning

/-- Read in the other order, the instruction and the data item are the same, by each other's line
number. -/
theorem renumbered_withItem_withInstruction (p : Pending) (i : DataItem) (labels labels' : List Text)
    (line : Nat) (hCode : d.code.map (·.relined f) = d.code)
    (hData : d.data.map (·.relined f) = d.data) :
    Renumbered f ((d.withInstruction labels p).withItem labels' i line)
      ((d.withItem labels' i (f line)).withInstruction labels (p.relined f)) := by
  have hCode' : (d.code.push p).map (·.relined f) = d.code.push (p.relined f) := by
    rw [Array.map_push, hCode]
  have hData' : (d.data.push ⟨d.waiting ++ labels', i, line⟩).map (·.relined f) =
      d.data.push ⟨d.waiting ++ labels', i, f line⟩ := by
    rw [Array.map_push, hData]
    rfl
  have hDefined : (labels.reverse ++ (labels'.reverse ++ d.defined)).Perm
      (labels'.reverse ++ (labels.reverse ++ d.defined)) := by
    rw [← List.append_assoc, ← List.append_assoc]
    exact List.perm_append_comm.append_right _
  exact .of_map hCode' hData' hDefined

theorem readLines_exchanged (hText : d.InText) (hRunning : d.ended = false)
    (hCode : d.SaysInstruction code labels o operands) (hItem : d.SaysItem item labels' kind operands')
    (hCodeLines : d.code.map (·.relined (Equiv.swap line (line + 1))) = d.code)
    (hDataLines : d.data.map (·.relined (Equiv.swap line (line + 1))) = d.data) :
    Together (Renumbered (Equiv.swap line (line + 1))) (readLines line [code, item] d)
      (readLines line [item, code] d) := by
  have hPending := Pending.ofOperands_relined (f := Equiv.swap line (line + 1)) o line
    (codeAddress d.code.size) operands
  rw [Equiv.swap_apply_left] at hPending
  refine Alike.of_ok (fun d₁ h => ?_) fun d₁ h => ?_
  · obtain ⟨hFresh, p, i, hp, hi, rfl⟩ :=
      (readLines_code_item_eq_ok_iff hText hRunning hCode hItem).mp h
    rw [hp] at hPending
    have hSame := renumbered_withItem_withInstruction p i labels labels' (line + 1) hCodeLines hDataLines
    rw [Equiv.swap_apply_right] at hSame
    exact ⟨_, (readLines_item_code_eq_ok_iff hText hRunning hCode hItem).mpr
      ⟨fresh_and_fresh_comm.mp hFresh, i, _, hi, hPending, rfl⟩, hSame⟩
  · obtain ⟨hFresh, i, p, hi, hp, -⟩ :=
      (readLines_item_code_eq_ok_iff hText hRunning hCode hItem).mp h
    rw [hp] at hPending
    cases hp' : Pending.ofOperands o line (codeAddress d.code.size) operands with
    | error e =>
      rw [hp'] at hPending
      cases hPending
    | ok p' => exact ⟨_, (readLines_code_item_eq_ok_iff hText hRunning hCode hItem).mpr
        ⟨fresh_and_fresh_comm.mpr hFresh, p', i, hp', hi, rfl⟩⟩

/-! ### The lines around them -/

theorem readLines_cons_exchanged (hText : d.InText) (hRunning : d.ended = false)
    (hCode : d.SaysInstruction code labels o operands) (hItem : d.SaysItem item labels' kind operands')
    (hCodeLines : d.code.map (·.relined (Equiv.swap line (line + 1))) = d.code)
    (hDataLines : d.data.map (·.relined (Equiv.swap line (line + 1))) = d.data) (after : List Text) :
    Together (Renumbered (Equiv.swap line (line + 1))) (readLines line (code :: item :: after) d)
      (readLines line (item :: code :: after) d) := by
  show Together _ (readLines line ([code, item] ++ after) d) (readLines line ([item, code] ++ after) d)
  rw [readLines_append_eq hRunning, readLines_append_eq hRunning]
  refine (readLines_exchanged hText hRunning hCode hItem hCodeLines hDataLines).bind
    fun d₁ d₂ _ h₁ => ?_
  rw [h₁.ended]
  split
  · exact .ok h₁
  · refine h₁.readLines fun l (hl : line + 2 ≤ l) => ?_
    exact Equiv.swap_apply_of_ne_of_ne (by omega) (by omega)

/-- The numbers of the lines read so far are those of instructions and data items. -/
theorem map_relined_of_readLines {raws : List Text} (h : readLines 1 raws new = .ok d)
    (hLines : ∀ l, 1 ≤ l → l ≤ raws.length → f l = l) :
    d.code.map (·.relined f) = d.code ∧ d.data.map (·.relined f) = d.data := by
  have hMoved : Revised f 1 raws 1 raws := .moved 0 fun l hl hl' => hLines l hl (by omega)
  have hSame := readLines_revised hMoved (new_relined f) rfl
  rw [h] at hSame
  have hRelined : d.relined id = d.relined f := Except.ok.inj hSame
  constructor
  · calc d.code.map (·.relined f) = d.code.map (·.relined id) := (congrArg Draft.code hRelined).symm
      _ = d.code := Array.map_id _
  · calc d.data.map (·.relined f) = d.data.map (·.relined id) := (congrArg Draft.data hRelined).symm
      _ = d.data := Array.map_id _

/-- Wherever the lines in front leave lines to be read, they leave the text region open and no macro,
the first lines are instructions of the catalogue behind labels, and the second are data directives
behind labels. -/
def Admits (before cs ds : List Text) : Prop :=
  ∀ d, readLines 1 before new = .ok d → d.ended = false → d.InText ∧
    (∀ c ∈ cs, ∃ labels o operands, d.SaysInstruction c labels o operands) ∧
    ∀ x ∈ ds, ∃ labels kind operands, d.SaysItem x labels kind operands

variable {before cs ds : List Text}

theorem Admits.mono {cs' ds' : List Text} (h : Admits before cs ds) (hCode : cs' ⊆ cs)
    (hData : ds' ⊆ ds) : Admits before cs' ds' := by
  intro d hBefore hRunning
  obtain ⟨hText, hcs, hds⟩ := h d hBefore hRunning
  exact ⟨hText, fun c hc => hcs c (hCode hc), fun x hx => hds x (hData hx)⟩

/-- One of the lines leaves the others what they are. -/
theorem Admits.snoc (h : Admits before cs ds) (hRaw : raw ∈ cs ∨ raw ∈ ds) :
    Admits (before ++ [raw]) cs ds := by
  intro d' hRead hRunning'
  rw [readLines_append_eq rfl, bind_eq_ok_iff] at hRead
  obtain ⟨d, hBefore, hRead⟩ := hRead
  split at hRead
  · next hEnded =>
    cases hRead
    rw [hEnded] at hRunning'
    cases hRunning'
  next hEnded =>
  obtain ⟨hText, hcs, hds⟩ := h d hBefore (Bool.eq_false_iff.mpr hEnded)
  have hStays : d.Stays d' := by
    rw [readLines_singleton] at hRead
    rcases hRaw with hRaw | hRaw
    · obtain ⟨labels, o, operands, hSays⟩ := hcs raw hRaw
      obtain ⟨-, p, -, rfl⟩ := (hSays.readLine_eq_ok_iff hText).mp hRead
      exact stays_withInstruction d labels p
    · obtain ⟨labels, kind, operands, hSays⟩ := hds raw hRaw
      obtain ⟨-, i, -, rfl⟩ := (hSays.readLine_eq_ok_iff hText).mp hRead
      exact stays_withItem d labels i _
  refine ⟨hText.of_stays hStays, fun c hc => ?_, fun x hx => ?_⟩
  · obtain ⟨labels, o, operands, hSays⟩ := hcs c hc
    exact ⟨labels, o, operands, hSays.of_stays hStays⟩
  · obtain ⟨labels, kind, operands, hSays⟩ := hds x hx
    exact ⟨labels, kind, operands, hSays.of_stays hStays⟩

theorem readLines_append_exchanged (h : Admits before [code] [item]) (after : List Text) :
    Together (Renumbered (Equiv.swap (before.length + 1) (before.length + 2)))
      (readLines 1 (before ++ code :: item :: after) new)
      (readLines 1 (before ++ item :: code :: after) new) := by
  rw [readLines_append_eq rfl, readLines_append_eq rfl, Nat.add_comm 1]
  cases hBefore : readLines 1 before new with
  | error e => exact .error trivial
  | ok d =>
    obtain ⟨hCodeLines, hDataLines⟩ := map_relined_of_readLines hBefore
      fun l _ (hl : l ≤ before.length) =>
        Equiv.swap_apply_of_ne_of_ne (a := before.length + 1) (b := before.length + 2) (by omega) (by omega)
    show Together _ (if d.ended then _ else _) (if d.ended then _ else _)
    split
    · exact .ok (.of_map hCodeLines hDataLines (.refl _))
    · next hEnded =>
      have hRunning : d.ended = false := Bool.eq_false_iff.mpr hEnded
      obtain ⟨hText, hcs, hds⟩ := h d hBefore hRunning
      obtain ⟨labels, o, operands, hCode⟩ := hcs code List.mem_cons_self
      obtain ⟨labels', kind, operands', hItem⟩ := hds item List.mem_cons_self
      exact readLines_cons_exchanged hText hRunning hCode hItem hCodeLines hDataLines after

end Draft

open Draft

theorem Draft.Renumbered.finish {f : Nat → Nat} {d d' : Draft} (h : Renumbered f d d') :
    d'.finish.toOption = d.finish.toOption.map fun p => { p with lines := p.lines.map f } := by
  rw [Draft.finish, Draft.finish, h.recording]
  split
  · exact h.link
  · rfl

theorem assembleLines_renumbered {f : Nat → Nat} {raws raws' : List Text}
    (h : Together (Renumbered f) (readLines 1 raws new) (readLines 1 raws' new)) :
    (assembleLines raws').toOption =
      (assembleLines raws).toOption.map fun p => { p with lines := p.lines.map f } := by
  rw [assembleLines, assembleLines]
  generalize readLines 1 raws new = x at h ⊢
  generalize readLines 1 raws' new = x' at h ⊢
  cases h with
  | ok h => exact h.finish
  | error _ => rfl

inductive Interleaved : List Text → List Text → List Text → Prop
  | nil : Interleaved [] [] []
  | code {cs ds block : List Text} (c : Text) (h : Interleaved cs ds block) :
      Interleaved (c :: cs) ds (c :: block)
  | item {cs ds block : List Text} (x : Text) (h : Interleaved cs ds block) :
      Interleaved cs (x :: ds) (x :: block)

/-- All of a program but the lines of its instructions. -/
def Program.content (p : Program) : Array Byte × Table Word × Table Nat :=
  (p.image, p.symbols, p.globals)

variable {before cs ds : List Text}

theorem content_assembleLines_moved {item : Text} (h : Admits before cs [item])
    (after : List Text) :
    (assembleLines (before ++ item :: (cs ++ after))).toOption.map Program.content =
      (assembleLines (before ++ (cs ++ item :: after))).toOption.map Program.content := by
  induction cs generalizing before with
  | nil => rfl
  | cons c cs ih =>
    have hExchanged := assembleLines_renumbered
      (readLines_append_exchanged (h.mono (List.cons_subset_cons c (List.nil_subset cs)) (List.Subset.refl _)) (cs ++ after))
    have hMoved := ih ((h.snoc (.inl List.mem_cons_self)).mono (List.subset_cons_self _ _) (List.Subset.refl _))
    rw [List.append_assoc, List.append_assoc] at hMoved
    rw [List.cons_append, hExchanged, Option.map_map]
    exact hMoved

theorem content_assembleLines_interleaved {block : List Text} (h : Interleaved cs ds block)
    (hAdmits : Admits before cs ds) (after : List Text) :
    (assembleLines (before ++ (block ++ after))).toOption.map Program.content =
      (assembleLines (before ++ (cs ++ (ds ++ after)))).toOption.map Program.content := by
  induction h generalizing before with
  | nil => rfl
  | @code cs ds block c _ ih =>
    have hRest := ih ((hAdmits.snoc (.inl List.mem_cons_self)).mono (List.subset_cons_self _ _)
      (List.Subset.refl _))
    rwa [List.append_assoc, List.append_assoc] at hRest
  | @item cs ds block x _ ih =>
    have hRest := ih ((hAdmits.snoc (.inr List.mem_cons_self)).mono (List.Subset.refl _)
      (List.subset_cons_self _ _))
    rw [List.append_assoc, List.append_assoc] at hRest
    refine hRest.trans (content_assembleLines_moved (hAdmits.mono (List.Subset.refl _) ?_) _)
    simp

theorem map_swap_map_swap (k l : Nat) (x : Option Program) :
    (x.map fun p => { p with lines := p.lines.map (Equiv.swap k l) }).map
      (fun p => { p with lines := p.lines.map (Equiv.swap k l) }) = x := by
  have hTwice : (Equiv.swap k l : Nat → Nat) ∘ Equiv.swap k l = id :=
    funext (Equiv.congr_fun (Equiv.swap_swap k l))
  cases x with
  | none => rfl
  | some p => simp [hTwice]

/-- In the text region, outside the bodies of macros, an instruction and a data directive that are
next to each other may be exchanged: the source is accepted as before, the image, the labels and
the global names are the same, and the line table trades the two numbers. So the image and the
labels depend on the instructions and on the data directives of a block, each in their order, and
not on how the block mixes them. -/
theorem code_and_data_lines_commute {before cs ds : List Text} (h : Admits before cs ds) :
    (∀ source source' a b after, lines source = before ++ a :: b :: after →
      lines source' = before ++ b :: a :: after → (a ∈ cs ∧ b ∈ ds ∨ a ∈ ds ∧ b ∈ cs) →
      (assemble source').toOption = (assemble source).toOption.map fun p =>
        { p with lines := p.lines.map (Equiv.swap (before.length + 1) (before.length + 2)) }) ∧
    ∀ source source' block block' after, lines source = before ++ (block ++ after) →
      lines source' = before ++ (block' ++ after) → Interleaved cs ds block →
      Interleaved cs ds block' →
      (assemble source').toOption.map Program.content =
        (assemble source).toOption.map Program.content := by
  refine ⟨fun source source' a b after hLines hLines' hPair => ?_,
    fun source source' block block' after hLines hLines' hBlock hBlock' => ?_⟩
  · have hExchanged : ∀ {c x : Text}, c ∈ cs → x ∈ ds →
        (assembleLines (before ++ x :: c :: after)).toOption =
          (assembleLines (before ++ c :: x :: after)).toOption.map fun p =>
            { p with lines := p.lines.map (Equiv.swap (before.length + 1) (before.length + 2)) } :=
      fun hc hx =>
      assembleLines_renumbered (readLines_append_exchanged
        (h.mono (by simpa using hc) (by simpa using hx)) after)
    rw [assemble_eq_assembleLines, assemble_eq_assembleLines, hLines, hLines']
    rcases hPair with ⟨ha, hb⟩ | ⟨ha, hb⟩
    · exact hExchanged ha hb
    · rw [hExchanged hb ha]
      exact (map_swap_map_swap _ _ _).symm
  · rw [assemble_eq_assembleLines, assemble_eq_assembleLines, hLines, hLines']
    exact (content_assembleLines_interleaved hBlock' h after).trans
      (content_assembleLines_interleaved hBlock h after).symm

def lateFront : List Text := [".data".toList, "late:".toList, ".text".toList]

def lateCode : List Text := ["go: addi r2, r0, %lo(late)".toList, "ldw r3, 4(r2)".toList]

def lateData : List Text := ["near: .word go".toList, ".half near".toList]

theorem admits_late : Admits lateFront lateCode lateData := by
  have hFront : (readLines 1 lateFront new).toOption.map
      (fun d => (d.region, d.recording.isNone, d.constants.entries.isEmpty,
        d.macros.contains "addi".toList, d.macros.contains "ldw".toList)) =
          some (.text, true, true, false, false) := by decide +kernel
  obtain ⟨d, hBefore, hFacts⟩ := exists_ok_of_map_eq hFront
  simp only [Prod.mk.injEq] at hFacts
  obtain ⟨hRegion, hRecording, hConstants, hAddi, hLdw⟩ := hFacts
  have hEmpty : d.constants = Table.empty := congrArg Table.mk (List.isEmpty_iff.mp hConstants)
  have hSubstitute : ∀ t, d.substituteConstants t = substitute (Table.empty : Table Text).get? t :=
    fun t => by rw [substituteConstants, hEmpty]
  intro d' hBefore' _
  cases hBefore.symm.trans hBefore'
  refine ⟨⟨hRegion, Option.isNone_iff_eq_none.mp hRecording⟩, ?_, ?_⟩
  · rw [lateCode, List.forall_mem_cons, List.forall_mem_singleton]
    refine ⟨⟨["go".toList], .imm (.arith .addi), " r2, r0, %lo(late)".toList, by decide +kernel, ?_,
      "addi".toList, hAddi, by decide +kernel, ?_⟩, [], .imm (.load .w false), " r3, 4(r2)".toList,
      by decide +kernel, ?_, "ldw".toList, hLdw, by decide +kernel, ?_⟩ <;>
    · rw [hSubstitute]
      decide +kernel
  · rw [lateData, List.forall_mem_cons, List.forall_mem_singleton]
    refine ⟨⟨["near".toList], .values .word, " go".toList, by decide +kernel, ?_, "word".toList,
      by decide +kernel, ?_⟩, [], .values .half, " near".toList, by decide +kernel, ?_, "half".toList,
      by decide +kernel, ?_⟩ <;>
    · rw [hSubstitute]
      decide +kernel

def lateSource : Text :=
  (".data\nlate:\n.text\ngo: addi r2, r0, %lo(late)\nnear: .word go\nldw r3, 4(r2)\n" ++
    ".half near\n").toList

/-- The data item has the label that waits, wherever it stands; the line table follows the
instructions. -/
theorem code_and_data_lines_commute_lateSource :
    ((assemble (".data\nlate:\n.text\nnear: .word go\ngo: addi r2, r0, %lo(late)\nldw r3, 4(r2)\n" ++
      ".half near\n").toList).toOption.map fun p => (p.lines, p.symbol? "late".toList)) =
        some (#[5, 6], some 12) ∧
    (assemble (".data\nlate:\n.text\nnear: .word go\n.half near\ngo: addi r2, r0, %lo(late)\n" ++
      "ldw r3, 4(r2)\n").toList).toOption.map Program.content =
        (assemble lateSource).toOption.map Program.content := by
  obtain ⟨hExchanged, hInterleaved⟩ := code_and_data_lines_commute admits_late
  constructor
  · have hAccepted : (assemble lateSource).toOption.map (fun p => (p.lines, p.symbol? "late".toList)) =
        some (#[4, 6], some 12) := by decide +kernel
    obtain ⟨p, hp, hFacts⟩ := exists_ok_of_map_eq hAccepted
    obtain ⟨hLines, hLate⟩ := Prod.mk.inj hFacts
    rw [hExchanged lateSource _ "go: addi r2, r0, %lo(late)".toList "near: .word go".toList
      ["ldw r3, 4(r2)".toList, ".half near".toList] (by decide +kernel) (by decide +kernel)
      (.inl ⟨List.mem_cons_self, List.mem_cons_self⟩), hp]
    show some (p.lines.map _, p.symbol? _) = _
    rw [hLines, hLate]
    decide +kernel
  · exact hInterleaved lateSource _
      ["go: addi r2, r0, %lo(late)".toList, "near: .word go".toList, "ldw r3, 4(r2)".toList,
        ".half near".toList]
      (lateData ++ lateCode) [] (by decide +kernel) (by decide +kernel)
      (.code _ (.item _ (.code _ (.item _ .nil)))) (.item _ (.item _ (.code _ (.code _ .nil))))

end NiosBoard
