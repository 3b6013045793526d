import NiosBoard.Proofs.Assembly.Image
import NiosBoard.Proofs.Assembly.SourceLines
import NiosBoard.Proofs.Assembly.SpelledLines
import NiosBoard.Proofs.Text.Template

/-! # Pseudo-instructions

Each pseudo-instruction stands for one or two lines with places for its operands. A line that calls
one, in a source that defines no macros, becomes the instructions that these lines spell.
-/

namespace NiosBoard

open Text Template

/-- The comparisons that the machine does not have: it compares the other way round. -/
inductive Order where
  | gt
  | gtu
  | le
  | leu
  deriving DecidableEq, Repr

namespace Order

def Says (o : Order) (a b : Word) : Prop :=
  match o with
  | .gt => a.toInt > b.toInt
  | .gtu => a.toNat > b.toNat
  | .le => a.toInt ≤ b.toInt
  | .leu => a.toNat ≤ b.toNat

/-- What is asked of the operands in the other order. -/
def swapped : Order → Condition
  | .gt => .lt
  | .gtu => .ltu
  | .le => .ge
  | .leu => .geu

/-- What is asked of the immediate after the operand. -/
def beyond : Order → Condition
  | .gt => .ge
  | .gtu => .geu
  | .le => .lt
  | .leu => .ltu

end Order

inductive MoveI where
  | movi
  | movui
  | movhi
  deriving DecidableEq, Repr

def MoveI.op : MoveI → ArithI
  | .movi => .addi
  | .movui => .ori
  | .movhi => .orhi

inductive PseudoOp where
  | mov
  | moveI (k : MoveI)
  | movia
  | nop
  | subi
  | compare (o : Order)
  | branch (o : Order)
  | compareI (o : Order)
  deriving DecidableEq, Repr

namespace PseudoOp

def all : List PseudoOp :=
  [.mov, .moveI .movi, .moveI .movui, .moveI .movhi, .movia, .nop, .subi] ++
    [Order.gt, .gtu, .le, .leu].flatMap fun o => [.compare o, .branch o, .compareI o]

theorem mem_all (q : PseudoOp) : q ∈ all := by
  rcases q with _ | k | _ | _ | _ | o | o | o
  all_goals first | decide | (cases k <;> decide) | (cases o <;> decide)

def name : PseudoOp → String
  | .mov => "mov"
  | .moveI .movi => "movi"
  | .moveI .movui => "movui"
  | .moveI .movhi => "movhi"
  | .movia => "movia"
  | .nop => "nop"
  | .subi => "subi"
  | .compare .gt => "cmpgt"
  | .compare .gtu => "cmpgtu"
  | .compare .le => "cmple"
  | .compare .leu => "cmpleu"
  | .branch .gt => "bgt"
  | .branch .gtu => "bgtu"
  | .branch .le => "ble"
  | .branch .leu => "bleu"
  | .compareI .gt => "cmpgti"
  | .compareI .gtu => "cmpgtui"
  | .compareI .le => "cmplei"
  | .compareI .leu => "cmpleui"

def arity : PseudoOp → Nat
  | .nop => 0
  | .mov => 2
  | .moveI _ => 2
  | .movia => 2
  | _ => 3

def body : PseudoOp → List (Opcode × List Template)
  | .mov => [(.reg (.arith .add), [place 0, place 1, word "r0"])]
  | .moveI k => [(.imm (.arith k.op), [place 0, word "r0", place 1])]
  | .movia =>
    [(.imm (.arith .orhi), [place 0, word "r0", word "%hiadj(" ++ place 1 ++ word ")"]),
      (.imm (.arith .addi), [place 0, place 0, word "%lo(" ++ place 1 ++ word ")"])]
  | .nop => [(.reg (.arith .add), [word "r0", word "r0", word "r0"])]
  | .subi => [(.imm (.arith .addi), [place 0, place 1, word "-(" ++ place 2 ++ word ")"])]
  | .compare o => [(.reg (.compare o.swapped), [place 0, place 2, place 1])]
  | .branch o => [(.imm (.branch o.swapped), [place 1, place 0, place 2])]
  | .compareI o =>
    [(.imm (.compare o.beyond), [place 0, place 1, word "(" ++ place 2 ++ word ") + 1"])]

def lineTemplate (l : Opcode × List Template) : Template :=
  word l.1.mnemonic ++ .char ' ' :: Template.commaSeparated l.2

theorem get?_builtIn (q : PseudoOp) :
    (MacroTable.builtIn.table.get? q.name.toList).map (fun d =>
      (d.params.length, d.body.map (template d.params))) =
        some (q.arity, q.body.map lineTemplate) := by
  have hAll : ∀ q ∈ all, (MacroTable.builtIn.table.get? q.name.toList).map (fun d =>
      (d.params.length, d.body.map (template d.params))) =
        some (q.arity, q.body.map lineTemplate) := by
    decide +kernel
  exact hAll q (mem_all q)

/-- The opcode and the operands of each line, with the operands of the call in their places. -/
def standsFor (q : PseudoOp) (operands : List Text) : List (Opcode × List Text) :=
  q.body.map fun l => (l.1, l.2.map (fill operands))

theorem fill_lineTemplate (operands : List Text) (l : Opcode × List Template) :
    fill operands (lineTemplate l) = lineText (l.1, l.2.map (fill operands)) := by
  rw [lineTemplate, fill_append, fill_word, fill_cons, fill_commaSeparated]
  rfl

theorem expand_builtIn {q : PseudoOp} {written args : Text} {operands : List Text}
    (hName : lowercase written = q.name.toList) (hOperands : splitOperands args = operands)
    (hLength : operands.length = q.arity) :
    MacroTable.builtIn.expand written args = .ok ((q.standsFor operands).map lineText) := by
  obtain ⟨d, hGet, hParts⟩ := Option.map_eq_some_iff.mp q.get?_builtIn
  obtain ⟨hParams, hBody⟩ := Prod.mk.inj hParts
  have hMatch := hLength.trans hParams.symm
  have hLines : d.body.map (substitute fun param => (d.params.zip operands).lookup param) =
      (q.standsFor operands).map lineText :=
    calc d.body.map (substitute fun param => (d.params.zip operands).lookup param)
      _ = (d.body.map (template d.params)).map (fill operands) := by
        rw [List.map_map]
        exact List.map_congr_left fun t _ => substitute_eq_fill hMatch t
      _ = (q.body.map lineTemplate).map (fill operands) := by rw [hBody]
      _ = (q.standsFor operands).map lineText := by
        rw [standsFor, List.map_map, List.map_map]
        exact List.map_congr_left fun l _ => fill_lineTemplate operands l
  rw [MacroTable.expand, MacroTable.get?, hName, hGet]
  simp only [hOperands]
  rw [if_neg (not_not_intro hMatch), hLines]

end PseudoOp

/-! ### What calls spell -/

namespace PseudoOp

/-- The instructions that a call with these operands stands for, the first of them number `i`. -/
inductive Spells (symbols : Symbols) (i : Nat) : PseudoOp → List Text → List Instruction → Prop
  | mov {x y : Text} {c a : RegIndex} (hx : Names x c) (hy : Names y a) :
      Spells symbols i .mov [x, y] [.reg (.arith .add) ⟨a, 0, c, 0⟩]
  | moveI {k : MoveI} {x t : Text} {c : RegIndex} {v : Value} (hx : Names x c)
      (hv : Expression.evaluate symbols t = .ok v) :
      Spells symbols i (.moveI k) [x, t] [.imm (.arith k.op) ⟨0, c, v.setWidth 16⟩]
  | movia {x t : Text} {c : RegIndex} {v : Value} (hx : Names x c)
      (hv : Expression.evaluate symbols t = .ok v) :
      Spells symbols i .movia [x, t]
        [.imm (.arith .orhi) ⟨0, c, (Relocation.hiadj.apply v).setWidth 16⟩,
          .imm (.arith .addi) ⟨c, c, (Relocation.lo.apply v).setWidth 16⟩]
  | nop : Spells symbols i .nop [] [.reg (.arith .add) ⟨0, 0, 0, 0⟩]
  | subi {x y t : Text} {c a : RegIndex} {v : Value} (hx : Names x c) (hy : Names y a)
      (hv : Expression.evaluate symbols t = .ok v) :
      Spells symbols i .subi [x, y, t] [.imm (.arith .addi) ⟨a, c, (-v).setWidth 16⟩]
  | compare {o : Order} {x y z : Text} {c a b : RegIndex} (hx : Names x c) (hy : Names y a)
      (hz : Names z b) :
      Spells symbols i (.compare o) [x, y, z] [.reg (.compare o.swapped) ⟨b, a, c, 0⟩]
  | branch {o : Order} {x y t : Text} {a b : RegIndex} {v : Value} {imm : BitVec 16}
      (hx : Names x a) (hy : Names y b) (hv : Expression.evaluate symbols t = .ok v)
      (hImm : (imm.toNat : Int) = (v.toInt - (↑(4 * i) + 4)) % 2 ^ 16) :
      Spells symbols i (.branch o) [x, y, t] [.imm (.branch o.swapped) ⟨b, a, imm⟩]
  | compareI {o : Order} {x y t : Text} {c a : RegIndex} {v : Value} (hx : Names x c)
      (hy : Names y a) (hv : Expression.evaluate symbols t = .ok v) :
      Spells symbols i (.compareI o) [x, y, t] [.imm (.compare o.beyond) ⟨a, c, (v + 1).setWidth 16⟩]

namespace Spells

variable {symbols : Symbols} {i : Nat} {q : PseudoOp} {operands : List Text} {is : List Instruction}

theorem length_eq (h : Spells symbols i q operands is) : operands.length = q.arity := by
  cases h <;> rfl

open Expression in
theorem spellsLines (h : Spells symbols i q operands is) (hTrim : ∀ t ∈ operands, trim t = t) :
    SpellsLines symbols i (q.standsFor operands) is := by
  have hZero : Names "r0".toList 0 := by decide +kernel
  have hr0 : trim ['r', '0'] = ['r', '0'] := by decide
  have hImm : ∀ v : Value, ((v.setWidth 16).toNat : Int) = v.toInt % 2 ^ 16 :=
    toNat_setWidth_eq_emod (by decide)
  cases h with
  | @mov x y c a hx hy =>
    have hLines : standsFor .mov [x, y] = [(.reg (.arith .add), [x, y, "r0".toList])] := by
      simp [standsFor, body]
    rw [hLines]
    refine .cons ⟨.registers rfl hx hy hZero, .inl rfl, ?_⟩ (.nil _)
    simp_all
  | @moveI k x t c v hx hv =>
    have hLines : standsFor (.moveI k) [x, t] = [(.imm (.arith k.op), [x, "r0".toList, t])] := by
      simp [standsFor, body]
    rw [hLines]
    refine .cons ⟨.immediate rfl hx hZero hv (hImm v), .inl rfl, ?_⟩ (.nil _)
    simp_all
  | @movia x t c v hx hv =>
    have hLines : standsFor .movia [x, t] =
        [(.imm (.arith .orhi), [x, "r0".toList, relocatedText .hiadj t]),
          (.imm (.arith .addi), [x, x, relocatedText .lo t])] := by
      simp [standsFor, body, relocatedText, Relocation.name]
    rw [hLines]
    rw [List.forall_mem_cons] at hTrim
    refine .cons ⟨.immediate rfl hx hZero (evaluate_relocatedText .hiadj hv) (hImm _), .inl rfl, ?_⟩
      (.cons ⟨.immediate rfl hx hx (evaluate_relocatedText .lo hv) (hImm _), .inl rfl, ?_⟩ (.nil _))
    · simp [hr0, hTrim.1, trim_relocatedText]
    · simp [hTrim.1, trim_relocatedText]
  | nop =>
    have hLines : standsFor .nop [] =
        [(.reg (.arith .add), ["r0".toList, "r0".toList, "r0".toList])] := by
      simp [standsFor, body]
    rw [hLines]
    refine .cons ⟨.registers rfl hZero hZero hZero, .inl rfl, ?_⟩ (.nil _)
    simp [hr0]
  | @subi x y t c a v hx hy hv =>
    have hLines : standsFor .subi [x, y, t] = [(.imm (.arith .addi), [x, y, negatedText t])] := by
      simp [standsFor, body, negatedText]
    rw [hLines]
    refine .cons ⟨.immediate rfl hx hy (evaluate_negatedText hv) (hImm _), .inl rfl, ?_⟩ (.nil _)
    simp_all [trim_negatedText]
  | @compare o x y z c a b hx hy hz =>
    have hLines : standsFor (.compare o) [x, y, z] = [(.reg (.compare o.swapped), [x, z, y])] := by
      simp [standsFor, body]
    rw [hLines]
    refine .cons ⟨.registers rfl hx hz hy, .inl rfl, ?_⟩ (.nil _)
    simp_all
  | @branch o x y t a b v imm hx hy hv hFits =>
    have hLines : standsFor (.branch o) [x, y, t] = [(.imm (.branch o.swapped), [y, x, t])] := by
      simp [standsFor, body]
    rw [hLines]
    refine .cons ⟨.branch hy hx hv hFits, .inr rfl, ?_⟩ (.nil _)
    simp_all
  | @compareI o x y t c a v hx hy hv =>
    have hLines : standsFor (.compareI o) [x, y, t] =
        [(.imm (.compare o.beyond), [x, y, incrementedText t])] := by
      simp [standsFor, body, incrementedText]
    rw [hLines]
    refine .cons ⟨.immediate rfl hx hy (evaluate_incrementedText hv) (hImm _), .inl rfl, ?_⟩ (.nil _)
    simp_all [trim_incrementedText]

end Spells

end PseudoOp

/-! ### Calls in a source -/

namespace Draft

variable {d : Draft} {raw : Text} {q : PseudoOp} {operands : List Text}

/-- The line is read as a call of the pseudo-instruction, no macros having been defined. -/
structure ReadsCall (d : Draft) (raw : Text) (q : PseudoOp) (operands : List Text) : Prop where
  macros : d.macros = MacroTable.builtIn
  recording : d.recording = none
  constant : constantOperands? (said raw) = none
  call : ∃ written args,
    MacroTable.builtIn.call? (d.substituteConstants (said raw)) = some (written, args) ∧
      lowercase written = q.name.toList ∧ splitOperands args = operands

namespace ReadsCall

theorem trimmed (h : d.ReadsCall raw q operands) : ∀ t ∈ operands, trim t = t := by
  obtain ⟨written, args, -, -, rfl⟩ := h.call
  exact fun _ => trim_of_mem_splitOperands

theorem readLine_eq (h : d.ReadsCall raw q operands) (hLength : operands.length = q.arity)
    (line : Nat) :
    ∃ written, d.readLine line raw =
      d.enter line (d.substituteConstants (said raw)) written >>= fun d₁ =>
        ((q.standsFor operands).map lineText).foldlM
          (fun d t => d.statement (maxNesting - 1) line t) d₁ := by
  obtain ⟨written, args, hCall, hName, hOperands⟩ := h.call
  have hExpand := PseudoOp.expand_builtIn hName hOperands hLength
  rw [← h.macros] at hCall hExpand
  refine ⟨written, ?_⟩
  rw [readLine_eq_statement h.recording h.constant, statement_eq_enter hCall]
  simp only [maxNesting, hExpand]

variable {symbols : Symbols} {is : List Instruction} {line : Nat} {d₁ : Draft}

theorem exists_readLine (h : d.ReadsCall raw q operands)
    (hSpells : q.Spells symbols d.code.size operands is)
    (hLabels : d.labelled line (d.substituteConstants (said raw)) = .ok d₁)
    (hRegion : d₁.region = .text) :
    ∃ ps : List Pending, d.readLine line raw = .ok { d₁ with code := d₁.code ++ ps.toArray } ∧
      List.Forall₂ (fun ins p => Pending.instruction p symbols = .ok ins) is ps := by
  obtain ⟨written, hLine⟩ := h.readLine_eq hSpells.length_eq line
  have hLines := hSpells.spellsLines h.trimmed
  have hKeeps := keeps_of_labelled hLabels
  have hEnter : d.enter line (d.substituteConstants (said raw)) written = .ok d₁ := by
    rw [enter, hLabels]
    exact if_neg (by rw [hRegion]; exact Region.noConfusion)
  rw [← hKeeps.code] at hLines
  obtain ⟨ps, hFold, hFinish⟩ :=
    hLines.exists_statements (hKeeps.macros.trans h.macros) hRegion (maxNesting - 1) line
  refine ⟨ps, ?_, hFinish⟩
  rw [hLine, hEnter]
  exact hFold

/-- What an accepted call has added to the code. -/
theorem exists_of_readLine {d' : Draft} (h : d.ReadsCall raw q operands)
    (hSpells : q.Spells symbols d.code.size operands is)
    (hd : d.readLine line raw = .ok d') :
    ∃ ps : List Pending, d'.code = d.code ++ ps.toArray ∧
      List.Forall₂ (fun ins p => Pending.instruction p symbols = .ok ins) is ps := by
  obtain ⟨written, hLine⟩ := h.readLine_eq hSpells.length_eq line
  rw [hLine] at hd
  obtain ⟨d₁, hEnter, -⟩ := bind_eq_ok_iff.mp hd
  obtain ⟨d₂, hLabels, hEnter⟩ := bind_eq_ok_iff.mp hEnter
  -- entering the line would have failed among data
  have hRegion : d₂.region = .text := by
    cases hText : d₂.region with
    | text => rfl
    | data =>
      rw [hText] at hEnter
      cases hEnter
  obtain ⟨ps, hRead, hFinish⟩ := h.exists_readLine hSpells hLabels hRegion
  rw [← hLine, hRead] at hd
  cases hd
  exact ⟨ps, by rw [(keeps_of_labelled hLabels).code], hFinish⟩

end ReadsCall

end Draft

/-- A line of the source is read as this call, `d` being what the lines in front of it have said. -/
def CallsPseudo (source : Text) (d : Draft) (q : PseudoOp) (operands : List Text) : Prop :=
  ∃ before raw after, lines source = before ++ raw :: after ∧
    Draft.readLines 1 before Draft.new = .ok d ∧ d.ended = false ∧ d.ReadsCall raw q operands

theorem callsPseudo_of_line {source : Text} (raw written args : Text) {q : PseudoOp}
    {operands : List Text}
    (h : lines source = [raw] ∧ Draft.constantOperands? (said raw) = none ∧
      MacroTable.builtIn.call? (Draft.new.substituteConstants (said raw)) = some (written, args) ∧
      lowercase written = q.name.toList ∧ splitOperands args = operands) :
    CallsPseudo source Draft.new q operands := by
  obtain ⟨hLines, hConstant, hCall, hName, hOperands⟩ := h
  exact ⟨[], raw, [], hLines, rfl, rfl, rfl, rfl, hConstant, written, args, hCall, hName, hOperands⟩

/-- In the program of the source the instructions that the call stands for follow what the lines in
front of it gave. -/
theorem CallsPseudo.word_eq_encode {source : Text} {p : Program} {d : Draft} {q : PseudoOp}
    {operands : List Text} {is : List Instruction} (h : CallsPseudo source d q operands)
    (hp : assemble source = .ok p) (hSpells : q.Spells p.symbol? d.code.size operands is) {k : Nat}
    {ins : Instruction} (hk : is[k]? = some ins) :
    d.code.size + k < p.length ∧ p.word (4 * (d.code.size + k)) = ins.encode := by
  obtain ⟨before, raw, after, hLines, hBefore, hRunning, hCall⟩ := h
  obtain ⟨d', hSource, hLink⟩ := bind_eq_ok_iff.mp hp
  obtain ⟨d₁, hRead, hSource⟩ := bind_eq_ok_iff.mp hSource
  obtain rfl : d₁ = d' := by
    split at hSource <;> cases hSource
    rfl
  rw [hLines, Draft.readLines_append hBefore hRunning, Draft.readLines] at hRead
  obtain ⟨d₂, hLine, hRest⟩ := bind_eq_ok_iff.mp hRead
  obtain ⟨ps, hCode, hFinish⟩ := hCall.exists_of_readLine hSpells hLine
  -- later lines only add to the code
  have hPrefix : d₂.code.toList <+: d₁.code.toList := by
    split at hRest
    · cases hRest
      exact List.prefix_rfl
    · exact Draft.prefix_code_of_readLines hRest
  obtain ⟨js, chunks, placed, dataEnd, hLinks⟩ := Draft.link_eq_ok hLink
  obtain ⟨pending, hPending, hIns⟩ := exists_getElem?_of_forall₂ hFinish.flip hk
  have hAt : d₁.code.toList[d.code.size + k]? = some pending := by
    obtain ⟨more, hMore⟩ := hPrefix
    have hLt := (List.getElem?_eq_some_iff.mp hPending).1
    rw [← hMore, hCode, Array.toList_append, List.append_assoc, List.getElem?_append_right (by simp),
      Array.length_toList, Nat.add_sub_cancel_left, List.getElem?_append_left hLt, hPending]
  obtain ⟨j, hj, hFinished⟩ := exists_getElem?_of_forall₂ hLinks.code hAt
  cases hIns.symm.trans hFinished
  refine ⟨?_, hLinks.word_eq_encode hj⟩
  rw [hLinks.length_eq_length]
  exact (List.getElem?_eq_some_iff.mp hj).1

end NiosBoard
