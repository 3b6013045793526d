import Mathlib
import NiosBoard.Assembly.Macros
import NiosBoard.Proofs.Table
import NiosBoard.Proofs.Text.OperandLists
import NiosBoard.Proofs.Text.Parts
import NiosBoard.Proofs.Text.Template

/-! # The macro table under definitions and calls

A name means the first definition that was successfully given for it, in whatever case it is written,
and later definitions do not change what it means. A call puts its operands into the lines of the body
in one pass, so names that come in with an operand are not replaced.
-/

namespace NiosBoard.MacroTable

open Text

structure Definition where
  name : Text
  params : List Text
  body : List Text
  deriving DecidableEq, Repr

def Definition.entry (d : Definition) : MacroDef := ⟨d.params, d.body⟩

/-- Equal up to the case of ASCII letters. -/
def SameName (name name' : Text) : Prop := lowercase name = lowercase name'

instance (name name' : Text) : Decidable (SameName name name') :=
  inferInstanceAs (Decidable (lowercase name = lowercase name'))

def builtInDefinitions : List Definition :=
  pseudoInstructions.map fun (name, params, body) =>
    ⟨name.toList, params.map String.toList, body.map String.toList⟩

/-- The table after a call of `define`. -/
def attempt (m : MacroTable) (d : Definition) : MacroTable :=
  match m.define d.name d.params d.body with
  | .ok m' => m'
  | .error _ => m

/-- The calls of `define` that succeed when they are made one after another on this table. -/
def accepted : MacroTable → List Definition → List Definition
  | _, [] => []
  | m, d :: ds =>
    match m.define d.name d.params d.body with
    | .ok m' => d :: accepted m' ds
    | .error _ => accepted m ds

def after (calls : List Definition) : MacroTable := calls.foldl attempt builtIn

/-- The definitions that count after these calls of `define`. -/
def inForce (calls : List Definition) : List Definition :=
  builtInDefinitions ++ accepted builtIn calls

/-- What a name in the body of a macro stands for in a call. -/
def argument (params operands : List Text) (name : Text) : Option Text :=
  (params.idxOf? name).bind (operands[·]?)

/-- The line of a call that this line of the body gives. -/
def FilledIn (params operands : List Text) (line out : Text) : Prop :=
  ∃ ps, Parts line ps ∧ out = filled ps ((names ps).map (argument params operands))

theorem lowercase_lowercase (t : Text) : lowercase (lowercase t) = lowercase t := by
  simp [lowercase]

/-! ### One call -/

theorem firstRepeated?_eq_none_iff {seen params : List Text} :
    firstRepeated? seen params = none ↔ params.Nodup ∧ ∀ p ∈ params, p ∉ seen := by
  induction params generalizing seen with
  | nil => simp [firstRepeated?]
  | cons p params ih =>
    rw [firstRepeated?, List.nodup_cons, List.forall_mem_cons]
    split
    · next hSeen => simp [hSeen]
    · next hSeen =>
      rw [ih]
      simp only [List.mem_cons, not_or, hSeen, not_false_eq_true, true_and]
      constructor
      · rintro ⟨hNodup, hNew⟩
        exact ⟨⟨fun hp => (hNew p hp).1 rfl, hNodup⟩, fun q hq => (hNew q hq).2⟩
      · rintro ⟨⟨hFresh, hNodup⟩, hNew⟩
        exact ⟨hNodup, fun q hq => ⟨fun hEq => hFresh (hEq ▸ hq), hNew q hq⟩⟩

section Calls

variable {m m' : MacroTable} {name : Text}

theorem define_eq_ok_iff {params body : List Text} :
    m.define name params body = .ok m' ↔ m.get? name = none ∧ params.Nodup ∧
      m' = ⟨m.table.insert (lowercase name) ⟨params, body⟩⟩ := by
  have hNodup : firstRepeated? [] params = none ↔ params.Nodup := by
    rw [firstRepeated?_eq_none_iff]
    simp
  rw [define, contains, ← hNodup]
  cases m.get? name with
  | some entry => simp
  | none =>
    cases firstRepeated? [] params with
    | some p => simp
    | none => simp [eq_comm]

theorem expand_eq_ok_iff {args : Text} {lines : List Text} :
    m.expand name args = .ok lines ↔ ∃ entry, m.get? name = some entry ∧
      (splitOperands args).length = entry.params.length ∧
      lines = entry.body.map (substitute (argument entry.params (splitOperands args))) := by
  rw [expand]
  cases m.get? name with
  | none => simp
  | some entry =>
    have hArgument : (fun param => (entry.params.zip (splitOperands args)).lookup param) =
        argument entry.params (splitOperands args) :=
      funext fun param => lookup_zip_eq_bind _ _ _
    simp only [hArgument]
    split
    · next hLength => simp [hLength]
    · next hLength => simp [not_not.mp hLength, eq_comm]

theorem expand_of_define_of_not_sameName {d : Definition}
    (h : m.define d.name d.params d.body = .ok m') (args : Text) (hOther : ¬ SameName d.name name) :
    m'.expand name args = m.expand name args := by
  have hGet : m'.get? name = m.get? name := by
    obtain ⟨-, -, rfl⟩ := define_eq_ok_iff.mp h
    rw [get?, Table.get?_insert, if_neg fun hSame => hOther hSame.symm]
    rfl
  rw [expand, expand, hGet]

theorem filledIn_iff {params operands : List Text} {line out : Text} :
    FilledIn params operands line out ↔ out = substitute (argument params operands) line := by
  constructor
  · rintro ⟨ps, hParts, rfl⟩
    exact hParts.substitute_eq.symm
  · rintro rfl
    obtain ⟨ps, hParts⟩ := exists_parts line
    exact ⟨ps, hParts, hParts.substitute_eq⟩

theorem forall₂_filledIn_iff {params operands body lines : List Text} :
    List.Forall₂ (FilledIn params operands) body lines ↔
      lines = body.map (substitute (argument params operands)) := by
  constructor
  · intro h
    induction h with
    | nil => rfl
    | cons hFirst _ ih => rw [List.map_cons, ← filledIn_iff.mp hFirst, ← ih]
  · rintro rfl
    exact List.forall₂_map_right_iff.mpr (List.forall₂_same.mpr fun line _ => filledIn_iff.mpr rfl)

end Calls

/-! ### A table and its definitions -/

/-- The table holds these definitions, under names in lower case. -/
structure Holds (m : MacroTable) (es : List Definition) : Prop where
  get? : ∀ name entry, m.get? name = some entry ↔ ∃ e ∈ es, SameName e.name name ∧ e.entry = entry
  keys : ∀ key ∈ m.table.keys, lowercase key = key

namespace Holds

variable {m m' : MacroTable} {es : List Definition} {d : Definition} {name : Text}

theorem get?_eq_none_iff (h : m.Holds es) :
    m.get? name = none ↔ ∀ e ∈ es, ¬ SameName e.name name := by
  rw [Option.eq_none_iff_forall_ne_some]
  constructor
  · intro hNone e he hSame
    exact hNone e.entry ((h.get? _ _).mpr ⟨e, he, hSame, rfl⟩)
  · intro hNone entry hSome
    obtain ⟨e, he, hSame, -⟩ := (h.get? _ _).mp hSome
    exact hNone e he hSame

theorem define (h : m.Holds es) (hDefine : m.define d.name d.params d.body = .ok m') :
    m'.Holds (es ++ [d]) := by
  obtain ⟨hNone, -, rfl⟩ := define_eq_ok_iff.mp hDefine
  have hFree := h.get?_eq_none_iff.mp hNone
  constructor
  · intro name entry
    rw [MacroTable.get?, Table.get?_insert]
    simp only [List.mem_append, List.mem_singleton, or_and_right, exists_or, exists_eq_left]
    split
    · next hName =>
      -- no other definition has the name of the new one
      have hOther : ¬ ∃ e ∈ es, SameName e.name name ∧ e.entry = entry := by
        rintro ⟨e, he, hSame, -⟩
        exact hFree e he (hSame.trans hName)
      rw [or_iff_right hOther, and_iff_right (show SameName d.name name from hName.symm),
        Option.some_inj]
      exact Iff.rfl
    · next hName =>
      rw [or_iff_left fun hNew => hName hNew.1.symm]
      exact h.get? name entry
  · intro key hKey
    rcases Table.mem_keys_insert.mp hKey with rfl | hKey
    · exact lowercase_lowercase d.name
    · exact h.keys key hKey

theorem attempts (h : m.Holds es) (ds : List Definition) :
    (ds.foldl attempt m).Holds (es ++ accepted m ds) := by
  induction ds generalizing m es with
  | nil =>
    rw [accepted, List.append_nil]
    exact h
  | cons d ds ih =>
    rw [List.foldl_cons, attempt, accepted]
    cases hDefine : m.define d.name d.params d.body with
    | error err => exact ih h
    | ok m' =>
      rw [List.append_cons]
      exact ih (h.define hDefine)

/-- A name is found as it is written only if it is its own lower case. -/
theorem get?_or_get? (h : m.Holds es) (name : Text) :
    (m.table.get? name).or (m.get? name) = m.get? name := by
  cases hName : m.table.get? name with
  | none => rfl
  | some entry => rw [MacroTable.get?, h.keys name (Table.mem_keys_of_get? hName), hName, Option.some_or]

theorem expand_eq_ok_iff (h : m.Holds es) {args : Text} {operands lines : List Text}
    (hOperands : Operands args operands) :
    m.expand name args = .ok lines ↔ ∃ e ∈ es, SameName e.name name ∧
      operands.length = e.params.length ∧ List.Forall₂ (FilledIn e.params operands) e.body lines := by
  rw [MacroTable.expand_eq_ok_iff, splitOperands_eq_iff.mpr hOperands]
  simp only [h.get?, forall₂_filledIn_iff]
  constructor
  · rintro ⟨-, ⟨e, he, hSame, rfl⟩, hLength, hLines⟩
    exact ⟨e, he, hSame, hLength, hLines⟩
  · rintro ⟨e, he, hSame, hLength, hLines⟩
    exact ⟨e.entry, ⟨e, he, hSame, rfl⟩, hLength, hLines⟩

theorem exists_define_iff (h : m.Holds es) :
    (∃ m', m.define d.name d.params d.body = .ok m') ↔
      (∀ e ∈ es, ¬ SameName e.name d.name) ∧ d.params.Nodup := by
  simp only [define_eq_ok_iff, exists_and_left, exists_eq, and_true, h.get?_eq_none_iff]

theorem exists_expand_iff (h : m.Holds es) {args : Text} {operands : List Text}
    (hOperands : Operands args operands) :
    (∃ lines, m.expand name args = .ok lines) ↔
      ∃ e ∈ es, SameName e.name name ∧ operands.length = e.params.length := by
  simp only [h.expand_eq_ok_iff hOperands]
  constructor
  · rintro ⟨lines, e, he, hSame, hLength, -⟩
    exact ⟨e, he, hSame, hLength⟩
  · rintro ⟨e, he, hSame, hLength⟩
    exact ⟨_, e, he, hSame, hLength, forall₂_filledIn_iff.mpr rfl⟩

theorem filledIn_of_expand (h : m.Holds es) {e : Definition} {args : Text} {operands lines : List Text}
    (hOperands : Operands args operands) (hLines : m.expand name args = .ok lines) (he : e ∈ es)
    (hSame : SameName e.name name) : List.Forall₂ (FilledIn e.params operands) e.body lines := by
  obtain ⟨e', he', hSame', -, hFilled⟩ := (h.expand_eq_ok_iff hOperands).mp hLines
  -- the two definitions that go by the name say the same
  have hEntry := (h.get? name e.entry).mpr ⟨e, he, hSame, rfl⟩
  have hEntry' := (h.get? name e'.entry).mpr ⟨e', he', hSame', rfl⟩
  obtain ⟨hParams, hBody⟩ := MacroDef.mk.inj (Option.some.inj (hEntry.symm.trans hEntry'))
  rw [hParams, hBody]
  exact hFilled

end Holds

theorem holds_builtIn : builtIn.Holds builtInDefinitions := by
  have hTable : builtIn.table = .ofList (builtInDefinitions.map fun e => (e.name, e.entry)) := by
    rw [builtInDefinitions, List.map_map]
    rfl
  have hNodup : ((builtInDefinitions.map fun e => (e.name, e.entry)).map Prod.fst).Nodup := by
    decide +kernel
  have hLower : ∀ e ∈ builtInDefinitions, lowercase e.name = e.name := by decide +kernel
  refine ⟨fun name entry => ?_, by decide +kernel⟩
  rw [MacroTable.get?, hTable, Table.get?_ofList_eq_some_iff hNodup, List.mem_map]
  refine exists_congr fun e => and_congr_right fun he => ?_
  rw [Prod.mk.injEq, SameName, hLower e he]

theorem holds_after (calls : List Definition) : (after calls).Holds (inForce calls) :=
  holds_builtIn.attempts calls

theorem after_append_cons (calls later : List Definition) (d : Definition) :
    after (calls ++ d :: later) = later.foldl attempt ((after calls).attempt d) := by
  rw [after, List.foldl_append]
  rfl

theorem after_of_define_error {calls : List Definition} {d : Definition} {err : MacroError}
    (h : (after calls).define d.name d.params d.body = .error err) (later : List Definition) :
    after (calls ++ d :: later) = after (calls ++ later) := by
  rw [after_append_cons, attempt, h, after, after, List.foldl_append]

theorem after_of_define {calls : List Definition} {d : Definition} {m : MacroTable}
    (h : (after calls).define d.name d.params d.body = .ok m) : after (calls ++ [d]) = m := by
  rw [after_append_cons, attempt, h]
  rfl

/-- A name is defined once, whatever the case of its letters, and a call that fails leaves no trace.
What is defined expands to its lines with the operands of the call in the places of the parameters. The
name as it is written need not be looked up first, since nothing else is found under it. -/
theorem defines_once_fills_at_once (calls : List Definition) :
    (∀ d : Definition, (∃ m, (after calls).define d.name d.params d.body = .ok m) ↔
      (∀ e ∈ inForce calls, ¬ SameName e.name d.name) ∧ d.params.Nodup) ∧
    (∀ (d : Definition) err, (after calls).define d.name d.params d.body = .error err →
      ∀ later, after (calls ++ d :: later) = after (calls ++ later)) ∧
    (∀ (d : Definition) m, (after calls).define d.name d.params d.body = .ok m →
      m = after (calls ++ [d]) ∧
        ∀ name args, ¬ SameName d.name name → m.expand name args = (after calls).expand name args) ∧
    (∀ name args operands, Operands args operands →
      ((∃ lines, (after calls).expand name args = .ok lines) ↔
        ∃ e ∈ inForce calls, SameName e.name name ∧ operands.length = e.params.length)) ∧
    (∀ name args operands lines, Operands args operands →
      (after calls).expand name args = .ok lines → ∀ e ∈ inForce calls, SameName e.name name →
        List.Forall₂ (FilledIn e.params operands) e.body lines) ∧
    ∀ name, ((after calls).table.get? name).or ((after calls).get? name) = (after calls).get? name := by
  have hHolds := holds_after calls
  exact ⟨fun _ => hHolds.exists_define_iff, fun _ _ => after_of_define_error,
    fun _ _ hDefine => ⟨(after_of_define hDefine).symm, fun _ => expand_of_define_of_not_sameName hDefine⟩,
    fun _ _ _ hOperands => hHolds.exists_expand_iff hOperands,
    fun _ _ _ _ hOperands hLines _ => hHolds.filledIn_of_expand hOperands hLines,
    hHolds.get?_or_get?⟩

example :
    (builtIn.define "Swap".toList ["a".toList, "b".toList] ["mov \\b, a // 'a'".toList] >>= fun m =>
      m.expand "sWAP".toList "b+a , (a, b)".toList) = .ok ["mov (a, b), b+a // 'a'".toList] := by
  decide +kernel

end NiosBoard.MacroTable
