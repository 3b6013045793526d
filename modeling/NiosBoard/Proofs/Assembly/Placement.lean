import NiosBoard.Proofs.Assembly.Image
import NiosBoard.Proofs.Assembly.StringData
import NiosBoard.Proofs.Text.Parts

/-! # Where labels and data end up

In a program that is accepted each label names the first byte of what follows it, with its address
cut to 32 bits. Addresses and positions are the same numbers as long as no item has `2 ^ 32` bytes
or more; an item that long has a size that is too small, and may be accepted where it does not fit.
-/

namespace NiosBoard

open Text DataItem

/-- The address where the data of a source begins. -/
def dataAddress (ms : List Mark) : Word :=
  Board.ramStart + BitVec.ofNat 32 (4 * (instructionsOf ms).length) + 4

theorem toNat_dataAddress {ms : List Mark} (h : (instructionsOf ms).length < 2 ^ 30 - 1) :
    (dataAddress ms).toNat = 4 * (instructionsOf ms).length + 4 := by
  have hStart : dataAddress ms = BitVec.ofNat 32 (4 * (instructionsOf ms).length) + 4#32 := by
    rw [dataAddress, Board.ramStart]
    simp
  rw [hStart, BitVec.toNat_add, BitVec.toNat_ofNat, BitVec.toNat_ofNat]
  omega

/-- The data items that the marks say, read from their operands. -/
def ReadsItems (ms : List Mark) (items : List DataItem) : Prop :=
  List.Forall₂ (fun s item => DataItem.ofOperands s.kind s.operands = .ok item) (itemsOf ms) items

/-- Where the labels and the data of a source are in its program, as 32-bit numbers. The image is
the bytes of the code and then a chunk for each data item. -/
structure Program.Places (p : Program) (ms : List Mark) (items : List DataItem) (code : List Byte)
    (chunks : List (List Byte)) : Prop where
  reads : ReadsItems ms items
  image : p.image.toList = code ++ chunks.flatten
  length_code : code.length = 4 * p.length + 4
  dataStart : p.dataStart = dataAddress ms
  toNat_dataStart : p.dataStart.toNat = p.start.toNat + 4 * (instructionsOf ms).length + 4
  /-- The table holds the labels that are defined, each once. -/
  names : p.symbols.keys.Perm (labelsOf ms)
  nodup : (labelsOf ms).Nodup
  codeLabel : ∀ before name after, ms = before ++ .codeLabel name :: after →
    ∃ a, p.symbol? name = some a ∧ a.toNat = p.start.toNat + 4 * (instructionsOf before).length
  /-- A data label names the first byte of the chunk of the next item, or the end of the image. -/
  dataLabel : ∀ before name after, ms = before ++ .dataLabel name :: after →
    ∃ a, p.symbol? name = some a ∧ a.toNat =
      (p.start.toNat + (code ++ (chunks.take (itemsOf before).length).flatten).length) % 2 ^ 32
  /-- Both walks over the data agree: the sum of the sizes is the address of the end of the image
  so far. -/
  address : ∀ k, addressAt p.dataStart items k =
    (p.start.toNat + (code ++ (chunks.take k).flatten).length) % 2 ^ 32
  emit : ∀ (k : Nat) (item : DataItem), items[k]? = some item → ∃ chunk, chunks[k]? = some chunk ∧
    item.emit (BitVec.ofNat 32 (addressAt p.dataStart items k)) p.symbol? = .ok chunk ∧
    item.size (BitVec.ofNat 32 (addressAt p.dataStart items k)) = BitVec.ofNat 32 chunk.length
  align : ∀ (k n : Nat), items[k]? = some (.align n) →
    2 ^ n ∣ addressAt p.dataStart items (k + 1) ∧
      ∃ m, m < 2 ^ n ∧ chunks[k]? = some (List.replicate m 0)
  values : ∀ (k : Nat) (width : Width) (exprs : List Text), items[k]? = some (.values width exprs) →
    ∀ (j : Nat) (e : Text), exprs[j]? = some e → ∃ chunk v, chunks[k]? = some chunk ∧
      Expression.evaluate p.symbol? e = .ok v ∧
      (spelled ((chunk.drop (width.bytes * j)).take width.bytes) : Int) =
        v.toInt % 2 ^ (8 * width.bytes)

/-- The addresses of the data are their positions in the image, not only modulo `2 ^ 32`, and the
sizes are the numbers of bytes. -/
structure Program.Exact (p : Program) (ms : List Mark) (items : List DataItem) (code : List Byte)
    (chunks : List (List Byte)) : Prop where
  dataLabel : ∀ before name after, ms = before ++ .dataLabel name :: after →
    ∃ a, p.symbol? name = some a ∧
      a.toNat = p.start.toNat + (code ++ (chunks.take (itemsOf before).length).flatten).length
  address : ∀ k, addressAt p.dataStart items k =
    p.start.toNat + (code ++ (chunks.take k).flatten).length
  emit : ∀ (k : Nat) (item : DataItem) (chunk : List Byte), items[k]? = some item →
    chunks[k]? = some chunk →
      chunk.length = (item.size (BitVec.ofNat 32 (addressAt p.dataStart items k))).toNat
  size : p.image.size = p.dataStart.toNat - p.start.toNat +
    ((sizes p.dataStart items).map BitVec.toNat).sum

theorem ReadsItems.eq {ms : List Mark} {items items' : List DataItem} (h : ReadsItems ms items)
    (h' : ReadsItems ms items') : items = items' := by
  refine List.right_unique_forall₂' ?_ h h'
  intro s item item' hItem hItem'
  rw [hItem] at hItem'
  exact Except.ok.inj hItem'

theorem ReadsItems.lt_of_align {ms : List Mark} {items : List DataItem} (h : ReadsItems ms items)
    {k n : Nat} (hk : items[k]? = some (.align n)) : n < 32 := by
  obtain ⟨s, -, hItem⟩ := exists_getElem?_of_forall₂ h hk
  rcases cases_of_ofOperands hItem with
    ⟨_, -, ⟨⟩⟩ | ⟨_, _, -, ⟨⟩⟩ | ⟨_, _, -, -, ⟨⟩⟩ | ⟨_, -, hLe, ⟨⟩⟩
  exact Nat.lt_of_le_of_lt hLe (by decide +kernel)

theorem Draft.Records.readsItems {d : Draft} {r : Trace} (h : d.Records r) :
    ReadsItems r.marks (d.data.toList.map (·.item)) := by
  rw [ReadsItems, List.forall₂_map_right_iff]
  exact h.data.flip.imp fun _ _ hReads => hReads.2

theorem Draft.Records.dataStart_eq {d : Draft} {r : Trace} (h : d.Records r) :
    d.dataStart = dataAddress r.marks := by
  rw [dataAddress, ← h.length_code]
  rfl

/-- The items of the draft are at the lines of the source that say them. -/
theorem Draft.Records.exists_variable_iff {d : Draft} {r : Trace} (h : d.Records r) {k line : Nat} :
    (∃ v, d.data.toList[k]? = some v ∧ v.line = line) ↔
      ∃ s, (itemsOf r.marks)[k]? = some s ∧ s.line = line := by
  constructor
  · rintro ⟨v, hv, rfl⟩
    obtain ⟨s, hs, hLine, -⟩ := exists_getElem?_of_forall₂ h.data.flip hv
    exact ⟨s, hs, hLine.symm⟩
  · rintro ⟨s, hs, rfl⟩
    obtain ⟨v, hv, hLine, -⟩ := exists_getElem?_of_forall₂ h.data hs
    exact ⟨v, hv, hLine⟩

section Links

variable {d : Draft} {r : Trace} {p : Program} {is : List Instruction} {chunks : List (List Byte)}
  {placed : Table Word} {dataEnd : Word}

theorem symbols_eq_insertAll (hLinks : d.LinksTo p is chunks placed dataEnd) :
    p.symbols = d.symbols.insertAll (addressed d.waiting d.dataStart d.data.toList) := by
  rw [hLinks.symbols]
  exact (Draft.layout_eq_ok hLinks.layout d.waiting).1

theorem map_fst_addressed_eq (hRecords : d.Records r) :
    (addressed d.waiting d.dataStart d.data.toList).map Prod.fst = dataLabelsOf r.marks := by
  rw [map_fst_addressed, hRecords.dataNames]

theorem nodup_dataLabelsOf_append (hRecords : d.Records r) :
    (dataLabelsOf r.marks ++ codeLabelsOf r.marks).Nodup :=
  (dataLabelsOf_append_codeLabelsOf_perm r.marks).nodup_iff.mpr hRecords.nodup

theorem keys_perm_labelsOf (hRecords : d.Records r)
    (hLinks : d.LinksTo p is chunks placed dataEnd) : p.symbols.keys.Perm (labelsOf r.marks) := by
  have hNodup := List.nodup_append.mp (nodup_dataLabelsOf_append hRecords)
  rw [symbols_eq_insertAll hLinks, Table.keys_insertAll, map_fst_addressed_eq hRecords,
    hRecords.keys]
  · exact ((List.reverse_perm _).append (List.reverse_perm _)).trans
      (dataLabelsOf_append_codeLabelsOf_perm r.marks)
  · rw [map_fst_addressed_eq hRecords]
    exact hNodup.1
  · rw [map_fst_addressed_eq hRecords, hRecords.keys]
    intro name hData hCode
    exact hNodup.2.2 name hData name (List.mem_reverse.mp hCode) rfl

theorem symbol?_codeLabel (hRecords : d.Records r)
    (hLinks : d.LinksTo p is chunks placed dataEnd) {before after : List Mark} {name : Text}
    (hMarks : r.marks = before ++ .codeLabel name :: after) :
    p.symbol? name = some (Draft.codeAddress (instructionsOf before).length) := by
  have hNodup := List.nodup_append.mp (nodup_dataLabelsOf_append hRecords)
  have hCode : name ∈ codeLabelsOf r.marks := by
    rw [hMarks]
    simp [codeLabelsOf]
  rw [Program.symbol?, symbols_eq_insertAll hLinks, Table.get?_insertAll_of_not_mem]
  · exact hRecords.codeLabel before name after hMarks
  · rw [map_fst_addressed_eq hRecords]
    exact fun hData => hNodup.2.2 name hData name hCode rfl

theorem symbol?_dataLabel (hRecords : d.Records r)
    (hLinks : d.LinksTo p is chunks placed dataEnd) {before after : List Mark} {name : Text}
    (hMarks : r.marks = before ++ .dataLabel name :: after) :
    p.symbol? name = some (BitVec.ofNat 32
      (addressAt d.dataStart (d.data.toList.map (·.item)) (itemsOf before).length)) := by
  have hNodup := List.nodup_append.mp (nodup_dataLabelsOf_append hRecords)
  rw [Program.symbol?, symbols_eq_insertAll hLinks]
  refine Table.get?_insertAll_of_mem ?_ (mem_addressed (hRecords.dataLabel before name after hMarks))
  rw [map_fst_addressed_eq hRecords]
  exact hNodup.1

theorem dataStart_eq_dataAddress (hRecords : d.Records r)
    (hLinks : d.LinksTo p is chunks placed dataEnd) : p.dataStart = dataAddress r.marks := by
  rw [← hRecords.dataStart_eq, Program.dataStart, hLinks.length_eq_size_code]
  rfl

theorem dataStart_eq (hRecords : d.Records r) (hLinks : d.LinksTo p is chunks placed dataEnd) :
    p.dataStart = d.dataStart :=
  (dataStart_eq_dataAddress hRecords hLinks).trans hRecords.dataStart_eq.symm

theorem addressAt_lt (hLinks : d.LinksTo p is chunks placed dataEnd) (k : Nat) :
    addressAt d.dataStart (d.data.toList.map (·.item)) k < 2 ^ 32 :=
  (Draft.layout_eq_ok hLinks.layout d.waiting).2 k

theorem exists_symbol?_codeLabel (hRecords : d.Records r)
    (hLinks : d.LinksTo p is chunks placed dataEnd)
    (hSize : (instructionsOf r.marks).length < 2 ^ 30 - 1) {before after : List Mark} {name : Text}
    (hMarks : r.marks = before ++ .codeLabel name :: after) :
    ∃ a, p.symbol? name = some a ∧
      a.toNat = p.start.toNat + 4 * (instructionsOf before).length := by
  have hStart : p.start.toNat = 0 := rfl
  have hBefore : (instructionsOf before).length ≤ (instructionsOf r.marks).length := by
    rw [hMarks]
    simp [instructionsOf]
  refine ⟨_, symbol?_codeLabel hRecords hLinks hMarks, ?_⟩
  rw [Draft.codeAddress_eq, BitVec.toNat_ofNat, hStart]
  omega

theorem exists_symbol?_dataLabel (hRecords : d.Records r)
    (hLinks : d.LinksTo p is chunks placed dataEnd) {before after : List Mark} {name : Text}
    (hMarks : r.marks = before ++ .dataLabel name :: after) :
    ∃ a, p.symbol? name = some a ∧ a.toNat =
      addressAt d.dataStart (d.data.toList.map (·.item)) (itemsOf before).length := by
  refine ⟨_, symbol?_dataLabel hRecords hLinks hMarks, ?_⟩
  rw [BitVec.toNat_ofNat, Nat.mod_eq_of_lt (addressAt_lt hLinks _)]

theorem positionAt_eq (hRecords : d.Records r) (hLinks : d.LinksTo p is chunks placed dataEnd)
    (hSize : (instructionsOf r.marks).length < 2 ^ 30 - 1) (k : Nat) :
    positionAt d.dataStart (d.data.toList.map (·.item)) k =
      p.start.toNat + (Draft.codeImage is ++ (chunks.take k).flatten).length := by
  have hStart : p.start.toNat = 0 := rfl
  rw [← hLinks.emits.add_length_flatten_take k, hRecords.dataStart_eq, toNat_dataAddress hSize,
    List.length_append, Draft.length_codeImage, ← hLinks.length_eq_length,
    hLinks.length_eq_size_code, hRecords.length_code, hStart, Nat.zero_add]

theorem addressAt_eq_mod (hRecords : d.Records r) (hLinks : d.LinksTo p is chunks placed dataEnd)
    (hSize : (instructionsOf r.marks).length < 2 ^ 30 - 1) (k : Nat) :
    addressAt d.dataStart (d.data.toList.map (·.item)) k =
      (p.start.toNat + (Draft.codeImage is ++ (chunks.take k).flatten).length) % 2 ^ 32 := by
  rw [← positionAt_eq hRecords hLinks hSize, ← addressAt_mod, Nat.mod_eq_of_lt (addressAt_lt hLinks k)]

theorem dvd_addressAt_succ (hRecords : d.Records r) (hLinks : d.LinksTo p is chunks placed dataEnd)
    {k n : Nat} (hItem : (d.data.toList.map (·.item))[k]? = some (.align n)) :
    2 ^ n ∣ addressAt d.dataStart (d.data.toList.map (·.item)) (k + 1) := by
  have hDvd := dvd_add_padding (hRecords.readsItems.lt_of_align hItem)
    (BitVec.ofNat 32 (addressAt d.dataStart (d.data.toList.map (·.item)) k))
  rw [BitVec.toNat_ofNat, Nat.mod_eq_of_lt (addressAt_lt hLinks k)] at hDvd
  rwa [addressAt_succ hItem, length, Nat.mod_eq_of_lt (BitVec.isLt _)]

theorem exists_padding_chunk (hRecords : d.Records r)
    (hLinks : d.LinksTo p is chunks placed dataEnd) {k n : Nat}
    (hItem : (d.data.toList.map (·.item))[k]? = some (.align n)) :
    ∃ m, m < 2 ^ n ∧ chunks[k]? = some (List.replicate m 0) := by
  obtain ⟨chunk, hChunk, hEmit⟩ := hLinks.emits.exists_chunk hItem
  cases hEmit
  exact ⟨_, padding_lt (hRecords.readsItems.lt_of_align hItem) _, hChunk⟩

theorem places_of_linksTo (hRecords : d.Records r) (hLinks : d.LinksTo p is chunks placed dataEnd)
    (hSize : (instructionsOf r.marks).length < 2 ^ 30 - 1) :
    p.Places r.marks (d.data.toList.map (·.item)) (Draft.codeImage is) chunks := by
  have hStart : p.start.toNat = 0 := rfl
  have hData := dataStart_eq hRecords hLinks
  exact {
    reads := hRecords.readsItems
    image := hLinks.image
    length_code := by
      rw [Draft.length_codeImage, hLinks.length_eq_length]
    dataStart := dataStart_eq_dataAddress hRecords hLinks
    toNat_dataStart := by
      rw [dataStart_eq_dataAddress hRecords hLinks, toNat_dataAddress hSize, hStart, Nat.zero_add]
    names := keys_perm_labelsOf hRecords hLinks
    nodup := hRecords.nodup
    codeLabel := fun before name after => exists_symbol?_codeLabel hRecords hLinks hSize
    dataLabel := by
      intro before name after hMarks
      rw [← addressAt_eq_mod hRecords hLinks hSize]
      exact exists_symbol?_dataLabel hRecords hLinks hMarks
    address := by
      rw [hData]
      exact addressAt_eq_mod hRecords hLinks hSize
    emit := by
      intro k item hItem
      obtain ⟨chunk, hChunk, hEmit⟩ := hLinks.emits.exists_chunk hItem
      rw [hData]
      exact ⟨chunk, hChunk, hEmit, by rw [size_eq_ofNat_length, length_of_emit hEmit]⟩
    align := by
      intro k n hItem
      rw [hData]
      exact ⟨dvd_addressAt_succ hRecords hLinks hItem, exists_padding_chunk hRecords hLinks hItem⟩
    values := by
      intro k width exprs hItem j e he
      obtain ⟨chunk, hChunk, hEmit⟩ := hLinks.emits.exists_chunk hItem
      obtain ⟨v, hv, hSpelled⟩ := spelled_of_emit_values hEmit he
      exact ⟨chunk, v, hChunk, hv, hSpelled⟩ }

theorem lt_of_exact (hRecords : d.Records r) (hLinks : d.LinksTo p is chunks placed dataEnd)
    (hSize : (instructionsOf r.marks).length < 2 ^ 30 - 1)
    (h : p.Exact r.marks (d.data.toList.map (·.item)) (Draft.codeImage is) chunks) :
    ∀ chunk ∈ chunks, chunk.length < 2 ^ 32 := by
  intro chunk hChunk
  have hAt : ∀ k, addressAt d.dataStart (d.data.toList.map (·.item)) k =
      positionAt d.dataStart (d.data.toList.map (·.item)) k := by
    intro k
    rw [positionAt_eq hRecords hLinks hSize, ← h.address k, dataStart_eq hRecords hLinks]
  refine lt_of_addressAt_eq hAt ?_
  rw [← hLinks.emits.map_length]
  exact List.mem_map_of_mem hChunk

theorem addressAt_eq_of_short (hRecords : d.Records r)
    (hLinks : d.LinksTo p is chunks placed dataEnd)
    (hSize : (instructionsOf r.marks).length < 2 ^ 30 - 1)
    (h : ∀ chunk ∈ chunks, chunk.length < 2 ^ 32) (k : Nat) :
    addressAt d.dataStart (d.data.toList.map (·.item)) k =
      p.start.toNat + (Draft.codeImage is ++ (chunks.take k).flatten).length := by
  rw [← positionAt_eq hRecords hLinks hSize]
  refine addressAt_eq_positionAt fun n hn => ?_
  have hn := List.mem_of_mem_take hn
  rw [← hLinks.emits.map_length] at hn
  obtain ⟨chunk, hChunk, rfl⟩ := List.mem_map.mp hn
  exact h chunk hChunk

theorem exact_of_short (hRecords : d.Records r) (hLinks : d.LinksTo p is chunks placed dataEnd)
    (hSize : (instructionsOf r.marks).length < 2 ^ 30 - 1)
    (h : ∀ chunk ∈ chunks, chunk.length < 2 ^ 32) :
    p.Exact r.marks (d.data.toList.map (·.item)) (Draft.codeImage is) chunks := by
  have hStart : p.start.toNat = 0 := rfl
  have hData := dataStart_eq hRecords hLinks
  have hAt := addressAt_eq_of_short hRecords hLinks hSize h
  exact {
    dataLabel := by
      intro before name after hMarks
      rw [← hAt]
      exact exists_symbol?_dataLabel hRecords hLinks hMarks
    address := by
      rw [hData]
      exact hAt
    emit := by
      intro k item chunk hItem hChunk
      obtain ⟨chunk', hChunk', hEmit⟩ := hLinks.emits.exists_chunk hItem
      cases hChunk.symm.trans hChunk'
      rw [hData, size_eq_ofNat_length, ← length_of_emit hEmit, BitVec.toNat_ofNat,
        Nat.mod_eq_of_lt (h chunk (List.mem_of_getElem? hChunk))]
    size := by
      have hEnd := hAt (d.data.toList.map (·.item)).length
      rw [addressAt_length, ← hLinks.emits.length_eq, List.take_length, ← hLinks.image, hStart,
        Array.length_toList] at hEnd
      rw [hData, hStart]
      omega }

end Links

/-- The items go past the end of the address space with item `k`, when item number `i` starts at
`start i`. -/
def CrossesEnd (start : Nat → Nat) (k : Nat) : Prop :=
  start k < 2 ^ 32 ∧ 2 ^ 32 ≤ start (k + 1)

theorem crossesEnd_addressAt_iff {address : Word} {items : List DataItem} {k : Nat}
    {item : DataItem} (hk : items[k]? = some item) (h : CrossesEnd (positionAt address items) k) :
    CrossesEnd (addressAt address items) k ↔
      2 ^ 32 ≤ positionAt address items k +
        item.length (BitVec.ofNat 32 (positionAt address items k)) % 2 ^ 32 := by
  have hBefore := addressAt_eq_positionAt_of_lt h.1
  rw [CrossesEnd, addressAt_succ hk, hBefore]
  exact and_iff_right h.1

/-- Where everything ends up. In a program that is accepted the labels and the data are placed as
`Program.Places` says, and as `Program.Exact` says if and only if every chunk is shorter than
`2 ^ 32` bytes. A source is refused for running past the end of the address space at the first item
that does so by the sizes. When the first item that does so by the lengths is shorter than `2 ^ 32`
bytes, it is that item. -/
theorem layout_agrees_with_emission (source : Text)
    (hSize : (instructionsOf (trace source)).length < 2 ^ 30 - 1) :
    (∀ p, assemble source = .ok p → ∃ items code chunks,
      p.Places (trace source) items code chunks ∧
        (p.Exact (trace source) items code chunks ↔ ∀ chunk ∈ chunks, chunk.length < 2 ^ 32)) ∧
    ∀ d items, Draft.ofSource source = .ok d → ReadsItems (trace source) items →
      (∀ line, assemble source = .error ⟨line, .statement .dataOverflow, none⟩ ↔
        ∃ k s, (itemsOf (trace source))[k]? = some s ∧ s.line = line ∧
          CrossesEnd (addressAt (dataAddress (trace source)) items) k) ∧
      (∀ k item, items[k]? = some item →
        CrossesEnd (positionAt (dataAddress (trace source)) items) k →
        (CrossesEnd (addressAt (dataAddress (trace source)) items) k ↔
          2 ^ 32 ≤ positionAt (dataAddress (trace source)) items k + item.length
            (BitVec.ofNat 32 (positionAt (dataAddress (trace source)) items k)) % 2 ^ 32)) ∧
      ((∀ n ∈ lengths (dataAddress (trace source)) items, n < 2 ^ 32) →
        addressAt (dataAddress (trace source)) items =
          positionAt (dataAddress (trace source)) items) := by
  constructor
  · intro p h
    obtain ⟨d, region, is, chunks, placed, dataEnd, hRecords, hLinks⟩ := assemble_eq_ok h
    have hPlaces := places_of_linksTo hRecords hLinks hSize
    have hShort := lt_of_exact hRecords hLinks hSize
    have hExact := exact_of_short hRecords hLinks hSize
    exact ⟨_, _, chunks, hPlaces, hShort, hExact⟩
  · intro d items h hReads
    obtain ⟨region, hRecords⟩ := Draft.records_of_ofSource h
    have hItems : items = d.data.toList.map (·.item) := hReads.eq hRecords.readsItems
    have hLink : assemble source = d.link := by
      rw [assemble, h]
      rfl
    have hStart : d.dataStart = dataAddress (trace source) := hRecords.dataStart_eq
    have hLines : ∀ {k line : Nat}, (∃ v, d.data.toList[k]? = some v ∧ v.line = line) ↔
        ∃ s, (itemsOf (trace source))[k]? = some s ∧ s.line = line := hRecords.exists_variable_iff
    refine ⟨fun line => ?_, fun k item => crossesEnd_addressAt_iff, fun hShort => funext fun k =>
      addressAt_eq_positionAt fun n hn => hShort n (List.mem_of_mem_take hn)⟩
    show assemble source = .error (Cause.atLine (.statement .dataOverflow) line) ↔ _
    rw [hLink, Draft.link_eq_dataOverflow_iff, Draft.layout_eq_error_iff, ← hItems, hStart]
    constructor
    · rintro ⟨k, v, hv, hBefore, hAfter, ⟨⟩⟩
      obtain ⟨s, hs, hLine⟩ := hLines.mp ⟨v, hv, rfl⟩
      exact ⟨k, s, hs, hLine, hBefore, hAfter⟩
    · rintro ⟨k, s, hs, hLine, hBefore, hAfter⟩
      obtain ⟨v, hv, rfl⟩ := hLines.mpr ⟨s, hs, hLine⟩
      exact ⟨k, v, hv, hBefore, hAfter, rfl⟩

/-! ### One source that fits and one that does not -/

/-- Labels in both regions, values of two widths, an alignment and a label at the very end. -/
def tableSource : Text :=
  (".data\nbytes: .byte 1, end - bytes, -1\n.align 2\nwords: .word bytes, end\n" ++
    ".asciz \"hi\"\nend:\n.text\nload: ldw r2, %lo(words)(r0)\nbr load\n").toList

def megabyteLine : Text := ".skip 0x100000".toList

/-- Lines that skip `n` megabytes. -/
def megabytesSource (n : Nat) : Text := (List.replicate n (megabyteLine ++ ['\n'])).flatten

theorem lines_megabytes (n : Nat) :
    lines (megabytesSource n) = List.replicate n megabyteLine := by
  have hLines := lines_replicate (l := megabyteLine) (by decide +kernel) (by decide +kernel) n []
  rwa [List.append_nil, lines, List.append_nil] at hLines

theorem readLine_megabyte {d : Draft} (hRecording : d.recording = none)
    (hConstants : d.constants = Table.empty) (line : Nat) :
    d.readLine line megabyteLine =
      .ok { d with waiting := [], data := d.data.push ⟨d.waiting, .skip 0x100000 0, line⟩ } := by
  have hText : trim (stripComment megabyteLine) = megabyteLine := by decide +kernel
  have hConstant : Draft.constantOperands? megabyteLine = none := by decide +kernel
  have hSubstitute : d.substituteConstants megabyteLine = megabyteLine := by
    rw [Draft.substituteConstants, hConstants]
    decide +kernel
  have hLabels : Line.labels megabyteLine = ([], megabyteLine) := by decide +kernel
  have hTrim : trim megabyteLine = megabyteLine := by decide +kernel
  have hHead : megabyteLine.head? = some '.' := by decide +kernel
  have hNonempty : megabyteLine ≠ [] := by decide +kernel
  have hDirective : Line.directive? megabyteLine = some ("skip".toList, " 0x100000".toList) := by
    decide +kernel
  have hName : Directive.ofName? "skip".toList = some (.item .skip) := by decide +kernel
  have hItem : (DataItem.ofOperands .skip " 0x100000".toList).toOption.map id =
      some (.skip 0x100000 0) := by
    decide +kernel
  obtain ⟨item, hItem, rfl⟩ := exists_ok_of_map_eq hItem
  simp only [Draft.readLine, hText, hRecording, hConstant, hSubstitute]
  rw [Draft.statement]
  simp only [hLabels, hTrim, List.foldlM_nil, hNonempty, hHead, if_true, if_false]
  show Draft.directive _ line megabyteLine = _
  simp only [Draft.directive, hDirective, hName, hItem, hRecording]
  rfl

theorem readLines_megabytes (n line : Nat) (d : Draft) (hRecording : d.recording = none)
    (hConstants : d.constants = Table.empty) (hEnded : d.ended = false) :
    ∃ d', Draft.readLines line (List.replicate n megabyteLine) d = .ok d' ∧
      d'.recording = none ∧ d'.code = d.code ∧
      d'.data.toList.map (·.item) =
        d.data.toList.map (·.item) ++ List.replicate n (.skip 0x100000 0) := by
  induction n generalizing line d with
  | zero => exact ⟨d, rfl, hRecording, rfl, by simp⟩
  | succ n ih =>
    have hLine := readLine_megabyte hRecording hConstants line
    obtain ⟨d', hLines, hRest, hCode, hData⟩ := ih (line + 1)
      { d with waiting := [], data := d.data.push ⟨d.waiting, .skip 0x100000 0, line⟩ }
      hRecording hConstants hEnded
    refine ⟨d', ?_, hRest, hCode, ?_⟩
    · rw [List.replicate_succ, Draft.readLines_cons hLine hEnded]
      exact hLines
    · rw [hData, List.replicate_succ]
      simp

theorem addressAt_replicate_skip {length n k : Nat} (address : Word) (fill : Byte)
    (hLength : length < 2 ^ 32) (hk : k ≤ n) :
    addressAt address (List.replicate n (.skip length fill)) k = address.toNat + k * length := by
  induction k with
  | zero => simp
  | succ k ih =>
    have hItem : (List.replicate n (DataItem.skip length fill))[k]? = some (.skip length fill) := by
      rw [List.getElem?_replicate, if_pos (Nat.lt_of_succ_le hk)]
    rw [addressAt_succ hItem, ih (Nat.le_of_succ_le hk), DataItem.length, Nat.mod_eq_of_lt hLength,
      Nat.succ_mul, Nat.add_assoc]

theorem ofSource_megabytesSource (n : Nat) :
    ∃ d, Draft.ofSource (megabytesSource n) = .ok d ∧
      (instructionsOf (trace (megabytesSource n))).length = 0 ∧
      ReadsItems (trace (megabytesSource n)) (List.replicate n (.skip 0x100000 0)) := by
  obtain ⟨d, hLines, hRecording, hCode, hItems⟩ := readLines_megabytes n 1 Draft.new rfl rfl rfl
  have hSource : Draft.ofSource (megabytesSource n) = .ok d := by
    rw [Draft.ofSource, lines_megabytes]
    refine bind_eq_ok_iff.mpr ⟨d, hLines, ?_⟩
    simp only [hRecording]
    rfl
  obtain ⟨region, hRecords⟩ := Draft.records_of_ofSource hSource
  refine ⟨d, hSource, ?_, ?_⟩
  · have hLength := hRecords.length_code
    rw [hCode] at hLength
    exact hLength.symm
  · have hReads := hRecords.readsItems
    rw [hItems] at hReads
    exact hReads

theorem layout_agrees_with_emission_tableSource_megabytesSource :
    (∃ p items code chunks, assemble tableSource = .ok p ∧ p.image.size = 27 ∧
      p.Places (trace tableSource) items code chunks ∧
      p.Exact (trace tableSource) items code chunks) ∧
    (∃ (k : Nat) (s : ItemLine), (itemsOf (trace (megabytesSource 4096)))[k]? = some s ∧
      assemble (megabytesSource 4096) = .error ⟨s.line, .statement .dataOverflow, none⟩) := by
  constructor
  · have hAccepted : (assemble tableSource).toOption.map (·.image.size) = some 27 := by
      decide +kernel
    obtain ⟨p, hp, hImage⟩ := exists_ok_of_map_eq hAccepted
    have hSize : (instructionsOf (trace tableSource)).length < 2 ^ 30 - 1 := by
      have hBound := size_image_of_assemble hp
      rw [length_of_assemble hp]
      omega
    obtain ⟨items, code, chunks, hPlaces, hExact⟩ :=
      (layout_agrees_with_emission tableSource hSize).1 p hp
    refine ⟨p, items, code, chunks, hp, hImage, hPlaces, hExact.mpr fun chunk hChunk => ?_⟩
    have hLe := (List.sublist_flatten_of_mem hChunk).length_le
    have hTotal := congrArg List.length hPlaces.image
    rw [Array.length_toList, List.length_append] at hTotal
    omega
  · obtain ⟨d, hSource, hLength, hReads⟩ := ofSource_megabytesSource 4096
    have hSize : (instructionsOf (trace (megabytesSource 4096))).length < 2 ^ 30 - 1 := by
      rw [hLength]
      decide
    have hStart : (dataAddress (trace (megabytesSource 4096))).toNat = 4 := by
      rw [toNat_dataAddress hSize, hLength]
    have hCrosses : CrossesEnd (addressAt (dataAddress (trace (megabytesSource 4096)))
        (List.replicate 4096 (.skip 0x100000 0))) 4095 := by
      rw [CrossesEnd, addressAt_replicate_skip _ _ (by decide) (by decide),
        addressAt_replicate_skip _ _ (by decide) (by decide), hStart]
      decide
    obtain ⟨s, hs, -⟩ := exists_getElem?_of_forall₂ hReads
      (show (List.replicate 4096 (DataItem.skip 0x100000 0))[4095]? = some (.skip 0x100000 0) by
        rw [List.getElem?_replicate, if_pos (by decide)])
    have hRefused :=
      ((layout_agrees_with_emission (megabytesSource 4096) hSize).2 d _ hSource hReads).1
    exact ⟨4095, s, hs, (hRefused s.line).mpr ⟨4095, s, hs, rfl, hCrosses⟩⟩

/-! ### A string that is too long for its size -/

/-- The line doubles what `A` stands for. -/
def doublingLine : Text := ".equ A, \\A\\A".toList

/-- A string of `2 ^ n` characters between two labels. -/
def doublingSource (n : Nat) : Text :=
  ".data\nfirst:\n.equ Q, \"\n.equ A, a\n".toList ++
    ((List.replicate n (doublingLine ++ ['\n'])).flatten ++
      ".ascii \\Q\\A\\Q\nsecond:\n".toList)

theorem lines_doublingSource (n : Nat) :
    lines (doublingSource n) =
      [".data".toList, "first:".toList, ".equ Q, \"".toList, ".equ A, a".toList] ++
        (List.replicate n doublingLine ++ [".ascii \\Q\\A\\Q".toList, "second:".toList]) := by
  have hPrelude : WholeLines ".data\nfirst:\n.equ Q, \"\n.equ A, a\n".toList :=
    .inr (by decide +kernel)
  have hFirst : lines ".data\nfirst:\n.equ Q, \"\n.equ A, a\n".toList =
      [".data".toList, "first:".toList, ".equ Q, \"".toList, ".equ A, a".toList] := by
    decide +kernel
  have hLast : lines ".ascii \\Q\\A\\Q\nsecond:\n".toList =
      [".ascii \\Q\\A\\Q".toList, "second:".toList] := by
    decide +kernel
  have hMiddle := lines_replicate (l := doublingLine) (by decide +kernel) (by decide +kernel) n
    ".ascii \\Q\\A\\Q\nsecond:\n".toList
  exact (lines_append hPrelude _).trans
    (congrArg₂ (· ++ ·) hFirst (hMiddle.trans (congrArg (List.replicate n doublingLine ++ ·) hLast)))

namespace Draft

/-- What the lines in front of the string leave, with `t` for `A`. -/
def doubled (t : Text) : Draft :=
  { new with
    region := .data
    defined := ["first".toList]
    waiting := ["first".toList]
    constants := ⟨[("A".toList, t), ("Q".toList, ['"'])]⟩ }

theorem readLine_doubling (t : Text) (line : Nat) :
    (doubled t).readLine line doublingLine = .ok (doubled (t ++ t)) := by
  have hConstant : constantOperands? (said doublingLine) = some " A, \\A\\A".toList := by
    decide +kernel
  have hOperands : splitOperands " A, \\A\\A".toList = ["A".toList, "\\A\\A".toList] := by
    decide +kernel
  have hValue : (doubled t).substituteConstants "\\A\\A".toList = t ++ t := by
    have hStop : ∀ c, ('\\' :: (['A'] ++ [])).head? = some c → isIdentChar c = false := by
      rintro c ⟨⟩
      decide
    show substitute (doubled t).constants.get? ('\\' :: (['A'] ++ '\\' :: (['A'] ++ []))) = _
    have hNone : ∀ c, ([] : Text).head? = some c → isIdentChar c = false := nofun
    rw [substitute_backslash (by decide) hStop, substitute_backslash (by decide) hNone,
      substitute_nil, List.append_nil]
    rfl
  rw [readLine_eq_defineConstant rfl hConstant, defineConstant, hOperands]
  simp only [hValue]
  rfl

theorem readLines_doublings (n line : Nat) (c : Char) (m : Nat) :
    readLines line (List.replicate n doublingLine) (doubled (List.replicate m c)) =
      .ok (doubled (List.replicate (2 ^ n * m) c)) := by
  induction n generalizing line m with
  | zero => rw [Nat.pow_zero, Nat.one_mul]; rfl
  | succ n ih =>
    have hDouble : 2 ^ n * (m + m) = 2 ^ (n + 1) * m := by ring
    rw [List.replicate_succ, readLines_cons (readLine_doubling _ line) rfl,
      List.replicate_append_replicate, ih, hDouble]

/-- The draft of the whole source. -/
def withString (n line : Nat) : Draft :=
  { doubled (List.replicate (2 ^ n) 'a') with
    defined := ["second".toList, "first".toList]
    waiting := ["second".toList]
    data := #[⟨["first".toList], .bytes (DataItem.utf8 (List.replicate (2 ^ n) 'a')), line⟩] }

theorem readLine_string (n line : Nat) :
    (doubled (List.replicate (2 ^ n) 'a')).readLine line ".ascii \\Q\\A\\Q".toList =
      .ok { withString n line with defined := ["first".toList], waiting := [] } := by
  have hQuoted : (List.replicate (2 ^ n) 'a').flatMap quotedChar = List.replicate (2 ^ n) 'a' := by
    rw [List.flatMap_replicate]
    exact List.flatten_replicate_singleton
  have hConstant : constantOperands? (said ".ascii \\Q\\A\\Q".toList) = none := by decide +kernel
  have hSubstitute : ∀ t, (doubled t).substituteConstants (said ".ascii \\Q\\A\\Q".toList) =
      ".ascii \"".toList ++ (t ++ ['"']) := by
    intro t
    cbv
  have hLine : ".ascii \"".toList ++ (List.replicate (2 ^ n) 'a' ++ ['"']) =
      stringLine "ascii".toList [List.replicate (2 ^ n) 'a'] := by
    rw [stringLine, List.map_singleton, stringLiteral, hQuoted]
    rfl
  have hDirective : (lowercase "ascii".toList, []) ∈ stringDirectives := by decide
  rw [readLine_eq_statement rfl hConstant, hSubstitute, hLine,
    statement_stringLine hDirective (List.cons_ne_nil _ _), List.flatMap_singleton, List.append_nil]
  rfl

theorem ofSource_doublingSource (n : Nat) :
    ofSource (doublingSource n) = .ok (withString n (n + 5)) := by
  have hPrelude : readLines 1
      [".data".toList, "first:".toList, ".equ Q, \"".toList, ".equ A, a".toList] new =
        .ok (doubled (List.replicate 1 'a')) := by
    cbv
  have hDoublings := readLines_doublings n 5 'a' 1
  rw [Nat.mul_one] at hDoublings
  have hString := readLine_string n (n + 5)
  have hLast : ∀ line, { withString n (n + 5) with
      defined := ["first".toList], waiting := [] }.readLine line "second:".toList =
        .ok (withString n (n + 5)) := by
    intro line
    cbv
  have hLines : readLines 1 (lines (doublingSource n)) new = .ok (withString n (n + 5)) := by
    rw [lines_doublingSource, readLines_append hPrelude rfl, List.length_cons, List.length_cons,
      List.length_cons, List.length_singleton, readLines_append hDoublings rfl,
      List.length_replicate, Nat.add_comm _ n, readLines_cons hString rfl, readLines_singleton]
    exact hLast _
  exact bind_eq_ok_iff.mpr ⟨_, hLines, rfl⟩

end Draft

theorem length_utf8_replicate (n : Nat) : (utf8 (List.replicate n 'a')).length = n := by
  rw [utf8, List.flatMap_replicate, List.length_flatten, List.map_replicate, List.sum_replicate,
    smul_eq_mul]
  exact Nat.mul_one n

/-- A string of `2 ^ 32` bytes has the size 0: the source is accepted although the string goes past
the end of the address space, and the label behind the string has the address of the one in front
of it. -/
theorem long_string_accepted :
    ∃ d p items s, Draft.ofSource (doublingSource 32) = .ok d ∧
      (instructionsOf (trace (doublingSource 32))).length = 0 ∧
      ReadsItems (trace (doublingSource 32)) items ∧
      (itemsOf (trace (doublingSource 32)))[0]? = some s ∧ s.line = 37 ∧
      CrossesEnd (positionAt (dataAddress (trace (doublingSource 32))) items) 0 ∧
      assemble (doublingSource 32) = .ok p ∧ p.image.size = 4 + 2 ^ 32 ∧
      p.symbol? "first".toList = some 4 ∧ p.symbol? "second".toList = some 4 := by
  have hSource := Draft.ofSource_doublingSource 32
  obtain ⟨region, hRecords⟩ := Draft.records_of_ofSource hSource
  have hLength := length_utf8_replicate (2 ^ 32)
  have hCode : (instructionsOf (trace (doublingSource 32))).length = 0 := hRecords.length_code.symm
  have hStart : (dataAddress (trace (doublingSource 32))).toNat = 4 := by
    rw [toNat_dataAddress (by rw [hCode]; decide), hCode]
  have hVariable : (Draft.withString 32 (32 + 5)).data.toList[0]? =
      some ⟨["first".toList], .bytes (utf8 (List.replicate (2 ^ 32) 'a')), 37⟩ := rfl
  obtain ⟨s, hs, hLine⟩ := hRecords.exists_variable_iff.mp ⟨_, hVariable, rfl⟩
  have hLink := Draft.link_of_bytes (d := Draft.withString 32 (32 + 5)) rfl rfl
    (by rw [hLength]; decide)
  rw [hLength] at hLink
  refine ⟨_, _, _, s, hSource, hCode, hRecords.readsItems, hs, hLine, ⟨?_, ?_⟩,
    bind_eq_ok_iff.mpr ⟨_, hSource, hLink⟩, ?_, ?_, ?_⟩
  · rw [positionAt_zero, hStart]
    decide
  · have hItem : ((Draft.withString 32 (32 + 5)).data.toList.map (·.item))[0]? =
        some (.bytes (utf8 (List.replicate (2 ^ 32) 'a'))) := rfl
    rw [positionAt_succ hItem, positionAt_zero, hStart, DataItem.length, hLength]
    decide
  · rw [List.size_toArray, List.length_append, hLength]
    rfl
  · rfl
  · rfl

end NiosBoard
