import NiosBoard.Assembly.Program
import NiosBoard.Proofs.Except
import NiosBoard.Proofs.Lists
import NiosBoard.Proofs.Word

/-! # What the second pass builds

The image is the words of the instructions, a zero word, and one chunk of bytes for each data item.
Each chunk is what its item emits at the address where the chunk ends up.
-/

namespace NiosBoard

/-- The word at a byte offset of the image. -/
def Program.word (p : Program) (offset : Nat) : Word :=
  Word.ofBytes ((p.image.toList.drop offset).take 4)

/-- The chunks that items become when they are written one after another from `address` on. -/
inductive Emits (symbols : Symbols) : Word → List DataItem → List (List Byte) → Prop
  | nil (address : Word) : Emits symbols address [] []
  | cons {address : Word} {item : DataItem} {items : List DataItem} {chunk : List Byte}
      {chunks : List (List Byte)} (hItem : item.emit address symbols = .ok chunk)
      (hRest : Emits symbols (address + BitVec.ofNat 32 chunk.length) items chunks) :
      Emits symbols address (item :: items) (chunk :: chunks)

namespace Draft

theorem emits_of_foldlM {symbols : Symbols} {vs : List Variable} {image image' : Array Byte}
    (h : vs.foldlM (emitVariable symbols) image = .ok image') :
    ∃ chunks,
      Emits symbols (Board.ramStart + BitVec.ofNat 32 image.size) (vs.map (·.item)) chunks ∧
        image'.toList = image.toList ++ chunks.flatten := by
  induction vs generalizing image with
  | nil =>
    cases h
    exact ⟨[], .nil _, by simp⟩
  | cons v vs ih =>
    rw [List.foldlM_cons] at h
    obtain ⟨image₁, hv, h⟩ := bind_eq_ok_iff.mp h
    unfold emitVariable at hv
    split at hv
    · next chunk hChunk =>
      cases hv
      obtain ⟨chunks, hEmits, hImage⟩ := ih h
      refine ⟨chunk :: chunks, .cons hChunk ?_, ?_⟩
      · rwa [← Array.length_toList, Array.toList_appendList, List.length_append,
          Array.length_toList, BitVec.ofNat_add, ← BitVec.add_assoc] at hEmits
      · rw [hImage]
        simp
    · cases hv

theorem length_codeImage (is : List Instruction) : (codeImage is).length = 4 * is.length + 4 := by
  rw [codeImage, List.length_append, length_littleEndian, List.length_flatMap]
  simp [Nat.mul_comm]

/-- All that a second pass has done when it succeeds: `is` are the finished instructions, `chunks`
the bytes of the data items, `placed` the labels of both, and `dataEnd` the end of the data. -/
structure LinksTo (d : Draft) (p : Program) (is : List Instruction) (chunks : List (List Byte))
    (placed : Table Word) (dataEnd : Word) : Prop where
  layout : layout d.dataStart d.symbols d.data.toList = .ok (placed, dataEnd)
  symbols : p.symbols = place d.waiting dataEnd placed
  code : List.Forall₂ (fun i q => Pending.instruction q p.symbol? = .ok i) is d.code.toList
  emits : Emits p.symbol? d.dataStart (d.data.toList.map (·.item)) chunks
  image : p.image.toList = codeImage is ++ chunks.flatten
  lines : p.lines = d.code.map (·.line)

theorem link_eq_ok {d : Draft} {p : Program} (h : d.link = .ok p) :
    ∃ is chunks placed dataEnd, d.LinksTo p is chunks placed dataEnd := by
  obtain ⟨⟨placed, dataEnd⟩, hLayout, h⟩ := bind_eq_ok_iff.mp h
  obtain ⟨is, hCode, h⟩ := bind_eq_ok_iff.mp h
  obtain ⟨image, hImage, h⟩ := bind_eq_ok_iff.mp h
  cases h
  have hCode := mapM_eq_ok_iff.mp hCode
  rw [← Array.foldlM_toList] at hImage
  obtain ⟨chunks, hEmits, hImage⟩ := emits_of_foldlM hImage
  have hStart : Board.ramStart + BitVec.ofNat 32 (codeImage is).toArray.size = d.dataStart := by
    rw [List.size_toArray, length_codeImage, ← hCode.length_eq, Array.length_toList,
      BitVec.ofNat_add, ← BitVec.add_assoc]
    rfl
  rw [hStart] at hEmits
  exact ⟨is, chunks, placed, dataEnd, hLayout, rfl, hCode.flip, hEmits, hImage, rfl⟩

namespace LinksTo

variable {d : Draft} {p : Program} {is : List Instruction} {chunks : List (List Byte)}
  {placed : Table Word} {dataEnd : Word}

theorem length_eq_size_code (h : d.LinksTo p is chunks placed dataEnd) : p.length = d.code.size := by
  rw [Program.length, h.lines, Array.size_map]

theorem length_eq_length (h : d.LinksTo p is chunks placed dataEnd) : p.length = is.length := by
  rw [h.length_eq_size_code, h.code.length_eq, Array.length_toList]

theorem size_image (h : d.LinksTo p is chunks placed dataEnd) :
    p.image.size = 4 * p.length + 4 + chunks.flatten.length := by
  rw [← Array.length_toList, h.image, List.length_append, length_codeImage, h.length_eq_length]

theorem word_eq_encode (h : d.LinksTo p is chunks placed dataEnd) {i : Nat} {ins : Instruction}
    (hi : is[i]? = some ins) : p.word (4 * i) = ins.encode := by
  rw [Program.word, h.image, codeImage, List.append_assoc,
    take_drop_flatMap (fun _ => length_littleEndian ..) hi, ofBytes_littleEndian]

theorem word_after_code (h : d.LinksTo p is chunks placed dataEnd) :
    p.word (4 * p.length) = 0 := by
  have hLength : (is.flatMap fun i => littleEndian 4 i.encode).length = 4 * p.length := by
    rw [List.length_flatMap, h.length_eq_length]
    simp [Nat.mul_comm]
  rw [Program.word, h.image, codeImage, List.append_assoc, ← hLength, List.drop_left,
    List.take_left' (length_littleEndian ..), ofBytes_littleEndian]

end LinksTo

end Draft

end NiosBoard
