import Mathlib
import NiosBoard.Word

/-! # Numbers that words stand for

`spelled` is the number that bytes spell, the least significant first. Both directions of the
byte order are stated through it: the bytes taken off a value spell the value modulo their width,
and a word put together from bytes is the number they spell modulo `2 ^ 32`.
-/

namespace NiosBoard

/-- The two readings of a word agree modulo its width. -/
theorem toInt_emod_eq_toNat {n : Nat} (x : BitVec n) : x.toInt % 2 ^ n = x.toNat := by
  have hMod : (x.toNat : Int).bmod (2 ^ n) % (2 ^ n : Nat) = x.toNat % (2 ^ n : Nat) := Int.bmod_emod
  rw [← BitVec.toInt_eq_toNat_bmod, ← Int.natCast_mod, Nat.mod_eq_of_lt x.isLt] at hMod
  exact_mod_cast hMod

def spelled : List Byte → Nat
  | [] => 0
  | b :: rest => b.toNat + 256 * spelled rest

theorem spelled_append (l : List Byte) (b : Byte) :
    spelled (l ++ [b]) = spelled l + 2 ^ (8 * l.length) * b.toNat := by
  induction l with
  | nil => simp [spelled]
  | cons c l ih =>
    have hPow : 2 ^ (8 * (l.length + 1)) = 256 * 2 ^ (8 * l.length) := by
      rw [Nat.mul_add, pow_add, Nat.mul_comm, show 2 ^ (8 * 1) = 256 from rfl]
    rw [List.cons_append, spelled, spelled, ih, List.length_cons, hPow]
    ring

theorem spelled_lt (l : List Byte) : spelled l < 2 ^ (8 * l.length) := by
  induction l with
  | nil => exact Nat.one_pos
  | cons b l ih =>
    have hb := b.isLt
    rw [List.length_cons, Nat.mul_add, pow_add, spelled]
    omega

theorem spelled_littleEndian {w : Nat} (n : Nat) (x : BitVec w) :
    spelled (littleEndian n x) = x.toNat % 2 ^ (8 * n) := by
  induction n with
  | zero => simp [littleEndian, spelled, Nat.mod_one]
  | succ n ih =>
    have hSplit : littleEndian (n + 1) x = littleEndian n x ++ [byteAt x n] := by
      rw [littleEndian, List.range_succ, List.map_append]
      rfl
    have hByte : (byteAt x n).toNat = x.toNat / 2 ^ (8 * n) % 2 ^ 8 := by
      rw [byteAt, BitVec.extractLsb'_toNat, Nat.shiftRight_eq_div_pow]
    rw [hSplit, spelled_append, ih, length_littleEndian, hByte, Nat.mul_add, pow_add, Nat.mod_mul]

theorem toNat_ofBytes (l : List Byte) : (Word.ofBytes l).toNat = spelled l % 2 ^ 32 := by
  induction l with
  | nil => rfl
  | cons b l ih =>
    have hDisjoint : (Word.ofBytes l <<< 8) &&& b.setWidth 32 = 0#32 := by
      ext i hi
      by_cases h : i < 8
      · simp [h]
      · simp [BitVec.getLsbD_of_ge b i (by omega)]
    have hb := b.isLt
    rw [Word.ofBytes, ← BitVec.add_eq_or_of_and_eq_zero _ _ hDisjoint, BitVec.toNat_add,
      BitVec.toNat_shiftLeft, BitVec.toNat_setWidth, Nat.shiftLeft_eq, ih, spelled]
    omega

theorem ofBytes_littleEndian (w : Word) : Word.ofBytes (littleEndian 4 w) = w := by
  apply BitVec.eq_of_toNat_eq
  rw [toNat_ofBytes, spelled_littleEndian, Nat.mod_mod, Nat.mod_eq_of_lt w.isLt]

/-- A write of some bytes only looks at the low bits of a word. -/
theorem littleEndian_congr {n : Nat} {x y : Word}
    (h : x.toNat % 2 ^ (8 * n) = y.toNat % 2 ^ (8 * n)) : littleEndian n x = littleEndian n y := by
  apply List.map_congr_left
  intro i hi
  have hLt := List.mem_range.mp hi
  apply BitVec.eq_of_getLsbD_eq
  intro j hj
  have hBit := congrArg (Nat.testBit · (8 * i + j)) h
  simp only [Nat.testBit_mod_two_pow, show 8 * i + j < 8 * n by omega, decide_true,
    Bool.true_and] at hBit
  simp only [byteAt, BitVec.getLsbD_extractLsb', hj, decide_true, Bool.true_and]
  exact hBit

end NiosBoard
