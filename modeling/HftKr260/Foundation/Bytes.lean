import Mathlib.Data.List.Basic
import Mathlib.Tactic.IntervalCases

/-!
# Bytes of a word

`byte x i` is byte `i` of a bit vector, counted from the least significant end. A word
of `8 * n` bits is determined by its first `n` bytes, so equalities between words that
were taken apart and put together again are proved byte by byte: `byte_append_zero` and
`byte_append_succ` read a byte off a concatenation.

`bswap64` and `bswap32` reverse the bytes of a word. A little-endian machine stores byte
`i` of a word at offset `i`; `beBytes` lists the bytes in network order.
-/

set_option autoImplicit false

namespace Foundation

/-- An octet. -/
abbrev Byte := BitVec 8

/-- Byte `i` of a word, the least significant byte being byte `0`. -/
def byte {w : ℕ} (x : BitVec w) (i : ℕ) : Byte := x.extractLsb' (8 * i) 8

section Words

variable {w m n : ℕ}

theorem getLsbD_byte (x : BitVec w) (i j : ℕ) :
    (byte x i).getLsbD j = (decide (j < 8) && x.getLsbD (8 * i + j)) := by
  simp [byte]

/-- Words with the same bytes are equal. -/
theorem eq_of_byte_eq (hw : w = 8 * n) {x y : BitVec w} (h : ∀ i < n, byte x i = byte y i) :
    x = y := by
  apply BitVec.eq_of_getLsbD_eq
  intro j hj
  have hbyte := congrArg (fun b => b.getLsbD (j % 8)) (h (j / 8) (by omega))
  simp only [getLsbD_byte, Nat.mod_lt _ (show 8 > 0 by decide), decide_true, Bool.true_and,
    Nat.div_add_mod] at hbyte
  exact hbyte

@[simp] theorem byte_append_zero (a : BitVec m) (b : Byte) : byte (a ++ b) 0 = b := by
  apply BitVec.eq_of_getLsbD_eq
  intro j hj
  rw [getLsbD_byte, BitVec.getLsbD_append]
  simp [hj]

@[simp] theorem byte_append_succ (a : BitVec m) (b : Byte) (i : ℕ) :
    byte (a ++ b) (i + 1) = byte a i := by
  apply BitVec.eq_of_getLsbD_eq
  intro j hj
  have hout : ¬ 8 * (i + 1) + j < 8 := by omega
  have hsub : 8 * (i + 1) + j - 8 = 8 * i + j := by omega
  rw [getLsbD_byte, getLsbD_byte, BitVec.getLsbD_append]
  simp only [hout, if_false, hsub]

@[simp] theorem byte_self (b : Byte) : byte b 0 = b := by
  simp [byte]

/-- A byte of a field is the byte of the word it was cut from. -/
theorem byte_extractLsb' (x : BitVec w) (i n j : ℕ) (hj : j < n) :
    byte (x.extractLsb' (8 * i) (8 * n)) j = byte x (i + j) := by
  apply BitVec.eq_of_getLsbD_eq
  intro l hl
  have hin : 8 * j + l < 8 * n := by omega
  have hadd : 8 * i + (8 * j + l) = 8 * (i + j) + l := by omega
  rw [getLsbD_byte, getLsbD_byte, BitVec.getLsbD_extractLsb']
  simp [hin, hadd]

end Words

/-- The bytes of a word, least significant first: its little-endian storage. -/
def leBytes (n : ℕ) {w : ℕ} (x : BitVec w) : List Byte := (List.range n).map (byte x)

/-- The bytes of a word, most significant first: network order. -/
def beBytes (n : ℕ) {w : ℕ} (x : BitVec w) : List Byte :=
  (List.range n).map fun i => byte x (n - 1 - i)

@[simp] theorem length_leBytes (n : ℕ) {w : ℕ} (x : BitVec w) : (leBytes n x).length = n := by
  simp [leBytes]

@[simp] theorem length_beBytes (n : ℕ) {w : ℕ} (x : BitVec w) : (beBytes n x).length = n := by
  simp [beBytes]

/-- `__builtin_bswap64`: the bytes of a 64-bit word in reverse order. -/
def bswap64 (x : BitVec 64) : BitVec 64 :=
  byte x 0 ++ byte x 1 ++ byte x 2 ++ byte x 3 ++ byte x 4 ++ byte x 5 ++ byte x 6 ++ byte x 7

/-- `__builtin_bswap32`: the bytes of a 32-bit word in reverse order. -/
def bswap32 (x : BitVec 32) : BitVec 32 :=
  byte x 0 ++ byte x 1 ++ byte x 2 ++ byte x 3

theorem byte_bswap64 (x : BitVec 64) (i : ℕ) (hi : i < 8) :
    byte (bswap64 x) i = byte x (7 - i) := by
  interval_cases i <;> simp [bswap64]

theorem byte_bswap32 (x : BitVec 32) (i : ℕ) (hi : i < 4) :
    byte (bswap32 x) i = byte x (3 - i) := by
  interval_cases i <;> simp [bswap32]

@[simp] theorem bswap64_bswap64 (x : BitVec 64) : bswap64 (bswap64 x) = x := by
  refine eq_of_byte_eq (n := 8) rfl fun i hi => ?_
  rw [byte_bswap64 _ i hi, byte_bswap64 _ _ (by omega)]
  congr 1
  omega

@[simp] theorem bswap32_bswap32 (x : BitVec 32) : bswap32 (bswap32 x) = x := by
  refine eq_of_byte_eq (n := 4) rfl fun i hi => ?_
  rw [byte_bswap32 _ i hi, byte_bswap32 _ _ (by omega)]
  congr 1
  omega

/-- Swapping before a little-endian store writes network order. -/
theorem leBytes_bswap64 (x : BitVec 64) : leBytes 8 (bswap64 x) = beBytes 8 x := by
  apply List.map_congr_left
  intro i hi
  exact byte_bswap64 x i (List.mem_range.mp hi)

theorem leBytes_bswap32 (x : BitVec 32) : leBytes 4 (bswap32 x) = beBytes 4 x := by
  apply List.map_congr_left
  intro i hi
  exact byte_bswap32 x i (List.mem_range.mp hi)

end Foundation
