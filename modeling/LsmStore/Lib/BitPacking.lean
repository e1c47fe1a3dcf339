import Mathlib.Data.List.Basic
import Mathlib.Data.Nat.Bitwise

/-!
# Bits in bytes

A list of bits is stored in whole bytes.  The length of the list is not stored:
what is read back is the list, filled up with zeros to a multiple of eight.
`BitPacking` is what programs take from a library that does so; `leastFirst` is
such a library, with the first bit in the least significant position.
-/

namespace LsmStore

/-- The zeros that fill up the last byte. -/
def BitPacking.padding (length : Nat) : Nat :=
  8 * ((length + 7) / 8) - length

class BitPacking where
  pack : List Bool → List UInt8
  unpack : List UInt8 → List Bool
  unpack_pack : ∀ bits,
    unpack (pack bits) = bits ++ List.replicate (BitPacking.padding bits.length) false
  /-- Whole bytes are stored as they are. -/
  pack_unpack : ∀ bytes, pack (unpack bytes) = bytes

namespace BitPacking
namespace LeastFirst

/-- The number whose binary digits are the bits, least significant first. -/
def ofBits : List Bool → Nat
  | [] => 0
  | b :: bits => Nat.bit b (ofBits bits)

/-- The bits of a byte. -/
def byteBits (byte : UInt8) : List Bool :=
  (List.range 8).map byte.toNat.testBit

/-- Store bits in whole bytes. -/
def pack (bits : List Bool) : List UInt8 :=
  (List.range ((bits.length + 7) / 8)).map fun j =>
    UInt8.ofNat (ofBits ((bits.drop (8 * j)).take 8))

/-- All the bits of some bytes. -/
def unpack (bytes : List UInt8) : List Bool :=
  bytes.flatMap byteBits

theorem ofBits_lt
    (bits : List Bool) :
    ofBits bits < 2 ^ bits.length := by
  induction bits with
  | nil =>
      exact Nat.one_pos
  | cons b bits ih =>
      rw [ofBits, List.length_cons, pow_succ, Nat.bit_val]
      cases b with
      | false =>
          simp only [Bool.toNat_false]
          omega
      | true =>
          simp only [Bool.toNat_true]
          omega

theorem testBit_ofBits
    (bits : List Bool) (i : Nat) :
    (ofBits bits).testBit i = bits.getD i false := by
  induction bits generalizing i with
  | nil =>
      simp [ofBits]
  | cons b bits ih =>
      cases i with
      | zero =>
          simp [ofBits]
      | succ i =>
          simp [ofBits, Nat.testBit_bit_succ, ih]

/-- A byte holds up to eight bits. -/
theorem byteBits_ofBits
    {bits : List Bool}
    (h : bits.length ≤ 8) :
    byteBits (UInt8.ofNat (ofBits bits)) = bits ++ List.replicate (8 - bits.length) false := by
  have hlt : ofBits bits < 256 :=
    Nat.lt_of_lt_of_le (ofBits_lt bits) (Nat.pow_le_pow_right (n := 2) (by omega) h)
  have hnat : (UInt8.ofNat (ofBits bits)).toNat = ofBits bits := by
    rw [UInt8.toNat_ofNat']
    exact Nat.mod_eq_of_lt hlt
  rw [byteBits, hnat]
  apply List.ext_getElem
  · simp
    omega
  · intro i hi hi'
    rw [List.getElem_map, List.getElem_range, testBit_ofBits, List.getD_eq_getElem?_getD]
    rcases Nat.lt_or_ge i bits.length with hlt' | hge
    · rw [List.getElem_append_left hlt', List.getElem?_eq_getElem hlt', Option.getD_some]
    · rw [List.getElem_append_right hge, List.getElem?_eq_none hge, List.getElem_replicate]
      rfl

/-- The first bytes hold the first bits. -/
theorem flatMap_chunks
    (bits : List Bool) (n : Nat) :
    ((List.range n).flatMap fun j =>
        byteBits (UInt8.ofNat (ofBits ((bits.drop (8 * j)).take 8)))) =
      bits.take (8 * n) ++ List.replicate (8 * n - bits.length) false := by
  induction n generalizing bits with
  | zero =>
      simp
  | succ n ih =>
      have hshift : ((List.range n).flatMap fun j =>
          byteBits (UInt8.ofNat (ofBits ((bits.drop (8 * (j + 1))).take 8)))) =
            (bits.drop 8).take (8 * n) ++
              List.replicate (8 * n - (bits.drop 8).length) false := by
        rw [← ih (bits.drop 8)]
        simp only [List.drop_drop, Nat.mul_add, Nat.mul_one, Nat.add_comm 8]
      rw [List.range_succ_eq_map, List.flatMap_cons, List.flatMap_map, hshift, Nat.mul_zero,
        List.drop_zero, byteBits_ofBits (by rw [List.length_take]; omega)]
      rcases Nat.lt_or_ge bits.length 8 with hlt | hge
      · have hdrop : bits.drop 8 = [] := List.drop_eq_nil_of_le (by omega)
        rw [hdrop, List.take_nil, List.nil_append, List.take_of_length_le (by omega),
          List.take_of_length_le (by omega), List.append_assoc, ← List.replicate_add,
          List.length_nil]
        congr 2
        omega
      · rw [List.length_take_of_le hge, Nat.sub_self, List.replicate_zero, List.append_nil,
          ← List.append_assoc, List.length_drop, Nat.mul_succ, Nat.add_comm (8 * n) 8,
          List.take_add]
        congr 2
        omega

/-- **What is read back**: the bits, filled up with zeros. -/
theorem unpack_pack
    (bits : List Bool) :
    unpack (pack bits) = bits ++ List.replicate (padding bits.length) false := by
  rw [unpack, pack, List.flatMap_map, flatMap_chunks, List.take_of_length_le (by omega), padding]

theorem length_byteBits
    (byte : UInt8) :
    (byteBits byte).length = 8 := by
  rw [byteBits, List.length_map, List.length_range]

theorem ofBits_byteBits
    (byte : UInt8) :
    UInt8.ofNat (ofBits (byteBits byte)) = byte := by
  have hnat : ofBits (byteBits byte) = byte.toNat := by
    apply Nat.eq_of_testBit_eq
    intro i
    rw [testBit_ofBits, List.getD_eq_getElem?_getD, byteBits, List.getElem?_map]
    rcases Nat.lt_or_ge i 8 with hlt | hge
    · rw [List.getElem?_range hlt]
      rfl
    · have hsmall : byte.toNat < 2 ^ i :=
        Nat.lt_of_lt_of_le byte.toNat_lt (Nat.pow_le_pow_right (by omega) hge)
      rw [List.getElem?_eq_none (by rw [List.length_range]; exact hge),
        Nat.testBit_lt_two_pow hsmall]
      rfl
  rw [hnat, UInt8.ofNat_toNat]

theorem length_unpack
    (bytes : List UInt8) :
    (unpack bytes).length = 8 * bytes.length := by
  induction bytes with
  | nil =>
      rfl
  | cons byte bytes ih =>
      rw [unpack, List.flatMap_cons, ← unpack, List.length_append, ih, length_byteBits,
        List.length_cons]
      omega

theorem pack_unpack
    (bytes : List UInt8) :
    pack (unpack bytes) = bytes := by
  rw [pack, length_unpack, show (8 * bytes.length + 7) / 8 = bytes.length by omega]
  induction bytes with
  | nil =>
      rfl
  | cons byte bytes ih =>
      have hunpack : unpack (byte :: bytes) = byteBits byte ++ unpack bytes := List.flatMap_cons
      have hdrop : ∀ j, (unpack (byte :: bytes)).drop (8 * (j + 1)) =
          (unpack bytes).drop (8 * j) := by
        intro j
        rw [hunpack, Nat.mul_succ, Nat.add_comm, ← List.drop_drop,
          List.drop_left' (length_byteBits byte)]
      rw [List.length_cons, List.range_succ_eq_map, List.map_cons, List.map_map]
      refine congrArg₂ List.cons ?_ ?_
      · rw [Nat.mul_zero, List.drop_zero, hunpack, List.take_left' (length_byteBits byte),
          ofBits_byteBits]
      · simp only [Function.comp_def, Nat.succ_eq_add_one, hdrop]
        exact ih

end LeastFirst

instance leastFirst : BitPacking where
  pack := LeastFirst.pack
  unpack := LeastFirst.unpack
  unpack_pack := LeastFirst.unpack_pack
  pack_unpack := LeastFirst.pack_unpack

end BitPacking
end LsmStore
