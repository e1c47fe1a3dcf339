import Mathlib.Data.List.Basic
import Mathlib.Tactic

/-!
# Little-endian words of a fixed width

A word of `width` bytes holds a natural number below `256 ^ width`, least
significant byte first.  Encoding truncates larger numbers, as a cast to a
machine word does.
-/

namespace LsmStore
namespace LittleEndian

/-- The `width` little-endian bytes of `n`, truncated to the width. -/
def encode : Nat → Nat → List UInt8
  | 0, _ => []
  | width + 1, n => UInt8.ofNat (n % 256) :: encode width (n / 256)

/-- The number denoted by a little-endian byte list. -/
def decode : List UInt8 → Nat
  | [] => 0
  | b :: bytes => b.toNat + 256 * decode bytes

@[simp] theorem encode_length
    (width n : Nat) :
    (encode width n).length = width := by
  induction width generalizing n with
  | zero =>
      rfl
  | succ width ih =>
      simp [encode, ih]

/-- The bytes behind a number, and the number. -/
theorem take_drop_encode
    (width n : Nat) (rest : List UInt8) :
    (encode width n ++ rest).take width = encode width n ∧
      (encode width n ++ rest).drop width = rest := by
  have hlen := encode_length width n
  exact ⟨List.take_left' hlen, List.drop_left' hlen⟩

/-- Decoding undoes encoding for every number that fits the width. -/
theorem decode_encode
    (width n : Nat)
    (hn : n < 256 ^ width) :
    decode (encode width n) = n := by
  induction width generalizing n with
  | zero =>
      simp only [pow_zero, Nat.lt_one_iff] at hn
      subst hn
      rfl
  | succ width ih =>
      have hdiv : n / 256 < 256 ^ width := by
        rw [pow_succ] at hn
        exact Nat.div_lt_of_lt_mul (by rw [Nat.mul_comm]; exact hn)
      have hbyte : (UInt8.ofNat (n % 256)).toNat = n % 256 := by
        rw [UInt8.toNat_ofNat']
        omega
      simp only [encode, decode, ih (n / 256) hdiv, hbyte]
      omega

theorem decode_lt
    (bytes : List UInt8) :
    decode bytes < 256 ^ bytes.length := by
  induction bytes with
  | nil =>
      exact Nat.one_pos
  | cons byte bytes ih =>
      have hbyte := byte.toNat_lt
      rw [decode, List.length_cons, pow_succ]
      omega

/-- A part of a buffer that is at most `width` bytes long. -/
theorem decode_take_lt
    (width : Nat) (bytes : List UInt8) :
    decode (bytes.take width) < 256 ^ width :=
  (decode_lt _).trans_le (Nat.pow_le_pow_right (by norm_num) (List.length_take_le _ _))

theorem encode_decode
    (bytes : List UInt8) :
    encode bytes.length (decode bytes) = bytes := by
  induction bytes with
  | nil =>
      rfl
  | cons byte bytes ih =>
      have hbyte := byte.toNat_lt
      have hmod : (byte.toNat + 256 * decode bytes) % 256 = byte.toNat := by
        omega
      have hdiv : (byte.toNat + 256 * decode bytes) / 256 = decode bytes := by
        omega
      rw [List.length_cons, decode, encode, hmod, hdiv, ih, UInt8.ofNat_toNat]

end LittleEndian
end LsmStore
