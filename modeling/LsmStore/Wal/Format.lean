import LsmStore.Basic
import LsmStore.Lib.LittleEndian

/-!
# The byte format of the write-ahead log

In the vanilla configuration the log stores write operations only.  A record
is the type byte of the log entry, the type byte of the operation, the key
length as a 64-bit word, the key and, for a put, the value length and the
value.  There is neither padding nor a checksum.
-/

namespace LsmStore
namespace Wal

/-- Type byte in front of every log entry. -/
inductive LogEntryType where
  | write
  | deleteValue
  | deleteBatch
deriving DecidableEq

/-- Discriminant of the entry type. -/
def LogEntryType.toByte : LogEntryType → UInt8
  | write => 0
  | deleteValue => 1
  | deleteBatch => 2

/-- The log is split into page files of this many bytes. -/
def pageSize : Nat :=
  4 * 1024

theorem pageSize_pos : 0 < pageSize := by
  decide

/-- The page files of a log directory, by file position. -/
abbrev LogDir := Nat → Option (List UInt8)

/-- A length as the eight bytes of a `u64`. -/
def lengthBytes (n : Nat) : List UInt8 :=
  LittleEndian.encode 8 n

@[simp] theorem lengthBytes_length
    (n : Nat) :
    (lengthBytes n).length = 8 := by
  simp [lengthBytes]

/-- Lengths of byte vectors fit the eight bytes they are stored in. -/
theorem decode_lengthBytes
    (b : ByteVec) :
    LittleEndian.decode (lengthBytes b.len) = b.len := by
  have hlt := b.length_lt
  apply LittleEndian.decode_encode
  unfold ByteVec.len
  norm_num at hlt ⊢
  omega

/-- The part of a record behind the key. -/
def encodeValue : WriteOp → List UInt8
  | .put _ value => lengthBytes value.len ++ value.data
  | .delete _ => []

/-- The record `store` queues for one write operation. -/
def encodeEntry (op : WriteOp) : List UInt8 :=
  [LogEntryType.write.toByte, op.getType] ++ lengthBytes op.getKeyLength ++
    op.getKey.data ++ encodeValue op

/-- The byte stream of a list of operations. -/
def encode (ops : List WriteOp) : List UInt8 :=
  ops.flatMap encodeEntry

@[simp] theorem encode_nil : encode [] = [] :=
  rfl

@[simp] theorem encode_cons
    (op : WriteOp) (ops : List WriteOp) :
    encode (op :: ops) = encodeEntry op ++ encode ops :=
  rfl

@[simp] theorem encode_append
    (xs ys : List WriteOp) :
    encode (xs ++ ys) = encode xs ++ encode ys := by
  simp [encode]

/-- Every record has its two type bytes and a key length. -/
theorem encodeEntry_length
    (op : WriteOp) :
    (encodeEntry op).length = 10 + op.getKey.len + (encodeValue op).length := by
  simp only [encodeEntry, List.length_append, lengthBytes_length, List.length_cons,
    List.length_nil, ByteVec.len]

theorem encodeEntry_ne_nil
    (op : WriteOp) :
    encodeEntry op ≠ [] := by
  intro h
  have hlen := encodeEntry_length op
  rw [h, List.length_nil] at hlen
  omega

end Wal
end LsmStore
