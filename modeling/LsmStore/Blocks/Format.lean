import LsmStore.Bytes

/-!
# The format of table files

A table is stored in data blocks and an index block.  Three features decide what
exactly the files look like: bloom filters in the data blocks, compression of the
files, and whether an entry holds its value or the place of its value in the
value log.  Each is given here by the functions the source calls and by what is
assumed of them; the two ways to store a value are then defined as the source
has them.

An entry in a data block is a header of fixed length, the part of the key that is
not shared with the key before, and what the value has behind the header.
-/

namespace LsmStore
namespace Blocks

open LittleEndian

/-- A bloom filter: it has no false negatives, and it survives being stored. -/
structure BloomFormat where
  Filter : Type
  length : Nat
  new : Filter
  set : Filter → List UInt8 → Filter
  check : Filter → List UInt8 → Bool
  asSlice : Filter → List UInt8
  fromBytes : List UInt8 → Option Filter
  length_asSlice : ∀ filter, (asSlice filter).length = length
  fromBytes_asSlice : ∀ filter, fromBytes (asSlice filter) = some filter
  check_set : ∀ filter key, check (set filter key) key = true
  check_set_of_check : ∀ filter key other,
    check filter key = true → check (set filter other) key = true

/-- Without the feature there is nothing in the block, and every key passes. -/
def BloomFormat.off : BloomFormat where
  Filter := Unit
  length := 0
  new := ()
  set := fun _ _ => ()
  check := fun _ _ => true
  asSlice := fun _ => []
  fromBytes := fun _ => some ()
  length_asSlice := fun _ => rfl
  fromBytes_asSlice := fun _ => rfl
  check_set := fun _ _ => rfl
  check_set_of_check := fun _ _ _ _ => rfl

/-- What `disk::write` and `disk::read` do to the contents of a file. -/
structure Compression where
  compress : List UInt8 → List UInt8
  decompress : List UInt8 → Option (List UInt8)
  decompress_compress : ∀ data, decompress (compress data) = some data

def Compression.off : Compression where
  compress := id
  decompress := some
  decompress_compress := fun _ => rfl

/-- How an entry stores its value: the last fields of its header, and what stands behind the
key.  A deletion stores a value that nobody reads. -/
structure ValueFormat where
  V : Type
  headerLen : Nat
  header : V → List UInt8
  body : V → List UInt8
  /-- The length of the body, as it is found in the header. -/
  bodyLen : List UInt8 → Nat
  read : List UInt8 → List UInt8 → V
  deletion : V
  length_header : ∀ v, (header v).length = headerLen
  bodyLen_header : ∀ v, bodyLen (header v) = (body v).length
  read_header_body : ∀ v, read (header v) (body v) = v

/-- The value itself, behind its length. -/
def ValueFormat.plain : ValueFormat where
  V := Value
  headerLen := 8
  header := fun value => encode 8 value.len
  body := fun value => value.data
  bodyLen := decode
  read := fun _ body => ByteVec.ofList body
  deletion := ByteVec.ofList []
  length_header := fun value => encode_length 8 value.len
  bodyLen_header := fun value =>
    decode_encode 8 _ (lt_trans value.length_lt (by norm_num))
  read_header_body := fun value => ByteVec.ofList_data value

/-- The batch of a value, and its place in the batch. -/
structure ValueRef where
  batch : UInt64
  offset : UInt32
deriving DecidableEq

/-- With the `wisckey` feature there is only a reference. -/
def ValueFormat.wisckey : ValueFormat where
  V := ValueRef
  headerLen := 12
  header := fun ref => encode 8 ref.batch.toNat ++ encode 4 ref.offset.toNat
  body := fun _ => []
  bodyLen := fun _ => 0
  read := fun header _ =>
    ⟨UInt64.ofNat (decode (header.take 8)), UInt32.ofNat (decode (header.drop 8))⟩
  deletion := ⟨0, 0⟩
  length_header := fun ref => by simp
  bodyLen_header := fun _ => rfl
  read_header_body := fun ref => by
    have hbatch : decode (encode 8 ref.batch.toNat) = ref.batch.toNat :=
      decode_encode 8 _ (lt_of_lt_of_eq ref.batch.toNat_lt (by norm_num))
    have hoffset : decode (encode 4 ref.offset.toNat) = ref.offset.toNat :=
      decode_encode 4 _ (lt_of_lt_of_eq ref.offset.toNat_lt (by norm_num))
    have hlen : (encode 8 ref.batch.toNat).length = 8 := encode_length 8 _
    rw [List.take_append_of_le_length (by omega), List.take_of_length_le (by omega),
      List.drop_append_of_le_length (by omega), List.drop_of_length_le (by omega),
      List.nil_append, hbatch, hoffset, UInt64.ofNat_toNat, UInt32.ofNat_toNat]

/-- The features, and the parameters that decide how entries are grouped. -/
structure Format where
  bloom : BloomFormat
  compression : Compression
  values : ValueFormat
  blockRestartInterval : Nat
  maxKeyBlockSize : Nat
  interval_pos : 0 < blockRestartInterval

/-- What a table has for a key. -/
inductive BlockEntry (V : Type) where
  | put (seqNumber : UInt64) (value : V)
  | delete (seqNumber : UInt64)

namespace BlockEntry

variable {V : Type}

def seqNumber : BlockEntry V → UInt64
  | put seqNumber _ => seqNumber
  | delete seqNumber => seqNumber

def entryType : BlockEntry V → UInt8
  | put _ _ => WriteOp.putOp
  | delete _ => WriteOp.deleteOp

end BlockEntry

/-- Keys, with what a table has for them. -/
abbrev Format.Entries (F : Format) : Type :=
  List (Key × BlockEntry F.values.V)

/-- `EntryHeader`; the fields for the value are kept as bytes. -/
@[ext]
structure EntryHeader where
  prefixLen : Nat
  suffixLen : Nat
  entryType : UInt8
  seqNumber : UInt64
  value : List UInt8

namespace EntryHeader

/-- The length of a header. -/
def size (F : Format) : Nat :=
  17 + F.values.headerLen

def asBytes (h : EntryHeader) : List UInt8 :=
  encode 4 h.prefixLen ++ (encode 4 h.suffixLen ++
    (h.entryType :: (encode 8 h.seqNumber.toNat ++ h.value)))

def refFromBytes (bytes : List UInt8) : EntryHeader where
  prefixLen := decode (bytes.take 4)
  suffixLen := decode ((bytes.drop 4).take 4)
  entryType := (bytes.drop 8).headD 0
  seqNumber := UInt64.ofNat (decode ((bytes.drop 9).take 8))
  value := bytes.drop 17

theorem length_asBytes
    (h : EntryHeader) :
    h.asBytes.length = 17 + h.value.length := by
  simp only [asBytes, List.length_append, List.length_cons, encode_length]
  omega

theorem refFromBytes_asBytes
    {h : EntryHeader}
    (hshared : h.prefixLen < 2 ^ 32)
    (hsuffix : h.suffixLen < 2 ^ 32) :
    refFromBytes h.asBytes = h := by
  obtain ⟨htake₁, hdrop₁⟩ := take_drop_encode 4 h.prefixLen
    (encode 4 h.suffixLen ++ (h.entryType :: (encode 8 h.seqNumber.toNat ++ h.value)))
  obtain ⟨htake₂, hdrop₂⟩ := take_drop_encode 4 h.suffixLen
    (h.entryType :: (encode 8 h.seqNumber.toNat ++ h.value))
  obtain ⟨htake₃, hdrop₃⟩ := take_drop_encode 8 h.seqNumber.toNat h.value
  have hdrop8 : h.asBytes.drop 8 = h.entryType :: (encode 8 h.seqNumber.toNat ++ h.value) := by
    rw [show 8 = 4 + 4 from rfl, ← List.drop_drop, asBytes, hdrop₁, hdrop₂]
  have hdrop9 : h.asBytes.drop 9 = encode 8 h.seqNumber.toNat ++ h.value := by
    rw [show 9 = 8 + 1 from rfl, ← List.drop_drop, hdrop8]
    rfl
  have hdrop17 : h.asBytes.drop 17 = h.value := by
    rw [show 17 = 9 + 8 from rfl, ← List.drop_drop, hdrop9, hdrop₃]
  have hseq : h.seqNumber.toNat < 256 ^ 8 := lt_of_lt_of_eq h.seqNumber.toNat_lt (by norm_num)
  ext1
  · change decode (h.asBytes.take 4) = h.prefixLen
    rw [asBytes, htake₁, decode_encode 4 _ hshared]
  · change decode ((h.asBytes.drop 4).take 4) = h.suffixLen
    rw [asBytes, hdrop₁, htake₂, decode_encode 4 _ hsuffix]
  · change (h.asBytes.drop 8).headD 0 = h.entryType
    rw [hdrop8]
    rfl
  · change UInt64.ofNat (decode ((h.asBytes.drop 9).take 8)) = h.seqNumber
    rw [hdrop9, htake₃, decode_encode 8 _ hseq, UInt64.ofNat_toNat]
  · exact hdrop17

end EntryHeader

end Blocks
end LsmStore
