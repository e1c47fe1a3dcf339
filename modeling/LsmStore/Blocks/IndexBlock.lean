import LsmStore.Bytes
import LsmStore.Lib.BinarySearch
import LsmStore.Lib.Chunks

/-!
# Index blocks

A table has one index block: a header, its smallest and its largest key, the
places of the index entries, and the index entries, each with the first key of a
data block and the identifier of the block.  The places are written into space
that was reserved for them.

`encodeIndex` is the index block as a whole.
-/

namespace LsmStore
namespace Blocks

open LittleEndian Chunks

structure IndexBlockHeader where
  size : UInt64
  minKeyLen : Nat
  maxKeyLen : Nat
  numDataBlocks : Nat

namespace IndexBlockHeader

def length : Nat :=
  24

def asBytes (h : IndexBlockHeader) : List UInt8 :=
  encode 8 h.size.toNat ++ (encode 4 h.minKeyLen ++ (encode 4 h.maxKeyLen ++
    (encode 4 h.numDataBlocks ++ encode 4 0)))

def refFromBytes (bytes : List UInt8) : IndexBlockHeader where
  size := UInt64.ofNat (decode (bytes.take 8))
  minKeyLen := decode ((bytes.drop 8).take 4)
  maxKeyLen := decode ((bytes.drop 12).take 4)
  numDataBlocks := decode ((bytes.drop 16).take 4)

end IndexBlockHeader

structure IndexBlock where
  data : List UInt8

/-- The length of an `IndexEntryHeader`. -/
def indexEntryHeaderLen : Nat :=
  16

/-- `IndexEntryHeader` and the key. -/
def indexEntryBytes (entry : Key × UInt64) : List UInt8 :=
  encode 8 entry.2.toNat ++ (encode 4 entry.1.len ++ (encode 4 0 ++ entry.1.data))

namespace IndexBlock

/-! ## Building an index block -/

/-- `for (pos, (key, block_id)) in index.into_iter().enumerate()`. -/
def addEntries (offsetStart : Nat) :
    Nat → List (Key × UInt64) → List UInt8 → Outcome (List UInt8)
  | _, [], data => .value data
  | pos, entry :: rest, data => do
      let entryOffset := u32 data.length
      let data ← copyFromSlice data (offsetStart + pos * 4) (offsetStart + (pos + 1) * 4)
        (encode 4 entryOffset)
      addEntries offsetStart (pos + 1) rest (data ++ indexEntryBytes entry)

/-- The block as `new` builds it. -/
def build (index : List (Key × UInt64)) (size : UInt64) (minKey maxKey : Key) :
    Outcome IndexBlock := do
  let header : IndexBlockHeader := ⟨size, minKey.len, maxKey.len, index.length⟩
  let data := addPadding (header.asBytes ++ (minKey.data ++ maxKey.data))
  let offsetLen := padOffset index.length
  let data ← addEntries data.length 0 index (data ++ List.replicate (offsetLen * 4) 0)
  .value ⟨data⟩

/-! ## Reading an index block -/

def getHeader (b : IndexBlock) : Outcome IndexBlockHeader :=
  if b.data.length < IndexBlockHeader.length then
    .panic "called `Result::unwrap()` on an `Err` value"
  else .value (IndexBlockHeader.refFromBytes b.data)

def getEntryOffset (b : IndexBlock) (pos : Nat) : Outcome Nat := do
  let header ← b.getHeader
  if ¬ u32 pos < header.numDataBlocks then
    .panic "assertion failed: (pos as u32) < header.num_data_blocks"
  else
    let offset := IndexBlockHeader.length + header.minKeyLen + header.maxKeyLen
    let offsetOffset := padOffset offset + pos * 4
    let bytes ← sliceFrom b.data offsetOffset
    if bytes.length < 4 then .panic "called `Result::unwrap()` on an `Err` value"
    else .value (decode (bytes.take 4))

def getBlockId (b : IndexBlock) (pos : Nat) : Outcome UInt64 := do
  let offset ← b.getEntryOffset pos
  let bytes ← sliceRange b.data offset (offset + indexEntryHeaderLen)
  .value (UInt64.ofNat (decode (bytes.take 8)))

def getBlockKey (b : IndexBlock) (pos : Nat) : Outcome Key := do
  let offset ← b.getEntryOffset pos
  let bytes ← sliceFrom b.data offset
  if bytes.length < indexEntryHeaderLen then
    .panic "called `Result::unwrap()` on an `Err` value"
  else
    let keyLen := decode ((bytes.drop 8).take 4)
    let keyStart := offset + indexEntryHeaderLen
    let key ← sliceRange b.data keyStart (keyStart + keyLen)
    .value (ByteVec.ofList key)

def numDataBlocks (b : IndexBlock) : Outcome Nat := do
  let header ← b.getHeader
  .value header.numDataBlocks

def getSize (b : IndexBlock) : Outcome Nat := do
  let header ← b.getHeader
  .value header.size.toNat

def getMin (b : IndexBlock) : Outcome Key := do
  let header ← b.getHeader
  let keyOffset := IndexBlockHeader.length
  let key ← sliceRange b.data keyOffset (keyOffset + header.minKeyLen)
  .value (ByteVec.ofList key)

def getMax (b : IndexBlock) : Outcome Key := do
  let header ← b.getHeader
  let keyOffset := IndexBlockHeader.length + header.minKeyLen
  let key ← sliceRange b.data keyOffset (keyOffset + header.maxKeyLen)
  .value (ByteVec.ofList key)

/-- `while end - start > 1`. -/
def searchLoop (b : IndexBlock) (key : Key) : Nat → Nat → Nat → Outcome BinarySearch.Found
  | 0, _, _ => .unfinished
  | fuel + 1, start, stop =>
      if stop - start ≤ 1 then .value (.window start stop)
      else do
        let mid := start + (stop - start) / 2
        let midKey ← b.getBlockKey mid
        match keyCmp midKey key with
        | .eq => .value (.exact mid)
        | .lt => searchLoop b key fuel mid stop
        | .gt => searchLoop b key fuel start mid

/-- The block that might hold the key. -/
def searchBlock (b : IndexBlock) (key : Key) : Outcome UInt64 := do
  let header ← b.getHeader
  let stop ← checkedSub header.numDataBlocks 1
  let found ← b.searchLoop key header.numDataBlocks 0 stop
  match found with
  | .exact mid => b.getBlockId mid
  | .window start stop => do
      let startKey ← b.getBlockKey start
      if key < startKey then .panic "assertion failed: key >= self.get_block_key(start)"
      else
        let stopKey ← b.getBlockKey stop
        if stopKey ≤ key then b.getBlockId stop else b.getBlockId start

def binarySearch (b : IndexBlock) (key : Key) : Outcome (Option UInt64) := do
  let minKey ← b.getMin
  if key < minKey then .value none
  else
    let maxKey ← b.getMax
    if maxKey < key then .value none
    else
      let id ← b.searchBlock key
      .value (some id)

end IndexBlock

/-! ## What an index block looks like -/

section Encode

variable (index : List (Key × UInt64)) (size : UInt64) (minKey maxKey : Key)

/-- The part in front of the places. -/
def indexFront : List UInt8 :=
  addPadding ((IndexBlockHeader.mk size minKey.len maxKey.len index.length).asBytes ++
    (minKey.data ++ maxKey.data))

def indexChunks (index : List (Key × UInt64)) : List (List UInt8) :=
  index.map indexEntryBytes

/-- The places of the first entries, if the first of all is at `start`. -/
def placeChunks (start : Nat) (index : List (Key × UInt64)) : List (List UInt8) :=
  (List.range index.length).map fun i => encode 4 (u32 (start + offset (indexChunks index) i))

/-- The places and the entries, with space for `slots` places. -/
def indexBuffer (front : List UInt8) (slots : Nat) (index : List (Key × UInt64)) : List UInt8 :=
  front ++ ((placeChunks (front.length + slots * 4) index).flatten ++
    (List.replicate ((slots - index.length) * 4) 0 ++ (indexChunks index).flatten))

def encodeIndex : IndexBlock where
  data := indexBuffer (indexFront index size minKey maxKey) (padOffset index.length) index

end Encode

section Build

variable {index : List (Key × UInt64)} {size : UInt64} {minKey maxKey : Key}

theorem length_asBytes
    (h : IndexBlockHeader) :
    h.asBytes.length = IndexBlockHeader.length := by
  simp only [IndexBlockHeader.asBytes, List.length_append, encode_length]
  rfl

theorem length_indexFront
    (index : List (Key × UInt64)) (size : UInt64) (minKey maxKey : Key) :
    (indexFront index size minKey maxKey).length =
      padOffset (IndexBlockHeader.length + minKey.len + maxKey.len) := by
  rw [indexFront, length_addPadding, List.length_append, length_asBytes, List.length_append,
    ← Nat.add_assoc]
  rfl

theorem length_placeChunks
    (start : Nat) (index : List (Key × UInt64)) :
    (placeChunks start index).length = index.length := by
  rw [placeChunks, List.length_map, List.length_range]

theorem offset_placeChunks
    {start k : Nat}
    (hk : k ≤ index.length) :
    offset (placeChunks start index) k = k * 4 := by
  refine offset_of_width ?_ ?_
  · intro chunk hchunk
    obtain ⟨i, -, rfl⟩ := List.mem_map.mp hchunk
    exact encode_length 4 _
  · rw [length_placeChunks]
    exact hk

theorem length_places
    (start : Nat) (index : List (Key × UInt64)) :
    (placeChunks start index).flatten.length = index.length * 4 := by
  rw [← offset_length, length_placeChunks, offset_placeChunks (le_refl _)]

theorem length_indexBuffer
    {front : List UInt8} {slots : Nat}
    (h : index.length ≤ slots) :
    (indexBuffer front slots index).length =
      front.length + slots * 4 + (indexChunks index).flatten.length := by
  rw [indexBuffer, List.length_append, List.length_append, List.length_append, length_places,
    List.length_replicate]
  omega

/-- The place of one more entry is that of the end. -/
theorem placeChunks_concat
    (start : Nat) (index : List (Key × UInt64)) (entry : Key × UInt64) :
    placeChunks start (index ++ [entry]) =
      placeChunks start index ++
        [encode 4 (u32 (start + (indexChunks index).flatten.length))] := by
  have hchunks : indexChunks (index ++ [entry]) = indexChunks index ++ [indexEntryBytes entry] :=
    List.map_append
  have hlength : (indexChunks index).length = index.length := List.length_map _
  have hsame : ∀ i ∈ List.range index.length,
      encode 4 (u32 (start + offset (indexChunks (index ++ [entry])) i)) =
        encode 4 (u32 (start + offset (indexChunks index) i)) := by
    intro i hi
    rw [hchunks, offset_append (by rw [hlength]; exact le_of_lt (List.mem_range.mp hi))]
  have hlast : offset (indexChunks (index ++ [entry])) index.length =
      (indexChunks index).flatten.length := by
    rw [hchunks, offset_append (le_of_eq hlength.symm), ← hlength, offset_length]
  rw [placeChunks, List.length_append, List.length_singleton, List.range_succ, List.map_append,
    List.map_congr_left hsame, List.map_singleton, hlast]
  rfl

/-- The loop writes one place after the other. -/
theorem addEntries_indexBuffer
    {front : List UInt8} {slots : Nat} {done rest : List (Key × UInt64)}
    (hslots : (done ++ rest).length ≤ slots) :
    IndexBlock.addEntries front.length done.length rest (indexBuffer front slots done) =
      .value (indexBuffer front slots (done ++ rest)) := by
  induction rest generalizing done with
  | nil =>
      rw [List.append_nil]
      rfl
  | cons entry rest ih =>
      rw [List.length_append, List.length_cons] at hslots
      have hzeros : List.replicate ((slots - done.length) * 4) (0 : UInt8) =
          List.replicate 4 0 ++ List.replicate ((slots - (done ++ [entry]).length) * 4) 0 := by
        rw [List.replicate_append_replicate, List.length_append, List.length_singleton]
        congr 1
        omega
      have hcopy : ∀ place : List UInt8, place.length = 4 →
          copyFromSlice (indexBuffer front slots done) (front.length + done.length * 4)
            (front.length + (done.length + 1) * 4) place =
          .value (front ++ (placeChunks (front.length + slots * 4) done).flatten ++
            (place ++ (List.replicate ((slots - (done ++ [entry]).length) * 4) 0 ++
              (indexChunks done).flatten))) := by
        intro place hplace
        have hparts : indexBuffer front slots done =
            front ++ (placeChunks (front.length + slots * 4) done).flatten ++
              (List.replicate 4 0 ++ (List.replicate ((slots - (done ++ [entry]).length) * 4) 0 ++
                (indexChunks done).flatten)) := by
          rw [indexBuffer, hzeros]
          simp only [List.append_assoc]
        rw [hparts]
        refine copyFromSlice_append ?_ ?_ ?_
        · rw [List.length_append, length_places]
        · rw [List.length_replicate]
          omega
        · rw [hplace, List.length_replicate]
      have hnext : front ++ (placeChunks (front.length + slots * 4) done).flatten ++
          (encode 4 (u32 (indexBuffer front slots done).length) ++
            (List.replicate ((slots - (done ++ [entry]).length) * 4) 0 ++
              (indexChunks done).flatten)) ++ indexEntryBytes entry =
          indexBuffer front slots (done ++ [entry]) := by
        rw [length_indexBuffer (by omega), indexBuffer, placeChunks_concat, List.flatten_append,
          List.flatten_singleton, indexChunks, indexChunks, List.map_append, List.map_singleton,
          List.flatten_append, List.flatten_singleton]
        simp only [List.append_assoc]
      have hrest : (done ++ [entry] ++ rest).length ≤ slots := by
        simp only [List.length_append, List.length_singleton]
        omega
      rw [IndexBlock.addEntries, hcopy _ (encode_length 4 _), Outcome.value_bind, hnext,
        ← List.length_singleton (a := entry), ← List.length_append, ih hrest, List.append_assoc,
        List.singleton_append]

/-- **The index block** is the one described. -/
theorem build_eq
    (index : List (Key × UInt64)) (size : UInt64) (minKey maxKey : Key) :
    IndexBlock.build index size minKey maxKey =
      .value (encodeIndex index size minKey maxKey) := by
  have hslots : ([] ++ index).length ≤ padOffset index.length := Nat.le_add_right _ _
  have hloop : IndexBlock.addEntries (indexFront index size minKey maxKey).length 0 index
      (indexBuffer (indexFront index size minKey maxKey) (padOffset index.length) []) = _ :=
    addEntries_indexBuffer hslots
  have hempty : indexBuffer (indexFront index size minKey maxKey) (padOffset index.length) [] =
      indexFront index size minKey maxKey ++
        List.replicate (padOffset index.length * 4) (0 : UInt8) := by
    rw [indexBuffer]
    simp [placeChunks, indexChunks]
  rw [hempty] at hloop
  rw [IndexBlock.build, ← indexFront, hloop, Outcome.value_bind]
  rfl

end Build

end Blocks
end LsmStore
