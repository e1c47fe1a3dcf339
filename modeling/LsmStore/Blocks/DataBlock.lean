import LsmStore.Blocks.Format
import LsmStore.Lib.BinarySearch
import LsmStore.Lib.Chunks

/-!
# Data blocks

A data block is a header, the entries, and the restart list.  The key of an entry
is stored as the length of the part it shares with the key before and the rest;
every `block_restart_interval` entries the whole key is stored, and the restart
list has the places of those entries.  A lookup searches the restart list first
and then reads one entry after the other.

The builder appends entries; what it returns is compared with what the reading
functions expect: `encodeBlock` is the block of a list of entries.
-/

namespace LsmStore
namespace Blocks

open LittleEndian

/-- `DataBlockHeader` without the bloom filter has two fields. -/
def headerLength (F : Format) : Nat :=
  8 + F.bloom.length

def dataBlockHeader (F : Format) (restartListStart numberOfEntries : Nat)
    (filter : F.bloom.Filter) : List UInt8 :=
  encode 4 restartListStart ++ (encode 4 numberOfEntries ++ F.bloom.asSlice filter)

structure DataBlock (F : Format) where
  restartListStart : Nat
  numEntries : Nat
  restartInterval : Nat
  data : List UInt8
  bloomFilter : F.bloom.Filter

/-- An entry of a block; the offset is that in the block's buffer, the next one that behind the
header. -/
structure DataEntry (F : Format) where
  block : DataBlock F
  offset : Nat
  nextOffset : Nat

inductive DataEntryType where
  | put
  | delete
deriving DecidableEq

namespace DataEntry

variable {F : Format}

def getHeader (e : DataEntry F) : Outcome EntryHeader := do
  let bytes ← sliceRange e.block.data e.offset (e.offset + EntryHeader.size F)
  .value (EntryHeader.refFromBytes bytes)

def getSequenceNumber (e : DataEntry F) : Outcome UInt64 := do
  let header ← e.getHeader
  .value header.seqNumber

def getType (e : DataEntry F) : Outcome DataEntryType := do
  let header ← e.getHeader
  if header.entryType = WriteOp.putOp then .value .put
  else if header.entryType = WriteOp.deleteOp then .value .delete
  else .panic "Unknown data entry type"

/-- `get_value`, or `get_value_id` with the `wisckey` feature. -/
def getValue (e : DataEntry F) : Outcome (Option F.values.V) := do
  let header ← e.getHeader
  let valueOffset := e.offset + EntryHeader.size F + header.suffixLen
  if header.entryType = WriteOp.putOp then
    let body ← sliceRange e.block.data valueOffset
      (valueOffset + F.values.bodyLen header.value)
    .value (some (F.values.read header.value body))
  else if header.entryType = WriteOp.deleteOp then .value none
  else .panic "Unknown write op"

/-- All that can be read of an entry. -/
def read (e : DataEntry F) : Outcome (BlockEntry F.values.V) := do
  let type ← e.getType
  let seqNumber ← e.getSequenceNumber
  let value ← e.getValue
  match type, value with
  | .put, some value => .value (.put seqNumber value)
  | .put, none => .panic "called `Option::unwrap()` on a `None` value"
  | .delete, _ => .value (.delete seqNumber)

end DataEntry

/-! ## Reading a block -/

inductive SearchResult (F : Format) where
  | exactMatch (entry : DataEntry F)
  | range (start stop : Nat)

namespace DataBlock

variable {F : Format}

/-- The interval is not stored: it is a parameter of the session. -/
def newFromData (F : Format) (data : List UInt8) (restartInterval : Nat) :
    Outcome (DataBlock F) :=
  if data = [] then .panic "No data?"
  else do
    let header ← sliceRange data 0 (headerLength F)
    match F.bloom.fromBytes (header.drop 8) with
    | none => .panic "Failed to load bloom filter"
    | some filter =>
        .value
          { restartListStart := decode (header.take 4)
            numEntries := decode ((header.drop 4).take 4)
            restartInterval := restartInterval
            data := data
            bloomFilter := filter }

/-- The key and the entry at an offset, which is counted from the end of the header. -/
def getEntryAtOffset (b : DataBlock F) (offset : Nat) (previousKey : Key) :
    Outcome (Key × DataEntry F) :=
  let start := offset + headerLength F
  if b.restartListStart < start + EntryHeader.size F then .panic s!"Invalid offset {start}"
  else do
    let bytes ← sliceRange b.data start (start + EntryHeader.size F)
    let header := EntryHeader.refFromBytes bytes
    let keyStart := start + EntryHeader.size F
    let shared ← sliceRange previousKey.data 0 header.prefixLen
    let suffix ← sliceRange b.data keyStart (keyStart + header.suffixLen)
    let stop := keyStart + header.suffixLen + F.values.bodyLen header.value
    let nextOffset ← checkedSub stop (headerLength F)
    .value (ByteVec.ofList (shared ++ suffix), ⟨b, start, u32 nextOffset⟩)

/-- Length of the entries in bytes. -/
def byteLen (b : DataBlock F) : Outcome Nat := do
  let rlLen ← checkedSub b.data.length b.restartListStart
  let len ← checkedSub b.data.length (headerLength F)
  let len ← checkedSub len rlLen
  .value (u32 len)

def restartListLen (b : DataBlock F) : Outcome Nat := do
  let rlLen ← checkedSub b.data.length b.restartListStart
  if rlLen % 4 ≠ 0 then .panic "assertion failed: rl_len % offset_len == 0"
  else .value (rlLen / 4)

def getRestartOffset (b : DataBlock F) (pos : Nat) : Outcome Nat := do
  let start := b.restartListStart + pos * 4
  let bytes ← sliceRange b.data start (start + 4)
  checkedSub (decode bytes) (headerLength F)

/-- `while current_idx < index`. -/
def nextEntries (b : DataBlock F) : Nat → Key × DataEntry F → Outcome (Key × DataEntry F)
  | 0, found => .value found
  | count + 1, found => do
      let found ← b.getEntryAtOffset found.2.nextOffset found.1
      nextEntries b count found

/-- The entry at an index: from the closest restart on, one after the other. -/
def getEntryAtIndex (b : DataBlock F) (index : Nat) : Outcome (Key × DataEntry F) := do
  let restartPos := index / b.restartInterval
  let restartOffset ← b.getRestartOffset restartPos
  let found ← b.getEntryAtOffset restartOffset (ByteVec.ofList [])
  b.nextEntries (index - restartPos * b.restartInterval) found

/-- `while end - start > 1`. -/
def searchLoop (b : DataBlock F) (key : Key) : Nat → Nat → Nat → Outcome (SearchResult F)
  | 0, _, _ => .unfinished
  | fuel + 1, start, stop =>
      if stop - start ≤ 1 then .value (.range start stop)
      else do
        let mid := start + (stop - start) / 2
        let offset ← b.getRestartOffset mid
        let found ← b.getEntryAtOffset offset (ByteVec.ofList [])
        match keyCmp found.1 key with
        | .eq => .value (.exactMatch found.2)
        | .lt => searchLoop b key fuel mid stop
        | .gt => searchLoop b key fuel start mid

/-- There is no restart at the very end, so that the last interval ends with the block. -/
def binarySearch (b : DataBlock F) (key : Key) : Outcome (SearchResult F) := do
  let rlLen ← b.restartListLen
  let stop ← checkedSub rlLen 1
  let result ← b.searchLoop key rlLen 0 stop
  match result with
  | .exactMatch entry => .value (.exactMatch entry)
  | .range start stop => do
      let stop ← if stop + 1 = rlLen then b.byteLen else b.getRestartOffset stop
      .value (.range start stop)

/-- `while pos < end`. -/
def scanLoop (b : DataBlock F) (key : Key) (stop : Nat) :
    Nat → Nat → Key → Outcome (Option (DataEntry F))
  | 0, _, _ => .unfinished
  | fuel + 1, pos, lastKey =>
      if pos < stop then do
        let found ← b.getEntryAtOffset pos lastKey
        if key = found.1 then .value (some found.2)
        else scanLoop b key stop fuel found.2.nextOffset found.1
      else .value none

/-- Every entry takes up at least one byte. -/
def getByKey (b : DataBlock F) (key : Key) : Outcome (Option (DataEntry F)) :=
  if F.bloom.check b.bloomFilter key.data then do
    let result ← b.binarySearch key
    match result with
    | .exactMatch entry => .value (some entry)
    | .range start stop => do
        let pos ← b.getRestartOffset start
        b.scanLoop key stop (b.data.length + 1) pos (ByteVec.ofList [])
  else .value none

end DataBlock

/-! ## Building a block -/

/-- The restart list has the places of the entries with a whole key. -/
structure DataBlockBuilder (F : Format) where
  data : List UInt8
  position : Nat
  restartList : List Nat
  bloomFilter : F.bloom.Filter

namespace DataBlockBuilder

variable {F : Format}

/-- Space for the header is reserved. -/
def new (F : Format) : DataBlockBuilder F where
  data := List.replicate (headerLength F) 0
  position := 0
  restartList := []
  bloomFilter := F.bloom.new

/-- The arguments are those of `PrefixedKey`, the whole key and the entry. -/
def addEntry (b : DataBlockBuilder F) (prefixLen : Nat) (suffix : List UInt8) (fullKey : Key)
    (seqNumber : UInt64) (entryType : UInt8) (value : F.values.V) :
    Outcome (DataBlockBuilder F) :=
  let restart := b.position % F.blockRestartInterval = 0
  if restart ∧ u32 prefixLen ≠ 0 then .panic "assertion failed: key.prefix_len == 0"
  else
    let header : EntryHeader := ⟨prefixLen, suffix.length, entryType, seqNumber,
      F.values.header value⟩
    .value
      { data := b.data ++ (header.asBytes ++ (suffix ++ F.values.body value))
        position := b.position + 1
        restartList := if restart then b.restartList ++ [u32 b.data.length] else b.restartList
        bloomFilter := F.bloom.set b.bloomFilter fullKey.data }

/-- The block, if there are any entries. -/
def finish (b : DataBlockBuilder F) : Option (DataBlock F) :=
  if b.position = 0 then none
  else
    some
      { restartListStart := u32 b.data.length
        numEntries := b.position
        restartInterval := F.blockRestartInterval
        data := dataBlockHeader F b.data.length b.position b.bloomFilter ++
          (b.data.drop (headerLength F) ++ b.restartList.flatMap (encode 4))
        bloomFilter := b.bloomFilter }

def currentSize (b : DataBlockBuilder F) : Nat :=
  b.data.length

end DataBlockBuilder

end Blocks
end LsmStore
