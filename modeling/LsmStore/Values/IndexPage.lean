import LsmStore.Basic
import LsmStore.Lib.BitPacking
import LsmStore.Lib.LittleEndian

/-!
# Pages of the value index

With the `wisckey` feature, tables refer to values in value batches.  The value
index tracks which values are still in use: one bit for each value, in pages of
up to four kilobytes.  A page covers some consecutive batches and knows where
the bits of each begin.

Counters and identifiers are natural numbers.  A page file is therefore its
header followed by bytes; the offsets, the states and the bits are those of the
source.  The number of bits is not stored, so that a page read back has its
last byte filled up with zeros.
-/

namespace LsmStore
namespace Values

open BitPacking

/-- The batch of a value, and where the value is in the batch. -/
abbrev ValueId := Nat × Nat

def minValueBatchId : Nat :=
  1

def minValueIndexPageId : Nat :=
  1

/-- `MAX_SIZE` of a page. -/
def maxPageSize : Nat :=
  4 * 1024

/-- A number cut to 16 bits. -/
def u16 (n : Nat) : Nat :=
  n % 65536

theorem u16_eq
    {n : Nat}
    (h : n < 65536) :
    u16 n = n :=
  Nat.mod_eq_of_lt h

structure IndexPageHeader where
  identifier : Nat
  startBatch : Nat
  numBatches : Nat
  numEntries : Nat
deriving DecidableEq

inductive ValueBatchState where
  | active
  | compacted
  | deleted
deriving DecidableEq

namespace ValueBatchState

def toByte : ValueBatchState → UInt8
  | active => 0
  | compacted => 1
  | deleted => 2

def ofByte (byte : UInt8) : Option ValueBatchState :=
  [active, compacted, deleted].find? fun option => byte == option.toByte

theorem ofByte_toByte
    (state : ValueBatchState) :
    ofByte state.toByte = some state := by
  cases state <;> rfl

theorem toByte_injective :
    Function.Injective toByte := by
  intro state state' h
  have hoption := congrArg ofByte h
  rw [ofByte_toByte, ofByte_toByte] at hoption
  exact Option.some.inj hoption

end ValueBatchState

/-- A page in memory: `offsets` says where the bits of each batch begin. -/
structure IndexPage where
  header : IndexPageHeader
  dirty : Bool
  offsets : List Nat
  batches : List ValueBatchState
  entries : List Bool
  isSealed : Bool
  length_offsets : offsets.length = header.numBatches
  length_batches : batches.length = header.numBatches

/-- The file of a page. -/
structure PageFile where
  header : IndexPageHeader
  body : List UInt8
deriving DecidableEq

namespace IndexPage

def new (identifier startBatch : Nat) : IndexPage where
  header := ⟨identifier, startBatch, 0, 0⟩
  dirty := true
  offsets := []
  batches := []
  entries := []
  isSealed := false
  length_offsets := rfl
  length_batches := rfl

def getIdentifier (p : IndexPage) : Nat :=
  p.header.identifier

/-- A page with room for a batch, after the batch was added. -/
def grown (p : IndexPage) (numEntries : Nat) : IndexPage :=
  { p with
    header := { p.header with numBatches := p.header.numBatches + 1 }
    offsets := p.offsets ++ [u16 p.entries.length]
    batches := p.batches ++ [.active]
    entries := p.entries ++ List.replicate numEntries true
    dirty := true
    length_offsets := by simp [p.length_offsets]
    length_batches := by simp [p.length_batches] }

/-- Add a batch; a page without enough space is sealed. -/
def expand (p : IndexPage) (numEntries : Nat) : Outcome (Bool × IndexPage) :=
  if p.isSealed then .panic "assertion failed: !self.sealed"
  else if maxPageSize ≤ numEntries then .panic "assertion failed: num_entries < MAX_SIZE"
  else
    let currentEntries := p.entries.length
    if (p.offsets.length + 1) * 2 + (currentEntries + numEntries) ≤ maxPageSize then
      .value (true, p.grown numEntries)
    else .value (false, { p with isSealed := true })

/-- What `sync` writes. -/
def encode [BitPacking] (p : IndexPage) : PageFile where
  header := p.header
  body := p.offsets.flatMap (LittleEndian.encode 2) ++
    (p.batches.flatMap (fun state => [state.toByte]) ++ pack p.entries)

/-- A page that has been written. -/
def written (p : IndexPage) : IndexPage :=
  { p with dirty := false }

/-- Read some items, one after the other. -/
def readMany {α : Type} (read : List UInt8 → Outcome (α × List UInt8)) :
    (n : Nat) → List UInt8 → Outcome ({ l : List α // l.length = n } × List UInt8)
  | 0, data => .value (⟨[], rfl⟩, data)
  | n + 1, data => do
      let first ← read data
      let rest ← readMany read n first.2
      .value (⟨first.1 :: rest.1.1, by simp [rest.1.2]⟩, rest.2)

def readOffset (data : List UInt8) : Outcome (Nat × List UInt8) :=
  if data.length < 2 then .panic "called `Result::unwrap()` on an `Err` value: SizeError"
  else .value (LittleEndian.decode (data.take 2), data.drop 2)

def readState : List UInt8 → Outcome (ValueBatchState × List UInt8)
  | [] => .panic "range end index out of range for slice"
  | byte :: data =>
      match ValueBatchState.ofByte byte with
      | some state => .value (state, data)
      | none => .panic "Invalid state: ()"

/-- A page from its file. -/
def ofFile [BitPacking] (file : PageFile) (isSealed : Bool) : Outcome IndexPage := do
  let offsets ← readMany readOffset file.header.numBatches file.body
  let batches ← readMany readState file.header.numBatches offsets.2
  .value {
    header := file.header
    dirty := false
    offsets := offsets.1.1
    batches := batches.1.1
    entries := unpack batches.2
    isSealed := isSealed
    length_offsets := offsets.1.2
    length_batches := batches.1.2 }

/-- Are any of the values of this page still in use? -/
def isInUse (p : IndexPage) : Bool :=
  p.entries.any id

/-- Where the bits of a batch begin and end. -/
def getBatchRange (p : IndexPage) (batchId : Nat) : Outcome (Nat × Nat) :=
  if batchId < p.header.startBatch then .panic "Incompatible batch id"
  else
    let startIdx := batchId - p.header.startBatch
    let len := p.offsets.length
    match p.offsets[startIdx]? with
    | none => .panic s!"index out of bounds: the len is {len} but the index is {startIdx}"
    | some startPos => .value (startPos, p.offsets[startIdx + 1]?.getD p.entries.length)

/-- Some bits of the page; the range has to be inside it. -/
def slice (p : IndexPage) (startPos endPos : Nat) : Outcome (List Bool) :=
  if startPos ≤ endPos ∧ endPos ≤ p.entries.length then
    .value ((p.entries.drop startPos).take (endPos - startPos))
  else .panic "range out of bounds"

/-- The loop over the bits of a batch. -/
def countActiveEntries (p : IndexPage) (batchId : Nat) : Outcome Nat := do
  let range ← p.getBatchRange batchId
  let len := p.entries.length
  let pos := max range.1 len
  if pos < range.2 then .panic s!"index out of bounds: the len is {len} but the index is {pos}"
  else .value (((p.entries.drop range.1).take (range.2 - range.1)).count true)

/-- The places, in the page, of the values of a batch that are still in use. -/
def getActiveEntries (p : IndexPage) (batchId : Nat) : Outcome (List Nat) := do
  let range ← p.getBatchRange batchId
  let bits ← p.slice range.1 range.2
  .value (bits.zipIdx.filterMap fun entry =>
    if entry.1 then some (entry.2 + range.1) else none)

/-- Mark a value as deleted; returns its place in the page. -/
def markValueAsDeleted (p : IndexPage) (vid : ValueId) : Outcome (Nat × IndexPage) := do
  let range ← p.getBatchRange vid.1
  let bits ← p.slice range.1 range.2
  match bits[vid.2]? with
  | none => .panic "Entry index out of range"
  | some false => .panic "Entry already marked as deleted"
  | some true =>
      .value (u16 range.1 + u16 vid.2,
        { p with entries := p.entries.set (range.1 + vid.2) false, dirty := true })

def markValueAsDeletedAt (p : IndexPage) (offset : Nat) : Outcome IndexPage :=
  match p.entries[offset]? with
  | none => .panic "Offset out of range"
  | some true => .value { p with entries := p.entries.set offset false, dirty := true }
  | some false => .value p

/-- Change the state of a batch. -/
def setState (p : IndexPage) (index : Nat) (state : ValueBatchState) : IndexPage :=
  { p with
    batches := p.batches.set index state
    length_batches := by simp [p.length_batches] }

def markBatchAsDeletedAt (p : IndexPage) (index : Nat) : Outcome IndexPage :=
  match p.batches[index]? with
  | none => .panic "Out of range?"
  | some .deleted => .panic "Batch already deleted?"
  | some _ => .value (p.setState index .deleted)

def markBatchAsDeleted (p : IndexPage) (batchId : Nat) : Outcome (Nat × IndexPage) := do
  let idx := u16 (batchId - p.header.startBatch)
  let page ← p.markBatchAsDeletedAt idx
  .value (idx, page)

/-- The state of a batch that is compacted becomes `deleted`. -/
def markBatchAsCompacted (p : IndexPage) (batchId : Nat) : Outcome (Nat × IndexPage) :=
  let idx := batchId - p.header.startBatch
  match p.batches[idx]? with
  | none => .panic "Out of range?"
  | some .compacted => .panic "Batch already compacted?"
  | some .deleted => .panic "Batch already deleted?"
  | some .active => .value (u16 idx, p.setState idx .deleted)

end IndexPage

/-! ## Reading a page back -/

namespace IndexPage

section ReadBack

variable {α : Type}

theorem readMany_encoded
    {read : List UInt8 → Outcome (α × List UInt8)} {write : α → List UInt8} {items : List α}
    {n : Nat}
    (hn : items.length = n)
    (h : ∀ item ∈ items, ∀ rest, read (write item ++ rest) = .value (item, rest))
    (rest : List UInt8) :
    readMany read n (items.flatMap write ++ rest) = .value (⟨items, hn⟩, rest) := by
  induction items generalizing n with
  | nil =>
      subst hn
      rfl
  | cons item items ih =>
      subst hn
      have hfirst := h item List.mem_cons_self (items.flatMap write ++ rest)
      have hrest := ih rfl (fun item' hitem' => h item' (List.mem_cons_of_mem _ hitem'))
      change (read _ >>= fun first => readMany read items.length first.2 >>= _) = _
      rw [List.flatMap_cons, List.append_assoc, hfirst, Outcome.value_bind, hrest]
      rfl

theorem readOffset_encode
    {offset : Nat}
    (h : offset < 65536)
    (rest : List UInt8) :
    readOffset (LittleEndian.encode 2 offset ++ rest) = .value (offset, rest) := by
  have hlen : (LittleEndian.encode 2 offset).length = 2 := LittleEndian.encode_length 2 offset
  rw [readOffset, if_neg (by rw [List.length_append]; omega),
    List.take_append_of_le_length (by omega), List.take_of_length_le (by omega),
    List.drop_append_of_le_length (by omega), List.drop_of_length_le (by omega),
    List.nil_append, LittleEndian.decode_encode 2 offset h]

theorem readState_toByte
    (state : ValueBatchState) (rest : List UInt8) :
    readState ([state.toByte] ++ rest) = .value (state, rest) := by
  rw [List.singleton_append, readState, state.ofByte_toByte]

/-- **A page that is read back** has all of the page that was written, with its bits filled up
to whole bytes. -/
theorem ofFile_encode
    [BitPacking]
    (p : IndexPage)
    (hoffsets : ∀ offset ∈ p.offsets, offset < 65536)
    (isSealed : Bool) :
    ofFile p.encode isSealed = .value { p with
      dirty := false
      entries := p.entries ++ List.replicate (padding p.entries.length) false
      isSealed := isSealed } := by
  have hread := readMany_encoded p.length_offsets
    (fun offset h => readOffset_encode (hoffsets offset h))
    (p.batches.flatMap (fun state => [state.toByte]) ++ pack p.entries)
  have hread' := readMany_encoded p.length_batches
    (fun state _ => readState_toByte state) (pack p.entries)
  change (readMany readOffset p.header.numBatches (p.offsets.flatMap (LittleEndian.encode 2) ++
    _) >>= fun offsets => _) = _
  rw [hread, Outcome.value_bind]
  change (readMany readState p.header.numBatches (p.batches.flatMap (fun state =>
    [state.toByte]) ++ pack p.entries) >>= fun batches => _) = _
  rw [hread', Outcome.value_bind, unpack_pack]
  rfl

end ReadBack
end IndexPage
end Values
end LsmStore
