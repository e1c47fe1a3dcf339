import LsmStore.Bytes
import LsmStore.Values.IndexPage

/-!
# Value batches

A value batch is a file with the values of one flushed memtable.  Behind the
number of values come the entries: the two lengths, the key and the value.
Each entry begins at a multiple of eight bytes, and that place is the second
part of its value identifier.
-/

namespace LsmStore
namespace Values

/-- `ValueEntryHeader`. -/
def entryHeader (key : Key) (value : Value) : List UInt8 :=
  LittleEndian.encode 4 key.len ++ LittleEndian.encode 4 value.len

def entryBytes (key : Key) (value : Value) : List UInt8 :=
  entryHeader key value ++ (key.data ++ value.data)

/-- The places of the values are counted when the batch is finished; they are not stored. -/
structure ValueBatchBuilder where
  identifier : Nat
  offsets : List Nat
  valueData : List UInt8

namespace ValueBatchBuilder

def new (identifier : Nat) : ValueBatchBuilder where
  identifier := identifier
  offsets := []
  valueData := []

def addEntry (b : ValueBatchBuilder) (key : Key) (value : Value) :
    Outcome (ValueId × ValueBatchBuilder) :=
  let offset := padOffset b.valueData.length
  if 2 ^ 32 ≤ key.len then .panic "Key is too long: TryFromIntError(())"
  else if 2 ^ 32 ≤ value.len then .panic "Value is too long: TryFromIntError(())"
  else
    .value ((b.identifier, u32 offset), { b with
      offsets := b.offsets ++ [u32 offset]
      valueData := b.valueData ++ (List.replicate (computePadding b.valueData.length) 0 ++
        entryBytes key value) })

/-- Add some entries, one after the other. -/
def addEntries : ValueBatchBuilder → List (Key × Value) →
    Outcome (List ValueId × ValueBatchBuilder)
  | b, [] => .value ([], b)
  | b, entry :: entries => do
      let first ← b.addEntry entry.1 entry.2
      let rest ← first.2.addEntries entries
      .value (first.1 :: rest.1, rest.2)

/-- What `finish` writes. -/
def data (b : ValueBatchBuilder) : List UInt8 :=
  LittleEndian.encode 4 (u32 b.offsets.length) ++ b.valueData

end ValueBatchBuilder

/-- The lengths at the beginning of an entry. -/
def readHeader (data : List UInt8) : Outcome (Nat × Nat) :=
  if data.length < 8 then .panic "called `Result::unwrap()` on an `Err` value: SizeError"
  else .value (LittleEndian.decode (data.take 4), LittleEndian.decode ((data.drop 4).take 4))

/-- The file of a batch. -/
structure ValueBatch where
  data : List UInt8

namespace ValueBatch

def getValueData (b : ValueBatch) : Outcome (List UInt8) :=
  sliceFrom b.data 4

def totalNumValues (b : ValueBatch) : Outcome Nat :=
  if b.data.length < 4 then .panic "called `Result::unwrap()` on an `Err` value: SizeError"
  else .value (LittleEndian.decode (b.data.take 4))

/-- `get_ref`, and the value it refers to. -/
def getValue (b : ValueBatch) (pos : Nat) : Outcome Value := do
  let valueData ← b.getValueData
  let data ← sliceFrom valueData pos
  let header ← readHeader data
  let offset := pos + 8 + header.1
  let value ← sliceRange valueData offset (offset + header.2)
  .value (ByteVec.ofList value)

/-- One entry for `get_entries`.  The slices are taken from the data behind `pos` and end at
the lengths themselves. -/
def getEntry (valueData : List UInt8) (pos : Nat) : Outcome (Key × Value) := do
  let data ← sliceFrom valueData pos
  let header ← readHeader data
  let offset := pos + 8
  let key ← sliceRange data offset header.1
  let offset := offset + header.1
  let value ← sliceRange data offset header.2
  .value (ByteVec.ofList key, ByteVec.ofList value)

/-- The loop of `get_entries`. -/
def getEntriesFrom (valueData : List UInt8) : List Nat → Outcome (List (Key × Value))
  | [] => .value []
  | pos :: offsets => do
      let entry ← getEntry valueData pos
      let entries ← getEntriesFrom valueData offsets
      .value (entry :: entries)

def getEntries (b : ValueBatch) (offsets : List Nat) : Outcome (List (Key × Value)) := do
  let valueData ← b.getValueData
  getEntriesFrom valueData offsets

end ValueBatch

/-! ## Reading a value back -/

/-- At a place of the data there is an entry. -/
def HasEntry (valueData : List UInt8) (pos : Nat) (key : Key) (value : Value) : Prop :=
  ∃ before after, valueData = before ++ (entryBytes key value ++ after) ∧ before.length = pos

section ReadBack

variable {valueData : List UInt8} {pos : Nat} {key : Key} {value : Value}

@[simp] theorem length_entryHeader
    (key : Key) (value : Value) :
    (entryHeader key value).length = 8 := by
  simp [entryHeader]

theorem readHeader_entryBytes
    (hkey : key.len < 2 ^ 32)
    (hvalue : value.len < 2 ^ 32)
    (after : List UInt8) :
    readHeader (entryBytes key value ++ after) = .value (key.len, value.len) := by
  have hk : (LittleEndian.encode 4 key.len).length = 4 := LittleEndian.encode_length 4 _
  have hv : (LittleEndian.encode 4 value.len).length = 4 := LittleEndian.encode_length 4 _
  have hlen : ¬ (entryBytes key value ++ after).length < 8 := by
    rw [entryBytes, List.length_append, List.length_append, length_entryHeader]
    omega
  rw [readHeader, if_neg hlen, entryBytes, entryHeader]
  simp only [List.append_assoc]
  rw [List.take_append_of_le_length (by omega), List.take_of_length_le (by omega),
    List.drop_append_of_le_length (by omega), List.drop_of_length_le (by omega),
    List.nil_append, List.take_append_of_le_length (by omega),
    List.take_of_length_le (by omega), LittleEndian.decode_encode 4 _ hkey,
    LittleEndian.decode_encode 4 _ hvalue]

/-- **The value at the place of an entry.** -/
theorem getValue_of_hasEntry
    {header : List UInt8}
    (hheader : header.length = 4)
    (h : HasEntry valueData pos key value)
    (hkey : key.len < 2 ^ 32)
    (hvalue : value.len < 2 ^ 32) :
    (ValueBatch.mk (header ++ valueData)).getValue pos = .value value := by
  obtain ⟨before, after, rfl, rfl⟩ := h
  have hdata : ValueBatch.getValueData ⟨header ++ (before ++ (entryBytes key value ++ after))⟩ =
      .value (before ++ (entryBytes key value ++ after)) := by
    rw [ValueBatch.getValueData, sliceFrom, if_pos (by simp; omega)]
    simp [← hheader]
  have hbefore : sliceFrom (before ++ (entryBytes key value ++ after)) before.length =
      .value (entryBytes key value ++ after) := by
    rw [sliceFrom, if_pos (by simp)]
    simp
  have hvalue' : sliceRange (before ++ (entryBytes key value ++ after))
      (before.length + 8 + key.len) (before.length + 8 + key.len + value.len) =
        .value value.data := by
    have hcut : before ++ (entryBytes key value ++ after) =
        (before ++ (entryHeader key value ++ key.data)) ++ (value.data ++ after) := by
      simp [entryBytes]
    have hlen : (before ++ (entryHeader key value ++ key.data)).length =
        before.length + 8 + key.len := by
      simp [ByteVec.len]
      omega
    have hfits : ¬ ((before ++ (entryHeader key value ++ key.data)) ++
        (value.data ++ after)).length < before.length + 8 + key.len + value.len := by
      rw [List.length_append, hlen, List.length_append]
      unfold ByteVec.len
      omega
    rw [hcut, sliceRange, if_neg (by omega), if_neg hfits, ← hlen, List.drop_left,
      Nat.add_sub_cancel_left, ByteVec.len, List.take_left]
  rw [ValueBatch.getValue, hdata, Outcome.value_bind, hbefore, Outcome.value_bind,
    readHeader_entryBytes hkey hvalue, Outcome.value_bind]
  dsimp only
  rw [hvalue', Outcome.value_bind, ByteVec.ofList_data]

end ReadBack

/-! ## Building a batch -/

/-- The length of a key or a value does not fit into its header. -/
def TooLong (entries : List (Key × Value)) : Prop :=
  ∃ entry ∈ entries, 2 ^ 32 ≤ entry.1.len ∨ 2 ^ 32 ≤ entry.2.len

namespace ValueBatchBuilder

theorem addEntries_of_tooLong
    {entries : List (Key × Value)}
    (h : TooLong entries)
    (b : ValueBatchBuilder) (built : List ValueId × ValueBatchBuilder) :
    b.addEntries entries ≠ .value built := by
  intro hvalue
  induction entries generalizing b built with
  | nil =>
      obtain ⟨entry, hmem, -⟩ := h
      cases hmem
  | cons entry entries ih =>
      obtain ⟨first, hfirst, hrest⟩ := Outcome.bind_eq_value hvalue
      obtain ⟨rest, hrest', -⟩ := Outcome.bind_eq_value hrest
      obtain ⟨entry', hmem, hlong⟩ := h
      rcases List.mem_cons.mp hmem with rfl | hmem'
      · unfold addEntry at hfirst
        dsimp only at hfirst
        split_ifs at hfirst with hkey hval
        rcases hlong with hlong | hlong
        · exact hkey hlong
        · exact hval hlong
      · exact ih ⟨entry', hmem', hlong⟩ first.2 rest hrest'

theorem addEntries_value
    {entries : List (Key × Value)}
    (h : ¬ TooLong entries)
    (b : ValueBatchBuilder) :
    ∃ built, b.addEntries entries = .value built ∧
      built.2.offsets.length = b.offsets.length + entries.length := by
  induction entries generalizing b with
  | nil =>
      exact ⟨([], b), rfl, rfl⟩
  | cons entry entries ih =>
      have hkey : ¬ 2 ^ 32 ≤ entry.1.len := fun hlong =>
        h ⟨entry, List.mem_cons_self, Or.inl hlong⟩
      have hval : ¬ 2 ^ 32 ≤ entry.2.len := fun hlong =>
        h ⟨entry, List.mem_cons_self, Or.inr hlong⟩
      have htail : ¬ TooLong entries := by
        rintro ⟨entry', hmem, hlong⟩
        exact h ⟨entry', List.mem_cons_of_mem _ hmem, hlong⟩
      obtain ⟨first, hfirst, hlength⟩ : ∃ first, b.addEntry entry.1 entry.2 = .value first ∧
          first.2.offsets.length = b.offsets.length + 1 := by
        unfold addEntry
        dsimp only
        rw [if_neg hkey, if_neg hval]
        exact ⟨_, rfl, List.length_append⟩
      obtain ⟨rest, hrest, hlength'⟩ := ih htail first.2
      refine ⟨(first.1 :: rest.1, rest.2), ?_, ?_⟩
      · rw [addEntries, hfirst, Outcome.value_bind, hrest, Outcome.value_bind]
      · rw [hlength', hlength, List.length_cons]
        omega

end ValueBatchBuilder

/-! ## What a batch holds -/

/-- Where the entries of a batch begin, if the data before them has some length. -/
def valueOffsets : Nat → List (Key × Value) → List Nat
  | _, [] => []
  | length, entry :: entries =>
      padOffset length :: valueOffsets (padOffset length + (8 + entry.1.len + entry.2.len)) entries

section Offsets

theorem length_valueOffsets
    (length : Nat) (entries : List (Key × Value)) :
    (valueOffsets length entries).length = entries.length := by
  induction entries generalizing length with
  | nil =>
      rfl
  | cons entry entries ih =>
      rw [valueOffsets, List.length_cons, List.length_cons, ih]

theorem padOffset_mod
    (offset : Nat) :
    padOffset offset % 8 = 0 := by
  unfold padOffset computePadding wordSize
  split_ifs <;> omega

theorem le_padOffset
    (offset : Nat) :
    offset ≤ padOffset offset :=
  Nat.le_add_right _ _

/-- An entry begins at a whole word behind the data before it. -/
theorem mem_valueOffsets
    {length offset : Nat} {entries : List (Key × Value)}
    (h : offset ∈ valueOffsets length entries) :
    offset % 8 = 0 ∧ length ≤ offset := by
  induction entries generalizing length with
  | nil =>
      cases h
  | cons entry entries ih =>
      have hle := le_padOffset length
      rcases List.mem_cons.mp h with rfl | htail
      · exact ⟨padOffset_mod length, hle⟩
      · obtain ⟨hmod, hge⟩ := ih htail
        exact ⟨hmod, by omega⟩

/-- No two entries begin at the same place. -/
theorem nodup_valueOffsets
    (length : Nat) (entries : List (Key × Value)) :
    (valueOffsets length entries).Nodup := by
  induction entries generalizing length with
  | nil =>
      exact List.nodup_nil
  | cons entry entries ih =>
      refine List.nodup_cons.mpr ⟨?_, ih _⟩
      intro hmem
      have := (mem_valueOffsets hmem).2
      omega

end Offsets

namespace ValueBatchBuilder

variable {b : ValueBatchBuilder}

theorem addEntry_value
    {key : Key} {value : Value} {first : ValueId × ValueBatchBuilder}
    (h : b.addEntry key value = .value first) :
    key.len < 2 ^ 32 ∧ value.len < 2 ^ 32 ∧
      first.1 = (b.identifier, u32 (padOffset b.valueData.length)) ∧
      first.2.identifier = b.identifier ∧
      first.2.valueData = b.valueData ++ (List.replicate (computePadding b.valueData.length) 0 ++
        entryBytes key value) := by
  unfold addEntry at h
  dsimp only at h
  split_ifs at h with hkey hvalue
  cases h
  exact ⟨Nat.not_le.mp hkey, Nat.not_le.mp hvalue, rfl, rfl, rfl⟩

theorem length_entryBytes
    (key : Key) (value : Value) :
    (entryBytes key value).length = 8 + key.len + value.len := by
  rw [entryBytes, List.length_append, List.length_append, length_entryHeader, ByteVec.len,
    ByteVec.len]
  omega

/-- The data behind which the next entry begins. -/
theorem length_valueData
    {key : Key} {value : Value} {first : ValueId × ValueBatchBuilder}
    (h : b.addEntry key value = .value first) :
    first.2.valueData.length = padOffset b.valueData.length + (8 + key.len + value.len) := by
  obtain ⟨-, -, -, -, hdata⟩ := addEntry_value h
  rw [hdata, List.length_append, List.length_append, List.length_replicate,
    length_entryBytes, padOffset]
  omega

/-- The identifiers are the places of the entries, cut to 32 bits. -/
theorem addEntries_ids
    {entries : List (Key × Value)} {built : List ValueId × ValueBatchBuilder}
    (h : b.addEntries entries = .value built) :
    built.1 = (valueOffsets b.valueData.length entries).map
      fun offset => (b.identifier, u32 offset) := by
  induction entries generalizing b built with
  | nil =>
      cases h
      rfl
  | cons entry entries ih =>
      obtain ⟨first, hfirst, h⟩ := Outcome.bind_eq_value h
      obtain ⟨rest, hrest, h⟩ := Outcome.bind_eq_value h
      cases h
      obtain ⟨-, -, hid, hident, -⟩ := addEntry_value hfirst
      rw [valueOffsets, ← length_valueData hfirst, List.map_cons, ih hrest, hid, hident]

/-- **What a batch holds**: at the place of each entry, the entry. -/
theorem addEntries_hasEntry
    {entries : List (Key × Value)} {built : List ValueId × ValueBatchBuilder}
    (h : b.addEntries entries = .value built) :
    (∃ more, built.2.valueData = b.valueData ++ more) ∧
      ∀ placed ∈ entries.zip (valueOffsets b.valueData.length entries),
        HasEntry built.2.valueData placed.2 placed.1.1 placed.1.2 := by
  induction entries generalizing b built with
  | nil =>
      cases h
      exact ⟨⟨[], (List.append_nil _).symm⟩, fun placed hplaced => by cases hplaced⟩
  | cons entry entries ih =>
      obtain ⟨first, hfirst, h⟩ := Outcome.bind_eq_value h
      obtain ⟨rest, hrest, h⟩ := Outcome.bind_eq_value h
      cases h
      obtain ⟨-, -, -, -, hdata⟩ := addEntry_value hfirst
      obtain ⟨⟨more, hmore⟩, hplaced⟩ := ih hrest
      rw [valueOffsets, ← length_valueData hfirst]
      refine ⟨?_, ?_⟩
      · refine ⟨List.replicate (computePadding b.valueData.length) 0 ++
          entryBytes entry.1 entry.2 ++ more, ?_⟩
        rw [hmore, hdata]
        simp
      · intro placed hmem
        rcases List.mem_cons.mp hmem with rfl | hmem'
        · rw [hmore, hdata]
          refine ⟨b.valueData ++ List.replicate (computePadding b.valueData.length) 0, more, ?_, ?_⟩
          · simp
          · rw [List.length_append, List.length_replicate]
            rfl
        · exact hplaced placed hmem'

/-- How long the data is, if the data before the entries has some length. -/
def dataLength : Nat → List (Key × Value) → Nat
  | length, [] => length
  | length, entry :: entries =>
      dataLength (padOffset length + (8 + entry.1.len + entry.2.len)) entries

theorem le_dataLength
    (length : Nat) (entries : List (Key × Value)) :
    length ≤ dataLength length entries := by
  induction entries generalizing length with
  | nil =>
      exact le_refl length
  | cons entry entries ih =>
      have hpad := le_padOffset length
      have hrest := ih (padOffset length + (8 + entry.1.len + entry.2.len))
      rw [dataLength]
      omega

/-- The entries begin inside the data. -/
theorem lt_dataLength_of_mem_valueOffsets
    {length offset : Nat} {entries : List (Key × Value)}
    (h : offset ∈ valueOffsets length entries) :
    offset < dataLength length entries := by
  induction entries generalizing length with
  | nil =>
      cases h
  | cons entry entries ih =>
      rcases List.mem_cons.mp h with rfl | htail
      · have hrest := le_dataLength
          (padOffset length + (8 + entry.1.len + entry.2.len)) entries
        rw [dataLength]
        omega
      · exact ih htail

/-- No key and no value is longer than the data. -/
theorem not_tooLong_of_dataLength
    {length : Nat} {entries : List (Key × Value)}
    (h : dataLength length entries < 2 ^ 32) :
    ¬ TooLong entries := by
  induction entries generalizing length with
  | nil =>
      rintro ⟨entry, hmem, -⟩
      cases hmem
  | cons entry entries ih =>
      rintro ⟨entry', hmem, hlong⟩
      rcases List.mem_cons.mp hmem with rfl | hmem'
      · have hrest := le_dataLength
          (padOffset length + (8 + entry'.1.len + entry'.2.len)) entries
        rw [dataLength] at h
        omega
      · exact ih h ⟨entry', hmem', hlong⟩

/-- Entries that were added stay where they are while others are added. -/
theorem hasEntry_of_addEntries
    {later : List (Key × Value)} {after : List ValueId × ValueBatchBuilder}
    {pos : Nat} {key : Key} {value : Value}
    (h : HasEntry b.valueData pos key value)
    (hlater : b.addEntries later = .value after) :
    HasEntry after.2.valueData pos key value := by
  obtain ⟨⟨more, hmore⟩, -⟩ := addEntries_hasEntry hlater
  obtain ⟨before, behind, hdata, hpos⟩ := h
  refine ⟨before, behind ++ more, ?_, hpos⟩
  rw [hmore, hdata, List.append_assoc, List.append_assoc]

/-- What is found at the identifier of an entry after further entries were added. -/
theorem getValue_addEntries
    {entries later : List (Key × Value)} {built after : List ValueId × ValueBatchBuilder}
    (htotal : dataLength b.valueData.length entries < 2 ^ 32)
    (hbuilt : b.addEntries entries = .value built)
    (hlater : built.2.addEntries later = .value after)
    {placed : (Key × Value) × ValueId}
    (hplaced : placed ∈ entries.zip built.1) :
    placed.2.1 = b.identifier ∧
      (ValueBatch.mk after.2.data).getValue placed.2.2 = .value placed.1.2 := by
  rw [addEntries_ids hbuilt, List.zip_map_right] at hplaced
  obtain ⟨⟨entry, offset⟩, hmem, rfl⟩ := List.mem_map.mp hplaced
  have hentry : entry ∈ entries := (List.of_mem_zip hmem).1
  have hoffset := lt_dataLength_of_mem_valueOffsets (List.of_mem_zip hmem).2
  have hshort := not_tooLong_of_dataLength htotal
  have hkey : entry.1.len < 2 ^ 32 := by
    by_contra hlong
    exact hshort ⟨entry, hentry, Or.inl (Nat.not_lt.mp hlong)⟩
  have hvalue : entry.2.len < 2 ^ 32 := by
    by_contra hlong
    exact hshort ⟨entry, hentry, Or.inr (Nat.not_lt.mp hlong)⟩
  have hhas := hasEntry_of_addEntries ((addEntries_hasEntry hbuilt).2 _ hmem) hlater
  -- the place is below 2 ^ 32, so nothing of it is cut off
  have hcut : u32 offset = offset := Nat.mod_eq_of_lt (by omega)
  refine ⟨rfl, ?_⟩
  change (ValueBatch.mk after.2.data).getValue (u32 offset) = .value entry.2
  rw [hcut]
  exact getValue_of_hasEntry (LittleEndian.encode_length 4 _) hhas hkey hvalue

end ValueBatchBuilder

/-! ## References to values -/

/-- The batch is shared with the cache. -/
structure ValueRef where
  batch : ValueBatch
  offset : Nat
  length : Nat

def ValueRef.getValue (r : ValueRef) : Outcome Value := do
  let valueData ← r.batch.getValueData
  let value ← sliceRange valueData r.offset (r.offset + r.length)
  .value (ByteVec.ofList value)

namespace ValueBatch

def fromExisting (data : List UInt8) : ValueBatch where
  data := data

def getRef (b : ValueBatch) (pos : Nat) : Outcome ValueRef := do
  let valueData ← b.getValueData
  let data ← sliceFrom valueData pos
  let header ← readHeader data
  .value { batch := b, offset := pos + 8 + header.1, length := header.2 }

/-- Asking a reference for its value looks at the data of the batch once more. -/
theorem getRef_bind_getValue
    (b : ValueBatch) (pos : Nat) :
    (b.getRef pos >>= ValueRef.getValue) = b.getValue pos := by
  unfold getRef getValue
  cases hdata : b.getValueData with
  | value valueData =>
      simp only [Outcome.value_bind]
      cases sliceFrom valueData pos with
      | value data =>
          simp only [Outcome.value_bind]
          cases readHeader data with
          | value header =>
              simp only [Outcome.value_bind, ValueRef.getValue, hdata]
          | error e =>
              rfl
          | panic message =>
              rfl
          | unfinished =>
              rfl
      | error e =>
          rfl
      | panic message =>
          rfl
      | unfinished =>
          rfl
  | error e =>
      rfl
  | panic message =>
      rfl
  | unfinished =>
      rfl

end ValueBatch

namespace ValueBatchBuilder

/-- What `finish` leaves: the bytes in the file, and the batch in the cache.  That the batch is
added to the index as well is part of `writeBatch`. -/
def finish (b : ValueBatchBuilder) : List UInt8 × ValueBatch :=
  (b.data, { data := b.data })

/-- **Lookup undoes insertion.**  Entries whose data is below 2^32 bytes can be added, and each
identifier that was returned leads to the value it was returned for, in the cached batch and in
one that is read from the file again, whatever has been added since. -/
theorem value_batch_lookup
    (identifier : Nat) (entries : List (Key × Value))
    (htotal : dataLength 0 entries < 2 ^ 32) :
    ∃ built, (new identifier).addEntries entries = .value built ∧
      built.1.length = entries.length ∧
      ∀ later after, built.2.addEntries later = .value after →
        ∀ placed ∈ entries.zip built.1,
          placed.2.1 = identifier ∧
          (after.2.finish.2.getRef placed.2.2 >>= ValueRef.getValue) = .value placed.1.2 ∧
          ((ValueBatch.fromExisting after.2.finish.1).getRef placed.2.2 >>=
            ValueRef.getValue) = .value placed.1.2 := by
  obtain ⟨built, hbuilt, -⟩ :=
    addEntries_value (not_tooLong_of_dataLength htotal) (new identifier)
  refine ⟨built, hbuilt, ?_, ?_⟩
  · rw [addEntries_ids hbuilt, List.length_map, length_valueOffsets]
  · intro later after hlater placed hplaced
    obtain ⟨hid, hvalue⟩ :=
      getValue_addEntries (b := new identifier) htotal hbuilt hlater hplaced
    rw [ValueBatch.getRef_bind_getValue, ValueBatch.getRef_bind_getValue]
    exact ⟨hid, hvalue, hvalue⟩

/-- A value whose length is not a multiple of eight, and an empty one behind it. -/
theorem value_batch_lookup_two :
    let entries : List (Key × Value) := [(ByteVec.ofList [1], ByteVec.ofList [7, 8]),
      (ByteVec.ofList [2, 3], ByteVec.ofList [])]
    ∃ built, (new 5).addEntries entries = .value built ∧ built.1.length = 2 ∧
      ∀ later after, built.2.addEntries later = .value after →
        ∀ placed ∈ entries.zip built.1,
          placed.2.1 = 5 ∧
          (after.2.finish.2.getRef placed.2.2 >>= ValueRef.getValue) = .value placed.1.2 ∧
          ((ValueBatch.fromExisting after.2.finish.1).getRef placed.2.2 >>=
            ValueRef.getValue) = .value placed.1.2 :=
  value_batch_lookup 5 [(ByteVec.ofList [1], ByteVec.ofList [7, 8]),
    (ByteVec.ofList [2, 3], ByteVec.ofList [])] (by decide)

end ValueBatchBuilder
end Values
end LsmStore
