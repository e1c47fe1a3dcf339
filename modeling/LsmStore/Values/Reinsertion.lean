import LsmStore.Values.Addressing

/-!
# Reading active entries back

When a batch is compacted, its active entries are read from the batch file to be
inserted again.  The index says where: it gives the places of the bits, counted
from the beginning of the page.  `get_entries` takes them for places in the
data of the batch, and cuts key and value out of the data behind such a place
with ends that do not depend on it.

An entry that is read correctly at one place fixes the eight bytes there.  The
same entry cannot be read four bytes further on, so that no active entry is read
back wherever the batch is in its page.
-/

namespace LsmStore
namespace Values

open Segments

/-! ## The places of the active entries -/

/-- The entries whose bit is set. -/
def activeEntries (entries : List (Key × Value)) (bits : List Bool) : List (Key × Value) :=
  (entries.zip bits).filterMap fun entry => if entry.2 then some entry.1 else none

/-- The numbers of the bits that are set, if the first bit has the number `start`. -/
def activePlaces : Nat → List Bool → List Nat
  | _, [] => []
  | start, bit :: bits =>
      if bit then start :: activePlaces (start + 1) bits else activePlaces (start + 1) bits

section Places

theorem filterMap_zipIdx
    (bits : List Bool) (start k : Nat) :
    (bits.zipIdx k).filterMap (fun entry => if entry.1 then some (entry.2 + start) else none) =
      activePlaces (k + start) bits := by
  induction bits generalizing k with
  | nil =>
      rfl
  | cons bit bits ih =>
      have hstart : k + start + 1 = k + 1 + start := by omega
      rw [List.zipIdx_cons, activePlaces, hstart, ← ih]
      cases bit <;> rfl

theorem activePlaces_of_inactive
    {bits : List Bool}
    (h : ∀ bit ∈ bits, bit = false)
    (start : Nat) :
    activePlaces start bits = [] := by
  induction bits generalizing start with
  | nil =>
      rfl
  | cons bit bits ih =>
      rw [activePlaces, h bit List.mem_cons_self]
      exact ih (fun bit' hbit' => h bit' (List.mem_cons_of_mem _ hbit')) _

theorem activeEntries_of_inactive
    {bits : List Bool}
    (h : ∀ bit ∈ bits, bit = false)
    (entries : List (Key × Value)) :
    activeEntries entries bits = [] := by
  refine List.filterMap_eq_nil_iff.mpr fun entry hentry => ?_
  rw [h entry.2 (List.of_mem_zip hentry).2]
  rfl

variable {p : IndexPage} {pages : Pages} {batchId : Nat} {bits : List Bool}

/-- **What `get_active_entries` returns**: places counted from the beginning of the page. -/
theorem IndexPage.getActiveEntries_eq
    (hcuts : Cuts p.offsets p.entries.length)
    (h : p.bitsOf batchId = some bits) :
    ∃ start, p.getBatchRange batchId = .value (start, start + bits.length) ∧
      p.getActiveEntries batchId = .value (activePlaces start bits) := by
  obtain ⟨start, hrange, hle, hbits⟩ := range_of_bitsOf hcuts h
  refine ⟨start, hrange, ?_⟩
  rw [getActiveEntries, hrange, Outcome.value_bind, slice_of_range hle hbits,
    Outcome.value_bind]
  dsimp only
  rw [filterMap_zipIdx, Nat.zero_add]

theorem Pages.getActiveEntries_eq
    (hcuts : ∀ entry ∈ pages, Cuts entry.2.offsets entry.2.entries.length)
    (h : pages.bitsOf batchId = some bits) :
    ∃ start, pages.getActiveEntries batchId = .value (activePlaces start bits) := by
  obtain ⟨idx, ⟨key, page⟩, hidx, hpage, h⟩ := Pages.page_of_bitsOf h
  obtain ⟨start, -, hactive⟩ := IndexPage.getActiveEntries_eq
    (hcuts _ (List.mem_of_getElem? hpage)) h
  refine ⟨start, ?_⟩
  rw [Pages.getActiveEntries, hidx]
  dsimp only
  rw [Pages.pageAt, hpage]
  exact hactive

end Places

/-! ## Reading entries -/

namespace ValueBatch

section Read

variable {valueData : List UInt8}

theorem length_of_sliceRange
    {data part : List UInt8} {start stop : Nat}
    (h : sliceRange data start stop = .value part) :
    start + part.length = stop := by
  unfold sliceRange at h
  dsimp only at h
  split_ifs at h
  rw [← Outcome.value.inj h, List.length_take, List.length_drop]
  omega

theorem len_ofList
    {bytes : List UInt8}
    (h : bytes.length < 2 ^ 63) :
    (ByteVec.ofList bytes).len = bytes.length := by
  change (bytes.take _).length = _
  rw [List.length_take]
  omega

/-- The eight bytes at the place where an entry was read. -/
theorem getEntry_header
    {pos : Nat} {key : Key} {value : Value}
    (h : getEntry valueData pos = .value (key, value)) :
    LittleEndian.decode ((valueData.drop pos).take 4) = pos + 8 + key.len ∧
      LittleEndian.decode ((valueData.drop (pos + 4)).take 4) =
        pos + 8 + (pos + 8 + key.len) + value.len := by
  obtain ⟨data, hdata, h⟩ := Outcome.bind_eq_value h
  obtain ⟨header, hheader, h⟩ := Outcome.bind_eq_value h
  obtain ⟨keyBytes, hkey, h⟩ := Outcome.bind_eq_value h
  obtain ⟨valueBytes, hvalue, h⟩ := Outcome.bind_eq_value h
  cases h
  have hdrop : data = valueData.drop pos := by
    unfold sliceFrom at hdata
    dsimp only at hdata
    split_ifs at hdata
    exact (Outcome.value.inj hdata).symm
  have hlengths : header = (LittleEndian.decode ((valueData.drop pos).take 4),
      LittleEndian.decode ((valueData.drop (pos + 4)).take 4)) := by
    unfold readHeader at hheader
    split_ifs at hheader
    rw [hdrop, List.drop_drop] at hheader
    exact (Outcome.value.inj hheader).symm
  have hkeyLength := length_of_sliceRange hkey
  have hvalueLength := length_of_sliceRange hvalue
  rw [hlengths] at hkeyLength hvalueLength
  dsimp only at hkeyLength hvalueLength
  have hsmallKey := LittleEndian.decode_take_lt 4 (valueData.drop pos)
  have hsmallValue := LittleEndian.decode_take_lt 4 (valueData.drop (pos + 4))
  rw [len_ofList (by omega), len_ofList (by omega)]
  omega

/-- **An entry is not read at two places four bytes apart.** -/
theorem getEntry_four_apart
    {pos : Nat} {entry : Key × Value}
    (h : getEntry valueData pos = .value entry)
    (h' : getEntry valueData (pos + 4) = .value entry) :
    False := by
  obtain ⟨-, hvalue⟩ := getEntry_header h
  obtain ⟨hkey, -⟩ := getEntry_header h'
  omega

/-- The entries of the active bits, each read at the place of its bit. -/
theorem getEntry_of_getEntriesFrom
    {entries : List (Key × Value)} {bits : List Bool} {start i : Nat} {entry : Key × Value}
    (h : getEntriesFrom valueData (activePlaces start bits) =
      .value (activeEntries entries bits))
    (hbit : bits[i]? = some true)
    (hentry : entries[i]? = some entry) :
    getEntry valueData (start + i) = .value entry := by
  induction bits generalizing entries start i with
  | nil =>
      cases hbit
  | cons bit bits ih =>
      cases entries with
      | nil =>
          cases hentry
      | cons first entries =>
          rw [activePlaces] at h
          cases bit with
          | true =>
              obtain ⟨found, hfound, h⟩ := Outcome.bind_eq_value h
              obtain ⟨rest, hrest, h⟩ := Outcome.bind_eq_value h
              obtain ⟨rfl, rfl⟩ := List.cons.inj (Outcome.value.inj h)
              cases i with
              | zero =>
                  cases hentry
                  exact hfound
              | succ i =>
                  have hread := ih hrest hbit hentry
                  rwa [Nat.add_right_comm] at hread
          | false =>
              cases i with
              | zero =>
                  cases hbit
              | succ i =>
                  have hread := ih h hbit hentry
                  rwa [Nat.add_right_comm] at hread

end Read
end ValueBatch

/-! ## The active entries of a batch -/

/-- A page with a batch that has `before` values, and then a batch with some bits. -/
def pageBehind (batchId before : Nat) (bits : List Bool) : IndexPage where
  header := ⟨minValueIndexPageId, batchId - 1, 2, 0⟩
  dirty := false
  offsets := [0, before]
  batches := [.active, .active]
  entries := List.replicate before true ++ bits
  isSealed := false
  length_offsets := rfl
  length_batches := rfl

section ReadBack

variable {batchId : Nat} {bits : List Bool} {entries : List (Key × Value)}

theorem cuts_pageBehind
    (batchId before : Nat) (bits : List Bool) :
    Cuts (pageBehind batchId before bits).offsets
      (pageBehind batchId before bits).entries.length := by
  have hlength : (pageBehind batchId before bits).entries.length = before + bits.length := by
    change (List.replicate before true ++ bits).length = _
    rw [List.length_append, List.length_replicate]
  rw [hlength]
  refine ⟨by simp [pageBehind], ?_⟩
  intro offset hoffset
  simp only [pageBehind, List.mem_cons, List.not_mem_nil, or_false] at hoffset
  omega

theorem getBatchRange_pageBehind
    (hid : minValueBatchId ≤ batchId)
    (before : Nat) (bits : List Bool) :
    (pageBehind batchId before bits).getBatchRange batchId =
      .value (before, before + bits.length) := by
  have hindex : batchId - (batchId - 1) = 1 := Nat.sub_sub_self hid
  have hle : ¬ batchId < (pageBehind batchId before bits).header.startBatch :=
    Nat.not_lt.mpr (Nat.sub_le _ _)
  rw [IndexPage.getBatchRange, if_neg hle]
  dsimp only [pageBehind]
  rw [hindex, List.length_append, List.length_replicate]
  rfl

theorem findPageIdx_pageBehind
    (hid : minValueBatchId ≤ batchId)
    (before : Nat) (bits : List Bool) :
    Pages.findPageIdx [(batchId - 1, pageBehind batchId before bits)] batchId = some 0 := by
  have hlt : batchId - 1 < batchId := Nat.sub_one_lt_of_le hid (le_refl _)
  rw [Pages.findPageIdx_cons, if_neg (by omega), if_pos hlt]
  rfl

theorem bitsOf_pageBehind
    (hid : minValueBatchId ≤ batchId)
    (before : Nat) (bits : List Bool) :
    (pageBehind batchId before bits).bitsOf batchId = some bits := by
  rw [IndexPage.bitsOf_of_range (getBatchRange_pageBehind hid before bits)]
  dsimp only [pageBehind]
  rw [Nat.add_sub_cancel_left, List.drop_left' List.length_replicate, List.take_length]

/-- `get_entries` goes through the data behind the header. -/
theorem ValueBatch.getEntries_data
    (b : ValueBatchBuilder) (offsets : List Nat) :
    (ValueBatch.mk b.data).getEntries offsets = getEntriesFrom b.valueData offsets := by
  rw [getEntries, getValueData, ValueBatchBuilder.data,
    sliceFrom_append (LittleEndian.encode_length 4 _), Outcome.value_bind]

/-- What `try_to_compact` reads for a batch in a page behind another batch. -/
theorem read_pageBehind
    (hid : minValueBatchId ≤ batchId)
    (before : Nat) (bits : List Bool) (b : ValueBatchBuilder) :
    (Pages.getActiveEntries [(batchId - 1, pageBehind batchId before bits)] batchId >>=
        (ValueBatch.mk b.data).getEntries) =
      ValueBatch.getEntriesFrom b.valueData (activePlaces before bits) := by
  obtain ⟨start, hrange, hactive⟩ := IndexPage.getActiveEntries_eq
    (cuts_pageBehind batchId before bits) (bitsOf_pageBehind hid before bits)
  obtain rfl : before = start := by
    rw [getBatchRange_pageBehind hid] at hrange
    exact congrArg Prod.fst (Outcome.value.inj hrange)
  rw [Pages.getActiveEntries, findPageIdx_pageBehind hid]
  change (IndexPage.getActiveEntries _ batchId >>= _) = _
  rw [hactive, Outcome.value_bind, ValueBatch.getEntries_data]

/-- An active entry is not read back at both of two places in a page. -/
theorem not_read_at_both
    {b : ValueBatchBuilder}
    (hactive : true ∈ bits)
    (hlength : bits.length = entries.length)
    (h : ValueBatch.getEntriesFrom b.valueData (activePlaces 0 bits) =
      .value (activeEntries entries bits))
    (h' : ValueBatch.getEntriesFrom b.valueData (activePlaces 4 bits) =
      .value (activeEntries entries bits)) :
    False := by
  obtain ⟨i, hi⟩ := List.getElem?_of_mem hactive
  have hlt : i < entries.length := hlength ▸ (List.getElem?_eq_some_iff.mp hi).1
  have hentry : entries[i]? = some entries[i] := List.getElem?_eq_getElem hlt
  have hread := ValueBatch.getEntry_of_getEntriesFrom h hi hentry
  have hread' := ValueBatch.getEntry_of_getEntriesFrom h' hi hentry
  rw [Nat.zero_add] at hread
  rw [Nat.add_comm] at hread'
  exact ValueBatch.getEntry_four_apart hread hread'

/-- **The active entries of a finished batch are read back**, wherever the batch is in its page,
if and only if there are none. -/
theorem active_entries_read_back_iff
    [BitPacking]
    {s s' : ValueLog} {ids : List ValueId}
    (hok : s.pages.Ok)
    (hends : s.pages.Ends s.metadata.nextBatch)
    (hid : minValueBatchId ≤ s.metadata.nextBatch)
    (hwrite : ValueLog.writeBatch entries s = (.value ids, s'))
    (hlength : bits.length = entries.length) :
    ∃ batch, s'.batchFiles s.metadata.nextBatch = some batch ∧
      ((∀ pages : Pages, (∀ entry ∈ pages, Cuts entry.2.offsets entry.2.entries.length) →
        pages.bitsOf s.metadata.nextBatch = some bits →
          (pages.getActiveEntries s.metadata.nextBatch >>= batch.getEntries) =
            .value (activeEntries entries bits)) ↔
        ∀ bit ∈ bits, bit = false) := by
  obtain ⟨built, -, -, -, hfile, -⟩ := writeBatch_finished hok hends hwrite
  refine ⟨⟨built.2.data⟩, hfile, ?_, ?_⟩
  · intro hread bit hbit
    by_contra hactive
    rw [Bool.eq_true_of_not_eq_false hactive] at hbit
    have hfound : ∀ before, ValueBatch.getEntriesFrom built.2.valueData (activePlaces before bits) =
        .value (activeEntries entries bits) := by
      intro before
      rw [← read_pageBehind hid]
      refine hread _ ?_ ?_
      · intro entry hentry
        rw [List.mem_singleton.mp hentry]
        exact cuts_pageBehind _ before bits
      · rw [Pages.bitsOf, findPageIdx_pageBehind hid]
        exact bitsOf_pageBehind hid before bits
    exact not_read_at_both hbit hlength (hfound 0) (hfound 4)
  · intro hinactive pages hcuts hbits
    obtain ⟨start, hactive⟩ := Pages.getActiveEntries_eq hcuts hbits
    rw [hactive, Outcome.value_bind, ValueBatch.getEntries_data,
      activePlaces_of_inactive hinactive, activeEntries_of_inactive hinactive]
    rfl

theorem active_entries_read_back_none :
    ∃ s' batch, ValueLog.writeBatch singleEntry ValueLog.new = (.value [(1, 0)], s') ∧
      s'.batchFiles 1 = some batch ∧
      ∀ pages : Pages, (∀ entry ∈ pages, Cuts entry.2.offsets entry.2.entries.length) →
        pages.bitsOf 1 = some [false] →
          (pages.getActiveEntries 1 >>= batch.getEntries) = .value [] := by
  obtain ⟨hok, hends, -⟩ := ok_new
  have hwrite : ValueLog.writeBatch singleEntry ValueLog.new =
      (.value [(1, 0)], (ValueLog.writeBatch singleEntry ValueLog.new).2) := rfl
  obtain ⟨batch, hfile, hiff⟩ := active_entries_read_back_iff hok hends (le_refl 1) hwrite
    (rfl : [false].length = 1)
  exact ⟨_, batch, hwrite, hfile, hiff.mpr (by decide)⟩

/-- A small entry that is active, the first of its page: the end of the key is in front of its
beginning. -/
theorem active_entry_not_read :
    ∃ s' batch, ValueLog.writeBatch singleEntry ValueLog.new = (.value [(1, 0)], s') ∧
      s'.batchFiles 1 = some batch ∧ s'.pages.bitsOf 1 = some [true] ∧
      (s'.pages.getActiveEntries 1 >>= batch.getEntries) =
        .panic "slice index starts at 8 but ends at 1" :=
  ⟨(ValueLog.writeBatch singleEntry ValueLog.new).2, _, rfl, rfl, rfl, by decide +kernel⟩

end ReadBack

end Values
end LsmStore
