import LsmStore.Lib.Runs
import LsmStore.Values.IndexPage

/-!
# Writing a page and reading it back

A page is written as its header, the offsets, the states of its batches, and
its bits in whole bytes.  How many bits there are is not written, so that a page
that is read back has all bits of its last byte.  The two pages are the same
exactly if the bits fill whole bytes; otherwise the range of the last batch has
become longer, and the next batch begins at another place.
-/

namespace LsmStore
namespace Values

open BitPacking

/-- An operation on one page. -/
inductive PageOp where
  | expand (numEntries : Nat)
  | markValueAsDeleted (vid : ValueId)
  | markValueAsDeletedAt (offset : Nat)
  | markBatchAsDeleted (batchId : Nat)
  | markBatchAsDeletedAt (index : Nat)
  | markBatchAsCompacted (batchId : Nat)

/-- The operation is about the state of a batch. -/
def PageOp.marksBatch : PageOp → Bool
  | .markBatchAsDeleted _ => true
  | .markBatchAsDeletedAt _ => true
  | .markBatchAsCompacted _ => true
  | _ => false

namespace IndexPage

/-- What the operation makes of the page, if it returns. -/
def perform (p : IndexPage) : PageOp → Outcome IndexPage
  | .expand numEntries => do
      let expanded ← p.expand numEntries
      .value expanded.2
  | .markValueAsDeleted vid => do
      let marked ← p.markValueAsDeleted vid
      .value marked.2
  | .markValueAsDeletedAt offset => p.markValueAsDeletedAt offset
  | .markBatchAsDeleted batchId => do
      let marked ← p.markBatchAsDeleted batchId
      .value marked.2
  | .markBatchAsDeletedAt index => p.markBatchAsDeletedAt index
  | .markBatchAsCompacted batchId => do
      let marked ← p.markBatchAsCompacted batchId
      .value marked.2

/-- An operation that panics has not changed the page. -/
def step (p : IndexPage) (op : PageOp) : IndexPage :=
  match p.perform op with
  | .value p' => p'
  | _ => p

/-- The ranges that batches get which are added one after the other. -/
def allocations : IndexPage → List Nat → Outcome (List (Option (Nat × Nat)))
  | _, [] => .value []
  | p, numEntries :: rest => do
      let expanded ← p.expand numEntries
      let range ←
        if expanded.1 then do
          let range ← expanded.2.getBatchRange (p.header.startBatch + p.header.numBatches)
          .value (some range)
        else .value none
      let ranges ← expanded.2.allocations rest
      .value (range :: ranges)

/-- A page that agrees with another one, now and when batches are added to both. -/
structure Agrees (p q : IndexPage) : Prop where
  header : q.header = p.header
  offsets : q.offsets = p.offsets
  batches : q.batches = p.batches
  entries : q.entries = p.entries
  getBatchRange : ∀ batchId, q.getBatchRange batchId = p.getBatchRange batchId
  countActiveEntries : ∀ batchId, q.countActiveEntries batchId = p.countActiveEntries batchId
  getActiveEntries : ∀ batchId, q.getActiveEntries batchId = p.getActiveEntries batchId
  allocations : ∀ numEntries, q.allocations numEntries = p.allocations numEntries

/-- What `open` makes of the bytes that `sync` writes agrees with the page. -/
def RoundTrips [BitPacking] (p : IndexPage) : Prop :=
  ∃ q, ofFile p.encode p.isSealed = .value q ∧ p.Agrees q

/-! ## What the operations do -/

section Perform

variable {p p' : IndexPage}

theorem markBatchAsDeletedAt_value
    {index : Nat}
    (h : p.markBatchAsDeletedAt index = .value p') :
    ∃ state, p.batches[index]? = some state ∧ state ≠ .deleted ∧
      p' = p.setState index .deleted := by
  unfold markBatchAsDeletedAt at h
  split at h
  · cases h
  · cases h
  · rename_i state hdeleted hstate
    cases h
    exact ⟨state, hstate, hdeleted, rfl⟩

theorem markBatchAsCompacted_value
    {batchId : Nat} {marked : Nat × IndexPage}
    (h : p.markBatchAsCompacted batchId = .value marked) :
    ∃ index, p.batches[index]? = some .active ∧ marked.2 = p.setState index .deleted := by
  unfold markBatchAsCompacted at h
  dsimp only at h
  split at h
  · cases h
  · cases h
  · cases h
  · rename_i hactive
    cases h
    exact ⟨_, hactive, rfl⟩

/-- **Everything an operation can do**: add a batch, seal the page, clear a bit, or change the
state of a batch.  The last one does not touch the flag. -/
theorem perform_cases
    {op : PageOp}
    (h : p.perform op = .value p') :
    (op.marksBatch = false ∧
      ((∃ numEntries, p' = p.grown numEntries) ∨ p' = { p with isSealed := true } ∨ p' = p ∨
        ∃ i, p' = { p with entries := p.entries.set i false, dirty := true })) ∨
      (op.marksBatch = true ∧ ∃ index state, p.batches[index]? = some state ∧
        state ≠ .deleted ∧ p' = p.setState index .deleted) := by
  cases op with
  | expand numEntries =>
      obtain ⟨expanded, hexpand, hp'⟩ := Outcome.bind_eq_value h
      cases hp'
      unfold expand at hexpand
      dsimp only at hexpand
      split_ifs at hexpand
      · cases hexpand
        exact Or.inl ⟨rfl, Or.inl ⟨numEntries, rfl⟩⟩
      · cases hexpand
        exact Or.inl ⟨rfl, Or.inr (Or.inl rfl)⟩
  | markValueAsDeleted vid =>
      obtain ⟨marked, hmarked, hp'⟩ := Outcome.bind_eq_value h
      cases hp'
      obtain ⟨range, -, hmarked⟩ := Outcome.bind_eq_value hmarked
      obtain ⟨bits, -, hmarked⟩ := Outcome.bind_eq_value hmarked
      split at hmarked
      · cases hmarked
      · cases hmarked
      · cases hmarked
        exact Or.inl ⟨rfl, Or.inr (Or.inr (Or.inr ⟨_, rfl⟩))⟩
  | markValueAsDeletedAt offset =>
      change p.markValueAsDeletedAt offset = _ at h
      unfold markValueAsDeletedAt at h
      split at h
      · cases h
      · cases h
        exact Or.inl ⟨rfl, Or.inr (Or.inr (Or.inr ⟨offset, rfl⟩))⟩
      · cases h
        exact Or.inl ⟨rfl, Or.inr (Or.inr (Or.inl rfl))⟩
  | markBatchAsDeleted batchId =>
      obtain ⟨marked, hmarked, hp'⟩ := Outcome.bind_eq_value h
      cases hp'
      obtain ⟨page, hpage, hmarked⟩ := Outcome.bind_eq_value hmarked
      cases hmarked
      obtain ⟨state, hstate, hne, rfl⟩ := markBatchAsDeletedAt_value hpage
      exact Or.inr ⟨rfl, _, state, hstate, hne, rfl⟩
  | markBatchAsDeletedAt index =>
      obtain ⟨state, hstate, hne, rfl⟩ := markBatchAsDeletedAt_value h
      exact Or.inr ⟨rfl, index, state, hstate, hne, rfl⟩
  | markBatchAsCompacted batchId =>
      obtain ⟨marked, hmarked, hp'⟩ := Outcome.bind_eq_value h
      cases hp'
      obtain ⟨index, hactive, hp'⟩ := markBatchAsCompacted_value hmarked
      exact Or.inr ⟨rfl, index, .active, hactive, by decide, hp'⟩

end Perform

/-- The offsets are numbers of 16 bits. -/
def SmallOffsets (p : IndexPage) : Prop :=
  ∀ offset ∈ p.offsets, offset < 65536

theorem SmallOffsets.grown
    {p : IndexPage}
    (h : p.SmallOffsets)
    (numEntries : Nat) :
    (p.grown numEntries).SmallOffsets := by
  intro offset hmem
  rcases List.mem_append.mp hmem with hold | hnew
  · exact h offset hold
  · rw [List.mem_singleton.mp hnew]
    exact Nat.mod_lt _ (by norm_num)

theorem SmallOffsets.step
    {p : IndexPage}
    (h : p.SmallOffsets)
    (op : PageOp) :
    (p.step op).SmallOffsets := by
  unfold IndexPage.step
  split
  · rename_i p' hp'
    rcases perform_cases hp' with
      ⟨-, ⟨numEntries, rfl⟩ | rfl | rfl | ⟨i, rfl⟩⟩ | ⟨-, index, state, -, -, rfl⟩
    · exact h.grown numEntries
    · exact h
    · exact h
    · exact h
    · exact h
  · exact h

theorem smallOffsets_run
    (identifier startBatch : Nat) (ops : List PageOp) :
    (Runs.run step (new identifier startBatch) ops).SmallOffsets :=
  Runs.invariant (fun _ op h => h.step op) (fun _ hmem => by cases hmem) ops

/-! ## Reading back -/

/-- The flag has no influence on whether a batch can be added. -/
theorem expand_written
    (p : IndexPage) (numEntries : Nat) :
    (∃ message, p.expand numEntries = .panic message ∧
        p.written.expand numEntries = .panic message) ∨
      (p.expand numEntries = .value (true, p.grown numEntries) ∧
        p.written.expand numEntries = .value (true, p.grown numEntries)) ∨
      ∃ q : IndexPage, p.expand numEntries = .value (false, q) ∧
        p.written.expand numEntries = .value (false, q.written) := by
  have hwritten : p.written.expand numEntries =
      if p.isSealed then .panic "assertion failed: !self.sealed"
      else if maxPageSize ≤ numEntries then .panic "assertion failed: num_entries < MAX_SIZE"
      else if (p.offsets.length + 1) * 2 + (p.entries.length + numEntries) ≤ maxPageSize then
        .value (true, p.grown numEntries)
      else .value (false, ({ p with isSealed := true } : IndexPage).written) := rfl
  rw [hwritten]
  unfold expand
  dsimp only
  split_ifs
  · exact Or.inl ⟨_, rfl, rfl⟩
  · exact Or.inl ⟨_, rfl, rfl⟩
  · exact Or.inr (Or.inl ⟨rfl, rfl⟩)
  · exact Or.inr (Or.inr ⟨_, rfl, rfl⟩)

/-- Nor on the places that batches get. -/
theorem allocations_written
    (p : IndexPage) (numEntries : List Nat) :
    p.written.allocations numEntries = p.allocations numEntries := by
  induction numEntries generalizing p with
  | nil =>
      rfl
  | cons n rest ih =>
      rw [allocations, allocations]
      rcases p.expand_written n with ⟨message, hp, hq⟩ | ⟨hp, hq⟩ | ⟨q, hp, hq⟩
      · rw [hp, hq]
        rfl
      · rw [hp, hq]
        rfl
      · rw [hp, hq, Outcome.value_bind, Outcome.value_bind]
        simp only [ih]
        rfl

theorem agrees_written
    (p : IndexPage) :
    p.Agrees p.written where
  header := rfl
  offsets := rfl
  batches := rfl
  entries := rfl
  getBatchRange _ := rfl
  countActiveEntries _ := rfl
  getActiveEntries _ := rfl
  allocations := p.allocations_written

/-- **The round trip of a page.**  For every page that the operations lead to, what is read back
agrees with the page exactly if its bits fill whole bytes. -/
theorem page_round_trips_iff
    [BitPacking]
    (identifier startBatch : Nat) (ops : List PageOp) :
    let p := Runs.run step (new identifier startBatch) ops
    p.RoundTrips ↔ p.entries.length % 8 = 0 := by
  intro p
  have hread := p.ofFile_encode (smallOffsets_run identifier startBatch ops) p.isSealed
  constructor
  · rintro ⟨q, hq, hagrees⟩
    rw [hread] at hq
    cases hq
    have hlength := congrArg List.length hagrees.entries
    rw [List.length_append, List.length_replicate, padding] at hlength
    omega
  · intro hbytes
    have hpadding : padding p.entries.length = 0 := by
      unfold padding
      omega
    refine ⟨p.written, ?_, p.agrees_written⟩
    rw [hread, hpadding, List.replicate_zero, List.append_nil]
    rfl

/-! ## Reading and writing again -/

section Rewrite

theorem readMany_value
    {α : Type} {read : List UInt8 → Outcome (α × List UInt8)} (write : α → List UInt8)
    (h : ∀ data item, read data = .value item → data = write item.1 ++ item.2)
    {n : Nat} {data : List UInt8} {items : { l : List α // l.length = n } × List UInt8}
    (hread : readMany read n data = .value items) :
    data = items.1.1.flatMap write ++ items.2 := by
  induction n generalizing data with
  | zero =>
      cases hread
      rfl
  | succ n ih =>
      obtain ⟨first, hfirst, hread⟩ := Outcome.bind_eq_value hread
      obtain ⟨rest, hrest, hread⟩ := Outcome.bind_eq_value hread
      cases hread
      rw [h data first hfirst, ih hrest]
      exact (List.append_assoc _ _ _).symm

theorem readOffset_value
    {data : List UInt8} {item : Nat × List UInt8}
    (h : readOffset data = .value item) :
    data = LittleEndian.encode 2 item.1 ++ item.2 := by
  unfold readOffset at h
  split_ifs at h with hshort
  cases h
  have hlen : (data.take 2).length = 2 := List.length_take_of_le (by omega)
  have hencode := LittleEndian.encode_decode (data.take 2)
  rw [hlen] at hencode
  rw [hencode, List.take_append_drop]

theorem readState_value
    {data : List UInt8} {item : ValueBatchState × List UInt8}
    (h : readState data = .value item) :
    data = [item.1.toByte] ++ item.2 := by
  cases data with
  | nil =>
      cases h
  | cons byte data =>
      cases hstate : ValueBatchState.ofByte byte with
      | none =>
          rw [readState, hstate] at h
          cases h
      | some state =>
          rw [readState, hstate] at h
          cases h
          have hbyte := List.find?_some hstate
          rw [eq_of_beq hbyte]
          rfl

/-- A page that was read would be written as it is. -/
theorem encode_ofFile
    [BitPacking]
    {file : PageFile} {isSealed : Bool} {p : IndexPage}
    (h : ofFile file isSealed = .value p) :
    p.encode = file := by
  obtain ⟨offsets, hoffsets, h⟩ := Outcome.bind_eq_value h
  obtain ⟨batches, hbatches, h⟩ := Outcome.bind_eq_value h
  cases h
  have hbody := readMany_value (LittleEndian.encode 2) (fun _ _ => readOffset_value) hoffsets
  have hrest := readMany_value (fun state : ValueBatchState => [state.toByte])
    (fun _ _ => readState_value) hbatches
  rw [hrest] at hbody
  obtain ⟨header, body⟩ := file
  refine congrArg (PageFile.mk header) ?_
  rw [pack_unpack]
  exact hbody.symm

end Rewrite

/-- A page with a single value: read back, its only batch has eight values, and the next one
begins seven bits later. -/
theorem single_bit_becomes_byte :
    let p := Runs.run step (new 1 1) [.expand 1]
    ∃ q, ofFile p.encode false = .value q ∧
      p.getBatchRange 1 = .value (0, 1) ∧ q.getBatchRange 1 = .value (0, 8) ∧
      p.allocations [1] = .value [some (1, 2)] ∧ q.allocations [1] = .value [some (8, 9)] ∧
      ¬ p.RoundTrips := by
  refine ⟨_, rfl, rfl, rfl, rfl, rfl, ?_⟩
  rintro ⟨q, hq, hagrees⟩
  cases hq
  cases hagrees.entries

end IndexPage
end Values
end LsmStore
