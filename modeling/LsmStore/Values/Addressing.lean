import LsmStore.Values.Growth

/-!
# How value identifiers address the index

The second part of a value identifier is the place of the value in the data of
its batch; the index takes it for the number of a bit of the batch.  Places are
multiples of eight, so only the first value of a batch is addressed by a bit of
its own.

First come the functions of a page, for a batch whose bits are known: where its
range is, how many values are active, and what marking a value does.
-/

namespace LsmStore
namespace Values

open Segments

/-! ## A batch of a page -/

namespace IndexPage

section Batch

variable {p : IndexPage} {batchId : Nat} {bits : List Bool}

/-- The bits of a batch are in its range, and the range is in the page. -/
theorem range_of_bitsOf
    (hcuts : Cuts p.offsets p.entries.length)
    (h : p.bitsOf batchId = some bits) :
    ∃ start, p.getBatchRange batchId = .value (start, start + bits.length) ∧
      start + bits.length ≤ p.entries.length ∧
      bits = (p.entries.drop start).take bits.length := by
  rw [bitsOf] at h
  split_ifs at h with hlt
  rw [segmentAt] at h
  obtain ⟨start, hstart, hseg⟩ := Option.map_eq_some_iff.mp h
  have hend : start ≤ segmentEnd p.offsets p.entries.length (batchId - p.header.startBatch) ∧
      segmentEnd p.offsets p.entries.length (batchId - p.header.startBatch) ≤
        p.entries.length := by
    cases hnext : p.offsets[batchId - p.header.startBatch + 1]? with
    | none =>
        rw [segmentEnd, hnext]
        exact ⟨hcuts.getElem?_le hstart, le_refl _⟩
    | some next =>
        obtain ⟨hi, hi'⟩ := List.getElem?_eq_some_iff.mp hstart
        obtain ⟨hj, hj'⟩ := List.getElem?_eq_some_iff.mp hnext
        have hle := List.pairwise_iff_getElem.mp hcuts.monotone _ _ hi hj (Nat.lt_succ_self _)
        rw [hi', hj'] at hle
        rw [segmentEnd, hnext]
        exact ⟨hle, hcuts.getElem?_le hnext⟩
  have hlength : bits.length =
      segmentEnd p.offsets p.entries.length (batchId - p.header.startBatch) - start := by
    rw [← hseg, List.length_take, List.length_drop]
    omega
  refine ⟨start, ?_, by omega, ?_⟩
  · rw [getBatchRange, if_neg hlt]
    dsimp only
    rw [hstart, hlength, Nat.add_sub_cancel' hend.1]
    rfl
  · rw [hlength]
    exact hseg.symm

theorem slice_of_range
    {start : Nat}
    (hle : start + bits.length ≤ p.entries.length)
    (hbits : bits = (p.entries.drop start).take bits.length) :
    p.slice start (start + bits.length) = .value bits := by
  rw [slice, if_pos ⟨Nat.le_add_right _ _, hle⟩, Nat.add_sub_cancel_left, ← hbits]

theorem WellCut.countActiveEntries_eq
    (hcut : p.WellCut)
    (h : p.bitsOf batchId = some bits) :
    p.countActiveEntries batchId = .value (bits.count true) := by
  obtain ⟨start, hrange, hle, hbits⟩ := range_of_bitsOf hcut.cuts h
  rw [countActiveEntries, hrange, Outcome.value_bind]
  dsimp only
  rw [if_neg (by omega), Nat.add_sub_cancel_left, ← hbits]

/-- A bit that is set can be marked. -/
theorem WellCut.markValueAsDeleted_eq
    {start r : Nat}
    (hcut : p.WellCut)
    (hrange : p.getBatchRange batchId = .value (start, start + bits.length))
    (hle : start + bits.length ≤ p.entries.length)
    (hbits : bits = (p.entries.drop start).take bits.length)
    (hr : bits[r]? = some true) :
    p.markValueAsDeleted (batchId, r) = .value (start + r,
      { p with entries := p.entries.set (start + r) false, dirty := true }) := by
  have hlt := (List.getElem?_eq_some_iff.mp hr).1
  have hshort := hcut.short
  rw [maxPageSize] at hshort
  rw [markValueAsDeleted, hrange, Outcome.value_bind, slice_of_range hle hbits,
    Outcome.value_bind]
  dsimp only
  rw [hr]
  dsimp only
  rw [u16_eq (by omega), u16_eq (by omega)]

/-- A value that can be marked has a bit. -/
theorem WellCut.bit_of_markValueAsDeleted
    {r : Nat} {marked : Nat × IndexPage}
    (hcut : p.WellCut)
    (h : p.bitsOf batchId = some bits)
    (hmarked : p.markValueAsDeleted (batchId, r) = .value marked) :
    bits[r]? = some true := by
  obtain ⟨start, hrange, hle, hbits⟩ := range_of_bitsOf hcut.cuts h
  rw [markValueAsDeleted, hrange, Outcome.value_bind, slice_of_range hle hbits,
    Outcome.value_bind] at hmarked
  dsimp only at hmarked
  split at hmarked
  · cases hmarked
  · cases hmarked
  · assumption

end Batch

/-! ## Marking several values -/

/-- Mark some values, one after the other; returns their places in the page. -/
def markValuesAsDeleted : IndexPage → List ValueId → Outcome (List Nat × IndexPage)
  | p, [] => .value ([], p)
  | p, vid :: vids => do
      let marked ← p.markValueAsDeleted vid
      let rest ← marked.2.markValuesAsDeleted vids
      .value (marked.1 :: rest.1, rest.2)

/-- The identifiers address the bits of the batch: any of them can be marked in any order, each
has a bit of its own in the range of the batch, and the count of active values goes down by
one for each. -/
structure Addresses (p : IndexPage) (batchId : Nat) (ids : List ValueId) : Prop where
  distinct : ids.Nodup
  marks : ∀ marked : List ValueId, marked.Nodup → marked ⊆ ids →
    ∃ range places p', p.getBatchRange batchId = .value range ∧
      p.markValuesAsDeleted marked = .value (places, p') ∧ places.Nodup ∧
      (∀ place ∈ places, range.1 ≤ place ∧ place < range.2) ∧
      (∀ j : Nat, p'.entries[j]? = if j ∈ places then some false else p.entries[j]?) ∧
      p'.countActiveEntries batchId = .value (ids.length - marked.length)

section Marking

variable {p : IndexPage} {batchId : Nat} {bits : List Bool}

theorem count_set_false
    {r : Nat}
    (h : bits[r]? = some true) :
    (bits.set r false).count true + 1 = bits.count true := by
  obtain ⟨hr, hbit⟩ := List.getElem?_eq_some_iff.mp h
  have hpos : 0 < bits.count true := List.count_pos_iff.mpr (List.mem_of_getElem? h)
  rw [List.count_set hr, hbit]
  simp only [beq_self_eq_true, if_true, Bool.false_eq_true, beq_iff_eq, if_false]
  omega

/-- **Marking values that have a bit.** -/
theorem WellCut.markValuesAsDeleted_eq
    {start : Nat} {marked : List ValueId}
    (hcut : p.WellCut)
    (h : p.bitsOf batchId = some bits)
    (hrange : p.getBatchRange batchId = .value (start, start + bits.length))
    (hnodup : marked.Nodup)
    (hmarked : ∀ vid ∈ marked, vid.1 = batchId ∧ bits[vid.2]? = some true) :
    ∃ p', p.markValuesAsDeleted marked = .value (marked.map fun vid => start + vid.2, p') ∧
      (∀ j : Nat, p'.entries[j]? =
        if j ∈ marked.map (fun vid => start + vid.2) then some false else p.entries[j]?) ∧
      p'.countActiveEntries batchId = .value (bits.count true - marked.length) := by
  induction marked generalizing p bits with
  | nil =>
      refine ⟨p, rfl, fun j => ?_, hcut.countActiveEntries_eq h⟩
      rw [if_neg (by exact List.not_mem_nil)]
  | cons vid marked ih =>
      obtain ⟨batch, r⟩ := vid
      obtain ⟨hbatch, hbit⟩ := hmarked _ List.mem_cons_self
      obtain rfl : batch = batchId := hbatch
      obtain ⟨start', hrange', hle, hbits⟩ := range_of_bitsOf hcut.cuts h
      obtain rfl : start' = start := by
        rw [hrange] at hrange'
        exact (congrArg Prod.fst (Outcome.value.inj hrange')).symm
      have hmark := hcut.markValueAsDeleted_eq hrange hle hbits hbit
      obtain ⟨hcut', -, -, bits', hbits', hset⟩ := bitsOf_markValueAsDeleted hcut hmark
      obtain rfl : bits' = bits := by
        rw [h] at hbits'
        exact (Option.some.inj hbits').symm
      have hset' := (hset batch).trans (if_pos rfl)
      have hfresh : (batch, r) ∉ marked := (List.nodup_cons.mp hnodup).1
      obtain ⟨p', hrest, hentries, hcount⟩ := ih hcut' hset'
        (by rw [List.length_set, ← hrange]; unfold getBatchRange; simp only [List.length_set])
        (List.nodup_cons.mp hnodup).2 (by
          intro vid hvid
          obtain ⟨hbatch, hbit'⟩ := hmarked vid (List.mem_cons_of_mem _ hvid)
          refine ⟨hbatch, ?_⟩
          rw [List.getElem?_set_ne]
          · exact hbit'
          · rintro rfl
            exact hfresh (hbatch ▸ hvid))
      refine ⟨p', ?_, ?_, ?_⟩
      · rw [markValuesAsDeleted, hmark, Outcome.value_bind, hrest, Outcome.value_bind]
        rfl
      · intro j
        rw [hentries j, List.map_cons]
        by_cases hj : j ∈ marked.map fun vid => start' + vid.2
        · rw [if_pos hj, if_pos (List.mem_cons_of_mem _ hj)]
        · rw [if_neg hj]
          dsimp only
          by_cases hown : j = start' + r
          · subst hown
            have hlt := (List.getElem?_eq_some_iff.mp hbit).1
            rw [if_pos List.mem_cons_self, List.getElem?_set_self (by omega)]
          · rw [if_neg (by rw [List.mem_cons, not_or]; exact ⟨hown, hj⟩),
              List.getElem?_set_ne (Ne.symm hown)]
      · have hone := count_set_false hbit
        rw [hcount, List.length_cons]
        dsimp only
        rw [← hone, Nat.add_sub_add_right]

/-- Numbers below the number of bits address a new batch. -/
theorem WellCut.addresses_of_lt
    {offsets : List Nat}
    (hcut : p.WellCut)
    (h : p.bitsOf batchId = some (List.replicate offsets.length true))
    (hnodup : offsets.Nodup)
    (hlt : ∀ offset ∈ offsets, offset < offsets.length) :
    p.Addresses batchId (offsets.map fun offset => (batchId, offset)) where
  distinct := hnodup.map fun a b hab => (Prod.mk.inj hab).2
  marks := by
    intro marked hmarked hsub
    obtain ⟨start, hrange, hle, -⟩ := range_of_bitsOf hcut.cuts h
    have hbit : ∀ vid ∈ marked, vid.1 = batchId ∧
        (List.replicate offsets.length true)[vid.2]? = some true := by
      intro vid hvid
      obtain ⟨offset, hoffset, rfl⟩ := List.mem_map.mp (hsub hvid)
      exact ⟨rfl, by rw [List.getElem?_replicate, if_pos (hlt offset hoffset)]⟩
    obtain ⟨p', hrun, hentries, hcount⟩ := hcut.markValuesAsDeleted_eq h hrange hmarked hbit
    refine ⟨_, _, p', hrange, hrun, ?_, ?_, hentries, ?_⟩
    · refine hmarked.map_on fun vid hvid vid' hvid' heq => ?_
      exact Prod.ext ((hbit vid hvid).1.trans (hbit vid' hvid').1.symm) (Nat.add_left_cancel heq)
    · intro place hplace
      obtain ⟨vid, hvid, rfl⟩ := List.mem_map.mp hplace
      have := (List.getElem?_eq_some_iff.mp (hbit vid hvid).2).1
      dsimp only
      omega
    · rw [hcount, List.count_replicate_self, List.length_map]

/-- Every identifier that addresses a bit has a number below the number of bits. -/
theorem Addresses.lt_length
    {ids : List ValueId} {r : Nat}
    (haddresses : p.Addresses batchId ids)
    (hcut : p.WellCut)
    (h : p.bitsOf batchId = some bits)
    (hvid : (batchId, r) ∈ ids) :
    r < bits.length := by
  obtain ⟨-, places, p', -, hrun, -⟩ := haddresses.marks [(batchId, r)] (List.nodup_singleton _)
    (List.cons_subset.mpr ⟨hvid, List.nil_subset _⟩)
  obtain ⟨marked, hmarked, -⟩ := Outcome.bind_eq_value hrun
  exact (List.getElem?_eq_some_iff.mp (hcut.bit_of_markValueAsDeleted h hmarked)).1

end Marking
end IndexPage

/-! ## Batches and the index -/

/-- If there are as many different numbers as there are bits, every bit has a number. -/
theorem mem_of_nodup_of_lt
    {numbers : List Nat} {r : Nat}
    (hnodup : numbers.Nodup)
    (hlt : ∀ number ∈ numbers, number < numbers.length)
    (hr : r < numbers.length) :
    r ∈ numbers := by
  have hsub : numbers ⊆ List.range numbers.length := fun number hnumber =>
    List.mem_range.mpr (hlt number hnumber)
  have hperm := (List.subperm_of_subset hnodup hsub).perm_of_length_le (by rw [List.length_range])
  exact hperm.mem_iff.mpr (List.mem_range.mpr hr)

/-- The page that has the bits of a batch. -/
theorem Pages.page_of_bitsOf
    {pages : Pages} {batchId : Nat} {bits : List Bool}
    (h : pages.bitsOf batchId = some bits) :
    ∃ idx entry, pages.findPageIdx batchId = some idx ∧ pages[idx]? = some entry ∧
      entry.2.bitsOf batchId = some bits := by
  obtain ⟨idx, hidx, h⟩ := Option.bind_eq_some_iff.mp h
  obtain ⟨entry, hentry, h⟩ := Option.bind_eq_some_iff.mp h
  exact ⟨idx, entry, hidx, hentry, h⟩

/-- **The identifiers of a finished batch address its bits** if and only if the batch has at most
one value. -/
theorem value_ids_address_bits_iff
    [BitPacking]
    {s s' : ValueLog} {entries : List (Key × Value)} {ids : List ValueId}
    (hok : s.pages.Ok)
    (hends : s.pages.Ends s.metadata.nextBatch)
    (hwrite : ValueLog.writeBatch entries s = (.value ids, s')) :
    ∃ idx page, s'.pages.findPageIdx s.metadata.nextBatch = some idx ∧
      s'.pages.pageAt idx = .value page ∧
      (page.Addresses s.metadata.nextBatch ids ↔ entries.length ≤ 1) := by
  obtain ⟨built, hbuilt, -, rfl, -, hok', -, hbits⟩ := writeBatch_finished hok hends hwrite
  obtain ⟨idx, ⟨key, page⟩, hidx, hpage, hbits⟩ := Pages.page_of_bitsOf hbits
  have hcut := (hok'.page _ (List.mem_of_getElem? hpage)).2
  have hids : built.1 = (valueOffsets 0 entries).map fun offset =>
      (s.metadata.nextBatch, u32 offset) := ValueBatchBuilder.addEntries_ids hbuilt
  refine ⟨idx, page, hidx, by rw [Pages.pageAt, hpage], ?_, ?_⟩
  · intro haddresses
    by_contra hmany
    have hnumbers : built.1 = ((valueOffsets 0 entries).map u32).map
        fun number => (s.metadata.nextBatch, number) := by
      rw [hids, List.map_map]
      rfl
    have hlength : ((valueOffsets 0 entries).map u32).length = entries.length := by
      rw [List.length_map, length_valueOffsets]
    have hnodup : ((valueOffsets 0 entries).map u32).Nodup := by
      have := haddresses.distinct
      rw [hnumbers] at this
      exact this.of_map
    -- a bit for every value means that some value is at the first byte
    have hone : 1 ∈ (valueOffsets 0 entries).map u32 := by
      refine mem_of_nodup_of_lt hnodup (fun number hnumber => ?_) (by omega)
      have hlt := haddresses.lt_length hcut hbits
        (hnumbers ▸ List.mem_map_of_mem hnumber)
      have hle : u32 entries.length ≤ entries.length := Nat.mod_le _ _
      rw [List.length_replicate] at hlt
      omega
    obtain ⟨offset, hoffset, hcut32⟩ := List.mem_map.mp hone
    have hmod := (mem_valueOffsets hoffset).1
    rw [u32] at hcut32
    omega
  · intro hfew
    have hbounds : ∀ offset ∈ valueOffsets 0 entries, offset = 0 := by
      intro offset hoffset
      cases entries with
      | nil =>
          cases hoffset
      | cons entry rest =>
          obtain rfl : rest = [] := List.length_eq_zero_iff.mp (by simpa using hfew)
          exact List.mem_singleton.mp hoffset
    have hu32 : u32 entries.length = (valueOffsets 0 entries).length := by
      rw [length_valueOffsets]
      exact u32_of_lt (by omega)
    rw [hu32] at hbits
    have haddresses := hcut.addresses_of_lt hbits (nodup_valueOffsets 0 entries)
      (fun offset hoffset => by
        rw [hbounds offset hoffset]
        exact List.length_pos_of_mem hoffset)
    rw [hids, List.map_congr_left fun offset hoffset => by rw [hbounds offset hoffset]; rfl]
    exact haddresses

def singleEntry : List (Key × Value) :=
  [(ByteVec.ofList [1], ByteVec.ofList [7])]

theorem value_ids_address_bits_single :
    ∃ ids s', ValueLog.writeBatch singleEntry ValueLog.new = (.value ids, s') ∧
      ∃ page, s'.pages.pageAt 0 = .value page ∧ page.Addresses 1 ids := by
  obtain ⟨hok, hends, -⟩ := ok_new
  have hwrite : ValueLog.writeBatch singleEntry ValueLog.new =
      (.value [(1, 0)], (ValueLog.writeBatch singleEntry ValueLog.new).2) := rfl
  obtain ⟨idx, page, hidx, hpage, hiff⟩ := value_ids_address_bits_iff hok hends hwrite
  cases hidx
  exact ⟨_, _, hwrite, page, hpage, hiff.mpr (le_refl 1)⟩

def twoEntries : List (Key × Value) :=
  [(ByteVec.ofList [1], ByteVec.ofList [7]), (ByteVec.ofList [2], ByteVec.ofList [8])]

/-- Of two small values, the second is at byte 16, but there are two bits only. -/
theorem second_value_not_addressed :
    ∃ s' page, ValueLog.writeBatch twoEntries ValueLog.new = (.value [(1, 0), (1, 16)], s') ∧
      s'.pages.pageAt 0 = .value page ∧
      page.markValueAsDeleted (1, 16) = .panic "Entry index out of range" ∧
      ¬ page.Addresses 1 [(1, 0), (1, 16)] := by
  refine ⟨(ValueLog.writeBatch twoEntries ValueLog.new).2, _, rfl, rfl, rfl, ?_⟩
  intro haddresses
  obtain ⟨-, places, p', -, hrun, -⟩ := haddresses.marks [(1, 16)] (List.nodup_singleton _)
    (by decide)
  cases hrun

end Values
end LsmStore
