import LsmStore.Values.Growth

/-!
# Values in use

Somebody outside the value log refers to values and marks only those it has
stopped to refer to.  Then the files of the batches with values in use stay.

The index counts the bits of a batch by value and clears them by byte offset.
Offsets are multiples of eight, so the second bit of a batch is never cleared: a
batch whose bits are all cleared has at most one value, and that one has been
marked.
-/

namespace LsmStore
namespace Values

/-- A value the index has not given up: its batch has been made, and its bit is not cleared. -/
structure Alive (s : ValueLog) (vid : ValueId) : Prop where
  made : vid.1 < s.metadata.nextBatch
  aligned : vid.2 % 8 = 0
  bits : ∀ bits, s.pages.bitsOf vid.1 = some bits →
    bits ≠ [] ∧ (bits.length = 1 → vid.2 = 0) ∧ bits[vid.2]? ≠ some false

/-- The values in use are alive, and only offsets of values have been cleared. -/
structure Tracks (s : ValueLog) (used : ValueId → Prop) : Prop where
  ok : s.pages.Ok
  alive : ∀ vid, used vid → Alive s vid
  cleared : ∀ batchId bits, s.pages.bitsOf batchId = some bits →
    ∀ r : Nat, bits[r]? = some false → r % 8 = 0

section Tracking

variable {s s' : ValueLog} {used : ValueId → Prop}

theorem Tracks.mono
    {used' : ValueId → Prop}
    (h : Tracks s used)
    (hsub : ∀ vid, used' vid → used vid) :
    Tracks s used' :=
  ⟨h.ok, fun vid hvid => h.alive vid (hsub vid hvid), h.cleared⟩

theorem tracks_new
    [BitPacking]
    (hnone : ∀ vid, ¬ used vid) :
    Tracks ValueLog.new used := by
  obtain ⟨hok, -, hbits⟩ := ok_new
  refine ⟨hok, fun vid hvid => absurd hvid (hnone vid), ?_⟩
  intro batchId bits hbatch
  rw [hbits] at hbatch
  cases hbatch

/-- Values are marked that are not in use. -/
theorem Tracks.fades
    {marks : ValueId → Prop}
    (h : Tracks s used)
    (hfades : Fades marks s s')
    (hmarks : ∀ vid, marks vid → ¬ used vid ∧ vid.2 % 8 = 0) :
    Tracks s' used where
  ok := hfades.pages.ok
  alive := by
    intro vid hvid
    have halive := h.alive vid hvid
    refine ⟨by rw [hfades.nextBatch]; exact halive.made, halive.aligned, ?_⟩
    intro bits' hbits'
    obtain ⟨bits, hbits, hlength, hcleared⟩ := hfades.pages.bits vid.1 bits' hbits'
    obtain ⟨hne, hone, hset⟩ := halive.bits bits hbits
    refine ⟨?_, fun hlen => hone (hlength ▸ hlen), ?_⟩
    · rw [← List.length_pos_iff] at hne ⊢
      omega
    · intro hfalse
      rcases hcleared vid.2 hfalse with hold | hmark
      · exact hset hold
      · exact (hmarks vid hmark).1 hvid
  cleared := by
    intro batchId bits' hbits' r hr
    obtain ⟨bits, hbits, -, hcleared⟩ := hfades.pages.bits batchId bits' hbits'
    rcases hcleared r hr with hold | hmark
    · exact h.cleared batchId bits hbits r hold
    · exact (hmarks _ hmark).2

/-- **The file of a value in use stays.** -/
theorem Tracks.file_stays
    {marks : ValueId → Prop} {vid : ValueId}
    (h : Tracks s used)
    (hfades : Fades marks s s')
    (hmarks : ∀ vid, marks vid → ¬ used vid ∧ vid.2 % 8 = 0)
    (hvid : used vid) :
    s'.batchFiles vid.1 = s.batchFiles vid.1 := by
  rcases hfades.files vid.1 with hsame | ⟨-, bits, hbits, hall⟩
  · exact hsame
  · exfalso
    obtain ⟨hne, hone, hset⟩ := (h.alive vid hvid).bits bits hbits
    have hpos := List.length_pos_iff.mpr hne
    by_cases hlen : bits.length = 1
    · -- the only value of the batch is the one in use
      have hzero := hone hlen
      rcases hall 0 (by omega) with hfalse | hmark
      · rw [hzero] at hset
        exact hset hfalse
      · rw [← hzero] at hmark
        exact (hmarks vid hmark).1 hvid
    · -- no value begins at the first byte
      rcases hall 1 (by omega) with hfalse | hmark
      · have := h.cleared vid.1 bits hbits 1 hfalse
        omega
      · have := (hmarks _ hmark).2
        dsimp only at this
        omega

theorem Tracks.grows
    {n : Nat}
    (h : Tracks s used)
    (hgrows : Grows n s s') :
    Tracks s' used where
  ok := hgrows.pages.ok
  alive := by
    intro vid hvid
    have halive := h.alive vid hvid
    refine ⟨by rw [hgrows.nextBatch]; exact Nat.lt_succ_of_lt halive.made, halive.aligned, ?_⟩
    intro bits hbits
    rcases hgrows.pages.bits vid.1 bits hbits with hold | ⟨hnew, -⟩
    · exact halive.bits bits hold
    · exact absurd hnew (Nat.ne_of_lt halive.made)
  cleared := by
    intro batchId bits hbits r hr
    rcases hgrows.pages.bits batchId bits hbits with hold | ⟨-, rfl⟩
    · exact h.cleared batchId bits hold r hr
    · rw [List.getElem?_replicate] at hr
      split_ifs at hr
      cases hr

theorem Tracks.file_stays_grows
    {n : Nat} {vid : ValueId}
    (h : Tracks s used)
    (hgrows : Grows n s s')
    (hvid : used vid) :
    s'.batchFiles vid.1 = s.batchFiles vid.1 :=
  hgrows.files vid.1 (Nat.ne_of_lt (h.alive vid hvid).made)

end Tracking

/-! ## The values of a new batch -/

section Write

variable {s s' : ValueLog} {used : ValueId → Prop} {entries : List (Key × Value)}

/-- The next batch has no bits yet. -/
theorem Pages.Ends.bitsOf_eq_none
    {pages : Pages} {nextBatch : Nat}
    (h : pages.Ends nextBatch)
    (hok : pages.Ok) :
    pages.bitsOf nextBatch = none := by
  cases hlast : pages.getLast? with
  | none =>
      rw [List.getLast?_eq_none_iff.mp hlast]
      rfl
  | some entry =>
      obtain ⟨key, page⟩ := entry
      have hnext : key + page.offsets.length = nextBatch := (h.last _ hlast).1
      have hstart : key = page.header.startBatch := (hok.page _ (List.mem_of_getLast? hlast)).1
      rw [Pages.bitsOf, Pages.findPageIdx_last h.sorted hlast (by omega), Option.bind_some,
        ← List.getLast?_eq_getElem?, hlast, Option.bind_some]
      dsimp only
      rw [IndexPage.bitsOf, if_neg (by omega), Segments.segmentAt_eq_none (by omega)]

/-- Every value takes at least a word. -/
theorem exists_le_mem_valueOffsets
    {entries : List (Key × Value)}
    (h : entries ≠ [])
    (length : Nat) :
    ∃ offset ∈ valueOffsets length entries, length + 8 * (entries.length - 1) ≤ offset := by
  induction entries generalizing length with
  | nil =>
      exact absurd rfl h
  | cons entry entries ih =>
      have hle := le_padOffset length
      cases entries with
      | nil =>
          exact ⟨padOffset length, List.mem_cons_self, by simpa using hle⟩
      | cons entry' entries =>
          obtain ⟨offset, hmem, hge⟩ := ih (List.cons_ne_nil _ _)
            (padOffset length + (8 + entry.1.len + entry.2.len))
          refine ⟨offset, List.mem_cons_of_mem _ hmem, ?_⟩
          simp only [List.length_cons] at hge ⊢
          omega

theorem u32_length_of_valueOffsets
    (h : ∀ offset ∈ valueOffsets 0 entries, offset < 2 ^ 32) :
    u32 entries.length = entries.length := by
  by_cases hnil : entries = []
  · rw [hnil]
    rfl
  · obtain ⟨offset, hmem, hge⟩ := exists_le_mem_valueOffsets hnil 0
    have hlt := h offset hmem
    exact u32_of_lt (by omega)

/-- A batch with one value has it at the beginning. -/
theorem eq_zero_of_mem_valueOffsets
    {offset : Nat}
    (hone : entries.length = 1)
    (h : offset ∈ valueOffsets 0 entries) :
    offset = 0 := by
  obtain ⟨entry, rfl⟩ := List.length_eq_one_iff.mp hone
  exact List.mem_singleton.mp h

/-- **The values of a new batch are in use from now on.** -/
theorem Tracks.writeBatch
    [BitPacking]
    {ids : List ValueId}
    (h : Tracks s used)
    (hends : s.pages.Ends s.metadata.nextBatch)
    (hfits : ∀ offset ∈ valueOffsets 0 entries, offset < 2 ^ 32)
    (hwrite : ValueLog.writeBatch entries s = (.value ids, s')) :
    Tracks s' fun vid => used vid ∨ vid ∈ ids := by
  have hgrows := grows_writeBatch h.ok hends entries
  rw [hwrite] at hgrows
  obtain ⟨-, hids, -⟩ := writeBatch_value h.ok hends hfits hwrite
  have hold := h.grows hgrows
  refine ⟨hold.ok, ?_, hold.cleared⟩
  rintro vid (hvid | hvid)
  · exact hold.alive vid hvid
  · rw [hids] at hvid
    obtain ⟨offset, hoffset, rfl⟩ := List.mem_map.mp hvid
    refine ⟨?_, (mem_valueOffsets hoffset).1, ?_⟩
    · rw [hgrows.nextBatch]
      exact Nat.lt_succ_self _
    · intro bits hbits
      rcases hgrows.pages.bits _ bits hbits with hbits | ⟨-, rfl⟩
      · rw [hends.bitsOf_eq_none h.ok] at hbits
        cases hbits
      · rw [u32_length_of_valueOffsets hfits]
        refine ⟨?_, ?_, ?_⟩
        · have hpos := List.length_pos_of_mem hoffset
          rw [length_valueOffsets] at hpos
          rw [← List.length_pos_iff, List.length_replicate]
          exact hpos
        · intro hlen
          rw [List.length_replicate] at hlen
          exact eq_zero_of_mem_valueOffsets hlen hoffset
        · rw [List.getElem?_replicate]
          split_ifs <;> simp

end Write

end Values
end LsmStore
