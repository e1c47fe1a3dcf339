import LsmStore.Lib.Runs
import LsmStore.Values.DeletionCalls

/-!
# The deletion of a value

`mark_value_deleted` clears the bit of a value and then looks for a batch to
remove or to compact.  It does so with the number of the index page in the place
of the number of the batch, and the share of values that are still active, a
quotient of whole numbers, is at most one and never reaches the limit of 25.  So
a deletion does what it should only if it is the last one of its batch, and the
page happens to have the number of the batch.

What a deletion should do is said apart from the code, for a value index with any
pages; the batch files may hold any entries.
-/

namespace LsmStore
namespace Values

open SortedAssoc Segments

/-! ## What a deletion should do -/

/-- The bit of the value is set. -/
def Pages.Active (pages : Pages) (vid : ValueId) : Prop :=
  ∃ bits, pages.bitsOf vid.1 = some bits ∧ bits[vid.2]? = some true

/-- What should be inserted again: the active entries of a batch, if less than a quarter of all
its entries is active. -/
def sparseEntries (entries : List (Key × Value)) (bits : List Bool) : List (Key × Value) :=
  if 4 * bits.count true < entries.length then activeEntries entries bits else []

namespace ValueLog

/-- Every batch of the index that is not deleted has its file, with one value for every bit.
The last batch of a page that was read back may have more bits. -/
def Filed (s : ValueLog) (contents : Nat → List (Key × Value)) : Prop :=
  ∀ batchId bits, s.pages.bitsOf batchId = some bits → s.pages.stateOf batchId ≠ some .deleted →
    (contents batchId).length ≤ bits.length ∧
      ∃ built, (ValueBatchBuilder.new batchId).addEntries (contents batchId) = .value built ∧
        s.batchFiles batchId = some ⟨built.2.data⟩

/-- What the deletion of a value should leave behind and return. -/
structure Deletes (s : ValueLog) (contents : Nat → List (Key × Value)) (vid : ValueId)
    (result : Outcome (List (Key × Value)) × ValueLog) : Prop where
  active : ∀ other, result.2.pages.Active other ↔ s.pages.Active other ∧ other ≠ vid
  removed : (∀ r, ¬ result.2.pages.Active (vid.1, r)) → result.2.batchFiles vid.1 = none
  kept : (∃ r, result.2.pages.Active (vid.1, r)) →
    result.2.batchFiles vid.1 = s.batchFiles vid.1
  entries : ∀ bits, s.pages.bitsOf vid.1 = some bits →
    result.1 = .value (sparseEntries (contents vid.1) (bits.set vid.2 false))
  others : ∀ batchId, batchId ≠ vid.1 → result.2.batchFiles batchId = s.batchFiles batchId ∧
    result.2.pages.stateOf batchId = s.pages.stateOf batchId

/-- The deletion does what it should, whatever the batch files hold. -/
def DeletesRightly (s : ValueLog) (vid : ValueId) : Prop :=
  ∀ contents files, Filed { s with batchFiles := files } contents →
    Deletes { s with batchFiles := files } contents vid
      (markValueDeleted vid { s with batchFiles := files })

/-- The value is the last active one of a batch that is not deleted and whose page has the
number of the batch.  The page is not dropped with the value, and the minimum batch can
advance if it has to. -/
def ClosesBatch (s : ValueLog) (vid : ValueId) : Prop :=
  ∃ idx entry bits, s.pages.findPageIdx vid.1 = some idx ∧ s.pages[idx]? = some entry ∧
    entry.2.getIdentifier = vid.1 ∧ entry.2.bitsOf vid.1 = some bits ∧ bits.count true = 1 ∧
    s.pages.stateOf vid.1 ≠ some .deleted ∧
    ¬ (idx = 0 ∧ entry.2.isSealed = true ∧ entry.2.entries.count true = 1) ∧
    (max s.metadata.minimumBatch minValueBatchId < vid.1 ∨
      s.metadata.minimumBatch < max vid.1 (s.metadata.nextBatch - 1))

end ValueLog

/-! ## The last value of a batch -/

namespace Pages

section Active

variable {pages pages' : Pages} {vid : ValueId} {bits : List Bool}

/-- One bit is cleared. -/
theorem active_of_bitsOf
    (hbits : pages.bitsOf vid.1 = some bits)
    (h : ∀ batchId, pages'.bitsOf batchId =
      if batchId = vid.1 then some (bits.set vid.2 false) else pages.bitsOf batchId)
    (other : ValueId) :
    pages'.Active other ↔ pages.Active other ∧ other ≠ vid := by
  obtain ⟨batchId, r⟩ := other
  unfold Active
  rw [h]
  by_cases hbatch : batchId = vid.1
  · subst hbatch
    rw [if_pos rfl, hbits]
    constructor
    · rintro ⟨bits', hbits', hr⟩
      cases hbits'
      have hown : vid.2 ≠ r := by
        rintro rfl
        rw [List.getElem?_set] at hr
        simp at hr
      rw [List.getElem?_set_ne hown] at hr
      exact ⟨⟨bits, rfl, hr⟩, fun heq => hown (congrArg Prod.snd heq).symm⟩
    · rintro ⟨⟨bits', hbits', hr⟩, hne⟩
      cases hbits'
      refine ⟨_, rfl, ?_⟩
      rw [List.getElem?_set_ne]
      · exact hr
      · intro heq
        exact hne (Prod.ext rfl heq.symm)
  · rw [if_neg hbatch]
    refine ⟨fun hactive => ⟨hactive, ?_⟩, fun hactive => hactive.1⟩
    rintro rfl
    exact hbatch rfl

end Active

end Pages

namespace ValueLog

section Closing

variable {s : ValueLog} {vid : ValueId}

/-- What is left of the value log when a deletion has removed a batch. -/
structure BatchClosed (s : ValueLog) (vid : ValueId) (s' : ValueLog) : Prop where
  ok : s'.pages.Ok
  sized : s'.pages.Sized
  bits : ∀ bits, s.pages.bitsOf vid.1 = some bits → ∀ batchId, s'.pages.bitsOf batchId =
    if batchId = vid.1 then some (bits.set vid.2 false) else s.pages.bitsOf batchId
  files : s'.batchFiles = Function.update s.batchFiles vid.1 none
  deleted : s'.pages.stateOf vid.1 = some .deleted
  states : ∀ batchId, batchId ≠ vid.1 → s'.pages.stateOf batchId = s.pages.stateOf batchId

/-- **The deletion of the last value of a batch**, in a page with the number of the batch. -/
theorem ClosesBatch.run
    {batch : ValueBatch}
    (h : s.ClosesBatch vid)
    (hok : s.pages.Ok)
    (hsized : s.pages.Sized)
    (hactive : s.pages.Active vid)
    (hfile : s.batchFiles vid.1 = some batch) :
    ∃ s', markValueDeleted vid s = (.value [], s') ∧ s.BatchClosed vid s' := by
  obtain ⟨idx, ⟨key, page⟩, bits, hfound, hidx, hident, hown, hlast, hstate, hfirst, hmin⟩ := h
  obtain ⟨hkey, hcut⟩ := hok.page _ (List.mem_of_getElem? hidx)
  obtain ⟨bits', hbits, hbit⟩ := hactive
  obtain rfl : bits = bits' := by
    rw [Pages.bitsOf_of_found hfound hidx, hown] at hbits
    exact Option.some.inj hbits
  -- the index marks the value
  obtain ⟨start, hrange, hle, hslice⟩ := IndexPage.range_of_bitsOf hcut.cuts hown
  have hmarked := hcut.markValueAsDeleted_eq hrange hle hslice hbit
  generalize hmark : (start + vid.2, { page with
    entries := page.entries.set (start + vid.2) false, dirty := true }) = marked at hmarked
  have hdrops : dropsFirst idx marked.2 = false := by
    rw [← Bool.not_eq_true, dropsFirst_iff hmarked]
    exact hfirst
  have hrun := markValueAsDeleted_keeps hfound hidx hmarked hdrops
  obtain ⟨hcut', hheader, hoffsets, -⟩ := IndexPage.bitsOf_markValueAsDeleted hcut hmarked
  obtain ⟨bits', hbits', hset⟩ := Pages.bitsOf_mark hok hfound hidx hmarked
  obtain rfl : bits = bits' := by
    rw [hbits] at hbits'
    exact Option.some.inj hbits'
  -- the batch of the same number is removed
  let s₁ : ValueLog := { s.setPage idx marked.2 with
    deletions := s.deletions ++ [(page.getIdentifier, marked.1)] }
  have hok₁ : s₁.pages.Ok :=
    hok.setPage hidx (congrArg IndexPageHeader.startBatch hheader) hcut'
      (Or.inr fun hempty => hoffsets.trans hempty)
  have hsized₁ : s₁.pages.Sized := sized_setPage hsized hidx hoffsets
  have hstates₁ : ∀ batchId, s₁.pages.stateOf batchId = s.pages.stateOf batchId :=
    Pages.stateOf_mark hidx hmarked
  have hnone : (bits.set vid.2 false).count true = 0 := by
    have := IndexPage.count_set_false hbit
    omega
  obtain ⟨idx', key', page', s', hfound', hidx', hremove, hpages, hfiles⟩ :=
    tryToRemove_closes (s := s₁) hok₁ hsized₁ ((hset vid.1).trans (if_pos rfl)) hnone
      (by rw [hstates₁]; exact hstate) hfile hmin
  refine ⟨s', ?_, ?_⟩
  · rw [markValueDeleted, Call.bind_of_value hrun]
    change (tryToRemove page.getIdentifier >>= _ : Call ValueLog _) s₁ = _
    rw [hident, Call.bind_of_value hremove]
    rfl
  · have hlayouts : s'.pages.layouts = s₁.pages.layouts := by
      rw [hpages]
      exact Pages.layouts_setPage hidx' rfl
    have hown' : page'.bitsOf vid.1 = some (bits.set vid.2 false) := by
      rw [← Pages.bitsOf_of_found hfound' hidx']
      exact (hset vid.1).trans (if_pos rfl)
    obtain ⟨hle', -, old, hold⟩ := IndexPage.exists_stateOf hown'
    refine ⟨hok₁.of_layouts_eq hlayouts, ?_, ?_, hfiles, ?_, ?_⟩
    · rw [hpages]
      exact sized_setPage hsized₁ hidx' rfl
    · intro bits' hbits' batchId
      obtain rfl : bits = bits' := by
        rw [hbits] at hbits'
        exact Option.some.inj hbits'
      rw [Pages.bitsOf_of_layouts_eq hlayouts]
      exact hset batchId
    · rw [hpages, Pages.stateOf_setPage hidx', if_pos hfound']
      exact IndexPage.stateOf_setState_self hold .deleted
    · intro batchId hne
      rw [hpages, Pages.stateOf_setPage hidx', ← hstates₁]
      split_ifs with hfound''
      · rw [IndexPage.stateOf_setState hle' _ _ hne, Pages.stateOf_of_found hfound'' hidx']
      · rfl

/-- The deletion does what it should. -/
theorem ClosesBatch.deletes
    {contents : Nat → List (Key × Value)}
    (h : s.ClosesBatch vid)
    (hok : s.pages.Ok)
    (hsized : s.pages.Sized)
    (hactive : s.pages.Active vid)
    (hfiled : s.Filed contents) :
    s.Deletes contents vid (markValueDeleted vid s) := by
  obtain ⟨bits, hbits, hbit⟩ := hactive
  have hlast : bits.count true = 1 ∧ s.pages.stateOf vid.1 ≠ some .deleted := by
    obtain ⟨idx, ⟨key, page⟩, bits', hfound, hidx, -, hown, hlast, hstate, -⟩ := h
    rw [Pages.bitsOf_of_found hfound hidx, hown] at hbits
    cases hbits
    exact ⟨hlast, hstate⟩
  obtain ⟨-, built, -, hfile⟩ := hfiled _ _ hbits hlast.2
  obtain ⟨s', hrun, hclosed⟩ := h.run hok hsized ⟨bits, hbits, hbit⟩ hfile
  have hnone : (bits.set vid.2 false).count true = 0 := by
    have := IndexPage.count_set_false hbit
    omega
  have hcleared : ∀ r, ¬ s'.pages.Active (vid.1, r) := by
    rintro r ⟨bits', hbits', hr⟩
    rw [hclosed.bits bits hbits, if_pos rfl] at hbits'
    cases hbits'
    exact List.count_eq_zero.mp hnone (List.mem_of_getElem? hr)
  rw [hrun]
  refine ⟨Pages.active_of_bitsOf hbits (hclosed.bits bits hbits), fun _ => ?_, ?_, ?_, ?_⟩
  · rw [hclosed.files]
    exact Function.update_self _ _ _
  · rintro ⟨r, hr⟩
    exact absurd hr (hcleared r)
  · intro bits' hbits'
    rw [hbits] at hbits'
    cases hbits'
    have hinactive : ∀ bit ∈ bits.set vid.2 false, bit = false := by
      intro bit hmem
      by_contra hne
      rw [Bool.eq_true_of_not_eq_false hne] at hmem
      exact List.count_eq_zero.mp hnone hmem
    rw [sparseEntries, activeEntries_of_inactive hinactive, ite_self]
  · intro batchId hne
    rw [hclosed.files]
    exact ⟨Function.update_of_ne hne _ _, hclosed.states batchId hne⟩

end Closing

end ValueLog

/-! ## Files with nothing in their entries -/

def blankEntries (n : Nat) : List (Key × Value) :=
  List.replicate n (ByteVec.ofList [], ByteVec.ofList [])

/-- The file of a batch with empty keys and values. -/
def blankBatch (n : Nat) : ValueBatch where
  data := LittleEndian.encode 4 (u32 n) ++ List.replicate (8 * n) 0

section Blank

theorem valueData_blankEntries
    {b : ValueBatchBuilder} {built : List ValueId × ValueBatchBuilder} {m n : Nat}
    (hdata : b.valueData = List.replicate (8 * m) 0)
    (h : b.addEntries (blankEntries n) = .value built) :
    built.2.valueData = List.replicate (8 * (m + n)) 0 := by
  induction n generalizing b built m with
  | zero =>
      cases h
      exact hdata
  | succ n ih =>
      rw [blankEntries, List.replicate_succ] at h
      obtain ⟨first, hfirst, h⟩ := Outcome.bind_eq_value h
      obtain ⟨rest, hrest, h⟩ := Outcome.bind_eq_value h
      cases h
      obtain ⟨-, -, -, -, hfirstData⟩ := ValueBatchBuilder.addEntry_value hfirst
      have hpadding : computePadding (8 * m) = 0 := by
        rw [computePadding, wordSize, if_pos (by omega)]
      have hentry : entryBytes (ByteVec.ofList []) (ByteVec.ofList []) = List.replicate 8 0 := by
        decide
      rw [hdata, List.length_replicate, hpadding, hentry] at hfirstData
      have hfirst' : first.2.valueData = List.replicate (8 * (m + 1)) 0 := by
        rw [hfirstData, List.replicate_zero, List.nil_append, List.replicate_append_replicate]
        rfl
      rw [ih hfirst' hrest]
      congr 1
      omega

/-- The file of a batch with empty keys and values is built from them. -/
theorem addEntries_blankEntries
    (batchId n : Nat) :
    ∃ built, (ValueBatchBuilder.new batchId).addEntries (blankEntries n) = .value built ∧
      ValueBatch.mk built.2.data = blankBatch n := by
  have hshort : ¬ TooLong (blankEntries n) := by
    rintro ⟨entry, hentry, hlong⟩
    rw [List.eq_of_mem_replicate hentry] at hlong
    rcases hlong with hlong | hlong <;> exact absurd hlong (by decide)
  obtain ⟨built, hbuilt, hlength⟩ :=
    ValueBatchBuilder.addEntries_value hshort (ValueBatchBuilder.new batchId)
  have hdata : built.2.valueData = List.replicate (8 * (0 + n)) 0 :=
    valueData_blankEntries rfl hbuilt
  rw [blankEntries, List.length_replicate] at hlength
  change built.2.offsets.length = 0 + n at hlength
  rw [Nat.zero_add] at hdata hlength
  exact ⟨built, hbuilt, by rw [ValueBatchBuilder.data, hdata, hlength, blankBatch]⟩

theorem decode_replicate_zero
    (n : Nat) :
    LittleEndian.decode (List.replicate n 0) = 0 := by
  induction n with
  | zero =>
      rfl
  | succ n ih =>
      rw [List.replicate_succ, LittleEndian.decode, ih]
      rfl

/-- Nothing is read back from such a file. -/
theorem getEntry_blank
    (n pos : Nat) (entry : Key × Value) :
    ValueBatch.getEntry (List.replicate n 0) pos ≠ .value entry := by
  intro h
  have hheader := (ValueBatch.getEntry_header h).1
  rw [List.drop_replicate, List.take_replicate, decode_replicate_zero] at hheader
  omega

theorem getEntries_blankBatch
    {bits : List Bool} {start n : Nat} {entries : List (Key × Value)}
    (hactive : 0 < bits.count true) :
    (blankBatch n).getEntries (activePlaces start bits) ≠ .value entries := by
  intro h
  rw [ValueBatch.getEntries, ValueBatch.getValueData, blankBatch,
    sliceFrom_append (LittleEndian.encode_length 4 _), Outcome.value_bind] at h
  induction bits generalizing start with
  | nil =>
      cases hactive
  | cons bit bits ih =>
      rw [activePlaces] at h
      cases bit with
      | true =>
          obtain ⟨entry, hentry, -⟩ := Outcome.bind_eq_value h
          exact getEntry_blank _ _ _ hentry
      | false =>
          exact ih (by simpa using hactive) h

theorem totalNumValues_blankBatch
    {n : Nat}
    (h : n < 2 ^ 32) :
    (blankBatch n).totalNumValues = .value n := by
  have hlen : (LittleEndian.encode 4 (u32 n)).length = 4 := LittleEndian.encode_length 4 _
  rw [ValueBatch.totalNumValues, blankBatch, if_neg (by rw [List.length_append]; omega),
    (LittleEndian.take_drop_encode 4 (u32 n) _).1, u32_of_lt h, LittleEndian.decode_encode 4 n h]

end Blank

/-! ## Deletions that do what they should -/

namespace ValueLog

/-- The value log with files whose entries are all empty. -/
def blanked (s : ValueLog) : ValueLog :=
  { s with batchFiles := fun batchId =>
      (s.pages.bitsOf batchId).map fun bits => blankBatch bits.length }

section Rightly

variable {s s' : ValueLog} {vid : ValueId}

theorem filed_blanked
    (s : ValueLog) :
    s.blanked.Filed fun batchId =>
      ((s.pages.bitsOf batchId).map fun bits => blankEntries bits.length).getD [] := by
  intro batchId bits hbits _
  have hbits' : s.pages.bitsOf batchId = some bits := hbits
  obtain ⟨built, hbuilt, hdata⟩ := addEntries_blankEntries batchId bits.length
  dsimp only
  rw [hbits', Option.map_some, Option.getD_some]
  refine ⟨?_, built, hbuilt, ?_⟩
  · rw [blankEntries, List.length_replicate]
  · change (s.pages.bitsOf batchId).map _ = _
    rw [hbits', Option.map_some, hdata]

/-- `try_to_compact` does not return for a batch with active values, if its entries are empty:
the share of active values is too small in every case. -/
theorem tryToCompact_blank
    {batchId n : Nat} {bits : List Bool} {result : Option (List (Key × Value))}
    (hok : s.pages.Ok)
    (hbits : s.pages.bitsOf batchId = some bits)
    (hactive : 0 < bits.count true)
    (hlength : bits.length = n)
    (hfile : s.batchFiles batchId = some (blankBatch n)) :
    tryToCompact batchId s ≠ (.value result, s') := by
  intro h
  have hcuts : ∀ entry ∈ s.pages, Cuts entry.2.offsets entry.2.entries.length :=
    fun entry hentry => (hok.page entry hentry).2.cuts
  obtain ⟨start, hplaces⟩ := Pages.getActiveEntries_eq hcuts hbits
  have hshort : bits.length < 2 ^ 32 := by
    obtain ⟨idx, entry, -, hidx, hown⟩ := Pages.page_of_bitsOf hbits
    have hcut := (hok.page entry (List.mem_of_getElem? hidx)).2
    obtain ⟨start, -, hle, -⟩ := IndexPage.range_of_bitsOf hcut.cuts hown
    have := hcut.short
    rw [maxPageSize] at this
    omega
  have hcount := List.count_le_length (a := true) (l := bits)
  obtain ⟨batch, hbatch, h⟩ := Call.lift_bind_eq_value h
  obtain rfl : batch = blankBatch n := by
    rw [getBatch, hfile] at hbatch
    exact (Outcome.value.inj hbatch).symm
  obtain ⟨total, htotal, h⟩ := Call.lift_bind_eq_value h
  rw [totalNumValues_blankBatch (hlength ▸ hshort)] at htotal
  cases htotal
  obtain ⟨active, hcounted, h⟩ := Call.lift_bind_eq_value h
  rw [Pages.countActiveEntries_eq hok hbits] at hcounted
  cases hcounted
  have hsparse : bits.count true * 100 / (n * 100) < 25 :=
    Nat.div_lt_of_lt_mul (by omega)
  rw [if_neg (by omega), if_pos hsparse] at h
  obtain ⟨places, hplaces', h⟩ := Call.lift_bind_eq_value h
  rw [hplaces] at hplaces'
  cases hplaces'
  obtain ⟨_, s₁, -, h⟩ := Call.bind_eq_value h
  obtain ⟨entries, hentries, -⟩ := Call.lift_bind_eq_value h
  exact getEntries_blankBatch hactive hentries

/-- **A deletion that does what it should** is the last one of its batch. -/
theorem DeletesRightly.closesBatch
    (h : s.DeletesRightly vid)
    (hok : s.pages.Ok)
    (hsized : s.pages.Sized)
    (hactive : s.pages.Active vid) :
    s.ClosesBatch vid := by
  have hdeletes := h _ s.blanked.batchFiles s.filed_blanked
  change s.blanked.Deletes _ vid (markValueDeleted vid s.blanked) at hdeletes
  obtain ⟨bits, hbits, hbit⟩ := hactive
  have hvalue := hdeletes.entries bits hbits
  generalize hrun : markValueDeleted vid s.blanked = result at hdeletes hvalue
  obtain ⟨outcome, s'⟩ := result
  cases hvalue
  obtain ⟨place, s₁, hmark, hrun⟩ := Call.bind_eq_value hrun
  obtain ⟨idx, key, page, marked, hfound, hidx, hmarked, hplace, hfiles, hleft⟩ :=
    markValueAsDeleted_returns hmark
  obtain ⟨hok₁, hbits₁⟩ := bitsOf_of_returns (s := s.blanked) hok hbits hmark
  change (tryToRemove place.1 >>= _ : Call ValueLog _)
    { s₁ with deletions := s₁.deletions ++ [place] } = _ at hrun
  obtain ⟨removed, s₂, hremove, hrun⟩ := Call.bind_eq_value hrun
  rcases tryToRemove_returns hremove with ⟨rfl, rfl, n, hcount, hpos⟩ |
    ⟨rfl, hcount, ⟨idx', key', page', marked', hfound', hidx', hmarked'⟩, ⟨batch, hbatch⟩,
      hgone, hmin⟩
  · -- the batch would be compacted, which cannot return
    exfalso
    obtain ⟨result, s₃, hcompact, -⟩ := Call.bind_eq_value hrun
    obtain ⟨bits', hbits'⟩ := Pages.bitsOf_of_countActiveEntries hcount hpos
    rw [Pages.countActiveEntries_eq hok₁ hbits'] at hcount
    cases hcount
    obtain ⟨old, hold, hlength⟩ : ∃ old, s.pages.bitsOf place.1 = some old ∧
        bits'.length = old.length := by
      have hold := hbits₁ place.1 bits' hbits'
      split_ifs at hold with hown
      · cases hold
        exact ⟨bits, hown ▸ hbits, List.length_set⟩
      · exact ⟨bits', hold, rfl⟩
    refine tryToCompact_blank (s := { s₁ with deletions := s₁.deletions ++ [place] }) hok₁ hbits'
      hpos hlength ?_ hcompact
    change s₁.batchFiles place.1 = _
    rw [hfiles]
    change (s.pages.bitsOf place.1).map _ = _
    rw [hold, Option.map_some]
  · -- the batch that was removed is the batch of the value
    have hown : place.1 = vid.1 := by
      by_contra hne
      have hother : s'.batchFiles place.1 = s.blanked.batchFiles place.1 :=
        (hdeletes.others place.1 hne).1
      have hlast : s₂ = s' := congrArg Prod.snd hrun
      rw [← hlast, hgone, ← hfiles] at hother
      exact absurd (hother.trans hbatch) (by simp)
    rw [hown] at hcount hfound' hmarked' hmin
    have hsorted : Sorted (s.pages.setPage idx marked.2) :=
      Pages.sorted_setPage (hok.sorted hbits) _ _
    rcases hleft with ⟨hdrops, rfl⟩ | ⟨hdrops, first, dropped, hpages⟩
    · obtain ⟨bits', hbits', hset⟩ := Pages.bitsOf_mark hok hfound hidx hmarked
      rw [hbits] at hbits'
      cases hbits'
      have hcleared : (s.pages.setPage idx marked.2).bitsOf vid.1 =
          some (bits.set vid.2 false) := (hset vid.1).trans (if_pos rfl)
      have hlast : (bits.set vid.2 false).count true = 0 := by
        have hcount' := Pages.countActiveEntries_eq hok₁ hcleared
        exact Outcome.value.inj (hcount'.symm.trans hcount)
      have hone := IndexPage.count_set_false hbit
      have hsized' : (s.pages.setPage idx marked.2).Sized :=
        sized_setPage hsized hidx (Pages.fields_of_mark hmarked).2.2.1
      have hstate := IndexPage.stateOf_of_markBatchAsDeleted
        ((Pages.bitsOf_of_found hfound' hidx').symm.trans hcleared)
        (hsized' _ (List.mem_of_getElem? hidx')) hmarked'
      refine ⟨idx, (key, page), bits, hfound, hidx, hplace.symm.trans hown,
        (Pages.bitsOf_of_found hfound hidx).symm.trans hbits, by omega, ?_, ?_, hmin⟩
      · intro hdeleted
        rw [← Pages.stateOf_of_found hfound' hidx'] at hstate
        exact hstate ((Pages.stateOf_mark hidx hmarked vid.1).trans hdeleted)
      · rw [← dropsFirst_iff hmarked, hdrops]
        exact Bool.false_ne_true
    · -- the page of the batch is gone
      exfalso
      obtain ⟨rfl, -⟩ := (dropsFirst_iff hmarked).mp hdrops
      have hzero : (s.pages.setPage 0 marked.2).findPageIdx vid.1 = some 0 := by
        rw [Pages.findPageIdx_setPage]
        exact hfound
      change s.pages.setPage 0 marked.2 = _ at hpages
      rw [hpages] at hsorted hzero
      have hnone := Pages.findPageIdx_tail_of_zero hsorted hzero
      rw [Pages.findPageIdx_of_suffix hsorted.tail hfound'] at hnone
      cases hnone

/-- **A deletion does what it should**, whatever the batch files hold, if and only if it closes
its batch. -/
theorem deletesRightly_iff
    (hok : s.pages.Ok)
    (hsized : s.pages.Sized)
    (hactive : s.pages.Active vid) :
    s.DeletesRightly vid ↔ s.ClosesBatch vid := by
  refine ⟨fun h => h.closesBatch hok hsized hactive, ?_⟩
  intro h contents files hfiled
  exact ClosesBatch.deletes (s := { s with batchFiles := files }) h hok hsized hactive hfiled

end Rightly

/-! ## A sequence of deletions -/

def deleteStep (s : ValueLog) (vid : ValueId) : ValueLog :=
  (markValueDeleted vid s).2

/-- Different values that are active, in a value log with all its files. -/
structure Deletable (s : ValueLog) (vids : List ValueId) : Prop where
  ok : s.pages.Ok
  sized : s.pages.Sized
  filed : ∃ contents, s.Filed contents
  active : ∀ vid ∈ vids, s.pages.Active vid
  nodup : vids.Nodup

section Sequence

variable {s : ValueLog} {vid : ValueId} {vids : List ValueId}

/-- The other values can be deleted after a deletion that closes a batch. -/
theorem Deletable.step
    (h : s.Deletable (vid :: vids))
    (hcloses : s.ClosesBatch vid) :
    (s.deleteStep vid).Deletable vids := by
  have hactive := h.active vid List.mem_cons_self
  obtain ⟨hfresh, hnodup⟩ := List.nodup_cons.mp h.nodup
  obtain ⟨contents, hfiled⟩ := h.filed
  have hdeletes := hcloses.deletes h.ok h.sized hactive hfiled
  obtain ⟨bits, hbits, hbit⟩ := hactive
  obtain ⟨built, hfile⟩ : ∃ batch, s.batchFiles vid.1 = some batch := by
    obtain ⟨-, -, -, -, -, -, -, -, hstate, -⟩ := hcloses
    obtain ⟨-, built, -, hfile⟩ := hfiled _ _ hbits hstate
    exact ⟨_, hfile⟩
  obtain ⟨s', hrun, hclosed⟩ := hcloses.run h.ok h.sized ⟨bits, hbits, hbit⟩ hfile
  rw [hrun] at hdeletes
  rw [deleteStep, hrun]
  refine ⟨hclosed.ok, hclosed.sized, ⟨contents, ?_⟩, ?_, hnodup⟩
  · intro batchId bits' hbits' hstate
    have hne : batchId ≠ vid.1 := by
      rintro rfl
      exact hstate hclosed.deleted
    rw [hclosed.states batchId hne] at hstate
    rw [hclosed.bits bits hbits, if_neg hne] at hbits'
    obtain ⟨hlength, built, hbuilt, hfile'⟩ := hfiled batchId bits' hbits' hstate
    refine ⟨hlength, built, hbuilt, ?_⟩
    rw [hclosed.files, Function.update_of_ne hne]
    exact hfile'
  · intro other hother
    refine (hdeletes.active other).mpr ⟨h.active other (List.mem_cons_of_mem _ hother), ?_⟩
    rintro rfl
    exact hfresh hother

/-- **A sequence of deletions does what it should** in every step, if and only if each of them
closes its batch. -/
theorem deletions_right_iff
    (h : s.Deletable vids) :
    (∀ k vid, vids[k]? = some vid →
      (Runs.run deleteStep s (vids.take k)).DeletesRightly vid) ↔
      Runs.Along deleteStep ClosesBatch s vids := by
  induction vids generalizing s with
  | nil =>
      exact ⟨fun _ => trivial, fun _ k vid hk => by cases hk⟩
  | cons vid vids ih =>
      have hfirst := deletesRightly_iff h.ok h.sized (h.active vid List.mem_cons_self)
      constructor
      · intro hall
        have hcloses := hfirst.mp (hall 0 vid rfl)
        exact ⟨hcloses, (ih (h.step hcloses)).mp fun k other hk => hall (k + 1) other hk⟩
      · rintro ⟨hcloses, hrest⟩ k other hk
        cases k with
        | zero =>
            cases hk
            exact hfirst.mpr hcloses
        | succ k =>
            exact (ih (h.step hcloses)).mpr hrest k other hk

/-- A value log with two batches of one value each, both in page 1. -/
def twoBatches : ValueLog :=
  (writeBatch singleEntry (writeBatch singleEntry new).2).2

theorem twoBatches_deletable :
    twoBatches.Deletable [(1, 0)] := by
  have hwrite : writeBatch singleEntry new = (.value [(1, 0)], (writeBatch singleEntry new).2) :=
    rfl
  have hwrite' : writeBatch singleEntry (writeBatch singleEntry new).2 =
      (.value [(2, 0)], twoBatches) := rfl
  obtain ⟨hok, hends, hnone⟩ := ok_new
  obtain ⟨-, -, -, -, -, hok₁, hends₁, -⟩ := writeBatch_finished hok hends hwrite
  obtain ⟨-, -, -, -, -, hok₂, -⟩ := writeBatch_finished hok₁ hends₁ hwrite'
  have hgrows := (grows_writeBatch hok hends singleEntry).pages
  have hgrows' := (grows_writeBatch hok₁ hends₁ singleEntry).pages
  refine ⟨hok₂, ?_, ⟨fun _ => singleEntry, ?_⟩, ?_, List.nodup_singleton _⟩
  · intro entry hentry
    rw [List.mem_singleton.mp hentry]
    decide
  · intro batchId bits hbits _
    rcases hgrows'.bits batchId bits hbits with hold | ⟨rfl, rfl⟩
    · rcases hgrows.bits batchId bits hold with hnew | ⟨rfl, rfl⟩
      · rw [hnone] at hnew
        cases hnew
      · exact ⟨le_refl _, _, rfl, rfl⟩
    · exact ⟨le_refl _, _, rfl, rfl⟩
  · intro vid hvid
    rw [List.mem_singleton.mp hvid]
    exact ⟨[true], rfl, rfl⟩

/-- The batch that loses its only value is removed, and the other one stays. -/
theorem deletions_right_two_batches :
    let result := markValueDeleted (1, 0) twoBatches
    twoBatches.DeletesRightly (1, 0) ∧ result.2.batchFiles 1 = none ∧
      (result.2.batchFiles 2).isSome ∧ result.2.pages.bitsOf 2 = some [true] := by
  intro result
  have hcloses : twoBatches.ClosesBatch (1, 0) := by
    refine ⟨0, _, [true], rfl, rfl, rfl, rfl, rfl, ?_, ?_, Or.inr ?_⟩
    · decide
    · rintro ⟨-, hsealed, -⟩
      cases hsealed
    · decide
  exact ⟨(deletions_right_iff twoBatches_deletable).mpr ⟨hcloses, trivial⟩ 0 (1, 0) rfl, rfl, rfl,
    rfl⟩

/-- A batch without values, as for a memtable of deletions, and then a batch of one value. -/
def emptyBatchFirst : ValueLog :=
  (writeBatch singleEntry (writeBatch [] new).2).2

/-- The deletion of the value in the second batch removes the file of the first one, as both are
in page 1. -/
theorem wrong_batch_removed :
    let s := emptyBatchFirst
    let result := markValueDeleted (2, 0) s
    s.pages.bitsOf 2 = some [true] ∧ (s.batchFiles 1).isSome ∧ result.1 = .value [] ∧
      result.2.pages.bitsOf 2 = some [false] ∧ result.2.batchFiles 1 = none ∧
      (result.2.batchFiles 2).isSome ∧ ¬ s.DeletesRightly (2, 0) := by
  intro s result
  refine ⟨rfl, rfl, rfl, rfl, rfl, rfl, fun h => ?_⟩
  have hwrite : writeBatch [] new = (.value [], (writeBatch [] new).2) := rfl
  have hwrite' : writeBatch singleEntry (writeBatch [] new).2 = (.value [(2, 0)], s) := rfl
  obtain ⟨hok, hends, -⟩ := ok_new
  obtain ⟨-, -, -, -, -, hok₁, hends₁, -⟩ := writeBatch_finished hok hends hwrite
  obtain ⟨-, -, -, -, -, hok₂, -⟩ := writeBatch_finished hok₁ hends₁ hwrite'
  have hsized : s.pages.Sized := by
    intro entry hentry
    rw [List.mem_singleton.mp hentry]
    decide
  obtain ⟨idx, entry, bits, -, hidx, hident, -⟩ := h.closesBatch hok₂ hsized ⟨[true], rfl, rfl⟩
  rw [List.mem_singleton.mp (List.mem_of_getElem? hidx)] at hident
  exact absurd hident (by decide)

end Sequence

end ValueLog

end Values
end LsmStore
