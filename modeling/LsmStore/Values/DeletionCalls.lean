import LsmStore.Values.Reinsertion

/-!
# The calls behind a deletion

What `mark_value_deleted` calls: the index marks a value in its page and drops
the first pages if they are not needed any more, and a batch is marked as deleted
and its file removed.  For each call there is what it has done when it returns,
and what it does where it succeeds.
-/

namespace LsmStore
namespace Values

open SortedAssoc Segments

/-! ## Bits and states -/

/-- The state of a batch of the page. -/
def IndexPage.stateOf (p : IndexPage) (batchId : Nat) : Option ValueBatchState :=
  if batchId < p.header.startBatch then none
  else p.batches[batchId - p.header.startBatch]?

namespace Pages

def stateOf (pages : Pages) (batchId : Nat) : Option ValueBatchState :=
  (pages.findPageIdx batchId).bind fun idx =>
    pages[idx]?.bind fun entry => entry.2.stateOf batchId

/-- A page has no more batches than fit into it. -/
def Sized (pages : Pages) : Prop :=
  ∀ entry ∈ pages, entry.2.offsets.length ≤ maxPageSize

end Pages

namespace IndexPage

section States

variable {p : IndexPage} {batchId : Nat}

theorem stateOf_setState
    (hle : p.header.startBatch ≤ batchId)
    (state : ValueBatchState) (other : Nat) (hother : other ≠ batchId) :
    (p.setState (batchId - p.header.startBatch) state).stateOf other = p.stateOf other := by
  change (if other < p.header.startBatch then none
    else (p.batches.set (batchId - p.header.startBatch) state)[other - p.header.startBatch]?) = _
  rw [stateOf]
  split_ifs with hlt
  · rfl
  · exact List.getElem?_set_ne (by omega)

theorem stateOf_setState_self
    {old : ValueBatchState}
    (hold : p.stateOf batchId = some old)
    (state : ValueBatchState) :
    (p.setState (batchId - p.header.startBatch) state).stateOf batchId = some state := by
  rw [stateOf] at hold
  split_ifs at hold with hlt
  change (if batchId < p.header.startBatch then none
    else (p.batches.set (batchId - p.header.startBatch) state)[batchId - p.header.startBatch]?) = _
  rw [if_neg hlt, List.getElem?_set_self (List.getElem?_eq_some_iff.mp hold).1]

/-- A batch with bits has a state. -/
theorem exists_stateOf
    {bits : List Bool}
    (h : p.bitsOf batchId = some bits) :
    p.header.startBatch ≤ batchId ∧ batchId - p.header.startBatch < p.offsets.length ∧
      ∃ state, p.stateOf batchId = some state := by
  rw [bitsOf] at h
  split_ifs at h with hlt
  have hindex : batchId - p.header.startBatch < p.offsets.length := by
    by_contra hge
    rw [segmentAt_eq_none (Nat.not_lt.mp hge)] at h
    cases h
  refine ⟨Nat.not_lt.mp hlt, hindex, ?_⟩
  rw [p.length_offsets, ← p.length_batches] at hindex
  exact ⟨_, by rw [stateOf, if_neg hlt, List.getElem?_eq_getElem hindex]⟩

theorem markBatchAsDeleted_eq
    {bits : List Bool}
    (h : p.bitsOf batchId = some bits)
    (hsized : p.offsets.length ≤ maxPageSize)
    (hstate : p.stateOf batchId ≠ some .deleted) :
    p.markBatchAsDeleted batchId = .value (batchId - p.header.startBatch,
      p.setState (batchId - p.header.startBatch) .deleted) := by
  obtain ⟨hle, hindex, state, hold⟩ := exists_stateOf h
  rw [maxPageSize] at hsized
  have hget : p.batches[batchId - p.header.startBatch]? = some state := by
    rw [stateOf, if_neg (Nat.not_lt.mpr hle)] at hold
    exact hold
  rw [hold] at hstate
  rw [markBatchAsDeleted, u16_eq (by omega), markBatchAsDeletedAt, hget]
  cases state with
  | active =>
      rfl
  | compacted =>
      rfl
  | deleted =>
      exact absurd rfl hstate

/-- A batch that could be marked was not deleted. -/
theorem stateOf_of_markBatchAsDeleted
    {bits : List Bool} {marked : Nat × IndexPage}
    (h : p.bitsOf batchId = some bits)
    (hsized : p.offsets.length ≤ maxPageSize)
    (hmarked : p.markBatchAsDeleted batchId = .value marked) :
    p.stateOf batchId ≠ some .deleted := by
  intro hstate
  obtain ⟨hle, hindex, -⟩ := exists_stateOf h
  rw [maxPageSize] at hsized
  rw [stateOf, if_neg (Nat.not_lt.mpr hle)] at hstate
  rw [markBatchAsDeleted, u16_eq (by omega), markBatchAsDeletedAt, hstate] at hmarked
  cases hmarked

end States

end IndexPage

namespace Pages

section Lookup

variable {pages rest : Pages} {idx key batchId : Nat} {page : IndexPage}

theorem stateOf_setPage
    (hidx : pages[idx]? = some (key, page))
    (page' : IndexPage) (batchId : Nat) :
    (pages.setPage idx page').stateOf batchId =
      if pages.findPageIdx batchId = some idx then page'.stateOf batchId
      else pages.stateOf batchId :=
  onPage_setPage hidx page' batchId fun entry => entry.stateOf batchId

theorem stateOf_of_found
    (hfound : pages.findPageIdx batchId = some idx)
    (hidx : pages[idx]? = some (key, page)) :
    pages.stateOf batchId = page.stateOf batchId := by
  rw [stateOf, hfound, Option.bind_some, hidx]
  rfl

theorem bitsOf_of_found
    (hfound : pages.findPageIdx batchId = some idx)
    (hidx : pages[idx]? = some (key, page)) :
    pages.bitsOf batchId = page.bitsOf batchId := by
  rw [bitsOf, hfound, Option.bind_some, hidx]
  rfl

/-- A batch that is found behind some pages is found in the same page with them. -/
theorem findPageIdx_of_suffix
    {dropped : Pages}
    (h : Sorted (dropped ++ rest))
    (hidx : findPageIdx rest batchId = some idx) :
    findPageIdx (dropped ++ rest) batchId = some (idx + dropped.length) := by
  induction dropped with
  | nil =>
      exact hidx
  | cons entry dropped ih =>
      exact findPageIdx_of_tail h (ih h.tail)

theorem getElem?_of_suffix
    (dropped rest : Pages) (idx : Nat) :
    (dropped ++ rest)[idx + dropped.length]? = rest[idx]? := by
  rw [List.getElem?_append_right (Nat.le_add_left _ _), Nat.add_sub_cancel]

/-- A batch of the first page is not found behind it. -/
theorem findPageIdx_tail_of_zero
    {entry : Nat × IndexPage}
    (h : Sorted (entry :: rest))
    (hfound : findPageIdx (entry :: rest) batchId = some 0) :
    findPageIdx rest batchId = none := by
  cases hrest : findPageIdx rest batchId with
  | none =>
      rfl
  | some idx =>
      rw [findPageIdx_of_tail h hrest] at hfound
      cases hfound

/-- An index with bits has its pages in order. -/
theorem Ok.sorted
    {bits : List Bool}
    (h : pages.Ok)
    (hbits : pages.bitsOf batchId = some bits) :
    Sorted pages := by
  rcases h.order with hsorted | hempty
  · exact hsorted
  · rw [bitsOf_eq_none_of_empty hempty] at hbits
    cases hbits

theorem Ok.suffix
    {dropped : Pages}
    (h : Ok (dropped ++ rest)) :
    rest.Ok := by
  induction dropped with
  | nil =>
      exact h
  | cons entry dropped ih =>
      exact ih h.tail

theorem countActiveEntries_eq
    {bits : List Bool}
    (h : pages.Ok)
    (hbits : pages.bitsOf batchId = some bits) :
    pages.countActiveEntries batchId = .value (bits.count true) := by
  obtain ⟨idx, ⟨key, page⟩, hfound, hidx, hbits⟩ := page_of_bitsOf hbits
  rw [countActiveEntries, hfound]
  dsimp only
  rw [pageAt, hidx]
  exact (h.page _ (List.mem_of_getElem? hidx)).2.countActiveEntries_eq hbits

/-- A batch with active values has bits. -/
theorem bitsOf_of_countActiveEntries
    {n : Nat}
    (hcount : pages.countActiveEntries batchId = .value n)
    (hpos : 0 < n) :
    ∃ bits, pages.bitsOf batchId = some bits := by
  cases hfound : pages.findPageIdx batchId with
  | none =>
      rw [countActiveEntries, hfound] at hcount
      cases hcount
      cases hpos
  | some idx =>
      rw [countActiveEntries, hfound] at hcount
      obtain ⟨page, hpage, hcount⟩ := Outcome.bind_eq_value hcount
      obtain ⟨key, hidx⟩ := getElem?_of_pageAt hpage
      obtain ⟨range, hrange, -⟩ := Outcome.bind_eq_value hcount
      exact ⟨_, (bitsOf_of_found hfound hidx).trans (IndexPage.bitsOf_of_range hrange)⟩

end Lookup

section Mark

variable {pages : Pages} {idx key : Nat} {page : IndexPage} {vid : ValueId}
  {marked : Nat × IndexPage}

theorem bitsOf_mark
    (hok : pages.Ok)
    (hfound : pages.findPageIdx vid.1 = some idx)
    (hidx : pages[idx]? = some (key, page))
    (hmarked : page.markValueAsDeleted vid = .value marked) :
    ∃ bits, pages.bitsOf vid.1 = some bits ∧ ∀ batchId,
      (pages.setPage idx marked.2).bitsOf batchId =
        if batchId = vid.1 then some (bits.set vid.2 false) else pages.bitsOf batchId := by
  obtain ⟨-, -, -, bits, hbits, hset⟩ := IndexPage.bitsOf_markValueAsDeleted
    (hok.page _ (List.mem_of_getElem? hidx)).2 hmarked
  refine ⟨bits, (bitsOf_of_found hfound hidx).trans hbits, ?_⟩
  intro batchId
  rw [bitsOf_setPage hidx]
  by_cases hbatch : pages.findPageIdx batchId = some idx
  · rw [if_pos hbatch, hset, bitsOf_of_found hbatch hidx]
  · rw [if_neg hbatch, if_neg]
    rintro rfl
    exact hbatch hfound

/-- Marking a value leaves everything else of the page as it is. -/
theorem fields_of_mark
    (hmarked : page.markValueAsDeleted vid = .value marked) :
    marked.2.header = page.header ∧ marked.2.batches = page.batches ∧
      marked.2.offsets = page.offsets ∧ marked.2.isSealed = page.isSealed ∧
      ∃ place : Nat, page.entries[place]? = some true ∧
        marked.2.entries = page.entries.set place false := by
  obtain ⟨range, hrange, hmarked⟩ := Outcome.bind_eq_value hmarked
  obtain ⟨bits, hbits, hmarked⟩ := Outcome.bind_eq_value hmarked
  unfold IndexPage.slice at hbits
  split_ifs at hbits
  cases hbits
  split at hmarked
  · cases hmarked
  · cases hmarked
  · rename_i hbit
    cases hmarked
    refine ⟨rfl, rfl, rfl, rfl, range.1 + vid.2, ?_, rfl⟩
    rw [List.getElem?_take] at hbit
    split_ifs at hbit
    rw [← List.getElem?_drop]
    exact hbit

theorem stateOf_mark
    (hidx : pages[idx]? = some (key, page))
    (hmarked : page.markValueAsDeleted vid = .value marked)
    (batchId : Nat) :
    (pages.setPage idx marked.2).stateOf batchId = pages.stateOf batchId := by
  obtain ⟨hheader, hbatches, -⟩ := fields_of_mark hmarked
  rw [stateOf_setPage hidx]
  split_ifs with hfound
  · rw [stateOf_of_found hfound hidx, IndexPage.stateOf, IndexPage.stateOf, hheader, hbatches]
  · rfl

end Mark

end Pages

/-! ## The calls of a deletion that returns -/

namespace ValueLog

section Returns

variable {s s' : ValueLog} {batchId : Nat}

theorem removeUnusedPages_value
    {pages : Pages}
    (hpages : s.pages = pages)
    (h : removeUnusedPages pages s = (.value (), s')) :
    s'.batchFiles = s.batchFiles ∧ ∃ dropped, pages = dropped ++ s'.pages ∧
      ∀ entry, pages.head? = some entry → (!entry.2.isSealed || entry.2.isInUse) = false →
        dropped ≠ [] := by
  induction pages generalizing s with
  | nil =>
      cases h
  | cons entry rest ih =>
      obtain ⟨key, page⟩ := entry
      rw [removeUnusedPages] at h
      split_ifs at h with hneeded
      · change (if s.metadata.minimumIndexPage < page.getIdentifier then _ else _ :
          Call ValueLog Unit) s = _ at h
        split_ifs at h
        · cases h
          refine ⟨rfl, [], hpages.symm, fun entry hentry hunused => ?_⟩
          cases hentry
          rw [hneeded] at hunused
          cases hunused
        · cases h
      · obtain ⟨_, s₁, hremove, h⟩ := Call.bind_eq_value h
        cases hfile : s.pageFiles page.getIdentifier with
        | none =>
            rw [removePageFile_of_none hfile] at hremove
            cases hremove
        | some file =>
            rw [removePageFile_of_some hfile] at hremove
            cases hremove
            obtain ⟨hfiles, dropped, hdropped, -⟩ := ih rfl h
            refine ⟨hfiles, (key, page) :: dropped, ?_, fun _ _ _ => List.cons_ne_nil _ _⟩
            rw [List.cons_append, ← hdropped]

/-- The first page is dropped if it is sealed and has lost its last active value. -/
def dropsFirst (idx : Nat) (page : IndexPage) : Bool :=
  idx == 0 && !page.isInUse && page.isSealed

/-- What the index has done when it returns: it has marked the value in its page, and perhaps
dropped the first pages. -/
theorem markValueAsDeleted_returns
    {vid : ValueId} {place : Nat × Nat}
    (h : markValueAsDeleted vid s = (.value place, s')) :
    ∃ idx key page marked, s.pages.findPageIdx vid.1 = some idx ∧
      s.pages[idx]? = some (key, page) ∧ page.markValueAsDeleted vid = .value marked ∧
      place.1 = page.getIdentifier ∧ s'.batchFiles = s.batchFiles ∧
      (dropsFirst idx marked.2 = false ∧ s' = s.setPage idx marked.2 ∨
        dropsFirst idx marked.2 = true ∧
          ∃ first dropped, s.pages.setPage idx marked.2 = first :: (dropped ++ s'.pages)) := by
  rcases markValueAsDeleted_cases s vid with ⟨o, hrun, ho⟩ |
    ⟨idx, key, page, marked, hfound, hidx, hmarked, hrun⟩
  · rw [h] at hrun
    exact absurd (congrArg Prod.fst hrun).symm (ho place)
  · have hident : marked.2.getIdentifier = page.getIdentifier :=
      congrArg IndexPageHeader.identifier (Pages.fields_of_mark hmarked).1
    refine ⟨idx, key, page, marked, hfound, hidx, hmarked, ?_⟩
    rw [h, afterMark] at hrun
    by_cases hdrops : dropsFirst idx marked.2 = true
    · rw [if_pos (by exact hdrops)] at hrun
      obtain ⟨_, s₁, hremove, hpure⟩ := Call.bind_eq_value hrun.symm
      cases hpure
      obtain ⟨hfiles, dropped, hdropped, hne⟩ := removeUnusedPages_value
        (s := s.setPage idx marked.2) rfl hremove
      refine ⟨hident, hfiles, Or.inr ⟨hdrops, ?_⟩⟩
      rw [dropsFirst, Bool.and_eq_true, Bool.and_eq_true, beq_iff_eq] at hdrops
      obtain ⟨⟨rfl, hunused⟩, hsealed⟩ := hdrops
      have hhead : (s.pages.setPage 0 marked.2).head? = some (key, marked.2) := by
        rw [List.head?_eq_getElem?, Pages.getElem?_setPage, hidx]
        rfl
      have hne' := hne _ hhead (by
        rw [Bool.not_eq_true'] at hunused
        rw [hsealed, hunused]
        rfl)
      obtain ⟨first, dropped, rfl⟩ := List.exists_cons_of_ne_nil hne'
      exact ⟨first, dropped, hdropped⟩
    · rw [if_neg (by exact hdrops)] at hrun
      cases hrun
      exact ⟨hident, rfl, Or.inl ⟨Bool.eq_false_of_not_eq_true hdrops, rfl⟩⟩

theorem markBatch_returns
    {mark : IndexPage → Nat → Outcome (Nat × IndexPage)}
    (h : markBatch mark batchId s = (.value (), s')) :
    ∃ idx key page marked, s.pages.findPageIdx batchId = some idx ∧
      s.pages[idx]? = some (key, page) ∧ mark page batchId = .value marked ∧
      s' = s.setPage idx marked.2 := by
  cases hfound : s.pages.findPageIdx batchId with
  | none =>
      rw [markBatch_of_none hfound] at h
      cases h
  | some idx =>
      rw [markBatch_of_some hfound] at h
      obtain ⟨page, hpage, h⟩ := Call.lift_bind_eq_value h
      obtain ⟨marked, hmarked, h⟩ := Call.lift_bind_eq_value h
      cases h
      obtain ⟨key, hidx⟩ := Pages.getElem?_of_pageAt hpage
      exact ⟨idx, key, page, marked, rfl, hidx, hmarked, rfl⟩

theorem newMinimum_eq
    (hcount : s.pages.countActiveEntries batchId = .value 0)
    (rounds minimum : Nat) :
    s.newMinimum batchId rounds minimum = .value (minimum + rounds) := by
  induction rounds generalizing minimum with
  | zero =>
      rfl
  | succ rounds ih =>
      rw [newMinimum, hcount, Outcome.value_bind, if_neg (Nat.lt_irrefl 0), ih]
      congr 1
      omega

/-- The state with a batch file removed. -/
def batchRemoved (s : ValueLog) (batchId : Nat) : ValueLog :=
  { s with batchFiles := Function.update s.batchFiles batchId none }

/-- A file is removed from the disk if it exists; the minimum batch advances over a batch that
has no active values, to the last batch there is. -/
theorem removeBatchFromDisk_eq
    {batch : ValueBatch}
    (hfile : s.batchFiles batchId = some batch)
    (hcount : s.pages.countActiveEntries batchId = .value 0) :
    removeBatchFromDisk batchId s =
      if max s.metadata.minimumBatch minValueBatchId < batchId then
        (.value (), s.batchRemoved batchId)
      else if s.metadata.minimumBatch < max batchId (s.metadata.nextBatch - 1) then
        (.value (), { s.batchRemoved batchId with
          metadata := { s.metadata with
            minimumBatch := max batchId (s.metadata.nextBatch - 1) } })
      else
        (.panic "assertion failed: meta.value_log.minimum_batch < offset",
          s.batchRemoved batchId) := by
  have hmax : batchId + (s.metadata.nextBatch - 1 - batchId) =
      max batchId (s.metadata.nextBatch - 1) := by omega
  rw [removeBatchFromDisk_of_some hfile, newMinimum_eq hcount, hmax]
  split_ifs with hbehind hadvances
  · rfl
  · change (if s.metadata.minimumBatch < max batchId (s.metadata.nextBatch - 1) then _ else _ :
      Call ValueLog Unit) (s.batchRemoved batchId) = _
    rw [if_pos hadvances]
    rfl
  · change (if s.metadata.minimumBatch < max batchId (s.metadata.nextBatch - 1) then _ else _ :
      Call ValueLog Unit) (s.batchRemoved batchId) = _
    rw [if_neg hadvances]
    rfl

theorem tryToRemove_of_empty
    (hcount : s.pages.countActiveEntries batchId = .value 0) :
    tryToRemove batchId s = (do
      markBatchAsDeleted batchId
      removeBatchFromDisk batchId
      pure true : Call ValueLog Bool) s := by
  change (liftM (s.pages.countActiveEntries batchId) >>= _ : Call ValueLog Bool) s = _
  rw [hcount]
  rfl

theorem tryToRemove_of_active
    {n : Nat}
    (hcount : s.pages.countActiveEntries batchId = .value n)
    (hpos : 0 < n) :
    tryToRemove batchId s = (.value false, s) := by
  change (liftM (s.pages.countActiveEntries batchId) >>= _ : Call ValueLog Bool) s = _
  rw [hcount]
  change (if 0 < n then _ else _ : Call ValueLog Bool) s = _
  rw [if_pos hpos]
  rfl

/-- What `try_to_remove` has done when it returns. -/
theorem tryToRemove_returns
    {removed : Bool}
    (h : tryToRemove batchId s = (.value removed, s')) :
    (removed = false ∧ s' = s ∧
        ∃ n, s.pages.countActiveEntries batchId = .value n ∧ 0 < n) ∨
      removed = true ∧ s.pages.countActiveEntries batchId = .value 0 ∧
        (∃ idx key page marked, s.pages.findPageIdx batchId = some idx ∧
          s.pages[idx]? = some (key, page) ∧ page.markBatchAsDeleted batchId = .value marked) ∧
        (∃ batch, s.batchFiles batchId = some batch) ∧ s'.batchFiles batchId = none ∧
        (max s.metadata.minimumBatch minValueBatchId < batchId ∨
          s.metadata.minimumBatch < max batchId (s.metadata.nextBatch - 1)) := by
  obtain ⟨n, hcount, -⟩ := Call.lift_bind_eq_value h
  rcases Nat.eq_zero_or_pos n with rfl | hpos
  · right
    rw [tryToRemove_of_empty hcount] at h
    obtain ⟨_, s₁, hmark, h⟩ := Call.bind_eq_value h
    obtain ⟨_, s₂, hremove, h⟩ := Call.bind_eq_value h
    cases h
    obtain ⟨idx, key, page, marked, hfound, hidx, hmarked, rfl⟩ := markBatch_returns hmark
    have hpage : s.pages.pageAt idx = .value page := by
      rw [Pages.pageAt, hidx]
    have hviews : (s.setPage idx marked.2).pages.views = s.pages.views :=
      Pages.views_setPage hpage (view_markBatchAsDeleted hmarked)
    have hcount' := (Pages.countActiveEntries_of_views_eq hviews batchId).trans hcount
    refine ⟨rfl, hcount, ⟨idx, key, page, marked, hfound, hidx, hmarked⟩, ?_⟩
    cases hfile : s.batchFiles batchId with
    | none =>
        rw [removeBatchFromDisk_of_none (s := s.setPage idx marked.2) hfile] at hremove
        cases hremove
    | some batch =>
        refine ⟨⟨batch, rfl⟩, ?_⟩
        rw [removeBatchFromDisk_eq (s := s.setPage idx marked.2) hfile hcount'] at hremove
        split_ifs at hremove with hbehind hadvances
        · cases hremove
          exact ⟨Function.update_self _ _ _, Or.inl hbehind⟩
        · cases hremove
          exact ⟨Function.update_self _ _ _, Or.inr hadvances⟩
        · cases hremove
  · left
    rw [tryToRemove_of_active hcount hpos] at h
    cases h
    exact ⟨rfl, rfl, n, hcount, hpos⟩

end Returns

section Marked

variable {s s' : ValueLog} {vid : ValueId}

/-- The pages behind the ones that were dropped have no bits of their own. -/
theorem bitsOf_of_suffix
    {pages dropped rest : Pages} {batchId : Nat} {bits : List Bool}
    (hsorted : Sorted pages)
    (hpages : pages = dropped ++ rest)
    (hbits : rest.bitsOf batchId = some bits) :
    pages.bitsOf batchId = some bits := by
  obtain ⟨idx, ⟨key, page⟩, hfound, hidx, hown⟩ := Pages.page_of_bitsOf hbits
  subst hpages
  rw [Pages.bitsOf_of_found (Pages.findPageIdx_of_suffix hsorted hfound)
    ((Pages.getElem?_of_suffix dropped rest idx).trans hidx)]
  exact hown

/-- The pages that are left when the index has marked a value, and their bits. -/
theorem bitsOf_of_returns
    {place : Nat × Nat} {bits : List Bool}
    (hok : s.pages.Ok)
    (hbits : s.pages.bitsOf vid.1 = some bits)
    (h : markValueAsDeleted vid s = (.value place, s')) :
    s'.pages.Ok ∧ ∀ batchId bits', s'.pages.bitsOf batchId = some bits' →
      (if batchId = vid.1 then some (bits.set vid.2 false) else s.pages.bitsOf batchId) =
        some bits' := by
  obtain ⟨idx, key, page, marked, hfound, hidx, hmarked, -, -, hleft⟩ :=
    markValueAsDeleted_returns h
  obtain ⟨bits₁, hbits₁, hset⟩ := Pages.bitsOf_mark hok hfound hidx hmarked
  rw [hbits] at hbits₁
  cases hbits₁
  have hfades : Pages.Fades (fun _ => True) s.pages (s.pages.setPage idx marked.2) :=
    Pages.fades_markValueAsDeleted hok hidx hmarked trivial
  have hsorted : Sorted (s.pages.setPage idx marked.2) :=
    hfades.ok.sorted ((hset vid.1).trans (if_pos rfl))
  obtain ⟨dropped, hpages⟩ : ∃ dropped, s.pages.setPage idx marked.2 = dropped ++ s'.pages := by
    rcases hleft with ⟨-, rfl⟩ | ⟨-, first, dropped, hpages⟩
    · exact ⟨[], rfl⟩
    · exact ⟨first :: dropped, hpages⟩
  refine ⟨?_, fun batchId bits' hbits' => ?_⟩
  · have hok' := hfades.ok
    rw [hpages] at hok'
    exact hok'.suffix
  · rw [← hset]
    exact bitsOf_of_suffix hsorted hpages hbits'

theorem isInUse_iff
    (page : IndexPage) :
    page.isInUse = true ↔ 0 < page.entries.count true := by
  rw [IndexPage.isInUse, List.any_eq_true, List.count_pos_iff]
  constructor
  · rintro ⟨bit, hmem, hbit⟩
    exact hbit ▸ hmem
  · intro hmem
    exact ⟨true, hmem, rfl⟩

/-- When the first page is dropped, in terms of the page before the mark. -/
theorem dropsFirst_iff
    {idx : Nat} {page : IndexPage} {marked : Nat × IndexPage}
    (hmarked : page.markValueAsDeleted vid = .value marked) :
    dropsFirst idx marked.2 = true ↔
      idx = 0 ∧ page.isSealed = true ∧ page.entries.count true = 1 := by
  obtain ⟨-, -, -, hsealed, place, hplace, hentries⟩ := Pages.fields_of_mark hmarked
  have hcount := IndexPage.count_set_false hplace
  have huse := isInUse_iff marked.2
  rw [hentries] at huse
  rw [dropsFirst, Bool.and_eq_true, Bool.and_eq_true, beq_iff_eq, Bool.not_eq_true', hsealed,
    ← Bool.not_eq_true, huse]
  constructor
  · rintro ⟨⟨hidx, hunused⟩, hseal⟩
    exact ⟨hidx, hseal, by omega⟩
  · rintro ⟨hidx, hseal, hone⟩
    exact ⟨⟨hidx, by omega⟩, hseal⟩

theorem markValueAsDeleted_keeps
    {idx key : Nat} {page : IndexPage} {marked : Nat × IndexPage}
    (hfound : s.pages.findPageIdx vid.1 = some idx)
    (hidx : s.pages[idx]? = some (key, page))
    (hmarked : page.markValueAsDeleted vid = .value marked)
    (hdrops : dropsFirst idx marked.2 = false) :
    markValueAsDeleted vid s =
      (.value (page.getIdentifier, marked.1), s.setPage idx marked.2) := by
  have hident : marked.2.getIdentifier = page.getIdentifier :=
    congrArg IndexPageHeader.identifier (Pages.fields_of_mark hmarked).1
  have hpage : s.pages.pageAt idx = .value page := by
    rw [Pages.pageAt, hidx]
  rw [markValueAsDeleted_run hfound hpage hmarked, afterMark,
    if_neg (by rw [Bool.not_eq_true]; exact hdrops), hident]
  rfl

/-- A batch whose last bit was cleared is removed. -/
theorem tryToRemove_closes
    {batchId : Nat} {bits : List Bool} {batch : ValueBatch}
    (hok : s.pages.Ok)
    (hsized : s.pages.Sized)
    (hbits : s.pages.bitsOf batchId = some bits)
    (hnone : bits.count true = 0)
    (hstate : s.pages.stateOf batchId ≠ some .deleted)
    (hfile : s.batchFiles batchId = some batch)
    (hmin : max s.metadata.minimumBatch minValueBatchId < batchId ∨
      s.metadata.minimumBatch < max batchId (s.metadata.nextBatch - 1)) :
    ∃ idx key page s', s.pages.findPageIdx batchId = some idx ∧
      s.pages[idx]? = some (key, page) ∧ tryToRemove batchId s = (.value true, s') ∧
      s'.pages = s.pages.setPage idx
        (page.setState (batchId - page.header.startBatch) .deleted) ∧
      s'.batchFiles = Function.update s.batchFiles batchId none := by
  obtain ⟨idx, ⟨key, page⟩, hfound, hidx, hown⟩ := Pages.page_of_bitsOf hbits
  have hmark := IndexPage.markBatchAsDeleted_eq hown (hsized _ (List.mem_of_getElem? hidx))
    (by rw [← Pages.stateOf_of_found hfound hidx]; exact hstate)
  have hpage : s.pages.pageAt idx = .value page := by
    rw [Pages.pageAt, hidx]
  let s₁ := s.setPage idx (page.setState (batchId - page.header.startBatch) .deleted)
  have hmarked : markBatchAsDeleted batchId s = (.value (), s₁) := by
    rw [markBatchAsDeleted, markBatch_of_some hfound, hpage]
    change (liftM (page.markBatchAsDeleted batchId) >>= _ : Call ValueLog Unit) s = _
    rw [hmark]
    rfl
  have hcount : s.pages.countActiveEntries batchId = .value 0 := by
    rw [Pages.countActiveEntries_eq hok hbits, hnone]
  have hviews : s₁.pages.views = s.pages.views := Pages.views_setPage hpage rfl
  have hcount₁ : s₁.pages.countActiveEntries batchId = .value 0 :=
    (Pages.countActiveEntries_of_views_eq hviews batchId).trans hcount
  have hremove := removeBatchFromDisk_eq (s := s₁) hfile hcount₁
  rw [tryToRemove_of_empty hcount, Call.bind_of_value hmarked]
  by_cases hbehind : max s.metadata.minimumBatch minValueBatchId < batchId
  · rw [if_pos (by exact hbehind)] at hremove
    rw [Call.bind_of_value hremove]
    exact ⟨idx, key, page, _, hfound, hidx, rfl, rfl, rfl⟩
  · rw [if_neg (by exact hbehind), if_pos (by exact hmin.resolve_left hbehind)] at hremove
    rw [Call.bind_of_value hremove]
    exact ⟨idx, key, page, _, hfound, hidx, rfl, rfl, rfl⟩

theorem sized_setPage
    {pages : Pages} {idx key : Nat} {page page' : IndexPage}
    (hsized : pages.Sized)
    (hidx : pages[idx]? = some (key, page))
    (hoffsets : page'.offsets = page.offsets) :
    (pages.setPage idx page').Sized := by
  intro entry hentry
  obtain ⟨j, hj⟩ := List.getElem?_of_mem hentry
  rw [Pages.getElem?_setPage] at hj
  obtain ⟨old, hold, rfl⟩ := Option.map_eq_some_iff.mp hj
  split_ifs with hji
  · rw [hoffsets]
    exact hsized _ (List.mem_of_getElem? hidx)
  · exact hsized old (List.mem_of_getElem? hold)

/-- No active value is left in the batch that is looked at after the mark, the one with the number
of the index page of the value. -/
def LeavesNone (s : ValueLog) (vid : ValueId) : Prop :=
  ∀ idx ∈ s.pages.findPageIdx vid.1, ∀ entry ∈ s.pages[idx]?,
    ∀ bits ∈ s.pages.bitsOf entry.2.getIdentifier,
      (if entry.2.getIdentifier = vid.1 then bits.set vid.2 false else bits).count true = 0

instance (s : ValueLog) (vid : ValueId) : Decidable (s.LeavesNone vid) :=
  inferInstanceAs (Decidable (∀ idx ∈ s.pages.findPageIdx vid.1, ∀ entry ∈ s.pages[idx]?,
    ∀ bits ∈ s.pages.bitsOf entry.2.getIdentifier, _))

/-- Then nothing is returned to be inserted again. -/
theorem LeavesNone.entries_eq_nil
    {entries : List (Key × Value)}
    (h : s.LeavesNone vid)
    (hok : s.pages.Ok)
    (hrun : markValueDeleted vid s = (.value entries, s')) :
    entries = [] := by
  obtain ⟨place, s₁, hmark, hrun⟩ := Call.bind_eq_value hrun
  obtain ⟨idx, key, page, marked, hfound, hidx, hmarked, hplace, -, -⟩ :=
    markValueAsDeleted_returns hmark
  obtain ⟨own, hown, -⟩ := Pages.bitsOf_mark hok hfound hidx hmarked
  obtain ⟨hok₁, hbits₁⟩ := bitsOf_of_returns hok hown hmark
  change (tryToRemove place.1 >>= _ : Call ValueLog _)
    { s₁ with deletions := s₁.deletions ++ [place] } = _ at hrun
  obtain ⟨removed, s₂, hremove, hrun⟩ := Call.bind_eq_value hrun
  rcases tryToRemove_returns hremove with ⟨rfl, -, n, hcount, hpos⟩ | ⟨rfl, -⟩
  · exfalso
    obtain ⟨bits, hbits⟩ := Pages.bitsOf_of_countActiveEntries hcount hpos
    rw [Pages.countActiveEntries_eq hok₁ hbits] at hcount
    cases hcount
    -- the bits of the batch before the mark
    have hbefore := hbits₁ place.1 bits hbits
    rw [hplace] at hbefore
    split_ifs at hbefore with hsame
    · cases hbefore
      have hnone := h idx hfound _ hidx own (hsame ▸ hown)
      rw [if_pos hsame] at hnone
      omega
    · have hnone := h idx hfound _ hidx bits hbefore
      rw [if_neg hsame] at hnone
      omega
  · cases hrun
    rfl

end Marked

end ValueLog

end Values
end LsmStore
