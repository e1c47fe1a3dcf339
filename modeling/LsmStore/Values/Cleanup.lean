import LsmStore.Values.Log

/-!
# Cleaning up after a deletion

When the deletion of a value has been logged, the value log looks for a batch
that can be removed or compacted.  Nothing of that is seen by a restart: the
states of the batches, the minimum batch and the batch files change, and a file
is removed only when its batch has no active values.
-/

namespace LsmStore
namespace Values

/-! ## What a restart depends on -/

/-- A page without the states of its batches. -/
structure PageView where
  header : IndexPageHeader
  dirty : Bool
  offsets : List Nat
  entries : List Bool
  isSealed : Bool

def IndexPage.view (p : IndexPage) : PageView where
  header := p.header
  dirty := p.dirty
  offsets := p.offsets
  entries := p.entries
  isSealed := p.isSealed

/-- The part of the value log that a restart depends on. -/
structure IndexState where
  minimumIndexPage : Nat
  nextIndexPage : Nat
  pages : List (Nat × PageView)
  pageFiles : Nat → Option PageFile
  deletions : List (Nat × Nat)

def Pages.views (pages : Pages) : List (Nat × PageView) :=
  pages.map fun entry => (entry.1, entry.2.view)

def ValueLog.indexState (s : ValueLog) : IndexState where
  minimumIndexPage := s.metadata.minimumIndexPage
  nextIndexPage := s.metadata.nextIndexPage
  pages := s.pages.views
  pageFiles := s.pageFiles
  deletions := s.deletions

section Views

variable {pages pages' : Pages}

/-- A change of the states of the batches is not seen. -/
theorem Pages.views_setPage
    {idx : Nat} {page page' : IndexPage}
    (h : pages.pageAt idx = .value page)
    (hview : page'.view = page.view) :
    (pages.setPage idx page').views = pages.views := by
  obtain ⟨key, hidx⟩ := Pages.getElem?_of_pageAt h
  apply List.ext_getElem?
  intro j
  rw [Pages.views, Pages.views, List.getElem?_map, List.getElem?_map, Pages.getElem?_setPage]
  by_cases hj : j = idx
  · subst hj
    simp [hidx, hview]
  · simp [hj]

theorem Pages.findPageIdx_of_views_eq
    (h : pages'.views = pages.views)
    (batchId : Nat) :
    pages'.findPageIdx batchId = pages.findPageIdx batchId := by
  have hkeys : pages'.map Prod.fst = pages.map Prod.fst := by
    have hfst := congrArg (List.map Prod.fst) h
    rw [Pages.views, Pages.views, List.map_map, List.map_map] at hfst
    exact hfst
  rw [Pages.findPageIdx, Pages.findPageIdx, SortedAssoc.position_congr hkeys]

theorem Pages.getElem?_of_views_eq
    {idx key : Nat} {page : IndexPage}
    (h : pages'.views = pages.views)
    (hidx : pages[idx]? = some (key, page)) :
    ∃ page', pages'[idx]? = some (key, page') ∧ page'.view = page.view := by
  have hview : pages'.views[idx]? = some (key, page.view) := by
    rw [h, Pages.views, List.getElem?_map, hidx]
    rfl
  rw [Pages.views, List.getElem?_map] at hview
  obtain ⟨entry, hentry, heq⟩ := Option.map_eq_some_iff.mp hview
  obtain ⟨hkey, hpage⟩ := Prod.mk.inj heq
  exact ⟨entry.2, by rw [hentry, ← hkey], hpage⟩

/-- Counting looks at the bits only. -/
theorem Pages.countActiveEntries_of_views_eq
    (h : pages'.views = pages.views)
    (batchId : Nat) :
    pages'.countActiveEntries batchId = pages.countActiveEntries batchId := by
  rw [Pages.countActiveEntries, Pages.countActiveEntries, Pages.findPageIdx_of_views_eq h]
  split
  · rename_i idx hidx
    cases hpage : pages[idx]? with
    | none =>
        have hpage' : pages'[idx]? = none := by
          have hlength := congrArg List.length h
          rw [Pages.views, Pages.views, List.length_map, List.length_map] at hlength
          rw [List.getElem?_eq_none_iff] at hpage ⊢
          omega
        simp only [Pages.pageAt, hpage, hpage']
    | some entry =>
        obtain ⟨key, page⟩ := entry
        obtain ⟨page', hpage', hview⟩ := Pages.getElem?_of_views_eq h hpage
        have hheader : page'.header = page.header := congrArg PageView.header hview
        have hoffsets : page'.offsets = page.offsets := congrArg PageView.offsets hview
        have hentries : page'.entries = page.entries := congrArg PageView.entries hview
        simp only [Pages.pageAt, hpage, hpage', Outcome.value_bind]
        rw [IndexPage.countActiveEntries, IndexPage.countActiveEntries, IndexPage.getBatchRange,
          IndexPage.getBatchRange, hheader, hoffsets, hentries]
  · rfl

end Views

/-! ## Cleaning up -/

/-- The index has the batch, and none of its values is active. -/
def ValueLog.IsEmpty (s : ValueLog) (batchId : Nat) : Prop :=
  (∃ idx, s.pages.findPageIdx batchId = some idx) ∧
    s.pages.countActiveEntries batchId = .value 0

/-- What happened from `s` to `s'` is not seen by a restart, and only files of batches without
active values were removed. -/
structure Cleans (s s' : ValueLog) : Prop where
  index : s'.indexState = s.indexState
  nextBatch : s'.metadata.nextBatch = s.metadata.nextBatch
  files : ∀ batchId, s'.batchFiles batchId = s.batchFiles batchId ∨
    s'.batchFiles batchId = none ∧ s.IsEmpty batchId

section Cleaning

variable {s₀ : ValueLog}

theorem Cleans.refl
    (s : ValueLog) :
    Cleans s s :=
  ⟨rfl, rfl, fun _ => Or.inl rfl⟩

theorem Cleans.views
    {s : ValueLog}
    (h : Cleans s₀ s) :
    s.pages.views = s₀.pages.views :=
  congrArg IndexState.pages h.index

theorem view_markBatchAsDeleted
    {page : IndexPage} {batchId : Nat} {marked : Nat × IndexPage}
    (h : page.markBatchAsDeleted batchId = .value marked) :
    marked.2.view = page.view := by
  obtain ⟨page', hpage, hmarked⟩ := Outcome.bind_eq_value h
  cases hmarked
  unfold IndexPage.markBatchAsDeletedAt at hpage
  split at hpage
  · cases hpage
  · cases hpage
  · cases hpage
    rfl

theorem view_markBatchAsCompacted
    {page : IndexPage} {batchId : Nat} {marked : Nat × IndexPage}
    (h : page.markBatchAsCompacted batchId = .value marked) :
    marked.2.view = page.view := by
  unfold IndexPage.markBatchAsCompacted at h
  dsimp only at h
  split at h
  · cases h
  · cases h
  · cases h
  · cases h
    rfl

theorem keeps_markBatch
    {mark : IndexPage → Nat → Outcome (Nat × IndexPage)}
    (hmark : ∀ page batchId marked, mark page batchId = .value marked →
      marked.2.view = page.view)
    (batchId : Nat) :
    Call.Keeps (Cleans s₀) (ValueLog.markBatch mark batchId) := by
  intro s hs
  cases hidx : s.pages.findPageIdx batchId with
  | none =>
      rw [ValueLog.markBatch_of_none hidx]
      exact hs
  | some pageIdx =>
      rw [ValueLog.markBatch_of_some hidx]
      refine Call.Keeps.after_lift hs fun page hpage => ?_
      refine Call.Keeps.after_lift hs fun marked hmarked => ?_
      refine ⟨?_, hs.nextBatch, hs.files⟩
      rw [← hs.index]
      change IndexState.mk _ _ (s.pages.setPage pageIdx marked.2).views _ _ = _
      rw [Pages.views_setPage hpage (hmark _ _ _ hmarked)]
      rfl

theorem keeps_setMinimumValueBatchId
    (id : Nat) :
    Call.Keeps (Cleans s₀) (ValueLog.setMinimumValueBatchId id) := by
  intro s hs
  change Cleans s₀ ((if s.metadata.minimumBatch < id then _ else _ : Call ValueLog Unit) s).2
  split_ifs
  · exact ⟨hs.index, hs.nextBatch, hs.files⟩
  · exact hs

theorem keeps_removeBatchFromDisk
    {batchId : Nat}
    (hempty : s₀.IsEmpty batchId) :
    Call.Keeps (Cleans s₀) (ValueLog.removeBatchFromDisk batchId) := by
  intro s hs
  cases hfile : s.batchFiles batchId with
  | none =>
      rw [ValueLog.removeBatchFromDisk_of_none hfile]
      exact hs
  | some batch =>
      have hs' : Cleans s₀ { s with
          batchFiles := Function.update s.batchFiles batchId none } := by
        refine ⟨hs.index, hs.nextBatch, ?_⟩
        intro other
        change Function.update s.batchFiles batchId none other = _ ∨
          Function.update s.batchFiles batchId none other = none ∧ _
        rw [Function.update_apply]
        split_ifs with heq
        · subst heq
          exact Or.inr ⟨rfl, hempty⟩
        · exact hs.files other
      rw [ValueLog.removeBatchFromDisk_of_some hfile]
      split_ifs
      · exact hs'
      · exact Call.Keeps.after_lift hs' fun minimum _ =>
          keeps_setMinimumValueBatchId minimum _ hs'

theorem keeps_tryToRemove
    (batchId : Nat) :
    Call.Keeps (Cleans s₀) (ValueLog.tryToRemove batchId) := by
  intro s hs
  refine Call.Keeps.after_lift hs fun numActive hactive => ?_
  split_ifs with hpos
  · exact hs
  · have hmark : Call.Keeps (Cleans s₀) (ValueLog.markBatchAsDeleted batchId) :=
      keeps_markBatch (fun _ _ _ => view_markBatchAsDeleted) batchId
    cases hidx : s.pages.findPageIdx batchId with
    | none =>
        -- a batch whose page is gone has no active values, but it is not found to be marked
        have hrun : ValueLog.markBatchAsDeleted batchId s = _ := ValueLog.markBatch_of_none hidx _
        rw [Call.bind_of_ne_value (by rw [hrun]; simp), hrun]
        exact hs
    | some idx =>
        have hempty : s₀.IsEmpty batchId := by
          refine ⟨⟨idx, ?_⟩, ?_⟩
          · rw [← Pages.findPageIdx_of_views_eq hs.views]
            exact hidx
          · rw [← Pages.countActiveEntries_of_views_eq hs.views, hactive,
              Nat.eq_zero_of_not_pos hpos]
        exact Call.Keeps.bind hmark (fun _ => Call.Keeps.bind
          (keeps_removeBatchFromDisk hempty) fun _ => Call.Keeps.pure true) s hs

theorem keeps_tryToCompact
    (batchId : Nat) :
    Call.Keeps (Cleans s₀) (ValueLog.tryToCompact batchId) := by
  intro s hs
  refine Call.Keeps.after_lift hs fun batch _ => ?_
  refine Call.Keeps.after_lift hs fun numEntries _ => ?_
  refine Call.Keeps.after_lift hs fun numActive _ => ?_
  split_ifs
  · exact hs
  · refine Call.Keeps.after_lift hs fun offsets _ => ?_
    refine Call.Keeps.bind
      (keeps_markBatch (fun _ _ _ => view_markBatchAsCompacted) batchId) ?_ s hs
    intro _
    exact Call.Keeps.bind (Call.Keeps.lift _) fun _ => Call.Keeps.pure _
  · exact hs

theorem cleans_markValueDeleted
    {vid : ValueId} {s s' : ValueLog} {place : Nat × Nat}
    (h : ValueLog.markValueAsDeleted vid s = (.value place, s')) :
    Cleans { s' with deletions := s'.deletions ++ [place] }
      (ValueLog.markValueDeleted vid s).2 := by
  rw [ValueLog.markValueDeleted, Call.bind_of_value h]
  refine Call.Keeps.bind (keeps_tryToRemove place.1) (fun removed => ?_) _ (Cleans.refl _)
  cases removed with
  | true =>
      exact Call.Keeps.pure _
  | false =>
      exact Call.Keeps.bind (keeps_tryToCompact place.1) fun _ => Call.Keeps.pure _

/-- A deletion that the index refuses, or cannot finish, is not logged. -/
theorem markValueDeleted_of_ne_value
    {vid : ValueId} {s : ValueLog}
    (h : ∀ place, (ValueLog.markValueAsDeleted vid s).1 ≠ .value place) :
    (ValueLog.markValueDeleted vid s).2 = (ValueLog.markValueAsDeleted vid s).2 :=
  Call.bind_of_ne_value h

end Cleaning

/-! ## The mark in the index -/

theorem markValueAsDeleted_run
    {vlog : ValueLog} {vid : ValueId} {idx : Nat} {page : IndexPage} {marked : Nat × IndexPage}
    (hidx : vlog.pages.findPageIdx vid.1 = some idx)
    (hpage : vlog.pages.pageAt idx = .value page)
    (hmarked : page.markValueAsDeleted vid = .value marked) :
    ValueLog.markValueAsDeleted vid vlog =
      ValueLog.afterMark vlog.pages idx marked (vlog.setPage idx marked.2) := by
  rw [ValueLog.markValueAsDeleted_of_some hidx, hpage]
  change (liftM (page.markValueAsDeleted vid) >>= _ : Call ValueLog (Nat × Nat)) vlog = _
  rw [hmarked]
  rfl

/-- The index either refuses a deletion, or marks it in one page and removes the pages that
are not needed any more. -/
theorem markValueAsDeleted_cases
    (vlog : ValueLog) (vid : ValueId) :
    (∃ o, ValueLog.markValueAsDeleted vid vlog = (o, vlog) ∧ ∀ place, o ≠ .value place) ∨
      ∃ idx key page marked, vlog.pages.findPageIdx vid.1 = some idx ∧
        vlog.pages[idx]? = some (key, page) ∧ page.markValueAsDeleted vid = .value marked ∧
        ValueLog.markValueAsDeleted vid vlog =
          ValueLog.afterMark vlog.pages idx marked (vlog.setPage idx marked.2) := by
  cases hidx : vlog.pages.findPageIdx vid.1 with
  | none =>
      exact Or.inl ⟨_, ValueLog.markValueAsDeleted_of_none hidx, by simp⟩
  | some idx =>
      have heq := ValueLog.markValueAsDeleted_of_some hidx
      rcases Call.lift_bind_cases (vlog.pages.pageAt idx) _ vlog with
        ⟨page, hpage, hrun⟩ | ⟨o, hrun, ho⟩
      · rcases Call.lift_bind_cases (page.markValueAsDeleted vid) _ vlog with
          ⟨marked, hmarked, -⟩ | ⟨o, hrun', ho⟩
        · obtain ⟨key, hget⟩ := Pages.getElem?_of_pageAt hpage
          exact Or.inr ⟨idx, key, page, marked, rfl, hget, hmarked,
            markValueAsDeleted_run hidx hpage hmarked⟩
        · exact Or.inl ⟨o, heq.trans (hrun.trans hrun'), ho⟩
      · exact Or.inl ⟨o, heq.trans hrun, ho⟩

end Values
end LsmStore
