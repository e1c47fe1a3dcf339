import LsmStore.Call
import LsmStore.Lib.SortedAssoc
import LsmStore.Values.Batch

/-!
# The value log

The value index and the value batches, with their files and the part of the
manifest that belongs to them.  Of the write-ahead log only the deletions of
values are kept here; the index of a reopened database is the one on disk with
the deletions since the log offset marked once more.

All writes to disk succeed.  The cache of batches is left out: a batch is taken
out of the cache when its file is removed.
-/

namespace LsmStore
namespace Values

/-- The part of the manifest for the value log. -/
structure ValueLogMetadata where
  nextBatch : Nat
  minimumBatch : Nat
  nextIndexPage : Nat
  minimumIndexPage : Nat
deriving DecidableEq

/-- The pages of the index, each with its first batch. -/
abbrev Pages := List (Nat × IndexPage)

/-- `deletions` are the `DeleteValue` entries of the write-ahead log, oldest first. -/
structure ValueLog where
  metadata : ValueLogMetadata
  pages : Pages
  pageFiles : Nat → Option PageFile
  batchFiles : Nat → Option ValueBatch
  deletions : List (Nat × Nat)

/-- A panic. -/
def fail {σ α : Type} (message : String) : Call σ α :=
  Call.lift (.panic message)

namespace Pages

/-- The page that may have a batch: the search is by the first batch of the pages. -/
def findPageIdx (pages : Pages) (batchId : Nat) : Option Nat :=
  match SortedAssoc.position pages batchId with
  | .ok i => some i
  | .error 0 => none
  | .error (i + 1) => some i

/-- `pages[idx]`. -/
def pageAt (pages : Pages) (idx : Nat) : Outcome IndexPage :=
  match pages[idx]? with
  | some entry => .value entry.2
  | none => .panic "Out of bounds access"

def setPage (pages : Pages) (idx : Nat) (page : IndexPage) : Pages :=
  pages.modify idx fun entry => (entry.1, page)

theorem getElem?_of_pageAt
    {pages : Pages} {idx : Nat} {page : IndexPage}
    (h : pages.pageAt idx = .value page) :
    ∃ key, pages[idx]? = some (key, page) := by
  unfold pageAt at h
  cases hidx : pages[idx]? with
  | none =>
      rw [hidx] at h
      cases h
  | some entry =>
      rw [hidx] at h
      cases h
      exact ⟨entry.1, rfl⟩

theorem length_setPage
    (pages : Pages) (idx : Nat) (page : IndexPage) :
    (pages.setPage idx page).length = pages.length :=
  List.length_modify _ _ _

theorem getElem?_setPage
    (pages : Pages) (idx : Nat) (page : IndexPage) (j : Nat) :
    (pages.setPage idx page)[j]? =
      pages[j]?.map fun entry => if j = idx then (entry.1, page) else entry := by
  rw [setPage, List.getElem?_modify]
  by_cases hj : j = idx
  · subst hj
    simp
  · simp [hj, Ne.symm hj]

def countActiveEntries (pages : Pages) (batchId : Nat) : Outcome Nat :=
  match pages.findPageIdx batchId with
  | some idx => do
      let page ← pages.pageAt idx
      page.countActiveEntries batchId
  | none => .value 0

def getActiveEntries (pages : Pages) (batchId : Nat) : Outcome (List Nat) :=
  match pages.findPageIdx batchId with
  | some idx => do
      let page ← pages.pageAt idx
      page.getActiveEntries batchId
  | none => .value []

/-- The recovery marks a value by its place. -/
def markValueAsDeletedAt (pages : Pages) (pageId offset : Nat) : Outcome Pages :=
  match SortedAssoc.position (pages.map fun entry => (entry.2.getIdentifier, entry.2)) pageId with
  | .ok idx => do
      let page ← pages.pageAt idx
      let page ← page.markValueAsDeletedAt offset
      .value (pages.setPage idx page)
  | .error _ => .panic s!"No page with id={pageId}"

/-- The recovery goes through the deletions in the log. -/
def replay : List (Nat × Nat) → Pages → Outcome Pages
  | [], pages => .value pages
  | deletion :: deletions, pages => do
      let pages ← pages.markValueAsDeletedAt deletion.1 deletion.2
      replay deletions pages

end Pages

namespace ValueLog

/-! ## The manifest -/

def setMinimumValueBatchId (id : Nat) : Call ValueLog Unit := do
  let s ← get
  if s.metadata.minimumBatch < id then
    set { s with metadata := { s.metadata with minimumBatch := id } }
  else fail "assertion failed: meta.value_log.minimum_batch < offset"

/-- The assertion is about the minimum index page; what is set is the minimum batch. -/
def setMinimumValueIndexPageId (id : Nat) : Call ValueLog Unit := do
  let s ← get
  if s.metadata.minimumIndexPage < id then
    set { s with metadata := { s.metadata with minimumBatch := id } }
  else fail "assertion failed: meta.value_log.minimum_index_page < offset"

/-! ## The index -/

def setPage (s : ValueLog) (idx : Nat) (page : IndexPage) : ValueLog :=
  { s with pages := s.pages.setPage idx page }

/-- The page gets the next identifier; it is not written yet. -/
def createNewPage (minBatch : Nat) (s : ValueLog) : ValueLog :=
  let pageId := s.metadata.nextIndexPage
  { s with
    metadata := { s.metadata with nextIndexPage := pageId + 1 }
    pages := s.pages ++ [(minBatch, IndexPage.new pageId minBatch)] }

/-- Write a page to disk, if it has changed. -/
def syncPage [BitPacking] (s : ValueLog) (idx : Nat) : ValueLog :=
  match s.pages[idx]? with
  | none => s
  | some (_, page) =>
      if page.dirty then
        { s.setPage idx page.written with
          pageFiles := Function.update s.pageFiles page.getIdentifier (some page.encode) }
      else s

/-- `ValueIndex::sync`. -/
def sync [BitPacking] (s : ValueLog) : ValueLog :=
  (List.range s.pages.length).foldl syncPage s

/-- A new value log has one page, and its file. -/
def new [BitPacking] : ValueLog :=
  (createNewPage minValueBatchId {
    metadata := ⟨minValueBatchId, 0, minValueIndexPageId, minValueIndexPageId⟩
    pages := []
    pageFiles := fun _ => none
    batchFiles := fun _ => none
    deletions := [] }).syncPage 0

/-- Try to fit a batch into the last page. -/
def expandLast (numEntries : Nat) : Call ValueLog Bool := do
  let s ← get
  match s.pages.getLast? with
  | none => pure false
  | some (_, page) => do
      let expanded ← page.expand numEntries
      set (s.setPage (s.pages.length - 1) expanded.2)
      pure expanded.1

/-- `ValueIndex::add_batch`. -/
def addBatch [BitPacking] (batchId numEntries : Nat) : Call ValueLog Unit := do
  let fits ← expandLast numEntries
  if fits then
    modify fun s => s.syncPage (s.pages.length - 1)
  else do
    modify (createNewPage batchId)
    let success ← expandLast numEntries
    if success then
      modify fun s => s.syncPage (s.pages.length - 1)
    else fail "Data did not fit in new page?"

def removePageFile (id : Nat) : Call ValueLog Unit := do
  let s ← get
  match s.pageFiles id with
  | some _ => set { s with pageFiles := Function.update s.pageFiles id none }
  | none => Call.lift (.error (.io "Failed to remove value index page" notFound))

/-- The loop that removes the oldest pages as long as they are sealed and not in use. -/
def removeUnusedPages : Pages → Call ValueLog Unit
  | [] => fail "called `Option::unwrap()` on a `None` value"
  | (_, page) :: rest =>
      if !page.isSealed || page.isInUse then setMinimumValueIndexPageId page.getIdentifier
      else do
        removePageFile page.getIdentifier
        modify fun s => { s with pages := rest }
        removeUnusedPages rest

/-- `ValueIndex::mark_value_as_deleted`. -/
def markValueAsDeleted (vid : ValueId) : Call ValueLog (Nat × Nat) := do
  let s ← get
  match s.pages.findPageIdx vid.1 with
  | none => fail "Outdated batch?"
  | some pageIdx => do
      let page ← s.pages.pageAt pageIdx
      let marked ← page.markValueAsDeleted vid
      set (s.setPage pageIdx marked.2)
      if pageIdx == 0 && !marked.2.isInUse && marked.2.isSealed then
        removeUnusedPages (s.pages.setPage pageIdx marked.2)
      pure (marked.2.getIdentifier, marked.1)

/-- Change the state of a batch in the index. -/
def markBatch (mark : IndexPage → Nat → Outcome (Nat × IndexPage)) (batchId : Nat) :
    Call ValueLog Unit := do
  let s ← get
  match s.pages.findPageIdx batchId with
  | none => fail "Outdated batch?"
  | some pageIdx => do
      let page ← s.pages.pageAt pageIdx
      let marked ← mark page batchId
      set (s.setPage pageIdx marked.2)

def markBatchAsDeleted (batchId : Nat) : Call ValueLog Unit :=
  markBatch IndexPage.markBatchAsDeleted batchId

def markBatchAsCompacted (batchId : Nat) : Call ValueLog Unit :=
  markBatch IndexPage.markBatchAsCompacted batchId

/-! ## Batches -/

def getBatch (s : ValueLog) (identifier : Nat) : Outcome ValueBatch :=
  match s.batchFiles identifier with
  | some batch => .value batch
  | none => .error (.io "Failed to read value log batch" notFound)

/-- `get_ref`, and the value it refers to. -/
def getValue (s : ValueLog) (vid : ValueId) : Outcome Value := do
  let batch ← s.getBatch vid.1
  batch.getValue vid.2

/-- The loop of `remove_batch_from_disk` looks at one and the same batch. -/
def newMinimum (s : ValueLog) (batchId : Nat) : Nat → Nat → Outcome Nat
  | 0, minimum => .value minimum
  | rounds + 1, minimum => do
      let numActive ← s.pages.countActiveEntries batchId
      if 0 < numActive then .value minimum else newMinimum s batchId rounds (minimum + 1)

def removeBatchFromDisk (batchId : Nat) : Call ValueLog Unit := do
  let s ← get
  match s.batchFiles batchId with
  | none => Call.lift (.error (.io "Failed to remove value log batch" notFound))
  | some _ => do
      set { s with batchFiles := Function.update s.batchFiles batchId none }
      if max s.metadata.minimumBatch minValueBatchId < batchId then pure ()
      else do
        let mostRecent := s.metadata.nextBatch - 1
        let minimum ← s.newMinimum batchId (mostRecent - batchId) batchId
        setMinimumValueBatchId minimum

def tryToRemove (batchId : Nat) : Call ValueLog Bool := do
  let s ← get
  let numActive ← s.pages.countActiveEntries batchId
  if 0 < numActive then pure false
  else do
    markBatchAsDeleted batchId
    removeBatchFromDisk batchId
    pure true

/-- The share of active values is computed in whole numbers. -/
def tryToCompact (batchId : Nat) : Call ValueLog (Option (List (Key × Value))) := do
  let s ← get
  let batch ← s.getBatch batchId
  let numEntries ← batch.totalNumValues
  let numActive ← s.pages.countActiveEntries batchId
  if numEntries = 0 then fail "attempt to divide by zero"
  else if (numActive * 100) / (numEntries * 100) < 25 then do
    let offsets ← s.pages.getActiveEntries batchId
    markBatchAsCompacted batchId
    let entries ← batch.getEntries offsets
    pure (some entries)
  else pure none

/-- `ValueLog::mark_value_deleted`: what is looked at after the deletion is logged is the batch
with the number of the page. -/
def markValueDeleted (vid : ValueId) : Call ValueLog (List (Key × Value)) := do
  let place ← markValueAsDeleted vid
  modify fun s => { s with deletions := s.deletions ++ [place] }
  let removed ← tryToRemove place.1
  if removed then pure []
  else do
    let entries ← tryToCompact place.1
    pure (entries.getD [])

def makeBatch : Call ValueLog Nat := do
  let s ← get
  let id := s.metadata.nextBatch
  set { s with metadata := { s.metadata with nextBatch := id + 1 } }
  pure id

/-- The value batch of a flushed memtable: `make_batch`, `add_entry` for every value, and
`finish`. -/
def writeBatch [BitPacking] (entries : List (Key × Value)) : Call ValueLog (List ValueId) := do
  let id ← makeBatch
  let built ← (ValueBatchBuilder.new id).addEntries entries
  modify fun s =>
    { s with batchFiles := Function.update s.batchFiles id (some ⟨built.2.data⟩) }
  addBatch id (u32 built.2.offsets.length)
  pure built.1

/-! ## The calls, case by case -/

section Cases

variable {s : ValueLog}

theorem expandLast_of_none
    (h : s.pages.getLast? = none)
    (numEntries : Nat) :
    expandLast numEntries s = (.value false, s) := by
  change (match s.pages.getLast? with
    | none => _
    | some (_, page) => _ : Call ValueLog Bool) s = _
  rw [h]
  rfl

theorem expandLast_of_some
    {key : Nat} {page : IndexPage}
    (h : s.pages.getLast? = some (key, page))
    (numEntries : Nat) :
    expandLast numEntries s = (do
      let expanded ← page.expand numEntries
      set (s.setPage (s.pages.length - 1) expanded.2)
      pure expanded.1 : Call ValueLog Bool) s := by
  change (match s.pages.getLast? with
    | none => _
    | some (_, page) => _ : Call ValueLog Bool) s = _
  rw [h]

theorem removePageFile_of_none
    {id : Nat}
    (h : s.pageFiles id = none) :
    removePageFile id s =
      (.error (.io "Failed to remove value index page" notFound), s) := by
  change (match s.pageFiles id with
    | some _ => _
    | none => _ : Call ValueLog Unit) s = _
  rw [h]
  rfl

theorem removePageFile_of_some
    {id : Nat} {file : PageFile}
    (h : s.pageFiles id = some file) :
    removePageFile id s =
      (.value (), { s with pageFiles := Function.update s.pageFiles id none }) := by
  change (match s.pageFiles id with
    | some _ => _
    | none => _ : Call ValueLog Unit) s = _
  rw [h]
  rfl

theorem markValueAsDeleted_of_none
    {vid : ValueId}
    (h : s.pages.findPageIdx vid.1 = none) :
    markValueAsDeleted vid s = (.panic "Outdated batch?", s) := by
  change (match s.pages.findPageIdx vid.1 with
    | none => _
    | some pageIdx => _ : Call ValueLog (Nat × Nat)) s = _
  rw [h]
  rfl

/-- What the index does once it has marked a value in a page. -/
def afterMark (pages : Pages) (pageIdx : Nat) (marked : Nat × IndexPage) :
    Call ValueLog (Nat × Nat) := do
  if pageIdx == 0 && !marked.2.isInUse && marked.2.isSealed then
    removeUnusedPages (pages.setPage pageIdx marked.2)
  pure (marked.2.getIdentifier, marked.1)

theorem markValueAsDeleted_of_some
    {vid : ValueId} {pageIdx : Nat}
    (h : s.pages.findPageIdx vid.1 = some pageIdx) :
    markValueAsDeleted vid s = (do
      let page ← s.pages.pageAt pageIdx
      let marked ← page.markValueAsDeleted vid
      set (s.setPage pageIdx marked.2)
      afterMark s.pages pageIdx marked : Call ValueLog (Nat × Nat)) s := by
  change (match s.pages.findPageIdx vid.1 with
    | none => _
    | some pageIdx => _ : Call ValueLog (Nat × Nat)) s = _
  rw [h]
  rfl

theorem markBatch_of_none
    {batchId : Nat}
    (h : s.pages.findPageIdx batchId = none)
    (mark : IndexPage → Nat → Outcome (Nat × IndexPage)) :
    markBatch mark batchId s = (.panic "Outdated batch?", s) := by
  change (match s.pages.findPageIdx batchId with
    | none => _
    | some pageIdx => _ : Call ValueLog Unit) s = _
  rw [h]
  rfl

theorem markBatch_of_some
    {batchId pageIdx : Nat}
    (h : s.pages.findPageIdx batchId = some pageIdx)
    (mark : IndexPage → Nat → Outcome (Nat × IndexPage)) :
    markBatch mark batchId s = (do
      let page ← s.pages.pageAt pageIdx
      let marked ← mark page batchId
      set (s.setPage pageIdx marked.2) : Call ValueLog Unit) s := by
  change (match s.pages.findPageIdx batchId with
    | none => _
    | some pageIdx => _ : Call ValueLog Unit) s = _
  rw [h]

theorem removeBatchFromDisk_of_none
    {batchId : Nat}
    (h : s.batchFiles batchId = none) :
    removeBatchFromDisk batchId s =
      (.error (.io "Failed to remove value log batch" notFound), s) := by
  change (match s.batchFiles batchId with
    | none => _
    | some _ => _ : Call ValueLog Unit) s = _
  rw [h]
  rfl

theorem removeBatchFromDisk_of_some
    {batchId : Nat} {batch : ValueBatch}
    (h : s.batchFiles batchId = some batch) :
    removeBatchFromDisk batchId s =
      (if max s.metadata.minimumBatch minValueBatchId < batchId then pure ()
        else do
          let minimum ← s.newMinimum batchId (s.metadata.nextBatch - 1 - batchId) batchId
          setMinimumValueBatchId minimum : Call ValueLog Unit)
        { s with batchFiles := Function.update s.batchFiles batchId none } := by
  change (match s.batchFiles batchId with
    | none => _
    | some _ => _ : Call ValueLog Unit) s = _
  rw [h]
  rfl

end Cases

/-! ## Opening -/

/-- The file of a page, in the directory of the database. -/
def pageFileName (pageId : Nat) : String :=
  let digits := toString pageId
  "vindex" ++ "".pushn '0' (8 - digits.length) ++ digits ++ ".data"

/-- `IndexPage::open`. -/
def openPage [BitPacking] (s : ValueLog) (pageId : Nat) (isSealed : Bool) : Outcome IndexPage :=
  match s.pageFiles pageId with
  | some file => IndexPage.ofFile file isSealed
  | none =>
      let path := pageFileName pageId
      .error (.io s!"Failed to read value index page at `\"{path}\"`" notFound)

/-- The pages from the files, in the order of their identifiers; the last one is not sealed. -/
def openPages [BitPacking] (s : ValueLog) (maxId : Nat) : List Nat → Outcome Pages
  | [] => .value []
  | pageId :: pageIds => do
      let page ← s.openPage pageId (decide (pageId < maxId))
      let pages ← openPages s maxId pageIds
      .value ((page.header.startBatch, page) :: pages)

/-- `ValueIndex::open`. -/
def openIndex [BitPacking] (s : ValueLog) : Outcome Pages :=
  let minId := s.metadata.minimumIndexPage
  let maxId := s.metadata.nextIndexPage - 1
  s.openPages maxId (List.range' minId (maxId + 1 - minId))

/-- The index of a reopened database, when the log offset is behind some of the deletions. -/
def reopen [BitPacking] (s : ValueLog) (logOffset : Nat) : Outcome Pages := do
  let pages ← s.openIndex
  pages.replay (s.deletions.drop logOffset)

end ValueLog
end Values
end LsmStore
