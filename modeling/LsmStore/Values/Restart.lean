import LsmStore.Lib.Runs
import LsmStore.Values.AddBatch
import LsmStore.Values.Recovery

/-!
# The value index after a restart

Batches are added to the value index, values are marked as deleted, and the
index is synchronised when a memtable is flushed; then the log offset moves to
where the log was when the memtable was rotated.  A restart reads the pages from
the first to the last one that the manifest knows and repeats the deletions
behind the log offset.

The active values are the same after a restart as long as no page has been
removed, because the manifest never learns that the first page is gone, and as
long as no batch has exactly as many values as overflow a new page.
-/

namespace LsmStore
namespace Values

open BitPacking

/-- How far the flush of a memtable is, with the number of deletions that were in the log when
the memtable was rotated. -/
inductive FlushPc where
  | idle
  | rotated (logOffset : Nat)
  | synced (logOffset : Nat)

/-- A value log, and the number of deletions before the log offset. -/
structure Session where
  vlog : ValueLog
  logOffset : Nat
  flush : FlushPc

inductive SessionEvent where
  | addBatch (entries : List (Key × Value))
  | markValueDeleted (vid : ValueId)
  /-- The memtable is full. -/
  | rotate
  /-- The flusher calls `sync`. -/
  | sync
  /-- The flusher moves the log offset. -/
  | setOffset
  /-- The process ends, and the database is opened again. -/
  | reopen

namespace Session

variable [BitPacking]

def new : Session where
  vlog := ValueLog.new
  logOffset := 0
  flush := .idle

/-- A call that fails leaves what it has changed; a restart that fails changes nothing. -/
def step (s : Session) : SessionEvent → Session
  | .addBatch entries => { s with vlog := (ValueLog.writeBatch entries s.vlog).2 }
  | .markValueDeleted vid => { s with vlog := (ValueLog.markValueDeleted vid s.vlog).2 }
  | .rotate =>
      match s.flush with
      | .idle => { s with flush := .rotated s.vlog.deletions.length }
      | _ => s
  | .sync =>
      match s.flush with
      | .rotated logOffset => { s with vlog := s.vlog.sync, flush := .synced logOffset }
      | _ => { s with vlog := s.vlog.sync }
  | .setOffset =>
      match s.flush with
      | .synced logOffset => { s with logOffset := logOffset, flush := .idle }
      | _ => s
  | .reopen =>
      match s.vlog.reopen s.logOffset with
      | .value pages => { s with vlog := { s.vlog with pages := pages }, flush := .idle }
      | _ => s

def run (s : Session) (events : List SessionEvent) : Session :=
  Runs.run step s events

/-- A restart would succeed, and every batch would have the same active values. -/
def Survives (s : Session) : Prop :=
  ∃ pages, s.vlog.reopen s.logOffset = .value pages ∧
    ∀ batchId, pages.getActiveEntries batchId = s.vlog.pages.getActiveEntries batchId

end Session

/-- The deletion of a value empties the oldest page, and that page is sealed. -/
def EmptiesOldestPage (pages : Pages) (vid : ValueId) : Prop :=
  pages.findPageIdx vid.1 = some 0 ∧ ∃ page marked, pages.pageAt 0 = .value page ∧
    page.markValueAsDeleted vid = .value marked ∧ marked.2.isInUse = false ∧
      marked.2.isSealed = true

/-- What does no harm to the index on disk: every event but the addition of a batch of 4095
values and the deletion of the last value of the oldest page, when that is sealed. -/
def Session.Harmless (s : Session) : SessionEvent → Prop
  | .addBatch entries => TooLong entries ∨ u32 entries.length ≠ maxPageSize - 1
  | .markValueDeleted vid => ¬ EmptiesOldestPage s.vlog.pages vid
  | _ => True

/-! ## Synchronisation -/

section Sync

variable {vlog : ValueLog} {settled : List (Nat × Nat)}

theorem Pages.views_setPage_eq
    {pages : Pages} {idx : Nat} {key : Nat} {page : IndexPage}
    (h : pages[idx]? = some (key, page))
    (page' : IndexPage) :
    (pages.setPage idx page').views = pages.views.set idx (key, page'.view) := by
  apply List.ext_getElem?
  intro j
  rw [Pages.views, Pages.views, List.getElem?_map, Pages.getElem?_setPage, List.getElem?_set,
    List.length_map, List.getElem?_map]
  by_cases hj : idx = j
  · subst hj
    rw [h, if_pos rfl, if_pos (List.getElem?_eq_some_iff.mp h).1]
    simp
  · simp [hj, Ne.symm hj]

theorem Pages.getElem?_views
    {pages : Pages} {idx : Nat} {key : Nat} {page : IndexPage}
    (h : pages[idx]? = some (key, page)) :
    pages.views[idx]? = some (key, page.view) := by
  rw [Pages.views, List.getElem?_map, h]
  rfl

variable [BitPacking]

/-- One page of a value log changes, with its file and the deletions about it. -/
theorem Stored.replacePage
    {idx key : Nat} {page : IndexPage}
    (h : Stored vlog.indexState settled)
    (hidx : vlog.pages[idx]? = some (key, page))
    (page' : IndexPage) (files : Nat → Option PageFile) (deletions : List (Nat × Nat))
    (hid : page'.getIdentifier = page.getIdentifier)
    (hfiles : ∀ id, id ≠ page.getIdentifier → files id = vlog.pageFiles id)
    (hsub : ∀ d ∈ vlog.deletions, d ∈ deletions)
    (hsup : ∀ d ∈ deletions, d ∈ vlog.deletions ∨ d.1 = page.getIdentifier)
    (hlogged : ∀ i, (page.getIdentifier, i) ∈ deletions → page'.entries[i]? = some false)
    (hpage : PageStored { vlog.indexState with pageFiles := files, deletions := deletions }
      settled (key, page'.view)) :
    Stored ({ vlog.setPage idx page' with pageFiles := files, deletions := deletions } :
      ValueLog).indexState settled := by
  have hreplace : Stored { vlog.indexState with
      pages := vlog.indexState.pages.set idx (key, page'.view), pageFiles := files,
      deletions := deletions } settled :=
    h.replace (Pages.getElem?_views hidx) hid hfiles hsub hsup hlogged hpage
  change Stored { vlog.indexState with
    pages := vlog.pages.views.set idx (key, page'.view), pageFiles := files,
    deletions := deletions } settled at hreplace
  rw [← Pages.views_setPage_eq hidx] at hreplace
  exact hreplace

/-- A deletion in the log is about a value of its page that is deleted. -/
theorem Stored.entry_of_logged
    {idx key i : Nat} {page : IndexPage}
    (h : Stored vlog.indexState settled)
    (hidx : vlog.pages[idx]? = some (key, page))
    (hi : (page.getIdentifier, i) ∈ vlog.deletions) :
    page.entries[i]? = some false := by
  obtain ⟨e', he', hid, hfalse⟩ := h.logged _ hi
  rw [h.eq_of_id_eq he' (List.mem_of_getElem? (Pages.getElem?_views hidx)) hid] at hfalse
  exact hfalse

theorem views_syncPage
    (vlog : ValueLog) (idx : Nat) :
    (vlog.syncPage idx).pages.views =
      vlog.pages.views.modify idx fun e => (e.1, { e.2 with dirty := false }) := by
  unfold ValueLog.syncPage
  cases hidx : vlog.pages[idx]? with
  | none =>
      have hnone : vlog.pages.views.length ≤ idx := by
        rw [Pages.views, List.length_map]
        exact List.getElem?_eq_none_iff.mp hidx
      rw [List.modify_eq_self hnone]
  | some entry =>
      obtain ⟨key, page⟩ := entry
      have hview := Pages.getElem?_views hidx
      have hset : vlog.pages.views.modify idx (fun e => (e.1, { e.2 with dirty := false })) =
          vlog.pages.views.set idx (key, { page.view with dirty := false }) := by
        rw [List.modify_eq_set_getElem?, hview]
        rfl
      dsimp only
      rw [hset]
      split_ifs with hdirty
      · exact Pages.views_setPage_eq hidx _
      · have hclean : page.dirty = false := Bool.not_eq_true _ ▸ hdirty
        have hsame : (key, { page.view with dirty := false }) = (key, page.view) := by
          rw [← hclean]
          rfl
        obtain ⟨hlt, hget⟩ := List.getElem?_eq_some_iff.mp hview
        rw [hsame, ← hget, List.set_getElem_self]

theorem Stored.syncPage
    (h : Stored vlog.indexState settled)
    (idx : Nat) :
    Stored (vlog.syncPage idx).indexState settled := by
  unfold ValueLog.syncPage
  cases hidx : vlog.pages[idx]? with
  | none =>
      exact h
  | some entry =>
      obtain ⟨key, page⟩ := entry
      have hview := Pages.getElem?_views hidx
      have hstored := h.page _ (List.mem_of_getElem? hview)
      have hshort : page.entries.length ≤ maxPageSize := hstored.short
      dsimp only
      split_ifs with hdirty
      · obtain ⟨file, q, -, hbacks⟩ := hstored.file
        have hoffsets : ∀ offset ∈ page.offsets, offset < 65536 := by
          intro offset hoffset
          have hle : offset ≤ page.entries.length := hstored.offsets offset hoffset
          rw [maxPageSize] at hshort
          omega
        -- what is settled is deleted in the page as well
        have hsettled : ∀ i, (page.getIdentifier, i) ∈ settled → page.bit i = false := by
          intro i hi
          by_contra hbit
          have hkept := hbacks.kept i (Bool.not_eq_false _ ▸ hbit)
          rw [hbacks.settled i hi] at hkept
          cases hkept
        exact h.replacePage hidx page.written _ vlog.deletions rfl
          (fun id hne => Function.update_of_ne hne _ _) (fun _ hd => hd)
          (fun _ hd => Or.inl hd) (fun i => h.entry_of_logged hidx)
          ⟨hstored.key, hstored.short, hstored.offsets, hstored.isSealed, page.encode, _,
            Function.update_self _ _ _, backs_encode hoffsets hsettled⟩
      · exact h

theorem dirty_sync
    (vlog : ValueLog)
    {e : Nat × PageView}
    (he : e ∈ vlog.sync.pages.views) :
    e.2.dirty = false := by
  -- the pages before the one that is written next are clean
  have hfold : ∀ n j e, ((List.range n).foldl ValueLog.syncPage vlog).pages.views[j]? = some e →
      j < n → e.2.dirty = false := by
    intro n
    induction n with
    | zero =>
        exact fun j e _ hj => absurd hj (Nat.not_lt_zero j)
    | succ n ih =>
        rw [List.range_succ, List.foldl_append]
        intro j e he hj
        change (ValueLog.syncPage _ n).pages.views[j]? = some e at he
        rw [views_syncPage, List.getElem?_modify] at he
        obtain ⟨e', he', rfl⟩ := Option.map_eq_some_iff.mp he
        by_cases hn : n = j
        · rw [if_pos hn]
        · rw [if_neg hn]
          exact ih j e' he' (by omega)
  have hlength : ∀ n, ((List.range n).foldl ValueLog.syncPage vlog).pages.views.length =
      vlog.pages.length := by
    intro n
    induction n with
    | zero =>
        exact List.length_map _
    | succ n ih =>
        rw [List.range_succ, List.foldl_append]
        change (ValueLog.syncPage _ n).pages.views.length = _
        rw [views_syncPage, List.length_modify, ih]
  obtain ⟨j, hj⟩ := List.getElem?_of_mem he
  have hlt := (List.getElem?_eq_some_iff.mp hj).1
  exact hfold _ j e hj (lt_of_lt_of_eq hlt (hlength _))

/-- After a synchronisation all deletions are settled. -/
theorem Stored.sync
    (h : Stored vlog.indexState settled) :
    Stored vlog.sync.indexState vlog.sync.deletions := by
  have hstored : Stored vlog.sync.indexState settled :=
    Runs.invariant (I := fun s : ValueLog => Stored s.indexState settled)
      (fun _ idx hs => hs.syncPage idx) h (List.range vlog.pages.length)
  exact hstored.settle fun e he => dirty_sync vlog he

end Sync

/-! ## Deletions -/

section Delete

variable {vlog : ValueLog} {settled : List (Nat × Nat)}

/-- The deletion of a value clears its bit. -/
theorem markValueAsDeleted_value
    {p : IndexPage} {vid : ValueId} {marked : Nat × IndexPage}
    (hshort : p.entries.length ≤ maxPageSize)
    (h : p.markValueAsDeleted vid = .value marked) :
    p.entries[marked.1]? = some true ∧
      marked.2 = { p with entries := p.entries.set marked.1 false, dirty := true } := by
  obtain ⟨range, -, h⟩ := Outcome.bind_eq_value h
  obtain ⟨bits, hbits, h⟩ := Outcome.bind_eq_value h
  unfold IndexPage.slice at hbits
  split_ifs at hbits with hrange
  cases hbits
  rw [List.getElem?_take, List.getElem?_drop] at h
  split_ifs at h with hlt
  · split at h
    · cases h
    · cases h
    · rename_i hbit
      cases h
      have hpos := (List.getElem?_eq_some_iff.mp hbit).1
      rw [maxPageSize] at hshort
      have hplace : u16 range.1 + u16 vid.2 = range.1 + vid.2 := by
        rw [u16_eq (by omega), u16_eq (by omega)]
      dsimp only
      rw [hplace]
      exact ⟨hbit, rfl⟩

/-- The first page has no file any more, and the manifest does not know. -/
def FirstPageLost (s : ValueLog) : Prop :=
  s.metadata.minimumIndexPage = 1 ∧ 2 ≤ s.metadata.nextIndexPage ∧ s.pageFiles 1 = none

theorem keeps_removeUnusedPages
    (pages : Pages) :
    Call.Keeps FirstPageLost (ValueLog.removeUnusedPages pages) := by
  induction pages with
  | nil =>
      exact Call.Keeps.lift _
  | cons entry rest ih =>
      obtain ⟨key, page⟩ := entry
      rw [ValueLog.removeUnusedPages]
      split_ifs
      · intro s hs
        change FirstPageLost ((if s.metadata.minimumIndexPage < page.getIdentifier then _ else _ :
          Call ValueLog Unit) s).2
        split_ifs
        · exact hs
        · exact hs
      · refine Call.Keeps.bind ?_ fun _ => Call.Keeps.bind (fun s hs => hs) fun _ => ih
        intro s hs
        cases hfile : s.pageFiles page.getIdentifier with
        | none =>
            rw [ValueLog.removePageFile_of_none hfile]
            exact hs
        | some file =>
            rw [ValueLog.removePageFile_of_some hfile]
            refine ⟨hs.1, hs.2.1, ?_⟩
            change Function.update s.pageFiles page.getIdentifier none 1 = none
            rw [Function.update_apply]
            split_ifs
            · rfl
            · exact hs.2.2

variable [BitPacking]

theorem Stored.markValueDeleted
    {vid : ValueId}
    (h : Stored vlog.indexState settled)
    (hsafe : ¬ EmptiesOldestPage vlog.pages vid) :
    Stored (ValueLog.markValueDeleted vid vlog).2.indexState settled ∧
      ∃ more, (ValueLog.markValueDeleted vid vlog).2.deletions = vlog.deletions ++ more := by
  rcases markValueAsDeleted_cases vlog vid with ⟨o, hrun, ho⟩ |
    ⟨idx, key, page, marked, hidx, hget, hmarked, hrun⟩
  · have hsame : (ValueLog.markValueDeleted vid vlog).2 = vlog := by
      rw [ValueLog.markValueDeleted, Call.bind_of_ne_value (by rw [hrun]; exact ho), hrun]
    rw [hsame]
    exact ⟨h, [], (List.append_nil _).symm⟩
  · have hcond : ¬ (idx == 0 && !marked.2.isInUse && marked.2.isSealed) = true := by
      intro hcond
      simp only [Bool.and_eq_true, beq_iff_eq, Bool.not_eq_true'] at hcond
      obtain ⟨⟨rfl, huse⟩, hsealed⟩ := hcond
      exact hsafe ⟨hidx, page, marked, by rw [Pages.pageAt, hget], hmarked, huse, hsealed⟩
    rw [ValueLog.afterMark, if_neg hcond] at hrun
    have hview := Pages.getElem?_views hget
    have hstored := h.page _ (List.mem_of_getElem? hview)
    obtain ⟨hbit, hpage⟩ := markValueAsDeleted_value hstored.short hmarked
    have hid : marked.2.getIdentifier = page.getIdentifier := by
      rw [hpage]
      rfl
    have hstate := (cleans_markValueDeleted hrun).index
    rw [hid] at hstate
    change _ = ({ vlog.setPage idx marked.2 with
      deletions := vlog.deletions ++ [(page.getIdentifier, marked.1)] } : ValueLog).indexState
      at hstate
    refine ⟨?_, [(page.getIdentifier, marked.1)], congrArg IndexState.deletions hstate⟩
    rw [hstate]
    obtain ⟨file, q, hfile, hbacks⟩ := hstored.file
    refine h.replacePage hget marked.2 vlog.pageFiles
      (vlog.deletions ++ [(page.getIdentifier, marked.1)]) hid (fun _ _ => rfl)
      (fun _ hd => List.mem_append_left _ hd) ?_ ?_ ?_
    · intro d hd
      rcases List.mem_append.mp hd with hold | hnew
      · exact Or.inl hold
      · rw [List.mem_singleton.mp hnew]
        exact Or.inr rfl
    · intro i hi
      rw [hpage]
      change (page.entries.set marked.1 false)[i]? = some false
      rw [List.getElem?_set]
      rcases List.mem_append.mp hi with hold | hnew
      · split_ifs with hsame hlt
        · rfl
        · exact absurd (List.getElem?_eq_some_iff.mp hbit).1 hlt
        · exact h.entry_of_logged hget hold
      · cases List.mem_singleton.mp hnew
        rw [if_pos rfl, if_pos (List.getElem?_eq_some_iff.mp hbit).1]
    · rw [hpage]
      refine ⟨hstored.key, ?_, ?_, hstored.isSealed, file, q, hfile, hbacks.delete marked.1⟩
      · exact (List.length_set).trans_le hstored.short
      · intro offset hoffset
        exact (hstored.offsets offset hoffset).trans_eq List.length_set.symm

/-- Pages that cannot be read. -/
theorem openPages_of_missing
    {maxId id : Nat} {pageIds : List Nat}
    (hmem : id ∈ pageIds)
    (hmissing : vlog.pageFiles id = none)
    (pages : Pages) :
    vlog.openPages maxId pageIds ≠ .value pages := by
  intro hopen
  induction pageIds generalizing pages with
  | nil =>
      cases hmem
  | cons pageId pageIds ih =>
      rw [ValueLog.openPages] at hopen
      obtain ⟨page, hpage, hrest⟩ := Outcome.bind_eq_value hopen
      obtain ⟨rest, hrest', -⟩ := Outcome.bind_eq_value hrest
      rcases List.mem_cons.mp hmem with rfl | hmem'
      · rw [ValueLog.openPage, hmissing] at hpage
        cases hpage
      · exact ih hmem' rest hrest'

/-- A restart fails if the file of a page is missing. -/
theorem not_reopen_of_missing
    {id logOffset : Nat} {pages : Pages}
    (hmin : vlog.metadata.minimumIndexPage ≤ id)
    (hnext : id < vlog.metadata.nextIndexPage)
    (hmissing : vlog.pageFiles id = none) :
    vlog.reopen logOffset ≠ .value pages := by
  intro hopen
  obtain ⟨opened, hindex, -⟩ := Outcome.bind_eq_value hopen
  refine openPages_of_missing ?_ hmissing opened hindex
  rw [List.mem_range'_1]
  omega

/-- Nothing is read after the file of the first page was not found. -/
theorem FirstPageLost.reopen_eq
    (h : FirstPageLost vlog)
    (logOffset : Nat) :
    vlog.reopen logOffset = .error (.io
      "Failed to read value index page at `\"vindex00000001.data\"`" notFound) := by
  obtain ⟨hmin, hnext, hfile⟩ := h
  obtain ⟨k, hk⟩ : ∃ k, vlog.metadata.nextIndexPage = k + 2 :=
    ⟨vlog.metadata.nextIndexPage - 2, by omega⟩
  have hrange : List.range' 1 (k + 2 - 1 + 1 - 1) = 1 :: List.range' 2 k := rfl
  rw [ValueLog.reopen, ValueLog.openIndex, hmin, hk, hrange, ValueLog.openPages,
    ValueLog.openPage, hfile]
  rfl

/-- The deletion of the last value of the oldest page removes its file for good. -/
theorem Stored.firstPageLost
    {vid : ValueId}
    (h : Stored vlog.indexState settled)
    (hempties : EmptiesOldestPage vlog.pages vid) :
    FirstPageLost (ValueLog.markValueDeleted vid vlog).2 := by
  obtain ⟨hidx, page, marked, hpage, hmarked, huse, hsealed⟩ := hempties
  have hrun := markValueAsDeleted_run hidx hpage hmarked
  obtain ⟨key, hget⟩ := Pages.getElem?_of_pageAt hpage
  have hview := Pages.getElem?_views hget
  have hstored := h.page _ (List.mem_of_getElem? hview)
  obtain ⟨rest, hpages⟩ : ∃ rest, vlog.pages = (key, page) :: rest := by
    cases hlist : vlog.pages with
    | nil =>
        rw [hlist] at hget
        cases hget
    | cons entry rest =>
        rw [hlist] at hget
        cases hget
        exact ⟨rest, rfl⟩
  -- the oldest page is the first one
  have hid : marked.2.getIdentifier = 1 := by
    rw [(markValueAsDeleted_value hstored.short hmarked).2]
    have hids := congrArg List.head? h.ids
    have hnext := h.next
    change (vlog.pages.views.map _).head? = _ at hids
    rw [hpages, List.head?_range', if_neg (by omega)] at hids
    exact Option.some.inj hids
  obtain ⟨file, -, hfile, -⟩ := hstored.file
  have hfile' : vlog.pageFiles marked.2.getIdentifier = some file := by
    rw [(markValueAsDeleted_value hstored.short hmarked).2]
    exact hfile
  have hlost : FirstPageLost (ValueLog.afterMark vlog.pages 0 marked
      (vlog.setPage 0 marked.2)).2 := by
    rw [ValueLog.afterMark, huse, hsealed, if_pos (by decide)]
    refine Call.Keeps.after ?_ fun _ => Call.Keeps.pure _
    rw [hpages]
    change FirstPageLost (ValueLog.removeUnusedPages ((key, marked.2) :: rest)
      (vlog.setPage 0 marked.2)).2
    rw [ValueLog.removeUnusedPages, huse, hsealed, if_neg (by decide)]
    refine Call.Keeps.after ?_ fun _ => Call.Keeps.bind (fun s hs => hs) fun _ =>
      keeps_removeUnusedPages rest
    have hfile'' : (vlog.setPage 0 marked.2).pageFiles marked.2.getIdentifier = some file :=
      hfile'
    rw [ValueLog.removePageFile_of_some hfile'']
    refine ⟨h.minimum, h.next, ?_⟩
    change Function.update vlog.pageFiles marked.2.getIdentifier none 1 = none
    rw [hid, Function.update_self]
  rw [← hrun] at hlost
  -- cleaning up does not bring the page back
  cases hresult : ValueLog.markValueAsDeleted vid vlog with
  | mk outcome s' =>
      rw [hresult] at hlost
      by_cases hvalue : ∃ place, outcome = .value place
      · obtain ⟨place, rfl⟩ := hvalue
        have heq := (cleans_markValueDeleted hresult).index
        exact ⟨(congrArg IndexState.minimumIndexPage heq).trans hlost.1,
          hlost.2.1.trans_eq (congrArg IndexState.nextIndexPage heq).symm,
          (congrFun (congrArg IndexState.pageFiles heq) 1).trans hlost.2.2⟩
      · rw [markValueDeleted_of_ne_value (by rw [hresult]; exact not_exists.mp hvalue), hresult]
        exact hlost

end Delete

/-! ## New batches -/

section Add

variable [BitPacking] {vlog : ValueLog} {settled : List (Nat × Nat)} {page : IndexPage}
variable {key n : Nat}

/-- A page that gets no further batches. -/
def PageView.sealed (v : PageView) : PageView :=
  { v with isSealed := true }

/-- A page is added at the end, and the pages before are sealed. -/
theorem Stored.append
    {state : IndexState} {e : Nat × PageView} {files : Nat → Option PageFile}
    (h : Stored state settled)
    (hid : e.2.header.identifier = state.nextIndexPage)
    (hfiles : ∀ id, id ≠ state.nextIndexPage → files id = state.pageFiles id)
    (hpage : PageStored { state with
      nextIndexPage := state.nextIndexPage + 1, pageFiles := files } settled e) :
    Stored { state with
      nextIndexPage := state.nextIndexPage + 1
      pages := (state.pages.map fun old => (old.1, old.2.sealed)) ++ [e]
      pageFiles := files } settled := by
  have hnext := h.next
  have hlt : ∀ old ∈ state.pages, old.2.header.identifier < state.nextIndexPage := by
    intro old hold
    have hmem : old.2.header.identifier ∈ List.range' 1 (state.nextIndexPage - 1) := by
      rw [← h.ids]
      exact List.mem_map_of_mem hold
    rw [List.mem_range'_1] at hmem
    omega
  refine ⟨h.minimum, Nat.le_succ_of_le hnext, ?_, ?_, ?_, ?_, h.settles⟩
  · change ((state.pages.map fun old => (old.1, old.2.sealed)) ++ [e]).map _ =
      List.range' 1 (state.nextIndexPage + 1 - 1)
    rw [List.map_append, List.map_map]
    change (state.pages.map fun old => old.2.header.identifier) ++ _ = _
    obtain ⟨k, hk⟩ : ∃ k, state.nextIndexPage = k + 1 := ⟨state.nextIndexPage - 1, by omega⟩
    rw [h.ids, List.map_singleton, hid, hk, Nat.add_sub_cancel, Nat.add_sub_cancel,
      List.range'_concat, Nat.one_mul, Nat.add_comm 1 k]
  · intro new hnew
    rcases List.mem_append.mp hnew with hmem | hlast
    · obtain ⟨old, hold, rfl⟩ := List.mem_map.mp hmem
      have hstored := h.page old hold
      obtain ⟨file, q, hfile, hbacks⟩ := hstored.file
      refine ⟨hstored.key, hstored.short, hstored.offsets, ?_, file, q,
        (hfiles _ (Nat.ne_of_lt (hlt old hold))).trans hfile, ?_⟩
      · exact (decide_eq_true (p := _ < state.nextIndexPage + 1 - 1) (hlt old hold)).symm
      · exact ⟨hbacks.read, hbacks.clean, hbacks.header, hbacks.offsets, hbacks.length,
          hbacks.kept, hbacks.marked, hbacks.settled⟩
    · rw [List.mem_singleton.mp hlast]
      exact ⟨hpage.key, hpage.short, hpage.offsets, hpage.isSealed, hpage.file⟩
  · intro d hd
    obtain ⟨old, hold, hid', hfalse⟩ := h.logged d hd
    exact ⟨(old.1, old.2.sealed), List.mem_append_left _ (List.mem_map_of_mem hold), hid', hfalse⟩
  · intro id hge
    change state.nextIndexPage + 1 ≤ id at hge
    exact (hfiles id (by omega)).trans (h.fresh id (by omega))

section Stored

variable (h : Stored vlog.indexState settled)

include h

/-- The last page of the index is the one that is not sealed. -/
theorem Stored.last :
    ∃ key page, vlog.pages.getLast? = some (key, page) ∧
      vlog.pages[vlog.pages.length - 1]? = some (key, page) ∧
      page.getIdentifier = vlog.metadata.nextIndexPage - 1 ∧ page.isSealed = false := by
  have hnext : 2 ≤ vlog.metadata.nextIndexPage := h.next
  have hids : (vlog.pages.views.map fun e => e.2.header.identifier) =
      List.range' 1 (vlog.metadata.nextIndexPage - 1) := h.ids
  have hlength : vlog.pages.length = vlog.metadata.nextIndexPage - 1 := by
    have hlen := congrArg List.length hids
    rwa [Pages.views, List.length_map, List.length_map, List.length_range'] at hlen
  obtain ⟨⟨key, page⟩, hlast⟩ : ∃ e, vlog.pages.getLast? = some e :=
    Option.ne_none_iff_exists'.mp fun hnone => by
      rw [List.getLast?_eq_none_iff] at hnone
      rw [hnone] at hlength
      change 0 = _ at hlength
      omega
  have hget : vlog.pages[vlog.pages.length - 1]? = some (key, page) := by
    rw [← List.getLast?_eq_getElem?]
    exact hlast
  have hview := Pages.getElem?_views hget
  have hid : page.getIdentifier = vlog.metadata.nextIndexPage - 1 := by
    have hids' := congrArg (fun l : List Nat => l[vlog.pages.length - 1]?) hids
    rw [List.getElem?_map, hview, hlength, List.getElem?_range' (by omega)] at hids'
    have hvalue := Option.some.inj hids'
    change page.getIdentifier = _ at hvalue
    omega
  refine ⟨key, page, hlast, hget, hid, ?_⟩
  have hsealed := (h.page _ (List.mem_of_getElem? hview)).isSealed
  change page.isSealed = decide (page.getIdentifier < vlog.metadata.nextIndexPage - 1) at hsealed
  rw [hsealed, hid, decide_eq_false (lt_irrefl _)]

theorem Stored.grow
    (hget : vlog.pages[vlog.pages.length - 1]? = some (key, page))
    (hfits : (page.offsets.length + 1) * 2 + (page.entries.length + n) ≤ maxPageSize) :
    Stored ((vlog.setPage (vlog.pages.length - 1) (page.grown n)).syncPage
      (vlog.pages.length - 1)).indexState settled := by
  have hview := Pages.getElem?_views hget
  have hstored := h.page _ (List.mem_of_getElem? hview)
  have hlength : (page.entries ++ List.replicate n true).length = page.entries.length + n := by
    rw [List.length_append, List.length_replicate]
  have hu16 : u16 page.entries.length = page.entries.length := by
    rw [maxPageSize] at hfits
    exact u16_eq (by omega)
  have hoffsets : ∀ offset ∈ (page.grown n).offsets, offset ≤ page.entries.length := by
    intro offset hoffset
    rcases List.mem_append.mp hoffset with hold | hnew
    · exact hstored.offsets offset hold
    · rw [List.mem_singleton.mp hnew, hu16]
  have hlogged : ∀ i, (page.getIdentifier, i) ∈ vlog.deletions →
      (page.grown n).entries[i]? = some false := by
    intro i hi
    have hfalse := h.entry_of_logged hget hi
    exact (List.getElem?_append_left (List.getElem?_eq_some_iff.mp hfalse).1).trans hfalse
  have hsettled : ∀ i, (page.getIdentifier, i) ∈ settled → (page.grown n).bit i = false := by
    intro i hi
    rw [IndexPage.bit, List.getD_eq_getElem?_getD, hlogged i (h.settles _ hi)]
    rfl
  rw [syncPage_setPage hget rfl]
  refine h.replacePage hget _ _ vlog.deletions rfl
    (fun id hne => Function.update_of_ne hne _ _) (fun _ hd => hd) (fun _ hd => Or.inl hd)
    hlogged ⟨hstored.key, ?_, ?_, hstored.isSealed, _, _, Function.update_self _ _ _,
      backs_encode ?_ hsettled⟩
  · change (page.entries ++ List.replicate n true).length ≤ maxPageSize
    omega
  · intro offset hoffset
    change offset ≤ (page.entries ++ List.replicate n true).length
    have hle := hoffsets offset hoffset
    omega
  · intro offset hoffset
    have hle := hoffsets offset hoffset
    rw [maxPageSize] at hfits
    omega

/-- Only the last page was not sealed before. -/
theorem Stored.views_sealLast
    (hget : vlog.pages[vlog.pages.length - 1]? = some (key, page))
    (hid : page.getIdentifier = vlog.metadata.nextIndexPage - 1) :
    (vlog.pages.setPage (vlog.pages.length - 1) { page with isSealed := true }).views =
      vlog.pages.views.map fun old => (old.1, old.2.sealed) := by
  have hview := Pages.getElem?_views hget
  have hlast := (List.getElem?_eq_some_iff.mp hview).1
  rw [Pages.views_setPage_eq hget]
  apply List.ext_getElem?
  intro i
  rw [List.getElem?_set, List.getElem?_map]
  split_ifs with hi
  · subst hi
    rw [hview]
    rfl
  · cases hold : vlog.pages.views[i]? with
    | none =>
        rfl
    | some old =>
        have hmem := List.mem_of_getElem? hold
        have hne : old.2.header.identifier ≠ page.getIdentifier := by
          intro hsame
          rw [h.eq_of_id_eq hmem (List.mem_of_getElem? hview) hsame] at hold
          have hnodup : vlog.pages.views.Nodup :=
            List.Nodup.of_map _ (h.ascending.imp Nat.ne_of_lt)
          exact hi ((List.getElem?_inj hlast hnodup).mp (hview.trans hold.symm))
        have hrange : old.2.header.identifier ∈
            List.range' 1 (vlog.metadata.nextIndexPage - 1) := by
          rw [show List.range' 1 (vlog.metadata.nextIndexPage - 1) = _ from h.ids.symm]
          exact List.mem_map_of_mem hmem
        have hsealed : old.2.isSealed = true := by
          rw [(h.page old hmem).isSealed, decide_eq_true_iff]
          change _ < vlog.metadata.nextIndexPage - 1
          rw [List.mem_range'_1] at hrange
          omega
        rw [Option.map_some, PageView.sealed, ← hsealed]

theorem Stored.addPage
    (hget : vlog.pages[vlog.pages.length - 1]? = some (key, page))
    (hid : page.getIdentifier = vlog.metadata.nextIndexPage - 1)
    (hn : n + 2 ≤ maxPageSize)
    (batchId : Nat) :
    let created := ValueLog.createNewPage batchId (vlog.sealLast page)
    let new := (IndexPage.new vlog.metadata.nextIndexPage batchId).grown n
    Stored ((created.setPage (created.pages.length - 1) new).syncPage
      (created.pages.length - 1)).indexState settled := by
  intro created new
  have hfresh : ∀ i, (vlog.metadata.nextIndexPage, i) ∉ settled := by
    intro i hi
    obtain ⟨e, he, hid', -⟩ := h.logged _ (h.settles _ hi)
    have hrange : e.2.header.identifier ∈ List.range' 1 (vlog.metadata.nextIndexPage - 1) := by
      rw [show List.range' 1 (vlog.metadata.nextIndexPage - 1) = _ from h.ids.symm]
      exact List.mem_map_of_mem he
    rw [List.mem_range'_1, hid'] at hrange
    dsimp only at hrange
    omega
  rw [maxPageSize] at hn
  have hbacks : Backs vlog.deletions settled new.written.view new.encode _ :=
    backs_encode (by simp [new, IndexPage.grown, IndexPage.new, u16]) fun i hi =>
      absurd hi (hfresh i)
  have hstored : PageStored { vlog.indexState with
      nextIndexPage := vlog.metadata.nextIndexPage + 1
      pageFiles := Function.update vlog.pageFiles vlog.metadata.nextIndexPage (some new.encode) }
        settled (batchId, new.written.view) := by
    refine ⟨rfl, ?_, ?_, ?_, new.encode, _, Function.update_self _ _ _, hbacks⟩
    · change (([] : List Bool) ++ List.replicate n true).length ≤ maxPageSize
      rw [List.nil_append, List.length_replicate, maxPageSize]
      omega
    · intro offset hoffset
      rw [List.mem_singleton.mp hoffset]
      exact Nat.zero_le _
    · exact (decide_eq_false (lt_irrefl _)).symm
  have happend := h.append rfl (fun id hne => Function.update_of_ne hne _ _) hstored
  have hlast : created.pages[created.pages.length - 1]? =
      some (batchId, IndexPage.new vlog.metadata.nextIndexPage batchId) := by
    rw [length_createNewPage]
    exact getElem?_createNewPage batchId (vlog.sealLast page)
  have hviews : (created.pages.setPage (created.pages.length - 1) new.written).views =
      (vlog.pages.views.map fun old => (old.1, old.2.sealed)) ++
        [(batchId, new.written.view)] := by
    rw [length_createNewPage, setPage_createNewPage, ← h.views_sealLast hget hid, Pages.views,
      List.map_append]
    rfl
  rw [syncPage_setPage hlast rfl]
  change Stored (IndexState.mk _ _ (created.pages.setPage _ new.written).views _ _) settled
  rw [hviews]
  exact happend

/-- A batch keeps the invariant unless it overflows a new page. -/
theorem Stored.addBatch
    (hn : n ≠ maxPageSize - 1)
    (batchId : Nat) :
    Stored (ValueLog.addBatch batchId n vlog).2.indexState settled := by
  obtain ⟨key, page, hlast, hget, hid, hsealed⟩ := h.last
  rcases Nat.lt_or_ge n maxPageSize with hlt | hge
  · by_cases hfits : (page.offsets.length + 1) * 2 + (page.entries.length + n) ≤ maxPageSize
    · rw [addBatch_of_fits (expandLast_value hlast (expand_fits hsealed hfits))]
      change Stored (ValueLog.syncPage _ ((vlog.pages.setPage _ _).length - 1)).indexState settled
      rw [Pages.length_setPage]
      exact h.grow hget hfits
    · have hroom : n + 2 ≤ maxPageSize := by
        omega
      rw [addBatch_newPage hlast hsealed hroom hfits]
      exact h.addPage hget hid hroom batchId
  · have hpanic : page.expand n = .panic "assertion failed: num_entries < MAX_SIZE" := by
      unfold IndexPage.expand
      rw [if_neg (by simp [hsealed]), if_pos hge]
    have hrun := expandLast_panic hlast hpanic
    rw [ValueLog.addBatch, Call.bind_of_ne_value (by rw [hrun]; simp), hrun]
    exact h

/-- A batch that overflows a new page leaves that page without a file. -/
theorem Stored.addBatch_overflow
    (batchId : Nat) :
    let s := (ValueLog.addBatch batchId (maxPageSize - 1) vlog).2
    s.metadata.minimumIndexPage = 1 ∧
      s.metadata.nextIndexPage = vlog.metadata.nextIndexPage + 1 ∧
      s.pageFiles vlog.metadata.nextIndexPage = none := by
  intro s
  obtain ⟨key, page, hlast, -, -, hsealed⟩ := h.last
  have hfull : page.expand (maxPageSize - 1) = .value (false, { page with isSealed := true }) :=
    expand_full hsealed (by decide) (by rw [maxPageSize]; omega)
  have hnew : (IndexPage.new vlog.metadata.nextIndexPage batchId).expand (maxPageSize - 1) =
      .value (false, { IndexPage.new vlog.metadata.nextIndexPage batchId with
        isSealed := true }) :=
    expand_full rfl (by decide)
      (by change ¬ (0 + 1) * 2 + (0 + (maxPageSize - 1)) ≤ maxPageSize; decide)
  have hrun := expandLast_value (getLast?_createNewPage batchId (vlog.sealLast page)) hnew
  have hs : s = _ :=
    (addBatch_of_full (expandLast_value hlast hfull)).trans (addToNewPage_of_full hrun)
  rw [hs]
  exact ⟨h.minimum, rfl, h.fresh _ (le_refl _)⟩

end Stored

end Add

/-! ## Sessions -/

section Sessions

variable {vlog : ValueLog} {settled : List (Nat × Nat)}

/-- The log was at least as long when the memtable was rotated, and what was in it then is
settled once the index is synchronised. -/
def FlushPc.Within (deletions settled : List (Nat × Nat)) : FlushPc → Prop
  | .idle => True
  | .rotated logOffset => logOffset ≤ deletions.length
  | .synced logOffset =>
      logOffset ≤ deletions.length ∧ ∀ d ∈ deletions.take logOffset, d ∈ settled

theorem FlushPc.Within.append
    {deletions : List (Nat × Nat)} {pc : FlushPc}
    (h : pc.Within deletions settled)
    (more : List (Nat × Nat)) :
    pc.Within (deletions ++ more) settled := by
  cases pc with
  | idle =>
      trivial
  | rotated logOffset =>
      exact h.trans (by rw [List.length_append]; exact Nat.le_add_right _ _)
  | synced logOffset =>
      refine ⟨h.1.trans (by rw [List.length_append]; exact Nat.le_add_right _ _), ?_⟩
      rw [List.take_append_of_le_length h.1]
      exact h.2

variable [BitPacking]

/-- The recovered index is stored like the one before. -/
theorem Stored.reopened
    {pages : Pages}
    (h : Stored vlog.indexState settled)
    (hrec : List.Forall₂ (Recovered vlog.indexState settled) vlog.pages.views pages) :
    Stored { vlog with pages := pages : ValueLog }.indexState settled := by
  refine ⟨h.minimum, h.next, ?_, ?_, ?_, h.fresh, h.settles⟩
  · have hids := map_eq_of_forall₂ (f := fun e => e.2.header.identifier)
      (g := fun r => r.2.header.identifier)
      (fun _ _ hr => congrArg IndexPageHeader.identifier hr.header.symm) hrec
    change (pages.views.map _) = _
    rw [Pages.views, List.map_map]
    exact hids.symm.trans h.ids
  · intro e' he'
    obtain ⟨r, hr, rfl⟩ := List.mem_map.mp he'
    obtain ⟨i, hi⟩ := List.getElem?_of_mem hr
    obtain ⟨e, he, hrecovered⟩ := getElem?_of_forall₂ hrec.flip hi
    have hstored := h.page e (List.mem_of_getElem? he)
    have hlength : r.2.entries.length =
        e.2.entries.length + padding e.2.entries.length := by
      rw [hrecovered.entries, List.length_append, List.length_replicate]
    obtain ⟨file, q, hfile, hbacks⟩ := hrecovered.file
    refine ⟨?_, ?_, ?_, ?_, file, q, ?_, hbacks⟩
    · exact (hrecovered.key.trans hstored.key).trans
        (congrArg IndexPageHeader.startBatch hrecovered.header.symm)
    · have hshort := hstored.short
      change r.2.entries.length ≤ maxPageSize
      rw [hlength, padding]
      rw [maxPageSize] at hshort ⊢
      omega
    · intro offset hoffset
      change offset ∈ r.2.offsets at hoffset
      rw [hrecovered.offsets] at hoffset
      have hle := hstored.offsets offset hoffset
      change offset ≤ r.2.entries.length
      omega
    · change r.2.isSealed = decide (r.2.header.identifier < _)
      rw [hrecovered.isSealed, hrecovered.header]
      exact hstored.isSealed
    · change vlog.pageFiles r.2.header.identifier = _
      rw [hrecovered.header]
      exact hfile
  · intro d hd
    obtain ⟨e, he, hid, hfalse⟩ := h.logged d hd
    obtain ⟨i, hi⟩ := List.getElem?_of_mem he
    obtain ⟨r, hr, hrecovered⟩ := getElem?_of_forall₂ hrec hi
    refine ⟨(r.1, r.2.view), List.mem_map_of_mem (List.mem_of_getElem? hr), ?_, ?_⟩
    · exact (congrArg IndexPageHeader.identifier hrecovered.header).trans hid
    · change r.2.entries[d.2]? = some false
      rw [hrecovered.entries,
        List.getElem?_append_left (List.getElem?_eq_some_iff.mp hfalse).1]
      exact hfalse

/-- The index is stored, and nothing before the log offset is needed for its recovery. -/
structure Session.Sound (settled : List (Nat × Nat)) (s : Session) : Prop where
  stored : Stored s.vlog.indexState settled
  offset_le : s.logOffset ≤ s.vlog.deletions.length
  offset : ∀ d ∈ s.vlog.deletions.take s.logOffset, d ∈ settled
  flush : s.flush.Within s.vlog.deletions settled

/-- The index changes, and the log gets longer. -/
theorem Session.Sound.update
    {s : Session}
    (h : s.Sound settled)
    (more : List (Nat × Nat))
    (hstored : Stored vlog.indexState settled)
    (hdeletions : vlog.deletions = s.vlog.deletions ++ more) :
    Session.Sound settled { s with vlog := vlog } := by
  refine ⟨hstored, ?_, ?_, ?_⟩
  · change s.logOffset ≤ vlog.deletions.length
    rw [hdeletions, List.length_append]
    exact h.offset_le.trans (Nat.le_add_right _ _)
  · change ∀ d ∈ vlog.deletions.take s.logOffset, d ∈ settled
    rw [hdeletions, List.take_append_of_le_length h.offset_le]
    exact h.offset
  · change s.flush.Within vlog.deletions settled
    rw [hdeletions]
    exact h.flush.append more

theorem Session.Sound.writeBatch
    {s : Session} {entries : List (Key × Value)}
    (h : s.Sound settled)
    (hharmless : s.Harmless (.addBatch entries)) :
    (s.step (.addBatch entries)).Sound settled := by
  rcases writeBatch_cases entries s.vlog with ⟨o, -, hrun, -⟩ | ⟨built, hlong, -, hrun⟩
  · refine h.update [] ?_ ?_
    · rw [hrun]
      exact h.stored
    · rw [hrun, List.append_nil]
      rfl
  · refine h.update [] ?_ ?_
    · rw [hrun, Call.bind_pure_state]
      refine Stored.addBatch ?_ (hharmless.resolve_left hlong) _
      exact h.stored
    · rw [hrun, Call.bind_pure_state, List.append_nil]
      exact deletions_addBatch _ _ _ _ rfl

/-- Every deletion is settled by a synchronisation. -/
theorem Session.Sound.sync
    {s : Session}
    (h : s.Sound settled) :
    (s.step .sync).Sound s.vlog.sync.deletions := by
  have hdeletions : s.vlog.sync.deletions = s.vlog.deletions := by
    unfold ValueLog.sync
    induction s.vlog.pages.length with
    | zero =>
        rfl
    | succ n ih =>
        rw [List.range_succ, List.foldl_append]
        exact (deletions_syncPage _ n).trans ih
  have hstored := h.stored.sync
  have hoffset : s.logOffset ≤ s.vlog.sync.deletions.length := by
    rw [hdeletions]
    exact h.offset_le
  have hflush := h.flush
  rw [← hdeletions] at hflush
  unfold Session.step
  cases hpc : s.flush with
  | idle =>
      exact ⟨hstored, hoffset, fun d hd => List.mem_of_mem_take hd, trivial⟩
  | rotated logOffset =>
      rw [hpc] at hflush
      exact ⟨hstored, hoffset, fun d hd => List.mem_of_mem_take hd, hflush,
        fun d hd => List.mem_of_mem_take hd⟩
  | synced logOffset =>
      rw [hpc] at hflush
      exact ⟨hstored, hoffset, fun d hd => List.mem_of_mem_take hd, hflush.1,
        fun d hd => List.mem_of_mem_take hd⟩

/-- What does no harm leaves an index that a restart recovers. -/
theorem Session.Sound.step
    {s : Session} {event : SessionEvent}
    (h : s.Sound settled)
    (hharmless : s.Harmless event) :
    ∃ settled', (s.step event).Sound settled' := by
  cases event with
  | addBatch entries =>
      exact ⟨settled, h.writeBatch hharmless⟩
  | markValueDeleted vid =>
      obtain ⟨hstored, more, hdeletions⟩ := h.stored.markValueDeleted hharmless
      exact ⟨settled, h.update more hstored hdeletions⟩
  | rotate =>
      refine ⟨settled, ?_⟩
      unfold Session.step
      cases hpc : s.flush with
      | idle =>
          exact ⟨h.stored, h.offset_le, h.offset, le_refl _⟩
      | rotated logOffset =>
          exact h
      | synced logOffset =>
          exact h
  | sync =>
      exact ⟨_, h.sync⟩
  | setOffset =>
      refine ⟨settled, ?_⟩
      unfold Session.step
      have hflush := h.flush
      cases hpc : s.flush with
      | idle =>
          exact h
      | rotated logOffset =>
          exact h
      | synced logOffset =>
          rw [hpc] at hflush
          exact ⟨h.stored, hflush.1, hflush.2, trivial⟩
  | reopen =>
      obtain ⟨pages, hopen, hrec⟩ := h.stored.reopen h.offset
      refine ⟨settled, ?_⟩
      unfold Session.step
      rw [hopen]
      exact ⟨h.stored.reopened hrec, h.offset_le, h.offset, trivial⟩

theorem Session.Sound.survives
    {s : Session}
    (h : s.Sound settled) :
    s.Survives := by
  obtain ⟨pages, hopen, hrec⟩ := h.stored.reopen h.offset
  exact ⟨pages, hopen, h.stored.getActiveEntries_recovered hrec⟩

/-- A batch that overflows a new page cannot be recovered. -/
theorem Session.Sound.overflow
    {s : Session} {entries : List (Key × Value)}
    (h : s.Sound settled)
    (hlong : ¬ TooLong entries)
    (hlength : u32 entries.length = maxPageSize - 1) :
    ¬ (s.step (.addBatch entries)).Survives := by
  rintro ⟨pages, hopen, -⟩
  rcases writeBatch_cases entries s.vlog with ⟨-, hlong', -⟩ | ⟨built, -, -, hrun⟩
  · exact hlong hlong'
  · have hstored : Stored (s.vlog.batchWritten built.2).indexState settled :=
      h.stored
    obtain ⟨hmin, hnext, hfile⟩ := hstored.addBatch_overflow s.vlog.metadata.nextBatch
    have hnext' : 2 ≤ s.vlog.metadata.nextIndexPage := hstored.next
    rw [hlength] at hrun
    change (ValueLog.writeBatch entries s.vlog).2.reopen _ = _ at hopen
    rw [hrun, Call.bind_pure_state] at hopen
    have hid : 1 ≤ s.vlog.metadata.nextIndexPage := by
      omega
    exact not_reopen_of_missing (hmin.trans_le hid)
      (lt_of_lt_of_eq (Nat.lt_succ_self _) hnext.symm) hfile hopen

/-- An index that has lost its first page cannot be recovered. -/
theorem Session.Sound.emptied
    {s : Session} {vid : ValueId}
    (h : s.Sound settled)
    (hempties : EmptiesOldestPage s.vlog.pages vid)
    (logOffset : Nat) :
    (s.step (.markValueDeleted vid)).vlog.reopen logOffset = .error (.io
      "Failed to read value index page at `\"vindex00000001.data\"`" notFound) :=
  (h.stored.firstPageLost hempties).reopen_eq logOffset

theorem Session.Sound.harmless_of_survives
    {s : Session} {event : SessionEvent}
    (h : s.Sound settled)
    (hsurvives : (s.step event).Survives) :
    s.Harmless event := by
  cases event with
  | addBatch entries =>
      by_contra hbad
      obtain ⟨hlong, hlength⟩ := not_or.mp hbad
      exact h.overflow hlong (not_not.mp hlength) hsurvives
  | markValueDeleted vid =>
      intro hempties
      obtain ⟨pages, hopen, -⟩ := hsurvives
      cases (h.emptied hempties _).symm.trans hopen
  | rotate =>
      trivial
  | sync =>
      trivial
  | setOffset =>
      trivial
  | reopen =>
      trivial

theorem Session.sound_new :
    Session.new.Sound [] := by
  refine ⟨⟨rfl, le_refl _, rfl, ?_, ?_, ?_, ?_⟩, le_refl _, ?_, trivial⟩
  · intro e he
    rw [List.mem_singleton.mp he]
    refine ⟨rfl, Nat.zero_le _, ?_, rfl, (IndexPage.new 1 1).encode, _, rfl,
      backs_encode (p := IndexPage.new 1 1) ?_ ?_⟩
    · intro offset hoffset
      cases hoffset
    · intro offset hoffset
      cases hoffset
    · intro i hi
      cases hi
  · intro d hd
    cases hd
  · intro id hid
    change 2 ≤ id at hid
    exact Function.update_of_ne (show id ≠ 1 by omega) _ _
  · intro d hd
    cases hd
  · intro d hd
    cases hd

/-- A batch that needs a page of its own seals the page before, which has a single value. -/
theorem emptiesOldestPage_step
    {s : Session} {entries : List (Key × Value)}
    (hpages : s.vlog.pages = [(1, ((IndexPage.new 1 1).grown 1).written)])
    (hbatch : s.vlog.metadata.nextBatch = 2)
    (hlong : ¬ TooLong entries)
    (hlength : u32 entries.length = maxPageSize - 2) :
    EmptiesOldestPage (s.step (.addBatch entries)).vlog.pages (1, 0) := by
  change EmptiesOldestPage (ValueLog.writeBatch entries s.vlog).2.pages (1, 0)
  rcases writeBatch_cases entries s.vlog with ⟨-, hlong', -⟩ | ⟨built, -, -, hrun⟩
  · exact absurd hlong' hlong
  · have hlast : (s.vlog.batchWritten built.2).pages.getLast? =
        some (1, ((IndexPage.new 1 1).grown 1).written) := by
      change s.vlog.pages.getLast? = _
      rw [hpages]
      rfl
    obtain ⟨new, hnew⟩ := pages_addBatch_newPage hlast rfl
      (by decide : maxPageSize - 2 + 2 ≤ maxPageSize) (by decide) s.vlog.metadata.nextBatch
    change _ = s.vlog.pages.setPage (s.vlog.pages.length - 1) _ ++ _ at hnew
    rw [hpages] at hnew
    rw [hrun, Call.bind_pure_state, hlength, hnew, hbatch]
    exact ⟨rfl, _, _, rfl, rfl, rfl, rfl⟩

/-- **The value index survives a restart** in every state of a session if and only if no batch
of 4095 values is added and the oldest page keeps a value once it is sealed. -/
theorem value_index_survives_iff
    (events : List SessionEvent) :
    (∀ k, (Session.new.run (events.take k)).Survives) ↔
      Runs.Along Session.step Session.Harmless Session.new events := by
  refine Runs.forall_take_iff_along (I := fun s => ∃ settled, Session.Sound settled s)
    (P := Session.Survives) ?_ ?_ ?_ ⟨[], Session.sound_new⟩ events
  · rintro s event hharmless ⟨settled, h⟩
    exact h.step hharmless
  · rintro s ⟨settled, h⟩
    exact h.survives
  · rintro s event ⟨settled, h⟩ hsurvives
    exact h.harmless_of_survives hsurvives

end Sessions

def oneValue : List (Key × Value) :=
  [(ByteVec.ofList [1], ByteVec.ofList [5])]

/-- As many values as need a page of their own. -/
def manyValues : List (Key × Value) :=
  List.replicate (maxPageSize - 2) (ByteVec.ofList [2], ByteVec.ofList [6])

theorem u32_length_manyValues :
    u32 manyValues.length = maxPageSize - 2 := by
  rw [manyValues, List.length_replicate]
  decide

theorem not_tooLong_manyValues :
    ¬ TooLong manyValues := by
  rintro ⟨entry, hmem, hlong⟩
  rw [List.eq_of_mem_replicate hmem] at hlong
  revert hlong
  decide

/-- The value of the first batch is deleted, and the database cannot be opened any more. -/
theorem first_page_lost :
    let s := Session.new.run
      [.addBatch oneValue, .addBatch manyValues, .markValueDeleted (1, 0)]
    s.vlog.reopen s.logOffset = .error (.io
      "Failed to read value index page at `\"vindex00000001.data\"`" notFound) := by
  obtain ⟨settled₁, hsound₁⟩ :=
    Session.sound_new.step (show Session.new.Harmless (.addBatch oneValue) from
      Or.inr (by decide))
  obtain ⟨settled₂, hsound₂⟩ :=
    hsound₁.step (show Session.Harmless _ (.addBatch manyValues) from
      Or.inr (by rw [u32_length_manyValues]; decide))
  have hempties := emptiesOldestPage_step (s := Session.new.step (.addBatch oneValue)) rfl rfl
    not_tooLong_manyValues u32_length_manyValues
  exact hsound₂.emptied hempties 0

end Values
end LsmStore
