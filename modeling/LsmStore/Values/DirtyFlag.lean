import LsmStore.Values.IndexCalls
import LsmStore.Values.Restart

/-!
# The dirty flag of index pages

A page is written by `sync` only if its flag is set.  The flag is sound if every
page without it is in its file as it is in memory.  The operations on values set
the flag, and so does the addition of a batch; the three operations that change
the state of a batch do not.  In every sequence of operations the flag is sound
all along exactly if the state of a batch is changed only in pages that have
other changes to be written.
-/

namespace LsmStore
namespace Values

/-- An operation on the value index; `reopen` is `ValueIndex::open` on what is on disk. -/
inductive IndexCall where
  | addBatch (batchId numEntries : Nat)
  | mark (m : IndexMark)
  | sync
  | reopen

namespace ValueLog

/-- An operation that fails leaves what it has changed; an index that cannot be opened changes
nothing. -/
def indexStep [BitPacking] (s : ValueLog) : IndexCall → ValueLog
  | .addBatch batchId numEntries => (addBatch batchId numEntries s).2
  | .mark m => s.mark m
  | .sync => s.sync
  | .reopen =>
      match s.openIndex with
      | .value pages => { s with pages := pages }
      | _ => s

/-- Every page without the flag is on disk as it is in memory. -/
def FlagSound [BitPacking] (s : ValueLog) : Prop :=
  ∀ entry ∈ s.pages, entry.2.dirty = false →
    s.pageFiles entry.2.getIdentifier = some entry.2.encode

/-- All pages are on disk as they are in memory. -/
def OnDisk [BitPacking] (s : ValueLog) : Prop :=
  ∀ entry ∈ s.pages, s.pageFiles entry.2.getIdentifier = some entry.2.encode

/-- The state of a batch is changed in a page without the flag. -/
def MarksCleanPage (s : ValueLog) : IndexCall → Prop
  | .mark m => m.op.marksBatch = true ∧
      ∃ idx key page page', s.Marks m idx key page page' ∧ page.dirty = false
  | _ => False

/-! ## Changes of the pages and their files -/

/-- What the soundness of the flag rests on: no two pages share a file, and files belong to the
pages they are named after. -/
structure FlagInv [BitPacking] (s : ValueLog) : Prop where
  sound : s.FlagSound
  ascending : s.pages.Ascending
  next : ∀ entry ∈ s.pages, entry.2.getIdentifier < s.metadata.nextIndexPage
  positive : 0 < s.metadata.nextIndexPage
  files : ∀ id file, s.pageFiles id = some file → file.header.identifier = id

section Changes

variable {s : ValueLog}

theorem getIdentifier_setPage
    {idx key : Nat} {page page' : IndexPage}
    (hidx : s.pages[idx]? = some (key, page))
    (hid : page'.getIdentifier = page.getIdentifier) :
    (s.pages.setPage idx page').map (fun entry => entry.2.getIdentifier) =
      s.pages.map fun entry => entry.2.getIdentifier := by
  apply List.ext_getElem?
  intro j
  rw [List.getElem?_map, List.getElem?_map, Pages.getElem?_setPage, Option.map_map]
  by_cases hj : j = idx
  · subst hj
    rw [hidx]
    simp [hid]
  · simp [Function.comp_def, hj]

variable [BitPacking]

/-- Two pages with the same identifier are the same. -/
theorem FlagInv.eq_of_identifier
    (h : s.FlagInv)
    {i j : Nat} {a b : Nat × IndexPage}
    (hi : s.pages[i]? = some a)
    (hj : s.pages[j]? = some b)
    (hid : a.2.getIdentifier = b.2.getIdentifier) :
    i = j := by
  have hpair := List.pairwise_iff_getElem.mp (List.pairwise_map.mp h.ascending)
  obtain ⟨hilt, rfl⟩ := List.getElem?_eq_some_iff.mp hi
  obtain ⟨hjlt, rfl⟩ := List.getElem?_eq_some_iff.mp hj
  rcases Nat.lt_trichotomy i j with hlt | heq | hgt
  · exact absurd hid (ne_of_lt (hpair i j hilt hjlt hlt))
  · exact heq
  · exact absurd hid.symm (ne_of_lt (hpair j i hjlt hilt hgt))

theorem FlagInv.replace
    (h : s.FlagInv)
    {idx key : Nat} {page page' : IndexPage} {files : Nat → Option PageFile}
    (hidx : s.pages[idx]? = some (key, page))
    (hid : page'.getIdentifier = page.getIdentifier)
    (hother : ∀ id, id ≠ page.getIdentifier → files id = s.pageFiles id)
    (hfile : ∀ file, files page.getIdentifier = some file →
      file.header.identifier = page.getIdentifier)
    (hclean : page'.dirty = false → files page.getIdentifier = some page'.encode) :
    ({ s.setPage idx page' with pageFiles := files } : ValueLog).FlagInv := by
  have hids := getIdentifier_setPage hidx hid
  refine ⟨?_, ?_, ?_, h.positive, ?_⟩
  · intro entry hentry hdirty
    obtain ⟨j, hj⟩ := List.getElem?_of_mem hentry
    change (s.pages.setPage idx page')[j]? = some entry at hj
    rw [Pages.getElem?_setPage] at hj
    obtain ⟨entry₀, hentry₀, rfl⟩ := Option.map_eq_some_iff.mp hj
    change files _ = _
    by_cases heq : j = idx
    · rw [if_pos heq] at hdirty ⊢
      rw [show (entry₀.1, page').2.getIdentifier = page.getIdentifier from hid]
      exact hclean hdirty
    · rw [if_neg heq] at hdirty ⊢
      rw [hother _ fun hsame => heq (h.eq_of_identifier hentry₀ hidx hsame)]
      exact h.sound _ (List.mem_of_getElem? hentry₀) hdirty
  · change Pages.Ascending (s.pages.setPage idx page')
    unfold Pages.Ascending
    rw [hids]
    exact h.ascending
  · intro entry hentry
    have hmem : entry.2.getIdentifier ∈
        s.pages.map fun entry => entry.2.getIdentifier := by
      rw [← hids]
      exact List.mem_map_of_mem hentry
    obtain ⟨entry₀, hentry₀, hsame⟩ := List.mem_map.mp hmem
    rw [← hsame]
    exact h.next entry₀ hentry₀
  · intro id file hstored
    change files id = some file at hstored
    by_cases heq : id = page.getIdentifier
    · subst heq
      exact hfile file hstored
    · rw [hother id heq] at hstored
      exact h.files id file hstored

/-- A page changes in memory: it gets the flag, or keeps it and would be written as before. -/
theorem FlagInv.setPage
    (h : s.FlagInv)
    {idx key : Nat} {page page' : IndexPage}
    (hidx : s.pages[idx]? = some (key, page))
    (hid : page'.getIdentifier = page.getIdentifier)
    (hclean : page'.dirty = false → page.dirty = false ∧ page'.encode = page.encode) :
    (s.setPage idx page').FlagInv := by
  refine h.replace hidx hid (fun _ _ => rfl) (fun file => h.files _ file) fun hdirty => ?_
  obtain ⟨hpage, hencode⟩ := hclean hdirty
  rw [hencode]
  exact h.sound _ (List.mem_of_getElem? hidx) hpage

theorem FlagInv.syncPage
    (h : s.FlagInv)
    (idx : Nat) :
    (s.syncPage idx).FlagInv := by
  unfold ValueLog.syncPage
  split
  · exact h
  · rename_i key page hidx
    split_ifs
    · refine h.replace hidx rfl (fun id hne => Function.update_of_ne hne _ _) ?_ ?_
      · intro file hfile
        rw [Function.update_self] at hfile
        cases hfile
        rfl
      · intro _
        exact Function.update_self _ _ _
    · exact h

theorem FlagInv.sync
    (h : s.FlagInv) :
    s.sync.FlagInv :=
  Runs.invariant (fun _ idx hs => hs.syncPage idx) h (List.range s.pages.length)

theorem FlagInv.onDisk_sync
    (h : s.FlagInv) :
    s.sync.OnDisk := by
  intro entry hentry
  exact h.sync.sound entry hentry (dirty_sync s (List.mem_map_of_mem hentry))

theorem FlagInv.createNewPage
    (h : s.FlagInv)
    (minBatch : Nat) :
    (ValueLog.createNewPage minBatch s).FlagInv := by
  have hmem : ∀ entry ∈ (ValueLog.createNewPage minBatch s).pages, entry ∈ s.pages ∨
      entry = (minBatch, IndexPage.new s.metadata.nextIndexPage minBatch) := by
    intro entry hentry
    rcases List.mem_append.mp hentry with hold | hnew
    · exact Or.inl hold
    · exact Or.inr (List.mem_singleton.mp hnew)
  refine ⟨?_, ?_, ?_, Nat.succ_pos _, h.files⟩
  · intro entry hentry hdirty
    rcases hmem entry hentry with hold | rfl
    · exact h.sound entry hold hdirty
    · cases hdirty
  · change Pages.Ascending (s.pages ++ [_])
    unfold Pages.Ascending
    rw [List.map_append, List.pairwise_append]
    refine ⟨h.ascending, List.pairwise_singleton _ _, ?_⟩
    intro a ha b hb
    obtain ⟨entry, hentry, rfl⟩ := List.mem_map.mp ha
    rw [List.mem_singleton.mp hb]
    exact h.next entry hentry
  · intro entry hentry
    rcases hmem entry hentry with hold | rfl
    · exact Nat.lt_succ_of_lt (h.next entry hold)
    · exact Nat.lt_succ_self _

theorem FlagInv.removeFirst
    (h : s.FlagInv)
    {key : Nat} {page : IndexPage} {rest : Pages}
    (hpages : s.pages = (key, page) :: rest) :
    ({ s with
        pageFiles := Function.update s.pageFiles page.getIdentifier none
        pages := rest } : ValueLog).FlagInv := by
  have hascending := h.ascending
  rw [hpages] at hascending
  obtain ⟨hfirst, hrest⟩ := List.pairwise_cons.mp hascending
  have hmem : ∀ entry ∈ rest, entry ∈ s.pages := fun entry hentry => by
    rw [hpages]
    exact List.mem_cons_of_mem _ hentry
  refine ⟨?_, hrest, fun entry hentry => h.next entry (hmem entry hentry), h.positive, ?_⟩
  · intro entry hentry hdirty
    have hne : entry.2.getIdentifier ≠ page.getIdentifier :=
      ne_of_gt (hfirst _ (List.mem_map_of_mem hentry))
    change Function.update s.pageFiles page.getIdentifier none _ = _
    rw [Function.update_of_ne hne]
    exact h.sound entry (hmem entry hentry) hdirty
  · intro id file hfile
    change Function.update s.pageFiles page.getIdentifier none id = some file at hfile
    rw [Function.update_apply] at hfile
    split_ifs at hfile
    exact h.files id file hfile

end Changes

/-! ## The operations -/

section Operations

variable [BitPacking] {s : ValueLog}

/-- What is done to a page does not concern the state of a batch, or the page has the flag. -/
theorem FlagInv.perform
    (h : s.FlagInv)
    {idx key : Nat} {page page' : IndexPage} {op : PageOp}
    (hidx : s.pages[idx]? = some (key, page))
    (hpage' : page.perform op = .value page')
    (hop : op.marksBatch = false ∨ page.dirty = true) :
    (s.setPage idx page').FlagInv := by
  rcases IndexPage.perform_cases hpage' with
    ⟨-, ⟨numEntries, rfl⟩ | rfl | rfl | ⟨i, rfl⟩⟩ | ⟨hmarks, index, state, -, -, rfl⟩
  · exact h.setPage hidx rfl fun hdirty => by cases hdirty
  · exact h.setPage hidx rfl fun hdirty => ⟨hdirty, rfl⟩
  · exact h.setPage hidx rfl fun hdirty => ⟨hdirty, rfl⟩
  · exact h.setPage hidx rfl fun hdirty => by cases hdirty
  · have hdirty : page.dirty = true := hop.resolve_left (by rw [hmarks]; decide)
    exact h.setPage hidx rfl fun hclean => by
      change page.dirty = false at hclean
      rw [hdirty] at hclean
      cases hclean

theorem keeps_expandLast
    (numEntries : Nat) :
    Call.Keeps FlagInv (expandLast numEntries) := by
  intro s hs
  cases hlast : s.pages.getLast? with
  | none =>
      rw [expandLast_of_none hlast]
      exact hs
  | some entry =>
      obtain ⟨key, page⟩ := entry
      rw [expandLast_of_some hlast]
      refine Call.Keeps.after_lift hs fun expanded hexpanded => ?_
      have hidx : s.pages[s.pages.length - 1]? = some (key, page) := by
        rw [← List.getLast?_eq_getElem?, hlast]
      have hperform : page.perform (.expand numEntries) = .value expanded.2 := by
        change (page.expand numEntries >>= _) = _
        rw [hexpanded]
        rfl
      exact hs.perform hidx hperform (Or.inl rfl)

theorem keeps_addBatch
    (batchId numEntries : Nat) :
    Call.Keeps FlagInv (addBatch batchId numEntries) := by
  have hsync : Call.Keeps FlagInv (modify fun s => s.syncPage (s.pages.length - 1)) :=
    fun s hs => hs.syncPage (s.pages.length - 1)
  refine Call.Keeps.bind (keeps_expandLast numEntries) fun fits => ?_
  cases fits with
  | true =>
      exact hsync
  | false =>
      refine Call.Keeps.bind (fun s hs => hs.createNewPage batchId) fun _ =>
        Call.Keeps.bind (keeps_expandLast numEntries) fun success => ?_
      cases success with
      | true =>
          exact hsync
      | false =>
          exact Call.Keeps.lift _

theorem FlagInv.removeUnusedPages
    (h : s.FlagInv)
    {pages : Pages}
    (hpages : s.pages = pages) :
    (ValueLog.removeUnusedPages pages s).2.FlagInv := by
  induction pages generalizing s with
  | nil =>
      exact h
  | cons entry rest ih =>
      obtain ⟨key, page⟩ := entry
      rw [ValueLog.removeUnusedPages]
      split_ifs
      · change ((if s.metadata.minimumIndexPage < page.getIdentifier then _ else _ :
          Call ValueLog Unit) s).2.FlagInv
        split_ifs
        · exact ⟨h.sound, h.ascending, h.next, h.positive, h.files⟩
        · exact h
      · cases hfile : s.pageFiles page.getIdentifier with
        | none =>
            have hrun := removePageFile_of_none hfile
            rw [Call.bind_of_ne_value (by rw [hrun]; simp), hrun]
            exact h
        | some file =>
            rw [Call.bind_of_value (removePageFile_of_some hfile)]
            exact ih (h.removeFirst hpages) rfl

/-- A mark that is not about the state of a batch, or finds the flag set. -/
theorem FlagInv.mark
    (h : s.FlagInv)
    {m : IndexMark}
    (hm : m.op.marksBatch = false ∨
      ∀ idx key page page', s.Marks m idx key page page' → page.dirty = true) :
    (s.mark m).FlagInv := by
  rcases mark_cases s m with hsame | ⟨idx, key, page, page', hmarks, hset | hremove⟩
  · rw [hsame]
    exact h
  · rw [hset]
    exact h.perform hmarks.getElem? hmarks.perform
      (hm.imp_right fun hdirty => hdirty idx key page page' hmarks)
  · rw [hremove]
    refine FlagInv.removeUnusedPages ?_ rfl
    exact h.perform hmarks.getElem? hmarks.perform
      (hm.imp_right fun hdirty => hdirty idx key page page' hmarks)

theorem encode_setState_ne
    {p : IndexPage} {index : Nat} {state : ValueBatchState}
    (hstate : p.batches[index]? = some state)
    (hne : state ≠ .deleted) :
    (p.setState index .deleted).encode ≠ p.encode := by
  intro hsame
  have hbody := congrArg PageFile.body hsame
  obtain ⟨hbatches, -⟩ := List.append_inj' (List.append_cancel_left hbody) rfl
  rw [← List.map_eq_flatMap, ← List.map_eq_flatMap] at hbatches
  have hset : p.batches.set index .deleted = p.batches :=
    List.map_injective_iff.mpr ValueBatchState.toByte_injective hbatches
  have hget := List.getElem?_set_self (a := ValueBatchState.deleted)
    (List.getElem?_eq_some_iff.mp hstate).1
  rw [hset, hstate] at hget
  exact hne (Option.some.inj hget)

/-- A state that is changed in a page without the flag never gets to the disk. -/
theorem FlagInv.not_sound_mark
    (h : s.FlagInv)
    {m : IndexMark} {idx key : Nat} {page page' : IndexPage}
    (hm : m.op.marksBatch = true)
    (hmarks : s.Marks m idx key page page')
    (hclean : page.dirty = false) :
    ¬ (s.mark m).FlagSound := by
  intro hsound
  have hnot : ∀ vid, m ≠ .valueAsDeleted vid := by
    rintro vid rfl
    cases hm
  rw [mark_eq_changed s m hnot, hmarks.changed_eq] at hsound
  rcases IndexPage.perform_cases hmarks.perform with
    ⟨hvalue, -⟩ | ⟨-, index, state, hstate, hne, rfl⟩
  · rw [hm] at hvalue
    cases hvalue
  · have hidx : (s.setPage idx (page.setState index .deleted)).pages[idx]? =
        some (key, page.setState index .deleted) := by
      change (s.pages.setPage idx _)[idx]? = _
      rw [Pages.getElem?_setPage, hmarks.getElem?]
      simp
    have hnew := hsound _ (List.mem_of_getElem? hidx) hclean
    have hold := h.sound _ (List.mem_of_getElem? hmarks.getElem?) hclean
    exact encode_setState_ne hstate hne (Option.some.inj (hnew.symm.trans hold))

/-- A page that is opened is in its file as it is in memory. -/
theorem FlagInv.openPage
    (h : s.FlagInv)
    {pageId : Nat} {isSealed : Bool} {page : IndexPage}
    (hopen : s.openPage pageId isSealed = .value page) :
    page.getIdentifier = pageId ∧ s.pageFiles pageId = some page.encode := by
  unfold ValueLog.openPage at hopen
  split at hopen
  · rename_i file hfile
    have hencode := IndexPage.encode_ofFile hopen
    subst hencode
    exact ⟨h.files pageId page.encode hfile, hfile⟩
  · cases hopen

theorem FlagInv.openPages
    (h : s.FlagInv)
    {maxId : Nat} {pageIds : List Nat} {pages : Pages}
    (hopen : s.openPages maxId pageIds = .value pages) :
    (pages.map fun entry => entry.2.getIdentifier) = pageIds ∧
      ∀ entry ∈ pages, s.pageFiles entry.2.getIdentifier = some entry.2.encode := by
  induction pageIds generalizing pages with
  | nil =>
      cases hopen
      exact ⟨rfl, fun entry hentry => by cases hentry⟩
  | cons pageId pageIds ih =>
      obtain ⟨page, hpage, hopen⟩ := Outcome.bind_eq_value hopen
      obtain ⟨rest, hrest, hopen⟩ := Outcome.bind_eq_value hopen
      cases hopen
      obtain ⟨hids, hfiles⟩ := ih hrest
      obtain ⟨hid, hfile⟩ := h.openPage hpage
      refine ⟨?_, ?_⟩
      · rw [List.map_cons, hids, hid]
      · intro entry hentry
        rcases List.mem_cons.mp hentry with rfl | hentry'
        · rw [hid]
          exact hfile
        · exact hfiles entry hentry'

theorem FlagInv.openIndex
    (h : s.FlagInv)
    {pages : Pages}
    (hopen : s.openIndex = .value pages) :
    ({ s with pages := pages } : ValueLog).FlagInv := by
  obtain ⟨hids, hfiles⟩ := h.openPages hopen
  refine ⟨fun entry hentry _ => hfiles entry hentry, ?_, ?_, h.positive, h.files⟩
  · change Pages.Ascending pages
    unfold Pages.Ascending
    rw [hids]
    exact List.pairwise_lt_range'
  · intro entry hentry
    have hmem : entry.2.getIdentifier ∈ pages.map fun entry => entry.2.getIdentifier :=
      List.mem_map_of_mem hentry
    rw [hids, List.mem_range'_1] at hmem
    have hpos := h.positive
    change entry.2.getIdentifier < s.metadata.nextIndexPage
    omega

/-- **One operation** keeps the flag sound, unless it changes a batch in a page without it. -/
theorem FlagInv.indexStep
    (h : s.FlagInv)
    {call : IndexCall}
    (hcall : ¬ s.MarksCleanPage call) :
    (s.indexStep call).FlagInv := by
  cases call with
  | addBatch batchId numEntries =>
      exact keeps_addBatch batchId numEntries s h
  | mark m =>
      refine h.mark (or_iff_not_imp_left.mpr fun hbatch => ?_)
      intro idx key page page' hmarks
      by_contra hdirty
      exact hcall ⟨Bool.eq_true_of_not_eq_false hbatch, idx, key, page, page', hmarks,
        Bool.eq_false_of_not_eq_true hdirty⟩
  | sync =>
      exact h.sync
  | reopen =>
      change (match s.openIndex with
        | .value pages => { s with pages := pages }
        | _ => s : ValueLog).FlagInv
      split
      · rename_i pages hopen
        exact h.openIndex hopen
      · exact h

theorem FlagInv.not_marksCleanPage
    (h : s.FlagInv)
    {call : IndexCall}
    (hsound : (s.indexStep call).FlagSound) :
    ¬ s.MarksCleanPage call := by
  intro hcall
  cases call with
  | mark m =>
      obtain ⟨hm, idx, key, page, page', hmarks, hclean⟩ := hcall
      exact h.not_sound_mark hm hmarks hclean hsound
  | addBatch batchId numEntries =>
      exact hcall
  | sync =>
      exact hcall
  | reopen =>
      exact hcall

end Operations

theorem filed_new
    [BitPacking] :
    ValueLog.new.FlagInv := by
  refine FlagInv.syncPage (FlagInv.createNewPage ?_ _) 0
  refine ⟨?_, List.Pairwise.nil, ?_, Nat.one_pos, ?_⟩
  · intro entry hentry
    cases hentry
  · intro entry hentry
    cases hentry
  · intro id file hfile
    cases hfile

/-- **Soundness of the dirty flag.**  All along a sequence of operations on a new index, and
after reopening it any number of times, every page without the flag is on disk as it is in
memory, and all pages are after a synchronisation, exactly if the state of a batch is changed in
pages with the flag only. -/
theorem dirty_flag_sound_iff
    [BitPacking]
    (calls : List IndexCall) :
    (∀ k, let s := Runs.run indexStep ValueLog.new (calls.take k)
      s.FlagSound ∧ s.sync.OnDisk) ↔
      Runs.Along indexStep (fun s call => ¬ s.MarksCleanPage call) ValueLog.new calls :=
  Runs.forall_take_iff_along (P := fun s => s.FlagSound ∧ s.sync.OnDisk)
    (fun _ _ hcall hs => hs.indexStep hcall)
    (fun _ hs => ⟨hs.sound, hs.onDisk_sync⟩)
    (fun _ _ hs hsound => hs.not_marksCleanPage hsound.1) filed_new calls

/-- A batch that is marked right after it was added: the page has been written, its flag is not
set, and no synchronisation writes the new state. -/
theorem batch_mark_never_written :
    let s := Runs.run indexStep ValueLog.new [.addBatch 1 1, .mark (.batchAsDeleted 1), .sync]
    ∃ page, s.pages = [(1, page)] ∧ page.batches = [.deleted] ∧
      page.encode.body = [0, 0, 2, 1] ∧
      (s.pageFiles 1).map PageFile.body = some [0, 0, 0, 1] ∧
      ¬ s.FlagSound ∧ ¬ s.OnDisk := by
  intro s
  have hdisk : ¬ s.OnDisk := by
    intro hdisk
    have hfile := congrArg (Option.map PageFile.body) (hdisk _ (List.mem_singleton_self _))
    exact absurd hfile (by decide)
  refine ⟨_, rfl, rfl, by decide, by decide, ?_, hdisk⟩
  intro hsound
  refine hdisk fun entry hentry => hsound entry hentry ?_
  rw [List.mem_singleton.mp hentry]
  rfl

end ValueLog
end Values
end LsmStore
