import LsmStore.Values.Liveness

/-!
# The bits of a new batch

Adding a batch gives it bits that are all set, and leaves the bits of the other
batches alone.  That holds on every way out of `write_batch`; when it returns,
the batch file holds the entries at the places that were handed out, and the
index is ready for the next batch.
-/

namespace LsmStore
namespace Values

open SortedAssoc Segments

namespace Pages

section Concat

variable {pages : Pages} {key batchId : Nat} {page : IndexPage}

theorem findPageIdx_lt
    {idx : Nat}
    (h : pages.findPageIdx batchId = some idx) :
    idx < pages.length := by
  induction pages generalizing idx with
  | nil =>
      cases h
  | cons entry rest ih =>
      obtain ⟨first, firstPage⟩ := entry
      rw [findPageIdx_cons] at h
      split_ifs at h
      · cases h
        cases hrest : findPageIdx rest batchId with
        | none =>
            exact Nat.succ_pos _
        | some idx =>
            exact Nat.succ_lt_succ (ih hrest)
      · cases h
        exact Nat.succ_pos _

theorem bitsOf_concat
    (hkeys : ∀ entry ∈ pages, entry.1 < key)
    (page : IndexPage) (batchId : Nat) :
    bitsOf (pages ++ [(key, page)]) batchId =
      if batchId < key then pages.bitsOf batchId else page.bitsOf batchId := by
  rw [bitsOf, findPageIdx_concat hkeys]
  split_ifs with hlt
  · rw [bitsOf]
    cases hidx : pages.findPageIdx batchId with
    | none =>
        rfl
    | some idx =>
        have hbound := findPageIdx_lt hidx
        rw [Option.bind_some, Option.bind_some, List.getElem?_append_left hbound]
  · rw [Option.bind_some, List.getElem?_append_right (le_refl _), Nat.sub_self]
    rfl

theorem sorted_concat
    (h : Sorted pages)
    (hkeys : ∀ entry ∈ pages, entry.1 < key)
    (page : IndexPage) :
    Sorted (pages ++ [(key, page)]) := by
  refine List.pairwise_append.mpr ⟨h, List.pairwise_singleton _ _, ?_⟩
  intro entry hentry last hlast
  rw [List.mem_singleton.mp hlast]
  exact hkeys entry hentry

/-- A batch from the first one of the last page on belongs to that page. -/
theorem findPageIdx_last
    (h : Sorted pages)
    (hlast : pages.getLast? = some (key, page))
    (hle : key ≤ batchId) :
    pages.findPageIdx batchId = some (pages.length - 1) := by
  obtain ⟨init, rfl⟩ := List.getLast?_eq_some_iff.mp hlast
  have hkeys : ∀ entry ∈ init, entry.1 < key := fun entry hentry =>
    (List.pairwise_append.mp h).2.2 entry hentry _ (List.mem_singleton.mpr rfl)
  rw [findPageIdx_concat hkeys, if_neg (Nat.not_lt.mpr hle), List.length_append]
  rfl

/-- In front of the next batch the pages begin before it, unless there is no batch yet. -/
theorem Ends.keys_lt
    {nextBatch : Nat}
    (h : pages.Ends nextBatch)
    (hne : ∀ entry, pages.getLast? = some entry → entry.2.offsets ≠ []) :
    ∀ entry ∈ pages, entry.1 < nextBatch := by
  intro entry hentry
  obtain ⟨init, last, rfl⟩ :=
    (List.eq_nil_or_concat pages).resolve_left (List.ne_nil_of_mem hentry)
  rw [List.concat_eq_append] at h hne hentry
  have hlast : (init ++ [last]).getLast? = some last := List.getLast?_concat
  have hpos := List.length_pos_iff.mpr (hne last hlast)
  have hnext := (h.last last hlast).1
  rcases List.mem_append.mp hentry with hinit | hown
  · have := (List.pairwise_append.mp h.sorted).2.2 entry hinit last (List.mem_singleton.mpr rfl)
    omega
  · rw [List.mem_singleton.mp hown]
    omega

end Concat

end Pages

/-! ## Adding a batch to the index -/

/-- From some pages to others: one batch may have got bits, all of them set; the other batches
have no other bits than before. -/
structure Pages.Grows (batchId n : Nat) (pages pages' : Pages) : Prop where
  ok : pages'.Ok
  bits : ∀ b bits, pages'.bitsOf b = some bits →
    pages.bitsOf b = some bits ∨ (b = batchId ∧ bits = List.replicate n true)

section Add

variable {vlog : ValueLog} {batchId n : Nat}

theorem Pages.Grows.of_layouts_eq
    {pages pages' pages'' : Pages}
    (h : Pages.Grows batchId n pages pages')
    (hlayouts : pages''.layouts = pages'.layouts) :
    Pages.Grows batchId n pages pages'' where
  ok := h.ok.of_layouts_eq hlayouts
  bits := by
    intro b bits hbits
    rw [Pages.bitsOf_of_layouts_eq hlayouts] at hbits
    exact h.bits b bits hbits

theorem Pages.Grows.of_base
    {pages base pages' : Pages}
    (h : Pages.Grows batchId n base pages')
    (hlayouts : base.layouts = pages.layouts) :
    Pages.Grows batchId n pages pages' where
  ok := h.ok
  bits := by
    intro b bits hbits
    rw [← Pages.bitsOf_of_layouts_eq hlayouts]
    exact h.bits b bits hbits

theorem grows_setPage
    {pages : Pages} {key : Nat} {page : IndexPage}
    (hok : pages.Ok)
    (hends : pages.Ends batchId)
    (hlast : pages.getLast? = some (key, page))
    (hfits : page.Fits n) :
    Pages.Grows batchId n pages (pages.setPage (pages.length - 1) (page.grown n)) ∧
      (pages.setPage (pages.length - 1) (page.grown n)).Ends (batchId + 1) ∧
      (pages.setPage (pages.length - 1) (page.grown n)).bitsOf batchId =
        some (List.replicate n true) := by
  have hidx : pages[pages.length - 1]? = some (key, page) := by
    rw [← List.getLast?_eq_getElem?]
    exact hlast
  obtain ⟨hstart, hcut⟩ : key = page.header.startBatch ∧ page.WellCut :=
    hok.page _ (List.mem_of_getElem? hidx)
  have hnext : key + page.offsets.length = batchId := (hends.last _ hlast).1
  obtain ⟨hcut', hbits⟩ := IndexPage.bitsOf_grown hcut hfits
  refine ⟨⟨hok.setPage hidx rfl hcut' (Or.inl hends.sorted), ?_⟩,
    ⟨Pages.sorted_setPage hends.sorted _ _, ?_⟩, ?_⟩
  · intro b bits hb
    rw [Pages.bitsOf_setPage hidx] at hb
    split_ifs at hb with hfound
    · rw [hbits] at hb
      split_ifs at hb with hnew
      · right
        exact ⟨by omega, (Option.some.inj hb).symm⟩
      · left
        rw [Pages.bitsOf, hfound, Option.bind_some, hidx]
        exact hb
    · exact Or.inl hb
  · intro entry hentry
    rw [List.getLast?_eq_getElem?, Pages.length_setPage, Pages.getElem?_setPage, hidx,
      Option.map_some, if_pos rfl] at hentry
    cases hentry
    have hlength : (page.grown n).offsets.length = page.offsets.length + 1 := by
      change (page.offsets ++ [_]).length = _
      rw [List.length_append]
      rfl
    refine ⟨?_, ?_⟩
    · rw [hlength]
      omega
    · intro hnil
      rw [hnil] at hlength
      cases hlength
  · rw [Pages.bitsOf_setPage hidx, if_pos (Pages.findPageIdx_last hends.sorted hlast (by omega)),
      hbits, if_pos (by omega)]

theorem grows_concat
    {pages : Pages}
    (identifier : Nat)
    (hok : pages.Ok)
    (hsorted : Sorted pages)
    (hkeys : ∀ entry ∈ pages, entry.1 < batchId)
    (hroom : n + 2 ≤ maxPageSize) :
    Pages.Grows batchId n pages (pages ++ [(batchId, (IndexPage.new identifier batchId).grown n)]) ∧
      Pages.Ends (pages ++ [(batchId, (IndexPage.new identifier batchId).grown n)])
        (batchId + 1) ∧
      Pages.bitsOf (pages ++ [(batchId, (IndexPage.new identifier batchId).grown n)]) batchId =
        some (List.replicate n true) := by
  have hfits : (IndexPage.new identifier batchId).Fits n := by
    change (0 + 1) * 2 + (0 + n) ≤ maxPageSize
    omega
  obtain ⟨hcut, hbits⟩ :=
    IndexPage.bitsOf_grown (IndexPage.wellCut_new identifier batchId) hfits
  have hsorted' := Pages.sorted_concat hsorted hkeys ((IndexPage.new identifier batchId).grown n)
  refine ⟨⟨⟨?_, Or.inl hsorted'⟩, ?_⟩, ⟨hsorted', ?_⟩, ?_⟩
  · intro entry hentry
    rcases List.mem_append.mp hentry with hold | hnew
    · exact hok.page entry hold
    · rw [List.mem_singleton.mp hnew]
      exact ⟨rfl, hcut⟩
  · intro b bits hb
    rw [Pages.bitsOf_concat hkeys] at hb
    split_ifs at hb with hlt
    · exact Or.inl hb
    · rw [hbits] at hb
      split_ifs at hb with hnew
      · exact Or.inr ⟨hnew, (Option.some.inj hb).symm⟩
      · rw [IndexPage.bitsOf, if_neg (by exact hlt), segmentAt_eq_none (Nat.zero_le _)] at hb
        cases hb
  · intro entry hentry
    rw [List.getLast?_concat] at hentry
    cases hentry
    refine ⟨rfl, ?_⟩
    intro hnil
    cases hnil
  · rw [Pages.bitsOf_concat hkeys, if_neg (Nat.lt_irrefl _), hbits]
    exact if_pos rfl

theorem grows_empty
    {pages : Pages} {page : IndexPage}
    (hok : pages.Ok)
    (hends : pages.Ends batchId)
    (hstart : page.header.startBatch = batchId)
    (hoffsets : page.offsets = [])
    (hentries : page.entries = []) :
    Pages.Grows batchId n pages (pages ++ [(batchId, page)]) := by
  have hcut : page.WellCut :=
    (IndexPage.wellCut_new 0 0).congr hoffsets hentries
  have hnone : ∀ b, page.bitsOf b = none := by
    intro b
    rw [IndexPage.bitsOf, hoffsets, segmentAt_eq_none (Nat.zero_le _), ite_self]
  have hpage : ∀ entry ∈ pages ++ [(batchId, page)],
      entry.1 = entry.2.header.startBatch ∧ entry.2.WellCut := by
    intro entry hentry
    rcases List.mem_append.mp hentry with hold | hnew
    · exact hok.page entry hold
    · rw [List.mem_singleton.mp hnew]
      exact ⟨hstart.symm, hcut⟩
  by_cases hne : ∀ entry, pages.getLast? = some entry → entry.2.offsets ≠ []
  · have hkeys := hends.keys_lt hne
    refine ⟨⟨hpage, Or.inl (Pages.sorted_concat hends.sorted hkeys page)⟩, ?_⟩
    intro b bits hb
    rw [Pages.bitsOf_concat hkeys] at hb
    split_ifs at hb
    · exact Or.inl hb
    · rw [hnone] at hb
      cases hb
  · -- there is no batch at all
    push Not at hne
    obtain ⟨last, hlast, hnil⟩ := hne
    have hall : ∀ entry ∈ pages ++ [(batchId, page)], entry.2.offsets = [] := by
      intro entry hentry
      rcases List.mem_append.mp hentry with hold | hnew
      · exact (hends.last last hlast).2 hnil entry hold
      · rw [List.mem_singleton.mp hnew]
        exact hoffsets
    refine ⟨⟨hpage, Or.inr hall⟩, ?_⟩
    intro b bits hb
    rw [Pages.bitsOf_eq_none_of_empty hall] at hb
    cases hb

/-- The layouts of the pages behind which the new page begins. -/
theorem ValueLog.Closed.layouts
    {base : ValueLog}
    (h : vlog.Closed base n) :
    base.pages.layouts = vlog.pages.layouts ∧ base.metadata = vlog.metadata ∧
      base.batchFiles = vlog.batchFiles := by
  rcases h with ⟨-, rfl⟩ | ⟨key, page, hlast, -, rfl⟩
  · exact ⟨rfl, rfl, rfl⟩
  · rw [List.getLast?_eq_getElem?] at hlast
    exact ⟨Pages.layouts_setPage hlast rfl, rfl, rfl⟩

/-- The pages in front of a new page that takes the batch. -/
theorem ValueLog.Closed.keys_lt
    {base : ValueLog}
    (h : vlog.Closed base n)
    (hok : vlog.pages.Ok)
    (hends : vlog.pages.Ends batchId)
    (hroom : n + 2 ≤ maxPageSize) :
    ∀ entry ∈ base.pages, entry.1 < batchId := by
  have hne : ∀ entry, vlog.pages.getLast? = some entry → entry.2.offsets ≠ [] := by
    intro entry hentry hnil
    rcases h with ⟨hpages, -⟩ | ⟨key, page, hlast, hfull, -⟩
    · rw [hpages] at hentry
      cases hentry
    · rw [hlast] at hentry
      cases hentry
      -- a page without batches has room
      have hempty := (hok.page _ (List.mem_of_getLast? hlast)).2.empty hnil
      apply hfull
      change (page.offsets.length + 1) * 2 + (page.entries.length + n) ≤ maxPageSize
      rw [hnil, hempty, List.length_nil, List.length_nil]
      omega
  intro entry hentry
  have hkey : entry.1 ∈ vlog.pages.map Prod.fst := by
    rw [← Pages.map_fst_of_layouts_eq h.layouts.1]
    exact List.mem_map_of_mem hentry
  obtain ⟨old, hold, heq⟩ := List.mem_map.mp hkey
  rw [← heq]
  exact hends.keys_lt hne old hold

variable [BitPacking]

theorem syncPage_frame
    (vlog : ValueLog) (idx : Nat) :
    (vlog.syncPage idx).metadata = vlog.metadata ∧
      (vlog.syncPage idx).batchFiles = vlog.batchFiles := by
  unfold ValueLog.syncPage
  split
  · exact ⟨rfl, rfl⟩
  · split_ifs <;> exact ⟨rfl, rfl⟩

/-- **What `add_batch` does to the bits.** -/
theorem grows_addBatch
    (vlog : ValueLog)
    (hok : vlog.pages.Ok)
    (hends : vlog.pages.Ends batchId)
    (n : Nat) :
    Pages.Grows batchId n vlog.pages (ValueLog.addBatch batchId n vlog).2.pages ∧
      (ValueLog.addBatch batchId n vlog).2.metadata.nextBatch = vlog.metadata.nextBatch ∧
      (ValueLog.addBatch batchId n vlog).2.batchFiles = vlog.batchFiles ∧
      ((ValueLog.addBatch batchId n vlog).1 = .value () →
        (ValueLog.addBatch batchId n vlog).2.pages.Ends (batchId + 1) ∧
          (ValueLog.addBatch batchId n vlog).2.pages.bitsOf batchId =
            some (List.replicate n true)) := by
  rcases addBatch_cases batchId n vlog with ⟨o, hrun, ho⟩ | ⟨key, page, hlast, hfits, hrun⟩ |
    ⟨base, hclosed, hrun⟩
  · rw [hrun]
    exact ⟨⟨hok, fun b bits hb => Or.inl hb⟩, rfl, rfl, fun hvalue => absurd hvalue (ho ())⟩
  · obtain ⟨hgrows, hends', hbits⟩ := grows_setPage hok hends hlast hfits
    have hlayouts := layouts_syncPage
      (vlog.setPage (vlog.pages.length - 1) (page.grown n)) (vlog.pages.length - 1)
    obtain ⟨hmetadata, hfiles⟩ := syncPage_frame
      (vlog.setPage (vlog.pages.length - 1) (page.grown n)) (vlog.pages.length - 1)
    rw [hrun]
    refine ⟨hgrows.of_layouts_eq hlayouts, congrArg ValueLogMetadata.nextBatch hmetadata, hfiles,
      fun _ => ⟨hends'.of_layouts_eq hlayouts, ?_⟩⟩
    rw [Pages.bitsOf_of_layouts_eq hlayouts]
    exact hbits
  · obtain ⟨hlayouts, hmetadata, hfiles⟩ := hclosed.layouts
    have hok' := hok.of_layouts_eq hlayouts
    have hends' := hends.of_layouts_eq hlayouts
    rw [hrun]
    rcases addToNewPage_cases batchId n base with ⟨hroom, hnew⟩ |
      ⟨o, page, -, ho, hheader, hoffsets, hentries, hnew⟩
    · obtain ⟨hgrows, hends'', hbits⟩ := grows_concat base.metadata.nextIndexPage hok'
        hends'.sorted (hclosed.keys_lt hok hends hroom) hroom
      have hsync := layouts_syncPage ((ValueLog.createNewPage batchId base).setPage
        base.pages.length ((IndexPage.new base.metadata.nextIndexPage batchId).grown n))
        base.pages.length
      obtain ⟨hmetadata', hfiles'⟩ := syncPage_frame ((ValueLog.createNewPage batchId base).setPage
        base.pages.length ((IndexPage.new base.metadata.nextIndexPage batchId).grown n))
        base.pages.length
      rw [hnew]
      rw [← setPage_createNewPage] at hgrows hends'' hbits
      refine ⟨(hgrows.of_base hlayouts).of_layouts_eq hsync, ?_, hfiles'.trans hfiles,
        fun _ => ⟨hends''.of_layouts_eq hsync, ?_⟩⟩
      · rw [hmetadata', ← hmetadata]
        rfl
      · rw [Pages.bitsOf_of_layouts_eq hsync]
        exact hbits
    · have hgrows := grows_empty (n := n) hok' hends'
        (congrArg IndexPageHeader.startBatch hheader) hoffsets hentries
      rw [hnew]
      rw [← setPage_createNewPage] at hgrows
      refine ⟨hgrows.of_base hlayouts, ?_, hfiles, fun hvalue => absurd hvalue (ho ())⟩
      rw [← hmetadata]
      rfl

end Add

/-! ## Writing a batch -/

/-- From one state of the value log to another: `write_batch` has taken the identifier of a
batch, and perhaps written its file and added its bits. -/
structure Grows (n : Nat) (s s' : ValueLog) : Prop where
  pages : Pages.Grows s.metadata.nextBatch n s.pages s'.pages
  nextBatch : s'.metadata.nextBatch = s.metadata.nextBatch + 1
  files : ∀ b, b ≠ s.metadata.nextBatch → s'.batchFiles b = s.batchFiles b

section Write

variable [BitPacking] {s : ValueLog} {entries : List (Key × Value)}

theorem grows_writeBatch
    (hok : s.pages.Ok)
    (hends : s.pages.Ends s.metadata.nextBatch)
    (entries : List (Key × Value)) :
    Grows (u32 entries.length) s (ValueLog.writeBatch entries s).2 := by
  rcases writeBatch_cases entries s with ⟨o, -, hrun, -⟩ | ⟨built, -, -, hrun⟩
  · rw [hrun]
    exact ⟨⟨hok, fun b bits hb => Or.inl hb⟩, rfl, fun b hb => rfl⟩
  · obtain ⟨hgrows, hnext, hfiles, -⟩ := grows_addBatch (s.batchWritten built.2) hok hends
      (u32 entries.length)
    rw [hrun, Call.bind_pure_state]
    refine ⟨hgrows, hnext, ?_⟩
    intro b hb
    rw [hfiles]
    exact Function.update_of_ne hb _ _

/-- When `write_batch` returns, the builder's data is in the file of the batch, all bits of the
batch are set, and the index is ready for the next batch. -/
theorem writeBatch_finished
    {ids : List ValueId} {s' : ValueLog}
    (hok : s.pages.Ok)
    (hends : s.pages.Ends s.metadata.nextBatch)
    (h : ValueLog.writeBatch entries s = (.value ids, s')) :
    ∃ built, (ValueBatchBuilder.new s.metadata.nextBatch).addEntries entries = .value built ∧
      ¬ TooLong entries ∧ ids = built.1 ∧
      s'.batchFiles s.metadata.nextBatch = some ⟨built.2.data⟩ ∧
      s'.pages.Ok ∧ s'.pages.Ends s'.metadata.nextBatch ∧
      s'.pages.bitsOf s.metadata.nextBatch = some (List.replicate (u32 entries.length) true) := by
  rcases writeBatch_cases entries s with ⟨o, -, hrun, ho⟩ | ⟨built, hlong, hbuilt, hrun⟩
  · rw [h] at hrun
    obtain ⟨hvalue, -⟩ := Prod.mk.inj hrun
    exact absurd hvalue.symm (ho ids)
  · rw [h] at hrun
    obtain ⟨_, s'', hadd, hpure⟩ := Call.bind_eq_value hrun.symm
    cases hpure
    obtain ⟨hgrows, hnext, hfiles, hvalue⟩ :=
      grows_addBatch (s.batchWritten built.2) hok hends (u32 entries.length)
    rw [hadd] at hgrows hnext hfiles hvalue
    obtain ⟨hends', hbits⟩ := hvalue rfl
    refine ⟨built, hbuilt, hlong, rfl, ?_, hgrows.ok, ?_, hbits⟩
    · rw [hfiles]
      exact Function.update_self _ _ _
    · rw [hnext]
      exact hends'

/-- The file holds the entries at the places of their identifiers. -/
theorem writeBatch_value
    {ids : List ValueId} {s' : ValueLog}
    (hok : s.pages.Ok)
    (hends : s.pages.Ends s.metadata.nextBatch)
    (hfits : ∀ offset ∈ valueOffsets 0 entries, offset < 2 ^ 32)
    (h : ValueLog.writeBatch entries s = (.value ids, s')) :
    s'.pages.Ends s'.metadata.nextBatch ∧
      ids = (valueOffsets 0 entries).map (fun offset => (s.metadata.nextBatch, offset)) ∧
      ∃ batch, s'.batchFiles s.metadata.nextBatch = some batch ∧
        ∀ placed ∈ entries.zip (valueOffsets 0 entries),
          batch.getValue placed.2 = .value placed.1.2 := by
  obtain ⟨built, hbuilt, hlong, rfl, hfile, -, hends', -⟩ := writeBatch_finished hok hends h
  refine ⟨hends', ?_, ⟨built.2.data⟩, hfile, ?_⟩
  · rw [ValueBatchBuilder.addEntries_ids hbuilt]
    refine List.map_congr_left fun offset hoffset => ?_
    rw [u32_of_lt (hfits offset hoffset)]
    rfl
  · intro placed hmem
    have hentry := (List.of_mem_zip hmem).1
    have hkey : placed.1.1.len < 2 ^ 32 := by
      by_contra hge
      exact hlong ⟨placed.1, hentry, Or.inl (Nat.not_lt.mp hge)⟩
    have hvalue : placed.1.2.len < 2 ^ 32 := by
      by_contra hge
      exact hlong ⟨placed.1, hentry, Or.inr (Nat.not_lt.mp hge)⟩
    exact getValue_of_hasEntry (LittleEndian.encode_length 4 _)
      ((ValueBatchBuilder.addEntries_hasEntry hbuilt).2 placed hmem) hkey hvalue

/-- Writing the pages changes nothing the bits depend on. -/
theorem fades_sync
    {marks : ValueId → Prop}
    (hok : s.pages.Ok) :
    Fades marks s s.sync := by
  have hsync : ∀ (indices : List Nat) (s' : ValueLog), Fades marks s s' →
      Fades marks s (indices.foldl ValueLog.syncPage s') := by
    intro indices
    induction indices with
    | nil =>
        exact fun s' h => h
    | cons idx indices ih =>
        intro s' h
        obtain ⟨hmetadata, hfiles⟩ := syncPage_frame s' idx
        exact ih _ (h.step (Pages.fades_of_layouts_eq h.pages.ok (layouts_syncPage s' idx))
          (congrArg ValueLogMetadata.nextBatch hmetadata) hfiles)
  exact hsync _ s (Fades.refl hok)

theorem ok_new :
    ValueLog.new.pages.Ok ∧ ValueLog.new.pages.Ends ValueLog.new.metadata.nextBatch ∧
      ∀ b, ValueLog.new.pages.bitsOf b = none := by
  have hempty : ∀ entry ∈ ValueLog.new.pages, entry.2.offsets = [] := by
    intro entry hentry
    rw [List.mem_singleton.mp hentry]
    rfl
  refine ⟨⟨?_, Or.inr hempty⟩, ⟨List.pairwise_singleton _ _, ?_⟩,
    Pages.bitsOf_eq_none_of_empty hempty⟩
  · intro entry hentry
    rw [List.mem_singleton.mp hentry]
    exact ⟨rfl, (IndexPage.wellCut_new minValueIndexPageId minValueBatchId).congr rfl rfl⟩
  · intro entry hlast
    cases hlast
    exact ⟨rfl, fun _ => hempty⟩

end Write

end Values
end LsmStore
