import LsmStore.Lib.Segments
import LsmStore.Values.AddBatch
import LsmStore.Values.Cleanup

/-!
# Which values are alive

For every batch the index has one bit per value.  This module says what the
operations of the value log do to these bits and to the files of the batches,
without the pages: a new batch gets bits that are all set, marking a value
clears the bit whose number is the second part of the value's identifier, pages
that are dropped take their bits with them, and a batch file is removed only
after all bits of the batch are cleared.
-/

namespace LsmStore
namespace Values

open SortedAssoc Segments

/-! ## The bits of a page -/

namespace IndexPage

/-- The bits of a batch of the page. -/
def bitsOf (p : IndexPage) (batchId : Nat) : Option (List Bool) :=
  if batchId < p.header.startBatch then none
  else segmentAt p.offsets p.entries (batchId - p.header.startBatch)

/-- The offsets cut the bits of the page into batches. -/
structure WellCut (p : IndexPage) : Prop where
  cuts : Cuts p.offsets p.entries.length
  short : p.entries.length ≤ maxPageSize
  empty : p.offsets = [] → p.entries = []

section Bits

variable {p q : IndexPage}

theorem bitsOf_congr
    (hstart : q.header.startBatch = p.header.startBatch)
    (hoffsets : q.offsets = p.offsets)
    (hentries : q.entries = p.entries)
    (batchId : Nat) :
    q.bitsOf batchId = p.bitsOf batchId := by
  rw [bitsOf, bitsOf, hstart, hoffsets, hentries]

theorem WellCut.congr
    (h : p.WellCut)
    (hoffsets : q.offsets = p.offsets)
    (hentries : q.entries = p.entries) :
    q.WellCut := by
  refine ⟨?_, ?_, ?_⟩
  · rw [hoffsets, hentries]
    exact h.cuts
  · rw [hentries]
    exact h.short
  · rw [hoffsets, hentries]
    exact h.empty

theorem wellCut_new
    (identifier startBatch : Nat) :
    (IndexPage.new identifier startBatch).WellCut where
  cuts := ⟨List.Pairwise.nil, fun _ h => by cases h⟩
  short := Nat.zero_le _
  empty := fun _ => rfl

theorem getBatchRange_value
    {batchId : Nat} {range : Nat × Nat}
    (h : p.getBatchRange batchId = .value range) :
    p.header.startBatch ≤ batchId ∧
      p.offsets[batchId - p.header.startBatch]? = some range.1 ∧
      range.2 = segmentEnd p.offsets p.entries.length (batchId - p.header.startBatch) := by
  unfold getBatchRange at h
  split_ifs at h with hlt
  dsimp only at h
  split at h
  · cases h
  · rename_i startPos hstart
    cases h
    exact ⟨Nat.not_lt.mp hlt, hstart, rfl⟩

/-- The range of a batch has its bits. -/
theorem bitsOf_of_range
    {batchId : Nat} {range : Nat × Nat}
    (h : p.getBatchRange batchId = .value range) :
    p.bitsOf batchId = some ((p.entries.drop range.1).take (range.2 - range.1)) := by
  obtain ⟨hle, hstart, hend⟩ := getBatchRange_value h
  rw [bitsOf, if_neg (Nat.not_lt.mpr hle), segmentAt, hstart, ← hend]
  rfl

/-- A batch without active values has no bit set. -/
theorem bitsOf_of_countActiveEntries
    {batchId : Nat}
    (h : p.countActiveEntries batchId = .value 0) :
    ∃ bits, p.bitsOf batchId = some bits ∧ ∀ bit ∈ bits, bit = false := by
  obtain ⟨range, hrange, h⟩ := Outcome.bind_eq_value h
  dsimp only at h
  split_ifs at h
  refine ⟨_, bitsOf_of_range hrange, ?_⟩
  intro bit hbit
  have hcount := List.count_eq_zero.mp (Outcome.value.inj h)
  cases bit with
  | false =>
      rfl
  | true =>
      exact absurd hbit hcount

theorem bitsOf_markValueAsDeleted
    {vid : ValueId} {marked : Nat × IndexPage}
    (hcut : p.WellCut)
    (h : p.markValueAsDeleted vid = .value marked) :
    marked.2.WellCut ∧ marked.2.header = p.header ∧ marked.2.offsets = p.offsets ∧
      ∃ bits, p.bitsOf vid.1 = some bits ∧ ∀ batchId, marked.2.bitsOf batchId =
        if batchId = vid.1 then some (bits.set vid.2 false) else p.bitsOf batchId := by
  obtain ⟨range, hrange, h⟩ := Outcome.bind_eq_value h
  obtain ⟨bits, hbits, h⟩ := Outcome.bind_eq_value h
  have hslice : bits = (p.entries.drop range.1).take (range.2 - range.1) := by
    unfold slice at hbits
    split_ifs at hbits
    exact (Outcome.value.inj hbits).symm
  split at h
  · cases h
  · cases h
  · rename_i hbit
    cases h
    have hr : vid.2 < bits.length := (List.getElem?_eq_some_iff.mp hbit).1
    obtain ⟨hle, hstart, hend⟩ := getBatchRange_value hrange
    have hown : p.bitsOf vid.1 = some bits := by
      rw [bitsOf_of_range hrange, hslice]
    have hseg : segmentAt p.offsets p.entries (vid.1 - p.header.startBatch) = some bits := by
      rw [bitsOf, if_neg (Nat.not_lt.mpr hle)] at hown
      exact hown
    refine ⟨⟨?_, ?_, ?_⟩, rfl, rfl, bits, hown, ?_⟩
    · change Cuts p.offsets (p.entries.set _ _).length
      rw [List.length_set]
      exact hcut.cuts
    · change (p.entries.set _ _).length ≤ _
      rw [List.length_set]
      exact hcut.short
    · intro hempty
      change p.entries.set _ _ = []
      rw [hcut.empty hempty]
      rfl
    · intro batchId
      unfold bitsOf
      change (if batchId < p.header.startBatch then none
        else segmentAt p.offsets (p.entries.set (range.1 + vid.2) false)
          (batchId - p.header.startBatch)) = _
      by_cases hlt : batchId < p.header.startBatch
      · rw [if_pos hlt, if_pos hlt, if_neg (by omega)]
      · rw [if_neg hlt, if_neg hlt, segmentAt_set hcut.cuts hstart hseg hr]
        by_cases hid : batchId = vid.1
        · rw [if_pos hid, hid, if_pos rfl]
        · rw [if_neg hid, if_neg (by omega)]

theorem bitsOf_grown
    {n : Nat}
    (hcut : p.WellCut)
    (hfits : (p.offsets.length + 1) * 2 + (p.entries.length + n) ≤ maxPageSize) :
    (p.grown n).WellCut ∧ ∀ batchId, (p.grown n).bitsOf batchId =
      if batchId = p.header.startBatch + p.offsets.length then some (List.replicate n true)
      else p.bitsOf batchId := by
  have hu16 : u16 p.entries.length = p.entries.length := by
    rw [maxPageSize] at hfits
    exact u16_eq (by omega)
  have hoffsets : (p.grown n).offsets = p.offsets ++ [p.entries.length] := by
    exact congrArg (fun offset => p.offsets ++ [offset]) hu16
  have hlength : (p.grown n).entries.length = p.entries.length + n := by
    change (p.entries ++ List.replicate n true).length = _
    rw [List.length_append, List.length_replicate]
  refine ⟨⟨?_, ?_, ?_⟩, ?_⟩
  · rw [hoffsets, hlength]
    exact hcut.cuts.concat n
  · rw [hlength]
    omega
  · intro hempty
    rw [hoffsets] at hempty
    exact absurd hempty (by simp)
  · intro batchId
    unfold bitsOf
    change (if batchId < p.header.startBatch then none else _) = _
    by_cases hlt : batchId < p.header.startBatch
    · rw [if_pos hlt, if_pos hlt, if_neg (by omega)]
    · rw [if_neg hlt, if_neg hlt, hoffsets]
      change segmentAt _ (p.entries ++ List.replicate n true) (batchId - p.header.startBatch) = _
      rw [segmentAt_concat hcut.cuts]
      by_cases hid : batchId = p.header.startBatch + p.offsets.length
      · rw [if_pos hid, if_pos (by omega)]
      · rw [if_neg hid, if_neg (by omega)]

end Bits

end IndexPage

/-! ## The bits of the index -/

namespace Pages

def bitsOf (pages : Pages) (batchId : Nat) : Option (List Bool) :=
  (pages.findPageIdx batchId).bind fun idx => pages[idx]?.bind fun entry => entry.2.bitsOf batchId

/-- Every page is cut into batches.  The pages are in the order of their batches, unless there
is no batch at all: a page without batches may have the same first batch as the next one. -/
structure Ok (pages : Pages) : Prop where
  page : ∀ entry ∈ pages, entry.1 = entry.2.header.startBatch ∧ entry.2.WellCut
  order : Sorted pages ∨ ∀ entry ∈ pages, entry.2.offsets = []

/-- The next batch belongs to the end of the last page, or to a new one. -/
structure Ends (pages : Pages) (nextBatch : Nat) : Prop where
  sorted : Sorted pages
  last : ∀ entry, pages.getLast? = some entry →
    entry.1 + entry.2.offsets.length = nextBatch ∧
      (entry.2.offsets = [] → ∀ other ∈ pages, other.2.offsets = [])

section Search

variable {pages rest : Pages} {key batchId : Nat} {page : IndexPage} {bits : List Bool}

theorem findPageIdx_cons
    (key : Nat) (page : IndexPage) (rest : Pages) (batchId : Nat) :
    findPageIdx ((key, page) :: rest) batchId =
      if batchId < key then none
      else if key < batchId then some (((findPageIdx rest batchId).map (· + 1)).getD 0)
      else some 0 := by
  unfold findPageIdx
  rw [position]
  rcases Nat.lt_trichotomy batchId key with hlt | heq | hgt
  · rw [if_neg (Nat.not_lt.mpr (le_of_lt hlt)), if_neg (Nat.ne_of_gt hlt), if_pos hlt]
  · rw [if_neg (by omega), if_pos heq.symm, if_neg (by omega), if_neg (by omega)]
  · rw [if_pos hgt, if_neg (by omega), if_pos hgt]
    cases position rest batchId with
    | ok pos =>
        rfl
    | error pos =>
        cases pos <;> rfl

/-- A page that is found begins with the batch or before. -/
theorem exists_le_of_findPageIdx
    {idx : Nat}
    (h : findPageIdx pages batchId = some idx) :
    ∃ entry ∈ pages, entry.1 ≤ batchId := by
  cases pages with
  | nil =>
      cases h
  | cons entry rest =>
      obtain ⟨key, page⟩ := entry
      rw [findPageIdx_cons] at h
      split_ifs at h with hlt
      · exact ⟨_, List.mem_cons_self, Nat.not_lt.mp hlt⟩
      · exact ⟨_, List.mem_cons_self, Nat.not_lt.mp hlt⟩

theorem findPageIdx_concat
    (hkeys : ∀ entry ∈ pages, entry.1 < key)
    (page : IndexPage) (batchId : Nat) :
    findPageIdx (pages ++ [(key, page)]) batchId =
      if batchId < key then findPageIdx pages batchId else some pages.length := by
  induction pages with
  | nil =>
      rw [List.nil_append, findPageIdx_cons]
      split_ifs <;> rfl
  | cons entry rest ih =>
      obtain ⟨first, firstPage⟩ := entry
      have hfirst : first < key := hkeys _ List.mem_cons_self
      rw [List.cons_append, findPageIdx_cons, findPageIdx_cons,
        ih fun other hother => hkeys other (List.mem_cons_of_mem _ hother)]
      by_cases hlt : batchId < key
      · rw [if_pos hlt, if_pos hlt]
      · rw [if_neg hlt, if_neg hlt, if_neg (by omega), if_pos (by omega)]
        rfl

/-- Without batches there are no bits. -/
theorem bitsOf_eq_none_of_empty
    (h : ∀ entry ∈ pages, entry.2.offsets = [])
    (batchId : Nat) :
    pages.bitsOf batchId = none := by
  rw [bitsOf, Option.bind_eq_none_iff]
  intro idx _
  rw [Option.bind_eq_none_iff]
  intro entry hentry
  rw [IndexPage.bitsOf, h entry (List.mem_of_getElem? hentry)]
  split_ifs
  · rfl
  · exact segmentAt_eq_none (Nat.zero_le _)

theorem Ok.tail
    {entry : Nat × IndexPage}
    (h : Ok (entry :: rest)) :
    Ok rest where
  page := fun other hother => h.page other (List.mem_cons_of_mem _ hother)
  order := h.order.imp Sorted.tail fun hempty other hother =>
    hempty other (List.mem_cons_of_mem _ hother)

/-- A batch that is found without the first page is found with it. -/
theorem findPageIdx_of_tail
    {entry : Nat × IndexPage} {idx : Nat}
    (h : Sorted (entry :: rest))
    (hidx : findPageIdx rest batchId = some idx) :
    findPageIdx (entry :: rest) batchId = some (idx + 1) := by
  obtain ⟨other, hother, hle⟩ := exists_le_of_findPageIdx hidx
  have hlt := h.head_lt hother
  obtain ⟨key, page⟩ := entry
  dsimp only at hlt
  rw [findPageIdx_cons, if_neg (by omega), if_pos (by omega), hidx]
  rfl

/-- The bits that stay when the first page is dropped. -/
theorem bitsOf_of_tail
    {entry : Nat × IndexPage}
    (h : Ok (entry :: rest))
    (hbits : Pages.bitsOf rest batchId = some bits) :
    Pages.bitsOf (entry :: rest) batchId = some bits := by
  rcases h.order with hsorted | hempty
  · obtain ⟨idx, hidx, hfound⟩ := Option.bind_eq_some_iff.mp hbits
    rw [bitsOf, findPageIdx_of_tail hsorted hidx]
    exact hfound
  · rw [bitsOf_eq_none_of_empty fun other hother =>
      hempty other (List.mem_cons_of_mem _ hother)] at hbits
    cases hbits

theorem map_fst_setPage
    (pages : Pages) (idx : Nat) (page : IndexPage) :
    (pages.setPage idx page).map Prod.fst = pages.map Prod.fst := by
  apply List.ext_getElem?
  intro j
  rw [List.getElem?_map, getElem?_setPage, List.getElem?_map, Option.map_map]
  congr 1
  funext entry
  dsimp only [Function.comp_apply]
  split_ifs <;> rfl

theorem findPageIdx_setPage
    (pages : Pages) (idx : Nat) (page : IndexPage) (batchId : Nat) :
    (pages.setPage idx page).findPageIdx batchId = pages.findPageIdx batchId := by
  rw [findPageIdx, findPageIdx, position_congr (map_fst_setPage pages idx page)]

/-- What is read in the page of a batch, after one page was replaced. -/
theorem onPage_setPage
    {β : Type} {idx : Nat}
    (hidx : pages[idx]? = some (key, page))
    (page' : IndexPage) (batchId : Nat) (read : IndexPage → Option β) :
    (((pages.setPage idx page').findPageIdx batchId).bind fun j =>
        (pages.setPage idx page')[j]?.bind fun entry => read entry.2) =
      if pages.findPageIdx batchId = some idx then read page'
      else (pages.findPageIdx batchId).bind fun j => pages[j]?.bind fun entry => read entry.2 := by
  rw [findPageIdx_setPage]
  cases hfound : pages.findPageIdx batchId with
  | none =>
      rfl
  | some j =>
      rw [Option.bind_some, Option.bind_some, getElem?_setPage]
      by_cases hj : j = idx
      · subst hj
        rw [if_pos rfl, hidx]
        simp
      · rw [if_neg fun heq => hj (Option.some.inj heq)]
        simp [hj]

theorem bitsOf_setPage
    {idx : Nat}
    (hidx : pages[idx]? = some (key, page))
    (page' : IndexPage) (batchId : Nat) :
    (pages.setPage idx page').bitsOf batchId =
      if pages.findPageIdx batchId = some idx then page'.bitsOf batchId
      else pages.bitsOf batchId :=
  onPage_setPage hidx page' batchId fun entry => entry.bitsOf batchId

theorem sorted_setPage
    (h : Sorted pages)
    (idx : Nat) (page : IndexPage) :
    Sorted (pages.setPage idx page) := by
  rw [Sorted, ← List.pairwise_map (f := Prod.fst) (R := (· < ·)), map_fst_setPage,
    List.pairwise_map]
  exact h

theorem Ok.setPage
    {idx : Nat} {page' : IndexPage}
    (h : Ok pages)
    (hidx : pages[idx]? = some (key, page))
    (hstart : page'.header.startBatch = page.header.startBatch)
    (hcut : page'.WellCut)
    (hempty : Sorted pages ∨ (page.offsets = [] → page'.offsets = [])) :
    Ok (pages.setPage idx page') := by
  have hmem : ∀ entry ∈ pages.setPage idx page', entry ∈ pages ∨ entry = (key, page') := by
    intro entry hentry
    obtain ⟨j, hj⟩ := List.getElem?_of_mem hentry
    rw [getElem?_setPage] at hj
    obtain ⟨old, hold, rfl⟩ := Option.map_eq_some_iff.mp hj
    by_cases hij : j = idx
    · subst hij
      rw [hidx] at hold
      cases hold
      rw [if_pos rfl]
      exact Or.inr rfl
    · rw [if_neg hij]
      exact Or.inl (List.mem_of_getElem? hold)
  have hpage := h.page _ (List.mem_of_getElem? hidx)
  refine ⟨?_, ?_⟩
  · intro entry hentry
    rcases hmem entry hentry with hold | rfl
    · exact h.page entry hold
    · exact ⟨hpage.1.trans hstart.symm, hcut⟩
  · rcases h.order with hold | hold
    · exact Or.inl (sorted_setPage hold idx page')
    · rcases hempty with hsorted | hsame
      · exact Or.inl (sorted_setPage hsorted idx page')
      · right
        intro entry hentry
        rcases hmem entry hentry with hentry' | rfl
        · exact hold entry hentry'
        · exact hsame (hold _ (List.mem_of_getElem? hidx))

end Search

end Pages

/-! ## What the bits depend on -/

/-- A page without its identifier, the states of its batches and its marks. -/
def IndexPage.layout (p : IndexPage) : Nat × List Nat × List Bool :=
  (p.header.startBatch, p.offsets, p.entries)

namespace Pages

def layouts (pages : Pages) : List (Nat × Nat × List Nat × List Bool) :=
  pages.map fun entry => (entry.1, entry.2.layout)

section Layouts

variable {pages pages' : Pages}

theorem layouts_of_views_eq
    (h : pages'.views = pages.views) :
    pages'.layouts = pages.layouts := by
  have hmap := congrArg (List.map fun entry : Nat × PageView =>
    (entry.1, entry.2.header.startBatch, entry.2.offsets, entry.2.entries)) h
  rw [views, views, List.map_map, List.map_map] at hmap
  exact hmap

theorem layouts_setPage
    {idx key : Nat} {page page' : IndexPage}
    (hidx : pages[idx]? = some (key, page))
    (h : page'.layout = page.layout) :
    (pages.setPage idx page').layouts = pages.layouts := by
  apply List.ext_getElem?
  intro j
  rw [layouts, layouts, List.getElem?_map, List.getElem?_map, getElem?_setPage]
  by_cases hj : j = idx
  · subst hj
    simp [hidx, h]
  · simp [hj]

theorem getElem?_of_layouts_eq
    {j : Nat} {entry' : Nat × IndexPage}
    (h : pages'.layouts = pages.layouts)
    (hj : pages'[j]? = some entry') :
    ∃ entry, pages[j]? = some entry ∧ entry'.1 = entry.1 ∧
      entry'.2.layout = entry.2.layout := by
  have hlayout : pages.layouts[j]? = some (entry'.1, entry'.2.layout) := by
    rw [← h, layouts, List.getElem?_map, hj]
    rfl
  rw [layouts, List.getElem?_map] at hlayout
  obtain ⟨entry, hentry, heq⟩ := Option.map_eq_some_iff.mp hlayout
  obtain ⟨hkey, hpage⟩ := Prod.mk.inj heq
  exact ⟨entry, hentry, hkey.symm, hpage.symm⟩

theorem map_fst_of_layouts_eq
    (h : pages'.layouts = pages.layouts) :
    pages'.map Prod.fst = pages.map Prod.fst := by
  have hfst := congrArg (List.map Prod.fst) h
  rw [layouts, layouts, List.map_map, List.map_map] at hfst
  exact hfst

theorem sorted_of_layouts_eq
    (h : pages'.layouts = pages.layouts)
    (hsorted : Sorted pages) :
    Sorted pages' := by
  rw [Sorted, ← List.pairwise_map (f := Prod.fst) (R := (· < ·)), map_fst_of_layouts_eq h,
    List.pairwise_map]
  exact hsorted

theorem offsets_of_layouts_eq
    (h : pages'.layouts = pages.layouts)
    (hempty : ∀ entry ∈ pages, entry.2.offsets = []) :
    ∀ entry' ∈ pages', entry'.2.offsets = [] := by
  intro entry' hentry'
  obtain ⟨j, hj⟩ := List.getElem?_of_mem hentry'
  obtain ⟨entry, hentry, -, hlayout⟩ := getElem?_of_layouts_eq h hj
  exact (congrArg (fun layout => layout.2.1) hlayout).trans
    (hempty entry (List.mem_of_getElem? hentry))

theorem bitsOf_of_layouts_eq
    (h : pages'.layouts = pages.layouts)
    (batchId : Nat) :
    pages'.bitsOf batchId = pages.bitsOf batchId := by
  rw [bitsOf, bitsOf, findPageIdx, findPageIdx, position_congr (map_fst_of_layouts_eq h)]
  congr 1
  funext idx
  have hlength : pages'.length = pages.length := by
    have hlen := congrArg List.length h
    rwa [layouts, layouts, List.length_map, List.length_map] at hlen
  cases hidx : pages'[idx]? with
  | none =>
      have hnone : pages[idx]? = none := by
        rw [List.getElem?_eq_none_iff] at hidx ⊢
        omega
      rw [hnone]
  | some entry' =>
      obtain ⟨entry, hentry, -, hlayout⟩ := getElem?_of_layouts_eq h hidx
      rw [hentry]
      exact IndexPage.bitsOf_congr (congrArg Prod.fst hlayout)
        (congrArg (fun layout => layout.2.1) hlayout)
        (congrArg (fun layout => layout.2.2) hlayout) batchId

theorem Ok.of_layouts_eq
    (hok : pages.Ok)
    (h : pages'.layouts = pages.layouts) :
    pages'.Ok := by
  refine ⟨?_, hok.order.imp (sorted_of_layouts_eq h) (offsets_of_layouts_eq h)⟩
  intro entry' hentry'
  obtain ⟨j, hj⟩ := List.getElem?_of_mem hentry'
  obtain ⟨entry, hentry, hkey, hlayout⟩ := getElem?_of_layouts_eq h hj
  obtain ⟨hstart, hcut⟩ := hok.page entry (List.mem_of_getElem? hentry)
  exact ⟨(hkey.trans hstart).trans (congrArg Prod.fst hlayout).symm,
    hcut.congr (congrArg (fun layout => layout.2.1) hlayout)
      (congrArg (fun layout => layout.2.2) hlayout)⟩

theorem Ends.of_layouts_eq
    {nextBatch : Nat}
    (hends : pages.Ends nextBatch)
    (h : pages'.layouts = pages.layouts) :
    pages'.Ends nextBatch := by
  refine ⟨sorted_of_layouts_eq h hends.sorted, ?_⟩
  intro last' hlast'
  have hlength : pages'.length = pages.length := by
    have hlen := congrArg List.length h
    rwa [layouts, layouts, List.length_map, List.length_map] at hlen
  rw [List.getLast?_eq_getElem?, hlength] at hlast'
  obtain ⟨last, hlast, hkey, hlayout⟩ := getElem?_of_layouts_eq h hlast'
  rw [← List.getLast?_eq_getElem?] at hlast
  have hoffsets : last'.2.offsets = last.2.offsets :=
    congrArg (fun layout => layout.2.1) hlayout
  obtain ⟨hnext, hnil⟩ := hends.last last hlast
  refine ⟨by rw [hkey, hoffsets]; exact hnext, ?_⟩
  intro hnil'
  exact offsets_of_layouts_eq h (hnil (hoffsets ▸ hnil'))

end Layouts

end Pages

theorem layouts_syncPage
    [BitPacking]
    (s : ValueLog) (idx : Nat) :
    (s.syncPage idx).pages.layouts = s.pages.layouts := by
  unfold ValueLog.syncPage
  split
  · rfl
  · rename_i key page hidx
    split_ifs
    · exact Pages.layouts_setPage hidx rfl
    · rfl

namespace Pages

/-! ## Bits fade -/

/-- From some pages to others: every bit that is cleared now was cleared before or is one of
the `marks`, and no batch has got more or fewer bits. -/
structure Fades (marks : ValueId → Prop) (pages pages' : Pages) : Prop where
  ok : pages'.Ok
  ends : ∀ nextBatch, pages.Ends nextBatch → pages'.Ends nextBatch
  bits : ∀ batchId bits', pages'.bitsOf batchId = some bits' →
    ∃ bits, pages.bitsOf batchId = some bits ∧ bits'.length = bits.length ∧
      ∀ r, bits'[r]? = some false → bits[r]? = some false ∨ marks (batchId, r)

section Fading

variable {marks : ValueId → Prop} {pages pages' pages'' : Pages}

theorem Fades.refl
    (h : pages.Ok) :
    Fades marks pages pages :=
  ⟨h, fun _ hends => hends, fun _ bits hbits => ⟨bits, hbits, rfl, fun _ hr => Or.inl hr⟩⟩

theorem Fades.trans
    (h : Fades marks pages pages')
    (h' : Fades marks pages' pages'') :
    Fades marks pages pages'' where
  ok := h'.ok
  ends := fun nextBatch hends => h'.ends nextBatch (h.ends nextBatch hends)
  bits := by
    intro batchId bits'' hbits''
    obtain ⟨bits', hbits', hlength', hcleared'⟩ := h'.bits batchId bits'' hbits''
    obtain ⟨bits, hbits, hlength, hcleared⟩ := h.bits batchId bits' hbits'
    refine ⟨bits, hbits, hlength'.trans hlength, ?_⟩
    intro r hr
    rcases hcleared' r hr with hr' | hmark
    · exact hcleared r hr'
    · exact Or.inr hmark

theorem Ends.tail
    {entry : Nat × IndexPage} {nextBatch : Nat}
    (h : Ends (entry :: pages) nextBatch) :
    Ends pages nextBatch where
  sorted := h.sorted.tail
  last := by
    intro last hlast
    obtain ⟨hnext, hempty⟩ := h.last last (by rw [List.getLast?_cons, hlast]; rfl)
    exact ⟨hnext, fun hoffsets other hother =>
      hempty hoffsets other (List.mem_cons_of_mem _ hother)⟩

theorem fades_tail
    {entry : Nat × IndexPage}
    (h : Ok (entry :: pages)) :
    Fades marks (entry :: pages) pages where
  ok := h.tail
  ends := fun _ hends => hends.tail
  bits := fun _ bits hbits => ⟨bits, bitsOf_of_tail h hbits, rfl, fun _ hr => Or.inl hr⟩

theorem Ends.setPage
    {idx key nextBatch : Nat} {page page' : IndexPage}
    (h : pages.Ends nextBatch)
    (hidx : pages[idx]? = some (key, page))
    (hoffsets : page'.offsets = page.offsets) :
    (pages.setPage idx page').Ends nextBatch := by
  have hsame : ∀ (j : Nat) entry', (pages.setPage idx page')[j]? = some entry' →
      ∃ entry, pages[j]? = some entry ∧ entry'.1 = entry.1 ∧
        entry'.2.offsets = entry.2.offsets := by
    intro j entry' hj
    rw [getElem?_setPage] at hj
    obtain ⟨entry, hentry, rfl⟩ := Option.map_eq_some_iff.mp hj
    refine ⟨entry, hentry, ?_⟩
    split_ifs with hji
    · subst hji
      rw [hidx] at hentry
      cases hentry
      exact ⟨rfl, hoffsets⟩
    · exact ⟨rfl, rfl⟩
  refine ⟨sorted_setPage h.sorted idx page', ?_⟩
  intro entry' hlast
  rw [List.getLast?_eq_getElem?, length_setPage] at hlast
  obtain ⟨entry, hentry, hkey, hoff⟩ := hsame _ _ hlast
  rw [← List.getLast?_eq_getElem?] at hentry
  obtain ⟨hnext, hempty⟩ := h.last entry hentry
  refine ⟨by rw [hkey, hoff]; exact hnext, ?_⟩
  intro hnil other' hother'
  obtain ⟨j, hj⟩ := List.getElem?_of_mem hother'
  obtain ⟨other, hother, -, hoff'⟩ := hsame _ _ hj
  rw [hoff']
  exact hempty (hoff ▸ hnil) other (List.mem_of_getElem? hother)

theorem fades_markValueAsDeleted
    {idx key : Nat} {page : IndexPage} {vid : ValueId} {marked : Nat × IndexPage}
    (h : pages.Ok)
    (hidx : pages[idx]? = some (key, page))
    (hmarked : page.markValueAsDeleted vid = .value marked)
    (hvid : marks vid) :
    Fades marks pages (pages.setPage idx marked.2) := by
  obtain ⟨hcut, hheader, hoffsets, bits, hbits, hmarks⟩ :=
    IndexPage.bitsOf_markValueAsDeleted (h.page _ (List.mem_of_getElem? hidx)).2 hmarked
  refine ⟨?_, fun nextBatch hends => hends.setPage hidx hoffsets, ?_⟩
  · exact h.setPage hidx (congrArg IndexPageHeader.startBatch hheader) hcut
      (Or.inr fun hempty => hoffsets.trans hempty)
  · intro batchId bits' hbits'
    have hown : pages.findPageIdx batchId = some idx →
        pages.bitsOf batchId = page.bitsOf batchId := by
      intro hbatch
      rw [Pages.bitsOf, hbatch, Option.bind_some, hidx]
      rfl
    rw [bitsOf_setPage hidx] at hbits'
    split_ifs at hbits' with hbatch
    · rw [hmarks] at hbits'
      rw [hown hbatch]
      split_ifs at hbits' with hid
      · subst hid
        cases hbits'
        refine ⟨bits, hbits, List.length_set, ?_⟩
        intro r hr
        rw [List.getElem?_set] at hr
        split_ifs at hr with hvr
        · subst hvr
          exact Or.inr hvid
        · exact Or.inl hr
      · exact ⟨bits', hbits', rfl, fun _ hr => Or.inl hr⟩
    · exact ⟨bits', hbits', rfl, fun _ hr => Or.inl hr⟩

/-- Nothing the bits depend on has changed. -/
theorem fades_of_layouts_eq
    (hok : pages.Ok)
    (h : pages'.layouts = pages.layouts) :
    Fades marks pages pages' where
  ok := hok.of_layouts_eq h
  ends := fun _ hends => hends.of_layouts_eq h
  bits := fun batchId bits hbits =>
    ⟨bits, by rw [← bitsOf_of_layouts_eq h]; exact hbits, rfl, fun _ hr => Or.inl hr⟩

end Fading

end Pages

/-! ## The value log -/

/-- From one state of the value log to another: bits fade, and a batch file is removed only
when all bits of the batch are cleared. -/
structure Fades (marks : ValueId → Prop) (s s' : ValueLog) : Prop where
  pages : Pages.Fades marks s.pages s'.pages
  nextBatch : s'.metadata.nextBatch = s.metadata.nextBatch
  files : ∀ batchId, s'.batchFiles batchId = s.batchFiles batchId ∨
    s'.batchFiles batchId = none ∧ ∃ bits, s.pages.bitsOf batchId = some bits ∧
      ∀ r < bits.length, bits[r]? = some false ∨ marks (batchId, r)

section ValueLog

variable {marks : ValueId → Prop} {s₀ s s' : ValueLog}

theorem Fades.refl
    (h : s.pages.Ok) :
    Fades marks s s :=
  ⟨Pages.Fades.refl h, rfl, fun _ => Or.inl rfl⟩

/-- Whatever leaves the bits, the next batch and the batch files alone. -/
theorem Fades.step
    (h : Fades marks s₀ s)
    (hpages : Pages.Fades marks s.pages s'.pages)
    (hnext : s'.metadata.nextBatch = s.metadata.nextBatch)
    (hfiles : s'.batchFiles = s.batchFiles) :
    Fades marks s₀ s' where
  pages := h.pages.trans hpages
  nextBatch := hnext.trans h.nextBatch
  files := by
    rw [hfiles]
    exact h.files

theorem Fades.trans
    (h : Fades marks s₀ s)
    (h' : Fades marks s s') :
    Fades marks s₀ s' where
  pages := h.pages.trans h'.pages
  nextBatch := h'.nextBatch.trans h.nextBatch
  files := by
    intro batchId
    rcases h'.files batchId with hsame | ⟨hnone, bits', hbits', hcleared'⟩
    · rw [hsame]
      exact h.files batchId
    · obtain ⟨bits, hbits, hlength, hcleared⟩ := h.pages.bits batchId bits' hbits'
      refine Or.inr ⟨hnone, bits, hbits, ?_⟩
      intro r hr
      rcases hcleared' r (hlength ▸ hr) with hfalse | hmark
      · exact hcleared r hfalse
      · exact Or.inr hmark

/-- A batch without active values has no bit set. -/
theorem ValueLog.IsEmpty.bitsOf
    {batchId : Nat}
    (h : s.IsEmpty batchId) :
    ∃ bits, s.pages.bitsOf batchId = some bits ∧ ∀ bit ∈ bits, bit = false := by
  obtain ⟨⟨idx, hidx⟩, hcount⟩ := h
  rw [Pages.countActiveEntries, hidx] at hcount
  obtain ⟨page, hpage, hcount⟩ := Outcome.bind_eq_value hcount
  obtain ⟨key, hget⟩ := Pages.getElem?_of_pageAt hpage
  obtain ⟨bits, hbits, hfalse⟩ := IndexPage.bitsOf_of_countActiveEntries hcount
  refine ⟨bits, ?_, hfalse⟩
  rw [Pages.bitsOf, hidx, Option.bind_some, hget]
  exact hbits

theorem Cleans.fades
    (h : Cleans s s')
    (hok : s.pages.Ok) :
    Fades marks s s' where
  pages := Pages.fades_of_layouts_eq hok (Pages.layouts_of_views_eq h.views)
  nextBatch := h.nextBatch
  files := by
    intro batchId
    refine (h.files batchId).imp_right fun hempty => ⟨hempty.1, ?_⟩
    obtain ⟨bits, hbits, hfalse⟩ := hempty.2.bitsOf
    refine ⟨bits, hbits, fun r hr => Or.inl ?_⟩
    rw [List.getElem?_eq_getElem hr, hfalse _ (List.getElem_mem hr)]

theorem fades_removeUnusedPages
    (h : Fades marks s₀ s) :
    Fades marks s₀ (ValueLog.removeUnusedPages s.pages s).2 := by
  generalize hpages : s.pages = pages
  induction pages generalizing s with
  | nil =>
      exact h
  | cons entry rest ih =>
      obtain ⟨key, page⟩ := entry
      rw [ValueLog.removeUnusedPages]
      split_ifs
      · change Fades marks s₀ ((if s.metadata.minimumIndexPage < page.getIdentifier then _ else _ :
          Call ValueLog Unit) s).2
        split_ifs
        · exact h.step (Pages.Fades.refl h.pages.ok) rfl rfl
        · exact h
      · cases hfile : s.pageFiles page.getIdentifier with
        | none =>
            have hrun := ValueLog.removePageFile_of_none hfile
            rw [Call.bind_of_ne_value (by rw [hrun]; simp), hrun]
            exact h
        | some file =>
            rw [Call.bind_of_value (ValueLog.removePageFile_of_some hfile)]
            refine ih ?_ rfl
            refine h.step ?_ rfl rfl
            change Pages.Fades marks s.pages rest
            have hok := h.pages.ok
            rw [hpages] at hok ⊢
            exact Pages.fades_tail hok

/-- **What `mark_value_deleted` does to the bits and to the batch files.** -/
theorem fades_markValueDeleted
    {vid : ValueId}
    (hok : s.pages.Ok)
    (hvid : marks vid) :
    Fades marks s (ValueLog.markValueDeleted vid s).2 := by
  have hmark : Fades marks s (ValueLog.markValueAsDeleted vid s).2 := by
    rcases markValueAsDeleted_cases s vid with ⟨o, hrun, -⟩ |
      ⟨idx, key, page, marked, -, hget, hmarked, hrun⟩
    · rw [hrun]
      exact Fades.refl hok
    · have hset : Fades marks s (s.setPage idx marked.2) :=
        (Fades.refl hok).step (Pages.fades_markValueAsDeleted hok hget hmarked hvid) rfl rfl
      rw [hrun, ValueLog.afterMark]
      split_ifs
      · exact Call.Keeps.after (fades_removeUnusedPages hset) fun _ => Call.Keeps.pure _
      · exact hset
  cases hresult : ValueLog.markValueAsDeleted vid s with
  | mk outcome s' =>
      rw [hresult] at hmark
      by_cases hvalue : ∃ place, outcome = .value place
      · obtain ⟨place, rfl⟩ := hvalue
        have hlogged : Fades marks s { s' with deletions := s'.deletions ++ [place] } :=
          hmark.step (Pages.Fades.refl hmark.pages.ok) rfl rfl
        exact hlogged.trans ((cleans_markValueDeleted hresult).fades hlogged.pages.ok)
      · rw [markValueDeleted_of_ne_value (by rw [hresult]; exact not_exists.mp hvalue), hresult]
        exact hmark

end ValueLog

end Values
end LsmStore
