import LsmStore.Values.PageRoundTrip
import LsmStore.Values.Cleanup

/-!
# Marks in the value index

The index has five operations that mark something as deleted or compacted: a
value or a batch, by its identifier or, during recovery, by its place.  Each
looks up one page and does one thing to it.  When a value is marked by its
identifier, the oldest pages may be removed as well.
-/

namespace LsmStore
namespace Values

/-- The page with an identifier. -/
def Pages.pageIdxById (pages : Pages) (pageId : Nat) : Option Nat :=
  match SortedAssoc.position (pages.map fun entry => (entry.2.getIdentifier, entry.2)) pageId with
  | .ok idx => some idx
  | .error _ => none

/-- The page with an identifier is changed. -/
def Pages.updateById (pages : Pages) (pageId : Nat) (change : IndexPage → Outcome IndexPage) :
    Outcome Pages :=
  match SortedAssoc.position (pages.map fun entry => (entry.2.getIdentifier, entry.2)) pageId with
  | .ok idx => do
      let page ← pages.pageAt idx
      let page ← change page
      .value (pages.setPage idx page)
  | .error _ => .panic s!"No page with id={pageId}"

/-- The recovery marks a batch by its place. -/
def Pages.markBatchAsDeletedAt (pages : Pages) (pageId index : Nat) : Outcome Pages :=
  pages.updateById pageId fun page => page.markBatchAsDeletedAt index

namespace ValueLog

def markValueAsDeletedAt (pageId offset : Nat) : Call ValueLog Unit := do
  let s ← get
  let pages ← s.pages.markValueAsDeletedAt pageId offset
  set { s with pages := pages }

def markBatchAsDeletedAt (pageId index : Nat) : Call ValueLog Unit := do
  let s ← get
  let pages ← s.pages.markBatchAsDeletedAt pageId index
  set { s with pages := pages }

end ValueLog

/-- A mark in the index. -/
inductive IndexMark where
  | valueAsDeleted (vid : ValueId)
  | valueAsDeletedAt (pageId offset : Nat)
  | batchAsDeleted (batchId : Nat)
  | batchAsDeletedAt (pageId index : Nat)
  | batchAsCompacted (batchId : Nat)

namespace IndexMark

/-- What is done to the page. -/
def op : IndexMark → PageOp
  | .valueAsDeleted vid => .markValueAsDeleted vid
  | .valueAsDeletedAt _ offset => .markValueAsDeletedAt offset
  | .batchAsDeleted batchId => .markBatchAsDeleted batchId
  | .batchAsDeletedAt _ index => .markBatchAsDeletedAt index
  | .batchAsCompacted batchId => .markBatchAsCompacted batchId

/-- The page that is looked up. -/
def target (pages : Pages) : IndexMark → Option Nat
  | .valueAsDeleted vid => pages.findPageIdx vid.1
  | .valueAsDeletedAt pageId _ => pages.pageIdxById pageId
  | .batchAsDeleted batchId => pages.findPageIdx batchId
  | .batchAsDeletedAt pageId _ => pages.pageIdxById pageId
  | .batchAsCompacted batchId => pages.findPageIdx batchId

end IndexMark

namespace ValueLog

/-- The state a mark leaves behind, whether it succeeds or not. -/
def mark (s : ValueLog) : IndexMark → ValueLog
  | .valueAsDeleted vid => (markValueAsDeleted vid s).2
  | .valueAsDeletedAt pageId offset => (markValueAsDeletedAt pageId offset s).2
  | .batchAsDeleted batchId => (markBatchAsDeleted batchId s).2
  | .batchAsDeletedAt pageId index => (markBatchAsDeletedAt pageId index s).2
  | .batchAsCompacted batchId => (markBatchAsCompacted batchId s).2

/-- The page that is looked up is changed, if there is one and the change succeeds. -/
def changed (s : ValueLog) (m : IndexMark) : ValueLog :=
  match m.target s.pages with
  | none => s
  | some idx =>
      match s.pages[idx]? with
      | none => s
      | some (_, page) =>
          match page.perform m.op with
          | .value page' => s.setPage idx page'
          | _ => s

/-- The mark changes the page at some place. -/
structure Marks (s : ValueLog) (m : IndexMark) (idx key : Nat) (page page' : IndexPage) :
    Prop where
  target : m.target s.pages = some idx
  getElem? : s.pages[idx]? = some (key, page)
  perform : page.perform m.op = .value page'

section Cases

variable {s : ValueLog}

theorem Marks.changed_eq
    {m : IndexMark} {idx key : Nat} {page page' : IndexPage}
    (h : s.Marks m idx key page page') :
    s.changed m = s.setPage idx page' := by
  rw [changed, h.target]
  dsimp only
  rw [h.getElem?]
  dsimp only
  rw [h.perform]

/-- **What a mark can do**: nothing, or change one page. -/
theorem changed_cases
    (s : ValueLog) (m : IndexMark) :
    (s.changed m = s ∧ ∀ idx key page page', ¬ s.Marks m idx key page page') ∨
      ∃ idx key page page', s.Marks m idx key page page' := by
  by_cases hmarks : ∃ idx key page page', s.Marks m idx key page page'
  · exact Or.inr hmarks
  · refine Or.inl ⟨?_, fun idx key page page' h => hmarks ⟨idx, key, page, page', h⟩⟩
    unfold changed
    split
    · rfl
    · rename_i idx htarget
      split
      · rfl
      · rename_i key page hidx
        split
        · rename_i page' hperform
          exact absurd ⟨idx, key, page, page', htarget, hidx, hperform⟩ hmarks
        · rfl

theorem markBatch_eq_changed
    {batchId : Nat} {mark : IndexPage → Nat → Outcome (Nat × IndexPage)} {m : IndexMark}
    (htarget : m.target s.pages = s.pages.findPageIdx batchId)
    (hmark : ∀ page : IndexPage, page.perform m.op = (do
      let marked ← mark page batchId
      .value marked.2)) :
    (markBatch mark batchId s).2 = s.changed m := by
  unfold changed
  rw [htarget]
  cases hfind : s.pages.findPageIdx batchId with
  | none =>
      rw [markBatch_of_none hfind]
  | some idx =>
      rw [markBatch_of_some hfind, Pages.pageAt]
      dsimp only
      cases hidx : s.pages[idx]? with
      | none =>
          rfl
      | some entry =>
          change ((liftM (mark entry.2 batchId) >>= fun marked => set (s.setPage idx marked.2) :
            Call ValueLog Unit) s).2 = match entry.2.perform m.op with
              | .value page' => s.setPage idx page'
              | _ => s
          rw [hmark]
          cases mark entry.2 batchId <;> rfl

theorem updateById_eq_changed
    {pageId : Nat} {change : IndexPage → Outcome IndexPage} {m : IndexMark}
    (htarget : m.target s.pages = s.pages.pageIdxById pageId)
    (hchange : ∀ page : IndexPage, page.perform m.op = change page) :
    ((do
      let pages ← s.pages.updateById pageId change
      set { s with pages := pages } : Call ValueLog Unit) s).2 = s.changed m := by
  unfold changed
  rw [htarget, Pages.pageIdxById, Pages.updateById]
  cases SortedAssoc.position (s.pages.map fun entry => (entry.2.getIdentifier, entry.2))
      pageId with
  | error pos =>
      rfl
  | ok idx =>
      dsimp only
      rw [Pages.pageAt]
      cases s.pages[idx]? with
      | none =>
          rfl
      | some entry =>
          dsimp only
          rw [Outcome.value_bind, hchange]
          cases change entry.2 <;> rfl

/-- The four marks that remove no page. -/
theorem mark_eq_changed
    (s : ValueLog) (m : IndexMark)
    (hm : ∀ vid, m ≠ .valueAsDeleted vid) :
    s.mark m = s.changed m := by
  cases m with
  | valueAsDeleted vid =>
      exact absurd rfl (hm vid)
  | valueAsDeletedAt pageId offset =>
      exact updateById_eq_changed rfl fun _ => rfl
  | batchAsDeleted batchId =>
      exact markBatch_eq_changed rfl fun _ => rfl
  | batchAsDeletedAt pageId index =>
      exact updateById_eq_changed rfl fun _ => rfl
  | batchAsCompacted batchId =>
      exact markBatch_eq_changed rfl fun _ => rfl

/-- **Everything a mark can do**: nothing, change one page, or remove pages after that. -/
theorem mark_cases
    (s : ValueLog) (m : IndexMark) :
    s.mark m = s ∨
      ∃ idx key page page', s.Marks m idx key page page' ∧
        (s.mark m = s.setPage idx page' ∨
          s.mark m = (removeUnusedPages (s.setPage idx page').pages (s.setPage idx page')).2) := by
  by_cases hm : ∃ vid, m = .valueAsDeleted vid
  · obtain ⟨vid, rfl⟩ := hm
    rcases markValueAsDeleted_cases s vid with
      ⟨o, hrun, -⟩ | ⟨idx, key, page, marked, hfind, hidx, hmarked, hrun⟩
    · exact Or.inl (congrArg Prod.snd hrun)
    · have hperform : page.perform (.markValueAsDeleted vid) = .value marked.2 := by
        change (page.markValueAsDeleted vid >>= _) = _
        rw [hmarked]
        rfl
      refine Or.inr ⟨idx, key, page, marked.2, ⟨hfind, hidx, hperform⟩, ?_⟩
      change (markValueAsDeleted vid s).2 = _ ∨ (markValueAsDeleted vid s).2 = _
      rw [hrun, afterMark]
      split_ifs
      · exact Or.inr (Call.bind_pure_state _ _ _)
      · exact Or.inl rfl
  · rw [mark_eq_changed s m fun vid hvid => hm ⟨vid, hvid⟩]
    rcases changed_cases s m with ⟨hsame, -⟩ | ⟨idx, key, page, page', hmarks⟩
    · exact Or.inl hsame
    · exact Or.inr ⟨idx, key, page, page', hmarks, Or.inl hmarks.changed_eq⟩

end Cases

end ValueLog
end Values
end LsmStore
