import LsmStore.Values.Log

/-!
# Adding a batch

The index tries to fit the bits of a new batch into its last page; a page
without enough space is sealed, and a new page begins with the batch.
-/

namespace LsmStore
namespace Values

section Add

variable {vlog : ValueLog} {page : IndexPage} {key n : Nat}

theorem expand_fits
    (hsealed : page.isSealed = false)
    (hfits : (page.offsets.length + 1) * 2 + (page.entries.length + n) ≤ maxPageSize) :
    page.expand n = .value (true, page.grown n) := by
  have hlt : ¬ maxPageSize ≤ n := by
    omega
  unfold IndexPage.expand
  rw [if_neg (by simp [hsealed]), if_neg hlt]
  exact if_pos hfits

theorem expand_full
    (hsealed : page.isSealed = false)
    (hlt : n < maxPageSize)
    (hfull : ¬ (page.offsets.length + 1) * 2 + (page.entries.length + n) ≤ maxPageSize) :
    page.expand n = .value (false, { page with isSealed := true }) := by
  unfold IndexPage.expand
  rw [if_neg (by simp [hsealed]), if_neg (Nat.not_le.mpr hlt)]
  exact if_neg hfull

theorem expandLast_value
    {expanded : Bool × IndexPage}
    (hlast : vlog.pages.getLast? = some (key, page))
    (hexpand : page.expand n = .value expanded) :
    ValueLog.expandLast n vlog =
      (.value expanded.1, vlog.setPage (vlog.pages.length - 1) expanded.2) := by
  rw [ValueLog.expandLast_of_some hlast, hexpand]
  rfl

theorem expandLast_panic
    {message : String}
    (hlast : vlog.pages.getLast? = some (key, page))
    (hexpand : page.expand n = .panic message) :
    ValueLog.expandLast n vlog = (.panic message, vlog) := by
  rw [ValueLog.expandLast_of_some hlast, hexpand]
  rfl

theorem length_createNewPage
    (batchId : Nat) (vlog : ValueLog) :
    (ValueLog.createNewPage batchId vlog).pages.length - 1 = vlog.pages.length := by
  change (vlog.pages ++ [_]).length - 1 = _
  rw [List.length_append]
  rfl

theorem getElem?_createNewPage
    (batchId : Nat) (vlog : ValueLog) :
    (ValueLog.createNewPage batchId vlog).pages[vlog.pages.length]? =
      some (batchId, IndexPage.new vlog.metadata.nextIndexPage batchId) := by
  change (vlog.pages ++ [_])[vlog.pages.length]? = _
  rw [List.getElem?_append_right (le_refl _), Nat.sub_self]
  rfl

/-- The last page, sealed. -/
def ValueLog.sealLast (vlog : ValueLog) (page : IndexPage) : ValueLog :=
  vlog.setPage (vlog.pages.length - 1) { page with isSealed := true }

theorem setPage_createNewPage
    (batchId : Nat) (vlog : ValueLog) (page : IndexPage) :
    (ValueLog.createNewPage batchId vlog).pages.setPage vlog.pages.length page =
      vlog.pages ++ [(batchId, page)] := by
  rw [Pages.setPage, List.modify_eq_set_getElem?, getElem?_createNewPage]
  change (vlog.pages ++ [_]).set vlog.pages.length _ = _
  rw [List.set_append_right _ _ (le_refl _), Nat.sub_self]
  rfl

theorem getLast?_createNewPage
    (batchId : Nat) (s : ValueLog) :
    (ValueLog.createNewPage batchId s).pages.getLast? =
      some (batchId, IndexPage.new s.metadata.nextIndexPage batchId) :=
  List.getLast?_concat

/-- Whether a batch fits into a page. -/
def IndexPage.Fits (page : IndexPage) (n : Nat) : Prop :=
  (page.offsets.length + 1) * 2 + (page.entries.length + n) ≤ maxPageSize

theorem expandLast_refused
    (hlast : vlog.pages.getLast? = some (key, page))
    (hrefused : page.isSealed = true ∨ maxPageSize ≤ n) :
    ∃ message, ValueLog.expandLast n vlog = (.panic message, vlog) := by
  by_cases hsealed : page.isSealed = true
  · exact ⟨_, expandLast_panic hlast (if_pos hsealed)⟩
  · have hexpand : page.expand n = .panic "assertion failed: num_entries < MAX_SIZE" := by
      unfold IndexPage.expand
      rw [if_neg hsealed, if_pos (hrefused.resolve_left hsealed)]
    exact ⟨_, expandLast_panic hlast hexpand⟩

variable [BitPacking]

theorem syncPage_setPage
    {idx : Nat} {page' : IndexPage}
    (hidx : vlog.pages[idx]? = some (key, page))
    (hdirty : page'.dirty = true) :
    (vlog.setPage idx page').syncPage idx =
      { vlog.setPage idx page'.written with
        pageFiles := Function.update vlog.pageFiles page'.getIdentifier (some page'.encode) } := by
  have hget : (vlog.setPage idx page').pages[idx]? = some (key, page') := by
    change (vlog.pages.setPage idx page')[idx]? = _
    rw [Pages.getElem?_setPage, hidx]
    simp
  have hpages : (vlog.pages.setPage idx page').setPage idx page'.written =
      vlog.pages.setPage idx page'.written := by
    apply List.ext_getElem?
    intro j
    rw [Pages.getElem?_setPage, Pages.getElem?_setPage, Pages.getElem?_setPage,
      Option.map_map]
    congr 1
    funext e
    dsimp only [Function.comp_apply]
    split_ifs <;> rfl
  rw [ValueLog.syncPage, hget]
  dsimp only
  rw [if_pos hdirty]
  change ValueLog.mk _ ((vlog.pages.setPage idx page').setPage idx _) _ _ _ = _
  rw [hpages]
  rfl

theorem deletions_syncPage
    (vlog : ValueLog) (idx : Nat) :
    (vlog.syncPage idx).deletions = vlog.deletions := by
  unfold ValueLog.syncPage
  split
  · rfl
  · split_ifs <;> rfl

/-- The part of `add_batch` behind the creation of a page. -/
def ValueLog.addToNewPage (numEntries : Nat) : Call ValueLog Unit := do
  let success ← expandLast numEntries
  if success then
    modify fun s => s.syncPage (s.pages.length - 1)
  else fail "Data did not fit in new page?"

theorem addBatch_of_fits
    {batchId : Nat} {s' : ValueLog}
    (hlast : ValueLog.expandLast n vlog = (.value true, s')) :
    (ValueLog.addBatch batchId n vlog).2 = s'.syncPage (s'.pages.length - 1) := by
  rw [ValueLog.addBatch, Call.bind_of_value hlast]
  rfl

theorem addBatch_of_full
    {batchId : Nat} {s' : ValueLog}
    (hlast : ValueLog.expandLast n vlog = (.value false, s')) :
    (ValueLog.addBatch batchId n vlog).2 =
      (ValueLog.addToNewPage n (ValueLog.createNewPage batchId s')).2 := by
  rw [ValueLog.addBatch, Call.bind_of_value hlast]
  rfl

theorem addToNewPage_of_fits
    {s' : ValueLog}
    (hlast : ValueLog.expandLast n vlog = (.value true, s')) :
    (ValueLog.addToNewPage n vlog).2 = s'.syncPage (s'.pages.length - 1) := by
  rw [ValueLog.addToNewPage, Call.bind_of_value hlast]
  rfl

theorem addToNewPage_of_full
    {s' : ValueLog}
    (hlast : ValueLog.expandLast n vlog = (.value false, s')) :
    (ValueLog.addToNewPage n vlog).2 = s' := by
  rw [ValueLog.addToNewPage, Call.bind_of_value hlast]
  rfl

theorem addBatch_newPage
    (hlast : vlog.pages.getLast? = some (key, page))
    (hsealed : page.isSealed = false)
    (hn : n + 2 ≤ maxPageSize)
    (hfull : ¬ (page.offsets.length + 1) * 2 + (page.entries.length + n) ≤ maxPageSize)
    (batchId : Nat) :
    let created := ValueLog.createNewPage batchId (vlog.sealLast page)
    (ValueLog.addBatch batchId n vlog).2 =
      (created.setPage (created.pages.length - 1)
        ((IndexPage.new vlog.metadata.nextIndexPage batchId).grown n)).syncPage
          (created.pages.length - 1) := by
  intro created
  have hnew : (IndexPage.new vlog.metadata.nextIndexPage batchId).expand n =
      .value (true, (IndexPage.new vlog.metadata.nextIndexPage batchId).grown n) :=
    expand_fits rfl (by change (0 + 1) * 2 + (0 + n) ≤ maxPageSize; omega)
  have hrun := expandLast_value (getLast?_createNewPage batchId (vlog.sealLast page)) hnew
  have hfirst : ValueLog.expandLast n vlog = (.value false, vlog.sealLast page) :=
    expandLast_value hlast (expand_full hsealed (by omega) hfull)
  rw [addBatch_of_full hfirst, addToNewPage_of_fits hrun]
  change ValueLog.syncPage _ ((Pages.setPage _ _ _).length - 1) = _
  rw [Pages.length_setPage]

/-- A batch that needs a new page seals the last one. -/
theorem pages_addBatch_newPage
    (hlast : vlog.pages.getLast? = some (key, page))
    (hsealed : page.isSealed = false)
    (hn : n + 2 ≤ maxPageSize)
    (hfull : ¬ (page.offsets.length + 1) * 2 + (page.entries.length + n) ≤ maxPageSize)
    (batchId : Nat) :
    ∃ new, (ValueLog.addBatch batchId n vlog).2.pages =
      (vlog.sealLast page).pages ++ [(batchId, new)] := by
  rw [addBatch_newPage hlast hsealed hn hfull, length_createNewPage,
    syncPage_setPage (getElem?_createNewPage batchId (vlog.sealLast page)) rfl]
  exact ⟨_, setPage_createNewPage batchId (vlog.sealLast page) _⟩

theorem deletions_addBatch
    (batchId n : Nat) (deletions : List (Nat × Nat)) :
    Call.Keeps (fun s : ValueLog => s.deletions = deletions) (ValueLog.addBatch batchId n) := by
  have hexpand : Call.Keeps (fun s : ValueLog => s.deletions = deletions)
      (ValueLog.expandLast n) := by
    intro s hs
    cases hlast : s.pages.getLast? with
    | none =>
        rw [ValueLog.expandLast_of_none hlast]
        exact hs
    | some entry =>
        rw [ValueLog.expandLast_of_some hlast]
        exact Call.Keeps.after_lift (I := fun s : ValueLog => s.deletions = deletions) hs
          fun expanded _ => hs
  have hsync : Call.Keeps (fun s : ValueLog => s.deletions = deletions)
      (modify fun s => s.syncPage (s.pages.length - 1)) :=
    fun s hs => (deletions_syncPage s _).trans hs
  refine Call.Keeps.bind hexpand fun fits => ?_
  cases fits with
  | true =>
      exact hsync
  | false =>
      refine Call.Keeps.bind (fun s hs => hs) fun _ => Call.Keeps.bind hexpand fun success => ?_
      cases success with
      | true =>
          exact hsync
      | false =>
          exact Call.Keeps.lift _

/-- What `add_batch` begins the new page behind. -/
def ValueLog.Closed (vlog base : ValueLog) (n : Nat) : Prop :=
  (vlog.pages = [] ∧ base = vlog) ∨
    ∃ key page, vlog.pages.getLast? = some (key, page) ∧ ¬ page.Fits n ∧
      base = vlog.sealLast page

/-- A new page takes the batch, or stays without it. -/
theorem addToNewPage_cases
    (batchId n : Nat) (base : ValueLog) :
    let created := ValueLog.createNewPage batchId base
    let new := IndexPage.new base.metadata.nextIndexPage batchId
    (n + 2 ≤ maxPageSize ∧ ValueLog.addToNewPage n created =
        (.value (), (created.setPage base.pages.length (new.grown n)).syncPage
          base.pages.length)) ∨
      ∃ o page, ¬ n + 2 ≤ maxPageSize ∧ (∀ result, o ≠ .value result) ∧
        page.header = new.header ∧ page.offsets = [] ∧ page.entries = [] ∧
        ValueLog.addToNewPage n created = (o, created.setPage base.pages.length page) := by
  intro created new
  have hlast : created.pages.getLast? = some (batchId, new) := getLast?_createNewPage batchId base
  have hlength : created.pages.length - 1 = base.pages.length := length_createNewPage batchId base
  by_cases hroom : n + 2 ≤ maxPageSize
  · have hnew : new.expand n = .value (true, new.grown n) :=
      expand_fits rfl (by change (0 + 1) * 2 + (0 + n) ≤ maxPageSize; omega)
    have hrun := expandLast_value hlast hnew
    refine Or.inl ⟨hroom, ?_⟩
    rw [ValueLog.addToNewPage, Call.bind_of_value hrun]
    change (_, ValueLog.syncPage _ ((Pages.setPage _ _ _).length - 1)) = _
    rw [Pages.length_setPage, hlength]
  · by_cases hlt : n < maxPageSize
    · have hnew : new.expand n = .value (false, { new with isSealed := true }) :=
        expand_full rfl hlt (by change ¬ (0 + 1) * 2 + (0 + n) ≤ maxPageSize; omega)
      have hrun := expandLast_value hlast hnew
      refine Or.inr ⟨.panic "Data did not fit in new page?", { new with isSealed := true }, hroom,
        by simp, rfl, rfl, rfl, ?_⟩
      rw [ValueLog.addToNewPage, Call.bind_of_value hrun, hlength]
      rfl
    · obtain ⟨message, hrun⟩ := expandLast_refused hlast (Or.inr (Nat.not_lt.mp hlt))
      refine Or.inr ⟨.panic message, new, hroom, by simp, rfl, rfl, rfl, ?_⟩
      rw [ValueLog.addToNewPage, Call.bind_of_panic hrun, Prod.mk.injEq]
      refine ⟨rfl, ?_⟩
      change created = { created with pages := created.pages.setPage base.pages.length new }
      rw [setPage_createNewPage]
      rfl

/-- **Everything `add_batch` can do**: refuse, add to the last page, or begin a new page. -/
theorem addBatch_cases
    (batchId n : Nat) (vlog : ValueLog) :
    (∃ o, ValueLog.addBatch batchId n vlog = (o, vlog) ∧ ∀ result, o ≠ .value result) ∨
      (∃ key page, vlog.pages.getLast? = some (key, page) ∧ page.Fits n ∧
        ValueLog.addBatch batchId n vlog =
          (.value (), (vlog.setPage (vlog.pages.length - 1) (page.grown n)).syncPage
            (vlog.pages.length - 1))) ∨
      ∃ base, vlog.Closed base n ∧ ValueLog.addBatch batchId n vlog =
        ValueLog.addToNewPage n (ValueLog.createNewPage batchId base) := by
  cases hlast : vlog.pages.getLast? with
  | none =>
      refine Or.inr (Or.inr ⟨vlog, Or.inl ⟨List.getLast?_eq_none_iff.mp hlast, rfl⟩, ?_⟩)
      rw [ValueLog.addBatch, Call.bind_of_value (ValueLog.expandLast_of_none hlast n)]
      rfl
  | some entry =>
      obtain ⟨key, page⟩ := entry
      by_cases hrefused : page.isSealed = true ∨ maxPageSize ≤ n
      · obtain ⟨message, hrun⟩ := expandLast_refused hlast hrefused
        exact Or.inl ⟨.panic message, Call.bind_of_panic hrun, by simp⟩
      · obtain ⟨hsealed, hlt⟩ := not_or.mp hrefused
        have hopen : page.isSealed = false := Bool.eq_false_of_not_eq_true hsealed
        by_cases hfits : page.Fits n
        · have hrun := expandLast_value hlast (expand_fits hopen hfits)
          refine Or.inr (Or.inl ⟨key, page, rfl, hfits, ?_⟩)
          rw [ValueLog.addBatch, Call.bind_of_value hrun]
          change (_, ValueLog.syncPage _ ((Pages.setPage _ _ _).length - 1)) = _
          rw [Pages.length_setPage]
        · have hrun : ValueLog.expandLast n vlog = (.value false, vlog.sealLast page) :=
            expandLast_value hlast (expand_full hopen (Nat.not_le.mp hlt) hfits)
          refine Or.inr (Or.inr ⟨vlog.sealLast page,
            Or.inr ⟨key, page, hlast, hfits, rfl⟩, ?_⟩)
          rw [ValueLog.addBatch, Call.bind_of_value hrun]
          rfl

/-- `make_batch` has taken the identifier of a batch. -/
def ValueLog.batchMade (vlog : ValueLog) : ValueLog :=
  { vlog with metadata := { vlog.metadata with nextBatch := vlog.metadata.nextBatch + 1 } }

/-- The file of the new batch is written. -/
def ValueLog.batchWritten (vlog : ValueLog) (built : ValueBatchBuilder) : ValueLog :=
  { vlog.batchMade with
    batchFiles := Function.update vlog.batchFiles vlog.metadata.nextBatch (some ⟨built.data⟩) }

/-- **Everything `write_batch` can do**: give up over an entry that is too long, or write the
file and add the batch to the index. -/
theorem writeBatch_cases
    (entries : List (Key × Value)) (vlog : ValueLog) :
    (∃ o, TooLong entries ∧ ValueLog.writeBatch entries vlog = (o, vlog.batchMade) ∧
        ∀ ids, o ≠ .value ids) ∨
      ∃ built, ¬ TooLong entries ∧
        (ValueBatchBuilder.new vlog.metadata.nextBatch).addEntries entries = .value built ∧
        ValueLog.writeBatch entries vlog =
          (do
            ValueLog.addBatch vlog.metadata.nextBatch (u32 entries.length)
            pure built.1 : Call ValueLog (List ValueId)) (vlog.batchWritten built.2) := by
  let builder := ValueBatchBuilder.new vlog.metadata.nextBatch
  have heq : ValueLog.writeBatch entries vlog =
      (do
        let built ← builder.addEntries entries
        modify fun s => { s with
          batchFiles := Function.update s.batchFiles vlog.metadata.nextBatch
            (some ⟨built.2.data⟩) }
        ValueLog.addBatch vlog.metadata.nextBatch (u32 built.2.offsets.length)
        pure built.1 : Call ValueLog (List ValueId)) vlog.batchMade := rfl
  rw [heq]
  by_cases hlong : TooLong entries
  · rcases Call.lift_bind_cases (builder.addEntries entries) _ vlog.batchMade with
      ⟨built, hbuilt, -⟩ | ⟨o, hrun, ho⟩
    · exact absurd hbuilt (ValueBatchBuilder.addEntries_of_tooLong hlong builder built)
    · exact Or.inl ⟨o, hlong, hrun, ho⟩
  · obtain ⟨built, hbuilt, hlength⟩ := ValueBatchBuilder.addEntries_value hlong builder
    have hcount : built.2.offsets.length = entries.length := by
      rw [hlength]
      exact Nat.zero_add _
    refine Or.inr ⟨built, hlong, hbuilt, ?_⟩
    rw [hbuilt, ← hcount]
    rfl

end Add

end Values
end LsmStore
