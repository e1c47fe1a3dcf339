import LsmStore.Logic.GarbageCollection
import LsmStore.Values.DeletionCalls

/-!
# Does anybody see the collection of values?

The values that tables refer to stay, so a lookup finds the last write of the
history of the database.  That history has the batches of the clients, and among
them the batches a compaction has inserted again.  As long as no value is marked
while the batch with the number of its index page has another active value,
nothing is inserted again, and the history is the one of the clients.
-/

namespace LsmStore
namespace Logic

open KeyedList Values

namespace WisckeyState

/-! ## Lookups -/

section Lookup

variable {params : Params} {s : WisckeyState} {key : Key}

theorem findTable_mem
    {found : SortedTable × MemtableEntry}
    (h : s.findTable params key = some found) :
    (∃ level, found.1 ∈ s.db.tables level) ∧ found.1.get key = some found.2 := by
  obtain ⟨level, -, hlevel⟩ := List.exists_of_findSome?_eq_some h
  obtain ⟨t, ht, hget⟩ := List.exists_of_findSome?_eq_some hlevel
  obtain ⟨entry, hentry, rfl⟩ := Option.map_eq_some_iff.mp hget
  exact ⟨⟨level, List.mem_reverse.mp ht⟩, hentry⟩

/-- The first entry of the levels. -/
theorem map_snd_findTable
    (params : Params) (s : WisckeyState) (key : Key) :
    (s.findTable params key).map Prod.snd =
      ((List.range params.numLevels).flatMap fun level =>
        (s.db.tables level).reverse.filterMap fun table => table.get key).head? := by
  rw [List.head?_flatMap, findTable, List.map_findSome?]
  congr 1
  funext level
  rw [List.head?_filterMap, Function.comp_apply, List.map_findSome?]
  congr 1
  funext t
  rw [Function.comp_apply, Option.map_map]
  exact Option.map_id'

/-- The reference of an entry leads to its value. -/
theorem ReferenceInv.getRef_eq
    {t : SortedTable} {entry : MemtableEntry}
    (h : ReferenceInv s)
    (ht : Placed s.db t)
    (hget : t.get key = some entry) :
    s.getRef t key entry = .value entry.getValue := by
  cases entry with
  | deletion n =>
      rfl
  | value n value =>
      obtain ⟨vid, hid, hvalue⟩ := h.stored t ht key n value hget
      simp only [getRef, hid, hvalue]
      rfl

/-- **A lookup finds the last write of the history of the database.** -/
theorem get_eq
    (hver : VersionInv params s.db)
    (h : ReferenceInv s)
    (key : Key) :
    s.get params key = .value (valueAfter s.db.batches.flatten key) := by
  have hhead := hver.head?_lookupPath key
  rw [lookupPath, List.head?_append, List.head?_append, Option.head?_toList,
    List.head?_filterMap, ← map_snd_findTable] at hhead
  rw [valueAfter, ← hhead, get]
  cases hmem : s.db.memtable.get key with
  | some entry =>
      rfl
  | none =>
      cases himm : s.db.immMemtables.reverse.findSome? fun imm => imm.2.get key with
      | some entry =>
          rfl
      | none =>
          cases hfind : s.findTable params key with
          | none =>
              rfl
          | some found =>
              obtain ⟨hlevel, hget⟩ := findTable_mem hfind
              exact h.getRef_eq (Or.inl hlevel) hget

end Lookup

/-! ## The history -/

/-- The compaction has nothing to insert again. -/
def insertsNone : Collector → Bool
  | .marking _ _ reinsert => reinsert.isEmpty
  | .waiting _ _ => false
  | _ => true

/-- What a step adds to the histories of the database and of the clients. -/
inductive HistoryStep (s s' : WisckeyState) : Prop
  | client {batch : List WriteOp}
      (hbatches : s'.db.batches = s.db.batches ++ [batch])
      (hack : s'.acknowledged = s.acknowledged ++ [batch])
  | again {batch : List WriteOp} {pc : Collector}
      (hpc : pc ∈ s.collectors)
      (hinserts : insertsNone pc = false)
      (hbatches : s'.db.batches = s.db.batches ++ [batch])
      (hack : s'.acknowledged = s.acknowledged)
  | same
      (hbatches : s'.db.batches = s.db.batches)
      (hack : s'.acknowledged = s.acknowledged)

/-- The value that is marked in this step. -/
def marks (s : WisckeyState) : DbEvent → Option ValueId
  | .task i =>
      match s.collectors[i]? with
      | some (.marking _ (vid :: _) _) => some vid
      | _ => none
  | _ => none

/-- A value is marked only if it leaves no active value in the batch with the number of its
index page. -/
def MarksLast (s : WisckeyState) (e : DbEvent) : Prop :=
  ∀ vid ∈ s.marks e, s.vlog.LeavesNone vid

instance (s : WisckeyState) (e : DbEvent) : Decidable (MarksLast s e) :=
  inferInstanceAs (Decidable (∀ vid ∈ s.marks e, s.vlog.LeavesNone vid))

section History

variable {params : Params} {s s' : WisckeyState} {e : DbEvent}

/-- A write that does not have to wait is part of the history. -/
theorem batches_writeOpts
    {batch : List WriteOp}
    (hroom : s.mustWait params batch = false) :
    (writeOpts params s.db batch).batches = s.db.batches ++ [batch] := by
  unfold writeOpts
  dsimp only
  split_ifs with hfull hempty
  · rfl
  · simp [mustWait, hfull, hempty] at hroom
  · rfl

theorem mustWait_of_empty
    (hempty : s.db.immMemtables = [])
    (batch : List WriteOp) :
    s.mustWait params batch = false := by
  rw [mustWait, hempty]
  exact Bool.and_false _

theorem batches_taskStep
    (hver : VersionInv params s.db)
    (i : Nat) :
    (taskStep params s.db i).batches = s.db.batches := by
  rcases taskStep_cases hver.own i with hframe | ⟨-, c, t, -, -, hinst⟩
  · exact hframe.batches
  · exact hinst.quiet.batches

theorem historyStep_of_wisckeyStep
    [BitPacking]
    (h : WisckeyStep params s e s')
    (hver : VersionInv params s.db) :
    HistoryStep s s' := by
  have hflush : (doMemtableCompaction params s.db).batches = s.db.batches :=
    (quiet_doMemtableCompaction params hver.flush).batches
  cases h with
  | stay | clientWait | failValues | failMerge | mark | failMark | update | wait =>
      exact .same rfl rfl
  | write hfree hroom =>
      exact .client (batches_writeOpts hroom) rfl
  | clientResume hclient hempty =>
      exact .client (batches_writeOpts (mustWait_of_empty hempty _)) rfl
  | getBegin =>
      exact .same (unnoticed_getBegin s.db _ _).batches rfl
  | getNext =>
      exact .same (unnoticed_getNext params s.db _).batches rfl
  | writeValues | flush | flushSync =>
      exact .same hflush rfl
  | compact =>
      exact .same (unnoticed_startCompaction params s.db _ _).batches rfl
  | task | merge =>
      exact .same (batches_taskStep hver _) rfl
  | install hcol htask hread =>
      have hbatches := (installTable_installs hver.own htask hread).quiet.batches
      exact .same hbatches rfl
  | reinsert hcol hne hfree hroom =>
      refine .again (List.mem_of_getElem? hcol) ?_ (batches_writeOpts hroom) rfl
      exact List.isEmpty_eq_false_iff.mpr hne
  | resume hcol hempty =>
      exact .again (List.mem_of_getElem? hcol) rfl
        (batches_writeOpts (mustWait_of_empty hempty _)) rfl

theorem HistoryStep.sublist
    (h : HistoryStep s s')
    (hsub : s.acknowledged.Sublist s.db.batches) :
    s'.acknowledged.Sublist s'.db.batches := by
  cases h with
  | client hbatches hack =>
      rw [hbatches, hack]
      exact hsub.append (List.Sublist.refl _)
  | again hpc hinserts hbatches hack =>
      rw [hbatches, hack]
      exact hsub.trans (List.sublist_append_left _ _)
  | same hbatches hack =>
      rw [hbatches, hack]
      exact hsub

/-- No compaction has anything to insert again, now and after a step that marks the last value. -/
theorem insertsNone_of_wisckeyStep
    [BitPacking]
    (h : WisckeyStep params s e s')
    (hok : s.vlog.pages.Ok)
    (hmarks : MarksLast s e)
    (hnone : ∀ pc ∈ s.collectors, insertsNone pc = true) :
    ∀ pc ∈ s'.collectors, insertsNone pc = true := by
  have hset : ∀ (i : Nat) (pc : Collector), insertsNone pc = true →
      ∀ pc' ∈ s.collectors.set i pc, insertsNone pc' = true := by
    intro i pc hpc pc' hmem
    rcases List.mem_or_eq_of_mem_set hmem with hold | rfl
    · exact hnone pc' hold
    · exact hpc
  cases h with
  | stay | write | clientWait | clientResume | getBegin | getNext | writeValues | failValues |
    flush | flushSync | compact | task =>
      exact hnone
  | merge | failMerge | install | failMark | reinsert | resume =>
      exact hset _ _ rfl
  | @mark i c vid values reinsert entries vlog hcol hmark =>
      have hempty : reinsert = [] :=
        List.isEmpty_iff.mp (hnone _ (List.mem_of_getElem? hcol))
      have hvid : s.marks (.task i) = some vid := by
        simp only [marks, hcol]
      have hentries := (hmarks vid hvid).entries_eq_nil hok hmark
      refine hset _ _ ?_
      rw [insertsNone, hempty, hentries]
      rfl
  | update hcol hheader hpc =>
      refine hset _ _ ?_
      rcases hpc with rfl | rfl <;> rfl
  | wait hcol hne =>
      exact absurd (List.isEmpty_iff.mp (hnone _ (List.mem_of_getElem? hcol))) hne

end History

/-! ## What clients see -/

/-- The last writes of a history can be read, and every put on a level refers to a value the
history has for its key. -/
structure Intact (params : Params) (s : WisckeyState) (history : List (List WriteOp)) : Prop where
  get : ∀ key, s.get params key = .value (valueAfter history.flatten key)
  values : ∀ level, ∀ t ∈ s.db.tables level, ∀ key n value,
    t.get key = some (.value n value) →
      .put key value ∈ history.flatten ∧
        ∃ vid, s.valueIds t.getId key = some vid ∧ s.vlog.getValue vid = .value value

/-- What every run keeps. -/
structure CollectInv (params : Params) (s : WisckeyState) : Prop where
  versions : VersionInv params s.db
  references : ReferenceInv s
  sublist : s.acknowledged.Sublist s.db.batches

/-- What a run keeps in which nothing is inserted again. -/
structure SilentInv (params : Params) (s : WisckeyState) : Prop extends CollectInv params s where
  none : ∀ pc ∈ s.collectors, insertsNone pc = true
  batches : s.db.batches = s.acknowledged

section Visible

variable {params : Params} {s : WisckeyState}

theorem CollectInv.intact
    (h : CollectInv params s) :
    Intact params s s.db.batches where
  get := get_eq h.versions h.references
  values := by
    intro level t ht key n value hget
    refine ⟨?_, h.references.stored t (Or.inl ⟨level, ht⟩) key n value hget⟩
    obtain ⟨m, -, hlast⟩ := h.versions.genuine (level + 2) key (.value n value) ⟨t, ht, hget⟩
    have hvalue : valueAfter (s.db.batches.take m).flatten key = some value := by
      rw [valueAfter, hlast]
      rfl
    rw [flatten_take_append s.db.batches m]
    exact List.mem_append_left _ (put_mem_of_valueAfter hvalue)

variable [BitPacking]

theorem collectInv_new
    (params : Params) (numTasks : Nat) :
    CollectInv params (WisckeyState.new params numTasks) :=
  ⟨versionInv_new params numTasks, referenceInv_new params numTasks, List.Sublist.refl _⟩

theorem silentInv_new
    (params : Params) (numTasks : Nat) :
    SilentInv params (WisckeyState.new params numTasks) := by
  refine ⟨collectInv_new params numTasks, fun pc hpc => ?_, rfl⟩
  rw [List.eq_of_mem_replicate hpc]
  rfl

theorem CollectInv.step
    {e : DbEvent}
    (h : CollectInv params s)
    (hfits : FlushFits s e) :
    CollectInv params (step params s e) := by
  have hstep := wisckeyStep_step h.versions.own e
  exact ⟨hstep.versionInv h.versions, h.references.step h.versions hfits hstep,
    (historyStep_of_wisckeyStep hstep h.versions).sublist h.sublist⟩

theorem SilentInv.step
    {e : DbEvent}
    (h : SilentInv params s)
    (hfits : FlushFits s e)
    (hmarks : MarksLast s e) :
    SilentInv params (step params s e) := by
  have hstep := wisckeyStep_step h.versions.own e
  refine ⟨h.toCollectInv.step hfits,
    insertsNone_of_wisckeyStep hstep h.references.tracks.ok hmarks h.none, ?_⟩
  cases historyStep_of_wisckeyStep hstep h.versions with
  | client hbatches hack =>
      rw [hbatches, hack, h.batches]
  | again hpc hinserts =>
      rw [h.none _ hpc] at hinserts
      cases hinserts
  | same hbatches hack =>
      rw [hbatches, hack, h.batches]

end Visible

/-- One put, and the flush of its memtable. -/
def putAndFlush (key value : List UInt8) : List DbEvent :=
  .write [.put (ByteVec.ofList key) (ByteVec.ofList value)] :: List.replicate 10 .flusher

/-- Six tables.  The first one is moved to level 1; then the third and the fourth one are merged,
and the value of the third one is marked.  It is in the first page, so the first batch is looked
at, and its long entry is taken for a put of key 7 and value 5. -/
def mergeAndCollect : List DbEvent :=
  putAndFlush (7 :: List.replicate 8 0) (5 :: List.replicate 17 0) ++ putAndFlush [1] [1] ++
    putAndFlush [7] [1] ++ putAndFlush [7] [2] ++ putAndFlush [2] [1] ++
    .compact 0 0 :: List.replicate 11 (.task 0) ++ putAndFlush [3] [1] ++
    .compact 0 0 :: List.replicate 19 (.task 0)

/-- The value of key 7 in batch 1 is overridden.  It is the only one of its batch, and the page of
the batch has its number. -/
def overrideFirst : List DbEvent :=
  putAndFlush [7] [1] ++ putAndFlush [7] [2] ++ putAndFlush [1] [1] ++ putAndFlush [2] [1] ++
    putAndFlush [3] [1] ++ .compact 0 0 :: List.replicate 20 (.task 0)

end WisckeyState

end Logic
end LsmStore
