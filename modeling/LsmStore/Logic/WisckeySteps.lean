import LsmStore.Logic.Refinement
import LsmStore.Logic.Wisckey

/-!
# The steps of the database with a value log

What each event can do, one case per kind of step.  The function itself is taken
apart only here.  The database below makes one of its own steps or none, except
that an installation and its call of the manifest are two steps here; the
invariant of its versions holds in every run with the value log as well.
-/

namespace LsmStore
namespace Logic

open Values

/-- A step, with what it found. -/
inductive WisckeyStep [BitPacking] (params : Params) (s : WisckeyState) :
    DbEvent → WisckeyState → Prop
  /-- The task has nothing to do, has failed, or waits for a lock. -/
  | stay (e : DbEvent) : WisckeyStep params s e s
  | write {batch : List WriteOp}
      (hfree : s.memtableLocked = false)
      (hroom : s.mustWait params batch = false) :
      WisckeyStep params s (.write batch) (s.acknowledge params batch)
  | clientWait {batch : List WriteOp}
      (hfree : s.memtableLocked = false) :
      WisckeyStep params s (.write batch) { s with waitingClient := some batch }
  | clientResume {batch waiting : List WriteOp}
      (hclient : s.waitingClient = some waiting)
      (hempty : s.db.immMemtables = []) :
      WisckeyStep params s (.write batch) (s.acknowledge params waiting)
  | getBegin {client : Nat} {key : Key} :
      WisckeyStep params s (.getBegin client key) { s with db := getBegin s.db client key }
  | getNext {client : Nat} :
      WisckeyStep params s (.getNext client) { s with db := getNext params s.db client }
  | writeValues {logOffset tableId : Nat} {mem : Memtable} {ids : List ValueId}
      {vlog : ValueLog}
      (halive : s.flusherFailed = false)
      (hpc : s.db.flusher = .writing logOffset mem tableId)
      (hwrite : ValueLog.writeBatch (WisckeyState.memtableValues mem) s.vlog =
        (.value ids, vlog)) :
      WisckeyStep params s .flusher
        { s with
          db := doMemtableCompaction params s.db
          vlog := vlog
          valueIds := Function.update s.valueIds tableId
            (WisckeyState.assign (WisckeyState.memtableValues mem) ids) }
  | failValues {logOffset tableId : Nat} {mem : Memtable} {vlog : ValueLog}
      (halive : s.flusherFailed = false)
      (hpc : s.db.flusher = .writing logOffset mem tableId)
      (hwrite : (ValueLog.writeBatch (WisckeyState.memtableValues mem) s.vlog).2 = vlog) :
      WisckeyStep params s .flusher { s with vlog := vlog, flusherFailed := true }
  | flush
      (hpc : ∀ logOffset mem tableId, s.db.flusher ≠ .writing logOffset mem tableId)
      (hfree : ∀ logOffset mem table, s.db.flusher = .adding logOffset mem table →
        s.levelLocked 0 = false) :
      WisckeyStep params s .flusher { s with db := doMemtableCompaction params s.db }
  | flushSync {logOffset tableId : Nat} {mem : Memtable}
      (hpc : s.db.flusher = .settingSeqNumber logOffset mem tableId) :
      WisckeyStep params s .flusher
        { s with db := doMemtableCompaction params s.db, vlog := s.vlog.sync }
  | compact {i level : Nat}
      (hcol : s.collectors[i]? = some .idle) :
      WisckeyStep params s (.compact i level)
        { s with db := startCompaction params s.db i level }
  | task {i : Nat}
      (hcol : s.collectors[i]? = some .idle)
      (htask : ∀ c tableId, s.db.tasks[i]? ≠ some (.merging c tableId)) :
      WisckeyStep params s (.task i) { s with db := taskStep params s.db i }
  | merge {i tableId : Nat} {c : Compaction} {values : List ValueId}
      (hcol : s.collectors[i]? = some .idle)
      (htask : s.db.tasks[i]? = some (.merging c tableId))
      (hvalues : WisckeyState.deletedValues s.valueIds (c.parents ++ c.children) =
        some values) :
      WisckeyStep params s (.task i)
        { s.setCollector i (.merged values) with
          db := taskStep params s.db i
          valueIds := Function.update s.valueIds tableId
            (WisckeyState.mergedIds s.valueIds (c.parents ++ c.children)) }
  /-- A reference was unwrapped that is not there. -/
  | failMerge {i : Nat}
      (hcol : s.collectors[i]? = some .idle) :
      WisckeyStep params s (.task i) (s.setCollector i .failed)
  | install {i : Nat} {c : Compaction} {t : SortedTable} {values : List ValueId}
      (hcol : s.collectors[i]? = some (.merged values))
      (htask : s.db.tasks[i]? = some (.installing c t))
      (hread : (s.db.isRead c.level || s.db.isRead (c.level + 1)) = false) :
      WisckeyStep params s (.task i)
        { s.setCollector i (.marking { c with tableId := t.getId } values []) with
          db := WisckeyState.installLists s.db i c t }
  | mark {i : Nat} {c : MergedInto} {vid : ValueId} {values : List ValueId}
      {reinsert entries : List (Key × Value)} {vlog : ValueLog}
      (hcol : s.collectors[i]? = some (.marking c (vid :: values) reinsert))
      (hmark : ValueLog.markValueDeleted vid s.vlog = (.value entries, vlog)) :
      WisckeyStep params s (.task i)
        { s.setCollector i (.marking c values (reinsert ++ entries)) with vlog := vlog }
  | failMark {i : Nat} {c : MergedInto} {vid : ValueId} {values : List ValueId}
      {reinsert : List (Key × Value)} {vlog : ValueLog}
      (hcol : s.collectors[i]? = some (.marking c (vid :: values) reinsert))
      (hmark : (ValueLog.markValueDeleted vid s.vlog).2 = vlog) :
      WisckeyStep params s (.task i) { s.setCollector i .failed with vlog := vlog }
  /-- The manifest is updated, or refuses to be. -/
  | update {i : Nat} {c : MergedInto} {manifest : Manifest} {pc : Collector}
      (hcol : s.collectors[i]? = some (.marking c [] []))
      (hheader : s.db.manifest.SameHeader manifest)
      (hpc : pc = .idle ∨ pc = .failed) :
      WisckeyStep params s (.task i)
        { s.setCollector i pc with db := { s.db with manifest := manifest } }
  | reinsert {i : Nat} {c : MergedInto} {reinsert : List (Key × Value)}
      (hcol : s.collectors[i]? = some (.marking c [] reinsert))
      (hne : reinsert ≠ [])
      (hfree : s.memtableLocked = false)
      (hroom : s.mustWait params (WisckeyState.reinsertBatch reinsert) = false) :
      WisckeyStep params s (.task i)
        { s.setCollector i (.marking c [] []) with
          db := writeOpts params s.db (WisckeyState.reinsertBatch reinsert) }
  | wait {i : Nat} {c : MergedInto} {reinsert : List (Key × Value)}
      (hcol : s.collectors[i]? = some (.marking c [] reinsert))
      (hne : reinsert ≠ [])
      (hfree : s.memtableLocked = false) :
      WisckeyStep params s (.task i)
        (s.setCollector i (.waiting c (WisckeyState.reinsertBatch reinsert)))
  | resume {i : Nat} {c : MergedInto} {batch : List WriteOp}
      (hcol : s.collectors[i]? = some (.waiting c batch))
      (hempty : s.db.immMemtables = []) :
      WisckeyStep params s (.task i)
        { s.setCollector i (.marking c [] []) with db := writeOpts params s.db batch }

namespace WisckeyState

section Steps

variable [BitPacking] {params : Params} {s : WisckeyState}

theorem wisckeyStep_clientWrite
    (params : Params) (s : WisckeyState) (batch : List WriteOp) :
    WisckeyStep params s (.write batch) (s.clientWrite params batch) := by
  unfold clientWrite
  cases hclient : s.waitingClient with
  | none =>
      dsimp only
      split_ifs with hlocked hfull
      · exact .stay _
      · exact .clientWait (Bool.eq_false_of_not_eq_true hlocked)
      · exact .write (Bool.eq_false_of_not_eq_true hlocked) (Bool.eq_false_of_not_eq_true hfull)
  | some waiting =>
      dsimp only
      split_ifs with hempty
      · exact .clientResume hclient (List.isEmpty_iff.mp hempty)
      · exact .stay _

theorem wisckeyStep_flusherStep
    (params : Params) (s : WisckeyState) :
    WisckeyStep params s .flusher (s.flusherStep params) := by
  unfold flusherStep
  by_cases hfailed : s.flusherFailed = true
  · rw [if_pos hfailed]
    exact .stay _
  · have halive := Bool.eq_false_of_not_eq_true hfailed
    rw [if_neg hfailed]
    cases hpc : s.db.flusher with
    | writing logOffset mem tableId =>
        cases hwrite : ValueLog.writeBatch (memtableValues mem) s.vlog with
        | mk outcome vlog =>
            cases outcome with
            | value ids =>
                simp only [hwrite]
                exact .writeValues halive hpc hwrite
            | _ =>
                simp only [hwrite]
                exact .failValues halive hpc (congrArg Prod.snd hwrite)
    | adding logOffset mem table =>
        dsimp only
        split_ifs with hlocked
        · exact .stay _
        · exact .flush (by rw [hpc]; nofun) fun _ _ _ _ => Bool.eq_false_of_not_eq_true hlocked
    | settingSeqNumber logOffset mem tableId =>
        exact .flushSync hpc
    | _ =>
        exact .flush (by rw [hpc]; nofun) (by rw [hpc]; nofun)

theorem wisckeyStep_plainStep
    {i : Nat}
    (hcol : s.collectors[i]? = some .idle) :
    WisckeyStep params s (.task i) (s.plainStep params i) := by
  unfold plainStep
  cases htask : s.db.tasks[i]? with
  | none =>
      exact .task hcol (by rw [htask]; nofun)
  | some pc =>
      cases pc with
      | picked c =>
          dsimp only
          split_ifs
          · exact .stay _
          · exact .task hcol (by rw [htask]; nofun)
      | moving c tableId =>
          dsimp only
          split_ifs
          · exact .stay _
          · exact .task hcol (by rw [htask]; nofun)
      | merging c tableId =>
          dsimp only [mergeStep]
          cases hvalues : deletedValues s.valueIds (c.parents ++ c.children) with
          | none =>
              exact .failMerge hcol
          | some values =>
              exact .merge hcol htask hvalues
      | _ =>
          exact .task hcol (by rw [htask]; nofun)

/-- The assertions of an installation hold. -/
theorem wisckeyStep_installStep
    {i : Nat} {values : List ValueId}
    (hown : OwnInv params.numLevels s.db.shared)
    (hcol : s.collectors[i]? = some (.merged values)) :
    WisckeyStep params s (.task i) (s.installStep i values) := by
  unfold installStep
  cases htask : s.db.tasks[i]? with
  | none =>
      exact .stay _
  | some pc =>
      cases pc with
      | installing c t =>
          dsimp only
          split_ifs with hlocked
          · exact .stay _
          · have hread : (s.db.isRead c.level || s.db.isRead (c.level + 1)) = false := by
              simp only [Bool.or_eq_true, not_or, Bool.not_eq_true] at hlocked
              rw [hlocked.1.2, hlocked.2]
              rfl
            have hinst := installTable_installs hown htask hread
            have hdone : (installTable s.db i c t).tasks[i]? = some
                (afterUpdate (s.db.manifest.updateTableSet [(c.level + 1, t.getId)]
                  (removeSet c)).2) := by
              have htasks : (installTable s.db i c t).tasks = s.db.tasks.set i _ :=
                hinst.installed.tasks
              rw [htasks, List.getElem?_set_self (List.getElem?_eq_some_iff.mp htask).1]
            rw [hdone]
            cases (s.db.manifest.updateTableSet [(c.level + 1, t.getId)] (removeSet c)).2 with
            | none | some =>
                exact .install hcol htask hread
      | _ =>
          exact .stay _

theorem wisckeyStep_markStep
    {i : Nat} {c : MergedInto} {vid : ValueId} {values : List ValueId}
    {reinsert : List (Key × Value)}
    (hcol : s.collectors[i]? = some (.marking c (vid :: values) reinsert)) :
    WisckeyStep params s (.task i) (s.markStep i c vid values reinsert) := by
  unfold markStep
  cases hmark : ValueLog.markValueDeleted vid s.vlog with
  | mk outcome vlog =>
      cases outcome with
      | value entries =>
          exact .mark hcol hmark
      | _ =>
          exact .failMark hcol (congrArg Prod.snd hmark)

theorem wisckeyStep_reinsertStep
    {i : Nat} {c : MergedInto} {reinsert : List (Key × Value)}
    (hcol : s.collectors[i]? = some (.marking c [] reinsert)) :
    WisckeyStep params s (.task i) (s.reinsertStep params i c reinsert) := by
  unfold reinsertStep
  split_ifs with hnil hlocked hfull
  · rw [hnil] at hcol
    refine .update hcol (Manifest.updateTableSet_header _ _ _) ?_
    split_ifs
    · exact Or.inl rfl
    · exact Or.inr rfl
  · exact .stay _
  · exact .wait hcol hnil (Bool.eq_false_of_not_eq_true hlocked)
  · exact .reinsert hcol hnil (Bool.eq_false_of_not_eq_true hlocked)
      (Bool.eq_false_of_not_eq_true hfull)

theorem wisckeyStep_collectorStep
    (hown : OwnInv params.numLevels s.db.shared)
    (i : Nat) :
    WisckeyStep params s (.task i) (s.collectorStep params i) := by
  unfold collectorStep
  cases hcol : s.collectors[i]? with
  | none =>
      exact .stay _
  | some pc =>
      cases pc with
      | idle =>
          exact wisckeyStep_plainStep hcol
      | merged values =>
          exact wisckeyStep_installStep hown hcol
      | marking c values reinsert =>
          cases values with
          | nil =>
              exact wisckeyStep_reinsertStep hcol
          | cons vid values =>
              exact wisckeyStep_markStep hcol
      | waiting c batch =>
          dsimp only [resumeStep]
          split_ifs with hempty
          · exact .resume hcol (List.isEmpty_iff.mp hempty)
          · exact .stay _
      | failed =>
          exact .stay _

/-- The function makes one of the steps. -/
theorem wisckeyStep_step
    (hown : OwnInv params.numLevels s.db.shared)
    (e : DbEvent) :
    WisckeyStep params s e (step params s e) := by
  cases e with
  | write batch =>
      exact wisckeyStep_clientWrite params s batch
  | getBegin client key =>
      simp only [step]
      split_ifs
      · exact .stay _
      · exact .getBegin
  | getNext client =>
      simp only [step]
      split_ifs
      · exact .stay _
      · exact .getNext
  | flusher =>
      exact wisckeyStep_flusherStep params s
  | compact i level =>
      simp only [step, startStep]
      split_ifs with hstart
      · exact .compact hstart.1
      · exact .stay _
  | task i =>
      exact wisckeyStep_collectorStep hown i

end Steps

/-! ## Installing without the manifest -/

section Install

variable {numLevels i : Nat} {db : DbState} {c : Compaction} {t : SortedTable}

theorem installed_installLists
    (hinst : Installs numLevels db (installTable db i c t) i c t) :
    Installed db.shared (installLists db i c t).shared i c t .idle := by
  have h := hinst.installed
  refine ⟨h.parents, h.parents_sublist, h.children, h.others, h.placeholders, h.flag, rfl,
    h.pending, ?_⟩
  have htasks : (installTable db i c t).tasks = db.tasks.set i _ := h.tasks
  change (installTable db i c t).tasks.set i .idle = db.tasks.set i .idle
  rw [htasks, List.set_set]

theorem versionInv_installLists
    {params : Params}
    (h : VersionInv params db)
    (hinst : Installs params.numLevels db (installTable db i c t) i c t) :
    VersionInv params (installLists db i c t) := by
  have hflush := h.flush.of_installs hinst
  have hquiet := hinst.quiet
  refine h.of_quiet ⟨hquiet.memtable, hquiet.batches, hquiet.tiers⟩ ?_
    ⟨hflush.short, hflush.at_pc⟩
  exact hinst.ready.ownInv (installed_installLists hinst) (TaskOk.idle _ _) rfl rfl rfl

theorem versionInv_of_manifest
    {params : Params} {manifest : Manifest}
    (h : VersionInv params db)
    (hheader : db.manifest.SameHeader manifest) :
    VersionInv params { db with manifest := manifest } := by
  have hshared : DbState.shared { db with manifest := manifest } = db.shared := by
    simp only [DbState.shared, hheader.1]
    rfl
  exact ⟨hshared ▸ h.own, ⟨h.flush.short, h.flush.at_pc⟩, h.nextSeq, h.ordered, h.genuine,
    h.newest⟩

end Install

end WisckeyState

theorem WisckeyStep.versionInv
    [BitPacking]
    {params : Params} {s s' : WisckeyState} {e : DbEvent}
    (h : WisckeyStep params s e s')
    (hinv : VersionInv params s.db) :
    VersionInv params s'.db := by
  cases h with
  | stay | clientWait | failValues | failMerge | mark | failMark | wait =>
      exact hinv
  | write | clientResume | reinsert | resume =>
      exact versionInv_step params s.db (.write _) hinv
  | getBegin =>
      exact versionInv_step params s.db (.getBegin _ _) hinv
  | getNext =>
      exact versionInv_step params s.db (.getNext _) hinv
  | writeValues | flush | flushSync =>
      exact versionInv_step params s.db .flusher hinv
  | compact =>
      exact versionInv_step params s.db (.compact _ _) hinv
  | task | merge =>
      exact versionInv_step params s.db (.task _) hinv
  | install hcol htask hread =>
      exact WisckeyState.versionInv_installLists hinv
        (installTable_installs hinv.own htask hread)
  | update hcol hheader =>
      exact WisckeyState.versionInv_of_manifest hinv hheader

namespace WisckeyState

/-- **Every state with a value log** has consistent versions. -/
theorem versionInv_step
    [BitPacking]
    (params : Params) (s : WisckeyState) (e : DbEvent)
    (h : VersionInv params s.db) :
    VersionInv params (step params s e).db :=
  (wisckeyStep_step h.own e).versionInv h

end WisckeyState

end Logic
end LsmStore
