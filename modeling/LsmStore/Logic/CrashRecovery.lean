import LsmStore.Logic.Registration
import LsmStore.Logic.Reopen

/-!
# A crash during a flush

At every step of the flusher and of the compactions the disk has what the next
start needs: every table of a level is in a file, and what the manifest does not
list yet is in the log behind the offset of the manifest.  So a database that
crashes opens again with the same contents, as long as the log still has the
page of that offset.

The flusher removes pages before it persists the new offset, so this is not
always the case.
-/

namespace LsmStore
namespace Logic

open Wal KeyedList Tiers

/-- The files of the tables that are on a level or will be. -/
structure FilesOk (s : DbState) : Prop where
  levels : ∀ l, ∀ t ∈ s.tables l, s.tableFiles t.getId = some t
  adding : ∀ logOffset mem t, s.flusher = .adding logOffset mem t →
    s.tableFiles t.getId = some t
  installing : ∀ (i : Nat) c t, s.tasks[i]? = some (.installing c t) →
    s.tableFiles t.getId = some t
  /-- The unregistered table is a copy of the immutable memtable. -/
  published : ∀ t ∈ s.tables 0, s.flusher.unregistered = some t.getId →
    ∃ logOffset mem, s.immMemtables = [(logOffset, mem)] ∧ t.get = mem.get

section Files

variable {params : Params} {s s' : DbState}

theorem filesOk_new
    (params : Params) (numTasks : Nat) :
    FilesOk (DbState.new params numTasks) := by
  refine ⟨nofun, nofun, ?_, nofun⟩
  intro i c t hi
  cases List.eq_of_mem_replicate (List.mem_of_getElem? hi)

theorem FilesOk.of_unnoticed
    {numLevels : Nat}
    (h : FilesOk s)
    (hown : OwnInv numLevels s.shared)
    (hframe : Unnoticed s s') :
    FilesOk s' := by
  have hpublished : ∀ t ∈ s'.tables 0, s'.flusher.unregistered = some t.getId →
      ∃ logOffset mem, s'.immMemtables = [(logOffset, mem)] ∧ t.get = mem.get := by
    rw [hframe.tables, hframe.flusher, hframe.immMemtables]
    exact h.published
  rcases hframe.tasks with ⟨hfiles, htasks⟩ | ⟨i, c, t, hi, htasks, hfiles⟩
  · refine ⟨?_, ?_, ?_, hpublished⟩
    · rw [hframe.tables, hfiles]
      exact h.levels
    · rw [hframe.flusher, hfiles]
      exact h.adding
    · intro i c t hi
      rw [hfiles]
      exact h.installing i c t ((htasks i _ hi rfl).resolve_right nofun)
  · -- the identifier of the merged table belongs to the task alone
    obtain ⟨hfresh, hpending⟩ := (hown.tasks i _ hi).fresh t.getId rfl
    refine ⟨?_, ?_, ?_, hpublished⟩
    · intro l u hu
      rw [hframe.tables] at hu
      rw [hfiles, Function.update_of_ne (hfresh.2 l u hu)]
      exact h.levels l u hu
    · intro logOffset mem u hf
      rw [hframe.flusher] at hf
      have hne : u.getId ≠ t.getId := by
        intro heq
        refine hpending ?_
        change s.flusher.pendingId = some t.getId
        rw [hf, ← heq]
        rfl
      rw [hfiles, Function.update_of_ne hne]
      exact h.adding logOffset mem u hf
    · intro j c' u hj
      rw [htasks] at hj
      rw [hfiles]
      rcases getElem?_set_cases hj with ⟨-, heq⟩ | ⟨hji, hold⟩
      · cases heq
        exact Function.update_self _ _ _
      · have hsep := hown.separate i j _ _ (Ne.symm hji) hi hold
        have hne : u.getId ≠ t.getId :=
          fun heq => hsep.reserved t.getId rfl (congrArg some heq)
        rw [Function.update_of_ne hne]
        exact h.installing j c' u hold

theorem FilesOk.of_installs
    {numLevels i : Nat} {c : Compaction} {t : SortedTable}
    (h : FilesOk s)
    (hinst : Installs numLevels s s' i c t) :
    FilesOk s' := by
  have hframe := hinst.frame
  have hfiles : s'.tableFiles = s.tableFiles := by rw [hframe]
  have hflusher : s'.flusher = s.flusher := by rw [hframe]
  have himm : s'.immMemtables = s.immMemtables := by rw [hframe]
  have htables : ∀ l u, u ∈ s'.tables l →
      (l = c.level + 1 ∧ u = t) ∨ u ∈ s.tables l := by
    intro l u hu
    rcases (hinst.ready.mem_iff hinst.installed l u).mp hu with hnew | ⟨hold, -⟩
    · exact Or.inl hnew
    · exact Or.inr hold
  refine ⟨?_, ?_, ?_, ?_⟩
  · intro l u hu
    rw [hfiles]
    rcases htables l u hu with ⟨-, rfl⟩ | hold
    · rcases hinst.source with hi | hparents
      · exact h.installing i c u hi
      · exact h.levels c.level u (hinst.ready.claim.parents_mem u (by simp [hparents]))
    · exact h.levels l u hold
  · rw [hfiles, hflusher]
    exact h.adding
  · intro j c' u hj
    have htasks : s'.tasks = s.tasks.set i _ := hinst.installed.tasks
    rw [hfiles]
    rw [htasks] at hj
    rcases getElem?_set_cases hj with ⟨-, heq⟩ | ⟨-, hold⟩
    · cases hout : (s.manifest.updateTableSet [(c.level + 1, t.getId)] (removeSet c)).2 <;>
        rw [hout] at heq <;> cases heq
    · exact h.installing j c' u hold
  · rw [hflusher, himm]
    intro u hu
    rcases htables 0 u hu with ⟨hl, -⟩ | hold
    · omega
    · exact h.published u hold

/-- Only the tables, the files, the tasks and the flusher matter. -/
theorem FilesOk.frame
    (h : FilesOk s)
    (htables : s'.tables = s.tables)
    (hfiles : s'.tableFiles = s.tableFiles)
    (htasks : s'.tasks = s.tasks)
    (hadding : ∀ logOffset mem t, s'.flusher = .adding logOffset mem t →
      s.flusher = .adding logOffset mem t)
    (hpublished : ∀ id, s'.flusher.unregistered = some id →
      s.flusher.unregistered = some id ∧ s'.immMemtables = s.immMemtables) :
    FilesOk s' := by
  refine ⟨?_, ?_, ?_, ?_⟩
  · rw [htables, hfiles]
    exact h.levels
  · intro logOffset mem t hf
    rw [hfiles]
    exact h.adding logOffset mem t (hadding logOffset mem t hf)
  · rw [htasks, hfiles]
    exact h.installing
  · intro t ht hid
    obtain ⟨hid, himm⟩ := hpublished t.getId hid
    rw [htables] at ht
    rw [himm]
    exact h.published t ht hid

/-- A step to a program counter that carries no table. -/
theorem FilesOk.frame_plain
    (h : FilesOk s)
    (htables : s'.tables = s.tables)
    (hfiles : s'.tableFiles = s.tableFiles)
    (htasks : s'.tasks = s.tasks)
    (hadding : ∀ logOffset mem t, s'.flusher ≠ .adding logOffset mem t)
    (hreg : s'.flusher.unregistered = none) :
    FilesOk s' := by
  refine h.frame htables hfiles htasks ?_ ?_
  · intro logOffset mem t hf
    exact absurd hf (hadding logOffset mem t)
  · intro id hid
    cases hreg.symm.trans hid

theorem FilesOk.writeOpts
    (h : FilesOk s)
    (hflush : FlushInv s)
    (batch : List WriteOp) :
    FilesOk (writeOpts params s batch) := by
  rcases writeOpts_cases params s batch with heq | heq | ⟨hempty, heq⟩ <;> rw [heq]
  · exact h
  · exact h.frame rfl rfl rfl (fun _ _ _ hf => hf) fun id hid => ⟨hid, rfl⟩
  · refine h.frame rfl rfl rfl (fun _ _ _ hf => hf) fun id hid => ?_
    -- nothing is unregistered while the queue is empty
    have hat := hflush.at_pc
    rw [hempty] at hat
    change s.flusher.unregistered = some id at hid
    cases hf : s.flusher <;> simp [FlusherAt, FlusherPc.unregistered, hf] at hat hid

theorem FilesOk.flusherCalls
    {call : Manifest × Option ManifestPanic} {next : FlusherPc}
    (h : FilesOk s)
    (hadding : ∀ logOffset mem t, next ≠ .adding logOffset mem t)
    (hreg : ∀ id, next.unregistered = some id → s.flusher.unregistered = some id) :
    FilesOk (s.flusherCalls call next) := by
  obtain ⟨manifest, outcome⟩ := call
  cases outcome with
  | none =>
      exact h.frame rfl rfl rfl (fun _ _ _ hf => absurd hf (hadding _ _ _))
        fun id hid => ⟨hreg id hid, rfl⟩
  | some reason =>
      exact h.frame_plain rfl rfl rfl (by simp [DbState.flusherCalls]) rfl

theorem FilesOk.writeTable
    {logOffset tableId : Nat} {mem : Memtable}
    (h : FilesOk s)
    (hown : OwnInv params.numLevels s.shared)
    (hpc : s.flusher = .writing logOffset mem tableId)
    (hne : mem.entries ≠ []) :
    FilesOk { s.writeTable params (SortedTable.ofMemtable params tableId mem hne) with
      flusher := .adding logOffset mem (SortedTable.ofMemtable params tableId mem hne) } := by
  have hpending : s.shared.pending = some tableId := congrArg FlusherPc.pendingId hpc
  -- the identifier belongs to the flusher alone
  obtain ⟨hfresh, -⟩ := hown.pending tableId hpending
  refine ⟨?_, ?_, ?_, by simp [FlusherPc.unregistered]⟩
  · intro l u hu
    change Function.update s.tableFiles tableId _ u.getId = some u
    rw [Function.update_of_ne (hfresh.2 l u hu)]
    exact h.levels l u hu
  · rintro logOffset' mem' u ⟨⟩
    exact Function.update_self _ _ _
  · intro i c u hi
    have hne : u.getId ≠ tableId := by
      rintro rfl
      exact ((hown.tasks i _ hi).fresh u.getId rfl).2 hpending
    change Function.update s.tableFiles tableId _ u.getId = some u
    rw [Function.update_of_ne hne]
    exact h.installing i c u hi

theorem FilesOk.publish
    {logOffset : Nat} {mem : Memtable} {table : SortedTable}
    (h : FilesOk s)
    (hown : OwnInv params.numLevels s.shared)
    (hpc : s.flusher = .adding logOffset mem table)
    (himm : s.immMemtables = [(logOffset, mem)])
    (hentries : table.entries = mem.entries) :
    FilesOk { s.setLevel 0 ((s.levels 0).addL0Table table) with
      flusher := .settingSeqNumber logOffset mem table.getId } := by
  obtain ⟨hfresh, -⟩ := hown.pending table.getId (congrArg FlusherPc.pendingId hpc)
  refine ⟨?_, by simp, h.installing, ?_⟩
  · intro l u hu
    rcases DbState.mem_tables_addL0Table.mp hu with hold | ⟨-, rfl⟩
    · exact h.levels l u hold
    · exact h.adding logOffset mem u hpc
  · intro u hu hid
    obtain hid : table.getId = u.getId := Option.some.inj hid
    rcases DbState.mem_tables_addL0Table.mp hu with hold | ⟨-, rfl⟩
    · exact absurd hid.symm (hfresh.2 0 u hold)
    · refine ⟨logOffset, mem, himm, ?_⟩
      funext key
      rw [SortedTable.get, Memtable.get, hentries]

theorem FilesOk.doMemtableCompaction
    (h : FilesOk s)
    (hown : OwnInv params.numLevels s.shared)
    (hflush : FlushInv s) :
    FilesOk (doMemtableCompaction params s) := by
  have hat := hflush.at_pc
  have hstep := flusherStep_doMemtableCompaction params s
  generalize Logic.doMemtableCompaction params s = s' at hstep
  cases hstep with
  | stay =>
      exact h
  | start hpc himm | reserve hpc hne | setOffset hpc hlt | removePage hpc hlt | truncated hpc hle
  | pop hpc himm | failEmpty hpc hempty | failOffset hpc hle | failPop hpc himm =>
      exact h.frame_plain rfl rfl rfl (by simp) rfl
  | write hpc hne =>
      exact h.writeTable hown hpc hne
  | add hpc hread =>
      rw [hpc] at hat
      exact h.publish hown hpc hat.1 hat.2
  | setSeqNumber hpc =>
      exact h.flusherCalls (by simp) fun id hid => by rw [hpc]; exact hid
  | register hpc =>
      exact h.flusherCalls (by simp) (by simp [FlusherPc.unregistered])
  | setLogOffset hpc =>
      exact h.flusherCalls (by simp) (by simp [FlusherPc.unregistered])

end Files

/-- What holds whenever the database may crash. -/
structure CrashInv (params : Params) (s : DbState) : Prop where
  reg : RegInv params s
  files : FilesOk s

section Crash

variable {params : Params} {s : DbState}

theorem crashInv_step
    (params : Params) (s : DbState) (e : DbEvent)
    (hcond : s.installsRegistered e = true)
    (h : CrashInv params s) :
    CrashInv params (step params s e) := by
  have hown := h.reg.versions.own
  refine ⟨regInv_step params s e hcond h.reg, ?_⟩
  have hstep := dbStep_step hown e
  generalize step params s e = s' at hstep
  cases hstep with
  | write batch =>
      exact h.files.writeOpts h.reg.versions.flush batch
  | flusher =>
      exact h.files.doMemtableCompaction hown h.reg.versions.flush
  | installs hi hpc hinst =>
      exact h.files.of_installs hinst
  | unnoticed hframe =>
      exact h.files.of_unnoticed hown hframe

theorem crashInv_run
    {numTasks : Nat} {events : List DbEvent}
    (hcond : RunsRegistered params (DbState.new params numTasks) events) :
    CrashInv params ((DbState.new params numTasks).run params events) :=
  Runs.invariant_along (crashInv_step params)
    ⟨regInv_new params numTasks, filesOk_new params numTasks⟩ hcond

/-! ## The tables that are loaded -/

/-- The tables the open path loads. -/
def DbState.listedTables (params : Params) (s : DbState) (l : Nat) : List SortedTable :=
  if l < params.numLevels then (s.manifest.levels l).filterMap s.tableFiles else []

theorem CrashInv.file_of_listed
    (h : CrashInv params s)
    {l id : Nat}
    (hid : id ∈ s.manifest.levels l) :
    ∃ t ∈ s.tables l, t.getId = id ∧ s.tableFiles id = some t := by
  obtain ⟨t, ht, rfl⟩ := mem_tableIds_iff.mp ((h.reg.agrees.listed l id).mp hid).1
  exact ⟨t, ht, rfl, h.files.levels l t ht⟩

/-- These are the tables of the level, the unregistered one apart. -/
theorem CrashInv.mem_listedTables_iff
    (h : CrashInv params s)
    {l : Nat} {t : SortedTable} :
    t ∈ s.listedTables params l ↔
      t ∈ s.tables l ∧ s.flusher.unregistered ≠ some t.getId := by
  unfold DbState.listedTables
  constructor
  · intro ht
    split_ifs at ht
    · obtain ⟨id, hid, hfile⟩ := List.mem_filterMap.mp ht
      obtain ⟨u, hu, rfl, hfile'⟩ := h.file_of_listed hid
      obtain rfl : u = t := Option.some.inj (hfile'.symm.trans hfile)
      exact ⟨hu, ((h.reg.agrees.listed l _).mp hid).2⟩
    · cases ht
  · rintro ⟨ht, hreg⟩
    rw [if_pos (h.reg.versions.own.tables.bound l t ht)]
    exact List.mem_filterMap.mpr
      ⟨t.getId, h.reg.agrees.mem_levels ht hreg, h.files.levels l t ht⟩

/-- They are loaded in the order of their identifiers. -/
theorem CrashInv.pairwise_listedTables
    (h : CrashInv params s)
    (l : Nat) :
    (s.listedTables params l).Pairwise fun t u => t.getId < u.getId := by
  unfold DbState.listedTables
  split_ifs
  · rw [List.pairwise_filterMap]
    refine List.Pairwise.imp_of_mem ?_ (h.reg.agrees.increasing l)
    intro id id' hid hid' hlt t ht u hu
    obtain ⟨t', -, rfl, hfile⟩ := h.file_of_listed hid
    obtain ⟨u', -, rfl, hfile'⟩ := h.file_of_listed hid'
    obtain rfl : t' = t := Option.some.inj (hfile.symm.trans ht)
    obtain rfl : u' = u := Option.some.inj (hfile'.symm.trans hu)
    exact hlt
  · exact List.Pairwise.nil

/-- Of two tables of a level, the one with the smaller identifier has no newer version. -/
theorem VersionInv.older_of_getId_lt
    (h : VersionInv params s)
    {l : Nat} {t u : SortedTable}
    (ht : t ∈ s.tables l) (hu : u ∈ s.tables l)
    (hlt : t.getId < u.getId) :
    Older entryRank t.get u.get := by
  by_cases hl : l = 0
  · subst hl
    exact List.pairwise_iff_forall_sublist.mp h.ordered.first
      (sublist_of_getId_lt h.own.tables.ascending ht hu hlt)
  · intro key a b ha hb
    have hapart := h.own.tables.apart l hl t ht u hu (fun heq => by
      rw [heq] at hlt
      exact lt_irrefl _ hlt)
    rw [hapart.get_eq_none ha] at hb
    cases hb

/-- The levels of the database that was opened again. -/
def listedTiers (params : Params) (s : DbState) : Tiers Key MemtableEntry SortedTable where
  live := fun _ => none
  frozen := none
  copied := false
  levels := s.listedTables params

theorem CrashInv.pairwise_listedTiers
    (h : CrashInv params s)
    (key : Key) :
    ((listedTiers params s).path SortedTable.get params.numLevels key).Pairwise
      fun a b => b.getSeqNumber ≤ a.getSeqNumber := by
  have hlevels : ∀ l, (s.listedTables params l).Pairwise
      fun t u => Older entryRank t.get u.get := by
    intro l
    refine List.Pairwise.imp_of_mem ?_ (h.pairwise_listedTables l)
    intro t u ht hu hlt
    exact h.reg.versions.older_of_getId_lt (h.mem_listedTables_iff.mp ht).1
      (h.mem_listedTables_iff.mp hu).1 hlt
  refine Ordered.pairwise_path (h.reg.versions.ordered.sub ?_ (hlevels 0) rfl) hlevels _ key
  intro p k a ha
  match p, ha with
  | 0, ha => cases ha
  | 1, ⟨f, hf, _⟩ => cases hf
  | l + 2, ⟨t, ht, ha⟩ => exact ⟨t, (h.mem_listedTables_iff.mp ht).1, ha⟩

theorem CrashInv.mem_listedTiers_iff
    (h : CrashInv params s)
    (key : Key) (entry : MemtableEntry) :
    entry ∈ (listedTiers params s).path SortedTable.get params.numLevels key ↔
      ∃ l, ∃ t ∈ s.tables l, s.flusher.unregistered ≠ some t.getId ∧
        t.get key = some entry := by
  have hbound : ∀ l, (listedTiers params s).levels l ≠ [] → l < params.numLevels := by
    intro l hne
    obtain ⟨t, ht⟩ := List.exists_mem_of_ne_nil _ hne
    exact h.reg.versions.own.tables.bound l t (h.mem_listedTables_iff.mp ht).1
  rw [mem_path_iff params.numLevels key entry hbound]
  constructor
  · rintro ⟨p, ha⟩
    match p, ha with
    | 0, ha => cases ha
    | 1, ⟨f, hf, _⟩ => cases hf
    | l + 2, ⟨t, ht, ha⟩ =>
        obtain ⟨ht, hreg⟩ := h.mem_listedTables_iff.mp ht
        exact ⟨l, t, ht, hreg, ha⟩
  · rintro ⟨l, t, ht, hreg, ha⟩
    exact ⟨l + 2, t, h.mem_listedTables_iff.mpr ⟨ht, hreg⟩, ha⟩

/-! ## The contents -/

/-- The part of the history behind the offset in the manifest. -/
def behindOffset (logOffsetSet : Bool) (frozen live : List WriteOp) : List WriteOp :=
  if logOffsetSet then live else frozen ++ live

theorem LogSplit.history_eq
    {flushed frozen live : List WriteOp}
    (h : LogSplit s flushed frozen live) :
    s.batches.flatten = upTo s.flusher.logOffsetSet flushed frozen ++
      behindOffset s.flusher.logOffsetSet frozen live := by
  rw [h.history]
  cases s.flusher.logOffsetSet <;> simp [upTo, behindOffset]

/-- A key that is not in the log behind the offset is not in the live memtable; if it is in
the immutable one, the flusher is about to drop it. -/
theorem LogSplit.untouched
    {flushed frozen live : List WriteOp} {key : Key}
    (h : LogSplit s flushed frozen live)
    (hnone : lastOp (behindOffset s.flusher.logOffsetSet frozen live) key = none) :
    s.memtable.get key = none ∧ (s.flusher.logOffsetSet = false →
      ∀ entry, ¬ s.tiers.Holds SortedTable.get 1 key entry) := by
  have hlive : lastOp live key = none ∧
      (s.flusher.logOffsetSet = false → lastOp frozen key = none) := by
    cases hset : s.flusher.logOffsetSet with
    | true =>
        rw [hset] at hnone
        exact ⟨hnone, nofun⟩
    | false =>
        rw [hset] at hnone
        obtain ⟨hfrozen, hlive⟩ := lastOp_append_eq_none hnone
        exact ⟨hlive, fun _ => hfrozen⟩
  have hget : ∀ n ops, lastOp ops key = none →
      ((Memtable.new n).applyAll ops).get key = none := by
    intro n ops hops
    rcases Memtable.get_applyAll_lastOp (Memtable.new n) ops key with
      ⟨-, heq⟩ | ⟨op, m, hop, -⟩
    · exact heq
    · rw [hops] at hop
      cases hop
  constructor
  · rw [h.memtable]
    exact hget _ live hlive.1
  · rintro hset entry ⟨f, hf, hentry⟩
    rcases h.imm with ⟨himm, -⟩ | himm
    · simp [DbState.tiers, himm] at hf
    · have heq : ((Memtable.new (flushed.length + 1)).applyAll frozen).get = f := by
        simpa [DbState.tiers, himm] using hf
      rw [← heq, hget _ frozen (hlive.2 hset)] at hentry
      cases hentry

/-- The table that is not registered yet holds only keys of the immutable memtable. -/
theorem CrashInv.unregistered_ne
    {key : Key} {entry : MemtableEntry} {l : Nat} {t : SortedTable}
    (h : CrashInv params s)
    (himm : s.flusher.logOffsetSet = false →
      ∀ entry, ¬ s.tiers.Holds SortedTable.get 1 key entry)
    (ht : t ∈ s.tables l)
    (hget : t.get key = some entry) :
    s.flusher.unregistered ≠ some t.getId := by
  intro hreg
  obtain rfl := h.reg.agrees.level_eq_zero h.reg.versions.own ht hreg
  obtain ⟨logOffset, mem, hmem, heq⟩ := h.files.published t ht hreg
  refine himm ?_ entry ⟨mem.get, ?_, heq ▸ hget⟩
  · cases hf : s.flusher <;> simp [FlusherPc.unregistered, hf] at hreg <;> rfl
  · simp [DbState.tiers, hmem]

/-- When the flusher is about to drop the immutable memtable, its entries are in tables. -/
theorem CrashInv.exists_table_of_imm
    {key : Key} {entry : MemtableEntry}
    (h : CrashInv params s)
    (hset : s.flusher.logOffsetSet = true)
    (hheld : s.tiers.Holds SortedTable.get 1 key entry) :
    ∃ l, ∃ t ∈ s.tables l, t.get key = some entry := by
  have hversions := h.reg.versions
  have hcopied : s.tiers.copied = true := by
    change s.flusher.hasAdded = true
    cases hf : s.flusher <;> simp [FlusherPc.logOffsetSet, hf] at hset
    rfl
  obtain ⟨l, newer, hnewer, hle⟩ := hversions.ordered.covered hcopied key entry hheld
  have hge := hversions.ordered.places 1 (l + 2) key entry newer (by omega) hheld hnewer
  obtain rfl : entry = newer := hversions.eq_of_seqNumber_eq
    ((hversions.mem_lookupPath_iff key entry).mpr ⟨1, hheld⟩)
    ((hversions.mem_lookupPath_iff key newer).mpr ⟨l + 2, hnewer⟩) (le_antisymm hle hge)
  obtain ⟨t, ht, hget⟩ := hnewer
  exact ⟨l, t, ht, hget⟩

/-- A key that is not in the log behind the offset: its versions are the versions in the
listed tables. -/
theorem CrashInv.mem_lookupPath_untouched
    {flushed frozen live : List WriteOp} {key : Key}
    (h : CrashInv params s)
    (hsplit : LogSplit s flushed frozen live)
    (hnone : lastOp (behindOffset s.flusher.logOffsetSet frozen live) key = none)
    (entry : MemtableEntry) :
    entry ∈ lookupPath params s key ↔
      entry ∈ (listedTiers params s).path SortedTable.get params.numLevels key := by
  have hversions := h.reg.versions
  obtain ⟨hlive, himm⟩ := hsplit.untouched hnone
  rw [hversions.mem_lookupPath_iff, h.mem_listedTiers_iff]
  constructor
  · rintro ⟨p, hp⟩
    rcases p with _ | _ | l
    · cases hlive.symm.trans hp
    · have hset : s.flusher.logOffsetSet = true := by
        by_contra hset
        exact himm (Bool.eq_false_of_not_eq_true hset) entry hp
      obtain ⟨l, t, ht, hget⟩ := h.exists_table_of_imm hset hp
      exact ⟨l, t, ht, h.unregistered_ne himm ht hget, hget⟩
    · obtain ⟨t, ht, hget⟩ := hp
      exact ⟨l, t, ht, h.unregistered_ne himm ht hget, hget⟩
  · rintro ⟨l, t, ht, -, hget⟩
    exact ⟨l + 2, t, ht, hget⟩

/-- The database that replays the log behind the offset and loads the listed tables answers
every lookup as before the crash. -/
theorem CrashInv.undisturbedGet_opened
    {flushed frozen live : List WriteOp}
    (h : CrashInv params s)
    (hsplit : LogSplit s flushed frozen live)
    (numTasks : Nat) (key : Key) :
    undisturbedGet params
        (s.crash.opened params numTasks (behindOffset s.flusher.logOffsetSet frozen live)
          (s.listedTables params)) key =
      undisturbedGet params s key := by
  have hversions := h.reg.versions
  rw [undisturbedGet_eq, undisturbedGet_eq, hversions.head?_lookupPath]
  rcases Memtable.get_replayed s.manifest.seqNumberOffset
    (upTo s.flusher.logOffsetSet flushed frozen)
    (behindOffset s.flusher.logOffsetSet frozen live) key with
    ⟨hnone, hget, -⟩ | ⟨entry, hget, hvalue⟩
  · -- the lookup goes through the listed tables only
    have hpath : lookupPath params (s.crash.opened params numTasks
        (behindOffset s.flusher.logOffsetSet frozen live) (s.listedTables params)) key =
        (listedTiers params s).path SortedTable.get params.numLevels key := by
      rw [lookupPath_opened]
      change (Memtable.get ((Memtable.new s.manifest.seqNumberOffset).applyAll _) key).toList ++
        _ = _
      rw [hget]
      rfl
    have hmem := h.mem_lookupPath_untouched hsplit hnone
    rw [hpath, ← hversions.head?_lookupPath, head?_eq_of_covered (h.pairwise_listedTiers key)
      (hversions.pairwise_lookupPath key) (fun a => (hmem a).mpr)
      (fun a ha => ⟨a, (hmem a).mp ha, le_refl _⟩)
      (fun a ha b hb => hversions.eq_of_seqNumber_eq ha hb)]
  · rw [lookupPath_opened, hsplit.history_eq]
    change some (Option.bind ((Memtable.get
      ((Memtable.new s.manifest.seqNumberOffset).applyAll _) key).toList ++ _).head? _) = _
    rw [hget]
    exact congrArg some hvalue

/-- With the page of the offset still there, the open path succeeds. -/
theorem CrashInv.openDb_eq
    {flushed frozen live : List WriteOp}
    (h : CrashInv params s)
    (hsplit : LogSplit s flushed frozen live)
    (hpage : s.manifest.logOffset / pageSize ∉ s.removedPages)
    (numTasks : Nat) :
    s.crash.openDb params numTasks =
      .value (s.crash.opened params numTasks
        (behindOffset s.flusher.logOffsetSet frozen live) (s.listedTables params)) := by
  have hreplay : s.crash.replay =
      .value (behindOffset s.flusher.logOffsetSet frozen live) := by
    refine Disk.replay_eq hsplit.history_eq hsplit.logOffset hsplit.removed ?_
    rw [hsplit.removed] at hpage
    exact not_lt.mp hpage
  have hload : s.crash.loadLevels params.numLevels = .value (s.listedTables params) := by
    refine Disk.loadLevels_eq ?_
    intro l _ id hid
    obtain ⟨t, -, -, hfile⟩ := h.file_of_listed hid
    exact Option.isSome_iff_exists.mpr ⟨t, hfile⟩
  exact Disk.openDb_value h.reg.agrees.numLevels hreplay hload

end Crash

end Logic
end LsmStore
