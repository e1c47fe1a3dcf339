import LsmStore.Logic.CrashRecovery

/-!
# Closing and opening a database

A database is closed while no flush and no compaction is in progress, and opened
again.  Sequence numbers are not logged: the replay hands them out anew, from
the offset in the manifest on.  The order of the tables of level 0 is not stored
either: they are loaded in the order of their identifiers.

Both come out as they were, over any number of sessions, and the invariants of
a running database hold for one that was opened again.
-/

namespace LsmStore
namespace Logic

open Wal Tiers

def FlusherPc.inProgress : FlusherPc → Bool
  | idle => false
  | panicked _ => false
  | _ => true

def TaskPc.inProgress : TaskPc → Bool
  | idle => false
  | panicked _ => false
  | _ => true

/-- No flush and no compaction is in progress; there may be an immutable memtable. -/
def DbState.Quiescent (s : DbState) : Prop :=
  s.flusher.inProgress = false ∧ ∀ pc ∈ s.tasks, pc.inProgress = false

instance (s : DbState) : Decidable s.Quiescent :=
  inferInstanceAs (Decidable (_ ∧ _))

/-- The newest entry of a key in the live memtable and the immutable ones. -/
def DbState.memtablesGet (s : DbState) (key : Key) : Option MemtableEntry :=
  (s.memtable.get key).or (s.immMemtables.reverse.findSome? fun imm => imm.2.get key)

/-- The states of a database over any number of sessions: it runs, installing registered
tables only, and whenever nothing is in progress it may be closed and opened again. -/
inductive Reachable (params : Params) (numTasks : Nat) : DbState → Prop
  | new : Reachable params numTasks (DbState.new params numTasks)
  | run {s : DbState} (earlier : Reachable params numTasks s) (events : List DbEvent)
      (hcond : RunsRegistered params s events) :
      Reachable params numTasks (s.run params events)
  | reopen {s s' : DbState} (earlier : Reachable params numTasks s) (hquiet : s.Quiescent)
      (hopen : s.crash.openDb params numTasks = .value s') :
      Reachable params numTasks s'

/-! ## The replayed memtable -/

/-- A memtable that goes on with `ops` has what a new one has that gets them, and below that
what it had before. -/
theorem Memtable.get_applyAll_or
    (m : Memtable) (ops : List WriteOp) (key : Key) :
    (m.applyAll ops).get key =
      (((Memtable.new m.nextSeqNumber).applyAll ops).get key).or (m.get key) := by
  induction ops using List.reverseRecOn with
  | nil =>
      rfl
  | append_singleton ops op ih =>
      have hnext : ((Memtable.new m.nextSeqNumber).applyAll ops).nextSeqNumber =
          (m.applyAll ops).nextSeqNumber := by
        rw [Memtable.applyAll_nextSeqNumber, Memtable.applyAll_nextSeqNumber]
        rfl
      rw [Memtable.applyAll_concat, Memtable.applyAll_concat, Memtable.get_apply,
        Memtable.get_apply, hnext]
      split_ifs
      · rfl
      · exact ih

section Reopen

variable {params : Params} {s : DbState} {flushed frozen live : List WriteOp}

/-- The flusher has advanced nothing when no flush is in progress. -/
theorem FlusherPc.of_not_inProgress
    {pc : FlusherPc}
    (h : pc.inProgress = false) :
    pc.unregistered = none ∧ pc.seqNumberSet = false ∧ pc.truncated = false ∧
      pc.logOffsetSet = false ∧ ∀ pos, pc.firstPage pos = pos / pageSize := by
  cases pc <;> first | exact ⟨rfl, rfl, rfl, rfl, fun _ => rfl⟩ | cases h

/-- The offsets in the manifest are those behind the flushed part. -/
theorem LogSplit.quiescent
    (h : LogSplit s flushed frozen live)
    (hquiet : s.Quiescent) :
    s.manifest.seqNumberOffset = flushed.length + 1 ∧
      s.manifest.logOffset = (encode flushed).length ∧
      s.logFlushPos = s.manifest.logOffset ∧
      ∀ page, page ∈ s.removedPages ↔ page < s.manifest.logOffset / pageSize := by
  obtain ⟨-, hseq, htruncated, hoffset, hfirst⟩ := FlusherPc.of_not_inProgress hquiet.1
  have hlog := h.logOffset
  have hpos := h.logFlushPos
  rw [hoffset] at hlog
  rw [htruncated] at hpos
  refine ⟨?_, hlog, hpos.trans hlog.symm, ?_⟩
  · rw [h.seqNumberOffset, hseq]
    rfl
  · intro page
    rw [h.removed, hfirst, hpos, hlog]

/-- What the memtable of the reopened database holds. -/
theorem LogSplit.replayed_get
    (h : LogSplit s flushed frozen live)
    (key : Key) :
    ((Memtable.new (flushed.length + 1)).applyAll (frozen ++ live)).get key =
      s.memtablesGet key := by
  have hnext : ((Memtable.new (flushed.length + 1)).applyAll frozen).nextSeqNumber =
      (flushed ++ frozen).length + 1 := by
    rw [Memtable.applyAll_nextSeqNumber, List.length_append]
    change flushed.length + 1 + frozen.length = _
    omega
  rw [Memtable.applyAll_append, Memtable.get_applyAll_or, hnext, ← h.memtable,
    DbState.memtablesGet]
  rcases h.imm with ⟨himm, rfl⟩ | himm
  · rw [himm]
    rfl
  · rw [himm]
    simp

theorem CrashInv.mem_listedTables_quiescent
    (h : CrashInv params s)
    (hquiet : s.Quiescent)
    {l : Nat} {t : SortedTable} :
    t ∈ s.listedTables params l ↔ t ∈ s.tables l := by
  rw [h.mem_listedTables_iff, (FlusherPc.of_not_inProgress hquiet.1).1]
  exact ⟨And.left, fun ht => ⟨ht, by simp⟩⟩

/-- Two lists of the same tables in the order of their identifiers. -/
theorem eq_of_ascending
    {ts us : List SortedTable}
    (hts : ts.Pairwise fun t u => t.getId < u.getId)
    (hus : us.Pairwise fun t u => t.getId < u.getId)
    (hmem : ∀ t, t ∈ ts ↔ t ∈ us) :
    ts = us := by
  have hne : ∀ {t u : SortedTable}, t.getId < u.getId → t ≠ u := by
    rintro t u hlt rfl
    exact lt_irrefl _ hlt
  refine List.Perm.eq_of_pairwise (fun t u _ _ hlt hlt' => absurd hlt (lt_asymm hlt'))
    hts hus ?_
  exact (List.perm_ext_iff_of_nodup (hts.imp hne) (hus.imp hne)).mpr hmem

theorem CrashInv.listedTables_zero
    (h : CrashInv params s)
    (hquiet : s.Quiescent) :
    s.listedTables params 0 = s.tables 0 := by
  exact eq_of_ascending (h.pairwise_listedTables 0) h.reg.versions.own.tables.ascending
    fun t => h.mem_listedTables_quiescent hquiet

/-- The state after the database was opened again. -/
def DbState.reopened (params : Params) (numTasks : Nat) (s : DbState)
    (frozen live : List WriteOp) : DbState :=
  s.crash.opened params numTasks (frozen ++ live) (s.listedTables params)

theorem CrashInv.openDb_quiescent
    (h : CrashInv params s)
    (hsplit : LogSplit s flushed frozen live)
    (hquiet : s.Quiescent)
    (numTasks : Nat) :
    s.crash.openDb params numTasks = .value (s.reopened params numTasks frozen live) := by
  obtain ⟨-, -, -, hremoved⟩ := hsplit.quiescent hquiet
  have hpage : s.manifest.logOffset / pageSize ∉ s.removedPages := by
    rw [hremoved]
    exact lt_irrefl _
  rw [h.openDb_eq hsplit hpage, (FlusherPc.of_not_inProgress hquiet.1).2.2.2.1]
  rfl

/-! ## The invariants of the reopened database -/

theorem CrashInv.own_reopened
    (h : CrashInv params s)
    (numTasks : Nat) :
    OwnInv params.numLevels (s.reopened params numTasks frozen live).shared := by
  have htables := h.reg.versions.own.tables
  have hnew := ownInv_new params numTasks
  have hmem : ∀ {l t}, t ∈ s.listedTables params l → t ∈ s.tables l :=
    fun ht => (h.mem_listedTables_iff.mp ht).1
  have hidle : ∀ (i : Nat) pc,
      (s.reopened params numTasks frozen live).shared.tasks[i]? = some pc → pc = .idle :=
    fun i pc hi => List.eq_of_mem_replicate (List.mem_of_getElem? hi)
  refine ⟨⟨fun l t ht => htables.lt_next l t (hmem ht), ?_,
    fun l l' t u ht hu => htables.one_level l l' t u (hmem ht) (hmem hu),
    h.pairwise_listedTables 0,
    fun l hl t ht u hu => htables.apart l hl t (hmem ht) u (hmem hu),
    fun l t ht => htables.bound l t (hmem ht)⟩, by simp [Disk.opened, DbState.reopened,
      DbState.shared, FlusherPc.pendingId], ?_, hnew.separate, ?_, fun l => List.nodup_nil⟩
  · intro l
    exact List.pairwise_map.mpr ((h.pairwise_listedTables l).imp ne_of_lt)
  · intro i pc hi
    rw [hidle i pc hi]
    exact TaskOk.idle _ _
  · intro l p hp
    cases hp

/-- What the reopened database holds at a place, the old one holds at that place, or in the
immutable memtable instead of the live one. -/
theorem CrashInv.holds_of_reopened
    (h : CrashInv params s)
    (hsplit : LogSplit s flushed frozen live)
    (hquiet : s.Quiescent)
    {numTasks p : Nat} {key : Key} {entry : MemtableEntry}
    (hp : (s.reopened params numTasks frozen live).tiers.Holds SortedTable.get p key entry) :
    s.tiers.Holds SortedTable.get p key entry ∨
      (p = 0 ∧ s.memtable.get key = none ∧ s.tiers.Holds SortedTable.get 1 key entry) := by
  rcases p with _ | _ | l
  · change ((Memtable.new s.manifest.seqNumberOffset).applyAll _).get key = some entry at hp
    rw [(hsplit.quiescent hquiet).1, hsplit.replayed_get, DbState.memtablesGet,
      Option.or_eq_some_iff] at hp
    rcases hp with hlive | ⟨hlive, himm⟩
    · exact Or.inl hlive
    · refine Or.inr ⟨rfl, hlive, ?_⟩
      rcases hsplit.imm with ⟨hnil, -⟩ | hone
      · rw [hnil] at himm
        cases himm
      · rw [hone] at himm
        refine ⟨_, ?_, by simpa using himm⟩
        simp [DbState.tiers, hone]
  · obtain ⟨f, hf, -⟩ := hp
    cases hf
  · obtain ⟨t, ht, hget⟩ := hp
    exact Or.inl ⟨t, (h.mem_listedTables_quiescent hquiet).mp ht, hget⟩

/-- What the old one holds, the reopened one holds, or something newer. -/
theorem CrashInv.holds_reopened
    (h : CrashInv params s)
    (hsplit : LogSplit s flushed frozen live)
    (hquiet : s.Quiescent)
    (numTasks : Nat)
    {p : Nat} {key : Key} {entry : MemtableEntry}
    (hp : s.tiers.Holds SortedTable.get p key entry) :
    ∃ q newer, (s.reopened params numTasks frozen live).tiers.Holds SortedTable.get q key newer ∧
      entry.getSeqNumber ≤ newer.getSeqNumber := by
  have hlive : ∀ newer, s.memtablesGet key = some newer →
      (s.reopened params numTasks frozen live).tiers.Holds SortedTable.get 0 key newer := by
    intro newer hnewer
    change ((Memtable.new s.manifest.seqNumberOffset).applyAll _).get key = some newer
    rw [(hsplit.quiescent hquiet).1, hsplit.replayed_get, hnewer]
  rcases p with _ | _ | l
  · refine ⟨0, entry, hlive entry ?_, le_refl _⟩
    have hget : s.memtable.get key = some entry := hp
    rw [DbState.memtablesGet, hget]
    rfl
  · cases hmem : s.memtable.get key with
    | some newer =>
        refine ⟨0, newer, hlive newer ?_,
          h.reg.versions.ordered.places 0 1 key newer entry Nat.one_pos hmem hp⟩
        rw [DbState.memtablesGet, hmem]
        rfl
    | none =>
        refine ⟨0, entry, hlive entry ?_, le_refl _⟩
        obtain ⟨f, hf, hget⟩ := hp
        rw [DbState.memtablesGet, hmem]
        rcases hsplit.imm with ⟨hnil, -⟩ | hone
        · simp [DbState.tiers, hnil] at hf
        · rw [hone]
          simp only [DbState.tiers, hone, List.head?_cons, Option.map_some,
            Option.some.injEq] at hf
          subst hf
          simpa using hget
  · obtain ⟨t, ht, hget⟩ := hp
    exact ⟨l + 2, entry, ⟨t, (h.mem_listedTables_quiescent hquiet).mpr ht, hget⟩, le_refl _⟩

theorem flatten_map_singleton
    (ops : List WriteOp) :
    (ops.map fun op => [op]).flatten = ops := by
  rw [← List.flatMap_def]
  exact List.flatMap_singleton' ops

theorem CrashInv.versions_reopened
    (h : CrashInv params s)
    (hsplit : LogSplit s flushed frozen live)
    (hquiet : s.Quiescent)
    (numTasks : Nat) :
    VersionInv params (s.reopened params numTasks frozen live) := by
  have hversions := h.reg.versions
  have hbatches : (s.reopened params numTasks frozen live).batches.flatten =
      s.batches.flatten :=
    flatten_map_singleton s.batches.flatten
  refine ⟨h.own_reopened numTasks, ⟨Nat.zero_le _, trivial⟩, ?_, ⟨?_, ?_, nofun⟩, ?_, ?_⟩
  · change ((Memtable.new s.manifest.seqNumberOffset).applyAll _).nextSeqNumber = _
    rw [Memtable.applyAll_nextSeqNumber, hbatches, hsplit.history,
      (hsplit.quiescent hquiet).1]
    change flushed.length + 1 + (frozen ++ live).length = _
    simp only [List.length_append]
    omega
  · intro p q key a b hpq ha hb
    rcases h.holds_of_reopened hsplit hquiet ha with ha | ⟨rfl, -, ha⟩
    · rcases h.holds_of_reopened hsplit hquiet hb with hb | ⟨rfl, -⟩
      · exact hversions.ordered.places p q key a b hpq ha hb
      · omega
    · rcases q with _ | _ | l
      · omega
      · obtain ⟨f, hf, -⟩ := hb
        cases hf
      · rcases h.holds_of_reopened hsplit hquiet hb with hb | ⟨hq, -⟩
        · exact hversions.ordered.places 1 (l + 2) key a b (by omega) ha hb
        · omega
  · change (s.listedTables params 0).Pairwise _
    rw [h.listedTables_zero hquiet]
    exact hversions.ordered.first
  · intro p key entry hp
    have hold : ∃ q, s.tiers.Holds SortedTable.get q key entry := by
      rcases h.holds_of_reopened hsplit hquiet hp with hp | ⟨-, -, hp⟩
      · exact ⟨p, hp⟩
      · exact ⟨1, hp⟩
    obtain ⟨q, hq⟩ := hold
    obtain ⟨m, -, hlast⟩ := hversions.genuine q key entry hq
    -- a prefix of the batches is a prefix of the operations
    have htake : ((s.batches.flatten.map fun op => [op]).take
        (s.batches.take m).flatten.length).flatten = (s.batches.take m).flatten := by
      rw [← List.map_take, flatten_map_singleton, flatten_take_append s.batches m,
        List.take_left]
    refine ⟨(s.batches.take m).flatten.length, ?_, ?_⟩
    · change _ ≤ (s.batches.flatten.map fun op => [op]).length
      rw [List.length_map, flatten_take_append s.batches m, List.length_append]
      exact Nat.le_add_right _ _
    · exact (congrArg (fun ops => lastWrite ops key) htake).trans hlast
  · intro key entry hlast
    rw [hbatches] at hlast
    obtain ⟨p, newer, hp, hle⟩ := hversions.newest key entry hlast
    obtain ⟨q, newest, hq, hle'⟩ := h.holds_reopened hsplit hquiet numTasks hp
    exact ⟨q, newest, hq, le_trans hle hle'⟩

theorem LogSplit.reopened
    (h : LogSplit s flushed frozen live)
    (hquiet : s.Quiescent)
    (params : Params) (numTasks : Nat) :
    LogSplit (s.reopened params numTasks frozen live) flushed [] (frozen ++ live) := by
  obtain ⟨hseq, hlog, -, hremoved⟩ := h.quiescent hquiet
  refine ⟨?_, ?_, Or.inl ⟨rfl, rfl⟩, nofun, hseq, hlog, hlog, hremoved, nofun, nofun⟩
  · refine (flatten_map_singleton s.batches.flatten).trans ?_
    rw [h.history, List.append_nil, List.append_assoc]
  · change (Memtable.new s.manifest.seqNumberOffset).applyAll _ = _
    rw [hseq, List.append_nil]

/-- A database that was closed and opened again satisfies the invariants of a running one. -/
theorem CrashInv.reopened
    (h : CrashInv params s)
    (hsplit : LogSplit s flushed frozen live)
    (hquiet : s.Quiescent)
    (numTasks : Nat) :
    CrashInv params (s.reopened params numTasks frozen live) := by
  have hunregistered := (FlusherPc.of_not_inProgress hquiet.1).1
  have hfile : ∀ l, ∀ t ∈ s.listedTables params l, s.tableFiles t.getId = some t :=
    fun l t ht => h.files.levels l t (h.mem_listedTables_iff.mp ht).1
  refine ⟨⟨h.versions_reopened hsplit hquiet numTasks,
    ⟨flushed, [], frozen ++ live, hsplit.reopened hquiet params numTasks⟩,
    ⟨h.reg.agrees.numLevels, h.reg.agrees.increasing, ?_, nofun⟩, ?_⟩, hfile, nofun, ?_, nofun⟩
  · intro l id
    refine (h.reg.agrees.listed l id).trans ?_
    rw [hunregistered]
    simp only [mem_tableIds_iff]
    constructor
    · rintro ⟨⟨t, ht, rfl⟩, -⟩
      exact ⟨⟨t, (h.mem_listedTables_quiescent hquiet).mpr ht, rfl⟩, nofun⟩
    · rintro ⟨⟨t, ht, rfl⟩, -⟩
      exact ⟨⟨t, (h.mem_listedTables_quiescent hquiet).mp ht, rfl⟩, nofun⟩
  · intro i reason hi
    cases List.eq_of_mem_replicate (List.mem_of_getElem? hi)
  · intro i c t hi
    cases List.eq_of_mem_replicate (List.mem_of_getElem? hi)

end Reopen

/-- The invariants hold over any number of sessions. -/
theorem crashInv_reachable
    {params : Params} {numTasks : Nat} {s : DbState}
    (h : Reachable params numTasks s) :
    CrashInv params s := by
  induction h with
  | new =>
      exact ⟨regInv_new params numTasks, filesOk_new params numTasks⟩
  | run earlier events hcond ih =>
      exact Runs.invariant_along (crashInv_step params) ih hcond
  | @reopen s s' earlier hquiet hopen ih =>
      obtain ⟨flushed, frozen, live, hsplit⟩ := ih.reg.split
      rw [ih.openDb_quiescent hsplit hquiet] at hopen
      cases hopen
      exact ih.reopened hsplit hquiet numTasks

/-- A crash in any state over any number of sessions in which registered tables are installed
only: the database opens again and answers every lookup as before exactly if the page of the
persisted log offset has not been removed. -/
theorem reopen_iff
    (params : Params) (numTasks : Nat) (s : DbState)
    (hreach : Reachable params numTasks s) :
    (∃ s', s.crash.openDb params numTasks = .value s' ∧
        ∀ key, undisturbedGet params s' key = undisturbedGet params s key) ↔
      s.manifest.logOffset / pageSize ∉ s.removedPages := by
  have h := crashInv_reachable hreach
  obtain ⟨flushed, frozen, live, hsplit⟩ := h.reg.split
  constructor
  · rintro ⟨s', hopen, -⟩ hpage
    have hreplay : s.crash.replay = .error (.io "Failed to open WAL file" notFound) :=
      if_pos hpage
    rw [Disk.openDb_error (d := s.crash) h.reg.agrees.numLevels hreplay] at hopen
    cases hopen
  · intro hpage
    exact ⟨_, h.openDb_eq hsplit hpage numTasks,
      fun key => h.undisturbedGet_opened hsplit numTasks key⟩

/-- A crash in the second session, after its table was registered and before the log was
truncated. -/
theorem reopen_iff_registered :
    let first := (DbState.new smallParams 1).run smallParams (writeThenFlush 7 11)
    ∃ second, first.crash.openDb smallParams 1 = .value second ∧
      let s := second.run smallParams (writeThenFlush 8 6)
      s.manifest.levels 0 = [1, 2] ∧ s.manifest.logOffset = 20 ∧
        ∃ s', s.crash.openDb smallParams 1 = .value s' ∧
          ∀ key, undisturbedGet smallParams s' key = undisturbedGet smallParams s key := by
  intro first
  have hreplay : first.crash.replay = .value [] := by
    decide +kernel
  have hfiles : ∀ l < smallParams.numLevels, ∀ id ∈ first.crash.manifest.levels l,
      (first.crash.tableFiles id).isSome := by
    decide +kernel
  have hopen : first.crash.openDb smallParams 1 = .value _ :=
    Disk.openDb_value (by decide +kernel) hreplay (Disk.loadLevels_eq hfiles)
  have hreach := Reachable.run (Reachable.reopen (Reachable.run Reachable.new
    (writeThenFlush 7 11) (by decide +kernel)) (by decide +kernel) hopen)
    (writeThenFlush 8 6) (by decide +kernel)
  exact ⟨_, hopen, by decide +kernel, by decide +kernel,
    (reopen_iff smallParams 1 _ hreach).mpr (by decide +kernel)⟩

/-- A value that fills a page of the log, and a crash after its page was removed and before
the new offset was persisted: the key could be read, but the database does not open. -/
theorem removed_page_not_opened :
    let key : Key := ByteVec.ofList [1]
    let value : Value := ByteVec.ofList (List.replicate 4096 7)
    let s := (DbState.new smallParams 1).run smallParams
      (.write [.put key value] :: List.replicate 8 .flusher)
    (undisturbedGet smallParams s key).map (Option.map ByteVec.len) = some (some 4096) ∧
      s.manifest.logOffset = 0 ∧ s.removedPages = [0] ∧
      s.crash.openDb smallParams 1 = .error (.io "Failed to open WAL file" notFound) := by
  intro key value s
  have hreplay : s.crash.replay = .error (.io "Failed to open WAL file" notFound) := by
    decide +kernel
  exact ⟨by decide +kernel, by decide +kernel, by decide +kernel,
    Disk.openDb_error (by decide +kernel) hreplay⟩

/-- **A clean reopen keeps the contents**, in every state over any number of sessions in which
registered tables are installed only.  The database opens; its memtable has for every key the
newest entry of the old memtables, with its sequence number, and goes on with the same one;
level 0 has the same tables in the same order; and every lookup is answered as before. -/
theorem clean_reopen
    (params : Params) (numTasks : Nat) (s : DbState)
    (hreach : Reachable params numTasks s)
    (hquiet : s.Quiescent) :
    ∃ s', s.crash.openDb params numTasks = .value s' ∧
      (∀ key, s'.memtable.get key = s.memtablesGet key) ∧
      s'.memtable.nextSeqNumber = s.memtable.nextSeqNumber ∧
      s'.tables 0 = s.tables 0 ∧
      ∀ key, undisturbedGet params s' key = undisturbedGet params s key := by
  have h := crashInv_reachable hreach
  obtain ⟨flushed, frozen, live, hsplit⟩ := h.reg.split
  have hversions := h.versions_reopened hsplit hquiet numTasks
  refine ⟨_, h.openDb_quiescent hsplit hquiet numTasks, ?_, ?_, h.listedTables_zero hquiet, ?_⟩
  · intro key
    change ((Memtable.new s.manifest.seqNumberOffset).applyAll _).get key = _
    rw [(hsplit.quiescent hquiet).1, hsplit.replayed_get]
  · rw [hversions.nextSeq, h.reg.versions.nextSeq]
    exact congrArg (fun ops => ops.length + 1) (flatten_map_singleton s.batches.flatten)
  · intro key
    have hget := h.undisturbedGet_opened hsplit numTasks key
    rw [(FlusherPc.of_not_inProgress hquiet.1).2.2.2.1] at hget
    exact hget

/-- A database that is closed while a memtable waits to be flushed. -/
theorem clean_reopen_pending :
    ∃ s s', s = (DbState.new smallParams 1).run smallParams (writeThenFlush 7 0) ∧
      s.immMemtables.length = 1 ∧ s.crash.openDb smallParams 1 = .value s' ∧
        ∀ key, s'.memtable.get key = s.memtablesGet key := by
  obtain ⟨s', hopen, hget, -⟩ := clean_reopen smallParams 1 _
    (Reachable.run Reachable.new (writeThenFlush 7 0) (by decide +kernel)) (by decide +kernel)
  exact ⟨_, s', rfl, by decide +kernel, hopen, hget⟩

/-- The compaction of an unregistered table panics, the flusher registers that table, and a
second task compacts five further tables. -/
def staleTable : List DbEvent :=
  fifthTable 4 ++ List.replicate 11 .flusher ++
    (writeThenFlush 6 11 ++ writeThenFlush 7 11 ++ writeThenFlush 8 11 ++ writeThenFlush 9 11 ++
      writeThenFlush 10 11) ++ .compact 1 0 :: List.replicate 32 (.task 1)

/-- The manifest still lists the unregistered table on level 0, where the level has none, so
that the reopened database finds the old value of the key in it. -/
theorem stale_table_reopened :
    let key : Key := ByteVec.ofList [1]
    let s := (DbState.new smallParams 2).run smallParams staleTable
    s.Quiescent ∧ tableIds (s.tables 0) = [] ∧
      undisturbedGet smallParams s key = some (some (ByteVec.ofList [10])) ∧
      ∃ s', s.crash.openDb smallParams 2 = .value s' ∧ tableIds (s'.tables 0) = [5] ∧
        undisturbedGet smallParams s' key = some (some (ByteVec.ofList [5])) := by
  intro key s
  have hreplay : s.crash.replay = .value [] := by
    decide +kernel
  have hfiles : ∀ l < smallParams.numLevels, ∀ id ∈ s.crash.manifest.levels l,
      (s.crash.tableFiles id).isSome := by
    decide +kernel
  exact ⟨by decide +kernel, by decide +kernel, by decide +kernel, _,
    Disk.openDb_value (by decide +kernel) hreplay (Disk.loadLevels_eq hfiles),
    by decide +kernel, by decide +kernel⟩

end Logic
end LsmStore
