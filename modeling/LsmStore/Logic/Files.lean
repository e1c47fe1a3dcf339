import LsmStore.Blocks.Lookup
import LsmStore.Logic.CrashRecovery
import LsmStore.Wal.Recovery

/-!
# The files behind the state machine

The state machine has the log as a list of operations and a table as a list of
entries with a range.  Here they meet their bytes: the reader of the log makes
of the page files what the state machine replays, and every table of a
reachable state, written to blocks, answers lookups as the state machine does.

The index block of a table stores the recorded range and refuses keys outside
of it, so that the second needs the ranges to be exact.
-/

namespace LsmStore

/-- The keys of a tight table begin and end with its range. -/
theorem SortedTable.Tight.ends
    {t : SortedTable}
    (h : t.Tight) :
    (t.entries.head t.nonempty).1 = t.minKey ∧ (t.entries.getLast t.nonempty).1 = t.maxKey := by
  obtain ⟨⟨first, hfirst⟩, last, hlast⟩ := h
  constructor
  · exact le_antisymm (SortedAssoc.head_le_of_mem t.sorted t.nonempty hfirst)
      (t.in_range _ (List.head_mem t.nonempty)).1
  · exact le_antisymm (t.in_range _ (List.getLast_mem t.nonempty)).2
      (SortedAssoc.le_getLast_of_mem t.sorted t.nonempty hlast)

namespace Logic

open Wal PagedStream

/-! ## The log -/

/-- The page files of the log: those of everything stored, without the removed ones. -/
def DbState.logFiles (s : DbState) : LogDir := fun i =>
  if i ∈ s.removedPages then none else page pageSize (encode s.batches.flatten) i

/-- **The log on its files**: in every state of a run that installs registered tables only, the
reader of the log, started at the persisted offset, ends as the replay says.  If the page of the
offset is gone both fail in the same way. -/
theorem recovers_logFiles
    (params : Params) (numTasks : Nat) (events : List DbEvent)
    (hcond : RunsRegistered params (DbState.new params numTasks) events)
    (memtable : Memtable) :
    let s := (DbState.new params numTasks).run params events
    Recovers s.logFiles s.manifest.logOffset memtable
      (s.crash.replay >>= fun ops =>
        Wal.replay (encode s.batches.flatten).length ops memtable) := by
  intro s
  obtain ⟨flushed, frozen, live, hsplit⟩ := (crashInv_run hcond).reg.split
  by_cases hpage : s.manifest.logOffset / pageSize ∈ s.removedPages
  · have hreplay : s.crash.replay = .error (.io "Failed to open WAL file" notFound) :=
      if_pos hpage
    refine ⟨0, fun fuel _ => ?_⟩
    rw [hreplay, recover, WalReader.new, DbState.logFiles, if_pos hpage]
    rfl
  · have hfirst := hpage
    rw [hsplit.removed, not_lt] at hfirst
    rw [Disk.replay_eq hsplit.history_eq hsplit.logOffset hsplit.removed hfirst,
      Outcome.value_bind, hsplit.logOffset, hsplit.history_eq]
    refine recovers_of_files ?_ (le_refl _) memtable
    intro i hi
    have hkept : i ∉ s.removedPages := by
      rw [hsplit.removed]
      rw [hsplit.logOffset] at hfirst
      omega
    rw [DbState.logFiles, if_neg hkept, hsplit.history_eq]

/-- A memtable whose table is registered, with the log not truncated yet. -/
theorem recovers_logFiles_written :
    let s := (DbState.new smallParams 1).run smallParams (writeThenFlush 7 6)
    s.manifest.logOffset = 0 ∧ Recovers s.logFiles 0 (Memtable.new 1)
      (s.crash.replay >>= fun ops =>
        Wal.replay (encode s.batches.flatten).length ops (Memtable.new 1)) := by
  have hcond : RunsRegistered smallParams (DbState.new smallParams 1) (writeThenFlush 7 6) := by
    decide +kernel
  exact ⟨by decide +kernel, recovers_logFiles smallParams 1 _ hcond (Memtable.new 1)⟩

/-! ## The ranges of the tables -/

/-- The recorded ranges are tight, also that of a table the flusher is about to publish. -/
structure TightInv (s : DbState) : Prop where
  levels : ∀ l, ∀ t ∈ s.tables l, t.Tight
  adding : ∀ logOffset mem t, s.flusher = .adding logOffset mem t → t.Tight

section Tight

variable {params : Params} {s s' : DbState}

theorem TightInv.installs
    {numLevels i : Nat} {c : Compaction} {t : SortedTable}
    (h : TightInv s)
    (hinst : Installs numLevels s s' i c t) :
    TightInv s' := by
  have hinputs : ∀ u ∈ c.inputs, u.Tight := by
    intro u hu
    rcases List.mem_append.mp hu with hu | hu
    · exact h.levels _ u (hinst.ready.claim.parents_mem u hu)
    · exact h.levels _ u (hinst.ready.claim.children_mem u hu)
  have ht : t.Tight := by
    rcases hinst.source with hi | hparents
    · obtain ⟨params, hne, heq⟩ := (hinst.ready.inv.tasks i _ hi).phase
      rw [heq]
      exact SortedTable.tight_merged params _ hne hinputs
    · exact hinputs t (List.mem_append_left _ (hparents ▸ List.mem_singleton_self t))
  refine ⟨fun l u hu => ?_, by rw [hinst.frame]; exact h.adding⟩
  rcases (hinst.ready.mem_iff hinst.installed l u).mp hu with ⟨-, rfl⟩ | ⟨hu, -⟩
  · exact ht
  · exact h.levels l u hu

theorem TightInv.flusher
    (h : TightInv s)
    (hstep : FlusherStep params s s') :
    TightInv s' := by
  have hcalls : ∀ call next, (∀ logOffset mem t, next ≠ .adding logOffset mem t) →
      TightInv (s.flusherCalls call next) := by
    rintro ⟨manifest, outcome⟩ next hnext
    cases outcome with
    | none =>
        exact ⟨h.levels, fun _ _ _ heq => absurd heq (hnext _ _ _)⟩
    | some reason =>
        exact ⟨h.levels, nofun⟩
  cases hstep with
  | stay =>
      exact h
  | write hpc hne =>
      refine ⟨h.levels, fun _ _ t heq => ?_⟩
      cases heq
      exact SortedTable.tight_ofMemtable _ _ _ hne
  | add hpc hread =>
      refine ⟨fun l t ht => ?_, nofun⟩
      rcases DbState.mem_tables_addL0Table.mp ht with ht | ⟨-, rfl⟩
      · exact h.levels l t ht
      · exact h.adding _ _ _ hpc
  | setSeqNumber hpc =>
      exact hcalls _ _ nofun
  | register hpc =>
      exact hcalls _ _ nofun
  | setLogOffset hpc =>
      exact hcalls _ _ nofun
  | _ =>
      exact ⟨h.levels, nofun⟩

theorem TightInv.step
    (h : TightInv s)
    (hown : OwnInv params.numLevels s.shared)
    (e : DbEvent) :
    TightInv (step params s e) := by
  have hstep := dbStep_step hown e
  generalize Logic.step params s e = s' at hstep
  cases hstep with
  | write batch =>
      rcases writeOpts_cases params s batch with heq | heq | ⟨-, heq⟩ <;> rw [heq] <;>
        exact ⟨h.levels, h.adding⟩
  | flusher =>
      exact h.flusher (flusherStep_doMemtableCompaction params s)
  | installs hi hpc hinst =>
      exact h.installs hinst
  | unnoticed hframe =>
      exact ⟨hframe.tables ▸ h.levels, hframe.flusher ▸ h.adding⟩

end Tight

/-- In every state of every run, the ends of the recorded range of a table are keys of it. -/
theorem tightInv_run
    (params : Params) (numTasks : Nat) (events : List DbEvent) :
    TightInv ((DbState.new params numTasks).run params events) := by
  have hnew : OwnInv params.numLevels (DbState.new params numTasks).shared ∧
      TightInv (DbState.new params numTasks) :=
    ⟨ownInv_new params numTasks, fun _ _ ht => absurd ht List.not_mem_nil, nofun⟩
  have hstep : ∀ (s : DbState) (e : DbEvent), OwnInv params.numLevels s.shared ∧ TightInv s →
      OwnInv params.numLevels (step params s e).shared ∧ TightInv (step params s e) :=
    fun s e h => ⟨ownInv_step params s e h.1, h.2.step h.1 e⟩
  exact (Runs.invariant hstep hnew events).2

/-! ## The tables -/

section Tables

open Blocks

/-- **A table on its files**: in every state of every run, a table can be written to blocks with
its recorded range, whatever its entries are stored as, and whatever the cache has kept of it, a
lookup there reads the entry that the table has for the key, or finds nothing if it has none. -/
theorem table_files_lookup
    (params : Params) (numTasks : Nat) (events : List DbEvent) {F : Format}
    (s₀ : DataBlocks F) (f : MemtableEntry → BlockEntry F.values.V) (id : UInt64)
    (l : Nat) (t : SortedTable)
    (ht : t ∈ ((DbState.new params numTasks).run params events).tables l) :
    let entries := t.entries.map fun e => (e.1, f e.2)
    ∃ t' stored, buildTable s₀ id t.getMin t.getMax entries = .value (t', stored) ∧
      (SmallTable F entries t' → ∀ s, KeepsTable t' stored s →
        Blocks.SortedTable.load id s = .value t' ∧
        ∀ key, ∃ found s', t'.get s key = .value (found, s') ∧ KeepsTable t' stored s' ∧
          found.map DataEntry.read = (t.get key).map fun e => .value (f e)) := by
  intro entries
  have hne : entries ≠ [] := fun hnil => t.nonempty (List.map_eq_nil_iff.mp hnil)
  have hsorted : entries.Pairwise fun a b => a.1 < b.1 := List.pairwise_map.mpr t.sorted
  have hbuilt := buildTable_eq id t.getMin t.getMax s₀ entries
  obtain ⟨hmin, hmax⟩ := ((tightInv_run params numTasks events).levels l t ht).ends
  have hmin' : t.getMin = (entries.head hne).1 := by
    rw [List.head_map]
    exact hmin.symm
  have hmax' : t.getMax = (entries.getLast hne).1 := by
    rw [List.getLast_map]
    exact hmax.symm
  refine ⟨_, _, hbuilt, fun hsmall s hkeeps => ⟨load_built hbuilt hkeeps, fun key => ?_⟩⟩
  rw [hmin', hmax'] at hbuilt hsmall hkeeps ⊢
  obtain ⟨hfound, hnone⟩ := get_built hne hsorted hbuilt hsmall hkeeps key
  cases hget : t.get key with
  | some e =>
      have hmem : (key, f e) ∈ entries :=
        List.mem_map.mpr ⟨_, (t.get_eq_some_iff key e).mp hget, rfl⟩
      obtain ⟨entry, s', hres, hread, hkeeps'⟩ := hfound _ hmem
      exact ⟨_, s', hres, hkeeps', congrArg some hread⟩
  | none =>
      obtain ⟨s', hres, hkeeps'⟩ := hnone fun e hmem => by
        obtain ⟨⟨key', e'⟩, hmem', heq⟩ := List.mem_map.mp hmem
        obtain ⟨rfl, -⟩ := Prod.mk.inj heq
        rw [(t.get_eq_some_iff key' e').mpr hmem'] at hget
        cases hget
      exact ⟨none, s', hres, hkeeps', rfl⟩

/-- An entry as a table stores it, without the features. -/
def storedEntry : MemtableEntry → BlockEntry Value
  | .value n value => .put (UInt64.ofNat n) value
  | .deletion n => .delete (UInt64.ofNat n)

/-- Five flushes of two keys each; the key `1` is in all of them, and is deleted by the last.
Then their tables are merged. -/
def mergedKeys : List DbEvent :=
  let key (b : UInt8) : Key := ByteVec.ofList [b]
  let flush (batch : List WriteOp) := DbEvent.write batch :: List.replicate 11 .flusher
  [2, 3, 4, 5].flatMap (fun b => flush [.put (key 1) (key b), .put (key b) (key b)]) ++
    flush [.delete (key 1), .put (key 6) (key 6)] ++ .compact 0 0 :: List.replicate 28 (.task 0)

/-- The merged table in two blocks: a value, a deletion, and a key it does not have. -/
theorem table_files_lookup_merged :
    let key (b : UInt8) : Key := ByteVec.ofList [b]
    let s := (DbState.new smallParams 1).run smallParams mergedKeys
    let F := Format.basic 2 3 (by decide)
    ∃ t ∈ s.tables 1, t.get (key 3) = some (.value 4 (key 3)) ∧
      t.get (key 1) = some (.deletion 9) ∧ t.get (key 7) = none ∧
      ∃ t' stored, buildTable (DataBlocks.empty F) 6 t.getMin t.getMax
          (t.entries.map fun e => (e.1, storedEntry e.2)) = .value (t', stored) ∧
        Blocks.SortedTable.load 6 stored = .value t' ∧
        ∀ k, ∃ found s', t'.get stored k = .value (found, s') ∧
          found.map DataEntry.read = (t.get k).map fun e => .value (storedEntry e) := by
  intro key s F
  let t := (s.tables 1).head (by decide +kernel)
  obtain ⟨t', stored, hbuilt, hfiles⟩ := table_files_lookup smallParams 1 mergedKeys
    (DataBlocks.empty F) storedEntry 6 1 t (List.head_mem _)
  obtain ⟨hload, hlookup⟩ := hfiles (by
    obtain ⟨rfl, -⟩ := built_eq hbuilt
    unfold SmallTable SmallIndex SmallBlock
    decide +kernel) stored (KeepsTable.refl t' stored)
  refine ⟨t, List.head_mem _, by decide +kernel, by decide +kernel, by decide +kernel, t', stored,
    hbuilt, hload, fun k => ?_⟩
  obtain ⟨found, s', hget, -, hread⟩ := hlookup k
  exact ⟨found, s', hget, hread⟩

end Tables

end Logic
end LsmStore
