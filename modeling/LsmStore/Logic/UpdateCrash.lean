import LsmStore.Logic.CleanReopen

/-!
# A crash while the manifest is updated

`update_table_set` changes the lists of two levels in memory and then flushes
the file of each level, in an order it does not fix.  A crash in between leaves
one of the files as it was before.

If the child level was flushed first, the new table and the parents are both
listed, and a lookup finds the parents' entries before the same entries further
down.  If the parent level was flushed first, the parents are on no level, nor
is the table that replaces them; what they have stored is lost, unless every key
of theirs was written again.
-/

namespace LsmStore

/-- The levels an update has to flush, each once. -/
def Manifest.affected (add remove : List (Nat × Nat)) : List Nat :=
  ((add ++ remove).map Prod.fst).dedup

/-- What the files hold when the lists of `m` have become those of `m'` in memory and some
levels have been flushed. -/
def Manifest.flushedTo (m m' : Manifest) (flushed : List Nat) : Manifest :=
  { m with levels := fun l => if l ∈ flushed then m'.levels l else m.levels l }

namespace Logic

open Wal Tiers

/-- The compaction a task is about to install, and the identifier of its table. -/
def TaskPc.update : TaskPc → Option (Compaction × Nat)
  | moving c tableId => some (c, tableId)
  | installing c newTable => some (c, newTable.getId)
  | _ => none

/-- The disk after a crash in the update for a compaction. -/
def DbState.updateCrash (s : DbState) (c : Compaction) (id : Nat) (flushed : List Nat) : Disk :=
  { s.crash with
    manifest := s.manifest.flushedTo
      (s.manifest.updateTableSet [(c.level + 1, id)] (removeSet c)).1 flushed }

/-- The operations behind the persisted log offset. -/
def DbState.behindLogOffset (s : DbState) : List WriteOp :=
  ((withPositions 0 s.batches.flatten).filter fun entry =>
    decide (s.manifest.logOffset ≤ entry.1)).map Prod.snd

/-- The entries of a key in some levels, in the order in which `get` looks for them. -/
def levelsPath (params : Params) (tables : Nat → List SortedTable) (key : Key) :
    List MemtableEntry :=
  (List.range params.numLevels).flatMap fun l =>
    (tables l).reverse.filterMap fun t => t.get key

/-- The value of a key in some levels. -/
def levelsValue (params : Params) (tables : Nat → List SortedTable) (key : Key) :
    Option Value :=
  (levelsPath params tables key).head?.bind MemtableEntry.getValue

/-- The tables the manifest lists, without the parents of a compaction. -/
def DbState.listedWithoutParents (params : Params) (s : DbState) (c : Compaction) (l : Nat) :
    List SortedTable :=
  if l = c.level then (s.listedTables params l).filter fun t => decide (t ∉ c.parents)
  else s.listedTables params l

/-- Every key of a parent is written again behind the log offset, or has an entry that is not
older in another listed table. -/
def DbState.ParentsHidden (params : Params) (s : DbState) (c : Compaction) : Prop :=
  ∀ u ∈ c.parents, ∀ stored ∈ u.entries,
    (∃ op ∈ s.behindLogOffset, op.getKey = stored.1) ∨
      ∃ newer ∈ levelsPath params (s.listedWithoutParents params c) stored.1,
        stored.2.getSeqNumber ≤ newer.getSeqNumber

instance (params : Params) (s : DbState) (c : Compaction) :
    Decidable (s.ParentsHidden params c) :=
  inferInstanceAs (Decidable (∀ u ∈ c.parents, ∀ stored ∈ u.entries, _))

/-! ## Lookups in the opened database -/

/-- Searches that differ at one place only, where they find the same if they get there. -/
theorem head?_flatMap_range_congr
    {α : Type} {f f' : Nat → List α} {m : Nat}
    (hsame : ∀ l, l ≠ m → f' l = f l)
    (hm : (∀ l < m, f l = []) → (f' m).head? = (f m).head?)
    (n : Nat) :
    ((List.range n).flatMap f').head? = ((List.range n).flatMap f).head? := by
  induction n with
  | zero =>
      rfl
  | succ n ih =>
      rw [List.range_succ, List.flatMap_append, List.flatMap_append, List.head?_append,
        List.head?_append, ih, List.flatMap_singleton, List.flatMap_singleton]
      by_cases hn : n = m
      · subst hn
        cases hhead : ((List.range n).flatMap f).head? with
        | some a =>
            rfl
        | none =>
            rw [hm]
            intro l hl
            exact List.flatMap_eq_nil_iff.mp (List.head?_eq_none_iff.mp hhead) l
              (List.mem_range.mpr hl)
      · rw [hsame n hn]

section Opened

variable {params : Params} {s : DbState} {flushed frozen live : List WriteOp}

/-- A key that is not in the replayed log is looked up in the levels. -/
theorem undisturbedGet_opened_of_none
    {ops : List WriteOp} {key : Key}
    (hnone : lastOp ops key = none)
    (numTasks : Nat) (d : Disk) (tables : Nat → List SortedTable) :
    undisturbedGet params (d.opened params numTasks ops tables) key =
      some (levelsValue params tables key) := by
  have hget : ((Memtable.new d.manifest.seqNumberOffset).applyAll ops).get key = none := by
    rcases Memtable.get_applyAll_lastOp (Memtable.new d.manifest.seqNumberOffset) ops key with
      ⟨-, heq⟩ | ⟨op, n, hop, -⟩
    · exact heq
    · rw [hnone] at hop
      cases hop
  rw [undisturbedGet_eq, lookupPath_opened, hget]
  rfl

/-- A key that is in the replayed log is not looked up in the levels. -/
theorem undisturbedGet_opened_of_some
    {ops : List WriteOp} {key : Key}
    (hsome : lastOp ops key ≠ none)
    (d d' : Disk)
    (hseq : d'.manifest.seqNumberOffset = d.manifest.seqNumberOffset)
    (numTasks : Nat) (tables tables' : Nat → List SortedTable) :
    undisturbedGet params (d'.opened params numTasks ops tables') key =
      undisturbedGet params (d.opened params numTasks ops tables) key := by
  rcases Memtable.get_applyAll_lastOp (Memtable.new d.manifest.seqNumberOffset) ops key with
    ⟨hnone, -⟩ | ⟨op, n, -, hget⟩
  · exact absurd hnone hsome
  · rw [undisturbedGet_eq, undisturbedGet_eq, lookupPath_opened, lookupPath_opened, hseq, hget]
    rfl

theorem LogSplit.behindLogOffset_eq
    (h : LogSplit s flushed frozen live) :
    s.behindLogOffset = behindOffset s.flusher.logOffsetSet frozen live := by
  have hfilter := Disk.filter_withPositions 0 (upTo s.flusher.logOffsetSet flushed frozen)
    (behindOffset s.flusher.logOffsetSet frozen live)
  rw [Nat.zero_add, ← h.logOffset, ← h.history_eq] at hfilter
  rw [DbState.behindLogOffset, hfilter, Disk.map_snd_withPositions]

/-- The disk with other lists of tables. -/
def DbState.crashListing (s : DbState) (levels : Nat → List Nat) : Disk :=
  { s.crash with manifest := { s.manifest with levels := levels } }

/-- The tables that are loaded then. -/
def DbState.loaded (params : Params) (s : DbState) (levels : Nat → List Nat) (l : Nat) :
    List SortedTable :=
  if l < params.numLevels then (levels l).filterMap s.tableFiles else []

/-- Whatever tables are listed: if their files are there, the log has the page of the offset, and
the keys that are not replayed have their values in these tables, the database opens and answers
as before. -/
theorem CrashInv.openDb_listing
    (h : CrashInv params s)
    {levels : Nat → List Nat}
    (hfiles : ∀ l, ∀ id ∈ levels l, (s.tableFiles id).isSome)
    (hpage : s.manifest.logOffset / pageSize ∉ s.removedPages)
    (hvalue : ∀ key, lastOp s.behindLogOffset key = none →
      some (levelsValue params (s.loaded params levels) key) = undisturbedGet params s key)
    (numTasks : Nat) :
    ∃ s', (s.crashListing levels).openDb params numTasks = .value s' ∧
      ∀ key, undisturbedGet params s' key = undisturbedGet params s key := by
  obtain ⟨flushed, frozen, live, hsplit⟩ := h.reg.split
  have hreplay : (s.crashListing levels).replay = .value s.behindLogOffset := by
    rw [hsplit.behindLogOffset_eq]
    refine Disk.replay_eq hsplit.history_eq hsplit.logOffset hsplit.removed ?_
    rw [hsplit.removed] at hpage
    exact not_lt.mp hpage
  have hload : (s.crashListing levels).loadLevels params.numLevels =
      .value (s.loaded params levels) :=
    Disk.loadLevels_eq fun l _ => hfiles l
  refine ⟨_, Disk.openDb_value h.reg.agrees.numLevels hreplay hload, fun key => ?_⟩
  by_cases hnone : lastOp s.behindLogOffset key = none
  · rw [undisturbedGet_opened_of_none hnone]
    exact hvalue key hnone
  · rw [← h.undisturbedGet_opened hsplit numTasks key, ← hsplit.behindLogOffset_eq]
    exact undisturbedGet_opened_of_some hnone s.crash (s.crashListing levels) rfl numTasks _ _

/-- The values in the listed tables are those of the database. -/
theorem CrashInv.levelsValue_listed
    (h : CrashInv params s)
    {key : Key}
    (hnone : lastOp s.behindLogOffset key = none) :
    some (levelsValue params (s.listedTables params) key) = undisturbedGet params s key := by
  obtain ⟨flushed, frozen, live, hsplit⟩ := h.reg.split
  rw [← h.undisturbedGet_opened hsplit 0 key, ← hsplit.behindLogOffset_eq]
  exact (undisturbedGet_opened_of_none hnone 0 _ _).symm

end Opened

/-! ## The update of a compaction -/

section Update

variable {params : Params} {s s' : DbState} {i : Nat} {c : Compaction} {t : SortedTable}

theorem exists_installs
    {id : Nat}
    (h : OwnInv params.numLevels s.shared)
    (hpc : s.tasks[i]?.bind TaskPc.update = some (c, id))
    (hread : (s.isRead c.level || s.isRead (c.level + 1)) = false) :
    ∃ t, t.getId = id ∧ Installs params.numLevels s (taskStep params s i) i c t := by
  obtain ⟨pc, hi, hupdate⟩ := Option.bind_eq_some_iff.mp hpc
  have hinstall : pc.toInstall = some c ∧ pc.placedId = some id := by
    cases pc <;> cases hupdate <;> exact ⟨rfl, rfl⟩
  obtain ⟨t, hinst⟩ := taskStep_installs params h hi hinstall.1 hread
  refine ⟨t, ?_, hinst⟩
  obtain ⟨pc', hi', -, -, hplaced, -⟩ := hinst.ready.at_pc
  obtain rfl : pc = pc' := Option.some.inj (hi.symm.trans hi')
  rw [TaskPc.placeholder, hinstall.2] at hplaced
  exact (congrArg TablePlaceholder.id (Option.some.inj hplaced)).symm

/-- The levels that are flushed. -/
theorem mem_affected_iff
    (hne : c.parents ≠ [])
    (id l : Nat) :
    l ∈ Manifest.affected [(c.level + 1, id)] (removeSet c) ↔
      l = c.level ∨ l = c.level + 1 := by
  obtain ⟨u, hu⟩ := List.exists_mem_of_ne_nil _ hne
  simp only [Manifest.affected, removeSet, tableIds, List.mem_dedup, List.map_append,
    List.map_map, List.mem_append, List.map_cons, List.map_nil, List.mem_singleton,
    List.mem_map, Function.comp_apply]
  constructor
  · rintro (rfl | ⟨v, -, rfl⟩ | ⟨v, -, rfl⟩)
    · exact Or.inr rfl
    · exact Or.inr rfl
    · exact Or.inl rfl
  · rintro (rfl | rfl)
    · exact Or.inr (Or.inr ⟨u, hu, rfl⟩)
    · exact Or.inl rfl

theorem behindLogOffset_installs
    (hinst : Installs params.numLevels s s' i c t) :
    s'.behindLogOffset = s.behindLogOffset := by
  have hbatches : s'.batches = s.batches := by rw [hinst.frame]
  have hoffset : s'.manifest.logOffset = s.manifest.logOffset := by
    rw [hinst.manifest]
    exact (Manifest.updateTableSet_header _ _ _).2.2.2
  rw [DbState.behindLogOffset, DbState.behindLogOffset, hbatches, hoffset]

section BothStates

variable (h : CrashInv params s) (h' : CrashInv params s')
variable (hinst : Installs params.numLevels s s' i c t)

include h h' hinst

/-- An installation does not change what a lookup returns. -/
theorem CrashInv.undisturbedGet_installs
    (key : Key) :
    undisturbedGet params s' key = undisturbedGet params s key := by
  have hbatches : s'.batches = s.batches := by rw [hinst.frame]
  rw [undisturbedGet_eq, undisturbedGet_eq, h.reg.versions.head?_lookupPath,
    h'.reg.versions.head?_lookupPath, hbatches]

/-- A listed table of the child level before the update and after it: for a key that no table
of the levels above has, they have the same entry. -/
theorem CrashInv.mem_child_iff
    (hparents : ∀ u ∈ c.parents, s.flusher.unregistered ≠ some u.getId)
    {key : Key}
    (habove : ∀ u ∈ s.listedTables params c.level, u.get key = none)
    (entry : MemtableEntry) :
    (∃ u ∈ s'.listedTables params (c.level + 1), u.get key = some entry) ↔
      ∃ u ∈ s.listedTables params (c.level + 1), u.get key = some entry := by
  have hready := hinst.ready
  -- below level 0 every table is registered
  have hlisted : ∀ u, u ∈ s.listedTables params (c.level + 1) ↔
      u ∈ s.tables (c.level + 1) := by
    intro u
    refine h.mem_listedTables_iff.trans ⟨And.left, fun hu => ⟨hu, fun hreg => ?_⟩⟩
    have := h.reg.agrees.level_eq_zero h.reg.versions.own hu hreg
    omega
  have hlisted' : ∀ u, u ∈ s'.listedTables params (c.level + 1) ↔
      u = t ∨ (u ∈ s.tables (c.level + 1) ∧ u ∉ c.inputs) := by
    intro u
    refine Iff.trans ?_ ((hready.mem_iff hinst.installed (c.level + 1) u).trans
      (or_congr (and_iff_right rfl) Iff.rfl))
    refine h'.mem_listedTables_iff.trans ⟨And.left, fun hu => ⟨hu, fun hreg => ?_⟩⟩
    have := h'.reg.agrees.level_eq_zero h'.reg.versions.own hu hreg
    omega
  -- an input that has the key is a child
  have hchild : ∀ v ∈ c.inputs, ∀ e, v.get key = some e → v ∈ s.tables (c.level + 1) := by
    intro v hv e he
    rcases List.mem_append.mp hv with hv | hv
    · have hmem := h.mem_listedTables_iff.mpr ⟨hready.claim.parents_mem v hv, hparents v hv⟩
      rw [habove v hmem] at he
      cases he
    · exact hready.claim.children_mem v hv
  constructor
  · rintro ⟨u, hu, hget⟩
    rcases (hlisted' u).mp hu with rfl | ⟨hold, -⟩
    · obtain ⟨v, hv, hgetv⟩ := hinst.content.source key entry hget
      exact ⟨v, (hlisted v).mpr (hchild v hv entry hgetv), hgetv⟩
    · exact ⟨u, (hlisted u).mpr hold, hget⟩
  · rintro ⟨u, hu, hget⟩
    have hmem := (hlisted u).mp hu
    by_cases hin : u ∈ c.inputs
    · obtain ⟨newer, hnewer, -⟩ := hinst.content.newest u hin key entry hget
      obtain ⟨v, hv, hgetv⟩ := hinst.content.source key newer hnewer
      -- the tables of the child level share no key
      have heq : v = u := by
        by_contra hne
        have hapart := h.reg.versions.own.tables.apart (c.level + 1) (Nat.succ_ne_zero _) v
          (hchild v hv newer hgetv) u hmem hne
        rw [hapart.get_eq_none hgetv] at hget
        cases hget
      subst heq
      obtain rfl : newer = entry := Option.some.inj (hgetv.symm.trans hget)
      exact ⟨t, (hlisted' t).mpr (Or.inl rfl), hnewer⟩
    · exact ⟨u, (hlisted' u).mpr (Or.inr ⟨hmem, hin⟩), hget⟩

/-- With the child level flushed only, a lookup in the levels finds what it found before. -/
theorem CrashInv.levelsValue_child
    (hparents : ∀ u ∈ c.parents, s.flusher.unregistered ≠ some u.getId)
    {tables : Nat → List SortedTable}
    (hchild : tables (c.level + 1) = s'.listedTables params (c.level + 1))
    (hothers : ∀ l, l ≠ c.level + 1 → tables l = s.listedTables params l)
    (key : Key) :
    levelsValue params tables key = levelsValue params (s.listedTables params) key := by
  unfold levelsValue levelsPath
  rw [head?_flatMap_range_congr (m := c.level + 1)]
  · intro l hl
    rw [hothers l hl]
  · intro hempty
    have habove : ∀ u ∈ s.listedTables params c.level, u.get key = none := by
      intro u hu
      exact List.filterMap_eq_nil_iff.mp (hempty c.level (Nat.lt_succ_self _)) u
        (List.mem_reverse.mpr hu)
    have hmem := h.mem_child_iff h' hinst hparents habove
    have hone : ∀ a ∈ (s.listedTables params (c.level + 1)).reverse.filterMap
        (fun u => u.get key), ∀ b ∈ (s.listedTables params (c.level + 1)).reverse.filterMap
        (fun u => u.get key), a = b := by
      intro a ha b hb
      obtain ⟨u, hu, ha⟩ := List.mem_filterMap.mp ha
      obtain ⟨v, hv, hb⟩ := List.mem_filterMap.mp hb
      by_cases huv : u = v
      · subst huv
        exact Option.some.inj (ha.symm.trans hb)
      · have hapart := h.reg.versions.own.tables.apart (c.level + 1) (Nat.succ_ne_zero _) u
          (h.mem_listedTables_iff.mp (List.mem_reverse.mp hu)).1 v
          (h.mem_listedTables_iff.mp (List.mem_reverse.mp hv)).1 huv
        rw [hapart.get_eq_none ha] at hb
        cases hb
    have hiff : ∀ a, a ∈ (tables (c.level + 1)).reverse.filterMap (fun u => u.get key) ↔
        a ∈ (s.listedTables params (c.level + 1)).reverse.filterMap (fun u => u.get key) := by
      intro a
      simp only [hchild, List.mem_filterMap, List.mem_reverse]
      exact hmem a
    refine @head?_eq_of_covered _ entryRank _ _ ?_ ?_ (fun a => (hiff a).mp)
      (fun a ha => ⟨a, (hiff a).mpr ha, le_refl _⟩) fun a ha b hb _ => hone a ha b hb
    · refine List.pairwise_of_forall_mem_list ?_
      intro a ha b hb
      rw [hone a ((hiff a).mp ha) b ((hiff b).mp hb)]
    · refine List.pairwise_of_forall_mem_list ?_
      intro a ha b hb
      rw [hone a ha b hb]

/-- The parent level after the update is the level without the parents. -/
theorem CrashInv.listedTables_parent :
    s'.listedTables params c.level = s.listedWithoutParents params c c.level := by
  have hflusher : s'.flusher = s.flusher := by rw [hinst.frame]
  rw [DbState.listedWithoutParents, if_pos rfl]
  refine eq_of_ascending (h'.pairwise_listedTables c.level)
    ((h.pairwise_listedTables c.level).filter _) ?_
  intro u
  rw [h'.mem_listedTables_iff, hflusher, List.mem_filter, h.mem_listedTables_iff,
    decide_eq_true_iff]
  have htables := hinst.installed.parents u
  change u ∈ s'.tables c.level ↔ u ∈ s.tables c.level ∧ u ∉ c.parents at htables
  rw [htables]
  tauto

/-- The other levels are the same before and after. -/
theorem CrashInv.listedTables_others
    {l : Nat}
    (hparent : l ≠ c.level)
    (hchild : l ≠ c.level + 1) :
    s'.listedTables params l = s.listedTables params l := by
  have hflusher : s'.flusher = s.flusher := by rw [hinst.frame]
  have htables : s'.tables l = s.tables l := hinst.installed.others l hparent hchild
  refine eq_of_ascending (h'.pairwise_listedTables l) (h.pairwise_listedTables l) ?_
  intro u
  rw [h'.mem_listedTables_iff, h.mem_listedTables_iff, hflusher, htables]

end BothStates

/-- Without parents that are hidden, a lookup in the listed tables finds what it found before. -/
theorem CrashInv.levelsValue_withoutParents
    (h : CrashInv params s)
    (hhidden : s.ParentsHidden params c)
    {key : Key}
    (hnone : lastOp s.behindLogOffset key = none) :
    levelsValue params (s.listedWithoutParents params c) key =
      levelsValue params (s.listedTables params) key := by
  have hsub : ∀ l, ((s.listedWithoutParents params c l).reverse.filterMap
      fun t => t.get key).Sublist ((s.listedTables params l).reverse.filterMap
      fun t => t.get key) := by
    intro l
    refine List.Sublist.filterMap _ (List.Sublist.reverse ?_)
    unfold DbState.listedWithoutParents
    split_ifs
    · exact List.filter_sublist
    · exact List.Sublist.refl _
  have hlisted : (levelsPath params (s.listedTables params) key).Pairwise
      fun a b => b.getSeqNumber ≤ a.getSeqNumber := h.pairwise_listedTiers key
  obtain ⟨hone, htwo⟩ := List.pairwise_flatMap.mp hlisted
  have hinj : ∀ a ∈ levelsPath params (s.listedTables params) key,
      ∀ b ∈ levelsPath params (s.listedTables params) key,
        a.getSeqNumber = b.getSeqNumber → a = b := by
    have hmem : ∀ a ∈ levelsPath params (s.listedTables params) key,
        a ∈ lookupPath params s key := by
      intro a ha
      obtain ⟨l, t, ht, -, hget⟩ := (h.mem_listedTiers_iff key a).mp ha
      exact (h.reg.versions.mem_lookupPath_iff key a).mpr ⟨l + 2, t, ht, hget⟩
    exact fun a ha b hb => h.reg.versions.eq_of_seqNumber_eq (hmem a ha) (hmem b hb)
  refine congrArg (fun found : Option MemtableEntry => found.bind MemtableEntry.getValue)
    (@head?_eq_of_covered _ MemtableEntry.getSeqNumber _ _ ?_ hlisted ?_ ?_ hinj)
  · exact List.pairwise_flatMap.mpr ⟨fun l hl => (hone l hl).sublist (hsub l),
      htwo.imp fun hle a ha b hb => hle a ((hsub _).subset ha) b ((hsub _).subset hb)⟩
  · intro a ha
    obtain ⟨l, hl, ha⟩ := List.mem_flatMap.mp ha
    exact List.mem_flatMap.mpr ⟨l, hl, (hsub l).subset ha⟩
  · intro a ha
    obtain ⟨l, hl, ha⟩ := List.mem_flatMap.mp ha
    obtain ⟨u, hu, hget⟩ := List.mem_filterMap.mp ha
    by_cases hparent : l = c.level ∧ u ∈ c.parents
    · rcases hhidden u hparent.2 (key, a) ((SortedTable.get_eq_some_iff u key a).mp hget) with
        ⟨op, hop, hkey⟩ | hnewer
      · have hnot := List.find?_eq_none.mp hnone op (List.mem_reverse.mpr hop)
        exact absurd (decide_eq_true hkey) hnot
      · exact hnewer
    · refine ⟨a, List.mem_flatMap.mpr ⟨l, hl, List.mem_filterMap.mpr ⟨u, ?_, hget⟩⟩, le_refl _⟩
      rw [List.mem_reverse] at hu ⊢
      unfold DbState.listedWithoutParents
      split_ifs with hlevel
      · exact List.mem_filter.mpr ⟨hu, decide_eq_true fun hmem => hparent ⟨hlevel, hmem⟩⟩
      · exact hu

end Update

/-! ## The crash points -/

section CrashPoints

variable {params : Params} {s s' : DbState} {i : Nat} {c : Compaction} {t : SortedTable}
  {flushed : List Nat} {key : Key}

/-- The lists of the disk when some levels have been flushed. -/
def listsFlushed (s s' : DbState) (flushed : List Nat) (l : Nat) : List Nat :=
  if l ∈ flushed then s'.manifest.levels l else s.manifest.levels l

section Installed

variable (hinst : Installs params.numLevels s s' i c t)

include hinst

theorem loaded_listsFlushed
    (l : Nat) :
    s.loaded params (listsFlushed s s' flushed) l =
      if l ∈ flushed then s'.listedTables params l else s.listedTables params l := by
  have hfiles : s'.tableFiles = s.tableFiles := by rw [hinst.frame]
  unfold DbState.loaded DbState.listedTables listsFlushed
  rw [hfiles]
  by_cases hl : l ∈ flushed
  · rw [if_pos hl, if_pos hl]
  · rw [if_neg hl, if_neg hl]

/-- Nothing is flushed: the tables before the update. -/
theorem loaded_neither
    (hflushed : ∀ l ∈ flushed, l = c.level ∨ l = c.level + 1)
    (hparent : c.level ∉ flushed)
    (hchild : c.level + 1 ∉ flushed) :
    s.loaded params (listsFlushed s s' flushed) = s.listedTables params := by
  funext l
  rw [loaded_listsFlushed hinst, if_neg]
  intro hmem
  rcases hflushed l hmem with rfl | rfl
  · exact hparent hmem
  · exact hchild hmem

/-- Both levels are flushed: the tables after the update. -/
theorem CrashInv.loaded_both
    (h : CrashInv params s)
    (h' : CrashInv params s')
    (hparent : c.level ∈ flushed)
    (hchild : c.level + 1 ∈ flushed) :
    s.loaded params (listsFlushed s s' flushed) = s'.listedTables params := by
  funext l
  rw [loaded_listsFlushed hinst]
  by_cases hl : l ∈ flushed
  · rw [if_pos hl]
  · rw [if_neg hl]
    refine (h.listedTables_others h' hinst ?_ ?_).symm
    · rintro rfl
      exact hl hparent
    · rintro rfl
      exact hl hchild

/-- Only the parent level is flushed: the parents are gone, and so is what replaces them. -/
theorem CrashInv.loaded_parent
    (h : CrashInv params s)
    (h' : CrashInv params s')
    (hflushed : ∀ l ∈ flushed, l = c.level ∨ l = c.level + 1)
    (hparent : c.level ∈ flushed)
    (hchild : c.level + 1 ∉ flushed) :
    s.loaded params (listsFlushed s s' flushed) = s.listedWithoutParents params c := by
  funext l
  rw [loaded_listsFlushed hinst]
  by_cases hl : l = c.level
  · rw [hl, if_pos hparent]
    exact h.listedTables_parent h' hinst
  · have hnot : l ∉ flushed := by
      intro hmem
      rcases hflushed l hmem with rfl | rfl
      · exact hl rfl
      · exact hchild hmem
    rw [if_neg hnot, DbState.listedWithoutParents, if_neg hl]

/-- After every crash point, a key that is not replayed has its value in the listed tables. -/
theorem CrashInv.levelsValue_flushed
    (h : CrashInv params s)
    (h' : CrashInv params s')
    (hparents : ∀ u ∈ c.parents, s.flusher.unregistered ≠ some u.getId)
    (hflushed : ∀ l ∈ flushed, l = c.level ∨ l = c.level + 1)
    (hkeeps : (c.level ∈ flushed → c.level + 1 ∈ flushed) ∨ s.ParentsHidden params c)
    (hnone : lastOp s.behindLogOffset key = none) :
    some (levelsValue params (s.loaded params (listsFlushed s s' flushed)) key) =
      undisturbedGet params s key := by
  by_cases hparent : c.level ∈ flushed <;> by_cases hchild : c.level + 1 ∈ flushed
  · rw [h.loaded_both hinst h' hparent hchild, ← h.undisturbedGet_installs h' hinst key]
    exact h'.levelsValue_listed (by rw [behindLogOffset_installs hinst]; exact hnone)
  · have hhidden := hkeeps.resolve_left fun himp => hchild (himp hparent)
    rw [h.loaded_parent hinst h' hflushed hparent hchild,
      h.levelsValue_withoutParents hhidden hnone]
    exact h.levelsValue_listed hnone
  · rw [h.levelsValue_child h' hinst hparents]
    · exact h.levelsValue_listed hnone
    · rw [loaded_listsFlushed hinst, if_pos hchild]
    · intro l hl
      rw [loaded_listsFlushed hinst, if_neg]
      intro hmem
      rcases hflushed l hmem with rfl | rfl
      · exact hparent hmem
      · exact hl rfl
  · rw [loaded_neither hinst hflushed hparent hchild]
    exact h.levelsValue_listed hnone

theorem CrashInv.file_of_listsFlushed
    (h : CrashInv params s)
    (h' : CrashInv params s')
    {l id : Nat}
    (hid : id ∈ listsFlushed s s' flushed l) :
    (s.tableFiles id).isSome := by
  have hfiles : s'.tableFiles = s.tableFiles := by rw [hinst.frame]
  unfold listsFlushed at hid
  split_ifs at hid
  · obtain ⟨u, -, -, hfile⟩ := h'.file_of_listed hid
    rw [← hfiles, hfile]
    rfl
  · obtain ⟨u, -, -, hfile⟩ := h.file_of_listed hid
    rw [hfile]
    rfl

end Installed

end CrashPoints

/-- Five tables on level 0, merged and about to be replaced by one on level 1. -/
def fiveMerged : List DbEvent :=
  (writeThenFlush 1 11 ++ writeThenFlush 2 11 ++ writeThenFlush 3 11 ++ writeThenFlush 4 11 ++
    writeThenFlush 5 11) ++ .compact 0 0 :: List.replicate 25 (.task 0)

end Logic
end LsmStore
