import LsmStore.Logic.Exclusion

/-!
# The order of the tables on a child level

A compaction puts one table on the child level.  Both ways to do so look for
the first table with a larger minimum, and differ when there is none: the
regular installation appends the new table, a table move puts it in front.

Either way the level holds the old tables without the merged ones and with the
new one.  The order by minimum keys survives every regular installation; it
survives a move exactly if the level is empty or has a table with a larger
minimum.
-/

namespace LsmStore
namespace Logic

open KeyRange KeyedList

/-- The tables stand in the order of their minimum keys. -/
def SortedByMin (tables : List SortedTable) : Prop :=
  tables.Pairwise fun t u => t.getMin < u.getMin

instance (tables : List SortedTable) : Decidable (SortedByMin tables) :=
  inferInstanceAs (Decidable (List.Pairwise _ _))

/-- Some table has a larger minimum than `t`. -/
def HasLarger (tables : List SortedTable) (t : SortedTable) : Prop :=
  ∃ other ∈ tables, t.getMin < other.getMin

instance (tables : List SortedTable) (t : SortedTable) : Decidable (HasLarger tables t) :=
  inferInstanceAs (Decidable (∃ other ∈ tables, t.getMin < other.getMin))

/-! ## The two positions -/

section Positions

variable {all : List SortedTable} {t : SortedTable}

theorem fastInsertPosition_of_hasLarger
    (h : HasLarger all t) :
    fastInsertPosition all t = insertPosition all t := by
  obtain ⟨other, hmem, hlt⟩ := h
  rw [fastInsertPosition, insertPosition, List.findIdx?_eq_some_of_exists
    ⟨other, hmem, decide_eq_true hlt⟩]
  rfl

theorem fastInsertPosition_of_not_hasLarger
    (h : ¬ HasLarger all t) :
    fastInsertPosition all t = 0 := by
  have hnone : all.findIdx? (fun other => decide (t.getMin < other.getMin)) = none := by
    rw [List.findIdx?_eq_none_iff]
    intro other hmem
    exact decide_eq_false fun hlt => h ⟨other, hmem, hlt⟩
  rw [fastInsertPosition, hnone]
  rfl

/-- The position of a regular installation is where the table belongs. -/
theorem sortedByMin_insertPosition
    (hsorted : SortedByMin all)
    (hne : ∀ u ∈ all, u.getMin ≠ t.getMin) :
    SortedByMin (all.insertIdx (insertPosition all t) t) :=
  pairwise_insertIdx_findIdx hsorted hne

/-- The position of a move is where the table belongs if some table is larger, and in an empty
level. -/
theorem sortedByMin_fastInsertPosition_iff
    (hsorted : SortedByMin all)
    (hne : ∀ u ∈ all, u.getMin ≠ t.getMin) :
    SortedByMin (all.insertIdx (fastInsertPosition all t) t) ↔ all = [] ∨ HasLarger all t := by
  by_cases hlarger : HasLarger all t
  · rw [fastInsertPosition_of_hasLarger hlarger]
    exact iff_of_true (sortedByMin_insertPosition hsorted hne) (Or.inr hlarger)
  · rw [fastInsertPosition_of_not_hasLarger hlarger, or_iff_left hlarger]
    constructor
    · intro h
      -- all tables would have to be larger than the first one
      refine List.eq_nil_iff_forall_not_mem.mpr fun u hu => hlarger ⟨u, hu, ?_⟩
      exact (List.pairwise_cons.mp h).1 u hu
    · rintro rfl
      exact List.pairwise_singleton _ t

end Positions

/-! ## The child level after a compaction -/

section Child

variable {numLevels : Nat} {s : DbState} {i : Nat} {c : Compaction} {t : SortedTable}

/-- The lists of `relocate` stay as they are during the last call. -/
theorem tables_taskCalls_relocate
    (parentTables childTables : List SortedTable) (id : Nat)
    (call : Manifest × Option ManifestPanic) (next : DbState → DbState)
    (hnext : ∀ s, (next s).levels = s.levels) :
    ((relocate s c parentTables childTables id).taskCalls i call next).tables (c.level + 1) =
      childTables := by
  have hlevels : ((relocate s c parentTables childTables id).taskCalls i call next).levels =
      (relocate s c parentTables childTables id).levels := by
    obtain ⟨manifest, outcome⟩ := call
    cases outcome with
    | none =>
        exact hnext _
    | some reason =>
        rfl
  rw [DbState.tables, hlevels]
  refine (DbState.tables_setLevel _ _ _ (c.level + 1)).trans ?_
  rw [if_neg (Nat.succ_ne_self c.level), DbState.tables_setLevel, if_pos rfl]

theorem levels_abortCompaction
    (s : DbState) (i : Nat) (table : SortedTable) (next : TaskPc) :
    (abortCompaction s i table next).levels = s.levels := by
  unfold abortCompaction
  split <;> rfl

/-- A table that is no input does not have the minimum of the new table. -/
theorem Ready.min_ne
    (h : Ready numLevels s.shared i c t)
    {u : SortedTable}
    (hu : u ∈ s.tables (c.level + 1))
    (hnot : u ∉ c.children) :
    u.getMin ≠ t.getMin := by
  intro heq
  have hmin : u.minKey = t.minKey := heq
  refine h.apart hu hnot ⟨?_, ?_⟩
  · rw [← hmin]
    exact u.min_le_max
  · rw [hmin]
    exact t.min_le_max

/-- The child level has the old tables without the merged ones, and the new one. -/
theorem Installs.perm_filter
    {s' : DbState}
    (h : Installs numLevels s s' i c t) :
    (s'.tables (c.level + 1)).Perm (t :: (s.tables (c.level + 1)).filter (· ∉ c.children)) := by
  obtain ⟨rest, hsub, hmem, hperm⟩ := h.installed.children
  have hnodup : (s.tables (c.level + 1)).Nodup :=
    List.Nodup.of_map _ (h.ready.inv.tables.nodup (c.level + 1))
  refine hperm.trans (List.Perm.cons t ?_)
  refine (List.perm_ext_iff_of_nodup (hnodup.sublist hsub) (hnodup.filter _)).mpr fun u => ?_
  rw [hmem, List.mem_filter, decide_eq_true_iff]
  rfl

/-- Nobody reads the levels of an installation. -/
theorem Installs.isRead_eq_false
    {s' : DbState}
    (h : Installs numLevels s s' i c t) :
    (s.isRead c.level || s.isRead (c.level + 1)) = false := by
  refine Bool.or_eq_false_iff.mpr ⟨List.any_eq_false.mpr ?_, List.any_eq_false.mpr ?_⟩
  · intro pc hpc
    rw [(h.ready.unread pc hpc).1]
    exact Bool.false_ne_true
  · intro pc hpc
    rw [(h.ready.unread pc hpc).2]
    exact Bool.false_ne_true

/-- A regular installation keeps the order of the child level. -/
theorem sortedByMin_installTable
    (h : Ready numLevels s.shared i c t)
    (hread : (s.isRead c.level || s.isRead (c.level + 1)) = false)
    (hsorted : SortedByMin (s.tables (c.level + 1))) :
    SortedByMin ((installTable s i c t).tables (c.level + 1)) := by
  obtain ⟨-, hsub, hmem⟩ := h.removeTables_children
  rw [installTable_eq h hread, tables_taskCalls_relocate _ _ _ _ (fun s => s.setTask i .idle)
    fun _ => rfl]
  refine sortedByMin_insertPosition (hsorted.sublist hsub) fun u hu => ?_
  obtain ⟨hu, hnot⟩ := (hmem u).mp hu
  exact h.min_ne hu hnot

/-- A move keeps the order of an empty child level, and of one with a larger table. -/
theorem sortedByMin_fastCompaction_iff
    (h : Ready numLevels s.shared i c t)
    (hparents : c.parents = [t])
    (hchildren : c.children = [])
    (hread : (s.isRead c.level || s.isRead (c.level + 1)) = false)
    (hsorted : SortedByMin (s.tables (c.level + 1))) :
    SortedByMin ((fastCompaction s i c t.getId).tables (c.level + 1)) ↔
      s.tables (c.level + 1) = [] ∨ HasLarger (s.tables (c.level + 1)) t := by
  rw [fastCompaction_eq h hparents hchildren hread,
    tables_taskCalls_relocate _ _ _ _ (fun s => abortCompaction s i t .idle)
      fun s => levels_abortCompaction s i t .idle]
  refine sortedByMin_fastInsertPosition_iff hsorted fun u hu => ?_
  exact h.min_ne hu (by simp [hchildren])

end Child

/-- The table a task is about to put on the child level. -/
def TaskPc.newTable : TaskPc → Option SortedTable
  | moving c _ => c.parents.head?
  | installing _ newTable => some newTable
  | _ => none

/-- A table is moved only into an empty level, or below some table of the level. -/
def DbState.movesBelow (s : DbState) : TaskPc → Bool
  | .moving c _ => (s.tables (c.level + 1)).isEmpty ||
      c.parents.any fun t => decide (HasLarger (s.tables (c.level + 1)) t)
  | _ => true

section System

variable {params : Params} {s : DbState} {i : Nat} {pc : TaskPc} {c : Compaction}

/-- One installation, in any state with the invariant of the protocol. -/
theorem OwnInv.sortedByMin_taskStep_iff
    (h : OwnInv params.numLevels s.shared)
    (hi : s.tasks[i]? = some pc)
    (hpc : pc.toInstall = some c)
    (hread : (s.isRead c.level || s.isRead (c.level + 1)) = false)
    (hsorted : SortedByMin (s.tables (c.level + 1))) :
    SortedByMin ((taskStep params s i).tables (c.level + 1)) ↔ s.movesBelow pc = true := by
  have hread' := Bool.or_eq_false_iff.mp hread
  cases pc <;> cases hpc <;> rw [taskStep, hi]
  · obtain ⟨t, hparents, hchildren, rfl, hready, -⟩ := ready_moving h hi hread'.1 hread'.2
    refine (sortedByMin_fastCompaction_iff hready hparents hchildren hread hsorted).trans ?_
    simp [DbState.movesBelow, hparents]
  · obtain ⟨hready, -⟩ := ready_installing h hi hread'.1 hread'.2
    exact iff_of_true (sortedByMin_installTable hready hread hsorted) rfl

theorem OwnInv.perm_taskStep
    (h : OwnInv params.numLevels s.shared)
    (hi : s.tasks[i]? = some pc)
    (hpc : pc.toInstall = some c)
    (hread : (s.isRead c.level || s.isRead (c.level + 1)) = false) :
    ∃ t, pc.newTable = some t ∧ ((taskStep params s i).tables (c.level + 1)).Perm
      (t :: (s.tables (c.level + 1)).filter (· ∉ c.children)) := by
  cases pc <;> cases hpc <;> rw [taskStep, hi]
  · obtain ⟨t, hinst⟩ := fastCompaction_installs h hi hread
    refine ⟨t, ?_, hinst.perm_filter⟩
    rcases hinst.source with hinstalling | hparents
    · rw [hi] at hinstalling
      cases hinstalling
    · rw [TaskPc.newTable, hparents]
      rfl
  · exact ⟨_, rfl, (installTable_installs h hi hread).perm_filter⟩

/-- The event does not move a table above all tables of a level. -/
def MovesBelow (s : DbState) : DbEvent → Prop
  | .task i => ∀ pc ∈ s.tasks[i]?, s.movesBelow pc = true
  | _ => True

instance (s : DbState) : (e : DbEvent) → Decidable (MovesBelow s e)
  | .task i => inferInstanceAs (Decidable (∀ pc ∈ s.tasks[i]?, s.movesBelow pc = true))
  | .write _ => isTrue trivial
  | .getBegin _ _ => isTrue trivial
  | .getNext _ => isTrue trivial
  | .flusher => isTrue trivial
  | .compact _ _ => isTrue trivial

/-- The protocol, with all child levels in order. -/
structure OrderInv (params : Params) (s : DbState) : Prop where
  own : OwnInv params.numLevels s.shared
  sorted : ∀ l, l ≠ 0 → SortedByMin (s.tables l)

theorem orderInv_step
    (params : Params) (s : DbState) (e : DbEvent)
    (hcond : MovesBelow s e)
    (h : OrderInv params s) :
    OrderInv params (step params s e) := by
  refine ⟨ownInv_step params s e h.own, fun l hl => ?_⟩
  rcases step_tables_cases h.own e with heq | ⟨t, heq⟩ | ⟨i, pc, c, t, rfl, hi, hpc, hinst⟩
  · rw [heq]
    exact h.sorted l hl
  · rw [heq, Function.update_of_ne hl]
    exact h.sorted l hl
  · by_cases hchild : l = c.level + 1
    · subst hchild
      exact (h.own.sortedByMin_taskStep_iff hi hpc hinst.isRead_eq_false (h.sorted _ hl)).mpr
        (hcond pc hi)
    · by_cases hparent : l = c.level
      · subst hparent
        exact (h.sorted _ hl).sublist hinst.installed.parents_sublist
      · change SortedByMin ((step params s (.task i)).shared.tables l)
        rw [hinst.installed.others l hparent hchild]
        exact h.sorted l hl

/-- In a run that moves no table above all tables of a level, the child levels are in order
in every state. -/
theorem child_levels_stay_sorted
    (params : Params) (numTasks : Nat) (events : List DbEvent)
    (h : Runs.Along (step params) MovesBelow (DbState.new params numTasks) events)
    (l : Nat) (hl : l ≠ 0) :
    SortedByMin (((DbState.new params numTasks).run params events).tables l) := by
  have hnew : OrderInv params (DbState.new params numTasks) :=
    ⟨ownInv_new params numTasks, fun _ _ => List.Pairwise.nil⟩
  exact (Runs.invariant_along (orderInv_step params) hnew h).sorted l hl

end System

/-- In every state of every run, a task that is about to put a table on a child level in the
order of its minimum keys, and that gets the locks of the two levels: the level then is in
order again, with the old tables without the merged ones and with the new one, exactly if the
task does not move a table above all tables of a level. -/
theorem child_level_sorted_iff
    (params : Params) (numTasks : Nat) (events : List DbEvent)
    {s : DbState}
    (hs : s = (DbState.new params numTasks).run params events)
    {i : Nat} {pc : TaskPc} {c : Compaction}
    (hi : s.tasks[i]? = some pc)
    (hpc : pc.toInstall = some c)
    (hread : (s.isRead c.level || s.isRead (c.level + 1)) = false)
    (hsorted : SortedByMin (s.tables (c.level + 1))) :
    (SortedByMin ((taskStep params s i).tables (c.level + 1)) ∧
      ∃ t, pc.newTable = some t ∧ ((taskStep params s i).tables (c.level + 1)).Perm
        (t :: (s.tables (c.level + 1)).filter (· ∉ c.children))) ↔
      s.movesBelow pc = true := by
  have hown : OwnInv params.numLevels s.shared := by
    rw [hs]
    exact ownInv_run params numTasks events
  rw [and_iff_left (hown.perm_taskStep hi hpc hread)]
  exact hown.sortedByMin_taskStep_iff hi hpc hread hsorted

/-- One put and all of its flush. -/
def flushPut (key value : UInt8) : List DbEvent :=
  .write [.put (ByteVec.ofList [key]) (ByteVec.ofList [value])] :: List.replicate 11 .flusher

/-- Five tables of one key each, the first of which is moved to level 1; after a sixth flush the
third table is about to be moved. -/
def secondMove (first second third fourth fifth sixth : UInt8) : List DbEvent :=
  [first, second, third, fourth, fifth].flatMap (flushPut · 1) ++
    .compact 0 0 :: List.replicate 11 (.task 0) ++ flushPut sixth 1 ++
      .compact 0 0 :: List.replicate 11 (.task 0)

/-- The second table is moved below the first. -/
theorem child_level_sorted_below :
    ∃ s pc c, s = (DbState.new smallParams 1).run smallParams (secondMove 5 4 3 2 1 6) ∧
      s.tasks[0]? = some pc ∧ pc.toInstall = some c ∧ c.level = 0 ∧
      tableIds (s.tables 1) = [1] ∧ SortedByMin ((taskStep smallParams s 0).tables 1) := by
  let s := (DbState.new smallParams 1).run smallParams (secondMove 5 4 3 2 1 6)
  have hpc : ∃ pc ∈ s.tasks[0]?, ∃ c ∈ pc.toInstall, c.level = 0 ∧
      s.movesBelow pc = true := by
    decide +kernel
  have hread : (s.isRead 0 || s.isRead 1) = false := by decide +kernel
  have hsorted : SortedByMin (s.tables 1) := by decide +kernel
  obtain ⟨pc, hi, ⟨level, parents, children⟩, hc, rfl, hbelow⟩ := hpc
  refine ⟨s, pc, _, rfl, hi, hc, rfl, by decide +kernel, ?_⟩
  exact ((child_level_sorted_iff smallParams 1 _ rfl hi hc hread hsorted).mpr hbelow).1

/-- The same run, with the second table moved. -/
theorem child_levels_stay_sorted_below :
    let events := secondMove 5 4 3 2 1 6 ++ [.task 0]
    let s := (DbState.new smallParams 1).run smallParams events
    tableIds (s.tables 1) = [3, 1] ∧ SortedByMin (s.tables 1) := by
  intro events s
  have h : Runs.Along (step smallParams) MovesBelow (DbState.new smallParams 1) events := by
    decide +kernel
  exact ⟨by decide +kernel, child_levels_stay_sorted smallParams 1 events h 1 (by decide)⟩

/-- The second table is larger than the first, and is put in front of it. -/
theorem move_above_breaks_order :
    let s := (DbState.new smallParams 1).run smallParams (secondMove 1 2 3 4 5 6)
    let s' := taskStep smallParams s 0
    s.tasks.map (fun pc => pc.newTable.map SortedTable.getId) = [some 3] ∧
      tableIds (s.tables 1) = [1] ∧ SortedByMin (s.tables 1) ∧
      tableIds (s'.tables 1) = [3, 1] ∧
      (s'.tables 1).map SortedTable.getMin = [ByteVec.ofList [3], ByteVec.ofList [1]] ∧
      ¬ SortedByMin (s'.tables 1) := by
  decide +kernel

end Logic
end LsmStore
