import LsmStore.Logic.Protocol

/-!
# What one step can change

Each kind of event touches a small part of the database.  The lemmas of this
module say which part, once and for all: a compaction task either installs a
table, or it leaves everything alone that readers, writers and the flusher look
at; readers change nothing but their own program counters and the counters of
the seek-based compaction.
-/

namespace LsmStore
namespace Logic

open KeyRange KeyedList

/-- A program counter at which the task neither has panicked nor has taken an identifier for a
table that is on no level yet. -/
def TaskPc.isPlain : TaskPc → Bool
  | merging _ _ => false
  | installing _ _ => false
  | panicked _ => false
  | _ => true

/-- Nothing that readers, writers and the flusher share has changed, and no task has
panicked.  A task may have taken the next identifier, or written the table it is going to
install. -/
structure Unnoticed (s s' : DbState) : Prop where
  tables : s'.tables = s.tables
  memtable : s'.memtable = s.memtable
  immMemtables : s'.immMemtables = s.immMemtables
  flusher : s'.flusher = s.flusher
  batches : s'.batches = s.batches
  logFlushPos : s'.logFlushPos = s.logFlushPos
  removedPages : s'.removedPages = s.removedPages
  manifestLevels : s'.manifest.levels = s.manifest.levels
  numLevels : s'.manifest.numLevels = s.manifest.numLevels
  seqNumberOffset : s'.manifest.seqNumberOffset = s.manifest.seqNumberOffset
  logOffset : s'.manifest.logOffset = s.manifest.logOffset
  nextTableId : s.manifest.nextTableId ≤ s'.manifest.nextTableId
  tasks : (s'.tableFiles = s.tableFiles ∧
      ∀ (j : Nat) pc, s'.tasks[j]? = some pc → pc.isPlain = false →
        s.tasks[j]? = some pc ∨ ∃ c, pc = .merging c s.manifest.nextTableId) ∨
    ∃ i c t, s.tasks[i]? = some (.merging c t.getId) ∧
      s'.tasks = s.tasks.set i (.installing c t) ∧
      s'.tableFiles = Function.update s.tableFiles t.getId (some t)

theorem Unnoticed.refl
    (s : DbState) :
    Unnoticed s s :=
  ⟨rfl, rfl, rfl, rfl, rfl, rfl, rfl, rfl, rfl, rfl, rfl, le_refl _,
    Or.inl ⟨rfl, fun _ _ h _ => Or.inl h⟩⟩

/-- A task that has not moved to a plain program counter has not moved. -/
theorem of_set_plain
    {tasks : List TaskPc} {i j : Nat} {pc pc' : TaskPc}
    (hpc : pc.isPlain = true)
    (h : (tasks.set i pc)[j]? = some pc')
    (hpc' : pc'.isPlain = false) :
    tasks[j]? = some pc' := by
  rcases getElem?_set_cases h with ⟨-, rfl⟩ | ⟨-, hold⟩
  · rw [hpc] at hpc'
    cases hpc'
  · exact hold

/-- A step nobody notices is not a panic. -/
theorem Unnoticed.panics
    {s s' : DbState}
    (h : Unnoticed s s')
    {j : Nat} {reason : TaskPanic}
    (hj : s'.tasks[j]? = some (.panicked reason)) :
    s.tasks[j]? = some (.panicked reason) := by
  rcases h.tasks with ⟨-, hold⟩ | ⟨i, c, t, -, htasks, -⟩
  · exact (hold j _ hj rfl).resolve_right nofun
  · rw [htasks] at hj
    rcases getElem?_set_cases hj with ⟨-, heq⟩ | ⟨-, hold⟩
    · cases heq
    · exact hold

theorem unnoticed_setGet
    (s : DbState) (client : Nat) (pc : GetPc) :
    Unnoticed s (s.setGet client pc) :=
  ⟨rfl, rfl, rfl, rfl, rfl, rfl, rfl, rfl, rfl, rfl, rfl, le_refl _,
    Or.inl ⟨rfl, fun _ _ h _ => Or.inl h⟩⟩

/-! ## The steps of a task -/

/-- The identifiers of the tables a task holds. -/
def TaskPc.heldIds (pc : TaskPc) : List Nat :=
  tableIds pc.held.inputs

/-- A task that gives its parents back holds no children. -/
def TaskPc.Childless : TaskPc → Prop
  | abortingPick c => c.children = []
  | abortingParents c => c.children = []
  | _ => True

/-- A flag that is set after a step of a task is set on a table the task holds then, or it
was set before and not by this task. -/
def Accounts (flag flag' : Nat → Bool) (pc pc' : TaskPc) : Prop :=
  ∀ id, flag' id = true → id ∈ pc'.heldIds ∨ (flag id = true ∧ id ∉ pc.heldIds)

section Works

variable {params : Params} {s s' : DbState} {i : Nat} {flag : Nat → Bool} {pc pc' : TaskPc}

theorem Accounts.same
    (h : pc.held.inputs ⊆ pc'.held.inputs) :
    Accounts flag flag pc pc' := by
  intro id hid
  by_cases hheld : id ∈ pc.heldIds
  · exact Or.inl (List.map_subset _ h hheld)
  · exact Or.inr ⟨hid, hheld⟩

theorem Accounts.take
    {table : SortedTable}
    (h : pc.held.inputs ⊆ pc'.held.inputs)
    (htable : table ∈ pc'.held.inputs) :
    Accounts flag (Function.update flag table.getId true) pc pc' := by
  intro id hid
  by_cases heq : id = table.getId
  · exact Or.inl (heq ▸ List.mem_map_of_mem htable)
  · rw [Function.update_of_ne heq] at hid
    exact Accounts.same h id hid

theorem Accounts.give
    {table : SortedTable}
    (h : pc.held.inputs ⊆ table :: pc'.held.inputs) :
    Accounts flag (Function.update flag table.getId false) pc pc' := by
  intro id hid
  by_cases heq : id = table.getId
  · rw [heq, Function.update_self] at hid
    cases hid
  · rw [Function.update_of_ne heq] at hid
    by_cases hheld : id ∈ pc.heldIds
    · exact Or.inl ((List.mem_cons.mp (List.map_subset _ h hheld)).resolve_left heq)
    · exact Or.inr ⟨hid, hheld⟩

/-- A step of task `i` that installs nothing.  Flags are accounted for, an identifier is
reserved before it is used, and only the start of a compaction answers a request. -/
structure Works (s s' : DbState) (i : Nat) (pc pc' : TaskPc) : Prop extends Unnoticed s s' where
  gets : s'.gets = s.gets
  moved : s'.tasks = s.tasks.set i pc'
  flags : pc.Childless → Accounts s.compactionFlag s'.compactionFlag pc pc'
  reserved : ∀ id, pc'.reserved = some id →
    pc.reserved = some id ∨ s.manifest.nextTableId ≤ id
  childless : pc.Childless → pc'.Childless
  requests : pc ≠ .idle → ∀ l,
    (s'.levels l).seekBasedCompaction = (s.levels l).seekBasedCompaction

theorem reserved_of_isPlain
    (h : pc.isPlain = true) :
    pc.reserved = none := by
  cases pc <;> first | rfl | cases h

theorem Works.stay
    (hi : s.tasks[i]? = some pc) :
    Works s s i pc pc where
  toUnnoticed := Unnoticed.refl s
  gets := rfl
  moved := by
    obtain ⟨hlt, rfl⟩ := List.getElem?_eq_some_iff.mp hi
    exact (List.set_getElem_self hlt).symm
  flags := fun _ => Accounts.same (List.Subset.refl _)
  reserved := fun _ => Or.inl
  childless := id
  requests := fun _ _ => rfl

theorem Works.setTask
    (hplain : pc'.isPlain = true)
    (hheld : pc.Childless → pc.held.inputs ⊆ pc'.held.inputs)
    (hchildless : pc.Childless → pc'.Childless) :
    Works s (s.setTask i pc') i pc pc' where
  toUnnoticed := ⟨rfl, rfl, rfl, rfl, rfl, rfl, rfl, rfl, rfl, rfl, rfl, le_refl _,
    Or.inl ⟨rfl, fun _ _ h hnot => Or.inl (of_set_plain hplain h hnot)⟩⟩
  gets := rfl
  moved := rfl
  flags := fun h => Accounts.same (hheld h)
  reserved := by simp [reserved_of_isPlain hplain]
  childless := hchildless
  requests := fun _ _ => rfl

theorem Works.setFlag
    {id : Nat} {value : Bool}
    (hplain : pc'.isPlain = true)
    (hflags : Accounts s.compactionFlag (Function.update s.compactionFlag id value) pc pc')
    (hchildless : pc.Childless → pc'.Childless) :
    Works s ((s.setFlag id value).setTask i pc') i pc pc' where
  toUnnoticed := ⟨rfl, rfl, rfl, rfl, rfl, rfl, rfl, rfl, rfl, rfl, rfl, le_refl _,
    Or.inl ⟨rfl, fun _ _ h hnot => Or.inl (of_set_plain hplain h hnot)⟩⟩
  gets := rfl
  moved := rfl
  flags := fun _ => hflags
  reserved := by simp [reserved_of_isPlain hplain]
  childless := hchildless
  requests := fun _ _ => rfl

theorem Works.give
    {table : SortedTable}
    (hflag : s.compactionFlag table.getId = true)
    (hplain : pc'.isPlain = true)
    (hheld : pc.held.inputs ⊆ table :: pc'.held.inputs)
    (hchildless : pc.Childless → pc'.Childless) :
    Works s (abortCompaction s i table pc') i pc pc' := by
  rw [abortCompaction, if_pos hflag]
  exact Works.setFlag hplain (Accounts.give hheld) hchildless

theorem Works.take
    {table : SortedTable}
    (hplain : pc'.isPlain = true)
    (hheld : pc.held.inputs ⊆ pc'.held.inputs)
    (htable : table ∈ pc'.held.inputs)
    (hchildless : pc'.Childless) :
    Works s ((s.setFlag table.getId true).setTask i pc') i pc pc' :=
  Works.setFlag hplain (Accounts.take hheld htable) fun _ => hchildless

theorem works_placePlaceholder
    {c : Compaction} {min max : Key} :
    ∃ pc', Works s (placePlaceholder s i c min max) i (.placing c min max) pc' := by
  let place (id : Nat) : DbState := s.setLevel (c.level + 1) { s.levels (c.level + 1) with
    tablePlaceholders := (s.levels (c.level + 1)).tablePlaceholders ++ [⟨min, max, id⟩] }
  have hplace : ∀ id, (place id).tables = s.tables ∧ ∀ l,
      ((place id).levels l).seekBasedCompaction = (s.levels l).seekBasedCompaction := by
    intro id
    have hlevel : ∀ l, ((place id).levels l).tables = (s.levels l).tables ∧
        ((place id).levels l).seekBasedCompaction = (s.levels l).seekBasedCompaction := by
      intro l
      simp only [place, DbState.setLevel, Function.update_apply]
      split_ifs with hl
      · rw [hl]
        exact ⟨rfl, rfl⟩
      · exact ⟨rfl, rfl⟩
    exact ⟨funext fun l => (hlevel l).1, fun l => (hlevel l).2⟩
  have hsame : ∀ pc', pc'.held = c →
      Accounts s.compactionFlag s.compactionFlag (.placing c min max) pc' := by
    intro pc' hheld
    exact Accounts.same (hheld ▸ List.Subset.refl _)
  rw [placePlaceholder_eq]
  dsimp only
  split_ifs
  · exact ⟨_, Works.setTask rfl (fun _ => List.Subset.refl _) id⟩
  · split
    · exact ⟨_, ⟨(hplace _).1, rfl, rfl, rfl, rfl, rfl, rfl, rfl, rfl, rfl, rfl, le_refl _,
        Or.inl ⟨rfl, fun _ _ h hnot => Or.inl (of_set_plain rfl h hnot)⟩⟩, rfl, rfl,
        fun _ => hsame _ rfl, by simp [TaskPc.reserved], fun _ => trivial,
        fun _ => (hplace _).2⟩
    · refine ⟨_, ⟨(hplace _).1, rfl, rfl, rfl, rfl, rfl, rfl, rfl, rfl, rfl, rfl,
        Nat.le_succ _, Or.inl ⟨rfl, fun j pc h _ => ?_⟩⟩, rfl, rfl, fun _ => hsame _ rfl,
        fun id hid => Or.inr (le_of_eq (Option.some.inj hid)), fun _ => trivial,
        fun _ => (hplace _).2⟩
      rcases getElem?_set_cases h with ⟨-, rfl⟩ | ⟨-, hold⟩
      · exact Or.inr ⟨c, rfl⟩
      · exact Or.inl hold

theorem works_mergeTables
    {tableId : Nat} {c : Compaction}
    (h : OwnInv params.numLevels s.shared)
    (hi : s.tasks[i]? = some (.merging c tableId)) :
    ∃ pc', Works s (mergeTables params s i c tableId) i (.merging c tableId) pc' := by
  have hne : c.parents ++ c.children ≠ [] := by
    intro hnil
    exact ((h.tasks i _ hi).closed rfl).nonempty (List.append_eq_nil_iff.mp hnil).1
  rw [mergeTables, dif_pos hne]
  exact ⟨_, ⟨rfl, rfl, rfl, rfl, rfl, rfl, rfl, rfl, rfl, rfl, rfl, le_refl _,
    Or.inr ⟨i, c, SortedTable.merged params tableId _ hne, hi, rfl, rfl⟩⟩, rfl, rfl,
    fun _ => Accounts.same (List.Subset.refl _), fun _ => Or.inl, fun _ => trivial,
    fun _ _ => rfl⟩

/-- The steps of a task but the one that installs. -/
theorem taskStep_works
    (h : OwnInv params.numLevels s.shared)
    (hi : s.tasks[i]? = some pc)
    (hpc : pc.toInstall = none) :
    ∃ pc', Works s (taskStep params s i) i pc pc' := by
  have hok := h.tasks i pc hi
  -- what the task holds is flagged, so giving it back does not panic
  have hflagged : ∀ t ∈ pc.held.inputs, s.compactionFlag t.getId = true := hok.claim.flagged
  cases pc with
  | idle | panicked =>
      simp only [taskStep, hi]
      exact ⟨_, Works.stay hi⟩
  | chosen level table offset =>
      simp only [taskStep, hi, flagChosen]
      split_ifs
      · exact ⟨_, Works.setTask rfl (fun _ => List.nil_subset _) id⟩
      · exact ⟨_, Works.take rfl (List.nil_subset _) List.mem_cons_self trivial⟩
      · exact ⟨_, Works.take rfl (List.nil_subset _) List.mem_cons_self trivial⟩
  | closing c offsets pos min max =>
      obtain ⟨-, hchildren, -⟩ := hok.phase
      simp only [taskStep, hi, closeOverlaps]
      split
      · exact ⟨_, Works.setTask rfl (fun _ => List.Subset.refl _) id⟩
      · split_ifs
        · exact ⟨_, Works.setTask rfl (fun _ => List.Subset.refl _) id⟩
        · exact ⟨_, Works.setTask rfl (fun _ => List.Subset.refl _) fun _ => hchildren⟩
        · refine ⟨_, Works.take rfl ?_ ?_ trivial⟩
          · intro t ht
            simp only [TaskPc.held, Compaction.inputs, List.mem_append] at ht ⊢
            tauto
          · simp [TaskPc.held, Compaction.inputs]
        · exact ⟨_, Works.setTask rfl (fun _ => List.Subset.refl _) id⟩
  | picked c =>
      have hne := (hok.closed rfl).nonempty
      have hfalse : c.parents.isEmpty = false := List.isEmpty_eq_false_iff.mpr hne
      refine ⟨.scanning c 0 (hullMin c.parents) (hullMax c.parents), ?_⟩
      simp only [taskStep, hi, hfalse]
      exact Works.setTask rfl (fun _ => List.Subset.refl _) id
  | scanning c pos min max =>
      simp only [taskStep, hi, scanOverlaps]
      split
      · exact ⟨_, Works.setTask rfl (fun _ => List.Subset.refl _) id⟩
      · split_ifs
        · exact ⟨_, Works.setTask rfl (fun _ => List.Subset.refl _) id⟩
        · refine ⟨_, Works.take rfl ?_ ?_ trivial⟩
          · intro t ht
            simp only [TaskPc.held, Compaction.inputs, List.mem_append] at ht ⊢
            tauto
          · simp [TaskPc.held, Compaction.inputs]
        · exact ⟨_, Works.setTask rfl (fun _ => List.Subset.refl _) id⟩
  | placing c min max =>
      simp only [taskStep, hi]
      exact works_placePlaceholder
  | abortingOverlaps c =>
      simp only [taskStep, hi]
      cases hchildren : c.children with
      | nil =>
          exact ⟨_, Works.setTask rfl (fun _ => List.Subset.refl _) fun _ => hchildren⟩
      | cons table rest =>
          refine ⟨_, Works.give (hflagged table ?_) rfl ?_ id⟩
          · simp [TaskPc.held, Compaction.inputs, hchildren]
          · intro t ht
            simp only [TaskPc.held, Compaction.inputs, hchildren, List.mem_append,
              List.mem_cons] at ht ⊢
            tauto
  | abortingPick c | abortingParents c =>
      simp only [taskStep, hi]
      cases hparents : c.parents with
      | nil =>
          refine ⟨_, Works.setTask rfl (fun hchildren => ?_) fun _ => trivial⟩
          have hnil : c.children = [] := hchildren
          simp [TaskPc.held, Compaction.inputs, hparents, hnil]
      | cons table rest =>
          refine ⟨_, Works.give (hflagged table ?_) rfl ?_ id⟩
          · simp [TaskPc.held, Compaction.inputs, hparents]
          · simp [TaskPc.held, Compaction.inputs, hparents]
  | moving | installing =>
      cases hpc
  | merging c tableId =>
      simp only [taskStep, hi]
      exact works_mergeTables h hi

/-- A step of task `i` that nobody notices. -/
structure TaskFrame (i : Nat) (s s' : DbState) : Prop extends Unnoticed s s' where
  gets : s'.gets = s.gets
  others : ∀ j, j ≠ i → s'.tasks[j]? = s.tasks[j]?
  requests : ∀ l, (s'.levels l).seekBasedCompaction = (s.levels l).seekBasedCompaction

theorem TaskFrame.refl
    (i : Nat) (s : DbState) :
    TaskFrame i s s :=
  ⟨Unnoticed.refl s, rfl, fun _ _ => rfl, fun _ => rfl⟩

end Works

section Frames

variable {params : Params} {s : DbState}

/-- A compaction task installs a table, or nobody notices its step. -/
theorem taskStep_cases
    (h : OwnInv params.numLevels s.shared)
    (i : Nat) :
    TaskFrame i s (taskStep params s i) ∨
      ∃ pc c t, s.tasks[i]? = some pc ∧ pc.toInstall = some c ∧
        Installs params.numLevels s (taskStep params s i) i c t := by
  cases hi : s.tasks[i]? with
  | none =>
      simpa only [taskStep, hi] using Or.inl (TaskFrame.refl i s)
  | some pc =>
      by_cases hidle : pc = .idle
      · subst hidle
        simpa only [taskStep, hi] using Or.inl (TaskFrame.refl i s)
      cases hc : pc.toInstall with
      | none =>
          obtain ⟨pc', hworks⟩ := taskStep_works h hi hc
          refine Or.inl ⟨hworks.toUnnoticed, hworks.gets, fun j hj => ?_, hworks.requests hidle⟩
          rw [hworks.moved]
          exact List.getElem?_set_ne (Ne.symm hj)
      | some c =>
          cases hread : s.isRead c.level || s.isRead (c.level + 1) with
          | true =>
              rw [taskStep_waits params hi hc hread]
              exact Or.inl (TaskFrame.refl i s)
          | false =>
              obtain ⟨t, hinst⟩ := taskStep_installs params h hi hc hread
              exact Or.inr ⟨pc, c, t, rfl, hc, hinst⟩

/-- The start of a compaction. -/
theorem startCompaction_works
    {i : Nat}
    (params : Params)
    (hi : s.tasks[i]? = some .idle)
    (level : Nat) :
    ∃ pc', Works s (startCompaction params s i level) i .idle pc' := by
  unfold startCompaction
  split_ifs
  · obtain ⟨htables, hplaceholders⟩ := (s.levels level).choose_frame level
    have hlevel : (s.setLevel level ((s.levels level).choose level).1).tables = s.tables :=
      congrArg Shared.tables (shared_setLevel htables hplaceholders)
    have hne := (s.levels level).choose_ne_emptyLevel level
    dsimp only
    split
    · exact ⟨.idle, ⟨hlevel, rfl, rfl, rfl, rfl, rfl, rfl, rfl, rfl, rfl, rfl, le_refl _,
        Or.inl ⟨rfl, fun _ _ h _ => Or.inl h⟩⟩, rfl, (Works.stay hi).moved,
        fun _ => Accounts.same (List.Subset.refl _), fun _ => Or.inl, id,
        fun h => absurd rfl h⟩
    · rename_i hempty
      exact absurd hempty hne
    · exact ⟨_, ⟨hlevel, rfl, rfl, rfl, rfl, rfl, rfl, rfl, rfl, rfl, rfl, le_refl _,
        Or.inl ⟨rfl, fun _ _ h hnot => Or.inl (of_set_plain rfl h hnot)⟩⟩, rfl, rfl,
        fun _ => Accounts.same (List.nil_subset _), by simp [TaskPc.reserved],
        fun _ => trivial, fun h => absurd rfl h⟩
  · exact ⟨_, Works.stay hi⟩

theorem unnoticed_startCompaction
    (params : Params) (s : DbState) (i level : Nat) :
    Unnoticed s (startCompaction params s i level) := by
  by_cases hi : s.tasks[i]? = some .idle
  · obtain ⟨_, hworks⟩ := startCompaction_works params hi level
    exact hworks.toUnnoticed
  · rw [startCompaction, if_neg fun hcond => hi hcond.1]
    exact Unnoticed.refl s

theorem unnoticed_getBegin
    (s : DbState) (client : Nat) (key : Key) :
    Unnoticed s (getBegin s client key) := by
  unfold getBegin
  dsimp only
  split <;> exact unnoticed_setGet s client _

theorem unnoticed_getNext
    (params : Params) (s : DbState) (client : Nat) :
    Unnoticed s (getNext params s client) := by
  have htables := congrArg Shared.tables (shared_getNext params s client)
  unfold getNext at htables ⊢
  split at htables
  · exact Unnoticed.refl s
  · split <;> exact unnoticed_setGet s client _
  · unfold getLevel at htables ⊢
    dsimp only at htables ⊢
    split at htables
    · exact ⟨htables, rfl, rfl, rfl, rfl, rfl, rfl, rfl, rfl, rfl, rfl, le_refl _,
          Or.inl ⟨rfl, fun _ _ h _ => Or.inl h⟩⟩
    · split_ifs at htables ⊢ <;>
        exact ⟨htables, rfl, rfl, rfl, rfl, rfl, rfl, rfl, rfl, rfl, rfl, le_refl _,
          Or.inl ⟨rfl, fun _ _ h _ => Or.inl h⟩⟩
  · exact Unnoticed.refl s

/-- Without a merge no task gets to the installation of a table. -/
theorem taskStep_installing
    {i j : Nat} {c : Compaction} {t : SortedTable}
    (h : OwnInv params.numLevels s.shared)
    (hi : ∀ c tableId, s.tasks[i]? ≠ some (.merging c tableId))
    (hj : (taskStep params s i).tasks[j]? = some (.installing c t)) :
    s.tasks[j]? = some (.installing c t) := by
  rcases taskStep_cases h i with hframe | ⟨pc, c', t', -, -, hinst⟩
  · rcases hframe.tasks with ⟨-, hold⟩ | ⟨k, c', t', hk, htasks, -⟩
    · exact (hold j _ hj rfl).resolve_right nofun
    · -- only the task itself has moved, and it does not merge
      have hki : k ≠ i := by
        rintro rfl
        exact hi _ _ hk
      have hsame := (hframe.others k hki).trans hk
      have hlt : k < s.tasks.length := (List.getElem?_eq_some_iff.mp hk).1
      rw [htasks, List.getElem?_set_self hlt] at hsame
      cases hsame
  · have htasks : (taskStep params s i).tasks = _ := hinst.installed.tasks
    rw [htasks] at hj
    rcases getElem?_set_cases hj with ⟨-, heq⟩ | ⟨-, hold⟩
    · exact absurd heq.symm (afterUpdate_ne_installing _ c t)
    · exact hold

/-- A compaction that starts does not install a table. -/
theorem startCompaction_installing
    {i j level : Nat} {c : Compaction} {t : SortedTable}
    (hj : (startCompaction params s i level).tasks[j]? = some (.installing c t)) :
    s.tasks[j]? = some (.installing c t) := by
  unfold startCompaction at hj
  split_ifs at hj
  · dsimp only at hj
    split at hj
    · exact hj
    · rcases getElem?_set_cases hj with ⟨-, heq⟩ | ⟨-, hold⟩
      · cases heq
      · exact hold
    · exact of_set_plain rfl hj rfl
  · exact hj

/-- What an event does to the database: somebody writes, the flusher works, a task installs a
table, or nobody notices. -/
inductive DbStep (params : Params) (s : DbState) : DbEvent → DbState → Prop
  | write (batch : List WriteOp) : DbStep params s (.write batch) (writeOpts params s batch)
  | flusher : DbStep params s .flusher (doMemtableCompaction params s)
  | installs {i : Nat} {pc : TaskPc} {c : Compaction} {t : SortedTable} {s' : DbState}
      (hi : s.tasks[i]? = some pc) (hpc : pc.toInstall = some c)
      (hinst : Installs params.numLevels s s' i c t) :
      DbStep params s (.task i) s'
  | unnoticed {e : DbEvent} {s' : DbState} (hframe : Unnoticed s s') : DbStep params s e s'

theorem dbStep_step
    (h : OwnInv params.numLevels s.shared)
    (e : DbEvent) :
    DbStep params s e (step params s e) := by
  cases e with
  | write batch =>
      exact .write batch
  | getBegin client key =>
      exact .unnoticed (unnoticed_getBegin s client key)
  | getNext client =>
      exact .unnoticed (unnoticed_getNext params s client)
  | flusher =>
      exact .flusher
  | compact i level =>
      exact .unnoticed (unnoticed_startCompaction params s i level)
  | task i =>
      rcases taskStep_cases h i with hframe | ⟨pc, c, t, hi, hpc, hinst⟩
      · exact .unnoticed hframe.toUnnoticed
      · exact .installs hi hpc hinst

/-- What an event does to the table lists: nothing, or a flushed table is published on level 0,
or a task installs a table. -/
theorem step_tables_cases
    (h : OwnInv params.numLevels s.shared)
    (e : DbEvent) :
    (step params s e).tables = s.tables ∨
      (∃ t, (step params s e).tables = Function.update s.tables 0 (s.tables 0 ++ [t])) ∨
      ∃ i pc c t, e = .task i ∧ s.tasks[i]? = some pc ∧ pc.toInstall = some c ∧
        Installs params.numLevels s (step params s e) i c t := by
  have hstep := dbStep_step h e
  generalize step params s e = s' at hstep
  cases hstep with
  | write batch =>
      exact Or.inl (congrArg Shared.tables (shared_writeOpts params s batch))
  | flusher =>
      rcases (flusherStep_doMemtableCompaction params s).shared_cases with
        heq | heq | ⟨t, -, -, heq⟩ | heq
      · exact Or.inl (congrArg Shared.tables heq)
      · exact Or.inl (congrArg Shared.tables heq)
      · exact Or.inr (Or.inl ⟨t, congrArg Shared.tables heq⟩)
      · exact Or.inl (congrArg Shared.tables heq)
  | @installs i pc c t _ hi hpc hinst =>
      exact Or.inr (Or.inr ⟨i, pc, c, t, rfl, hi, hpc, hinst⟩)
  | unnoticed hframe =>
      exact Or.inl hframe.tables

end Frames

end Logic
end LsmStore
