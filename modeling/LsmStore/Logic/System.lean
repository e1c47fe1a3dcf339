import LsmStore.Lib.Runs
import LsmStore.Level
import LsmStore.Manifest
import LsmStore.Wal.Format

/-!
# The database under concurrent tasks

The state of `DbLogic` while writers, readers, the flusher task and any number
of compaction tasks run at the same time.  Each task is a program counter; one
event moves one of them, and an event whose locks are not available leaves the
state unchanged.

The steps are cut where the source gives up a lock or touches something other
tasks touch without it: every compare-and-swap on a compaction flag, every
update of the manifest and every removal of a log page is a step of its own.
A write batch holds the memtable lock until its rotation is done, and the two
table lists a compaction installs stay write-locked until the manifest is
updated, so each of these is one step.
-/

namespace LsmStore
namespace Logic

open Wal

/-- The tables whose compaction flag a compaction of `level` has set: tables of the level,
and tables of the level below. -/
structure Compaction where
  level : Nat
  parents : List SortedTable
  children : List SortedTable
deriving DecidableEq

/-- Why a compaction task panicked. -/
inductive TaskPanic where
  | levelEmpty (index : Nat)
  | flagNotSet
  | noParents
  | idMismatch (left right : Nat)
  | tableNotFound
  | parentNotFound
  | noSuchPlaceholder
  | manifest (reason : ManifestPanic)
deriving DecidableEq

def TaskPanic.message : TaskPanic → String
  | levelEmpty index => s!"Cannot start compaction; level {index} is empty"
  | flagNotSet => "Compaction flag was not set!"
  | noParents => "assertion failed: !parent_tbls_to_compact.is_empty()"
  | idMismatch left right =>
      s!"assertion `left == right` failed\n  left: {left}\n right: {right}"
  | tableNotFound => "assertion failed: found"
  | parentNotFound => "Entry for parent table not found"
  | noSuchPlaceholder => "no such placeholder"
  | manifest reason => reason.message

/-- Where a compaction task is in `compact_level`. -/
inductive TaskPc where
  | idle
  /-- `maybe_start_compaction` chose a table and is about to set its flag. -/
  | chosen (level : Nat) (table : SortedTable) (offset : Nat)
  /-- The loop that collects the overlapping tables of level 0. -/
  | closing (c : Compaction) (offsets : List Nat) (pos : Nat) (min max : Key)
  /-- Lock contention in that loop: the flags are given back. -/
  | abortingPick (c : Compaction)
  /-- `maybe_start_compaction` has returned. -/
  | picked (c : Compaction)
  /-- The loop of `get_overlaps` over the tables of the child level. -/
  | scanning (c : Compaction) (pos : Nat) (min max : Key)
  /-- `get_overlaps` is about to lock the placeholders. -/
  | placing (c : Compaction) (min max : Key)
  | abortingOverlaps (c : Compaction)
  | abortingParents (c : Compaction)
  /-- `fast_compaction`, before it has both table lists. -/
  | moving (c : Compaction) (tableId : Nat)
  | merging (c : Compaction) (tableId : Nat)
  /-- The merged table is written; both table lists are about to be locked. -/
  | installing (c : Compaction) (newTable : SortedTable)
  | panicked (reason : TaskPanic)
deriving DecidableEq

/-- The read locks on table lists that a task holds between two of its steps. -/
def TaskPc.reads (level : Nat) : TaskPc → Bool
  | chosen l _ _ => l == level
  | closing c _ _ _ _ => c.level == level
  | abortingPick c => c.level == level
  | scanning c _ _ _ => c.level + 1 == level
  | placing c _ _ => c.level + 1 == level
  | abortingOverlaps c => c.level + 1 == level
  | _ => false

/-- Why the flusher panicked. -/
inductive FlusherPanic where
  | memtableEmpty
  | logOffsetDecreased (requested current : Nat)
  | nothingToPop
  | manifest (reason : ManifestPanic)
deriving DecidableEq

def FlusherPanic.message : FlusherPanic → String
  | memtableEmpty => "Memtable is empty"
  | logOffsetDecreased requested current =>
      s!"Offset can only be increased! Requested {requested}, but was {current}"
  | nothingToPop => "assertion failed: entry.is_some()"
  | manifest reason => reason.message

/-- Where the flusher is in `do_memtable_compaction`. -/
inductive FlusherPc where
  | idle
  | building (logOffset : Nat) (mem : Memtable)
  | writing (logOffset : Nat) (mem : Memtable) (tableId : Nat)
  | adding (logOffset : Nat) (mem : Memtable) (table : SortedTable)
  | settingSeqNumber (logOffset : Nat) (mem : Memtable) (tableId : Nat)
  | registering (logOffset : Nat) (tableId : Nat)
  | settingOffset (logOffset : Nat)
  /-- The log writer removes the pages from `fpos` up to `newFilePos`. -/
  | truncating (logOffset fpos newFilePos : Nat)
  | settingLogOffset (logOffset : Nat)
  | popping
  | panicked (reason : FlusherPanic)
deriving DecidableEq

/-- Where a reader is in `get`.  `start` and `finish` are the numbers of write batches that
were complete at its first and at its last read. -/
inductive GetPc where
  | idle
  | readingImm (key : Key) (start : Nat)
  | readingLevel (key : Key) (start level : Nat) (compactionTriggered : Bool)
  | done (key : Key) (start finish : Nat) (compactionTriggered : Bool) (result : Option Value)
deriving DecidableEq

/-- The state of the database.  `batches` is the history of write batches, oldest first; the
log holds their encodings one after the other.  `tableFiles` are the tables on disk. -/
structure DbState where
  memtable : Memtable
  immMemtables : List (Nat × Memtable)
  levels : Nat → Level
  manifest : Manifest
  compactionFlag : Nat → Bool
  allowedSeeks : Nat → Int32
  tableFiles : Nat → Option SortedTable
  logFlushPos : Nat
  removedPages : List Nat
  flusher : FlusherPc
  tasks : List TaskPc
  gets : Nat → GetPc
  batches : List (List WriteOp)

/-- One step of one of the tasks. -/
inductive DbEvent where
  /-- A client writes a batch. -/
  | write (batch : List WriteOp)
  /-- Reader `client` starts to look up `key`. -/
  | getBegin (client : Nat) (key : Key)
  | getNext (client : Nat)
  | flusher
  /-- Compaction task `i` starts to compact `level`. -/
  | compact (i level : Nat)
  | task (i : Nat)
deriving DecidableEq

namespace DbState

/-- An empty database with `numTasks` compaction tasks. -/
def new (params : Params) (numTasks : Nat) : DbState where
  memtable := Memtable.new 1
  immMemtables := []
  levels := fun _ => Level.new
  manifest := Manifest.new params
  compactionFlag := fun _ => false
  allowedSeeks := fun _ => 0
  tableFiles := fun _ => none
  logFlushPos := 0
  removedPages := []
  flusher := .idle
  tasks := List.replicate numTasks .idle
  gets := fun _ => .idle
  batches := []

/-- The tables of a level. -/
def tables (s : DbState) (level : Nat) : List SortedTable :=
  (s.levels level).tables

def placeholders (s : DbState) (level : Nat) : List TablePlaceholder :=
  (s.levels level).tablePlaceholders

/-- Whether a compaction task reads the table list of a level. -/
def isRead (s : DbState) (level : Nat) : Bool :=
  s.tasks.any (TaskPc.reads level)

def setLevel (s : DbState) (level : Nat) (value : Level) : DbState :=
  { s with levels := Function.update s.levels level value }

theorem tables_setLevel
    (s : DbState) (level : Nat) (value : Level) (l : Nat) :
    (s.setLevel level value).tables l = if l = level then value.tables else s.tables l := by
  by_cases hl : l = level
  · subst hl
    simp [tables, setLevel]
  · simp [tables, setLevel, hl]

theorem placeholders_setLevel
    (s : DbState) (level : Nat) (value : Level) (l : Nat) :
    (s.setLevel level value).placeholders l =
      if l = level then value.tablePlaceholders else s.placeholders l := by
  by_cases hl : l = level
  · subst hl
    simp [placeholders, setLevel]
  · simp [placeholders, setLevel, hl]

def setFlag (s : DbState) (id : Nat) (value : Bool) : DbState :=
  { s with compactionFlag := Function.update s.compactionFlag id value }

def setTask (s : DbState) (i : Nat) (pc : TaskPc) : DbState :=
  { s with tasks := s.tasks.set i pc }

def setGet (s : DbState) (client : Nat) (pc : GetPc) : DbState :=
  { s with gets := Function.update s.gets client pc }

/-- A finished table reaches the disk. -/
def writeTable (params : Params) (s : DbState) (table : SortedTable) : DbState :=
  { s with
    tableFiles := Function.update s.tableFiles table.getId (some table)
    allowedSeeks := Function.update s.allowedSeeks table.getId
      (SortedTable.initialSeeks params table.getSize) }

end DbState

/-! ## Writers and readers -/

/-- `write_opts`: log and apply the batch; a full memtable is rotated, which waits until the
queue of immutable memtables is empty. -/
def writeOpts (params : Params) (s : DbState) (batch : List WriteOp) : DbState :=
  let memtable := s.memtable.applyAll batch
  let batches := s.batches ++ [batch]
  let walOffset := (encode batches.flatten).length
  if memtable.isFull params then
    if s.immMemtables.isEmpty then
      { s with
        batches := batches
        memtable := Memtable.new memtable.getNextSeqNumber
        immMemtables := s.immMemtables ++ [(walOffset, memtable)] }
    else s
  else
    { s with
      batches := batches
      memtable := memtable }

/-- The end of a `get` that found an entry. -/
def GetPc.found (key : Key) (start finish : Nat) (triggered : Bool) (entry : MemtableEntry) :
    GetPc :=
  .done key start finish triggered entry.getValue

/-- The first read of `get`: the live memtable. -/
def getBegin (s : DbState) (client : Nat) (key : Key) : DbState :=
  let start := s.batches.length
  match s.memtable.get key with
  | some entry => s.setGet client (.found key start start false entry)
  | none => s.setGet client (.readingImm key start)

/-- The read of one level in `get`. -/
def getLevel (params : Params) (s : DbState) (client : Nat) (key : Key) (start level : Nat)
    (triggered : Bool) : DbState :=
  let finish := s.batches.length
  let (seek, result) := (s.levels level).get params s.allowedSeeks key
  let triggered := triggered || seek.compactionTriggered
  let s := { s.setLevel level
    { s.levels level with seekBasedCompaction := seek.seekBasedCompaction } with
      allowedSeeks := seek.allowedSeeks }
  match result with
  | some entry => s.setGet client (.found key start finish triggered entry)
  | none =>
      if level + 1 < params.numLevels then
        s.setGet client (.readingLevel key start (level + 1) triggered)
      else s.setGet client (.done key start finish triggered none)

/-- The next read of a running `get`. -/
def getNext (params : Params) (s : DbState) (client : Nat) : DbState :=
  match s.gets client with
  | .idle => s
  | .readingImm key start =>
      match s.immMemtables.reverse.findSome? (fun imm => imm.2.get key) with
      | some entry => s.setGet client (.found key start s.batches.length false entry)
      | none => s.setGet client (.readingLevel key start 0 false)
  | .readingLevel key start level triggered => getLevel params s client key start level triggered
  | .done _ _ _ _ _ => s

/-! ## The flusher -/

/-- A step of the flusher that calls the manifest. -/
def DbState.flusherCalls (s : DbState) (call : Manifest × Option ManifestPanic)
    (next : FlusherPc) : DbState :=
  match call with
  | (manifest, none) => { s with manifest := manifest, flusher := next }
  | (manifest, some reason) =>
      { s with manifest := manifest, flusher := .panicked (.manifest reason) }

/-- One step of `do_memtable_compaction`. -/
def doMemtableCompaction (params : Params) (s : DbState) : DbState :=
  match s.flusher with
  | .idle =>
      match s.immMemtables with
      | [] => s
      | (logOffset, mem) :: _ => { s with flusher := .building logOffset mem }
  | .building logOffset mem =>
      match mem.getMinMaxKey with
      | .value _ =>
          let (manifest, tableId) := s.manifest.generateNextTableId
          { s with manifest := manifest, flusher := .writing logOffset mem tableId }
      | _ => { s with flusher := .panicked .memtableEmpty }
  | .writing logOffset mem tableId =>
      if h : mem.entries ≠ [] then
        let table := SortedTable.ofMemtable params tableId mem h
        { s.writeTable params table with flusher := .adding logOffset mem table }
      else { s with flusher := .panicked .memtableEmpty }
  | .adding logOffset mem table =>
      if s.isRead 0 then s
      else
        { s.setLevel 0 ((s.levels 0).addL0Table table) with
          flusher := .settingSeqNumber logOffset mem table.getId }
  | .settingSeqNumber logOffset mem tableId =>
      s.flusherCalls (s.manifest.setSeqNumberOffset mem.getNextSeqNumber)
        (.registering logOffset tableId)
  | .registering logOffset tableId =>
      s.flusherCalls (s.manifest.updateTableSet [(0, tableId)] []) (.settingOffset logOffset)
  | .settingOffset logOffset =>
      if logOffset ≤ s.logFlushPos then
        { s with flusher := .panicked (.logOffsetDecreased logOffset s.logFlushPos) }
      else
        { s with
          flusher := .truncating logOffset (s.logFlushPos / pageSize) (logOffset / pageSize) }
  | .truncating logOffset fpos newFilePos =>
      if fpos < newFilePos then
        { s with
          removedPages := fpos :: s.removedPages
          flusher := .truncating logOffset (fpos + 1) newFilePos }
      else { s with logFlushPos := logOffset, flusher := .settingLogOffset logOffset }
  | .settingLogOffset logOffset =>
      s.flusherCalls (s.manifest.setLogOffset logOffset) .popping
  | .popping =>
      match s.immMemtables with
      | [] => { s with flusher := .panicked .nothingToPop }
      | _ :: rest => { s with immMemtables := rest, flusher := .idle }
  | .panicked _ => s

/-! ## Compaction tasks -/

/-- A task starts `compact_level` and makes the choice of `maybe_start_compaction`. -/
def startCompaction (params : Params) (s : DbState) (i level : Nat) : DbState :=
  if s.tasks[i]? = some .idle ∧ level + 1 < params.numLevels then
    let (chosen, choice) := (s.levels level).choose level
    let s := s.setLevel level chosen
    match choice with
    | .nothingToDo => s
    | .emptyLevel => s.setTask i (.panicked (.levelEmpty level))
    | .table table offset => s.setTask i (.chosen level table offset)
  else s

/-- Set the flag of the chosen table, or give up. -/
def flagChosen (s : DbState) (i level : Nat) (table : SortedTable) (offset : Nat) : DbState :=
  if s.compactionFlag table.getId then s.setTask i .idle
  else
    let c : Compaction := ⟨level, [table], []⟩
    let s := s.setFlag table.getId true
    if level = 0 then s.setTask i (.closing c [offset] 0 table.getMin table.getMax)
    else s.setTask i (.picked c)

/-- One table of the loop that collects the overlapping tables of level 0; after every new
table the loop starts over. -/
def closeOverlaps (s : DbState) (i : Nat) (c : Compaction) (offsets : List Nat) (pos : Nat)
    (min max : Key) : DbState :=
  match (s.tables c.level)[pos]? with
  | none => s.setTask i (.picked c)
  | some table =>
      if pos ∈ offsets then s.setTask i (.closing c offsets (pos + 1) min max)
      else if table.overlaps min max then
        if s.compactionFlag table.getId then s.setTask i (.abortingPick c)
        else
          (s.setFlag table.getId true).setTask i
            (.closing { c with parents := c.parents ++ [table] } (offsets ++ [pos]) 0
              (Min.min min table.getMin) (Max.max max table.getMax))
      else s.setTask i (.closing c offsets (pos + 1) min max)

/-- `abort_compaction` of one table; the source asserts that its flag was set. -/
def abortCompaction (s : DbState) (i : Nat) (table : SortedTable) (next : TaskPc) : DbState :=
  if s.compactionFlag table.getId then (s.setFlag table.getId false).setTask i next
  else s.setTask i (.panicked .flagNotSet)

/-- One table of the loop of `get_overlaps`. -/
def scanOverlaps (s : DbState) (i : Nat) (c : Compaction) (pos : Nat) (min max : Key) :
    DbState :=
  match (s.tables (c.level + 1))[pos]? with
  | none => s.setTask i (.placing c min max)
  | some table =>
      if table.overlaps min max then
        if s.compactionFlag table.getId then s.setTask i (.abortingOverlaps c)
        else
          (s.setFlag table.getId true).setTask i
            (.scanning { c with children := c.children ++ [table] } (pos + 1)
              (Min.min table.getMin min) (Max.max table.getMax max))
      else s.setTask i (.scanning c (pos + 1) min max)

/-- The identifier `compact_level` offers to `get_overlaps` for the fast path. -/
def Compaction.fastPath (c : Compaction) : Option Nat :=
  match c.parents with
  | [table] => some table.getId
  | _ => none

/-- What `compact_level` does after `get_overlaps`: a single table that overlaps nothing is
moved, after an assertion that the placeholder has its identifier; other inputs are merged. -/
def dispatchCompaction (s : DbState) (i : Nat) (c : Compaction) (tableId : Nat) : DbState :=
  match c.parents, c.children with
  | [table], [] =>
      if table.getId = tableId then s.setTask i (.moving c tableId)
      else s.setTask i (.panicked (.idMismatch table.getId tableId))
  | _, _ => s.setTask i (.merging c tableId)

/-- The end of `get_overlaps`: a placeholder is put down unless one overlaps the range.  If
there are no overlaps, the identifier offered for the fast path is used. -/
def placePlaceholder (s : DbState) (i : Nat) (c : Compaction) (min max : Key) : DbState :=
  let child := s.levels (c.level + 1)
  if child.tablePlaceholders.any (fun p => p.overlaps min max) then
    s.setTask i (.abortingOverlaps c)
  else
    let (manifest, tableId) :=
      match c.fastPath, c.children with
      | some tableId, [] => (s.manifest, tableId)
      | _, _ => s.manifest.generateNextTableId
    let s := s.setLevel (c.level + 1)
      { child with tablePlaceholders := child.tablePlaceholders ++ [⟨min, max, tableId⟩] }
    dispatchCompaction { s with manifest := manifest } i c tableId

/-- The assertion on the identifiers holds. -/
theorem placePlaceholder_eq
    (s : DbState) (i : Nat) (c : Compaction) (min max : Key) :
    placePlaceholder s i c min max =
      let child := s.levels (c.level + 1)
      let place (id : Nat) : DbState :=
        s.setLevel (c.level + 1)
          { child with tablePlaceholders := child.tablePlaceholders ++ [⟨min, max, id⟩] }
      if child.tablePlaceholders.any (fun p => p.overlaps min max) then
        s.setTask i (.abortingOverlaps c)
      else
        match c.parents, c.children with
        | [table], [] => (place table.getId).setTask i (.moving c table.getId)
        | _, _ =>
            ({ place s.manifest.nextTableId with
              manifest := s.manifest.generateNextTableId.1 }).setTask i
                (.merging c s.manifest.nextTableId) := by
  obtain ⟨level, parents, children⟩ := c
  unfold placePlaceholder
  dsimp only
  split_ifs
  · rfl
  · rcases parents with _ | ⟨table, _ | ⟨other, rest⟩⟩
    · rfl
    · cases children with
      | nil =>
          exact if_pos rfl
      | cons child children =>
          rfl
    · rfl

/-- The merge: a new table out of all the inputs, written to disk. -/
def mergeTables (params : Params) (s : DbState) (i : Nat) (c : Compaction) (tableId : Nat) :
    DbState :=
  if h : c.parents ++ c.children ≠ [] then
    let newTable := SortedTable.merged params tableId (c.parents ++ c.children) h
    (s.writeTable params newTable).setTask i (.installing c newTable)
  else s.setTask i (.panicked .noParents)

/-- The last call of an installation: the manifest is updated. -/
def DbState.taskCalls (s : DbState) (i : Nat) (call : Manifest × Option ManifestPanic)
    (next : DbState → DbState) : DbState :=
  match call with
  | (manifest, none) => next { s with manifest := manifest }
  | (manifest, some reason) =>
      ({ s with manifest := manifest }).setTask i (.panicked (.manifest reason))

/-- `compact_level` installs the merged table. -/
def installTable (s : DbState) (i : Nat) (c : Compaction) (newTable : SortedTable) : DbState :=
  if s.isRead c.level || s.isRead (c.level + 1) then s
  else
    let child := s.levels (c.level + 1)
    match removeTables child.tables c.children with
    | (childTables, false) =>
        (s.setLevel (c.level + 1) { child with tables := childTables }).setTask i
          (.panicked .tableNotFound)
    | (childTables, true) =>
        let child := { child with
          tables := childTables.insertIdx (insertPosition childTables newTable) newTable }
        match child.removeTablePlaceholder newTable.getId with
        | none =>
            (s.setLevel (c.level + 1) child).setTask i (.panicked .noSuchPlaceholder)
        | some child =>
            let parent := s.levels c.level
            let (parentTables, found) := removeTables parent.tables c.parents
            let s := (s.setLevel (c.level + 1) child).setLevel c.level
              { parent with tables := parentTables }
            if found then
              s.taskCalls i
                (s.manifest.updateTableSet [(c.level + 1, newTable.getId)]
                  ((tableIds c.children).map (fun id => (c.level + 1, id)) ++
                    (tableIds c.parents).map (fun id => (c.level, id))))
                (fun s => s.setTask i .idle)
            else s.setTask i (.panicked .tableNotFound)

/-- The position at which `fast_compaction` inserts a table: unlike `insertPosition`, the
front when no table has a larger minimum. -/
def fastInsertPosition (all : List SortedTable) (table : SortedTable) : Nat :=
  (all.findIdx? fun other => decide (table.getMin < other.getMin)).getD 0

/-- `fast_compaction`: the table moves down one level. -/
def fastCompaction (s : DbState) (i : Nat) (c : Compaction) (tableId : Nat) : DbState :=
  if s.isRead c.level || s.isRead (c.level + 1) then s
  else
    let parent := s.levels c.level
    let child := s.levels (c.level + 1)
    match parent.tables.find? (fun other => other.getId == tableId) with
    | none => s.setTask i (.panicked .parentNotFound)
    | some table =>
        let parentTables := parent.tables.eraseP fun other => other.getId == tableId
        let child := { child with
          tables := child.tables.insertIdx (fastInsertPosition child.tables table) table }
        match child.removeTablePlaceholder tableId with
        | none =>
            ((s.setLevel (c.level + 1) child).setLevel c.level
              { parent with tables := parentTables }).setTask i (.panicked .noSuchPlaceholder)
        | some child =>
            -- the source looks for the table in the parent level once more
            let parentTables := parentTables.eraseP fun other => other.getId == table.getId
            let s := (s.setLevel (c.level + 1) child).setLevel c.level
              { parent with tables := parentTables }
            s.taskCalls i
              (s.manifest.updateTableSet [(c.level + 1, table.getId)]
                [(c.level, table.getId)])
              (fun s => abortCompaction s i table .idle)

/-- One step of `compact_level`. -/
def taskStep (params : Params) (s : DbState) (i : Nat) : DbState :=
  match s.tasks[i]? with
  | none => s
  | some .idle => s
  | some (.chosen level table offset) => flagChosen s i level table offset
  | some (.closing c offsets pos min max) => closeOverlaps s i c offsets pos min max
  | some (.abortingPick c) =>
      match c.parents with
      | [] => s.setTask i .idle
      | table :: rest => abortCompaction s i table (.abortingPick { c with parents := rest })
  | some (.picked c) =>
      if c.parents.isEmpty then s.setTask i (.panicked .noParents)
      else s.setTask i (.scanning c 0 (hullMin c.parents) (hullMax c.parents))
  | some (.scanning c pos min max) => scanOverlaps s i c pos min max
  | some (.placing c min max) => placePlaceholder s i c min max
  | some (.abortingOverlaps c) =>
      match c.children with
      | [] => s.setTask i (.abortingParents c)
      | table :: rest =>
          abortCompaction s i table (.abortingOverlaps { c with children := rest })
  | some (.abortingParents c) =>
      match c.parents with
      | [] => s.setTask i .idle
      | table :: rest => abortCompaction s i table (.abortingParents { c with parents := rest })
  | some (.moving c tableId) => fastCompaction s i c tableId
  | some (.merging c tableId) => mergeTables params s i c tableId
  | some (.installing c newTable) => installTable s i c newTable
  | some (.panicked _) => s

/-! ## The system -/

def step (params : Params) (s : DbState) : DbEvent → DbState
  | .write batch => writeOpts params s batch
  | .getBegin client key => getBegin s client key
  | .getNext client => getNext params s client
  | .flusher => doMemtableCompaction params s
  | .compact i level => startCompaction params s i level
  | .task i => taskStep params s i

/-- The state after some events. -/
def DbState.run (params : Params) (s : DbState) (events : List DbEvent) : DbState :=
  Runs.run (step params) s events

/-- A small configuration for concrete runs: two levels, and every nonempty key fills the
memtable. -/
def smallParams : Params where
  maxMemtableSize := 1
  numLevels := 2
  seekBasedCompaction := none
  tableSize := fun _ => 0
  numLevels_pos := by decide

end Logic
end LsmStore
