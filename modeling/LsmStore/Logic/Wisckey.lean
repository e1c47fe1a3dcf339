import LsmStore.Logic.System
import LsmStore.Values.Log

/-!
# The database with a value log

With the `wisckey` feature the flusher writes the values of a memtable to the
value log, and tables refer to them.  A compaction marks the values it has
overridden as deleted, with the table lists of its two levels still locked.  The
value log may ask for entries to be inserted again; then the compaction calls
`write_opts`, as clients do, and only after that gives up its locks.

The database itself moves as it does without the value log, with two additions.
Tasks wait for the locks of a compaction that collects values and of a writer
that waits for the queue.  And the manifest is updated at the end: the tables are
installed with the manifest as it was, and the call of `update_table_set`, with
its panic, comes after all values are marked and inserted again.
-/

namespace LsmStore
namespace Logic

open Values

/-- A compaction whose merged table is in the list of its level. -/
structure MergedInto extends Compaction where
  tableId : Nat
deriving DecidableEq

/-- What is left of a compaction after its merge. -/
inductive Collector where
  | idle
  /-- The merged table is written; these values were overridden. -/
  | merged (values : List ValueId)
  /-- The tables are installed and locked; these values are still to be marked, and these
  entries are to be inserted again. -/
  | marking (c : MergedInto) (values : List ValueId) (reinsert : List (Key × Value))
  /-- The tables are locked, and the memtable as well: it is full, and `write_opts` waits until
  the queue of immutable memtables is empty. -/
  | waiting (c : MergedInto) (batch : List WriteOp)
  /-- An error or a panic has ended the task. -/
  | failed
deriving DecidableEq

/-- The table lists that are locked. -/
def Collector.locks (level : Nat) : Collector → Bool
  | marking c _ _ => c.level == level || c.level + 1 == level
  | waiting c _ => c.level == level || c.level + 1 == level
  | _ => false

def Collector.locksMemtable : Collector → Bool
  | waiting _ _ => true
  | _ => false

/-- `valueIds` are the value references in the tables; `acknowledged` is the history of the
write batches of clients, oldest first. -/
structure WisckeyState where
  db : DbState
  vlog : ValueLog
  valueIds : Nat → Key → Option ValueId
  collectors : List Collector
  /-- The batch of a client that has locked the memtable and waits for the queue. -/
  waitingClient : Option (List WriteOp)
  flusherFailed : Bool
  acknowledged : List (List WriteOp)

namespace WisckeyState

def new [BitPacking] (params : Params) (numTasks : Nat) : WisckeyState where
  db := DbState.new params numTasks
  vlog := ValueLog.new
  valueIds := fun _ _ => none
  collectors := List.replicate numTasks .idle
  waitingClient := none
  flusherFailed := false
  acknowledged := []

def levelLocked (s : WisckeyState) (level : Nat) : Bool :=
  s.collectors.any (Collector.locks level)

/-- At most one client or compaction has the lock of the memtable for longer than one step. -/
def memtableLocked (s : WisckeyState) : Bool :=
  s.waitingClient.isSome || s.collectors.any Collector.locksMemtable

def setCollector (s : WisckeyState) (i : Nat) (pc : Collector) : WisckeyState :=
  { s with collectors := s.collectors.set i pc }

/-- The batch fills the memtable, and the queue of immutable memtables is not empty. -/
def mustWait (params : Params) (s : WisckeyState) (batch : List WriteOp) : Bool :=
  (s.db.memtable.applyAll batch).isFull params && !s.db.immMemtables.isEmpty

/-! ## Clients -/

/-- A client in `write_opts`, with the memtable locked. -/
def acknowledge (params : Params) (s : WisckeyState) (batch : List WriteOp) : WisckeyState :=
  { s with
    db := writeOpts params s.db batch
    waitingClient := none
    acknowledged := s.acknowledged ++ [batch] }

/-- While a client waits for the queue, no other client gets the memtable, and an event of the
clients is one of its looks at the queue. -/
def clientWrite (params : Params) (s : WisckeyState) (batch : List WriteOp) : WisckeyState :=
  match s.waitingClient with
  | some waiting => if s.db.immMemtables.isEmpty then s.acknowledge params waiting else s
  | none =>
      if s.memtableLocked then s
      else if s.mustWait params batch then { s with waitingClient := some batch }
      else s.acknowledge params batch

/-- The lock the next read of a `get` needs. -/
def getBlocked (s : WisckeyState) (client : Nat) : Bool :=
  match s.db.gets client with
  | .readingLevel _ _ level _ => s.levelLocked level
  | _ => false

/-- The value of an entry of a table; the source unwraps the reference and the value. -/
def getRef (s : WisckeyState) (t : SortedTable) (key : Key) :
    MemtableEntry → Outcome (Option Value)
  | .deletion _ => .value none
  | .value _ _ =>
      match s.valueIds t.getId key with
      | none => .panic "called `Option::unwrap()` on a `None` value"
      | some vid =>
          match s.vlog.getValue vid with
          | .value value => .value (some value)
          | .error _ => .panic "called `Result::unwrap()` on an `Err` value"
          | .panic message => .panic message
          | .unfinished => .unfinished

/-- The first table, in the order of the search, that has the key. -/
def findTable (params : Params) (s : WisckeyState) (key : Key) :
    Option (SortedTable × MemtableEntry) :=
  (List.range params.numLevels).findSome? fun level =>
    (s.db.tables level).reverse.findSome? fun t => (t.get key).map fun entry => (t, entry)

/-- `get`, when nothing happens between its reads. -/
def get (params : Params) (s : WisckeyState) (key : Key) : Outcome (Option Value) :=
  match s.db.memtable.get key with
  | some entry => .value entry.getValue
  | none =>
      match s.db.immMemtables.reverse.findSome? fun imm => imm.2.get key with
      | some entry => .value entry.getValue
      | none =>
          match s.findTable params key with
          | some found => s.getRef found.1 key found.2
          | none => .value none

/-! ## The flusher -/

/-- The values of a memtable, in the order of its keys. -/
def memtableValues (mem : Memtable) : List (Key × Value) :=
  mem.entries.filterMap fun entry => entry.2.getValue.map fun value => (entry.1, value)

/-- The reference of each key. -/
def assign (values : List (Key × Value)) (ids : List ValueId) (key : Key) : Option ValueId :=
  ((values.zip ids).find? fun entry => entry.1.1 == key).map Prod.snd

/-- `do_memtable_compaction`: the values are written before the table, and the value index is
synced once the table is in level 0. -/
def flusherStep [BitPacking] (params : Params) (s : WisckeyState) : WisckeyState :=
  if s.flusherFailed then s
  else
    match s.db.flusher with
    | .writing _ mem tableId =>
        match ValueLog.writeBatch (memtableValues mem) s.vlog with
        | (.value ids, vlog) =>
            { s with
              db := doMemtableCompaction params s.db
              vlog := vlog
              valueIds := Function.update s.valueIds tableId (assign (memtableValues mem) ids) }
        | (_, vlog) => { s with vlog := vlog, flusherFailed := true }
    | .adding _ _ _ =>
        if s.levelLocked 0 then s else { s with db := doMemtableCompaction params s.db }
    | .settingSeqNumber _ _ _ =>
        { s with db := doMemtableCompaction params s.db, vlog := s.vlog.sync }
    | _ => { s with db := doMemtableCompaction params s.db }

/-! ## Compactions -/

/-- Second pass of a round of the merge: the table with the most recent entry of the key, and
the tables whose entries were picked before. -/
def pickTable (key : Key) (acc : Option (SortedTable × MemtableEntry) × List SortedTable)
    (t : SortedTable) : Option (SortedTable × MemtableEntry) × List SortedTable :=
  match t.get key, acc.1 with
  | none, _ => acc
  | some e, none => (some (t, e), acc.2)
  | some e, some other =>
      if other.2.getSeqNumber < e.getSeqNumber then (some (t, e), acc.2 ++ [other.1]) else acc

def pick (tables : List SortedTable) (key : Key) :
    Option (SortedTable × MemtableEntry) × List SortedTable :=
  tables.foldl (pickTable key) (none, [])

/-- The references of the merged table. -/
def mergedIds (ids : Nat → Key → Option ValueId) (tables : List SortedTable) (key : Key) :
    Option ValueId :=
  (pick tables key).1.bind fun picked => ids picked.1.getId key

/-- `deleted_values`, for one key after the other; the source unwraps the reference of an entry
that was picked before, which a deletion does not have. -/
def deletedValues (ids : Nat → Key → Option ValueId) (tables : List SortedTable) :
    Option (List ValueId) :=
  let references := (SortedTable.mergedEntries tables).flatMap fun entry =>
    (pick tables entry.1).2.map fun t => ids t.getId entry.1
  if references.all Option.isSome then some (references.filterMap id) else none

def mergeStep (params : Params) (s : WisckeyState) (i : Nat) (c : Compaction) (tableId : Nat) :
    WisckeyState :=
  match deletedValues s.valueIds (c.parents ++ c.children) with
  | none => s.setCollector i .failed
  | some values =>
      { s.setCollector i (.merged values) with
        db := taskStep params s.db i
        valueIds := Function.update s.valueIds tableId
          (mergedIds s.valueIds (c.parents ++ c.children)) }

/-- A table is installed, and the call of the manifest is still to come. -/
def installLists (db : DbState) (i : Nat) (c : Compaction) (t : SortedTable) : DbState :=
  ({ installTable db i c t with manifest := db.manifest }).setTask i .idle

/-- The tables are installed; the lists stay locked. -/
def installStep (s : WisckeyState) (i : Nat) (values : List ValueId) : WisckeyState :=
  match s.db.tasks[i]? with
  | some (.installing c t) =>
      if s.levelLocked c.level || s.levelLocked (c.level + 1) || s.db.isRead c.level ||
          s.db.isRead (c.level + 1) then s
      else
        -- the assertions come before the values are marked, the panic of the manifest later
        match (installTable s.db i c t).tasks[i]? with
        | some (.panicked .tableNotFound) =>
            { s.setCollector i .failed with db := installTable s.db i c t }
        | some (.panicked .noSuchPlaceholder) =>
            { s.setCollector i .failed with db := installTable s.db i c t }
        | _ =>
            { s.setCollector i (.marking { c with tableId := t.getId } values []) with
              db := installLists s.db i c t }
  | _ => s

/-- `mark_value_deleted` for one value. -/
def markStep (s : WisckeyState) (i : Nat) (c : MergedInto) (vid : ValueId)
    (values : List ValueId) (reinsert : List (Key × Value)) : WisckeyState :=
  match ValueLog.markValueDeleted vid s.vlog with
  | (.value entries, vlog) =>
      { s.setCollector i (.marking c values (reinsert ++ entries)) with vlog := vlog }
  | (_, vlog) => { s.setCollector i .failed with vlog := vlog }

def reinsertBatch (reinsert : List (Key × Value)) : List WriteOp :=
  reinsert.map fun entry => .put entry.1 entry.2

/-- The last call of `compact_level`; then the lists are unlocked. -/
def updateStep (s : WisckeyState) (i : Nat) (c : MergedInto) : WisckeyState :=
  let call := s.db.manifest.updateTableSet [(c.level + 1, c.tableId)]
    ((tableIds c.children).map (fun id => (c.level + 1, id)) ++
      (tableIds c.parents).map (fun id => (c.level, id)))
  { s.setCollector i (if call.2.isNone then .idle else .failed) with
    db := { s.db with manifest := call.1 } }

/-- All values are marked: entries are inserted again, if there are any. -/
def reinsertStep (params : Params) (s : WisckeyState) (i : Nat) (c : MergedInto)
    (reinsert : List (Key × Value)) : WisckeyState :=
  if reinsert = [] then s.updateStep i c
  else if s.memtableLocked then s
  else if s.mustWait params (reinsertBatch reinsert) then
    s.setCollector i (.waiting c (reinsertBatch reinsert))
  else
    { s.setCollector i (.marking c [] []) with
      db := writeOpts params s.db (reinsertBatch reinsert) }

/-- The queue of immutable memtables is empty, and the memtable is rotated. -/
def resumeStep (params : Params) (s : WisckeyState) (i : Nat) (c : MergedInto)
    (batch : List WriteOp) : WisckeyState :=
  if s.db.immMemtables.isEmpty then
    { s.setCollector i (.marking c [] []) with db := writeOpts params s.db batch }
  else s

/-- A step of `compact_level` before its merge, or of a fast compaction. -/
def plainStep (params : Params) (s : WisckeyState) (i : Nat) : WisckeyState :=
  match s.db.tasks[i]? with
  | some (.picked c) =>
      if s.levelLocked (c.level + 1) then s else { s with db := taskStep params s.db i }
  | some (.moving c _) =>
      if s.levelLocked c.level || s.levelLocked (c.level + 1) then s
      else { s with db := taskStep params s.db i }
  | some (.merging c tableId) => s.mergeStep params i c tableId
  | _ => { s with db := taskStep params s.db i }

def collectorStep (params : Params) (s : WisckeyState) (i : Nat) : WisckeyState :=
  match s.collectors[i]? with
  | none => s
  | some .idle => s.plainStep params i
  | some (.merged values) => s.installStep i values
  | some (.marking c (vid :: values) reinsert) => s.markStep i c vid values reinsert
  | some (.marking c [] reinsert) => s.reinsertStep params i c reinsert
  | some (.waiting c batch) => s.resumeStep params i c batch
  | some .failed => s

/-! ## The system -/

/-- A task starts a compaction only when the one before has given up its locks. -/
def startStep (params : Params) (s : WisckeyState) (i level : Nat) : WisckeyState :=
  if s.collectors[i]? = some .idle ∧ s.levelLocked level = false then
    { s with db := startCompaction params s.db i level }
  else s

def step [BitPacking] (params : Params) (s : WisckeyState) : DbEvent → WisckeyState
  | .write batch => s.clientWrite params batch
  | .getBegin client key =>
      if s.memtableLocked then s else { s with db := getBegin s.db client key }
  | .getNext client =>
      if s.getBlocked client then s else { s with db := getNext params s.db client }
  | .flusher => s.flusherStep params
  | .compact i level => s.startStep params i level
  | .task i => s.collectorStep params i

/-- The state after some events. -/
def run [BitPacking] (params : Params) (s : WisckeyState) (events : List DbEvent) : WisckeyState :=
  Runs.run (step params) s events

end WisckeyState

end Logic
end LsmStore
