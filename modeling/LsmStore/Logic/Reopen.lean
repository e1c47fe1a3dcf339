import LsmStore.Logic.Linearizability

/-!
# Opening a database again

What is left on disk after a crash: the manifest, the files of the tables, and
the log without the pages that have been removed.  `openDb` is the open path of
`DbLogic::new`: it replays the log from the offset in the manifest into a new
memtable, and loads the tables the manifest lists.

The log is taken at its word here: a replay yields the entries stored at or after
the offset whose pages still exist, and only the page the reader opens first has
to be there.
-/

namespace LsmStore
namespace Logic

open Wal

/-- The disk after a crash.  `log` is everything that was ever stored in the log. -/
structure Disk where
  manifest : Manifest
  tableFiles : Nat → Option SortedTable
  log : List WriteOp
  removedPages : List Nat

def DbState.crash (s : DbState) : Disk where
  manifest := s.manifest
  tableFiles := s.tableFiles
  log := s.batches.flatten
  removedPages := s.removedPages

/-- The entries of a log and the positions at which they start. -/
def withPositions : Nat → List WriteOp → List (Nat × WriteOp)
  | _, [] => []
  | pos, op :: ops => (pos, op) :: withPositions (pos + (encodeEntry op).length) ops

namespace Disk

/-- None of the pages of an entry has been removed. -/
def hasEntry (d : Disk) (pos : Nat) (op : WriteOp) : Bool :=
  d.removedPages.all fun page =>
    decide (page < pos / pageSize) ||
      decide ((pos + (encodeEntry op).length - 1) / pageSize < page)

/-- The recovery of the log. -/
def replay (d : Disk) : Outcome (List WriteOp) :=
  let start := d.manifest.logOffset
  if start / pageSize ∈ d.removedPages then .error (.io "Failed to open WAL file" notFound)
  else
    .value (((withPositions 0 d.log).filter fun entry =>
      decide (start ≤ entry.1) && d.hasEntry entry.1 entry.2).map Prod.snd)

def loadTable (d : Disk) (id : Nat) : Outcome SortedTable :=
  match d.tableFiles id with
  | some table => .value table
  | none => .error (.io "Failed to read index block" notFound)

/-- The tables of one level, in the order of the manifest. -/
def loadTables (d : Disk) : List Nat → Outcome (List SortedTable)
  | [] => .value []
  | id :: ids => do
      let table ← d.loadTable id
      let tables ← d.loadTables ids
      pure (table :: tables)

/-- The tables of the first `n` levels. -/
def loadLevels (d : Disk) : Nat → Outcome (Nat → List SortedTable)
  | 0 => .value fun _ => []
  | n + 1 => do
      let levels ← d.loadLevels n
      let tables ← d.loadTables (d.manifest.levels n)
      pure (Function.update levels n tables)

/-- The database that has recovered `ops` from the log and loaded the tables.  The log does
not tell where a batch ended, so in the history every operation is a batch of its own. -/
def opened (params : Params) (numTasks : Nat) (d : Disk) (ops : List WriteOp)
    (tables : Nat → List SortedTable) : DbState where
  memtable := (Memtable.new d.manifest.seqNumberOffset).applyAll ops
  immMemtables := []
  levels := fun level => { Level.new with tables := tables level }
  manifest := d.manifest
  compactionFlag := fun _ => false
  allowedSeeks := fun id =>
    match d.tableFiles id with
    | some table => SortedTable.initialSeeks params table.getSize
    | none => 0
  tableFiles := d.tableFiles
  logFlushPos := d.manifest.logOffset
  removedPages := d.removedPages
  flusher := .idle
  tasks := List.replicate numTasks .idle
  gets := fun _ => .idle
  batches := d.log.map fun op => [op]

/-- The open path of `DbLogic::new`. -/
def openDb (params : Params) (numTasks : Nat) (d : Disk) : Outcome DbState :=
  if d.manifest.numLevels = params.numLevels then do
    let ops ← d.replay
    let tables ← d.loadLevels params.numLevels
    pure (d.opened params numTasks ops tables)
  else .panic "Number of levels is incompatible"

/-! ## The replay -/

theorem filter_withPositions
    (pos : Nat) (base rest : List WriteOp) :
    (withPositions pos (base ++ rest)).filter
        (fun entry => decide (pos + (encode base).length ≤ entry.1)) =
      withPositions (pos + (encode base).length) rest := by
  induction base generalizing pos with
  | nil =>
      have hall : ∀ pos', pos ≤ pos' → ∀ entry ∈ withPositions pos' rest, pos ≤ entry.1 := by
        induction rest with
        | nil =>
            intro pos' _ entry hentry
            cases hentry
        | cons op rest ih =>
            intro pos' hpos entry hentry
            rcases List.mem_cons.mp hentry with rfl | hentry
            · exact hpos
            · exact ih _ (by omega) entry hentry
      simp only [List.nil_append, encode_nil, List.length_nil, Nat.add_zero]
      exact List.filter_eq_self.mpr fun entry hentry =>
        decide_eq_true (hall pos (le_refl _) entry hentry)
  | cons op base ih =>
      have hlen : pos + (encode (op :: base)).length =
          pos + (encodeEntry op).length + (encode base).length := by
        rw [encode_cons, List.length_append]
        omega
      have hpos := List.length_pos_iff.mpr (encodeEntry_ne_nil op)
      rw [hlen, List.cons_append, withPositions,
        List.filter_cons_of_neg (by simp only [decide_eq_true_eq]; omega)]
      exact ih _

theorem map_snd_withPositions
    (pos : Nat) (ops : List WriteOp) :
    (withPositions pos ops).map Prod.snd = ops := by
  induction ops generalizing pos with
  | nil =>
      rfl
  | cons op ops ih =>
      rw [withPositions, List.map_cons, ih]

/-- If the pages that are gone lie below the page of the offset, the replay yields everything
behind the offset. -/
theorem replay_eq
    {d : Disk} {base rest : List WriteOp} {first : Nat}
    (hlog : d.log = base ++ rest)
    (hoffset : d.manifest.logOffset = (encode base).length)
    (hremoved : ∀ page, page ∈ d.removedPages ↔ page < first)
    (hfirst : first ≤ d.manifest.logOffset / pageSize) :
    d.replay = .value rest := by
  have hpage : d.manifest.logOffset / pageSize ∉ d.removedPages := by
    rw [hremoved]
    omega
  have hfilter : (withPositions 0 d.log).filter (fun entry =>
      decide (d.manifest.logOffset ≤ entry.1) && d.hasEntry entry.1 entry.2) =
      (withPositions 0 d.log).filter (fun entry =>
        decide (0 + (encode base).length ≤ entry.1)) := by
    refine List.filter_congr fun entry _ => ?_
    rw [Nat.zero_add, ← hoffset]
    by_cases hstart : d.manifest.logOffset ≤ entry.1
    · -- the pages of the entry are not below the page of the offset
      have hexists : d.hasEntry entry.1 entry.2 = true := by
        refine List.all_eq_true.mpr fun page hmem => ?_
        have hlt := (hremoved page).mp hmem
        have hle : d.manifest.logOffset / pageSize ≤ entry.1 / pageSize :=
          Nat.div_le_div_right hstart
        simp only [Bool.or_eq_true, decide_eq_true_eq]
        omega
      rw [hexists, Bool.and_true]
    · rw [decide_eq_false hstart, Bool.false_and]
  rw [replay, if_neg hpage, hfilter, hlog, filter_withPositions, map_snd_withPositions]

/-! ## The tables -/

theorem loadTables_eq
    {d : Disk} {ids : List Nat}
    (h : ∀ id ∈ ids, (d.tableFiles id).isSome) :
    d.loadTables ids = .value (ids.filterMap d.tableFiles) := by
  induction ids with
  | nil =>
      rfl
  | cons id ids ih =>
      obtain ⟨table, htable⟩ := Option.isSome_iff_exists.mp (h id List.mem_cons_self)
      rw [loadTables, loadTable, htable, Outcome.value_bind,
        ih fun id' hid' => h id' (List.mem_cons_of_mem _ hid'),
        List.filterMap_cons_some htable]
      rfl

/-- If no file is missing, every level gets the tables the manifest lists for it. -/
theorem loadLevels_eq
    {d : Disk} {n : Nat}
    (h : ∀ l < n, ∀ id ∈ d.manifest.levels l, (d.tableFiles id).isSome) :
    d.loadLevels n =
      .value fun l => if l < n then (d.manifest.levels l).filterMap d.tableFiles else [] := by
  induction n with
  | zero =>
      rw [loadLevels]
      congr 1
  | succ n ih =>
      rw [loadLevels, ih fun l hl => h l (by omega), Outcome.value_bind,
        loadTables_eq (h n (by omega)), Outcome.value_bind, Outcome.pure_eq]
      congr 1
      funext l
      rw [Function.update_apply]
      by_cases hl : l = n
      · rw [if_pos hl, if_pos (by omega), hl]
      · rw [if_neg hl]
        congr 1
        exact propext (by omega)

theorem openDb_value
    {params : Params} {numTasks : Nat} {d : Disk} {ops : List WriteOp}
    {tables : Nat → List SortedTable}
    (hlevels : d.manifest.numLevels = params.numLevels)
    (hreplay : d.replay = .value ops)
    (hload : d.loadLevels params.numLevels = .value tables) :
    d.openDb params numTasks = .value (d.opened params numTasks ops tables) := by
  rw [openDb, if_pos hlevels, hreplay, Outcome.value_bind, hload, Outcome.value_bind,
    Outcome.pure_eq]

theorem openDb_error
    {params : Params} {numTasks : Nat} {d : Disk} {e : Error}
    (hlevels : d.manifest.numLevels = params.numLevels)
    (hreplay : d.replay = .error e) :
    d.openDb params numTasks = .error e := by
  rw [openDb, if_pos hlevels, hreplay, Outcome.error_bind]

end Disk

/-! ## An undisturbed lookup -/

/-- What a `get` returns that runs from its first to its last read without interruption. -/
def undisturbedGet (params : Params) (s : DbState) (key : Key) : Option (Option Value) :=
  ((s.run params
    (.getBegin 0 key :: List.replicate (params.numLevels + 1) (.getNext 0))).gets 0).returned

section Undisturbed

variable {params : Params} {s : DbState} {client : Nat}

theorem run_getNext_done
    {key : Key} {start finish : Nat} {triggered : Bool} {result : Option Value}
    (h : s.gets client = .done key start finish triggered result)
    (n : Nat) :
    ((s.run params (List.replicate n (.getNext client))).gets client).returned =
      some result := by
  induction n with
  | zero =>
      change (s.gets client).returned = some result
      rw [h]
      rfl
  | succ n ih =>
      have hstep : step params s (.getNext client) = s := by
        rw [step, getNext, h]
      rw [List.replicate_succ, DbState.run, Runs.run_cons, hstep]
      exact ih

theorem gets_getNext_level
    {key : Key} {start level : Nat} {triggered : Bool}
    (params : Params)
    (h : s.gets client = .readingLevel key start level triggered) :
    ∃ triggered', (getNext params s client).gets client =
      match (s.tables level).reverse.findSome? (fun t => t.get key) with
      | some entry => .found key start s.batches.length triggered' entry
      | none =>
          if level + 1 < params.numLevels then .readingLevel key start (level + 1) triggered'
          else .done key start s.batches.length triggered' none := by
  have hresult := (s.levels level).get_result params s.allowedSeeks key
  change _ = (s.tables level).reverse.findSome? _ at hresult
  rw [← hresult]
  simp only [getNext, h, getLevel]
  generalize (s.levels level).get params s.allowedSeeks key = found
  obtain ⟨seek, result⟩ := found
  refine ⟨triggered || seek.compactionTriggered, ?_⟩
  cases result with
  | some entry =>
      simp [DbState.setGet]
  | none =>
      dsimp only
      split_ifs <;> simp [DbState.setGet]

theorem run_getNext_levels
    {key : Key} {start level n : Nat} {triggered : Bool}
    (h : s.gets client = .readingLevel key start level triggered)
    (hn : level + (n + 1) = params.numLevels) :
    ((s.run params (List.replicate (n + 1) (.getNext client))).gets client).returned =
      some (((List.range' level (n + 1)).flatMap fun l =>
        (s.tables l).reverse.filterMap fun t => t.get key).head?.bind
          MemtableEntry.getValue) := by
  induction n generalizing s level triggered with
  | zero =>
      obtain ⟨triggered', hnext⟩ := gets_getNext_level params h
      change ((getNext params s client).gets client).returned = _
      rw [hnext, if_neg (by omega)]
      rw [show List.range' level (0 + 1) = [level] from rfl, List.flatMap_singleton,
        List.head?_filterMap]
      cases (s.tables level).reverse.findSome? (fun t => t.get key) <;> rfl
  | succ n ih =>
      obtain ⟨triggered', hnext⟩ := gets_getNext_level params h
      have htables : (getNext params s client).tables = s.tables :=
        congrArg Shared.tables (shared_getNext params s client)
      rw [if_pos (by omega)] at hnext
      rw [List.replicate_succ, DbState.run, Runs.run_cons, List.range'_succ,
        List.flatMap_cons, List.head?_append, List.head?_filterMap]
      cases hfind : (s.tables level).reverse.findSome? (fun t => t.get key) with
      | some entry =>
          rw [hfind] at hnext
          exact run_getNext_done hnext (n + 1)
      | none =>
          rw [hfind] at hnext
          have hrest := ih hnext (by omega)
          rw [htables] at hrest
          exact hrest

/-- An undisturbed lookup returns the first entry of the lookup path. -/
theorem undisturbedGet_eq
    (params : Params) (s : DbState) (key : Key) :
    undisturbedGet params s key =
      some ((lookupPath params s key).head?.bind MemtableEntry.getValue) := by
  obtain ⟨n, hn⟩ := Nat.exists_eq_succ_of_ne_zero (ne_of_gt params.numLevels_pos)
  rw [undisturbedGet, lookupPath, List.head?_append, List.head?_append, List.head?_filterMap,
    DbState.run, Runs.run_cons]
  change ((((getBegin s 0 key).run params _).gets 0).returned) = _
  cases hlive : s.memtable.get key with
  | some entry =>
      have hgets : (getBegin s 0 key).gets 0 =
          .found key s.batches.length s.batches.length false entry := by
        simp [getBegin, hlive, DbState.setGet]
      exact run_getNext_done hgets _
  | none =>
      have hbegin : getBegin s 0 key = s.setGet 0 (.readingImm key s.batches.length) := by
        simp [getBegin, hlive]
      rw [List.replicate_succ, DbState.run, Runs.run_cons]
      change ((((getNext params (getBegin s 0 key) 0).run params _).gets 0).returned) = _
      cases himm : s.immMemtables.reverse.findSome? (fun imm => imm.2.get key) with
      | some entry =>
          have hnext : (getNext params (getBegin s 0 key) 0).gets 0 =
              .found key s.batches.length s.batches.length false entry := by
            simp [getNext, hbegin, DbState.setGet, himm]
          exact run_getNext_done hnext _
      | none =>
          have hnext : (getNext params (getBegin s 0 key) 0).gets 0 =
              .readingLevel key s.batches.length 0 false := by
            simp [getNext, hbegin, DbState.setGet, himm]
          have htables : (getNext params (getBegin s 0 key) 0).tables = s.tables := by
            rw [show (getNext params (getBegin s 0 key) 0).tables = (getBegin s 0 key).tables from
              congrArg Shared.tables (shared_getNext params _ 0), hbegin]
            rfl
          have hlevels := run_getNext_levels hnext (by rw [Nat.zero_add]; exact hn.symm)
          rw [htables] at hlevels
          rw [hn, List.range_eq_range']
          exact hlevels

theorem lookupPath_opened
    (params : Params) (numTasks : Nat) (d : Disk) (ops : List WriteOp)
    (tables : Nat → List SortedTable) (key : Key) :
    lookupPath params (d.opened params numTasks ops tables) key =
      (((Memtable.new d.manifest.seqNumberOffset).applyAll ops).get key).toList ++
        (List.range params.numLevels).flatMap fun l =>
          (tables l).reverse.filterMap fun t => t.get key := by
  rw [lookupPath]
  simp only [Disk.opened, DbState.tables, List.reverse_nil, List.filterMap_nil, List.append_nil]

end Undisturbed

end Logic
end LsmStore
