import LsmStore.Lib.KeyedList
import LsmStore.SortedTable

/-!
# Levels

A level is its list of tables together with what the compaction of the level
keeps: the offset of the table to compact next, the table whose seeks ran out,
and the placeholders of tables that are being built for the level.

Only level 0 may hold tables that overlap; there the last table is the newest
one, which is why a lookup walks the list from back to front.
-/

namespace LsmStore

open SortedAssoc KeyRange KeyedList

/-- Marks the range of a table that is about to be placed on a level. -/
structure TablePlaceholder where
  min : Key
  max : Key
  id : Nat
deriving DecidableEq

namespace TablePlaceholder

def overlaps (p : TablePlaceholder) (min max : Key) : Bool :=
  decide (min ≤ p.max ∧ p.min ≤ max)

theorem overlaps_iff
    (p : TablePlaceholder) (min max : Key) :
    p.overlaps min max = true ↔ Overlaps p.min p.max min max :=
  decide_eq_true_iff

end TablePlaceholder

/-- The identifier that no table has. -/
def invalidTableId : Nat := 0

/-- Level 0 is compacted once it holds more tables than this. -/
def l0CompactionTrigger : Nat := 4

structure Level where
  tables : List SortedTable
  nextCompactionOffset : Nat
  seekBasedCompaction : Nat
  tablePlaceholders : List TablePlaceholder
deriving DecidableEq

/-- The table a compaction of the level starts from. -/
inductive Choice where
  | nothingToDo
  | emptyLevel
  | table (table : SortedTable) (offset : Nat)
deriving DecidableEq

/-- What a lookup changes in passing: the seeks the tables have left, and the table that
asks to be compacted. -/
structure SeekState where
  allowedSeeks : Nat → Int32
  seekBasedCompaction : Nat
  compactionTriggered : Bool

namespace Level

def new : Level where
  tables := []
  nextCompactionOffset := 0
  seekBasedCompaction := invalidTableId
  tablePlaceholders := []

/-- Bytes a level may hold; the result for level 0 is not used. -/
def maxSize : Nat → Nat
  | 0 => 1048576
  | 1 => 1048576
  | index + 2 => maxSize (index + 1) * 10

def totalSize (level : Level) : Nat :=
  (level.tables.map SortedTable.getSize).sum

def sizeBasedCompaction (level : Level) (index : Nat) : Bool :=
  if index = 0 then decide (l0CompactionTrigger < level.tables.length)
  else decide (maxSize index < level.totalSize)

/-- The choice at the start of `maybe_start_compaction`, made under the lock of the offset. -/
def choose (level : Level) (index : Nat) : Level × Choice :=
  if level.sizeBasedCompaction index then
    let offset :=
      if level.tables.length ≤ level.nextCompactionOffset then 0 else level.nextCompactionOffset
    match level.tables[offset]? with
    | none => (level, .emptyLevel)
    | some table => ({ level with nextCompactionOffset := offset + 1 }, .table table offset)
  else if level.seekBasedCompaction = invalidTableId then (level, .nothingToDo)
  else
    let pos := level.tables.findIdx fun t => t.getId == level.seekBasedCompaction
    match level.tables[pos]? with
    | none => (level, .nothingToDo)
    | some table => ({ level with seekBasedCompaction := invalidTableId }, .table table pos)

theorem choose_table
    {level level' : Level} {index offset : Nat} {table : SortedTable}
    (h : level.choose index = (level', .table table offset)) :
    level.tables[offset]? = some table := by
  unfold choose at h
  split at h
  · dsimp only at h
    split at h
    · cases h
    · rename_i hget
      cases h
      exact hget
  · split at h
    · cases h
    · dsimp only at h
      split at h
      · cases h
      · rename_i hget
        cases h
        exact hget

/-- The choice changes neither the tables nor the placeholders. -/
theorem choose_frame
    (level : Level) (index : Nat) :
    (level.choose index).1.tables = level.tables ∧
      (level.choose index).1.tablePlaceholders = level.tablePlaceholders := by
  unfold choose
  dsimp only
  split
  · split <;> exact ⟨rfl, rfl⟩
  · split
    · exact ⟨rfl, rfl⟩
    · split <;> exact ⟨rfl, rfl⟩

theorem choose_ne_emptyLevel
    (level : Level) (index : Nat) :
    (level.choose index).2 ≠ .emptyLevel := by
  have hne : level.sizeBasedCompaction index = true → level.tables ≠ [] := by
    intro h htables
    unfold sizeBasedCompaction at h
    split at h
    · simp [htables] at h
    · simp [totalSize, htables] at h
  unfold choose
  dsimp only
  split
  · rename_i hsize
    have hpos := List.length_pos_iff.mpr (hne hsize)
    split
    · rename_i hget
      rw [List.getElem?_eq_none_iff] at hget
      split_ifs at hget <;> omega
    · simp
  · split
    · simp
    · split <;> simp

/-- Publish a flushed table. -/
def addL0Table (level : Level) (table : SortedTable) : Level :=
  { level with tables := level.tables ++ [table] }

/-- Remove the first placeholder with the identifier; the source panics if there is none. -/
def removeTablePlaceholder (level : Level) (id : Nat) : Option Level :=
  if level.tablePlaceholders.any (fun p => p.id == id) then
    some { level with
      tablePlaceholders := level.tablePlaceholders.eraseP fun p => p.id == id }
  else none

/-- One table of a lookup: it loses a seek, and may ask to be compacted. -/
def seekTable (params : Params) (t : SortedTable) (st : SeekState) : SeekState :=
  let allowedSeeks := Function.update st.allowedSeeks t.getId (st.allowedSeeks t.getId - 1)
  if params.seekBasedCompaction.isSome ∧ allowedSeeks t.getId ≤ 0 ∧
      st.seekBasedCompaction = invalidTableId then
    { allowedSeeks := allowedSeeks
      seekBasedCompaction := t.getId
      compactionTriggered := true }
  else { st with allowedSeeks := allowedSeeks }

/-- The loop of a lookup over the tables, newest first. -/
def searchTables (params : Params) (key : Key) :
    List SortedTable → SeekState → SeekState × Option MemtableEntry
  | [], st => (st, none)
  | t :: ts, st =>
      match t.get key with
      | some entry => (seekTable params t st, some entry)
      | none => searchTables params key ts (seekTable params t st)

/-- Look a key up, from the last table to the first. -/
def get (params : Params) (level : Level) (allowedSeeks : Nat → Int32) (key : Key) :
    SeekState × Option MemtableEntry :=
  searchTables params key level.tables.reverse
    { allowedSeeks := allowedSeeks
      seekBasedCompaction := level.seekBasedCompaction
      compactionTriggered := false }

theorem searchTables_result
    (params : Params) (key : Key) (ts : List SortedTable) (st : SeekState) :
    (searchTables params key ts st).2 = ts.findSome? (fun t => t.get key) := by
  induction ts generalizing st with
  | nil =>
      rfl
  | cons t ts ih =>
      rw [searchTables, List.findSome?_cons]
      cases t.get key with
      | some entry =>
          rfl
      | none =>
          exact ih _

theorem get_result
    (params : Params) (level : Level) (allowedSeeks : Nat → Int32) (key : Key) :
    (level.get params allowedSeeks key).2 =
      level.tables.reverse.findSome? (fun t => t.get key) :=
  searchTables_result params key _ _

end Level

/-- Remove the tables one after the other, each at its first occurrence; `false` when one of
them is not there, which ends the loop. -/
def removeTables (all : List SortedTable) : List SortedTable → List SortedTable × Bool
  | [] => (all, true)
  | t :: ts =>
      if all.any (fun other => other.getId == t.getId) then
        removeTables (all.eraseP fun other => other.getId == t.getId) ts
      else (all, false)

/-- The position in front of the first table with a larger minimum. -/
def insertPosition (all : List SortedTable) (table : SortedTable) : Nat :=
  all.findIdx fun other => decide (table.getMin < other.getMin)

/-- The identifiers of some tables. -/
def tableIds (tables : List SortedTable) : List Nat :=
  tables.map SortedTable.getId

/-- One more element at the end of one of several lists. -/
theorem mem_update_concat
    {α : Type} {lists : Nat → List α} {a b : α} {k l : Nat} :
    b ∈ Function.update lists k (lists k ++ [a]) l ↔ b ∈ lists l ∨ (l = k ∧ b = a) := by
  rw [Function.update_apply]
  split_ifs with hl
  · simp [hl]
  · simp [hl]

theorem nodup_map_concat
    {α : Type} {f : α → Nat} {l : List α} {a : α}
    (h : (l.map f).Nodup)
    (hne : ∀ b ∈ l, f b ≠ f a) :
    ((l ++ [a]).map f).Nodup := by
  rw [List.map_append, List.map_singleton, List.nodup_append_comm, List.singleton_append,
    List.nodup_cons]
  refine ⟨fun hmem => ?_, h⟩
  obtain ⟨b, hb, heq⟩ := List.mem_map.mp hmem
  exact hne b hb heq

/-- Removing tables that are all there, and that are pairwise different, succeeds and leaves
exactly the others, in their order. -/
theorem removeTables_spec
    {all ts : List SortedTable}
    (hall : (tableIds all).Nodup)
    (hts : (tableIds ts).Nodup)
    (hsub : ∀ t ∈ ts, t ∈ all) :
    (removeTables all ts).2 = true ∧
      (removeTables all ts).1.Sublist all ∧
      ∀ u, u ∈ (removeTables all ts).1 ↔ u ∈ all ∧ u ∉ ts := by
  induction ts generalizing all with
  | nil =>
      exact ⟨rfl, List.Sublist.refl _, fun u => by simp [removeTables]⟩
  | cons t ts ih =>
      have ht : t ∈ all := hsub t List.mem_cons_self
      have hany : all.any (fun other => other.getId == t.getId) = true :=
        List.any_eq_true.mpr ⟨t, ht, by simp⟩
      obtain ⟨hfresh, hts'⟩ := List.nodup_cons.mp hts
      have hsublist := List.eraseP_sublist (p := fun other => other.getId == t.getId) (l := all)
      have hall' : (tableIds (all.eraseP fun other => other.getId == t.getId)).Nodup :=
        hall.sublist (hsublist.map _)
      have hsub' : ∀ u ∈ ts, u ∈ all.eraseP (fun other => other.getId == t.getId) := by
        intro u hu
        rw [mem_eraseP_key hall ht]
        refine ⟨hsub u (List.mem_cons_of_mem _ hu), ?_⟩
        rintro rfl
        exact hfresh (List.mem_map_of_mem hu)
      obtain ⟨hok, hsubl, hmem⟩ := ih hall' hts' hsub'
      rw [removeTables, if_pos hany]
      refine ⟨hok, hsubl.trans hsublist, ?_⟩
      intro u
      rw [hmem, mem_eraseP_key hall ht, List.mem_cons, not_or, and_assoc]

end LsmStore
