import LsmStore.Lib.KeyRange
import LsmStore.Lib.NewestMerge
import LsmStore.Memtable

/-!
# Sorted tables

A table holds the entries of a memtable that was flushed, or those of several
tables that were merged.  The blocks it is written to are not modelled: a
table is the list of its entries together with the range recorded in its
index.  The structure carries what every table of the source satisfies: keys
are strictly increasing, there is at least one entry, and all of them lie in
the range.

The compaction flag and the number of seeks left are shared, mutable parts of
a table; they live in the state of the database, under the table's identifier.
-/

namespace LsmStore

open SortedAssoc KeyRange NewestMerge

/-- A table on disk. -/
@[ext]
structure SortedTable where
  identifier : Nat
  entries : Entries
  minKey : Key
  maxKey : Key
  size : Nat
  sorted : Sorted entries
  nonempty : entries ≠ []
  in_range : ∀ e ∈ entries, minKey ≤ e.1 ∧ e.1 ≤ maxKey

namespace SortedTable

instance : DecidableEq SortedTable :=
  fun _ _ => decidable_of_iff _ SortedTable.ext_iff.symm

def getId (t : SortedTable) : Nat :=
  t.identifier

def getSize (t : SortedTable) : Nat :=
  t.size

def getMin (t : SortedTable) : Key :=
  t.minKey

def getMax (t : SortedTable) : Key :=
  t.maxKey

/-- The entry of a key. -/
def get (t : SortedTable) (key : Key) : Option MemtableEntry :=
  lookup t.entries key

/-- Whether the table overlaps a range with inclusive ends. -/
def overlaps (t : SortedTable) (min max : Key) : Bool :=
  decide (min ≤ t.getMax ∧ t.getMin ≤ max)

/-- The seeks a table allows before it asks to be compacted. -/
def initialSeeks (params : Params) (size : Nat) : Int32 :=
  match params.seekBasedCompaction with
  | some count => Int32.ofNat (max (size / 1024) 1) * Int32.ofNat count
  | none => 0

theorem overlaps_iff
    (t : SortedTable) (min max : Key) :
    t.overlaps min max = true ↔ Overlaps t.minKey t.maxKey min max :=
  decide_eq_true_iff

theorem get_eq_some_iff
    (t : SortedTable) (key : Key) (entry : MemtableEntry) :
    t.get key = some entry ↔ (key, entry) ∈ t.entries :=
  lookup_eq_some_iff t.sorted key entry

theorem mem_range
    (t : SortedTable)
    {key : Key} {entry : MemtableEntry}
    (h : t.get key = some entry) :
    t.minKey ≤ key ∧ key ≤ t.maxKey :=
  t.in_range _ ((t.get_eq_some_iff key entry).mp h)

theorem min_le_max
    (t : SortedTable) :
    t.minKey ≤ t.maxKey := by
  obtain ⟨e, rest, he⟩ := List.exists_cons_of_ne_nil t.nonempty
  obtain ⟨hmin, hmax⟩ := t.in_range e (by rw [he]; exact List.mem_cons_self)
  exact le_trans hmin hmax

/-- The table of a memtable that is flushed. -/
def ofMemtable (params : Params) (identifier : Nat) (mem : Memtable)
    (h : mem.entries ≠ []) : SortedTable where
  identifier := identifier
  entries := mem.entries
  minKey := (mem.entries.head h).1
  maxKey := (mem.entries.getLast h).1
  size := params.tableSize mem.entries
  sorted := mem.sorted
  nonempty := h
  in_range := fun _ he => ⟨head_le_of_mem mem.sorted h he, le_getLast_of_mem mem.sorted h he⟩

/-- The ends of the recorded range are keys of the table. -/
structure Tight (t : SortedTable) : Prop where
  min_mem : ∃ entry, (t.minKey, entry) ∈ t.entries
  max_mem : ∃ entry, (t.maxKey, entry) ∈ t.entries

theorem tight_ofMemtable
    (params : Params) (identifier : Nat) (mem : Memtable) (h : mem.entries ≠ []) :
    (ofMemtable params identifier mem h).Tight :=
  ⟨⟨_, List.head_mem h⟩, ⟨_, List.getLast_mem h⟩⟩

end SortedTable

/-- The smallest key of some tables. -/
def hullMin : List SortedTable → Key
  | [] => ByteVec.ofList []
  | t :: ts => ts.foldl (fun m u => min m u.getMin) t.getMin

/-- The largest key of some tables. -/
def hullMax : List SortedTable → Key
  | [] => ByteVec.ofList []
  | t :: ts => ts.foldl (fun m u => max m u.getMax) t.getMax

theorem hullMin_concat
    {ts : List SortedTable}
    (h : ts ≠ [])
    (u : SortedTable) :
    hullMin (ts ++ [u]) = min (hullMin ts) u.minKey := by
  cases ts with
  | nil =>
      exact absurd rfl h
  | cons t ts =>
      simp [hullMin, SortedTable.getMin]

theorem hullMax_concat
    {ts : List SortedTable}
    (h : ts ≠ [])
    (u : SortedTable) :
    hullMax (ts ++ [u]) = max (hullMax ts) u.maxKey := by
  cases ts with
  | nil =>
      exact absurd rfl h
  | cons t ts =>
      simp [hullMax, SortedTable.getMax]

theorem hull_covers
    {ts : List SortedTable} {t : SortedTable}
    (ht : t ∈ ts) :
    hullMin ts ≤ t.minKey ∧ t.maxKey ≤ hullMax ts := by
  induction ts using List.reverseRecOn with
  | nil =>
      cases ht
  | append_singleton ts u ih =>
      by_cases hts : ts = []
      · subst hts
        rw [List.nil_append, List.mem_singleton] at ht
        subst ht
        exact ⟨le_refl _, le_refl _⟩
      · rw [hullMin_concat hts, hullMax_concat hts]
        rcases List.mem_append.mp ht with ht | ht
        · obtain ⟨hmin, hmax⟩ := ih ht
          exact ⟨le_trans (min_le_left _ _) hmin, le_trans hmax (le_max_left _ _)⟩
        · rw [List.mem_singleton.mp ht]
          exact ⟨min_le_right _ _, le_max_right _ _⟩

theorem exists_mem_hull
    {ts : List SortedTable}
    (h : ts ≠ []) :
    (∃ t ∈ ts, t.minKey = hullMin ts) ∧ ∃ t ∈ ts, t.maxKey = hullMax ts := by
  induction ts using List.reverseRecOn with
  | nil =>
      exact absurd rfl h
  | append_singleton ts u ih =>
      by_cases hts : ts = []
      · subst hts
        exact ⟨⟨u, List.mem_cons_self, rfl⟩, ⟨u, List.mem_cons_self, rfl⟩⟩
      · have hu : u ∈ ts ++ [u] := List.mem_append_right _ List.mem_cons_self
        obtain ⟨⟨t, ht, hmin⟩, ⟨t', ht', hmax⟩⟩ := ih hts
        rw [hullMin_concat hts, hullMax_concat hts]
        constructor
        · rcases min_choice (hullMin ts) u.minKey with heq | heq
          · exact ⟨t, List.mem_append_left _ ht, hmin.trans heq.symm⟩
          · exact ⟨u, hu, heq.symm⟩
        · rcases max_choice (hullMax ts) u.maxKey with heq | heq
          · exact ⟨t', List.mem_append_left _ ht', hmax.trans heq.symm⟩
          · exact ⟨u, hu, heq.symm⟩

namespace SortedTable

/-- The entries the merge loop of a compaction writes. -/
def mergedEntries (tables : List SortedTable) : Entries :=
  merge MemtableEntry.getSeqNumber (tables.map SortedTable.entries)

theorem sorted_runs
    (tables : List SortedTable) :
    ∀ run ∈ tables.map SortedTable.entries, Sorted run := by
  intro run hrun
  obtain ⟨t, -, rfl⟩ := List.mem_map.mp hrun
  exact t.sorted

theorem mem_of_mem_mergedEntries
    {tables : List SortedTable} {e : Key × MemtableEntry}
    (h : e ∈ mergedEntries tables) :
    ∃ t ∈ tables, e ∈ t.entries := by
  obtain ⟨run, hrun, he⟩ := mem_of_mem_merge _ (sorted_runs tables) h
  obtain ⟨t, ht, rfl⟩ := List.mem_map.mp hrun
  exact ⟨t, ht, he⟩

/-- The merge has an entry at least as new for every entry of the tables. -/
theorem exists_mem_mergedEntries
    {tables : List SortedTable} {t : SortedTable} {e : Key × MemtableEntry}
    (ht : t ∈ tables)
    (he : e ∈ t.entries) :
    ∃ entry, (e.1, entry) ∈ mergedEntries tables ∧
      e.2.getSeqNumber ≤ entry.getSeqNumber :=
  exists_mem_merge _ (sorted_runs tables) (List.mem_map_of_mem ht) he

/-- The table a compaction builds out of its inputs. -/
def merged (params : Params) (identifier : Nat) (tables : List SortedTable)
    (h : tables ≠ []) : SortedTable where
  identifier := identifier
  entries := mergedEntries tables
  minKey := hullMin tables
  maxKey := hullMax tables
  size := params.tableSize (mergedEntries tables)
  sorted := merge_sorted _ (sorted_runs tables)
  nonempty := by
    obtain ⟨t, ts, rfl⟩ := List.exists_cons_of_ne_nil h
    obtain ⟨e, rest, he⟩ := List.exists_cons_of_ne_nil t.nonempty
    have hmem : e ∈ t.entries := by
      rw [he]
      exact List.mem_cons_self
    obtain ⟨entry, hentry, -⟩ := exists_mem_mergedEntries (List.mem_cons_self (l := ts)) hmem
    exact List.ne_nil_of_mem hentry
  in_range := by
    intro e he
    obtain ⟨t, ht, het⟩ := mem_of_mem_mergedEntries he
    obtain ⟨hmin, hmax⟩ := hull_covers ht
    obtain ⟨hlo, hhi⟩ := t.in_range e het
    exact ⟨le_trans hmin hlo, le_trans hhi hmax⟩

theorem tight_merged
    (params : Params) (identifier : Nat) {tables : List SortedTable} (h : tables ≠ [])
    (htight : ∀ t ∈ tables, t.Tight) :
    (merged params identifier tables h).Tight := by
  obtain ⟨⟨t, ht, hmin⟩, ⟨t', ht', hmax⟩⟩ := exists_mem_hull h
  constructor
  · obtain ⟨entry, hentry⟩ := (htight t ht).min_mem
    obtain ⟨newer, hmem, -⟩ := exists_mem_mergedEntries ht hentry
    rw [hmin] at hmem
    exact ⟨newer, hmem⟩
  · obtain ⟨entry, hentry⟩ := (htight t' ht').max_mem
    obtain ⟨newer, hmem, -⟩ := exists_mem_mergedEntries ht' hentry
    rw [hmax] at hmem
    exact ⟨newer, hmem⟩

/-- What is found in a merged table comes from one of its inputs. -/
theorem merged_get_some
    {params : Params} {identifier : Nat} {tables : List SortedTable} {h : tables ≠ []}
    {key : Key} {entry : MemtableEntry}
    (hget : (merged params identifier tables h).get key = some entry) :
    ∃ t ∈ tables, t.get key = some entry := by
  obtain ⟨t, ht, hmem⟩ := mem_of_mem_mergedEntries ((get_eq_some_iff _ _ _).mp hget)
  exact ⟨t, ht, (t.get_eq_some_iff key entry).mpr hmem⟩

/-- What is found in an input is found in the merged table, or something newer is. -/
theorem merged_get_of_input
    (params : Params) (identifier : Nat) {tables : List SortedTable} (h : tables ≠ [])
    {t : SortedTable} {key : Key} {entry : MemtableEntry}
    (ht : t ∈ tables)
    (hget : t.get key = some entry) :
    ∃ newer, (merged params identifier tables h).get key = some newer ∧
      entry.getSeqNumber ≤ newer.getSeqNumber := by
  obtain ⟨newer, hmem, hle⟩ :=
    exists_mem_mergedEntries ht ((t.get_eq_some_iff key entry).mp hget)
  exact ⟨newer, (get_eq_some_iff _ _ _).mpr hmem, hle⟩

end SortedTable
end LsmStore
