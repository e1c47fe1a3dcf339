import LsmStore.Iterate
import LsmStore.Logic.CleanReopen

/-!
# Iteration and lookup

An iterator is built from the memtables and from the tables that may have keys
in the range.  Its items are the entries that a lookup finds, with one
exception: the iterator of a memtable hands out deletions too, so that a deleted
key is among the items as long as its deletion is in a memtable.
-/

namespace LsmStore
namespace Logic

open MergeScan SortedAssoc

/-- The iterators of the memtables. -/
def memIters (reverse : Bool) : List Memtable → Outcome (List InternalIterator)
  | [] => pure []
  | m :: ms => do
      let it ← MemtableIterator.new m reverse
      let its ← memIters reverse ms
      pure (.memtable m it :: its)

/-- The iterators of the tables. -/
def tableIters (layout : (t : SortedTable) → BlockLayout t) (reverse : Bool) :
    List SortedTable → Outcome (List InternalIterator)
  | [] => pure []
  | t :: ts => do
      let it ← TableIterator.new (layout t).blocks reverse
      let its ← tableIters layout reverse ts
      pure (.table it :: its)

/-- A table that is left out. -/
def skipsTable (minKey maxKey : Option Key) (t : SortedTable) : Bool :=
  (minKey.any fun key => decide (t.getMax < key)) || maxKey.any fun key => decide (key < t.getMin)

/-- The tables an iterator reads. -/
def rangeTables (params : Params) (s : DbState) (minKey maxKey : Option Key) :
    List SortedTable :=
  ((List.range params.numLevels).flatMap s.tables).filter fun t => !skipsTable minKey maxKey t

/-- The bounds are in order. -/
def orderedBounds (minKey maxKey : Option Key) : Bool :=
  minKey.all fun min => maxKey.all fun max => decide (min < max)

/-- `prepare_iter` and `prepare_reverse_iter` differ in the direction of the iterators. -/
def prepare (params : Params) (layout : (t : SortedTable) → BlockLayout t) (s : DbState)
    (reverse : Bool) (minKey maxKey : Option Key) : Outcome DbIteratorInner :=
  if orderedBounds minKey maxKey then do
    let mems ← memIters reverse (s.memtable :: s.immMemtables.map Prod.snd)
    let tables ← tableIters layout reverse (rangeTables params s minKey maxKey)
    pure (DbIteratorInner.new mems tables minKey maxKey reverse)
  else .panic "assertion failed: min_key < max_key"

def prepareIter (params : Params) (layout : (t : SortedTable) → BlockLayout t) (s : DbState)
    (minKey maxKey : Option Key) : Outcome DbIteratorInner :=
  prepare params layout s false minKey maxKey

def prepareReverseIter (params : Params) (layout : (t : SortedTable) → BlockLayout t)
    (s : DbState) (maxKey minKey : Option Key) : Outcome DbIteratorInner :=
  prepare params layout s true minKey maxKey

/-- All items of `Database::iter`. -/
def iter (params : Params) (layout : (t : SortedTable) → BlockLayout t) (s : DbState) :
    Outcome (List (Key × EntryRef)) := do
  let d ← prepareIter params layout s none none
  d.items

/-- All items of `Database::range_iter`. -/
def rangeIter (params : Params) (layout : (t : SortedTable) → BlockLayout t) (s : DbState)
    (minKey maxKey : Key) : Outcome (List (Key × EntryRef)) := do
  let d ← prepareIter params layout s (some minKey) (some maxKey)
  d.items

/-- All items of `Database::reverse_range_iter`. -/
def reverseRangeIter (params : Params) (layout : (t : SortedTable) → BlockLayout t)
    (s : DbState) (maxKey minKey : Key) : Outcome (List (Key × EntryRef)) := do
  let d ← prepareReverseIter params layout s (some maxKey) (some minKey)
  d.items

/-- The items of an iterator are the keys of a range that a lookup finds, with their values,
in order. -/
structure AgreesWithGet (params : Params) (s : DbState) (reverse : Bool) (range : Key → Prop)
    (out : List (Key × EntryRef)) : Prop where
  ordered : out.Pairwise fun a b => Before reverse a.1 b.1
  values : ∀ item ∈ out, ∃ value, item.2.getValue = .value value
  items : ∀ key value, (∃ ref, (key, ref) ∈ out ∧ ref.getValue = .value value) ↔
    range key ∧ undisturbedGet params s key = some (some value)

/-- No key of a range has been deleted by an operation that is still in a memtable. -/
def NoMemtableDeletion (s : DbState) (range : Key → Prop) : Prop :=
  ∀ key, range key → ∀ seqNumber, s.memtablesGet key ≠ some (.deletion seqNumber)

/-! ## The sources -/

section Sources

variable {params : Params} {s : DbState} {layout : (t : SortedTable) → BlockLayout t}

/-- Entries in the order of an iterator. -/
def directed (reverse : Bool) (entries : Entries) :
    Entries :=
  if reverse then entries.reverse else entries

theorem mem_directed
    {reverse : Bool} {entries : Entries} {e : Key × MemtableEntry} :
    e ∈ directed reverse entries ↔ e ∈ entries := by
  cases reverse <;> simp [directed]

theorem sorted_directed
    {entries : Entries}
    (h : SortedAssoc.Sorted entries)
    (reverse : Bool) :
    MergeScan.Sorted (Before reverse) (directed reverse entries) := by
  cases reverse with
  | false =>
      exact h
  | true =>
      exact List.pairwise_reverse.mpr h

theorem memtable_new
    (m : Memtable) (reverse : Bool) :
    ∃ it, MemtableIterator.new m reverse = .value it ∧
      (InternalIterator.memtable m it).Valid ∧
      (InternalIterator.memtable m it).remaining = directed reverse m.entries := by
  have hrest := MemtableIterator.rest_start m reverse
  change _ = directed reverse m.entries at hrest
  cases hlist : directed reverse m.entries with
  | nil =>
      rw [hlist] at hrest
      obtain ⟨it, hstep, -, hvalid, hend⟩ := MemtableIterator.step_nil
        (MemtableIterator.valid_start m reverse) (MemtableIterator.atEnd_start m reverse) hrest
      refine ⟨it, hstep, ⟨hvalid, ?_⟩, ?_⟩
      · intro hnot
        cases hend.symm.trans hnot
      · simp [InternalIterator.remaining, hend]
  | cons e l =>
      rw [hlist] at hrest
      obtain ⟨it, hstep, -, hvalid, hend, hitem, hl⟩ := MemtableIterator.step_cons
        (MemtableIterator.valid_start m reverse) hrest
      refine ⟨it, hstep, ⟨hvalid, ?_⟩, ?_⟩
      · intro _ hnone
        cases hitem.symm.trans hnone
      · simp [InternalIterator.remaining, hend, hitem, hl]

theorem memIters_spec
    (reverse : Bool) (ms : List Memtable) :
    ∃ its, memIters reverse ms = .value its ∧ (∀ it ∈ its, it.Valid) ∧
      its.map InternalIterator.remaining = ms.map (fun m => directed reverse m.entries) ∧
      ∀ it ∈ its, it.refOf = fun entry => some (.memtable entry) := by
  induction ms with
  | nil =>
      exact ⟨[], rfl, by simp, rfl, by simp⟩
  | cons m ms ih =>
      obtain ⟨its, hits, hvalid, hrem, href⟩ := ih
      obtain ⟨it, hnew, hvalid', hrem'⟩ := memtable_new m reverse
      refine ⟨.memtable m it :: its, ?_, ?_, ?_, ?_⟩
      · rw [memIters, hnew, Outcome.value_bind, hits]
        rfl
      · exact List.forall_mem_cons.mpr ⟨hvalid', hvalid⟩
      · rw [List.map_cons, hrem', hrem, List.map_cons]
      · exact List.forall_mem_cons.mpr ⟨rfl, href⟩

theorem tableIters_spec
    (layout : (t : SortedTable) → BlockLayout t) (reverse : Bool) (ts : List SortedTable) :
    ∃ its, tableIters layout reverse ts = .value its ∧ (∀ it ∈ its, it.Valid) ∧
      its.map InternalIterator.remaining = ts.map (fun t => directed reverse t.entries) ∧
      ∀ it ∈ its, it.refOf = InternalIterator.tableRef := by
  induction ts with
  | nil =>
      exact ⟨[], rfl, by simp, rfl, by simp⟩
  | cons t ts ih =>
      obtain ⟨its, hits, hvalid, hrem, href⟩ := ih
      obtain ⟨it, hnew, hvalid', -, hend, hrest⟩ := TableIterator.new_spec (layout t) reverse
      have hrem' : (InternalIterator.table it).remaining = directed reverse t.entries := by
        rw [InternalIterator.remaining, hend, if_neg Bool.false_ne_true, hrest]
        rfl
      refine ⟨.table it :: its, ?_, ?_, ?_, ?_⟩
      · rw [tableIters, hnew, Outcome.value_bind, hits]
        rfl
      · exact List.forall_mem_cons.mpr ⟨hvalid', hvalid⟩
      · rw [List.map_cons, hrem', hrem, List.map_cons]
      · exact List.forall_mem_cons.mpr ⟨rfl, href⟩

/-- The memtables of a database, the live one first. -/
def DbState.memtables (s : DbState) : List Memtable :=
  s.memtable :: s.immMemtables.map Prod.snd

/-- What an iterator merges: the memtables and the tables that may have keys in the range. -/
def iterSources (params : Params) (s : DbState) (minKey maxKey : Option Key) :
    List Entries :=
  s.memtables.map Memtable.entries ++ (rangeTables params s minKey maxKey).map SortedTable.entries

/-- The runs of a new iterator. -/
def iterRuns (params : Params) (s : DbState) (reverse : Bool) (minKey maxKey : Option Key) :
    List Entries :=
  (iterSources params s minKey maxKey).map (directed reverse)

/-- What comes out of an entry of a source. -/
def refAt (s : DbState) (j : Nat) (entry : MemtableEntry) : Option EntryRef :=
  if j < s.memtables.length then some (.memtable entry) else InternalIterator.tableRef entry

/-- A new iterator stands at the beginning of all its sources. -/
theorem prepare_spec
    (params : Params) (s : DbState) (layout : (t : SortedTable) → BlockLayout t)
    {minKey maxKey : Option Key}
    (hbounds : orderedBounds minKey maxKey = true)
    (reverse : Bool) :
    ∃ d, prepare params layout s reverse minKey maxKey = .value d ∧ d.Valid ∧
      d.reverse = reverse ∧ d.lastKey = none ∧ d.minKey = minKey ∧ d.maxKey = maxKey ∧
      d.runs = iterRuns params s reverse minKey maxKey ∧
      ∀ (j : Nat) it, d.iterators[j]? = some it → it.refOf = refAt s j := by
  obtain ⟨mems, hmems, hvalid, hrem, href⟩ := memIters_spec reverse s.memtables
  obtain ⟨tables, htables, hvalid', hrem', href'⟩ :=
    tableIters_spec layout reverse (rangeTables params s minKey maxKey)
  have hruns : (mems ++ tables).map InternalIterator.remaining =
      iterRuns params s reverse minKey maxKey := by
    simp [iterRuns, iterSources, hrem, hrem', Function.comp_def]
  have hlength : mems.length = s.memtables.length := by
    simpa using congrArg List.length hrem
  refine ⟨DbIteratorInner.new mems tables minKey maxKey reverse, ?_, ⟨?_, ?_⟩, rfl, rfl, rfl,
    rfl, hruns, ?_⟩
  · rw [prepare, if_pos hbounds]
    change (memIters reverse s.memtables >>= fun mems => _) = _
    rw [hmems, Outcome.value_bind, htables]
    rfl
  · exact List.forall_mem_append.mpr ⟨hvalid, hvalid'⟩
  · intro it hit
    have hmem : it.remaining ∈ (mems ++ tables).map InternalIterator.remaining :=
      List.mem_map_of_mem hit
    rw [hruns, iterRuns, iterSources, List.mem_map] at hmem
    obtain ⟨entries, hentries, heq⟩ := hmem
    rw [← heq]
    refine sorted_directed ?_ reverse
    rcases List.mem_append.mp hentries with hm | ht
    · obtain ⟨m, -, rfl⟩ := List.mem_map.mp hm
      exact m.sorted
    · obtain ⟨t, -, rfl⟩ := List.mem_map.mp ht
      exact t.sorted
  · intro j it hit
    change (mems ++ tables)[j]? = some it at hit
    funext entry
    rw [refAt, ← hlength]
    split_ifs with hj
    · rw [List.getElem?_append_left hj] at hit
      rw [href it (List.mem_of_getElem? hit)]
    · rw [List.getElem?_append_right (by omega)] at hit
      rw [href' it (List.mem_of_getElem? hit)]

end Sources

/-! ## The entries of a key -/

section Entries

variable {params : Params} {s : DbState} {minKey maxKey : Option Key} {key : Key}

theorem le_and_le_of_inRange
    {reverse : Bool}
    (h : InRange reverse minKey maxKey key) :
    (∀ min ∈ minKey, min ≤ key) ∧ ∀ max ∈ maxKey, key ≤ max := by
  unfold InRange at h
  split_ifs at h with hreverse
  · exact ⟨fun min hmin => le_of_lt (h.1 min hmin), h.2⟩
  · exact ⟨h.1, fun max hmax => le_of_lt (h.2 max hmax)⟩

theorem not_skipsTable
    {reverse : Bool} {t : SortedTable} {entry : MemtableEntry}
    (hrange : InRange reverse minKey maxKey key)
    (h : t.get key = some entry) :
    skipsTable minKey maxKey t = false := by
  obtain ⟨hmin, hmax⟩ := t.mem_range h
  obtain ⟨hlow, hhigh⟩ := le_and_le_of_inRange hrange
  rw [skipsTable, Bool.or_eq_false_iff]
  constructor
  · cases minKey with
    | none =>
        rfl
    | some min =>
        have hle : min ≤ t.getMax := le_trans (hlow min rfl) hmax
        simpa using hle
  · cases maxKey with
    | none =>
        rfl
    | some max =>
        have hle : t.getMin ≤ max := le_trans hmin (hhigh max rfl)
        simpa using hle

/-- The memtables have what a lookup finds in them. -/
theorem mem_memtables_iff
    {entry : MemtableEntry} :
    (∃ m ∈ s.memtables, (key, entry) ∈ m.entries) ↔
      entry ∈ (s.memtable.get key).toList ++
        s.immMemtables.reverse.filterMap fun imm => imm.2.get key := by
  have hget : ∀ m : Memtable, (key, entry) ∈ m.entries ↔ m.get key = some entry :=
    fun m => (lookup_eq_some_iff m.sorted key entry).symm
  constructor
  · rintro ⟨m, hm, hmem⟩
    rcases List.mem_cons.mp hm with rfl | himm
    · exact List.mem_append_left _ (Option.mem_toList.mpr ((hget _).mp hmem))
    · obtain ⟨imm, hlist, rfl⟩ := List.mem_map.mp himm
      exact List.mem_append_right _
        (List.mem_filterMap.mpr ⟨imm, List.mem_reverse.mpr hlist, (hget _).mp hmem⟩)
  · intro h
    rcases List.mem_append.mp h with hlive | himm
    · exact ⟨s.memtable, List.mem_cons_self, (hget _).mpr (Option.mem_toList.mp hlive)⟩
    · obtain ⟨imm, himm, hfound⟩ := List.mem_filterMap.mp himm
      exact ⟨imm.2, List.mem_cons_of_mem _ (List.mem_map_of_mem (List.mem_reverse.mp himm)),
        (hget _).mpr hfound⟩

/-- The sources have the entries of the lookup path, and none besides. -/
theorem mem_iterSources_iff
    {reverse : Bool} {entry : MemtableEntry}
    (hrange : InRange reverse minKey maxKey key) :
    (∃ run ∈ iterSources params s minKey maxKey, (key, entry) ∈ run) ↔
      entry ∈ lookupPath params s key := by
  rw [lookupPath, List.mem_append, ← mem_memtables_iff]
  constructor
  · rintro ⟨run, hrun, hmem⟩
    rcases List.mem_append.mp hrun with hm | ht
    · obtain ⟨m, hm', rfl⟩ := List.mem_map.mp hm
      exact Or.inl ⟨m, hm', hmem⟩
    · obtain ⟨t, ht', rfl⟩ := List.mem_map.mp ht
      obtain ⟨level, hlevel, hlist⟩ := List.mem_flatMap.mp (List.mem_of_mem_filter ht')
      refine Or.inr (List.mem_flatMap.mpr ⟨level, hlevel, List.mem_filterMap.mpr ⟨t, ?_, ?_⟩⟩)
      · exact List.mem_reverse.mpr hlist
      · exact (t.get_eq_some_iff key entry).mpr hmem
  · rintro (⟨m, hm, hmem⟩ | hlevels)
    · exact ⟨m.entries, List.mem_append_left _ (List.mem_map_of_mem hm), hmem⟩
    · obtain ⟨level, hlevel, hlist⟩ := List.mem_flatMap.mp hlevels
      obtain ⟨t, ht, hget⟩ := List.mem_filterMap.mp hlist
      refine ⟨t.entries, List.mem_append_right _ (List.mem_map_of_mem ?_),
        (t.get_eq_some_iff key entry).mp hget⟩
      refine List.mem_filter.mpr ⟨List.mem_flatMap.mpr ⟨level, hlevel, ?_⟩, ?_⟩
      · exact List.mem_reverse.mp ht
      · rw [not_skipsTable hrange hget]
        rfl

/-- What the memtables have of a key comes first on the lookup path. -/
theorem head?_lookupPath_eq_or
    (params : Params) (s : DbState) (key : Key) :
    (lookupPath params s key).head? = (s.memtablesGet key).or
      ((List.range params.numLevels).flatMap fun level =>
        (s.tables level).reverse.filterMap fun table => table.get key).head? := by
  rw [lookupPath, List.head?_append, List.head?_append, List.head?_filterMap,
    DbState.memtablesGet]
  cases s.memtable.get key <;> rfl

theorem memtablesGet_eq_head?
    (s : DbState) (key : Key) :
    s.memtablesGet key = ((s.memtable.get key).toList ++
      s.immMemtables.reverse.filterMap fun imm => imm.2.get key).head? := by
  rw [List.head?_append, List.head?_filterMap, DbState.memtablesGet]
  cases s.memtable.get key <;> rfl

variable {reverse : Bool} {j : Nat} {entry : MemtableEntry}

theorem VersionInv.head?_of_winner
    (h : VersionInv params s)
    (hrange : InRange reverse minKey maxKey key)
    (hwin : Winner MemtableEntry.getSeqNumber (iterRuns params s reverse minKey maxKey)
      j key entry) :
    (lookupPath params s key).head? = some entry := by
  obtain ⟨run, hrun, hmem⟩ := hwin.mem
  rw [iterRuns, List.getElem?_map, Option.map_eq_some_iff] at hrun
  obtain ⟨source, hsource, rfl⟩ := hrun
  have hpath : entry ∈ lookupPath params s key :=
    (mem_iterSources_iff hrange).mp ⟨source, List.mem_of_getElem? hsource, mem_directed.mp hmem⟩
  cases hlist : lookupPath params s key with
  | nil =>
      rw [hlist] at hpath
      cases hpath
  | cons top rest =>
      have htop : top ∈ lookupPath params s key := by
        rw [hlist]
        exact List.mem_cons_self
      -- the first entry of the path is in a source too, and loses against the winner
      obtain ⟨source', hsource', hmem'⟩ :=
        (mem_iterSources_iff hrange).mpr htop
      obtain ⟨i, hi⟩ := List.getElem?_of_mem hsource'
      have hwins := hwin.wins i (directed reverse source') top
        (by rw [iterRuns, List.getElem?_map, hi]; rfl) (mem_directed.mpr hmem')
      have hle : entry.getSeqNumber ≤ top.getSeqNumber := by
        have hsorted := h.pairwise_lookupPath key
        rw [hlist] at hpath hsorted
        rcases List.mem_cons.mp hpath with rfl | hrest
        · exact le_refl _
        · exact (List.pairwise_cons.mp hsorted).1 entry hrest
      rw [List.head?_cons, h.eq_of_seqNumber_eq htop hpath (by omega)]

/-- The winner of a key is in a memtable if any memtable has the key: the iterators of the
memtables come first. -/
theorem VersionInv.lt_iff_of_winner
    (h : VersionInv params s)
    (hrange : InRange reverse minKey maxKey key)
    (hwin : Winner MemtableEntry.getSeqNumber (iterRuns params s reverse minKey maxKey)
      j key entry) :
    j < s.memtables.length ↔ (s.memtablesGet key).isSome := by
  have hhead := h.head?_of_winner hrange hwin
  constructor
  · intro hj
    obtain ⟨run, hrun, hmem⟩ := hwin.mem
    rw [iterRuns, List.getElem?_map, Option.map_eq_some_iff] at hrun
    obtain ⟨source, hsource, rfl⟩ := hrun
    rw [iterSources, List.getElem?_append_left (by simpa using hj), List.getElem?_map,
      Option.map_eq_some_iff] at hsource
    obtain ⟨m, hm, rfl⟩ := hsource
    have hfound := mem_memtables_iff.mp ⟨m, List.mem_of_getElem? hm, mem_directed.mp hmem⟩
    rw [memtablesGet_eq_head?, List.isSome_head?]
    simpa using List.ne_nil_of_mem hfound
  · intro hsome
    obtain ⟨newest, hnewest⟩ := Option.isSome_iff_exists.mp hsome
    rw [head?_lookupPath_eq_or, hnewest, Option.some_or, Option.some.injEq] at hhead
    subst hhead
    rw [memtablesGet_eq_head?] at hnewest
    obtain ⟨m, hm, hmem⟩ := mem_memtables_iff.mpr (List.mem_of_mem_head? hnewest)
    obtain ⟨i, hi⟩ := List.getElem?_of_mem hm
    have hlt : i < s.memtables.length := (List.getElem?_eq_some_iff.mp hi).1
    have hwins := hwin.wins i (directed reverse m.entries) newest (by
      rw [iterRuns, iterSources, List.getElem?_map,
        List.getElem?_append_left (by simpa using hlt), List.getElem?_map, hi]
      rfl) (mem_directed.mpr hmem)
    omega

/-- What an iterator makes of the entry that a lookup finds. -/
def itemRef (s : DbState) (key : Key) (entry : MemtableEntry) : Option EntryRef :=
  if (s.memtablesGet key).isSome then some (.memtable entry)
  else InternalIterator.tableRef entry

theorem VersionInv.refAt_of_winner
    (h : VersionInv params s)
    (hrange : InRange reverse minKey maxKey key)
    (hwin : Winner MemtableEntry.getSeqNumber (iterRuns params s reverse minKey maxKey)
      j key entry) :
    refAt s j entry = itemRef s key entry := by
  simp only [refAt, itemRef, h.lt_iff_of_winner hrange hwin]

end Entries

/-! ## The items -/

section Items

variable {params : Params} {s : DbState}

/-- **The items of an iterator** are what the sources make of the entries that a lookup finds. -/
theorem VersionInv.items_prepare
    (h : VersionInv params s)
    (layout : (t : SortedTable) → BlockLayout t) (reverse : Bool)
    {minKey maxKey : Option Key}
    (hbounds : orderedBounds minKey maxKey = true) :
    ∃ out, (do
        let d ← prepare params layout s reverse minKey maxKey
        d.items) = .value out ∧
      out.Pairwise (fun a b => Before reverse a.1 b.1) ∧
      ∀ key ref, (key, ref) ∈ out ↔ InRange reverse minKey maxKey key ∧
        ∃ entry, (lookupPath params s key).head? = some entry ∧
          itemRef s key entry = some ref := by
  obtain ⟨d, hprepare, hvalid, hreverse, hlast, rfl, rfl, hruns, href⟩ :=
    prepare_spec params s layout hbounds reverse
  subst hreverse
  obtain ⟨out, hout, hpairwise, hmem⟩ := DbIteratorInner.items_spec hvalid
  rw [hprepare, Outcome.value_bind]
  refine ⟨out, hout, hpairwise, ?_⟩
  intro key ref
  rw [hmem, hruns]
  constructor
  · rintro ⟨j, entry, it, hwin, hahead, hit, hitem⟩
    have hrange := (DbIteratorInner.ahead_iff_inRange hlast key).mp hahead
    refine ⟨hrange, entry, h.head?_of_winner hrange hwin, ?_⟩
    rw [← h.refAt_of_winner hrange hwin, ← href j it hit]
    exact hitem
  · rintro ⟨hrange, entry, hhead, hitem⟩
    obtain ⟨source, hsource, hfound⟩ :=
      (mem_iterSources_iff hrange).mpr (List.mem_of_mem_head? hhead)
    have hrun : directed d.reverse source ∈ d.runs := by
      rw [hruns]
      exact List.mem_map_of_mem hsource
    obtain ⟨j, winner, hwin⟩ := exists_winner hvalid.sorted_runs MemtableEntry.getSeqNumber
      hrun (mem_directed.mpr hfound)
    rw [hruns] at hwin
    obtain rfl : winner = entry :=
      Option.some.inj ((h.head?_of_winner hrange hwin).symm.trans hhead)
    obtain ⟨run, hj, -⟩ := hwin.mem
    rw [← hruns, DbIteratorInner.runs, List.getElem?_map, Option.map_eq_some_iff] at hj
    obtain ⟨it, hit, -⟩ := hj
    refine ⟨j, winner, it, hwin, (DbIteratorInner.ahead_iff_inRange hlast key).mpr hrange, hit, ?_⟩
    rw [href j it hit, h.refAt_of_winner hrange hwin]
    exact hitem

/-- The items of an iterator agree with lookups exactly if no deletion in a memtable is in the
range. -/
theorem VersionInv.agrees_iff
    (h : VersionInv params s)
    (layout : (t : SortedTable) → BlockLayout t) (reverse : Bool)
    {minKey maxKey : Option Key} {range : Key → Prop}
    (hbounds : orderedBounds minKey maxKey = true)
    (hrange : ∀ key, InRange reverse minKey maxKey key ↔ range key) :
    (∃ out, (do
        let d ← prepare params layout s reverse minKey maxKey
        d.items) = .value out ∧ AgreesWithGet params s reverse range out) ↔
      NoMemtableDeletion s range := by
  obtain ⟨out, hout, hpairwise, hmem⟩ := h.items_prepare layout reverse hbounds
  rw [hout]
  constructor
  · rintro ⟨out', heq, hagrees⟩ key hkey seqNumber hdel
    cases heq
    -- the deletion itself is an item
    have hitem : (key, EntryRef.memtable (.deletion seqNumber)) ∈ out := by
      refine (hmem _ _).mpr ⟨(hrange key).mpr hkey, .deletion seqNumber, ?_, ?_⟩
      · rw [head?_lookupPath_eq_or, hdel, Option.some_or]
      · rw [itemRef, hdel]
        rfl
    obtain ⟨value, hvalue⟩ := hagrees.values _ hitem
    cases hvalue
  · intro hno
    have hvalue : ∀ key ref, (key, ref) ∈ out → ∃ seqNumber value,
        ref.getValue = .value value ∧
          (lookupPath params s key).head? = some (.value seqNumber value) := by
      intro key ref hitem
      obtain ⟨hkey, entry, hhead, href⟩ := (hmem key ref).mp hitem
      unfold itemRef at href
      split_ifs at href with hsome
      · obtain ⟨newest, hnewest⟩ := Option.isSome_iff_exists.mp hsome
        rw [head?_lookupPath_eq_or, hnewest, Option.some_or] at hhead
        cases hhead
        cases href
        cases entry with
        | value seqNumber value =>
            exact ⟨seqNumber, value, rfl, by rw [head?_lookupPath_eq_or, hnewest]; rfl⟩
        | deletion seqNumber =>
            exact absurd hnewest (hno key ((hrange key).mp hkey) seqNumber)
      · cases entry with
        | value seqNumber value =>
            cases href
            exact ⟨seqNumber, value, rfl, hhead⟩
        | deletion seqNumber =>
            cases href
    refine ⟨out, rfl, hpairwise, ?_, ?_⟩
    · rintro ⟨key, ref⟩ hitem
      obtain ⟨seqNumber, value, hget, -⟩ := hvalue key ref hitem
      exact ⟨value, hget⟩
    · intro key value
      rw [undisturbedGet_eq, Option.some.injEq]
      constructor
      · rintro ⟨ref, hitem, hget⟩
        obtain ⟨seqNumber, value', hget', hhead⟩ := hvalue key ref hitem
        refine ⟨(hrange key).mp ((hmem key ref).mp hitem).1, ?_⟩
        rw [hget] at hget'
        cases hget'
        rw [hhead]
        rfl
      · rintro ⟨hkey, hget⟩
        obtain ⟨entry, hhead, hentry⟩ := Option.bind_eq_some_iff.mp hget
        cases entry with
        | value seqNumber v =>
            cases hentry
            have href : ∃ ref, itemRef s key (.value seqNumber value) = some ref ∧
                ref.getValue = .value value := by
              unfold itemRef
              split_ifs
              · exact ⟨_, rfl, rfl⟩
              · exact ⟨_, rfl, rfl⟩
            obtain ⟨ref, href, href'⟩ := href
            exact ⟨ref, (hmem key ref).mpr ⟨(hrange key).mpr hkey, _, hhead, href⟩, href'⟩
        | deletion seqNumber =>
            cases hentry

end Items

/-- **Iteration agrees with lookup** in exactly those states in which no deletion of a key of
the range is in a memtable: the items are the keys that a lookup finds, with their values, in
strictly increasing order, or in strictly decreasing order for a reverse iterator.  The start
of a range is included, its end is not. -/
theorem iteration_agrees_iff
    (params : Params) (numTasks : Nat) (s₀ : DbState) (events : List DbEvent)
    (layout : (t : SortedTable) → BlockLayout t)
    (hreach : Reachable params numTasks s₀) :
    let s := s₀.run params events
    (∀ minKey maxKey : Key, minKey < maxKey →
      ((∃ out, rangeIter params layout s minKey maxKey = .value out ∧
          AgreesWithGet params s false (fun key => minKey ≤ key ∧ key < maxKey) out) ↔
        NoMemtableDeletion s fun key => minKey ≤ key ∧ key < maxKey) ∧
      ((∃ out, reverseRangeIter params layout s maxKey minKey = .value out ∧
          AgreesWithGet params s true (fun key => minKey < key ∧ key ≤ maxKey) out) ↔
        NoMemtableDeletion s fun key => minKey < key ∧ key ≤ maxKey)) ∧
    ((∃ out, iter params layout s = .value out ∧
        AgreesWithGet params s false (fun _ => True) out) ↔
      NoMemtableDeletion s fun _ => True) := by
  intro s
  have h : VersionInv params s :=
    Runs.invariant (versionInv_step params) (crashInv_reachable hreach).reg.versions events
  refine ⟨?_, ?_⟩
  · intro minKey maxKey hlt
    have hbounds : orderedBounds (some minKey) (some maxKey) = true := by
      simpa [orderedBounds] using hlt
    exact ⟨h.agrees_iff layout false hbounds (by simp [InRange]),
      h.agrees_iff layout true hbounds (by simp [InRange])⟩
  · exact h.agrees_iff layout false rfl (by simp [InRange])

/-- A write of a key and its deletion, each followed by some steps of the flusher. -/
def putThenDelete (steps : Nat) : List DbEvent :=
  writeThenFlush 5 steps ++ .write [.delete (ByteVec.ofList [1])] :: List.replicate steps .flusher

/-- The deletion has been flushed: the key is gone from the iterators, too. -/
theorem iteration_agrees_flushed :
    let s := (DbState.new smallParams 1).run smallParams (putThenDelete 11)
    s.Quiescent ∧ (s.tables 0).length = 2 ∧ ∃ out, iter smallParams oneBlock s = .value out ∧
      AgreesWithGet smallParams s false (fun _ => True) out := by
  intro s
  have hlive : s.memtable.entries = [] := by
    decide +kernel
  have himm : s.immMemtables = [] := by
    decide +kernel
  refine ⟨by decide +kernel, by decide +kernel,
    (iteration_agrees_iff smallParams 1 _ (putThenDelete 11) oneBlock .new).2.mpr ?_⟩
  rintro key - seqNumber
  change s.memtablesGet key ≠ _
  simp [DbState.memtablesGet, himm, Memtable.get, hlive, lookup]

/-- A key that was written and deleted in one batch is an item of every iterator as long as
the deletion is in a memtable, and the item has no value. -/
theorem deleted_key_iterated :
    let key : Key := ByteVec.ofList [1]
    let s := (DbState.new smallParams 1).run smallParams
      [.write [.put key (ByteVec.ofList [5]), .delete key]]
    s.Quiescent ∧ undisturbedGet smallParams s key = some none ∧
      iter smallParams oneBlock s = .value [(key, .memtable (.deletion 2))] ∧
      rangeIter smallParams oneBlock s key (ByteVec.ofList [2]) =
        .value [(key, .memtable (.deletion 2))] ∧
      reverseRangeIter smallParams oneBlock s key (ByteVec.ofList [0]) =
        .value [(key, .memtable (.deletion 2))] ∧
      (EntryRef.memtable (.deletion 2)).getValue =
        .panic "called `Option::unwrap()` on a `None` value" := by
  decide +kernel

end Logic
end LsmStore
