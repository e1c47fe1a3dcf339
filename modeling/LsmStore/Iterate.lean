import LsmStore.Lib.MergeScan
import LsmStore.MemtableIterator
import LsmStore.TableIterator

/-!
# Iterating over the database

A database iterator merges the iterators of the memtables and of the tables.
For each item it brings every iterator up to the last key and to the bounds,
picks the smallest key, the largest one in reverse direction, and among the
entries of that key the one with the highest sequence number.  What the iterator
it comes from makes of the entry is the item; a table iterator makes nothing of
a deletion, and then the search goes on.

The two directions have the same text in the source with all comparisons turned
round; `Before` is the comparison.
-/

namespace LsmStore

open MergeScan

/-- What an iterator or a lookup hands out. -/
inductive EntryRef where
  | sortedTable (entry : MemtableEntry)
  | memtable (entry : MemtableEntry)
deriving DecidableEq

namespace EntryRef

def entry : EntryRef → MemtableEntry
  | sortedTable entry => entry
  | memtable entry => entry

def getValue (ref : EntryRef) : Outcome Value :=
  match ref.entry.getValue with
  | some value => .value value
  | none => .panic "called `Option::unwrap()` on a `None` value"

end EntryRef

/-- The order in which keys are visited. -/
def Before (reverse : Bool) (a b : Key) : Prop :=
  if reverse then b < a else a < b

instance (reverse : Bool) : DecidableRel (Before reverse) :=
  fun a b => inferInstanceAs (Decidable (if reverse then b < a else a < b))

instance (reverse : Bool) : IsStrictTotalOrder Key (Before reverse) := by
  cases reverse with
  | false =>
      exact inferInstanceAs (IsStrictTotalOrder Key (· < ·))
  | true =>
      exact inferInstanceAs (IsStrictTotalOrder Key (· > ·))

/-- The keys an iterator is to visit: the bound it starts from is included, the one at which
it stops is not. -/
def InRange (reverse : Bool) (minKey maxKey : Option Key) (key : Key) : Prop :=
  if reverse then (∀ min ∈ minKey, min < key) ∧ ∀ max ∈ maxKey, key ≤ max
  else (∀ min ∈ minKey, min ≤ key) ∧ ∀ max ∈ maxKey, key < max

/-- An iterator over one source. -/
inductive InternalIterator where
  | memtable (m : Memtable) (it : MemtableIterator)
  | table (it : TableIterator)

namespace InternalIterator

def atEnd : InternalIterator → Bool
  | memtable m it => it.atEnd m
  | table it => it.atEnd

def step : InternalIterator → Outcome InternalIterator
  | memtable m it => do
      let it ← it.step m
      pure (memtable m it)
  | table it => do
      let it ← it.step
      pure (table it)

def getKey : InternalIterator → Outcome Key
  | memtable _ it => it.getKey
  | table it => pure it.key

def getSeqNumber : InternalIterator → Outcome Nat
  | memtable _ it => do
      let entry ← it.getMemtableEntry
      pure entry.getSeqNumber
  | table it => pure it.entry.getSeqNumber

/-- What a table makes of an entry. -/
def tableRef : MemtableEntry → Option EntryRef
  | .value seqNumber value => some (.sortedTable (.value seqNumber value))
  | .deletion _ => none

/-- `None` is meant to stand for a deletion; the memtable hands out deletions as well. -/
def getEntry : InternalIterator → Option EntryRef
  | memtable _ it => it.entry.map EntryRef.memtable
  | table it => tableRef it.entry

/-- There are at most so many entries from the current one on. -/
def maxSteps : InternalIterator → Nat
  | memtable m _ => m.entries.length + 1
  | table it => it.blocks.flatten.length + 1

/-- `while !iter.at_end() && p(iter.get_key()) { iter.step() }`. -/
def skipWhile (p : Key → Bool) : Nat → InternalIterator → Outcome InternalIterator
  | 0, _ => .unfinished
  | fuel + 1, it =>
      if it.atEnd then pure it
      else do
        let key ← it.getKey
        if p key then
          let it ← it.step
          skipWhile p fuel it
        else pure it

/-- The loop makes at most one step for each entry. -/
def skip (p : Key → Bool) (it : InternalIterator) : Outcome InternalIterator :=
  it.skipWhile p (it.maxSteps + 1)

/-- The same for a bound, if there is one. -/
def skipBound (p : Key → Key → Bool) (bound : Option Key) (it : InternalIterator) :
    Outcome InternalIterator :=
  match bound with
  | some key => it.skip (p key)
  | none => pure it

end InternalIterator

/-- The sequence number and the place of the entry that was picked. -/
abbrev NextKV := Option (Nat × Nat)

structure DbIteratorInner where
  lastKey : Option Key
  iterators : List InternalIterator
  reverse : Bool
  minKey : Option Key
  maxKey : Option Key

namespace DbIteratorInner

def new (memIters : List InternalIterator) (tableIters : List InternalIterator)
    (minKey maxKey : Option Key) (reverse : Bool) : DbIteratorInner where
  lastKey := none
  iterators := memIters ++ tableIters
  reverse := reverse
  minKey := minKey
  maxKey := maxKey

/-- The bound at which the iteration begins; it is included. -/
def startKey (d : DbIteratorInner) : Option Key :=
  if d.reverse then d.maxKey else d.minKey

/-- The bound at which the iteration ends; it is excluded. -/
def stopKey (d : DbIteratorInner) : Option Key :=
  if d.reverse then d.minKey else d.maxKey

def iterAt (d : DbIteratorInner) (pos : Nat) : Outcome InternalIterator :=
  match d.iterators[pos]? with
  | some it => .value it
  | none => .panic "index out of bounds"

/-- First part of `parse_iter`: the iterator might be behind the others, or before the first
bound. -/
def catchUp (d : DbIteratorInner) (it : InternalIterator) : Outcome InternalIterator := do
  let it ← it.skipBound (fun lastKey key => !decide (Before d.reverse lastKey key)) d.lastKey
  it.skipBound (fun startKey key => decide (Before d.reverse key startKey)) d.startKey

/-- Second part of `parse_iter`: is what the iterator stands at better than what was picked
so far? -/
def offer (d : DbIteratorInner) (pos : Nat) (it : InternalIterator) (nextKv : NextKV) :
    Outcome (Bool × NextKV) :=
  if it.atEnd then pure (false, nextKv)
  else do
    let key ← it.getKey
    if d.startKey.any fun startKey => decide (Before d.reverse key startKey) then
      pure (false, nextKv)
    else if d.stopKey.any fun stopKey => !decide (Before d.reverse key stopKey) then
      pure (false, nextKv)
    else
      let seqNumber ← it.getSeqNumber
      match nextKv with
      | none => pure (true, some (seqNumber, pos))
      | some (nextSeqNumber, nextPos) => do
          let nextIter ← d.iterAt nextPos
          let nextKey ← nextIter.getKey
          if Before d.reverse key nextKey then pure (true, some (seqNumber, pos))
          else if key = nextKey then
            if nextSeqNumber < seqNumber then pure (true, some (seqNumber, pos))
            else pure (false, nextKv)
          else pure (false, nextKv)

def parseIter (d : DbIteratorInner) (pos : Nat) (nextKv : NextKV) :
    Outcome (DbIteratorInner × Bool × NextKV) := do
  let it ← d.iterAt pos
  let it ← d.catchUp it
  let d := { d with iterators := d.iterators.set pos it }
  let found ← d.offer pos it nextKv
  pure (d, found)

/-- `for pos in 0..n`. -/
def parseIters : Nat → DbIteratorInner → Outcome (DbIteratorInner × NextKV)
  | 0, d => pure (d, none)
  | pos + 1, d => do
      let before ← parseIters pos d
      let after ← before.1.parseIter pos before.2
      pure (after.1, if after.2.1 then after.2.2 else before.2)

/-- `while result.is_none()`. -/
def nextLoop : Nat → DbIteratorInner → Outcome (DbIteratorInner × Option (Key × EntryRef))
  | 0, _ => .unfinished
  | fuel + 1, d => do
      let parsed ← parseIters d.iterators.length d
      match parsed.2 with
      | none => pure (parsed.1, none)
      | some nextKv => do
          let it ← parsed.1.iterAt nextKv.2
          let key ← it.getKey
          let d := { parsed.1 with lastKey := some key }
          match it.getEntry with
          | some entry => pure (d, some (key, entry))
          | none => nextLoop fuel d

/-- There are at most so many entries in all sources. -/
def maxSteps (d : DbIteratorInner) : Nat :=
  (d.iterators.map InternalIterator.maxSteps).sum

/-- Every round of the loop but the last uses up an entry. -/
def next (d : DbIteratorInner) : Outcome (DbIteratorInner × Option (Key × EntryRef)) :=
  nextLoop (d.maxSteps + 1) d

/-- Call `next` until it returns `None`. -/
def collect : Nat → DbIteratorInner → Outcome (List (Key × EntryRef))
  | 0, _ => .unfinished
  | fuel + 1, d => do
      let result ← d.next
      match result.2 with
      | none => pure []
      | some item => do
          let items ← collect fuel result.1
          pure (item :: items)

/-- All items of an iterator. -/
def items (d : DbIteratorInner) : Outcome (List (Key × EntryRef)) :=
  collect (d.maxSteps + 1) d

end DbIteratorInner

/-! ## One source -/

namespace InternalIterator

/-- The entries from the current one on. -/
def remaining : InternalIterator → Entries
  | memtable m it => if it.atEnd m then [] else it.item.toList ++ it.rest m
  | table it => if it.atEnd then [] else (it.key, it.entry) :: it.rest

def Valid : InternalIterator → Prop
  | memtable m it => it.Valid m ∧ (it.atEnd m = false → it.item ≠ none)
  | table it => it.Valid

/-- What the source makes of an entry. -/
def refOf : InternalIterator → MemtableEntry → Option EntryRef
  | memtable _ _ => fun entry => some (.memtable entry)
  | table _ => tableRef

section Source

variable {it : InternalIterator}

theorem atEnd_iff
    (h : it.Valid) :
    it.atEnd = true ↔ it.remaining = [] := by
  cases it with
  | memtable m it =>
      cases hend : it.atEnd m with
      | true =>
          simp [atEnd, remaining, hend]
      | false =>
          obtain ⟨e, he⟩ := Option.ne_none_iff_exists'.mp (h.2 hend)
          simp [atEnd, remaining, hend, he]
  | table it =>
      cases hend : it.atEnd <;> simp [atEnd, remaining, hend]

theorem front
    {e : Key × MemtableEntry} {l : Entries}
    (h : it.Valid)
    (hrem : it.remaining = e :: l) :
    it.atEnd = false ∧ it.getKey = .value e.1 ∧ it.getSeqNumber = .value e.2.getSeqNumber ∧
      it.getEntry = it.refOf e.2 := by
  have hend : it.atEnd = false := by
    rw [← Bool.not_eq_true, atEnd_iff h, hrem]
    simp
  refine ⟨hend, ?_⟩
  cases it with
  | memtable m it =>
      obtain ⟨e', hitem⟩ := Option.ne_none_iff_exists'.mp (h.2 hend)
      have hend' : it.atEnd m = false := hend
      simp only [remaining, hend', Bool.false_eq_true, if_false, hitem, Option.toList_some,
        List.singleton_append, List.cons.injEq] at hrem
      rw [hrem.1] at hitem
      obtain ⟨key, hkey, hmap⟩ := Option.bind_eq_some_iff.mp hitem
      obtain ⟨entry, hentry, rfl⟩ := Option.map_eq_some_iff.mp hmap
      simp [getKey, getSeqNumber, getEntry, refOf, MemtableIterator.getKey,
        MemtableIterator.getMemtableEntry, hkey, hentry]
  | table it =>
      have hend' : it.atEnd = false := hend
      simp only [remaining, hend', Bool.false_eq_true, if_false, List.cons.injEq] at hrem
      rw [← hrem.1]
      exact ⟨rfl, rfl, rfl⟩

theorem step_spec
    {e : Key × MemtableEntry} {l : Entries}
    (h : it.Valid)
    (hrem : it.remaining = e :: l) :
    ∃ it', it.step = .value it' ∧ it'.Valid ∧ it'.refOf = it.refOf ∧
      it'.remaining = l := by
  have hend := (front h hrem).1
  cases it with
  | memtable m it =>
      have hend' : it.atEnd m = false := hend
      obtain ⟨e', hitem⟩ := Option.ne_none_iff_exists'.mp (h.2 hend)
      simp only [remaining, hend', Bool.false_eq_true, if_false, hitem, Option.toList_some,
        List.singleton_append, List.cons.injEq] at hrem
      cases l with
      | nil =>
          obtain ⟨it', hstep, -, hvalid, hend''⟩ :=
            MemtableIterator.step_nil h.1 hend' hrem.2
          refine ⟨memtable m it', by simp [step, hstep], ⟨hvalid, ?_⟩, rfl, ?_⟩
          · intro hnot
            cases hend''.symm.trans hnot
          · simp [remaining, hend'']
      | cons e'' l =>
          obtain ⟨it', hstep, -, hvalid, hend'', hitem', hrest⟩ :=
            MemtableIterator.step_cons h.1 hrem.2
          refine ⟨memtable m it', by simp [step, hstep], ⟨hvalid, ?_⟩, rfl, ?_⟩
          · intro _ hnone
            cases hitem'.symm.trans hnone
          · simp [remaining, hend'', hitem', hrest]
  | table it =>
      have hend' : it.atEnd = false := hend
      simp only [remaining, hend', Bool.false_eq_true, if_false, List.cons.injEq] at hrem
      cases l with
      | nil =>
          obtain ⟨it', hstep, hvalid, -, hend''⟩ := TableIterator.step_nil h hend' hrem.2
          refine ⟨table it', by simp [step, hstep], hvalid, rfl, ?_⟩
          simp [remaining, hend'']
      | cons e'' l =>
          obtain ⟨it', hstep, hvalid, -, hend'', hkey, hentry, hrest⟩ :=
            TableIterator.step_cons h hrem.2
          refine ⟨table it', by simp [step, hstep], hvalid, rfl, ?_⟩
          simp [remaining, hend'', hkey, hentry, hrest]

theorem skipWhile_spec
    {fuel : Nat}
    (p : Key → Bool)
    (h : it.Valid)
    (hfuel : it.remaining.length < fuel) :
    ∃ it', it.skipWhile p fuel = .value it' ∧ it'.Valid ∧ it'.refOf = it.refOf ∧
      it'.remaining = it.remaining.dropWhile fun e => p e.1 := by
  induction fuel generalizing it with
  | zero =>
      omega
  | succ fuel ih =>
      rw [skipWhile]
      cases hrem : it.remaining with
      | nil =>
          rw [(atEnd_iff h).mpr hrem, if_pos rfl]
          exact ⟨it, rfl, h, rfl, hrem⟩
      | cons e l =>
          obtain ⟨hend, hkey, -, -⟩ := front h hrem
          rw [hend, if_neg Bool.false_ne_true, hkey, Outcome.value_bind]
          cases hp : p e.1 with
          | true =>
              obtain ⟨it', hstep, hvalid, href, hrem'⟩ := step_spec h hrem
              rw [hrem, List.length_cons] at hfuel
              obtain ⟨it'', hloop, hvalid', href', hrem''⟩ :=
                ih hvalid (by rw [hrem']; omega)
              rw [if_pos rfl, hstep, Outcome.value_bind]
              refine ⟨it'', hloop, hvalid', href'.trans href, ?_⟩
              rw [hrem'', hrem', List.dropWhile_cons_of_pos (by simpa using hp)]
          | false =>
              rw [if_neg Bool.false_ne_true]
              refine ⟨it, rfl, h, rfl, ?_⟩
              rw [hrem, List.dropWhile_cons_of_neg (by simp [hp])]

theorem length_remaining_le
    (it : InternalIterator) :
    it.remaining.length ≤ it.maxSteps := by
  cases it with
  | memtable m it =>
      have hitem : it.item.toList.length ≤ 1 := by cases it.item <;> simp
      have hrest : (it.rest m).length ≤ m.entries.length := by
        unfold MemtableIterator.rest
        split_ifs
        · rw [List.length_reverse]
          exact (List.take_sublist _ _).length_le
        · exact (List.drop_sublist _ _).length_le
      simp only [remaining, maxSteps]
      split_ifs
      · exact Nat.zero_le _
      · rw [List.length_append]
        omega
  | table it =>
      have hrest : it.rest.length ≤ it.blocks.flatten.length := it.length_rest_le
      simp only [remaining, maxSteps]
      split_ifs
      · exact Nat.zero_le _
      · rw [List.length_cons]
        omega

theorem skip_spec
    (p : Key → Bool)
    (h : it.Valid) :
    ∃ it', it.skip p = .value it' ∧ it'.Valid ∧ it'.refOf = it.refOf ∧
      it'.remaining = it.remaining.dropWhile fun e => p e.1 :=
  skipWhile_spec p h (Nat.lt_succ_of_le it.length_remaining_le)

theorem skipBound_spec
    (p : Key → Key → Bool) (bound : Option Key)
    (h : it.Valid) :
    ∃ it', it.skipBound p bound = .value it' ∧ it'.Valid ∧ it'.refOf = it.refOf ∧
      it'.remaining = it.remaining.dropWhile fun e => bound.any fun key => p key e.1 := by
  cases bound with
  | none =>
      refine ⟨it, rfl, h, rfl, ?_⟩
      cases it.remaining with
      | nil =>
          rfl
      | cons e l =>
          rfl
  | some key =>
      exact skip_spec (p key) h

end Source
end InternalIterator

/-! ## The merge -/

namespace DbIteratorInner

def bounds (d : DbIteratorInner) : Bounds Key :=
  ⟨d.startKey, d.stopKey⟩

/-- What the iterators have left. -/
def runs (d : DbIteratorInner) : List Entries :=
  d.iterators.map InternalIterator.remaining

structure Valid (d : DbIteratorInner) : Prop where
  valid : ∀ it ∈ d.iterators, it.Valid
  sorted : ∀ it ∈ d.iterators, Sorted (Before d.reverse) it.remaining

theorem Valid.sorted_runs
    {d : DbIteratorInner}
    (h : d.Valid) :
    ∀ run ∈ d.runs, Sorted (Before d.reverse) run := by
  intro run hrun
  obtain ⟨it, hit, rfl⟩ := List.mem_map.mp hrun
  exact h.sorted it hit

section Parse

variable {d : DbIteratorInner} {it : InternalIterator}

theorem catchUp_spec
    (h : it.Valid) :
    ∃ it', d.catchUp it = .value it' ∧ it'.Valid ∧ it'.refOf = it.refOf ∧
      it'.remaining = cut (Before d.reverse) d.bounds d.lastKey it.remaining := by
  obtain ⟨it₁, h₁, hvalid₁, href₁, hrem₁⟩ := InternalIterator.skipBound_spec
    (fun lastKey key => !decide (Before d.reverse lastKey key)) d.lastKey h
  obtain ⟨it₂, h₂, hvalid₂, href₂, hrem₂⟩ := InternalIterator.skipBound_spec
    (fun startKey key => decide (Before d.reverse key startKey)) d.startKey hvalid₁
  refine ⟨it₂, ?_, hvalid₂, href₂.trans href₁, ?_⟩
  · rw [catchUp, h₁, Outcome.value_bind, h₂]
  · have hlast : (fun e : Key × MemtableEntry => d.lastKey.any fun key =>
        !decide (Before d.reverse key e.1)) =
          fun e => !beyond (Before d.reverse) d.lastKey e.1 := by
      funext e
      cases d.lastKey <;> simp [beyond]
    have hstart : (fun e : Key × MemtableEntry => d.startKey.any fun key =>
        decide (Before d.reverse e.1 key)) =
          fun e => !started (Before d.reverse) d.bounds e.1 := by
      funext e
      cases hs : d.startKey <;> simp [started, bounds, hs]
    rw [hrem₂, hrem₁, hlast, hstart, cut]

/-- What a candidate looks like in the loop. -/
def kvOf (picked : Option (Nat × Key × MemtableEntry)) : NextKV :=
  picked.map fun found => (found.2.2.getSeqNumber, found.1)

/-- A candidate that is picked is at the front of its iterator. -/
def Fronts (d : DbIteratorInner) (picked : Option (Nat × Key × MemtableEntry)) : Prop :=
  ∀ j e, picked = some (j, e) →
    ∃ it l, d.iterators[j]? = some it ∧ it.Valid ∧ it.remaining = e :: l

theorem offer_spec
    {run : Entries} {picked : Option (Nat × Key × MemtableEntry)}
    (h : it.Valid)
    (hrem : it.remaining = cut (Before d.reverse) d.bounds d.lastKey run)
    (hrun : Sorted (Before d.reverse) run)
    (hpicked : d.Fronts picked)
    (pos : Nat) :
    ∃ found, d.offer pos it (kvOf picked) = .value found ∧
      (if found.1 then found.2 else kvOf picked) =
        kvOf (pick (Before d.reverse) MemtableEntry.getSeqNumber picked pos
          (candidate (Before d.reverse) d.bounds
            (cut (Before d.reverse) d.bounds d.lastKey run))) := by
  rw [← hrem]
  unfold offer
  cases hlist : it.remaining with
  | nil =>
      rw [(InternalIterator.atEnd_iff h).mpr hlist, if_pos rfl]
      exact ⟨_, rfl, rfl⟩
  | cons e l =>
      obtain ⟨hend, hkey, hseq, -⟩ := InternalIterator.front h hlist
      have hmem : e ∈ cut (Before d.reverse) d.bounds d.lastKey run := by
        rw [← hrem, hlist]
        exact List.mem_cons_self
      have hstarted := ((mem_cut_iff hrun d.bounds d.lastKey e).mp hmem).2.2
      have hstart : (d.startKey.any fun startKey => decide (Before d.reverse e.1 startKey)) =
          false := by
        cases hs : d.startKey with
        | none => rfl
        | some startKey => simpa [started, bounds, hs] using hstarted
      have hstop : (d.stopKey.any fun stopKey => !decide (Before d.reverse e.1 stopKey)) =
          !within (Before d.reverse) d.bounds e.1 := by
        cases hs : d.stopKey <;> simp [within, bounds, hs]
      rw [hend, if_neg Bool.false_ne_true, hkey, Outcome.value_bind, hstart,
        if_neg Bool.false_ne_true, hstop]
      cases hwithin : within (Before d.reverse) d.bounds e.1 with
      | false =>
          have hcand : candidate (Before d.reverse) d.bounds (e :: l) = none := by
            simp [candidate, hwithin]
          rw [hcand]
          exact ⟨_, rfl, rfl⟩
      | true =>
          have hcand : candidate (Before d.reverse) d.bounds (e :: l) = some e := by
            simp [candidate, hwithin]
          rw [hcand, Bool.not_true, if_neg Bool.false_ne_true, hseq, Outcome.value_bind]
          cases picked with
          | none =>
              exact ⟨_, rfl, rfl⟩
          | some found =>
              obtain ⟨j, e'⟩ := found
              obtain ⟨it', l', hj, hvalid', hrem'⟩ := hpicked j e' rfl
              obtain ⟨-, hkey', -, -⟩ := InternalIterator.front hvalid' hrem'
              have hat : d.iterAt j = .value it' := by rw [iterAt, hj]
              simp only [kvOf, Option.map_some, hat, Outcome.value_bind, hkey', pick]
              by_cases hbefore : Before d.reverse e.1 e'.1
              · rw [if_pos hbefore, if_pos (Or.inl hbefore)]
                exact ⟨_, rfl, rfl⟩
              · rw [if_neg hbefore]
                by_cases heq : e.1 = e'.1
                · rw [if_pos heq]
                  by_cases hlt : e'.2.getSeqNumber < e.2.getSeqNumber
                  · rw [if_pos hlt, if_pos (Or.inr ⟨heq, hlt⟩)]
                    exact ⟨_, rfl, rfl⟩
                  · rw [if_neg hlt, if_neg (by tauto)]
                    exact ⟨_, rfl, rfl⟩
                · rw [if_neg heq, if_neg (by tauto)]
                  exact ⟨_, rfl, rfl⟩

theorem map_set_of_eq
    {α : Type} {f : InternalIterator → α} {its : List InternalIterator} {n : Nat}
    {it' : InternalIterator}
    (hit : its[n]? = some it)
    (heq : f it' = f it) :
    (its.set n it').map f = its.map f := by
  obtain ⟨hlt, hget⟩ := List.getElem?_eq_some_iff.mp hit
  rw [List.map_set, heq, ← hget, ← List.map_set, List.set_getElem_self]

/-- The runs after the first `n` of them were cut. -/
def cutRuns (d : DbIteratorInner) (n : Nat) : List Entries :=
  (d.runs.take n).map (cut (Before d.reverse) d.bounds d.lastKey) ++ d.runs.drop n

/-- The best candidate of the first `n` runs. -/
def bestOf (d : DbIteratorInner) (n : Nat) : Option (Nat × Key × MemtableEntry) :=
  best (Before d.reverse) MemtableEntry.getSeqNumber
    (((d.runs.take n).map (cut (Before d.reverse) d.bounds d.lastKey)).map
      (candidate (Before d.reverse) d.bounds))

/-- The same sources, with other places in them. -/
structure SameSources (d : DbIteratorInner) (its : List InternalIterator) : Prop where
  valid : ∀ it ∈ its, it.Valid
  refs : its.map InternalIterator.refOf = d.iterators.map InternalIterator.refOf

theorem bestOf_succ
    {n : Nat} {run : Entries}
    (hrun : d.runs[n]? = some run) :
    d.bestOf (n + 1) =
      pick (Before d.reverse) MemtableEntry.getSeqNumber (d.bestOf n) n
        (candidate (Before d.reverse) d.bounds
          (cut (Before d.reverse) d.bounds d.lastKey run)) := by
  have hlt := (List.getElem?_eq_some_iff.mp hrun).1
  rw [bestOf, List.take_add_one, hrun, Option.toList_some, List.map_append, List.map_append,
    List.map_singleton, List.map_singleton, best_concat, List.length_map, List.length_map,
    List.length_take, Nat.min_eq_left (le_of_lt hlt)]
  rfl

theorem cutRuns_succ
    {n : Nat} {run : Entries}
    (hrun : d.runs[n]? = some run) :
    (d.cutRuns n)[n]? = some run ∧
      (d.cutRuns n).set n (cut (Before d.reverse) d.bounds d.lastKey run) =
        d.cutRuns (n + 1) := by
  obtain ⟨hlt, hget⟩ := List.getElem?_eq_some_iff.mp hrun
  have hlen : ((d.runs.take n).map (cut (Before d.reverse) d.bounds d.lastKey)).length = n := by
    rw [List.length_map, List.length_take, Nat.min_eq_left (le_of_lt hlt)]
  have hdrop : d.runs.drop n = run :: d.runs.drop (n + 1) := by
    rw [List.drop_eq_getElem_cons hlt, hget]
  constructor
  · rw [cutRuns, List.getElem?_append_right (by omega), hlen, Nat.sub_self, hdrop]
    rfl
  · rw [cutRuns, cutRuns, List.set_append_right _ _ (by omega), hlen, Nat.sub_self, hdrop,
      List.take_add_one, hrun, Option.toList_some, List.map_append, List.map_singleton,
      List.append_assoc]
    rfl

/-- What was picked among the first `n` runs is at the front of its iterator. -/
theorem fronts_bestOf
    {n : Nat} {its : List InternalIterator}
    (hvalid : ∀ it ∈ its, it.Valid)
    (hruns : ∀ j < n, (its.map InternalIterator.remaining)[j]? = (d.cutRuns n)[j]?) :
    ({ d with iterators := its } : DbIteratorInner).Fronts (d.bestOf n) := by
  intro j e hbest
  obtain ⟨hj, -⟩ := (best_spec (Before d.reverse) MemtableEntry.getSeqNumber _).2 j e hbest
  rw [List.getElem?_map, Option.map_eq_some_iff] at hj
  obtain ⟨run, hrun, hcand⟩ := hj
  have hlt := (List.getElem?_eq_some_iff.mp hrun).1
  have hjn : j < n := by
    rw [List.length_map, List.length_take] at hlt
    omega
  have hrem := hruns j hjn
  rw [cutRuns, List.getElem?_append_left hlt, hrun, List.getElem?_map,
    Option.map_eq_some_iff] at hrem
  obtain ⟨it, hit, hrem⟩ := hrem
  obtain ⟨l, hl⟩ := List.head?_eq_some_iff.mp (Option.filter_eq_some_iff.mp hcand).1
  exact ⟨it, l, hit, hvalid it (List.mem_of_getElem? hit), hrem.trans hl⟩

/-- One round over the iterators cuts every run and finds the best candidate. -/
theorem parseIters_spec
    (h : d.Valid)
    {n : Nat}
    (hn : n ≤ d.iterators.length) :
    ∃ its, parseIters n d = .value ({ d with iterators := its }, kvOf (d.bestOf n)) ∧
      d.SameSources its ∧ its.map InternalIterator.remaining = d.cutRuns n := by
  induction n with
  | zero =>
      exact ⟨d.iterators, rfl, ⟨h.valid, rfl⟩, rfl⟩
  | succ n ih =>
      obtain ⟨its, hparse, hsame, hruns⟩ := ih (Nat.le_of_succ_le hn)
      have hlen : its.length = d.iterators.length := by
        simpa using congrArg List.length hsame.refs
      have hlt : n < its.length := by omega
      obtain ⟨run, hrun⟩ : ∃ run, d.runs[n]? = some run :=
        ⟨_, List.getElem?_eq_getElem (by rw [runs, List.length_map]; omega)⟩
      have hit := List.getElem?_eq_getElem hlt
      generalize its[n] = it at hit
      have hvalid := hsame.valid it (List.mem_of_getElem? hit)
      have hrem : it.remaining = run := by
        have hget := (cutRuns_succ hrun).1
        rw [← hruns, List.getElem?_map, hit] at hget
        exact Option.some.inj hget
      obtain ⟨it', hcatch, hvalid', href, hrem'⟩ :=
        catchUp_spec (d := { d with iterators := its }) hvalid
      rw [hrem] at hrem'
      have hsame' : d.SameSources (its.set n it') := by
        refine ⟨?_, ?_⟩
        · intro x hx
          rcases List.mem_or_eq_of_mem_set hx with hx | rfl
          · exact hsame.valid x hx
          · exact hvalid'
        · rw [map_set_of_eq hit href, hsame.refs]
      have hruns' : (its.set n it').map InternalIterator.remaining = d.cutRuns (n + 1) := by
        rw [List.map_set, hruns, hrem']
        exact (cutRuns_succ hrun).2
      have hfronts : ({ d with iterators := its.set n it' } : DbIteratorInner).Fronts
          (d.bestOf n) := by
        refine fronts_bestOf hsame'.valid fun j hj => ?_
        rw [List.map_set, List.getElem?_set_ne (by omega), hruns]
      obtain ⟨found, hoffer, hkv⟩ := offer_spec (d := { d with iterators := its.set n it' })
        hvalid' hrem' (h.sorted_runs run (List.mem_of_getElem? hrun)) hfronts n
      refine ⟨its.set n it', ?_, hsame', hruns'⟩
      have hat : ({ d with iterators := its } : DbIteratorInner).iterAt n = .value it := by
        rw [iterAt, hit]
      rw [parseIters, hparse, Outcome.value_bind, parseIter, hat, Outcome.value_bind, hcatch,
        Outcome.value_bind]
      dsimp only
      rw [hoffer, Outcome.value_bind, Outcome.pure_eq, Outcome.value_bind, bestOf_succ hrun]
      dsimp only
      rw [hkv]
      rfl

end Parse

/-! ## All items -/

/-- What is visited from now on. -/
def visited (d : DbIteratorInner) : List (Nat × Key × MemtableEntry) :=
  scan (Before d.reverse) MemtableEntry.getSeqNumber d.bounds
    (aheadCount (Before d.reverse) d.bounds d.lastKey d.runs + 1) d.lastKey d.runs

/-- What the iterator at a place makes of an entry. -/
def itemOf (refs : List (MemtableEntry → Option EntryRef)) (found : Nat × Key × MemtableEntry) :
    Option (Key × EntryRef) :=
  (refs[found.1]?).bind fun ref => (ref found.2.2).map fun entry => (found.2.1, entry)

def refs (d : DbIteratorInner) : List (MemtableEntry → Option EntryRef) :=
  d.iterators.map InternalIterator.refOf

section Items

variable {d : DbIteratorInner}

/-- The number of entries ahead. -/
def left (d : DbIteratorInner) : Nat :=
  aheadCount (Before d.reverse) d.bounds d.lastKey d.runs

theorem left_le_maxSteps
    (d : DbIteratorInner) :
    d.left ≤ d.maxSteps := by
  rw [left, aheadCount, maxSteps, runs, List.map_map]
  refine List.sum_le_sum fun it _ => ?_
  exact le_trans (cut_sublist _ _ _).length_le it.length_remaining_le

/-- One round of the loop: it is over, or the next entry is visited. -/
theorem round_cases
    (h : d.Valid) :
    (∃ its, parseIters d.iterators.length d = .value ({ d with iterators := its }, none) ∧
      ({ d with iterators := its } : DbIteratorInner).Valid ∧ d.SameSources its ∧
      d.visited = [] ∧ ({ d with iterators := its } : DbIteratorInner).visited = []) ∨
    ∃ its j e it, parseIters d.iterators.length d =
        .value ({ d with iterators := its }, some (e.2.getSeqNumber, j)) ∧
      its[j]? = some it ∧ it.getKey = .value e.1 ∧ it.getEntry = it.refOf e.2 ∧
      ({ d with iterators := its, lastKey := some e.1 } : DbIteratorInner).Valid ∧
      d.SameSources its ∧
      ({ d with iterators := its, lastKey := some e.1 } : DbIteratorInner).left < d.left ∧
      d.visited = (j, e) ::
        ({ d with iterators := its, lastKey := some e.1 } : DbIteratorInner).visited := by
  obtain ⟨its, hparse, hsame, hruns⟩ := parseIters_spec h (le_refl d.iterators.length)
  have hlen : d.runs.length = d.iterators.length := List.length_map _
  have hall : d.cutRuns d.iterators.length =
      d.runs.map (cut (Before d.reverse) d.bounds d.lastKey) := by
    rw [cutRuns, ← hlen, List.take_length, List.drop_length, List.append_nil]
  have hbest : d.bestOf d.iterators.length =
      best (Before d.reverse) MemtableEntry.getSeqNumber
        ((d.runs.map (cut (Before d.reverse) d.bounds d.lastKey)).map
          (candidate (Before d.reverse) d.bounds)) := by
    rw [bestOf, ← hlen, List.take_length]
  obtain ⟨hnone, hsome⟩ :=
    round_spec h.sorted_runs MemtableEntry.getSeqNumber d.bounds d.lastKey
  have hsorted : ∀ it ∈ its, Sorted (Before d.reverse) it.remaining := by
    intro it hit
    have hmem : it.remaining ∈ d.runs.map (cut (Before d.reverse) d.bounds d.lastKey) := by
      rw [← hall, ← hruns]
      exact List.mem_map_of_mem hit
    exact sorted_map_cut h.sorted_runs d.bounds d.lastKey _ hmem
  cases hfound : d.bestOf d.iterators.length with
  | none =>
      left
      rw [hfound] at hparse
      rw [hbest] at hfound
      refine ⟨its, hparse, ⟨hsame.valid, hsorted⟩, hsame, ?_, ?_⟩
      · exact scan_eq_nil h.sorted_runs _ (hnone hfound) _
      · refine scan_eq_nil (Valid.sorted_runs ⟨hsame.valid, hsorted⟩) _ ?_ _
        intro run hrun k v hkv
        have hrun' : run ∈ d.runs.map (cut (Before d.reverse) d.bounds d.lastKey) := by
          rw [← hall, ← hruns]
          exact hrun
        obtain ⟨run', hmem, rfl⟩ := List.mem_map.mp hrun'
        exact hnone hfound run' hmem k v ((cut_sublist _ _ _).mem hkv)
  | some found =>
      obtain ⟨j, e⟩ := found
      right
      obtain ⟨it, l, hit, hvalid, hrem⟩ := fronts_bestOf (d := d) (n := d.iterators.length)
        hsame.valid (fun j _ => by rw [hruns]) j e hfound
      obtain ⟨-, hkey, -, hentry⟩ := InternalIterator.front hvalid hrem
      rw [hfound] at hparse
      rw [hbest] at hfound
      obtain ⟨hwin, hahead, -⟩ := hsome j e.1 e.2 hfound
      obtain ⟨run, hrun, hmem⟩ := hwin.mem
      have hlt := aheadCount_lt h.sorted_runs (List.mem_of_getElem? hrun) hmem hahead
      have hnext : ({ d with iterators := its, lastKey := some e.1 } : DbIteratorInner).runs =
          d.runs.map (cut (Before d.reverse) d.bounds d.lastKey) := hruns.trans hall
      refine ⟨its, j, e, it, hparse, hit, hkey, hentry, ⟨hsame.valid, hsorted⟩, hsame, ?_, ?_⟩
      · unfold left
        rw [hnext]
        exact hlt
      · rw [visited, scan, hfound]
        dsimp only
        rw [visited, hnext]
        congr 1
        exact scan_fuel (sorted_map_cut h.sorted_runs d.bounds d.lastKey) hlt
          (Nat.lt_succ_self _)

/-- The items to come. -/
def pending (d : DbIteratorInner) : List (Key × EntryRef) :=
  d.visited.filterMap (itemOf d.refs)

/-- A call of `next` returns the first of the items to come, and leaves the others. -/
theorem nextLoop_spec
    {fuel : Nat}
    (h : d.Valid)
    (hfuel : d.left < fuel) :
    ∃ d', nextLoop fuel d = .value (d', d.pending.head?) ∧ d'.Valid ∧ d'.refs = d.refs ∧
      d'.pending = d.pending.tail ∧ (d.pending ≠ [] → d'.left < d.left) := by
  induction fuel generalizing d with
  | zero =>
      omega
  | succ fuel ih =>
      rw [nextLoop]
      rcases round_cases h with ⟨its, hparse, hvalid, hsame, hvisited, hvisited'⟩ |
        ⟨its, j, e, it, hparse, hit, hkey, hentry, hvalid, hsame, hleft, hvisited⟩
      · have hpending : d.pending = [] := by
          rw [pending, hvisited]
          rfl
        rw [hparse, hpending]
        refine ⟨_, rfl, hvalid, hsame.refs, ?_, fun hne => absurd rfl hne⟩
        rw [pending, hvisited']
        rfl
      · have hat : ({ d with iterators := its } : DbIteratorInner).iterAt j = .value it := by
          rw [iterAt, hit]
        have href : d.refs[j]? = some it.refOf := by
          rw [refs, ← hsame.refs, List.getElem?_map, hit]
          rfl
        have hrefs : ({ d with iterators := its, lastKey := some e.1 } : DbIteratorInner).refs =
            d.refs := hsame.refs
        rw [hparse, Outcome.value_bind]
        dsimp only
        rw [hat, Outcome.value_bind, hkey, Outcome.value_bind, hentry]
        cases hitem : it.refOf e.2 with
        | some entry =>
            have hfirst : itemOf d.refs (j, e) = some (e.1, entry) := by
              rw [itemOf, href, Option.bind_some, hitem]
              rfl
            have hpending : d.pending = (e.1, entry) ::
                ({ d with iterators := its, lastKey := some e.1 } : DbIteratorInner).pending := by
              rw [pending, pending, hvisited, List.filterMap_cons_some hfirst, hrefs]
            rw [hpending]
            exact ⟨_, rfl, hvalid, hrefs, rfl, fun _ => hleft⟩
        | none =>
            -- a deletion in a table: the search goes on
            have hfirst : itemOf d.refs (j, e) = none := by
              rw [itemOf, href, Option.bind_some, hitem]
              rfl
            have hpending : d.pending =
                ({ d with iterators := its, lastKey := some e.1 } : DbIteratorInner).pending := by
              rw [pending, pending, hvisited, List.filterMap_cons_none hfirst, hrefs]
            dsimp only
            rw [hpending]
            obtain ⟨d', hnext, hvalid', hrefs', hpending', hleft'⟩ := ih hvalid (by omega)
            exact ⟨d', hnext, hvalid', hrefs'.trans hrefs, hpending', fun hne =>
              (hleft' hne).trans hleft⟩

/-- **A call of `next`.** -/
theorem next_spec
    (h : d.Valid) :
    ∃ d', d.next = .value (d', d.pending.head?) ∧ d'.Valid ∧ d'.refs = d.refs ∧
      d'.pending = d.pending.tail ∧ (d.pending ≠ [] → d'.left < d.left) :=
  nextLoop_spec h (Nat.lt_succ_of_le d.left_le_maxSteps)

theorem collect_spec
    {fuel : Nat}
    (h : d.Valid)
    (hfuel : d.left < fuel) :
    collect fuel d = .value d.pending := by
  induction fuel generalizing d with
  | zero =>
      omega
  | succ fuel ih =>
      obtain ⟨d', hnext, hvalid, -, hpending, hleft⟩ := next_spec h
      rw [collect, hnext, Outcome.value_bind]
      dsimp only
      cases hitems : d.pending with
      | nil =>
          rfl
      | cons item items =>
          rw [hitems, List.tail_cons] at hpending
          have hlt := hleft (by rw [hitems]; exact List.cons_ne_nil _ _)
          rw [List.head?_cons]
          dsimp only
          rw [ih hvalid (by omega), hpending]
          rfl

/-- **All items** of an iterator: what the sources make of the entries that win their keys,
in the order of the keys. -/
theorem items_spec
    (h : d.Valid) :
    ∃ out, d.items = .value out ∧ out.Pairwise (fun a b => Before d.reverse a.1 b.1) ∧
      ∀ key ref, (key, ref) ∈ out ↔
        ∃ j entry it, Winner MemtableEntry.getSeqNumber d.runs j key entry ∧
          ahead (Before d.reverse) d.bounds d.lastKey key ∧ d.iterators[j]? = some it ∧
          it.refOf entry = some ref := by
  obtain ⟨hpairwise, hmem⟩ := scan_spec h.sorted_runs MemtableEntry.getSeqNumber
    (Nat.lt_succ_self (aheadCount (Before d.reverse) d.bounds d.lastKey d.runs))
  have hitem : ∀ found item, itemOf d.refs found = some item → item.1 = found.2.1 := by
    intro found item hfound
    obtain ⟨ref, -, hmap⟩ := Option.bind_eq_some_iff.mp hfound
    obtain ⟨entry, -, rfl⟩ := Option.map_eq_some_iff.mp hmap
    rfl
  refine ⟨_, collect_spec h (Nat.lt_succ_of_le d.left_le_maxSteps), ?_, ?_⟩
  · rw [pending, List.pairwise_filterMap]
    refine hpairwise.imp ?_
    intro x y hxy a ha b hb
    rw [hitem x a ha, hitem y b hb]
    exact hxy
  · intro key ref
    rw [pending, List.mem_filterMap]
    constructor
    · rintro ⟨⟨j, k, entry⟩, hvisited, hfound⟩
      obtain rfl : key = k := hitem _ _ hfound
      obtain ⟨hwin, hahead⟩ := (hmem j key entry).mp hvisited
      obtain ⟨f, hf, hmap⟩ := Option.bind_eq_some_iff.mp hfound
      rw [refs, List.getElem?_map, Option.map_eq_some_iff] at hf
      obtain ⟨it, hit, rfl⟩ := hf
      obtain ⟨ref', href, heq⟩ := Option.map_eq_some_iff.mp hmap
      obtain rfl : ref' = ref := (Prod.mk.inj heq).2
      exact ⟨j, entry, it, hwin, hahead, hit, href⟩
    · rintro ⟨j, entry, it, hwin, hahead, hit, href⟩
      refine ⟨(j, key, entry), (hmem j key entry).mpr ⟨hwin, hahead⟩, ?_⟩
      rw [itemOf, refs, List.getElem?_map, hit, Option.map_some, Option.bind_some, href]
      rfl

theorem ahead_iff_inRange
    (hlast : d.lastKey = none)
    (key : Key) :
    ahead (Before d.reverse) d.bounds d.lastKey key ↔
      InRange d.reverse d.minKey d.maxKey key := by
  rw [ahead, beyond_iff, started_iff, within_iff, hlast, InRange, bounds, startKey, stopKey]
  cases d.reverse with
  | false =>
      simp [Before]
  | true =>
      simp [Before, and_comm]

end Items
end DbIteratorInner

/-! ## The merge law -/

/-- No iterator may be stepped at its end. -/
theorem InternalIterator.step_atEnd
    {it : InternalIterator}
    (h : it.atEnd = true) :
    it.step = .panic "Cannot step(); already at end" := by
  cases it with
  | memtable m it =>
      simp only [atEnd, MemtableIterator.atEnd] at h
      simp only [step, MemtableIterator.step]
      split_ifs at h with hrev
      · rw [if_pos hrev, if_pos (of_decide_eq_true h)]
        rfl
      · rw [if_neg hrev, if_pos (of_decide_eq_true h)]
        rfl
  | table it =>
      simp only [atEnd, TableIterator.atEnd] at h
      simp only [step, TableIterator.step]
      split_ifs at h with hrev
      · rw [if_pos hrev, TableIterator.stepReverse, if_pos (of_decide_eq_true h)]
        rfl
      · have hend := of_decide_eq_true h
        rw [if_neg hrev, TableIterator.stepForward, if_neg (by omega), if_pos hend]
        rfl

/-- The newest entry of a key in some iterators is `entry`, and `it` has it. -/
structure IsNewest (its : List InternalIterator) (it : InternalIterator) (key : Key)
    (entry : MemtableEntry) : Prop where
  mem : it ∈ its
  has : (key, entry) ∈ it.remaining
  newest : ∀ other ∈ its, ∀ older, (key, older) ∈ other.remaining →
    older.getSeqNumber ≤ entry.getSeqNumber

/-- Entries of one key in different iterators have different sequence numbers. -/
def DistinctSeqNumbers (its : List InternalIterator) : Prop :=
  ∀ (i j : Nat) it other, its[i]? = some it → its[j]? = some other → i ≠ j →
    ∀ key entry older, (key, entry) ∈ it.remaining → (key, older) ∈ other.remaining →
      entry.getSeqNumber ≠ older.getSeqNumber

/-- **The merge law**: an iterator over sorted sources returns, in the order of the keys, one
item for each key of the range whose newest entry its source hands out, and nothing else.  It
never steps a source that is at its end, which would be a panic, and it comes to an end. -/
theorem merge_iterator_law
    (its : List InternalIterator) (minKey maxKey : Option Key) (reverse : Bool)
    (hvalid : ∀ it ∈ its, it.Valid)
    (hsorted : ∀ it ∈ its, it.remaining.Pairwise fun a b => Before reverse a.1 b.1)
    (hdistinct : DistinctSeqNumbers its) :
    (∀ it : InternalIterator, it.atEnd = true →
        it.step = .panic "Cannot step(); already at end") ∧
      ∃ out, (DbIteratorInner.mk none its reverse minKey maxKey).items = .value out ∧
        out.Pairwise (fun a b => Before reverse a.1 b.1) ∧
        ∀ key ref, (key, ref) ∈ out ↔
          InRange reverse minKey maxKey key ∧
            ∃ it entry, IsNewest its it key entry ∧ it.refOf entry = some ref := by
  refine ⟨fun it => InternalIterator.step_atEnd, ?_⟩
  obtain ⟨out, hitems, hpairwise, hmem⟩ := DbIteratorInner.items_spec
    (d := ⟨none, its, reverse, minKey, maxKey⟩) ⟨hvalid, hsorted⟩
  refine ⟨out, hitems, hpairwise, ?_⟩
  intro key ref
  rw [hmem]
  constructor
  · rintro ⟨j, entry, it, hwin, hahead, hit, href⟩
    refine ⟨(DbIteratorInner.ahead_iff_inRange rfl key).mp hahead, it, entry, ?_, href⟩
    obtain ⟨run, hrun, hentry⟩ := hwin.mem
    rw [DbIteratorInner.runs, List.getElem?_map, hit] at hrun
    cases hrun
    refine ⟨List.mem_of_getElem? hit, hentry, ?_⟩
    intro other hother older holder
    obtain ⟨i, hi⟩ := List.getElem?_of_mem hother
    have hwins := hwin.wins i other.remaining older (by
      rw [DbIteratorInner.runs, List.getElem?_map, hi]
      rfl) holder
    omega
  · rintro ⟨hrange, it, entry, hnewest, href⟩
    obtain ⟨j, hj⟩ := List.getElem?_of_mem hnewest.mem
    refine ⟨j, entry, it, ⟨⟨it.remaining, ?_, hnewest.has⟩, ?_⟩,
      (DbIteratorInner.ahead_iff_inRange rfl key).mpr hrange, hj, href⟩
    · rw [DbIteratorInner.runs, List.getElem?_map, hj]
      rfl
    · intro i run older hi holder
      rw [DbIteratorInner.runs, List.getElem?_map] at hi
      obtain ⟨other, hother, rfl⟩ := Option.map_eq_some_iff.mp hi
      have hle := hnewest.newest other (List.mem_of_getElem? hother) older holder
      by_cases hij : j = i
      · subst hij
        obtain rfl : it = other := Option.some.inj (hj.symm.trans hother)
        obtain rfl := MergeScan.Sorted.eq_of_key_eq (hsorted it hnewest.mem) holder hnewest.has
        exact Or.inr ⟨rfl, le_refl _⟩
      · have hne := hdistinct j i it other hj hother hij key entry older hnewest.has holder
        exact Or.inl (by omega)

/-- An iterator at the first entry of a table with keys `1` to `4`. -/
def olderIter : InternalIterator :=
  let entry (n : Nat) (key : UInt8) : Key × MemtableEntry :=
    (ByteVec.ofList [key], .value n (ByteVec.ofList [key]))
  .table ⟨0, 1, (entry 1 1).1, (entry 1 1).2,
    [[entry 1 1, entry 2 2], [entry 3 3, entry 4 4]], false⟩

/-- An iterator at the first entry of a newer table, in which `2` is deleted and `3` is
overwritten. -/
def newerIter : InternalIterator :=
  .table ⟨0, 1, ByteVec.ofList [2], .deletion 5, [[(ByteVec.ofList [2], .deletion 5),
    (ByteVec.ofList [3], .value 6 (ByteVec.ofList [7]))]], false⟩

theorem valid_overlapping :
    ∀ it ∈ [olderIter, newerIter], it.Valid := by
  intro it hit
  simp only [List.mem_cons, List.not_mem_nil, or_false] at hit
  rcases hit with rfl | rfl <;> refine ⟨by decide, by decide, fun block _ hblock => ?_⟩ <;>
    cases hblock <;> decide

theorem sorted_overlapping :
    ∀ it ∈ [olderIter, newerIter], it.remaining.Pairwise fun a b => Before false a.1 b.1 := by
  decide

/-- Between `2` and `4` only `3` is left, with the newer value. -/
theorem merge_iterator_law_overlapping :
    let key (b : UInt8) : Key := ByteVec.ofList [b]
    let its := [olderIter, newerIter]
    let out := [(key 3, EntryRef.sortedTable (.value 6 (key 7)))]
    DistinctSeqNumbers its ∧
      (DbIteratorInner.mk none its false (some (key 2)) (some (key 4))).items = .value out ∧
      ∀ k ref, (k, ref) ∈ out ↔
        InRange false (some (key 2)) (some (key 4)) k ∧
          ∃ it entry, IsNewest its it k entry ∧ it.refOf entry = some ref := by
  intro key its out
  have holder : ∀ e ∈ olderIter.remaining, e.2.getSeqNumber ≤ 4 := by decide
  have hnewer : ∀ e ∈ newerIter.remaining, 4 < e.2.getSeqNumber := by decide
  have hdistinct : DistinctSeqNumbers its := by
    intro i j it other hi hj hij k entry older hmem hmem'
    match i, j with
    | 0, 0 | 1, 1 => exact absurd rfl hij
    | 0, 1 =>
        cases hi
        cases hj
        exact ne_of_lt (lt_of_le_of_lt (holder _ hmem) (hnewer _ hmem'))
    | 1, 0 =>
        cases hi
        cases hj
        exact ne_of_gt (lt_of_le_of_lt (holder _ hmem') (hnewer _ hmem))
    | _ + 2, _ => cases hi
    | _, _ + 2 => cases hj
  obtain ⟨-, out', hitems, -, hout⟩ := merge_iterator_law its (some (key 2)) (some (key 4)) false
    valid_overlapping sorted_overlapping hdistinct
  have hout' : (DbIteratorInner.mk none its false (some (key 2)) (some (key 4))).items =
      .value out := rfl
  obtain rfl : out = out' := Outcome.value.inj (hout'.symm.trans hitems)
  exact ⟨hdistinct, hout', hout⟩

end LsmStore
