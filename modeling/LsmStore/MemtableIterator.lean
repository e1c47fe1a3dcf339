import LsmStore.Memtable
import LsmStore.Lib.Runs

/-!
# The memtable iterator

An iterator is an index into the sorted vector of a memtable, together with a
copy of the entry it has read last.  The memtable is shared: `clone_immutable`
hands out the same vector that `write_opts` changes through `get_mut`, until the
memtable is replaced by a new one.

What the iterator delivers is the content of the memtable at the moment of its
creation exactly if every later write lies behind it: a forward iterator bears
new versions of keys it has passed and no new key at all, a reverse iterator
bears every write above its index.
-/

namespace LsmStore

open SortedAssoc

/-- An iterator; the memtable it points into is passed to its functions. -/
structure MemtableIterator where
  nextIndex : Int
  key : Option Key
  entry : Option MemtableEntry
  reverse : Bool
deriving DecidableEq

namespace MemtableIterator

/-- Read the entry at the index and move on. -/
def visit (m : Memtable) (it : MemtableIterator) (next : Int) : Outcome MemtableIterator :=
  let len := m.entries.length
  let index := it.nextIndex.toNat
  match m.entries[index]? with
  | some (key, entry) =>
      .value { it with nextIndex := next, key := some key, entry := some entry }
  | none => .panic s!"index out of bounds: the len is {len} but the index is {index}"

def step (m : Memtable) (it : MemtableIterator) : Outcome MemtableIterator :=
  if it.reverse then
    if it.nextIndex < -1 then .panic "Cannot step(); already at end"
    else if it.nextIndex = -1 then .value { it with nextIndex := it.nextIndex - 1 }
    else it.visit m (it.nextIndex - 1)
  else
    if (m.entries.length : Int) < it.nextIndex then .panic "Cannot step(); already at end"
    else if it.nextIndex = m.entries.length then
      .value { it with nextIndex := it.nextIndex + 1 }
    else it.visit m (it.nextIndex + 1)

/-- The iterator before its first step. -/
def start (m : Memtable) (reverse : Bool) : MemtableIterator where
  nextIndex := if reverse then (m.entries.length : Int) - 1 else 0
  key := none
  entry := none
  reverse := reverse

def new (m : Memtable) (reverse : Bool) : Outcome MemtableIterator :=
  (start m reverse).step m

def atEnd (m : Memtable) (it : MemtableIterator) : Bool :=
  if it.reverse then decide (it.nextIndex < -1)
  else decide ((m.entries.length : Int) < it.nextIndex)

def getKey (it : MemtableIterator) : Outcome Key :=
  match it.key with
  | some key => .value key
  | none => .panic "Not a valid iterator"

/-- The entry that was read last; `get_seq_number` and `get_entry_type` unwrap it. -/
def getMemtableEntry (it : MemtableIterator) : Outcome MemtableEntry :=
  match it.entry with
  | some entry => .value entry
  | none => .panic "called `Option::unwrap()` on a `None` value"

/-- What the iterator stands at. -/
def current (it : MemtableIterator) : Outcome (Key × MemtableEntry) := do
  let key ← it.getKey
  let entry ← it.getMemtableEntry
  pure (key, entry)

/-- The same, if there is anything. -/
def item (it : MemtableIterator) : Option (Key × MemtableEntry) :=
  it.key.bind fun key => it.entry.map fun entry => (key, entry)

/-! ## What is left -/

/-- The entries the iterator has not read yet. -/
def rest (m : Memtable) (it : MemtableIterator) : Entries :=
  if it.reverse then (m.entries.take (it.nextIndex + 1).toNat).reverse
  else m.entries.drop it.nextIndex.toNat

/-- The index is in the vector, or the vector has been passed. -/
def Valid (m : Memtable) (it : MemtableIterator) : Prop :=
  if it.reverse then it.nextIndex < m.entries.length
  else 0 ≤ it.nextIndex ∧ it.nextIndex ≤ m.entries.length + 1

/-- All entries of a memtable in the order of the iterator. -/
def snapshot (m : Memtable) (reverse : Bool) : Entries :=
  if reverse then m.entries.reverse else m.entries

section Step

variable {m : Memtable} {it : MemtableIterator}

theorem current_of_item
    {e : Key × MemtableEntry}
    (h : it.item = some e) :
    it.current = .value e := by
  obtain ⟨key, hkey, hmap⟩ := Option.bind_eq_some_iff.mp h
  obtain ⟨entry, hentry, rfl⟩ := Option.map_eq_some_iff.mp hmap
  simp [current, getKey, getMemtableEntry, hkey, hentry]

theorem current_panic
    (h : it.item = none) :
    ∃ message, it.current = .panic message := by
  unfold item at h
  unfold current getKey getMemtableEntry
  cases hkey : it.key with
  | none =>
      exact ⟨_, rfl⟩
  | some key =>
      cases hentry : it.entry with
      | none =>
          exact ⟨_, rfl⟩
      | some entry =>
          rw [hkey, hentry] at h
          cases h

theorem visit_eq
    {e : Key × MemtableEntry}
    (he : m.entries[it.nextIndex.toNat]? = some e)
    (next : Int) :
    it.visit m next =
      .value { it with nextIndex := next, key := some e.1, entry := some e.2 } := by
  simp only [visit, he]

/-- A step reads the next entry that is left. -/
theorem step_cons
    {e : Key × MemtableEntry} {l : Entries}
    (hvalid : it.Valid m)
    (hrest : it.rest m = e :: l) :
    ∃ it', it.step m = .value it' ∧ it'.reverse = it.reverse ∧ it'.Valid m ∧
      it'.atEnd m = false ∧ it'.item = some e ∧ it'.rest m = l := by
  unfold step
  unfold Valid at hvalid
  unfold rest at hrest
  cases hrev : it.reverse with
  | true =>
      rw [hrev, if_pos rfl] at hvalid hrest
      obtain ⟨j, hj⟩ : ∃ j : Nat, it.nextIndex = j := by
        refine Int.eq_ofNat_of_zero_le (not_lt.mp fun hneg => ?_)
        rw [Int.toNat_of_nonpos (by omega), List.take_zero] at hrest
        cases hrest
      have hlt : j < m.entries.length := by omega
      have htake : (it.nextIndex + 1).toNat = j + 1 := by omega
      rw [htake, List.take_add_one, List.getElem?_eq_getElem hlt, Option.toList_some,
        List.reverse_append, List.reverse_singleton, List.singleton_append] at hrest
      obtain ⟨he, hl⟩ := List.cons.inj hrest
      have hget : m.entries[it.nextIndex.toNat]? = some e := by
        rw [hj, Int.toNat_natCast, List.getElem?_eq_getElem hlt, he]
      rw [if_pos rfl, if_neg (by omega), if_neg (by omega), visit_eq hget]
      refine ⟨_, rfl, hrev, ?_, ?_, rfl, ?_⟩
      · simp only [Valid, hrev, if_true]
        omega
      · simp only [atEnd, hrev, if_true, decide_eq_false_iff_not]
        omega
      · simp only [rest, hrev, if_true, hj, Int.sub_add_cancel, Int.toNat_natCast]
        exact hl
  | false =>
      rw [hrev, if_neg Bool.false_ne_true] at hvalid hrest
      obtain ⟨j, hj⟩ := Int.eq_ofNat_of_zero_le hvalid.1
      rw [hj, Int.toNat_natCast] at hrest
      have hlt : j < m.entries.length := by
        by_contra hge
        rw [List.drop_of_length_le (not_lt.mp hge)] at hrest
        cases hrest
      rw [List.drop_eq_getElem_cons hlt] at hrest
      obtain ⟨he, hl⟩ := List.cons.inj hrest
      have hget : m.entries[it.nextIndex.toNat]? = some e := by
        rw [hj, Int.toNat_natCast, List.getElem?_eq_getElem hlt, he]
      rw [if_neg Bool.false_ne_true, if_neg (by omega), if_neg (by omega), visit_eq hget]
      refine ⟨_, rfl, hrev, ?_, ?_, rfl, ?_⟩
      · simp only [Valid, hrev, Bool.false_eq_true, if_false]
        omega
      · simp only [atEnd, hrev, Bool.false_eq_true, if_false, decide_eq_false_iff_not]
        omega
      · simp only [rest, hrev, Bool.false_eq_true, if_false, hj]
        exact hl

/-- With nothing left, a step ends the iteration. -/
theorem step_nil
    (hvalid : it.Valid m)
    (hend : it.atEnd m = false)
    (hrest : it.rest m = []) :
    ∃ it', it.step m = .value it' ∧ it'.reverse = it.reverse ∧ it'.Valid m ∧
      it'.atEnd m = true := by
  unfold step
  unfold Valid at hvalid
  unfold atEnd at hend
  unfold rest at hrest
  cases hrev : it.reverse with
  | true =>
      rw [hrev, if_pos rfl] at hvalid hend hrest
      rw [decide_eq_false_iff_not] at hend
      rw [List.reverse_eq_nil_iff, List.take_eq_nil_iff] at hrest
      have hindex : it.nextIndex = -1 := by
        rcases hrest with hzero | hempty
        · omega
        · rw [hempty] at hvalid
          simp only [List.length_nil, Nat.cast_zero] at hvalid
          omega
      rw [if_pos rfl, if_neg (by omega), if_pos hindex]
      refine ⟨_, rfl, rfl, ?_, ?_⟩
      · simp only [Valid, if_true]
        omega
      · simp only [atEnd, if_true, decide_eq_true_iff]
        omega
  | false =>
      rw [hrev, if_neg Bool.false_ne_true] at hvalid hend hrest
      rw [decide_eq_false_iff_not] at hend
      have hindex : it.nextIndex = m.entries.length := by
        have := List.drop_eq_nil_iff.mp hrest
        omega
      rw [if_neg Bool.false_ne_true, if_neg (by omega), if_pos hindex]
      refine ⟨_, rfl, rfl, ?_, ?_⟩
      · simp only [Valid, Bool.false_eq_true, if_false]
        omega
      · simp only [atEnd, Bool.false_eq_true, if_false, decide_eq_true_iff]
        omega

theorem rest_start
    (m : Memtable) (reverse : Bool) :
    (start m reverse).rest m = snapshot m reverse := by
  cases reverse <;> simp [start, rest, snapshot]

theorem valid_start
    (m : Memtable) (reverse : Bool) :
    (start m reverse).Valid m := by
  cases reverse with
  | true =>
      simp only [start, Valid, if_true]
      exact Int.sub_lt_self _ Int.one_pos
  | false =>
      simp only [start, Valid, Bool.false_eq_true, if_false]
      omega

theorem atEnd_start
    (m : Memtable) (reverse : Bool) :
    (start m reverse).atEnd m = false := by
  cases reverse with
  | true =>
      simp only [start, atEnd, if_true, decide_eq_false_iff_not]
      omega
  | false =>
      simp [start, atEnd]

end Step
end MemtableIterator

/-! ## Writes to the memtable behind the iterator -/

namespace Memtable

theorem apply_entries_ok
    {m : Memtable} {op : WriteOp} {pos : Nat}
    (hpos : position m.entries op.getKey = .ok pos) :
    ∃ pre old post, m.entries = pre ++ (op.getKey, old) :: post ∧ pre.length = pos ∧
      (m.apply op).entries = pre ++ (op.getKey, entryOf m.nextSeqNumber op) :: post := by
  obtain ⟨pre, old, post, hl, rfl, -, -⟩ := position_ok m.sorted hpos
  refine ⟨pre, old, post, hl, rfl, ?_⟩
  have hcut : (m.getKeyPos op.getKey).1.entries = pre ++ post ∧
      (m.getKeyPos op.getKey).2 = pre.length := by
    unfold getKeyPos
    split
    · rename_i pos hpos'
      cases hpos.symm.trans hpos'
      refine ⟨?_, rfl⟩
      simp [hl, List.eraseIdx_append_of_length_le]
    · rename_i pos hpos'
      cases hpos.symm.trans hpos'
  rw [apply_eq_insertEntry]
  simp only [insertEntry, hcut.1, hcut.2, insertIdx_cut]

theorem apply_entries_error
    {m : Memtable} {op : WriteOp} {pos : Nat}
    (hpos : position m.entries op.getKey = .error pos) :
    ∃ pre post, m.entries = pre ++ post ∧ pre.length = pos ∧
      (m.apply op).entries = pre ++ (op.getKey, entryOf m.nextSeqNumber op) :: post := by
  obtain ⟨pre, post, hl, rfl, -, -⟩ := position_error m.sorted hpos
  refine ⟨pre, post, hl, rfl, ?_⟩
  have hcut : m.getKeyPos op.getKey = (m, pre.length) := by
    unfold getKeyPos
    split
    · rename_i pos hpos'
      cases hpos.symm.trans hpos'
    · rename_i pos hpos'
      cases hpos.symm.trans hpos'
      rfl
  rw [apply_eq_insertEntry]
  simp only [insertEntry, hcut, hl, insertIdx_cut]

theorem length_le_apply
    (m : Memtable) (op : WriteOp) :
    m.entries.length ≤ (m.apply op).entries.length := by
  cases hpos : position m.entries op.getKey with
  | ok pos =>
      obtain ⟨pre, old, post, hl, -, hl'⟩ := apply_entries_ok hpos
      simp [hl, hl']
  | error pos =>
      obtain ⟨pre, post, hl, -, hl'⟩ := apply_entries_error hpos
      simp [hl, hl']

/-- Every entry is older than the next write. -/
def Fresh (m : Memtable) : Prop :=
  ∀ e ∈ m.entries, e.2.getSeqNumber < m.nextSeqNumber

theorem Fresh.apply
    {m : Memtable}
    (h : m.Fresh)
    (op : WriteOp) :
    (m.apply op).Fresh := by
  intro e he
  have hold : e ∈ m.entries ∨ e.2 = entryOf m.nextSeqNumber op := by
    cases hpos : position m.entries op.getKey with
    | ok pos =>
        obtain ⟨pre, old, post, hl, -, hl'⟩ := apply_entries_ok hpos
        rw [hl'] at he
        rw [hl]
        simp only [List.mem_append, List.mem_cons] at he ⊢
        rcases he with he | rfl | he
        · exact Or.inl (Or.inl he)
        · exact Or.inr rfl
        · exact Or.inl (Or.inr (Or.inr he))
    | error pos =>
        obtain ⟨pre, post, hl, -, hl'⟩ := apply_entries_error hpos
        rw [hl'] at he
        rw [hl]
        simp only [List.mem_append, List.mem_cons] at he ⊢
        rcases he with he | rfl | he
        · exact Or.inl (Or.inl he)
        · exact Or.inr rfl
        · exact Or.inl (Or.inr he)
  rw [apply_nextSeqNumber]
  rcases hold with hold | hnew
  · exact Nat.lt_succ_of_lt (h e hold)
  · rw [hnew, getSeqNumber_entryOf]
    exact Nat.lt_succ_self _

theorem fresh_applyAll
    (seqNumber : Nat) (ops : List WriteOp) :
    ((new seqNumber).applyAll ops).Fresh := by
  induction ops using List.reverseRecOn with
  | nil =>
      intro e he
      cases he
  | append_singleton ops op ih =>
      rw [applyAll_concat]
      exact ih.apply op

theorem Fresh.not_mem
    {m : Memtable}
    (h : m.Fresh)
    (op : WriteOp) :
    (op.getKey, entryOf m.nextSeqNumber op) ∉ m.entries := by
  intro hmem
  have hlt := h _ hmem
  rw [getSeqNumber_entryOf] at hlt
  exact lt_irrefl _ hlt

end Memtable

namespace MemtableIterator

/-- A write the iterator does not notice: it has passed the place, and in forward direction
the key is not a new one. -/
def Behind (m : Memtable) (it : MemtableIterator) (op : WriteOp) : Prop :=
  match position m.entries op.getKey with
  | .ok pos => if it.reverse then it.nextIndex < pos else (pos : Int) < it.nextIndex
  | .error pos => it.reverse = true ∧ it.nextIndex < pos

instance (m : Memtable) (it : MemtableIterator) (op : WriteOp) : Decidable (it.Behind m op) :=
  match hpos : position m.entries op.getKey with
  | .ok pos =>
      decidable_of_iff
        (if it.reverse then it.nextIndex < pos else (pos : Int) < it.nextIndex)
        (by rw [Behind, hpos])
  | .error pos =>
      decidable_of_iff (it.reverse = true ∧ it.nextIndex < pos) (by rw [Behind, hpos])

section Writes

variable {m : Memtable} {it : MemtableIterator}

theorem Valid.apply
    (h : it.Valid m)
    (op : WriteOp) :
    it.Valid (m.apply op) := by
  have hle := m.length_le_apply op
  unfold Valid at h ⊢
  split_ifs at h ⊢ <;> omega

/-- An iterator that is not at its end is not put there by a write. -/
theorem atEnd_apply_of_not
    (h : it.atEnd m = false)
    (op : WriteOp) :
    it.atEnd (m.apply op) = false := by
  have hle := m.length_le_apply op
  unfold atEnd at h ⊢
  split_ifs at h ⊢ <;> simp only [decide_eq_false_iff_not] at h ⊢ <;> omega

/-- Above the cut nothing changes for a reverse iterator below it. -/
theorem rest_of_take
    {m m' : Memtable} {pre post post' : Entries}
    (hrev : it.reverse = true)
    (hl : m.entries = pre ++ post)
    (hl' : m'.entries = pre ++ post')
    (hindex : it.nextIndex < pre.length) :
    it.rest m' = it.rest m := by
  have hle : (it.nextIndex + 1).toNat ≤ pre.length := by omega
  rw [rest, rest, if_pos hrev, if_pos hrev, hl, hl', List.take_append_of_le_length hle,
    List.take_append_of_le_length hle]

/-- What is left is the same after a write the iterator has passed. -/
theorem rest_apply_of_behind
    {op : WriteOp}
    (h : it.Behind m op) :
    it.rest (m.apply op) = it.rest m ∧ it.atEnd (m.apply op) = it.atEnd m := by
  unfold Behind at h
  cases hpos : position m.entries op.getKey with
  | ok pos =>
      obtain ⟨pre, old, post, hl, rfl, hl'⟩ := Memtable.apply_entries_ok hpos
      rw [hpos] at h
      dsimp only at h
      split_ifs at h with hrev
      · exact ⟨rest_of_take hrev hl hl' h, by rw [atEnd, atEnd, if_pos hrev, if_pos hrev]⟩
      · have hlength : (m.apply op).entries.length = m.entries.length := by
          simp [hl, hl']
        refine ⟨?_, by rw [atEnd, atEnd, if_neg hrev, if_neg hrev, hlength]⟩
        obtain ⟨d, hd⟩ : ∃ d, it.nextIndex.toNat = pre.length + (d + 1) :=
          ⟨it.nextIndex.toNat - pre.length - 1, by omega⟩
        rw [rest, rest, if_neg hrev, if_neg hrev, hl, hl', hd, List.drop_append,
          List.drop_append, Nat.add_sub_cancel_left]
        rfl
  | error pos =>
      obtain ⟨pre, post, hl, rfl, hl'⟩ := Memtable.apply_entries_error hpos
      rw [hpos] at h
      obtain ⟨hrev, hindex⟩ := h
      exact ⟨rest_of_take hrev hl hl' hindex,
        by rw [atEnd, atEnd, if_pos hrev, if_pos hrev]⟩

/-- An entry at a place that is still ahead is left. -/
theorem mem_rest_of_ahead
    {pre post : Entries} {e : Key × MemtableEntry}
    (hl : m.entries = pre ++ e :: post)
    (hahead : if it.reverse then (pre.length : Int) ≤ it.nextIndex
      else it.nextIndex ≤ pre.length) :
    e ∈ it.rest m := by
  unfold rest
  split_ifs at hahead ⊢ with hrev
  · obtain ⟨d, hd⟩ : ∃ d, (it.nextIndex + 1).toNat = pre.length + (d + 1) :=
      ⟨(it.nextIndex + 1).toNat - pre.length - 1, by omega⟩
    rw [List.mem_reverse, hl, hd, List.take_length_add_append, List.take_succ_cons]
    simp
  · rw [hl, List.drop_append_of_le_length (by omega)]
    simp

theorem mem_entries_of_mem_rest
    {e : Key × MemtableEntry}
    (h : e ∈ it.rest m) :
    e ∈ m.entries := by
  unfold rest at h
  split_ifs at h
  · exact List.mem_of_mem_take (List.mem_reverse.mp h)
  · exact List.mem_of_mem_drop h

/-- What is left is different after any other write. -/
theorem rest_apply_ne
    {op : WriteOp}
    (hfresh : m.Fresh)
    (hend : it.atEnd m = false)
    (h : ¬ it.Behind m op) :
    it.rest (m.apply op) ≠ it.rest m := by
  intro heq
  -- an entry that is ahead would have been there before
  have hnew : (op.getKey, entryOf m.nextSeqNumber op) ∉ it.rest (m.apply op) := by
    rw [heq]
    exact fun hmem => hfresh.not_mem op (mem_entries_of_mem_rest hmem)
  unfold Behind at h
  cases hpos : position m.entries op.getKey with
  | ok pos =>
      obtain ⟨pre, old, post, hl, rfl, hl'⟩ := Memtable.apply_entries_ok hpos
      rw [hpos] at h
      refine hnew (mem_rest_of_ahead hl' ?_)
      dsimp only at h
      split_ifs at h ⊢ <;> omega
  | error pos =>
      obtain ⟨pre, post, hl, rfl, hl'⟩ := Memtable.apply_entries_error hpos
      rw [hpos] at h
      by_cases hrev : it.reverse = true
      · refine hnew (mem_rest_of_ahead hl' ?_)
        rw [if_pos hrev]
        exact not_lt.mp fun hlt => h ⟨hrev, hlt⟩
      · -- a new key makes what is left of a forward iterator longer
        have hlength : (m.apply op).entries.length = m.entries.length + 1 := by
          simp [hl, hl', Nat.add_assoc]
        have hlen := congrArg List.length heq
        rw [rest, rest, if_neg hrev, if_neg hrev, List.length_drop, List.length_drop,
          hlength] at hlen
        rw [atEnd, if_neg hrev, decide_eq_false_iff_not] at hend
        omega

/-- An iterator at its end notices new keys only, and then it is not at its end any more. -/
theorem atEnd_apply_ne
    {op : WriteOp}
    (hvalid : it.Valid m)
    (hend : it.atEnd m = true)
    (h : ¬ it.Behind m op) :
    it.atEnd (m.apply op) = false := by
  unfold Behind at h
  unfold Valid at hvalid
  unfold atEnd at hend ⊢
  cases hpos : position m.entries op.getKey with
  | ok pos =>
      obtain ⟨pre, old, post, hl, rfl, hl'⟩ := Memtable.apply_entries_ok hpos
      have hlength : m.entries.length = pre.length + (post.length + 1) := by simp [hl]
      rw [hpos] at h
      dsimp only at h
      split_ifs at h hend <;> simp only [decide_eq_true_eq] at hend <;> omega
  | error pos =>
      obtain ⟨pre, post, hl, rfl, hl'⟩ := Memtable.apply_entries_error hpos
      have hlength : (m.apply op).entries.length = m.entries.length + 1 := by
        simp [hl, hl', Nat.add_assoc]
      rw [hpos] at h
      by_cases hrev : it.reverse = true
      · rw [if_pos hrev, decide_eq_true_eq] at hend
        exact absurd ⟨hrev, by omega⟩ h
      · rw [if_neg hrev] at hvalid ⊢
        rw [decide_eq_false_iff_not]
        omega

end Writes
end MemtableIterator

/-- Where the caller of an iterator is: it asks whether the iterator is at its end, and if it
is not, takes the entry and makes a step. -/
inductive ReaderPc where
  | checking
  | stepping
  | panicked (message : String)
deriving DecidableEq

/-- An iterator in use.  `memtable` is what the iterator points into, and `live` says that
writes still go there; `delivered` is what the caller has got, and `checks` how often it has
asked. -/
structure Reader where
  memtable : Memtable
  live : Bool
  iter : MemtableIterator
  pc : ReaderPc
  delivered : Entries
  checks : Nat

inductive ReaderEvent where
  | write (op : WriteOp)
  | rotate
  | check
  | step
deriving DecidableEq

namespace Reader

open MemtableIterator

/-- A call of the iterator that may panic. -/
def calls {α : Type} (r : Reader) (outcome : Outcome α) (next : α → Reader) : Reader :=
  match outcome with
  | .value a => next a
  | .panic message => { r with pc := .panicked message }
  | _ => r

def check (r : Reader) : Reader :=
  if r.iter.atEnd r.memtable then { r with checks := r.checks + 1 }
  else r.calls r.iter.current fun e =>
    { r with pc := .stepping, delivered := r.delivered ++ [e], checks := r.checks + 1 }

def advance (r : Reader) : Reader :=
  r.calls (r.iter.step r.memtable) fun it => { r with iter := it, pc := .checking }

def step (r : Reader) : ReaderEvent → Reader
  | .write op => if r.live then { r with memtable := r.memtable.apply op } else r
  | .rotate => { r with live := false }
  | .check =>
      match r.pc with
      | .checking => r.check
      | _ => r
  | .step =>
      match r.pc with
      | .stepping => r.advance
      | _ => r

/-- An iterator on the live memtable. -/
def new (m : Memtable) (reverse : Bool) : Reader :=
  let r : Reader := ⟨m, true, start m reverse, .stepping, [], 0⟩
  r.calls (MemtableIterator.new m reverse) fun it => { r with iter := it, pc := .checking }

def run (r : Reader) (events : List ReaderEvent) : Reader :=
  Runs.run step r events

/-- The caller reads on, with no write in between. -/
def drain (n : Nat) : List ReaderEvent :=
  (List.replicate n [.check, .step]).flatten

/-- So far the iterator has delivered the content `snap`: one entry each time the caller
asked, until there was none left. -/
def Consistent (snap : Entries) (r : Reader) : Prop :=
  (∀ message, r.pc ≠ .panicked message) ∧ r.delivered = snap.take r.checks

/-- A write the iterator does not notice. -/
def Harmless (r : Reader) : ReaderEvent → Prop
  | .write op => r.live = true → r.iter.Behind r.memtable op
  | _ => True

/-- What the caller still gets if nothing is written any more. -/
def pending (r : Reader) : Entries :=
  match r.pc with
  | .checking =>
      if r.iter.atEnd r.memtable then [] else r.iter.item.toList ++ r.iter.rest r.memtable
  | .stepping => r.iter.rest r.memtable
  | .panicked _ => []

/-- A reader whose calls return. -/
structure Sound (r : Reader) : Prop where
  valid : r.iter.Valid r.memtable
  fresh : r.memtable.Fresh
  stepping : r.pc = .stepping → r.iter.atEnd r.memtable = false
  running : ∀ message, r.pc ≠ .panicked message

/-- An iterator that is not at its end has read an entry. -/
def Loaded (r : Reader) : Prop :=
  r.pc = .checking → r.iter.atEnd r.memtable = false → r.iter.item ≠ none

/-- What was delivered and what is left make up `snap`. -/
structure Faithful (snap : Entries) (r : Reader) : Prop where
  sound : r.Sound
  loaded : r.Loaded
  pending : r.delivered ++ r.pending = snap
  delivered : r.delivered = snap.take r.checks

section Events

variable {r : Reader} {snap : Entries}

theorem step_check_atEnd
    (hpc : r.pc = .checking)
    (hend : r.iter.atEnd r.memtable = true) :
    r.step .check = { r with checks := r.checks + 1 } := by
  simp only [step, hpc, check, hend, if_true]

theorem step_check_item
    {e : Key × MemtableEntry}
    (hpc : r.pc = .checking)
    (hend : r.iter.atEnd r.memtable = false)
    (hitem : r.iter.item = some e) :
    r.step .check = { r with
      pc := .stepping, delivered := r.delivered ++ [e], checks := r.checks + 1 } := by
  simp only [step, hpc, check, hend, Bool.false_eq_true, if_false, calls,
    current_of_item hitem]

theorem step_step
    (h : r.Sound)
    (hpc : r.pc = .stepping) :
    ∃ it, r.step .step = { r with iter := it, pc := .checking } ∧
      (r.step .step).Sound ∧ (r.step .step).Loaded ∧
      (r.step .step).pending = r.iter.rest r.memtable := by
  have hstep : r.step .step = r.advance := by
    simp only [step, hpc]
  rw [hstep, advance]
  cases hrest : r.iter.rest r.memtable with
  | nil =>
      obtain ⟨it, hit, -, hvalid, hend⟩ := step_nil h.valid (h.stepping hpc) hrest
      rw [hit]
      refine ⟨it, rfl, ⟨hvalid, h.fresh, by simp [calls], by simp [calls]⟩, ?_, ?_⟩
      · intro _ hnot
        cases hend.symm.trans hnot
      · simp only [calls, Reader.pending, hend, if_true]
  | cons e l =>
      obtain ⟨it, hit, -, hvalid, hend, hitem, hl⟩ := step_cons h.valid hrest
      rw [hit]
      refine ⟨it, rfl, ⟨hvalid, h.fresh, by simp [calls], by simp [calls]⟩, ?_, ?_⟩
      · intro _ _ hnone
        cases hitem.symm.trans hnone
      · simp only [calls, Reader.pending, hend, Bool.false_eq_true, if_false, hitem, hl]
        rfl

theorem step_write
    (hlive : r.live = true)
    (op : WriteOp) :
    r.step (.write op) = { r with memtable := r.memtable.apply op } := by
  simp only [step, hlive, if_true]

theorem Sound.write
    (h : r.Sound)
    (op : WriteOp) :
    ({ r with memtable := r.memtable.apply op } : Reader).Sound where
  valid := h.valid.apply op
  fresh := h.fresh.apply op
  stepping := fun hpc => atEnd_apply_of_not (h.stepping hpc) op
  running := h.running

theorem Faithful.consistent
    (h : Faithful snap r) :
    Consistent snap r :=
  ⟨h.sound.running, h.delivered⟩

theorem Faithful.check
    (h : Faithful snap r) :
    Faithful snap (r.step .check) := by
  cases hpc : r.pc with
  | checking =>
      have hpending := h.pending
      have hdelivered := h.delivered
      rw [Reader.pending, hpc] at hpending
      dsimp only at hpending
      cases hend : r.iter.atEnd r.memtable with
      | true =>
          rw [hend, if_pos rfl, List.append_nil] at hpending
          rw [step_check_atEnd hpc hend]
          refine ⟨⟨h.sound.valid, h.sound.fresh, h.sound.stepping, h.sound.running⟩,
            h.loaded, h.pending, ?_⟩
          -- everything was delivered before
          have hle : snap.length ≤ r.checks :=
            (List.take_eq_self_iff snap).mp (hdelivered.symm.trans hpending)
          change r.delivered = snap.take (r.checks + 1)
          rw [List.take_of_length_le (Nat.le_succ_of_le hle), hpending]
      | false =>
          obtain ⟨e, hitem⟩ := Option.ne_none_iff_exists'.mp (h.loaded hpc hend)
          rw [hend, if_neg Bool.false_ne_true, hitem] at hpending
          rw [step_check_item hpc hend hitem]
          refine ⟨⟨h.sound.valid, h.sound.fresh, fun _ => hend, by simp⟩, by simp [Loaded],
            ?_, ?_⟩
          · rw [← hpending]
            simp [Reader.pending]
          · have hlength := congrArg List.length hdelivered
            rw [List.length_take, ← hpending] at hlength
            simp only [Option.toList_some, List.length_append, List.length_singleton]
              at hlength
            have hchecks : r.checks = r.delivered.length := by omega
            change r.delivered ++ [e] = snap.take (r.checks + 1)
            rw [hchecks, ← hpending, List.take_length_add_append]
            rfl
  | stepping =>
      have hstep : r.step .check = r := by simp only [step, hpc]
      rw [hstep]
      exact h
  | panicked message =>
      exact absurd hpc (h.sound.running message)

theorem Faithful.step
    (h : Faithful snap r) :
    Faithful snap (r.step .step) := by
  cases hpc : r.pc with
  | stepping =>
      obtain ⟨it, heq, hsound, hloaded, hpending⟩ := step_step h.sound hpc
      refine ⟨hsound, hloaded, ?_, ?_⟩
      · have hold := h.pending
        rw [Reader.pending, hpc] at hold
        rw [hpending, heq]
        exact hold
      · rw [heq]
        exact h.delivered
  | checking =>
      have hstep : r.step .step = r := by simp only [Reader.step, hpc]
      rw [hstep]
      exact h
  | panicked message =>
      exact absurd hpc (h.sound.running message)

theorem Faithful.write
    {op : WriteOp}
    (h : Faithful snap r)
    (hbehind : r.iter.Behind r.memtable op) :
    Faithful snap { r with memtable := r.memtable.apply op } := by
  obtain ⟨hrest, hend⟩ := rest_apply_of_behind hbehind
  refine ⟨h.sound.write op, ?_, ?_, h.delivered⟩
  · intro hpc hnot
    exact h.loaded hpc (hend.symm.trans hnot)
  · have hpending := h.pending
    unfold Reader.pending at hpending ⊢
    dsimp only
    rw [hrest, hend]
    exact hpending

/-- No harmless event breaks off the iteration. -/
theorem faithful_step
    (snap : Entries) (r : Reader) (e : ReaderEvent)
    (hcond : r.Harmless e)
    (h : Faithful snap r) :
    Faithful snap (r.step e) := by
  cases e with
  | write op =>
      by_cases hlive : r.live = true
      · rw [step_write hlive]
        exact h.write (hcond hlive)
      · have hstep : r.step (.write op) = r := if_neg hlive
        rw [hstep]
        exact h
  | rotate =>
      exact ⟨⟨h.sound.valid, h.sound.fresh, h.sound.stepping, h.sound.running⟩, h.loaded,
        h.pending, h.delivered⟩
  | check =>
      exact h.check
  | step =>
      exact h.step

theorem faithful_new
    {m : Memtable}
    (hfresh : m.Fresh)
    (reverse : Bool) :
    Faithful (snapshot m reverse) (new m reverse) := by
  have hsound : Sound ⟨m, true, start m reverse, .stepping, [], 0⟩ :=
    ⟨valid_start m reverse, hfresh, fun _ => atEnd_start m reverse, by simp⟩
  have h : Faithful (snapshot m reverse) ⟨m, true, start m reverse, .stepping, [], 0⟩ :=
    ⟨hsound, by simp [Loaded], rest_start m reverse, rfl⟩
  exact h.step

end Events

/-! ## Reading on -/

section Drain

variable {r : Reader} {snap : Entries}

theorem drain_succ
    (n : Nat) :
    drain (n + 1) = .check :: .step :: drain n := by
  rw [drain, List.replicate_succ, List.flatten_cons]
  rfl

theorem run_drain_succ
    (r : Reader) (n : Nat) :
    r.run (drain (n + 1)) = ((r.step .check).step .step).run (drain n) := by
  rw [drain_succ]
  rfl

theorem run_drain
    (hsound : r.Sound)
    (hloaded : r.Loaded)
    (hpc : r.pc = .checking)
    (n : Nat) :
    (r.run (drain n)).delivered = r.delivered ++ r.pending.take n ∧
      (r.run (drain n)).checks = r.checks + n := by
  induction n generalizing r with
  | zero =>
      exact ⟨(List.append_nil _).symm, rfl⟩
  | succ n ih =>
      rw [run_drain_succ]
      cases hend : r.iter.atEnd r.memtable with
      | true =>
          have hpending : r.pending = [] := by simp only [Reader.pending, hpc, hend, if_true]
          have hround : (r.step .check).step .step = { r with checks := r.checks + 1 } := by
            rw [step_check_atEnd hpc hend]
            simp only [step, hpc]
          rw [hround]
          obtain ⟨hdelivered, hchecks⟩ := ih (r := { r with checks := r.checks + 1 })
            ⟨hsound.valid, hsound.fresh, hsound.stepping, hsound.running⟩ hloaded hpc
          rw [hdelivered, hchecks]
          refine ⟨?_, Nat.add_right_comm _ 1 n⟩
          change r.delivered ++ r.pending.take n = _
          rw [hpending, List.take_nil, List.take_nil]
      | false =>
          obtain ⟨e, hitem⟩ := Option.ne_none_iff_exists'.mp (hloaded hpc hend)
          have hpending : r.pending = e :: r.iter.rest r.memtable := by
            simp only [Reader.pending, hpc, hend, Bool.false_eq_true, if_false, hitem]
            rfl
          rw [step_check_item hpc hend hitem]
          obtain ⟨it, heq, hsound', hloaded', hrest⟩ := step_step
            (r := { r with
              pc := .stepping, delivered := r.delivered ++ [e], checks := r.checks + 1 })
            ⟨hsound.valid, hsound.fresh, fun _ => hend, by simp⟩ rfl
          obtain ⟨hdelivered, hchecks⟩ := ih hsound' hloaded' (by rw [heq])
          rw [hdelivered, hchecks, hrest, hpending, heq]
          exact ⟨List.append_assoc _ _ _, Nat.add_right_comm _ 1 n⟩

theorem Faithful.run_drain
    (h : Faithful snap r)
    (n : Nat) :
    Faithful snap (r.run (drain n)) := by
  induction n generalizing r with
  | zero =>
      exact h
  | succ n ih =>
      rw [run_drain_succ]
      exact ih h.check.step

/-- A reader that is consistent however far it reads on gets all of `snap`. -/
theorem append_pending_of_consistent
    (hsound : r.Sound)
    (hall : ∀ n, Consistent snap (r.run (drain n))) :
    r.Loaded ∧ r.delivered ++ r.pending = snap := by
  have hread : ∀ r' : Reader, r'.Sound → r'.Loaded → r'.pc = .checking →
      (∀ n, Consistent snap (r'.run (drain n))) → r'.delivered ++ r'.pending = snap := by
    intro r' hsound' hloaded' hpc' hall'
    obtain ⟨hdelivered, hchecks⟩ :=
      run_drain hsound' hloaded' hpc' (r'.pending.length + snap.length)
    have hconsistent := (hall' (r'.pending.length + snap.length)).2
    rw [hdelivered, hchecks, List.take_of_length_le (Nat.le_add_right _ _),
      List.take_of_length_le (by omega)] at hconsistent
    exact hconsistent
  cases hpc : r.pc with
  | checking =>
      have hloaded : r.Loaded := by
        intro _ hend hnone
        -- the first call would panic
        obtain ⟨message, hpanic⟩ := current_panic hnone
        have hround : (r.step .check).step .step = { r with pc := .panicked message } := by
          simp only [step, hpc, check, hend, Bool.false_eq_true, if_false, calls, hpanic]
        have hfirst := (hall 1).1 message
        rw [run_drain_succ, hround] at hfirst
        exact hfirst rfl
      exact ⟨hloaded, hread r hsound hloaded hpc hall⟩
  | stepping =>
      refine ⟨fun hchecking => by simp [hpc] at hchecking, ?_⟩
      have hcheck : r.step .check = r := by simp only [step, hpc]
      obtain ⟨it, heq, hsound', hloaded', hrest⟩ := step_step hsound hpc
      have hrest' := hread (r.step .step) hsound' hloaded' (by rw [heq]) (fun n => by
        have hn := hall (n + 1)
        rw [run_drain_succ, hcheck] at hn
        exact hn)
      rw [hrest, heq] at hrest'
      simp only [Reader.pending, hpc]
      exact hrest'
  | panicked message =>
      exact absurd hpc (hsound.running message)

/-- A write that is not harmless changes what is delivered. -/
theorem behind_of_consistent
    {op : WriteOp}
    (h : Faithful snap r)
    (hall : ∀ n, Consistent snap
      (({ r with memtable := r.memtable.apply op } : Reader).run (drain n))) :
    r.iter.Behind r.memtable op := by
  by_contra hnot
  obtain ⟨hloaded, hpending'⟩ := append_pending_of_consistent (h.sound.write op) hall
  -- before and after the write the same is pending
  have hpending : ({ r with memtable := r.memtable.apply op } : Reader).pending = r.pending :=
    List.append_cancel_left (hpending'.trans h.pending.symm)
  unfold Reader.pending at hpending
  cases hpc : r.pc with
  | checking =>
      simp only [hpc] at hpending
      cases hend : r.iter.atEnd r.memtable with
      | true =>
          have hend' := atEnd_apply_ne h.sound.valid hend hnot
          obtain ⟨e, hitem⟩ := Option.ne_none_iff_exists'.mp (hloaded hpc hend')
          simp [hend, hend', hitem] at hpending
      | false =>
          rw [atEnd_apply_of_not hend op, hend, if_neg Bool.false_ne_true] at hpending
          exact rest_apply_ne h.sound.fresh hend hnot (List.append_cancel_left hpending)
  | stepping =>
      simp only [hpc] at hpending
      exact rest_apply_ne h.sound.fresh (h.sound.stepping hpc) hnot hpending
  | panicked message =>
      exact h.sound.running message hpc

end Drain

/-- **An iterator is a snapshot of the memtable** if it is not disturbed.  Take a memtable with
any contents, an iterator in either direction and any interleaving of its calls with writes
to the memtable.  At every moment it has delivered what the memtable held at first, in order
and without a panic, and would go on to do so, exactly if every write was behind it. -/
theorem memtable_iterator_snapshot_iff
    (seqNumber : Nat) (ops : List WriteOp) (reverse : Bool) (events : List ReaderEvent) :
    let m := (Memtable.new seqNumber).applyAll ops
    (∀ k n, Consistent (snapshot m reverse)
        ((new m reverse).run (events.take k ++ drain n))) ↔
      Runs.Along step Harmless (new m reverse) events := by
  intro m
  have hnew : Faithful (snapshot m reverse) (new m reverse) :=
    faithful_new (Memtable.fresh_applyAll seqNumber ops) reverse
  have hrun : ∀ k n, (new m reverse).run (events.take k ++ drain n) =
      ((new m reverse).run (events.take k)).run (drain n) :=
    fun k n => Runs.run_append step (new m reverse) (events.take k) (drain n)
  simp only [hrun]
  refine Runs.forall_take_iff_along (faithful_step (snapshot m reverse))
    (fun r h n => (h.run_drain n).consistent) ?_ hnew events
  intro r e h hall
  cases e with
  | write op =>
      intro hlive
      refine behind_of_consistent h fun n => ?_
      rw [← step_write hlive]
      exact hall n
  | rotate =>
      trivial
  | check =>
      trivial
  | step =>
      trivial

/-- The keys that were delivered. -/
def deliveredKeys (r : Reader) : List (List UInt8) :=
  r.delivered.map fun e => e.1.data

/-- A memtable with the keys 1 and 3. -/
def twoKeys : Memtable :=
  (Memtable.new 1).applyAll
    [.put (ByteVec.ofList [1]) (ByteVec.ofList [10]),
      .put (ByteVec.ofList [3]) (ByteVec.ofList [30])]

/-- A write that is not behind the iterator: on an empty memtable the next call panics; a
smaller key makes a forward iterator deliver an entry twice, and a reverse iterator deliver
the new entry in place of an old one. -/
theorem writes_disturb_iterator :
    let write := ReaderEvent.write (.put (ByteVec.ofList [0]) (ByteVec.ofList []))
    ((new (Memtable.new 1) false).run [write, .check]).pc =
        .panicked "Not a valid iterator" ∧
      deliveredKeys ((new twoKeys false).run (write :: drain 4)) = [[1], [1], [3]] ∧
      deliveredKeys ((new twoKeys true).run (write :: drain 4)) = [[3], [0]] := by
  decide +kernel

end Reader
end LsmStore
