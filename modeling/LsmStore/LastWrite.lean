import LsmStore.Memtable

/-!
# The last-write-wins map

What the store is for: after a sequence of puts and deletes, a key has the
value of the last put that no delete followed.  `lastWrite` keeps the whole
entry of that last operation, with its sequence number; the first operation of
a database has sequence number 1.

A memtable that was filled after `base` operations agrees with the map on every
key one of its own operations touched.
-/

namespace LsmStore

/-- The entry of the last operation on a key. -/
def lastWrite (ops : List WriteOp) (key : Key) : Option MemtableEntry :=
  (ops.zipIdx 1).foldl
    (fun found op => if op.1.getKey = key then some (entryOf op.2 op.1) else found) none

/-- The value of a key after some operations. -/
def valueAfter (ops : List WriteOp) (key : Key) : Option Value :=
  (lastWrite ops key).bind MemtableEntry.getValue

theorem lastWrite_concat
    (ops : List WriteOp) (op : WriteOp) (key : Key) :
    lastWrite (ops ++ [op]) key =
      if op.getKey = key then some (entryOf (ops.length + 1) op) else lastWrite ops key := by
  simp [lastWrite, List.zipIdx_append, Nat.add_comm]

/-- Sequence numbers count the operations. -/
theorem lastWrite_seqNumber_le
    {ops : List WriteOp} {key : Key} {entry : MemtableEntry}
    (h : lastWrite ops key = some entry) :
    entry.getSeqNumber ≤ ops.length := by
  induction ops using List.reverseRecOn with
  | nil =>
      cases h
  | append_singleton ops op ih =>
      rw [lastWrite_concat] at h
      rw [List.length_append, List.length_singleton]
      split_ifs at h with hkey
      · rw [← Option.some.inj h, getSeqNumber_entryOf]
      · exact Nat.le_succ_of_le (ih h)

/-- Later operations leave the last write alone, or replace it by a newer one. -/
theorem lastWrite_append
    (ops later : List WriteOp) (key : Key) :
    lastWrite (ops ++ later) key = lastWrite ops key ∨
      ∃ entry, lastWrite (ops ++ later) key = some entry ∧ ops.length < entry.getSeqNumber := by
  induction later using List.reverseRecOn with
  | nil =>
      left
      rw [List.append_nil]
  | append_singleton later op ih =>
      rw [← List.append_assoc, lastWrite_concat]
      by_cases hkey : op.getKey = key
      · right
        refine ⟨entryOf ((ops ++ later).length + 1) op, if_pos hkey, ?_⟩
        rw [getSeqNumber_entryOf, List.length_append]
        omega
      · rw [if_neg hkey]
        exact ih

/-- A key that was written stays written, and never by an older operation. -/
theorem lastWrite_mono
    {ops : List WriteOp} {key : Key} {entry : MemtableEntry}
    (h : lastWrite ops key = some entry)
    (later : List WriteOp) :
    ∃ newer, lastWrite (ops ++ later) key = some newer ∧
      entry.getSeqNumber ≤ newer.getSeqNumber := by
  rcases lastWrite_append ops later key with heq | ⟨newer, hnewer, hlt⟩
  · exact ⟨entry, heq.trans h, le_refl _⟩
  · have := lastWrite_seqNumber_le h
    exact ⟨newer, hnewer, by omega⟩

/-- A sequence number belongs to one operation. -/
theorem lastWrite_inj
    {ops later : List WriteOp} {key : Key} {entry newer : MemtableEntry}
    (h : lastWrite ops key = some entry)
    (h' : lastWrite (ops ++ later) key = some newer)
    (hle : newer.getSeqNumber ≤ entry.getSeqNumber) :
    newer = entry := by
  rcases lastWrite_append ops later key with heq | ⟨e, he, hlt⟩
  · rw [heq, h] at h'
    exact (Option.some.inj h').symm
  · obtain rfl : e = newer := Option.some.inj (he.symm.trans h')
    have := lastWrite_seqNumber_le h
    omega

/-- A memtable that was started after `base` and got `ops`: either no operation touched the
key, or both the memtable and the map have the last one that did. -/
theorem Memtable.get_applyAll
    (m : Memtable) (base ops : List WriteOp) (key : Key)
    (hseq : m.nextSeqNumber = base.length + 1) :
    ((m.applyAll ops).get key = m.get key ∧
        lastWrite (base ++ ops) key = lastWrite base key) ∨
      ∃ entry, (m.applyAll ops).get key = some entry ∧
        lastWrite (base ++ ops) key = some entry ∧ base.length < entry.getSeqNumber := by
  induction ops using List.reverseRecOn with
  | nil =>
      left
      exact ⟨rfl, by rw [List.append_nil]⟩
  | append_singleton ops op ih =>
      have hnext : (m.applyAll ops).nextSeqNumber = (base ++ ops).length + 1 := by
        rw [applyAll_nextSeqNumber, hseq, List.length_append]
        omega
      rw [← List.append_assoc, lastWrite_concat, applyAll_concat, get_apply, hnext]
      by_cases hkey : op.getKey = key
      · right
        refine ⟨entryOf ((base ++ ops).length + 1) op, if_pos hkey, if_pos hkey, ?_⟩
        rw [getSeqNumber_entryOf, List.length_append]
        omega
      · rw [if_neg hkey, if_neg hkey]
        exact ih

/-! ## Values without sequence numbers -/

/-- The last operation on a key. -/
def lastOp (ops : List WriteOp) (key : Key) : Option WriteOp :=
  ops.reverse.find? fun op => decide (op.getKey = key)

theorem lastOp_concat
    (ops : List WriteOp) (op : WriteOp) (key : Key) :
    lastOp (ops ++ [op]) key = if op.getKey = key then some op else lastOp ops key := by
  simp only [lastOp, List.reverse_append, List.reverse_singleton, List.singleton_append,
    List.find?_cons]
  by_cases hkey : op.getKey = key <;> simp [hkey]

theorem lastOp_append_eq_none
    {xs ys : List WriteOp} {key : Key}
    (h : lastOp (xs ++ ys) key = none) :
    lastOp xs key = none ∧ lastOp ys key = none := by
  rw [lastOp, List.reverse_append, List.find?_append, Option.or_eq_none_iff] at h
  exact ⟨h.2, h.1⟩

theorem getValue_entryOf
    (m n : Nat) (op : WriteOp) :
    (entryOf m op).getValue = (entryOf n op).getValue := by
  cases op <;> rfl

theorem Memtable.get_applyAll_lastOp
    (m : Memtable) (ops : List WriteOp) (key : Key) :
    (lastOp ops key = none ∧ (m.applyAll ops).get key = m.get key) ∨
      ∃ op n, lastOp ops key = some op ∧ (m.applyAll ops).get key = some (entryOf n op) := by
  induction ops using List.reverseRecOn with
  | nil =>
      exact Or.inl ⟨rfl, rfl⟩
  | append_singleton ops op ih =>
      rw [lastOp_concat, applyAll_concat, get_apply]
      by_cases hkey : op.getKey = key
      · right
        exact ⟨op, (m.applyAll ops).nextSeqNumber, if_pos hkey, if_pos hkey⟩
      · rw [if_neg hkey, if_neg hkey]
        exact ih

/-- The last-write-wins map shows the last operation on a key. -/
theorem lastWrite_append_lastOp
    (base ops : List WriteOp) (key : Key) :
    (lastOp ops key = none ∧ lastWrite (base ++ ops) key = lastWrite base key) ∨
      ∃ op n, lastOp ops key = some op ∧
        lastWrite (base ++ ops) key = some (entryOf n op) := by
  induction ops using List.reverseRecOn with
  | nil =>
      left
      exact ⟨rfl, by rw [List.append_nil]⟩
  | append_singleton ops op ih =>
      rw [lastOp_concat, ← List.append_assoc, lastWrite_concat]
      by_cases hkey : op.getKey = key
      · right
        exact ⟨op, (base ++ ops).length + 1, if_pos hkey, if_pos hkey⟩
      · rw [if_neg hkey, if_neg hkey]
        exact ih

/-- A replayed log has the values of the history, whatever sequence numbers it hands out. -/
theorem Memtable.get_replayed
    (seqNumber : Nat) (base ops : List WriteOp) (key : Key) :
    (lastOp ops key = none ∧ ((Memtable.new seqNumber).applyAll ops).get key = none ∧
        lastWrite (base ++ ops) key = lastWrite base key) ∨
      ∃ entry, ((Memtable.new seqNumber).applyAll ops).get key = some entry ∧
        entry.getValue = valueAfter (base ++ ops) key := by
  rcases Memtable.get_applyAll_lastOp (Memtable.new seqNumber) ops key with
    ⟨hnone, hget⟩ | ⟨op, n, hop, hget⟩ <;>
    rcases lastWrite_append_lastOp base ops key with ⟨hnone', hlast⟩ | ⟨op', n', hop', hlast⟩
  · exact Or.inl ⟨hnone, hget, hlast⟩
  · rw [hnone] at hop'
    cases hop'
  · rw [hnone'] at hop
    cases hop
  · obtain rfl : op = op' := Option.some.inj (hop.symm.trans hop')
    refine Or.inr ⟨entryOf n op, hget, ?_⟩
    rw [valueAfter, hlast]
    exact getValue_entryOf n n' op

theorem put_mem_of_valueAfter
    {ops : List WriteOp} {key : Key} {value : Value}
    (h : valueAfter ops key = some value) :
    .put key value ∈ ops := by
  induction ops using List.reverseRecOn with
  | nil =>
      cases h
  | append_singleton ops op ih =>
      rw [valueAfter, lastWrite_concat] at h
      split_ifs at h with hkey
      · cases op with
        | put k v =>
            cases h
            cases hkey
            exact List.mem_append_right _ (List.mem_singleton.mpr rfl)
        | delete k =>
            cases h
      · exact List.mem_append_left _ (ih h)

/-! ## The memtable as a map -/

/-- Operation `i` is the last one on its key. -/
structure IsLast (ops : List WriteOp) (i : Nat) (op : WriteOp) : Prop where
  at_index : ops[i]? = some op
  later : ∀ j other, i < j → ops[j]? = some other → other.getKey ≠ op.getKey

theorem IsLast.concat
    {ops : List WriteOp} {i : Nat} {op : WriteOp}
    (h : IsLast ops i op)
    {new : WriteOp}
    (hkey : new.getKey ≠ op.getKey) :
    IsLast (ops ++ [new]) i op := by
  have hlt := (List.getElem?_eq_some_iff.mp h.at_index).1
  refine ⟨by rw [List.getElem?_append_left hlt, h.at_index], ?_⟩
  intro j other hij hj
  rcases Nat.lt_or_ge j ops.length with hold | hnew
  · rw [List.getElem?_append_left hold] at hj
    exact h.later j other hij hj
  · rw [List.getElem?_append_right hnew, List.getElem?_singleton] at hj
    split_ifs at hj
    rw [← Option.some.inj hj]
    exact hkey

theorem isLast_concat
    (ops : List WriteOp) (op : WriteOp) :
    IsLast (ops ++ [op]) ops.length op := by
  refine ⟨by rw [List.getElem?_append_right (le_refl _), Nat.sub_self]; rfl, ?_⟩
  intro j other hlt hj
  rw [List.getElem?_eq_none (by rw [List.length_append, List.length_singleton]; omega)] at hj
  cases hj

/-- A new memtable has the last operation on every key that was touched, under the sequence
number of that operation, and nothing else. -/
theorem Memtable.get_new_applyAll
    (seqNumber : Nat) (ops : List WriteOp) (key : Key) :
    (∃ i op, IsLast ops i op ∧ op.getKey = key ∧
        ((Memtable.new seqNumber).applyAll ops).get key = some (entryOf (seqNumber + i) op)) ∨
      ((∀ op ∈ ops, op.getKey ≠ key) ∧
        ((Memtable.new seqNumber).applyAll ops).get key = none) := by
  induction ops using List.reverseRecOn with
  | nil =>
      exact Or.inr ⟨fun op hop => absurd hop List.not_mem_nil, rfl⟩
  | append_singleton ops op ih =>
      rw [applyAll_concat, get_apply, applyAll_nextSeqNumber]
      by_cases hkey : op.getKey = key
      · rw [if_pos hkey]
        exact Or.inl ⟨ops.length, op, isLast_concat ops op, hkey, rfl⟩
      · rw [if_neg hkey]
        rcases ih with ⟨i, last, hlast, hkey', hget⟩ | ⟨hnone, hget⟩
        · exact Or.inl ⟨i, last, hlast.concat (by rw [hkey']; exact hkey), hkey', hget⟩
        · refine Or.inr ⟨?_, hget⟩
          intro other hother
          rcases List.mem_append.mp hother with hold | hnew
          · exact hnone other hold
          · rw [List.mem_singleton.mp hnew]
            exact hkey

/-- What `get_key_pos` subtracts for the entry it removes is part of the size. -/
theorem Memtable.entryLen_le_size
    (m : Memtable)
    {pos : Nat} {e : Key × MemtableEntry}
    (h : m.entries[pos]? = some e) :
    entryLen e ≤ m.size := by
  rw [m.size_eq, entriesLen]
  exact List.single_le_sum (fun n _ => Nat.zero_le n) _
    (List.mem_map_of_mem (List.mem_of_getElem? h))

/-- **The memtable is a last-write-wins map**, after any operations: its entries are strictly
sorted, a lookup finds the last operation on its key, sequence numbers count the operations,
and the size is the number of bytes held, so that removing an entry never underflows. -/
theorem Memtable.last_write_wins
    (seqNumber : Nat) (ops : List WriteOp) :
    let m := (Memtable.new seqNumber).applyAll ops
    m.entries.Pairwise (fun a b => a.1 < b.1) ∧
      (∀ key,
        (∃ i op, IsLast ops i op ∧ op.getKey = key ∧
            m.get key = some (entryOf (seqNumber + i) op)) ∨
          ((∀ op ∈ ops, op.getKey ≠ key) ∧ m.get key = none)) ∧
      m.getNextSeqNumber = seqNumber + ops.length ∧
      m.size = (m.entries.map entryLen).sum ∧
      ∀ key pos e, SortedAssoc.position m.entries key = .ok pos → m.entries[pos]? = some e →
        entryLen e ≤ m.size := by
  intro m
  refine ⟨m.sorted, Memtable.get_new_applyAll seqNumber ops, ?_, m.size_eq, ?_⟩
  · exact applyAll_nextSeqNumber (Memtable.new seqNumber) ops
  · intro key pos e _ hpos
    exact m.entryLen_le_size hpos

end LsmStore
