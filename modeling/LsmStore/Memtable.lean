import LsmStore.Basic
import LsmStore.Lib.SortedAssoc

/-!
# The memtable

The updates that have not been written to level 0 yet, sorted by key.  Every
put or delete replaces the entry of its key and takes the next sequence
number.  The structure carries its two invariants: keys are strictly
increasing, and `size` is the number of key and value bytes it holds, so that
the subtraction in `getKeyPos` is exact.
-/

namespace LsmStore

open SortedAssoc

/-- An entry of the memtable: a value, or the mark of a deletion. -/
inductive MemtableEntry where
  | value (seqNumber : Nat) (value : Value)
  | deletion (seqNumber : Nat)
deriving DecidableEq

namespace MemtableEntry

def getSeqNumber : MemtableEntry → Nat
  | value seqNumber _ => seqNumber
  | deletion seqNumber => seqNumber

def getValue : MemtableEntry → Option Value
  | value _ v => some v
  | deletion _ => none

end MemtableEntry

/-- Keys with their entries, as memtables and tables hold them. -/
abbrev Entries : Type :=
  List (Key × MemtableEntry)

/-- Bytes accounted for one entry: the key, and the value unless it is a deletion. -/
def entryLen : Key × MemtableEntry → Nat
  | (key, .value _ value) => key.len + value.len
  | (key, .deletion _) => key.len

/-- Bytes accounted for a list of entries. -/
def entriesLen (entries : Entries) : Nat :=
  (entries.map entryLen).sum

@[simp] theorem entriesLen_append
    (xs ys : Entries) :
    entriesLen (xs ++ ys) = entriesLen xs + entriesLen ys := by
  simp [entriesLen]

@[simp] theorem entriesLen_cons
    (x : Key × MemtableEntry) (xs : Entries) :
    entriesLen (x :: xs) = entryLen x + entriesLen xs := by
  simp [entriesLen]

/-- The parameters of a database that the modelled functions read.  `DbLogic::new` refuses
to start without a level.  `tableSize` stands for the block format: the number of bytes of
the data blocks that a list of entries is written to. -/
structure Params where
  maxMemtableSize : Nat
  numLevels : Nat
  seekBasedCompaction : Option Nat
  tableSize : Entries → Nat
  numLevels_pos : 0 < numLevels

/-- In-memory updates, sorted by key. -/
structure Memtable where
  entries : Entries
  size : Nat
  nextSeqNumber : Nat
  sorted : Sorted entries
  size_eq : size = entriesLen entries
deriving DecidableEq

namespace Memtable

@[ext] theorem ext
    {a b : Memtable}
    (hentries : a.entries = b.entries)
    (hseq : a.nextSeqNumber = b.nextSeqNumber) :
    a = b := by
  have hsize : a.size = b.size := by
    rw [a.size_eq, b.size_eq, hentries]
  cases a
  cases b
  simp_all

/-- An empty memtable. -/
def new (nextSeqNumber : Nat) : Memtable where
  entries := []
  size := 0
  nextSeqNumber := nextSeqNumber
  sorted := List.Pairwise.nil
  size_eq := rfl

def getNextSeqNumber (m : Memtable) : Nat :=
  m.nextSeqNumber

/-- Smallest and largest key; the source panics on an empty memtable. -/
def getMinMaxKey (m : Memtable) : Outcome (Key × Key) :=
  match m.entries.head?, m.entries.getLast? with
  | some first, some last => .value (first.1, last.1)
  | _, _ => .panic "Memtable is empty"

def get (m : Memtable) (key : Key) : Option MemtableEntry :=
  lookup m.entries key

/-- Position at which to insert the key; an existing entry of the key is removed. -/
def getKeyPos (m : Memtable) (key : Key) : Memtable × Nat :=
  match hpos : position m.entries key with
  | .ok pos =>
      let removed := m.entries.eraseIdx pos
      ({ entries := removed
         size := m.size - ((m.entries[pos]?).map entryLen).getD 0
         nextSeqNumber := m.nextSeqNumber
         sorted := m.sorted.sublist (List.eraseIdx_sublist m.entries pos)
         size_eq := by
           obtain ⟨pre, v, post, hl, hlen, -, -⟩ := position_ok m.sorted hpos
           subst hlen
           simp only [removed, m.size_eq, hl,
             List.eraseIdx_append_of_length_le (le_refl _), Nat.sub_self,
             List.eraseIdx_cons_zero, entriesLen_append, entriesLen_cons,
             List.getElem?_append_right (le_refl _), List.getElem?_cons_zero,
             Option.map_some, Option.getD_some]
           omega }, pos)
  | .error pos => (m, pos)

/-- `getKeyPos` cuts the remaining entries below and above the key. -/
theorem getKeyPos_cut
    (m : Memtable) (key : Key) :
    ∃ pre post,
      (m.getKeyPos key).1.entries = pre ++ post ∧
      (m.getKeyPos key).2 = pre.length ∧
      (∀ a ∈ pre, a.1 < key) ∧ (∀ a ∈ post, key < a.1) := by
  unfold getKeyPos
  split
  · rename_i pos hpos
    obtain ⟨pre, v, post, hl, hlen, hpre, hpost⟩ := position_ok m.sorted hpos
    refine ⟨pre, post, ?_, hlen.symm, hpre, hpost⟩
    subst hlen
    simp [hl, List.eraseIdx_append_of_length_le]
  · rename_i pos hpos
    obtain ⟨pre, post, hl, hlen, hpre, hpost⟩ := position_error m.sorted hpos
    exact ⟨pre, post, hl, hlen.symm, hpre, hpost⟩

/-- Every key but the one searched for keeps its entry. -/
theorem getKeyPos_lookup
    (m : Memtable) (key k : Key)
    (hk : key ≠ k) :
    lookup (m.getKeyPos key).1.entries k = lookup m.entries k := by
  unfold getKeyPos
  split
  · rename_i pos hpos
    obtain ⟨pre, v, post, hl, hlen, hpre, -⟩ := position_ok m.sorted hpos
    subst hlen
    simp only [hl, List.eraseIdx_append_of_length_le (le_refl _), Nat.sub_self,
      List.eraseIdx_cons_zero]
    rw [lookup_cut v hpre k, if_neg hk]
  · rfl

/-- Common part of `put` and `delete`: the new entry takes the next sequence number. -/
def insertEntry (m : Memtable) (key : Key) (entry : MemtableEntry) : Memtable where
  entries := (m.getKeyPos key).1.entries.insertIdx (m.getKeyPos key).2 (key, entry)
  size := (m.getKeyPos key).1.size + entryLen (key, entry)
  nextSeqNumber := m.nextSeqNumber + 1
  sorted := by
    obtain ⟨pre, post, hl, hpos, hpre, hpost⟩ := m.getKeyPos_cut key
    have hsorted := (m.getKeyPos key).1.sorted
    rw [hl] at hsorted
    rw [hl, hpos, insertIdx_cut]
    exact sorted_cut entry hsorted hpre hpost
  size_eq := by
    obtain ⟨pre, post, hl, hpos, -, -⟩ := m.getKeyPos_cut key
    rw [(m.getKeyPos key).1.size_eq, hl, hpos, insertIdx_cut,
      entriesLen_append, entriesLen_append, entriesLen_cons]
    omega

def put (m : Memtable) (key : Key) (value : Value) : Memtable :=
  m.insertEntry key (.value m.nextSeqNumber value)

def delete (m : Memtable) (key : Key) : Memtable :=
  m.insertEntry key (.deletion m.nextSeqNumber)

def isFull (m : Memtable) (params : Params) : Bool :=
  params.maxMemtableSize ≤ m.size

def getEntries (m : Memtable) : Entries :=
  m.entries

/-- One operation of a write batch. -/
def apply (m : Memtable) : WriteOp → Memtable
  | .put key value => m.put key value
  | .delete key => m.delete key

/-- A write batch, in order. -/
def applyAll (m : Memtable) (ops : List WriteOp) : Memtable :=
  ops.foldl apply m

@[simp] theorem applyAll_nil
    (m : Memtable) :
    m.applyAll [] = m :=
  rfl

@[simp] theorem applyAll_cons
    (m : Memtable) (op : WriteOp) (ops : List WriteOp) :
    m.applyAll (op :: ops) = (m.apply op).applyAll ops :=
  rfl

theorem applyAll_append
    (m : Memtable) (xs ys : List WriteOp) :
    m.applyAll (xs ++ ys) = (m.applyAll xs).applyAll ys :=
  List.foldl_append

theorem applyAll_concat
    (m : Memtable) (ops : List WriteOp) (op : WriteOp) :
    m.applyAll (ops ++ [op]) = (m.applyAll ops).apply op :=
  m.applyAll_append ops [op]

end Memtable

/-- The entry an operation leaves behind under its sequence number. -/
def entryOf (seqNumber : Nat) : WriteOp → MemtableEntry
  | .put _ value => .value seqNumber value
  | .delete _ => .deletion seqNumber

@[simp] theorem getSeqNumber_entryOf
    (seqNumber : Nat) (op : WriteOp) :
    (entryOf seqNumber op).getSeqNumber = seqNumber := by
  cases op <;> rfl

namespace Memtable

theorem apply_eq_insertEntry
    (m : Memtable) (op : WriteOp) :
    m.apply op = m.insertEntry op.getKey (entryOf m.nextSeqNumber op) := by
  cases op <;> rfl

@[simp] theorem apply_nextSeqNumber
    (m : Memtable) (op : WriteOp) :
    (m.apply op).nextSeqNumber = m.nextSeqNumber + 1 := by
  rw [apply_eq_insertEntry]
  rfl

@[simp] theorem applyAll_nextSeqNumber
    (m : Memtable) (ops : List WriteOp) :
    (m.applyAll ops).nextSeqNumber = m.nextSeqNumber + ops.length := by
  induction ops generalizing m with
  | nil =>
      rfl
  | cons op ops ih =>
      rw [applyAll_cons, ih, apply_nextSeqNumber, List.length_cons]
      omega

/-- Last write wins, one operation at a time. -/
theorem get_apply
    (m : Memtable) (op : WriteOp) (k : Key) :
    (m.apply op).get k =
      if op.getKey = k then some (entryOf m.nextSeqNumber op) else m.get k := by
  rw [apply_eq_insertEntry]
  obtain ⟨pre, post, hl, hpos, hpre, -⟩ := m.getKeyPos_cut op.getKey
  have hentries :
      (m.insertEntry op.getKey (entryOf m.nextSeqNumber op)).entries =
        pre ++ (op.getKey, entryOf m.nextSeqNumber op) :: post := by
    simp only [insertEntry, hl, hpos, insertIdx_cut]
  unfold get
  rw [hentries, lookup_cut _ hpre k]
  by_cases hk : op.getKey = k
  · rw [if_pos hk, if_pos hk]
  · rw [if_neg hk, if_neg hk, ← hl]
    exact m.getKeyPos_lookup op.getKey k hk

end Memtable
end LsmStore
