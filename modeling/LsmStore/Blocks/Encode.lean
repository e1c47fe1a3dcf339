import LsmStore.Blocks.DataBlock

/-!
# What a data block looks like

`encodeBlock` is the block of a list of entries, written down as a whole: the
chunks of the entries one behind the other, and the list of the places at which
whole keys begin.  The builder, which is given one entry at a time, arrives at
the same block.
-/

namespace LsmStore
namespace Blocks

open LittleEndian Chunks

/-- The length of the part that two keys have in common at their beginning. -/
def sharedLen : List UInt8 → List UInt8 → Nat
  | a :: as, b :: bs => if a = b then sharedLen as bs + 1 else 0
  | _, _ => 0

theorem sharedLen_le
    (as bs : List UInt8) :
    sharedLen as bs ≤ as.length ∧ sharedLen as bs ≤ bs.length := by
  induction as generalizing bs with
  | nil =>
      exact ⟨Nat.zero_le _, Nat.zero_le _⟩
  | cons a as ih =>
      cases bs with
      | nil =>
          exact ⟨Nat.zero_le _, Nat.zero_le _⟩
      | cons b bs =>
          obtain ⟨hleft, hright⟩ := ih bs
          rw [sharedLen]
          split_ifs
          · exact ⟨Nat.succ_le_succ hleft, Nat.succ_le_succ hright⟩
          · exact ⟨Nat.zero_le _, Nat.zero_le _⟩

theorem take_sharedLen
    (as bs : List UInt8) :
    bs.take (sharedLen as bs) = as.take (sharedLen as bs) := by
  induction as generalizing bs with
  | nil =>
      rfl
  | cons a as ih =>
      cases bs with
      | nil =>
          rfl
      | cons b bs =>
          rw [sharedLen]
          split_ifs with hab
          · rw [List.take_succ_cons, List.take_succ_cons, ih bs, hab]
          · rfl

section Encode

variable (F : Format)

/-- The value that is stored with an entry. -/
def stored : BlockEntry F.values.V → F.values.V
  | .put _ value => value
  | .delete _ => F.values.deletion

/-- The key in front of an entry. -/
def previousKey (es : F.Entries) : Nat → Key
  | 0 => ByteVec.ofList []
  | i + 1 => (es[i]?.map Prod.fst).getD (ByteVec.ofList [])

/-- How much of its key an entry leaves out. -/
def prefixLenAt (es : F.Entries) (i : Nat) (key : Key) : Nat :=
  if i % F.blockRestartInterval = 0 then 0
  else sharedLen key.data (previousKey F es i).data

def entryHeader (prefixLen : Nat) (key : Key) (e : BlockEntry F.values.V) : EntryHeader where
  prefixLen := prefixLen
  suffixLen := (key.data.drop prefixLen).length
  entryType := e.entryType
  seqNumber := e.seqNumber
  value := F.values.header (stored F e)

/-- An entry as it is stored. -/
def entryBytes (prefixLen : Nat) (key : Key) (e : BlockEntry F.values.V) : List UInt8 :=
  (entryHeader F prefixLen key e).asBytes ++
    (key.data.drop prefixLen ++ F.values.body (stored F e))

def chunks (es : F.Entries) : List (List UInt8) :=
  es.mapIdx fun i e => entryBytes F (prefixLenAt F es i e.1) e.1 e.2

/-- The number of entries with a whole key. -/
def numRestarts (count : Nat) : Nat :=
  (count + F.blockRestartInterval - 1) / F.blockRestartInterval

/-- The places of the entries with a whole key. -/
def restarts (es : F.Entries) : List Nat :=
  (List.range (numRestarts F es.length)).map fun k =>
    headerLength F + offset (chunks F es) (k * F.blockRestartInterval)

def filterOf (es : F.Entries) : F.bloom.Filter :=
  es.foldl (fun filter e => F.bloom.set filter e.1.data) F.bloom.new

/-- The block of a list of entries. -/
def encodeBlock (es : F.Entries) : DataBlock F where
  restartListStart := u32 (headerLength F + (chunks F es).flatten.length)
  numEntries := es.length
  restartInterval := F.blockRestartInterval
  data := dataBlockHeader F (headerLength F + (chunks F es).flatten.length) es.length
      (filterOf F es) ++
    ((chunks F es).flatten ++ (restarts F es).flatMap fun place => encode 4 (u32 place))
  bloomFilter := filterOf F es

/-- The builder that has been given some entries. -/
def builderOf (es : F.Entries) : DataBlockBuilder F where
  data := List.replicate (headerLength F) 0 ++ (chunks F es).flatten
  position := es.length
  restartList := (restarts F es).map u32
  bloomFilter := filterOf F es

variable {F} {es : F.Entries}

theorem length_chunks
    (es : F.Entries) :
    (chunks F es).length = es.length :=
  List.length_mapIdx

theorem getElem?_chunks
    {i : Nat} {key : Key} {e : BlockEntry F.values.V}
    (h : es[i]? = some (key, e)) :
    (chunks F es)[i]? = some (entryBytes F (prefixLenAt F es i key) key e) := by
  rw [chunks, List.getElem?_mapIdx, h]
  rfl

/-! ## One more entry -/

/-- More entries do not change what is in front of the first ones. -/
theorem prefixLenAt_append
    {i : Nat}
    (h : i ≤ es.length)
    (more : F.Entries) (key : Key) :
    prefixLenAt F (es ++ more) i key = prefixLenAt F es i key := by
  cases i with
  | zero =>
      rfl
  | succ i =>
      rw [prefixLenAt, prefixLenAt, previousKey, previousKey, List.getElem?_append_left h]

theorem chunks_concat
    (es : F.Entries) (key : Key) (e : BlockEntry F.values.V) :
    chunks F (es ++ [(key, e)]) =
      chunks F es ++ [entryBytes F (prefixLenAt F es es.length key) key e] := by
  have hsame : ∀ (i : Nat) (hi : i < es.length),
      entryBytes F (prefixLenAt F (es ++ [(key, e)]) i es[i].1) es[i].1 es[i].2 =
        entryBytes F (prefixLenAt F es i es[i].1) es[i].1 es[i].2 := by
    intro i hi
    rw [prefixLenAt_append (Nat.le_of_lt hi)]
  rw [chunks, List.mapIdx_concat, chunks, prefixLenAt_append (le_refl _)]
  congr 1
  exact List.mapIdx_eq_mapIdx_iff.mpr hsame

theorem numRestarts_succ
    (F : Format) (count : Nat) :
    numRestarts F (count + 1) =
      if count % F.blockRestartInterval = 0 then numRestarts F count + 1
      else numRestarts F count :=
  groups_succ F.interval_pos count

/-- A restart is in front of the next entry. -/
theorem restarts_concat
    (es : F.Entries) (key : Key) (e : BlockEntry F.values.V) :
    restarts F (es ++ [(key, e)]) =
      if es.length % F.blockRestartInterval = 0 then
        restarts F es ++ [headerLength F + (chunks F es).flatten.length]
      else restarts F es := by
  have hsame : ∀ k ∈ List.range (numRestarts F es.length),
      headerLength F + offset (chunks F (es ++ [(key, e)])) (k * F.blockRestartInterval) =
        headerLength F + offset (chunks F es) (k * F.blockRestartInterval) := by
    intro k hk
    have hlt := (lt_groups_iff F.interval_pos).mp (List.mem_range.mp hk)
    rw [chunks_concat, offset_append (by rw [length_chunks]; omega)]
  rw [restarts, List.length_append, List.length_singleton, numRestarts_succ]
  split_ifs with hrestart
  · -- all intervals are full, and the new entry begins the next one
    have hnext : numRestarts F es.length * F.blockRestartInterval = es.length := by
      rw [numRestarts, groups_eq F.interval_pos, if_pos hrestart, Nat.add_zero]
      exact Nat.div_mul_cancel (Nat.dvd_of_mod_eq_zero hrestart)
    have hoffset : offset (chunks F (es ++ [(key, e)])) es.length =
        (chunks F es).flatten.length := by
      rw [chunks_concat, offset_append (by rw [length_chunks]), ← length_chunks es,
        offset_length]
    rw [List.range_succ, List.map_append, List.map_singleton, hnext, hoffset, restarts,
      List.map_congr_left hsame]
  · rw [restarts, List.map_congr_left hsame]

theorem addEntry_builderOf
    (es : F.Entries) (key : Key) (e : BlockEntry F.values.V) :
    (builderOf F es).addEntry (prefixLenAt F es es.length key)
        (key.data.drop (prefixLenAt F es es.length key)) key e.seqNumber e.entryType
        (stored F e) =
      .value (builderOf F (es ++ [(key, e)])) := by
  have hassert : ¬ (es.length % F.blockRestartInterval = 0 ∧
      u32 (prefixLenAt F es es.length key) ≠ 0) := by
    rintro ⟨hrestart, hne⟩
    rw [prefixLenAt, if_pos hrestart] at hne
    exact hne rfl
  have hlength : (List.replicate (headerLength F) (0 : UInt8) ++ (chunks F es).flatten).length =
      headerLength F + (chunks F es).flatten.length := by
    rw [List.length_append, List.length_replicate]
  have hrestarts : (restarts F (es ++ [(key, e)])).map u32 =
      if es.length % F.blockRestartInterval = 0 then
        (restarts F es).map u32 ++ [u32 (headerLength F + (chunks F es).flatten.length)]
      else (restarts F es).map u32 := by
    rw [restarts_concat]
    split_ifs
    · rw [List.map_append, List.map_singleton]
    · rfl
  have hfilter : filterOf F (es ++ [(key, e)]) = F.bloom.set (filterOf F es) key.data :=
    List.foldl_concat _ _ _ _
  unfold DataBlockBuilder.addEntry builderOf
  dsimp only
  rw [if_neg hassert, hrestarts, hfilter, hlength, chunks_concat, List.flatten_append,
    List.flatten_singleton, List.append_assoc, List.length_append, List.length_singleton]
  rfl

theorem finish_builderOf
    (h : es ≠ []) :
    (builderOf F es).finish = some (encodeBlock F es) := by
  have hpos : ¬ (builderOf F es).position = 0 := fun hzero => h (List.length_eq_zero_iff.mp hzero)
  have hlength : (builderOf F es).data.length =
      headerLength F + (chunks F es).flatten.length := by
    rw [builderOf, List.length_append, List.length_replicate]
  have hdrop : (builderOf F es).data.drop (headerLength F) = (chunks F es).flatten :=
    List.drop_left' List.length_replicate
  have hrestarts : (builderOf F es).restartList.flatMap (encode 4) =
      (restarts F es).flatMap fun place => encode 4 (u32 place) :=
    List.flatMap_map _ _ _
  rw [DataBlockBuilder.finish, if_neg hpos, hlength, hdrop, hrestarts]
  rfl

end Encode

end Blocks
end LsmStore
