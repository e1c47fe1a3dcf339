import LsmStore.Bytes
import LsmStore.Lib.KeyedList
import LsmStore.Manifest

/-!
# The file of a level

The identifiers of the tables of a level are kept in a file that is mapped into
memory: a count of eight bytes, and behind it the identifiers in their order.  An
insertion or removal writes the count and the whole array anew.  The file grows by
a page when the array reaches its end, and never shrinks, so that old identifiers
stay behind the array.

The mapping is the file: growing it leaves the bytes that were written before and
puts zeros behind them.  It begins at a page, so that the identifiers are aligned.
The search in the array is that of the standard library, by its contract.
-/

namespace LsmStore
namespace Mapped

open LittleEndian KeyedList

/-- The mapped file of a level. -/
structure LevelMetadata where
  data : List UInt8
deriving DecidableEq

/-- `size_of::<LevelMetadataHeader>()`. -/
def headerSize : Nat := 8

/-- `size_of::<TableId>()`. -/
def idSize : Nat := 8

/-- `PAGE_SIZE` of the manifest. -/
def pageSize : Nat := 4 * 1024

/-- `as_byte_slice`. -/
def asByteSlice (ids : List UInt64) : List UInt8 :=
  ids.flatMap fun id => encode idSize id.toNat

def words : Nat → List UInt8 → List UInt64
  | 0, _ => []
  | count + 1, bytes =>
      UInt64.ofNat (decode (bytes.take idSize)) :: words count (bytes.drop idSize)

/-- `as_slice_of::<TableId>().unwrap()`. -/
def asSliceOf (bytes : List UInt8) : Outcome (List UInt64) :=
  if bytes.length % idSize ≠ 0 then .panic "called `Result::unwrap()` on an `Err` value"
  else .value (words (bytes.length / idSize) bytes)

/-- `binary_search` on a sorted slice: the place of the element, or where it belongs. -/
def binarySearch (ids : List UInt64) (id : UInt64) : Except Nat Nat :=
  match ids.findIdx? (· == id) with
  | some pos => .ok pos
  | none => .error (ids.findIdx fun other => decide (id < other))

/-- `Vec::insert`. -/
def vecInsert (ids : List UInt64) (pos : Nat) (id : UInt64) : Outcome (List UInt64) :=
  let len := ids.length
  if len < pos then .panic s!"insertion index (is {pos}) should be <= len (is {len})"
  else .value (ids.insertIdx pos id)

/-- `Vec::remove`. -/
def vecRemove (ids : List UInt64) (pos : Nat) : Outcome (List UInt64) :=
  let len := ids.length
  if len ≤ pos then .panic s!"removal index (is {pos}) should be < len (is {len})"
  else .value (ids.eraseIdx pos)

namespace LevelMetadata

/-- The file that `Manifest::new` makes: a page of zeros with a count of zero. -/
def new : LevelMetadata where
  data := encode headerSize 0 ++ List.replicate (pageSize - headerSize) 0

/-- The header, as `ref_from_prefix` finds it. -/
def header (m : LevelMetadata) : Outcome (List UInt8 × List UInt8) :=
  if m.data.length < headerSize then .panic "called `Result::unwrap()` on an `Err` value"
  else .value (m.data.take headerSize, m.data.drop headerSize)

def getTableIds (m : LevelMetadata) : Outcome (List UInt64) := do
  let (header, _) ← m.header
  let start := headerSize
  let stop := start + decode header * idSize
  let bytes ← sliceRange m.data start stop
  asSliceOf bytes

/-- `header.num_tables = count`. -/
def setNumTables (m : LevelMetadata) (count : Nat) : Outcome LevelMetadata := do
  let (_, next) ← m.header
  .value ⟨encode headerSize count ++ next⟩

/-- The file is made longer by a page, and mapped again. -/
def resize (m : LevelMetadata) : LevelMetadata :=
  ⟨m.data ++ List.replicate pageSize 0⟩

/-- `false` if the identifier was there. -/
def insert (m : LevelMetadata) (id : UInt64) : Outcome (LevelMetadata × Bool) := do
  let tables ← m.getTableIds
  match binarySearch tables id with
  | .ok _ => .value (m, false)
  | .error pos => do
      let tables ← vecInsert tables pos id
      let m ← m.setNumTables tables.length
      let start := headerSize
      let newData := asByteSlice tables
      let m := if m.data.length ≤ start + newData.length then m.resize else m
      let data ← copyFromSlice m.data start (start + newData.length) newData
      .value (⟨data⟩, true)

/-- `false` if the identifier was not there. -/
def remove (m : LevelMetadata) (id : UInt64) : Outcome (LevelMetadata × Bool) := do
  let tables ← m.getTableIds
  match binarySearch tables id with
  | .error _ => .value (m, false)
  | .ok pos => do
      let tables ← vecRemove tables pos
      let m ← m.setNumTables tables.length
      let (header, next) ← m.header
      let newData := asByteSlice tables
      let next ← copyFromSlice next 0 newData.length newData
      .value (⟨header ++ next⟩, true)

/-- What `Manifest::open` does with the file of a level: it reads the count, for a message, and
maps the file. -/
def openFile (file : List UInt8) : Outcome LevelMetadata := do
  let m : LevelMetadata := ⟨file⟩
  let _ ← m.header
  .value m

end LevelMetadata

/-! ## Identifiers as bytes -/

theorem length_asByteSlice
    (ids : List UInt64) :
    (asByteSlice ids).length = ids.length * idSize := by
  induction ids with
  | nil =>
      rfl
  | cons id ids ih =>
      rw [asByteSlice, List.flatMap_cons, List.length_append, encode_length, List.length_cons,
        Nat.succ_mul, Nat.add_comm, ← ih]
      rfl

theorem words_asByteSlice
    (ids : List UInt64) :
    words ids.length (asByteSlice ids) = ids := by
  induction ids with
  | nil =>
      rfl
  | cons id ids ih =>
      obtain ⟨htake, hdrop⟩ := take_drop_encode idSize id.toNat (asByteSlice ids)
      have hdecode : decode (encode idSize id.toNat) = id.toNat :=
        decode_encode idSize _ (lt_of_lt_of_eq id.toNat_lt (by norm_num [idSize]))
      have hcons : asByteSlice (id :: ids) = encode idSize id.toNat ++ asByteSlice ids :=
        List.flatMap_cons
      rw [List.length_cons, words, hcons, htake, hdrop, hdecode, ih, UInt64.ofNat_toNat]

theorem asSliceOf_asByteSlice
    (ids : List UInt64) :
    asSliceOf (asByteSlice ids) = .value ids := by
  have hmod : (asByteSlice ids).length % idSize = 0 := by
    rw [length_asByteSlice]
    exact Nat.mul_mod_left _ _
  have hdiv : (asByteSlice ids).length / idSize = ids.length := by
    rw [length_asByteSlice]
    exact Nat.mul_div_cancel _ (by decide)
  rw [asSliceOf, if_neg (not_not.mpr hmod), hdiv, words_asByteSlice]

/-! ## The search -/

section Search

variable {ids : List UInt64} {id : UInt64}

theorem binarySearch_of_mem
    (h : id ∈ ids) :
    binarySearch ids id = .ok (ids.idxOf id) := by
  have hfind : ids.findIdx? (· == id) = some (ids.idxOf id) :=
    List.findIdx?_eq_some_of_exists ⟨id, h, beq_self_eq_true id⟩
  rw [binarySearch, hfind]

theorem binarySearch_of_not_mem
    (h : id ∉ ids) :
    binarySearch ids id = .error (ids.findIdx fun other => decide (id < other)) := by
  have hfind : ids.findIdx? (· == id) = none := by
    rw [List.findIdx?_eq_none_iff]
    intro other hmem
    exact beq_eq_false_iff_ne.mpr fun heq => h (heq ▸ hmem)
  rw [binarySearch, hfind]

/-- The place of a new identifier keeps the order. -/
theorem pairwise_insert
    (hsorted : ids.Pairwise (· < ·))
    (hid : id ∉ ids) :
    (ids.insertIdx (ids.findIdx fun other => decide (id < other)) id).Pairwise (· < ·) := by
  have hne : ∀ other ∈ ids, other.toNat ≠ id.toNat := by
    intro other hother heq
    exact hid (UInt64.toNat_inj.mp heq ▸ hother)
  exact pairwise_insertIdx_findIdx hsorted hne

end Search

/-! ## What the file stores -/

/-- The count and the identifiers, and anything behind them. -/
structure Stores (m : LevelMetadata) (ids : List UInt64) : Prop where
  layout : ∃ rest, m.data = encode headerSize ids.length ++ (asByteSlice ids ++ rest)
  count_lt : ids.length < 2 ^ 64
  sorted : ids.Pairwise (· < ·)

namespace Stores

variable {m : LevelMetadata} {ids : List UInt64} {id : UInt64}

theorem new :
    Stores LevelMetadata.new [] where
  layout := ⟨_, rfl⟩
  count_lt := by decide
  sorted := List.Pairwise.nil

theorem nodup
    (h : Stores m ids) :
    ids.Nodup := by
  refine h.sorted.imp ?_
  rintro a b hlt rfl
  exact UInt64.lt_irrefl a hlt

theorem length_le
    (h : Stores m ids) :
    headerSize + ids.length * idSize ≤ m.data.length := by
  obtain ⟨rest, hdata⟩ := h.layout
  rw [hdata, List.length_append, List.length_append, encode_length, length_asByteSlice]
  omega

theorem header_eq
    (h : Stores m ids) :
    m.header = .value (encode headerSize ids.length, m.data.drop headerSize) := by
  have hlength := h.length_le
  obtain ⟨rest, hdata⟩ := h.layout
  have htake := (take_drop_encode headerSize ids.length (asByteSlice ids ++ rest)).1
  rw [← hdata] at htake
  rw [LevelMetadata.header, if_neg (by omega), htake]

theorem getTableIds_eq
    (h : Stores m ids) :
    m.getTableIds = .value ids := by
  obtain ⟨rest, hdata⟩ := h.layout
  have hcount : decode (encode headerSize ids.length) = ids.length :=
    decode_encode headerSize _ (lt_of_lt_of_eq h.count_lt (by norm_num [headerSize]))
  have hslice : sliceRange m.data headerSize (headerSize + ids.length * idSize) =
      .value (asByteSlice ids) := by
    rw [hdata]
    exact sliceRange_append (encode_length _ _) (by rw [length_asByteSlice])
  rw [LevelMetadata.getTableIds, h.header_eq, Outcome.value_bind]
  dsimp only
  rw [hcount, hslice, Outcome.value_bind, asSliceOf_asByteSlice]

theorem setNumTables_eq
    (h : Stores m ids)
    (count : Nat) :
    m.setNumTables count = .value ⟨encode headerSize count ++ m.data.drop headerSize⟩ := by
  rw [LevelMetadata.setNumTables, h.header_eq, Outcome.value_bind]

theorem insert_of_mem
    (h : Stores m ids)
    (hid : id ∈ ids) :
    m.insert id = .value (m, false) := by
  rw [LevelMetadata.insert, h.getTableIds_eq, Outcome.value_bind, binarySearch_of_mem hid]

theorem remove_of_not_mem
    (h : Stores m ids)
    (hid : id ∉ ids) :
    m.remove id = .value (m, false) := by
  rw [LevelMetadata.remove, h.getTableIds_eq, Outcome.value_bind, binarySearch_of_not_mem hid]

/-- The array is written behind the count, in a file that is long enough. -/
theorem copyFromSlice_eq
    (new : List UInt64) (front : List UInt8) {next : List UInt8}
    (hroom : (asByteSlice new).length ≤ next.length) :
    copyFromSlice (front ++ next) front.length (front.length + (asByteSlice new).length)
        (asByteSlice new) =
      .value (front ++ (asByteSlice new ++ next.drop (asByteSlice new).length)) := by
  have hlength : (next.take (asByteSlice new).length).length = (asByteSlice new).length :=
    List.length_take_of_le hroom
  rw [← List.take_append_drop (asByteSlice new).length next, List.drop_left' hlength]
  exact copyFromSlice_append rfl (congrArg (front.length + ·) hlength) hlength.symm

/-- One more identifier has room behind the count, if need be in a file that has grown. -/
theorem room
    (h : Stores m ids)
    {new : List UInt64}
    (hlen : new.length = ids.length + 1) :
    ∃ next, (asByteSlice new).length ≤ next.length ∧
      (if (encode headerSize new.length ++ m.data.drop headerSize).length ≤
          headerSize + (asByteSlice new).length then
        LevelMetadata.resize ⟨encode headerSize new.length ++ m.data.drop headerSize⟩
      else ⟨encode headerSize new.length ++ m.data.drop headerSize⟩ : LevelMetadata) =
        ⟨encode headerSize new.length ++ next⟩ := by
  have hold := h.length_le
  have hbytes := length_asByteSlice new
  have hlength : (encode headerSize new.length ++ m.data.drop headerSize).length =
      m.data.length := by
    rw [List.length_append, encode_length, List.length_drop]
    omega
  rw [hlength]
  split_ifs with hfull
  · -- the old array has fitted, and a page is longer than an identifier
    refine ⟨m.data.drop headerSize ++ List.replicate pageSize 0, ?_,
      congrArg LevelMetadata.mk (List.append_assoc _ _ _)⟩
    rw [List.length_append, List.length_replicate, List.length_drop, hbytes]
    simp only [headerSize, idSize, pageSize] at hold ⊢
    omega
  · refine ⟨m.data.drop headerSize, ?_, rfl⟩
    rw [List.length_drop]
    omega

theorem insert_of_not_mem
    (h : Stores m ids)
    (hid : id ∉ ids)
    (hcount : ids.length + 1 < 2 ^ 64) :
    ∃ m', m.insert id = .value (m', true) ∧
      Stores m' (ids.insertIdx (ids.findIdx fun other => decide (id < other)) id) := by
  have hpos : (ids.findIdx fun other => decide (id < other)) ≤ ids.length :=
    List.findIdx_le_length
  have hsorted := pairwise_insert h.sorted hid
  have hlen := List.length_insertIdx_of_le_length hpos id
  have hvec : vecInsert ids (ids.findIdx fun other => decide (id < other)) id =
      .value (ids.insertIdx (ids.findIdx fun other => decide (id < other)) id) :=
    if_neg (not_lt.mpr hpos)
  generalize ids.insertIdx (ids.findIdx fun other => decide (id < other)) id = new
    at hsorted hlen hvec
  obtain ⟨next, hroom, hnext⟩ := h.room hlen
  have hcopy := copyFromSlice_eq new (encode headerSize new.length) hroom
  rw [encode_length] at hcopy
  rw [LevelMetadata.insert, h.getTableIds_eq, Outcome.value_bind, binarySearch_of_not_mem hid]
  dsimp only
  rw [hvec, Outcome.value_bind, h.setNumTables_eq, Outcome.value_bind, hnext, hcopy,
    Outcome.value_bind]
  exact ⟨_, rfl, ⟨_, rfl⟩, by omega, hsorted⟩

theorem remove_of_mem
    (h : Stores m ids)
    (hid : id ∈ ids) :
    ∃ m', m.remove id = .value (m', true) ∧ Stores m' (ids.erase id) := by
  have hpos : ids.idxOf id < ids.length := List.idxOf_lt_length_of_mem hid
  have hvec : vecRemove ids (ids.idxOf id) = .value (ids.erase id) := by
    rw [List.erase_eq_eraseIdx_of_idxOf rfl]
    exact if_neg (not_le.mpr hpos)
  have hlen : (ids.erase id).length = ids.length - 1 := List.length_erase_of_mem hid
  have hsorted : (ids.erase id).Pairwise (· < ·) := h.sorted.sublist List.erase_sublist
  have hcount := h.count_lt
  have hold := h.length_le
  generalize ids.erase id = new at hvec hlen hsorted
  have hbytes := length_asByteSlice new
  have hroom : (asByteSlice new).length ≤ (m.data.drop headerSize).length := by
    rw [hbytes, List.length_drop]
    simp only [idSize] at hold ⊢
    omega
  have hcopy := copyFromSlice_eq new [] hroom
  rw [List.nil_append, List.nil_append, List.length_nil, Nat.zero_add] at hcopy
  have hheader : LevelMetadata.header ⟨encode headerSize new.length ++ m.data.drop headerSize⟩ =
      .value (encode headerSize new.length, m.data.drop headerSize) := by
    obtain ⟨htake, hdrop⟩ :=
      take_drop_encode headerSize new.length (m.data.drop headerSize)
    rw [LevelMetadata.header, if_neg (by simp), htake, hdrop]
  rw [LevelMetadata.remove, h.getTableIds_eq, Outcome.value_bind, binarySearch_of_mem hid]
  dsimp only
  rw [hvec, Outcome.value_bind, h.setNumTables_eq, Outcome.value_bind, hheader,
    Outcome.value_bind, hcopy, Outcome.value_bind]
  exact ⟨_, rfl, ⟨_, rfl⟩, by omega, hsorted⟩

theorem openFile_eq
    (h : Stores m ids) :
    LevelMetadata.openFile m.data = .value m := by
  rw [LevelMetadata.openFile, h.header_eq, Outcome.value_bind]

end Stores

/-! ## The list model of the manifest -/

section Refinement

variable {m : LevelMetadata} {ids : List UInt64}

theorem toNat_injective :
    Function.Injective UInt64.toNat :=
  fun _ _ => UInt64.toNat_inj.mp

theorem mem_map_toNat
    (ids : List UInt64) (id : UInt64) :
    id.toNat ∈ ids.map UInt64.toNat ↔ id ∈ ids :=
  List.mem_map_of_injective toNat_injective

/-- The file does what the list of identifiers of the manifest model does. -/
theorem insert_refines
    (h : Stores m ids)
    (hcount : ids.length + 1 < 2 ^ 64) (id : UInt64) :
    (m.insert id = .value (m, false) ∧
        LsmStore.LevelMetadata.insert (ids.map UInt64.toNat) id.toNat = none) ∨
      ∃ m' ids', m.insert id = .value (m', true) ∧ Stores m' ids' ∧
        LsmStore.LevelMetadata.insert (ids.map UInt64.toNat) id.toNat =
          some (ids'.map UInt64.toNat) := by
  by_cases hid : id ∈ ids
  · exact Or.inl ⟨h.insert_of_mem hid, if_pos ((mem_map_toNat ids id).mpr hid)⟩
  · obtain ⟨m', hinsert, hstores⟩ := h.insert_of_not_mem hid hcount
    refine Or.inr ⟨m', _, hinsert, hstores, ?_⟩
    have hnot : id.toNat ∉ ids.map UInt64.toNat := fun hmem =>
      hid ((mem_map_toNat ids id).mp hmem)
    rw [LsmStore.LevelMetadata.insert, if_neg hnot]
    -- both lists are in order and have the same elements
    have hold : (ids.map UInt64.toNat).Pairwise (· ≤ ·) :=
      List.pairwise_map.mpr (h.sorted.imp fun hlt => le_of_lt (UInt64.lt_iff_toNat_lt.mp hlt))
    have hleft := List.Pairwise.orderedInsert id.toNat _ hold
    have hright : (List.map UInt64.toNat _).Pairwise (· ≤ ·) :=
      List.pairwise_map.mpr (hstores.sorted.imp fun hlt => le_of_lt (UInt64.lt_iff_toNat_lt.mp hlt))
    refine congrArg some (List.Perm.eq_of_pairwise (fun a b _ _ => le_antisymm) hleft hright ?_)
    exact (List.perm_orderedInsert _ _ _).trans
      ((List.perm_insertIdx id ids List.findIdx_le_length).map UInt64.toNat).symm

theorem remove_refines
    (h : Stores m ids) (id : UInt64) :
    (m.remove id = .value (m, false) ∧
        LsmStore.LevelMetadata.remove (ids.map UInt64.toNat) id.toNat = none) ∨
      ∃ m' ids', m.remove id = .value (m', true) ∧ Stores m' ids' ∧
        LsmStore.LevelMetadata.remove (ids.map UInt64.toNat) id.toNat =
          some (ids'.map UInt64.toNat) := by
  by_cases hid : id ∈ ids
  · obtain ⟨m', hremove, hstores⟩ := h.remove_of_mem hid
    refine Or.inr ⟨m', _, hremove, hstores, ?_⟩
    rw [LsmStore.LevelMetadata.remove, if_pos ((mem_map_toNat ids id).mpr hid)]
    exact congrArg some (List.map_erase toNat_injective ids).symm
  · exact Or.inl ⟨h.remove_of_not_mem hid,
      if_neg fun hmem => hid ((mem_map_toNat ids id).mp hmem)⟩

end Refinement

/-! ## Any number of calls -/

/-- A call on the file of a level. -/
inductive LevelCall where
  | insert (id : UInt64)
  | remove (id : UInt64)
deriving DecidableEq

def LevelMetadata.call (m : LevelMetadata) : LevelCall → Outcome (LevelMetadata × Bool)
  | .insert id => m.insert id
  | .remove id => m.remove id

/-- One call after the other. -/
def LevelMetadata.run (m : LevelMetadata) : List LevelCall → Outcome LevelMetadata
  | [] => .value m
  | c :: calls => do
      let (m, _) ← m.call c
      m.run calls

/-- The identifier was inserted and not removed since. -/
def Present (calls : List LevelCall) (id : UInt64) : Prop :=
  ∃ before after, calls = before ++ .insert id :: after ∧ .remove id ∉ after

section Calls

variable {calls : List LevelCall}

theorem run_concat
    (m : LevelMetadata) (calls : List LevelCall) (c : LevelCall) :
    m.run (calls ++ [c]) = (m.run calls >>= fun m => m.call c >>= fun r => .value r.1) := by
  induction calls generalizing m with
  | nil =>
      rfl
  | cons d calls ih =>
      rw [List.cons_append, LevelMetadata.run, LevelMetadata.run, Outcome.bind_assoc]
      exact congrArg (_ >>= ·) (funext fun r => ih r.1)

theorem not_present_nil
    (id : UInt64) :
    ¬ Present [] id := by
  rintro ⟨before, after, heq, -⟩
  exact List.append_ne_nil_of_right_ne_nil before (List.cons_ne_nil _ _) heq.symm

/-- The last call decides, unless it is about something else. -/
theorem present_concat_iff
    (c : LevelCall) (id : UInt64) :
    Present (calls ++ [c]) id ↔ c = .insert id ∨ (Present calls id ∧ c ≠ .remove id) := by
  constructor
  · rintro ⟨before, after, heq, hnot⟩
    induction after using List.reverseRecOn with
    | nil =>
        exact Or.inl (List.cons.inj (List.append_inj' heq rfl).2).1
    | append_singleton after d _ =>
        rw [← List.cons_append, ← List.append_assoc] at heq
        obtain ⟨hcalls, hlast⟩ := List.append_inj' heq rfl
        obtain rfl := (List.cons.inj hlast).1
        refine Or.inr ⟨⟨before, after, hcalls, fun hmem => hnot ?_⟩, ?_⟩
        · exact List.mem_append_left _ hmem
        · rintro rfl
          exact hnot (List.mem_append_right _ (List.mem_singleton_self _))
  · rintro (rfl | ⟨⟨before, after, rfl, hnot⟩, hne⟩)
    · exact ⟨calls, [], rfl, List.not_mem_nil⟩
    · refine ⟨before, after ++ [c], by simp, fun hmem => ?_⟩
      rcases List.mem_append.mp hmem with hmem | hmem
      · exact hnot hmem
      · exact hne (List.mem_singleton.mp hmem).symm

theorem Stores.call
    {m : LevelMetadata} {ids : List UInt64}
    (h : Stores m ids)
    (c : LevelCall)
    (hcount : ids.length + 1 < 2 ^ 64) :
    ∃ m' ids' r, m.call c = .value (m', r) ∧ Stores m' ids' ∧ ids'.length ≤ ids.length + 1 ∧
      ∀ id, id ∈ ids' ↔ c = .insert id ∨ (id ∈ ids ∧ c ≠ .remove id) := by
  cases c with
  | insert new =>
      by_cases hnew : new ∈ ids
      · refine ⟨m, ids, false, h.insert_of_mem hnew, h, Nat.le_succ _, fun id => ?_⟩
        simp only [LevelCall.insert.injEq, ne_eq, reduceCtorEq, not_false_eq_true, and_true]
        exact ⟨Or.inr, fun hor => hor.elim (fun heq => heq ▸ hnew) fun hid => hid⟩
      · obtain ⟨m', hinsert, hstores⟩ := h.insert_of_not_mem hnew hcount
        have hpos : (ids.findIdx fun other => decide (new < other)) ≤ ids.length :=
          List.findIdx_le_length
        refine ⟨m', _, true, hinsert, hstores,
          (List.length_insertIdx_of_le_length hpos new).le, fun id => ?_⟩
        simp only [List.mem_insertIdx hpos, LevelCall.insert.injEq, ne_eq, reduceCtorEq,
          not_false_eq_true, and_true, eq_comm]
  | remove old =>
      by_cases hold : old ∈ ids
      · obtain ⟨m', hremove, hstores⟩ := h.remove_of_mem hold
        refine ⟨m', _, true, hremove, hstores,
          List.length_erase_le.trans (Nat.le_succ _), fun id => ?_⟩
        simp only [h.nodup.mem_erase_iff, LevelCall.remove.injEq, ne_eq, reduceCtorEq, false_or,
          eq_comm, and_comm]
      · refine ⟨m, ids, false, h.remove_of_not_mem hold, h, Nat.le_succ _, fun id => ?_⟩
        simp only [LevelCall.remove.injEq, ne_eq, reduceCtorEq, false_or]
        exact ⟨fun hid => ⟨hid, fun heq => hold (heq ▸ hid)⟩, And.left⟩

theorem run_stores
    (hcalls : calls.length < 2 ^ 64) :
    ∃ m ids, LevelMetadata.new.run calls = .value m ∧ Stores m ids ∧
      ids.length ≤ calls.length ∧ ∀ id, id ∈ ids ↔ Present calls id := by
  induction calls using List.reverseRecOn with
  | nil =>
      exact ⟨_, [], rfl, Stores.new, le_refl _,
        fun id => iff_of_false List.not_mem_nil (not_present_nil id)⟩
  | append_singleton calls c ih =>
      rw [List.length_append, List.length_singleton] at hcalls
      obtain ⟨m, ids, hrun, hstores, hlen, hmem⟩ := ih (by omega)
      obtain ⟨m', ids', r, hcall, hstores', hlen', hmem'⟩ :=
        hstores.call c (by omega : ids.length + 1 < 2 ^ 64)
      refine ⟨m', ids', ?_, hstores', ?_, fun id => ?_⟩
      · rw [run_concat, hrun, Outcome.value_bind, hcall, Outcome.value_bind]
      · rw [List.length_append, List.length_singleton]
        omega
      · rw [hmem', hmem, present_concat_iff]

end Calls

/-- After any sequence of insertions and removals, the file of a level has the identifiers that
were inserted and not removed since, in increasing order, also for somebody who opens it; no
access is out of bounds.  An insertion returns `false` exactly if the identifier is there, a
removal exactly if it is not, and neither changes the file then.  The counter of the identifiers
has 64 bits, so that the statement is about fewer than 2^64 calls. -/
theorem level_metadata_sorted_set
    (calls : List LevelCall)
    (hcalls : calls.length + 1 < 2 ^ 64) :
    ∃ m ids, LevelMetadata.new.run calls = .value m ∧ m.getTableIds = .value ids ∧
      ids.Pairwise (· < ·) ∧ (∀ id, id ∈ ids ↔ Present calls id) ∧
      (LevelMetadata.openFile m.data >>= LevelMetadata.getTableIds) = .value ids ∧
      ∀ id,
        (∃ m', m.insert id = .value (m', decide (id ∉ ids)) ∧ (id ∈ ids → m' = m)) ∧
        ∃ m', m.remove id = .value (m', decide (id ∈ ids)) ∧ (id ∉ ids → m' = m) := by
  obtain ⟨m, ids, hrun, hstores, hlen, hmem⟩ := run_stores (Nat.lt_of_succ_lt hcalls)
  refine ⟨m, ids, hrun, hstores.getTableIds_eq, hstores.sorted, hmem, ?_, fun id => ?_⟩
  · rw [hstores.openFile_eq, Outcome.value_bind, hstores.getTableIds_eq]
  · by_cases hid : id ∈ ids
    · obtain ⟨m', hremove, -⟩ := hstores.remove_of_mem hid
      refine ⟨⟨m, ?_, fun _ => rfl⟩, m', ?_, fun hnot => absurd hid hnot⟩
      · rw [hstores.insert_of_mem hid, decide_eq_false (not_not.mpr hid)]
      · rw [hremove, decide_eq_true hid]
    · obtain ⟨m', hinsert, -⟩ := hstores.insert_of_not_mem hid (by omega)
      refine ⟨⟨m', ?_, fun hin => absurd hin hid⟩, m, ?_, fun _ => rfl⟩
      · rw [hinsert, decide_eq_true hid]
      · rw [hstores.remove_of_not_mem hid, decide_eq_false hid]

/-- Insertions in another order, a removal, and an insertion that is repeated. -/
theorem level_metadata_sorted_set_small :
    ∃ m ids, LevelMetadata.new.run [.insert 7, .insert 3, .remove 7, .insert 9, .insert 3] =
        .value m ∧ m.getTableIds = .value ids ∧ ids.Pairwise (· < ·) ∧
      ∀ id, id ∈ ids ↔
        Present [.insert 7, .insert 3, .remove 7, .insert 9, .insert 3] id := by
  obtain ⟨m, ids, hrun, hids, hsorted, hmem, -⟩ := level_metadata_sorted_set
    [.insert 7, .insert 3, .remove 7, .insert 9, .insert 3] (by norm_num)
  exact ⟨m, ids, hrun, hids, hsorted, hmem⟩

end Mapped
end LsmStore
