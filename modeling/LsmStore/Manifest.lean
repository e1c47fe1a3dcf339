import Mathlib.Data.List.Sort
import LsmStore.Memtable

/-!
# The manifest

What the store keeps on disk about itself: the next table identifier, the
sequence number at which a recovery starts, the offset of the log, and for each
level the sorted list of the identifiers of its tables.

`updateTableSet` inserts and removes identifiers one after the other.  It
panics as soon as one insertion finds its identifier, or one removal does not;
what was changed before that stays.
-/

namespace LsmStore

/-- The identifier of the first table. -/
def firstTableId : Nat := 1

structure Manifest where
  nextTableId : Nat
  numLevels : Nat
  seqNumberOffset : Nat
  logOffset : Nat
  levels : Nat → List Nat

/-- Why a call of the manifest panicked. -/
inductive ManifestPanic where
  | noSuchLevel
  | alreadyExisted (id level : Nat)
  | notExisted (id level : Nat)
  | seqNumberDecreased (old offset : Nat)
  | logOffsetDecreased
deriving DecidableEq

def ManifestPanic.message : ManifestPanic → String
  | noSuchLevel => "No such level"
  | alreadyExisted id level => s!"Table with id={id} already existed on level #{level}"
  | notExisted id level => s!"No table with id={id} existed on level #{level}"
  | seqNumberDecreased old offset =>
      s!"Sequence number must montonically increase. " ++
        s!"Old value ({old}) was >= than new value {offset}"
  | logOffsetDecreased => "assertion failed: meta.log_offset < offset"

/-- The list of a level: a sorted list of identifiers. -/
def LevelMetadata.insert (ids : List Nat) (id : Nat) : Option (List Nat) :=
  if id ∈ ids then none else some (ids.orderedInsert (· ≤ ·) id)

def LevelMetadata.remove (ids : List Nat) (id : Nat) : Option (List Nat) :=
  if id ∈ ids then some (ids.erase id) else none

namespace Manifest

/-- The manifest of an empty database. -/
def new (params : Params) : Manifest where
  nextTableId := firstTableId
  numLevels := params.numLevels
  seqNumberOffset := 1
  logOffset := 0
  levels := fun _ => []

def generateNextTableId (m : Manifest) : Manifest × Nat :=
  ({ m with nextTableId := m.nextTableId + 1 }, m.nextTableId)

def setSeqNumberOffset (m : Manifest) (offset : Nat) : Manifest × Option ManifestPanic :=
  if offset ≤ m.seqNumberOffset then
    (m, some (.seqNumberDecreased m.seqNumberOffset offset))
  else ({ m with seqNumberOffset := offset }, none)

def setLogOffset (m : Manifest) (offset : Nat) : Manifest × Option ManifestPanic :=
  if m.logOffset < offset then ({ m with logOffset := offset }, none)
  else (m, some .logOffsetDecreased)

def setLevel (m : Manifest) (level : Nat) (ids : List Nat) : Manifest :=
  { m with levels := Function.update m.levels level ids }

/-- The loop over the tables to add. -/
def addTables : List (Nat × Nat) → Manifest → Manifest × Option ManifestPanic
  | [], m => (m, none)
  | (level, id) :: add, m =>
      if level < m.numLevels then
        match LevelMetadata.insert (m.levels level) id with
        | none => (m, some (.alreadyExisted id level))
        | some ids => addTables add (m.setLevel level ids)
      else (m, some .noSuchLevel)

/-- The loop over the tables to remove. -/
def removeTables : List (Nat × Nat) → Manifest → Manifest × Option ManifestPanic
  | [], m => (m, none)
  | (level, id) :: remove, m =>
      if level < m.numLevels then
        match LevelMetadata.remove (m.levels level) id with
        | none => (m, some (.notExisted id level))
        | some ids => removeTables remove (m.setLevel level ids)
      else (m, some .noSuchLevel)

def updateTableSet (m : Manifest) (add remove : List (Nat × Nat)) :
    Manifest × Option ManifestPanic :=
  match addTables add m with
  | (m', some reason) => (m', some reason)
  | (m', none) => removeTables remove m'

/-- Everything but the lists of the levels. -/
def SameHeader (m m' : Manifest) : Prop :=
  m'.nextTableId = m.nextTableId ∧ m'.numLevels = m.numLevels ∧
    m'.seqNumberOffset = m.seqNumberOffset ∧ m'.logOffset = m.logOffset

theorem addTables_header
    (add : List (Nat × Nat)) (m : Manifest) :
    m.SameHeader (addTables add m).1 := by
  induction add generalizing m with
  | nil =>
      exact ⟨rfl, rfl, rfl, rfl⟩
  | cons p add ih =>
      obtain ⟨level, id⟩ := p
      rw [addTables]
      split
      · split
        · exact ⟨rfl, rfl, rfl, rfl⟩
        · exact ih (m.setLevel level _)
      · exact ⟨rfl, rfl, rfl, rfl⟩

theorem removeTables_header
    (remove : List (Nat × Nat)) (m : Manifest) :
    m.SameHeader (removeTables remove m).1 := by
  induction remove generalizing m with
  | nil =>
      exact ⟨rfl, rfl, rfl, rfl⟩
  | cons p remove ih =>
      obtain ⟨level, id⟩ := p
      rw [removeTables]
      split
      · split
        · exact ⟨rfl, rfl, rfl, rfl⟩
        · exact ih (m.setLevel level _)
      · exact ⟨rfl, rfl, rfl, rfl⟩

/-- An update of the table set leaves the rest of the manifest alone, panic or not. -/
theorem updateTableSet_header
    (m : Manifest) (add remove : List (Nat × Nat)) :
    m.SameHeader (m.updateTableSet add remove).1 := by
  have hadd := addTables_header add m
  unfold updateTableSet
  split
  · rename_i m' reason heq
    rw [heq] at hadd
    exact hadd
  · rename_i m' heq
    rw [heq] at hadd
    have hremove := removeTables_header remove m'
    obtain ⟨h₁, h₂, h₃, h₄⟩ := hadd
    obtain ⟨g₁, g₂, g₃, g₄⟩ := hremove
    exact ⟨g₁.trans h₁, g₂.trans h₂, g₃.trans h₃, g₄.trans h₄⟩

/-- Every list of identifiers is strictly increasing. -/
def Increasing (m : Manifest) : Prop :=
  ∀ level, (m.levels level).Pairwise (· < ·)

theorem Increasing.setLevel
    {m : Manifest}
    (h : m.Increasing)
    (level : Nat) {ids : List Nat}
    (hids : ids.Pairwise (· < ·)) :
    (m.setLevel level ids).Increasing := by
  intro l
  by_cases hl : l = level
  · subst hl
    simpa [Manifest.setLevel] using hids
  · simpa [Manifest.setLevel, Function.update_of_ne hl] using h l

theorem pairwise_insert
    {ids ids' : List Nat} {id : Nat}
    (h : ids.Pairwise (· < ·))
    (hins : LevelMetadata.insert ids id = some ids') :
    ids'.Pairwise (· < ·) := by
  unfold LevelMetadata.insert at hins
  split at hins
  · cases hins
  · rename_i hid
    cases hins
    have hsorted : (ids.orderedInsert (· ≤ ·) id).Pairwise (· ≤ ·) :=
      List.Pairwise.orderedInsert id ids (h.imp le_of_lt)
    have hnodup : (ids.orderedInsert (· ≤ ·) id).Nodup :=
      (List.perm_orderedInsert _ id ids).nodup_iff.mpr
        (List.nodup_cons.mpr ⟨hid, h.imp ne_of_lt⟩)
    exact (hsorted.and hnodup).imp fun hab => lt_of_le_of_ne hab.1 hab.2

theorem pairwise_remove
    {ids ids' : List Nat} {id : Nat}
    (h : ids.Pairwise (· < ·))
    (hrem : LevelMetadata.remove ids id = some ids') :
    ids'.Pairwise (· < ·) := by
  unfold LevelMetadata.remove at hrem
  split at hrem
  · cases hrem
    exact h.sublist List.erase_sublist
  · cases hrem

theorem addTables_increasing
    {m : Manifest}
    (h : m.Increasing)
    (add : List (Nat × Nat)) :
    (addTables add m).1.Increasing := by
  induction add generalizing m with
  | nil =>
      exact h
  | cons p add ih =>
      obtain ⟨level, id⟩ := p
      rw [addTables]
      split
      · split
        · exact h
        · rename_i ids hins
          exact ih (h.setLevel level (pairwise_insert (h level) hins))
      · exact h

theorem removeTables_increasing
    {m : Manifest}
    (h : m.Increasing)
    (remove : List (Nat × Nat)) :
    (removeTables remove m).1.Increasing := by
  induction remove generalizing m with
  | nil =>
      exact h
  | cons p remove ih =>
      obtain ⟨level, id⟩ := p
      rw [removeTables]
      split
      · split
        · exact h
        · rename_i ids hrem
          exact ih (h.setLevel level (pairwise_remove (h level) hrem))
      · exact h

theorem updateTableSet_increasing
    {m : Manifest}
    (h : m.Increasing)
    (add remove : List (Nat × Nat)) :
    (m.updateTableSet add remove).1.Increasing := by
  have hadd := addTables_increasing h add
  unfold updateTableSet
  split
  · rename_i m' reason heq
    rw [heq] at hadd
    exact hadd
  · rename_i m' heq
    rw [heq] at hadd
    exact removeTables_increasing hadd remove

/-! ## What an update does -/

section Update

variable {m : Manifest} {level id : Nat} {remove : List (Nat × Nat)}

theorem setLevel_levels
    (m : Manifest) (level : Nat) (ids : List Nat) (l : Nat) :
    (m.setLevel level ids).levels l = if l = level then ids else m.levels l :=
  Function.update_apply m.levels level ids l

theorem removeTables_present
    (h : m.Increasing)
    (hnodup : remove.Nodup)
    (hlevel : ∀ p ∈ remove, p.1 < m.numLevels)
    (hmem : ∀ p ∈ remove, p.2 ∈ m.levels p.1) :
    (removeTables remove m).2 = none ∧ ∀ l i,
      i ∈ (removeTables remove m).1.levels l ↔ i ∈ m.levels l ∧ (l, i) ∉ remove := by
  induction remove generalizing m with
  | nil =>
      exact ⟨rfl, fun l i => ⟨fun hi => ⟨hi, List.not_mem_nil⟩, fun hi => hi.1⟩⟩
  | cons p remove ih =>
      obtain ⟨level, id⟩ := p
      obtain ⟨hnot, hnodup⟩ := List.nodup_cons.mp hnodup
      have hid : id ∈ m.levels level := hmem (level, id) List.mem_cons_self
      have hrem : LevelMetadata.remove (m.levels level) id = some ((m.levels level).erase id) :=
        if_pos hid
      have herase : ∀ l i, i ∈ (m.setLevel level ((m.levels level).erase id)).levels l ↔
          i ∈ m.levels l ∧ (l, i) ≠ (level, id) := by
        intro l i
        rw [setLevel_levels]
        split_ifs with hl
        · subst hl
          have hlist : (m.levels l).Nodup := (h l).imp ne_of_lt
          simp [hlist.mem_erase_iff, and_comm]
        · simp [hl]
      obtain ⟨hnone, hiff⟩ := ih (h.setLevel level (pairwise_remove (h level) hrem)) hnodup
        (fun q hq => hlevel q (List.mem_cons_of_mem _ hq)) (by
          intro q hq
          rw [herase]
          exact ⟨hmem q (List.mem_cons_of_mem _ hq), fun heq => hnot (heq ▸ hq)⟩)
      rw [removeTables, if_pos (hlevel (level, id) List.mem_cons_self), hrem]
      refine ⟨hnone, ?_⟩
      intro l i
      rw [hiff, herase, List.mem_cons, not_or, and_assoc]

/-- The first identifier that is missing stops the removals. -/
theorem removeTables_missing
    {p : Nat × Nat}
    (h : m.Increasing)
    (hnodup : remove.Nodup)
    (hlevel : ∀ q ∈ remove, q.1 < m.numLevels)
    (hp : p ∈ remove)
    (hmissing : p.2 ∉ m.levels p.1)
    (hmem : ∀ q ∈ remove, q ≠ p → q.2 ∈ m.levels q.1) :
    (removeTables remove m).2 = some (.notExisted p.2 p.1) := by
  induction remove generalizing m with
  | nil =>
      cases hp
  | cons q remove ih =>
      obtain ⟨level, id⟩ := q
      obtain ⟨hnot, hnodup⟩ := List.nodup_cons.mp hnodup
      rw [removeTables, if_pos (hlevel (level, id) List.mem_cons_self)]
      by_cases hq : (level, id) = p
      · subst hq
        rw [LevelMetadata.remove, if_neg hmissing]
      · have hid := hmem (level, id) List.mem_cons_self hq
        have hrem : LevelMetadata.remove (m.levels level) id =
            some ((m.levels level).erase id) := if_pos hid
        rw [hrem]
        have hsub : ∀ l i, i ∈ (m.setLevel level ((m.levels level).erase id)).levels l →
            i ∈ m.levels l := by
          intro l i hi
          rw [setLevel_levels] at hi
          split_ifs at hi with hl
          · exact hl ▸ List.mem_of_mem_erase hi
          · exact hi
        refine ih (h.setLevel level (pairwise_remove (h level) hrem)) hnodup
          (fun r hr => hlevel r (List.mem_cons_of_mem _ hr))
          ((List.mem_cons.mp hp).resolve_left (Ne.symm hq))
          (fun hi => hmissing (hsub _ _ hi)) ?_
        intro r hr hrp
        have hr' := hmem r (List.mem_cons_of_mem _ hr) hrp
        rw [setLevel_levels]
        split_ifs with hl
        · have hne : r.2 ≠ id := by
            intro heq
            exact hnot (by rwa [← hl, ← heq])
          rw [← hl]
          exact (List.mem_erase_of_ne hne).mpr hr'
        · exact hr'

theorem addTables_single
    (hlevel : level < m.numLevels)
    (hid : id ∉ m.levels level) :
    addTables [(level, id)] m =
      (m.setLevel level ((m.levels level).orderedInsert (· ≤ ·) id), none) := by
  rw [addTables, if_pos hlevel, LevelMetadata.insert, if_neg hid]
  rfl

theorem mem_setLevel_insert
    (m : Manifest) (level id l i : Nat) :
    i ∈ (m.setLevel level ((m.levels level).orderedInsert (· ≤ ·) id)).levels l ↔
      (l, i) = (level, id) ∨ i ∈ m.levels l := by
  rw [setLevel_levels]
  split_ifs with hl
  · subst hl
    simp [List.mem_orderedInsert]
  · simp [hl]

theorem increasing_setLevel_insert
    (h : m.Increasing)
    (hid : id ∉ m.levels level) :
    (m.setLevel level ((m.levels level).orderedInsert (· ≤ ·) id)).Increasing :=
  h.setLevel level (pairwise_insert (h level) (if_neg hid))

/-- An update with one new identifier, and removals of identifiers that are all there. -/
theorem updateTableSet_present
    (h : m.Increasing)
    (hlt : level < m.numLevels)
    (hid : id ∉ m.levels level)
    (hnodup : remove.Nodup)
    (hlevel : ∀ p ∈ remove, p.1 < m.numLevels)
    (hmem : ∀ p ∈ remove, p.2 ∈ m.levels p.1) :
    (m.updateTableSet [(level, id)] remove).2 = none ∧ ∀ l i,
      i ∈ (m.updateTableSet [(level, id)] remove).1.levels l ↔
        (l, i) = (level, id) ∨ (i ∈ m.levels l ∧ (l, i) ∉ remove) := by
  have hnot : (level, id) ∉ remove := fun hin => hid (hmem (level, id) hin)
  rw [updateTableSet, addTables_single hlt hid]
  dsimp only
  obtain ⟨hnone, hiff⟩ := removeTables_present (increasing_setLevel_insert h hid) hnodup hlevel
    (fun p hp => (mem_setLevel_insert m level id p.1 p.2).mpr (Or.inr (hmem p hp)))
  refine ⟨hnone, ?_⟩
  intro l i
  rw [hiff, mem_setLevel_insert]
  constructor
  · rintro ⟨heq | hi, hl⟩
    · exact Or.inl heq
    · exact Or.inr ⟨hi, hl⟩
  · rintro (heq | ⟨hi, hl⟩)
    · exact ⟨Or.inl heq, heq ▸ hnot⟩
    · exact ⟨Or.inr hi, hl⟩

theorem updateTableSet_missing
    {p : Nat × Nat}
    (h : m.Increasing)
    (hlt : level < m.numLevels)
    (hid : id ∉ m.levels level)
    (hnodup : remove.Nodup)
    (hlevel : ∀ q ∈ remove, q.1 < m.numLevels)
    (hp : p ∈ remove)
    (hne : p ≠ (level, id))
    (hmissing : p.2 ∉ m.levels p.1)
    (hmem : ∀ q ∈ remove, q ≠ p → q.2 ∈ m.levels q.1) :
    (m.updateTableSet [(level, id)] remove).2 = some (.notExisted p.2 p.1) := by
  rw [updateTableSet, addTables_single hlt hid]
  refine removeTables_missing (increasing_setLevel_insert h hid) hnodup hlevel hp ?_ ?_
  · rw [mem_setLevel_insert]
    rintro (heq | hi)
    · exact hne heq
    · exact hmissing hi
  · intro q hq hqp
    exact (mem_setLevel_insert m level id q.1 q.2).mpr (Or.inr (hmem q hq hqp))

end Update

end Manifest
end LsmStore
