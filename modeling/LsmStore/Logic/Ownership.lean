import LsmStore.Logic.System

/-!
# Who owns which table

The protocol between the compaction tasks.  A task owns a table while it has
the table's compaction flag set; it reserves an identifier and a range of the
child level with a placeholder.  The invariant of this module says, in every
reachable state,

* that no table is owned by two tasks, and that owned tables stay where they
  are;
* that the parents a task has picked are closed: what overlaps them on their
  level is not older than they are;
* that on the child level everything that overlaps a placeholder is owned by
  the task that put it down, so that levels below level 0 stay free of overlap.

Tasks read the table lists under read locks that they give up in between, so
each statement is tied to the program counters at which it holds.
-/

namespace LsmStore
namespace Logic

open KeyRange KeyedList

/-! ## What the tasks share -/

/-- All inputs of a compaction. -/
def Compaction.inputs (c : Compaction) : List SortedTable :=
  c.parents ++ c.children

namespace TaskPc

/-- The tables whose flag the task has set. -/
def held : TaskPc → Compaction
  | closing c _ _ _ _ => c
  | abortingPick c => c
  | picked c => c
  | scanning c _ _ _ => c
  | placing c _ _ => c
  | abortingOverlaps c => c
  | abortingParents c => c
  | moving c _ => c
  | merging c _ => c
  | installing c _ => c
  | idle => ⟨0, [], []⟩
  | chosen _ _ _ => ⟨0, [], []⟩
  | panicked _ => ⟨0, [], []⟩

/-- `maybe_start_compaction` has returned the parents. -/
def isClosed : TaskPc → Bool
  | picked _ => true
  | scanning _ _ _ _ => true
  | placing _ _ _ => true
  | moving _ _ => true
  | merging _ _ => true
  | installing _ _ => true
  | _ => false

/-- The identifier of the placeholder the task has put down. -/
def placedId : TaskPc → Option Nat
  | moving _ tableId => some tableId
  | merging _ tableId => some tableId
  | installing _ newTable => some newTable.getId
  | _ => none

/-- The placeholder the task has put down. -/
def placeholder (pc : TaskPc) : Option TablePlaceholder :=
  pc.placedId.map fun id => ⟨hullMin pc.held.inputs, hullMax pc.held.inputs, id⟩

/-- The identifier the task took for a table that is on no level yet. -/
def reserved : TaskPc → Option Nat
  | merging _ tableId => some tableId
  | installing _ newTable => some newTable.getId
  | _ => none

end TaskPc

/-- The identifier the flusher took for a table that is on no level yet. -/
def FlusherPc.pendingId : FlusherPc → Option Nat
  | writing _ _ tableId => some tableId
  | adding _ _ table => some table.getId
  | _ => none

/-- The part of the state the protocol is about. -/
structure Shared where
  tables : Nat → List SortedTable
  placeholders : Nat → List TablePlaceholder
  flag : Nat → Bool
  nextTableId : Nat
  pending : Option Nat
  tasks : List TaskPc

def DbState.shared (s : DbState) : Shared where
  tables := s.tables
  placeholders := s.placeholders
  flag := s.compactionFlag
  nextTableId := s.manifest.nextTableId
  pending := s.flusher.pendingId
  tasks := s.tasks

namespace Shared

def setFlag (g : Shared) (id : Nat) (value : Bool) : Shared :=
  { g with flag := Function.update g.flag id value }

def setTask (g : Shared) (i : Nat) (pc : TaskPc) : Shared :=
  { g with tasks := g.tasks.set i pc }

/-- A placeholder at the end of a level's list. -/
def place (g : Shared) (level : Nat) (p : TablePlaceholder) (next : Nat) : Shared :=
  { g with
    placeholders := Function.update g.placeholders level (g.placeholders level ++ [p])
    nextTableId := next }

theorem mem_place_iff
    (g : Shared) (level : Nat) (p : TablePlaceholder) (next l : Nat) (q : TablePlaceholder) :
    q ∈ (g.place level p next).placeholders l ↔
      q ∈ g.placeholders l ∨ (l = level ∧ q = p) := by
  by_cases hl : l = level
  · subst hl
    simp [place]
  · simp [place, hl]

theorem mem_place
    (g : Shared) (level : Nat) (p : TablePlaceholder) (next : Nat)
    {l : Nat} {q : TablePlaceholder}
    (h : q ∈ g.placeholders l) :
    q ∈ (g.place level p next).placeholders l :=
  (g.mem_place_iff level p next l q).mpr (Or.inl h)

@[simp] theorem setFlag_flag_self
    (g : Shared) (id : Nat) (value : Bool) :
    (g.setFlag id value).flag id = value := by
  simp [setFlag]

theorem setFlag_flag_of_ne
    (g : Shared) {id other : Nat} (value : Bool)
    (h : other ≠ id) :
    (g.setFlag id value).flag other = g.flag other := by
  simp [setFlag, Function.update_of_ne h]

end Shared

/-- The ranges of two tables do not overlap. -/
def Apart (t u : SortedTable) : Prop :=
  ¬ Overlaps t.minKey t.maxKey u.minKey u.maxKey

/-- Tables that are apart have no key in common. -/
theorem Apart.get_eq_none
    {t u : SortedTable}
    (h : Apart t u)
    {key : Key} {entry : MemtableEntry}
    (ht : t.get key = some entry) :
    u.get key = none := by
  cases hu : u.get key with
  | none =>
      rfl
  | some entry' =>
      exact absurd (overlaps_of_mem (t.mem_range ht) (u.mem_range hu)) h

/-- The table lists: identifiers occur once, level 0 is in the order of its identifiers,
the other levels are free of overlap. -/
structure TablesOk (numLevels : Nat) (tables : Nat → List SortedTable) (next : Nat) :
    Prop where
  lt_next : ∀ l, ∀ t ∈ tables l, t.getId < next
  nodup : ∀ l, (tableIds (tables l)).Nodup
  one_level : ∀ l l' t t', t ∈ tables l → t' ∈ tables l' → t.getId = t'.getId → l = l'
  ascending : (tables 0).Pairwise fun t u => t.getId < u.getId
  apart : ∀ l, l ≠ 0 → ∀ t ∈ tables l, ∀ u ∈ tables l, t ≠ u → Apart t u
  bound : ∀ l, ∀ t ∈ tables l, l < numLevels

/-- An identifier that was handed out and is on no level. -/
def Fresh (g : Shared) (id : Nat) : Prop :=
  id < g.nextTableId ∧ ∀ l, ∀ t ∈ g.tables l, t.getId ≠ id

/-- The tables a task holds are where it found them, and flagged. -/
structure Claim (g : Shared) (c : Compaction) : Prop where
  parents_mem : ∀ t ∈ c.parents, t ∈ g.tables c.level
  children_mem : ∀ t ∈ c.children, t ∈ g.tables (c.level + 1)
  flagged : ∀ t ∈ c.inputs, g.flag t.getId = true
  nodup : (tableIds c.inputs).Nodup

/-- The parents are closed under overlap, tables that came later apart. -/
structure Closed (numLevels : Nat) (g : Shared) (c : Compaction) : Prop where
  nonempty : c.parents ≠ []
  single : c.level ≠ 0 → ∃ t, c.parents = [t]
  newer : ∀ t ∈ g.tables c.level, t ∉ c.parents →
    Overlaps t.minKey t.maxKey (hullMin c.parents) (hullMax c.parents) →
      c.level = 0 ∧ ∀ p ∈ c.parents, p.getId < t.getId
  bound : c.level + 1 < numLevels

/-- Only the table list of the level and the parents matter. -/
theorem Closed.frame
    {numLevels : Nat} {g g' : Shared} {c c' : Compaction}
    (h : Closed numLevels g c)
    (hlevel : c'.level = c.level)
    (hparents : c'.parents = c.parents)
    (htables : g'.tables = g.tables) :
    Closed numLevels g' c' := by
  refine ⟨hparents ▸ h.nonempty, ?_, ?_, hlevel ▸ h.bound⟩
  · rw [hlevel, hparents]
    exact h.single
  · rw [hlevel, hparents, htables]
    exact h.newer

/-- Everything on the child level that overlaps the range is an input. -/
def Covered (g : Shared) (c : Compaction) (min max : Key) : Prop :=
  ∀ t ∈ g.tables (c.level + 1), Overlaps t.minKey t.maxKey min max → t ∈ c.children

/-- A loop has looked at the first `pos` tables. -/
def Scanned (tables own : List SortedTable) (pos : Nat) (min max : Key) : Prop :=
  ∀ j t, j < pos → tables[j]? = some t →
    t ∈ own ∨ ¬ Overlaps t.minKey t.maxKey min max

/-- What holds at a program counter only. -/
def Phase (numLevels : Nat) (g : Shared) : TaskPc → Prop
  | .chosen level table offset =>
      (g.tables level)[offset]? = some table ∧ level + 1 < numLevels
  | .closing c offsets pos min max =>
      c.level = 0 ∧ c.children = [] ∧ c.parents ≠ [] ∧ c.level + 1 < numLevels ∧
        min = hullMin c.parents ∧ max = hullMax c.parents ∧
        (∀ o ∈ offsets, ∀ t, (g.tables c.level)[o]? = some t → t ∈ c.parents) ∧
        Scanned (g.tables c.level) c.parents pos min max
  | .picked c => c.children = []
  | .scanning c pos min max =>
      min = hullMin c.inputs ∧ max = hullMax c.inputs ∧
        Scanned (g.tables (c.level + 1)) c.children pos min max
  | .placing c min max =>
      min = hullMin c.inputs ∧ max = hullMax c.inputs ∧ Covered g c min max
  | .moving c tableId => c.children = [] ∧ ∃ t, c.parents = [t] ∧ tableId = t.getId
  | .installing c newTable =>
      ∃ params h, newTable = SortedTable.merged params newTable.getId c.inputs h
  | _ => True

/-- What holds for one task. -/
structure TaskOk (numLevels : Nat) (g : Shared) (pc : TaskPc) : Prop where
  claim : Claim g pc.held
  closed : pc.isClosed = true → Closed numLevels g pc.held
  placed : ∀ p, pc.placeholder = some p →
    p ∈ g.placeholders (pc.held.level + 1) ∧ Covered g pc.held p.min p.max
  fresh : ∀ id, pc.reserved = some id → Fresh g id ∧ g.pending ≠ some id
  phase : Phase numLevels g pc

/-- What holds between two tasks. -/
structure Separate (pc pc' : TaskPc) : Prop where
  tables : ∀ t ∈ pc.held.inputs, ∀ t' ∈ pc'.held.inputs, t.getId ≠ t'.getId
  reserved : ∀ id, pc.reserved = some id → pc'.reserved ≠ some id
  ranges : pc.held.level = pc'.held.level → ∀ p p',
    pc.placeholder = some p → pc'.placeholder = some p' →
      ¬ Overlaps p.min p.max p'.min p'.max

/-- The invariant of the protocol. -/
structure OwnInv (numLevels : Nat) (g : Shared) : Prop where
  tables : TablesOk numLevels g.tables g.nextTableId
  pending : ∀ id, g.pending = some id → Fresh g id ∧ ∀ t ∈ g.tables 0, t.getId < id
  tasks : ∀ (i : Nat) pc, g.tasks[i]? = some pc → TaskOk numLevels g pc
  separate : ∀ (i j : Nat) pc pc', i ≠ j → g.tasks[i]? = some pc → g.tasks[j]? = some pc' →
    Separate pc pc'
  owners : ∀ l, ∀ p ∈ g.placeholders l, ∃ (i : Nat) (pc : TaskPc), g.tasks[i]? = some pc ∧
    pc.held.level + 1 = l ∧ pc.placeholder = some p
  placeholderIds : ∀ l, ((g.placeholders l).map TablePlaceholder.id).Nodup

theorem Separate.symm
    {pc pc' : TaskPc}
    (h : Separate pc pc') :
    Separate pc' pc where
  tables := fun t ht t' ht' => (h.tables t' ht' t ht).symm
  reserved := fun id hid hid' => h.reserved id hid' hid
  ranges := fun hl p p' hp hp' hov => h.ranges hl.symm p' p hp' hp hov.symm

theorem Claim.empty
    (g : Shared) :
    Claim g ⟨0, [], []⟩ where
  parents_mem := fun t ht => by cases ht
  children_mem := fun t ht => by cases ht
  flagged := fun t ht => by cases ht
  nodup := List.nodup_nil

/-- A task that holds no table has nothing to keep. -/
theorem TaskOk.idle
    (numLevels : Nat) (g : Shared) :
    TaskOk numLevels g .idle where
  claim := Claim.empty g
  closed := fun h => by cases h
  placed := fun p hp => by cases hp
  fresh := fun id hid => by cases hid
  phase := trivial

theorem TaskOk.panicked
    (numLevels : Nat) (g : Shared) (reason : TaskPanic) :
    TaskOk numLevels g (.panicked reason) :=
  ⟨Claim.empty g, fun h => (by cases h), fun p hp => (by cases hp),
    fun id hid => (by cases hid), trivial⟩

theorem ownInv_new
    (params : Params) (numTasks : Nat) :
    OwnInv params.numLevels (DbState.new params numTasks).shared where
  tables :=
    { lt_next := fun l t ht => by cases ht
      nodup := fun l => List.nodup_nil
      one_level := fun l l' t t' ht => by cases ht
      ascending := List.Pairwise.nil
      apart := fun l hl t ht => by cases ht
      bound := fun l t ht => by cases ht }
  pending := fun id hid => by cases hid
  tasks := by
    intro i pc hpc
    have hidle : pc = .idle := List.eq_of_mem_replicate (List.mem_of_getElem? hpc)
    subst hidle
    exact TaskOk.idle _ _
  separate := by
    intro i j pc pc' hij hpc hpc'
    have hidle : pc = .idle := List.eq_of_mem_replicate (List.mem_of_getElem? hpc)
    subst hidle
    exact ⟨fun t ht => (by cases ht), fun id hid => (by cases hid),
      fun hl p p' hp => (by cases hp)⟩
  owners := fun l p hp => by cases hp
  placeholderIds := fun l => List.nodup_nil

/-! ## Frames -/

/-- A task keeps what it knows while the table lists do not change. -/
theorem TaskOk.frame
    {numLevels : Nat} {g g' : Shared} {pc : TaskPc}
    (h : TaskOk numLevels g pc)
    (htables : g'.tables = g.tables)
    (hpending : ∀ id, pc.reserved = some id → g'.pending ≠ some id)
    (hnext : g.nextTableId ≤ g'.nextTableId)
    (hflag : ∀ t ∈ pc.held.inputs, g'.flag t.getId = true)
    (hplaced : ∀ p, pc.placeholder = some p → p ∈ g'.placeholders (pc.held.level + 1)) :
    TaskOk numLevels g' pc where
  claim :=
    { parents_mem := htables ▸ h.claim.parents_mem
      children_mem := htables ▸ h.claim.children_mem
      flagged := hflag
      nodup := h.claim.nodup }
  closed := fun hc => (h.closed hc).frame rfl rfl htables
  placed := fun p hp => ⟨hplaced p hp, by
    unfold Covered
    rw [htables]
    exact (h.placed p hp).2⟩
  fresh := fun id hid => by
    obtain ⟨hlt, hne⟩ := (h.fresh id hid).1
    exact ⟨⟨lt_of_lt_of_le hlt hnext, htables ▸ hne⟩, hpending id hid⟩
  phase := by
    have hphase := h.phase
    cases pc <;> simp only [Phase, Covered, htables] at hphase ⊢ <;> exact hphase

theorem TablesOk.mono
    {numLevels next next' : Nat} {tables : Nat → List SortedTable}
    (h : TablesOk numLevels tables next)
    (hnext : next ≤ next') :
    TablesOk numLevels tables next' :=
  { h with lt_next := fun l t ht => lt_of_lt_of_le (h.lt_next l t ht) hnext }

section Tasks

variable {numLevels : Nat} {g : Shared} {i : Nat} {pc pc' : TaskPc}

/-- The tasks stay separate when the one that moves is separate from the others. -/
theorem OwnInv.separate_set
    (h : OwnInv numLevels g)
    (hsep : ∀ j pcj, j ≠ i → g.tasks[j]? = some pcj → Separate pc' pcj) :
    ∀ (j k : Nat) pcj pck, j ≠ k → (g.tasks.set i pc')[j]? = some pcj →
      (g.tasks.set i pc')[k]? = some pck → Separate pcj pck := by
  intro j k pcj pck hjk hj hk
  rcases getElem?_set_cases hj with ⟨rfl, rfl⟩ | ⟨hji, hj'⟩
  · rcases getElem?_set_cases hk with ⟨rfl, -⟩ | ⟨hki, hk'⟩
    · exact absurd rfl hjk
    · exact hsep k pck hki hk'
  · rcases getElem?_set_cases hk with ⟨rfl, rfl⟩ | ⟨-, hk'⟩
    · exact (hsep j pcj hji hj').symm
    · exact h.separate j k pcj pck hjk hj' hk'

/-- Task `i` moves on and may change compaction flags that no other task holds. -/
theorem OwnInv.retask
    (h : OwnInv numLevels g)
    (hi : g.tasks[i]? = some pc)
    {flag : Nat → Bool}
    (hflag : ∀ j pcj, j ≠ i → g.tasks[j]? = some pcj →
      ∀ t ∈ pcj.held.inputs, flag t.getId = true)
    (hok : TaskOk numLevels { g with flag := flag } pc')
    (htables : ∀ j pcj, j ≠ i → g.tasks[j]? = some pcj →
      ∀ t ∈ pc'.held.inputs, ∀ u ∈ pcj.held.inputs, t.getId ≠ u.getId)
    (hreserved : ∀ id, pc'.reserved = some id → pc.reserved = some id)
    (hplaceholder : pc'.placeholder = pc.placeholder)
    (hlevel : pc'.held.level = pc.held.level ∨ pc.placeholder = none) :
    OwnInv numLevels { g with flag := flag, tasks := g.tasks.set i pc' } := by
  have hlt : i < g.tasks.length := (List.getElem?_eq_some_iff.mp hi).1
  have hsep : ∀ j pcj, j ≠ i → g.tasks[j]? = some pcj → Separate pc' pcj := by
    intro j pcj hji hj
    have hold := h.separate i j pc pcj (Ne.symm hji) hi hj
    refine ⟨htables j pcj hji hj, fun id hid => hold.reserved id (hreserved id hid), ?_⟩
    intro hl p p' hp hp'
    rw [hplaceholder] at hp
    rcases hlevel with hlevel | hnone
    · exact hold.ranges (hlevel ▸ hl) p p' hp hp'
    · rw [hnone] at hp
      cases hp
  refine ⟨h.tables, h.pending, ?_, ?_, ?_, h.placeholderIds⟩
  · intro j pcj hj
    rcases getElem?_set_cases hj with ⟨-, rfl⟩ | ⟨hji, hj⟩
    · exact hok.frame rfl (fun id hid => (hok.fresh id hid).2) (le_refl _) hok.claim.flagged
        fun p hp => (hok.placed p hp).1
    · have hj' := h.tasks j pcj hj
      exact hj'.frame rfl (fun id hid => (hj'.fresh id hid).2) (le_refl _) (hflag j pcj hji hj)
        fun p hp => (hj'.placed p hp).1
  · exact h.separate_set hsep
  · intro l p hp
    obtain ⟨j, pcj, hj, hl, hpj⟩ := h.owners l p hp
    by_cases hji : j = i
    · subst hji
      obtain rfl : pc = pcj := Option.some.inj (hi.symm.trans hj)
      refine ⟨j, pc', List.getElem?_set_self hlt, ?_, by rw [hplaceholder, hpj]⟩
      rcases hlevel with hlevel | hnone
      · rw [hlevel, hl]
      · rw [hnone] at hpj
        cases hpj
    · exact ⟨j, pcj, by rw [List.getElem?_set_ne (Ne.symm hji)]; exact hj, hl, hpj⟩

theorem OwnInv.advance
    (h : OwnInv numLevels g)
    (hi : g.tasks[i]? = some pc)
    (hok : TaskOk numLevels g pc')
    (hsub : ∀ t ∈ pc'.held.inputs, t ∈ pc.held.inputs)
    (hreserved : ∀ id, pc'.reserved = some id → pc.reserved = some id)
    (hplaceholder : pc'.placeholder = pc.placeholder)
    (hlevel : pc'.held.level = pc.held.level ∨ pc.placeholder = none) :
    OwnInv numLevels (g.setTask i pc') :=
  h.retask hi (fun j pcj _ hj => (h.tasks j pcj hj).claim.flagged) hok
    (fun j pcj hji hj t ht u hu =>
      (h.separate i j pc pcj (Ne.symm hji) hi hj).tables t (hsub t ht) u hu)
    hreserved hplaceholder hlevel

/-- Task `i` sets the flag of a table and owns it from then on. -/
theorem OwnInv.acquire
    (h : OwnInv numLevels g)
    (hi : g.tasks[i]? = some pc)
    {t : SortedTable}
    (hfree : g.flag t.getId = false)
    (hok : TaskOk numLevels (g.setFlag t.getId true) pc')
    (hsub : ∀ u ∈ pc'.held.inputs, u ∈ pc.held.inputs ∨ u = t)
    (hreserved : pc'.reserved = none)
    (hplaceholder : pc.placeholder = none)
    (hplaceholder' : pc'.placeholder = none) :
    OwnInv numLevels
      ((g.setFlag t.getId true).setTask i pc') := by
  refine h.retask hi ?_ hok ?_ (by simp [hreserved]) (by rw [hplaceholder', hplaceholder])
    (Or.inr hplaceholder)
  · intro j pcj _ hj u hu
    have hu' := (h.tasks j pcj hj).claim.flagged u hu
    by_cases hid : u.getId = t.getId
    · rw [hid]
      exact g.setFlag_flag_self t.getId true
    · exact (g.setFlag_flag_of_ne true hid).trans hu'
  · intro j pcj hji hj u hu v hv
    rcases hsub u hu with hu | rfl
    · exact (h.separate i j pc pcj (Ne.symm hji) hi hj).tables u hu v hv
    · -- the flag was free, so nobody else holds the table
      intro hid
      rw [hid, (h.tasks j pcj hj).claim.flagged v hv] at hfree
      cases hfree

theorem OwnInv.release
    (h : OwnInv numLevels g)
    (hi : g.tasks[i]? = some pc)
    {t : SortedTable}
    (ht : t ∈ pc.held.inputs)
    (hok : TaskOk numLevels (g.setFlag t.getId false) pc')
    (hsub : ∀ u ∈ pc'.held.inputs, u ∈ pc.held.inputs)
    (hreserved : pc'.reserved = none)
    (hplaceholder : pc.placeholder = none)
    (hplaceholder' : pc'.placeholder = none) :
    OwnInv numLevels
      ((g.setFlag t.getId false).setTask i pc') := by
  refine h.retask hi ?_ hok ?_ (by simp [hreserved]) (by rw [hplaceholder', hplaceholder])
    (Or.inr hplaceholder)
  · intro j pcj hji hj u hu
    have hid := (h.separate i j pc pcj (Ne.symm hji) hi hj).tables t ht u hu
    exact (g.setFlag_flag_of_ne false (Ne.symm hid)).trans
      ((h.tasks j pcj hj).claim.flagged u hu)
  · intro j pcj hji hj u hu v hv
    exact (h.separate i j pc pcj (Ne.symm hji) hi hj).tables u (hsub u hu) v hv

/-- A task that has given up, or has not picked its parents yet, only has its claim. -/
theorem TaskOk.ofClaim
    (hclaim : Claim g pc.held)
    (hclosed : pc.isClosed = false)
    (hplaced : pc.placedId = none)
    (hreserved : pc.reserved = none)
    (hphase : Phase numLevels g pc) :
    TaskOk numLevels g pc where
  claim := hclaim
  closed := fun hc => by simp [hclosed] at hc
  placed := fun p hp => by simp [TaskPc.placeholder, hplaced] at hp
  fresh := fun id hid => by simp [hreserved] at hid
  phase := hphase

/-- A claim gives one of its tables back. -/
theorem Claim.give
    {c c' : Compaction} {t : SortedTable}
    (h : Claim g c)
    (hlevel : c'.level = c.level)
    (hperm : c.inputs.Perm (t :: c'.inputs))
    (hparents : c'.parents ⊆ c.parents)
    (hchildren : c'.children ⊆ c.children) :
    Claim (g.setFlag t.getId false) c' := by
  obtain ⟨hnot, hnodup⟩ := List.nodup_cons.mp ((hperm.map _).nodup_iff.mp h.nodup)
  refine ⟨fun u hu => hlevel ▸ h.parents_mem u (hparents hu),
    fun u hu => hlevel ▸ h.children_mem u (hchildren hu), ?_, hnodup⟩
  intro u hu
  have hid : u.getId ≠ t.getId := fun heq => hnot (heq ▸ List.mem_map_of_mem hu)
  rw [g.setFlag_flag_of_ne false hid]
  exact h.flagged u (hperm.symm.subset (List.mem_cons_of_mem _ hu))

theorem Claim.dropParent
    {c : Compaction} {t : SortedTable} {rest : List SortedTable}
    (h : Claim g c)
    (hc : c.parents = t :: rest) :
    Claim (g.setFlag t.getId false) { c with parents := rest } := by
  refine h.give rfl ?_ ?_ (List.Subset.refl _)
  · rw [Compaction.inputs, hc]
    exact List.Perm.refl _
  · rw [hc]
    exact List.subset_cons_self t rest

theorem Claim.dropChild
    {c : Compaction} {t : SortedTable} {rest : List SortedTable}
    (h : Claim g c)
    (hc : c.children = t :: rest) :
    Claim (g.setFlag t.getId false) { c with children := rest } := by
  refine h.give rfl ?_ (List.Subset.refl _) ?_
  · rw [Compaction.inputs, hc]
    exact List.perm_middle
  · rw [hc]
    exact List.subset_cons_self t rest

/-- A claim takes one more table that was free. -/
theorem Claim.take
    {c c' : Compaction} {t : SortedTable}
    (h : Claim g c)
    (hfree : g.flag t.getId = false)
    (hperm : c'.inputs.Perm (t :: c.inputs))
    (hparents : ∀ u ∈ c'.parents, u ∈ g.tables c'.level)
    (hchildren : ∀ u ∈ c'.children, u ∈ g.tables (c'.level + 1)) :
    Claim (g.setFlag t.getId true) c' := by
  have hne : ∀ u ∈ c.inputs, u.getId ≠ t.getId := by
    intro u hu heq
    have hu' := h.flagged u hu
    rw [heq, hfree] at hu'
    cases hu'
  refine ⟨hparents, hchildren, ?_, ?_⟩
  · intro u hu
    rcases List.mem_cons.mp (hperm.subset hu) with rfl | hold
    · exact g.setFlag_flag_self _ true
    · rw [g.setFlag_flag_of_ne true (hne u hold)]
      exact h.flagged u hold
  · refine (hperm.map _).nodup_iff.mpr (List.nodup_cons.mpr ⟨fun hmem => ?_, h.nodup⟩)
    obtain ⟨u, hu, hid⟩ := List.mem_map.mp hmem
    exact hne u hu hid

theorem Claim.addParent
    {c : Compaction} {t : SortedTable}
    (h : Claim g c)
    (ht : t ∈ g.tables c.level)
    (hfree : g.flag t.getId = false) :
    Claim (g.setFlag t.getId true) { c with parents := c.parents ++ [t] } := by
  refine h.take hfree ?_ ?_ h.children_mem
  · rw [Compaction.inputs, List.append_assoc]
    exact List.perm_middle
  · exact List.forall_mem_append.mpr ⟨h.parents_mem, List.forall_mem_singleton.mpr ht⟩

theorem Claim.addChild
    {c : Compaction} {t : SortedTable}
    (h : Claim g c)
    (ht : t ∈ g.tables (c.level + 1))
    (hfree : g.flag t.getId = false) :
    Claim (g.setFlag t.getId true) { c with children := c.children ++ [t] } := by
  refine h.take hfree ?_ h.parents_mem ?_
  · rw [Compaction.inputs, ← List.append_assoc]
    exact List.perm_append_singleton _ _
  · exact List.forall_mem_append.mpr ⟨h.children_mem, List.forall_mem_singleton.mpr ht⟩

/-- Task `i` puts a placeholder down where no other one is in the way. -/
theorem OwnInv.place
    (h : OwnInv numLevels g)
    (hi : g.tasks[i]? = some pc)
    {p : TablePlaceholder} {next : Nat}
    (hnext : g.nextTableId ≤ next)
    (hheld : pc'.held = pc.held)
    (hnone : pc.placeholder = none)
    (hsome : pc'.placeholder = some p)
    (hrange : ∀ q ∈ g.placeholders (pc.held.level + 1), ¬ Overlaps q.min q.max p.min p.max)
    (hid : ∀ q ∈ g.placeholders (pc.held.level + 1), q.id ≠ p.id)
    (hreserved : ∀ id, pc'.reserved = some id → g.nextTableId ≤ id)
    (hok : TaskOk numLevels (g.place (pc.held.level + 1) p next) pc') :
    OwnInv numLevels ((g.place (pc.held.level + 1) p next).setTask i pc') := by
  have hlt : i < g.tasks.length := (List.getElem?_eq_some_iff.mp hi).1
  have hsep : ∀ j pcj, j ≠ i → g.tasks[j]? = some pcj → Separate pc' pcj := by
    intro j pcj hji hj
    have hold := h.separate i j pc pcj (Ne.symm hji) hi hj
    refine ⟨hheld ▸ hold.tables, ?_, ?_⟩
    · intro id hid' hid''
      have := ((h.tasks j pcj hj).fresh id hid'').1.1
      have := hreserved id hid'
      omega
    · intro hl q q' hq hq' hov
      obtain rfl : p = q := Option.some.inj (hsome.symm.trans hq)
      have hmem := ((h.tasks j pcj hj).placed q' hq').1
      rw [← hl, hheld] at hmem
      exact hrange q' hmem hov.symm
  refine ⟨h.tables.mono hnext, ?_, ?_, ?_, ?_, ?_⟩
  · intro id hpend
    obtain ⟨⟨hlt, hne⟩, hfirst⟩ := h.pending id hpend
    exact ⟨⟨lt_of_lt_of_le hlt hnext, hne⟩, hfirst⟩
  · intro j pcj hj
    rcases getElem?_set_cases hj with ⟨-, rfl⟩ | ⟨-, hj'⟩
    · exact hok.frame rfl (fun id hid => (hok.fresh id hid).2) (le_refl _) hok.claim.flagged
        fun p hp => (hok.placed p hp).1
    · have hold := h.tasks j pcj hj'
      exact hold.frame rfl (fun id hid => (hold.fresh id hid).2) hnext hold.claim.flagged
        fun q hq => g.mem_place _ p next (hold.placed q hq).1
  · exact h.separate_set hsep
  · intro l q hq
    rcases (g.mem_place_iff _ p next l q).mp hq with hq | ⟨rfl, rfl⟩
    · obtain ⟨j, pcj, hj, hl, hpj⟩ := h.owners l q hq
      have hji : j ≠ i := by
        rintro rfl
        obtain rfl : pc = pcj := Option.some.inj (hi.symm.trans hj)
        rw [hnone] at hpj
        cases hpj
      exact ⟨j, pcj, by rw [Shared.setTask, List.getElem?_set_ne (Ne.symm hji)]; exact hj, hl,
        hpj⟩
    · exact ⟨i, pc', List.getElem?_set_self hlt, by rw [hheld], hsome⟩
  · intro l
    have hold := h.placeholderIds l
    by_cases hl : l = pc.held.level + 1
    · subst hl
      simp only [Shared.setTask, Shared.place, Function.update_self]
      exact nodup_map_concat hold hid
    · simp only [Shared.setTask, Shared.place, Function.update_of_ne hl]
      exact hold

end Tasks

/-! ## The flusher -/

section Flusher

variable {numLevels : Nat} {g : Shared}

theorem OwnInv.reserve
    (h : OwnInv numLevels g) :
    OwnInv numLevels
      { g with pending := some g.nextTableId, nextTableId := g.nextTableId + 1 } := by
  refine ⟨h.tables.mono (Nat.le_succ _), ?_, ?_, h.separate, h.owners, h.placeholderIds⟩
  · intro id hid
    obtain rfl : g.nextTableId = id := Option.some.inj hid
    exact ⟨⟨Nat.lt_succ_self _, fun l t ht => ne_of_lt (h.tables.lt_next l t ht)⟩,
      h.tables.lt_next 0⟩
  · intro j pcj hj
    have hold := h.tasks j pcj hj
    refine hold.frame rfl ?_ (Nat.le_succ _) hold.claim.flagged
      fun q hq => (hold.placed q hq).1
    intro id hid hpend
    obtain rfl : g.nextTableId = id := Option.some.inj hpend
    exact absurd (hold.fresh _ hid).1.1 (lt_irrefl _)

theorem OwnInv.forget
    (h : OwnInv numLevels g) :
    OwnInv numLevels { g with pending := none } := by
  refine ⟨h.tables, fun id hid => (by cases hid), ?_, h.separate, h.owners,
    h.placeholderIds⟩
  intro j pcj hj
  have hold := h.tasks j pcj hj
  exact hold.frame rfl (fun id _ => by simp) (le_refl _) hold.claim.flagged
    fun q hq => (hold.placed q hq).1

theorem TablesOk.push
    {tables : Nat → List SortedTable} {next : Nat} {t : SortedTable}
    (h : TablesOk numLevels tables next)
    (hlevels : 0 < numLevels)
    (hlt : t.getId < next)
    (hne : ∀ l, ∀ u ∈ tables l, u.getId ≠ t.getId)
    (hfirst : ∀ u ∈ tables 0, u.getId < t.getId) :
    TablesOk numLevels (Function.update tables 0 (tables 0 ++ [t])) next := by
  refine ⟨?_, ?_, ?_, ?_, ?_, ?_⟩
  · intro l u hu
    rcases mem_update_concat.mp hu with hu | ⟨-, rfl⟩
    · exact h.lt_next l u hu
    · exact hlt
  · intro l
    by_cases hl : l = 0
    · subst hl
      rw [Function.update_self]
      exact nodup_map_concat (h.nodup 0) (hne 0)
    · rw [Function.update_of_ne hl]
      exact h.nodup l
  · intro l l' u u' hu hu' hid
    rcases mem_update_concat.mp hu with hold | ⟨rfl, rfl⟩ <;>
      rcases mem_update_concat.mp hu' with hold' | ⟨rfl, rfl⟩
    · exact h.one_level l l' u u' hold hold' hid
    · exact absurd hid (hne l u hold)
    · exact absurd hid.symm (hne l' u' hold')
    · rfl
  · rw [Function.update_self]
    refine List.pairwise_append.mpr ⟨h.ascending, List.pairwise_singleton _ _, ?_⟩
    intro u hu v hv
    rw [List.mem_singleton.mp hv]
    exact hfirst u hu
  · intro l hl
    rw [Function.update_of_ne hl]
    exact h.apart l hl
  · intro l u hu
    rcases mem_update_concat.mp hu with hu | ⟨rfl, -⟩
    · exact h.bound l u hu
    · exact hlevels

/-- A task keeps what it knows when a table appears on level 0 that it does not read. -/
theorem TaskOk.push
    {pc : TaskPc} {t : SortedTable}
    (h : TaskOk numLevels g pc)
    (ht : g.pending = some t.getId)
    (hfirst : ∀ u ∈ g.tables 0, u.getId < t.getId)
    (hread : pc.reads 0 = false) :
    TaskOk numLevels
      { g with
        tables := Function.update g.tables 0 (g.tables 0 ++ [t])
        pending := none } pc := by
  have hbelow : ∀ l, l ≠ 0 →
      Function.update g.tables 0 (g.tables 0 ++ [t]) l = g.tables l := fun l hl =>
    Function.update_of_ne hl _ _
  have hkeep : ∀ l, ∀ u ∈ g.tables l, u ∈ Function.update g.tables 0 (g.tables 0 ++ [t]) l :=
    fun l u hu => mem_update_concat.mpr (Or.inl hu)
  refine ⟨?_, ?_, ?_, ?_, ?_⟩
  · exact ⟨fun u hu => hkeep _ u (h.claim.parents_mem u hu),
      fun u hu => hkeep _ u (h.claim.children_mem u hu), h.claim.flagged, h.claim.nodup⟩
  · intro hc
    have hclosed := h.closed hc
    refine ⟨hclosed.nonempty, hclosed.single, ?_, hclosed.bound⟩
    intro u hu hnot hov
    rcases mem_update_concat.mp hu with hu | ⟨hl, rfl⟩
    · exact hclosed.newer u hu hnot hov
    · -- a table that comes later is newer than every parent
      exact ⟨hl, fun p hp => hfirst p (hl ▸ h.claim.parents_mem p hp)⟩
  · intro q hq
    refine ⟨(h.placed q hq).1, ?_⟩
    simp only [Covered, hbelow _ (Nat.succ_ne_zero _)]
    exact (h.placed q hq).2
  · intro id hid
    obtain ⟨hfresh, hpend⟩ := h.fresh id hid
    refine ⟨⟨hfresh.1, ?_⟩, by simp⟩
    intro l u hu
    rcases mem_update_concat.mp hu with hu | ⟨-, rfl⟩
    · exact hfresh.2 l u hu
    · exact fun heq => hpend (heq ▸ ht)
  · have hphase := h.phase
    cases pc with
    | chosen level table offset =>
        have hl : level ≠ 0 := by simpa [TaskPc.reads] using hread
        simpa only [Phase, hbelow _ hl] using hphase
    | closing c offsets pos min max =>
        exact absurd hphase.1 (by simpa [TaskPc.reads] using hread)
    | scanning c pos min max | placing c min max =>
        simpa only [Phase, Covered, hbelow _ (Nat.succ_ne_zero _)] using hphase
    | _ => exact hphase

/-- The flusher publishes its table on level 0, which no task reads at that moment. -/
theorem OwnInv.push
    (h : OwnInv numLevels g)
    (hlevels : 0 < numLevels)
    {t : SortedTable}
    (ht : g.pending = some t.getId)
    (hread : ∀ pc ∈ g.tasks, pc.reads 0 = false) :
    OwnInv numLevels
      { g with
        tables := Function.update g.tables 0 (g.tables 0 ++ [t])
        pending := none } := by
  obtain ⟨⟨hlt, hne⟩, hfirst⟩ := h.pending _ ht
  refine ⟨h.tables.push hlevels hlt hne hfirst, fun id hid => (by cases hid), ?_, h.separate,
    h.owners, h.placeholderIds⟩
  intro j pcj hj
  exact (h.tasks j pcj hj).push ht hfirst (hread pcj (List.mem_of_getElem? hj))

end Flusher

end Logic
end LsmStore
