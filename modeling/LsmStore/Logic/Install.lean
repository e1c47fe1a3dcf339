import LsmStore.Logic.Ownership

/-!
# Installing the result of a compaction

A regular compaction and a table move have the same effect on what the tasks
share: the parents and children are gone from their levels, one table is added
to the child level, and the placeholder is taken away.  `Installed` states that
effect; both functions are shown to have it, and it keeps the invariant of the
protocol.
-/

namespace LsmStore
namespace Logic

open KeyRange KeyedList

/-- Task `i` installs `t` for the inputs of `c` and goes on at `pc'`. -/
structure Installed (g g' : Shared) (i : Nat) (c : Compaction) (t : SortedTable)
    (pc' : TaskPc) : Prop where
  parents : ∀ u, u ∈ g'.tables c.level ↔ u ∈ g.tables c.level ∧ u ∉ c.parents
  parents_sublist : (g'.tables c.level).Sublist (g.tables c.level)
  children : ∃ rest, rest.Sublist (g.tables (c.level + 1)) ∧
    (∀ u, u ∈ rest ↔ u ∈ g.tables (c.level + 1) ∧ u ∉ c.children) ∧
    (g'.tables (c.level + 1)).Perm (t :: rest)
  others : ∀ l, l ≠ c.level → l ≠ c.level + 1 → g'.tables l = g.tables l
  placeholders : ∀ l, g'.placeholders l =
    if l = c.level + 1 then (g.placeholders l).eraseP (fun p => p.id == t.getId)
    else g.placeholders l
  flag : ∀ id, (∀ u ∈ c.inputs, u.getId ≠ id) → g'.flag id = g.flag id
  next : g'.nextTableId = g.nextTableId
  pending : g'.pending = g.pending
  tasks : g'.tasks = g.tasks.set i pc'

/-- What task `i` has when it is about to install `t`. -/
structure Ready (numLevels : Nat) (g : Shared) (i : Nat) (c : Compaction) (t : SortedTable) :
    Prop where
  inv : OwnInv numLevels g
  at_pc : ∃ pc, g.tasks[i]? = some pc ∧ pc.held = c ∧ pc.isClosed = true ∧
    pc.placeholder = some ⟨t.minKey, t.maxKey, t.getId⟩ ∧
    (pc.reserved = some t.getId ∨ (c.parents = [t] ∧ c.children = []))
  unread : ∀ pc ∈ g.tasks, pc.reads c.level = false ∧ pc.reads (c.level + 1) = false

section Ready

variable {numLevels : Nat} {g g' : Shared} {i : Nat} {c : Compaction} {t : SortedTable}
  {pc' : TaskPc}

variable (h : Ready numLevels g i c t)

include h

theorem Ready.claim :
    Claim g c := by
  obtain ⟨pc, hi, hheld, -⟩ := h.at_pc
  exact hheld ▸ (h.inv.tasks i pc hi).claim

theorem Ready.closed :
    Closed numLevels g c := by
  obtain ⟨pc, hi, hheld, hclosed, -⟩ := h.at_pc
  exact hheld ▸ (h.inv.tasks i pc hi).closed hclosed

theorem Ready.placeholder_mem :
    (⟨t.minKey, t.maxKey, t.getId⟩ : TablePlaceholder) ∈ g.placeholders (c.level + 1) := by
  obtain ⟨pc, hi, hheld, -, hplaced, -⟩ := h.at_pc
  exact hheld ▸ ((h.inv.tasks i pc hi).placed _ hplaced).1

/-- Tables of the child level that are no inputs are apart from the new table. -/
theorem Ready.apart
    {u : SortedTable}
    (hu : u ∈ g.tables (c.level + 1))
    (hnot : u ∉ c.children) :
    Apart u t := by
  obtain ⟨pc, hi, hheld, -, hplaced, -⟩ := h.at_pc
  intro hov
  exact hnot (hheld ▸ ((h.inv.tasks i pc hi).placed _ hplaced).2 u (hheld.symm ▸ hu) hov)

/-- Who is not an input does not have the identifier of the new table. -/
theorem Ready.id_ne
    {l : Nat} {u : SortedTable}
    (hu : u ∈ g.tables l)
    (hnot : u ∉ c.inputs) :
    u.getId ≠ t.getId := by
  obtain ⟨pc, hi, hheld, -, -, hnew⟩ := h.at_pc
  rcases hnew with hres | ⟨hparents, -⟩
  · exact ((h.inv.tasks i pc hi).fresh _ hres).1.2 l u hu
  · -- the new table is the parent itself
    have ht : t ∈ c.parents := by simp [hparents]
    have hmem := h.claim.parents_mem t ht
    intro hid
    obtain rfl := h.inv.tables.one_level l c.level u t hu hmem hid
    obtain rfl := List.inj_on_of_nodup_map (h.inv.tables.nodup _) hu hmem hid
    exact hnot (List.mem_append_left _ ht)

theorem Ready.id_lt :
    t.getId < g.nextTableId := by
  obtain ⟨pc, hi, hheld, -, -, hnew⟩ := h.at_pc
  rcases hnew with hres | ⟨hparents, -⟩
  · exact ((h.inv.tasks i pc hi).fresh _ hres).1.1
  · exact h.inv.tables.lt_next _ t (h.claim.parents_mem t (by simp [hparents]))

/-- Parents and children are told apart by their levels. -/
theorem Ready.not_mem_inputs
    {l : Nat} {u : SortedTable}
    (hu : u ∈ g.tables l)
    (hparents : l = c.level → u ∉ c.parents)
    (hchildren : l = c.level + 1 → u ∉ c.children) :
    u ∉ c.inputs := by
  intro hmem
  rcases List.mem_append.mp hmem with hmem | hmem
  · have hl := h.inv.tables.one_level l c.level u u hu (h.claim.parents_mem u hmem) rfl
    exact hparents hl hmem
  · have hl := h.inv.tables.one_level l (c.level + 1) u u hu (h.claim.children_mem u hmem) rfl
    exact hchildren hl hmem

theorem Ready.mem_iff
    (hinst : Installed g g' i c t pc')
    (l : Nat) (u : SortedTable) :
    u ∈ g'.tables l ↔ (l = c.level + 1 ∧ u = t) ∨ (u ∈ g.tables l ∧ u ∉ c.inputs) := by
  by_cases hl : l = c.level
  · subst hl
    rw [hinst.parents]
    constructor
    · rintro ⟨hu, hnot⟩
      exact Or.inr ⟨hu, h.not_mem_inputs hu (fun _ => hnot) (fun h => absurd h (by omega))⟩
    · rintro (⟨hl, -⟩ | ⟨hu, hnot⟩)
      · omega
      · exact ⟨hu, fun hp => hnot (List.mem_append_left _ hp)⟩
  · by_cases hl' : l = c.level + 1
    · subst hl'
      obtain ⟨rest, -, hrest, hperm⟩ := hinst.children
      rw [hperm.mem_iff, List.mem_cons, hrest]
      constructor
      · rintro (rfl | ⟨hu, hnot⟩)
        · exact Or.inl ⟨rfl, rfl⟩
        · exact Or.inr ⟨hu, h.not_mem_inputs hu (fun h => absurd h hl) (fun _ => hnot)⟩
      · rintro (⟨-, rfl⟩ | ⟨hu, hnot⟩)
        · exact Or.inl rfl
        · exact Or.inr ⟨hu, fun hc => hnot (List.mem_append_right _ hc)⟩
    · rw [hinst.others l hl hl']
      constructor
      · intro hu
        exact Or.inr ⟨hu, h.not_mem_inputs hu (fun h => absurd h hl) (fun h => absurd h hl')⟩
      · rintro (⟨hl'', -⟩ | ⟨hu, -⟩)
        · exact absurd hl'' hl'
        · exact hu

theorem Ready.tablesOk
    (hinst : Installed g g' i c t pc') :
    TablesOk numLevels g'.tables g'.nextTableId := by
  have hinv := h.inv.tables
  refine ⟨?_, ?_, ?_, ?_, ?_, ?_⟩
  · intro l u hu
    rw [hinst.next]
    rcases (h.mem_iff hinst l u).mp hu with ⟨-, rfl⟩ | ⟨hu, -⟩
    · exact h.id_lt
    · exact hinv.lt_next l u hu
  · intro l
    by_cases hl : l = c.level
    · subst hl
      exact (hinv.nodup _).sublist (hinst.parents_sublist.map _)
    · by_cases hl' : l = c.level + 1
      · subst hl'
        obtain ⟨rest, hsub, hrest, hperm⟩ := hinst.children
        rw [tableIds, (hperm.map _).nodup_iff, List.map_cons, List.nodup_cons]
        refine ⟨?_, (hinv.nodup _).sublist (hsub.map _)⟩
        intro hmem
        obtain ⟨u, hu, hid⟩ := List.mem_map.mp hmem
        obtain ⟨hu, hnot⟩ := (hrest u).mp hu
        exact h.id_ne hu (h.not_mem_inputs hu (fun h => absurd h hl) (fun _ => hnot)) hid
      · rw [hinst.others l hl hl']
        exact hinv.nodup l
  · intro l l' u u' hu hu' hid
    rcases (h.mem_iff hinst l u).mp hu with ⟨rfl, rfl⟩ | ⟨hold, hnot⟩ <;>
      rcases (h.mem_iff hinst l' u').mp hu' with ⟨rfl, rfl⟩ | ⟨hold', hnot'⟩
    · rfl
    · exact absurd hid.symm (h.id_ne hold' hnot')
    · exact absurd hid (h.id_ne hold hnot)
    · exact hinv.one_level l l' u u' hold hold' hid
  · by_cases hl : 0 = c.level
    · have hsub := hinst.parents_sublist
      rw [← hl] at hsub
      exact hinv.ascending.sublist hsub
    · rw [hinst.others 0 hl (by omega)]
      exact hinv.ascending
  · intro l hl u hu v hv huv
    rcases (h.mem_iff hinst l u).mp hu with ⟨rfl, rfl⟩ | ⟨hold, hnot⟩ <;>
      rcases (h.mem_iff hinst _ v).mp hv with ⟨hl', rfl⟩ | ⟨hold', hnot'⟩
    · exact absurd rfl huv
    · have hapart := h.apart hold' fun hc => hnot' (List.mem_append_right _ hc)
      exact fun hov => hapart hov.symm
    · subst hl'
      exact h.apart hold fun hc => hnot (List.mem_append_right _ hc)
    · exact hinv.apart l hl u hold v hold' huv
  · intro l u hu
    rcases (h.mem_iff hinst l u).mp hu with ⟨rfl, -⟩ | ⟨hu, -⟩
    · exact h.closed.bound
    · exact hinv.bound l u hu

theorem Ready.others_not_mem
    {j : Nat} {pcj : TaskPc}
    (hji : j ≠ i)
    (hj : g.tasks[j]? = some pcj)
    {u : SortedTable}
    (hu : u ∈ pcj.held.inputs) :
    ∀ v ∈ c.inputs, v.getId ≠ u.getId := by
  obtain ⟨pc, hi, hheld, -⟩ := h.at_pc
  intro v hv
  exact (h.inv.separate i j pc pcj (Ne.symm hji) hi hj).tables v (hheld ▸ hv) u hu

/-- The placeholder of another task on the same level is apart from the new table. -/
theorem Ready.ranges_apart
    {j : Nat} {pcj : TaskPc}
    (hji : j ≠ i)
    (hj : g.tasks[j]? = some pcj)
    (hl : pcj.held.level = c.level)
    {p : TablePlaceholder}
    (hp : pcj.placeholder = some p) :
    ¬ Overlaps t.minKey t.maxKey p.min p.max := by
  obtain ⟨pc, hi, hheld, -, hplaced, -⟩ := h.at_pc
  exact (h.inv.separate i j pc pcj (Ne.symm hji) hi hj).ranges (by rw [hheld, hl]) _ p hplaced hp

/-- The other tasks do not notice an installation. -/
theorem Ready.taskOk
    (hinst : Installed g g' i c t pc')
    {j : Nat} {pcj : TaskPc}
    (hji : j ≠ i)
    (hj : g.tasks[j]? = some pcj) :
    TaskOk numLevels g' pcj := by
  have hold := h.inv.tasks j pcj hj
  have hkeep : ∀ l u, u ∈ pcj.held.inputs → u ∈ g.tables l → u ∈ g'.tables l := by
    intro l u hu hmem
    refine (h.mem_iff hinst l u).mpr (Or.inr ⟨hmem, ?_⟩)
    exact fun hin => h.others_not_mem hji hj hu u hin rfl
  refine ⟨?_, ?_, ?_, ?_, ?_⟩
  · refine ⟨?_, ?_, ?_, hold.claim.nodup⟩
    · intro u hu
      exact hkeep _ u (List.mem_append_left _ hu) (hold.claim.parents_mem u hu)
    · intro u hu
      exact hkeep _ u (List.mem_append_right _ hu) (hold.claim.children_mem u hu)
    · intro u hu
      rw [hinst.flag u.getId (h.others_not_mem hji hj hu)]
      exact hold.claim.flagged u hu
  · intro hc
    have hclosed := hold.closed hc
    refine ⟨hclosed.nonempty, hclosed.single, ?_, hclosed.bound⟩
    intro u hu hnot hov
    rcases (h.mem_iff hinst _ u).mp hu with ⟨hl, rfl⟩ | ⟨hu, -⟩
    · -- the new table arrives on the level of a single parent, which it does not touch
      obtain ⟨p, hp⟩ := hclosed.single (by omega)
      have hmem := hold.claim.parents_mem p (by simp [hp])
      rw [hl] at hmem
      have hin : p ∈ pcj.held.inputs := List.mem_append_left _ (by simp [hp])
      have hapart := h.apart hmem fun hc =>
        h.others_not_mem hji hj hin p (List.mem_append_right _ hc) rfl
      rw [hp] at hov
      exact absurd hov.symm hapart
    · exact hclosed.newer u hu hnot hov
  · intro p hp
    obtain ⟨hmem, hcovered⟩ := hold.placed p hp
    constructor
    · rw [hinst.placeholders]
      split_ifs with hl
      · have hlevel : pcj.held.level = c.level := by omega
        rw [hl] at hmem ⊢
        rw [mem_eraseP_key (h.inv.placeholderIds _) h.placeholder_mem]
        refine ⟨hmem, ?_⟩
        rintro rfl
        exact h.ranges_apart hji hj hlevel hp ⟨t.min_le_max, t.min_le_max⟩
      · exact hmem
    · intro u hu hov
      rcases (h.mem_iff hinst (pcj.held.level + 1) u).mp hu with ⟨hl, rfl⟩ | ⟨hu, -⟩
      · exact absurd hov (h.ranges_apart hji hj (by omega) hp)
      · exact hcovered u hu hov
  · intro id hid
    obtain ⟨hfresh, hpend⟩ := hold.fresh id hid
    refine ⟨⟨by rw [hinst.next]; exact hfresh.1, ?_⟩, by rw [hinst.pending]; exact hpend⟩
    intro l u hu
    rcases (h.mem_iff hinst l u).mp hu with ⟨-, rfl⟩ | ⟨hu, -⟩
    · obtain ⟨pc, hi, -, -, -, hnew⟩ := h.at_pc
      rcases hnew with hres | ⟨hparents, -⟩
      · intro heq
        exact (h.inv.separate i j pc pcj (Ne.symm hji) hi hj).reserved id (heq ▸ hres) hid
      · exact hfresh.2 _ u (h.claim.parents_mem u (by simp [hparents]))
    · exact hfresh.2 l u hu
  · -- a task that is in the middle of a table list reads another level
    have hphase := hold.phase
    obtain ⟨hread, hread'⟩ := h.unread pcj (List.mem_of_getElem? hj)
    cases pcj with
    | chosen level table offset =>
        simp only [TaskPc.reads, beq_eq_false_iff_ne] at hread hread'
        simpa only [Phase, hinst.others level hread hread'] using hphase
    | closing cj offsets pos min max =>
        simp only [TaskPc.reads, beq_eq_false_iff_ne] at hread hread'
        simpa only [Phase, hinst.others cj.level hread hread'] using hphase
    | scanning cj pos min max =>
        simp only [TaskPc.reads, beq_eq_false_iff_ne] at hread hread'
        simpa only [Phase, hinst.others (cj.level + 1) hread hread'] using hphase
    | placing cj min max =>
        simp only [TaskPc.reads, beq_eq_false_iff_ne] at hread hread'
        simpa only [Phase, Covered, hinst.others (cj.level + 1) hread hread'] using hphase
    | _ => exact hphase

theorem Ready.ownInv
    (hinst : Installed g g' i c t pc')
    (hpc' : TaskOk numLevels g' pc')
    (hheld : pc'.held.inputs = [])
    (hplaced : pc'.placedId = none)
    (hreserved : pc'.reserved = none) :
    OwnInv numLevels g' := by
  obtain ⟨pc, hi, hpc, -, hplaceholder, -⟩ := h.at_pc
  have hlt : i < g.tasks.length := (List.getElem?_eq_some_iff.mp hi).1
  refine ⟨h.tablesOk hinst, ?_, ?_, ?_, ?_, ?_⟩
  · intro id hid
    rw [hinst.pending] at hid
    obtain ⟨hfresh, hfirst⟩ := h.inv.pending id hid
    refine ⟨⟨by rw [hinst.next]; exact hfresh.1, ?_⟩, ?_⟩
    · intro l u hu
      rcases (h.mem_iff hinst l u).mp hu with ⟨-, rfl⟩ | ⟨hu, -⟩
      · obtain ⟨pc, hi, -, -, -, hnew⟩ := h.at_pc
        rcases hnew with hres | ⟨hparents, -⟩
        · intro heq
          exact ((h.inv.tasks i pc hi).fresh _ hres).2 (heq ▸ hid)
        · exact hfresh.2 _ u (h.claim.parents_mem u (by simp [hparents]))
      · exact hfresh.2 l u hu
    · intro u hu
      rcases (h.mem_iff hinst 0 u).mp hu with ⟨hl, -⟩ | ⟨hu, -⟩
      · omega
      · exact hfirst u hu
  · intro j pcj hj
    rw [hinst.tasks] at hj
    rcases getElem?_set_cases hj with ⟨-, rfl⟩ | ⟨hji, hj'⟩
    · exact hpc'
    · exact h.taskOk hinst hji hj'
  · rw [hinst.tasks]
    refine h.inv.separate_set fun j pcj hji hj => ⟨?_, ?_, ?_⟩
    · intro u hu
      rw [hheld] at hu
      cases hu
    · intro id hid
      rw [hreserved] at hid
      cases hid
    · intro hl p p' hp
      simp [TaskPc.placeholder, hplaced] at hp
  · intro l p hp
    rw [hinst.placeholders] at hp
    have hold : p ∈ g.placeholders l := by
      split_ifs at hp
      · exact List.mem_of_mem_eraseP hp
      · exact hp
    obtain ⟨j, pcj, hj, hl, hpj⟩ := h.inv.owners l p hold
    have hji : j ≠ i := by
      rintro rfl
      obtain rfl : pc = pcj := Option.some.inj (hi.symm.trans hj)
      obtain rfl := Option.some.inj (hplaceholder.symm.trans hpj)
      rw [hpc] at hl
      subst hl
      rw [if_pos rfl, mem_eraseP_key (h.inv.placeholderIds _) h.placeholder_mem] at hp
      exact hp.2 rfl
    refine ⟨j, pcj, ?_, hl, hpj⟩
    rw [hinst.tasks, List.getElem?_set_ne (Ne.symm hji)]
    exact hj
  · intro l
    rw [hinst.placeholders]
    split_ifs
    · exact (h.inv.placeholderIds l).sublist (List.eraseP_sublist.map _)
    · exact h.inv.placeholderIds l

end Ready

/-! ## The two functions that install -/

/-- What the merged table holds: entries of the inputs, and the newest one of each key. -/
structure Merges (inputs : List SortedTable) (t : SortedTable) : Prop where
  source : ∀ key entry, t.get key = some entry → ∃ u ∈ inputs, u.get key = some entry
  newest : ∀ u ∈ inputs, ∀ key entry, u.get key = some entry →
    ∃ newer, t.get key = some newer ∧ entry.getSeqNumber ≤ newer.getSeqNumber

/-- The manifest entries a compaction removes, children first. -/
def removeSet (c : Compaction) : List (Nat × Nat) :=
  (tableIds c.children).map (fun id => (c.level + 1, id)) ++
    (tableIds c.parents).map (fun id => (c.level, id))

/-- Where a task is after the manifest was updated. -/
def afterUpdate : Option ManifestPanic → TaskPc
  | none => .idle
  | some reason => .panicked (.manifest reason)

theorem afterUpdate_ne_installing
    (outcome : Option ManifestPanic) (c : Compaction) (t : SortedTable) :
    afterUpdate outcome ≠ .installing c t := by
  cases outcome <;> simp [afterUpdate]

/-- Task `i` takes the database from `s` to `s'` by installing `t` for the inputs of `c`. -/
structure Installs (numLevels : Nat) (s s' : DbState) (i : Nat) (c : Compaction)
    (t : SortedTable) : Prop where
  ready : Ready numLevels s.shared i c t
  source : s.tasks[i]? = some (.installing c t) ∨ c.parents = [t]
  content : Merges c.inputs t
  manifest : s'.manifest =
    (s.manifest.updateTableSet [(c.level + 1, t.getId)] (removeSet c)).1
  installed : Installed s.shared s'.shared i c t
    (afterUpdate (s.manifest.updateTableSet [(c.level + 1, t.getId)] (removeSet c)).2)
  frame : s' = { s with
    levels := s'.levels
    manifest := s'.manifest
    compactionFlag := s'.compactionFlag
    tasks := s'.tasks }
  /-- A table that was moved is not flagged any more. -/
  released : s.tasks[i]? = some (.installing c t) ∨
    (s.manifest.updateTableSet [(c.level + 1, t.getId)] (removeSet c)).2 ≠ none ∨
    s'.compactionFlag t.getId = false
  requests : ∀ l, (s'.levels l).seekBasedCompaction = (s.levels l).seekBasedCompaction

theorem unread_of_not_isRead
    {s : DbState} {level : Nat}
    (h : s.isRead level = false) :
    ∀ pc ∈ s.tasks, pc.reads level = false := by
  intro pc hpc
  have := List.any_eq_false.mp h pc hpc
  simpa using this

section Functions

variable {numLevels : Nat} {s : DbState} {i : Nat} {c : Compaction}

/-- A task at `installing` is ready once nobody reads the two levels. -/
theorem ready_installing
    {newTable : SortedTable}
    (h : OwnInv numLevels s.shared)
    (hi : s.tasks[i]? = some (.installing c newTable))
    (hread : s.isRead c.level = false)
    (hread' : s.isRead (c.level + 1) = false) :
    Ready numLevels s.shared i c newTable ∧ Merges c.inputs newTable := by
  obtain ⟨params, hne, hmerged⟩ := (h.tasks i _ hi).phase
  constructor
  · refine ⟨h, ⟨_, hi, rfl, rfl, ?_, Or.inl rfl⟩, ?_⟩
    · rw [hmerged]
      rfl
    · intro pc hpc
      exact ⟨unread_of_not_isRead hread pc hpc, unread_of_not_isRead hread' pc hpc⟩
  · constructor
    · intro key entry hget
      rw [hmerged] at hget
      exact SortedTable.merged_get_some hget
    · intro u hu key entry hget
      rw [hmerged]
      exact SortedTable.merged_get_of_input params _ hne hu hget

/-- A task at `moving` is ready once nobody reads the two levels. -/
theorem ready_moving
    {tableId : Nat}
    (h : OwnInv numLevels s.shared)
    (hi : s.tasks[i]? = some (.moving c tableId))
    (hread : s.isRead c.level = false)
    (hread' : s.isRead (c.level + 1) = false) :
    ∃ t, c.parents = [t] ∧ c.children = [] ∧ tableId = t.getId ∧
      Ready numLevels s.shared i c t ∧ Merges c.inputs t := by
  obtain ⟨hchildren, t, hparents, hid⟩ := (h.tasks i _ hi).phase
  have hinputs : c.inputs = [t] := by
    rw [Compaction.inputs, hparents, hchildren]
    rfl
  refine ⟨t, hparents, hchildren, hid, ⟨h, ⟨_, hi, rfl, rfl, ?_, ?_⟩, ?_⟩, ?_⟩
  · simp only [TaskPc.placeholder, TaskPc.placedId, TaskPc.held, hinputs, hid]
    rfl
  · exact Or.inr ⟨hparents, hchildren⟩
  · intro pc hpc
    exact ⟨unread_of_not_isRead hread pc hpc, unread_of_not_isRead hread' pc hpc⟩
  · rw [hinputs]
    constructor
    · intro key entry hget
      exact ⟨t, List.mem_singleton_self t, hget⟩
    · intro u hu key entry hget
      rw [List.mem_singleton.mp hu] at hget
      exact ⟨entry, hget, le_refl _⟩

theorem Ready.removeTablePlaceholder
    {t : SortedTable}
    (h : Ready numLevels s.shared i c t)
    (tables : List SortedTable) :
    Level.removeTablePlaceholder { s.levels (c.level + 1) with tables := tables } t.getId =
      some { s.levels (c.level + 1) with
        tables := tables
        tablePlaceholders := (s.placeholders (c.level + 1)).eraseP
          (fun p => p.id == t.getId) } := by
  have hany : (s.placeholders (c.level + 1)).any (fun p => p.id == t.getId) = true :=
    List.any_eq_true.mpr ⟨_, h.placeholder_mem, by simp⟩
  exact if_pos hany

theorem Ready.removeTables_parents
    {t : SortedTable}
    (h : Ready numLevels s.shared i c t) :
    (removeTables (s.tables c.level) c.parents).2 = true ∧
      (removeTables (s.tables c.level) c.parents).1.Sublist (s.tables c.level) ∧
      ∀ u, u ∈ (removeTables (s.tables c.level) c.parents).1 ↔
        u ∈ s.tables c.level ∧ u ∉ c.parents :=
  removeTables_spec (h.inv.tables.nodup _)
    (h.claim.nodup.sublist ((List.sublist_append_left _ _).map _)) h.claim.parents_mem

theorem Ready.removeTables_children
    {t : SortedTable}
    (h : Ready numLevels s.shared i c t) :
    (removeTables (s.tables (c.level + 1)) c.children).2 = true ∧
      (removeTables (s.tables (c.level + 1)) c.children).1.Sublist (s.tables (c.level + 1)) ∧
      ∀ u, u ∈ (removeTables (s.tables (c.level + 1)) c.children).1 ↔
        u ∈ s.tables (c.level + 1) ∧ u ∉ c.children :=
  removeTables_spec (h.inv.tables.nodup _)
    (h.claim.nodup.sublist ((List.sublist_append_right _ _).map _)) h.claim.children_mem

/-- The database with new table lists on the two levels of a compaction, and without the
placeholder `id`. -/
def relocate (s : DbState) (c : Compaction) (parentTables childTables : List SortedTable)
    (id : Nat) : DbState :=
  (s.setLevel (c.level + 1)
    { s.levels (c.level + 1) with
      tables := childTables
      tablePlaceholders := (s.placeholders (c.level + 1)).eraseP (fun p => p.id == id) }).setLevel
    c.level { s.levels c.level with tables := parentTables }

theorem requests_relocate
    (s : DbState) (c : Compaction) (parentTables childTables : List SortedTable) (id l : Nat) :
    ((relocate s c parentTables childTables id).levels l).seekBasedCompaction =
      (s.levels l).seekBasedCompaction := by
  simp only [relocate, DbState.setLevel, Function.update_apply]
  split_ifs with hparent hchild
  · rw [hparent]
  · rw [hchild]
  · rfl

/-- New table lists that keep everything but the inputs, and have one table more. -/
theorem Installed.of_relocate
    {s' : DbState} {t : SortedTable} {parentTables childTables rest : List SortedTable}
    {pc' : TaskPc}
    (hparents : ∀ u, u ∈ parentTables ↔ u ∈ s.tables c.level ∧ u ∉ c.parents)
    (hsub : parentTables.Sublist (s.tables c.level))
    (hrest : rest.Sublist (s.tables (c.level + 1)))
    (hmem : ∀ u, u ∈ rest ↔ u ∈ s.tables (c.level + 1) ∧ u ∉ c.children)
    (hperm : childTables.Perm (t :: rest))
    (hlevels : s'.levels = (relocate s c parentTables childTables t.getId).levels)
    (hheader : s.manifest.SameHeader s'.manifest)
    (hflag : ∀ id, (∀ u ∈ c.inputs, u.getId ≠ id) →
      s'.compactionFlag id = s.compactionFlag id)
    (hflusher : s'.flusher = s.flusher)
    (htasks : s'.tasks = s.tasks.set i pc') :
    Installed s.shared s'.shared i c t pc' := by
  have htables : ∀ l, s'.shared.tables l =
      if l = c.level then parentTables else if l = c.level + 1 then childTables
      else s.tables l := by
    intro l
    change (s'.levels l).tables = _
    rw [hlevels]
    exact (DbState.tables_setLevel _ _ _ l).trans
      (by rw [DbState.tables_setLevel])
  have hparent : s'.shared.tables c.level = parentTables := by
    rw [htables, if_pos rfl]
  have hchild : s'.shared.tables (c.level + 1) = childTables := by
    rw [htables, if_neg (Nat.succ_ne_self _), if_pos rfl]
  refine ⟨?_, ?_, ?_, ?_, ?_, hflag, hheader.1, congrArg FlusherPc.pendingId hflusher,
    htasks⟩
  · intro u
    rw [hparent]
    exact hparents u
  · rw [hparent]
    exact hsub
  · exact ⟨rest, hrest, hmem, by rw [hchild]; exact hperm⟩
  · intro l hl hl'
    rw [htables, if_neg hl, if_neg hl']
    rfl
  · intro l
    change (s'.levels l).tablePlaceholders = _
    rw [hlevels]
    refine (DbState.placeholders_setLevel _ _ _ l).trans ?_
    rw [DbState.placeholders_setLevel]
    split_ifs with h₁ h₂ h₂
    · omega
    · rw [h₁]
      rfl
    · rw [h₂]
      rfl
    · rfl

/-- The last call of either function; `next` gives the flags back and ends the call. -/
theorem Installs.of_taskCalls
    {t : SortedTable} {parentTables childTables rest : List SortedTable}
    (hready : Ready numLevels s.shared i c t)
    (hsource : s.tasks[i]? = some (.installing c t) ∨ c.parents = [t])
    (hcontent : Merges c.inputs t)
    (hparents : ∀ u, u ∈ parentTables ↔ u ∈ s.tables c.level ∧ u ∉ c.parents)
    (hsub : parentTables.Sublist (s.tables c.level))
    (hrest : rest.Sublist (s.tables (c.level + 1)))
    (hmem : ∀ u, u ∈ rest ↔ u ∈ s.tables (c.level + 1) ∧ u ∉ c.children)
    (hperm : childTables.Perm (t :: rest))
    {next : DbState → DbState}
    (flag : Nat → Bool)
    (hnext : ∀ m, next { relocate s c parentTables childTables t.getId with manifest := m } =
      { relocate s c parentTables childTables t.getId with
        manifest := m
        compactionFlag := flag
        tasks := s.tasks.set i .idle })
    (hflag : ∀ id, (∀ u ∈ c.inputs, u.getId ≠ id) → flag id = s.compactionFlag id)
    (hreleased : s.tasks[i]? = some (.installing c t) ∨ flag t.getId = false) :
    Installs numLevels s
      ((relocate s c parentTables childTables t.getId).taskCalls i
        (s.manifest.updateTableSet [(c.level + 1, t.getId)] (removeSet c)) next) i c t := by
  have hheader := s.manifest.updateTableSet_header [(c.level + 1, t.getId)] (removeSet c)
  generalize hU : s.manifest.updateTableSet [(c.level + 1, t.getId)] (removeSet c) = U
    at hheader
  obtain ⟨manifest, outcome⟩ := U
  cases outcome with
  | none =>
      have heq : (relocate s c parentTables childTables t.getId).taskCalls i (manifest, none)
          next = _ := hnext manifest
      rw [heq]
      refine ⟨hready, hsource, hcontent, by rw [hU], ?_, rfl, hreleased.imp_right Or.inr,
        requests_relocate s c _ _ _⟩
      exact Installed.of_relocate hparents hsub hrest hmem hperm rfl hheader hflag rfl
        (by rw [hU]; rfl)
  | some reason =>
      refine ⟨hready, hsource, hcontent, by rw [hU]; rfl, ?_, rfl,
        Or.inr (Or.inl (by simp [hU])), requests_relocate s c _ _ _⟩
      exact Installed.of_relocate hparents hsub hrest hmem hperm rfl hheader (fun _ _ => rfl)
        rfl (by rw [hU]; rfl)

/-- What `compact_level` does with its inputs once nobody reads the two levels. -/
theorem installTable_eq
    {newTable : SortedTable}
    (hready : Ready numLevels s.shared i c newTable)
    (hread : (s.isRead c.level || s.isRead (c.level + 1)) = false) :
    let rest := (removeTables (s.tables (c.level + 1)) c.children).1
    installTable s i c newTable =
      (relocate s c (removeTables (s.tables c.level) c.parents).1
        (rest.insertIdx (insertPosition rest newTable) newTable) newTable.getId).taskCalls i
        (s.manifest.updateTableSet [(c.level + 1, newTable.getId)] (removeSet c))
        (fun s => s.setTask i .idle) := by
  have hfound := hready.removeTables_parents.1
  have hfound' := hready.removeTables_children.1
  generalize hP : removeTables (s.tables c.level) c.parents = P at hfound
  generalize hC : removeTables (s.tables (c.level + 1)) c.children = C at hfound'
  obtain ⟨parentTables, found⟩ := P
  obtain ⟨childTables, found'⟩ := C
  cases hfound
  cases hfound'
  rw [installTable, if_neg (by simp [hread])]
  simp only [DbState.tables] at hP hC
  simp only [hC, hready.removeTablePlaceholder, hP, if_true]
  rfl

/-- `compact_level` installs the merged table as soon as nobody reads the two levels. -/
theorem installTable_installs
    {newTable : SortedTable}
    (h : OwnInv numLevels s.shared)
    (hi : s.tasks[i]? = some (.installing c newTable))
    (hread : (s.isRead c.level || s.isRead (c.level + 1)) = false) :
    Installs numLevels s (installTable s i c newTable) i c newTable := by
  have hread' := Bool.or_eq_false_iff.mp hread
  obtain ⟨hready, hcontent⟩ := ready_installing h hi hread'.1 hread'.2
  obtain ⟨-, hsub, hparents⟩ := hready.removeTables_parents
  obtain ⟨-, hrest, hchildren⟩ := hready.removeTables_children
  have hperm := List.perm_insertIdx newTable
    (removeTables (s.tables (c.level + 1)) c.children).1
    (i := insertPosition _ newTable) List.findIdx_le_length
  rw [installTable_eq hready hread]
  exact Installs.of_taskCalls hready (Or.inl hi) hcontent hparents hsub hrest hchildren hperm
    s.compactionFlag (fun m => rfl) (fun id _ => rfl) (Or.inl hi)

theorem fastInsertPosition_le
    (all : List SortedTable) (table : SortedTable) :
    fastInsertPosition all table ≤ all.length := by
  unfold fastInsertPosition
  cases hfind : all.findIdx? (fun other => decide (table.getMin < other.getMin)) with
  | none =>
      exact Nat.zero_le _
  | some pos =>
      have hlt := (List.findIdx?_eq_some_iff_getElem.mp hfind).1
      exact le_of_lt hlt

/-- What `fast_compaction` does with its table once nobody reads the two levels. -/
theorem fastCompaction_eq
    {t : SortedTable}
    (hready : Ready numLevels s.shared i c t)
    (hparents : c.parents = [t])
    (hchildren : c.children = [])
    (hread : (s.isRead c.level || s.isRead (c.level + 1)) = false) :
    fastCompaction s i c t.getId =
      (relocate s c ((s.tables c.level).eraseP (fun other => other.getId == t.getId))
        ((s.tables (c.level + 1)).insertIdx
          (fastInsertPosition (s.tables (c.level + 1)) t) t) t.getId).taskCalls i
        (s.manifest.updateTableSet [(c.level + 1, t.getId)] (removeSet c))
        (fun s => abortCompaction s i t .idle) := by
  have hmem : t ∈ s.tables c.level := hready.claim.parents_mem t (by simp [hparents])
  have hnodup : (tableIds (s.tables c.level)).Nodup := hready.inv.tables.nodup c.level
  have hfind : (s.tables c.level).find? (fun other => other.getId == t.getId) = some t := by
    cases hf : (s.tables c.level).find? (fun other => other.getId == t.getId) with
    | none =>
        exact absurd (List.find?_eq_none.mp hf t hmem) (by simp)
    | some u =>
        have hid := List.find?_some hf
        rw [List.inj_on_of_nodup_map hnodup (List.mem_of_find?_eq_some hf) hmem
          (by simpa using hid)]
  -- the identifier occurs once, so the second search finds nothing
  have htwice : ((s.tables c.level).eraseP (fun other => other.getId == t.getId)).eraseP
      (fun other => other.getId == t.getId) =
      (s.tables c.level).eraseP (fun other => other.getId == t.getId) := by
    apply List.eraseP_of_forall_not
    intro u hu
    obtain ⟨hu, hne⟩ := (mem_eraseP_key hnodup hmem u).mp hu
    simpa using fun hid => hne (List.inj_on_of_nodup_map hnodup hu hmem hid)
  rw [fastCompaction, if_neg (by simp [hread])]
  simp only [DbState.tables] at hfind htwice
  simp only [hfind, hready.removeTablePlaceholder, htwice]
  simp only [removeSet, hparents, hchildren]
  rfl

/-- `fast_compaction` moves its table down as soon as nobody reads the two levels. -/
theorem fastCompaction_installs
    {tableId : Nat}
    (h : OwnInv numLevels s.shared)
    (hi : s.tasks[i]? = some (.moving c tableId))
    (hread : (s.isRead c.level || s.isRead (c.level + 1)) = false) :
    ∃ t, Installs numLevels s (fastCompaction s i c tableId) i c t := by
  have hread' := Bool.or_eq_false_iff.mp hread
  obtain ⟨t, hparents, hchildren, rfl, hready, hcontent⟩ :=
    ready_moving h hi hread'.1 hread'.2
  refine ⟨t, ?_⟩
  have hmem : t ∈ s.tables c.level := hready.claim.parents_mem t (by simp [hparents])
  have hflag : s.compactionFlag t.getId = true :=
    hready.claim.flagged t (List.mem_append_left _ (by simp [hparents]))
  have hperm := List.perm_insertIdx t (s.tables (c.level + 1))
    (i := fastInsertPosition (s.tables (c.level + 1)) t) (fastInsertPosition_le _ _)
  rw [fastCompaction_eq hready hparents hchildren hread]
  refine Installs.of_taskCalls hready (Or.inr hparents) hcontent ?_ List.eraseP_sublist
    (List.Sublist.refl _) ?_
    hperm (Function.update s.compactionFlag t.getId false) ?_ ?_
    (Or.inr (Function.update_self _ _ _))
  · intro u
    rw [hparents, List.mem_singleton]
    exact mem_eraseP_key (h.tables.nodup c.level) hmem u
  · intro u
    simp [hchildren]
  · intro m
    exact if_pos hflag
  · intro id hid
    exact Function.update_of_ne
      (Ne.symm (hid t (List.mem_append_left _ (by simp [hparents])))) _ _

/-- The compaction a task is about to install. -/
def TaskPc.toInstall : TaskPc → Option Compaction
  | moving c _ => some c
  | installing c _ => some c
  | _ => none

/-- An installation waits for the readers of the two levels. -/
theorem taskStep_waits
    {pc : TaskPc}
    (params : Params)
    (hi : s.tasks[i]? = some pc)
    (hpc : pc.toInstall = some c)
    (hread : (s.isRead c.level || s.isRead (c.level + 1)) = true) :
    taskStep params s i = s := by
  cases pc <;> cases hpc
  · rw [taskStep, hi]
    exact if_pos hread
  · rw [taskStep, hi]
    exact if_pos hread

theorem taskStep_installs
    {pc : TaskPc}
    (params : Params)
    (h : OwnInv numLevels s.shared)
    (hi : s.tasks[i]? = some pc)
    (hpc : pc.toInstall = some c)
    (hread : (s.isRead c.level || s.isRead (c.level + 1)) = false) :
    ∃ t, Installs numLevels s (taskStep params s i) i c t := by
  cases pc <;> cases hpc
  · rw [taskStep, hi]
    exact fastCompaction_installs h hi hread
  · rw [taskStep, hi]
    exact ⟨_, installTable_installs h hi hread⟩

end Functions

end Logic
end LsmStore
