import LsmStore.Logic.FlushLog

/-!
# The manifest and the levels

The flusher puts its table on level 0 first and registers it in the manifest
some steps later, without holding the lock of the level.  A compaction updates
both while it holds the locks.  As long as no compaction is installed that has
the unregistered table among its parents, the manifest lists exactly the tables
of each level, the unregistered one apart, and no call of the manifest panics.

A compaction that does install such a table finds that the manifest does not
have it, and panics.
-/

namespace LsmStore
namespace Logic

open KeyedList

/-- The table that is on level 0 and not yet in the manifest. -/
def FlusherPc.unregistered : FlusherPc → Option Nat
  | settingSeqNumber _ _ tableId => some tableId
  | registering _ tableId => some tableId
  | _ => none

/-- The event installs no compaction that has the unregistered table among its parents. -/
def DbState.installsRegistered (s : DbState) : DbEvent → Bool
  | .task i =>
      match s.tasks[i]?.bind TaskPc.toInstall with
      | none => true
      | some c =>
          s.isRead c.level || s.isRead (c.level + 1) ||
            c.parents.all fun t => s.flusher.unregistered != some t.getId
  | _ => true

/-- Every event of the run does so. -/
def RunsRegistered (params : Params) (s : DbState) (events : List DbEvent) : Prop :=
  Runs.Along (step params) (fun s e => s.installsRegistered e = true) s events

instance (params : Params) (s : DbState) (events : List DbEvent) :
    Decidable (RunsRegistered params s events) :=
  Runs.decidableAlong s events

theorem mem_tableIds_iff
    {tables : List SortedTable} {id : Nat} :
    id ∈ tableIds tables ↔ ∃ t ∈ tables, t.getId = id :=
  List.mem_map

/-- The manifest lists the tables of the levels. -/
structure ManifestAgrees (params : Params) (s : DbState) : Prop where
  numLevels : s.manifest.numLevels = params.numLevels
  increasing : s.manifest.Increasing
  listed : ∀ l id, id ∈ s.manifest.levels l ↔
    id ∈ tableIds (s.tables l) ∧ s.flusher.unregistered ≠ some id
  pushed : ∀ id, s.flusher.unregistered = some id → id ∈ tableIds (s.tables 0)

theorem manifestAgrees_new
    (params : Params) (numTasks : Nat) :
    ManifestAgrees params (DbState.new params numTasks) := by
  refine ⟨rfl, fun l => List.Pairwise.nil, ?_, nofun⟩
  intro l id
  constructor
  · nofun
  · rintro ⟨hid, -⟩
    cases hid

section Agrees

variable {params : Params} {s s' : DbState}

theorem ManifestAgrees.frame
    (h : ManifestAgrees params s)
    (hnum : s'.manifest.numLevels = s.manifest.numLevels)
    (hlevels : s'.manifest.levels = s.manifest.levels)
    (htables : s'.tables = s.tables)
    (hflusher : s'.flusher.unregistered = s.flusher.unregistered) :
    ManifestAgrees params s' where
  numLevels := hnum.trans h.numLevels
  increasing := by
    intro l
    rw [hlevels]
    exact h.increasing l
  listed := by
    rw [hlevels, htables, hflusher]
    exact h.listed
  pushed := by
    rw [htables, hflusher]
    exact h.pushed

theorem ManifestAgrees.of_unnoticed
    (h : ManifestAgrees params s)
    (hframe : Unnoticed s s') :
    ManifestAgrees params s' :=
  h.frame hframe.numLevels hframe.manifestLevels hframe.tables (by rw [hframe.flusher])

/-! ## Installations -/

section Installs

variable {i : Nat} {c : Compaction} {t : SortedTable}

/-- What a compaction removes from the manifest are its inputs. -/
theorem Ready.mem_removeSet_iff
    {numLevels : Nat} {g : Shared}
    (h : Ready numLevels g i c t)
    {l : Nat} {u : SortedTable}
    (hu : u ∈ g.tables l) :
    (l, u.getId) ∈ removeSet c ↔ u ∈ c.inputs := by
  have heq : ∀ v l', v ∈ g.tables l' → v.getId = u.getId → l' = l ∧ v = u := by
    intro v l' hv hid
    obtain rfl := h.inv.tables.one_level l' l v u hv hu hid
    exact ⟨rfl, List.inj_on_of_nodup_map (h.inv.tables.nodup l') hv hu hid⟩
  simp only [removeSet, tableIds, List.map_map, List.mem_append, List.mem_map,
    Function.comp_apply, Prod.mk.injEq, Compaction.inputs]
  constructor
  · rintro (⟨v, hv, hl, hid⟩ | ⟨v, hv, hl, hid⟩)
    · exact Or.inr ((heq v _ (h.claim.children_mem v hv) hid).2 ▸ hv)
    · exact Or.inl ((heq v _ (h.claim.parents_mem v hv) hid).2 ▸ hv)
  · rintro (hv | hv)
    · exact Or.inr ⟨u, hv, (heq u _ (h.claim.parents_mem u hv) rfl).1, rfl⟩
    · exact Or.inl ⟨u, hv, (heq u _ (h.claim.children_mem u hv) rfl).1, rfl⟩

/-- Everything to be removed is a table of its level. -/
theorem Ready.of_mem_removeSet
    {numLevels : Nat} {g : Shared}
    (h : Ready numLevels g i c t)
    {p : Nat × Nat}
    (hp : p ∈ removeSet c) :
    p.1 < numLevels ∧ ∃ u ∈ c.inputs, u ∈ g.tables p.1 ∧ u.getId = p.2 := by
  have hbound := h.closed.bound
  simp only [removeSet, tableIds, List.map_map, List.mem_append, List.mem_map,
    Function.comp_apply] at hp
  rcases hp with ⟨u, hu, rfl⟩ | ⟨u, hu, rfl⟩
  · exact ⟨hbound, u, List.mem_append_right _ hu, h.claim.children_mem u hu, rfl⟩
  · exact ⟨by dsimp only; omega, u, List.mem_append_left _ hu, h.claim.parents_mem u hu, rfl⟩

theorem Ready.nodup_removeSet
    {numLevels : Nat} {g : Shared}
    (h : Ready numLevels g i c t) :
    (removeSet c).Nodup := by
  have hnodup := h.claim.nodup
  rw [Compaction.inputs, tableIds, List.map_append, List.nodup_append] at hnodup
  rw [removeSet, List.nodup_append]
  refine ⟨hnodup.2.1.map fun a b hab => (Prod.mk.inj hab).2,
    hnodup.1.map fun a b hab => (Prod.mk.inj hab).2, ?_⟩
  rintro p hp q hq rfl
  obtain ⟨a, -, ha⟩ := List.mem_map.mp hp
  obtain ⟨b, -, hb⟩ := List.mem_map.mp hq
  have hlevel := congrArg Prod.fst (ha.trans hb.symm)
  dsimp only at hlevel
  omega

/-- The child level does not have the identifier of the new table. -/
theorem Ready.id_not_mem
    {numLevels : Nat} {g : Shared}
    (h : Ready numLevels g i c t) :
    ∀ u ∈ g.tables (c.level + 1), u.getId ≠ t.getId := by
  obtain ⟨pc, hi, -, -, -, hnew⟩ := h.at_pc
  intro u hu hid
  rcases hnew with hres | ⟨hparents, -⟩
  · exact ((h.inv.tasks i pc hi).fresh _ hres).1.2 _ u hu hid
  · have hmem := h.claim.parents_mem t (by simp [hparents])
    have := h.inv.tables.one_level _ _ u t hu hmem hid
    omega

section Tables

variable (h : ManifestAgrees params s)

include h

theorem ManifestAgrees.mem_levels
    {l : Nat} {u : SortedTable}
    (hu : u ∈ s.tables l)
    (hreg : s.flusher.unregistered ≠ some u.getId) :
    u.getId ∈ s.manifest.levels l :=
  (h.listed l u.getId).mpr ⟨mem_tableIds_iff.mpr ⟨u, hu, rfl⟩, hreg⟩

theorem ManifestAgrees.level_eq_zero
    {numLevels : Nat}
    (hown : OwnInv numLevels s.shared)
    {l : Nat} {u : SortedTable}
    (hu : u ∈ s.tables l)
    (hreg : s.flusher.unregistered = some u.getId) :
    l = 0 := by
  obtain ⟨v, hv, hid⟩ := mem_tableIds_iff.mp (h.pushed u.getId hreg)
  exact hown.tables.one_level l 0 u v hu hv hid.symm

theorem ManifestAgrees.unregistered_ne
    {numLevels : Nat}
    (hready : Ready numLevels s.shared i c t)
    (hparents : ∀ u ∈ c.parents, s.flusher.unregistered ≠ some u.getId) :
    s.flusher.unregistered ≠ some t.getId := by
  obtain ⟨pc, hi, -, -, -, hnew⟩ := hready.at_pc
  rcases hnew with hres | ⟨heq, -⟩
  · intro hreg
    obtain ⟨v, hv, hid⟩ := mem_tableIds_iff.mp (h.pushed _ hreg)
    exact ((hready.inv.tasks i pc hi).fresh _ hres).1.2 0 v hv hid
  · exact hparents t (by simp [heq])

theorem ManifestAgrees.id_not_listed
    {numLevels : Nat}
    (hready : Ready numLevels s.shared i c t) :
    t.getId ∉ s.manifest.levels (c.level + 1) := by
  intro hid
  obtain ⟨u, hu, heq⟩ := mem_tableIds_iff.mp ((h.listed _ _).mp hid).1
  exact hready.id_not_mem u hu heq

/-- An installation with registered parents updates the manifest without a panic, and the
manifest agrees with the levels afterwards. -/
theorem ManifestAgrees.install
    (hinst : Installs params.numLevels s s' i c t)
    (hparents : ∀ u ∈ c.parents, s.flusher.unregistered ≠ some u.getId) :
    ManifestAgrees params s' ∧ s'.tasks = s.tasks.set i .idle := by
  have hready := hinst.ready
  have hflusher : s'.flusher = s.flusher := by rw [hinst.frame]
  have hinputs : ∀ u ∈ c.inputs, s.flusher.unregistered ≠ some u.getId := by
    intro u hu
    rcases List.mem_append.mp hu with hu | hu
    · exact hparents u hu
    · intro hreg
      have := h.level_eq_zero hready.inv (hready.claim.children_mem u hu) hreg
      omega
  have hnew := h.unregistered_ne hready hparents
  obtain ⟨hnone, hlevels⟩ := Manifest.updateTableSet_present h.increasing
    (by rw [h.numLevels]; exact hready.closed.bound) (h.id_not_listed hready)
    hready.nodup_removeSet
    (fun p hp => by rw [h.numLevels]; exact (hready.of_mem_removeSet hp).1)
    (fun p hp => by
      obtain ⟨-, u, hu, hmem, hid⟩ := hready.of_mem_removeSet hp
      rw [← hid]
      exact h.mem_levels hmem (hinputs u hu))
  have htables : ∀ l u, u ∈ s'.tables l ↔
      (l = c.level + 1 ∧ u = t) ∨ (u ∈ s.tables l ∧ u ∉ c.inputs) :=
    hready.mem_iff hinst.installed
  refine ⟨⟨?_, ?_, ?_, ?_⟩, ?_⟩
  · rw [hinst.manifest, (Manifest.updateTableSet_header _ _ _).2.1, h.numLevels]
  · rw [hinst.manifest]
    exact Manifest.updateTableSet_increasing h.increasing _ _
  · intro l id
    rw [hinst.manifest, hlevels, hflusher, mem_tableIds_iff]
    constructor
    · rintro (heq | ⟨hid, hnot⟩)
      · obtain ⟨rfl, rfl⟩ := Prod.mk.inj heq
        exact ⟨⟨t, (htables _ t).mpr (Or.inl ⟨rfl, rfl⟩), rfl⟩, hnew⟩
      · obtain ⟨hid, hreg⟩ := (h.listed l id).mp hid
        obtain ⟨u, hu, rfl⟩ := mem_tableIds_iff.mp hid
        exact ⟨⟨u, (htables l u).mpr (Or.inr ⟨hu,
          fun hin => hnot ((hready.mem_removeSet_iff hu).mpr hin)⟩), rfl⟩, hreg⟩
    · rintro ⟨⟨u, hu, rfl⟩, hreg⟩
      rcases (htables l u).mp hu with ⟨rfl, rfl⟩ | ⟨hu, hnot⟩
      · exact Or.inl rfl
      · exact Or.inr ⟨h.mem_levels hu hreg,
          fun hin => hnot ((hready.mem_removeSet_iff hu).mp hin)⟩
  · intro id hid
    rw [hflusher] at hid
    obtain ⟨u, hu, rfl⟩ := mem_tableIds_iff.mp (h.pushed id hid)
    exact mem_tableIds_iff.mpr ⟨u,
      (htables 0 u).mpr (Or.inr ⟨hu, fun hin => hinputs u hin hid⟩), rfl⟩
  · have htasks : s'.tasks = s.tasks.set i _ := hinst.installed.tasks
    rw [htasks, hnone]
    rfl

/-- An installation with the unregistered table among its parents panics. -/
theorem ManifestAgrees.install_panics
    (hinst : Installs params.numLevels s s' i c t)
    {u : SortedTable}
    (hu : u ∈ c.parents)
    (hreg : s.flusher.unregistered = some u.getId) :
    s'.tasks[i]? = some (.panicked (.manifest (.notExisted u.getId 0))) := by
  have hready := hinst.ready
  have hmem := hready.claim.parents_mem u hu
  have hlevel := h.level_eq_zero hready.inv hmem hreg
  have hone := hready.inv.tables.one_level
  rw [hlevel] at hmem
  have houtcome := Manifest.updateTableSet_missing (p := (0, u.getId)) h.increasing
    (by rw [h.numLevels]; exact hready.closed.bound) (h.id_not_listed hready)
    hready.nodup_removeSet
    (fun p hp => by rw [h.numLevels]; exact (hready.of_mem_removeSet hp).1)
    ((hready.mem_removeSet_iff hmem).mpr (List.mem_append_left _ hu))
    (fun heq => by cases heq)
    (fun hin => ((h.listed 0 u.getId).mp hin).2 hreg)
    (fun q hq hne => by
      obtain ⟨-, v, -, hv, hid⟩ := hready.of_mem_removeSet hq
      rw [← hid]
      refine h.mem_levels hv ?_
      -- only one table is unregistered
      intro hreg'
      have heq : u.getId = v.getId := Option.some.inj (hreg.symm.trans hreg')
      refine hne (Prod.ext ?_ ?_)
      · exact hone _ _ v u hv hmem heq.symm
      · rw [← hid, ← heq])
  obtain ⟨pc, hi, -⟩ := hready.at_pc
  have hlt : i < s.tasks.length := (List.getElem?_eq_some_iff.mp hi).1
  have htasks : s'.tasks = s.tasks.set i _ := hinst.installed.tasks
  rw [htasks, houtcome]
  exact List.getElem?_set_self hlt

end Tables

end Installs

/-! ## The flusher -/

section Flusher

variable (h : ManifestAgrees params s)

include h

/-- The registration of a table that is on level 0 does not panic. -/
theorem ManifestAgrees.register
    {logOffset tableId : Nat}
    (hf : s.flusher = .registering logOffset tableId) :
    (s.manifest.updateTableSet [(0, tableId)] []).2 = none ∧ ∀ l i,
      i ∈ (s.manifest.updateTableSet [(0, tableId)] []).1.levels l ↔
        (l, i) = (0, tableId) ∨ i ∈ s.manifest.levels l := by
  have hnot : tableId ∉ s.manifest.levels 0 := by
    intro hid
    exact ((h.listed 0 tableId).mp hid).2 (by rw [hf]; rfl)
  have hlt : 0 < s.manifest.numLevels := by
    rw [h.numLevels]
    exact params.numLevels_pos
  have hpresent := Manifest.updateTableSet_present h.increasing hlt hnot List.nodup_nil nofun nofun
  simpa using hpresent

/-- A table is published: it is the one that is not registered. -/
theorem ManifestAgrees.publish
    {logOffset : Nat} {mem : Memtable} {table : SortedTable}
    (hown : OwnInv params.numLevels s.shared)
    (hpc : s.flusher = .adding logOffset mem table) :
    ManifestAgrees params
      { s.setLevel 0 ((s.levels 0).addL0Table table) with
        flusher := .settingSeqNumber logOffset mem table.getId } := by
  obtain ⟨hfresh, -⟩ := hown.pending table.getId (congrArg FlusherPc.pendingId hpc)
  refine ⟨h.numLevels, h.increasing, ?_, ?_⟩
  · intro l id
    change id ∈ s.manifest.levels l ↔ id ∈ tableIds
      ((s.setLevel 0 ((s.levels 0).addL0Table table)).tables l) ∧ some table.getId ≠ some id
    rw [h.listed, hpc, mem_tableIds_iff, mem_tableIds_iff]
    constructor
    · rintro ⟨⟨u, hu, rfl⟩, -⟩
      refine ⟨⟨u, DbState.mem_tables_addL0Table.mpr (Or.inl hu), rfl⟩, ?_⟩
      exact fun heq => hfresh.2 l u hu (Option.some.inj heq).symm
    · rintro ⟨⟨u, hu, rfl⟩, hne⟩
      rcases DbState.mem_tables_addL0Table.mp hu with hold | ⟨-, rfl⟩
      · exact ⟨⟨u, hold, rfl⟩, by simp [FlusherPc.unregistered]⟩
      · exact absurd rfl hne
  · intro id hid
    obtain rfl : table.getId = id := Option.some.inj hid
    exact mem_tableIds_iff.mpr
      ⟨table, DbState.mem_tables_addL0Table.mpr (Or.inr ⟨rfl, rfl⟩), rfl⟩

/-- The published table is registered: nothing is left out any more. -/
theorem ManifestAgrees.registered
    {logOffset tableId : Nat}
    (hown : OwnInv params.numLevels s.shared)
    (hpc : s.flusher = .registering logOffset tableId) :
    ManifestAgrees params
      (s.flusherCalls (s.manifest.updateTableSet [(0, tableId)] [])
        (.settingOffset logOffset)) := by
  obtain ⟨hnone, hlevels⟩ := h.register hpc
  have hheader := s.manifest.updateTableSet_header [(0, tableId)] []
  have hincreasing := Manifest.updateTableSet_increasing h.increasing [(0, tableId)] []
  have hpushed := h.pushed tableId (by rw [hpc]; rfl)
  rw [DbState.flusherCalls_of_none hnone]
  refine ⟨hheader.2.1.trans h.numLevels, hincreasing, ?_, by simp [FlusherPc.unregistered]⟩
  intro l id
  change id ∈ (s.manifest.updateTableSet [(0, tableId)] []).1.levels l ↔
    id ∈ tableIds (s.tables l) ∧ none ≠ some id
  rw [hlevels, h.listed, hpc]
  constructor
  · rintro (hid | ⟨hid, -⟩)
    · obtain ⟨rfl, rfl⟩ := Prod.mk.inj hid
      exact ⟨hpushed, by simp⟩
    · exact ⟨hid, by simp⟩
  · rintro ⟨hid, -⟩
    by_cases heq : id = tableId
    · subst heq
      obtain ⟨u, hu, rfl⟩ := mem_tableIds_iff.mp hid
      exact Or.inl (by rw [h.level_eq_zero hown hu (by rw [hpc]; rfl)])
    · exact Or.inr ⟨hid, fun hreg => heq (Option.some.inj hreg).symm⟩

theorem ManifestAgrees.doMemtableCompaction
    (hown : OwnInv params.numLevels s.shared)
    (hincrease : OffsetsIncrease s) :
    ManifestAgrees params (doMemtableCompaction params s) := by
  have hstep := flusherStep_doMemtableCompaction params s
  generalize Logic.doMemtableCompaction params s = s' at hstep
  cases hstep with
  | stay =>
      exact h
  | start hpc himm | reserve hpc hne | write hpc hne | setOffset hpc hlt | removePage hpc hlt
  | truncated hpc hle | pop hpc himm | failOffset hpc hle | failPop hpc himm =>
      exact h.frame rfl rfl rfl (by rw [hpc]; rfl)
  | add hpc hread =>
      exact h.publish hown hpc
  | setSeqNumber hpc =>
      have hlt := hincrease.seqNumber _ _ _ hpc
      simp only [Manifest.setSeqNumberOffset, if_neg (not_le.mpr hlt), DbState.flusherCalls]
      exact h.frame rfl rfl rfl (by rw [hpc]; rfl)
  | register hpc =>
      exact h.registered hown hpc
  | setLogOffset hpc =>
      have hlt := hincrease.logOffset _ hpc
      simp only [Manifest.setLogOffset, if_pos hlt, DbState.flusherCalls]
      exact h.frame rfl rfl rfl (by rw [hpc]; rfl)
  | failEmpty hpc hempty =>
      rcases hpc with hpc | ⟨tableId, hpc⟩ <;> exact h.frame rfl rfl rfl (by rw [hpc]; rfl)

end Flusher

end Agrees

/-! ## Whole runs -/

/-- The invariant of runs that install registered tables only. -/
structure RegInv (params : Params) (s : DbState) : Prop where
  versions : VersionInv params s
  split : ∃ flushed frozen live, LogSplit s flushed frozen live
  agrees : ManifestAgrees params s
  calm : ∀ (i : Nat) reason, s.tasks[i]? ≠ some (.panicked reason)

section Runs

variable {params : Params} {s : DbState}

theorem regInv_new
    (params : Params) (numTasks : Nat) :
    RegInv params (DbState.new params numTasks) := by
  refine ⟨versionInv_new params numTasks, ⟨[], [], [], logSplit_new params numTasks⟩,
    manifestAgrees_new params numTasks, ?_⟩
  intro i reason hi
  cases List.eq_of_mem_replicate (List.mem_of_getElem? hi)

theorem RegInv.of_unnoticed
    {s' : DbState}
    (h : RegInv params s)
    (hversions : VersionInv params s')
    (hframe : Unnoticed s s') :
    RegInv params s' := by
  obtain ⟨flushed, frozen, live, hsplit⟩ := h.split
  refine ⟨hversions, ⟨flushed, frozen, live, hsplit.of_unnoticed hframe⟩,
    h.agrees.of_unnoticed hframe, ?_⟩
  intro i reason hi
  exact h.calm i reason (hframe.panics hi)

/-- The parents of an installation that meets the condition are registered. -/
theorem registered_of_installs
    {s' : DbState} {i : Nat} {pc : TaskPc} {c : Compaction} {t : SortedTable}
    (hcond : s.installsRegistered (.task i) = true)
    (hi : s.tasks[i]? = some pc)
    (hpc : pc.toInstall = some c)
    (hinst : Installs params.numLevels s s' i c t) :
    ∀ u ∈ c.parents, s.flusher.unregistered ≠ some u.getId := by
  have hread : ∀ l, (l = c.level ∨ l = c.level + 1) → s.isRead l = false := by
    intro l hl
    refine List.any_eq_false.mpr fun pc' hpc' => ?_
    have hunread := hinst.ready.unread pc' hpc'
    rcases hl with rfl | rfl
    · simp [hunread.1]
    · simp [hunread.2]
  have hbind : s.tasks[i]?.bind TaskPc.toInstall = some c := by
    rw [hi]
    exact hpc
  simpa [DbState.installsRegistered, hbind, hread c.level (Or.inl rfl),
    hread (c.level + 1) (Or.inr rfl)] using hcond

theorem regInv_step
    (params : Params) (s : DbState) (e : DbEvent)
    (hcond : s.installsRegistered e = true)
    (h : RegInv params s) :
    RegInv params (step params s e) := by
  have hversions := versionInv_step params s e h.versions
  have hstep := dbStep_step h.versions.own e
  generalize step params s e = s' at hversions hstep
  obtain ⟨flushed, frozen, live, hsplit⟩ := h.split
  cases hstep with
  | write batch =>
      have hsplit' : ∃ flushed frozen live,
          LogSplit (writeOpts params s batch) flushed frozen live := by
        rcases writeOpts_cases params s batch with heq | heq | ⟨hempty, heq⟩ <;> rw [heq]
        · exact ⟨flushed, frozen, live, hsplit⟩
        · exact ⟨flushed, frozen, live ++ batch, hsplit.afterBatch batch⟩
        · exact ⟨flushed, live ++ batch, [], (hsplit.afterBatch batch).rotate
            (h.versions.afterBatch batch).flush hempty⟩
      have hagrees : ManifestAgrees params (writeOpts params s batch) ∧
          (writeOpts params s batch).tasks = s.tasks := by
        rcases writeOpts_cases params s batch with heq | heq | ⟨hempty, heq⟩ <;> rw [heq] <;>
          exact ⟨h.agrees.frame rfl rfl rfl rfl, rfl⟩
      refine ⟨hversions, hsplit', hagrees.1, ?_⟩
      intro i reason hi
      exact h.calm i reason (hagrees.2 ▸ hi)
  | flusher =>
      obtain ⟨flushed', frozen', hsplit'⟩ := hsplit.doMemtableCompaction params h.versions.flush
        (fun logOffset tableId hf => (h.agrees.register hf).1)
      refine ⟨hversions, ⟨flushed', frozen', live, hsplit'⟩,
        h.agrees.doMemtableCompaction h.versions.own
          (hsplit.offsetsIncrease h.versions.flush), ?_⟩
      intro i reason hi
      exact h.calm i reason ((flusherStep_doMemtableCompaction params s).tasks ▸ hi)
  | installs hi hpc hinst =>
      obtain ⟨hagrees, htasks⟩ := h.agrees.install hinst
        (registered_of_installs hcond hi hpc hinst)
      refine ⟨hversions, ⟨flushed, frozen, live, hsplit.of_installs hinst⟩, hagrees, ?_⟩
      intro j reason hj
      rw [htasks] at hj
      rcases getElem?_set_cases hj with ⟨-, heq⟩ | ⟨-, hold⟩
      · cases heq
      · exact h.calm j reason hold
  | unnoticed hframe =>
      exact h.of_unnoticed hversions hframe

theorem regInv_run
    {numTasks : Nat} {events : List DbEvent}
    (hcond : RunsRegistered params (DbState.new params numTasks) events) :
    RegInv params ((DbState.new params numTasks).run params events) :=
  Runs.invariant_along (regInv_step params) (regInv_new params numTasks) hcond

/-- The next event panics exactly if it installs the unregistered table. -/
theorem RegInv.panics_iff
    (h : RegInv params s)
    (e : DbEvent) :
    (∃ (i : Nat) (reason : ManifestPanic),
        (step params s e).tasks[i]? = some (.panicked (.manifest reason))) ↔
      s.installsRegistered e = false := by
  constructor
  · rintro ⟨i, reason, hi⟩
    by_contra hcond
    rw [Bool.not_eq_false] at hcond
    exact (regInv_step params s e hcond h).calm i _ hi
  · intro hcond
    cases e with
    | task i =>
        cases hi : s.tasks[i]? with
        | none =>
            simp [DbState.installsRegistered, hi] at hcond
        | some pc =>
            cases hpc : pc.toInstall with
            | none =>
                simp [DbState.installsRegistered, hi, hpc] at hcond
            | some c =>
                simp only [DbState.installsRegistered, hi, Option.bind_some, hpc,
                  Bool.or_eq_false_iff (x := (_ || _)), List.all_eq_false] at hcond
                obtain ⟨hread, u, hu, hreg⟩ := hcond
                obtain ⟨t, hinst⟩ := taskStep_installs params h.versions.own hi hpc hread
                have hreg : s.flusher.unregistered = some u.getId := by
                  simpa using hreg
                exact ⟨i, _, h.agrees.install_panics hinst hu hreg⟩
    | _ => cases hcond

end Runs

/-- Runs in which no compaction is installed while one of its parents is on level 0 and not
yet registered.  Neither a task nor a manifest call of the flusher panics; whenever the
flusher is not between publishing and registering a table, in particular when it is idle,
the manifest lists exactly the tables of each level; and no identifier is on two levels.
The condition cannot be dropped: an event that breaks it panics. -/
theorem manifest_agrees_of_registered
    (params : Params) (numTasks : Nat) (events : List DbEvent)
    (hcond : RunsRegistered params (DbState.new params numTasks) events) :
    let s := (DbState.new params numTasks).run params events
    (∀ (i : Nat) reason, s.tasks[i]? ≠ some (.panicked reason)) ∧
      (∀ reason, s.flusher ≠ .panicked (.manifest reason)) ∧
      (s.flusher.unregistered = none →
        ∀ l, (s.manifest.levels l).Perm (tableIds (s.tables l))) ∧
      (∀ l l' id, id ∈ s.manifest.levels l → id ∈ s.manifest.levels l' → l = l') ∧
      ∀ e, (∃ (i : Nat) (reason : ManifestPanic),
          (step params s e).tasks[i]? = some (.panicked (.manifest reason))) ↔
        s.installsRegistered e = false := by
  intro s
  have h : RegInv params s := regInv_run hcond
  obtain ⟨flushed, frozen, live, hsplit⟩ := h.split
  refine ⟨h.calm, ?_, ?_, ?_, h.panics_iff⟩
  · intro reason hf
    cases hsplit.panicked _ hf
  · intro hquiet l
    have hnodup : (s.manifest.levels l).Nodup := (h.agrees.increasing l).imp ne_of_lt
    refine (List.perm_ext_iff_of_nodup hnodup (h.versions.own.tables.nodup l)).mpr ?_
    intro id
    rw [h.agrees.listed, hquiet]
    exact ⟨fun hid => hid.1, fun hid => ⟨hid, nofun⟩⟩
  · intro l l' id hid hid'
    obtain ⟨t, ht, rfl⟩ := mem_tableIds_iff.mp ((h.agrees.listed l id).mp hid).1
    obtain ⟨u, hu, heq⟩ := mem_tableIds_iff.mp ((h.agrees.listed l' _).mp hid').1
    exact h.versions.own.tables.one_level l l' t u ht hu heq.symm

/-- A write of one key, and a number of steps of the flusher. -/
def writeThenFlush (value : UInt8) (steps : Nat) : List DbEvent :=
  .write [.put (ByteVec.ofList [1]) (ByteVec.ofList [value])] :: List.replicate steps .flusher

/-- Four flushed tables, a fifth after some steps of the flusher, and then one compaction of
level 0. -/
def fifthTable (steps : Nat) : List DbEvent :=
  (writeThenFlush 1 11 ++ writeThenFlush 2 11 ++ writeThenFlush 3 11 ++ writeThenFlush 4 11 ++
    writeThenFlush 5 steps) ++ .compact 0 0 :: List.replicate 28 (.task 0)

/-- The compaction of five registered tables. -/
theorem manifest_agrees_of_registered_five :
    ∃ s, s = (DbState.new smallParams 1).run smallParams (fifthTable 11) ∧
      s.tasks = [.idle] ∧ s.manifest.levels 1 = [6] ∧
        (s.manifest.levels 1).Perm (tableIds (s.tables 1)) := by
  obtain ⟨-, -, hperm, -⟩ :=
    manifest_agrees_of_registered smallParams 1 (fifthTable 11) (by decide +kernel)
  exact ⟨_, rfl, by decide +kernel, by decide +kernel, hperm (by decide +kernel) 1⟩

/-- The fifth table is on level 0 and not yet in the manifest when the compaction is
installed: the task panics, and when the flusher is done, the manifest has a table on level
0 that the level does not have. -/
theorem unregistered_table_panics :
    let s := (DbState.new smallParams 1).run smallParams (fifthTable 4)
    let s' := s.run smallParams (List.replicate 11 .flusher)
    s.flusher.unregistered = some 5 ∧
      s.tasks = [.panicked (.manifest (.notExisted 5 0))] ∧
      s'.flusher = .idle ∧ s'.manifest.levels 0 = [5] ∧ tableIds (s'.tables 0) = [] := by
  decide +kernel

end Logic
end LsmStore
