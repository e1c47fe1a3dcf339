import LsmStore.Logic.Frame

/-!
# What the compaction protocol guarantees

The levels below level 0 stay free of overlap, and so do their placeholders; no
table is an input of two compactions; none of the assertions of the protocol
fails; and a call of `compact_level` that returns has given back every flag and
every placeholder it took.

The first statements are read off the invariant of the protocol.  For the last
one the flags are accounted for: every flag that is set on a table of a level
belongs to a compaction that is running, or to a task that panicked in the
manifest while it moved that table.
-/

namespace LsmStore
namespace Logic

open KeyRange KeyedList

/-! ## No overlap -/

theorem OwnInv.placeholders_apart
    {numLevels : Nat} {g : Shared}
    (h : OwnInv numLevels g)
    (l : Nat) :
    (g.placeholders l).Pairwise fun p q => ¬ Overlaps p.min p.max q.min q.max := by
  have hids := List.pairwise_map.mp (h.placeholderIds l)
  refine hids.imp_of_mem ?_
  intro p q hp hq hid
  obtain ⟨i, pc, hi, hl, hpc⟩ := h.owners l p hp
  obtain ⟨j, pc', hj, hl', hpc'⟩ := h.owners l q hq
  have hij : i ≠ j := by
    rintro rfl
    obtain rfl := Option.some.inj (hi.symm.trans hj)
    exact hid (congrArg TablePlaceholder.id (Option.some.inj (hpc.symm.trans hpc')))
  exact (h.separate i j pc pc' hij hi hj).ranges (by omega) p q hpc hpc'

/-- Below level 0 the tables of a level are in ranges of their own. -/
theorem OwnInv.tables_apart
    {numLevels : Nat} {g : Shared} {l : Nat}
    (h : OwnInv numLevels g)
    (hl : l ≠ 0) :
    (g.tables l).Pairwise Apart := by
  have hids := List.pairwise_map.mp (h.tables.nodup l)
  refine hids.imp_of_mem ?_
  intro t u ht hu hid
  exact h.tables.apart l hl t ht u hu (fun heq => hid (congrArg SortedTable.getId heq))

/-- In every reachable state, on every level but the first: the tables do not overlap, the
placeholders do not overlap, and what overlaps a placeholder is a flagged input of the
compaction that put it down. -/
theorem levels_never_overlap
    (params : Params) (numTasks : Nat) (events : List DbEvent) (l : Nat) :
    let s := (DbState.new params numTasks).run params events
    (l ≠ 0 → (s.tables l).Pairwise fun t u =>
        ¬ Overlaps t.getMin t.getMax u.getMin u.getMax) ∧
      ((s.placeholders l).Pairwise fun p q => ¬ Overlaps p.min p.max q.min q.max) ∧
      ∀ p ∈ s.placeholders l, ∃ (i : Nat) (pc : TaskPc), s.tasks[i]? = some pc ∧
        pc.held.level + 1 = l ∧ pc.placeholder = some p ∧
        ∀ t ∈ s.tables l, Overlaps t.getMin t.getMax p.min p.max →
          t ∈ pc.held.children ∧ s.compactionFlag t.getId = true := by
  intro s
  have h : OwnInv params.numLevels s.shared := ownInv_run params numTasks events
  refine ⟨fun hl => h.tables_apart hl, h.placeholders_apart l, ?_⟩
  intro p hp
  obtain ⟨i, pc, hi, rfl, hpc⟩ := h.owners l p hp
  have hok := h.tasks i pc hi
  refine ⟨i, pc, hi, rfl, hpc, ?_⟩
  intro t ht hov
  have hchild := (hok.placed p hpc).2 t ht hov
  exact ⟨hchild, hok.claim.flagged t (List.mem_append_right _ hchild)⟩

/-! ## Flags -/

/-- A task that panicked in the manifest while it moved the table. -/
def TaskPc.Lost (pc : TaskPc) (id : Nat) : Prop :=
  ∃ level, pc = .panicked (.manifest (.alreadyExisted id level)) ∨
    pc = .panicked (.manifest (.notExisted id level))

/-- Whose flags are set. -/
structure FlagInv (g : Shared) : Prop where
  owned : ∀ l, ∀ t ∈ g.tables l, g.flag t.getId = true →
    ∃ (j : Nat) (pc : TaskPc), g.tasks[j]? = some pc ∧ (t ∈ pc.held.inputs ∨ pc.Lost t.getId)
  issued : ∀ id, g.flag id = true → id < g.nextTableId ∧ g.pending ≠ some id
  reserved : ∀ (j : Nat) pc id, g.tasks[j]? = some pc → pc.reserved = some id →
    g.flag id = false
  childless : ∀ (j : Nat) pc, g.tasks[j]? = some pc → pc.Childless

section FlagInv

variable {params : Params} {s s' : DbState} {i : Nat} {g : Shared}

theorem flagInv_new
    (params : Params) (numTasks : Nat) :
    FlagInv (DbState.new params numTasks).shared := by
  have hidle : ∀ (j : Nat) pc, (DbState.new params numTasks).tasks[j]? = some pc → pc = .idle :=
    fun j pc hj => List.eq_of_mem_replicate (List.mem_of_getElem? hj)
  refine ⟨fun l t ht => (by cases ht), fun id hid => (by cases hid), ?_, ?_⟩
  · intro j pc id hj hid
    rfl
  · intro j pc hj
    rw [hidle j pc hj]
    trivial

/-- A step of the flusher sets no flag, and the table it publishes has none. -/
theorem FlagInv.doMemtableCompaction
    (h : FlagInv s.shared)
    (params : Params) :
    FlagInv (doMemtableCompaction params s).shared := by
  rcases (flusherStep_doMemtableCompaction params s).shared_cases with
    heq | heq | ⟨t, hpending, -, heq⟩ | heq <;> rw [heq]
  · exact h
  · refine ⟨h.owned, ?_, h.reserved, h.childless⟩
    intro id hid
    have hlt := (h.issued id hid).1
    refine ⟨Nat.lt_succ_of_lt hlt, ?_⟩
    intro hpend
    exact absurd (Option.some.inj hpend) (ne_of_gt hlt)
  · refine ⟨?_, fun id hid => ⟨(h.issued id hid).1, by simp⟩, h.reserved, h.childless⟩
    intro l u hu hflag
    rcases mem_update_concat.mp hu with hu | ⟨-, rfl⟩
    · exact h.owned l u hu hflag
    · exact absurd hpending (h.issued _ hflag).2
  · exact ⟨h.owned, fun id hid => ⟨(h.issued id hid).1, by simp⟩, h.reserved, h.childless⟩

theorem OwnInv.exists_level
    {numLevels : Nat} {pc : TaskPc} {id : Nat}
    (h : OwnInv numLevels g)
    (hi : g.tasks[i]? = some pc)
    (hid : id ∈ pc.heldIds) :
    ∃ l, ∃ t ∈ g.tables l, t ∈ pc.held.inputs ∧ t.getId = id := by
  obtain ⟨t, ht, rfl⟩ := List.mem_map.mp hid
  have hclaim := (h.tasks i pc hi).claim
  rcases List.mem_append.mp ht with hparent | hchild
  · exact ⟨_, t, hclaim.parents_mem t hparent, ht, rfl⟩
  · exact ⟨_, t, hclaim.children_mem t hchild, ht, rfl⟩

/-- Identifiers tell the tables of all levels apart. -/
theorem TablesOk.eq_of_getId_eq
    {numLevels next l l' : Nat} {tables : Nat → List SortedTable} {t u : SortedTable}
    (h : TablesOk numLevels tables next)
    (ht : t ∈ tables l)
    (hu : u ∈ tables l')
    (hid : t.getId = u.getId) :
    t = u := by
  obtain rfl := h.one_level l l' t u ht hu hid
  exact List.inj_on_of_nodup_map (h.nodup l) ht hu hid

theorem FlagInv.works
    {pc pc' : TaskPc}
    (h : FlagInv s.shared)
    (hown' : OwnInv params.numLevels s'.shared)
    (hi : s.tasks[i]? = some pc)
    (hpc : ∀ id, ¬ pc.Lost id)
    (hworks : Works s s' i pc pc') :
    FlagInv s'.shared := by
  have hi' : s'.tasks[i]? = some pc' := by
    rw [hworks.moved]
    exact List.getElem?_set_self (List.getElem?_eq_some_iff.mp hi).1
  have hothers : ∀ j, j ≠ i → s'.tasks[j]? = s.tasks[j]? := by
    intro j hji
    rw [hworks.moved]
    exact List.getElem?_set_ne (Ne.symm hji)
  have hpending : s'.shared.pending = s.shared.pending :=
    congrArg FlusherPc.pendingId hworks.flusher
  have hchildless : pc.Childless := h.childless i pc hi
  have hflags := hworks.flags hchildless
  refine ⟨?_, ?_, ?_, ?_⟩
  · intro l t ht hflag
    rcases hflags t.getId hflag with hheld | ⟨hold, hnot⟩
    · obtain ⟨l', u, hu, hinput, hid⟩ := hown'.exists_level hi' hheld
      obtain rfl := hown'.tables.eq_of_getId_eq hu ht hid
      exact ⟨i, pc', hi', Or.inl hinput⟩
    · have ht' : t ∈ s.tables l := hworks.tables ▸ ht
      obtain ⟨j, pcj, hj, howner⟩ := h.owned l t ht' hold
      have hji : j ≠ i := by
        rintro rfl
        obtain rfl : pc = pcj := Option.some.inj (hi.symm.trans hj)
        rcases howner with hinput | hlost
        · exact hnot (List.mem_map_of_mem hinput)
        · exact hpc _ hlost
      exact ⟨j, pcj, (hothers j hji).trans hj, howner⟩
  · intro id hflag
    rcases hflags id hflag with hheld | ⟨hold, -⟩
    · obtain ⟨l, u, hu, -, rfl⟩ := hown'.exists_level hi' hheld
      exact ⟨hown'.tables.lt_next l u hu, fun hpend => (hown'.pending _ hpend).1.2 l u hu rfl⟩
    · obtain ⟨hlt, hne⟩ := h.issued id hold
      exact ⟨lt_of_lt_of_le hlt hworks.nextTableId, hpending ▸ hne⟩
  · intro j pcj id hj hid
    have hfresh := ((hown'.tasks j pcj hj).fresh id hid).1
    by_contra hflag
    rcases hflags id (Bool.eq_true_of_not_eq_false hflag) with hheld | ⟨hold, -⟩
    · obtain ⟨l, u, hu, -, hu'⟩ := hown'.exists_level hi' hheld
      exact hfresh.2 l u hu hu'
    · by_cases hji : j = i
      · subst hji
        obtain rfl : pc' = pcj := Option.some.inj (hi'.symm.trans hj)
        rcases hworks.reserved id hid with hres | hle
        · exact Bool.false_ne_true ((h.reserved j pc id hi hres).symm.trans hold)
        · exact absurd (h.issued id hold).1 (not_lt.mpr hle)
      · have hj' : s.tasks[j]? = some pcj := (hothers j hji).symm.trans hj
        exact Bool.false_ne_true ((h.reserved j pcj id hj' hid).symm.trans hold)
  · intro j pcj hj
    by_cases hji : j = i
    · subst hji
      obtain rfl : pc' = pcj := Option.some.inj (hi'.symm.trans hj)
      exact hworks.childless hchildless
    · exact h.childless j pcj ((hothers j hji).symm.trans hj)

/-- The ways in which moving a table can fail in the manifest. -/
theorem updateTableSet_move
    {m : Manifest} {level id : Nat} {reason : ManifestPanic}
    (hlevel : level + 1 < m.numLevels)
    (h : (m.updateTableSet [(level + 1, id)] [(level, id)]).2 = some reason) :
    reason = .alreadyExisted id (level + 1) ∨ reason = .notExisted id level := by
  simp only [Manifest.updateTableSet, Manifest.addTables, if_pos hlevel] at h
  cases hins : LevelMetadata.insert (m.levels (level + 1)) id with
  | none =>
      rw [hins] at h
      exact Or.inl (Option.some.inj h).symm
  | some ids =>
      rw [hins] at h
      have hlevel' : level < (m.setLevel (level + 1) ids).numLevels := Nat.lt_of_succ_lt hlevel
      simp only [Manifest.removeTables, if_pos hlevel'] at h
      cases hrem : LevelMetadata.remove ((m.setLevel (level + 1) ids).levels level) id with
      | none =>
          rw [hrem] at h
          exact Or.inr (Option.some.inj h).symm
      | some ids' =>
          rw [hrem] at h
          cases h

/-- A flag that is set after an installation was set before. -/
theorem Installs.flag_of_flag
    {numLevels : Nat} {c : Compaction} {t : SortedTable} {id : Nat}
    (h : Installs numLevels s s' i c t)
    (hflag : s'.compactionFlag id = true) :
    s.compactionFlag id = true := by
  by_cases hinput : ∃ u ∈ c.inputs, u.getId = id
  · obtain ⟨u, hu, rfl⟩ := hinput
    exact h.ready.claim.flagged u hu
  · push Not at hinput
    exact (h.installed.flag id hinput).symm.trans hflag

/-- After an installation the new table is not flagged, unless the task that moved it has
panicked. -/
theorem FlagInv.installed_flag
    {c : Compaction} {t : SortedTable}
    (h : FlagInv s.shared)
    (hlevels : s.manifest.numLevels = params.numLevels)
    (hinst : Installs params.numLevels s s' i c t)
    (hflag : s'.compactionFlag t.getId = true) :
    ∃ pc, s'.tasks[i]? = some pc ∧ pc.Lost t.getId := by
  obtain ⟨pc, hi, -, -, -, hnew⟩ := hinst.ready.at_pc
  have hi' : s'.tasks[i]? = some _ :=
    (congrArg (fun tasks : List TaskPc => tasks[i]?) hinst.installed.tasks).trans
      (List.getElem?_set_self (List.getElem?_eq_some_iff.mp hi).1)
  have hunreserved : pc.reserved ≠ some t.getId := by
    intro hres
    exact Bool.false_ne_true
      ((h.reserved i pc _ hi hres).symm.trans (hinst.flag_of_flag hflag))
  obtain ⟨hparents, hchildren⟩ := hnew.resolve_left hunreserved
  rcases hinst.released with hinstalling | hout | hfalse
  · obtain rfl : pc = .installing c t := Option.some.inj (hi.symm.trans hinstalling)
    exact absurd rfl hunreserved
  · obtain ⟨reason, hreason⟩ := Option.ne_none_iff_exists'.mp hout
    refine ⟨_, hi', ?_⟩
    have hremove : removeSet c = [(c.level, t.getId)] := by
      simp [removeSet, hparents, hchildren, tableIds]
    have hbound : c.level + 1 < s.manifest.numLevels :=
      hlevels ▸ hinst.ready.closed.bound
    rw [hreason]
    rw [hremove] at hreason
    rcases updateTableSet_move hbound hreason with rfl | rfl
    · exact ⟨_, Or.inl rfl⟩
    · exact ⟨_, Or.inr rfl⟩
  · exact absurd (hfalse.symm.trans hflag) Bool.false_ne_true

theorem FlagInv.installs
    {c : Compaction} {t : SortedTable}
    (h : FlagInv s.shared)
    (hlevels : s.manifest.numLevels = params.numLevels)
    (hinst : Installs params.numLevels s s' i c t) :
    FlagInv s'.shared := by
  obtain ⟨pc, hi, hheld, hclosed, -, -⟩ := hinst.ready.at_pc
  have hlt : i < s.tasks.length := (List.getElem?_eq_some_iff.mp hi).1
  have htasks : s'.tasks = s.tasks.set i _ := hinst.installed.tasks
  have hothers : ∀ j, j ≠ i → s'.tasks[j]? = s.tasks[j]? := by
    intro j hji
    rw [htasks]
    exact List.getElem?_set_ne (Ne.symm hji)
  -- the task is done or has panicked, so it holds and reserves nothing
  have hafter : ∀ pcj, s'.tasks[i]? = some pcj → pcj.reserved = none ∧ pcj.Childless := by
    intro pcj hj
    rw [htasks, List.getElem?_set_self hlt] at hj
    obtain rfl := Option.some.inj hj
    cases (s.manifest.updateTableSet [(c.level + 1, t.getId)] (removeSet c)).2 <;>
      exact ⟨rfl, trivial⟩
  refine ⟨?_, ?_, ?_, ?_⟩
  · intro l u hu hflag
    rcases (hinst.ready.mem_iff hinst.installed l u).mp hu with ⟨-, rfl⟩ | ⟨hold, hnot⟩
    · obtain ⟨pc', hi', hlost⟩ := h.installed_flag hlevels hinst hflag
      exact ⟨i, pc', hi', Or.inr hlost⟩
    · obtain ⟨j, pcj, hj, howner⟩ := h.owned l u hold (hinst.flag_of_flag hflag)
      have hji : j ≠ i := by
        rintro rfl
        obtain rfl : pc = pcj := Option.some.inj (hi.symm.trans hj)
        rcases howner with hinput | ⟨level, rfl | rfl⟩
        · exact hnot (hheld ▸ hinput)
        · cases hclosed
        · cases hclosed
      exact ⟨j, pcj, (hothers j hji).trans hj, howner⟩
  · intro id hflag
    have hissued := h.issued id (hinst.flag_of_flag hflag)
    exact ⟨hinst.installed.next ▸ hissued.1, hinst.installed.pending ▸ hissued.2⟩
  · intro j pcj id hj hid
    by_cases hji : j = i
    · subst hji
      rw [(hafter pcj hj).1] at hid
      cases hid
    · have hfalse := h.reserved j pcj id ((hothers j hji).symm.trans hj) hid
      by_contra hflag
      exact Bool.false_ne_true (hfalse.symm.trans
        (hinst.flag_of_flag (Bool.eq_true_of_not_eq_false hflag)))
  · intro j pcj hj
    by_cases hji : j = i
    · subst hji
      exact (hafter pcj hj).2
    · exact h.childless j pcj ((hothers j hji).symm.trans hj)

end FlagInv

/-! ## Runs -/

/-- What holds between the compaction tasks in every reachable state. -/
structure ProtocolInv (params : Params) (s : DbState) : Prop where
  own : OwnInv params.numLevels s.shared
  flags : FlagInv s.shared
  numLevels : s.manifest.numLevels = params.numLevels
  panics : ∀ (i : Nat) reason, s.tasks[i]? = some (.panicked reason) →
    ∃ r, reason = .manifest r

section Runs

variable {params : Params} {s s' : DbState} {i : Nat}

theorem protocolInv_new
    (params : Params) (numTasks : Nat) :
    ProtocolInv params (DbState.new params numTasks) := by
  refine ⟨ownInv_new params numTasks, flagInv_new params numTasks, rfl, ?_⟩
  intro i reason hi
  cases List.eq_of_mem_replicate (List.mem_of_getElem? hi)

theorem numLevels_flusherCalls
    {call : Manifest × Option ManifestPanic} {next : FlusherPc}
    (h : call.1.numLevels = s.manifest.numLevels) :
    (s.flusherCalls call next).manifest.numLevels = s.manifest.numLevels := by
  obtain ⟨manifest, outcome⟩ := call
  cases outcome <;> exact h

theorem FlusherStep.numLevels
    (h : FlusherStep params s s') :
    s'.manifest.numLevels = s.manifest.numLevels := by
  cases h with
  | @setSeqNumber logOffset tableId mem hpc =>
      refine numLevels_flusherCalls ?_
      unfold Manifest.setSeqNumberOffset
      split_ifs <;> rfl
  | @register logOffset tableId hpc =>
      exact numLevels_flusherCalls (Manifest.updateTableSet_header _ _ _).2.1
  | @setLogOffset logOffset hpc =>
      refine numLevels_flusherCalls ?_
      unfold Manifest.setLogOffset
      split_ifs <;> rfl
  | _ => rfl

theorem ProtocolInv.same
    (h : ProtocolInv params s)
    (hshared : s'.shared = s.shared)
    (hnum : s'.manifest.numLevels = s.manifest.numLevels) :
    ProtocolInv params s' where
  own := hshared ▸ h.own
  flags := hshared ▸ h.flags
  numLevels := hnum.trans h.numLevels
  panics := by
    intro i reason hi
    exact h.panics i reason (congrArg (fun g : Shared => g.tasks[i]?) hshared ▸ hi)

theorem protocolInv_startCompaction
    (h : ProtocolInv params s)
    (level : Nat) :
    ProtocolInv params (startCompaction params s i level) := by
  have hframe := unnoticed_startCompaction params s i level
  have hown := ownInv_startCompaction (i := i) h.own level
  by_cases hi : s.tasks[i]? = some .idle
  · obtain ⟨pc', hworks⟩ := startCompaction_works params hi level
    refine ⟨hown, h.flags.works hown hi ?_ hworks,
      hframe.numLevels.trans h.numLevels, fun j reason hj => h.panics j reason (hframe.panics hj)⟩
    rintro id ⟨l, heq | heq⟩ <;> cases heq
  · have hsame : startCompaction params s i level = s := if_neg fun hcond => hi hcond.1
    rw [hsame]
    exact h

theorem protocolInv_installs
    {c : Compaction} {t : SortedTable}
    (h : ProtocolInv params s)
    (hown : OwnInv params.numLevels s'.shared)
    (hinst : Installs params.numLevels s s' i c t) :
    ProtocolInv params s' := by
  refine ⟨hown, h.flags.installs h.numLevels hinst, ?_, ?_⟩
  · rw [hinst.manifest]
    exact (Manifest.updateTableSet_header _ _ _).2.1.trans h.numLevels
  · intro j reason hj
    have htasks : s'.tasks = s.tasks.set i _ := hinst.installed.tasks
    rw [htasks] at hj
    rcases getElem?_set_cases hj with ⟨-, heq⟩ | ⟨-, hold⟩
    · cases hout : (s.manifest.updateTableSet [(c.level + 1, t.getId)] (removeSet c)).2 with
      | none =>
          rw [hout] at heq
          cases heq
      | some r =>
          rw [hout] at heq
          cases heq
          exact ⟨r, rfl⟩
    · exact h.panics j reason hold

theorem protocolInv_taskStep
    (h : ProtocolInv params s)
    (i : Nat) :
    ProtocolInv params (taskStep params s i) := by
  have hown := ownInv_taskStep h.own i
  rcases taskStep_cases h.own i with hframe | ⟨pc, c, t, -, -, hinst⟩
  · refine ⟨hown, ?_, hframe.numLevels.trans h.numLevels,
      fun j reason hj => h.panics j reason (hframe.panics hj)⟩
    cases hi : s.tasks[i]? with
    | none =>
        simpa only [taskStep, hi] using h.flags
    | some pc =>
        by_cases hlost : ∃ id, pc.Lost id
        · obtain ⟨id, l, rfl | rfl⟩ := hlost <;> simpa only [taskStep, hi] using h.flags
        · cases hpc : pc.toInstall with
          | none =>
              obtain ⟨pc', hworks⟩ := taskStep_works h.own hi hpc
              exact h.flags.works hown hi (fun id hid => hlost ⟨id, hid⟩) hworks
          | some c =>
              cases hread : s.isRead c.level || s.isRead (c.level + 1) with
              | true =>
                  rw [taskStep_waits params hi hpc hread]
                  exact h.flags
              | false =>
                  obtain ⟨t, hinst⟩ := taskStep_installs params h.own hi hpc hread
                  exact h.flags.installs h.numLevels hinst
  · exact protocolInv_installs h hown hinst

theorem protocolInv_step
    (params : Params) (s : DbState) (e : DbEvent)
    (h : ProtocolInv params s) :
    ProtocolInv params (step params s e) := by
  cases e with
  | write batch =>
      refine h.same (shared_writeOpts params s batch) ?_
      simp only [step, writeOpts]
      split_ifs <;> rfl
  | getBegin client key =>
      exact h.same (shared_getBegin s client key) (unnoticed_getBegin s client key).numLevels
  | getNext client =>
      exact h.same (shared_getNext params s client) (unnoticed_getNext params s client).numLevels
  | flusher =>
      have hstep := flusherStep_doMemtableCompaction params s
      refine ⟨ownInv_doMemtableCompaction h.own, h.flags.doMemtableCompaction params,
        hstep.numLevels.trans h.numLevels, ?_⟩
      intro i reason hi
      exact h.panics i reason (hstep.tasks ▸ hi)
  | compact i level =>
      exact protocolInv_startCompaction h level
  | task i =>
      exact protocolInv_taskStep h i

theorem protocolInv_run
    (params : Params) (numTasks : Nat) (events : List DbEvent) :
    ProtocolInv params ((DbState.new params numTasks).run params events) :=
  Runs.invariant (protocolInv_step params) (protocolInv_new params numTasks) events

/-- The ownership protocol, in every reachable state.  No table is an input of two
compactions; a task panics nowhere but in the manifest, so every assertion of the protocol
holds; and a task that has returned from `compact_level` left nothing behind: each
placeholder belongs to another task, and each flagged table of a level is held by another
task, or that task was moving it when it panicked. -/
theorem compaction_protocol
    (params : Params) (numTasks : Nat) (events : List DbEvent) (i : Nat) :
    let s := (DbState.new params numTasks).run params events
    (∀ (j : Nat) (pc pc' : TaskPc), i ≠ j → s.tasks[i]? = some pc → s.tasks[j]? = some pc' →
        ∀ t ∈ pc.held.inputs, ∀ u ∈ pc'.held.inputs, t.getId ≠ u.getId) ∧
      (∀ reason, s.tasks[i]? = some (.panicked reason) → ∃ r, reason = .manifest r) ∧
      (s.tasks[i]? = some .idle →
        (∀ l, ∀ p ∈ s.placeholders l, ∃ (j : Nat) (pc : TaskPc), j ≠ i ∧
          s.tasks[j]? = some pc ∧ pc.held.level + 1 = l ∧ pc.placeholder = some p) ∧
        ∀ l, ∀ t ∈ s.tables l, s.compactionFlag t.getId = true →
          ∃ (j : Nat) (pc : TaskPc), j ≠ i ∧ s.tasks[j]? = some pc ∧
            (t ∈ pc.held.inputs ∨ pc.Lost t.getId)) := by
  intro s
  have h : ProtocolInv params s := protocolInv_run params numTasks events
  refine ⟨?_, h.panics i, ?_⟩
  · intro j pc pc' hij hi hj t ht u hu
    exact (h.own.separate i j pc pc' hij hi hj).1 t ht u hu
  · intro hidle
    constructor
    · intro l p hp
      obtain ⟨j, pc, hj, hl, hpc⟩ := h.own.owners l p hp
      refine ⟨j, pc, ?_, hj, hl, hpc⟩
      rintro rfl
      obtain rfl : pc = .idle := Option.some.inj (hj.symm.trans hidle)
      cases hpc
    · intro l t ht hflag
      obtain ⟨j, pc, hj, howner⟩ := h.flags.owned l t ht hflag
      refine ⟨j, pc, ?_, hj, howner⟩
      rintro rfl
      obtain rfl : pc = .idle := Option.some.inj (hj.symm.trans hidle)
      rcases howner with hheld | ⟨level, heq | heq⟩
      · cases hheld
      · cases heq
      · cases heq

end Runs

end Logic
end LsmStore
