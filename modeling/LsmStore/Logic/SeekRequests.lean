import LsmStore.Logic.SortedLevels

/-!
# Requests for a seek-based compaction

A table whose seeks have run out writes its identifier into a field of its
level, where `maybe_start_compaction` finds it; the field takes one request at
a time.  Lookups set the field and the choice of a table clears it, but nothing
touches it when the table that it names leaves the level, be it compacted for
another reason, merged as a child of the level above, or moved.

The field is up to date in all states of a run exactly if no installation takes
a requested table away.  A request that is left behind is not found, and as long
as it stands no other one is taken.  It stands for the rest of the run:
identifiers are not used twice, and tables do not come back to a level.
-/

namespace LsmStore

open KeyedList

namespace Level

/-- The request is free, or names a table of the level. -/
def RequestValid (level : Level) : Prop :=
  level.seekBasedCompaction = invalidTableId ∨
    level.seekBasedCompaction ∈ tableIds level.tables

instance (level : Level) : Decidable level.RequestValid :=
  inferInstanceAs (Decidable (_ ∨ _))

/-- The next choice that is not made by size takes the requested table, and the field is free
again. -/
def RequestFound (level : Level) (index : Nat) : Prop :=
  level.sizeBasedCompaction index = false →
    ∃ table offset, table.getId = level.seekBasedCompaction ∧
      level.choose index =
        ({ level with seekBasedCompaction := invalidTableId }, .table table offset)

/-- A lookup leaves the request as it is or registers a table it looks at. -/
theorem searchTables_request
    (params : Params) (key : Key) (ts : List SortedTable) (st : SeekState) :
    (searchTables params key ts st).1.seekBasedCompaction = st.seekBasedCompaction ∨
      (searchTables params key ts st).1.seekBasedCompaction ∈ tableIds ts := by
  induction ts generalizing st with
  | nil =>
      exact Or.inl rfl
  | cons t ts ih =>
      have hseek : (seekTable params t st).seekBasedCompaction = st.seekBasedCompaction ∨
          (seekTable params t st).seekBasedCompaction = t.getId := by
        unfold seekTable
        dsimp only
        split_ifs
        · exact Or.inr rfl
        · exact Or.inl rfl
      have hhead : (seekTable params t st).seekBasedCompaction = st.seekBasedCompaction ∨
          (seekTable params t st).seekBasedCompaction ∈ tableIds (t :: ts) :=
        hseek.imp_right fun heq => List.mem_cons.mpr (Or.inl heq)
      rw [searchTables]
      split
      · exact hhead
      · rcases ih (seekTable params t st) with heq | hmem
        · rw [heq]
          exact hhead
        · exact Or.inr (List.mem_cons_of_mem _ hmem)

theorem RequestValid.get
    {level : Level}
    (h : level.RequestValid)
    (params : Params) (allowedSeeks : Nat → Int32) (key : Key) :
    RequestValid { level with
      seekBasedCompaction := (level.get params allowedSeeks key).1.seekBasedCompaction } := by
  rcases searchTables_request params key level.tables.reverse
    ⟨allowedSeeks, level.seekBasedCompaction, false⟩ with heq | hmem
  · exact h.imp heq.trans fun hid => heq.symm ▸ hid
  · refine Or.inr ?_
    rw [tableIds, List.map_reverse, List.mem_reverse] at hmem
    exact hmem

/-- A request that names a table of the level is found. -/
theorem requestFound_of_mem
    {level : Level}
    (hne : level.seekBasedCompaction ≠ invalidTableId)
    (hmem : level.seekBasedCompaction ∈ tableIds level.tables)
    (index : Nat) :
    level.RequestFound index := by
  intro hsize
  obtain ⟨t, ht, hid⟩ := List.mem_map.mp hmem
  have hlt : level.tables.findIdx (fun t => t.getId == level.seekBasedCompaction) <
      level.tables.length :=
    List.findIdx_lt_length_of_exists ⟨t, ht, beq_iff_eq.mpr hid⟩
  refine ⟨level.tables.get ⟨_, hlt⟩,
    level.tables.findIdx (fun t => t.getId == level.seekBasedCompaction), ?_, ?_⟩
  · exact beq_iff_eq.mp (List.findIdx_getElem (w := hlt))
  · rw [choose, if_neg (by simp [hsize]), if_neg hne]
    simp only [List.getElem?_eq_getElem hlt]
    rfl

/-- As long as the field is taken, no lookup registers another table. -/
theorem searchTables_of_taken
    (params : Params) (key : Key) (ts : List SortedTable) {st : SeekState}
    (h : st.seekBasedCompaction ≠ invalidTableId) :
    (searchTables params key ts st).1.seekBasedCompaction = st.seekBasedCompaction := by
  have hseek : ∀ t (st : SeekState), st.seekBasedCompaction ≠ invalidTableId →
      (seekTable params t st).seekBasedCompaction = st.seekBasedCompaction := by
    intro t st h
    rw [seekTable, if_neg fun hcond => h hcond.2.2]
  induction ts generalizing st with
  | nil =>
      rfl
  | cons t ts ih =>
      rw [searchTables]
      split
      · exact hseek t st h
      · rw [ih (by rw [hseek t st h]; exact h), hseek t st h]

/-- A choice does not find a request that names no table of its level. -/
theorem choose_of_stale
    {level : Level}
    (hstale : ¬ level.RequestValid)
    {index : Nat}
    (hsize : level.sizeBasedCompaction index = false) :
    level.choose index = (level, .nothingToDo) := by
  obtain ⟨hne, hmem⟩ := not_or.mp hstale
  have hlen : level.tables.length ≤
      level.tables.findIdx (fun t => t.getId == level.seekBasedCompaction) := by
    rw [List.findIdx_eq_length_of_false]
    intro t ht
    exact beq_eq_false_iff_ne.mpr fun heq => hmem (heq ▸ List.mem_map_of_mem ht)
  rw [choose, if_neg (by simp [hsize]), if_neg hne]
  simp only [List.getElem?_eq_none hlen]

/-- A choice leaves the request as it is, or clears one that names a table of the level. -/
theorem choose_request
    (level : Level) (index : Nat) :
    (level.choose index).1.seekBasedCompaction = level.seekBasedCompaction ∨
      level.RequestValid ∧ (level.choose index).1.seekBasedCompaction = invalidTableId := by
  by_cases hsize : level.sizeBasedCompaction index = true
  · left
    rw [choose, if_pos hsize]
    dsimp only
    split <;> rfl
  · by_cases hstale : level.RequestValid
    · rw [choose, if_neg hsize]
      split_ifs
      · exact Or.inl rfl
      · dsimp only
        split
        · exact Or.inl rfl
        · exact Or.inr ⟨hstale, rfl⟩
    · rw [choose_of_stale hstale (Bool.eq_false_of_not_eq_true hsize)]
      exact Or.inl rfl

end Level

namespace Logic

/-- The request of a level. -/
def DbState.request (s : DbState) (level : Nat) : Nat :=
  (s.levels level).seekBasedCompaction

section Requests

variable {s : DbState}

theorem DbState.request_setLevel
    (s : DbState) (level : Nat) (value : Level) (l : Nat) :
    (s.setLevel level value).request l =
      if l = level then value.seekBasedCompaction else s.request l := by
  by_cases hl : l = level
  · subst hl
    simp [request, setLevel]
  · simp [request, setLevel, hl]

/-- A level that is changed in other parts keeps its request. -/
theorem DbState.request_setLevel_same
    {level : Nat} {value : Level}
    (h : value.seekBasedCompaction = s.request level) :
    (s.setLevel level value).request = s.request := by
  funext l
  rw [DbState.request_setLevel]
  split_ifs with hl
  · rw [h, hl]
  · rfl

theorem request_congr
    {s' : DbState}
    (h : s'.levels = s.levels) :
    s'.request = s.request := by
  funext l
  rw [DbState.request, DbState.request, h]

theorem FlusherStep.request
    {params : Params} {s' : DbState}
    (h : FlusherStep params s s') :
    s'.request = s.request := by
  have hcalls : ∀ call next, (s.flusherCalls call next).levels = s.levels := by
    rintro ⟨manifest, outcome⟩ next
    cases outcome <;> rfl
  cases h with
  | add hpc hread =>
      exact (request_congr rfl).trans (DbState.request_setLevel_same rfl)
  | setSeqNumber hpc =>
      exact request_congr (hcalls _ _)
  | register hpc =>
      exact request_congr (hcalls _ _)
  | setLogOffset hpc =>
      exact request_congr (hcalls _ _)
  | _ =>
      rfl

/-- A task leaves the requests alone, also when it takes tables away. -/
theorem request_taskStep
    {params : Params}
    (h : OwnInv params.numLevels s.shared)
    (i : Nat) :
    (taskStep params s i).request = s.request := by
  rcases taskStep_cases h i with hframe | ⟨-, c, t, -, -, hinst⟩
  · exact funext hframe.requests
  · exact funext hinst.requests

/-- The protocol, with a table of its level behind every request. -/
structure RequestInv (params : Params) (s : DbState) : Prop where
  own : OwnInv params.numLevels s.shared
  valid : ∀ l, (s.levels l).RequestValid

theorem requestValid_iff
    {l : Nat} :
    (s.levels l).RequestValid ↔
      s.request l = invalidTableId ∨ s.request l ∈ tableIds (s.tables l) :=
  Iff.rfl

/-- One level is replaced, and its request with another only if both are up to date. -/
theorem request_of_setLevel
    {s' : DbState} {level : Nat} {value : Level}
    (hlevels : s'.levels = (s.setLevel level value).levels)
    (hvalue : value.seekBasedCompaction = s.request level ∨
      (s.levels level).RequestValid ∧ value.RequestValid)
    (l : Nat) :
    s'.request l = s.request l ∨
      (s.levels l).RequestValid ∧ (s'.levels l).RequestValid := by
  have hupdate : s'.levels l = Function.update s.levels level value l := congrFun hlevels l
  rw [DbState.request, hupdate]
  by_cases hl : l = level
  · subst hl
    rw [Function.update_self]
    exact hvalue
  · rw [Function.update_of_ne hl]
    exact Or.inl rfl

/-- A lookup sets a request that is free. -/
theorem request_getNext
    (params : Params) (s : DbState) (client l : Nat) :
    (getNext params s client).request l = s.request l ∨
      (s.levels l).RequestValid ∧ ((getNext params s client).levels l).RequestValid := by
  unfold getNext
  split
  · exact Or.inl rfl
  · split <;> exact Or.inl rfl
  · rename_i key start level triggered _
    have hvalue : ((s.levels level).get params s.allowedSeeks key).1.seekBasedCompaction =
        s.request level ∨ (s.levels level).RequestValid ∧ Level.RequestValid
          { s.levels level with seekBasedCompaction :=
            ((s.levels level).get params s.allowedSeeks key).1.seekBasedCompaction } := by
      by_cases hfree : s.request level = invalidTableId
      · exact Or.inr ⟨Or.inl hfree, Level.RequestValid.get (Or.inl hfree) params _ key⟩
      · exact Or.inl (Level.searchTables_of_taken params key _ hfree)
    unfold getLevel
    dsimp only
    split
    · exact request_of_setLevel rfl hvalue l
    · split_ifs <;> exact request_of_setLevel rfl hvalue l
  · exact Or.inl rfl

theorem request_startCompaction
    (params : Params) (s : DbState) (i level l : Nat) :
    (startCompaction params s i level).request l = s.request l ∨
      (s.levels l).RequestValid ∧
        ((startCompaction params s i level).levels l).RequestValid := by
  have hvalue := ((s.levels level).choose_request level).imp_right fun h =>
    (⟨h.1, Or.inl h.2⟩ : _ ∧ Level.RequestValid _)
  unfold startCompaction
  split_ifs
  · dsimp only
    split <;> exact request_of_setLevel rfl hvalue l
  · exact Or.inl rfl

/-- **What an event does to a request**: nothing, or one that is up to date is replaced by
another. -/
theorem request_step
    {params : Params}
    (h : OwnInv params.numLevels s.shared)
    (e : DbEvent) (l : Nat) :
    (step params s e).request l = s.request l ∨
      (s.levels l).RequestValid ∧ ((step params s e).levels l).RequestValid := by
  cases e with
  | write batch =>
      refine Or.inl (congrFun (request_congr ?_) l)
      simp only [step, writeOpts]
      split_ifs <;> rfl
  | getBegin client key =>
      refine Or.inl (congrFun (request_congr ?_) l)
      simp only [step, getBegin]
      split <;> rfl
  | getNext client =>
      exact request_getNext params s client l
  | flusher =>
      exact Or.inl (congrFun (flusherStep_doMemtableCompaction params s).request l)
  | compact i level =>
      exact request_startCompaction params s i level l
  | task i =>
      exact Or.inl (congrFun (request_taskStep h i) l)

end Requests

/-! ## Tables that do not come back -/

/-- The identifier was handed out, and no table of the level or above has it or will get it. -/
structure Retired (g : Shared) (l id : Nat) : Prop where
  handedOut : id < g.nextTableId
  gone : ∀ l' ≤ l, ∀ t ∈ g.tables l', t.getId ≠ id
  pending : g.pending ≠ some id
  reserved : ∀ pc ∈ g.tasks, pc.reserved ≠ some id

section Retired

variable {params : Params} {numLevels i l id : Nat} {s s' : DbState} {c : Compaction}
  {t : SortedTable}

theorem reserved_afterUpdate
    (outcome : Option ManifestPanic) :
    (afterUpdate outcome).reserved = none := by
  cases outcome <;> rfl

theorem Retired.of_unnoticed
    (h : Retired s.shared l id)
    (hframe : Unnoticed s s') :
    Retired s'.shared l id := by
  have htables : s'.shared.tables = s.shared.tables := hframe.tables
  have hpending : s'.shared.pending = s.shared.pending :=
    congrArg FlusherPc.pendingId hframe.flusher
  refine ⟨lt_of_lt_of_le h.handedOut hframe.nextTableId, ?_, ?_, fun pc hpc hid => ?_⟩
  · rw [htables]
    exact h.gone
  · rw [hpending]
    exact h.pending
  · obtain ⟨j, hj⟩ := List.getElem?_of_mem hpc
    have hplain : pc.isPlain = false := by
      cases pc <;> first | rfl | cases hid
    rcases hframe.tasks with ⟨-, hold⟩ | ⟨k, c, t, hk, htasks, -⟩
    · rcases hold j pc hj hplain with hold | ⟨c, rfl⟩
      · exact h.reserved pc (List.mem_of_getElem? hold) hid
      · exact absurd (Option.some.inj hid).symm (ne_of_lt h.handedOut)
    · change s'.tasks[j]? = some pc at hj
      rw [htasks] at hj
      rcases getElem?_set_cases hj with ⟨-, rfl⟩ | ⟨-, hold⟩
      · exact h.reserved _ (List.mem_of_getElem? hk) hid
      · exact h.reserved pc (List.mem_of_getElem? hold) hid

theorem Installs.reserved
    (hinst : Installs numLevels s s' i c t)
    (h : ∀ pc ∈ s.tasks, pc.reserved ≠ some id) :
    ∀ pc ∈ s'.tasks, pc.reserved ≠ some id := by
  intro pc hpc
  have htasks : s'.tasks = s.tasks.set i _ := hinst.installed.tasks
  rw [htasks] at hpc
  rcases List.mem_or_eq_of_mem_set hpc with hold | rfl
  · exact h pc hold
  · rw [reserved_afterUpdate]
    exact nofun

theorem Retired.of_installs
    (h : Retired s.shared l id)
    (hinst : Installs numLevels s s' i c t) :
    Retired s'.shared l id := by
  refine ⟨hinst.installed.next ▸ h.handedOut, fun l' hl' u hu => ?_,
    hinst.installed.pending ▸ h.pending, hinst.reserved h.reserved⟩
  rcases (hinst.ready.mem_iff hinst.installed l' u).mp hu with ⟨rfl, rfl⟩ | ⟨hold, -⟩
  · -- the new table has a reserved identifier, or comes from the level above
    obtain ⟨pc, hi, -, -, -, hreserved | ⟨hparents, -⟩⟩ := hinst.ready.at_pc
    · intro hid
      exact h.reserved pc (List.mem_of_getElem? hi) (hid ▸ hreserved)
    · exact h.gone c.level (by omega) u
        (hinst.ready.claim.parents_mem u (by simp [hparents]))
  · exact h.gone l' hl' u hold

/-- The new table does not have the identifier of a child. -/
theorem Ready.child_id_ne
    {numLevels i : Nat} {g : Shared} {c : Compaction} {t u : SortedTable}
    (h : Ready numLevels g i c t)
    (hu : u ∈ c.children) :
    t.getId ≠ u.getId := by
  obtain ⟨pc, hi, -, -, -, hnew⟩ := h.at_pc
  rcases hnew with hres | ⟨-, hnone⟩
  · exact Ne.symm (((h.inv.tasks i pc hi).fresh _ hres).1.2 _ u (h.claim.children_mem u hu))
  · rw [hnone] at hu
    cases hu

/-- A table that an installation takes away is retired. -/
theorem retired_of_input
    {u : SortedTable}
    (hinst : Installs numLevels s s' i c t)
    (hu : u ∈ s.tables l)
    (hin : u ∈ c.inputs) :
    Retired s'.shared l u.getId := by
  have hown := hinst.ready.inv
  refine ⟨hinst.installed.next ▸ hown.tables.lt_next l u hu, fun l' hl' w hw hid => ?_, ?_, ?_⟩
  · rcases (hinst.ready.mem_iff hinst.installed l' w).mp hw with ⟨rfl, rfl⟩ | ⟨hold, hnot⟩
    · rcases List.mem_append.mp hin with hparent | hchild
      · have := hown.tables.one_level l c.level u u hu (hinst.ready.claim.parents_mem u hparent)
          rfl
        omega
      · exact hinst.ready.child_id_ne hchild hid
    · obtain rfl := hown.tables.one_level l' l w u hold hu hid
      obtain rfl := List.inj_on_of_nodup_map (hown.tables.nodup l') hold hu hid
      exact hnot hin
  · rw [hinst.installed.pending]
    exact fun hpending => (hown.pending _ hpending).1.2 l u hu rfl
  · refine hinst.reserved fun pc hpc hid => ?_
    obtain ⟨j, hj⟩ := List.getElem?_of_mem hpc
    exact ((hown.tasks j pc hj).fresh _ hid).1.2 l u hu rfl

theorem Retired.step
    (h : Retired s.shared l id)
    (hown : OwnInv params.numLevels s.shared)
    (e : DbEvent) :
    Retired (step params s e).shared l id := by
  have hstep := dbStep_step hown e
  generalize Logic.step params s e = s' at hstep
  cases hstep with
  | write batch =>
      exact (shared_writeOpts params s batch).symm ▸ h
  | flusher =>
      rcases (flusherStep_doMemtableCompaction params s).shared_cases with
        heq | heq | ⟨t, hpending, -, heq⟩ | heq <;> rw [heq]
      · exact h
      · exact ⟨Nat.lt_succ_of_lt h.handedOut, h.gone,
          fun heq => absurd (Option.some.inj heq).symm (ne_of_lt h.handedOut), h.reserved⟩
      · refine ⟨h.handedOut, fun l' hl' u hu => ?_, nofun, h.reserved⟩
        rcases mem_update_concat.mp hu with hold | ⟨-, rfl⟩
        · exact h.gone l' hl' u hold
        · exact fun hid => h.pending (hid ▸ hpending)
      · exact ⟨h.handedOut, h.gone, nofun, h.reserved⟩
  | installs hi hpc hinst =>
      exact h.of_installs hinst
  | unnoticed hframe =>
      exact h.of_unnoticed hframe

theorem Retired.not_valid
    (h : Retired s.shared l (s.request l))
    (htaken : s.request l ≠ invalidTableId) :
    ¬ (s.levels l).RequestValid := by
  rintro (hfree | hmem)
  · exact htaken hfree
  · obtain ⟨t, ht, hid⟩ := List.mem_map.mp hmem
    exact h.gone l le_rfl t ht hid

end Retired

/-! ## What an event does to a request that is up to date -/

section Valid

variable {params : Params} {s : DbState}

/-- A request that is up to date stays so, or a task takes the requested table away. -/
theorem requestValid_step
    {l : Nat}
    (hown : OwnInv params.numLevels s.shared)
    (h : (s.levels l).RequestValid)
    (e : DbEvent) :
    ((step params s e).levels l).RequestValid ∨
      ∃ i pc c t, ∃ u ∈ s.tables l, e = .task i ∧ s.tasks[i]? = some pc ∧
        pc.toInstall = some c ∧ Installs params.numLevels s (step params s e) i c t ∧
        u ∈ c.inputs ∧ u.getId = s.request l ∧ s.request l ≠ invalidTableId := by
  rcases request_step hown e l with hrequest | ⟨-, hvalid⟩
  · rw [requestValid_iff, hrequest]
    rcases requestValid_iff.mp h with hfree | hmem
    · exact Or.inl (Or.inl hfree)
    · rcases step_tables_cases hown e with heq | ⟨t, heq⟩ | ⟨i, pc, c, t, rfl, hi, hpc, hinst⟩
      · rw [heq]
        exact Or.inl (Or.inr hmem)
      · rw [heq]
        obtain ⟨u, hu, hid⟩ := List.mem_map.mp hmem
        exact Or.inl (Or.inr (List.mem_map.mpr ⟨u, mem_update_concat.mpr (Or.inl hu), hid⟩))
      · obtain ⟨u, hu, hid⟩ := List.mem_map.mp hmem
        by_cases hkeeps : s.request l = invalidTableId ∨ u ∉ c.inputs
        · refine Or.inl (hkeeps.imp_right fun hnot => ?_)
          rw [← hid]
          exact List.mem_map_of_mem
            ((hinst.ready.mem_iff hinst.installed l u).mpr (Or.inr ⟨hu, hnot⟩))
        · obtain ⟨htaken, hin⟩ := not_or.mp hkeeps
          exact Or.inr ⟨i, pc, c, t, u, hu, rfl, hi, hpc, hinst, not_not.mp hin, hid, htaken⟩
  · exact Or.inl hvalid

/-- No table that an installation takes away is requested. -/
def RequestsKept (s : DbState) (c : Compaction) : Prop :=
  (s.request c.level = invalidTableId ∨ s.request c.level ∉ tableIds c.parents) ∧
    (s.request (c.level + 1) = invalidTableId ∨ s.request (c.level + 1) ∉ tableIds c.children)

instance (s : DbState) (c : Compaction) : Decidable (RequestsKept s c) :=
  inferInstanceAs (Decidable (_ ∧ _))

/-- The event does not install a table while one of the tables it takes away is requested. -/
def KeepsRequested (s : DbState) : DbEvent → Prop
  | .task i => ∀ pc ∈ s.tasks[i]?, ∀ c ∈ pc.toInstall,
      (s.isRead c.level || s.isRead (c.level + 1)) = true ∨ RequestsKept s c
  | _ => True

instance (s : DbState) : (e : DbEvent) → Decidable (KeepsRequested s e)
  | .task i => inferInstanceAs (Decidable (∀ pc ∈ s.tasks[i]?, ∀ c ∈ pc.toInstall,
      (s.isRead c.level || s.isRead (c.level + 1)) = true ∨ RequestsKept s c))
  | .write _ => isTrue trivial
  | .getBegin _ _ => isTrue trivial
  | .getNext _ => isTrue trivial
  | .flusher => isTrue trivial
  | .compact _ _ => isTrue trivial

/-- An installation meets the condition exactly if it keeps the requests. -/
theorem keepsRequested_iff
    {numLevels i : Nat} {s' : DbState} {pc : TaskPc} {c : Compaction} {t : SortedTable}
    (hi : s.tasks[i]? = some pc)
    (hpc : pc.toInstall = some c)
    (hinst : Installs numLevels s s' i c t) :
    KeepsRequested s (.task i) ↔ RequestsKept s c := by
  constructor
  · intro hcond
    refine (hcond pc hi c hpc).resolve_left ?_
    rw [hinst.isRead_eq_false]
    exact Bool.false_ne_true
  · intro hkept pc' hi' c' hpc'
    obtain rfl := Option.some.inj (hi.symm.trans hi')
    obtain rfl := Option.some.inj (hpc.symm.trans hpc')
    exact Or.inr hkept

theorem requestInv_step
    (params : Params) (s : DbState) (e : DbEvent)
    (hcond : KeepsRequested s e)
    (h : RequestInv params s) :
    RequestInv params (step params s e) := by
  refine ⟨ownInv_step params s e h.own, fun l => ?_⟩
  rcases requestValid_step h.own (h.valid l) e with
    hvalid | ⟨i, pc, c, t, u, hu, rfl, hi, hpc, hinst, hin, hid, htaken⟩
  · exact hvalid
  · exfalso
    have hkept := (keepsRequested_iff hi hpc hinst).mp hcond
    refine hinst.ready.not_mem_inputs hu ?_ ?_ hin
    · rintro rfl hparent
      exact hkept.1.resolve_left htaken (hid ▸ List.mem_map_of_mem hparent)
    · rintro rfl hchild
      exact hkept.2.resolve_left htaken (hid ▸ List.mem_map_of_mem hchild)

/-- An installation after which the requests are up to date has taken no requested table away. -/
theorem requestsKept_of_installs
    {numLevels i : Nat} {s' : DbState} {c : Compaction} {t : SortedTable}
    (hinst : Installs numLevels s s' i c t)
    (hvalid : ∀ l, (s'.levels l).RequestValid) :
    RequestsKept s c := by
  have hclaim := hinst.ready.claim
  have hgone : ∀ l, ∀ u ∈ s.tables l, u ∈ c.inputs → u.getId = s.request l →
      s.request l = invalidTableId := by
    intro l u hu hin hid
    by_contra htaken
    have hrequest : s'.request l = s.request l := hinst.requests l
    have hretired := retired_of_input hinst hu hin
    rw [hid, ← hrequest] at hretired
    exact hretired.not_valid (hrequest ▸ htaken) (hvalid l)
  refine ⟨or_iff_not_imp_left.mpr fun hfree hin => ?_,
    or_iff_not_imp_left.mpr fun hfree hin => ?_⟩
  · obtain ⟨p, hp, hid⟩ := List.mem_map.mp hin
    exact hfree (hgone _ p (hclaim.parents_mem p hp) (List.mem_append_left _ hp) hid)
  · obtain ⟨p, hp, hid⟩ := List.mem_map.mp hin
    exact hfree (hgone _ p (hclaim.children_mem p hp) (List.mem_append_right _ hp) hid)

/-- An event after which the requests are up to date has met the condition. -/
theorem RequestInv.keepsRequested
    {params : Params} {e : DbEvent}
    (h : RequestInv params s)
    (hvalid : ∀ l, ((step params s e).levels l).RequestValid) :
    KeepsRequested s e := by
  cases e with
  | task i =>
      intro pc hi c hpc
      cases hread : s.isRead c.level || s.isRead (c.level + 1) with
      | true =>
          exact Or.inl rfl
      | false =>
          obtain ⟨t, hinst⟩ := taskStep_installs params h.own hi hpc hread
          exact Or.inr (requestsKept_of_installs hinst hvalid)
  | _ =>
      trivial

end Valid

/-- The request of every level is free or names a table of the level, which is then found by
the next choice that is not made by size. -/
def DbState.RequestsOk (s : DbState) : Prop :=
  ∀ l, s.request l = invalidTableId ∨
    (s.request l ∈ tableIds (s.tables l) ∧ (s.levels l).RequestFound l)

theorem DbState.requestsOk_iff
    (s : DbState) :
    s.RequestsOk ↔ ∀ l, (s.levels l).RequestValid := by
  constructor
  · intro h l
    exact (h l).imp_right And.left
  · intro h l
    refine or_iff_not_imp_left.mpr fun hfree => ?_
    have hmem := (h l).resolve_left hfree
    exact ⟨hmem, Level.requestFound_of_mem hfree hmem l⟩

/-- The requests are up to date in every state of a run exactly if no event of the run installs
a table while a table that it takes away is requested. -/
theorem seek_requests_ok_iff
    (params : Params) (numTasks : Nat) (events : List DbEvent) :
    (∀ k, ((DbState.new params numTasks).run params (events.take k)).RequestsOk) ↔
      Runs.Along (step params) KeepsRequested (DbState.new params numTasks) events := by
  have hnew : RequestInv params (DbState.new params numTasks) :=
    ⟨ownInv_new params numTasks, fun _ => Or.inl rfl⟩
  refine Runs.forall_take_iff_along (requestInv_step params) ?_ ?_ hnew events
  · intro s h
    exact s.requestsOk_iff.mpr h.valid
  · intro s e h hok
    exact h.keepsRequested ((step params s e).requestsOk_iff.mp hok)

/-- The small configuration, with one seek for every table. -/
def seekParams : Params :=
  { smallParams with seekBasedCompaction := some 1 }

/-- Five tables of one key; a lookup of another key uses up the seeks of the last one, and the
compaction of level 0, which is due, merges all five. -/
def seekThenCompact : List DbEvent :=
  [1, 2, 3, 4, 5].flatMap (flushPut 1) ++
    .getBegin 0 (ByteVec.ofList [9]) :: List.replicate 2 (.getNext 0) ++
      .compact 0 0 :: List.replicate 28 (.task 0)

/-- The request of level 0 names a table that was merged. -/
theorem merged_table_stays_requested :
    let s := (DbState.new seekParams 1).run seekParams seekThenCompact
    s.request 0 = 5 ∧ s.tables 0 = [] ∧ tableIds (s.tables 1) = [6] ∧ ¬ s.RequestsOk := by
  intro s
  have hrequest : s.request 0 = 5 := by decide +kernel
  have htables : s.tables 0 = [] := by decide +kernel
  refine ⟨hrequest, htables, by decide +kernel, fun hok => ?_⟩
  rcases hok 0 with hfree | ⟨hmem, -⟩
  · rw [hrequest] at hfree
    cases hfree
  · rw [htables] at hmem
    cases hmem

/-! ## Requests that are left behind -/

/-- Every request is up to date, or names a table that does not come back. -/
structure SeenInv (params : Params) (s : DbState) : Prop where
  own : OwnInv params.numLevels s.shared
  seen : ∀ l, (s.levels l).RequestValid ∨ Retired s.shared l (s.request l)

section Stale

variable {params : Params} {s : DbState}

theorem seenInv_step
    (params : Params) (s : DbState) (e : DbEvent)
    (h : SeenInv params s) :
    SeenInv params (step params s e) := by
  refine ⟨ownInv_step params s e h.own, fun l => ?_⟩
  rcases h.seen l with hvalid | hretired
  · rcases requestValid_step h.own hvalid e with
      hvalid | ⟨i, pc, c, t, u, hu, -, -, -, hinst, hin, hid, -⟩
    · exact Or.inl hvalid
    · right
      have hrequest : (step params s e).request l = s.request l := hinst.requests l
      rw [hrequest, ← hid]
      exact retired_of_input hinst hu hin
  · rcases request_step h.own e l with hrequest | ⟨-, hvalid⟩
    · rw [hrequest]
      exact Or.inr (hretired.step h.own e)
    · exact Or.inl hvalid

theorem seenInv_run
    (params : Params) (numTasks : Nat) (events : List DbEvent) :
    SeenInv params ((DbState.new params numTasks).run params events) :=
  Runs.invariant (seenInv_step params)
    ⟨ownInv_new params numTasks, fun _ => Or.inl (Or.inl rfl)⟩ events

/-- The request is left behind. -/
structure LeftBehind (params : Params) (l id : Nat) (s : DbState) : Prop where
  own : OwnInv params.numLevels s.shared
  retired : Retired s.shared l id
  taken : id ≠ invalidTableId
  request : s.request l = id

theorem LeftBehind.not_valid
    {l id : Nat}
    (h : LeftBehind params l id s) :
    ¬ (s.levels l).RequestValid := by
  obtain ⟨-, hretired, htaken, rfl⟩ := h
  exact hretired.not_valid htaken

theorem LeftBehind.run
    {l id : Nat}
    (h : LeftBehind params l id s)
    (events : List DbEvent) :
    LeftBehind params l id (s.run params events) := by
  refine Runs.invariant (I := LeftBehind params l id) (fun s e h => ?_) h events
  refine ⟨ownInv_step params s e h.own, h.retired.step h.own e, h.taken, ?_⟩
  rcases request_step h.own e l with hrequest | ⟨hvalid, -⟩
  · exact hrequest.trans h.request
  · exact absurd hvalid h.not_valid

/-- No compaction is started for a request that is not found. -/
theorem startCompaction_of_stale
    {level : Nat}
    (hstale : ¬ (s.levels level).RequestValid)
    (hsize : (s.levels level).sizeBasedCompaction level = false)
    (params : Params) (i : Nat) :
    startCompaction params s i level = s := by
  unfold startCompaction
  rw [Level.choose_of_stale hstale hsize]
  split_ifs
  · dsimp only
    rw [DbState.setLevel, Function.update_eq_self]
  · rfl

end Stale

/-- **A request that is left behind blocks its level**: once a request of a run names no table
of its level, it stays as it is in every continuation, names no table of the level, and no
compaction of the level is started unless it is due by size. -/
theorem stale_request_blocks
    (params : Params) (numTasks : Nat) (before after : List DbEvent) (l : Nat)
    (hstale : ¬ (((DbState.new params numTasks).run params before).levels l).RequestValid) :
    let s := (DbState.new params numTasks).run params (before ++ after)
    s.request l = ((DbState.new params numTasks).run params before).request l ∧
      s.request l ∉ tableIds (s.tables l) ∧
      ((s.levels l).sizeBasedCompaction l = false →
        ∀ i, startCompaction params s i l = s) := by
  have hseen := seenInv_run params numTasks before
  have hleft : LeftBehind params l _ ((DbState.new params numTasks).run params before) :=
    ⟨hseen.own, (hseen.seen l).resolve_left hstale, (not_or.mp hstale).1, rfl⟩
  intro s
  have hrun : LeftBehind params l
      (((DbState.new params numTasks).run params before).request l) s := by
    have happend : s = ((DbState.new params numTasks).run params before).run params after :=
      Runs.run_append (step params) _ before after
    rw [happend]
    exact hleft.run after
  exact ⟨hrun.request, (not_or.mp hrun.not_valid).2,
    fun hsize i => startCompaction_of_stale hrun.not_valid hsize params i⟩

/-- Two further tables, and a lookup that uses up the seeks of the second. -/
def seekAgain : List DbEvent :=
  flushPut 1 6 ++ flushPut 1 7 ++
    .getBegin 0 (ByteVec.ofList [9]) :: List.replicate 2 (.getNext 0)

/-- The seeks of a table have run out, but the compaction it should get is not started. -/
theorem stale_request_blocks_seeks :
    let s := (DbState.new seekParams 1).run seekParams (seekThenCompact ++ seekAgain)
    tableIds (s.tables 0) = [7, 8] ∧ s.allowedSeeks 8 = 0 ∧ s.request 0 = 5 ∧
      startCompaction seekParams s 0 0 = s := by
  have hstale : ¬ (((DbState.new seekParams 1).run seekParams seekThenCompact).levels
      0).RequestValid := by
    decide +kernel
  obtain ⟨hrequest, -, hblocked⟩ :=
    stale_request_blocks seekParams 1 seekThenCompact seekAgain 0 hstale
  exact ⟨by decide +kernel, by decide +kernel, hrequest.trans (by decide +kernel),
    hblocked (by decide +kernel) 0⟩

end Logic
end LsmStore
