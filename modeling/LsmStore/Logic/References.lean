import LsmStore.Logic.Versions
import LsmStore.Logic.WisckeySteps
import LsmStore.Values.Tracking

/-!
# Which values the tables refer to

A table that a lookup may find, or that the flusher is about to add, refers to
one value for each of its puts.  No value is referred to twice.  A compaction
that has written its table refers to the values of the entries it has picked;
what it has overridden is referred to by its inputs alone, and by nobody once
they are gone.
-/

namespace LsmStore
namespace Logic

open KeyedList Values

namespace WisckeyState

/-! ## What the merge picks -/

/-- What a round of the merge has found in some tables. -/
structure Picked (tables : List SortedTable) (key : Key)
    (found : Option (SortedTable × MemtableEntry) × List SortedTable) : Prop where
  nothing : found.1 = none → ∀ t ∈ tables, t.get key = none
  newest : ∀ t e, found.1 = some (t, e) → t ∈ tables ∧ t.get key = some e ∧
    ∀ u ∈ tables, ∀ e', u.get key = some e' → e'.getSeqNumber ≤ e.getSeqNumber
  overridden : ∀ u ∈ found.2, u ∈ tables ∧ ∃ e t e', u.get key = some e ∧
    found.1 = some (t, e') ∧ e.getSeqNumber < e'.getSeqNumber

section Rounds

variable {tables : List SortedTable} {key : Key} {t : SortedTable}
  {best : Option (SortedTable × MemtableEntry)} {overridden : List SortedTable}

/-- One more table without anything newer. -/
theorem Picked.keep
    (h : Picked tables key (best, overridden))
    (hle : ∀ e, t.get key = some e →
      ∃ t' e', best = some (t', e') ∧ e.getSeqNumber ≤ e'.getSeqNumber) :
    Picked (tables ++ [t]) key (best, overridden) where
  nothing := by
    intro hbest u hu
    rcases List.mem_append.mp hu with hold | hnew
    · exact h.nothing hbest u hold
    · rw [List.mem_singleton.mp hnew]
      cases hget : t.get key with
      | none =>
          rfl
      | some e =>
          obtain ⟨t', e', hsome, -⟩ := hle e hget
          rw [hsome] at hbest
          cases hbest
  newest := by
    intro t' e' hbest
    obtain ⟨hmem, hget, hmax⟩ := h.newest t' e' hbest
    refine ⟨List.mem_append_left _ hmem, hget, ?_⟩
    intro u hu eu hu'
    rcases List.mem_append.mp hu with hold | hnew
    · exact hmax u hold eu hu'
    · rw [List.mem_singleton.mp hnew] at hu'
      obtain ⟨t'', e'', hsome, hle'⟩ := hle eu hu'
      cases hbest.symm.trans hsome
      exact hle'
  overridden := fun u hu =>
    ⟨List.mem_append_left _ (h.overridden u hu).1, (h.overridden u hu).2⟩

/-- One more table with the newest entry. -/
theorem Picked.take
    {e : MemtableEntry} {overridden' : List SortedTable}
    (hget : t.get key = some e)
    (hmax : ∀ u ∈ tables, ∀ e', u.get key = some e' → e'.getSeqNumber ≤ e.getSeqNumber)
    (hold : ∀ u ∈ overridden', u ∈ tables ∧ ∃ e', u.get key = some e' ∧
      e'.getSeqNumber < e.getSeqNumber) :
    Picked (tables ++ [t]) key (some (t, e), overridden') where
  nothing := by
    intro hbest
    cases hbest
  newest := by
    intro t' e' hbest
    cases hbest
    refine ⟨List.mem_append_right _ (List.mem_singleton.mpr rfl), hget, ?_⟩
    intro u hu eu hu'
    rcases List.mem_append.mp hu with hmem | hnew
    · exact hmax u hmem eu hu'
    · rw [List.mem_singleton.mp hnew, hget] at hu'
      cases hu'
      exact le_refl _
  overridden := by
    intro u hu
    obtain ⟨hmem, e', hget', hlt⟩ := hold u hu
    exact ⟨List.mem_append_left _ hmem, e', t, e, hget', rfl, hlt⟩

theorem Picked.concat
    (h : Picked tables key (best, overridden))
    (t : SortedTable) :
    Picked (tables ++ [t]) key (pickTable key (best, overridden) t) := by
  cases ht : t.get key with
  | none =>
      simp only [pickTable, ht]
      refine h.keep ?_
      intro e he
      rw [ht] at he
      cases he
  | some e =>
      cases best with
      | none =>
          simp only [pickTable, ht]
          refine Picked.take ht ?_ ?_
          · intro u hu e' he'
            rw [h.nothing rfl u hu] at he'
            cases he'
          · intro u hu
            obtain ⟨-, e', t', e'', -, hbest, -⟩ := h.overridden u hu
            cases hbest
      | some other =>
          obtain ⟨hmem, hget, hmax⟩ := h.newest other.1 other.2 rfl
          by_cases hlt : other.2.getSeqNumber < e.getSeqNumber
          · simp only [pickTable, ht, if_pos hlt]
            refine Picked.take ht ?_ ?_
            · intro u hu e' he'
              exact le_of_lt (lt_of_le_of_lt (hmax u hu e' he') hlt)
            · intro u hu
              rcases List.mem_append.mp hu with hold | hnew
              · obtain ⟨humem, eu, t', e', hgetu, hbest, hltu⟩ := h.overridden u hold
                cases hbest
                exact ⟨humem, eu, hgetu, lt_trans hltu hlt⟩
              · rw [List.mem_singleton.mp hnew]
                exact ⟨hmem, other.2, hget, hlt⟩
          · simp only [pickTable, ht, if_neg hlt]
            refine h.keep ?_
            intro e' he'
            cases ht.symm.trans he'
            exact ⟨other.1, other.2, rfl, not_lt.mp hlt⟩

end Rounds

/-- **A round of the merge.** -/
theorem picked_pick
    (tables : List SortedTable) (key : Key) :
    Picked tables key (pick tables key) := by
  induction tables using List.reverseRecOn with
  | nil =>
      refine ⟨?_, ?_, ?_⟩
      · intro _ t ht
        cases ht
      · intro t e h
        cases h
      · intro u hu
        cases hu
  | append_singleton tables t ih =>
      rw [pick, List.foldl_append]
      exact ih.concat t

theorem mergedIds_eq_some
    {ids : Nat → Key → Option ValueId} {tables : List SortedTable} {key : Key} {vid : ValueId}
    (h : mergedIds ids tables key = some vid) :
    ∃ t e, (pick tables key).1 = some (t, e) ∧ t ∈ tables ∧ ids t.getId key = some vid := by
  obtain ⟨⟨t, e⟩, hpick, hid⟩ := Option.bind_eq_some_iff.mp h
  exact ⟨t, e, hpick, ((picked_pick tables key).newest t e hpick).1, hid⟩

/-- Each of `deleted_values` is the reference of an entry that was overridden. -/
theorem mem_deletedValues
    {ids : Nat → Key → Option ValueId} {tables : List SortedTable} {values : List ValueId}
    {vid : ValueId}
    (h : deletedValues ids tables = some values)
    (hvid : vid ∈ values) :
    ∃ key, ∃ u ∈ (pick tables key).2, ids u.getId key = some vid := by
  unfold deletedValues at h
  dsimp only at h
  split_ifs at h
  cases h
  obtain ⟨reference, href, rfl⟩ := List.mem_filterMap.mp hvid
  obtain ⟨entry, -, hmem⟩ := List.mem_flatMap.mp href
  obtain ⟨u, hu, hid⟩ := List.mem_map.mp hmem
  exact ⟨entry.1, u, hu, hid⟩

/-! ## Tables and their references -/

end WisckeyState

/-- The table is on a level, or the flusher is about to add it. -/
def Placed (s : DbState) (t : SortedTable) : Prop :=
  (∃ level, t ∈ s.tables level) ∨ ∃ logOffset mem, s.flusher = .adding logOffset mem t

theorem Placed.congr
    {s s' : DbState} {t : SortedTable}
    (htables : s'.tables = s.tables)
    (hflusher : s'.flusher = s.flusher)
    (h : Placed s' t) :
    Placed s t := by
  rw [Placed, htables, hflusher] at h
  exact h

/-- A flusher that does not write a table places none. -/
theorem placed_doMemtableCompaction
    {params : Params} {s : DbState} {t : SortedTable}
    (hpc : ∀ logOffset mem tableId, s.flusher ≠ .writing logOffset mem tableId)
    (h : Placed (doMemtableCompaction params s) t) :
    Placed s t := by
  have hcalls : ∀ call next, (∀ logOffset mem t, next ≠ .adding logOffset mem t) →
      Placed (s.flusherCalls call next) t → Placed s t := by
    rintro ⟨manifest, outcome⟩ next hnext (hlevel | ⟨logOffset, mem, hadding⟩)
    · cases outcome <;> exact Or.inl hlevel
    · cases outcome with
      | none =>
          exact absurd hadding (hnext logOffset mem t)
      | some reason =>
          cases hadding
  have hstep := flusherStep_doMemtableCompaction params s
  generalize doMemtableCompaction params s = s' at h hstep
  cases hstep with
  | stay =>
      exact h
  | write hwriting hne =>
      exact absurd hwriting (hpc _ _ _)
  | @add logOffset mem table hadding hread =>
      rcases h with ⟨level, hlevel⟩ | ⟨logOffset', mem', hother⟩
      · rcases DbState.mem_tables_addL0Table.mp hlevel with hold | ⟨-, rfl⟩
        · exact Or.inl ⟨level, hold⟩
        · exact Or.inr ⟨logOffset, mem, hadding⟩
      · cases hother
  | setSeqNumber | register | setLogOffset =>
      exact hcalls _ _ (fun _ _ _ hnext => by cases hnext) h
  | start | reserve | setOffset | removePage | truncated | pop | failEmpty | failOffset |
    failPop =>
      rcases h with hlevel | ⟨logOffset', mem', hother⟩
      · exact Or.inl hlevel
      · cases hother

theorem exists_level_of_claim
    {s : DbState} {c : Compaction} {u : SortedTable}
    (h : Claim s.shared c)
    (hu : u ∈ c.inputs) :
    ∃ level, u ∈ s.tables level := by
  rcases List.mem_append.mp hu with hparent | hchild
  · exact ⟨_, h.parents_mem u hparent⟩
  · exact ⟨_, h.children_mem u hchild⟩

theorem placed_of_mem_inputs
    {numLevels : Nat} {s : DbState} {i : Nat} {pc : TaskPc} {u : SortedTable}
    (h : OwnInv numLevels s.shared)
    (hi : s.tasks[i]? = some pc)
    (hu : u ∈ pc.held.inputs) :
    Placed s u :=
  Or.inl (exists_level_of_claim (h.tasks i pc hi).claim hu)

/-- An identifier a task has reserved is none of a table that is placed. -/
theorem getId_ne_of_reserved
    {numLevels : Nat} {s : DbState} {i id : Nat} {pc : TaskPc} {t : SortedTable}
    (h : OwnInv numLevels s.shared)
    (hi : s.tasks[i]? = some pc)
    (hid : pc.reserved = some id)
    (ht : Placed s t) :
    t.getId ≠ id := by
  obtain ⟨hfresh, hpending⟩ := (h.tasks i pc hi).fresh id hid
  rcases ht with ⟨level, hlevel⟩ | ⟨logOffset, mem, hadding⟩
  · exact hfresh.2 level t hlevel
  · intro heq
    apply hpending
    change s.flusher.pendingId = some id
    rw [hadding, ← heq]
    rfl

namespace WisckeyState

/-- Some placed table refers to the value. -/
def Referenced (s : WisckeyState) (vid : ValueId) : Prop :=
  ∃ t key, Placed s.db t ∧ s.valueIds t.getId key = some vid

/-- A table that is to be installed has its entries and its references from its inputs. -/
structure FromInputs (ids : Nat → Key → Option ValueId) (c : Compaction) (t : SortedTable) :
    Prop where
  refs : ∀ key vid, ids t.getId key = some vid → ∃ u ∈ c.inputs, ids u.getId key = some vid
  values : ∀ key n value, t.get key = some (.value n value) →
    ∃ u ∈ c.inputs, u.get key = some (.value n value) ∧ ids u.getId key = ids t.getId key

/-- An input refers to the value, and the table that is to be installed does not. -/
def OnlyInputs (ids : Nat → Key → Option ValueId) (c : Compaction) (t : SortedTable)
    (vid : ValueId) : Prop :=
  (∃ u ∈ c.inputs, ∃ key, ids u.getId key = some vid) ∧ ∀ key, ids t.getId key ≠ some vid

/-- Every put of a placed table has its value in the log, no value is referred to twice, and
values that are being marked are not referred to any more. -/
structure ReferenceInv (s : WisckeyState) : Prop where
  tracks : Tracks s.vlog s.Referenced
  ends : s.flusherFailed = false → s.vlog.pages.Ends s.vlog.metadata.nextBatch
  stored : ∀ t, Placed s.db t → ∀ key n value, t.get key = some (.value n value) →
    ∃ vid, s.valueIds t.getId key = some vid ∧ s.vlog.getValue vid = .value value
  unique : ∀ t u key key' vid, Placed s.db t → Placed s.db u →
    s.valueIds t.getId key = some vid → s.valueIds u.getId key' = some vid → t = u ∧ key = key'
  installing : ∀ (i : Nat) c t, s.db.tasks[i]? = some (.installing c t) →
    FromInputs s.valueIds c t
  merged : ∀ (i : Nat) c t values, s.db.tasks[i]? = some (.installing c t) →
    s.collectors[i]? = some (.merged values) → ∀ vid ∈ values, OnlyInputs s.valueIds c t vid
  marking : ∀ (i : Nat) c values reinsert, s.collectors[i]? = some (.marking c values reinsert) →
    ∀ vid ∈ values, ¬ s.Referenced vid ∧ vid.2 % 8 = 0 ∧ vid.1 < s.vlog.metadata.nextBatch

section Keep

variable {s s' : WisckeyState} {ids ids' : Nat → Key → Option ValueId} {c : Compaction}
  {t : SortedTable}

theorem FromInputs.congr
    (h : FromInputs ids c t)
    (htable : ids' t.getId = ids t.getId)
    (hinputs : ∀ u ∈ c.inputs, ids' u.getId = ids u.getId) :
    FromInputs ids' c t where
  refs := by
    intro key vid hid
    rw [htable] at hid
    obtain ⟨u, hu, huid⟩ := h.refs key vid hid
    exact ⟨u, hu, by rw [hinputs u hu]; exact huid⟩
  values := by
    intro key n value hget
    obtain ⟨u, hu, huget, huid⟩ := h.values key n value hget
    exact ⟨u, hu, huget, by rw [hinputs u hu, htable]; exact huid⟩

theorem OnlyInputs.congr
    {vid : ValueId}
    (h : OnlyInputs ids c t vid)
    (htable : ids' t.getId = ids t.getId)
    (hinputs : ∀ u ∈ c.inputs, ids' u.getId = ids u.getId) :
    OnlyInputs ids' c t vid := by
  obtain ⟨⟨u, hu, key, huid⟩, hnot⟩ := h
  refine ⟨⟨u, hu, key, by rw [hinputs u hu]; exact huid⟩, ?_⟩
  rw [htable]
  exact hnot

/-- A step after which no other tables are placed, and no values marked that are referred to. -/
structure Retains (s s' : WisckeyState) (marks : ValueId → Prop) : Prop where
  placed : ∀ t, Placed s'.db t → Placed s.db t
  fades : Fades marks s.vlog s'.vlog
  marks : ∀ vid, marks vid → ¬ s.Referenced vid ∧ vid.2 % 8 = 0
  flusherFailed : s'.flusherFailed = s.flusherFailed
  valueIds : ∀ t, Placed s.db t → s'.valueIds t.getId = s.valueIds t.getId
  installing : ∀ (i : Nat) c t, s'.db.tasks[i]? = some (.installing c t) →
    (s.db.tasks[i]? = some (.installing c t) ∧ s'.valueIds t.getId = s.valueIds t.getId) ∨
      FromInputs s'.valueIds c t
  merged : ∀ (i : Nat) c t values, s'.db.tasks[i]? = some (.installing c t) →
    s'.collectors[i]? = some (.merged values) →
      (s.db.tasks[i]? = some (.installing c t) ∧ s.collectors[i]? = some (.merged values) ∧
        s'.valueIds t.getId = s.valueIds t.getId) ∨
      ∀ vid ∈ values, OnlyInputs s'.valueIds c t vid
  marking : ∀ (i : Nat) c values reinsert,
    s'.collectors[i]? = some (.marking c values reinsert) → ∀ vid ∈ values,
      ∃ c' values' reinsert', s.collectors[i]? = some (.marking c' values' reinsert') ∧
        vid ∈ values'

theorem getValue_congr
    {vlog vlog' : ValueLog} {vid : ValueId}
    (h : vlog'.batchFiles vid.1 = vlog.batchFiles vid.1) :
    vlog'.getValue vid = vlog.getValue vid := by
  rw [ValueLog.getValue, ValueLog.getValue, ValueLog.getBatch, ValueLog.getBatch, h]

theorem ReferenceInv.retains
    {numLevels : Nat} {marks : ValueId → Prop}
    (h : ReferenceInv s)
    (hown : OwnInv numLevels s.db.shared)
    (hretains : Retains s s' marks) :
    ReferenceInv s' := by
  have hreferenced : ∀ vid, s'.Referenced vid → s.Referenced vid := by
    rintro vid ⟨t, key, ht, hid⟩
    have hplaced := hretains.placed t ht
    exact ⟨t, key, hplaced, by rw [← hretains.valueIds t hplaced]; exact hid⟩
  have hinputs : ∀ (i : Nat) c t, s.db.tasks[i]? = some (.installing c t) →
      ∀ u ∈ c.inputs, s'.valueIds u.getId = s.valueIds u.getId := by
    intro i c t hi u hu
    exact hretains.valueIds u (placed_of_mem_inputs hown hi hu)
  refine ⟨?_, ?_, ?_, ?_, ?_, ?_, ?_⟩
  · exact (h.tracks.fades hretains.fades hretains.marks).mono hreferenced
  · intro halive
    rw [hretains.fades.nextBatch]
    exact hretains.fades.pages.ends _ (h.ends (hretains.flusherFailed ▸ halive))
  · intro t ht key n value hget
    have hplaced := hretains.placed t ht
    obtain ⟨vid, hid, hvalue⟩ := h.stored t hplaced key n value hget
    have hused : s.Referenced vid := ⟨t, key, hplaced, hid⟩
    refine ⟨vid, by rw [hretains.valueIds t hplaced]; exact hid, ?_⟩
    rw [getValue_congr (h.tracks.file_stays hretains.fades hretains.marks hused)]
    exact hvalue
  · intro t u key key' vid ht hu hid hid'
    have ht' := hretains.placed t ht
    have hu' := hretains.placed u hu
    rw [hretains.valueIds t ht'] at hid
    rw [hretains.valueIds u hu'] at hid'
    exact h.unique t u key key' vid ht' hu' hid hid'
  · intro i c t hi
    rcases hretains.installing i c t hi with ⟨hold, hids⟩ | hnew
    · exact (h.installing i c t hold).congr hids (hinputs i c t hold)
    · exact hnew
  · intro i c t values hi hcol
    rcases hretains.merged i c t values hi hcol with ⟨hold, hcol', hids⟩ | hnew
    · intro vid hvid
      exact (h.merged i c t values hold hcol' vid hvid).congr hids (hinputs i c t hold)
    · exact hnew
  · intro i c values reinsert hcol vid hvid
    obtain ⟨c', values', reinsert', hold, hvid'⟩ :=
      hretains.marking i c values reinsert hcol vid hvid
    obtain ⟨hnot, haligned, hmade⟩ := h.marking i c' values' reinsert' hold vid hvid'
    refine ⟨fun href => hnot (hreferenced vid href), haligned, ?_⟩
    rw [hretains.fades.nextBatch]
    exact hmade

end Keep

end WisckeyState

end Logic
end LsmStore
