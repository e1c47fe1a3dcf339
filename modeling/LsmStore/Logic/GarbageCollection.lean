import LsmStore.Logic.References

/-!
# Collecting values that nobody refers to

A flush writes values and places a table that refers to them; a merge moves
references to a new table and leaves the overridden ones to its inputs; an
installation takes the inputs away, and the values they alone referred to can be
marked.  None of these steps, and none of the others, lets a value go that a
lookup may find.

What the collector does beside, inserting entries again, is a different matter:
the entries it inserts are not the ones a client wrote last.
-/

namespace LsmStore
namespace Logic

open KeyedList Values

namespace WisckeyState

/-! ## Installing a table -/

section Install

variable {numLevels : Nat} {s s' : WisckeyState} {i : Nat} {c : Compaction} {t : SortedTable}

/-- An installation, with or without its call of the manifest. -/
structure Replaces (numLevels : Nat) (s s' : DbState) (i : Nat) (c : Compaction)
    (t : SortedTable) : Prop where
  ready : Ready numLevels s.shared i c t
  source : s.tasks[i]? = some (.installing c t) ∨ c.parents = [t]
  flusher : s'.flusher = s.flusher
  installed : ∃ pc, Installed s.shared s'.shared i c t pc ∧ ∀ c' t', pc ≠ .installing c' t'

theorem replaces_of_installs
    {s s' : DbState}
    (hinst : Installs numLevels s s' i c t) :
    Replaces numLevels s s' i c t where
  ready := hinst.ready
  source := hinst.source
  flusher := by rw [hinst.frame]
  installed := ⟨_, hinst.installed, afterUpdate_ne_installing _⟩

theorem replaces_installLists
    {s : DbState}
    (hinst : Installs numLevels s (installTable s i c t) i c t) :
    Replaces numLevels s (installLists s i c t) i c t where
  ready := hinst.ready
  source := hinst.source
  flusher := by
    have hflusher : (installTable s i c t).flusher = s.flusher := by rw [hinst.frame]
    exact hflusher
  installed := ⟨.idle, installed_installLists hinst, nofun⟩

/-- What is placed after an installation. -/
theorem placed_replaces
    {s s' : DbState} {u : SortedTable}
    (hinst : Replaces numLevels s s' i c t)
    (hu : Placed s' u) :
    u = t ∨ (Placed s u ∧ u ∉ c.inputs) := by
  obtain ⟨pc, hinstalled, -⟩ := hinst.installed
  rcases hu with ⟨level, hlevel⟩ | ⟨logOffset, mem, hadding⟩
  · rcases (hinst.ready.mem_iff hinstalled level u).mp hlevel with ⟨-, rfl⟩ | ⟨hold, hnot⟩
    · exact Or.inl rfl
    · exact Or.inr ⟨Or.inl ⟨level, hold⟩, hnot⟩
  · rw [hinst.flusher] at hadding
    refine Or.inr ⟨Or.inr ⟨logOffset, mem, hadding⟩, ?_⟩
    -- the table of the flusher is on no level
    have hpending : s.shared.pending = some u.getId := by
      change s.flusher.pendingId = _
      rw [hadding]
      rfl
    have hfresh := (hinst.ready.inv.pending _ hpending).1.2
    intro hmem
    rcases List.mem_append.mp hmem with hparent | hchild
    · exact hfresh _ u (hinst.ready.claim.parents_mem u hparent) rfl
    · exact hfresh _ u (hinst.ready.claim.children_mem u hchild) rfl

theorem placed_inputs
    {s s' : DbState} {u : SortedTable}
    (hinst : Replaces numLevels s s' i c t)
    (hu : u ∈ c.inputs) :
    Placed s u :=
  Or.inl (exists_level_of_claim hinst.ready.claim hu)

/-- A table that is moved is its own input. -/
theorem ReferenceInv.fromInputs
    (h : ReferenceInv s)
    (hinst : Replaces numLevels s.db s'.db i c t) :
    FromInputs s.valueIds c t := by
  rcases hinst.source with hi | hparents
  · exact h.installing i c t hi
  · have hmem : t ∈ c.inputs := List.mem_append_left _ (by simp [hparents])
    exact ⟨fun key vid hid => ⟨t, hmem, hid⟩, fun key n value hget => ⟨t, hmem, hget, rfl⟩⟩

/-- **An installation**: the values the inputs alone referred to are free. -/
theorem ReferenceInv.replaces
    (h : ReferenceInv s)
    (hinst : Replaces numLevels s.db s'.db i c t)
    (hids : s'.valueIds = s.valueIds)
    (hvlog : s'.vlog = s.vlog)
    (hfailed : s'.flusherFailed = s.flusherFailed)
    (hmerged : ∀ (j : Nat) values, s'.collectors[j]? = some (.merged values) →
      s.collectors[j]? = some (.merged values))
    (hmarking : ∀ (j : Nat) c' values reinsert,
      s'.collectors[j]? = some (.marking c' values reinsert) →
        s.collectors[j]? = some (.marking c' values reinsert) ∨
          (s.collectors[i]? = some (.merged values) ∧
            s.db.tasks[i]? = some (.installing c t))) :
    ReferenceInv s' := by
  have hfrom := h.fromInputs hinst
  have hreferenced : ∀ vid, s'.Referenced vid → s.Referenced vid := by
    rintro vid ⟨u, key, hu, hid⟩
    rw [hids] at hid
    rcases placed_replaces hinst hu with rfl | ⟨hold, -⟩
    · obtain ⟨w, hw, hwid⟩ := hfrom.refs key vid hid
      exact ⟨w, key, placed_inputs hinst hw, hwid⟩
    · exact ⟨u, key, hold, hid⟩
  -- a table that stays does not share a value with the new one
  have hapart : ∀ u key key' vid, Placed s.db u → u ∉ c.inputs →
      s.valueIds t.getId key = some vid → s.valueIds u.getId key' ≠ some vid := by
    intro u key key' vid hu hnot hid hid'
    obtain ⟨w, hw, hwid⟩ := hfrom.refs key vid hid
    obtain ⟨rfl, -⟩ := h.unique u w key' key vid hu (placed_inputs hinst hw) hid' hwid
    exact hnot hw
  have hinstalling : ∀ (j : Nat) c' t', s'.db.tasks[j]? = some (.installing c' t') →
      s.db.tasks[j]? = some (.installing c' t') := by
    intro j c' t' hj
    obtain ⟨pc, hinstalled, hpc⟩ := hinst.installed
    have htasks : s'.db.tasks = s.db.tasks.set i pc := hinstalled.tasks
    rw [htasks] at hj
    rcases getElem?_set_cases hj with ⟨-, heq⟩ | ⟨-, hold⟩
    · exact absurd heq.symm (hpc c' t')
    · exact hold
  refine ⟨?_, ?_, ?_, ?_, ?_, ?_, ?_⟩
  · rw [hvlog]
    exact h.tracks.mono hreferenced
  · rw [hvlog, hfailed]
    exact h.ends
  · intro u hu key n value hget
    rw [hids, hvlog]
    rcases placed_replaces hinst hu with rfl | ⟨hold, -⟩
    · obtain ⟨w, hw, hwget, hwid⟩ := hfrom.values key n value hget
      obtain ⟨vid, hid, hvalue⟩ := h.stored w (placed_inputs hinst hw) key n value hwget
      exact ⟨vid, hwid ▸ hid, hvalue⟩
    · exact h.stored u hold key n value hget
  · intro u w key key' vid hu hw hid hid'
    rw [hids] at hid hid'
    rcases placed_replaces hinst hu with rfl | ⟨hu', hunot⟩
    · rcases placed_replaces hinst hw with rfl | ⟨hw', hwnot⟩
      · obtain ⟨x, hx, hxid⟩ := hfrom.refs key vid hid
        obtain ⟨y, hy, hyid⟩ := hfrom.refs key' vid hid'
        exact ⟨rfl, (h.unique x y key key' vid (placed_inputs hinst hx)
          (placed_inputs hinst hy) hxid hyid).2⟩
      · exact absurd hid' (hapart w key key' vid hw' hwnot hid)
    · rcases placed_replaces hinst hw with rfl | ⟨hw', -⟩
      · exact absurd hid (hapart u key' key vid hu' hunot hid')
      · exact h.unique u w key key' vid hu' hw' hid hid'
  · intro j c' t' hj
    rw [hids]
    exact h.installing j c' t' (hinstalling j c' t' hj)
  · intro j c' t' values hj hcol
    rw [hids]
    exact h.merged j c' t' values (hinstalling j c' t' hj) (hmerged j values hcol)
  · intro j c' values reinsert hcol vid hvid
    rw [hvlog]
    rcases hmarking j c' values reinsert hcol with hold | ⟨hcol', hi⟩
    · obtain ⟨hnot, hrest⟩ := h.marking j c' values reinsert hold vid hvid
      exact ⟨fun href => hnot (hreferenced vid href), hrest⟩
    · obtain ⟨⟨w, hw, key, hwid⟩, hnot⟩ := h.merged i c t values hi hcol' vid hvid
      have hplaced := placed_inputs hinst hw
      have halive := h.tracks.alive vid ⟨w, key, hplaced, hwid⟩
      refine ⟨?_, halive.aligned, halive.made⟩
      rintro ⟨u, key', hu, hid⟩
      rw [hids] at hid
      rcases placed_replaces hinst hu with rfl | ⟨hold, hunot⟩
      · exact hnot key' hid
      · obtain ⟨rfl, -⟩ := h.unique u w key' key vid hold hplaced hid hwid
        exact hunot hw

end Install

/-! ## Merging -/

section Merge

variable {params : Params} {s : WisckeyState} {i tableId : Nat} {c : Compaction}

/-- On the levels a sequence number belongs to one entry of a key. -/
theorem entry_unique
    {db : DbState} {t u : SortedTable} {key : Key} {e e' : MemtableEntry} {level level' : Nat}
    (hver : VersionInv params db)
    (ht : t ∈ db.tables level)
    (hu : u ∈ db.tables level')
    (he : t.get key = some e)
    (he' : u.get key = some e')
    (hseq : e.getSeqNumber = e'.getSeqNumber) :
    e = e' :=
  hver.eq_of_seqNumber_eq ((hver.mem_lookupPath_iff key e).mpr ⟨level + 2, t, ht, he⟩)
    ((hver.mem_lookupPath_iff key e').mpr ⟨level' + 2, u, hu, he'⟩) hseq

/-- The merged table has the entry that was picked. -/
theorem picked_of_merged_get
    {key : Key} {entry : MemtableEntry} {hne : c.inputs ≠ []}
    (hver : VersionInv params s.db)
    (hlevels : ∀ u ∈ c.inputs, ∃ level, u ∈ s.db.tables level)
    (hget : (SortedTable.merged params tableId c.inputs hne).get key = some entry) :
    ∃ t ∈ c.inputs, (pick c.inputs key).1 = some (t, entry) ∧ t.get key = some entry := by
  have hpicked := picked_pick c.inputs key
  obtain ⟨u, hu, huget⟩ := SortedTable.merged_get_some hget
  cases hpick : (pick c.inputs key).1 with
  | none =>
      rw [hpicked.nothing hpick u hu] at huget
      cases huget
  | some found =>
      obtain ⟨t, e⟩ := found
      obtain ⟨ht, htget, hmax⟩ := hpicked.newest t e hpick
      obtain ⟨newer, hnewer, hle⟩ :=
        SortedTable.merged_get_of_input params tableId hne ht htget
      obtain rfl : newer = entry := Option.some.inj (hnewer.symm.trans hget)
      obtain ⟨level, hlevel⟩ := hlevels t ht
      obtain ⟨level', hlevel'⟩ := hlevels u hu
      have hsame := entry_unique hver hlevel hlevel' htget huget
        (le_antisymm hle (hmax u hu newer huget))
      subst hsame
      exact ⟨t, ht, rfl, htget⟩

/-- The references of the merged table are those of the entries it has. -/
theorem fromInputs_merged
    {hne : c.inputs ≠ []}
    (hver : VersionInv params s.db)
    (hlevels : ∀ u ∈ c.inputs, ∃ level, u ∈ s.db.tables level)
    {ids : Nat → Key → Option ValueId}
    (htable : ids tableId = mergedIds s.valueIds c.inputs)
    (hinputs : ∀ u ∈ c.inputs, ids u.getId = s.valueIds u.getId) :
    FromInputs ids c (SortedTable.merged params tableId c.inputs hne) where
  refs := by
    intro key vid hid
    have hid' : mergedIds s.valueIds c.inputs key = some vid := (congrFun htable key).symm.trans hid
    obtain ⟨t, e, -, ht, htid⟩ := mergedIds_eq_some hid'
    exact ⟨t, ht, by rw [hinputs t ht]; exact htid⟩
  values := by
    intro key n value hget
    obtain ⟨t, ht, hpick, htget⟩ := picked_of_merged_get hver hlevels hget
    refine ⟨t, ht, htget, ?_⟩
    change ids t.getId key = ids tableId key
    rw [htable, hinputs t ht, mergedIds, hpick]
    rfl

/-- What was overridden is not a reference of the merged table. -/
theorem onlyInputs_merged
    {hne : c.inputs ≠ []} {values : List ValueId} {vid : ValueId}
    (h : ReferenceInv s)
    (hplaced : ∀ u ∈ c.inputs, Placed s.db u)
    (hvalues : deletedValues s.valueIds c.inputs = some values)
    (hvid : vid ∈ values)
    {ids : Nat → Key → Option ValueId}
    (htable : ids tableId = mergedIds s.valueIds c.inputs)
    (hinputs : ∀ u ∈ c.inputs, ids u.getId = s.valueIds u.getId) :
    OnlyInputs ids c (SortedTable.merged params tableId c.inputs hne) vid := by
  obtain ⟨key, u, hu, huid⟩ := mem_deletedValues hvalues hvid
  obtain ⟨humem, e, t, e', huget, hpick, hlt⟩ := (picked_pick c.inputs key).overridden u hu
  refine ⟨⟨u, humem, key, by rw [hinputs u humem]; exact huid⟩, ?_⟩
  intro key' hid
  have hid' : mergedIds s.valueIds c.inputs key' = some vid :=
    (congrFun htable key').symm.trans hid
  obtain ⟨w, ew, hpick', hw, hwid⟩ := mergedIds_eq_some hid'
  -- the value is referred to once, so the table that was picked has been overridden
  obtain ⟨rfl, rfl⟩ := h.unique w u key' key vid (hplaced w hw) (hplaced u humem) hwid huid
  rw [hpick] at hpick'
  cases hpick'
  have hget := ((picked_pick c.inputs key').newest t e' hpick).2.1
  rw [hget] at huget
  cases huget
  exact absurd hlt (lt_irrefl _)

/-- **A merge** moves references to its table. -/
theorem retains_merge
    {values : List ValueId}
    (h : ReferenceInv s)
    (hver : VersionInv params s.db)
    (htask : s.db.tasks[i]? = some (.merging c tableId))
    (hvalues : deletedValues s.valueIds (c.parents ++ c.children) = some values) :
    Retains s
      { s.setCollector i (.merged values) with
        db := taskStep params s.db i
        valueIds := Function.update s.valueIds tableId
          (mergedIds s.valueIds (c.parents ++ c.children)) }
      fun _ => False := by
  have hlevels : ∀ u ∈ c.inputs, ∃ level, u ∈ s.db.tables level :=
    fun u hu => exists_level_of_claim (hver.own.tasks i _ htask).claim hu
  have hplaced : ∀ u ∈ c.inputs, Placed s.db u := fun u hu => Or.inl (hlevels u hu)
  have hids : ∀ t, Placed s.db t → Function.update s.valueIds tableId
      (mergedIds s.valueIds (c.parents ++ c.children)) t.getId = s.valueIds t.getId :=
    fun t ht => Function.update_of_ne (getId_ne_of_reserved hver.own htask rfl ht) _ _
  have hne : c.inputs ≠ [] := by
    intro hnil
    exact ((hver.own.tasks i _ htask).closed rfl).nonempty (List.append_eq_nil_iff.mp hnil).1
  have hdb : taskStep params s.db i =
      (s.db.writeTable params (SortedTable.merged params tableId c.inputs hne)).setTask i
        (.installing c (SortedTable.merged params tableId c.inputs hne)) := by
    simp only [taskStep, htask]
    exact dif_pos hne
  -- another task has reserved another table
  have hother : ∀ (j : Nat) c' t', j ≠ i → s.db.tasks[j]? = some (.installing c' t') →
      t'.getId ≠ tableId := by
    intro j c' t' hji hj heq
    exact (hver.own.separate j i _ _ hji hj htask).reserved tableId (congrArg some heq) rfl
  have htasks : (taskStep params s.db i).tasks = s.db.tasks.set i
      (.installing c (SortedTable.merged params tableId c.inputs hne)) := by
    rw [hdb]
    rfl
  refine ⟨?_, Fades.refl h.tracks.ok, fun _ hfalse => hfalse.elim, rfl, hids, ?_, ?_, ?_⟩
  · intro t ht
    change Placed (taskStep params s.db i) t at ht
    rw [hdb] at ht
    exact ht
  · intro j c' t' hj
    change (taskStep params s.db i).tasks[j]? = _ at hj
    rw [htasks] at hj
    rcases getElem?_set_cases hj with ⟨-, heq⟩ | ⟨hji, hold⟩
    · cases heq
      exact Or.inr (fromInputs_merged hver hlevels (Function.update_self _ _ _)
        fun u hu => hids u (hplaced u hu))
    · exact Or.inl ⟨hold, Function.update_of_ne (hother j c' t' hji hold) _ _⟩
  · intro j c' t' values' hj hcol
    change (taskStep params s.db i).tasks[j]? = _ at hj
    rw [htasks] at hj
    rcases getElem?_set_cases hj with ⟨rfl, heq⟩ | ⟨hji, hold⟩
    · cases heq
      rcases getElem?_set_cases hcol with ⟨-, heq⟩ | ⟨hne, -⟩
      · cases heq
        exact Or.inr fun vid hvid => onlyInputs_merged h hplaced hvalues hvid
          (Function.update_self _ _ _) fun u hu => hids u (hplaced u hu)
      · exact absurd rfl hne
    · rcases getElem?_set_cases hcol with ⟨heq, -⟩ | ⟨-, hcol'⟩
      · exact absurd heq hji
      · exact Or.inl ⟨hold, hcol', Function.update_of_ne (hother j c' t' hji hold) _ _⟩
  · intro j c' values' reinsert hcol vid hvid
    rcases getElem?_set_cases hcol with ⟨-, heq⟩ | ⟨-, hold⟩
    · cases heq
    · exact ⟨c', values', reinsert, hold, hvid⟩

end Merge

/-! ## Writing values -/

section Assign

variable {values : List (Key × Value)} {ids : List ValueId} {key key' : Key} {vid : ValueId}

theorem assign_eq_some
    (h : assign values ids key = some vid) :
    ∃ value, ((key, value), vid) ∈ values.zip ids := by
  obtain ⟨⟨⟨k, value⟩, id⟩, hfind, rfl⟩ := Option.map_eq_some_iff.mp h
  obtain rfl : k = key := by simpa using List.find?_some hfind
  exact ⟨value, List.mem_of_find?_eq_some hfind⟩

theorem assign_of_mem
    {value : Value}
    (hkeys : (values.map Prod.fst).Nodup)
    (hlength : values.length ≤ ids.length)
    (h : ((key, value), vid) ∈ values.zip ids) :
    assign values ids key = some vid := by
  have hzip : ((values.zip ids).map fun entry => entry.1.1).Nodup := by
    have hmap := congrArg (List.map Prod.fst) (List.map_fst_zip hlength)
    rw [List.map_map] at hmap
    exact hmap ▸ hkeys
  cases hfind : (values.zip ids).find? fun entry => entry.1.1 == key with
  | none =>
      have := List.find?_eq_none.mp hfind _ h
      simp at this
  | some entry =>
      have hkey : entry.1.1 = key := by simpa using List.find?_some hfind
      have hsame := List.inj_on_of_nodup_map hzip (List.mem_of_find?_eq_some hfind) h hkey
      rw [assign, hfind, hsame]
      rfl

theorem assign_inj
    (hids : ids.Nodup)
    (hlength : ids.length ≤ values.length)
    (h : assign values ids key = some vid)
    (h' : assign values ids key' = some vid) :
    key = key' := by
  obtain ⟨value, hmem⟩ := assign_eq_some h
  obtain ⟨value', hmem'⟩ := assign_eq_some h'
  have hzip : ((values.zip ids).map Prod.snd).Nodup := by
    rw [List.map_snd_zip hlength]
    exact hids
  exact congrArg (fun entry => entry.1.1) (List.inj_on_of_nodup_map hzip hmem hmem' rfl)

theorem mem_memtableValues
    {mem : Memtable} {value : Value} {n : Nat}
    (h : (key, .value n value) ∈ mem.entries) :
    (key, value) ∈ memtableValues mem :=
  List.mem_filterMap.mpr ⟨_, h, rfl⟩

theorem nodup_keys_memtableValues
    (mem : Memtable) :
    ((memtableValues mem).map Prod.fst).Nodup := by
  refine List.pairwise_map.mpr (List.Pairwise.filterMap _ ?_ mem.sorted)
  intro a b hlt x hx y hy
  obtain ⟨v, -, rfl⟩ := Option.map_eq_some_iff.mp hx
  obtain ⟨w, -, rfl⟩ := Option.map_eq_some_iff.mp hy
  exact ne_of_lt hlt

end Assign

section Write

variable {params : Params} {s : WisckeyState}

/-- A batch was added to the value log, and nobody refers to its values yet. -/
theorem ReferenceInv.grows
    {n : Nat} {vlog : ValueLog} {failed : Bool}
    (h : ReferenceInv s)
    (hgrows : Grows n s.vlog vlog)
    (hends : failed = false → vlog.pages.Ends vlog.metadata.nextBatch) :
    ReferenceInv { s with vlog := vlog, flusherFailed := failed } := by
  refine ⟨h.tracks.grows hgrows, hends, ?_, h.unique, h.installing, h.merged, ?_⟩
  · intro t ht key n value hget
    obtain ⟨vid, hid, hvalue⟩ := h.stored t ht key n value hget
    refine ⟨vid, hid, ?_⟩
    change vlog.getValue vid = _
    rw [getValue_congr (h.tracks.file_stays_grows hgrows ⟨t, key, ht, hid⟩)]
    exact hvalue
  · intro i c values reinsert hcol vid hvid
    obtain ⟨hnot, haligned, hmade⟩ := h.marking i c values reinsert hcol vid hvid
    refine ⟨hnot, haligned, ?_⟩
    change vid.1 < vlog.metadata.nextBatch
    rw [hgrows.nextBatch]
    exact Nat.lt_succ_of_lt hmade

/-- A new table is placed that refers to values nobody referred to. -/
theorem ReferenceInv.places
    {db : DbState} {refs : Key → Option ValueId}
    (h : ReferenceInv s)
    (table : SortedTable)
    (hown : OwnInv params.numLevels s.db.shared)
    (hplaced : ∀ t, Placed db t → Placed s.db t ∨ t = table)
    (htasks : db.tasks = s.db.tasks)
    (hfresh : ∀ t, Placed s.db t → t.getId ≠ table.getId)
    (hreserved : ∀ (i : Nat) c t, s.db.tasks[i]? = some (.installing c t) →
      t.getId ≠ table.getId)
    (htracks : Tracks s.vlog fun vid => s.Referenced vid ∨ ∃ key, refs key = some vid)
    (hnew : ∀ key vid, refs key = some vid → ¬ s.Referenced vid ∧
      ∀ (i : Nat) c values reinsert, s.collectors[i]? = some (.marking c values reinsert) →
        vid ∉ values)
    (hinj : ∀ key key' vid, refs key = some vid → refs key' = some vid → key = key')
    (hstored : ∀ key n value, table.get key = some (.value n value) →
      ∃ vid, refs key = some vid ∧ s.vlog.getValue vid = .value value) :
    ReferenceInv { s with db := db, valueIds := Function.update s.valueIds table.getId refs } := by
  have hself : Function.update s.valueIds table.getId refs table.getId = refs :=
    Function.update_self _ _ _
  have hids : ∀ t, Placed s.db t →
      Function.update s.valueIds table.getId refs t.getId = s.valueIds t.getId :=
    fun t ht => Function.update_of_ne (hfresh t ht) _ _
  have hinputs : ∀ (i : Nat) c t, s.db.tasks[i]? = some (.installing c t) → ∀ u ∈ c.inputs,
      Function.update s.valueIds table.getId refs u.getId = s.valueIds u.getId :=
    fun i c t hi u hu => hids u (placed_of_mem_inputs hown hi hu)
  -- an identifier in the new state is one of the old references or one of the new ones
  have hcases : ∀ t key vid, Placed db t →
      Function.update s.valueIds table.getId refs t.getId key = some vid →
        (Placed s.db t ∧ s.valueIds t.getId key = some vid) ∨
          (t = table ∧ refs key = some vid) := by
    intro t key vid ht hid
    rcases hplaced t ht with hold | rfl
    · rw [hids t hold] at hid
      exact Or.inl ⟨hold, hid⟩
    · rw [hself] at hid
      exact Or.inr ⟨rfl, hid⟩
  refine ⟨htracks.mono ?_, h.ends, ?_, ?_, ?_, ?_, ?_⟩
  · rintro vid ⟨t, key, ht, hid⟩
    rcases hcases t key vid ht hid with ⟨hold, hid'⟩ | ⟨-, hid'⟩
    · exact Or.inl ⟨t, key, hold, hid'⟩
    · exact Or.inr ⟨key, hid'⟩
  · intro t ht key n value hget
    rcases hplaced t ht with hold | rfl
    · obtain ⟨vid, hid, hvalue⟩ := h.stored t hold key n value hget
      exact ⟨vid, (congrFun (hids t hold) key).trans hid, hvalue⟩
    · obtain ⟨vid, hid, hvalue⟩ := hstored key n value hget
      exact ⟨vid, (congrFun hself key).trans hid, hvalue⟩
  · intro t u key key' vid ht hu hid hid'
    rcases hcases t key vid ht hid with ⟨ht', htid⟩ | ⟨rfl, htid⟩
    · rcases hcases u key' vid hu hid' with ⟨hu', huid⟩ | ⟨-, huid⟩
      · exact h.unique t u key key' vid ht' hu' htid huid
      · exact absurd ⟨t, key, ht', htid⟩ (hnew key' vid huid).1
    · rcases hcases u key' vid hu hid' with ⟨hu', huid⟩ | ⟨rfl, huid⟩
      · exact absurd ⟨u, key', hu', huid⟩ (hnew key vid htid).1
      · exact ⟨rfl, hinj key key' vid htid huid⟩
  · intro i c t hi
    rw [htasks] at hi
    exact (h.installing i c t hi).congr (Function.update_of_ne (hreserved i c t hi) _ _)
      (hinputs i c t hi)
  · intro i c t values hi hcol vid hvid
    rw [htasks] at hi
    exact (h.merged i c t values hi hcol vid hvid).congr
      (Function.update_of_ne (hreserved i c t hi) _ _) (hinputs i c t hi)
  · intro i c values reinsert hcol vid hvid
    obtain ⟨hnot, hrest⟩ := h.marking i c values reinsert hcol vid hvid
    refine ⟨?_, hrest⟩
    rintro ⟨t, key, ht, hid⟩
    rcases hcases t key vid ht hid with ⟨hold, hid'⟩ | ⟨-, hid'⟩
    · exact hnot ⟨t, key, hold, hid'⟩
    · exact (hnew key vid hid').2 i c values reinsert hcol hvid

/-- The flusher writes the table of its memtable, or finds the memtable empty. -/
theorem doMemtableCompaction_writing
    {db : DbState} {logOffset tableId : Nat} {mem : Memtable}
    (params : Params)
    (hpc : db.flusher = .writing logOffset mem tableId) :
    (∃ hne : mem.entries ≠ [], doMemtableCompaction params db =
      { db.writeTable params (SortedTable.ofMemtable params tableId mem hne) with
        flusher := .adding logOffset mem (SortedTable.ofMemtable params tableId mem hne) }) ∨
    doMemtableCompaction params db = { db with flusher := .panicked .memtableEmpty } := by
  simp only [doMemtableCompaction, hpc]
  split_ifs with hne
  · exact Or.inl ⟨hne, rfl⟩
  · exact Or.inr rfl

/-- **A flush** writes values and places a table that refers to them. -/
theorem ReferenceInv.writes
    [BitPacking]
    {logOffset tableId : Nat} {mem : Memtable} {ids : List ValueId} {vlog : ValueLog}
    (h : ReferenceInv s)
    (hown : OwnInv params.numLevels s.db.shared)
    (halive : s.flusherFailed = false)
    (hpc : s.db.flusher = .writing logOffset mem tableId)
    (hfits : ∀ offset ∈ valueOffsets 0 (memtableValues mem), offset < 2 ^ 32)
    (hwrite : ValueLog.writeBatch (memtableValues mem) s.vlog = (.value ids, vlog)) :
    ReferenceInv { s with
      db := doMemtableCompaction params s.db
      vlog := vlog
      valueIds := Function.update s.valueIds tableId (assign (memtableValues mem) ids) } := by
  have hends := h.ends halive
  obtain ⟨hends', hids, batch, hfile, hvalues⟩ := writeBatch_value h.tracks.ok hends hfits hwrite
  have hgrows := grows_writeBatch h.tracks.ok hends (memtableValues mem)
  rw [hwrite] at hgrows
  have hgrown : ReferenceInv { s with vlog := vlog, flusherFailed := s.flusherFailed } :=
    h.grows hgrows fun _ => hends'
  -- the identifier of the table belongs to the flusher
  have hpending : s.db.shared.pending = some tableId := congrArg FlusherPc.pendingId hpc
  have hfresh : ∀ t, Placed s.db t → t.getId ≠ tableId := by
    rintro t (⟨level, hlevel⟩ | ⟨_, _, hadding⟩)
    · exact (hown.pending tableId hpending).1.2 level t hlevel
    · rw [hpc] at hadding
      cases hadding
  have hreserved : ∀ (i : Nat) c t, s.db.tasks[i]? = some (.installing c t) →
      t.getId ≠ tableId := by
    intro i c t hi heq
    exact ((hown.tasks i _ hi).fresh t.getId rfl).2 (heq ▸ hpending)
  have hlength : ids.length = (memtableValues mem).length := by
    rw [hids, List.length_map, length_valueOffsets]
  rcases doMemtableCompaction_writing params hpc with ⟨hne, hdb⟩ | hdb
  · rw [hdb]
    refine hgrown.places (SortedTable.ofMemtable params tableId mem hne) hown ?_ rfl
      hfresh hreserved ?_ ?_ ?_ ?_
    · rintro t (hlevel | ⟨_, _, hadding⟩)
      · exact Or.inl (Or.inl hlevel)
      · cases hadding
        exact Or.inr rfl
    · refine (h.tracks.writeBatch hends hfits hwrite).mono ?_
      rintro vid (hold | ⟨key, hkey⟩)
      · exact Or.inl hold
      · obtain ⟨value, hmem⟩ := assign_eq_some hkey
        exact Or.inr (List.of_mem_zip hmem).2
    · intro key vid hkey
      obtain ⟨value, hmem⟩ := assign_eq_some hkey
      have hvid := (List.of_mem_zip hmem).2
      rw [hids] at hvid
      obtain ⟨offset, -, rfl⟩ := List.mem_map.mp hvid
      refine ⟨fun href => ?_, fun i c values reinsert hcol hin => ?_⟩
      · exact absurd (h.tracks.alive _ href).made (lt_irrefl _)
      · exact absurd (h.marking i c values reinsert hcol _ hin).2.2 (lt_irrefl _)
    · intro key key' vid hkey hkey'
      refine assign_inj ?_ (le_of_eq hlength) hkey hkey'
      rw [hids]
      exact (nodup_valueOffsets 0 _).map fun a b hab => (Prod.mk.inj hab).2
    · intro key n value hget
      have hmem := mem_memtableValues ((SortedTable.get_eq_some_iff _ key _).mp hget)
      rw [← List.map_fst_zip (le_of_eq (length_valueOffsets 0 (memtableValues mem)).symm)] at hmem
      obtain ⟨⟨entry, offset⟩, hplace, rfl⟩ := List.mem_map.mp hmem
      refine ⟨(s.vlog.metadata.nextBatch, offset), ?_, ?_⟩
      · have hassigned : ((key, value), (s.vlog.metadata.nextBatch, offset)) ∈
            (memtableValues mem).zip ids := by
          rw [hids, List.zip_map_right]
          exact List.mem_map.mpr ⟨_, hplace, rfl⟩
        exact assign_of_mem (nodup_keys_memtableValues mem) (le_of_eq hlength.symm) hassigned
      · change vlog.getValue _ = _
        rw [ValueLog.getValue, ValueLog.getBatch, hfile]
        exact hvalues _ hplace
  · -- there is no memtable without entries, but nothing depends on it here
    rw [hdb]
    refine hgrown.retains hown (?_ : Retains _ _ fun _ => False)
    refine ⟨?_, Fades.refl hgrown.tracks.ok, fun _ hfalse => hfalse.elim, rfl, ?_, ?_, ?_, ?_⟩
    · rintro t (hlevel | ⟨_, _, hadding⟩)
      · exact Or.inl hlevel
      · cases hadding
    · exact fun t ht => Function.update_of_ne (hfresh t ht) _ _
    · exact fun i c t hi => Or.inl ⟨hi, Function.update_of_ne (hreserved i c t hi) _ _⟩
    · exact fun i c t values hi hcol =>
        Or.inl ⟨hi, hcol, Function.update_of_ne (hreserved i c t hi) _ _⟩
    · exact fun i c values reinsert hcol vid hvid => ⟨c, values, reinsert, hcol, hvid⟩

end Write

/-! ## Every step -/

/-- There are values that were overridden and are yet to be marked. -/
def collects : Collector → Bool
  | .merged _ => true
  | .marking _ (_ :: _) _ => true
  | _ => false

section Step

variable {params : Params} {s s' : WisckeyState}

/-- Whatever places no table, marks no value, and leaves the collectors alone or puts them
aside. -/
theorem retains_of_frame
    (hplaced : ∀ t, Placed s'.db t → Placed s.db t)
    (hfades : Fades (fun _ => False) s.vlog s'.vlog)
    (hfailed : s'.flusherFailed = s.flusherFailed)
    (hids : s'.valueIds = s.valueIds)
    (hinstalling : ∀ (i : Nat) c t, s'.db.tasks[i]? = some (.installing c t) →
      s.db.tasks[i]? = some (.installing c t))
    (hcollects : ∀ (i : Nat) pc, s'.collectors[i]? = some pc → collects pc = true →
      s.collectors[i]? = some pc) :
    Retains s s' fun _ => False where
  placed := hplaced
  fades := hfades
  marks := fun _ hfalse => hfalse.elim
  flusherFailed := hfailed
  valueIds := fun t _ => congrFun hids t.getId
  installing := fun i c t hi => Or.inl ⟨hinstalling i c t hi, congrFun hids t.getId⟩
  merged := fun i c t _ hi hcol =>
    Or.inl ⟨hinstalling i c t hi, hcollects i _ hcol rfl, congrFun hids t.getId⟩
  marking := by
    intro i c values reinsert hcol vid hvid
    cases values with
    | nil =>
        cases hvid
    | cons first rest =>
        exact ⟨c, _, reinsert, hcollects i _ hcol rfl, hvid⟩

/-- The collector of one task is put aside. -/
theorem collects_set
    {collectors : List Collector} {i j : Nat} {pc pc' : Collector}
    (hpc : collects pc = false)
    (h : (collectors.set i pc)[j]? = some pc')
    (hpc' : collects pc' = true) :
    collectors[j]? = some pc' := by
  rcases getElem?_set_cases h with ⟨-, rfl⟩ | ⟨-, hold⟩
  · rw [hpc] at hpc'
    cases hpc'
  · exact hold

theorem frame_writeOpts
    (params : Params) (db : DbState) (batch : List WriteOp) :
    (writeOpts params db batch).tables = db.tables ∧
      (writeOpts params db batch).flusher = db.flusher ∧
      (writeOpts params db batch).tasks = db.tasks := by
  rcases writeOpts_cases params db batch with heq | heq | ⟨-, heq⟩ <;> rw [heq] <;>
    exact ⟨rfl, rfl, rfl⟩

/-- One value is marked that was overridden. -/
theorem retains_mark
    {i : Nat} {c : MergedInto} {vid : ValueId} {values : List ValueId}
    {reinsert : List (Key × Value)} {pc : Collector}
    (h : ReferenceInv s)
    (hcol : s.collectors[i]? = some (.marking c (vid :: values) reinsert))
    (hpc : pc = .failed ∨ ∃ reinsert', pc = .marking c values reinsert') :
    Retains s
      { s.setCollector i pc with vlog := (ValueLog.markValueDeleted vid s.vlog).2 }
      fun marked => marked = vid where
  placed := fun _ ht => ht
  fades := fades_markValueDeleted h.tracks.ok rfl
  marks := by
    rintro marked rfl
    obtain ⟨hnot, haligned, -⟩ := h.marking i c _ reinsert hcol marked List.mem_cons_self
    exact ⟨hnot, haligned⟩
  flusherFailed := rfl
  valueIds := fun _ _ => rfl
  installing := fun _ _ _ hi => Or.inl ⟨hi, rfl⟩
  merged := by
    intro j c' t values' hj hcol'
    rcases getElem?_set_cases hcol' with ⟨-, heq⟩ | ⟨-, hold⟩
    · rcases hpc with rfl | ⟨reinsert', rfl⟩ <;> cases heq
    · exact Or.inl ⟨hj, hold, rfl⟩
  marking := by
    intro j c' values' reinsert' hcol' vid' hvid
    rcases getElem?_set_cases hcol' with ⟨rfl, heq⟩ | ⟨-, hold⟩
    · rcases hpc with rfl | ⟨reinsert'', rfl⟩
      · cases heq
      · cases heq
        exact ⟨c, _, reinsert, hcol, List.mem_cons_of_mem _ hvid⟩
    · exact ⟨c', values', reinsert', hold, hvid⟩

section Owned

variable (h : ReferenceInv s) (hown : OwnInv params.numLevels s.db.shared)

include h hown

/-- A write, of a client or of a collector. -/
theorem ReferenceInv.writeOpts
    {batch : List WriteOp}
    (hdb : s'.db = Logic.writeOpts params s.db batch)
    (hvlog : s'.vlog = s.vlog)
    (hfailed : s'.flusherFailed = s.flusherFailed)
    (hids : s'.valueIds = s.valueIds)
    (hcollects : ∀ (i : Nat) pc, s'.collectors[i]? = some pc → collects pc = true →
      s.collectors[i]? = some pc) :
    ReferenceInv s' := by
  obtain ⟨htables, hflusher, htasks⟩ := frame_writeOpts params s.db batch
  refine h.retains hown (retains_of_frame ?_ ?_ hfailed hids ?_ hcollects)
  · intro t ht
    rw [hdb] at ht
    exact ht.congr htables hflusher
  · rw [hvlog]
    exact Fades.refl h.tracks.ok
  · intro i c t hi
    rw [hdb, htasks] at hi
    exact hi

/-- A table is installed, and what it has overridden can be marked. -/
theorem ReferenceInv.installStep
    {i : Nat} {c : Compaction} {t : SortedTable} {values : List ValueId}
    (hcol : s.collectors[i]? = some (.merged values))
    (htask : s.db.tasks[i]? = some (.installing c t))
    (hread : (s.db.isRead c.level || s.db.isRead (c.level + 1)) = false) :
    ReferenceInv
      { s.setCollector i (.marking { c with tableId := t.getId } values []) with
        db := installLists s.db i c t } := by
  have hinst := replaces_installLists (installTable_installs hown htask hread)
  refine h.replaces hinst rfl rfl rfl ?_ ?_
  · intro j values' hcol'
    rcases getElem?_set_cases hcol' with ⟨-, heq⟩ | ⟨-, hold⟩
    · cases heq
    · exact hold
  · intro j c' values' reinsert hcol'
    rcases getElem?_set_cases hcol' with ⟨-, heq⟩ | ⟨-, hold⟩
    · cases heq
      exact Or.inr ⟨hcol, htask⟩
    · exact Or.inl hold

theorem ReferenceInv.withDb
    {db : DbState}
    (hplaced : ∀ t, Placed db t → Placed s.db t)
    (hinstalling : ∀ (i : Nat) c t, db.tasks[i]? = some (.installing c t) →
      s.db.tasks[i]? = some (.installing c t)) :
    ReferenceInv { s with db := db } :=
  h.retains hown (retains_of_frame hplaced (Fades.refl h.tracks.ok) rfl rfl hinstalling
    fun _ _ hcol _ => hcol)

/-- A collector has nothing to mark any more. -/
theorem ReferenceInv.putAside
    {i : Nat} {pc : Collector}
    (hpc : collects pc = false) :
    ReferenceInv (s.setCollector i pc) :=
  h.retains hown (retains_of_frame (fun _ ht => ht) (Fades.refl h.tracks.ok) rfl rfl
    (fun _ _ _ hi => hi) fun _ _ => collects_set hpc)

/-- A step of a compaction, the merge apart. -/
theorem ReferenceInv.taskStep
    {i : Nat}
    (htask : ∀ c tableId, s.db.tasks[i]? ≠ some (.merging c tableId)) :
    ReferenceInv { s with db := Logic.taskStep params s.db i } := by
  rcases taskStep_cases hown i with hframe | ⟨-, c, t, -, -, hinst⟩
  · exact h.withDb hown (fun t ht => ht.congr hframe.tables hframe.flusher)
      fun j c t hj => taskStep_installing hown htask hj
  · exact h.replaces (replaces_of_installs hinst) rfl rfl rfl (fun _ _ hcol => hcol)
      fun _ _ _ _ hcol => Or.inl hcol

end Owned

/-- Where the values of the next batch begin, if the flusher is about to write one. -/
def flushOffsets (s : WisckeyState) : DbEvent → List Nat
  | .flusher =>
      match s.db.flusher with
      | .writing _ mem _ => valueOffsets 0 (memtableValues mem)
      | _ => []
  | _ => []

/-- An identifier of a value has 32 bits for the offset. -/
def FlushFits (s : WisckeyState) (e : DbEvent) : Prop :=
  ∀ offset ∈ s.flushOffsets e, offset < 2 ^ 32

instance (s : WisckeyState) (e : DbEvent) : Decidable (FlushFits s e) :=
  inferInstanceAs (Decidable (∀ offset ∈ s.flushOffsets e, offset < 2 ^ 32))

/-- **Every step** keeps the values that the tables refer to. -/
theorem ReferenceInv.step
    [BitPacking]
    {e : DbEvent}
    (h : ReferenceInv s)
    (hver : VersionInv params s.db)
    (hfits : FlushFits s e)
    (hstep : WisckeyStep params s e s') :
    ReferenceInv s' := by
  have hown := hver.own
  cases hstep with
  | stay =>
      exact h
  | write | clientResume =>
      exact h.writeOpts hown rfl rfl rfl rfl fun _ _ hcol _ => hcol
  | clientWait =>
      exact h.retains hown (retains_of_frame (fun _ ht => ht) (Fades.refl h.tracks.ok) rfl rfl
        (fun _ _ _ hi => hi) fun _ _ hcol _ => hcol)
  | @getBegin client key =>
      have hshared := shared_getBegin s.db client key
      have htasks : (getBegin s.db client key).tasks = s.db.tasks := congrArg Shared.tasks hshared
      have hflusher := (unnoticed_getBegin s.db client key).flusher
      refine h.withDb hown (fun t ht => ht.congr (congrArg Shared.tables hshared) hflusher) ?_
      intro i c t hi
      exact htasks ▸ hi
  | @getNext client =>
      have hshared := shared_getNext params s.db client
      have htasks : (getNext params s.db client).tasks = s.db.tasks := congrArg Shared.tasks hshared
      have hflusher := (unnoticed_getNext params s.db client).flusher
      refine h.withDb hown (fun t ht => ht.congr (congrArg Shared.tables hshared) hflusher) ?_
      intro i c t hi
      exact htasks ▸ hi
  | @writeValues logOffset tableId mem ids vlog halive hpc hwrite =>
      refine h.writes hown halive hpc ?_ hwrite
      simp only [FlushFits, flushOffsets, hpc] at hfits
      exact hfits
  | failValues halive hpc hwrite =>
      subst hwrite
      exact h.grows (grows_writeBatch h.tracks.ok (h.ends halive) _) fun hfalse => by cases hfalse
  | flush hpc hfree =>
      have htasks := (flusherStep_doMemtableCompaction params s.db).tasks
      refine h.withDb hown (fun t ht => placed_doMemtableCompaction hpc ht) ?_
      intro i c t hi
      exact htasks ▸ hi
  | flushSync hpc =>
      have htasks := (flusherStep_doMemtableCompaction params s.db).tasks
      refine h.retains hown (retains_of_frame ?_ (fades_sync h.tracks.ok) rfl rfl ?_
        fun _ _ hcol _ => hcol)
      · intro t ht
        refine placed_doMemtableCompaction ?_ ht
        rw [hpc]
        exact fun _ _ _ hother => by cases hother
      · intro i c t hi
        exact htasks ▸ hi
  | @compact i level hcol =>
      have hframe := unnoticed_startCompaction params s.db i level
      exact h.withDb hown (fun t ht => ht.congr hframe.tables hframe.flusher)
        fun j c t hj => startCompaction_installing hj
  | task hcol htask =>
      exact h.taskStep hown htask
  | merge hcol htask hvalues =>
      exact h.retains hown (retains_merge h hver htask hvalues)
  | failMerge hcol =>
      exact h.putAside hown rfl
  | install hcol htask hread =>
      exact h.installStep hown hcol htask hread
  | @mark i c vid values reinsert entries vlog hcol hmark =>
      have hvlog : (ValueLog.markValueDeleted vid s.vlog).2 = vlog := congrArg Prod.snd hmark
      subst hvlog
      exact h.retains hown (retains_mark h hcol (Or.inr ⟨_, rfl⟩))
  | failMark hcol hmark =>
      subst hmark
      exact h.retains hown (retains_mark h hcol (Or.inl rfl))
  | update hcol hheader hpc =>
      refine h.retains hown (retains_of_frame (fun _ ht => ht) (Fades.refl h.tracks.ok) rfl rfl
        (fun _ _ _ hi => hi) fun _ _ => collects_set ?_)
      rcases hpc with rfl | rfl <;> rfl
  | reinsert hcol =>
      exact h.writeOpts hown rfl rfl rfl rfl fun _ _ => collects_set rfl
  | wait hcol =>
      exact h.putAside hown rfl
  | resume hcol hempty =>
      exact h.writeOpts hown rfl rfl rfl rfl fun _ _ => collects_set rfl

theorem referenceInv_new
    [BitPacking]
    (params : Params) (numTasks : Nat) :
    ReferenceInv (WisckeyState.new params numTasks) := by
  have hplaced : ∀ t, ¬ Placed (WisckeyState.new params numTasks).db t := by
    rintro t (⟨level, hlevel⟩ | ⟨_, _, hadding⟩)
    · cases hlevel
    · cases hadding
  have hcollectors : ∀ (i : Nat) pc,
      (WisckeyState.new params numTasks).collectors[i]? = some pc → pc = .idle := by
    intro i pc hi
    exact List.eq_of_mem_replicate (List.mem_of_getElem? hi)
  refine ⟨tracks_new ?_, fun _ => ok_new.2.1, ?_, ?_, ?_, ?_, ?_⟩
  · rintro vid ⟨t, key, ht, -⟩
    exact hplaced t ht
  · intro t ht
    exact absurd ht (hplaced t)
  · intro t u key key' vid ht
    exact absurd ht (hplaced t)
  · intro i c t hi
    have := List.eq_of_mem_replicate (List.mem_of_getElem? hi)
    cases this
  · intro i c t values hi hcol
    cases hcollectors i _ hcol
  · intro i c values reinsert hcol
    cases hcollectors i _ hcol

end Step

end WisckeyState

end Logic
end LsmStore
