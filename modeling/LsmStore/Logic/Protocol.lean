import LsmStore.Logic.Flusher
import LsmStore.Logic.Install

/-!
# The protocol is kept by every step

One lemma for each function of the compaction tasks and of the flusher, and
from them the invariant of the protocol in every reachable state.  Writers and
readers do not touch what the tasks share.
-/

namespace LsmStore
namespace Logic

open KeyRange KeyedList

section Steps

variable {numLevels : Nat} {s : DbState} {i : Nat} {c : Compaction}

theorem shared_setLevel
    {level : Nat} {value : Level}
    (htables : value.tables = s.tables level)
    (hplaceholders : value.tablePlaceholders = s.placeholders level) :
    (s.setLevel level value).shared = s.shared := by
  have h₁ : (s.setLevel level value).tables = s.tables := by
    funext l
    rw [DbState.tables_setLevel]
    split_ifs with hl
    · rw [hl, htables]
    · rfl
  have h₂ : (s.setLevel level value).placeholders = s.placeholders := by
    funext l
    rw [DbState.placeholders_setLevel]
    split_ifs with hl
    · rw [hl, hplaceholders]
    · rfl
  simp only [DbState.shared, h₁, h₂]
  rfl

/-! ## Picking the parents -/

theorem ownInv_startCompaction
    {params : Params}
    (h : OwnInv params.numLevels s.shared)
    (level : Nat) :
    OwnInv params.numLevels (startCompaction params s i level).shared := by
  unfold startCompaction
  split_ifs with hcond
  · obtain ⟨hi, hbound⟩ := hcond
    obtain ⟨htables, hplaceholders⟩ := (s.levels level).choose_frame level
    have hchosen : ∀ table offset, ((s.levels level).choose level).2 = .table table offset →
        (s.tables level)[offset]? = some table :=
      fun table offset hc => Level.choose_table (Prod.ext rfl hc)
    rcases hchoice : (s.levels level).choose level with ⟨lvl, choice⟩
    rw [hchoice] at htables hplaceholders hchosen
    have hshared : (s.setLevel level lvl).shared = s.shared :=
      shared_setLevel htables hplaceholders
    dsimp only
    cases choice with
    | nothingToDo =>
        dsimp only
        rw [hshared]
        exact h
    | emptyLevel =>
        have := (s.levels level).choose_ne_emptyLevel level
        rw [hchoice] at this
        exact absurd rfl this
    | table table offset =>
        have hinv : OwnInv params.numLevels (s.setLevel level lvl).shared := by
          rw [hshared]
          exact h
        have hi' : (s.setLevel level lvl).shared.tasks[i]? = some .idle := hi
        refine hinv.advance hi' ?_ (fun t ht => by cases ht) (fun id hid => by cases hid) rfl
          (Or.inr rfl)
        rw [hshared]
        exact TaskOk.ofClaim (Claim.empty _) rfl rfl rfl ⟨hchosen table offset rfl, hbound⟩
  · exact h

theorem ownInv_flagChosen
    {level offset : Nat} {table : SortedTable}
    (h : OwnInv numLevels s.shared)
    (hi : s.tasks[i]? = some (.chosen level table offset)) :
    OwnInv numLevels (flagChosen s i level table offset).shared := by
  obtain ⟨hget, hbound⟩ := (h.tasks i _ hi).phase
  have hmem : table ∈ s.tables level := List.mem_of_getElem? hget
  unfold flagChosen
  split_ifs with hflag hlevel
  · exact h.advance hi (TaskOk.idle _ _) (fun t ht => by cases ht) (fun id hid => by cases hid)
      rfl (Or.inr rfl)
  all_goals
    rw [Bool.not_eq_true] at hflag
    have hclaim : Claim (s.shared.setFlag table.getId true) ⟨level, [table], []⟩ := by
      refine ⟨?_, fun t ht => (by cases ht), ?_, List.nodup_singleton _⟩
      · intro t ht
        rw [List.mem_singleton.mp ht]
        exact hmem
      · intro t ht
        rw [List.mem_singleton.mp ht]
        exact Shared.setFlag_flag_self _ _ _
    have hsub : ∀ t ∈ (⟨level, [table], []⟩ : Compaction).inputs,
        t ∈ (TaskPc.chosen level table offset).held.inputs ∨ t = table :=
      fun t ht => Or.inr (List.mem_singleton.mp ht)
  · refine h.acquire hi hflag ?_ hsub rfl rfl rfl
    refine TaskOk.ofClaim hclaim rfl rfl rfl
      ⟨hlevel, rfl, List.cons_ne_nil _ _, hbound, rfl, rfl, ?_, ?_⟩
    · intro o ho t ht
      rw [List.mem_singleton.mp ho] at ht
      exact List.mem_singleton.mpr (Option.some.inj (ht.symm.trans hget))
    · intro j t hj
      omega
  · refine h.acquire hi hflag ⟨hclaim, fun _ => ?_, fun p hp => (by cases hp),
      fun id hid => (by cases hid), rfl⟩ hsub rfl rfl rfl
    refine ⟨List.cons_ne_nil _ _, fun _ => ⟨table, rfl⟩, ?_, hbound⟩
    intro t ht hnot hov
    have hne : t ≠ table := fun heq => hnot (List.mem_singleton.mpr heq)
    exact absurd hov (h.tables.apart level hlevel t ht table hmem hne)

theorem ownInv_closeOverlaps
    {offsets : List Nat} {pos : Nat} {min max : Key}
    (h : OwnInv numLevels s.shared)
    (hi : s.tasks[i]? = some (.closing c offsets pos min max)) :
    OwnInv numLevels (closeOverlaps s i c offsets pos min max).shared := by
  have hok := h.tasks i _ hi
  obtain ⟨hlevel, hchildren, hne, hbound, hmin, hmax, hoffsets, hscanned⟩ := hok.phase
  have hclaim : Claim s.shared c := hok.claim
  -- the loop goes on with the next table
  have hnext : (∀ t, (s.tables c.level)[pos]? = some t →
      t ∈ c.parents ∨ ¬ Overlaps t.minKey t.maxKey min max) →
      OwnInv numLevels (s.setTask i (.closing c offsets (pos + 1) min max)).shared := by
    intro hpos
    refine h.advance hi (TaskOk.ofClaim hclaim rfl rfl rfl
      ⟨hlevel, hchildren, hne, hbound, hmin, hmax, hoffsets, ?_⟩) (fun t ht => ht)
      (fun id hid => by cases hid) rfl (Or.inl rfl)
    intro j t hj ht
    rcases Nat.lt_succ_iff_lt_or_eq.mp hj with hj | rfl
    · exact hscanned j t hj ht
    · exact hpos t ht
  unfold closeOverlaps
  cases hget : (s.tables c.level)[pos]? with
  | none =>
      -- every table of the level was looked at
      refine h.advance hi ⟨hclaim, fun _ => ⟨hne, fun hl => absurd hlevel hl, ?_, hbound⟩,
        fun p hp => (by cases hp), fun id hid => (by cases hid), hchildren⟩ (fun t ht => ht)
        (fun id hid => by cases hid) rfl (Or.inl rfl)
      intro t ht hnot hov
      obtain ⟨j, hj, hjt⟩ := List.mem_iff_getElem.mp ht
      have hjpos : j < pos := lt_of_lt_of_le hj (List.getElem?_eq_none_iff.mp hget)
      rcases hscanned j t hjpos (List.getElem?_eq_some_iff.mpr ⟨hj, hjt⟩) with hmem | hnov
      · exact absurd hmem hnot
      · exact absurd (hmin ▸ hmax ▸ hov) hnov
  | some table =>
      have hmem : table ∈ s.tables c.level := List.mem_of_getElem? hget
      dsimp only
      split_ifs with hin hov hflag
      · exact hnext fun t ht => Or.inl (hoffsets pos hin t ht)
      · exact h.advance hi (TaskOk.ofClaim hclaim rfl rfl rfl trivial) (fun t ht => ht)
          (fun id hid => by cases hid) rfl (Or.inl rfl)
      · rw [Bool.not_eq_true] at hflag
        refine h.acquire hi hflag (TaskOk.ofClaim (hclaim.addParent hmem hflag)
          rfl rfl rfl ⟨hlevel, hchildren, by simp, hbound, ?_, ?_, ?_, ?_⟩) ?_ rfl rfl rfl
        · rw [hullMin_concat hne, ← hmin]
          rfl
        · rw [hullMax_concat hne, ← hmax]
          rfl
        · intro o ho t ht
          rcases List.mem_append.mp ho with ho | ho
          · exact List.mem_append_left _ (hoffsets o ho t ht)
          · rw [List.mem_singleton.mp ho] at ht
            rw [Option.some.inj (ht.symm.trans hget)]
            exact List.mem_append_right _ (List.mem_singleton_self _)
        · intro j t hj
          omega
        · intro t ht
          simp only [TaskPc.held, Compaction.inputs, hchildren, List.append_nil,
            List.mem_append, List.mem_singleton] at ht ⊢
          exact ht
      · refine hnext fun t ht => Or.inr ?_
        rw [Option.some.inj (ht.symm.trans hget)]
        exact fun hov' => hov ((table.overlaps_iff min max).mpr hov')

/-! ## Giving tables back -/

/-- One flag is given back while the claim shrinks. -/
theorem ownInv_abortCompaction
    {pc next : TaskPc} {table : SortedTable}
    (h : OwnInv numLevels s.shared)
    (hi : s.tasks[i]? = some pc)
    (ht : table ∈ pc.held.inputs)
    (hclaim : Claim (s.shared.setFlag table.getId false) next.held)
    (hsub : ∀ u ∈ next.held.inputs, u ∈ pc.held.inputs)
    (hplaced : pc.placedId = none)
    (hclosed' : next.isClosed = false)
    (hplaced' : next.placedId = none)
    (hreserved' : next.reserved = none)
    (hphase' : Phase numLevels (s.shared.setFlag table.getId false) next) :
    OwnInv numLevels (abortCompaction s i table next).shared := by
  have hflag : s.compactionFlag table.getId = true := (h.tasks i pc hi).claim.flagged table ht
  rw [abortCompaction, if_pos hflag]
  exact h.release hi ht (TaskOk.ofClaim hclaim hclosed' hplaced' hreserved' hphase') hsub
    hreserved' (by rw [TaskPc.placeholder, hplaced]; rfl)
    (by rw [TaskPc.placeholder, hplaced']; rfl)

/-! ## Claiming the child level -/

theorem ownInv_scanOverlaps
    {pos : Nat} {min max : Key}
    (h : OwnInv numLevels s.shared)
    (hi : s.tasks[i]? = some (.scanning c pos min max)) :
    OwnInv numLevels (scanOverlaps s i c pos min max).shared := by
  have hok := h.tasks i _ hi
  obtain ⟨hmin, hmax, hscanned⟩ := hok.phase
  have hclaim : Claim s.shared c := hok.claim
  have hclosed : Closed numLevels s.shared c := hok.closed rfl
  have hne : c.inputs ≠ [] := List.append_ne_nil_of_left_ne_nil hclosed.nonempty _
  unfold scanOverlaps
  cases hget : (s.tables (c.level + 1))[pos]? with
  | none =>
      refine h.advance hi ⟨hclaim, fun _ => hclosed, fun p hp => (by cases hp),
        fun id hid => (by cases hid), hmin, hmax, ?_⟩ (fun t ht => ht)
        (fun id hid => by cases hid) rfl (Or.inl rfl)
      intro t ht hov
      obtain ⟨j, hj, hjt⟩ := List.mem_iff_getElem.mp ht
      have hjpos : j < pos := lt_of_lt_of_le hj (List.getElem?_eq_none_iff.mp hget)
      exact (hscanned j t hjpos (List.getElem?_eq_some_iff.mpr ⟨hj, hjt⟩)).resolve_right
        (fun hnov => hnov hov)
  | some table =>
      have hmem : table ∈ s.tables (c.level + 1) := List.mem_of_getElem? hget
      dsimp only
      split_ifs with hov hflag
      · exact h.advance hi (TaskOk.ofClaim hclaim rfl rfl rfl trivial) (fun t ht => ht)
          (fun id hid => by cases hid) rfl (Or.inl rfl)
      · rw [Bool.not_eq_true] at hflag
        rw [SortedTable.overlaps_iff] at hov
        have hinputs : (⟨c.level, c.parents, c.children ++ [table]⟩ : Compaction).inputs =
            c.inputs ++ [table] := (List.append_assoc _ _ _).symm
        refine h.acquire hi hflag ⟨hclaim.addChild hmem hflag, fun _ => hclosed.frame rfl rfl rfl,
          fun p hp => (by cases hp), fun id hid => (by cases hid), ?_, ?_, ?_⟩ ?_ rfl rfl rfl
        · rw [hinputs, hullMin_concat hne, ← hmin]
          exact min_comm _ _
        · rw [hinputs, hullMax_concat hne, ← hmax]
          exact max_comm _ _
        · -- the child level has no overlaps, so widening the range reaches nothing new
          intro j t hj ht
          rcases Nat.lt_succ_iff_lt_or_eq.mp hj with hj | rfl
          · have htmem : t ∈ s.tables (c.level + 1) := List.mem_of_getElem? ht
            rcases hscanned j t hj ht with hold | hnov
            · exact Or.inl (List.mem_append_left _ hold)
            · by_cases heq : t = table
              · exact Or.inl (List.mem_append_right _ (List.mem_singleton.mpr heq))
              · right
                have hapart := h.tables.apart _ (Nat.succ_ne_zero _) t htmem table hmem heq
                have := not_overlaps_widen t.min_le_max hov hnov hapart
                rwa [min_comm, max_comm] at this
          · left
            rw [Option.some.inj (ht.symm.trans hget)]
            exact List.mem_append_right _ (List.mem_singleton_self _)
        · intro t ht
          change t ∈ (⟨c.level, c.parents, c.children ++ [table]⟩ : Compaction).inputs at ht
          rw [hinputs, List.mem_append, List.mem_singleton] at ht
          exact ht
      · refine h.advance hi ⟨hclaim, fun _ => hclosed, fun p hp => (by cases hp),
          fun id hid => (by cases hid), hmin, hmax, ?_⟩ (fun t ht => ht)
          (fun id hid => by cases hid) rfl (Or.inl rfl)
        intro j t hj ht
        rcases Nat.lt_succ_iff_lt_or_eq.mp hj with hj | rfl
        · exact hscanned j t hj ht
        · right
          rw [Option.some.inj (ht.symm.trans hget)]
          exact fun hov' => hov ((table.overlaps_iff min max).mpr hov')

/-- A placeholder has the identifier of a table its owner moves, or one its owner took. -/
theorem placedId_cases
    {g : Shared} {pc : TaskPc} {id : Nat}
    (hok : TaskOk numLevels g pc)
    (hid : pc.placedId = some id) :
    pc.reserved = some id ∨ ∃ t ∈ pc.held.parents, id = t.getId := by
  cases pc with
  | moving c tableId =>
      obtain ⟨-, t, hparents, heq⟩ := hok.phase
      cases hid
      refine Or.inr ⟨t, ?_, heq⟩
      rw [TaskPc.held, hparents]
      exact List.mem_singleton_self t
  | merging c tableId =>
      exact Or.inl hid
  | installing c newTable =>
      exact Or.inl hid
  | _ => cases hid

/-- The owner of a placeholder, and where its identifier comes from. -/
theorem OwnInv.owner
    {g : Shared} {l : Nat} {p : TablePlaceholder}
    (h : OwnInv numLevels g)
    (hp : p ∈ g.placeholders l) :
    ∃ (j : Nat) (pcj : TaskPc), g.tasks[j]? = some pcj ∧ pcj.placeholder = some p ∧
      (pcj.reserved = some p.id ∨ ∃ t ∈ pcj.held.parents, p.id = t.getId) := by
  obtain ⟨j, pcj, hj, -, hpj⟩ := h.owners l p hp
  obtain ⟨id, hid, heq⟩ := Option.map_eq_some_iff.mp hpj
  refine ⟨j, pcj, hj, hpj, ?_⟩
  rw [← heq]
  exact placedId_cases (h.tasks j pcj hj) hid

theorem OwnInv.placeholder_id_lt
    {g : Shared} {l : Nat} {p : TablePlaceholder}
    (h : OwnInv numLevels g)
    (hp : p ∈ g.placeholders l) :
    p.id < g.nextTableId := by
  obtain ⟨j, pcj, hj, -, hres | ⟨t, ht, heq⟩⟩ := h.owner hp
  · exact ((h.tasks j pcj hj).fresh _ hres).1.1
  · rw [heq]
    exact h.tables.lt_next _ t ((h.tasks j pcj hj).claim.parents_mem t ht)

/-- No placeholder has the identifier of a table that a task without one holds. -/
theorem OwnInv.placeholder_id_ne
    {g : Shared} {l : Nat} {p : TablePlaceholder} {pc : TaskPc} {t : SortedTable}
    (h : OwnInv numLevels g)
    (hi : g.tasks[i]? = some pc)
    (hnone : pc.placeholder = none)
    (ht : t ∈ pc.held.parents)
    (hp : p ∈ g.placeholders l) :
    p.id ≠ t.getId := by
  obtain ⟨j, pcj, hj, hpj, hcases⟩ := h.owner hp
  have hji : j ≠ i := by
    rintro rfl
    obtain rfl : pc = pcj := Option.some.inj (hi.symm.trans hj)
    rw [hnone] at hpj
    cases hpj
  rcases hcases with hres | ⟨u, hu, heq⟩
  · exact ((((h.tasks j pcj hj).fresh _ hres).1.2) _ t
      ((h.tasks i pc hi).claim.parents_mem t ht)).symm
  · rw [heq]
    exact (h.separate j i pcj pc hji hj hi).tables u (List.mem_append_left _ hu) t
      (List.mem_append_left _ ht)

/-- A placeholder at the end of a level's list, and a new next identifier. -/
theorem shared_place
    (s : DbState) (level : Nat) (p : TablePlaceholder) (manifest : Manifest) :
    ({ s.setLevel level { s.levels level with
        tablePlaceholders := (s.levels level).tablePlaceholders ++ [p] } with
      manifest := manifest } : DbState).shared =
      s.shared.place level p manifest.nextTableId := by
  have htables : (s.setLevel level { s.levels level with
      tablePlaceholders := (s.levels level).tablePlaceholders ++ [p] }).tables = s.tables := by
    funext l
    rw [DbState.tables_setLevel]
    split_ifs with hl
    · rw [hl]
      rfl
    · rfl
  have hplaceholders : (s.setLevel level { s.levels level with
      tablePlaceholders := (s.levels level).tablePlaceholders ++ [p] }).placeholders =
      Function.update s.placeholders level (s.placeholders level ++ [p]) := by
    funext l
    rw [DbState.placeholders_setLevel, Function.update_apply]
    rfl
  simp only [DbState.shared, Shared.place]
  exact congrArg₂ (fun tables placeholders => Shared.mk tables placeholders s.compactionFlag
    manifest.nextTableId s.flusher.pendingId s.tasks) htables hplaceholders

theorem ownInv_placePlaceholder
    {min max : Key}
    (h : OwnInv numLevels s.shared)
    (hi : s.tasks[i]? = some (.placing c min max)) :
    OwnInv numLevels (placePlaceholder s i c min max).shared := by
  have hok := h.tasks i _ hi
  obtain ⟨hmin, hmax, hcovered⟩ := hok.phase
  have hclaim : Claim s.shared c := hok.claim
  have hclosed : Closed numLevels s.shared c := hok.closed rfl
  rw [placePlaceholder_eq]
  dsimp only
  split_ifs with hany
  · exact h.advance hi (TaskOk.ofClaim hclaim rfl rfl rfl trivial) (fun t ht => ht)
      (fun id hid => by cases hid) rfl (Or.inl rfl)
  · have hrange : ∀ id : Nat, ∀ q ∈ s.shared.placeholders (c.level + 1),
        ¬ Overlaps q.min q.max min max := by
      intro id q hq hov
      exact hany (List.any_eq_true.mpr ⟨q, hq, (q.overlaps_iff min max).mpr hov⟩)
    have hplaced : ∀ id next, (⟨min, max, id⟩ : TablePlaceholder) ∈
        (s.shared.place (c.level + 1) ⟨min, max, id⟩ next).placeholders (c.level + 1) ∧
        Covered (s.shared.place (c.level + 1) ⟨min, max, id⟩ next) c min max := by
      intro id next
      exact ⟨(s.shared.mem_place_iff _ _ _ _ _).mpr (Or.inr ⟨rfl, rfl⟩), hcovered⟩
    have hclaim' : ∀ p next, Claim (s.shared.place (c.level + 1) p next) c :=
      fun p next => ⟨hclaim.parents_mem, hclaim.children_mem, hclaim.flagged, hclaim.nodup⟩
    split
    · rename_i table hparents hchildren
      have hshared := shared_place s (c.level + 1) ⟨min, max, table.getId⟩ s.manifest
      have hheld : table ∈ c.parents := by simp [hparents]
      suffices hsuff : OwnInv numLevels ((s.shared.place (c.level + 1)
          ⟨min, max, table.getId⟩ s.manifest.nextTableId).setTask i (.moving c table.getId)) by
        rw [← hshared] at hsuff
        exact hsuff
      refine h.place (p := ⟨min, max, table.getId⟩) hi (le_refl _) rfl rfl ?_
        (hrange table.getId) (fun q hq => h.placeholder_id_ne hi rfl hheld hq)
        (fun id hid => by cases hid) ?_
      · rw [TaskPc.placeholder, hmin, hmax]
        rfl
      · refine ⟨hclaim' _ _, fun _ => hclosed.frame rfl rfl rfl, ?_, fun id hid => (by cases hid),
          hchildren, table, hparents, rfl⟩
        intro p hp
        have hp' : (⟨hullMin c.inputs, hullMax c.inputs, table.getId⟩ : TablePlaceholder) = p :=
          Option.some.inj hp
        rw [← hp', ← hmin, ← hmax]
        exact hplaced _ _
    · have hshared := shared_place s (c.level + 1) ⟨min, max, s.manifest.nextTableId⟩
        { s.manifest with nextTableId := s.manifest.nextTableId + 1 }
      suffices hsuff : OwnInv numLevels ((s.shared.place (c.level + 1)
          ⟨min, max, s.manifest.nextTableId⟩ (s.manifest.nextTableId + 1)).setTask i
            (.merging c s.manifest.nextTableId)) by
        rw [← hshared] at hsuff
        exact hsuff
      refine h.place (p := ⟨min, max, s.manifest.nextTableId⟩) hi (Nat.le_succ _) rfl rfl ?_
        (hrange s.manifest.nextTableId) (fun q hq => ne_of_lt (h.placeholder_id_lt hq)) ?_ ?_
      · rw [TaskPc.placeholder, hmin, hmax]
        rfl
      · intro id hid
        exact le_of_eq (Option.some.inj hid)
      · refine ⟨hclaim' _ _, fun _ => hclosed.frame rfl rfl rfl, ?_, ?_, trivial⟩
        · intro p hp
          have hp' : (⟨hullMin c.inputs, hullMax c.inputs, s.manifest.nextTableId⟩ :
              TablePlaceholder) = p := Option.some.inj hp
          rw [← hp', ← hmin, ← hmax]
          exact hplaced _ _
        · intro id hid
          obtain rfl : s.manifest.nextTableId = id := Option.some.inj hid
          refine ⟨⟨Nat.lt_succ_self _, fun l t ht => ne_of_lt (h.tables.lt_next l t ht)⟩, ?_⟩
          intro hpend
          exact absurd (h.pending _ hpend).1.1 (lt_irrefl _)

theorem ownInv_mergeTables
    {params : Params} {tableId : Nat}
    (h : OwnInv numLevels s.shared)
    (hi : s.tasks[i]? = some (.merging c tableId)) :
    OwnInv numLevels (mergeTables params s i c tableId).shared := by
  have hok := h.tasks i _ hi
  unfold mergeTables
  split_ifs with hne
  · refine h.advance hi ⟨hok.claim, fun _ => hok.closed rfl, hok.placed, hok.fresh,
      params, hne, rfl⟩ (fun t ht => ht) (fun id hid => hid) rfl (Or.inl rfl)
  · have hclosed : Closed numLevels s.shared c := hok.closed rfl
    exact absurd (List.append_ne_nil_of_left_ne_nil hclosed.nonempty c.children) hne

theorem Installs.ownInv
    {s' : DbState} {t : SortedTable}
    (h : Installs numLevels s s' i c t) :
    OwnInv numLevels s'.shared := by
  have hinst := h.installed
  generalize (s.manifest.updateTableSet [(c.level + 1, t.getId)] (removeSet c)).2 = outcome
    at hinst
  cases outcome with
  | none =>
      exact h.ready.ownInv hinst (TaskOk.idle _ _) rfl rfl rfl
  | some reason =>
      exact h.ready.ownInv hinst (TaskOk.panicked _ _ _) rfl rfl rfl

theorem ownInv_taskStep
    {params : Params}
    (h : OwnInv params.numLevels s.shared)
    (i : Nat) :
    OwnInv params.numLevels (taskStep params s i).shared := by
  cases hi : s.tasks[i]? with
  | none =>
      simpa only [taskStep, hi] using h
  | some pc =>
      have hok := h.tasks i pc hi
      have hinstall : ∀ c, pc.toInstall = some c →
          OwnInv params.numLevels (taskStep params s i).shared := by
        intro c hc
        cases hread : s.isRead c.level || s.isRead (c.level + 1) with
        | true =>
            rw [taskStep_waits params hi hc hread]
            exact h
        | false =>
            obtain ⟨t, hinst⟩ := taskStep_installs params h hi hc hread
            exact hinst.ownInv
      cases pc with
      | idle | panicked =>
          simpa only [taskStep, hi] using h
      | chosen level table offset =>
          simpa only [taskStep, hi] using ownInv_flagChosen h hi
      | closing c offsets pos min max =>
          simpa only [taskStep, hi] using ownInv_closeOverlaps h hi
      | abortingPick c | abortingParents c =>
          simp only [taskStep, hi]
          split
          · exact h.advance hi (TaskOk.idle _ _) (fun t ht => by cases ht)
              (fun id hid => by cases hid) rfl (Or.inr rfl)
          · rename_i table rest hparents
            refine ownInv_abortCompaction h hi ?_ (hok.claim.dropParent hparents) ?_ rfl rfl rfl
              rfl trivial
            · simp [TaskPc.held, Compaction.inputs, hparents]
            · intro u hu
              simp only [TaskPc.held, Compaction.inputs, hparents] at hu ⊢
              exact List.mem_cons_of_mem _ hu
      | picked c =>
          have hclosed : Closed params.numLevels s.shared c := hok.closed rfl
          have hchildren : c.children = [] := hok.phase
          have hinputs : c.inputs = c.parents := by
            rw [Compaction.inputs, hchildren, List.append_nil]
          simp only [taskStep, hi]
          rw [if_neg (by simpa using hclosed.nonempty)]
          refine h.advance hi ⟨hok.claim, fun _ => hclosed, fun p hp => (by cases hp),
            fun id hid => (by cases hid), by rw [hinputs], by rw [hinputs], ?_⟩ (fun t ht => ht)
            (fun id hid => by cases hid) rfl (Or.inl rfl)
          intro j t hj
          omega
      | scanning c pos min max =>
          simpa only [taskStep, hi] using ownInv_scanOverlaps h hi
      | placing c min max =>
          simpa only [taskStep, hi] using ownInv_placePlaceholder h hi
      | abortingOverlaps c =>
          simp only [taskStep, hi]
          split
          · exact h.advance hi (TaskOk.ofClaim hok.claim rfl rfl rfl trivial) (fun t ht => ht)
              (fun id hid => by cases hid) rfl (Or.inl rfl)
          · rename_i table rest hchildren
            refine ownInv_abortCompaction h hi ?_ (hok.claim.dropChild hchildren) ?_ rfl rfl rfl
              rfl trivial
            · simp [TaskPc.held, Compaction.inputs, hchildren]
            · intro u hu
              simp only [TaskPc.held, Compaction.inputs, hchildren] at hu ⊢
              exact (List.Sublist.append_left (List.sublist_cons_self _ _) _).subset hu
      | moving c | installing c =>
          exact hinstall c rfl
      | merging c tableId =>
          simpa only [taskStep, hi] using ownInv_mergeTables h hi

/-! ## The flusher, writers and readers -/

theorem shared_congr
    {s s' : DbState}
    (hlevels : s'.levels = s.levels)
    (hflag : s'.compactionFlag = s.compactionFlag)
    (hnext : s'.manifest.nextTableId = s.manifest.nextTableId)
    (hpending : s'.flusher.pendingId = s.flusher.pendingId)
    (htasks : s'.tasks = s.tasks) :
    s'.shared = s.shared := by
  have htables : s'.tables = s.tables := by
    funext l
    rw [DbState.tables, DbState.tables, hlevels]
  have hplaceholders : s'.placeholders = s.placeholders := by
    funext l
    rw [DbState.placeholders, DbState.placeholders, hlevels]
  simp only [DbState.shared, htables, hplaceholders, hflag, hnext, hpending, htasks]

/-- A call of the manifest that hands no identifier out. -/
theorem shared_flusherCalls
    {call : Manifest × Option ManifestPanic} {next : FlusherPc}
    (hnext : call.1.nextTableId = s.manifest.nextTableId)
    (hpending : s.flusher.pendingId = none)
    (hpending' : next.pendingId = none) :
    (s.flusherCalls call next).shared = s.shared := by
  obtain ⟨manifest, outcome⟩ := call
  cases outcome with
  | none =>
      exact shared_congr rfl rfl hnext (hpending'.trans hpending.symm) rfl
  | some reason =>
      exact shared_congr rfl rfl hnext hpending.symm rfl

/-- What a step of the flusher means to the tasks: nothing, or an identifier is taken, its
table is published on level 0, or it is given up. -/
theorem FlusherStep.shared_cases
    {params : Params} {s' : DbState}
    (h : FlusherStep params s s') :
    s'.shared = s.shared ∨
      s'.shared = { s.shared with
        pending := some s.shared.nextTableId, nextTableId := s.shared.nextTableId + 1 } ∨
      (∃ t : SortedTable, s.shared.pending = some t.getId ∧
        (∀ pc ∈ s.tasks, pc.reads 0 = false) ∧
        s'.shared = { s.shared with
          tables := Function.update s.tables 0 (s.tables 0 ++ [t]), pending := none }) ∨
      s'.shared = { s.shared with pending := none } := by
  cases h with
  | stay =>
      exact Or.inl rfl
  | start hpc himm | write hpc hne | setOffset hpc hlt | removePage hpc hlt | truncated hpc hle
  | pop hpc himm =>
      exact Or.inl (shared_congr rfl rfl rfl (by rw [hpc]; rfl) rfl)
  | reserve hpc hne =>
      exact Or.inr (Or.inl rfl)
  | @add logOffset mem table hpc hread =>
      refine Or.inr (Or.inr (Or.inl ⟨table, congrArg FlusherPc.pendingId hpc,
        unread_of_not_isRead hread, ?_⟩))
      exact congrArg₂ (fun tables placeholders => Shared.mk tables placeholders
        s.compactionFlag s.manifest.nextTableId none s.tasks)
        (s.tables_addL0Table table) (s.placeholders_addL0Table table)
  | setSeqNumber hpc =>
      refine Or.inl (shared_flusherCalls ?_ (by rw [hpc]; rfl) rfl)
      unfold Manifest.setSeqNumberOffset
      split_ifs <;> rfl
  | register hpc =>
      exact Or.inl (shared_flusherCalls (s.manifest.updateTableSet_header _ _).1
        (by rw [hpc]; rfl) rfl)
  | setLogOffset hpc =>
      refine Or.inl (shared_flusherCalls ?_ (by rw [hpc]; rfl) rfl)
      unfold Manifest.setLogOffset
      split_ifs <;> rfl
  | failEmpty hpc hempty | failOffset hpc hle | failPop hpc himm =>
      exact Or.inr (Or.inr (Or.inr rfl))

theorem ownInv_doMemtableCompaction
    {params : Params}
    (h : OwnInv params.numLevels s.shared) :
    OwnInv params.numLevels (doMemtableCompaction params s).shared := by
  rcases (flusherStep_doMemtableCompaction params s).shared_cases with
    heq | heq | ⟨t, hpending, hread, heq⟩ | heq <;> rw [heq]
  · exact h
  · exact h.reserve
  · exact h.push params.numLevels_pos hpending hread
  · exact h.forget

theorem shared_writeOpts
    (params : Params) (s : DbState) (batch : List WriteOp) :
    (writeOpts params s batch).shared = s.shared := by
  unfold writeOpts
  dsimp only
  split_ifs <;> rfl

theorem shared_getBegin
    (s : DbState) (client : Nat) (key : Key) :
    (getBegin s client key).shared = s.shared := by
  unfold getBegin
  dsimp only
  split <;> rfl

theorem shared_getNext
    (params : Params) (s : DbState) (client : Nat) :
    (getNext params s client).shared = s.shared := by
  unfold getNext
  split
  · rfl
  · split <;> rfl
  · rename_i key start level triggered _
    unfold getLevel
    dsimp only
    have hlevel : (s.setLevel level { s.levels level with seekBasedCompaction :=
        ((s.levels level).get params s.allowedSeeks key).1.seekBasedCompaction }).shared =
        s.shared := shared_setLevel rfl rfl
    split
    · exact hlevel
    · split_ifs <;> exact hlevel
  · rfl

theorem ownInv_step
    (params : Params) (s : DbState) (e : DbEvent)
    (h : OwnInv params.numLevels s.shared) :
    OwnInv params.numLevels (step params s e).shared := by
  cases e with
  | write batch =>
      simpa only [step, shared_writeOpts] using h
  | getBegin client key =>
      simpa only [step, shared_getBegin] using h
  | getNext client =>
      simpa only [step, shared_getNext] using h
  | flusher =>
      exact ownInv_doMemtableCompaction h
  | compact i level =>
      exact ownInv_startCompaction h level
  | task i =>
      exact ownInv_taskStep h i

theorem ownInv_run
    (params : Params) (numTasks : Nat) (events : List DbEvent) :
    OwnInv params.numLevels ((DbState.new params numTasks).run params events).shared :=
  Runs.invariant (I := fun s : DbState => OwnInv params.numLevels s.shared)
    (ownInv_step params)
    (ownInv_new params numTasks) events

end Steps

end Logic
end LsmStore
