import LsmStore.Level
import LsmStore.Manifest

/-!
# Choosing the tables of a compaction

`maybe_start_compaction` picks a table of a level and, on level 0, all tables
that overlap the range of what was picked, again and again until the range does
not grow any more.  `get_overlaps` finds the tables of the level below in a
single pass and puts down a placeholder for the table to come.

Both set the flag of every table they return, and give the flags back if one of
the tables belongs to another compaction.  A table is known here by its place in
the level, and has a flag of its own.
-/

namespace LsmStore

open KeyRange

/-- The compaction flags of the tables of a level, by the place of the table. -/
abbrev Flags := Nat → Bool

/-- A table and its place in the level. -/
abbrev PlacedTable := SortedTable × Nat

namespace Flags

/-- `SortedTable::maybe_start_compaction`: whether the flag was free, and the flags after. -/
def maybeStartCompaction (flags : Flags) (pos : Nat) : Bool × Flags :=
  if flags pos then (false, flags) else (true, Function.update flags pos true)

/-- `SortedTable::abort_compaction`. -/
def abortCompaction (flags : Flags) (pos : Nat) : Outcome Flags :=
  if flags pos then .value (Function.update flags pos false)
  else .panic "Compaction flag was not set!"

/-- `for table in tables { table.abort_compaction(); }`. -/
def abortAll : List PlacedTable → Flags → Outcome Flags
  | [], flags => .value flags
  | table :: tables, flags => do
      let flags ← flags.abortCompaction table.2
      abortAll tables flags

end Flags

/-! ## The flags a call has set -/

/-- From `flags` to `flags'`, exactly the flags of the given tables were set. -/
structure Flagged (flags flags' : Flags) (tables : List PlacedTable) : Prop where
  nodup : (tables.map Prod.snd).Nodup
  before : ∀ t ∈ tables, flags t.2 = false
  after : ∀ t ∈ tables, flags' t.2 = true
  others : ∀ pos, pos ∉ tables.map Prod.snd → flags' pos = flags pos

namespace Flagged

variable {flags flags' : Flags} {tables : List PlacedTable}

theorem nil
    (flags : Flags) :
    Flagged flags flags [] :=
  ⟨List.nodup_nil, fun _ h => absurd h List.not_mem_nil, fun _ h => absurd h List.not_mem_nil,
    fun _ _ => rfl⟩

/-- A table whose flag is free is none of those that were flagged. -/
theorem not_mem
    (h : Flagged flags flags' tables)
    {pos : Nat}
    (hfree : flags' pos = false) :
    pos ∉ tables.map Prod.snd := by
  intro hmem
  obtain ⟨t, ht, rfl⟩ := List.mem_map.mp hmem
  cases hfree.symm.trans (h.after t ht)

theorem concat
    (h : Flagged flags flags' tables)
    {t : PlacedTable}
    (hfree : flags' t.2 = false) :
    Flagged flags (Function.update flags' t.2 true) (tables ++ [t]) := by
  have hnot := h.not_mem hfree
  refine ⟨?_, ?_, ?_, ?_⟩
  · exact nodup_map_concat h.nodup fun u hu heq => hnot (heq ▸ List.mem_map_of_mem hu)
  · intro u hu
    rcases List.mem_append.mp hu with hold | hnew
    · exact h.before u hold
    · rw [List.mem_singleton.mp hnew, ← h.others t.2 hnot, hfree]
  · intro u hu
    by_cases heq : u.2 = t.2
    · rw [heq, Function.update_self]
    · rw [Function.update_of_ne heq]
      rcases List.mem_append.mp hu with hold | hnew
      · exact h.after u hold
      · exact absurd (congrArg Prod.snd (List.mem_singleton.mp hnew)) heq
  · intro pos hpos
    rw [List.map_append, List.map_singleton, List.mem_append, List.mem_singleton, not_or] at hpos
    rw [Function.update_of_ne hpos.2, h.others pos hpos.1]

/-- The loop over the tables that were flagged gives all their flags back. -/
theorem abortAll
    (h : Flagged flags flags' tables) :
    Flags.abortAll tables flags' = .value flags := by
  induction tables generalizing flags' with
  | nil =>
      have hsame : flags' = flags := funext fun pos => h.others pos List.not_mem_nil
      rw [hsame]
      rfl
  | cons t tables ih =>
      obtain ⟨hnot, hnodup⟩ := List.nodup_cons.mp h.nodup
      have hset : Flags.abortCompaction flags' t.2 =
          .value (Function.update flags' t.2 false) :=
        if_pos (h.after t List.mem_cons_self)
      rw [Flags.abortAll, hset, Outcome.value_bind]
      refine ih ⟨hnodup, fun u hu => h.before u (List.mem_cons_of_mem _ hu), ?_, ?_⟩
      · intro u hu
        have hne : u.2 ≠ t.2 := fun heq => hnot (heq ▸ List.mem_map_of_mem hu)
        rw [Function.update_of_ne hne]
        exact h.after u (List.mem_cons_of_mem _ hu)
      · intro pos hpos
        by_cases heq : pos = t.2
        · rw [heq, Function.update_self, h.before t List.mem_cons_self]
        · rw [Function.update_of_ne heq]
          refine h.others pos ?_
          rw [List.map_cons, List.mem_cons, not_or]
          exact ⟨heq, hpos⟩

end Flagged

/-- Every table stands at its place. -/
def InPlace (all : List SortedTable) (tables : List PlacedTable) : Prop :=
  ∀ t ∈ tables, all[t.2]? = some t.1

/-! ## The parent level -/

/-- What `maybe_start_compaction` returns: `Err(())` stands for lock contention. -/
abbrev Picked := Except Unit (Option (List PlacedTable))

/-- The `for` loop over all tables, up to the first one that is not picked yet and overlaps. -/
def firstOverlap (offsets : List Nat) (min max : Key) : List PlacedTable → Option PlacedTable
  | [] => none
  | (table, pos) :: rest =>
      if pos ∈ offsets then firstOverlap offsets min max rest
      else if table.overlaps min max then some (table, pos)
      else firstOverlap offsets min max rest

/-- `while change`. -/
def collectOverlaps (all : List SortedTable) :
    Nat → List PlacedTable → Key → Key → Flags → Outcome (Flags × Picked)
  | 0, _, _, _, _ => .unfinished
  | fuel + 1, tables, min, max, flags =>
      match firstOverlap (tables.map Prod.snd) min max all.zipIdx with
      | none => .value (flags, .ok (some tables))
      | some (table, pos) =>
          match flags.maybeStartCompaction pos with
          | (true, flags) =>
              collectOverlaps all fuel (tables ++ [(table, pos)])
                (Min.min min table.getMin) (Max.max max table.getMax) flags
          | (false, flags) => do
              let flags ← Flags.abortAll tables flags
              .value (flags, .error ())

/-- `Level::maybe_start_compaction`; only level 0 may have overlapping tables. -/
def Level.maybeStartCompaction (level : Level) (index : Nat) (flags : Flags) :
    Outcome (Level × Flags × Picked) :=
  match level.choose index with
  | (level, .nothingToDo) => .value (level, flags, .ok none)
  | (_, .emptyLevel) => .panic s!"Cannot start compaction; level {index} is empty"
  | (level, .table table offset) =>
      match flags.maybeStartCompaction offset with
      | (false, flags) => .value (level, flags, .error ())
      | (true, flags) =>
          if index = 0 then do
            let collected ← collectOverlaps level.tables level.tables.length [(table, offset)]
              table.getMin table.getMax flags
            .value (level, collected.1, collected.2)
          else .value (level, flags, .ok (some [(table, offset)]))

section Parent

variable {all : List SortedTable} {tables : List PlacedTable} {min max : Key}

theorem firstOverlap_none
    {offsets : List Nat} {entries : List PlacedTable}
    (h : firstOverlap offsets min max entries = none) :
    ∀ t ∈ entries, t.2 ∈ offsets ∨ t.1.overlaps min max = false := by
  induction entries with
  | nil =>
      intro t ht
      cases ht
  | cons entry entries ih =>
      obtain ⟨table, pos⟩ := entry
      rw [firstOverlap] at h
      intro t ht
      split_ifs at h with hpos hover
      · rcases List.mem_cons.mp ht with rfl | ht
        · exact Or.inl hpos
        · exact ih h t ht
      · rcases List.mem_cons.mp ht with rfl | ht
        · exact Or.inr (Bool.eq_false_of_not_eq_true hover)
        · exact ih h t ht

theorem firstOverlap_some
    {offsets : List Nat} {entries : List PlacedTable} {t : PlacedTable}
    (h : firstOverlap offsets min max entries = some t) :
    t ∈ entries ∧ t.2 ∉ offsets ∧ t.1.overlaps min max = true := by
  induction entries with
  | nil =>
      cases h
  | cons entry entries ih =>
      obtain ⟨table, pos⟩ := entry
      rw [firstOverlap] at h
      split_ifs at h with hpos hover
      · obtain ⟨hmem, hrest⟩ := ih h
        exact ⟨List.mem_cons_of_mem _ hmem, hrest⟩
      · cases h
        exact ⟨List.mem_cons_self, hpos, hover⟩
      · obtain ⟨hmem, hrest⟩ := ih h
        exact ⟨List.mem_cons_of_mem _ hmem, hrest⟩

/-- Different tables have different places, so there are at most as many as the level has. -/
theorem length_le_of_inPlace
    (hplace : InPlace all tables)
    (hnodup : (tables.map Prod.snd).Nodup) :
    tables.length ≤ all.length := by
  have hsub : tables.map Prod.snd ⊆ List.range all.length := by
    intro pos hpos
    obtain ⟨t, ht, rfl⟩ := List.mem_map.mp hpos
    exact List.mem_range.mpr (List.getElem?_eq_some_iff.mp (hplace t ht)).1
  have hle := (hnodup.subperm hsub).length_le
  rwa [List.length_map, List.length_range] at hle

theorem InPlace.concat
    (h : InPlace all tables)
    {t : PlacedTable}
    (ht : all[t.2]? = some t.1) :
    InPlace all (tables ++ [t]) := by
  intro u hu
  rcases List.mem_append.mp hu with hold | hnew
  · exact h u hold
  · rw [List.mem_singleton.mp hnew]
    exact ht

/-- A selection of tables of level 0: the tables are flagged, and no other table of the level
reaches into their hull. -/
structure ClosedSelection (all : List SortedTable) (flags flags' : Flags)
    (tables : List PlacedTable) : Prop where
  nonempty : tables ≠ []
  inPlace : InPlace all tables
  flagged : Flagged flags flags' tables
  closed : ∀ t pos, all[pos]? = some t →
    t.overlaps (hullMin (tables.map Prod.fst)) (hullMax (tables.map Prod.fst)) = true →
      (t, pos) ∈ tables

/-- The loop ends: it has picked all that overlaps, or it has given its flags back. -/
theorem collectOverlaps_spec
    {flags flags' : Flags} {fuel : Nat}
    (hfuel : all.length < fuel + tables.length)
    (hne : tables ≠ [])
    (hplace : InPlace all tables)
    (hflagged : Flagged flags flags' tables)
    (hmin : min = hullMin (tables.map Prod.fst))
    (hmax : max = hullMax (tables.map Prod.fst)) :
    (∃ flags'' picked, collectOverlaps all fuel tables min max flags' =
        .value (flags'', .ok (some picked)) ∧ ClosedSelection all flags flags'' picked) ∨
      collectOverlaps all fuel tables min max flags' = .value (flags, .error ()) := by
  induction fuel generalizing tables min max flags' with
  | zero =>
      have hle := length_le_of_inPlace hplace hflagged.nodup
      omega
  | succ fuel ih =>
      rw [collectOverlaps]
      cases hfirst : firstOverlap (tables.map Prod.snd) min max all.zipIdx with
      | none =>
          refine Or.inl ⟨flags', tables, rfl, hne, hplace, hflagged, ?_⟩
          intro t pos hget hover
          have hmem : (t, pos) ∈ all.zipIdx := List.mem_zipIdx_iff_getElem?.mpr hget
          rcases firstOverlap_none hfirst _ hmem with hpos | hnot
          · obtain ⟨u, hu, rfl⟩ := List.mem_map.mp hpos
            obtain rfl : u.1 = t := Option.some.inj ((hplace u hu).symm.trans hget)
            exact hu
          · rw [← hmin, ← hmax, hnot] at hover
            cases hover
      | some t =>
          obtain ⟨table, pos⟩ := t
          obtain ⟨hmem, -, -⟩ := firstOverlap_some hfirst
          have hget : all[pos]? = some table := List.mem_zipIdx_iff_getElem?.mp hmem
          dsimp only
          cases hflag : flags' pos with
          | true =>
              have hbusy : Flags.maybeStartCompaction flags' pos = (false, flags') :=
                if_pos hflag
              rw [hbusy]
              dsimp only
              rw [hflagged.abortAll]
              exact Or.inr rfl
          | false =>
              have hfree : Flags.maybeStartCompaction flags' pos =
                  (true, Function.update flags' pos true) :=
                if_neg (by rw [hflag]; exact Bool.false_ne_true)
              have hne' : tables.map Prod.fst ≠ [] := by
                rw [Ne, List.map_eq_nil_iff]
                exact hne
              rw [hfree]
              dsimp only
              refine ih ?_ (by simp) (hplace.concat hget)
                (hflagged.concat (t := (table, pos)) hflag) ?_ ?_
              · rw [List.length_append, List.length_singleton]
                omega
              · rw [List.map_append, List.map_singleton, hullMin_concat hne', hmin]
                rfl
              · rw [List.map_append, List.map_singleton, hullMax_concat hne', hmax]
                rfl

/-- **The selection of level 0 is closed under overlaps**: what `maybe_start_compaction`
returns has every table of the level that overlaps its hull, and exactly these tables were
flagged; if nothing is returned, no flag has changed.  The call always returns. -/
theorem Level.maybeStartCompaction_closed
    (level : Level) (flags : Flags) :
    ∃ level' flags' result,
      level.maybeStartCompaction 0 flags = .value (level', flags', result) ∧
        level'.tables = level.tables ∧
        (∀ tables, result = .ok (some tables) →
          ClosedSelection level.tables flags flags' tables) ∧
        (result = .ok none ∨ result = .error () → flags' = flags) := by
  unfold Level.maybeStartCompaction
  obtain ⟨htables, -⟩ := level.choose_frame 0
  have hempty := level.choose_ne_emptyLevel 0
  cases hchoose : level.choose 0 with
  | mk level' choice =>
      rw [hchoose] at htables hempty
      cases choice with
      | nothingToDo =>
          refine ⟨level', flags, .ok none, rfl, htables, ?_, fun _ => rfl⟩
          intro tables hresult
          cases hresult
      | emptyLevel =>
          exact absurd rfl hempty
      | table table offset =>
          have hget := choose_table hchoose
          dsimp only
          cases hflag : flags offset with
          | true =>
              have hbusy : Flags.maybeStartCompaction flags offset = (false, flags) :=
                if_pos hflag
              rw [hbusy]
              refine ⟨level', flags, .error (), rfl, htables, ?_, fun _ => rfl⟩
              intro tables hresult
              cases hresult
          | false =>
              have hfree : Flags.maybeStartCompaction flags offset =
                  (true, Function.update flags offset true) :=
                if_neg (by rw [hflag]; exact Bool.false_ne_true)
              have hfirst := (Flagged.nil flags).concat (t := (table, offset)) hflag
              have hplace : InPlace level'.tables [(table, offset)] := by
                intro t ht
                rw [List.mem_singleton.mp ht, htables]
                exact hget
              rw [hfree]
              dsimp only
              rw [if_pos rfl]
              have hfuel : level'.tables.length <
                  level'.tables.length + [(table, offset)].length :=
                Nat.lt_succ_self _
              rcases collectOverlaps_spec hfuel (List.cons_ne_nil _ _) hplace hfirst rfl rfl with
                ⟨flags'', picked, hrun, hclosed⟩ | hrun
              · have hrun' : collectOverlaps level'.tables level'.tables.length [(table, offset)]
                    table.getMin table.getMax (Function.update flags offset true) = _ := hrun
                rw [hrun', Outcome.value_bind]
                refine ⟨level', flags'', .ok (some picked), rfl, htables, ?_, ?_⟩
                · intro tables hresult
                  cases hresult
                  rw [← htables]
                  exact hclosed
                · rintro (hresult | hresult) <;> cases hresult
              · have hrun' : collectOverlaps level'.tables level'.tables.length [(table, offset)]
                    table.getMin table.getMax (Function.update flags offset true) = _ := hrun
                rw [hrun', Outcome.value_bind]
                refine ⟨level', flags, .error (), rfl, htables, ?_, fun _ => rfl⟩
                intro tables hresult
                cases hresult

end Parent

/-! ## The child level -/

/-- The loop of `get_overlaps` over the tables of the level; the range grows on the way.
`none` stands for lock contention, after which the flags are given back. -/
def scanTables : List PlacedTable → List PlacedTable → Key → Key → Flags →
    Outcome (Flags × Option (List PlacedTable × Key × Key))
  | [], tables, min, max, flags => .value (flags, some (tables, min, max))
  | (table, pos) :: rest, tables, min, max, flags =>
      if table.overlaps min max then
        match flags.maybeStartCompaction pos with
        | (true, flags) =>
            scanTables rest (tables ++ [(table, pos)]) (Min.min table.getMin min)
              (Max.max table.getMax max) flags
        | (false, flags) => do
            let flags ← Flags.abortAll tables flags
            .value (flags, none)
      else scanTables rest tables min max flags

/-- `Level::get_overlaps`.  The identifier offered for the fast path is used if there are no
overlaps. -/
def Level.getOverlaps (level : Level) (manifest : Manifest) (flags : Flags) (min max : Key)
    (fastPath : Option Nat) :
    Outcome (Level × Manifest × Flags × Option (Nat × List PlacedTable)) := do
  let scanned ← scanTables level.tables.zipIdx [] min max flags
  match scanned with
  | (flags, none) => .value (level, manifest, flags, none)
  | (flags, some (tables, min, max)) =>
      if level.tablePlaceholders.any (fun p => p.overlaps min max) then do
        let flags ← Flags.abortAll tables flags
        .value (level, manifest, flags, none)
      else
        let (manifest, tableId) :=
          match fastPath, tables with
          | some tableId, [] => (manifest, tableId)
          | _, _ => manifest.generateNextTableId
        let level := { level with
          tablePlaceholders := level.tablePlaceholders ++ [⟨min, max, tableId⟩] }
        .value (level, manifest, flags, some (tableId, tables))

section Child

variable {all : List SortedTable} {min max : Key}

/-- Tables that do not overlap each other. -/
def PairwiseDisjoint (all : List SortedTable) : Prop :=
  all.Pairwise fun t u => ¬ Overlaps t.minKey t.maxKey u.minKey u.maxKey

theorem PairwiseDisjoint.of_ne
    (h : PairwiseDisjoint all)
    {t u : SortedTable} {i j : Nat}
    (hi : all[i]? = some t)
    (hj : all[j]? = some u)
    (hij : i ≠ j) :
    ¬ Overlaps t.minKey t.maxKey u.minKey u.maxKey := by
  obtain ⟨hilt, rfl⟩ := List.getElem?_eq_some_iff.mp hi
  obtain ⟨hjlt, rfl⟩ := List.getElem?_eq_some_iff.mp hj
  rcases Nat.lt_or_gt_of_ne hij with hlt | hgt
  · exact List.pairwise_iff_getElem.mp h i j hilt hjlt hlt
  · exact fun hover => List.pairwise_iff_getElem.mp h j i hjlt hilt hgt hover.symm

/-- A range that reaches exactly the tables that `[min, max]` reaches. -/
def SameReach (all : List SortedTable) (min max lo hi : Key) : Prop :=
  ∀ t ∈ all, t.overlaps lo hi = t.overlaps min max

/-- Widening the range by a table that it reaches does not let it reach any other table. -/
theorem SameReach.widen
    {lo hi : Key} {t : SortedTable} {pos : Nat}
    (h : SameReach all min max lo hi)
    (hdisjoint : PairwiseDisjoint all)
    (hget : all[pos]? = some t)
    (hover : t.overlaps lo hi = true) :
    SameReach all min max (Min.min t.getMin lo) (Max.max t.getMax hi) := by
  intro u hu
  rw [← h u hu, Bool.eq_iff_iff, SortedTable.overlaps_iff, SortedTable.overlaps_iff]
  have hover' := (t.overlaps_iff lo hi).mp hover
  constructor
  · intro hwide
    obtain ⟨j, hj⟩ := List.getElem?_of_mem hu
    by_cases hpos : j = pos
    · subst hpos
      obtain rfl : t = u := Option.some.inj (hget.symm.trans hj)
      exact hover'
    · by_contra hnot
      refine not_overlaps_widen u.min_le_max hover' hnot (hdisjoint.of_ne hj hget hpos) ?_
      rw [min_comm, max_comm]
      exact hwide
  · exact fun hnarrow => hnarrow.mono (min_le_right _ _) (le_max_right _ _)

/-- One pass over the tables: it picks those that overlap the range it began with, or gives
its flags back. -/
theorem scanTables_spec
    {flags flags' : Flags} {entries tables : List PlacedTable} {lo hi : Key}
    (hdisjoint : PairwiseDisjoint all)
    (hplace : InPlace all entries)
    (hreach : SameReach all min max lo hi)
    (hflagged : Flagged flags flags' tables) :
    (∃ flags'' lo' hi' found,
        found = tables ++ entries.filter (fun t => t.1.overlaps min max) ∧
        lo' = (entries.filter fun t => t.1.overlaps min max).foldl
          (fun m t => Min.min t.1.getMin m) lo ∧
        hi' = (entries.filter fun t => t.1.overlaps min max).foldl
          (fun m t => Max.max t.1.getMax m) hi ∧
        scanTables entries tables lo hi flags' = .value (flags'', some (found, lo', hi')) ∧
        SameReach all min max lo' hi' ∧ Flagged flags flags'' found) ∨
      scanTables entries tables lo hi flags' = .value (flags, none) := by
  induction entries generalizing tables lo hi flags' with
  | nil =>
      exact Or.inl ⟨flags', lo, hi, tables, (List.append_nil _).symm, rfl, rfl, rfl, hreach,
        hflagged⟩
  | cons entry entries ih =>
      obtain ⟨table, pos⟩ := entry
      have hget := hplace _ List.mem_cons_self
      have hsame := hreach table (List.mem_of_getElem? hget)
      have hplace' : InPlace all entries := fun t ht => hplace t (List.mem_cons_of_mem _ ht)
      rw [scanTables]
      by_cases hover : table.overlaps lo hi = true
      · rw [if_pos hover,
          List.filter_cons_of_pos (by rw [← hsame]; exact hover)]
        cases hflag : flags' pos with
        | true =>
            have hbusy : Flags.maybeStartCompaction flags' pos = (false, flags') := if_pos hflag
            rw [hbusy]
            dsimp only
            rw [hflagged.abortAll]
            exact Or.inr rfl
        | false =>
            have hfree : Flags.maybeStartCompaction flags' pos =
                (true, Function.update flags' pos true) :=
              if_neg (by rw [hflag]; exact Bool.false_ne_true)
            rw [hfree]
            dsimp only
            rcases ih hplace' (hreach.widen hdisjoint hget hover)
              (hflagged.concat (t := (table, pos)) hflag) with
              ⟨flags'', lo', hi', found, hfound, hlo, hhi, hrun, hrest⟩ | hrun
            · refine Or.inl ⟨flags'', lo', hi', found, ?_, hlo, hhi, hrun, hrest⟩
              rw [hfound, List.append_assoc, List.singleton_append]
            · exact Or.inr hrun
      · rw [if_neg hover,
          List.filter_cons_of_neg (by rw [← hsame]; exact hover)]
        exact ih hplace' hreach hflagged

/-- What `get_overlaps` has found: the tables that the recorded range reaches are those that
the requested range reaches, and they were flagged by the call. -/
structure ExactOverlaps (level level' : Level) (flags flags' : Flags) (min max : Key)
    (tableId : Nat) (tables : List PlacedTable) (lo hi : Key) : Prop where
  placeholder : level'.tablePlaceholders = level.tablePlaceholders ++ [⟨lo, hi, tableId⟩]
  widened_min : lo = tables.foldl (fun m t => Min.min t.1.getMin m) min
  widened_max : hi = tables.foldl (fun m t => Max.max t.1.getMax m) max
  free : ∀ p ∈ level.tablePlaceholders, p.overlaps lo hi = false
  flagged : Flagged flags flags' tables
  mem_iff : ∀ t pos, (t, pos) ∈ tables ↔
    level.tables[pos]? = some t ∧ t.overlaps lo hi = true
  mem_iff_requested : ∀ t pos, (t, pos) ∈ tables ↔
    level.tables[pos]? = some t ∧ t.overlaps min max = true

/-- **One pass of `get_overlaps` suffices** on a level without overlaps: it returns exactly the
tables that overlap the range recorded in the new placeholder, or it leaves the flags and the
placeholders as they were.  The call always returns. -/
theorem Level.getOverlaps_exact
    (level : Level) (manifest : Manifest) (flags : Flags) (min max : Key)
    (fastPath : Option Nat)
    (hdisjoint : PairwiseDisjoint level.tables) :
    ∃ level' manifest' flags' result,
      level.getOverlaps manifest flags min max fastPath =
          .value (level', manifest', flags', result) ∧
        level'.tables = level.tables ∧
        (∀ tableId tables, result = some (tableId, tables) →
          ∃ lo hi, ExactOverlaps level level' flags flags' min max tableId tables lo hi) ∧
        (result = none →
          flags' = flags ∧ level'.tablePlaceholders = level.tablePlaceholders) := by
  have hplace : InPlace level.tables level.tables.zipIdx := by
    intro t ht
    exact List.mem_zipIdx_iff_getElem?.mp ht
  unfold Level.getOverlaps
  have hreach : SameReach level.tables min max min max := fun _ _ => rfl
  rcases scanTables_spec hdisjoint hplace hreach (Flagged.nil flags) with
    ⟨flags', lo, hi, found, hfound, hlo, hhi, hrun, hreach, hflagged⟩ | hrun
  · rw [hrun, Outcome.value_bind]
    dsimp only
    rw [List.nil_append] at hfound
    rw [← hfound] at hlo hhi
    by_cases hany : level.tablePlaceholders.any (fun p => p.overlaps lo hi) = true
    · rw [if_pos hany, hflagged.abortAll]
      refine ⟨level, manifest, flags, none, rfl, rfl, ?_, fun _ => ⟨rfl, rfl⟩⟩
      intro tableId tables hresult
      cases hresult
    · rw [if_neg hany]
      refine ⟨_, _, flags', _, rfl, rfl, ?_, ?_⟩
      · intro tableId tables hresult
        cases hresult
        have hrequested : ∀ t pos, (t, pos) ∈ found ↔
            level.tables[pos]? = some t ∧ t.overlaps min max = true := by
          intro t pos
          rw [hfound, List.mem_filter, List.mem_zipIdx_iff_getElem?]
        refine ⟨lo, hi, rfl, hlo, hhi, ?_, hflagged, ?_, hrequested⟩
        · intro p hp
          refine Bool.eq_false_of_not_eq_true fun hover => hany ?_
          exact List.any_eq_true.mpr ⟨p, hp, hover⟩
        · intro t pos
          rw [hrequested]
          refine and_congr_right fun hget => ?_
          rw [hreach t (List.mem_of_getElem? hget)]
      · intro hresult
        cases hresult
  · rw [hrun, Outcome.value_bind]
    refine ⟨level, manifest, flags, none, rfl, rfl, ?_, fun _ => ⟨rfl, rfl⟩⟩
    intro tableId tables hresult
    cases hresult

/-- A table with the deletion of a single key. -/
def singleKeyTable (identifier : Nat) (key : Key) : SortedTable where
  identifier := identifier
  entries := [(key, .deletion 1)]
  minKey := key
  maxKey := key
  size := 0
  sorted := List.pairwise_singleton _ _
  nonempty := List.cons_ne_nil _ _
  in_range := by
    intro e he
    rw [List.mem_singleton.mp he]
    exact ⟨le_refl _, le_refl _⟩

/-- Two tables, and a range that has the second one only. -/
theorem getOverlaps_exact_two_tables :
    let low : Key := ByteVec.ofList [1]
    let high : Key := ByteVec.ofList [3]
    let level := { Level.new with tables := [singleKeyTable 1 low, singleKeyTable 2 high] }
    let manifest : Manifest := ⟨3, 2, 1, 0, fun _ => []⟩
    PairwiseDisjoint level.tables ∧
      ∃ level' manifest' flags', level.getOverlaps manifest (fun _ => false) (ByteVec.ofList [2])
          (ByteVec.ofList [4]) none =
          .value (level', manifest', flags', some (3, [(singleKeyTable 2 high, 1)])) ∧
        ∃ lo hi, ExactOverlaps level level' (fun _ => false) flags' (ByteVec.ofList [2])
          (ByteVec.ofList [4]) 3 [(singleKeyTable 2 high, 1)] lo hi := by
  intro low high level manifest
  have hdisjoint : PairwiseDisjoint level.tables := by
    unfold PairwiseDisjoint
    decide +kernel
  obtain ⟨level', manifest', flags', result, hrun, -, hfound, -⟩ :=
    level.getOverlaps_exact manifest (fun _ => false) (ByteVec.ofList [2])
      (ByteVec.ofList [4]) none hdisjoint
  have hresult : result = some (3, [(singleKeyTable 2 high, 1)]) := by
    have hvalue := congrArg (fun o => o >>= fun r => .value r.2.2.2) hrun
    exact Outcome.value.inj (hvalue.symm.trans (by decide +kernel))
  subst hresult
  exact ⟨hdisjoint, level', manifest', flags', hrun, hfound _ _ rfl⟩

end Child

end LsmStore
