import LsmStore.Lib.NewestMerge

/-!
# What a search for the highest rank passes over

Going through a list, one keeps the element of the highest rank so far.  The
others are passed over in one of two ways: an element that was kept and then
gave way to a later one is overridden, and an element that was never kept is
skipped.

The rounds of a merge go through the values of one key each.  Together they go
through all entries of the runs.
-/

namespace LsmStore
namespace NewestMerge

open SortedAssoc

universe u v

section Search

variable {V : Type v} (rank : V → Nat)

/-- The better of what is kept and what comes. -/
def better (kept : Option V) (v : V) : Option V :=
  match kept with
  | some w => if rank w < rank v then some v else some w
  | none => some v

/-- What was kept and gave way to something of a higher rank. -/
def overridden : Option V → List V → List V
  | _, [] => []
  | none, v :: vs => overridden (some v) vs
  | some w, v :: vs =>
      if rank w < rank v then w :: overridden (some v) vs else overridden (some w) vs

/-- What was never kept. -/
def skipped : Option V → List V → List V
  | _, [] => []
  | none, v :: vs => skipped (some v) vs
  | some w, v :: vs =>
      if rank w < rank v then skipped (some v) vs else v :: skipped (some w) vs

variable {rank}

/-- Everything is kept, overridden or skipped. -/
theorem perm_search
    (rank : V → Nat) (kept : Option V) (vs : List V) :
    (kept.toList ++ vs).Perm
      ((vs.foldl (better rank) kept).toList ++
        (overridden rank kept vs ++ skipped rank kept vs)) := by
  induction vs generalizing kept with
  | nil =>
      simp [overridden, skipped]
  | cons v vs ih =>
      cases kept with
      | none =>
          exact ih (some v)
      | some w =>
          rw [List.foldl_cons, better, overridden, skipped]
          split_ifs with hlt
          · refine (List.Perm.cons w (ih (some v))).trans ?_
            exact List.perm_middle.symm
          · refine (List.Perm.swap v w vs).trans ((List.Perm.cons v (ih (some w))).trans ?_)
            rw [← List.append_assoc, ← List.append_assoc]
            exact List.perm_middle.symm

/-- What is kept comes from before, and has the highest rank so far. -/
theorem better_eq
    (rank : V → Nat) (kept : Option V) (v : V) :
    ∃ w, better rank kept v = some w ∧ w ∈ kept.toList ++ [v] ∧
      ∀ a ∈ kept.toList ++ [v], rank a ≤ rank w := by
  cases kept with
  | none =>
      exact ⟨v, rfl, by simp, by simp⟩
  | some w =>
      rw [better]
      split_ifs with hlt
      · exact ⟨v, rfl, by simp, by simp [le_of_lt hlt]⟩
      · exact ⟨w, rfl, by simp, by simp [not_lt.mp hlt]⟩

/-- A bound on everything before is a bound on what is kept. -/
theorem forall_lt_better_iff
    {kept : Option V} {v : V} {before : List V} {bound : Nat} :
    (∀ b ∈ (better rank kept v).toList ++ before, rank b < bound) ↔
      ∀ b ∈ kept.toList ++ v :: before, rank b < bound := by
  obtain ⟨w, hw, hmem, hmax⟩ := better_eq rank kept v
  have hsplit : kept.toList ++ v :: before = (kept.toList ++ [v]) ++ before := by simp
  rw [hw, hsplit]
  constructor
  · intro h b hb
    rcases List.mem_append.mp hb with hold | hnew
    · exact lt_of_le_of_lt (hmax b hold) (h w (List.mem_append_left _ (by simp)))
    · exact h b (List.mem_append_right _ hnew)
  · intro h b hb
    rcases List.mem_append.mp hb with hold | hnew
    · obtain rfl : b = w := by simpa using hold
      exact h b (List.mem_append_left _ hmem)
    · exact h b (List.mem_append_right _ hnew)

/-- An element is skipped if something before it has a rank at least as high. -/
theorem mem_skipped_iff
    {v : V} {kept : Option V} {vs : List V} :
    v ∈ skipped rank kept vs ↔ ∃ before after, vs = before ++ v :: after ∧
      ¬ ∀ b ∈ kept.toList ++ before, rank b < rank v := by
  induction vs generalizing kept with
  | nil =>
      simp [skipped]
  | cons x vs ih =>
      have hcons : v ∈ skipped rank kept (x :: vs) ↔
          (v = x ∧ ¬ ∀ b ∈ kept.toList, rank b < rank x) ∨
            v ∈ skipped rank (better rank kept x) vs := by
        cases kept with
        | none =>
            simp [skipped, better]
        | some w =>
            by_cases hlt : rank w < rank x <;> simp [skipped, better, hlt]
      rw [hcons, ih]
      constructor
      · rintro (⟨rfl, hbound⟩ | ⟨before, after, rfl, hbound⟩)
        · exact ⟨[], vs, rfl, by rw [List.append_nil]; exact hbound⟩
        · exact ⟨x :: before, after, rfl, fun h => hbound (forall_lt_better_iff.mpr h)⟩
      · rintro ⟨before, after, heq, hbound⟩
        cases before with
        | nil =>
            obtain ⟨rfl, rfl⟩ := List.cons.inj heq
            rw [List.append_nil] at hbound
            exact Or.inl ⟨rfl, hbound⟩
        | cons y before =>
            obtain ⟨rfl, rfl⟩ := List.cons.inj heq
            exact Or.inr ⟨before, after, rfl, fun h => hbound (forall_lt_better_iff.mp h)⟩

/-- An element is overridden if everything before it has a lower rank, and something behind it
a higher one. -/
theorem mem_overridden_iff
    {v : V} {kept : Option V} {vs : List V} :
    v ∈ overridden rank kept vs ↔ (kept = some v ∧ ∃ a ∈ vs, rank v < rank a) ∨
      ∃ before after, vs = before ++ v :: after ∧ (∀ b ∈ kept.toList ++ before, rank b < rank v) ∧
        ∃ a ∈ after, rank v < rank a := by
  induction vs generalizing kept with
  | nil =>
      simp [overridden]
  | cons x vs ih =>
      have hcons : v ∈ overridden rank kept (x :: vs) ↔
          (kept = some v ∧ rank v < rank x) ∨ v ∈ overridden rank (better rank kept x) vs := by
        cases kept with
        | none =>
            simp [overridden, better]
        | some w =>
            by_cases hlt : rank w < rank x
            · simp only [overridden, better, if_pos hlt, List.mem_cons, Option.some.injEq]
              refine or_congr_left ⟨?_, fun h => h.1.symm⟩
              rintro rfl
              exact ⟨rfl, hlt⟩
            · simp only [overridden, better, if_neg hlt, Option.some.injEq]
              refine ⟨Or.inr, ?_⟩
              rintro (⟨rfl, hlt'⟩ | h)
              · exact absurd hlt' hlt
              · exact h
      have hkept : better rank kept x = some v ↔
          (kept = some v ∧ ¬ rank v < rank x) ∨ (v = x ∧ ∀ b ∈ kept.toList, rank b < rank x) := by
        cases kept with
        | none =>
            simp [better, eq_comm]
        | some w =>
            by_cases hlt : rank w < rank x
            · simp only [better, if_pos hlt, Option.some.injEq, Option.toList_some,
                List.mem_singleton, forall_eq]
              refine ⟨fun h => Or.inr ⟨h.symm, hlt⟩, ?_⟩
              rintro (⟨rfl, hnot⟩ | ⟨rfl, -⟩)
              · exact absurd hlt hnot
              · rfl
            · simp only [better, if_neg hlt, Option.some.injEq, Option.toList_some,
                List.mem_singleton, forall_eq]
              refine ⟨fun h => Or.inl ⟨h, h ▸ hlt⟩, ?_⟩
              rintro (⟨h, -⟩ | ⟨-, hlt'⟩)
              · exact h
              · exact absurd hlt' hlt
      rw [hcons, ih, hkept]
      constructor
      · rintro (⟨hv, hlt⟩ | ⟨⟨hv, -⟩ | ⟨rfl, hbound⟩, a, ha, hlt⟩ |
          ⟨before, after, rfl, hbound, ha⟩)
        · exact Or.inl ⟨hv, x, List.mem_cons_self, hlt⟩
        · exact Or.inl ⟨hv, a, List.mem_cons_of_mem _ ha, hlt⟩
        · exact Or.inr ⟨[], vs, rfl, by rw [List.append_nil]; exact hbound, a, ha, hlt⟩
        · exact Or.inr ⟨x :: before, after, rfl, forall_lt_better_iff.mp hbound, ha⟩
      · rintro (⟨hv, a, ha, hlt⟩ | ⟨before, after, heq, hbound, a, ha, hlt⟩)
        · by_cases hx : rank v < rank x
          · exact Or.inl ⟨hv, hx⟩
          · rcases List.mem_cons.mp ha with rfl | htail
            · exact absurd hlt hx
            · exact Or.inr (Or.inl ⟨Or.inl ⟨hv, hx⟩, a, htail, hlt⟩)
        · cases before with
          | nil =>
              obtain ⟨rfl, rfl⟩ := List.cons.inj heq
              rw [List.append_nil] at hbound
              exact Or.inr (Or.inl ⟨Or.inr ⟨rfl, hbound⟩, a, ha, hlt⟩)
          | cons y before =>
              obtain ⟨rfl, rfl⟩ := List.cons.inj heq
              exact Or.inr (Or.inr ⟨before, after, rfl, forall_lt_better_iff.mpr hbound,
                a, ha, hlt⟩)

end Search

section Rounds

variable {K : Type u} {V : Type v} [LinearOrder K]

/-- The values the runs have at their front for a key. -/
def frontValues (key : K) (runs : List (List (K × V))) : List V :=
  runs.filterMap (frontValue key)

/-- The keys of the rounds, each with the values the round goes through. -/
def rounds : Nat → Option K → List (List (K × V)) → List (K × List V)
  | 0, _, _ => []
  | fuel + 1, lastKey, runs =>
      let fronts := runs.map (advance lastKey)
      match fronts.foldl minFront none with
      | none => []
      | some key => (key, frontValues key fronts) :: rounds fuel (some key) fronts

/-- The values a round goes through do not depend on where the runs stand. -/
def values (runs : List (List (K × V))) (key : K) : List V :=
  runs.filterMap fun run => lookup run key

variable {rank : V → Nat} {fuel : Nat} {lastKey : Option K} {runs : List (List (K × V))}
  {key : K}

theorem foldl_pickFront_eq
    (rank : V → Nat) (key : K) (runs : List (List (K × V))) (kept : Option V) :
    runs.foldl (pickFront rank key) kept = (frontValues key runs).foldl (better rank) kept := by
  induction runs generalizing kept with
  | nil =>
      rfl
  | cons run runs ih =>
      rw [List.foldl_cons, ih, frontValues, frontValues, List.filterMap_cons]
      cases run with
      | nil =>
          cases kept <;> rfl
      | cons e rest =>
          by_cases hkey : e.1 = key
          · cases kept <;> simp [frontValue, pickFront, better, hkey]
          · cases kept <;> simp [frontValue, pickFront, hkey]

theorem foldl_better_ne_none
    {vs : List V}
    (h : vs ≠ [])
    (rank : V → Nat) (kept : Option V) :
    vs.foldl (better rank) kept ≠ none := by
  obtain ⟨init, last, rfl⟩ := (List.eq_nil_or_concat vs).resolve_left h
  rw [List.concat_eq_append, List.foldl_append]
  obtain ⟨w, hw, -⟩ := better_eq rank (init.foldl (better rank) kept) last
  rw [List.foldl_cons, List.foldl_nil, hw]
  exact Option.some_ne_none w

/-- The smallest key is at the front of some run. -/
theorem frontValues_ne_nil
    (h : runs.foldl minFront none = some key) :
    frontValues key runs ≠ [] := by
  obtain ⟨⟨run, hrun, hhead⟩, -⟩ := (foldl_minFront runs).2 key h
  obtain ⟨e, he, hkey⟩ := Option.map_eq_some_iff.mp hhead
  refine List.ne_nil_of_mem (a := e.2) (List.mem_filterMap.mpr ⟨run, hrun, ?_⟩)
  simp [frontValue, he, hkey]

/-- The merge keeps the value of the highest rank out of every round. -/
theorem mergeLoop_eq_rounds
    (rank : V → Nat) (fuel : Nat) (lastKey : Option K) (runs : List (List (K × V))) :
    mergeLoop rank fuel lastKey runs = (rounds fuel lastKey runs).filterMap fun round =>
      (round.2.foldl (better rank) none).map fun v => (round.1, v) := by
  induction fuel generalizing lastKey runs with
  | zero =>
      rfl
  | succ fuel ih =>
      rw [mergeLoop, rounds]
      cases hmin : (runs.map (advance lastKey)).foldl minFront none with
      | none =>
          rfl
      | some key =>
          dsimp only
          rw [foldl_pickFront_eq, List.filterMap_cons]
          have hne := foldl_better_ne_none (frontValues_ne_nil hmin) rank none
          obtain ⟨v, hv⟩ := Option.ne_none_iff_exists'.mp hne
          dsimp only
          rw [hv, ih]
          rfl

section Sorted

/-- A run whose keys are not below a key. -/
theorem frontValue_eq_lookup
    {run : List (K × V)}
    (hsorted : Sorted run)
    (hle : ∀ e ∈ run, key ≤ e.1) :
    frontValue key run = lookup run key := by
  cases run with
  | nil =>
      rfl
  | cons e rest =>
      by_cases hkey : e.1 = key
      · simp [frontValue, lookup, hkey]
      · have hlt := lt_of_le_of_ne (hle e List.mem_cons_self) (Ne.symm hkey)
        have hnone : lookup rest key = none := (lookup_eq_none_iff rest key).mpr
          fun a ha => ne_of_gt (lt_trans hlt (hsorted.head_lt ha))
        simp [frontValue, lookup, hkey, hnone]

theorem lookup_advance
    {run : List (K × V)}
    (hsorted : Sorted run)
    (hbehind : Behind lastKey key) :
    lookup (advance lastKey run) key = lookup run key := by
  ext v
  rw [lookup_eq_some_iff (advance_sorted hsorted lastKey), lookup_eq_some_iff hsorted,
    mem_advance_iff hsorted]
  exact and_iff_left hbehind

theorem perm_front
    {run : List (K × V)}
    (hsorted : Sorted run)
    (hle : ∀ e ∈ run, key ≤ e.1) :
    run.map Prod.snd = (frontValue key run).toList ++ (advance (some key) run).map Prod.snd := by
  cases run with
  | nil =>
      rfl
  | cons e rest =>
      have hrest : ∀ a ∈ rest, key < a.1 := fun a ha =>
        lt_of_le_of_lt (hle e List.mem_cons_self) (hsorted.head_lt ha)
      have hstays : rest.dropWhile (fun a => a.1 ≤ key) = rest := by
        cases rest with
        | nil =>
            rfl
        | cons a rest =>
            rw [List.dropWhile_cons_of_neg (by simpa using hrest a List.mem_cons_self)]
      by_cases hkey : e.1 = key
      · simp [frontValue, advance, hkey, hstays]
      · have hlt := lt_of_le_of_ne (hle e List.mem_cons_self) (Ne.symm hkey)
        simp [frontValue, advance, hkey, hlt]

/-- A round takes the values of its key, and leaves the rest. -/
theorem perm_round
    (hsorted : ∀ run ∈ runs, Sorted run)
    (hle : ∀ run ∈ runs, ∀ e ∈ run, key ≤ e.1) :
    (runs.flatten.map Prod.snd).Perm
      (frontValues key runs ++ (runs.map (advance (some key))).flatten.map Prod.snd) := by
  induction runs with
  | nil =>
      rfl
  | cons run runs ih =>
      have hrest := ih (fun r hr => hsorted r (List.mem_cons_of_mem _ hr))
        fun r hr => hle r (List.mem_cons_of_mem _ hr)
      have hrun := perm_front (hsorted run List.mem_cons_self) (hle run List.mem_cons_self)
      have hfronts : frontValues key (run :: runs) =
          (frontValue key run).toList ++ frontValues key runs := by
        rw [frontValues, List.filterMap_cons]
        cases frontValue key run <;> rfl
      rw [List.flatten_cons, List.map_append, hrun, hfronts, List.map_cons, List.flatten_cons,
        List.map_append, List.append_assoc, List.append_assoc]
      refine List.Perm.append_left _ ((List.Perm.append_left _ hrest).trans ?_)
      rw [← List.append_assoc, ← List.append_assoc]
      exact List.Perm.append_right _ List.perm_append_comm

/-- A round begins with its key at the front of sorted runs. -/
theorem le_of_minFront
    (hsorted : ∀ run ∈ runs, Sorted run)
    (hmin : runs.foldl minFront none = some key) :
    ∀ run ∈ runs, ∀ e ∈ run, key ≤ e.1 := by
  intro run hrun e he
  obtain ⟨first, rest, rfl⟩ := List.exists_cons_of_ne_nil (List.ne_nil_of_mem he)
  have hfirst : key ≤ first.1 := ((foldl_minFront runs).2 key hmin).2 first.1 ⟨_, hrun, rfl⟩
  rcases List.mem_cons.mp he with rfl | htail
  · exact hfirst
  · exact le_of_lt (lt_of_le_of_lt hfirst ((hsorted _ hrun).head_lt htail))

theorem sorted_map_advance
    (hsorted : ∀ run ∈ runs, Sorted run)
    (lastKey : Option K) :
    ∀ run ∈ runs.map (advance lastKey), Sorted run := by
  intro run hrun
  obtain ⟨run', hrun', rfl⟩ := List.mem_map.mp hrun
  exact advance_sorted (hsorted run' hrun') lastKey

/-- **The rounds go through all entries.** -/
theorem perm_rounds
    (hsorted : ∀ run ∈ runs, Sorted run)
    (hfuel : entryCount (runs.map (advance lastKey)) < fuel) :
    ((runs.map (advance lastKey)).flatten.map Prod.snd).Perm
      ((rounds fuel lastKey runs).flatMap Prod.snd) := by
  induction fuel generalizing lastKey runs with
  | zero =>
      omega
  | succ fuel ih =>
      have hfronts := sorted_map_advance hsorted lastKey
      rw [rounds]
      cases hmin : (runs.map (advance lastKey)).foldl minFront none with
      | none =>
          have hnil : (runs.map (advance lastKey)).flatten = [] := by
            refine List.flatten_eq_nil_iff.mpr fun run hrun => ?_
            by_contra hne
            obtain ⟨e, rest, rfl⟩ := List.exists_cons_of_ne_nil hne
            exact (foldl_minFront _).1 hmin e.1 ⟨_, hrun, rfl⟩
          rw [hnil]
          rfl
      | some key =>
          obtain ⟨⟨run, hrun, hhead⟩, -⟩ := (foldl_minFront _).2 key hmin
          obtain ⟨e, he, hkey⟩ := Option.map_eq_some_iff.mp hhead
          obtain ⟨rest, rfl⟩ := List.head?_eq_some_iff.mp he
          have hless := entryCount_map_advance_lt ⟨_, hrun, e, rest, rfl, hkey⟩
          refine (perm_round hfronts (le_of_minFront hfronts hmin)).trans ?_
          exact List.Perm.append_left _ (ih hfronts (by omega))

/-- **Each round goes through the values of its key**, in the order of the runs. -/
theorem mem_rounds
    (hsorted : ∀ run ∈ runs, Sorted run)
    {round : K × List V}
    (h : round ∈ rounds fuel lastKey runs) :
    Behind lastKey round.1 ∧ round.2 = values runs round.1 := by
  induction fuel generalizing lastKey runs with
  | zero =>
      cases h
  | succ fuel ih =>
      have hfronts := sorted_map_advance hsorted lastKey
      rw [rounds] at h
      cases hmin : (runs.map (advance lastKey)).foldl minFront none with
      | none =>
          rw [hmin] at h
          cases h
      | some key =>
          rw [hmin] at h
          have hle := le_of_minFront hfronts hmin
          have hbehind : Behind lastKey key := by
            obtain ⟨⟨run, hrun, hhead⟩, -⟩ := (foldl_minFront _).2 key hmin
            obtain ⟨e, he, rfl⟩ := Option.map_eq_some_iff.mp hhead
            exact ((mem_map_advance_iff hsorted e).mp ⟨run, hrun, List.mem_of_head? he⟩).1
          have hlookup : ∀ key', Behind lastKey key' →
              values (runs.map (advance lastKey)) key' = values runs key' := by
            intro key' hkey'
            rw [values, values, List.filterMap_map]
            exact List.filterMap_congr fun run hrun => lookup_advance (hsorted run hrun) hkey'
          rcases List.mem_cons.mp h with rfl | htail
          · refine ⟨hbehind, ?_⟩
            rw [← hlookup key hbehind]
            exact List.filterMap_congr fun run hrun =>
              frontValue_eq_lookup (hfronts run hrun) (hle run hrun)
          · obtain ⟨hlater, hvalues⟩ := ih hfronts htail
            have hbehind' : Behind lastKey round.1 := fun last hlast =>
              lt_trans (hbehind last hlast) (hlater key rfl)
            exact ⟨hbehind', hvalues.trans (hlookup _ hbehind')⟩

end Sorted

/-! ## The rounds of a whole merge -/

/-- The rounds of a merge. -/
def mergeRounds (runs : List (List (K × V))) : List (K × List V) :=
  rounds (entryCount runs + 1) none runs

/-- Everything that the rounds override. -/
def overriddenIn (rank : V → Nat) (rounds : List (K × List V)) : List V :=
  rounds.flatMap fun round => overridden rank none round.2

/-- Everything that the rounds skip. -/
def skippedIn (rank : V → Nat) (rounds : List (K × List V)) : List V :=
  rounds.flatMap fun round => skipped rank none round.2

theorem map_advance_none
    (runs : List (List (K × V))) :
    runs.map (advance none) = runs :=
  List.map_id runs

omit [LinearOrder K] in
/-- What some rounds keep, override and skip is what they go through. -/
theorem perm_kept
    (rank : V → Nat) (rounds : List (K × List V)) :
    (rounds.flatMap Prod.snd).Perm
      ((rounds.filterMap fun round =>
          (round.2.foldl (better rank) none).map fun v => (round.1, v)).map Prod.snd ++
        (overriddenIn rank rounds ++ skippedIn rank rounds)) := by
  classical
  induction rounds with
  | nil =>
      rfl
  | cons round rounds ih =>
      have hkept : ((round :: rounds).filterMap fun round =>
          (round.2.foldl (better rank) none).map fun v => (round.1, v)).map Prod.snd =
            (round.2.foldl (better rank) none).toList ++ (rounds.filterMap fun round =>
              (round.2.foldl (better rank) none).map fun v => (round.1, v)).map Prod.snd := by
        rw [List.filterMap_cons]
        cases round.2.foldl (better rank) none <;> rfl
      refine List.perm_iff_count.mpr fun v => ?_
      have hround := (perm_search rank none round.2).count_eq v
      have hrest := ih.count_eq v
      rw [hkept]
      simp only [overriddenIn, skippedIn, List.flatMap_cons, List.count_append, Option.toList_none,
        List.count_nil] at hround hrest ⊢
      omega

/-- **A merge keeps, overrides or skips every value**, once for every entry that has it. -/
theorem perm_merge
    (rank : V → Nat)
    (hsorted : ∀ run ∈ runs, Sorted run) :
    (runs.flatten.map Prod.snd).Perm ((merge rank runs).map Prod.snd ++
      (overriddenIn rank (mergeRounds runs) ++ skippedIn rank (mergeRounds runs))) := by
  have hfuel : entryCount (runs.map (advance none)) < entryCount runs + 1 :=
    Nat.lt_succ_of_le (entryCount_map_advance_le none runs)
  have hrounds := perm_rounds hsorted hfuel
  rw [map_advance_none] at hrounds
  rw [merge, mergeLoop_eq_rounds]
  exact hrounds.trans (perm_kept rank _)

/-- There is a round for every key that a run has. -/
theorem mem_mergeRounds
    (hsorted : ∀ run ∈ runs, Sorted run)
    (h : values runs key ≠ []) :
    (key, values runs key) ∈ mergeRounds runs := by
  obtain ⟨v, hv⟩ := List.exists_mem_of_ne_nil _ h
  obtain ⟨run, hrun, hlookup⟩ := List.mem_filterMap.mp hv
  have hmem := (lookup_eq_some_iff (hsorted run hrun) key v).mp hlookup
  obtain ⟨w, hw, -⟩ := exists_mem_merge (fun _ => 0) hsorted hrun hmem
  rw [merge, mergeLoop_eq_rounds] at hw
  obtain ⟨round, hround, hkept⟩ := List.mem_filterMap.mp hw
  obtain ⟨kept, _, hpair⟩ := Option.map_eq_some_iff.mp hkept
  have hkey : round.1 = key := congrArg Prod.fst hpair
  have hvalues := (mem_rounds hsorted hround).2
  rw [hkey] at hvalues
  rw [← hvalues, ← hkey]
  exact hround

/-- What is found in the rounds is found in the values of some key. -/
theorem mem_flatMap_mergeRounds
    (hsorted : ∀ run ∈ runs, Sorted run)
    {f : List V → List V}
    (hnil : f [] = [])
    (v : V) :
    v ∈ (mergeRounds runs).flatMap (fun round => f round.2) ↔ ∃ key, v ∈ f (values runs key) := by
  rw [List.mem_flatMap]
  constructor
  · rintro ⟨round, hround, hv⟩
    rw [(mem_rounds hsorted hround).2] at hv
    exact ⟨round.1, hv⟩
  · rintro ⟨key, hv⟩
    refine ⟨_, mem_mergeRounds hsorted fun hempty => ?_, hv⟩
    rw [hempty, hnil] at hv
    cases hv

end Rounds

end NewestMerge
end LsmStore
