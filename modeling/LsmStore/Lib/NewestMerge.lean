import LsmStore.Lib.SortedAssoc

/-!
# Merging sorted runs, the highest rank first

A run is an association list with strictly increasing keys.  Merging several
runs gives one run that has every key of the inputs once, with the value of
the highest rank; among equal ranks the first run wins.

`mergeLoop` goes round by round: it moves every run behind the last key that
was written, finds the smallest key at the front of the runs, picks the value
of the highest rank for it and writes it.
-/

namespace LsmStore
namespace NewestMerge

open SortedAssoc

universe u v

variable {K : Type u} {V : Type v} [LinearOrder K]

/-- Move a run behind the last key that was written. -/
def advance (lastKey : Option K) (run : List (K × V)) : List (K × V) :=
  match lastKey with
  | some last => run.dropWhile (fun e => e.1 ≤ last)
  | none => run

/-- The smaller of a key found so far and the key at the front of a run. -/
def minFront (minKey : Option K) (run : List (K × V)) : Option K :=
  match run, minKey with
  | [], _ => minKey
  | e :: _, some key => if e.1 < key then some e.1 else some key
  | e :: _, none => some e.1

/-- The value at the front of a run replaces the one picked so far if it is for the key
and its rank is higher. -/
def pickFront (rank : V → Nat) (key : K) (picked : Option V) (run : List (K × V)) :
    Option V :=
  match run, picked with
  | [], _ => picked
  | e :: _, some v =>
      if e.1 = key then (if rank v < rank e.2 then some e.2 else some v) else some v
  | e :: _, none => if e.1 = key then some e.2 else none

/-- The rounds of the merge. -/
def mergeLoop (rank : V → Nat) : Nat → Option K → List (List (K × V)) → List (K × V)
  | 0, _, _ => []
  | fuel + 1, lastKey, runs =>
      let fronts := runs.map (advance lastKey)
      match fronts.foldl minFront none with
      | none => []
      | some key =>
          match fronts.foldl (pickFront rank key) none with
          | none => []
          | some v => (key, v) :: mergeLoop rank fuel (some key) fronts

/-- Number of entries of all runs. -/
def entryCount (runs : List (List (K × V))) : Nat :=
  (runs.map List.length).sum

/-- Merge the runs; every round but the last one uses up an entry. -/
def merge (rank : V → Nat) (runs : List (List (K × V))) : List (K × V) :=
  mergeLoop rank (entryCount runs + 1) none runs

/-- A key behind the last one that was written. -/
def Behind (lastKey : Option K) (key : K) : Prop :=
  ∀ last, lastKey = some last → last < key

theorem sorted_dropWhile
    {run : List (K × V)}
    (h : Sorted run)
    (P : K × V → Bool) :
    Sorted (run.dropWhile P) :=
  h.sublist (List.dropWhile_sublist P)

theorem advance_sorted
    {run : List (K × V)}
    (h : Sorted run)
    (lastKey : Option K) :
    Sorted (advance lastKey run) := by
  cases lastKey with
  | none =>
      exact h
  | some last =>
      exact sorted_dropWhile h _

/-- Advancing leaves exactly the entries behind the last key. -/
theorem mem_advance_iff
    {run : List (K × V)}
    (h : Sorted run)
    (lastKey : Option K) (e : K × V) :
    e ∈ advance lastKey run ↔ e ∈ run ∧ Behind lastKey e.1 := by
  cases lastKey with
  | none =>
      simp [advance, Behind]
  | some last =>
      simp only [advance, Behind, Option.some.injEq, forall_eq']
      induction run with
      | nil =>
          simp
      | cons a run ih =>
          by_cases ha : a.1 ≤ last
          · rw [List.dropWhile_cons_of_pos (by simpa using ha), ih h.tail, List.mem_cons]
            constructor
            · rintro ⟨hmem, hlt⟩
              exact ⟨Or.inr hmem, hlt⟩
            · rintro ⟨rfl | hmem, hlt⟩
              · exact absurd hlt (not_lt.mpr ha)
              · exact ⟨hmem, hlt⟩
          · rw [List.dropWhile_cons_of_neg (by simpa using ha)]
            constructor
            · intro hmem
              refine ⟨hmem, ?_⟩
              rcases List.mem_cons.mp hmem with rfl | htail
              · exact not_le.mp ha
              · exact lt_trans (not_le.mp ha) (h.head_lt htail)
            · exact fun hmem => hmem.1

/-- The best of the candidates in an order, or nothing if there is no candidate. -/
def Best {α : Type*} (r : α → α → Prop) (candidate : α → Prop) (best : Option α) : Prop :=
  (best = none → ∀ a, ¬ candidate a) ∧
    ∀ x, best = some x → candidate x ∧ ∀ a, candidate a → r a x

/-- A fold that keeps the better of what it has and what comes finds the best of all. -/
theorem best_foldl
    {α β : Type*} (r : α → α → Prop) {offer : β → Option α} {better : Option α → β → Option α}
    (hrefl : ∀ a, r a a)
    (htrans : ∀ {a b c}, r a b → r b c → r a c)
    (hstep : ∀ acc b, Best r (fun a => acc = some a ∨ offer b = some a) (better acc b))
    (bs : List β) (acc : Option α) :
    Best r (fun a => acc = some a ∨ ∃ b ∈ bs, offer b = some a) (bs.foldl better acc) := by
  induction bs generalizing acc with
  | nil =>
      constructor
      · rintro rfl a (hacc | ⟨b, hb, -⟩)
        · cases hacc
        · cases hb
      · rintro x rfl
        refine ⟨Or.inl rfl, ?_⟩
        rintro a (hacc | ⟨b, hb, -⟩)
        · cases hacc
          exact hrefl _
        · cases hb
  | cons b bs ih =>
      obtain ⟨hnone, hsome⟩ := ih (better acc b)
      obtain ⟨hstepNone, hstepSome⟩ := hstep acc b
      rw [List.foldl_cons]
      constructor
      · intro hfold a ha
        cases hb : better acc b with
        | none =>
            rcases ha with hacc | ⟨b', hb', hoffer⟩
            · exact hstepNone hb a (Or.inl hacc)
            · rcases List.mem_cons.mp hb' with rfl | hmem
              · exact hstepNone hb a (Or.inr hoffer)
              · exact hnone hfold a (Or.inr ⟨b', hmem, hoffer⟩)
        | some y =>
            exact hnone hfold y (Or.inl hb)
      · intro x hfold
        obtain ⟨hfrom, hbest⟩ := hsome x hfold
        -- what the step took over is bounded by the result
        have hfirst : ∀ a, acc = some a ∨ offer b = some a → r a x := by
          intro a ha
          cases hb : better acc b with
          | none =>
              exact absurd ha (hstepNone hb a)
          | some y =>
              exact htrans ((hstepSome y hb).2 a ha) (hbest y (Or.inl hb))
        constructor
        · rcases hfrom with hb | ⟨b', hmem, hoffer⟩
          · exact (hstepSome x hb).1.imp_right fun hoffer => ⟨b, List.mem_cons_self, hoffer⟩
          · exact Or.inr ⟨b', List.mem_cons_of_mem _ hmem, hoffer⟩
        · rintro a (hacc | ⟨b', hb', hoffer⟩)
          · exact hfirst a (Or.inl hacc)
          · rcases List.mem_cons.mp hb' with rfl | hmem
            · exact hfirst a (Or.inr hoffer)
            · exact hbest a (Or.inr ⟨b', hmem, hoffer⟩)

/-- The value a run has at its front for a key. -/
def frontValue (key : K) (run : List (K × V)) : Option V :=
  run.head?.bind fun e => if e.1 = key then some e.2 else none

theorem eq_cons_of_frontValue
    {key : K} {v : V} {run : List (K × V)}
    (h : frontValue key run = some v) :
    ∃ rest, run = (key, v) :: rest := by
  cases run with
  | nil =>
      cases h
  | cons e rest =>
      by_cases hk : e.1 = key
      · simp only [frontValue, List.head?_cons, Option.bind_some, if_pos hk,
          Option.some.injEq] at h
        exact ⟨rest, by rw [← hk, ← h]⟩
      · simp [frontValue, hk] at h

/-- The smallest key at the front of the runs. -/
theorem foldl_minFront
    (runs : List (List (K × V))) :
    Best (fun a key => key ≤ a) (fun a => ∃ run ∈ runs, run.head?.map Prod.fst = some a)
      (runs.foldl minFront none) := by
  have hstep : ∀ (acc : Option K) (run : List (K × V)), Best (fun a key => key ≤ a)
      (fun a => acc = some a ∨ run.head?.map Prod.fst = some a) (minFront acc run) := by
    intro acc run
    cases run with
    | nil =>
        cases acc <;> simp [Best, minFront]
    | cons e rest =>
        cases acc with
        | none =>
            simp [Best, minFront]
        | some a =>
            by_cases hlt : e.1 < a
            · simp [Best, minFront, hlt, le_of_lt hlt, or_imp, forall_and]
            · simp [Best, minFront, hlt, not_lt.mp hlt, or_imp, forall_and]
  simpa using best_foldl (fun a key => key ≤ a) le_refl (fun hab hbc => le_trans hbc hab)
    hstep runs none

/-- The value of the highest rank at the front of the runs. -/
theorem foldl_pickFront
    (rank : V → Nat) (key : K) (runs : List (List (K × V))) :
    Best (fun a v => rank a ≤ rank v) (fun a => ∃ run ∈ runs, frontValue key run = some a)
      (runs.foldl (pickFront rank key) none) := by
  have hstep : ∀ (acc : Option V) (run : List (K × V)), Best (fun a v => rank a ≤ rank v)
      (fun a => acc = some a ∨ frontValue key run = some a) (pickFront rank key acc run) := by
    intro acc run
    cases run with
    | nil =>
        cases acc <;> simp [Best, pickFront, frontValue]
    | cons e rest =>
        by_cases hk : e.1 = key
        · cases acc with
          | none =>
              simp [Best, pickFront, frontValue, hk]
          | some a =>
              by_cases hlt : rank a < rank e.2
              · simp [Best, pickFront, frontValue, hk, hlt, le_of_lt hlt, or_imp, forall_and]
              · simp [Best, pickFront, frontValue, hk, hlt, not_lt.mp hlt, or_imp, forall_and]
        · cases acc <;> simp [Best, pickFront, frontValue, hk]
  simpa using best_foldl (fun a v => rank a ≤ rank v) (fun a => le_refl (rank a))
    (fun hab hbc => le_trans hab hbc) hstep runs none

theorem advance_length_le
    (lastKey : Option K) (run : List (K × V)) :
    (advance lastKey run).length ≤ run.length := by
  cases lastKey with
  | none =>
      exact le_refl _
  | some last =>
      exact List.Sublist.length_le (List.dropWhile_sublist _)

theorem entryCount_map_advance_le
    (lastKey : Option K) (runs : List (List (K × V))) :
    entryCount (runs.map (advance lastKey)) ≤ entryCount runs := by
  unfold entryCount
  rw [List.map_map]
  exact List.sum_le_sum fun run _ => advance_length_le lastKey run

/-- Moving behind a key at the front of some run uses up an entry. -/
theorem entryCount_map_advance_lt
    {runs : List (List (K × V))} {key : K}
    (h : ∃ run ∈ runs, ∃ e rest, run = e :: rest ∧ e.1 = key) :
    entryCount (runs.map (advance (some key))) < entryCount runs := by
  obtain ⟨run, hrun, e, rest, rfl, rfl⟩ := h
  unfold entryCount
  rw [List.map_map]
  refine List.sum_lt_sum _ _ (fun run _ => advance_length_le _ run) ⟨e :: rest, hrun, ?_⟩
  have hdrop : advance (some e.1) (e :: rest) = advance (some e.1) rest := by
    simp [advance]
  simp only [Function.comp_apply, hdrop, List.length_cons]
  exact Nat.lt_succ_of_le (advance_length_le _ rest)

/-- The entries a round starts with are those behind the last key. -/
theorem mem_map_advance_iff
    {lastKey : Option K} {runs : List (List (K × V))}
    (hsorted : ∀ run ∈ runs, Sorted run)
    (e : K × V) :
    (∃ run ∈ runs.map (advance lastKey), e ∈ run) ↔
      Behind lastKey e.1 ∧ ∃ run ∈ runs, e ∈ run := by
  constructor
  · rintro ⟨run, hrun, he⟩
    obtain ⟨run', hrun', rfl⟩ := List.mem_map.mp hrun
    obtain ⟨he', hbehind⟩ := (mem_advance_iff (hsorted run' hrun') lastKey e).mp he
    exact ⟨hbehind, run', hrun', he'⟩
  · rintro ⟨hbehind, run, hrun, he⟩
    exact ⟨_, List.mem_map_of_mem hrun,
      (mem_advance_iff (hsorted run hrun) lastKey e).mpr ⟨he, hbehind⟩⟩

/-- One round: either nothing is left, or the smallest key is written with the highest rank
it has. -/
theorem mergeLoop_round
    (rank : V → Nat) (fuel : Nat)
    {lastKey : Option K} {runs : List (List (K × V))}
    (hfronts : ∀ run ∈ runs.map (advance lastKey), Sorted run) :
    ((∀ run ∈ runs.map (advance lastKey), run = []) ∧
      mergeLoop rank (fuel + 1) lastKey runs = []) ∨
    ∃ key v, mergeLoop rank (fuel + 1) lastKey runs =
        (key, v) :: mergeLoop rank fuel (some key) (runs.map (advance lastKey)) ∧
      (∃ run ∈ runs.map (advance lastKey), ∃ rest, run = (key, v) :: rest) ∧
      ∀ run ∈ runs.map (advance lastKey), ∀ e ∈ run,
        key < e.1 ∨ (e.1 = key ∧ rank e.2 ≤ rank v) := by
  obtain ⟨hminNone, hminSome⟩ := foldl_minFront (runs.map (advance lastKey))
  cases hmin : (runs.map (advance lastKey)).foldl minFront none with
  | none =>
      refine Or.inl ⟨?_, by simp [mergeLoop, hmin]⟩
      intro run hrun
      by_contra hne
      obtain ⟨e, rest, rfl⟩ := List.exists_cons_of_ne_nil hne
      exact hminNone hmin e.1 ⟨_, hrun, rfl⟩
  | some key =>
      obtain ⟨⟨front, hfront, hhead⟩, hle⟩ := hminSome key hmin
      obtain ⟨hpickNone, hpickSome⟩ := foldl_pickFront rank key (runs.map (advance lastKey))
      cases hpick : (runs.map (advance lastKey)).foldl (pickFront rank key) none with
      | none =>
          obtain ⟨e, he, hkey⟩ := Option.map_eq_some_iff.mp hhead
          exact absurd ⟨front, hfront, by simp [frontValue, he, hkey]⟩ (hpickNone hpick e.2)
      | some v =>
          obtain ⟨⟨picked, hpicked, hvalue⟩, hmax⟩ := hpickSome v hpick
          refine Or.inr ⟨key, v, by simp [mergeLoop, hmin, hpick], ⟨picked, hpicked, ?_⟩, ?_⟩
          · exact eq_cons_of_frontValue hvalue
          · intro run hrun e he
            obtain ⟨first, tail, rfl⟩ := List.exists_cons_of_ne_nil (List.ne_nil_of_mem he)
            have hkeyLe : key ≤ first.1 := hle first.1 ⟨_, hrun, rfl⟩
            rcases List.mem_cons.mp he with rfl | htail
            · rcases eq_or_lt_of_le hkeyLe with hkey | hlt
              · exact Or.inr ⟨hkey.symm, hmax e.2 ⟨_, hrun, by simp [frontValue, hkey]⟩⟩
              · exact Or.inl hlt
            · exact Or.inl (lt_of_le_of_lt hkeyLe ((hfronts _ hrun).head_lt htail))

/-- What the rounds of the merge write. -/
theorem mergeLoop_spec
    (rank : V → Nat) (fuel : Nat)
    {lastKey : Option K} {runs : List (List (K × V))}
    (hsorted : ∀ run ∈ runs, Sorted run)
    (hfuel : entryCount (runs.map (advance lastKey)) < fuel) :
    Sorted (mergeLoop rank fuel lastKey runs) ∧
    (∀ e ∈ mergeLoop rank fuel lastKey runs,
      Behind lastKey e.1 ∧ ∃ run ∈ runs, e ∈ run) ∧
    ∀ run ∈ runs, ∀ e ∈ run, Behind lastKey e.1 →
      ∃ v, (e.1, v) ∈ mergeLoop rank fuel lastKey runs ∧ rank e.2 ≤ rank v := by
  induction fuel generalizing lastKey runs with
  | zero =>
      omega
  | succ fuel ih =>
      have hmem := @mem_map_advance_iff _ _ _ lastKey runs hsorted
      have hfronts : ∀ run ∈ runs.map (advance lastKey), Sorted run := by
        intro run hrun
        obtain ⟨run', hrun', rfl⟩ := List.mem_map.mp hrun
        exact advance_sorted (hsorted run' hrun') lastKey
      rcases mergeLoop_round rank fuel hfronts with
        ⟨hempty, hout⟩ | ⟨key, v, hout, ⟨picked, hpicked, rest, heq⟩, hkey⟩
      · rw [hout]
        refine ⟨List.Pairwise.nil, by simp, ?_⟩
        intro run hrun e he hbehind
        obtain ⟨front, hfront, he'⟩ := (hmem e).mpr ⟨hbehind, run, hrun, he⟩
        rw [hempty front hfront] at he'
        cases he'
      · have hcount : entryCount ((runs.map (advance lastKey)).map (advance (some key))) <
            entryCount (runs.map (advance lastKey)) :=
          entryCount_map_advance_lt ⟨picked, hpicked, (key, v), rest, heq, rfl⟩
        obtain ⟨hsortedOut, hsound, hcomplete⟩ :=
          @ih (some key) (runs.map (advance lastKey)) hfronts (by omega)
        rw [hout]
        refine ⟨?_, ?_, ?_⟩
        · refine List.pairwise_cons.mpr ⟨?_, hsortedOut⟩
          intro e he
          exact (hsound e he).1 key rfl
        · intro e he
          rcases List.mem_cons.mp he with rfl | he
          · exact (hmem (key, v)).mp ⟨picked, hpicked, by rw [heq]; exact List.mem_cons_self⟩
          · exact (hmem e).mp (hsound e he).2
        · intro run hrun e he hbehind
          obtain ⟨front, hfront, he'⟩ := (hmem e).mpr ⟨hbehind, run, hrun, he⟩
          rcases hkey front hfront e he' with hlt | ⟨rfl, hrank⟩
          · obtain ⟨w, hw, hrank⟩ := hcomplete front hfront e he' (by rintro last ⟨⟩; exact hlt)
            exact ⟨w, List.mem_cons_of_mem _ hw, hrank⟩
          · exact ⟨v, List.mem_cons_self, hrank⟩

section Merge

variable (rank : V → Nat) {runs : List (List (K × V))}
  (hsorted : ∀ run ∈ runs, Sorted run)
include hsorted

theorem merge_sorted :
    Sorted (merge rank runs) :=
  (mergeLoop_spec rank _ hsorted (Nat.lt_succ_of_le (entryCount_map_advance_le none runs))).1

/-- Nothing is made up. -/
theorem mem_of_mem_merge
    {e : K × V}
    (h : e ∈ merge rank runs) :
    ∃ run ∈ runs, e ∈ run := by
  obtain ⟨-, hsound, -⟩ := mergeLoop_spec rank (entryCount runs + 1) hsorted
    (Nat.lt_succ_of_le (entryCount_map_advance_le none runs))
  exact (hsound e h).2

/-- Every key is kept, with a rank at least as high as that of any of its entries. -/
theorem exists_mem_merge
    {run : List (K × V)} {e : K × V}
    (hrun : run ∈ runs)
    (he : e ∈ run) :
    ∃ v, (e.1, v) ∈ merge rank runs ∧ rank e.2 ≤ rank v := by
  obtain ⟨-, -, hcomplete⟩ := mergeLoop_spec rank (entryCount runs + 1) hsorted
    (Nat.lt_succ_of_le (entryCount_map_advance_le none runs))
  exact hcomplete run hrun e he (by rintro last ⟨⟩)

end Merge

end NewestMerge
end LsmStore
