import Mathlib.Order.RelClasses
import Mathlib.Data.List.Pairwise
import Mathlib.Tactic

/-!
# Scanning several sorted runs at once

A scan visits the keys of several runs in the order `r`, each of which is sorted
by `r`, and for each key the entry of the highest rank; among equal ranks the
first run wins.  It starts at a bound and stops before another one.

Each round drops from every run what lies behind, takes what is then at the
front of the runs as candidates, and picks the best one.  `scan_spec` says
what a scan visits: exactly the winners of the keys in range.
-/

namespace LsmStore
namespace MergeScan

universe u v

variable {K : Type u} {V : Type v}

/-- Where a scan begins and ends. -/
structure Bounds (K : Type u) where
  start : Option K
  stop : Option K

section Definitions

variable (r : K → K → Prop) [DecidableRel r] [DecidableEq K] (rank : V → Nat)

/-- A key behind the last one that was visited. -/
def beyond (last : Option K) (k : K) : Bool :=
  last.all fun l => decide (r l k)

/-- A key not before the start. -/
def started (b : Bounds K) (k : K) : Bool :=
  b.start.all fun s => !decide (r k s)

/-- A key before the stop. -/
def within (b : Bounds K) (k : K) : Bool :=
  b.stop.all fun s => decide (r k s)

/-- Drop what was visited, and what is before the start. -/
def cut (b : Bounds K) (last : Option K) (run : List (K × V)) : List (K × V) :=
  (run.dropWhile fun e => !beyond r last e.1).dropWhile fun e => !started r b e.1

/-- What a run offers. -/
def candidate (b : Bounds K) (run : List (K × V)) : Option (K × V) :=
  run.head?.filter fun e => within r b e.1

/-- A candidate replaces the one picked so far if its key comes first, or if it is for the
same key and its rank is higher. -/
def pick (picked : Option (Nat × K × V)) (i : Nat) : Option (K × V) → Option (Nat × K × V)
  | none => picked
  | some e =>
      match picked with
      | none => some (i, e)
      | some (j, e') =>
          if r e.1 e'.1 ∨ (e.1 = e'.1 ∧ rank e'.2 < rank e.2) then some (i, e)
          else some (j, e')

/-- The best of some candidates, with its place. -/
def best (candidates : List (Option (K × V))) : Option (Nat × K × V) :=
  candidates.zipIdx.foldl (fun picked c => pick r rank picked c.2 c.1) none

/-- The rounds of a scan. -/
def scan (b : Bounds K) : Nat → Option K → List (List (K × V)) → List (Nat × K × V)
  | 0, _, _ => []
  | fuel + 1, last, runs =>
      let cuts := runs.map (cut r b last)
      match best r rank (cuts.map (candidate r b)) with
      | none => []
      | some found => found :: scan b fuel (some found.2.1) cuts

end Definitions

section Cut

variable {r : K → K → Prop}

/-- Keys are strictly sorted by `r`. -/
def Sorted (r : K → K → Prop) (run : List (K × V)) : Prop :=
  run.Pairwise fun a b => r a.1 b.1

/-- Dropping the first entries with a property that no entry regains. -/
theorem dropWhile_eq_filter
    {α : Type*} {p : α → Bool} {l : List α}
    (h : l.Pairwise fun a b => p a = false → p b = false) :
    l.dropWhile p = l.filter fun a => !p a := by
  induction l with
  | nil =>
      rfl
  | cons a l ih =>
      obtain ⟨hhead, htail⟩ := List.pairwise_cons.mp h
      cases ha : p a with
      | true =>
          rw [List.dropWhile_cons_of_pos ha, List.filter_cons_of_neg (by simp [ha]), ih htail]
      | false =>
          rw [List.dropWhile_cons_of_neg (by simp [ha]),
            List.filter_eq_self.mpr fun x hx => ?_]
          rcases List.mem_cons.mp hx with rfl | hx
          · simp [ha]
          · simp [hhead x hx ha]

theorem Sorted.eq_of_key_eq
    [IsStrictTotalOrder K r] {run : List (K × V)} {k : K} {v w : V}
    (h : Sorted r run)
    (hv : (k, v) ∈ run)
    (hw : (k, w) ∈ run) :
    v = w := by
  induction run with
  | nil =>
      cases hv
  | cons a run ih =>
      obtain ⟨hhead, htail⟩ := List.pairwise_cons.mp h
      rcases List.mem_cons.mp hv with rfl | hv <;> rcases List.mem_cons.mp hw with hw | hw
      · exact (congrArg Prod.snd hw).symm
      · exact absurd (hhead _ hw) (irrefl_of r k)
      · rw [← hw] at hhead
        exact absurd (hhead _ hv) (irrefl_of r k)
      · exact ih htail hv hw

variable [DecidableRel r]

theorem beyond_iff
    {last : Option K} {k : K} :
    beyond r last k = true ↔ ∀ l ∈ last, r l k := by
  cases last <;> simp [beyond]

theorem started_iff
    {b : Bounds K} {k : K} :
    started r b k = true ↔ ∀ s ∈ b.start, ¬ r k s := by
  cases hs : b.start <;> simp [started, hs]

theorem within_iff
    {b : Bounds K} {k : K} :
    within r b k = true ↔ ∀ s ∈ b.stop, r k s := by
  cases hs : b.stop <;> simp [within, hs]

theorem cut_sublist
    (b : Bounds K) (last : Option K) (run : List (K × V)) :
    (cut r b last run).Sublist run :=
  (List.dropWhile_sublist _).trans (List.dropWhile_sublist _)

theorem Sorted.cut
    {run : List (K × V)}
    (h : Sorted r run)
    (b : Bounds K) (last : Option K) :
    Sorted r (cut r b last run) :=
  List.Pairwise.sublist (cut_sublist b last run) h

theorem sorted_map_cut
    {runs : List (List (K × V))}
    (hsorted : ∀ run ∈ runs, Sorted r run)
    (b : Bounds K) (last : Option K) :
    ∀ run ∈ runs.map (cut r b last), Sorted r run := by
  intro run hrun
  obtain ⟨run', hrun', rfl⟩ := List.mem_map.mp hrun
  exact (hsorted run' hrun').cut b last

variable [IsStrictTotalOrder K r]

theorem beyond_mono
    {last : Option K} {k k' : K}
    (h : beyond r last k = true)
    (hlt : r k k') :
    beyond r last k' = true := by
  rw [beyond_iff] at h ⊢
  exact fun l hl => IsTrans.trans _ _ _ (h l hl) hlt

theorem started_mono
    {b : Bounds K} {k k' : K}
    (h : started r b k = true)
    (hlt : r k k') :
    started r b k' = true := by
  rw [started_iff] at h ⊢
  exact fun s hs hlt' => h s hs (IsTrans.trans _ _ _ hlt hlt')

theorem within_anti
    {b : Bounds K} {k k' : K}
    (h : within r b k' = true)
    (hlt : r k k') :
    within r b k = true := by
  rw [within_iff] at h ⊢
  exact fun s hs => IsTrans.trans _ _ _ hlt (h s hs)

/-- What is left of a sorted run are the entries ahead. -/
theorem mem_cut_iff
    {run : List (K × V)}
    (h : Sorted r run)
    (b : Bounds K) (last : Option K) (e : K × V) :
    e ∈ cut r b last run ↔
      e ∈ run ∧ beyond r last e.1 = true ∧ started r b e.1 = true := by
  have hdrop : (run.dropWhile fun e => !beyond r last e.1) =
      run.filter fun e => beyond r last e.1 := by
    rw [dropWhile_eq_filter]
    · simp
    · refine List.Pairwise.imp ?_ h
      intro a c hlt ha
      simp only [Bool.not_eq_false'] at ha ⊢
      exact beyond_mono ha hlt
  rw [cut, hdrop, dropWhile_eq_filter]
  · simp only [List.mem_filter, Bool.not_not]
    rw [and_assoc]
  · refine List.Pairwise.imp ?_ (h.filter _)
    intro a c hlt ha
    simp only [Bool.not_eq_false'] at ha ⊢
    exact started_mono ha hlt

end Cut

/-! ## The best candidate -/

section Best

variable {r : K → K → Prop} {rank : V → Nat}

/-- The candidate `e` at place `j` is at least as good as `e'` at place `i`. -/
def Beats (r : K → K → Prop) (rank : V → Nat) (j : Nat) (e : K × V) (i : Nat)
    (e' : K × V) : Prop :=
  r e.1 e'.1 ∨
    (e.1 = e'.1 ∧ (rank e'.2 < rank e.2 ∨ (rank e'.2 = rank e.2 ∧ j ≤ i)))

theorem Beats.trans
    [IsStrictTotalOrder K r] {i j l : Nat} {a b c : K × V}
    (hab : Beats r rank i a j b)
    (hbc : Beats r rank j b l c) :
    Beats r rank i a l c := by
  rcases hab with hab | ⟨hab, hrank⟩
  · rcases hbc with hbc | ⟨hbc, -⟩
    · exact Or.inl (IsTrans.trans _ _ _ hab hbc)
    · exact Or.inl (hbc ▸ hab)
  · rcases hbc with hbc | ⟨hbc, hrank'⟩
    · exact Or.inl (hab ▸ hbc)
    · exact Or.inr ⟨hab.trans hbc, by omega⟩

variable [DecidableRel r] [DecidableEq K]

theorem best_concat
    (cs : List (Option (K × V))) (c : Option (K × V)) :
    best r rank (cs ++ [c]) = pick r rank (best r rank cs) cs.length c := by
  rw [best, List.zipIdx_append, List.foldl_append]
  simp [best]

/-- A pick keeps what it has, or takes the new candidate, and beats both. -/
theorem pick_spec
    (r : K → K → Prop) [IsStrictTotalOrder K r] [DecidableRel r] (rank : V → Nat)
    (picked : Option (Nat × K × V)) (i : Nat) (c : Option (K × V))
    (hlt : ∀ j e, picked = some (j, e) → j < i) :
    (pick r rank picked i c = none → picked = none ∧ c = none) ∧
      ∀ j e, pick r rank picked i c = some (j, e) →
        (picked = some (j, e) ∨ (j = i ∧ c = some e)) ∧
          (∀ j' e', picked = some (j', e') → Beats r rank j e j' e') ∧
          ∀ e', c = some e' → Beats r rank j e i e' := by
  have hself : ∀ j (e : K × V), Beats r rank j e j e :=
    fun j e => Or.inr ⟨rfl, Or.inr ⟨rfl, le_refl _⟩⟩
  cases c with
  | none =>
      refine ⟨fun h => ⟨h, rfl⟩, fun j e h => ⟨Or.inl h, fun j' e' h' => ?_, nofun⟩⟩
      obtain ⟨rfl, rfl⟩ := Prod.mk.inj (Option.some.inj (h.symm.trans h'))
      exact hself _ _
  | some e =>
      cases picked with
      | none =>
          refine ⟨nofun, fun j e' h => ?_⟩
          obtain ⟨rfl, rfl⟩ := Prod.mk.inj (Option.some.inj h)
          refine ⟨Or.inr ⟨rfl, rfl⟩, nofun, fun e' he' => ?_⟩
          obtain rfl := Option.some.inj he'
          exact hself _ _
      | some found =>
          obtain ⟨j, e'⟩ := found
          have hji := hlt j e' rfl
          rw [pick]
          split_ifs with hbetter
          · refine ⟨nofun, fun j₁ e₁ h => ?_⟩
            obtain ⟨rfl, rfl⟩ := Prod.mk.inj (Option.some.inj h)
            refine ⟨Or.inr ⟨rfl, rfl⟩, fun j₂ e₂ h₂ => ?_, fun e₂ h₂ => ?_⟩
            · obtain ⟨rfl, rfl⟩ := Prod.mk.inj (Option.some.inj h₂)
              exact hbetter.imp_right fun hb => ⟨hb.1, Or.inl hb.2⟩
            · obtain rfl := Option.some.inj h₂
              exact hself _ _
          · refine ⟨nofun, fun j₁ e₁ h => ?_⟩
            obtain ⟨rfl, rfl⟩ := Prod.mk.inj (Option.some.inj h)
            refine ⟨Or.inl rfl, fun j₂ e₂ h₂ => ?_, fun e₂ h₂ => ?_⟩
            · obtain ⟨rfl, rfl⟩ := Prod.mk.inj (Option.some.inj h₂)
              exact hself _ _
            · obtain rfl := Option.some.inj h₂
              rcases trichotomous_of r e'.1 e.1 with hlt' | heq | hgt
              · exact Or.inl hlt'
              · refine Or.inr ⟨heq, ?_⟩
                have hle : ¬ rank e'.2 < rank e.2 := fun h => hbetter (Or.inr ⟨heq.symm, h⟩)
                omega
              · exact absurd (Or.inl hgt) hbetter

/-- The best candidate beats them all. -/
theorem best_spec
    (r : K → K → Prop) [IsStrictTotalOrder K r] [DecidableRel r] (rank : V → Nat)
    (cs : List (Option (K × V))) :
    (best r rank cs = none → ∀ (i : Nat) e, cs[i]? ≠ some (some e)) ∧
      ∀ j e, best r rank cs = some (j, e) →
        cs[j]? = some (some e) ∧
          ∀ (i : Nat) e', cs[i]? = some (some e') → Beats r rank j e i e' := by
  induction cs using List.reverseRecOn with
  | nil =>
      refine ⟨fun _ i e h => ?_, fun j e h => ?_⟩
      · simp at h
      · cases h
  | append_singleton cs c ih =>
      obtain ⟨hnone, hsome⟩ := ih
      -- a candidate is an earlier one or the new one
      have hget : ∀ (i : Nat) e, (cs ++ [c])[i]? = some (some e) ↔
          cs[i]? = some (some e) ∨ (i = cs.length ∧ c = some e) := by
        intro i e
        rcases Nat.lt_trichotomy i cs.length with hlt | rfl | hgt
        · rw [List.getElem?_append_left hlt]
          exact ⟨Or.inl, fun h => h.resolve_right fun hi => by omega⟩
        · simp
        · rw [List.getElem?_eq_none (by simp; omega), List.getElem?_eq_none (by omega)]
          constructor
          · nofun
          · rintro (h | ⟨hi, -⟩)
            · cases h
            · omega
      have hspec := pick_spec r rank (best r rank cs) cs.length c
        fun j e hj => (List.getElem?_eq_some_iff.mp (hsome j e hj).1).1
      rw [best_concat]
      constructor
      · intro hpick i e hi
        obtain ⟨hbest, hc⟩ := hspec.1 hpick
        rcases (hget i e).mp hi with hi | ⟨-, he⟩
        · exact hnone hbest i e hi
        · cases hc.symm.trans he
      · intro j e hpick
        obtain ⟨hfrom, hbeats, hbeats'⟩ := hspec.2 j e hpick
        refine ⟨(hget j e).mpr (hfrom.imp_left fun hbest => (hsome j e hbest).1), ?_⟩
        intro i e' hi
        rcases (hget i e').mp hi with hi | ⟨rfl, he⟩
        · cases hbest : best r rank cs with
          | none =>
              exact absurd hi (hnone hbest i e')
          | some found =>
              exact (hbeats found.1 found.2 hbest).trans
                ((hsome found.1 found.2 hbest).2 i e' hi)
        · exact hbeats' e' he

end Best

/-! ## What a scan visits -/

section Scan

variable {r : K → K → Prop} [IsStrictTotalOrder K r] {rank : V → Nat} {runs : List (List (K × V))}

/-- Run `j` has the entry `v` of the key `k`, and no other run has a better one. -/
structure Winner (rank : V → Nat) (runs : List (List (K × V))) (j : Nat) (k : K) (v : V) :
    Prop where
  mem : ∃ run, runs[j]? = some run ∧ (k, v) ∈ run
  wins : ∀ (i : Nat) run w, runs[i]? = some run → (k, w) ∈ run →
    rank w < rank v ∨ (rank w = rank v ∧ j ≤ i)

section Runs

variable (hsorted : ∀ run ∈ runs, Sorted r run)

include hsorted

theorem Winner.unique
    {i j : Nat} {k : K} {v w : V}
    (hv : Winner rank runs j k v)
    (hw : Winner rank runs i k w) :
    j = i ∧ v = w := by
  obtain ⟨run, hrun, hmem⟩ := hv.mem
  obtain ⟨run', hrun', hmem'⟩ := hw.mem
  have h₁ := hv.wins i run' w hrun' hmem'
  have h₂ := hw.wins j run v hrun hmem
  obtain rfl : j = i := by omega
  obtain rfl : run = run' := Option.some.inj (hrun.symm.trans hrun')
  exact ⟨rfl, (hsorted run (List.mem_of_getElem? hrun)).eq_of_key_eq hmem hmem'⟩

end Runs

variable [DecidableRel r]

/-- The keys a scan has still to visit. -/
def ahead (r : K → K → Prop) [DecidableRel r] (b : Bounds K) (last : Option K) (k : K) : Prop :=
  beyond r last k = true ∧ started r b k = true ∧ within r b k = true

/-- An entry ahead makes its run offer a candidate that is not behind it. -/
theorem candidate_of_ahead
    {run : List (K × V)} {b : Bounds K} {last : Option K} {k : K} {v : V}
    (h : Sorted r run)
    (hmem : (k, v) ∈ run)
    (hahead : ahead r b last k) :
    ∃ e, candidate r b (cut r b last run) = some e ∧ (r e.1 k ∨ e = (k, v)) := by
  obtain ⟨hbeyond, hstarted, hwithin⟩ := hahead
  have hcut := (mem_cut_iff h b last (k, v)).mpr ⟨hmem, hbeyond, hstarted⟩
  have hsorted := h.cut b last
  cases hlist : cut r b last run with
  | nil =>
      rw [hlist] at hcut
      cases hcut
  | cons e rest =>
      rw [hlist] at hcut hsorted
      have hfirst : r e.1 k ∨ e = (k, v) := by
        rcases List.mem_cons.mp hcut with heq | hrest
        · exact Or.inr heq.symm
        · exact Or.inl ((List.pairwise_cons.mp hsorted).1 _ hrest)
      refine ⟨e, ?_, hfirst⟩
      have he : within r b e.1 = true := by
        rcases hfirst with hlt | rfl
        · exact within_anti hwithin hlt
        · exact hwithin
      simp [candidate, he]

/-- The number of entries ahead of a scan. -/
def aheadCount (r : K → K → Prop) [DecidableRel r] (b : Bounds K) (last : Option K)
    (runs : List (List (K × V))) : Nat :=
  (runs.map fun run => (cut r b last run).length).sum

variable (hsorted : ∀ run ∈ runs, Sorted r run)

include hsorted

/-- Cutting the runs does not change who wins a key that is ahead. -/
theorem winner_cut_iff
    {b : Bounds K} {last : Option K} {j : Nat} {k : K} {v : V}
    (hbeyond : beyond r last k = true)
    (hstarted : started r b k = true) :
    Winner rank (runs.map (cut r b last)) j k v ↔ Winner rank runs j k v := by
  have hmem : ∀ (i : Nat) (w : V),
      (∃ run, (runs.map (cut r b last))[i]? = some run ∧ (k, w) ∈ run) ↔
        ∃ run, runs[i]? = some run ∧ (k, w) ∈ run := by
    intro i w
    rw [List.getElem?_map]
    constructor
    · rintro ⟨run, hi, hw⟩
      obtain ⟨run', hi', rfl⟩ := Option.map_eq_some_iff.mp hi
      exact ⟨run', hi', (cut_sublist b last run').mem hw⟩
    · rintro ⟨run, hi, hw⟩
      refine ⟨cut r b last run, by rw [hi]; rfl, ?_⟩
      exact (mem_cut_iff (hsorted run (List.mem_of_getElem? hi)) b last (k, w)).mpr
        ⟨hw, hbeyond, hstarted⟩
  constructor
  · intro h
    refine ⟨(hmem j v).mp h.mem, fun i run w hi hw => ?_⟩
    obtain ⟨run', hi', hw'⟩ := (hmem i w).mpr ⟨run, hi, hw⟩
    exact h.wins i run' w hi' hw'
  · intro h
    refine ⟨(hmem j v).mpr h.mem, fun i run w hi hw => ?_⟩
    obtain ⟨run', hi', hw'⟩ := (hmem i w).mp ⟨run, hi, hw⟩
    exact h.wins i run' w hi' hw'

/-- A round leaves the entry behind that it has found. -/
theorem aheadCount_lt
    {b : Bounds K} {last : Option K} {run : List (K × V)} {k : K} {v : V}
    (hrun : run ∈ runs)
    (hmem : (k, v) ∈ run)
    (hahead : ahead r b last k) :
    aheadCount r b (some k) (runs.map (cut r b last)) < aheadCount r b last runs := by
  unfold aheadCount
  rw [List.map_map]
  refine List.sum_lt_sum _ _ (fun run' _ => (cut_sublist b (some k) _).length_le) ?_
  refine ⟨run, hrun, ?_⟩
  have hcut := (mem_cut_iff (hsorted run hrun) b last (k, v)).mpr
    ⟨hmem, hahead.1, hahead.2.1⟩
  refine lt_of_le_of_ne (cut_sublist b (some k) _).length_le ?_
  intro hlen
  have heq := (cut_sublist b (some k) (cut r b last run)).eq_of_length hlen
  rw [← heq] at hcut
  obtain ⟨-, hbeyond, -⟩ :=
    (mem_cut_iff ((hsorted run hrun).cut b last) b (some k) (k, v)).mp hcut
  exact irrefl_of r k (beyond_iff.mp hbeyond k rfl)

variable [DecidableEq K]

theorem exists_winner
    (rank : V → Nat)
    {run : List (K × V)} {k : K} {v : V}
    (hrun : run ∈ runs)
    (hmem : (k, v) ∈ run) :
    ∃ j w, Winner rank runs j k w := by
  -- every run offers its entry of the key
  have hoffer : ∀ run ∈ runs, ∀ w, (k, w) ∈ run →
      run.find? (fun e => decide (e.1 = k)) = some (k, w) := by
    intro run hrun w hw
    cases hfind : run.find? (fun e => decide (e.1 = k)) with
    | none =>
        have hnone := List.find?_eq_none.mp hfind (k, w) hw
        simp at hnone
    | some e =>
        have hkey : e.1 = k := by simpa using List.find?_some hfind
        have he := List.mem_of_find?_eq_some hfind
        obtain ⟨k', w'⟩ := e
        obtain rfl : k' = k := hkey
        rw [(hsorted run hrun).eq_of_key_eq he hw]
  obtain ⟨hnone, hsome⟩ := best_spec r rank
    (runs.map fun run => run.find? fun e => decide (e.1 = k))
  cases hbest : best r rank (runs.map fun run => run.find? fun e => decide (e.1 = k)) with
  | none =>
      obtain ⟨i, hi⟩ := List.getElem?_of_mem hrun
      refine absurd ?_ (hnone hbest i (k, v))
      rw [List.getElem?_map, hi, Option.map_some, hoffer run hrun v hmem]
  | some found =>
      obtain ⟨j, e⟩ := found
      obtain ⟨hj, hbeats⟩ := hsome j e hbest
      rw [List.getElem?_map, Option.map_eq_some_iff] at hj
      obtain ⟨run', hrun', hfind⟩ := hj
      have hkey : e.1 = k := by simpa using List.find?_some hfind
      refine ⟨j, e.2, ⟨run', hrun', hkey ▸ List.mem_of_find?_eq_some hfind⟩, ?_⟩
      intro i run'' w hi hw
      have hb := hbeats i (k, w) (by
        rw [List.getElem?_map, hi, Option.map_some,
          hoffer run'' (List.mem_of_getElem? hi) w hw])
      rcases hb with hlt | ⟨-, hrank⟩
      · rw [hkey] at hlt
        exact absurd hlt (irrefl_of r k)
      · exact hrank

/-- One round: nothing is ahead, or the next key ahead is found together with its winner. -/
theorem round_spec
    (rank : V → Nat)
    (b : Bounds K) (last : Option K) :
    (best r rank ((runs.map (cut r b last)).map (candidate r b)) = none →
      ∀ run ∈ runs, ∀ k v, (k, v) ∈ run → ¬ ahead r b last k) ∧
    ∀ j k v, best r rank ((runs.map (cut r b last)).map (candidate r b)) = some (j, k, v) →
      Winner rank runs j k v ∧ ahead r b last k ∧
        ∀ run ∈ runs, ∀ k' v', (k', v') ∈ run → ahead r b last k' → k' = k ∨ r k k' := by
  have hcandidate : ∀ (i : Nat) run, runs[i]? = some run →
      ((runs.map (cut r b last)).map (candidate r b))[i]? =
        some (candidate r b (cut r b last run)) := by
    intro i run hi
    rw [List.getElem?_map, List.getElem?_map, hi]
    rfl
  obtain ⟨hnone, hsome⟩ := best_spec r rank
    ((runs.map (cut r b last)).map (candidate r b))
  constructor
  · intro hbest run hrun k v hmem hahead
    obtain ⟨i, hi⟩ := List.getElem?_of_mem hrun
    obtain ⟨e, he, -⟩ := candidate_of_ahead (hsorted run hrun) hmem hahead
    exact hnone hbest i e (by rw [hcandidate i run hi, he])
  · intro j k v hbest
    obtain ⟨hj, hbeats⟩ := hsome j (k, v) hbest
    rw [List.getElem?_map, List.getElem?_map, Option.map_map, Option.map_eq_some_iff] at hj
    obtain ⟨run, hrun, hcand⟩ := hj
    have hfilter := Option.filter_eq_some_iff.mp hcand
    have hrun' := List.mem_of_getElem? hrun
    obtain ⟨hmem, hbeyond, hstarted⟩ :=
      (mem_cut_iff (hsorted run hrun') b last (k, v)).mp (List.mem_of_head? hfilter.1)
    have hahead : ahead r b last k := ⟨hbeyond, hstarted, hfilter.2⟩
    -- what another run offers for an entry ahead does not come before
    have hother : ∀ (i : Nat) run' k' v', runs[i]? = some run' → (k', v') ∈ run' →
        ahead r b last k' → r k k' ∨
          (k = k' ∧ (rank v' < rank v ∨ (rank v' = rank v ∧ j ≤ i))) := by
      intro i run' k' v' hi hmem' hahead'
      obtain ⟨e, he, hfirst⟩ :=
        candidate_of_ahead (hsorted run' (List.mem_of_getElem? hi)) hmem' hahead'
      have hb := hbeats i e (by rw [hcandidate i run' hi, he])
      rcases hfirst with hlt | rfl
      · rcases hb with hb | ⟨heq, -⟩
        · exact Or.inl (IsTrans.trans _ _ _ hb hlt)
        · exact Or.inl (by rw [show k = e.1 from heq]; exact hlt)
      · exact hb
    refine ⟨⟨⟨run, hrun, hmem⟩, ?_⟩, hahead, ?_⟩
    · intro i run' w hi hmem'
      rcases hother i run' k w hi hmem' hahead with hlt | ⟨-, hrank⟩
      · exact absurd hlt (irrefl_of r k)
      · exact hrank
    · intro run' hrun'' k' v' hmem' hahead'
      obtain ⟨i, hi⟩ := List.getElem?_of_mem hrun''
      rcases hother i run' k' v' hi hmem' hahead' with hlt | ⟨heq, -⟩
      · exact Or.inr hlt
      · exact Or.inl heq.symm

/-- Once there is enough fuel, more of it changes nothing. -/
theorem scan_fuel
    {b : Bounds K} {last : Option K} {fuel fuel' : Nat}
    (hfuel : aheadCount r b last runs < fuel)
    (hfuel' : aheadCount r b last runs < fuel') :
    scan r rank b fuel last runs = scan r rank b fuel' last runs := by
  induction fuel generalizing runs last fuel' with
  | zero =>
      omega
  | succ fuel ih =>
      obtain ⟨fuel', rfl⟩ : ∃ n, fuel' = n + 1 := ⟨fuel' - 1, by omega⟩
      obtain ⟨-, hsome⟩ := round_spec hsorted rank b last
      rw [scan, scan]
      cases hbest : best r rank ((runs.map (cut r b last)).map (candidate r b)) with
      | none =>
          rfl
      | some found =>
          obtain ⟨hwin, hahead, -⟩ := hsome found.1 found.2.1 found.2.2 hbest
          obtain ⟨run, hrun, hmem⟩ := hwin.mem
          have hlt := aheadCount_lt hsorted (List.mem_of_getElem? hrun) hmem hahead
          dsimp only
          rw [ih (sorted_map_cut hsorted b last) (by omega) (show _ < fuel' by omega)]

theorem scan_eq_nil
    (rank : V → Nat)
    {b : Bounds K} {last : Option K}
    (hnone : ∀ run ∈ runs, ∀ k v, (k, v) ∈ run → ¬ ahead r b last k)
    (fuel : Nat) :
    scan r rank b fuel last runs = [] := by
  cases fuel with
  | zero =>
      rfl
  | succ fuel =>
      rw [scan]
      cases hbest : best r rank ((runs.map (cut r b last)).map (candidate r b)) with
      | none =>
          rfl
      | some found =>
          obtain ⟨hwin, hahead, -⟩ :=
            (round_spec hsorted rank b last).2 found.1 found.2.1 found.2.2 hbest
          obtain ⟨run, hrun, hmem⟩ := hwin.mem
          exact absurd hahead (hnone run (List.mem_of_getElem? hrun) _ _ hmem)

/-- **A scan** visits the keys ahead in their order, each with its winner. -/
theorem scan_spec
    (rank : V → Nat)
    {b : Bounds K} {last : Option K} {fuel : Nat}
    (hfuel : aheadCount r b last runs < fuel) :
    (scan r rank b fuel last runs).Pairwise (fun x y => r x.2.1 y.2.1) ∧
      ∀ j k v, (j, k, v) ∈ scan r rank b fuel last runs ↔
        Winner rank runs j k v ∧ ahead r b last k := by
  induction fuel generalizing runs last with
  | zero =>
      omega
  | succ fuel ih =>
      obtain ⟨hnone, hsome⟩ := round_spec hsorted rank b last
      rw [scan]
      cases hbest : best r rank ((runs.map (cut r b last)).map (candidate r b)) with
      | none =>
          refine ⟨List.Pairwise.nil, fun j k v => ⟨nofun, ?_⟩⟩
          rintro ⟨hwin, hahead⟩
          obtain ⟨run, hrun, hmem⟩ := hwin.mem
          exact absurd hahead (hnone hbest run (List.mem_of_getElem? hrun) k v hmem)
      | some found =>
          obtain ⟨j₀, k₀, v₀⟩ := found
          obtain ⟨hwin₀, hahead₀, hfirst⟩ := hsome j₀ k₀ v₀ hbest
          obtain ⟨run₀, hrun₀, hmem₀⟩ := hwin₀.mem
          have hlt := aheadCount_lt hsorted (List.mem_of_getElem? hrun₀) hmem₀ hahead₀
          obtain ⟨hpairwise, hmem⟩ := ih (sorted_map_cut hsorted b last)
            (show aheadCount r b (some k₀) _ < fuel by omega)
          -- the keys ahead of the rest of the scan
          have hnext : ∀ k, ahead r b (some k₀) k ↔ ahead r b last k ∧ r k₀ k := by
            intro k
            have hk₀ : beyond r (some k₀) k = true ↔ r k₀ k := by simp [beyond]
            unfold ahead
            rw [hk₀]
            exact ⟨fun h => ⟨⟨beyond_mono hahead₀.1 h.1, h.2⟩, h.1⟩,
              fun h => ⟨h.2, h.1.2⟩⟩
          dsimp only
          constructor
          · refine List.pairwise_cons.mpr ⟨?_, hpairwise⟩
            rintro ⟨j, k, v⟩ hx
            exact ((hnext k).mp ((hmem j k v).mp hx).2).2
          · intro j k v
            rw [List.mem_cons, hmem, hnext]
            constructor
            · rintro (heq | ⟨hwin, hahead, -⟩)
              · cases heq
                exact ⟨hwin₀, hahead₀⟩
              · exact ⟨(winner_cut_iff hsorted hahead.1 hahead.2.1).mp hwin, hahead⟩
            · rintro ⟨hwin, hahead⟩
              obtain ⟨run, hrun, hkv⟩ := hwin.mem
              rcases hfirst run (List.mem_of_getElem? hrun) k v hkv hahead with rfl | hlt
              · obtain ⟨rfl, rfl⟩ := hwin.unique hsorted hwin₀
                exact Or.inl rfl
              · exact Or.inr
                  ⟨(winner_cut_iff hsorted hahead.1 hahead.2.1).mpr hwin, hahead, hlt⟩

end Scan
end MergeScan
end LsmStore
