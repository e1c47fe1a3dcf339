/-!
# Runs of a system with events

A system is a function that takes one event in one state; an event that is not
possible in a state leaves it unchanged.  A run is a list of events.  The two
invariant rules turn what one event preserves into what every run preserves,
the second for runs all of whose events meet a condition.
-/

namespace LsmStore
namespace Runs

universe u v

variable {σ : Type u} {ε : Type v} (step : σ → ε → σ)

/-- The state after the events. -/
def run (s : σ) (events : List ε) : σ :=
  events.foldl step s

@[simp] theorem run_nil
    (s : σ) :
    run step s [] = s :=
  rfl

@[simp] theorem run_cons
    (s : σ) (e : ε) (events : List ε) :
    run step s (e :: events) = run step (step s e) events :=
  rfl

theorem run_append
    (s : σ) (xs ys : List ε) :
    run step s (xs ++ ys) = run step (run step s xs) ys :=
  List.foldl_append

/-- Every event meets the condition in the state in which it happens. -/
def Along (C : σ → ε → Prop) : σ → List ε → Prop
  | _, [] => True
  | s, e :: events => C s e ∧ Along C (step s e) events

variable {step}

instance decidableAlong {C : σ → ε → Prop} [∀ s e, Decidable (C s e)] :
    (s : σ) → (events : List ε) → Decidable (Along step C s events)
  | _, [] => isTrue trivial
  | s, e :: events =>
      have := decidableAlong (C := C) (step s e) events
      inferInstanceAs (Decidable (C s e ∧ Along step C (step s e) events))

theorem along_of_forall
    {C : σ → ε → Prop}
    {events : List ε}
    (h : ∀ e ∈ events, ∀ s, C s e)
    (s : σ) :
    Along step C s events := by
  induction events generalizing s with
  | nil =>
      trivial
  | cons e events ih =>
      exact ⟨h e List.mem_cons_self s,
        ih (fun e' he' => h e' (List.mem_cons_of_mem _ he')) (step s e)⟩

theorem along_append
    {C : σ → ε → Prop} {s : σ} {xs ys : List ε} :
    Along step C s (xs ++ ys) ↔ Along step C s xs ∧ Along step C (run step s xs) ys := by
  induction xs generalizing s with
  | nil =>
      exact ⟨fun h => ⟨trivial, h⟩, fun h => h.2⟩
  | cons e xs ih =>
      constructor
      · rintro ⟨hcond, hrest⟩
        exact ⟨⟨hcond, (ih.mp hrest).1⟩, (ih.mp hrest).2⟩
      · rintro ⟨⟨hcond, hxs⟩, hys⟩
        exact ⟨hcond, ih.mpr ⟨hxs, hys⟩⟩

theorem Along.take
    {C : σ → ε → Prop} {s : σ} {events : List ε}
    (h : Along step C s events)
    (k : Nat) :
    Along step C s (events.take k) := by
  rw [← List.take_append_drop k events] at h
  exact (along_append.mp h).1

theorem Along.and
    {C D : σ → ε → Prop} {s : σ} {events : List ε}
    (hC : Along step C s events)
    (hD : Along step D s events) :
    Along step (fun s e => C s e ∧ D s e) s events := by
  induction events generalizing s with
  | nil =>
      trivial
  | cons e events ih =>
      exact ⟨⟨hC.1, hD.1⟩, ih hC.2 hD.2⟩

/-- What every event preserves holds after every run. -/
theorem invariant
    {I : σ → Prop}
    (hstep : ∀ s e, I s → I (step s e))
    {s : σ}
    (h : I s)
    (events : List ε) :
    I (run step s events) := by
  induction events generalizing s with
  | nil =>
      exact h
  | cons e events ih =>
      exact ih (hstep s e h)

/-- What every event that meets the condition preserves holds after every run of such
events. -/
theorem invariant_along
    {I : σ → Prop} {C : σ → ε → Prop}
    (hstep : ∀ s e, C s e → I s → I (step s e))
    {s : σ}
    (h : I s)
    {events : List ε}
    (hcond : Along step C s events) :
    I (run step s events) := by
  induction events generalizing s with
  | nil =>
      exact h
  | cons e events ih =>
      exact ih (hstep s e hcond.1 h) hcond.2

/-- A property that holds as long as the events meet a condition, and fails after the first
event that does not: it holds all along exactly if all events meet the condition. -/
theorem forall_take_iff_along
    {I P : σ → Prop} {C : σ → ε → Prop}
    (hstep : ∀ s e, C s e → I s → I (step s e))
    (hgood : ∀ s, I s → P s)
    (hbad : ∀ s e, I s → P (step s e) → C s e)
    {s : σ}
    (h : I s)
    (events : List ε) :
    (∀ k, P (run step s (events.take k))) ↔ Along step C s events := by
  induction events generalizing s with
  | nil =>
      refine ⟨fun _ => trivial, fun _ k => ?_⟩
      rw [List.take_nil]
      exact hgood s h
  | cons e events ih =>
      constructor
      · intro hall
        have hcond : C s e := hbad s e h (hall 1)
        exact ⟨hcond, (ih (hstep s e hcond h)).mp fun k => hall (k + 1)⟩
      · rintro ⟨hcond, hrest⟩ k
        cases k with
        | zero =>
            exact hgood s h
        | succ k =>
            exact (ih (hstep s e hcond h)).mpr hrest k

/-- A counter that no event raises by more than one takes every value on its way. -/
theorem exists_first_moment
    {I : σ → Prop} (count : σ → Nat)
    (hstep : ∀ s e, I s → I (step s e))
    (hcount : ∀ s e, I s → count (step s e) ≤ count s + 1)
    {s : σ}
    (h : I s)
    {events : List ε} {m : Nat}
    (hle : count s ≤ m)
    (hge : m ≤ count (run step s events)) :
    ∃ n ≤ events.length, count (run step s (events.take n)) = m ∧
      ∀ j < n, count (run step s (events.take j)) < m := by
  induction events generalizing s with
  | nil =>
      exact ⟨0, Nat.le_refl _, Nat.le_antisymm hle hge, fun j hj => absurd hj (Nat.not_lt_zero j)⟩
  | cons e events ih =>
      rcases Nat.eq_or_lt_of_le hle with heq | hlt
      · exact ⟨0, Nat.zero_le _, heq, fun j hj => absurd hj (Nat.not_lt_zero j)⟩
      · obtain ⟨n, hn, hm, hfirst⟩ :=
          ih (hstep s e h) (Nat.le_trans (hcount s e h) hlt) hge
        refine ⟨n + 1, Nat.succ_le_succ hn, hm, ?_⟩
        intro j hj
        cases j with
        | zero =>
            exact hlt
        | succ j =>
            exact hfirst j (Nat.lt_of_succ_lt_succ hj)

end Runs
end LsmStore
