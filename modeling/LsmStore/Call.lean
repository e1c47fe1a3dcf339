import LsmStore.Basic

/-!
# Calls on shared state

A call reads and changes some state and returns, fails or panics.  Unlike a
transaction, a call that fails leaves behind whatever it has changed so far.
-/

namespace LsmStore

/-- A call on a state of type `σ`. -/
def Call (σ α : Type) : Type :=
  σ → Outcome α × σ

namespace Call

variable {σ α β : Type}

/-- Sequencing: the second call starts in the state the first one leaves. -/
def bind (x : Call σ α) (f : α → Call σ β) : Call σ β := fun s =>
  match x s with
  | (.value a, s') => f a s'
  | (.error e, s') => (.error e, s')
  | (.panic message, s') => (.panic message, s')
  | (.unfinished, s') => (.unfinished, s')

instance : Monad (Call σ) where
  pure a := fun s => (.value a, s)
  bind := bind

/-- Something that does not change the state. -/
def lift (o : Outcome α) : Call σ α := fun s =>
  (o, s)

instance : MonadLift Outcome (Call σ) where
  monadLift := lift

instance : MonadStateOf σ (Call σ) where
  get := fun s => (.value s, s)
  set s := fun _ => (.value (), s)
  modifyGet f := fun s => (.value (f s).1, (f s).2)

/-- Every way in which the call ends keeps a property of the state. -/
def Keeps (I : σ → Prop) (x : Call σ α) : Prop :=
  ∀ s, I s → I (x s).2

variable {I : σ → Prop}

theorem Keeps.pure
    (a : α) :
    Keeps I (Pure.pure a : Call σ α) :=
  fun _ h => h

theorem Keeps.lift
    (o : Outcome α) :
    Keeps I (liftM o : Call σ α) :=
  fun _ h => h

/-- After something that does not change the state. -/
theorem Keeps.after_lift
    {o : Outcome α} {f : α → Call σ β} {s : σ}
    (hs : I s)
    (hf : ∀ a, o = .value a → I (f a s).2) :
    I ((liftM o >>= f) s).2 := by
  cases o with
  | value a =>
      exact hf a rfl
  | error e =>
      exact hs
  | panic message =>
      exact hs
  | unfinished =>
      exact hs

theorem Keeps.after
    {x : Call σ α} {f : α → Call σ β} {s : σ}
    (hx : I (x s).2)
    (hf : ∀ a, Keeps I (f a)) :
    I ((x >>= f) s).2 := by
  change I (Call.bind x f s).2
  unfold Call.bind
  generalize x s = result at hx
  obtain ⟨outcome, s'⟩ := result
  cases outcome with
  | value a =>
      exact hf a s' hx
  | error e =>
      exact hx
  | panic message =>
      exact hx
  | unfinished =>
      exact hx

theorem Keeps.bind
    {x : Call σ α} {f : α → Call σ β}
    (hx : Keeps I x)
    (hf : ∀ a, Keeps I (f a)) :
    Keeps I (x >>= f) :=
  fun s hs => Keeps.after (hx s hs) hf

/-- Something that does not change the state returns, or ends the call. -/
theorem lift_bind_cases
    (o : Outcome α) (f : α → Call σ β) (s : σ) :
    (∃ a, o = .value a ∧ (liftM o >>= f : Call σ β) s = f a s) ∨
      ∃ o', (liftM o >>= f : Call σ β) s = (o', s) ∧ ∀ b, o' ≠ .value b := by
  cases o with
  | value a =>
      exact Or.inl ⟨a, rfl, rfl⟩
  | error e =>
      exact Or.inr ⟨.error e, rfl, by simp⟩
  | panic message =>
      exact Or.inr ⟨.panic message, rfl, by simp⟩
  | unfinished =>
      exact Or.inr ⟨.unfinished, rfl, by simp⟩

theorem bind_of_value
    {x : Call σ α} {f : α → Call σ β} {s s' : σ} {a : α}
    (h : x s = (.value a, s')) :
    (x >>= f) s = f a s' := by
  change Call.bind x f s = _
  rw [Call.bind, h]

/-- A sequence that returns has returned from its first call. -/
theorem bind_eq_value
    {x : Call σ α} {f : α → Call σ β} {s s'' : σ} {b : β}
    (h : (x >>= f) s = (.value b, s'')) :
    ∃ a s', x s = (.value a, s') ∧ f a s' = (.value b, s'') := by
  change Call.bind x f s = _ at h
  unfold Call.bind at h
  generalize x s = result at h
  obtain ⟨outcome, s'⟩ := result
  cases outcome with
  | value a =>
      exact ⟨a, s', rfl, h⟩
  | error e =>
      cases h
  | panic message =>
      cases h
  | unfinished =>
      cases h

/-- A sequence that returns after something that does not change the state. -/
theorem lift_bind_eq_value
    {o : Outcome α} {f : α → Call σ β} {s s' : σ} {b : β}
    (h : (liftM o >>= f : Call σ β) s = (.value b, s')) :
    ∃ a, o = .value a ∧ f a s = (.value b, s') := by
  rcases lift_bind_cases o f s with ⟨a, ha, hrun⟩ | ⟨o', hrun, hne⟩
  · exact ⟨a, ha, hrun.symm.trans h⟩
  · rw [h] at hrun
    exact absurd (congrArg Prod.fst hrun).symm (hne b)

/-- A sequence ends with its first call unless that returns. -/
theorem bind_of_ne_value
    {x : Call σ α} {f : α → Call σ β} {s : σ}
    (h : ∀ a, (x s).1 ≠ .value a) :
    ((x >>= f) s).2 = (x s).2 := by
  change (Call.bind x f s).2 = _
  unfold Call.bind
  generalize x s = result at h
  obtain ⟨outcome, s'⟩ := result
  cases outcome with
  | value a =>
      exact absurd rfl (h a)
  | error e =>
      rfl
  | panic message =>
      rfl
  | unfinished =>
      rfl

theorem bind_of_panic
    {x : Call σ α} {f : α → Call σ β} {s s' : σ} {message : String}
    (h : x s = (.panic message, s')) :
    (x >>= f) s = (.panic message, s') := by
  change Call.bind x f s = _
  rw [Call.bind, h]

theorem bind_pure_state
    (x : Call σ α) (f : α → β) (s : σ) :
    ((x >>= fun a => Pure.pure (f a)) s).2 = (x s).2 := by
  change (Call.bind x _ s).2 = _
  unfold Call.bind
  obtain ⟨outcome, s'⟩ := x s
  cases outcome <;> rfl

end Call
end LsmStore
