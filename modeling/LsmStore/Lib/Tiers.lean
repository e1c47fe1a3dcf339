import Mathlib.Data.List.Pairwise
import Mathlib.Logic.Function.Basic
import Mathlib.Tactic

/-!
# Tiers of versioned maps

A store keeps versions of its keys in places that are searched one after the
other: a live map that takes the writes, at most one frozen map, and numbered
levels, each a list of tables.  Versions carry a rank; a newer version has a
larger one.

The store is `Ordered` when no place has a newer version of a key than a place
that is searched before it.  `Move` lists what may happen: a write, freezing the
live map, copying the frozen map to level 0, dropping it, and replacing tables
of one level and of the next by one table.  Every move keeps the store ordered,
and no version is lost from view: what was held at a place is held there or
further down afterwards, or a newer version is.
-/

namespace LsmStore

universe u v w

/-- Where the versions are.  `copied` says that the frozen map has been copied to level 0. -/
structure Tiers (K : Type u) (V : Type v) (T : Type w) where
  live : K → Option V
  frozen : Option (K → Option V)
  copied : Bool
  levels : Nat → List T

namespace Tiers

variable {K : Type u} {V : Type v} {T : Type w}

/-- No version in `f` is newer than the version of the same key in `g`. -/
def Older (rank : V → Nat) (f g : K → Option V) : Prop :=
  ∀ k a b, f k = some a → g k = some b → rank a ≤ rank b

/-- Place 0 is the live map, place 1 the frozen map, place `l + 2` is level `l`. -/
def Holds (get : T → K → Option V) (t : Tiers K V T) : Nat → K → V → Prop
  | 0, k, a => t.live k = some a
  | 1, k, a => ∃ f, t.frozen = some f ∧ f k = some a
  | l + 2, k, a => ∃ x ∈ t.levels l, get x k = some a

/-- Places that are searched later have older versions; so have the earlier tables of level
0; and a frozen map that was copied can be dropped. -/
structure Ordered (rank : V → Nat) (get : T → K → Option V) (t : Tiers K V T) : Prop where
  places : ∀ p q k a b, p < q → t.Holds get p k a → t.Holds get q k b → rank b ≤ rank a
  first : (t.levels 0).Pairwise fun x y => Older rank (get x) (get y)
  covered : t.copied = true → ∀ k a, t.Holds get 1 k a →
    ∃ l b, t.Holds get (l + 2) k b ∧ rank a ≤ rank b

/-- What replacing tables of level `l` and of level `l + 1` by the table `x` does. -/
structure Replaces (rank : V → Nat) (get : T → K → Option V) (levels levels' : Nat → List T)
    (l : Nat) (parents children : List T) (x : T) : Prop where
  mem_iff : ∀ m y, y ∈ levels' m ↔
    (m = l + 1 ∧ y = x) ∨ (y ∈ levels m ∧ y ∉ parents ++ children)
  parents_mem : ∀ y ∈ parents, y ∈ levels l
  children_mem : ∀ y ∈ children, y ∈ levels (l + 1)
  inputs_above : ∀ m, ∀ y ∈ levels m, y ∈ parents ++ children → m ≤ l + 1
  first : (levels' 0).Sublist (levels 0)
  /-- What stays on level `l` is newer than the parents. -/
  closed : ∀ y ∈ parents, ∀ z ∈ levels l, z ∉ parents →
    (∀ k a, get y k = some a → get z k = none) ∨ (l = 0 ∧ [y, z].Sublist (levels 0))
  source : ∀ k a, get x k = some a → ∃ y ∈ parents ++ children, get y k = some a
  newest : ∀ y ∈ parents ++ children, ∀ k a, get y k = some a →
    ∃ b, get x k = some b ∧ rank a ≤ rank b

/-- One change of the store. -/
inductive Move (rank : V → Nat) (get : T → K → Option V) : Tiers K V T → Tiers K V T → Prop
  | write {t : Tiers K V T} {live : K → Option V}
      (hnew : ∀ k a, live k = some a →
        t.live k = some a ∨ ∀ p b, t.Holds get p k b → rank b ≤ rank a)
      (hold : ∀ k a, t.live k = some a → ∃ b, live k = some b ∧ rank a ≤ rank b) :
      Move rank get t { t with live := live }
  | freeze {t : Tiers K V T} (hfrozen : t.frozen = none) :
      Move rank get t
        { t with live := fun _ => none, frozen := some t.live, copied := false }
  | copy {t : Tiers K V T} {f : K → Option V} {x : T} (hfrozen : t.frozen = some f)
      (hx : get x = f) :
      Move rank get t
        { t with levels := Function.update t.levels 0 (t.levels 0 ++ [x]), copied := true }
  | drop {t : Tiers K V T} (hcopied : t.copied = true) :
      Move rank get t { t with frozen := none, copied := false }
  | forget {t : Tiers K V T} :
      Move rank get t { t with copied := false }
  | replace {t : Tiers K V T} {levels : Nat → List T} {l : Nat} {parents children : List T}
      {x : T} (h : Replaces rank get t.levels levels l parents children x) :
      Move rank get t { t with levels := levels }

section Moves

variable {rank : V → Nat} {get : T → K → Option V} {t t' : Tiers K V T}

/-- What is on a level after a replacement was on that level, or came down with a parent. -/
theorem Replaces.back
    {levels : Nat → List T} {l : Nat} {parents children : List T} {x : T}
    (h : Replaces rank get t.levels levels l parents children x)
    {m : Nat} {k : K} {a : V}
    (ha : Holds get { t with levels := levels } (m + 2) k a) :
    t.Holds get (m + 2) k a ∨
      (m = l + 1 ∧ ∃ y ∈ parents, get y k = some a) := by
  obtain ⟨y, hy, hget⟩ := ha
  rcases (h.mem_iff m y).mp hy with ⟨rfl, rfl⟩ | ⟨hold, -⟩
  · obtain ⟨z, hz, hgetz⟩ := h.source k a hget
    rcases List.mem_append.mp hz with hz | hz
    · exact Or.inr ⟨rfl, z, hz, hgetz⟩
    · exact Or.inl ⟨z, h.children_mem z hz, hgetz⟩
  · exact Or.inl ⟨y, hold, hget⟩

/-- What was on a level stays there, or a newer version is on the level or below. -/
theorem Replaces.down
    {levels : Nat → List T} {l : Nat} {parents children : List T} {x : T}
    (h : Replaces rank get t.levels levels l parents children x)
    {m : Nat} {k : K} {a : V}
    (ha : t.Holds get (m + 2) k a) :
    ∃ m' b, m ≤ m' ∧ Holds get { t with levels := levels } (m' + 2) k b ∧ rank a ≤ rank b := by
  obtain ⟨y, hy, hget⟩ := ha
  by_cases hin : y ∈ parents ++ children
  · obtain ⟨b, hb, hle⟩ := h.newest y hin k a hget
    have hx : x ∈ levels (l + 1) := (h.mem_iff (l + 1) x).mpr (Or.inl ⟨rfl, rfl⟩)
    exact ⟨l + 1, b, h.inputs_above m y hy hin, ⟨x, hx, hb⟩, hle⟩
  · exact ⟨m, a, le_refl _, ⟨y, (h.mem_iff m y).mpr (Or.inr ⟨hy, hin⟩), hget⟩, le_refl _⟩

/-- A replacement keeps the places in order. -/
theorem Ordered.replace
    {levels : Nat → List T} {l : Nat} {parents children : List T} {x : T}
    (h : t.Ordered rank get)
    (hr : Replaces rank get t.levels levels l parents children x) :
    Ordered rank get { t with levels := levels } := by
  -- a place above the levels has not changed
  have hback : ∀ p k a, Holds get { t with levels := levels } p k a →
      t.Holds get p k a ∨ (p = l + 3 ∧ ∃ y ∈ parents, get y k = some a) := by
    intro p k a ha
    match p, ha with
    | 0, ha => exact Or.inl ha
    | 1, ha => exact Or.inl ha
    | m + 2, ha =>
        rcases hr.back ha with hold | ⟨rfl, hpar⟩
        · exact Or.inl hold
        · exact Or.inr ⟨rfl, hpar⟩
  have hparent : ∀ y ∈ parents, ∀ k a, get y k = some a → t.Holds get (l + 2) k a :=
    fun y hy k a ha => ⟨y, hr.parents_mem y hy, ha⟩
  refine ⟨?_, h.first.sublist hr.first, ?_⟩
  · intro p q k a b hpq ha hb
    rcases hback q k b hb with hb | ⟨rfl, y, hy, hget⟩
    · rcases hback p k a ha with ha | ⟨rfl, y, hy, hget⟩
      · exact h.places p q k a b hpq ha hb
      · exact h.places (l + 2) q k a b (by omega) (hparent y hy k a hget) hb
    · by_cases hp : p = l + 2
      · -- what stayed on the level is newer than the parent that came down
        subst hp
        obtain ⟨z, hz, hgetz⟩ := ha
        obtain ⟨hz, hnot⟩ : z ∈ t.levels l ∧ z ∉ parents ++ children := by
          rcases (hr.mem_iff l z).mp hz with ⟨hl, -⟩ | hold
          · omega
          · exact hold
        rcases hr.closed y hy z hz (fun hz => hnot (List.mem_append_left _ hz)) with
          hnone | ⟨-, hsub⟩
        · rw [hnone k b hget] at hgetz
          cases hgetz
        · have hpair := List.pairwise_iff_forall_sublist.mp h.first hsub
          exact hpair k b a hget hgetz
      · rcases hback p k a ha with ha | ⟨rfl, -⟩
        · exact h.places p (l + 2) k a b (by omega) ha (hparent y hy k b hget)
        · omega
  · intro hcopied k a ha
    obtain ⟨m, b, hb, hle⟩ := h.covered hcopied k a ha
    obtain ⟨m', b', -, hb', hle'⟩ := hr.down hb
    exact ⟨m', b', hb', le_trans hle hle'⟩

/-- Copying the frozen map to the end of level 0. -/
theorem Ordered.copy
    {f : K → Option V} {x : T}
    (h : t.Ordered rank get)
    (hfrozen : t.frozen = some f)
    (hx : get x = f) :
    Ordered rank get
      { t with levels := Function.update t.levels 0 (t.levels 0 ++ [x]), copied := true } := by
  have hone : ∀ k a, get x k = some a → t.Holds get 1 k a :=
    fun k a ha => ⟨f, hfrozen, hx ▸ ha⟩
  have hback : ∀ p k a, Holds get
      { t with levels := Function.update t.levels 0 (t.levels 0 ++ [x]), copied := true } p k a →
      t.Holds get p k a ∨ (p = 2 ∧ get x k = some a) := by
    intro p k a ha
    match p, ha with
    | 0, ha => exact Or.inl ha
    | 1, ha => exact Or.inl ha
    | 2, ⟨y, hy, hget⟩ =>
        simp only [Function.update_self, List.mem_append, List.mem_singleton] at hy
        rcases hy with hy | rfl
        · exact Or.inl ⟨y, hy, hget⟩
        · exact Or.inr ⟨rfl, hget⟩
    | m + 3, ⟨y, hy, hget⟩ =>
        exact Or.inl ⟨y, by simpa using hy, hget⟩
  refine ⟨?_, ?_, ?_⟩
  · intro p q k a b hpq ha hb
    rcases hback p k a ha with ha' | ⟨rfl, ha'⟩ <;>
      rcases hback q k b hb with hb' | ⟨rfl, hb'⟩
    · exact h.places p q k a b hpq ha' hb'
    · by_cases hp : p = 1
      · -- the copy and the frozen map agree
        subst hp
        obtain ⟨f', hf', hfa⟩ := ha'
        obtain rfl : f = f' := Option.some.inj (hfrozen.symm.trans hf')
        rw [hx, hfa] at hb'
        rw [Option.some.inj hb']
      · exact h.places p 1 k a b (by omega) ha' (hone k b hb')
    · exact h.places 1 q k a b (by omega) (hone k a ha') hb'
    · omega
  · simp only [Function.update_self]
    refine List.pairwise_append.mpr ⟨h.first, List.pairwise_singleton _ _, ?_⟩
    intro y hy z hz k a b ha hb
    rw [List.mem_singleton.mp hz] at hb
    exact h.places 1 2 k b a (by omega) (hone k b hb) ⟨y, hy, ha⟩
  · rintro - k a ⟨f', hf', hfa⟩
    obtain rfl : f = f' := Option.some.inj (hfrozen.symm.trans hf')
    exact ⟨0, a, ⟨x, by simp, hx ▸ hfa⟩, le_refl _⟩

theorem Ordered.move
    (h : t.Ordered rank get)
    (hmove : Move rank get t t') :
    t'.Ordered rank get := by
  cases hmove with
  | @write live hnew hold =>
      have hback : ∀ p k a, Holds get { t with live := live } p k a → p ≠ 0 →
          t.Holds get p k a := by
        intro p k a ha hp
        match p, ha with
        | 0, _ => exact absurd rfl hp
        | 1, ha => exact ha
        | m + 2, ha => exact ha
      refine ⟨?_, h.first, h.covered⟩
      intro p q k a b hpq ha hb
      have hb := hback q k b hb (by omega)
      by_cases hp : p = 0
      · subst hp
        rcases hnew k a ha with ha | hmax
        · exact h.places 0 q k a b hpq ha hb
        · exact hmax q b hb
      · exact h.places p q k a b hpq (hback p k a ha hp) hb
  | freeze hfrozen =>
      refine ⟨?_, h.first, fun hcopied => by cases hcopied⟩
      intro p q k a b hpq ha hb
      match p, q, ha, hb with
      | 0, _, ha, _ => cases ha
      | 1, 0, _, _ => omega
      | 1, 1, _, _ => omega
      | 1, q + 2, ⟨f, hf, ha⟩, hb =>
          obtain rfl : t.live = f := Option.some.inj hf
          exact h.places 0 (q + 2) k a b (by omega) ha hb
      | p + 2, 0, _, _ => omega
      | p + 2, 1, _, _ => omega
      | p + 2, q + 2, ha, hb => exact h.places (p + 2) (q + 2) k a b hpq ha hb
  | copy hfrozen hx =>
      exact h.copy hfrozen hx
  | drop hcopied =>
      have hback : ∀ p k a, Holds get { t with frozen := none, copied := false } p k a →
          t.Holds get p k a := by
        intro p k a ha
        match p, ha with
        | 0, ha => exact ha
        | 1, ⟨f, hf, _⟩ => cases hf
        | m + 2, ha => exact ha
      refine ⟨?_, h.first, fun hcopied => by cases hcopied⟩
      intro p q k a b hpq ha hb
      exact h.places p q k a b hpq (hback p k a ha) (hback q k b hb)
  | forget =>
      refine ⟨?_, h.first, fun hcopied => by cases hcopied⟩
      intro p q k a b hpq ha hb
      exact h.places p q k a b hpq (by cases p <;> exact ha) (by cases q <;> exact hb)
  | replace hr =>
      exact h.replace hr

/-- No version is lost from view: it stays where it is or moves down, or a newer version is
there. -/
theorem Ordered.down
    (h : t.Ordered rank get)
    (hmove : Move rank get t t')
    {p : Nat} {k : K} {a : V}
    (ha : t.Holds get p k a) :
    ∃ q b, p ≤ q ∧ t'.Holds get q k b ∧ rank a ≤ rank b := by
  cases hmove with
  | @write live hnew hold =>
      match p, ha with
      | 0, ha =>
          obtain ⟨b, hb, hle⟩ := hold k a ha
          exact ⟨0, b, le_refl _, hb, hle⟩
      | 1, ha => exact ⟨1, a, le_refl _, ha, le_refl _⟩
      | m + 2, ha => exact ⟨m + 2, a, le_refl _, ha, le_refl _⟩
  | freeze hfrozen =>
      match p, ha with
      | 0, ha => exact ⟨1, a, Nat.zero_le _, ⟨t.live, rfl, ha⟩, le_refl _⟩
      | 1, ⟨f, hf, _⟩ =>
          rw [hfrozen] at hf
          cases hf
      | m + 2, ha => exact ⟨m + 2, a, le_refl _, ha, le_refl _⟩
  | copy hfrozen hx =>
      match p, ha with
      | 0, ha => exact ⟨0, a, le_refl _, ha, le_refl _⟩
      | 1, ha => exact ⟨1, a, le_refl _, ha, le_refl _⟩
      | 2, ⟨y, hy, hget⟩ =>
          exact ⟨2, a, le_refl _, ⟨y, by simp [hy], hget⟩, le_refl _⟩
      | m + 3, ⟨y, hy, hget⟩ =>
          exact ⟨m + 3, a, le_refl _, ⟨y, by simpa using hy, hget⟩, le_refl _⟩
  | drop hcopied =>
      match p, ha with
      | 0, ha => exact ⟨0, a, le_refl _, ha, le_refl _⟩
      | 1, ha =>
          obtain ⟨l, b, hb, hle⟩ := h.covered hcopied k a ha
          exact ⟨l + 2, b, by omega, hb, hle⟩
      | m + 2, ha => exact ⟨m + 2, a, le_refl _, ha, le_refl _⟩
  | forget =>
      exact ⟨p, a, le_refl _, by cases p <;> exact ha, le_refl _⟩
  | replace hr =>
      match p, ha with
      | 0, ha => exact ⟨0, a, le_refl _, ha, le_refl _⟩
      | 1, ha => exact ⟨1, a, le_refl _, ha, le_refl _⟩
      | m + 2, ha =>
          obtain ⟨m', b, hm, hb, hle⟩ := hr.down ha
          exact ⟨m' + 2, b, by omega, hb, hle⟩

/-- No version appears from nowhere: it was in the store, or it was written just now. -/
theorem Move.back
    (hmove : Move rank get t t')
    {p : Nat} {k : K} {a : V}
    (ha : t'.Holds get p k a) :
    (∃ q, t.Holds get q k a) ∨ t'.live k = some a := by
  cases hmove with
  | write hnew hold =>
      match p, ha with
      | 0, ha => exact Or.inr ha
      | 1, ha => exact Or.inl ⟨1, ha⟩
      | m + 2, ha => exact Or.inl ⟨m + 2, ha⟩
  | freeze hfrozen =>
      match p, ha with
      | 0, ha => cases ha
      | 1, ⟨f, hf, ha⟩ =>
          obtain rfl : t.live = f := Option.some.inj hf
          exact Or.inl ⟨0, ha⟩
      | m + 2, ha => exact Or.inl ⟨m + 2, ha⟩
  | @copy f x hfrozen hx =>
      match p, ha with
      | 0, ha => exact Or.inr ha
      | 1, ha => exact Or.inl ⟨1, ha⟩
      | 2, ⟨y, hy, hget⟩ =>
          simp only [Function.update_self, List.mem_append, List.mem_singleton] at hy
          rcases hy with hy | rfl
          · exact Or.inl ⟨2, y, hy, hget⟩
          · exact Or.inl ⟨1, f, hfrozen, hx ▸ hget⟩
      | m + 3, ⟨y, hy, hget⟩ => exact Or.inl ⟨m + 3, y, by simpa using hy, hget⟩
  | drop hcopied =>
      match p, ha with
      | 0, ha => exact Or.inr ha
      | 1, ⟨f, hf, _⟩ => cases hf
      | m + 2, ha => exact Or.inl ⟨m + 2, ha⟩
  | forget =>
      exact Or.inl ⟨p, by cases p <;> exact ha⟩
  | @replace levels l parents children x hr =>
      match p, ha with
      | 0, ha => exact Or.inr ha
      | 1, ha => exact Or.inl ⟨1, ha⟩
      | m + 2, ha =>
          rcases hr.back ha with hold | ⟨-, y, hy, hget⟩
          · exact Or.inl ⟨m + 2, hold⟩
          · exact Or.inl ⟨l + 2, y, hr.parents_mem y hy, hget⟩

end Moves

/-! ## Searching -/

section Search

variable {rank : V → Nat} {get : T → K → Option V} {t : Tiers K V T}

/-- The first hit in a list of tables, from the last to the first, is the newest version. -/
theorem newest_of_findSome?
    {l : List T} {k : K} {a : V}
    (hl : l.Pairwise fun x y => Older rank (get x) (get y))
    (ha : l.reverse.findSome? (fun x => get x k) = some a) :
    (∃ x ∈ l, get x k = some a) ∧ ∀ x ∈ l, ∀ b, get x k = some b → rank b ≤ rank a := by
  induction l using List.reverseRecOn with
  | nil =>
      cases ha
  | append_singleton l y ih =>
      obtain ⟨hl', -, hlast⟩ := List.pairwise_append.mp hl
      rw [List.reverse_append, List.reverse_singleton, List.singleton_append,
        List.findSome?_cons] at ha
      cases hy : get y k with
      | some c =>
          rw [hy] at ha
          obtain rfl : c = a := Option.some.inj ha
          refine ⟨⟨y, by simp, hy⟩, ?_⟩
          intro x hx b hb
          rcases List.mem_append.mp hx with hx | hx
          · exact hlast x hx y (List.mem_singleton_self y) k b c hb hy
          · rw [List.mem_singleton.mp hx, hy] at hb
            rw [Option.some.inj hb]
      | none =>
          rw [hy] at ha
          obtain ⟨⟨x, hx, hget⟩, hmax⟩ := ih hl' ha
          refine ⟨⟨x, List.mem_append_left _ hx, hget⟩, ?_⟩
          intro z hz b hb
          rcases List.mem_append.mp hz with hz | hz
          · exact hmax z hz b hb
          · rw [List.mem_singleton.mp hz, hy] at hb
            cases hb

/-- The versions of a key, in the order of the search over the first `n` levels. -/
def path (get : T → K → Option V) (t : Tiers K V T) (n : Nat) (k : K) : List V :=
  (t.live k).toList ++ (t.frozen.bind (fun f => f k)).toList ++
    (List.range n).flatMap fun l => (t.levels l).reverse.filterMap fun x => get x k

theorem mem_path_iff
    (n : Nat) (k : K) (a : V)
    (hn : ∀ l, t.levels l ≠ [] → l < n) :
    a ∈ t.path get n k ↔ ∃ p, t.Holds get p k a := by
  simp only [path, List.mem_append, Option.mem_toList, Option.bind_eq_some_iff,
    List.mem_flatMap, List.mem_range, List.mem_filterMap, List.mem_reverse]
  constructor
  · rintro ((ha | ⟨f, hf, ha⟩) | ⟨l, -, x, hx, ha⟩)
    · exact ⟨0, ha⟩
    · exact ⟨1, f, hf, ha⟩
    · exact ⟨l + 2, x, hx, ha⟩
  · rintro ⟨p, ha⟩
    match p, ha with
    | 0, ha => exact Or.inl (Or.inl ha)
    | 1, ⟨f, hf, ha⟩ => exact Or.inl (Or.inr ⟨f, hf, ha⟩)
    | l + 2, ⟨x, hx, ha⟩ => exact Or.inr ⟨l, hn l (List.ne_nil_of_mem hx), x, hx, ha⟩

/-- The search meets newer versions first. -/
theorem Ordered.pairwise_path
    (h : t.Ordered rank get)
    (hlevels : ∀ l, (t.levels l).Pairwise fun x y => Older rank (get x) (get y))
    (n : Nat) (k : K) :
    (t.path get n k).Pairwise fun a b => rank b ≤ rank a := by
  have hsingle : ∀ o : Option V, o.toList.Pairwise fun a b => rank b ≤ rank a := by
    intro o
    cases o <;> simp
  have hlevel : ∀ l, ((t.levels l).reverse.filterMap fun x => get x k).Pairwise
      fun a b => rank b ≤ rank a := by
    intro l
    rw [List.pairwise_filterMap, List.pairwise_reverse]
    refine (hlevels l).imp ?_
    intro x y hxy a ha b hb
    exact hxy k b a hb ha
  rw [path, List.pairwise_append, List.pairwise_append]
  refine ⟨⟨hsingle _, hsingle _, ?_⟩, ?_, ?_⟩
  · intro a ha b hb
    obtain ⟨f, hf, hb⟩ := Option.bind_eq_some_iff.mp (Option.mem_toList.mp hb)
    exact h.places 0 1 k a b (by omega) (Option.mem_toList.mp ha) ⟨f, hf, hb⟩
  · rw [List.pairwise_flatMap]
    refine ⟨fun l _ => hlevel l, ?_⟩
    refine (List.pairwise_lt_range (n := n)).imp ?_
    intro l m hlm a ha b hb
    obtain ⟨x, hx, ha⟩ := List.mem_filterMap.mp ha
    obtain ⟨y, hy, hb⟩ := List.mem_filterMap.mp hb
    exact h.places (l + 2) (m + 2) k a b (by omega) ⟨x, List.mem_reverse.mp hx, ha⟩
      ⟨y, List.mem_reverse.mp hy, hb⟩
  · intro a ha b hb
    obtain ⟨l, -, hb⟩ := List.mem_flatMap.mp hb
    obtain ⟨y, hy, hb⟩ := List.mem_filterMap.mp hb
    have hb' : t.Holds get (l + 2) k b := ⟨y, List.mem_reverse.mp hy, hb⟩
    rcases List.mem_append.mp ha with ha | ha
    · exact h.places 0 (l + 2) k a b (by omega) (Option.mem_toList.mp ha) hb'
    · obtain ⟨f, hf, ha⟩ := Option.bind_eq_some_iff.mp (Option.mem_toList.mp ha)
      exact h.places 1 (l + 2) k a b (by omega) ⟨f, hf, ha⟩ hb'

/-- A store that holds less than an ordered one is ordered, if its level 0 is. -/
theorem Ordered.sub
    {t' : Tiers K V T}
    (h : t.Ordered rank get)
    (hholds : ∀ p k a, t'.Holds get p k a → t.Holds get p k a)
    (hfirst : (t'.levels 0).Pairwise fun x y => Older rank (get x) (get y))
    (hcopied : t'.copied = false) :
    t'.Ordered rank get where
  places := fun p q k a b hpq ha hb => h.places p q k a b hpq (hholds p k a ha) (hholds q k b hb)
  first := hfirst
  covered := fun hc => by
    rw [hcopied] at hc
    cases hc

/-- A search that meets some of the versions another one meets, newer ones first, and for each
of them one that is not older, starts with the same one. -/
theorem head?_eq_of_covered
    {xs ys : List V}
    (hxs : xs.Pairwise fun a b => rank b ≤ rank a)
    (hys : ys.Pairwise fun a b => rank b ≤ rank a)
    (hsub : ∀ a ∈ xs, a ∈ ys)
    (hcovered : ∀ a ∈ ys, ∃ b ∈ xs, rank a ≤ rank b)
    (hinj : ∀ a ∈ ys, ∀ b ∈ ys, rank a = rank b → a = b) :
    xs.head? = ys.head? := by
  have hmax : ∀ {zs : List V} {a : V}, (a :: zs).Pairwise (fun a b => rank b ≤ rank a) →
      ∀ b ∈ a :: zs, rank b ≤ rank a := by
    intro zs a hzs b hb
    rcases List.mem_cons.mp hb with rfl | hb
    · exact le_refl _
    · exact (List.pairwise_cons.mp hzs).1 b hb
  cases xs with
  | nil =>
      cases ys with
      | nil =>
          rfl
      | cons b ys =>
          obtain ⟨a, ha, -⟩ := hcovered b List.mem_cons_self
          cases ha
  | cons a xs =>
      cases ys with
      | nil =>
          exact absurd (hsub a List.mem_cons_self) List.not_mem_nil
      | cons b ys =>
          obtain ⟨newer, hnewer, hle⟩ := hcovered b List.mem_cons_self
          have ha := hsub a List.mem_cons_self
          have heq := hinj a ha b List.mem_cons_self
            (Nat.le_antisymm (hmax hys a ha) (Nat.le_trans hle (hmax hxs newer hnewer)))
          rw [List.head?_cons, List.head?_cons, heq]

end Search

end Tiers
end LsmStore
