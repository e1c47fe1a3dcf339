import LsmStore.Iterate

/-!
# The synchronous iterator

The synchronous database has an iterator of its own.  It merges in the same way
as the asynchronous one, but hands its state around differently: `next` takes
the iterators out of the structure, works on a copy of the last key, and writes
both back when it has found an item.  The iterator picked so far is looked up by
the loop and given to `parse_iter`.

The asynchronous iterator is a stream around `DbIteratorInner`; the stream drops
its state with the last item.
-/

namespace LsmStore

/-- Call a function some times, each time on the state that the last call left. -/
def callTimes {σ α : Type} (call : σ → Outcome (σ × α)) : Nat → σ → Outcome (List α)
  | 0, _ => .value []
  | n + 1, s => do
      let result ← call s
      let results ← callTimes call n result.1
      .value (result.2 :: results)

/-- `DbIterator` of the asynchronous database: the state is gone once the end was reached. -/
structure DbIterator where
  state : Option DbIteratorInner

namespace DbIterator

def new (memIters tableIters : List InternalIterator) (minKey maxKey : Option Key)
    (reverse : Bool) : DbIterator where
  state := some (DbIteratorInner.new memIters tableIters minKey maxKey reverse)

/-- `poll_next`, with a future that is ready. -/
def pollNext (s : DbIterator) : Outcome (DbIterator × Option (Key × EntryRef)) :=
  match s.state with
  | none => .value (⟨none⟩, none)
  | some inner => do
      let result ← inner.next
      if result.2.isSome then .value (⟨some result.1⟩, result.2)
      else .value (⟨none⟩, result.2)

end DbIterator

namespace Sync

/-- `DbIterator` of the synchronous database. -/
structure DbIterator where
  lastKey : Option Key
  iterators : List InternalIterator
  minKey : Option Key
  maxKey : Option Key
  reverse : Bool

namespace DbIterator

def new (memIters tableIters : List InternalIterator) (minKey maxKey : Option Key)
    (reverse : Bool) : DbIterator where
  lastKey := none
  iterators := memIters ++ tableIters
  minKey := minKey
  maxKey := maxKey
  reverse := reverse

/-- The bound at which the iteration begins. -/
def startKey (d : DbIterator) : Option Key :=
  if d.reverse then d.maxKey else d.minKey

/-- The bound at which the iteration ends. -/
def stopKey (d : DbIterator) : Option Key :=
  if d.reverse then d.minKey else d.maxKey

/-- `next_iter.unwrap()`. -/
def unwrapIter : Option InternalIterator → Outcome InternalIterator
  | some it => .value it
  | none => .panic "called `Option::unwrap()` on a `None` value"

/-- First part of `parse_iter`: the iterator might be behind the others, or before the first
bound. -/
def catchUp (d : DbIterator) (lastKey : Option Key) (iter : InternalIterator) :
    Outcome InternalIterator := do
  let iter ← iter.skipBound (fun lastKey key => !decide (Before d.reverse lastKey key)) lastKey
  iter.skipBound (fun startKey key => decide (Before d.reverse key startKey)) d.startKey

/-- Second part of `parse_iter`: is what the iterator stands at better than what was picked
so far? -/
def offer (d : DbIterator) (pos : Nat) (nextIter : Option InternalIterator)
    (iter : InternalIterator) (nextKv : NextKV) : Outcome (Bool × NextKV) :=
  if iter.atEnd then pure (false, nextKv)
  else do
    let key ← iter.getKey
    if d.startKey.any fun startKey => decide (Before d.reverse key startKey) then
      pure (false, nextKv)
    else if d.stopKey.any fun stopKey => !decide (Before d.reverse key stopKey) then
      pure (false, nextKv)
    else
      let seqNumber ← iter.getSeqNumber
      match nextKv with
      | none => pure (true, some (seqNumber, pos))
      | some (nextSeqNumber, _) => do
          let nextIter ← unwrapIter nextIter
          let nextKey ← nextIter.getKey
          if Before d.reverse key nextKey then pure (true, some (seqNumber, pos))
          else if key = nextKey then
            if nextSeqNumber < seqNumber then pure (true, some (seqNumber, pos))
            else pure (false, nextKv)
          else pure (false, nextKv)

def parseIter (d : DbIterator) (pos : Nat) (lastKey : Option Key)
    (nextIter : Option InternalIterator) (iter : InternalIterator) (nextKv : NextKV) :
    Outcome (InternalIterator × Bool × NextKV) := do
  let iter ← d.catchUp lastKey iter
  let found ← d.offer pos nextIter iter nextKv
  pure (iter, found)

def iterAt (its : List InternalIterator) (pos : Nat) : Outcome InternalIterator :=
  match its[pos]? with
  | some it => .value it
  | none => .panic "index out of bounds"

/-- The iterator that was picked so far, among those in front of the current one. -/
def pickedIter (prev : List InternalIterator) : NextKV → Outcome (Option InternalIterator)
  | none => .value none
  | some (_, pos) => do
      let it ← iterAt prev pos
      .value (some it)

/-- `for pos in 0..n`; the iterators and the last key are local to `next`. -/
def parseIters (d : DbIterator) (lastKey : Option Key) :
    Nat → List InternalIterator → Outcome (List InternalIterator × NextKV)
  | 0, its => .value (its, none)
  | pos + 1, its => do
      let before ← parseIters d lastKey pos its
      let nextIter ← pickedIter (before.1.take pos) before.2
      let iter ← iterAt before.1 pos
      let parsed ← d.parseIter pos lastKey nextIter iter before.2
      .value (before.1.set pos parsed.1, if parsed.2.1 then parsed.2.2 else before.2)

/-- `while result.is_none()`. -/
def nextLoop (d : DbIterator) : Nat → Option Key → List InternalIterator →
    Outcome (Option (Key × EntryRef) × Option Key × List InternalIterator)
  | 0, _, _ => .unfinished
  | fuel + 1, lastKey, its => do
      let parsed ← d.parseIters lastKey its.length its
      match parsed.2 with
      | some (_, pos) => do
          let iter ← iterAt parsed.1 pos
          let resKey ← iter.getKey
          match iter.getEntry with
          | some entry => .value (some (resKey, entry), some resKey, parsed.1)
          | none => nextLoop d fuel (some resKey) parsed.1
      | none => .value (none, lastKey, parsed.1)

/-- There are at most so many entries in all sources. -/
def maxSteps (its : List InternalIterator) : Nat :=
  (its.map InternalIterator.maxSteps).sum

/-- `Iterator::next`: the iterators are taken out of the structure and put back at the end. -/
def next (d : DbIterator) : Outcome (DbIterator × Option (Key × EntryRef)) := do
  let found ← nextLoop { d with iterators := [] } (maxSteps d.iterators + 1) d.lastKey d.iterators
  .value ({ d with lastKey := found.2.1, iterators := found.2.2 }, found.1)

/-! ## The simulation -/

/-- The state of `next`, as the asynchronous iterator has it. -/
def inner (d : DbIterator) (lastKey : Option Key) (its : List InternalIterator) :
    DbIteratorInner where
  lastKey := lastKey
  iterators := its
  reverse := d.reverse
  minKey := d.minKey
  maxKey := d.maxKey

section Simulation

variable {d : DbIterator} {lastKey : Option Key} {its : List InternalIterator}

theorem iterAt_inner
    (d : DbIterator) (lastKey : Option Key) (its : List InternalIterator) (pos : Nat) :
    (d.inner lastKey its).iterAt pos = iterAt its pos :=
  rfl

/-- A candidate is judged in the same way, where the iterator that was picked is at hand. -/
theorem offer_inner
    {pos : Nat} {nextIter : Option InternalIterator} {iter : InternalIterator} {nextKv : NextKV}
    (hnext : ∀ kv, nextKv = some kv → iterAt its kv.2 = unwrapIter nextIter) :
    (d.inner lastKey its).offer pos iter nextKv = d.offer pos nextIter iter nextKv := by
  cases nextKv with
  | none =>
      rfl
  | some kv =>
      rw [offer, ← hnext kv rfl]
      rfl

theorem offer_pos
    {pos : Nat} {nextIter : Option InternalIterator} {iter : InternalIterator} {nextKv : NextKV}
    {found : Bool × NextKV}
    (h : d.offer pos nextIter iter nextKv = .value found) :
    (if found.1 then found.2 else nextKv) = nextKv ∨
      ∃ seqNumber, (if found.1 then found.2 else nextKv) = some (seqNumber, pos) := by
  have hkeep : ∀ {found : Bool × NextKV}, Outcome.value (false, nextKv) = .value found →
      (if found.1 then found.2 else nextKv) = nextKv := by
    intro found h
    cases h
    rfl
  have hnew : ∀ {seqNumber : Nat} {found : Bool × NextKV},
      Outcome.value (true, some (seqNumber, pos)) = .value found →
        (if found.1 then found.2 else nextKv) = some (seqNumber, pos) := by
    intro seqNumber found h
    cases h
    rfl
  unfold offer at h
  split_ifs at h with hend
  · exact Or.inl (hkeep h)
  obtain ⟨key, -, h⟩ := Outcome.bind_eq_value h
  split_ifs at h with hstart hstop
  · exact Or.inl (hkeep h)
  · exact Or.inl (hkeep h)
  obtain ⟨seqNumber, -, h⟩ := Outcome.bind_eq_value h
  cases nextKv with
  | none =>
      exact Or.inr ⟨seqNumber, hnew h⟩
  | some kv =>
      obtain ⟨it, -, h⟩ := Outcome.bind_eq_value h
      obtain ⟨nextKey, -, h⟩ := Outcome.bind_eq_value h
      split_ifs at h with hbefore heq hlt
      · exact Or.inr ⟨seqNumber, hnew h⟩
      · exact Or.inr ⟨seqNumber, hnew h⟩
      · exact Or.inl (hkeep h)
      · exact Or.inl (hkeep h)

/-- What was picked so far is in front of the current iterator, so that a step of the current
one does not concern it. -/
theorem pickedIter_spec
    (its : List InternalIterator) {pos : Nat} {nextKv : NextKV}
    (hpos : pos < its.length)
    (hnext : ∀ kv, nextKv = some kv → kv.2 < pos) :
    ∃ nextIter, pickedIter (its.take pos) nextKv = .value nextIter ∧
      ∀ iter kv, nextKv = some kv → iterAt (its.set pos iter) kv.2 = unwrapIter nextIter := by
  cases nextKv with
  | none =>
      refine ⟨none, rfl, ?_⟩
      intro iter kv hkv
      cases hkv
  | some kv =>
      have hlt : kv.2 < pos := hnext kv rfl
      have hget : its[kv.2]? = some its[kv.2] := List.getElem?_eq_getElem (by omega)
      refine ⟨some its[kv.2], ?_, ?_⟩
      · rw [pickedIter, iterAt, List.getElem?_take_of_lt hlt, hget]
        rfl
      · intro iter kv' hkv
        cases hkv
        rw [iterAt, List.getElem?_set_ne (by omega), hget]
        rfl

/-- Two states of the loop over the iterators: the choice is among the first ones. -/
structure SameRound (d : DbIterator) (lastKey : Option Key) (its : List InternalIterator)
    (n : Nat) (a : DbIteratorInner × NextKV) (b : List InternalIterator × NextKV) : Prop where
  state : a.1 = d.inner lastKey b.1
  choice : a.2 = b.2
  length : b.1.length = its.length
  picked : ∀ kv, b.2 = some kv → kv.2 < n

theorem rel_parseIters
    {n : Nat}
    (hn : n ≤ its.length) :
    Outcome.Rel (SameRound d lastKey its n)
      (DbIteratorInner.parseIters n (d.inner lastKey its)) (d.parseIters lastKey n its) := by
  induction n with
  | zero =>
      refine .value ⟨rfl, rfl, rfl, ?_⟩
      intro kv hkv
      cases hkv
  | succ n ih =>
      rw [DbIteratorInner.parseIters, parseIters]
      refine (ih (Nat.le_of_succ_le hn)).bind ?_
      rintro ⟨inner, kv⟩ ⟨its', nextKv⟩ ⟨hinner, hkv, hlength, hpicked⟩
      dsimp only at hinner hkv hlength hpicked ⊢
      subst hinner hkv
      obtain ⟨nextIter, hnextIter, hset⟩ :=
        pickedIter_spec its' (by omega) hpicked
      rw [hnextIter, Outcome.value_bind, DbIteratorInner.parseIter, iterAt_inner,
        Outcome.bind_assoc]
      refine (Outcome.Rel.refl _).bind ?_
      rintro iter _ ⟨-, rfl⟩
      rw [parseIter, Outcome.bind_assoc, Outcome.bind_assoc]
      refine (Outcome.Rel.refl (d.catchUp lastKey iter)).bind ?_
      rintro iter' _ ⟨-, rfl⟩
      rw [Outcome.bind_assoc, Outcome.bind_assoc]
      have hoffer : Outcome.Rel
          (fun a b => d.offer n nextIter iter' kv = .value a ∧ a = b)
          ((d.inner lastKey (its'.set n iter')).offer n iter' kv)
          (d.offer n nextIter iter' kv) := by
        rw [offer_inner (hset iter')]
        exact Outcome.Rel.refl _
      refine hoffer.bind ?_
      rintro found _ ⟨hfound, rfl⟩
      refine .value ⟨rfl, rfl, by rw [List.length_set, hlength], ?_⟩
      intro kv' hkv'
      rcases offer_pos hfound with hsame | ⟨seqNumber, hnew⟩
      · exact Nat.lt_succ_of_lt (hpicked kv' (hsame.symm.trans hkv'))
      · cases hnew.symm.trans hkv'
        exact Nat.lt_succ_self n

theorem rel_nextLoop
    (d : DbIterator) (lastKey : Option Key) (its : List InternalIterator) (fuel : Nat) :
    Outcome.Rel (fun a b => a = (d.inner b.2.1 b.2.2, b.1))
      (DbIteratorInner.nextLoop fuel (d.inner lastKey its)) (d.nextLoop fuel lastKey its) := by
  induction fuel generalizing lastKey its with
  | zero =>
      exact .unfinished
  | succ fuel ih =>
      rw [DbIteratorInner.nextLoop, nextLoop]
      refine (rel_parseIters (le_refl its.length)).bind ?_
      rintro ⟨inner, kv⟩ ⟨its', nextKv⟩ ⟨hinner, hkv, -, -⟩
      dsimp only at hinner hkv ⊢
      subst hinner hkv
      cases kv with
      | none =>
          exact .value rfl
      | some kv =>
          refine (Outcome.Rel.refl (iterAt its' kv.2)).bind ?_
          rintro iter _ ⟨-, rfl⟩
          refine (Outcome.Rel.refl iter.getKey).bind ?_
          rintro key _ ⟨-, rfl⟩
          cases hentry : iter.getEntry with
          | none =>
              exact ih (some key) its'
          | some entry =>
              exact .value rfl

end Simulation

/-- A call of `next`: the two iterators return the same item and go on in the same state. -/
theorem rel_next
    (d : DbIterator) :
    Outcome.Rel (fun a b => a.1 = b.1.inner b.1.lastKey b.1.iterators ∧ a.2 = b.2)
      (d.inner d.lastKey d.iterators).next d.next := by
  have hloop := rel_nextLoop { d with iterators := [] } d.lastKey d.iterators
    (maxSteps d.iterators + 1)
  refine hloop.wrap ?_
  rintro _ found rfl
  exact ⟨rfl, rfl⟩

end DbIterator
end Sync

/-! ## Repeated calls -/

theorem callTimes_eq
    {σ τ α : Type} {R : σ → τ → Prop}
    {call : σ → Outcome (σ × α)} {call' : τ → Outcome (τ × α)}
    (hcall : ∀ s t, R s t →
      Outcome.Rel (fun a b => R a.1 b.1 ∧ a.2 = b.2) (call s) (call' t))
    {s : σ} {t : τ}
    (h : R s t)
    (n : Nat) :
    callTimes call n s = callTimes call' n t := by
  induction n generalizing s t with
  | zero =>
      rfl
  | succ n ih =>
      rw [callTimes, callTimes]
      generalize call s = o, call' t = o', hcall s t h = hrel
      cases hrel with
      | value hab =>
          rw [Outcome.value_bind, Outcome.value_bind, ih hab.1, hab.2]
      | error e =>
          rfl
      | panic message =>
          rfl
      | unfinished =>
          rfl

/-- The first results of an iterator over a list: the items, and then `None` for ever. -/
def heads {α : Type} (l : List α) : Nat → List (Option α)
  | 0 => []
  | n + 1 => l.head? :: heads l.tail n

namespace DbIteratorInner

/-- Repeated calls return what there is to visit, one item after the other. -/
theorem callTimes_next
    {d : DbIteratorInner}
    (h : d.Valid)
    (n : Nat) :
    callTimes next n d = .value (heads d.pending n) := by
  induction n generalizing d with
  | zero =>
      rfl
  | succ n ih =>
      obtain ⟨d', hnext, hvalid, -, hpending, -⟩ := next_spec h
      rw [callTimes, hnext, Outcome.value_bind, ih hvalid, hpending]
      rfl

end DbIteratorInner

namespace DbIterator

theorem callTimes_pollNext_none
    (n : Nat) :
    callTimes pollNext n ⟨none⟩ = .value (heads [] n) := by
  induction n with
  | zero =>
      rfl
  | succ n ih =>
      rw [callTimes, pollNext, Outcome.value_bind, ih]
      rfl

theorem callTimes_pollNext
    {d : DbIteratorInner}
    (h : d.Valid)
    (n : Nat) :
    callTimes pollNext n ⟨some d⟩ = .value (heads d.pending n) := by
  induction n generalizing d with
  | zero =>
      rfl
  | succ n ih =>
      obtain ⟨d', hnext, hvalid, -, hpending, -⟩ := DbIteratorInner.next_spec h
      rw [callTimes, pollNext]
      dsimp only
      rw [hnext, Outcome.value_bind, heads, ← hpending]
      cases hitems : d.pending with
      | nil =>
          rw [hitems, List.tail_nil] at hpending
          rw [hpending]
          simp only [List.head?_nil, Option.isSome_none, Bool.false_eq_true, if_false,
            Outcome.value_bind, callTimes_pollNext_none]
      | cons item items =>
          simp only [List.head?_cons, Option.isSome_some, if_true, Outcome.value_bind, ih hvalid]

end DbIterator

/-- **The implementations agree**: over sorted sources, between any bounds and in either
direction, repeated calls of the asynchronous `next`, of the stream around it, and of the
synchronous iterator all return the same items, and `None` for ever after the last. -/
theorem sync_iterator_agrees
    (memIters tableIters : List InternalIterator) (minKey maxKey : Option Key) (reverse : Bool)
    (hvalid : ∀ it ∈ memIters ++ tableIters, it.Valid)
    (hsorted : ∀ it ∈ memIters ++ tableIters,
      it.remaining.Pairwise fun a b => Before reverse a.1 b.1) :
    ∃ items : List (Key × EntryRef), ∀ n,
      callTimes DbIteratorInner.next n
          (DbIteratorInner.new memIters tableIters minKey maxKey reverse) =
        .value (heads items n) ∧
      callTimes DbIterator.pollNext n
          (DbIterator.new memIters tableIters minKey maxKey reverse) =
        .value (heads items n) ∧
      callTimes Sync.DbIterator.next n
          (Sync.DbIterator.new memIters tableIters minKey maxKey reverse) =
        .value (heads items n) := by
  have h : (DbIteratorInner.new memIters tableIters minKey maxKey reverse).Valid :=
    ⟨hvalid, hsorted⟩
  refine ⟨_, fun n => ⟨DbIteratorInner.callTimes_next h n, DbIterator.callTimes_pollNext h n, ?_⟩⟩
  rw [← DbIteratorInner.callTimes_next h n]
  -- the synchronous iterator is in the state of the asynchronous one at every call
  refine (callTimes_eq (R := fun s d => s = d.inner d.lastKey d.iterators) ?_ rfl n).symm
  rintro _ d rfl
  exact d.rel_next

/-- Between `2` and `4` a table and a newer one that deletes `2` and overwrites `3` have one
item: every implementation returns it, and then nothing any more. -/
theorem sync_iterator_agrees_overlapping :
    let key (b : UInt8) : Key := ByteVec.ofList [b]
    let items := [(key 3, EntryRef.sortedTable (.value 6 (key 7)))]
    ∀ n,
      callTimes DbIteratorInner.next n (DbIteratorInner.new [] [olderIter, newerIter]
          (some (key 2)) (some (key 4)) false) = .value (heads items n) ∧
      callTimes DbIterator.pollNext n (DbIterator.new [] [olderIter, newerIter]
          (some (key 2)) (some (key 4)) false) = .value (heads items n) ∧
      callTimes Sync.DbIterator.next n (Sync.DbIterator.new [] [olderIter, newerIter]
          (some (key 2)) (some (key 4)) false) = .value (heads items n) := by
  intro key items
  obtain ⟨items', hagree⟩ := sync_iterator_agrees [] [olderIter, newerIter] (some (key 2))
    (some (key 4)) false valid_overlapping sorted_overlapping
  -- two calls tell that there is one item
  have htwo : heads items 2 = heads items' 2 := Outcome.value.inj ((hagree 2).1.symm.trans rfl).symm
  obtain rfl : items = items' := by
    match items', htwo with
    | [_], hone =>
        exact congrArg (fun item => [item]) (Option.some.inj (List.cons.inj hone).1)
    | [], hnil =>
        cases (List.cons.inj hnil).1
    | _ :: _ :: _, hmore =>
        cases (List.cons.inj (List.cons.inj hmore).2).1
  exact hagree

end LsmStore
