import LsmStore.Logic.Versions

/-!
# Reads are linearizable

A `get` reads the live memtable, the immutable memtables and the levels one
after the other and gives up every lock before it takes the next.  Versions only
move down, and a version is visible further down before it disappears, so a
reader that has not found its key yet still has the last write of the moment it
started in front of it, or a newer one.  What it returns is the value of the key
at some moment between its first and its last read.
-/

namespace LsmStore
namespace Logic

open Tiers

/-- What every step does: the history grows by at most one batch, and every version stays in
view of those who look at its place or further down. -/
structure Carries (s s' : DbState) : Prop where
  history : s'.batches = s.batches ∨ ∃ batch, s'.batches = s.batches ++ [batch]
  down : ∀ p key entry, s.tiers.Holds SortedTable.get p key entry →
    ∃ q newer, p ≤ q ∧ s'.tiers.Holds SortedTable.get q key newer ∧
      entry.getSeqNumber ≤ newer.getSeqNumber

section Steps

variable {params : Params} {s : DbState}

theorem VersionInv.carries_quiet
    {s' : DbState}
    (h : VersionInv params s)
    (hquiet : Quiet s s') :
    Carries s s' := by
  refine ⟨Or.inl hquiet.batches, ?_⟩
  intro p key entry he
  rcases hquiet.tiers with htiers | hmove
  · exact ⟨p, entry, le_refl _, htiers ▸ he, le_refl _⟩
  · exact h.ordered.down hmove he

theorem VersionInv.carries_write
    (h : VersionInv params s)
    (batch : List WriteOp) :
    Carries s (writeOpts params s batch) := by
  have hbatch := fun p key entry he => h.ordered.down (h.write batch) (p := p) (k := key)
    (a := entry) he
  rcases writeOpts_cases params s batch with heq | heq | ⟨hempty, heq⟩ <;> rw [heq]
  · exact ⟨Or.inl rfl, fun p key entry he => ⟨p, entry, le_refl _, he, le_refl _⟩⟩
  · exact ⟨Or.inr ⟨batch, rfl⟩, hbatch⟩
  · refine ⟨Or.inr ⟨batch, rfl⟩, ?_⟩
    intro p key entry he
    have hafter := h.afterBatch batch
    obtain ⟨q, newer, hpq, hq, hle⟩ := hbatch p key entry he
    obtain ⟨r, newest, hqr, hr, hle'⟩ := hafter.ordered.down (hafter.freeze hempty) hq
    exact ⟨r, newest, le_trans hpq hqr, hr, le_trans hle hle'⟩

theorem VersionInv.carries_step
    (h : VersionInv params s)
    (e : DbEvent) :
    Carries s (step params s e) := by
  have hstep := dbStep_step h.own e
  generalize step params s e = s' at hstep
  cases hstep with
  | write batch =>
      exact h.carries_write batch
  | flusher =>
      exact h.carries_quiet (quiet_doMemtableCompaction params h.flush)
  | installs hi hpc hinst =>
      exact h.carries_quiet hinst.quiet
  | unnoticed hframe =>
      exact h.carries_quiet hframe.quiet

theorem FlusherStep.gets
    {s' : DbState}
    (h : FlusherStep params s s') :
    s'.gets = s.gets := by
  have hcalls : ∀ call next, (s.flusherCalls call next).gets = s.gets := by
    rintro ⟨manifest, outcome⟩ next
    cases outcome <;> rfl
  cases h <;> first | rfl | exact hcalls _ _

theorem gets_startCompaction
    (params : Params) (s : DbState) (i level : Nat) :
    (startCompaction params s i level).gets = s.gets := by
  unfold startCompaction
  split_ifs
  · dsimp only
    split <;> rfl
  · rfl

/-- A reader's program counter moves by its own events only. -/
theorem VersionInv.gets_step
    (h : VersionInv params s)
    {client : Nat} {e : DbEvent}
    (hbegin : ∀ key, e ≠ .getBegin client key)
    (hnext : e ≠ .getNext client) :
    (step params s e).gets client = s.gets client := by
  cases e with
  | write batch =>
      change (writeOpts params s batch).gets client = s.gets client
      rcases writeOpts_cases params s batch with heq | heq | ⟨-, heq⟩ <;> rw [heq] <;> rfl
  | getBegin other key =>
      have hother : client ≠ other := fun heq => hbegin key (heq ▸ rfl)
      change (getBegin s other key).gets client = s.gets client
      unfold getBegin
      dsimp only
      split <;> exact Function.update_of_ne hother _ _
  | getNext other =>
      have hother : client ≠ other := fun heq => hnext (heq ▸ rfl)
      change (getNext params s other).gets client = s.gets client
      unfold getNext getLevel
      dsimp only
      split
      · rfl
      · split <;> exact Function.update_of_ne hother _ _
      · split
        · exact Function.update_of_ne hother _ _
        · split_ifs <;> exact Function.update_of_ne hother _ _
      · rfl
  | flusher =>
      exact congrFun (flusherStep_doMemtableCompaction params s).gets client
  | compact i level =>
      exact congrFun (gets_startCompaction params s i level) client
  | task i =>
      rcases taskStep_cases h.own i with hframe | ⟨-, c, t, -, -, hinst⟩
      · exact congrFun hframe.gets client
      · change (taskStep params s i).gets client = _
        rw [hinst.frame]

end Steps

/-! ## A running lookup -/

/-- A reader that started after `start` batches and looks at `place` next: the last write of
that moment is at the place or below it, or a newer one is. -/
structure Behind (s : DbState) (key : Key) (start place : Nat) : Prop where
  start_le : start ≤ s.batches.length
  below : ∀ entry, lastWrite (s.batches.take start).flatten key = some entry →
    ∃ p newer, place ≤ p ∧ s.tiers.Holds SortedTable.get p key newer ∧
      entry.getSeqNumber ≤ newer.getSeqNumber

/-- The value of a key at a moment between `start` and `finish`. -/
def ValueBetween (s : DbState) (key : Key) (start finish : Nat) (result : Option Value) :
    Prop :=
  ∃ m, start ≤ m ∧ m ≤ finish ∧ result = valueAfter (s.batches.take m).flatten key

def GetOk (params : Params) (s : DbState) : GetPc → Prop
  | .idle => True
  | .readingImm key start => Behind s key start 1
  | .readingLevel key start level _ => level < params.numLevels ∧ Behind s key start (level + 2)
  | .done key start finish _ result =>
      finish ≤ s.batches.length ∧ ValueBetween s key start finish result

section Lookups

variable {params : Params} {s s' : DbState} {key : Key} {start place : Nat}

theorem Carries.length_le
    (h : Carries s s') :
    s.batches.length ≤ s'.batches.length ∧ s'.batches.length ≤ s.batches.length + 1 := by
  rcases h.history with heq | ⟨batch, heq⟩ <;> rw [heq]
  · exact ⟨le_refl _, Nat.le_succ _⟩
  · rw [List.length_append, List.length_singleton]
    exact ⟨Nat.le_succ _, le_refl _⟩

theorem Carries.take_eq
    (h : Carries s s')
    {m : Nat}
    (hm : m ≤ s.batches.length) :
    s'.batches.take m = s.batches.take m := by
  rcases h.history with heq | ⟨batch, heq⟩ <;> rw [heq]
  exact List.take_append_of_le_length hm

theorem Behind.carries
    (h : Behind s key start place)
    (hcarries : Carries s s') :
    Behind s' key start place := by
  refine ⟨le_trans h.start_le hcarries.length_le.1, ?_⟩
  intro entry he
  rw [hcarries.take_eq h.start_le] at he
  obtain ⟨p, newer, hp, hheld, hle⟩ := h.below entry he
  obtain ⟨q, newest, hpq, hq, hle'⟩ := hcarries.down p key newer hheld
  exact ⟨q, newest, le_trans hp hpq, hq, le_trans hle hle'⟩

theorem GetOk.carries
    {pc : GetPc}
    (h : GetOk params s pc)
    (hcarries : Carries s s') :
    GetOk params s' pc := by
  cases pc with
  | idle =>
      trivial
  | readingImm key start =>
      exact Behind.carries h hcarries
  | readingLevel key start level triggered =>
      exact ⟨h.1, h.2.carries hcarries⟩
  | done key start finish triggered result =>
      obtain ⟨hfinish, m, hstart, hm, hresult⟩ := h
      refine ⟨le_trans hfinish hcarries.length_le.1, m, hstart, hm, ?_⟩
      rw [hcarries.take_eq (le_trans hm hfinish)]
      exact hresult

/-- A place without the key can be passed. -/
theorem Behind.pass
    (h : Behind s key start place)
    (hmiss : ∀ entry, ¬ s.tiers.Holds SortedTable.get place key entry) :
    Behind s key start (place + 1) := by
  refine ⟨h.start_le, ?_⟩
  intro entry he
  obtain ⟨p, newer, hp, hheld, hle⟩ := h.below entry he
  refine ⟨p, newer, ?_, hheld, hle⟩
  rcases Nat.lt_or_eq_of_le hp with hlt | rfl
  · exact hlt
  · exact absurd hheld (hmiss newer)

theorem not_holds_of_level_miss
    {level : Nat} {key : Key}
    (hmiss : ((s.levels level).get params s.allowedSeeks key).2 = none)
    (entry : MemtableEntry) :
    ¬ s.tiers.Holds SortedTable.get (level + 2) key entry := by
  rintro ⟨t, ht, hget⟩
  rw [Level.get_result, List.findSome?_eq_none_iff] at hmiss
  have hnone := hmiss t (List.mem_reverse.mpr ht)
  rw [hget] at hnone
  cases hnone

section Versions

variable (h : VersionInv params s)

include h

/-- A lookup starts with everything in front of it. -/
theorem VersionInv.behind_start
    (key : Key) :
    Behind s key s.batches.length 0 := by
  refine ⟨le_refl _, ?_⟩
  intro entry he
  rw [List.take_length] at he
  obtain ⟨p, newer, hp, hle⟩ := h.newest key entry he
  exact ⟨p, newer, Nat.zero_le _, hp, hle⟩

/-- The newest entry of the place a reader looks at was the last write at some moment since
the reader started. -/
theorem VersionInv.lastWrite_of_hit
    {entry : MemtableEntry}
    (hbehind : Behind s key start place)
    (hheld : s.tiers.Holds SortedTable.get place key entry)
    (hmax : ∀ other, s.tiers.Holds SortedTable.get place key other →
      other.getSeqNumber ≤ entry.getSeqNumber) :
    ValueBetween s key start s.batches.length entry.getValue := by
  obtain ⟨m, hm, hlast⟩ := h.genuine place key entry hheld
  by_cases hstart : start ≤ m
  · exact ⟨m, hstart, hm, by rw [valueAfter, hlast]; rfl⟩
  · -- an entry from before the start is still the last write at the start
    refine ⟨start, le_refl _, hbehind.start_le, ?_⟩
    have hsplit : (s.batches.take start).flatten =
        (s.batches.take m).flatten ++ ((s.batches.take start).drop m).flatten := by
      rw [flatten_take_append (s.batches.take start) m, List.take_take,
        min_eq_left (by omega)]
    obtain ⟨last, hlast', -⟩ := lastWrite_mono hlast ((s.batches.take start).drop m).flatten
    have hlast'' : lastWrite (s.batches.take start).flatten key = some last :=
      hsplit ▸ hlast'
    obtain ⟨p, newer, hp, hnewer, hle⟩ := hbehind.below last hlast''
    have hnewest : newer.getSeqNumber ≤ entry.getSeqNumber := by
      rcases Nat.lt_or_eq_of_le hp with hlt | rfl
      · exact h.ordered.places place p key entry newer hlt hheld hnewer
      · exact hmax newer hnewer
    have heq := lastWrite_inj hlast hlast' (le_trans hle hnewest)
    rw [valueAfter, hlast'', heq]
    rfl

/-- A reader that has passed every level: the key was not there when it started. -/
theorem VersionInv.absent_of_passed
    (hbehind : Behind s key start (params.numLevels + 2)) :
    ValueBetween s key start s.batches.length none := by
  refine ⟨start, le_refl _, hbehind.start_le, ?_⟩
  cases hlast : lastWrite (s.batches.take start).flatten key with
  | none =>
      rw [valueAfter, hlast]
      rfl
  | some entry =>
      obtain ⟨p, newer, hp, hheld, -⟩ := hbehind.below entry hlast
      rcases p with _ | _ | l
      · omega
      · omega
      · obtain ⟨t, ht, -⟩ := hheld
        have hbound := h.own.tables.bound l t ht
        omega

theorem VersionInv.getOk_getBegin
    (client : Nat) (key : Key) :
    GetOk params s ((getBegin s client key).gets client) := by
  unfold getBegin
  dsimp only
  cases hentry : s.memtable.get key with
  | some entry =>
      simp only [DbState.setGet, Function.update_self, GetPc.found, GetOk]
      have hheld : s.tiers.Holds SortedTable.get 0 key entry := hentry
      refine ⟨le_refl _, h.lastWrite_of_hit (h.behind_start key) hheld ?_⟩
      intro other hother
      rw [Option.some.inj (hother.symm.trans hentry)]
  | none =>
      simp only [DbState.setGet, Function.update_self, GetOk]
      refine (h.behind_start key).pass ?_
      intro entry hheld
      cases hentry.symm.trans hheld

theorem VersionInv.find_imm
    (key : Key) (entry : MemtableEntry) :
    s.immMemtables.reverse.findSome? (fun imm => imm.2.get key) = some entry ↔
      s.tiers.Holds SortedTable.get 1 key entry := by
  change _ ↔ ∃ f, s.immMemtables.head?.map (fun imm => imm.2.get) = some f ∧ f key = some entry
  cases hlist : s.immMemtables with
  | nil =>
      simp
  | cons imm rest =>
      have hone := h.flush.eq_singleton hlist
      rw [hlist, List.cons.injEq] at hone
      rw [hone.2]
      simp

theorem VersionInv.find_level
    {level : Nat} {key : Key} {entry : MemtableEntry}
    (hfind : ((s.levels level).get params s.allowedSeeks key).2 = some entry) :
    s.tiers.Holds SortedTable.get (level + 2) key entry ∧
      ∀ other, s.tiers.Holds SortedTable.get (level + 2) key other →
        other.getSeqNumber ≤ entry.getSeqNumber := by
  rw [Level.get_result] at hfind
  obtain ⟨hheld, hmax⟩ := newest_of_findSome? (h.pairwise_level level) hfind
  refine ⟨hheld, ?_⟩
  rintro other ⟨t, ht, hget⟩
  exact hmax t ht other hget

theorem VersionInv.getOk_getNext
    {client : Nat}
    (hok : GetOk params s (s.gets client)) :
    GetOk params s ((getNext params s client).gets client) := by
  cases hpc : s.gets client with
  | idle =>
      simp only [getNext, hpc]
      trivial
  | readingImm key start =>
      rw [hpc] at hok
      simp only [getNext, hpc]
      cases hentry : s.immMemtables.reverse.findSome? fun imm => imm.2.get key with
      | some entry =>
          simp only [DbState.setGet, Function.update_self, GetPc.found, GetOk]
          have hheld := (h.find_imm key entry).mp hentry
          refine ⟨le_refl _, h.lastWrite_of_hit hok hheld ?_⟩
          intro other hother
          rw [Option.some.inj (((h.find_imm key other).mpr hother).symm.trans hentry)]
      | none =>
          simp only [DbState.setGet, Function.update_self, GetOk]
          refine ⟨params.numLevels_pos, Behind.pass hok ?_⟩
          intro entry hheld
          cases hentry.symm.trans ((h.find_imm key entry).mpr hheld)
  | readingLevel key start level triggered =>
      rw [hpc] at hok
      obtain ⟨hlevel, hbehind⟩ := hok
      simp only [getNext, hpc, getLevel]
      cases hentry : ((s.levels level).get params s.allowedSeeks key).2 with
      | some entry =>
          simp only [DbState.setGet, Function.update_self, GetPc.found, GetOk]
          obtain ⟨hheld, hmax⟩ := h.find_level hentry
          exact ⟨le_refl _, h.lastWrite_of_hit hbehind hheld hmax⟩
      | none =>
          have hpassed := hbehind.pass (not_holds_of_level_miss hentry)
          dsimp only
          split_ifs with hlast
          · simp only [DbState.setGet, Function.update_self, GetOk]
            exact ⟨hlast, hpassed⟩
          · simp only [DbState.setGet, Function.update_self, GetOk]
            have hnum : level + 2 + 1 = params.numLevels + 2 := by omega
            rw [hnum] at hpassed
            exact ⟨le_refl _, h.absent_of_passed hpassed⟩
  | done key start finish triggered result =>
      rw [hpc] at hok
      simp only [getNext, hpc]
      exact hok

end Versions

end Lookups

/-- The invariant of the readers. -/
structure ReadInv (params : Params) (s : DbState) : Prop where
  versions : VersionInv params s
  gets : ∀ client, GetOk params s (s.gets client)

theorem readInv_step
    (params : Params) (s : DbState) (e : DbEvent)
    (h : ReadInv params s) :
    ReadInv params (step params s e) := by
  have hcarries := h.versions.carries_step e
  refine ⟨versionInv_step params s e h.versions, ?_⟩
  intro client
  by_cases hbegin : ∃ key, e = .getBegin client key
  · obtain ⟨key, rfl⟩ := hbegin
    exact (h.versions.getOk_getBegin client key).carries hcarries
  · by_cases hnext : e = .getNext client
    · subst hnext
      exact (h.versions.getOk_getNext (h.gets client)).carries hcarries
    · rw [h.versions.gets_step (fun key heq => hbegin ⟨key, heq⟩) hnext]
      exact (h.gets client).carries hcarries

theorem readInv_run
    (params : Params) (numTasks : Nat) (events : List DbEvent) :
    ReadInv params ((DbState.new params numTasks).run params events) :=
  Runs.invariant (I := ReadInv params) (readInv_step params)
    ⟨versionInv_new params numTasks, fun _ => trivial⟩ events

/-! ## One lookup in a run -/

/-- What a finished lookup has returned. -/
def GetPc.returned : GetPc → Option (Option Value)
  | done _ _ _ _ result => some result
  | _ => none

/-- The key of a lookup and the number of batches at its first read. -/
def GetPc.begun : GetPc → Option (Key × Nat)
  | idle => none
  | readingImm key start => some (key, start)
  | readingLevel key start _ _ => some (key, start)
  | done key start _ _ _ => some (key, start)

/-- The number of reads a lookup may still have to make. -/
def GetPc.remaining (numLevels : Nat) : GetPc → Nat
  | readingImm _ _ => numLevels + 1
  | readingLevel _ _ level _ => numLevels - level
  | _ => 0

section OneLookup

variable {params : Params} {s : DbState} {client : Nat}

theorem begun_getBegin
    (s : DbState) (client : Nat) (key : Key) :
    ((getBegin s client key).gets client).begun = some (key, s.batches.length) := by
  unfold getBegin
  dsimp only
  split <;> simp [DbState.setGet, GetPc.found, GetPc.begun]

theorem remaining_getBegin
    (params : Params) (s : DbState) (client : Nat) (key : Key) :
    ((getBegin s client key).gets client).remaining params.numLevels ≤
      params.numLevels + 1 := by
  unfold getBegin
  dsimp only
  split <;> simp [DbState.setGet, GetPc.found, GetPc.remaining]

/-- A read keeps the key, the start and a result, and brings the lookup closer to its end. -/
theorem getNext_reader
    (hok : GetOk params s (s.gets client)) :
    ((getNext params s client).gets client).begun = (s.gets client).begun ∧
      ((s.gets client).returned ≠ none →
        (getNext params s client).gets client = s.gets client) ∧
      ((getNext params s client).gets client).remaining params.numLevels ≤
        (s.gets client).remaining params.numLevels - 1 := by
  cases hpc : s.gets client with
  | idle =>
      simp [getNext, hpc, GetPc.remaining]
  | readingImm key start =>
      simp only [getNext, hpc]
      split <;> simp [DbState.setGet, GetPc.found, GetPc.begun, GetPc.returned, GetPc.remaining]
  | readingLevel key start level triggered =>
      rw [hpc] at hok
      have hlevel := hok.1
      simp only [getNext, hpc, getLevel]
      split
      · simp [DbState.setGet, GetPc.found, GetPc.begun, GetPc.returned, GetPc.remaining]
      · split_ifs
        · simp [DbState.setGet, GetPc.begun, GetPc.returned, GetPc.remaining]
          omega
        · simp [DbState.setGet, GetPc.begun, GetPc.returned, GetPc.remaining]
  | done key start finish triggered result =>
      simp [getNext, hpc, GetPc.remaining]

/-- A lookup that began and has nothing left to read has returned. -/
theorem GetOk.returned_of_remaining
    {pc : GetPc}
    (hok : GetOk params s pc)
    (hbegun : pc.begun ≠ none)
    (hremaining : pc.remaining params.numLevels = 0) :
    pc.returned.isSome := by
  cases pc with
  | idle =>
      exact absurd rfl hbegun
  | readingImm key start =>
      simp [GetPc.remaining] at hremaining
  | readingLevel key start level triggered =>
      have hlevel := hok.1
      simp only [GetPc.remaining] at hremaining
      omega
  | done key start finish triggered result =>
      rfl

/-- A whole run without another lookup by the same client. -/
theorem ReadInv.run_reader
    (h : ReadInv params s)
    {events : List DbEvent}
    (hone : ∀ key, DbEvent.getBegin client key ∉ events) :
    ((s.run params events).gets client).begun = (s.gets client).begun ∧
      ((s.gets client).returned ≠ none → (s.run params events).gets client = s.gets client) ∧
      ((s.run params events).gets client).remaining params.numLevels ≤
        (s.gets client).remaining params.numLevels - events.count (.getNext client) := by
  induction events generalizing s with
  | nil =>
      exact ⟨rfl, fun _ => rfl, le_refl _⟩
  | cons e events ih =>
      have hbegin : ∀ key, e ≠ .getBegin client key := by
        rintro key rfl
        exact hone key List.mem_cons_self
      obtain ⟨hbegun, hkept, hremaining⟩ := ih (readInv_step params s e h)
        (fun key hmem => hone key (List.mem_cons_of_mem _ hmem))
      change ((s.run params (e :: events)).gets client).begun = _ at hbegun
      by_cases hnext : e = .getNext client
      · subst hnext
        obtain ⟨hbegun', hkept', hremaining'⟩ := getNext_reader (h.gets client)
        refine ⟨hbegun.trans hbegun', ?_, ?_⟩
        · intro hreturned
          have heq := hkept' hreturned
          exact (hkept (heq.symm ▸ hreturned)).trans heq
        · rw [List.count_cons_self]
          exact le_trans hremaining (by
            change (((getNext params s client).gets client).remaining _) - _ ≤ _
            omega)
      · have heq := h.versions.gets_step hbegin hnext
        rw [heq] at hbegun hkept hremaining
        rw [List.count_cons_of_ne hnext]
        exact ⟨hbegun, hkept, hremaining⟩

/-- The history of a run continues the history it started from. -/
theorem VersionInv.run_history
    (h : VersionInv params s)
    (events : List DbEvent) :
    ∃ later, (s.run params events).batches = s.batches ++ later := by
  induction events generalizing s with
  | nil =>
      exact ⟨[], (List.append_nil _).symm⟩
  | cons e events ih =>
      obtain ⟨later, hlater⟩ := ih (versionInv_step params s e h)
      rcases (h.carries_step e).history with heq | ⟨batch, heq⟩
      · exact ⟨later, hlater.trans (by rw [heq])⟩
      · exact ⟨batch :: later, hlater.trans (by rw [heq, List.append_assoc]; rfl)⟩

/-- What a reader returns was the value of its key at a moment of the run, not later than its
last read. -/
theorem ReadInv.exists_moment
    (h : ReadInv params s)
    {events : List DbEvent} {key : Key} {result : Option Value}
    (hone : ∀ other, DbEvent.getBegin client other ∉ events)
    (hbegun : (s.gets client).begun = some (key, s.batches.length))
    (hresult : ((s.run params events).gets client).returned = some result) :
    ∃ n ≤ events.length,
      (∀ j < n, ((s.run params (events.take j)).gets client).returned = none) ∧
        result = valueAfter (s.run params (events.take n)).batches.flatten key := by
  have hend := Runs.invariant (readInv_step params) h events
  obtain ⟨hbegun', -, -⟩ := h.run_reader hone
  have hok : GetOk params (s.run params events) ((s.run params events).gets client) :=
    hend.gets client
  cases hpc : (s.run params events).gets client with
  | done key' start finish triggered result' =>
      rw [hpc] at hok hresult hbegun'
      obtain ⟨rfl, rfl⟩ : key' = key ∧ start = s.batches.length := by
        simpa [GetPc.begun] using hbegun'.trans hbegun
      obtain rfl : result' = result := Option.some.inj hresult
      obtain ⟨hfinish, m, hstart, hm, hvalue⟩ := hok
      -- the first moment with `m` batches
      obtain ⟨n, hn, hlength, hfirst⟩ :
          ∃ n ≤ events.length, (s.run params (events.take n)).batches.length = m ∧
            ∀ j < n, (s.run params (events.take j)).batches.length < m :=
        Runs.exists_first_moment (fun s : DbState => s.batches.length) (readInv_step params)
          (fun s e hs => (hs.versions.carries_step e).length_le.2) h hstart
          (le_trans hm hfinish)
      have hmoment : ∀ j, ReadInv params (s.run params (events.take j)) :=
        fun j => Runs.invariant (readInv_step params) h (events.take j)
      have hsplit : ∀ j, (s.run params (events.take j)).run params (events.drop j) =
          s.run params events := by
        intro j
        rw [DbState.run, DbState.run, ← Runs.run_append, List.take_append_drop]
        rfl
      refine ⟨n, hn, ?_, ?_⟩
      · intro j hj
        by_contra hreturned
        -- a lookup that had returned before would have seen fewer batches
        obtain ⟨-, hkept, -⟩ := (hmoment j).run_reader
          (fun other hmem => hone other (List.mem_of_mem_drop hmem))
        have heq := hkept hreturned
        rw [hsplit, hpc] at heq
        have hok := (hmoment j).gets client
        rw [← heq] at hok
        have hseen := hok.1
        have hfew := hfirst j hj
        omega
      · obtain ⟨later, hlater⟩ := (hmoment n).versions.run_history (events.drop n)
        rw [hsplit] at hlater
        rw [hvalue, hlater, List.take_append_of_le_length (le_of_eq hlength.symm),
          List.take_of_length_le (le_of_eq hlength)]
  | idle =>
      rw [hpc] at hresult
      cases hresult
  | readingImm key' start =>
      rw [hpc] at hresult
      cases hresult
  | readingLevel key' start level triggered =>
      rw [hpc] at hresult
      cases hresult

end OneLookup

/-- Linearizability of `get`, for a lookup of any client at any point of any run: after one
read more than there are levels it has returned, and what it returns is the value of the
key, in the last-write-wins map of all complete batches, at a moment between its first and
its last read. -/
theorem get_linearizable
    (params : Params) (numTasks : Nat) (before during : List DbEvent) (client : Nat) (key : Key)
    (hone : ∀ other, DbEvent.getBegin client other ∉ during) :
    let moment := fun n => (DbState.new params numTasks).run params
      (before ++ .getBegin client key :: during.take n)
    (params.numLevels < during.count (.getNext client) →
        ((moment during.length).gets client).returned.isSome) ∧
      ∀ result, ((moment during.length).gets client).returned = some result →
        ∃ n ≤ during.length, (∀ j < n, ((moment j).gets client).returned = none) ∧
          result = valueAfter (moment n).batches.flatten key := by
  intro moment
  have hbefore := readInv_run params numTasks before
  have hbegin : ReadInv params (getBegin _ client key) :=
    readInv_step params _ (.getBegin client key) hbefore
  have hmoment : ∀ n, moment n = (getBegin ((DbState.new params numTasks).run params before)
      client key).run params (during.take n) := by
    intro n
    change Runs.run _ _ (before ++ _) = _
    rw [Runs.run_append]
    rfl
  have hbegun := begun_getBegin ((DbState.new params numTasks).run params before) client key
  have hbatches := (unnoticed_getBegin ((DbState.new params numTasks).run params before)
    client key).batches
  obtain ⟨hbegun', -, hremaining⟩ := hbegin.run_reader hone
  refine ⟨?_, ?_⟩
  · intro hcount
    rw [hmoment, List.take_length]
    have hend := Runs.invariant (readInv_step params) hbegin during
    have hle := remaining_getBegin params ((DbState.new params numTasks).run params before)
      client key
    refine (hend.gets client).returned_of_remaining ?_ ?_
    · change (((getBegin _ client key).run params during).gets client).begun ≠ none
      rw [hbegun', hbegun]
      exact Option.some_ne_none _
    · change (((getBegin _ client key).run params during).gets client).remaining _ = 0
      omega
  · intro result hresult
    rw [hmoment, List.take_length] at hresult
    obtain ⟨n, hn, hfirst, hvalue⟩ := hbegin.exists_moment hone
      (hbegun.trans (by rw [hbatches])) hresult
    refine ⟨n, hn, ?_, ?_⟩
    · intro j hj
      rw [hmoment]
      exact hfirst j hj
    · rw [hmoment]
      exact hvalue

/-- A lookup during which the immutable memtable that has its key is flushed and popped. -/
theorem get_linearizable_flush :
    let key : Key := ByteVec.ofList [1]
    let value : Value := ByteVec.ofList [7]
    let during : List DbEvent := List.replicate 11 .flusher ++ [.getNext 0, .getNext 0]
    let moment := fun n => (DbState.new smallParams 1).run smallParams
      ([.write [.put key value]] ++ .getBegin 0 key :: during.take n)
    ((moment 1).gets 0).returned = none ∧ (moment 13).immMemtables = [] ∧
      ∃ n ≤ 13, some value = valueAfter (moment n).batches.flatten key := by
  intro key value during moment
  have hone : ∀ other, DbEvent.getBegin 0 other ∉ during := by
    intro other
    simp [during]
  obtain ⟨n, hn, -, hvalue⟩ :=
    (get_linearizable smallParams 1 [.write [.put key value]] during 0 key hone).2 (some value)
      (by decide +kernel)
  exact ⟨by decide +kernel, by decide +kernel, n, hn, hvalue⟩

end Logic
end LsmStore
