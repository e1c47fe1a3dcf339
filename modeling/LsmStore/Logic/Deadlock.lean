import LsmStore.Logic.WisckeySteps

/-!
# Compactions that wait for the flusher

A compaction that inserts entries again holds the table lists of its two levels.
If the memtable gets full it waits until the queue of immutable memtables is
empty, and it is the flusher that empties it, with a call of `add_l0_table` on
its way.  When the compaction is one of level 0 and the flusher has not made
that call yet, neither can go on.  The same happens if a client or another
compaction waits for the queue: it has locked the memtable, and the compaction of
level 0 waits for that lock.

Such a state is reached, and it is never left.  It is reached only if a
compaction of level 0 starts to wait, in one of the two ways, while the flusher
still has a table to add, and after that the flusher walks into it unless it
fails on its way.
-/

namespace LsmStore
namespace Logic

open KeyedList Values

def FlusherPc.isAdding : FlusherPc → Bool
  | adding _ _ _ => true
  | _ => false

/-- The flusher calls `add_l0_table` before it next takes a memtable from the queue. -/
def FlusherPc.owesTable : FlusherPc → Bool
  | idle => true
  | building _ _ => true
  | writing _ _ _ => true
  | adding _ _ _ => true
  | _ => false

/-- The compaction has entries to insert again: it has called `write_opts`. -/
def Collector.inWriteOpts : Collector → Bool
  | marking _ [] reinsert => !reinsert.isEmpty
  | waiting _ _ => true
  | _ => false

namespace WisckeyState

/-- A compaction that has locked the tables of level 0 is in `write_opts`, and waits there for
the queue, or for the memtable that is locked by somebody who waits for the queue. -/
def waitsForQueue (s : WisckeyState) : Bool :=
  s.memtableLocked && s.collectors.any fun pc => pc.inWriteOpts && pc.locks 0

/-- Such a compaction waits for the queue to become empty, and the flusher, which is to empty
it, waits for the tables of level 0. -/
def Deadlocked (s : WisckeyState) : Prop :=
  s.waitsForQueue = true ∧
    s.db.immMemtables.isEmpty = false ∧
    s.db.flusher.isAdding = true ∧
    s.flusherFailed = false

instance (s : WisckeyState) : Decidable s.Deadlocked :=
  inferInstanceAs (Decidable (_ ∧ _ ∧ _ ∧ _))

/-- The event makes a compaction of level 0 wait for the queue. -/
def startsToWait [BitPacking] (params : Params) (s : WisckeyState) (e : DbEvent) : Bool :=
  !s.waitsForQueue && (step params s e).waitsForQueue

/-- When a compaction of level 0 starts to wait for the queue, the flusher has added its table
to level 0, or has failed. -/
def FlusherAhead [BitPacking] (params : Params) (s : WisckeyState) (e : DbEvent) : Prop :=
  s.startsToWait params e = true → s.db.flusher.owesTable = false ∨ s.flusherFailed = true

instance [BitPacking] (params : Params) (s : WisckeyState) (e : DbEvent) :
    Decidable (s.FlusherAhead params e) :=
  inferInstanceAs (Decidable (_ → _))

/-! ## Who has locked the memtable -/

/-- The client, or task `i`, has locked the memtable and waits for the queue. -/
def Holds (s : WisckeyState) : Option Nat → Prop
  | none => s.waitingClient.isSome = true
  | some i => ∃ c batch, s.collectors[i]? = some (.waiting c batch)

/-- Nobody shares the lock. -/
def Exclusive (s : WisckeyState) : Prop :=
  ∀ holder other, s.Holds holder → s.Holds other → holder = other

section Holders

variable {params : Params} {s s' : WisckeyState} {e : DbEvent} {holder : Option Nat}

theorem memtableLocked_iff :
    s.memtableLocked = true ↔ ∃ holder, s.Holds holder := by
  rw [memtableLocked, Bool.or_eq_true, List.any_eq_true]
  constructor
  · rintro (hclient | ⟨pc, hmem, hlocks⟩)
    · exact ⟨none, hclient⟩
    · obtain ⟨i, hi⟩ := List.getElem?_of_mem hmem
      cases pc with
      | waiting c batch =>
          exact ⟨some i, c, batch, hi⟩
      | _ =>
          cases hlocks
  · rintro ⟨holder, hholds⟩
    cases holder with
    | none =>
        exact Or.inl hholds
    | some i =>
        obtain ⟨c, batch, hi⟩ := hholds
        exact Or.inr ⟨_, List.mem_of_getElem? hi, rfl⟩

theorem not_holds_of_unlocked
    (h : s.memtableLocked = false)
    (holder : Option Nat) :
    ¬ s.Holds holder := by
  intro hholds
  rw [memtableLocked_iff.mpr ⟨holder, hholds⟩] at h
  cases h

theorem not_waitsForQueue_of_unlocked
    (h : s.memtableLocked = false) :
    s.waitsForQueue = false := by
  rw [waitsForQueue, h]
  rfl

theorem holds_of_same
    (h : s'.Holds holder)
    (hcol : s'.collectors = s.collectors)
    (hclient : s'.waitingClient = s.waitingClient) :
    s.Holds holder := by
  cases holder with
  | none =>
      rwa [Holds, hclient] at h
  | some i =>
      rwa [Holds, hcol] at h

/-- Task `i` goes on at a place where it does not wait. -/
theorem holds_of_set
    {i : Nat} {pc : Collector}
    (h : s'.Holds holder)
    (hcol : s'.collectors = s.collectors.set i pc)
    (hclient : s'.waitingClient = s.waitingClient)
    (hpc : pc.locksMemtable = false) :
    s.Holds holder ∧ holder ≠ some i := by
  cases holder with
  | none =>
      rw [Holds, hclient] at h
      exact ⟨h, nofun⟩
  | some j =>
      obtain ⟨c, batch, hj⟩ := h
      rw [hcol] at hj
      rcases getElem?_set_cases hj with ⟨-, rfl⟩ | ⟨hne, hj⟩
      · cases hpc
      · exact ⟨⟨c, batch, hj⟩, fun heq => hne (Option.some.inj heq)⟩

/-- The client has its batch written. -/
theorem holds_of_acknowledge
    {batch : List WriteOp}
    (h : (s.acknowledge params batch).Holds holder) :
    s.Holds holder ∧ holder ≠ none := by
  cases holder with
  | none =>
      cases h
  | some i =>
      exact ⟨h, nofun⟩

theorem Exclusive.step
    [BitPacking]
    (h : s.Exclusive)
    (hstep : WisckeyStep params s e s') :
    s'.Exclusive := by
  have hsub : (∀ holder, s'.Holds holder → s.Holds holder) → s'.Exclusive :=
    fun hsub holder other hh ho => h holder other (hsub holder hh) (hsub other ho)
  cases hstep with
  | stay | getBegin | getNext | writeValues | failValues | flush | flushSync | compact | task =>
      exact hsub fun _ hh => holds_of_same hh rfl rfl
  | write | clientResume =>
      exact hsub fun _ hh => (holds_of_acknowledge hh).1
  | update hcol hheader hpc =>
      refine hsub fun _ hh => (holds_of_set (s := s) hh rfl rfl ?_).1
      rcases hpc with rfl | rfl <;> rfl
  | merge | failMerge | install | mark | failMark | reinsert | resume =>
      exact hsub fun _ hh => (holds_of_set (s := s) hh rfl rfl rfl).1
  | @clientWait batch hfree =>
      have hnone := not_holds_of_unlocked hfree
      have honly : ∀ holder, Holds { s with waitingClient := some batch } holder →
          holder = none := by
        rintro (- | i) hh
        · rfl
        · exact absurd hh (hnone (some i))
      intro holder other hh ho
      rw [honly holder hh, honly other ho]
  | @wait i c reinsert hcol hne hfree =>
      have hnone := not_holds_of_unlocked hfree
      have honly : ∀ holder, (s.setCollector i (.waiting c (reinsertBatch reinsert))).Holds holder →
          holder = some i := by
        rintro (- | j) hh
        · exact absurd hh (hnone none)
        · obtain ⟨c', batch, hj⟩ := hh
          rcases getElem?_set_cases hj with ⟨rfl, -⟩ | ⟨-, hj⟩
          · rfl
          · exact absurd ⟨c', batch, hj⟩ (hnone (some j))
      intro holder other hh ho
      rw [honly holder hh, honly other ho]

end Holders

/-! ## Steps of the queue and of those who wait for it -/

/-- What a step does to the queue, the flusher and the compactions that wait. -/
inductive QueueStep (params : Params) (s s' : WisckeyState) : Prop
  /-- Neither the queue nor the flusher moves. -/
  | quiet
      (himm : s'.db.immMemtables = s.db.immMemtables)
      (hflusher : s'.db.flusher = s.db.flusher)
      (hfailed : s'.flusherFailed = s.flusherFailed)
      (hstays : s.waitsForQueue = true → s'.waitsForQueue = true)
  | flush
      (hdb : s'.db = doMemtableCompaction params s.db)
      (hfailed : s'.flusherFailed = s.flusherFailed)
      (hwaits : s'.waitsForQueue = s.waitsForQueue)
      (hfree : s.db.flusher.isAdding = true → s.levelLocked 0 = false)
  | fail
      (hadding : s.db.flusher.isAdding = false)
      (hfailed : s'.flusherFailed = true)
  | write
      (hbefore : s.memtableLocked = false)
      (hafter : s'.memtableLocked = false)
  | resume (holder : Option Nat)
      (hholds : s.Holds holder)
      (hempty : s.db.immMemtables = [])
      (hafter : ∀ other, s'.Holds other → s.Holds other ∧ other ≠ holder)

section Steps

variable {params : Params} {s s' : WisckeyState} {e : DbEvent}

theorem any_set
    {collectors : List Collector} {i : Nat} {old : Collector} {p : Collector → Bool}
    (hi : collectors[i]? = some old)
    (hold : p old = false)
    (h : collectors.any p = true)
    (pc : Collector) :
    (collectors.set i pc).any p = true := by
  obtain ⟨other, hmem, hother⟩ := List.any_eq_true.mp h
  obtain ⟨j, hj⟩ := List.getElem?_of_mem hmem
  have hij : i ≠ j := by
    rintro rfl
    rw [hi] at hj
    cases hj
    rw [hold] at hother
    cases hother
  refine List.any_eq_true.mpr ⟨other, List.mem_of_getElem? (i := j) ?_, hother⟩
  rw [List.getElem?_set_ne hij]
  exact hj

/-- A task that was not in `write_opts` goes on. -/
theorem waitsForQueue_set
    {i : Nat} {old pc : Collector}
    (hi : s.collectors[i]? = some old)
    (hold : old.inWriteOpts = false)
    (hcol : s'.collectors = s.collectors.set i pc)
    (hclient : s'.waitingClient = s.waitingClient)
    (h : s.waitsForQueue = true) :
    s'.waitsForQueue = true := by
  have hnot : old.locksMemtable = false := by
    cases old with
    | waiting c batch =>
        cases hold
    | _ =>
        rfl
  simp only [waitsForQueue, memtableLocked, hcol, hclient, Bool.and_eq_true,
    Bool.or_eq_true] at h ⊢
  obtain ⟨hlocked, hwaits⟩ := h
  exact ⟨hlocked.imp_right fun hany => any_set hi hnot hany pc,
    any_set hi (by rw [hold]; rfl) hwaits pc⟩

/-- A step of a compaction task leaves the queue and the flusher alone. -/
theorem taskStep_queue
    {s : DbState}
    (h : VersionInv params s)
    (i : Nat) :
    (taskStep params s i).immMemtables = s.immMemtables ∧
      (taskStep params s i).flusher = s.flusher := by
  rcases taskStep_cases h.own i with hframe | ⟨pc, c, t, -, -, hinst⟩
  · exact ⟨hframe.immMemtables, hframe.flusher⟩
  · rw [hinst.frame]
    exact ⟨rfl, rfl⟩

theorem queueStep_of_wisckeyStep
    [BitPacking]
    (h : WisckeyStep params s e s')
    (hinv : VersionInv params s.db) :
    QueueStep params s s' := by
  cases h with
  | stay =>
      exact .quiet rfl rfl rfl id
  | write hfree =>
      refine .write hfree ?_
      rw [memtableLocked, Bool.or_eq_false_iff] at hfree ⊢
      exact ⟨rfl, hfree.2⟩
  | clientWait hfree =>
      refine .quiet rfl rfl rfl fun hwaits => ?_
      rw [not_waitsForQueue_of_unlocked hfree] at hwaits
      cases hwaits
  | clientResume hclient hempty =>
      refine .resume none ?_ hempty fun _ => holds_of_acknowledge
      rw [Holds, hclient]
      rfl
  | @getBegin client key =>
      have hframe := unnoticed_getBegin s.db client key
      exact .quiet hframe.immMemtables hframe.flusher rfl id
  | @getNext client =>
      have hframe := unnoticed_getNext params s.db client
      exact .quiet hframe.immMemtables hframe.flusher rfl id
  | writeValues halive hpc =>
      exact .flush rfl rfl rfl (by rw [hpc]; nofun)
  | failValues halive hpc =>
      exact .fail (by rw [hpc]; rfl) rfl
  | flush hpc hfree =>
      refine .flush rfl rfl rfl ?_
      cases hflusher : s.db.flusher with
      | adding logOffset mem table =>
          exact fun _ => hfree logOffset mem table hflusher
      | _ =>
          nofun
  | flushSync hpc =>
      exact .flush rfl rfl rfl (by rw [hpc]; nofun)
  | @compact i level =>
      have hframe := unnoticed_startCompaction params s.db i level
      exact .quiet hframe.immMemtables hframe.flusher rfl id
  | @task i =>
      have hframe := taskStep_queue hinv i
      exact .quiet hframe.1 hframe.2 rfl id
  | @merge i tableId c values hcol =>
      have hframe := taskStep_queue hinv i
      exact .quiet hframe.1 hframe.2 rfl (waitsForQueue_set hcol rfl rfl rfl)
  | install hcol htask hread =>
      have hframe := (installTable_installs hinv.own htask hread).frame
      have himm := congrArg DbState.immMemtables hframe
      have hflusher := congrArg DbState.flusher hframe
      exact .quiet himm hflusher rfl (waitsForQueue_set hcol rfl rfl rfl)
  | failMerge hcol | mark hcol | failMark hcol =>
      exact .quiet rfl rfl rfl (waitsForQueue_set hcol rfl rfl rfl)
  | update hcol =>
      exact .quiet rfl rfl rfl (waitsForQueue_set hcol rfl rfl rfl)
  | reinsert hcol hne hfree =>
      refine .write hfree (Bool.eq_false_of_not_eq_true fun hlocked => ?_)
      obtain ⟨holder, hholds⟩ := memtableLocked_iff.mp hlocked
      exact not_holds_of_unlocked hfree holder (holds_of_set (s := s) hholds rfl rfl rfl).1
  | wait hcol hne hfree =>
      refine .quiet rfl rfl rfl fun hwaits => ?_
      rw [not_waitsForQueue_of_unlocked hfree] at hwaits
      cases hwaits
  | @resume i c batch hcol hempty =>
      exact .resume (some i) ⟨c, batch, hcol⟩ hempty
        fun _ hh => holds_of_set hh rfl rfl rfl

/-- A deadlock is never left. -/
theorem QueueStep.deadlocked
    (h : QueueStep params s s')
    (hdead : s.Deadlocked) :
    s'.Deadlocked := by
  obtain ⟨hwaits, himm, hadding, hfailed⟩ := hdead
  obtain ⟨hlocked, hany⟩ := Bool.and_eq_true_iff.mp hwaits
  cases h with
  | quiet himm' hflusher hfailed' hstays =>
      exact ⟨hstays hwaits, himm' ▸ himm, hflusher ▸ hadding, hfailed'.trans hfailed⟩
  | flush hdb hfailed' hwaits' hfree =>
      obtain ⟨pc, hmem, hpc⟩ := List.any_eq_true.mp hany
      have hlevel : s.levelLocked 0 = true :=
        List.any_eq_true.mpr ⟨pc, hmem, (Bool.and_eq_true_iff.mp hpc).2⟩
      rw [hfree hadding] at hlevel
      cases hlevel
  | fail hnot =>
      rw [hadding] at hnot
      cases hnot
  | write hbefore =>
      rw [hlocked] at hbefore
      cases hbefore
  | resume holder hholds hempty =>
      rw [hempty] at himm
      cases himm

end Steps

/-! ## Waiting with the flusher ahead -/

/-- If a compaction of level 0 waits for the queue, then the queue has become empty or will
become empty without another table for level 0. -/
structure WaitInv (params : Params) (s : WisckeyState) : Prop where
  version : VersionInv params s.db
  exclusive : s.Exclusive
  ahead : s.waitsForQueue = true →
    s.db.immMemtables = [] ∨ s.db.flusher.owesTable = false ∨ s.flusherFailed = true

section Ahead

variable {params : Params}

/-- The flusher gets to the end of the queue without another table. -/
theorem owesTable_doMemtableCompaction
    {s : DbState}
    (h : FlushInv s)
    (howes : s.immMemtables = [] ∨ s.flusher.owesTable = false) :
    (doMemtableCompaction params s).immMemtables = [] ∨
      (doMemtableCompaction params s).flusher.owesTable = false := by
  have hcalls : ∀ (call : Manifest × Option ManifestPanic) (next : FlusherPc),
      next.owesTable = false → (s.flusherCalls call next).flusher.owesTable = false := by
    rintro ⟨manifest, outcome⟩ next hnext
    cases outcome with
    | none =>
        exact hnext
    | some reason =>
        rfl
  have hat := h.at_pc
  have hstep := flusherStep_doMemtableCompaction params s
  generalize doMemtableCompaction params s = s' at hstep
  cases hstep with
  | stay =>
      exact howes
  | start hpc himm =>
      rw [hpc, himm] at howes
      rcases howes with h | h <;> cases h
  | reserve hpc =>
      rw [hpc] at hat howes
      rw [hat] at howes
      rcases howes with h | h <;> cases h
  | write hpc =>
      rw [hpc] at hat howes
      rw [hat] at howes
      rcases howes with h | h <;> cases h
  | add hpc hread =>
      exact Or.inr rfl
  | setSeqNumber =>
      exact Or.inr (hcalls _ _ rfl)
  | register =>
      exact Or.inr (hcalls _ _ rfl)
  | setOffset | removePage | truncated =>
      exact Or.inr rfl
  | setLogOffset =>
      exact Or.inr (hcalls _ _ rfl)
  | pop hpc himm =>
      have hone := h.eq_singleton himm
      rw [himm] at hone
      cases hone
      exact Or.inl rfl
  | failEmpty | failOffset | failPop =>
      exact Or.inr rfl

theorem WaitInv.not_deadlocked
    {s : WisckeyState}
    (h : WaitInv params s) :
    ¬ s.Deadlocked := by
  rintro ⟨hwaits, himm, hadding, hfailed⟩
  rcases h.ahead hwaits with hempty | howes | hfailed'
  · rw [hempty] at himm
    cases himm
  · cases hf : s.db.flusher with
    | adding logOffset mem table =>
        rw [hf] at howes
        cases howes
    | _ =>
        rw [hf] at hadding
        cases hadding
  · rw [hfailed'] at hfailed
    cases hfailed

variable [BitPacking]

theorem waitInv_new
    (params : Params) (numTasks : Nat) :
    WaitInv params (new params numTasks) := by
  have hunlocked : (new params numTasks).memtableLocked = false := by
    simp [memtableLocked, new, Collector.locksMemtable]
  refine ⟨versionInv_new params numTasks, ?_, ?_⟩
  · exact fun holder _ hholds => absurd hholds (not_holds_of_unlocked hunlocked holder)
  · rw [not_waitsForQueue_of_unlocked hunlocked]
    nofun

theorem waitInv_step
    (params : Params) (s : WisckeyState) (e : DbEvent)
    (hcond : s.FlusherAhead params e)
    (h : WaitInv params s) :
    WaitInv params (step params s e) := by
  have hstep := wisckeyStep_step h.version.own e
  refine ⟨hstep.versionInv h.version, h.exclusive.step hstep, fun hwaits => ?_⟩
  have hstarts : s.waitsForQueue = false →
      s.db.flusher.owesTable = false ∨ s.flusherFailed = true := by
    intro hnot
    refine hcond ?_
    rw [startsToWait, hnot, hwaits]
    rfl
  cases queueStep_of_wisckeyStep hstep h.version with
  | quiet himm hflusher hfailed =>
      rw [himm, hflusher, hfailed]
      cases hbefore : s.waitsForQueue with
      | true =>
          exact h.ahead hbefore
      | false =>
          exact Or.inr (hstarts hbefore)
  | flush hdb hfailed hsame =>
      rw [hdb, hfailed, ← or_assoc]
      rcases or_assoc.mpr (h.ahead (hsame ▸ hwaits)) with howes | hfailed
      · exact Or.inl (owesTable_doMemtableCompaction h.version.flush howes)
      · exact Or.inr hfailed
  | fail hnot hfailed =>
      exact Or.inr (Or.inr hfailed)
  | write hbefore hafter =>
      rw [not_waitsForQueue_of_unlocked hafter] at hwaits
      cases hwaits
  | resume holder hholds hempty hafter =>
      -- the one who had the lock has given it back
      obtain ⟨other, hother⟩ := memtableLocked_iff.mp (Bool.and_eq_true_iff.mp hwaits).1
      obtain ⟨hold, hne⟩ := hafter other hother
      exact absurd (h.exclusive other holder hold hholds) hne

theorem waitInv_run
    {numTasks : Nat} {events : List DbEvent}
    (h : Runs.Along (step params) (FlusherAhead params) (new params numTasks) events) :
    WaitInv params ((new params numTasks).run params events) :=
  Runs.invariant_along (I := WaitInv params) (waitInv_step params)
    (waitInv_new params numTasks) h

/-- In a run in which the flusher is ahead of every compaction of level 0 that starts to wait,
no state is a deadlock. -/
theorem no_flush_compaction_deadlock
    (params : Params) (numTasks : Nat) (events : List DbEvent)
    (h : Runs.Along (step params) (FlusherAhead params) (new params numTasks) events)
    (k : Nat) :
    ¬ ((new params numTasks).run params (events.take k)).Deadlocked :=
  (waitInv_run (h.take k)).not_deadlocked

end Ahead

/-! ## Waiting with the flusher behind -/

/-- Steps of the flusher until it calls `add_l0_table`. -/
def stepsToAdd : FlusherPc → Nat
  | .idle => 3
  | .building _ _ => 2
  | .writing _ _ _ => 1
  | _ => 0

/-- A compaction that has locked the tables of level 0 waits for the queue, and the flusher
has yet to add a table to level 0. -/
structure Behind (s : WisckeyState) : Prop where
  waits : s.waitsForQueue = true
  queue : s.db.immMemtables.isEmpty = false
  owesTable : s.db.flusher.owesTable = true
  alive : s.flusherFailed = false

def FlusherStopped (s : WisckeyState) : Prop :=
  s.flusherFailed = true ∨ ∃ reason, s.db.flusher = .panicked reason

section Behind

variable {params : Params} {s : WisckeyState}

theorem Behind.deadlocked_of_isAdding
    (h : s.Behind)
    (hadding : s.db.flusher.isAdding = true) :
    s.Deadlocked :=
  ⟨h.waits, h.queue, hadding, h.alive⟩

variable [BitPacking]

/-- The flusher gets closer to its call, or fails. -/
theorem behind_flusherStep
    (params : Params)
    (h : s.Behind)
    (hadding : s.db.flusher.isAdding = false) :
    ((step params s .flusher).Behind ∧
        stepsToAdd (step params s .flusher).db.flusher < stepsToAdd s.db.flusher) ∨
      (step params s .flusher).FlusherStopped := by
  have halive : ¬ s.flusherFailed = true := by
    rw [h.alive]
    exact Bool.false_ne_true
  have howes := h.owesTable
  cases hf : s.db.flusher with
  | idle =>
      obtain ⟨entry, rest, himm⟩ :=
        List.exists_cons_of_ne_nil (List.isEmpty_eq_false_iff.mp h.queue)
      left
      simp only [step, flusherStep, if_neg halive, hf, doMemtableCompaction, himm]
      exact ⟨⟨h.waits, rfl, rfl, h.alive⟩, Nat.lt_succ_self 2⟩
  | building logOffset mem =>
      simp only [step, flusherStep, if_neg halive, hf, doMemtableCompaction]
      split
      · exact Or.inl ⟨⟨h.waits, h.queue, rfl, h.alive⟩, Nat.lt_succ_self 1⟩
      · exact Or.inr (Or.inr ⟨_, rfl⟩)
  | writing logOffset mem tableId =>
      simp only [step, flusherStep, if_neg halive, hf]
      split
      · simp only [doMemtableCompaction, hf]
        split_ifs
        · exact Or.inl ⟨⟨h.waits, h.queue, rfl, h.alive⟩, Nat.lt_succ_self 0⟩
        · exact Or.inr (Or.inr ⟨_, rfl⟩)
      · exact Or.inr (Or.inl rfl)
  | adding logOffset mem table =>
      rw [hf] at hadding
      cases hadding
  | _ =>
      rw [hf] at howes
      cases howes

/-- Once a compaction of level 0 waits for a flusher that has yet to add its table, the flusher
walks into the deadlock, unless it fails before. -/
theorem Behind.leads_to_deadlock
    (params : Params)
    (h : s.Behind) :
    ∃ n, (s.run params (List.replicate n .flusher)).Deadlocked ∨
      (s.run params (List.replicate n .flusher)).FlusherStopped := by
  -- induction on the number of steps to the call
  generalize hn : stepsToAdd s.db.flusher = n
  induction n using Nat.strong_induction_on generalizing s with
  | _ n ih =>
      cases hadding : s.db.flusher.isAdding with
      | true =>
          exact ⟨0, Or.inl (h.deadlocked_of_isAdding hadding)⟩
      | false =>
          rcases behind_flusherStep params h hadding with ⟨hnext, hlt⟩ | hstopped
          · obtain ⟨m, hm⟩ := ih _ (hn ▸ hlt) hnext rfl
            exact ⟨m + 1, hm⟩
          · exact ⟨1, Or.inr hstopped⟩

/-- A deadlock of a reachable state is there in every continuation. -/
theorem deadlocked_run
    (hversion : VersionInv params s.db)
    (hdead : s.Deadlocked)
    (events : List DbEvent) :
    (s.run params events).Deadlocked := by
  have hstep : ∀ (s : WisckeyState) (e : DbEvent), VersionInv params s.db ∧ s.Deadlocked →
      VersionInv params (step params s e).db ∧ (step params s e).Deadlocked := by
    rintro s e ⟨hversion, hdead⟩
    have h := wisckeyStep_step hversion.own e
    exact ⟨h.versionInv hversion, (queueStep_of_wisckeyStep h hversion).deadlocked hdead⟩
  have hrun := Runs.invariant (I := fun s : WisckeyState => VersionInv params s.db ∧ s.Deadlocked)
    hstep ⟨hversion, hdead⟩ events
  exact hrun.2

end Behind

/-- **Waiting for a flusher that is behind is fatal**: from every such state of a run the flusher
alone reaches a deadlock that no continuation leaves, unless it fails before. -/
theorem behind_deadlocks_for_good
    [BitPacking]
    (params : Params) (numTasks : Nat) (events : List DbEvent)
    (h : ((new params numTasks).run params events).Behind) :
    ∃ n, let before := events ++ List.replicate n .flusher
      (∀ after, ((new params numTasks).run params (before ++ after)).Deadlocked) ∨
        ((new params numTasks).run params before).FlusherStopped := by
  have hversion : ∀ events, VersionInv params ((new params numTasks).run params events).db :=
    fun events => Runs.invariant (I := fun s : WisckeyState => VersionInv params s.db)
      (versionInv_step params) (versionInv_new params numTasks) events
  have hrun : ∀ before after, (new params numTasks).run params (before ++ after) =
      ((new params numTasks).run params before).run params after :=
    Runs.run_append (step params) _
  obtain ⟨n, hn⟩ := h.leads_to_deadlock params
  refine ⟨n, ?_⟩
  intro before
  simp only [before, hrun] at hn ⊢
  refine hn.imp (fun hdead after => ?_) id
  exact deadlocked_run (hrun events _ ▸ hversion _) hdead after

/-! ## A run -/

/-- A write, and all of its flush. -/
def flushed (batch : List WriteOp) : List DbEvent :=
  .write batch :: List.replicate 10 .flusher

/-- Five tables; the first three overlap, and the third overrides the only value of the second
batch of values.  The compaction of the three has written its table. -/
def mergedRun : List DbEvent :=
  let sparse : List WriteOp :=
    [.put (ByteVec.ofList (7 :: List.replicate 8 0)) (ByteVec.ofList (5 :: List.replicate 17 1)),
      .delete (ByteVec.ofList [9])]
  let put (key value : UInt8) : WriteOp := .put (ByteVec.ofList [key]) (ByteVec.ofList [value])
  flushed sparse ++ flushed [put 8 1] ++ flushed [put 8 2] ++ flushed [put 10 1] ++
    flushed [put 11 1] ++ .compact 0 0 :: List.replicate 16 (.task 0)

/-- Another memtable gets full, the flusher makes some steps, and the compaction marks the value,
finds that the first batch is sparse, and inserts its entry again. -/
def reinsertRun (flushSteps : Nat) : List DbEvent :=
  mergedRun ++ .write [.put (ByteVec.ofList [12]) (ByteVec.ofList [1])] ::
    List.replicate flushSteps .flusher ++ List.replicate 3 (.task 0)

/-- The flusher has not written its table yet when the compaction starts to wait. -/
theorem behind_deadlocks_for_good_reinsert :
    ∃ n, let before := reinsertRun 2 ++ List.replicate n .flusher
      (∀ after, ((new smallParams 1).run smallParams (before ++ after)).Deadlocked) ∨
        ((new smallParams 1).run smallParams before).FlusherStopped := by
  have h : ((new smallParams 1).run smallParams (reinsertRun 2)).Behind :=
    ⟨by decide +kernel, by decide +kernel, by decide +kernel, by decide +kernel⟩
  exact behind_deadlocks_for_good smallParams 1 (reinsertRun 2) h

/-- The flusher has added its table when the compaction starts to wait. -/
theorem no_flush_compaction_deadlock_reinsert :
    Runs.Along (step smallParams) (FlusherAhead smallParams) (new smallParams 1)
        (reinsertRun 4) ∧
      ((new smallParams 1).run smallParams (reinsertRun 4)).memtableLocked = true ∧
      ¬ ((new smallParams 1).run smallParams ((reinsertRun 4).take 80)).Deadlocked := by
  have halong : Runs.Along (step smallParams) (FlusherAhead smallParams) (new smallParams 1)
      (reinsertRun 4) := by
    decide +kernel
  exact ⟨halong, by decide +kernel, no_flush_compaction_deadlock smallParams 1 _ halong 80⟩

/-- The same with a client that starts to wait for the queue before the compaction inserts. -/
def clientRun : List DbEvent :=
  let put (key : UInt8) : WriteOp := .put (ByteVec.ofList [key]) (ByteVec.ofList [1])
  mergedRun ++ .write [put 12] :: .write [put 13] ::
    List.replicate 3 .flusher ++ List.replicate 3 (.task 0)

/-- The flusher is at `add_l0_table` when the compaction starts to wait, for the queue or for
the memtable that the client has locked. -/
theorem reinsert_deadlocks_with_flusher :
    ((new smallParams 1).run smallParams (reinsertRun 3)).Deadlocked ∧
      ((new smallParams 1).run smallParams (reinsertRun 3)).waitingClient = none ∧
      ((new smallParams 1).run smallParams clientRun).Deadlocked ∧
      ((new smallParams 1).run smallParams clientRun).waitingClient.isSome = true := by
  decide +kernel

end WisckeyState

end Logic
end LsmStore
