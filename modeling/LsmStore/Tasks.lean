import LsmStore.Basic
import LsmStore.Lib.Runs

/-!
# Background tasks

The task manager runs one memtable compaction task and several level compaction
tasks.  A worker runs its task as long as it finds work; when it does not, it
waits until its group is woken up.  All workers share a stop flag.

A state has every worker at a point of `work_loop`, so that a run interleaves
the workers, the calls of `wake_up`, and those of `terminate` and `stop_all`.
The latter two store the flag and then notify one group after the other, in the
order in which a hash map lists them.

`Notify` is what the runtime provides, and nothing is assumed of it: whom it
wakes up is its own business.  The runs at the end use `tokio`, where a
notification without a waiter is stored, at most one of them, and a future made
before a call of `notify_waiters` is done after it, even if it was not waiting
yet.

`terminate`, which is called when a database is dropped, stores `false`: it lets
the workers go on instead of stopping them.
-/

namespace LsmStore
namespace Tasks

inductive TaskType where
  | memtableCompaction
  | levelCompaction
deriving DecidableEq

/-- The conditions of the runtime.  A future is a number, and a call of `notify_one` or
`notify_waiters` yields the workers it wakes up. -/
class Notify where
  Condition : Type
  new : Condition
  notified : Condition → Nat
  notifyOne : Condition → Condition × Option Nat
  notifyWaiters : Condition → Condition × List Nat
  /-- `Notified::enable` for a worker and its future, which may be done already. -/
  enable : Condition → Nat → Nat → Condition × Bool

section TaskManager

variable [Notify]

structure UpdateCond where
  lastChange : Nat
  condition : Notify.Condition

/-- The points of `work_loop` at which something that is shared is read or written. -/
inductive WorkPc where
  | spawned
  /-- About to read the clock and to enter the inner loop. -/
  | looping
  | creating
  /-- The future has been made; the lock of `last_change` is about to be taken. -/
  | checking (future : Nat)
  /-- There is nothing to do; the lock is still held. -/
  | enabling (future : Nat)
  | waiting
  | notified
  /-- Out of the inner loop; about to look at the flag once more. -/
  | deciding
  /-- The worker will run its task. -/
  | decided
  | running
  | ended
  | panicked
deriving DecidableEq

structure Worker where
  pc : WorkPc
  lastUpdate : Nat
  now : Nat
  idle : Bool

inductive StopKind where
  | terminate
  | stopAll
deriving DecidableEq

/-- A call of `terminate` or `stop_all`, and the groups it still has to notify. -/
structure StopCall where
  kind : StopKind
  remaining : List TaskType

/-- The state of the task manager.  `completed` counts the calls of `terminate` and `stop_all`
that have returned, `starts` the runs each worker has started. -/
structure State where
  numWorkers : Nat
  clock : Nat
  stopFlag : Bool
  groups : TaskType → UpdateCond
  workers : Nat → Worker
  calls : List StopCall
  completed : Nat
  starts : Nat → Nat

/-- Worker 0 compacts memtables, the others levels. -/
def groupOf (i : Nat) : TaskType :=
  if i = 0 then .memtableCompaction else .levelCompaction

namespace State

def new (numCompactionTasks : Nat) : State where
  numWorkers := numCompactionTasks + 1
  clock := 0
  stopFlag := false
  groups := fun _ => ⟨0, Notify.new⟩
  workers := fun _ => ⟨.spawned, 0, 0, false⟩
  calls := []
  completed := 0
  starts := fun _ => 0

def setWorker (s : State) (i : Nat) (w : Worker) : State :=
  { s with workers := Function.update s.workers i w }

def setPc (s : State) (i : Nat) (pc : WorkPc) : State :=
  s.setWorker i { s.workers i with pc := pc }

def setCondition (s : State) (g : TaskType) (n : Notify.Condition) : State :=
  { s with groups := Function.update s.groups g { s.groups g with condition := n } }

def setLastChange (s : State) (g : TaskType) (now : Nat) : State :=
  { s with groups := Function.update s.groups g { s.groups g with lastChange := now } }

/-- The future of a worker is done. -/
def notify (s : State) (i : Nat) : State :=
  if (s.workers i).pc = .waiting then s.setPc i .notified else s

/-- `Notify::notify_one`. -/
def notifyOne (s : State) (g : TaskType) : State :=
  let n := Notify.notifyOne (s.groups g).condition
  n.2.toList.foldl notify (s.setCondition g n.1)

/-- `Notify::notify_waiters`. -/
def notifyWaiters (s : State) (g : TaskType) : State :=
  let n := Notify.notifyWaiters (s.groups g).condition
  n.2.foldl notify (s.setCondition g n.1)

/-- Whether a worker of the group holds the lock of `last_change`. -/
def readLocked (s : State) (g : TaskType) : Bool :=
  (List.range s.numWorkers).any fun i =>
    decide (groupOf i = g) &&
      match (s.workers i).pc with
      | .enabling _ => true
      | _ => false

/-- `UpdateCond::wake_up`; it waits for the lock. -/
def wakeUp (s : State) (g : TaskType) : State :=
  if s.readLocked g then s else (s.setLastChange g s.clock).notifyOne g

/-- `Notified::enable`. -/
def enable (s : State) (i future : Nat) : State :=
  let g := groupOf i
  let n := Notify.enable (s.groups g).condition i future
  (s.setCondition g n.1).setPc i (if n.2 then .notified else .waiting)

/-- The end of a run that found out whether there was work.  A memtable compaction wakes up the
level compaction first, and may have to wait for the lock. -/
def finishRun (s : State) (i : Nat) (didWork : Bool) : State :=
  let w := s.workers i
  let w' : Worker := { w with pc := .looping, lastUpdate := w.now, idle := !didWork }
  if didWork ∧ groupOf i = .memtableCompaction then
    if s.readLocked .levelCompaction then s
    else (s.wakeUp .levelCompaction).setWorker i w'
  else s.setWorker i w'

/-- One step of `work_loop`; `result` is what a run of the task returns, `none` an error. -/
def workLoop (s : State) (i : Nat) (result : Option Bool) : State :=
  let w := s.workers i
  let cond := s.groups (groupOf i)
  match w.pc with
  | .spawned => s.setWorker i { w with pc := .looping, lastUpdate := s.clock, idle := false }
  | .looping => s.setWorker i { w with pc := .creating, now := s.clock }
  | .creating => s.setPc i (.checking (Notify.notified cond.condition))
  | .checking future =>
      if s.stopFlag ∨ ¬ w.idle ∨ w.lastUpdate < cond.lastChange then s.setPc i .deciding
      else s.setPc i (.enabling future)
  | .enabling future => s.enable i future
  | .waiting => s
  | .notified => s.setPc i .creating
  | .deciding => s.setPc i (if s.stopFlag then .ended else .decided)
  | .decided =>
      { s.setPc i .running with starts := Function.update s.starts i (s.starts i + 1) }
  | .running =>
      match result with
      | some didWork => s.finishRun i didWork
      | none => s.setPc i .panicked
  | .ended => s
  | .panicked => s

/-- The first step of `terminate` and of `stop_all`: what they store into the flag. -/
def beginStop (s : State) (kind : StopKind) (order : List TaskType) : State :=
  { s with
    stopFlag := match kind with
      | .terminate => false
      | .stopAll => true
    calls := s.calls ++ [⟨kind, order⟩] }

/-- How the two calls notify a group. -/
def notifyGroup (s : State) (kind : StopKind) (g : TaskType) : State :=
  match kind with
  | .terminate => s.notifyOne g
  | .stopAll => s.notifyWaiters g

/-- The next step of a call: it notifies a group, or returns. -/
def continueStop (s : State) (n : Nat) : State :=
  match s.calls[n]? with
  | none => s
  | some ⟨_, []⟩ => { s with calls := s.calls.eraseIdx n, completed := s.completed + 1 }
  | some ⟨kind, g :: remaining⟩ =>
      { s.notifyGroup kind g with calls := s.calls.set n ⟨kind, remaining⟩ }

end State

/-- What happens next. -/
inductive Event where
  | tick
  | worker (i : Nat) (result : Option Bool)
  | wakeUp (g : TaskType)
  | beginStop (kind : StopKind) (memtableFirst : Bool)
  | continueStop (n : Nat)

/-- The groups in the order of the hash map. -/
def groupOrder (memtableFirst : Bool) : List TaskType :=
  if memtableFirst then [.memtableCompaction, .levelCompaction]
  else [.levelCompaction, .memtableCompaction]

def State.step (s : State) : Event → State
  | .tick => { s with clock := s.clock + 1 }
  | .worker i result => if i < s.numWorkers then s.workLoop i result else s
  | .wakeUp g => s.wakeUp g
  | .beginStop kind memtableFirst => s.beginStop kind (groupOrder memtableFirst)
  | .continueStop n => s.continueStop n

abbrev State.run (s : State) (events : List Event) : State :=
  Runs.run State.step s events

/-! ## What a step does to a worker -/

/-- A worker that will not do anything any more. -/
def WorkPc.Finished (pc : WorkPc) : Prop :=
  pc = .ended ∨ pc = .panicked

instance (pc : WorkPc) : Decidable pc.Finished :=
  inferInstanceAs (Decidable (_ ∨ _))

/-- What one step makes of a worker and of its number of runs, with a given flag. -/
inductive Moves (stopFlag : Bool) : WorkPc → Nat → WorkPc → Nat → Prop where
  | stay (pc : WorkPc) (n : Nat) : Moves stopFlag pc n pc n
  | move {pc pc' : WorkPc} (n : Nat) (h : ¬ pc.Finished) (h' : pc' ≠ .decided) :
      Moves stopFlag pc n pc' n
  | decide (n : Nat) (h : stopFlag = false) : Moves stopFlag .deciding n .decided n
  | start (n : Nat) : Moves stopFlag .decided n .running (n + 1)

theorem setWorker_pc
    (s : State) (i j : Nat) (w : Worker) :
    ((s.setWorker i w).workers j).pc = if j = i then w.pc else (s.workers j).pc := by
  by_cases h : j = i
  · subst h
    simp [State.setWorker]
  · simp [State.setWorker, h]

theorem setPc_pc
    (s : State) (i j : Nat) (pc : WorkPc) :
    ((s.setPc i pc).workers j).pc = if j = i then pc else (s.workers j).pc :=
  setWorker_pc s i j _

/-- A step that has nothing to do with stopping. -/
structure SameFlags (s s' : State) : Prop where
  numWorkers : s'.numWorkers = s.numWorkers
  stopFlag : s'.stopFlag = s.stopFlag
  calls : s'.calls = s.calls
  completed : s'.completed = s.completed

/-- Some of the workers that waited have been notified; nothing else has happened to them. -/
structure Woken (s s' : State) : Prop extends SameFlags s s' where
  starts : s'.starts = s.starts
  pcs : ∀ j, (s'.workers j).pc = (s.workers j).pc ∨
    ((s.workers j).pc = .waiting ∧ (s'.workers j).pc = .notified)

namespace Woken

theorem refl
    (s : State) :
    Woken s s :=
  ⟨⟨rfl, rfl, rfl, rfl⟩, rfl, fun _ => Or.inl rfl⟩

theorem trans
    {s s' s'' : State}
    (h : Woken s s')
    (h' : Woken s' s'') :
    Woken s s'' := by
  refine ⟨⟨h'.numWorkers.trans h.numWorkers, h'.stopFlag.trans h.stopFlag,
    h'.calls.trans h.calls, h'.completed.trans h.completed⟩, h'.starts.trans h.starts, ?_⟩
  intro j
  rcases h'.pcs j with hpc | ⟨hwait, hpc⟩
  · rw [hpc]
    exact h.pcs j
  · rcases h.pcs j with hsame | ⟨hwait', hsame⟩
    · exact Or.inr ⟨hsame ▸ hwait, hpc⟩
    · rw [hsame] at hwait
      cases hwait

theorem setCondition
    (s : State) (g : TaskType) (n : Notify.Condition) :
    Woken s (s.setCondition g n) :=
  ⟨⟨rfl, rfl, rfl, rfl⟩, rfl, fun _ => Or.inl rfl⟩

theorem notify
    (s : State) (i : Nat) :
    Woken s (s.notify i) := by
  unfold State.notify
  split_ifs with hwait
  · refine ⟨⟨rfl, rfl, rfl, rfl⟩, rfl, ?_⟩
    intro j
    rw [setPc_pc]
    split_ifs with hj
    · exact Or.inr ⟨hj ▸ hwait, rfl⟩
    · exact Or.inl rfl
  · exact refl s

theorem notifyAll
    (waiters : List Nat) (s : State) :
    Woken s (waiters.foldl State.notify s) := by
  induction waiters generalizing s with
  | nil =>
      exact refl s
  | cons i waiters ih =>
      exact (notify s i).trans (ih (s.notify i))

theorem notifyOne
    (s : State) (g : TaskType) :
    Woken s (s.notifyOne g) :=
  (setCondition s g _).trans (notifyAll _ _)

theorem notifyWaiters
    (s : State) (g : TaskType) :
    Woken s (s.notifyWaiters g) :=
  (setCondition s g _).trans (notifyAll _ _)

theorem notifyGroup
    (s : State) (kind : StopKind) (g : TaskType) :
    Woken s (s.notifyGroup kind g) := by
  cases kind with
  | terminate =>
      exact notifyOne s g
  | stopAll =>
      exact notifyWaiters s g

theorem wakeUp
    (s : State) (g : TaskType) :
    Woken s (s.wakeUp g) := by
  unfold State.wakeUp
  split_ifs with hlocked
  · exact refl s
  · have hchange : Woken s (s.setLastChange g s.clock) :=
      ⟨⟨rfl, rfl, rfl, rfl⟩, rfl, fun _ => Or.inl rfl⟩
    exact hchange.trans (notifyOne _ g)

theorem moves
    {s s' : State}
    (h : Woken s s')
    (j : Nat) :
    Moves s.stopFlag (s.workers j).pc (s.starts j) (s'.workers j).pc (s'.starts j) := by
  rw [h.starts]
  rcases h.pcs j with hpc | ⟨hwait, hpc⟩
  · rw [hpc]
    exact .stay _ _
  · rw [hwait, hpc]
    exact .move _ (by decide) (by decide)

end Woken

/-- A step of a worker that ends at another point of the loop. -/
theorem moves_setWorker
    {s : State} {i : Nat} {w : Worker}
    (h : ¬ (s.workers i).pc.Finished)
    (h' : w.pc ≠ .decided)
    (j : Nat) :
    Moves s.stopFlag (s.workers j).pc (s.starts j) ((s.setWorker i w).workers j).pc
      (s.starts j) := by
  rw [setWorker_pc]
  split_ifs with hj
  · subst hj
    exact .move _ h h'
  · exact .stay _ _

theorem moves_setPc
    {s : State} {i : Nat} {pc : WorkPc}
    (h : ¬ (s.workers i).pc.Finished)
    (h' : pc ≠ .decided)
    (j : Nat) :
    Moves s.stopFlag (s.workers j).pc (s.starts j) ((s.setPc i pc).workers j).pc
      (s.starts j) :=
  moves_setWorker h h' j

theorem moves_enable
    {s : State} {i future : Nat}
    (h : ¬ (s.workers i).pc.Finished)
    (j : Nat) :
    Moves s.stopFlag (s.workers j).pc (s.starts j) ((s.enable i future).workers j).pc
      ((s.enable i future).starts j) := by
  refine moves_setWorker h ?_ j
  dsimp only
  split_ifs
  · decide
  · decide

theorem moves_finishRun
    {s : State} {i : Nat} {didWork : Bool}
    (h : ¬ (s.workers i).pc.Finished)
    (j : Nat) :
    Moves s.stopFlag (s.workers j).pc (s.starts j) ((s.finishRun i didWork).workers j).pc
      ((s.finishRun i didWork).starts j) := by
  have hlooping : WorkPc.looping ≠ .decided := by decide
  unfold State.finishRun
  dsimp only
  split_ifs with hwake hlocked
  · exact .stay _ _
  · -- the group that is woken up is that of other workers
    have hwoken := Woken.wakeUp s .levelCompaction
    by_cases hj : j = i
    · subst hj
      rw [setWorker_pc, if_pos rfl, State.setWorker, hwoken.starts]
      exact .move _ h hlooping
    · rw [setWorker_pc, if_neg hj]
      exact hwoken.moves j
  · exact moves_setWorker h hlooping j

theorem moves_workLoop
    (s : State) (i : Nat) (result : Option Bool) (j : Nat) :
    Moves s.stopFlag (s.workers j).pc (s.starts j) ((s.workLoop i result).workers j).pc
      ((s.workLoop i result).starts j) := by
  by_cases hfinished : (s.workers i).pc.Finished
  · have hstay : s.workLoop i result = s := by
      rcases hfinished with h | h <;> simp [State.workLoop, h]
    rw [hstay]
    exact .stay _ _
  unfold State.workLoop
  dsimp only
  cases hpc : (s.workers i).pc with
  | spawned | looping =>
      exact moves_setWorker hfinished (by simp) j
  | creating | notified =>
      exact moves_setPc hfinished (by simp) j
  | checking future =>
      dsimp only
      split_ifs with hbreak
      · exact moves_setPc hfinished (by simp) j
      · exact moves_setPc hfinished (by simp) j
  | enabling future =>
      exact moves_enable hfinished j
  | waiting | ended | panicked =>
      exact .stay _ _
  | deciding =>
      -- the second look at the flag
      dsimp only
      cases hflag : s.stopFlag with
      | true =>
          rw [← hflag]
          exact moves_setPc hfinished (by simp) j
      | false =>
          rw [if_neg Bool.false_ne_true, setPc_pc]
          split_ifs with hj
          · subst hj
            rw [hpc]
            exact .decide _ rfl
          · exact .stay _ _
  | decided =>
      dsimp only
      rw [setPc_pc]
      split_ifs with hj
      · subst hj
        rw [hpc, Function.update_self]
        exact .start _
      · rw [Function.update_of_ne hj]
        exact .stay _ _
  | running =>
      cases result with
      | some didWork =>
          exact moves_finishRun hfinished j
      | none =>
          exact moves_setPc hfinished (by simp) j

theorem moves_step
    (s : State) (e : Event) (j : Nat) :
    Moves s.stopFlag (s.workers j).pc (s.starts j) ((s.step e).workers j).pc
      ((s.step e).starts j) := by
  cases e with
  | tick =>
      exact .stay _ _
  | worker i result =>
      rw [State.step]
      split_ifs with hi
      · exact moves_workLoop s i result j
      · exact .stay _ _
  | wakeUp g =>
      exact (Woken.wakeUp s g).moves j
  | beginStop kind memtableFirst =>
      exact .stay _ _
  | continueStop n =>
      rw [State.step, State.continueStop]
      rcases s.calls[n]? with _ | ⟨kind, _ | ⟨g, remaining⟩⟩
      · exact .stay _ _
      · exact .stay _ _
      · exact (Woken.notifyGroup s kind g).moves j

/-! ## The flag -/

theorem sameFlags_workLoop
    (s : State) (i : Nat) (result : Option Bool) :
    SameFlags s (s.workLoop i result) := by
  have hrefl : SameFlags s s := ⟨rfl, rfl, rfl, rfl⟩
  unfold State.workLoop
  dsimp only
  cases (s.workers i).pc with
  | waiting | ended | panicked =>
      exact hrefl
  | checking future =>
      dsimp only
      split_ifs <;> exact ⟨rfl, rfl, rfl, rfl⟩
  | running =>
      cases result with
      | some didWork =>
          dsimp only
          unfold State.finishRun
          dsimp only
          split_ifs
          · exact hrefl
          · have hwoken := Woken.wakeUp s .levelCompaction
            exact ⟨hwoken.numWorkers, hwoken.stopFlag, hwoken.calls, hwoken.completed⟩
          · exact ⟨rfl, rfl, rfl, rfl⟩
      | none =>
          exact ⟨rfl, rfl, rfl, rfl⟩
  | _ =>
      exact ⟨rfl, rfl, rfl, rfl⟩

/-- A step has nothing to do with stopping, or begins a call, or continues one. -/
theorem step_cases
    (s : State) (e : Event) :
    SameFlags s (s.step e) ∨
      (∃ kind memtableFirst, e = .beginStop kind memtableFirst) ∨
      ((s.step e).numWorkers = s.numWorkers ∧ (s.step e).stopFlag = s.stopFlag ∧
        s.calls ≠ []) := by
  cases e with
  | tick =>
      exact Or.inl ⟨rfl, rfl, rfl, rfl⟩
  | worker i result =>
      left
      rw [State.step]
      split_ifs with hi
      · exact sameFlags_workLoop s i result
      · exact ⟨rfl, rfl, rfl, rfl⟩
  | wakeUp g =>
      exact Or.inl (Woken.wakeUp s g).toSameFlags
  | beginStop kind memtableFirst =>
      exact Or.inr (Or.inl ⟨kind, memtableFirst, rfl⟩)
  | continueStop n =>
      rw [State.step, State.continueStop]
      rcases hcall : s.calls[n]? with _ | ⟨kind, _ | ⟨g, remaining⟩⟩
      · exact Or.inl ⟨rfl, rfl, rfl, rfl⟩
      · exact Or.inr (Or.inr ⟨rfl, rfl, List.ne_nil_of_mem (List.mem_of_getElem? hcall)⟩)
      · have hwoken := Woken.notifyGroup s kind g
        exact Or.inr (Or.inr ⟨hwoken.numWorkers, hwoken.stopFlag,
          List.ne_nil_of_mem (List.mem_of_getElem? hcall)⟩)

/-- Nobody will start anything: the flag is set, or all workers have come to an end. -/
def Quiet (s : State) : Prop :=
  s.stopFlag = true ∨ ∀ i < s.numWorkers, (s.workers i).pc.Finished

/-- `terminate` is called only after all workers have come to an end. -/
def TerminateIsLate (s : State) : Event → Prop
  | .beginStop .terminate _ => ∀ i < s.numWorkers, (s.workers i).pc.Finished
  | _ => True

instance (s : State) : (e : Event) → Decidable (TerminateIsLate s e)
  | .beginStop .terminate _ =>
      inferInstanceAs (Decidable (∀ i < s.numWorkers, (s.workers i).pc.Finished))
  | .beginStop .stopAll _ | .tick | .worker _ _ | .wakeUp _ | .continueStop _ =>
      inferInstanceAs (Decidable True)

theorem finished_step
    {s : State} {i : Nat}
    (e : Event)
    (h : (s.workers i).pc.Finished) :
    ((s.step e).workers i).pc.Finished := by
  have hmoves := moves_step s e i
  generalize (s.workers i).pc = pc at h hmoves
  generalize ((s.step e).workers i).pc = pc' at hmoves ⊢
  generalize s.starts i = n at hmoves
  generalize (s.step e).starts i = n' at hmoves
  cases hmoves with
  | stay =>
      exact h
  | move _ hnot _ =>
      exact absurd h hnot
  | decide _ _ =>
      rcases h with h | h <;> cases h
  | start _ =>
      rcases h with h | h <;> cases h

/-- A run that is decided upon, and not started yet. -/
def owed (s : State) (i : Nat) : Nat :=
  if (s.workers i).pc = .decided then 1 else 0

/-- As long as it is quiet, the only runs that are started are those already decided upon. -/
theorem starts_step
    {s : State} {i : Nat}
    (e : Event)
    (h : Quiet s)
    (hi : i < s.numWorkers) :
    (s.step e).starts i + owed (s.step e) i ≤ s.starts i + owed s i := by
  have hmoves := moves_step s e i
  have hdeciding : s.stopFlag = false → (s.workers i).pc ≠ .deciding := by
    intro hflag hpc
    rcases h with h | h
    · rw [h] at hflag
      cases hflag
    · have hfinished := h i hi
      rw [hpc] at hfinished
      rcases hfinished with h | h <;> cases h
  unfold owed
  generalize (s.workers i).pc = pc at hdeciding hmoves ⊢
  generalize ((s.step e).workers i).pc = pc' at hmoves ⊢
  generalize s.starts i = n at hmoves ⊢
  generalize (s.step e).starts i = n' at hmoves ⊢
  cases hmoves with
  | stay =>
      exact le_refl _
  | move _ _ hnot =>
      rw [if_neg hnot]
      omega
  | decide _ hflag =>
      exact absurd rfl (hdeciding hflag)
  | start _ =>
      exact le_refl _

theorem quiet_step
    {s : State} {e : Event}
    (hlate : TerminateIsLate s e)
    (h : Quiet s) :
    Quiet (s.step e) ∧ (s.step e).numWorkers = s.numWorkers := by
  have hkeep : (s.step e).numWorkers = s.numWorkers → (s.step e).stopFlag = s.stopFlag →
      Quiet (s.step e) ∧ (s.step e).numWorkers = s.numWorkers := by
    intro hnum hflag
    refine ⟨?_, hnum⟩
    rcases h with h | h
    · exact Or.inl (hflag.trans h)
    · refine Or.inr fun i hi => finished_step e (h i ?_)
      rwa [hnum] at hi
  rcases step_cases s e with hsame | ⟨kind, memtableFirst, rfl⟩ | ⟨hnum, hflag, -⟩
  · exact hkeep hsame.numWorkers hsame.stopFlag
  · cases kind with
    | terminate =>
        exact ⟨Or.inr hlate, rfl⟩
    | stopAll =>
        exact ⟨Or.inl rfl, rfl⟩
  · exact hkeep hnum hflag

/-- It is quiet as soon as a call has begun. -/
structure StopInv (s : State) : Prop where
  quiet : s.calls ≠ [] ∨ 0 < s.completed → Quiet s

theorem stopInv_step
    {s : State} {e : Event}
    (hlate : TerminateIsLate s e)
    (h : StopInv s) :
    StopInv (s.step e) := by
  refine ⟨fun hstop => ?_⟩
  rcases step_cases s e with hsame | ⟨kind, memtableFirst, rfl⟩ | ⟨-, -, hcalls⟩
  · rw [hsame.calls, hsame.completed] at hstop
    exact (quiet_step hlate (h.quiet hstop)).1
  · cases kind with
    | terminate =>
        exact Or.inr hlate
    | stopAll =>
        exact Or.inl rfl
  · exact (quiet_step hlate (h.quiet (Or.inl hcalls))).1

theorem starts_run
    {s : State} {i : Nat}
    (h : Quiet s)
    (hi : i < s.numWorkers)
    {events : List Event}
    (hlate : Runs.Along State.step TerminateIsLate s events) :
    (s.run events).starts i ≤ s.starts i + owed s i := by
  induction events generalizing s with
  | nil =>
      exact Nat.le_add_right _ _
  | cons e events ih =>
      obtain ⟨hquiet, hnum⟩ := quiet_step hlate.1 h
      exact le_trans (ih hquiet (hnum ▸ hi) hlate.2) (starts_step e h hi)

theorem run_numWorkers
    (s : State) (events : List Event) :
    (s.run events).numWorkers = s.numWorkers := by
  refine Runs.invariant (I := fun s' : State => s'.numWorkers = s.numWorkers) ?_ rfl events
  intro s' e h
  rw [← h]
  rcases step_cases s' e with hsame | ⟨kind, memtableFirst, rfl⟩ | ⟨hnum, -, -⟩
  · exact hsame.numWorkers
  · rfl
  · exact hnum

/-- **Stopping stops**, as long as `terminate` is called only after all workers have come to an
end: from the return of a call on, no worker starts a run but one it had already decided upon. -/
theorem stop_stops
    (numCompactionTasks : Nat) (before after : List Event)
    (hlate : Runs.Along State.step TerminateIsLate (State.new numCompactionTasks)
      (before ++ after))
    (hcompleted : 0 < ((State.new numCompactionTasks).run before).completed)
    (i : Nat)
    (hi : i < numCompactionTasks + 1) :
    ((State.new numCompactionTasks).run (before ++ after)).starts i ≤
      ((State.new numCompactionTasks).run before).starts i +
        if (((State.new numCompactionTasks).run before).workers i).pc = .decided then 1
        else 0 := by
  obtain ⟨hbefore, hafter⟩ := Runs.along_append.mp hlate
  have hinit : StopInv (State.new numCompactionTasks) := by
    refine ⟨fun h => ?_⟩
    rcases h with h | h
    · exact absurd rfl h
    · exact absurd h (Nat.lt_irrefl 0)
  have hinv : StopInv ((State.new numCompactionTasks).run before) :=
    Runs.invariant_along (fun _ _ => stopInv_step) hinit hbefore
  rw [State.run, Runs.run_append]
  refine starts_run (hinv.quiet (Or.inr hcompleted)) ?_ hafter
  rw [run_numWorkers]
  exact hi

end TaskManager

/-- `tokio::sync::Notify`: a stored notification, the number of calls of `notify_waiters` so
far, and the workers that wait, the first one first. -/
structure Tokio where
  permit : Bool
  waitersCalls : Nat
  waiters : List Nat

/-- A future is the number of calls of `notify_waiters` before it was made. -/
instance tokio : Notify where
  Condition := Tokio
  new := ⟨false, 0, []⟩
  notified n := n.waitersCalls
  notifyOne n :=
    match n.waiters with
    | [] => ({ n with permit := true }, none)
    | i :: rest => ({ n with waiters := rest }, some i)
  notifyWaiters n := ({ n with waitersCalls := n.waitersCalls + 1, waiters := [] }, n.waiters)
  enable n i future :=
    if n.permit then ({ n with permit := false }, true)
    else if future ≠ n.waitersCalls then (n, true)
    else ({ n with waiters := n.waiters ++ [i] }, false)

/-- The first steps of a worker, up to its first run. -/
def firstRun (i : Nat) : List Event :=
  List.replicate 6 (.worker i none)

/-- The run has found work, and the worker goes on to the next one. -/
def nextRun (i : Nat) : List Event :=
  .worker i (some true) :: List.replicate 5 (.worker i none)

/-- A call of `terminate` or of `stop_all`, from its beginning to its return. -/
def wholeStop (kind : StopKind) : List Event :=
  [.beginStop kind true, .continueStop 0, .continueStop 0, .continueStop 0]

/-- `stop_all` is called while a worker runs; the worker comes to its end. -/
theorem stop_stops_running_worker :
    let s := (State.new 1).run (firstRun 1 ++ wholeStop .stopAll)
    Runs.Along State.step TerminateIsLate (State.new 1)
        ((firstRun 1 ++ wholeStop .stopAll) ++ nextRun 1) ∧
      0 < s.completed ∧ (s.workers 1).pc = .running ∧ s.starts 1 = 1 ∧
      ((State.new 1).run ((firstRun 1 ++ wholeStop .stopAll) ++ nextRun 1)).starts 1 ≤ 1 := by
  intro s
  have hlate : Runs.Along State.step TerminateIsLate (State.new 1)
      ((firstRun 1 ++ wholeStop .stopAll) ++ nextRun 1) := by
    decide
  have hcompleted : 0 < s.completed := by decide
  have hpc : (s.workers 1).pc = .running := by decide
  have hstarts : s.starts 1 = 1 := by decide
  have hbound := stop_stops 1 (firstRun 1 ++ wholeStop .stopAll) (nextRun 1) hlate hcompleted 1
    (by decide)
  exact ⟨hlate, hcompleted, hpc, hstarts, hbound⟩

/-- A database is dropped while a worker runs, without or after a call of `stop_all`:
`terminate` has returned, and the worker starts another run. -/
theorem terminate_does_not_stop :
    let dropped := (State.new 1).run (firstRun 1 ++ wholeStop .terminate)
    let stopped := (State.new 1).run (firstRun 1 ++ wholeStop .stopAll)
    (dropped.completed = 1 ∧ (dropped.workers 1).pc = .running ∧ dropped.starts 1 = 1 ∧
        (dropped.run (nextRun 1)).starts 1 = 2) ∧
      stopped.completed = 1 ∧ (stopped.workers 1).pc = .running ∧ stopped.starts 1 = 1 ∧
        (stopped.run (wholeStop .terminate ++ nextRun 1)).starts 1 = 2 := by
  decide

end Tasks
end LsmStore
