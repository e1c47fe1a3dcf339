import LsmStore.Logic.Refinement

/-!
# What a lookup meets

A lookup walks from the live memtable over the immutable ones and level 0 to
the last level.  In every reachable state it meets the versions of its key from
the newest to the oldest, and the first one is the last write of the history.
-/

namespace LsmStore
namespace Logic

open Tiers

/-- The entries of a key, in the order in which `get` looks for them. -/
def lookupPath (params : Params) (s : DbState) (key : Key) : List MemtableEntry :=
  (s.memtable.get key).toList ++
    (s.immMemtables.reverse.filterMap fun imm => imm.2.get key) ++
    (List.range params.numLevels).flatMap fun level =>
      (s.tables level).reverse.filterMap fun table => table.get key

section Lookup

variable {params : Params} {s : DbState}

/-- With at most one immutable memtable the walk is a search through the tiers. -/
theorem lookupPath_eq_path
    (h : FlushInv s)
    (key : Key) :
    lookupPath params s key = s.tiers.path SortedTable.get params.numLevels key := by
  have himm : (s.immMemtables.reverse.filterMap fun imm => imm.2.get key) =
      ((s.immMemtables.head?.map fun imm => imm.2.get).bind fun f => f key).toList := by
    cases hlist : s.immMemtables with
    | nil =>
        rfl
    | cons imm rest =>
        have hone := h.eq_singleton hlist
        rw [hlist, List.cons.injEq] at hone
        rw [hone.2]
        cases hget : imm.2.get key <;> simp [hget]
  rw [lookupPath, himm]
  rfl

/-- On every level the tables that are looked at later are older. -/
theorem VersionInv.pairwise_level
    (h : VersionInv params s)
    (level : Nat) :
    (s.tables level).Pairwise fun t u => Older entryRank t.get u.get := by
  by_cases hlevel : level = 0
  · subst hlevel
    exact h.ordered.first
  · have hids : (s.tables level).Pairwise fun t u => t.getId ≠ u.getId :=
      List.pairwise_map.mp (h.own.tables.nodup level)
    refine List.Pairwise.imp_of_mem ?_ hids
    intro t u ht hu hne key a b ha hb
    -- tables of the same level below level 0 share no key
    have hapart := h.own.tables.apart level hlevel t ht u hu
      (fun heq => hne (congrArg SortedTable.getId heq))
    rw [hapart.get_eq_none ha] at hb
    cases hb

theorem VersionInv.level_lt
    (h : VersionInv params s)
    (level : Nat)
    (hne : s.tables level ≠ []) :
    level < params.numLevels := by
  obtain ⟨t, ht⟩ := List.exists_mem_of_ne_nil _ hne
  exact h.own.tables.bound level t ht

theorem VersionInv.mem_lookupPath_iff
    (h : VersionInv params s)
    (key : Key) (entry : MemtableEntry) :
    entry ∈ lookupPath params s key ↔ ∃ p, s.tiers.Holds SortedTable.get p key entry := by
  rw [lookupPath_eq_path h.flush]
  exact mem_path_iff params.numLevels key entry h.level_lt

/-- The walk goes from new to old. -/
theorem VersionInv.pairwise_lookupPath
    (h : VersionInv params s)
    (key : Key) :
    (lookupPath params s key).Pairwise fun newer older =>
      older.getSeqNumber ≤ newer.getSeqNumber := by
  rw [lookupPath_eq_path h.flush]
  exact h.ordered.pairwise_path h.pairwise_level params.numLevels key

/-- Two entries of one key that were the last writes at some time: the sequence number
tells them apart. -/
theorem lastWrite_take_inj
    {batches : List (List WriteOp)} {m m' : Nat} {key : Key} {a b : MemtableEntry}
    (ha : lastWrite (batches.take m).flatten key = some a)
    (hb : lastWrite (batches.take m').flatten key = some b)
    (hseq : a.getSeqNumber = b.getSeqNumber) :
    a = b := by
  rcases le_total m m' with hle | hle
  · rw [← List.take_append_drop m (batches.take m'), List.take_take, min_eq_left hle,
      List.flatten_append] at hb
    exact (lastWrite_inj ha hb (le_of_eq hseq.symm)).symm
  · rw [← List.take_append_drop m' (batches.take m), List.take_take, min_eq_left hle,
      List.flatten_append] at ha
    exact lastWrite_inj hb ha (le_of_eq hseq)

theorem VersionInv.eq_of_seqNumber_eq
    (h : VersionInv params s)
    {key : Key} {a b : MemtableEntry}
    (ha : a ∈ lookupPath params s key)
    (hb : b ∈ lookupPath params s key)
    (hseq : a.getSeqNumber = b.getSeqNumber) :
    a = b := by
  obtain ⟨p, hp⟩ := (h.mem_lookupPath_iff key a).mp ha
  obtain ⟨q, hq⟩ := (h.mem_lookupPath_iff key b).mp hb
  obtain ⟨m, -, hm⟩ := h.genuine p key a hp
  obtain ⟨m', -, hm'⟩ := h.genuine q key b hq
  exact lastWrite_take_inj hm hm' hseq

/-- The walk starts with the last write. -/
theorem VersionInv.head?_lookupPath
    (h : VersionInv params s)
    (key : Key) :
    (lookupPath params s key).head? = lastWrite s.batches.flatten key := by
  cases hpath : lookupPath params s key with
  | nil =>
      -- a write would be held somewhere
      cases hlast : lastWrite s.batches.flatten key with
      | none =>
          rfl
      | some entry =>
          obtain ⟨p, newer, hp, -⟩ := h.newest key entry hlast
          have hmem := (h.mem_lookupPath_iff key newer).mpr ⟨p, hp⟩
          rw [hpath] at hmem
          cases hmem
  | cons top rest =>
      have hsorted := h.pairwise_lookupPath key
      have htop : top ∈ lookupPath params s key := by
        rw [hpath]
        exact List.mem_cons_self
      rw [hpath] at hsorted
      obtain ⟨p, hp⟩ := (h.mem_lookupPath_iff key top).mp htop
      obtain ⟨m, -, hm⟩ := h.genuine p key top hp
      obtain ⟨last, hlast, -⟩ := lastWrite_mono hm (s.batches.drop m).flatten
      obtain ⟨q, newer, hq, hle⟩ := h.newest key last
        ((flatten_take_append s.batches m).symm ▸ hlast)
      -- the newest version on the path is not newer than the first
      have hnewer : newer ∈ top :: rest := by
        rw [← hpath]
        exact (h.mem_lookupPath_iff key newer).mpr ⟨q, hq⟩
      have hmax : newer.getSeqNumber ≤ top.getSeqNumber := by
        rcases List.mem_cons.mp hnewer with rfl | hrest
        · exact le_refl _
        · exact (List.pairwise_cons.mp hsorted).1 newer hrest
      rw [flatten_take_append s.batches m, hlast, List.head?_cons,
        lastWrite_inj hm hlast (le_trans hle hmax)]

end Lookup

/-- In every reachable state a lookup meets the versions of its key from the newest to the
oldest, equal sequence numbers belong to equal entries, and the first entry is the last
write; a key that was never written is not met at all. -/
theorem lookupPath_newest_first
    (params : Params) (numTasks : Nat) (events : List DbEvent) (key : Key) :
    let s := (DbState.new params numTasks).run params events
    ((lookupPath params s key).Pairwise fun newer older =>
        older.getSeqNumber ≤ newer.getSeqNumber ∧
          (older.getSeqNumber = newer.getSeqNumber → older = newer)) ∧
      (lookupPath params s key).head? = lastWrite s.batches.flatten key := by
  intro s
  have h : VersionInv params s := versionInv_run params numTasks events
  refine ⟨?_, h.head?_lookupPath key⟩
  refine List.Pairwise.imp_of_mem ?_ (h.pairwise_lookupPath key)
  intro newer older hnewer holder hle
  exact ⟨hle, h.eq_of_seqNumber_eq holder hnewer⟩

end Logic
end LsmStore
