import LsmStore.Values.Cleanup

/-!
# Recovery of the value index

A restart reads the pages of the value index from their files and repeats the
deletions of values that are behind the log offset.  As long as no page has been
removed, every page is backed by its file: the file may lack deletions, but only
such as are behind the log offset.  Then the recovery restores every page, with
its bits filled up to whole bytes.
-/

namespace LsmStore
namespace Values

open BitPacking

/-! ## The recovery of one page -/

namespace IndexPage

/-- The bit of a value; behind the end there are zeros. -/
def bit (p : IndexPage) (i : Nat) : Bool :=
  p.entries.getD i false

/-- Clear one bit. -/
def clear (p : IndexPage) (i : Nat) : IndexPage :=
  if p.bit i then { p with entries := p.entries.set i false, dirty := true } else p

/-- Clear the bits of those deletions that are about this page. -/
def replayed (deletions : List (Nat × Nat)) (p : IndexPage) : IndexPage :=
  deletions.foldl (fun p d => if d.1 = p.getIdentifier then p.clear d.2 else p) p

/-- What a recovery never changes. -/
structure SameShape (p q : IndexPage) : Prop where
  header : q.header = p.header
  offsets : q.offsets = p.offsets
  isSealed : q.isSealed = p.isSealed
  length : q.entries.length = p.entries.length

theorem SameShape.refl
    (p : IndexPage) :
    SameShape p p :=
  ⟨rfl, rfl, rfl, rfl⟩

theorem SameShape.trans
    {p q r : IndexPage}
    (h : SameShape p q)
    (h' : SameShape q r) :
    SameShape p r :=
  ⟨h'.header.trans h.header, h'.offsets.trans h.offsets, h'.isSealed.trans h.isSealed,
    h'.length.trans h.length⟩

theorem sameShape_clear
    (p : IndexPage) (i : Nat) :
    SameShape p (p.clear i) := by
  unfold clear
  split_ifs
  · exact ⟨rfl, rfl, rfl, List.length_set⟩
  · exact SameShape.refl p

theorem getD_set
    (bits : List Bool) (i j : Nat) :
    (bits.set i false).getD j false = if j = i then false else bits.getD j false := by
  simp only [List.getD_eq_getElem?_getD, List.getElem?_set]
  by_cases hj : j = i
  · subst hj
    split_ifs <;> rfl
  · rw [if_neg (Ne.symm hj), if_neg hj]

theorem bit_clear
    (p : IndexPage) (i j : Nat) :
    (p.clear i).bit j = if j = i then false else p.bit j := by
  unfold clear
  split_ifs with hbit hj hj
  · exact (getD_set p.entries i j).trans (if_pos hj)
  · exact (getD_set p.entries i j).trans (if_neg hj)
  · subst hj
    exact Bool.not_eq_true _ ▸ hbit
  · rfl

theorem clear_of_clean
    {p : IndexPage} {i : Nat}
    (h : (p.clear i).dirty = false) :
    p.clear i = p := by
  unfold clear at h ⊢
  split_ifs with hbit
  · rw [if_pos hbit] at h
    cases h
  · rfl

theorem markValueAsDeletedAt_eq
    {p : IndexPage} {i : Nat}
    (h : i < p.entries.length) :
    p.markValueAsDeletedAt i = .value (p.clear i) := by
  have hbit : p.bit i = p.entries[i] := by
    rw [bit, List.getD_eq_getElem?_getD, List.getElem?_eq_getElem h, Option.getD_some]
  unfold markValueAsDeletedAt clear
  rw [List.getElem?_eq_getElem h, hbit]
  cases p.entries[i] <;> rfl

theorem replayed_cons
    (d : Nat × Nat) (ds : List (Nat × Nat)) (p : IndexPage) :
    replayed (d :: ds) p = replayed ds (if d.1 = p.getIdentifier then p.clear d.2 else p) :=
  rfl

theorem sameShape_replayed
    (ds : List (Nat × Nat)) (p : IndexPage) :
    SameShape p (p.replayed ds) := by
  induction ds generalizing p with
  | nil =>
      exact SameShape.refl p
  | cons d ds ih =>
      rw [replayed_cons]
      split_ifs
      · exact (sameShape_clear p d.2).trans (ih _)
      · exact ih p

theorem bit_replayed
    (ds : List (Nat × Nat)) (p : IndexPage) (j : Nat) :
    (p.replayed ds).bit j = (p.bit j && !decide ((p.getIdentifier, j) ∈ ds)) := by
  induction ds generalizing p with
  | nil =>
      simp [replayed]
  | cons d ds ih =>
      obtain ⟨id, i⟩ := d
      rw [replayed_cons, ih]
      by_cases hid : id = p.getIdentifier
      · have hsame : (p.clear i).getIdentifier = p.getIdentifier :=
          congrArg IndexPageHeader.identifier (sameShape_clear p i).header
        rw [if_pos hid, hsame, bit_clear]
        by_cases hj : j = i
        · simp [hid, hj]
        · simp [hj]
      · rw [if_neg hid]
        simp [Ne.symm hid]

/-- A page that the recovery leaves clean is as it was. -/
theorem bit_replayed_of_clean
    {ds : List (Nat × Nat)} {p : IndexPage}
    (h : (p.replayed ds).dirty = false) :
    p.replayed ds = p := by
  induction ds generalizing p with
  | nil =>
      rfl
  | cons d ds ih =>
      rw [replayed_cons] at h ⊢
      have hrest := ih h
      rw [hrest] at h ⊢
      split_ifs at h ⊢
      · exact clear_of_clean h
      · rfl

end IndexPage

/-! ## The recovery of all pages -/

section Recovery

variable {pages : Pages}

/-- The identifiers of the pages are increasing. -/
def Pages.Ascending (pages : Pages) : Prop :=
  (pages.map fun entry => entry.2.getIdentifier).Pairwise (· < ·)

theorem Pages.markValueAsDeletedAt_eq
    {pageId offset : Nat}
    (h : pages.Ascending)
    (hpage : ∃ entry ∈ pages, entry.2.getIdentifier = pageId ∧
      offset < entry.2.entries.length) :
    pages.markValueAsDeletedAt pageId offset = .value (pages.map fun entry =>
      (entry.1, if pageId = entry.2.getIdentifier then entry.2.clear offset else entry.2)) := by
  obtain ⟨⟨key, page⟩, hmem, hid, hlt⟩ := hpage
  obtain ⟨idx, hidx⟩ := List.getElem?_of_mem hmem
  have hsorted : SortedAssoc.Sorted (pages.map fun entry => (entry.2.getIdentifier, entry.2)) := by
    rw [SortedAssoc.Sorted, List.pairwise_map]
    exact List.pairwise_map.mp h
  have hget : (pages.map fun entry => (entry.2.getIdentifier, entry.2))[idx]? =
      some (pageId, page) := by
    rw [List.getElem?_map, hidx, ← hid]
    rfl
  have hpos := SortedAssoc.position_getElem? hsorted hget
  have hat : pages.pageAt idx = .value page := by
    rw [Pages.pageAt, hidx]
  rw [Pages.markValueAsDeletedAt, hpos]
  dsimp only
  rw [hat, Outcome.value_bind, IndexPage.markValueAsDeletedAt_eq hlt, Outcome.value_bind]
  congr 1
  apply List.ext_getElem?
  intro j
  rw [Pages.getElem?_setPage, List.getElem?_map]
  cases hj : pages[j]? with
  | none =>
      rfl
  | some entry =>
      by_cases heq : j = idx
      · subst heq
        rw [hidx] at hj
        cases hj
        simp [hid]
      · have hne : pageId ≠ entry.2.getIdentifier := by
          intro hsame
          have hget' : (pages.map fun entry => (entry.2.getIdentifier, entry.2))[j]? =
              some (pageId, entry.2) := by
            rw [List.getElem?_map, hj, hsame]
            rfl
          have hpos' := SortedAssoc.position_getElem? hsorted hget'
          rw [hpos] at hpos'
          cases hpos'
          exact heq rfl
        simp [heq, hne]

/-- The recovery clears the bits of every page. -/
theorem Pages.replay_eq
    {ds : List (Nat × Nat)}
    (h : pages.Ascending)
    (hds : ∀ d ∈ ds, ∃ entry ∈ pages, entry.2.getIdentifier = d.1 ∧
      d.2 < entry.2.entries.length) :
    Pages.replay ds pages =
      .value (pages.map fun entry => (entry.1, entry.2.replayed ds)) := by
  induction ds generalizing pages with
  | nil =>
      simp [Pages.replay, IndexPage.replayed]
  | cons d ds ih =>
      have hshape : ∀ p : IndexPage,
          p.SameShape (if d.1 = p.getIdentifier then p.clear d.2 else p) := by
        intro p
        split_ifs
        · exact p.sameShape_clear d.2
        · exact IndexPage.SameShape.refl p
      rw [Pages.replay, Pages.markValueAsDeletedAt_eq h (hds d List.mem_cons_self),
        Outcome.value_bind, ih]
      · rw [List.map_map]
        rfl
      · unfold Pages.Ascending
        rw [List.map_map]
        have hids : ((fun entry : Nat × IndexPage => entry.2.getIdentifier) ∘
            fun entry : Nat × IndexPage =>
              (entry.1, if d.1 = entry.2.getIdentifier then entry.2.clear d.2 else entry.2)) =
                fun entry => entry.2.getIdentifier := by
          funext entry
          exact congrArg IndexPageHeader.identifier (hshape entry.2).header
        rw [hids]
        exact h
      · intro d' hd'
        obtain ⟨entry, hentry, hid, hlt⟩ := hds d' (List.mem_cons_of_mem _ hd')
        refine ⟨_, List.mem_map_of_mem hentry, ?_, ?_⟩
        · exact (congrArg IndexPageHeader.identifier (hshape entry.2).header).trans hid
        · exact lt_of_lt_of_eq hlt (hshape entry.2).length.symm

end Recovery

section Pointwise

variable {α β γ : Type} {R : α → β → Prop}

theorem map_eq_of_forall₂
    {f : α → γ} {g : β → γ} {l : List α} {l' : List β}
    (hR : ∀ a b, R a b → f a = g b)
    (h : List.Forall₂ R l l') :
    l.map f = l'.map g := by
  induction h with
  | nil =>
      rfl
  | cons hab _ ih =>
      rw [List.map_cons, List.map_cons, hR _ _ hab, ih]

theorem getElem?_of_forall₂
    {l : List α} {l' : List β} {a : α} {i : Nat}
    (h : List.Forall₂ R l l')
    (ha : l[i]? = some a) :
    ∃ b, l'[i]? = some b ∧ R a b := by
  induction h generalizing i with
  | nil =>
      cases ha
  | cons hab _ ih =>
      cases i with
      | zero =>
          cases ha
          exact ⟨_, rfl, hab⟩
      | succ i =>
          exact ih ha

end Pointwise

/-! ## The files of the pages -/

theorem getD_padded
    (bits : List Bool) (n i : Nat) :
    (bits ++ List.replicate n false).getD i false = bits.getD i false := by
  simp only [List.getD_eq_getElem?_getD]
  rcases Nat.lt_or_ge i bits.length with hlt | hge
  · rw [List.getElem?_append_left hlt]
  · rw [List.getElem?_append_right hge, List.getElem?_eq_none hge, List.getElem?_replicate]
    split_ifs <;> rfl

/-- The active values of a page that was recovered. -/
theorem getActiveEntries_padded
    {p r : IndexPage} {n : Nat}
    (hheader : r.header = p.header)
    (hoffsets : r.offsets = p.offsets)
    (hentries : r.entries = p.entries ++ List.replicate n false)
    (hle : ∀ offset ∈ p.offsets, offset ≤ p.entries.length)
    (batchId : Nat) :
    r.getActiveEntries batchId = p.getActiveEntries batchId := by
  unfold IndexPage.getActiveEntries IndexPage.getBatchRange
  rw [hheader, hoffsets, hentries]
  split_ifs with hbatch
  · rfl
  dsimp only
  cases hstart : p.offsets[batchId - p.header.startBatch]? with
  | none =>
      rfl
  | some startPos =>
      have hstartPos := hle startPos (List.mem_of_getElem? hstart)
      dsimp only
      rw [Outcome.value_bind, Outcome.value_bind]
      dsimp only
      cases hend : p.offsets[batchId - p.header.startBatch + 1]? with
      | some endPos =>
          have hendPos := hle endPos (List.mem_of_getElem? hend)
          rw [Option.getD_some, Option.getD_some, IndexPage.slice, IndexPage.slice, hentries]
          by_cases horder : startPos ≤ endPos
          · rw [if_pos ⟨horder, by rw [List.length_append]; omega⟩, if_pos ⟨horder, hendPos⟩,
              List.drop_append_of_le_length hstartPos,
              List.take_append_of_le_length (by rw [List.length_drop]; omega)]
          · rw [if_neg fun h => horder h.1, if_neg fun h => horder h.1]
      | none =>
          rw [Option.getD_none, Option.getD_none, IndexPage.slice, IndexPage.slice, hentries,
            if_pos ⟨by rw [List.length_append]; omega, le_refl _⟩,
            if_pos ⟨hstartPos, le_refl _⟩, Outcome.value_bind, Outcome.value_bind,
            List.take_of_length_le (by rw [List.length_drop]),
            List.take_of_length_le (by rw [List.length_drop]),
            List.drop_append_of_le_length hstartPos, List.zipIdx_append, List.filterMap_append]
          have hnone : ((List.replicate n false).zipIdx
              (0 + (p.entries.drop startPos).length)).filterMap (fun entry =>
                if entry.1 = true then some (entry.2 + startPos) else none) = [] := by
            rw [List.filterMap_eq_nil_iff]
            intro entry hentry
            have hmem := (List.mem_zipIdx hentry).2.2
            rw [List.getElem_replicate] at hmem
            simp [hmem]
          rw [hnone, List.append_nil]

variable [BitPacking]

def PageView.bit (v : PageView) (i : Nat) : Bool :=
  v.entries.getD i false

/-- What the file of a page holds: a page `q` that may lack some of the deletions, but none of
those that are settled. -/
structure Backs (deletions settled : List (Nat × Nat)) (v : PageView) (file : PageFile)
    (q : IndexPage) : Prop where
  read : ∀ isSealed, IndexPage.ofFile file isSealed = .value { q with isSealed := isSealed }
  clean : q.dirty = false
  header : q.header = v.header
  offsets : q.offsets = v.offsets
  length : q.entries.length = v.entries.length + padding v.entries.length
  kept : ∀ i, v.bit i = true → q.bit i = true
  marked : ∀ i, q.bit i = true →
    v.bit i = true ∨ v.dirty = true ∧ (v.header.identifier, i) ∈ deletions
  settled : ∀ i, (v.header.identifier, i) ∈ settled → q.bit i = false

section Files

variable {deletions settled : List (Nat × Nat)} {v : PageView} {file : PageFile} {q : IndexPage}

theorem backs_encode
    {p : IndexPage}
    (hoffsets : ∀ offset ∈ p.offsets, offset < 65536)
    (hlogged : ∀ i, (p.getIdentifier, i) ∈ settled → p.bit i = false) :
    Backs deletions settled p.written.view p.encode { p with
      dirty := false
      entries := p.entries ++ List.replicate (padding p.entries.length) false } where
  read := p.ofFile_encode hoffsets
  clean := rfl
  header := rfl
  offsets := rfl
  length := by simp [IndexPage.view, IndexPage.written]
  kept := fun i h => (getD_padded p.entries _ i).trans h
  marked := fun i h => Or.inl ((getD_padded p.entries _ i).symm.trans h)
  settled := fun i h => (getD_padded p.entries _ i).trans (hlogged i h)

section Backed

variable (h : Backs deletions settled v file q)

include h

/-- A deletion that is logged leaves the file as it is. -/
theorem Backs.delete
    (pos : Nat) :
    Backs (deletions ++ [(v.header.identifier, pos)]) settled
      { v with entries := v.entries.set pos false, dirty := true } file q where
  read := h.read
  clean := h.clean
  header := h.header
  offsets := h.offsets
  length := by simpa using h.length
  kept := by
    intro i hi
    apply h.kept
    rw [PageView.bit, IndexPage.getD_set] at hi
    split_ifs at hi with hpos
    exact hi
  marked := by
    intro i hi
    by_cases hpos : i = pos
    · subst hpos
      exact Or.inr ⟨rfl, List.mem_append_right _ List.mem_cons_self⟩
    · rcases h.marked i hi with hv | ⟨-, hd⟩
      · exact Or.inl ((IndexPage.getD_set v.entries pos i).trans ((if_neg hpos).trans hv))
      · exact Or.inr ⟨rfl, List.mem_append_left _ hd⟩
  settled := h.settled

theorem Backs.mono_deletions
    {deletions' : List (Nat × Nat)}
    (hsub : ∀ d ∈ deletions, d ∈ deletions') :
    Backs deletions' settled v file q :=
  { h with
    marked := fun i hi => (h.marked i hi).imp_right fun hd => ⟨hd.1, hsub _ hd.2⟩ }

/-- The file of a clean page has all deletions. -/
theorem Backs.settle
    (hclean : v.dirty = false)
    (hlogged : ∀ i, (v.header.identifier, i) ∈ deletions → v.bit i = false) :
    Backs deletions deletions v file q where
  __ := h
  settled := by
    intro i hi
    by_contra hbit
    rcases h.marked i (Bool.not_eq_false _ ▸ hbit) with hv | ⟨hdirty, -⟩
    · rw [hlogged i hi] at hv
      cases hv
    · rw [hclean] at hdirty
      cases hdirty

variable {logOffset : Nat}

/-- The recovery restores the bits of a page. -/
theorem Backs.bit_replayed
    (hsettled : ∀ d ∈ deletions.take logOffset, d ∈ settled)
    (hlogged : ∀ i, (v.header.identifier, i) ∈ deletions → v.bit i = false)
    (isSealed : Bool) (i : Nat) :
    (({ q with isSealed := isSealed } : IndexPage).replayed (deletions.drop logOffset)).bit i =
      v.bit i := by
  have hid : ({ q with isSealed := isSealed } : IndexPage).getIdentifier =
      v.header.identifier :=
    congrArg IndexPageHeader.identifier h.header
  rw [IndexPage.bit_replayed, hid]
  change (q.bit i && _) = _
  cases hv : v.bit i with
  | true =>
      have hnot : (v.header.identifier, i) ∉ deletions.drop logOffset := by
        intro hmem
        rw [hlogged i (List.mem_of_mem_drop hmem)] at hv
        cases hv
      rw [h.kept i hv, decide_eq_false hnot]
      rfl
  | false =>
      cases hq : q.bit i with
      | false =>
          rfl
      | true =>
          -- the deletion is not in the file, so that it is behind the log offset
          have hmem : (v.header.identifier, i) ∈ deletions.drop logOffset := by
            rcases h.marked i hq with hv' | ⟨-, hd⟩
            · rw [hv] at hv'
              cases hv'
            · rw [← List.take_append_drop logOffset deletions] at hd
              rcases List.mem_append.mp hd with htake | hdrop
              · rw [h.settled i (hsettled _ htake)] at hq
                cases hq
              · exact hdrop
          rw [decide_eq_true hmem]
          rfl

theorem Backs.entries_replayed
    (hsettled : ∀ d ∈ deletions.take logOffset, d ∈ settled)
    (hlogged : ∀ i, (v.header.identifier, i) ∈ deletions → v.bit i = false)
    (isSealed : Bool) :
    (({ q with isSealed := isSealed } : IndexPage).replayed
        (deletions.drop logOffset)).entries =
      v.entries ++ List.replicate (padding v.entries.length) false := by
  have hlength := (IndexPage.sameShape_replayed (deletions.drop logOffset)
    { q with isSealed := isSealed }).length
  have hbit := h.bit_replayed hsettled hlogged isSealed
  apply List.ext_getElem
  · rw [hlength, List.length_append, List.length_replicate]
    exact h.length
  · intro i hi hi'
    have hget := (hbit i).trans (getD_padded v.entries (padding v.entries.length) i).symm
    rw [IndexPage.bit, List.getD_eq_getElem?_getD, List.getD_eq_getElem?_getD,
      List.getElem?_eq_getElem hi, List.getElem?_eq_getElem hi'] at hget
    exact hget

/-- A page that was recovered is backed by the same file. -/
theorem Backs.recovered
    (hsettled : ∀ d ∈ deletions.take logOffset, d ∈ settled)
    (hlogged : ∀ i, (v.header.identifier, i) ∈ deletions → v.bit i = false)
    (isSealed : Bool) :
    Backs deletions settled (({ q with isSealed := isSealed } : IndexPage).replayed
      (deletions.drop logOffset)).view file q := by
  have hshape := IndexPage.sameShape_replayed (deletions.drop logOffset)
    { q with isSealed := isSealed }
  have hbit := h.bit_replayed hsettled hlogged isSealed
  have hlength : q.entries.length = v.entries.length + padding v.entries.length := h.length
  refine ⟨h.read, h.clean, hshape.header.symm, hshape.offsets.symm, ?_, ?_, ?_, ?_⟩
  · change _ = (IndexPage.entries _).length + padding (IndexPage.entries _).length
    rw [hshape.length]
    change q.entries.length = q.entries.length + padding q.entries.length
    rw [hlength, padding, padding]
    omega
  · intro i hi
    exact h.kept i ((hbit i).symm.trans hi)
  · intro i hi
    have hid : (IndexPage.view _).header.identifier = v.header.identifier :=
      congrArg IndexPageHeader.identifier (hshape.header.trans h.header)
    rw [hid]
    cases hdirty : (({ q with isSealed := isSealed } : IndexPage).replayed
      (deletions.drop logOffset)).dirty with
    | false =>
        refine Or.inl ?_
        rw [IndexPage.bit_replayed_of_clean hdirty]
        exact hi
    | true =>
        rcases h.marked i hi with hv | ⟨-, hd⟩
        · exact Or.inl ((hbit i).trans hv)
        · exact Or.inr ⟨hdirty, hd⟩
  · intro i hi
    have hid : (IndexPage.view _).header.identifier = v.header.identifier :=
      congrArg IndexPageHeader.identifier (hshape.header.trans h.header)
    rw [hid] at hi
    exact h.settled i hi

end Backed

end Files

/-! ## The invariant -/

/-- What holds of every page: it has a file, and all pages but the last one are sealed. -/
structure PageStored (state : IndexState) (settled : List (Nat × Nat)) (e : Nat × PageView) :
    Prop where
  key : e.1 = e.2.header.startBatch
  short : e.2.entries.length ≤ maxPageSize
  offsets : ∀ offset ∈ e.2.offsets, offset ≤ e.2.entries.length
  isSealed : e.2.isSealed = decide (e.2.header.identifier < state.nextIndexPage - 1)
  file : ∃ file q, state.pageFiles e.2.header.identifier = some file ∧
    Backs state.deletions settled e.2 file q

/-- No page has been removed, every page is backed by its file, and the deletions in the log
are about values that are deleted. -/
structure Stored (state : IndexState) (settled : List (Nat × Nat)) : Prop where
  minimum : state.minimumIndexPage = 1
  next : 2 ≤ state.nextIndexPage
  ids : (state.pages.map fun e => e.2.header.identifier) =
    List.range' 1 (state.nextIndexPage - 1)
  page : ∀ e ∈ state.pages, PageStored state settled e
  logged : ∀ d ∈ state.deletions, ∃ e ∈ state.pages, e.2.header.identifier = d.1 ∧
    e.2.entries[d.2]? = some false
  fresh : ∀ id, state.nextIndexPage ≤ id → state.pageFiles id = none
  settles : ∀ d ∈ settled, d ∈ state.deletions

section Invariant

variable {state : IndexState} {settled : List (Nat × Nat)}

theorem Stored.ascending
    (h : Stored state settled) :
    (state.pages.map fun e => e.2.header.identifier).Pairwise (· < ·) := by
  rw [h.ids]
  exact List.pairwise_lt_range'

theorem Stored.eq_of_id_eq
    (h : Stored state settled)
    {e e' : Nat × PageView}
    (he : e ∈ state.pages)
    (he' : e' ∈ state.pages)
    (hid : e.2.header.identifier = e'.2.header.identifier) :
    e = e' :=
  List.inj_on_of_nodup_map (h.ascending.imp Nat.ne_of_lt) he he' hid

/-- A deletion in the log is about a value that is deleted. -/
theorem Stored.bit_of_logged
    (h : Stored state settled)
    {e : Nat × PageView}
    (he : e ∈ state.pages)
    {i : Nat}
    (hi : (e.2.header.identifier, i) ∈ state.deletions) :
    e.2.bit i = false := by
  obtain ⟨e', he', hid, hfalse⟩ := h.logged _ hi
  obtain rfl := h.eq_of_id_eq he' he hid
  rw [PageView.bit, List.getD_eq_getElem?_getD, hfalse]
  rfl

/-- Once all pages are clean, all deletions are settled. -/
theorem Stored.settle
    (h : Stored state settled)
    (hclean : ∀ e ∈ state.pages, e.2.dirty = false) :
    Stored state state.deletions :=
  { h with
    settles := fun _ hd => hd
    page := fun e he =>
      { h.page e he with
        file := by
          obtain ⟨file, q, hfile, hbacks⟩ := (h.page e he).file
          exact ⟨file, q, hfile, hbacks.settle (hclean e he) fun i => h.bit_of_logged he⟩ } }

/-- A page after the recovery, compared with the page before. -/
structure Recovered (state : IndexState) (settled : List (Nat × Nat)) (e : Nat × PageView)
    (r : Nat × IndexPage) : Prop where
  key : r.1 = e.1
  header : r.2.header = e.2.header
  offsets : r.2.offsets = e.2.offsets
  isSealed : r.2.isSealed = e.2.isSealed
  entries : r.2.entries = e.2.entries ++ List.replicate (padding e.2.entries.length) false
  file : ∃ file q, state.pageFiles e.2.header.identifier = some file ∧
    Backs state.deletions settled r.2.view file q

/-- A page from its file, as the recovery starts with it. -/
structure Opened (state : IndexState) (settled : List (Nat × Nat)) (e : Nat × PageView)
    (r : Nat × IndexPage) : Prop where
  key : r.1 = e.1
  logged : ∀ i, (e.2.header.identifier, i) ∈ state.deletions → e.2.bit i = false
  backed : ∃ file q, state.pageFiles e.2.header.identifier = some file ∧
    Backs state.deletions settled e.2 file q ∧ r.2 = { q with isSealed := e.2.isSealed }

theorem Opened.id
    {e : Nat × PageView} {r : Nat × IndexPage}
    (h : Opened state settled e r) :
    e.2.header.identifier = r.2.getIdentifier := by
  obtain ⟨file, q, -, hbacks, hr⟩ := h.backed
  rw [hr]
  exact congrArg IndexPageHeader.identifier hbacks.header.symm

theorem Opened.length_le
    {e : Nat × PageView} {r : Nat × IndexPage}
    (h : Opened state settled e r) :
    e.2.entries.length ≤ r.2.entries.length := by
  obtain ⟨file, q, -, hbacks, hr⟩ := h.backed
  rw [hr]
  exact hbacks.length ▸ Nat.le_add_right _ _

/-- The deletions behind the log offset are repeated. -/
theorem Opened.recovered
    {e : Nat × PageView} {r : Nat × IndexPage} {logOffset : Nat}
    (h : Opened state settled e r)
    (hsettled : ∀ d ∈ state.deletions.take logOffset, d ∈ settled) :
    Recovered state settled e (r.1, r.2.replayed (state.deletions.drop logOffset)) := by
  obtain ⟨file, q, hfile, hbacks, hr⟩ := h.backed
  have hshape := IndexPage.sameShape_replayed (state.deletions.drop logOffset) r.2
  rw [hr] at hshape ⊢
  exact ⟨h.key, hshape.header.trans hbacks.header, hshape.offsets.trans hbacks.offsets,
    hshape.isSealed, hbacks.entries_replayed hsettled h.logged e.2.isSealed, file, q, hfile,
    hbacks.recovered hsettled h.logged e.2.isSealed⟩

theorem openPages_spec
    {vlog : ValueLog} {views : List (Nat × PageView)}
    (hviews : ∀ e ∈ views, PageStored vlog.indexState settled e ∧
      ∀ i, (e.2.header.identifier, i) ∈ vlog.deletions → e.2.bit i = false) :
    ∃ pages, vlog.openPages (vlog.metadata.nextIndexPage - 1)
        (views.map fun e => e.2.header.identifier) = .value pages ∧
      List.Forall₂ (Opened vlog.indexState settled) views pages := by
  induction views with
  | nil =>
      exact ⟨[], rfl, List.Forall₂.nil⟩
  | cons e views ih =>
      obtain ⟨pages, hpages, hopened⟩ := ih fun e' he' => hviews e' (List.mem_cons_of_mem _ he')
      obtain ⟨hstored, hlogged⟩ := hviews e List.mem_cons_self
      obtain ⟨file, q, hfile, hbacks⟩ := hstored.file
      have hfile' : vlog.pageFiles e.2.header.identifier = some file := hfile
      have hsealed : decide (e.2.header.identifier < vlog.metadata.nextIndexPage - 1) =
          e.2.isSealed := hstored.isSealed.symm
      have hkey : q.header.startBatch = e.1 :=
        (congrArg IndexPageHeader.startBatch hbacks.header).trans hstored.key.symm
      refine ⟨(q.header.startBatch, { q with isSealed := e.2.isSealed }) :: pages, ?_,
        List.Forall₂.cons ⟨hkey, hlogged, file, q, hfile, hbacks, rfl⟩ hopened⟩
      have hpage : vlog.openPage e.2.header.identifier e.2.isSealed =
          .value { q with isSealed := e.2.isSealed } := by
        rw [ValueLog.openPage, hfile']
        exact hbacks.read e.2.isSealed
      rw [List.map_cons, ValueLog.openPages, hsealed, hpage, Outcome.value_bind, hpages,
        Outcome.value_bind]

/-- **A restart recovers every page.** -/
theorem Stored.reopen
    {vlog : ValueLog} {logOffset : Nat}
    (h : Stored vlog.indexState settled)
    (hsettled : ∀ d ∈ vlog.deletions.take logOffset, d ∈ settled) :
    ∃ pages, vlog.reopen logOffset = .value pages ∧
      List.Forall₂ (Recovered vlog.indexState settled) vlog.pages.views pages := by
  have hviews : ∀ e ∈ vlog.pages.views, PageStored vlog.indexState settled e ∧
      ∀ i, (e.2.header.identifier, i) ∈ vlog.deletions → e.2.bit i = false :=
    fun e he => ⟨h.page e he, fun i => h.bit_of_logged he⟩
  obtain ⟨pages, hopen, hopened⟩ := openPages_spec hviews
  have hindex : vlog.openIndex = .value pages := by
    have hmin : vlog.metadata.minimumIndexPage = 1 := h.minimum
    have hrange : (vlog.pages.views.map fun e => e.2.header.identifier) =
        List.range' 1 (vlog.metadata.nextIndexPage - 1) := h.ids
    rw [ValueLog.openIndex, hmin, Nat.add_sub_cancel, ← hrange]
    exact hopen
  have hascending : Pages.Ascending pages := by
    have hids := map_eq_of_forall₂ (fun _ _ hr => hr.id) hopened
    rw [Pages.Ascending, ← hids]
    exact h.ascending
  have hpages : ∀ d ∈ vlog.deletions.drop logOffset, ∃ r ∈ pages, r.2.getIdentifier = d.1 ∧
      d.2 < r.2.entries.length := by
    intro d hd
    obtain ⟨e, he, hid, hfalse⟩ := h.logged d (List.mem_of_mem_drop hd)
    obtain ⟨i, hi⟩ := List.getElem?_of_mem he
    obtain ⟨r, hr, hopened'⟩ := getElem?_of_forall₂ hopened hi
    exact ⟨r, List.mem_of_getElem? hr, hopened'.id.symm.trans hid,
      lt_of_lt_of_le (List.getElem?_eq_some_iff.mp hfalse).1 hopened'.length_le⟩
  refine ⟨_, ?_, List.forall₂_map_right_iff.mpr (hopened.imp fun e r hr => hr.recovered hsettled)⟩
  rw [ValueLog.reopen, hindex, Outcome.value_bind, Pages.replay_eq hascending hpages]
  rfl

/-- After a restart every batch has the same active values. -/
theorem Stored.getActiveEntries_recovered
    {vlog : ValueLog} {pages : Pages}
    (h : Stored vlog.indexState settled)
    (hrec : List.Forall₂ (Recovered vlog.indexState settled) vlog.pages.views pages)
    (batchId : Nat) :
    pages.getActiveEntries batchId = vlog.pages.getActiveEntries batchId := by
  have hkeys : vlog.pages.map Prod.fst = pages.map Prod.fst := by
    have hviews := map_eq_of_forall₂ (f := Prod.fst) (g := Prod.fst)
      (fun _ _ hr => hr.key.symm) hrec
    rw [← hviews, Pages.views, List.map_map]
    rfl
  unfold Pages.getActiveEntries Pages.findPageIdx
  rw [SortedAssoc.position_congr hkeys]
  split
  · rename_i idx hidx
    cases hpage : vlog.pages[idx]? with
    | none =>
        have hpage' : pages[idx]? = none := by
          have hlength := congrArg List.length hkeys
          rw [List.length_map, List.length_map] at hlength
          rw [List.getElem?_eq_none_iff] at hpage ⊢
          omega
        simp only [Pages.pageAt, hpage, hpage']
    | some entry =>
        obtain ⟨key, p⟩ := entry
        have hview : vlog.pages.views[idx]? = some (key, p.view) := by
          rw [Pages.views, List.getElem?_map, hpage]
          rfl
        obtain ⟨r, hr, hrecovered⟩ := getElem?_of_forall₂ hrec hview
        have hstored := h.page _ (List.mem_of_getElem? hview)
        simp only [Pages.pageAt, hpage, hr, Outcome.value_bind]
        exact getActiveEntries_padded hrecovered.header hrecovered.offsets hrecovered.entries
          hstored.offsets batchId
  · rfl

/-- One page changes, with its file and the deletions about it. -/
theorem Stored.replace
    {idx : Nat} {e e' : Nat × PageView} {files : Nat → Option PageFile}
    {deletions : List (Nat × Nat)}
    (h : Stored state settled)
    (hidx : state.pages[idx]? = some e)
    (hid : e'.2.header.identifier = e.2.header.identifier)
    (hfiles : ∀ id, id ≠ e.2.header.identifier → files id = state.pageFiles id)
    (hsub : ∀ d ∈ state.deletions, d ∈ deletions)
    (hsup : ∀ d ∈ deletions, d ∈ state.deletions ∨ d.1 = e.2.header.identifier)
    (hlogged : ∀ i, (e.2.header.identifier, i) ∈ deletions → e'.2.entries[i]? = some false)
    (hpage : PageStored { state with pageFiles := files, deletions := deletions } settled e') :
    Stored { state with
      pages := state.pages.set idx e', pageFiles := files, deletions := deletions } settled := by
  have he : e ∈ state.pages := List.mem_of_getElem? hidx
  have hlt : idx < state.pages.length := (List.getElem?_eq_some_iff.mp hidx).1
  have hother : ∀ e'' ∈ state.pages.set idx e', e'' = e' ∨
      e'' ∈ state.pages ∧ e''.2.header.identifier ≠ e.2.header.identifier := by
    intro e'' he''
    obtain ⟨j, hj⟩ := List.getElem?_of_mem he''
    rw [List.getElem?_set] at hj
    split_ifs at hj with hij
    · exact Or.inl (Option.some.inj hj).symm
    · refine Or.inr ⟨List.mem_of_getElem? hj, fun hsame => hij ?_⟩
      have hj' := hj
      rw [h.eq_of_id_eq (List.mem_of_getElem? hj) he hsame] at hj'
      have hnodup : state.pages.Nodup := List.Nodup.of_map _ (h.ascending.imp Nat.ne_of_lt)
      exact (List.getElem?_inj hlt hnodup).mp (hidx.trans hj'.symm)
  refine ⟨h.minimum, h.next, ?_, ?_, ?_, ?_, fun d hd => hsub d (h.settles d hd)⟩
  · change (state.pages.set idx e').map _ = _
    rw [← h.ids]
    apply List.ext_getElem?
    intro j
    rw [List.getElem?_map, List.getElem?_map, List.getElem?_set]
    split_ifs with hij
    · subst hij
      rw [hidx]
      exact congrArg some hid
    · rfl
  · intro e'' he''
    rcases hother e'' he'' with rfl | ⟨hmem, hne⟩
    · exact ⟨hpage.key, hpage.short, hpage.offsets, hpage.isSealed, hpage.file⟩
    · have hstored := h.page e'' hmem
      obtain ⟨file, q, hfile, hbacks⟩ := hstored.file
      exact ⟨hstored.key, hstored.short, hstored.offsets, hstored.isSealed, file, q,
        (hfiles _ hne).trans hfile, hbacks.mono_deletions hsub⟩
  · intro d hd
    by_cases hde : d.1 = e.2.header.identifier
    · refine ⟨e', List.mem_set hlt e', hid.trans hde.symm, hlogged d.2 ?_⟩
      rw [← hde]
      exact hd
    · rcases hsup d hd with hold | hnew
      · obtain ⟨e'', he'', hid'', hfalse⟩ := h.logged d hold
        have hne : e''.2.header.identifier ≠ e.2.header.identifier := by
          rw [hid'']
          exact hde
        obtain ⟨j, hj⟩ := List.getElem?_of_mem he''
        refine ⟨e'', ?_, hid'', hfalse⟩
        have hij : idx ≠ j := by
          rintro rfl
          rw [hidx] at hj
          cases hj
          exact hne rfl
        exact List.mem_of_getElem? ((List.getElem?_set_ne hij).trans hj)
      · exact absurd hnew hde
  · intro id hge
    have hlast : e.2.header.identifier ∈ List.range' 1 (state.nextIndexPage - 1) := by
      rw [← h.ids]
      exact List.mem_map_of_mem he
    have hnext := h.next
    rw [List.mem_range'_1] at hlast
    change state.nextIndexPage ≤ id at hge
    exact (hfiles id (by omega)).trans (h.fresh id hge)

end Invariant
end Values
end LsmStore
