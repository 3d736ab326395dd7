import Dserve.Queue

/-!
`download_pause` on the lists of `list.c`.

When the record of the download is found, it is taken out of the thread list and
freed; when it is the first of the list, the list is lost. `list_get_item` is undefined
behaviour as soon as it meets a `NULL` or a freed record.
-/

namespace Dserve

/-- The data pointers of the thread list, when it can be traversed. -/
def Mem.recordItems {L : Type → Type} [ListApi L] (m : Mem L) : Option (List (Option RecordPtr)) :=
  match m.threadList with
  | none => some []
  | some list => ListApi.items list

theorem Mem.recordItems_eq {L : Type → Type} [ListApi L] {m : Mem L} {items : List (Option RecordPtr)}
    (h : m.recordItems = some items) : m.records = items := by
  unfold recordItems at h
  unfold records contents
  cases hl : m.threadList with
  | none =>
      rw [hl] at h
      simpa using h
  | some list =>
      rw [hl] at h
      simp [ListApi.toList, h]

namespace Sequence

/-- An element that does not satisfy the comparison may as well not be there. -/
theorem getItem_skip {α : Type} {comparable : α → Option Bool} {before after : List α} {x : α}
    (h : comparable x = some false) :
    getItem comparable (before ++ x :: after) = getItem comparable (before ++ after) := by
  induction before with
  | nil => simp [getItem, h]
  | cons y ys ih =>
      simp only [List.cons_append, getItem]
      rw [ih]

theorem getItem_congr {α : Type} {compare compare' : α → Option Bool} {xs : List α}
    (h : ∀ x ∈ xs, compare x = compare' x) : getItem compare xs = getItem compare' xs := by
  induction xs with
  | nil => rfl
  | cons x xs ih =>
      simp only [getItem, h x List.mem_cons_self]
      rw [ih fun y hy => h y (List.mem_cons_of_mem _ hy)]

end Sequence

namespace Mem

variable {m m' : Mem HeapList} {id : CString} {r : RecordPtr}

/-- The comparison reads the names and the records only. -/
theorem compareId_congr (freed : m'.freed = m.freed) (record : m'.record = m.record)
    (name : ∀ p, m'.name p = m.name p) :
    m'.downloadThreadCompareId id = m.downloadThreadCompareId id := by
  funext x
  cases x with
  | none => rfl
  | some r => simp only [downloadThreadCompareId, freed, record, name]

/-- Looking a record up is looking through what the thread list holds. -/
theorem findRecord_eq (wf : m.Wf) : m.findRecord id =
    (m.recordItems.bind (Sequence.getItem (m.downloadThreadCompareId id))).map Option.join := by
  unfold findRecord getItem recordItems
  cases h : m.threadList with
  | none => rfl
  | some list => simp only [LawfulListApi.getItem (wf.threadList list h)]

/-- The place of the record that is found. -/
theorem findRecord_found (wf : m.Wf) (h : m.findRecord id = some (some r)) :
    ∃ before after, m.recordItems = some (before ++ some r :: after) ∧
      (∀ x ∈ before, m.downloadThreadCompareId id x = some false) ∧
      m.downloadThreadCompareId id (some r) = some true := by
  rw [findRecord_eq wf] at h
  obtain ⟨found, h, join⟩ := Option.map_eq_some_iff.mp h
  obtain ⟨items, traversed, h⟩ := Option.bind_eq_some_iff.mp h
  obtain rfl : found = some (some r) := by
    rcases found with _ | _ | r'
    · cases join
    · cases join
    · cases join; rfl
  obtain ⟨before, after, rfl, compare, differ⟩ := Sequence.getItem_eq_some h
  exact ⟨before, after, traversed, differ, compare⟩

/-- `list_remove_item` takes the record out that is found; a list that loses its first
record is lost. -/
theorem removeRecord_found (wf : m.Wf) {before after : List (Option RecordPtr)}
    (items : m.recordItems = some (before ++ some r :: after))
    (differ : ∀ x ∈ before, m.downloadThreadCompareId id x = some false)
    (same : m.downloadThreadCompareId id (some r) = some true) :
    ∃ list, m.removeRecord id = some (true, { m with threadList := some list }) ∧
      LawfulListApi.Wf list ∧
      ListApi.items list = if before = [] then none else some (before ++ after) := by
  unfold recordItems at items
  unfold removeRecord
  cases hl : m.threadList with
  | none => simp [hl] at items
  | some list =>
      simp only [hl] at items
      obtain ⟨list', removed, wf', items'⟩ :=
        HeapList.Wf.removeItem_found (wf.threadList list hl) items differ same
      exact ⟨list', by simp [removed], wf', items'⟩

/-- When no record is found, none is taken out. -/
theorem removeRecord_none {b : Bool} (wf : m.Wf) (looked : m.findRecord id = some none)
    (removed : m.removeRecord id = some (b, m')) : m'.records = m.records := by
  have differ : ∀ x ∈ m.records, m.downloadThreadCompareId id x = some false := by
    intro x hx
    obtain ⟨r, rfl, live, other⟩ := findRecord_none wf looked x hx
    simp [downloadThreadCompareId, live, other]
  unfold removeRecord at removed
  cases hl : m.threadList with
  | none =>
      simp only [hl, Option.some.injEq, Prod.mk.injEq] at removed
      rw [← removed.2]
  | some list =>
      simp only [hl] at removed
      obtain ⟨⟨b', list'⟩, taken, eq⟩ := Option.map_eq_some_iff.mp removed
      cases eq
      obtain ⟨-, xs, ys, items, sequence, after⟩ := LawfulListApi.removeItem (wf.threadList list hl) taken
      have records : m.records = xs := by simp [records, contents, hl, ListApi.toList, items]
      rw [records] at differ ⊢
      rw [Sequence.removeItem_none differ] at sequence
      cases sequence
      rcases after with after | ⟨-, -, x, head, same⟩
      · simp [Mem.records, contents, ListApi.toList, after]
      · rw [differ x (List.mem_of_mem_head? head)] at same
        cases same

/-- A record that is found is stopped: its entry is `PAUSED`, its thread is ended, it is
freed and taken out of the list. A list that loses its first record is lost. -/
theorem downloadPause_found (wf : m.Wf) (h : m.findRecord id = some (some r)) :
    ∃ before after list, m.recordItems = some (before ++ some r :: after) ∧
      (∀ x ∈ before, m.downloadThreadCompareId id x = some false) ∧
      m.downloadPause id = some (true,
        { (m.setStatus (m.record r).entry .paused).endThread (m.record r).thread with
          threadList := some list, freed := Function.update m.freed r true }) ∧
      LawfulListApi.Wf list ∧
      ListApi.items list = if before = [] then none else some (before ++ after) := by
  obtain ⟨before, after, items, differ, same⟩ := findRecord_found wf h
  obtain ⟨-, -, name⟩ := findRecord_some wf h
  have compare : ((m.setStatus (m.record r).entry .paused).endThread
      (m.record r).thread).downloadThreadCompareId id = m.downloadThreadCompareId id :=
    compareId_congr rfl rfl fun p => name_setStatus
  have wf' : ((m.setStatus (m.record r).entry .paused).endThread (m.record r).thread).Wf := ⟨wf.1, wf.2⟩
  rw [← compare] at differ same
  obtain ⟨list, removed, wfList, items'⟩ := removeRecord_found wf' items differ same
  rw [compare] at differ
  refine ⟨before, after, list, items, differ, ?_, wfList, items'⟩
  simp only [downloadPause, h, finishStop, setStatus_record, name, removed, Option.map_some]
  rfl

end Mem

end Dserve
