import Dserve.Retention
import Dserve.Stop

/-!
`queue_save`, and `queue_load` after it.

The queue comes back from the index file exactly when it is not empty and can be
traversed, each entry has the id its URL ends in, without white space, and the thread
of each entry that is running can be looked up and stopped (`roundTrip_iff`). An empty
index file is read as one entry without a name (`roundTrip_empty`).
-/

namespace Dserve

/-- The entry as it is saved: what was running waits. -/
def Entry.saved (e : Entry) : Entry :=
  if e.status.Running then { e with status := .waiting } else e

/-- `queue_save`, then `queue_load` in a new controller: the same entries in the same
order, but that what was running waits. -/
def RoundTrip (m : Mem HeapList) : Prop :=
  ∃ m' text, m.queueSave = some (m', text) ∧
    queueLoad text = some (m.queue.map fun p => (m.entry p).saved)

/-- The downloads of the entries in `queue` can be stopped one after the other: each
record can be looked up, and none but the last is the first of the thread list. -/
structure Stoppable (m : Mem HeapList) (queue : List EntryPtr) : Prop where
  found : ∀ p ∈ queue, (m.status p).Running → m.findRecord (m.name p) ≠ none
  first : ∀ before p after r, queue = before ++ p :: after → (m.status p).Running →
    m.records.head? = some (some r) → m.name (m.record r).entry = m.name p →
    ∀ q ∈ after, ¬ (m.status q).Running

/-- No record is in the thread list twice. -/
def RecordsOnce (m : Mem HeapList) : Prop :=
  ∀ items, m.recordItems = some items → (items.filterMap id).Nodup

section

variable {m m' : Mem HeapList} {p : EntryPtr} {rest : List EntryPtr}

/-! ### One entry -/

theorem saved_storable (e : Entry) : Storable e.saved ↔ Storable e := by
  unfold Entry.saved
  split <;> exact Iff.rfl

/-- What `queue_save` has written of one entry, and the memory it goes on with. -/
structure Saves (p : EntryPtr) (rest : List EntryPtr) (m m' : Mem HeapList) : Prop where
  wf : m'.Wf
  name : ∀ q, m'.name q = m.name q
  entries : ∀ q ∈ rest, m'.entry q = m.entry q
  once : RecordsOnce m'
  stoppable : Stoppable m (p :: rest) ↔ Stoppable m' rest
  entry : m'.entry p = (m.entry p).saved

theorem stoppable_halted (halted : ¬ (m.status p).Running) :
    Stoppable m (p :: rest) ↔ Stoppable m rest := by
  constructor
  · intro stop
    refine ⟨fun q hq => stop.found q (List.mem_cons_of_mem _ hq), ?_⟩
    intro before q after r parts
    exact stop.first (p :: before) q after r (by rw [parts]; rfl)
  · intro stop
    constructor
    · intro q hq running
      rcases List.mem_cons.mp hq with rfl | hq
      · exact absurd running halted
      · exact stop.found q hq running
    · intro before q after r parts running
      cases before with
      | nil =>
          cases parts
          exact absurd running halted
      | cons x before =>
          cases parts
          exact stop.first before q after r rfl running

theorem stoppable_of_halted (halted : ∀ q ∈ rest, ¬ (m.status q).Running) : Stoppable m rest := by
  constructor
  · intro q hq running
    exact absurd running (halted q hq)
  · intro before q after r parts running
    exact absurd running (halted q (by rw [parts]; simp))

/-- What is left to stop after `p`, when its record can be looked up. -/
theorem stoppable_running (running : (m.status p).Running) (found : m.findRecord (m.name p) ≠ none) :
    Stoppable m (p :: rest) ↔ Stoppable m rest ∧
      ∀ r, m.records.head? = some (some r) → m.name (m.record r).entry = m.name p →
        ∀ q ∈ rest, ¬ (m.status q).Running := by
  constructor
  · intro stop
    refine ⟨⟨fun q hq => stop.found q (List.mem_cons_of_mem _ hq), ?_⟩, ?_⟩
    · intro before q after r parts
      exact stop.first (p :: before) q after r (by rw [parts]; rfl)
    · intro r head name
      exact stop.first [] p rest r rfl running head name
  · rintro ⟨stop, first⟩
    constructor
    · intro q hq running
      rcases List.mem_cons.mp hq with rfl | hq
      · exact found
      · exact stop.found q hq running
    · intro before q after r parts running head name
      cases before with
      | nil =>
          cases parts
          exact first r head name
      | cons x before =>
          cases parts
          exact stop.first before q after r rfl running head name

/-- The entries behind `p` are looked up and stopped in the same way afterwards. -/
theorem stoppable_congr (status : ∀ q ∈ rest, m'.status q = m.status q) (name : ∀ q, m'.name q = m.name q)
    (record : m'.record = m.record) (head : m'.records.head? = m.records.head?)
    (find : ∀ q ∈ rest, m'.findRecord (m.name q) = m.findRecord (m.name q)) :
    Stoppable m' rest ↔ Stoppable m rest := by
  constructor
  · intro stop
    constructor
    · intro q hq running
      have found := stop.found q hq (by rw [status q hq]; exact running)
      rwa [name, find q hq] at found
    · intro before q after r parts running headR same x hx
      have hq : q ∈ rest := by rw [parts]; simp
      have hx' : x ∈ rest := by rw [parts]; simp [hx]
      have halted := stop.first before q after r parts (by rw [status q hq]; exact running)
        (head.trans headR) (by rw [record, name, name]; exact same) x hx
      rwa [status x hx'] at halted
  · intro stop
    constructor
    · intro q hq running
      rw [name, find q hq]
      exact stop.found q hq (by rw [← status q hq]; exact running)
    · intro before q after r parts running headR same x hx
      have hq : q ∈ rest := by rw [parts]; simp
      have hx' : x ∈ rest := by rw [parts]; simp [hx]
      rw [status x hx']
      rw [record, name, name] at same
      exact stop.first before q after r parts (by rw [← status q hq]; exact running)
        (head.symm.trans headR) same x hx

/-- Writing the status of an entry that is not ahead. -/
theorem entry_setStatus_ne {q : EntryPtr} {s : EntryStatus} (other : q ≠ p) :
    (m.setStatus p s).entry q = m.entry q := by
  simp [Mem.setStatus, Mem.setEntry, other]

theorem findRecord_congr {id : CString} (wf : m.Wf) (wf' : m'.Wf) {items items' : List (Option RecordPtr)}
    (h : m.recordItems = some items) (h' : m'.recordItems = some items')
    (same : Sequence.getItem (m'.downloadThreadCompareId id) items' =
      Sequence.getItem (m.downloadThreadCompareId id) items) : m'.findRecord id = m.findRecord id := by
  rw [Mem.findRecord_eq wf, Mem.findRecord_eq wf', h, h']
  exact congrArg (Option.map Option.join) same

/-- The memory after a record was stopped and its entry reset. -/
theorem stopped_saves {r : RecordPtr} {before after : List (Option RecordPtr)}
    {list : HeapList (Option RecordPtr)} (once : RecordsOnce m)
    (names : ((p :: rest).map m.name).Nodup) (running : (m.status p).Running) (wf : m.Wf)
    (h : m.findRecord (m.name p) = some (some r))
    (items : m.recordItems = some (before ++ some r :: after))
    (differ : ∀ x ∈ before, m.downloadThreadCompareId (m.name p) x = some false)
    (wfList : LawfulListApi.Wf list)
    (items' : ListApi.items list = if before = [] then none else some (before ++ after)) :
    Saves p rest m (Mem.setStatus
      { (m.setStatus (m.record r).entry .paused).endThread (m.record r).thread with
        threadList := some list, freed := Function.update m.freed r true } p .waiting) := by
  obtain ⟨-, live, nameR⟩ := Mem.findRecord_some wf h
  have other : ∀ q ∈ rest, m.name q ≠ m.name p := by
    intro q hq same
    exact (List.nodup_cons.mp names).1 (same ▸ List.mem_map_of_mem hq)
  generalize result : (Mem.setStatus
      { (m.setStatus (m.record r).entry .paused).endThread (m.record r).thread with
        threadList := some list, freed := Function.update m.freed r true } p .waiting) = m'
  have record : m'.record = m.record := by rw [← result]; rfl
  have freed : m'.freed = Function.update m.freed r true := by rw [← result]; rfl
  have name : ∀ q, m'.name q = m.name q := by
    intro q
    rw [← result, Mem.name_setStatus]
    exact Mem.name_setStatus
  have entries : ∀ q ∈ rest, m'.entry q = m.entry q := by
    intro q hq
    rw [← result, entry_setStatus_ne fun same => other q hq (congrArg m.name same)]
    exact entry_setStatus_ne fun same => other q hq ((congrArg m.name same).trans nameR)
  have status : ∀ q ∈ rest, m'.status q = m.status q := fun q hq => congrArg Entry.status (entries q hq)
  have wf' : m'.Wf := by
    rw [← result]
    exact ⟨wf.1, fun l hl => by cases hl; exact wfList⟩
  have recordItems : m'.recordItems = if before = [] then none else some (before ++ after) := by
    rw [← items', ← result]
    rfl
  have absent : some r ∉ before ++ after := by
    have nodup := once _ items
    rw [List.filterMap_append, List.filterMap_cons_some (f := id) rfl, List.nodup_middle,
      ← List.filterMap_append] at nodup
    intro mem
    exact (List.nodup_cons.mp nodup).1 (List.mem_filterMap.mpr ⟨_, mem, rfl⟩)
  refine ⟨wf', name, entries, ?_, ?_, ?_⟩
  · intro left split
    rw [recordItems] at split
    split at split
    · cases split
    · cases split
      have sub : (before ++ after).Sublist (before ++ some r :: after) :=
        (List.sublist_cons_self _ _).append_left _
      exact (sub.filterMap id).nodup (once _ items)
  · rw [stoppable_running running (by rw [h]; simp)]
    by_cases first : before = []
    · subst first
      rw [if_pos rfl] at recordItems
      have lost : ∀ id, m'.findRecord id = none := by
        intro id
        rw [Mem.findRecord_eq wf', recordItems]
        rfl
      have head : m.records.head? = some (some r) := by
        rw [Mem.recordItems_eq items]
        rfl
      constructor
      · rintro ⟨-, halted⟩
        have halted := halted r head nameR
        exact stoppable_of_halted fun q hq => status q hq ▸ halted q hq
      · intro stop
        have halted : ∀ q ∈ rest, ¬ (m.status q).Running := by
          intro q hq running
          exact stop.found q hq (by rw [status q hq]; exact running) (lost _)
        exact ⟨stoppable_of_halted halted, fun _ _ _ => halted⟩
    · rw [if_neg first] at recordItems
      obtain ⟨x, xs, rfl⟩ := List.exists_cons_of_ne_nil first
      rw [stoppable_congr status name record ?_ ?_]
      · refine and_iff_left ?_
        intro r' head same
        -- the first record is one of those that were passed
        rw [Mem.recordItems_eq items] at head
        cases head
        have differs := differ (some r') List.mem_cons_self
        simp [Mem.downloadThreadCompareId, same] at differs
      · rw [Mem.recordItems_eq items, Mem.recordItems_eq recordItems]
        rfl
      · intro q hq
        refine findRecord_congr wf wf' items recordItems ?_
        have skip : m.downloadThreadCompareId (m.name q) (some r) = some false := by
          have differs : m.name (m.record r).entry ≠ m.name q := fun same =>
            other q hq (same.symm.trans nameR)
          simp [Mem.downloadThreadCompareId, live, differs]
        rw [Sequence.getItem_skip skip]
        refine Sequence.getItem_congr ?_
        rintro (_ | r') hr'
        · rfl
        · have differs : r' ≠ r := by
            rintro rfl
            exact absent hr'
          simp only [Mem.downloadThreadCompareId, freed, record, name, Function.update_of_ne differs]
  · rw [← result]
    unfold Entry.saved
    rw [if_pos (show (m.entry p).status.Running from running)]
    by_cases own : p = (m.record r).entry
    · simp [Mem.setStatus, Mem.setEntry, Mem.endThread, ← own]
    · simp [Mem.setStatus, Mem.setEntry, Mem.endThread, own]

/-- A running entry whose record can be looked up. -/
theorem stop_saves (wf : m.Wf) (once : RecordsOnce m) (names : ((p :: rest).map m.name).Nodup)
    (running : (m.status p).Running) (found : m.findRecord (m.name p) ≠ none) :
    ∃ m', ((m.downloadPause (m.name p)).map fun r => r.2.setStatus p .waiting) = some m' ∧
      Saves p rest m m' := by
  have differ : ∀ q ∈ rest, m.name q ≠ m.name p := by
    intro q hq same
    exact (List.nodup_cons.mp names).1 (same ▸ List.mem_map_of_mem hq)
  have savedP : (m.entry p).saved = { m.entry p with status := .waiting } := by
    unfold Entry.saved
    exact if_pos running
  obtain ⟨found', h⟩ := Option.ne_none_iff_exists'.mp found
  cases found' with
  | none =>
      refine ⟨m.setStatus p .waiting, by simp [Mem.downloadPause, h], ⟨wf.1, wf.2⟩,
        fun q => Mem.name_setStatus, ?_, once, ?_, ?_⟩
      · intro q hq
        exact entry_setStatus_ne fun same => differ q hq (congrArg m.name same)
      · rw [stoppable_running running found, stoppable_congr (m := m) ?_ (fun q => Mem.name_setStatus) rfl rfl ?_]
        · refine and_iff_left ?_
          intro r head name
          -- no record of the list belongs to the id
          obtain ⟨r', same, -, other⟩ := Mem.findRecord_none wf h _ (List.mem_of_head? head)
          cases same
          exact absurd name other
        · intro q hq
          rw [Mem.status_setStatus, if_neg fun same => differ q hq (congrArg m.name same)]
        · intro q hq
          have compare : (m.setStatus p .waiting).downloadThreadCompareId (m.name q) =
              m.downloadThreadCompareId (m.name q) :=
            Mem.compareId_congr rfl rfl fun q => Mem.name_setStatus
          unfold Mem.findRecord
          rw [compare]
          rfl
      · rw [savedP]
        simp [Mem.setStatus, Mem.setEntry]
  | some r =>
      obtain ⟨before, after, list, items, beforeDiffer, paused, wfList, items'⟩ :=
        Mem.downloadPause_found wf h
      exact ⟨_, by rw [paused]; rfl, stopped_saves once names running wf h items beforeDiffer wfList items'⟩

/-! ### The whole queue -/

/-- The line of an entry is written after its download was stopped. -/
theorem dataSave_saves (text : CString) (wf : m.Wf) (once : RecordsOnce m)
    (names : ((p :: rest).map m.name).Nodup)
    (found : (m.status p).Running → m.findRecord (m.name p) ≠ none) :
    ∃ m', Saves p rest m m' ∧ Mem.queueDataSave p (m, text) =
      (indexLine (m.entry p).saved).map fun line => (m', text ++ line) := by
  by_cases running : (m.status p).Running
  · obtain ⟨m', stopped, saves⟩ := stop_saves wf once names running (found running)
    refine ⟨m', saves, ?_⟩
    simp only [Mem.queueDataSave, if_pos running, stopped, Option.bind_some, saves.entry]
  · have same : (m.entry p).saved = m.entry p := if_neg running
    refine ⟨m, ⟨wf, fun _ => rfl, fun _ _ => rfl, once, stoppable_halted running, same.symm⟩, ?_⟩
    simp only [Mem.queueDataSave, if_neg running, Option.bind_some, same]

theorem dataSave_undefined {text : CString} (running : (m.status p).Running)
    (undefined : m.findRecord (m.name p) = none) : Mem.queueDataSave p (m, text) = none := by
  simp [Mem.queueDataSave, running, Mem.downloadPause, undefined]

/-- The loop of `queue_save`, when it comes to its end: all downloads could be stopped,
and the text is the lines of the entries. -/
theorem save_lines {m' : Mem HeapList} {text text' : CString} (wf : m.Wf) (once : RecordsOnce m)
    (names : (rest.map m.name).Nodup)
    (h : Sequence.forEach Mem.queueDataSave rest (m, text) = some (m', text')) :
    Stoppable m rest ∧ ∃ lines, text' = text ++ lines.flatten ∧
      List.Forall₂ (fun e line => indexLine e = some line)
        (rest.map fun p => (m.entry p).saved) lines := by
  induction rest generalizing m text with
  | nil =>
      cases h
      exact ⟨stoppable_of_halted (by simp), [], by simp, .nil⟩
  | cons p rest ih =>
      obtain ⟨s, first, h⟩ := Option.bind_eq_some_iff.mp h
      have found : (m.status p).Running → m.findRecord (m.name p) ≠ none := by
        intro running undefined
        rw [dataSave_undefined running undefined] at first
        cases first
      obtain ⟨m₁, saves, step⟩ := dataSave_saves text wf once names found
      rw [step] at first
      obtain ⟨line, written, rfl⟩ := Option.map_eq_some_iff.mp first
      have names' : (rest.map m₁.name).Nodup := by
        rw [funext saves.name]
        exact (List.nodup_cons.mp names).2
      obtain ⟨stop, lines, rfl, all⟩ := ih saves.wf saves.once names' h
      refine ⟨saves.stoppable.mpr stop, line :: lines, by simp, .cons written ?_⟩
      have same : (rest.map fun p => (m₁.entry p).saved) = rest.map fun p => (m.entry p).saved :=
        List.map_congr_left fun q hq => by rw [saves.entries q hq]
      rwa [same] at all

/-- The loop of `queue_save` comes to its end when all downloads can be stopped and
each entry has a line. -/
theorem save_total (text : CString) (wf : m.Wf) (once : RecordsOnce m)
    (names : (rest.map m.name).Nodup) (stop : Stoppable m rest)
    (lines : ∀ p ∈ rest, indexLine (m.entry p).saved ≠ none) :
    ∃ r, Sequence.forEach Mem.queueDataSave rest (m, text) = some r := by
  induction rest generalizing m text with
  | nil => exact ⟨_, rfl⟩
  | cons p rest ih =>
      obtain ⟨m₁, saves, step⟩ := dataSave_saves text wf once names
        (stop.found p List.mem_cons_self)
      obtain ⟨line, written⟩ := Option.ne_none_iff_exists'.mp (lines p List.mem_cons_self)
      have names' : (rest.map m₁.name).Nodup := by
        rw [funext saves.name]
        exact (List.nodup_cons.mp names).2
      simp only [Sequence.forEach, step, written, Option.map_some, Option.bind_some]
      refine ih _ saves.wf saves.once names' (saves.stoppable.mp stop) ?_
      intro q hq
      rw [saves.entries q hq]
      exact lines q (List.mem_cons_of_mem _ hq)

theorem queueSave_eq (wf : m.Wf) (nonempty : m.queue ≠ []) :
    m.queueSave = Sequence.forEach Mem.queueDataSave m.queue (m, []) := by
  unfold Mem.queueSave
  cases hq : m.downloadQueue with
  | none => exact absurd (by simp [Mem.queue, Mem.contents, hq]) nonempty
  | some list =>
      simp only [LawfulListApi.forEach (wf.downloadQueue list hq)]
      cases items : ListApi.items list with
      | none => exact absurd (by simp [Mem.queue, Mem.contents, hq, ListApi.toList, items]) nonempty
      | some xs =>
          have same : m.queue = xs := by simp [Mem.queue, Mem.contents, hq, ListApi.toList, items]
          rw [same]
          rfl

/-- A queue that is empty or lost does not come back. -/
theorem roundTrip_nonempty (wf : m.Wf) (trip : RoundTrip m) : m.queue ≠ [] := by
  obtain ⟨m', text, saved, loaded⟩ := trip
  intro empty
  rw [empty] at loaded
  suffices text = [] by
    rw [this, queueLoad_empty] at loaded
    cases loaded
  unfold Mem.queueSave at saved
  cases hq : m.downloadQueue with
  | none =>
      rw [hq] at saved
      cases saved
      rfl
  | some list =>
      simp only [hq, LawfulListApi.forEach (wf.downloadQueue list hq)] at saved
      obtain ⟨xs, items, saved⟩ := Option.bind_eq_some_iff.mp saved
      have same : m.queue = xs := by simp [Mem.queue, Mem.contents, hq, ListApi.toList, items]
      rw [← same, empty] at saved
      cases saved
      rfl

theorem saved_url {e : Entry} : e.saved.url = e.url := by
  unfold Entry.saved
  split <;> rfl

theorem saved_fits {e : Entry} (fits : Fits e) : Fits e.saved := by
  unfold Entry.saved
  split
  · exact ⟨fits.name, trivial, fits.start, fits.measured⟩
  · exact fits

theorem indexLine_storable {e : Entry} (storable : Storable e) : indexLine e ≠ none := by
  simp [indexLine, storable.1]

/-- Whether a queue comes back, for memory in which no two entries of the queue have
the same id and no record is listed twice. -/
theorem trip_iff (wf : m.Wf) (once : RecordsOnce m) (names : (m.queue.map m.name).Nodup)
    (fits : ∀ p ∈ m.queue, (m.entry p).Fitting) :
    RoundTrip m ↔ m.queue ≠ [] ∧ (∀ p ∈ m.queue, Storable (m.entry p)) ∧ Stoppable m m.queue := by
  have fits' : ∀ e ∈ m.queue.map fun p => (m.entry p).saved, e.Fitting := by
    intro e he urlFits
    obtain ⟨p, hp, rfl⟩ := List.mem_map.mp he
    exact saved_fits (fits p hp (saved_url ▸ urlFits))
  constructor
  · intro trip
    have nonempty := roundTrip_nonempty wf trip
    obtain ⟨m', text, saved, loaded⟩ := trip
    rw [queueSave_eq wf nonempty] at saved
    obtain ⟨stop, lines, rfl, written⟩ := save_lines wf once names saved
    rw [List.nil_append, queueLoad_lines written fits' (by simpa using nonempty)] at loaded
    refine ⟨nonempty, ?_, stop⟩
    intro p hp
    exact (saved_storable _).mp (loaded _ (List.mem_map_of_mem hp))
  · rintro ⟨nonempty, storable, stop⟩
    have lines : ∀ p ∈ m.queue, indexLine (m.entry p).saved ≠ none :=
      fun p hp => indexLine_storable ((saved_storable _).mpr (storable p hp))
    obtain ⟨⟨m', text⟩, saved⟩ := save_total [] wf once names stop lines
    refine ⟨m', text, by rw [queueSave_eq wf nonempty]; exact saved, ?_⟩
    obtain ⟨-, lines, rfl, written⟩ := save_lines wf once names saved
    rw [List.nil_append, queueLoad_lines written fits' (by simpa using nonempty)]
    intro e he
    obtain ⟨p, hp, rfl⟩ := List.mem_map.mp he
    exact (saved_storable _).mpr (storable p hp)

end

/-! ### The queues that can be reached -/

/-- What holds of the queue of a controller that found no index file. -/
structure Filed (v : View) : Prop where
  unloaded : ∀ entries, v.pc = .load entries ∨ v.pc = .loading entries → entries = []
  names : (v.mem.queue.map v.mem.name).Nodup
  fits : ∀ p ∈ v.mem.queue, (v.mem.entry p).Fitting
  once : (v.mem.records.filterMap id).Nodup

section

variable {dangles : Prop} {max : Nat} {v w : View}

/-- A status that is written has a name. -/
theorem step_named {a : Action} {p : EntryPtr} (step : View.Step dangles max v a w)
    (old : p < v.mem.nextEntry) (named : (v.mem.status p).Named) : (w.mem.status p).Named := by
  have status : ∀ (q : EntryPtr) (s : EntryStatus), s.Named →
      ((v.mem.setStatus q s).status p).Named := by
    intro q s hs
    rw [Mem.status_setStatus]
    split
    · exact hs
    · exact named
  cases step with
  | control move =>
      cases move with
      | push | added => rw [View.push_status old]; exact named
      | mark | stop | reset => exact status _ _ trivial
      | @assign k => exact status _ _ (by cases k <;> trivial)
      | _ => exact named
  | thread _ _ _ stepped =>
      rcases (Mem.threadStep_move stepped).statusCases with ⟨-, same⟩ | ⟨-, -, same⟩ | ⟨-, -, same, -⟩
      · simp only [same]
        exact named
      · simp only [same]
        split
        · trivial
        · exact named
      · simp only [same]
        split
        · trivial
        · exact named
  | _ => exact named

/-- A time that is written was read from the clock. -/
theorem step_times {a : Action} {p : EntryPtr} (step : View.Step dangles max v a w)
    (old : p < v.mem.nextEntry) (start : LongRange (v.mem.entry p).counters.time.start)
    (measured : LongRange (v.mem.entry p).counters.time.measured) :
    LongRange (w.mem.entry p).counters.time.start ∧
      LongRange (w.mem.entry p).counters.time.measured := by
  have status : ∀ (q : EntryPtr) (s : EntryStatus),
      ((v.mem.setStatus q s).entry p).counters = (v.mem.entry p).counters := by
    intro q s
    by_cases same : p = q
    · subst same
      simp [Mem.setStatus, Mem.setEntry]
    · simp [Mem.setStatus, Mem.setEntry, same]
  cases step with
  | control move =>
      cases move with
      | push | added => rw [View.push_entry old]; exact ⟨start, measured⟩
      | mark | assign | stop | reset => rw [status]; exact ⟨start, measured⟩
      | _ => exact ⟨start, measured⟩
  | thread _ _ _ stepped =>
      cases Mem.threadStep_move stepped with
      | progress _ hfirst hsecond =>
          simp only [Mem.setEntry, Function.update_apply]
          split
          · next same =>
            subst same
            exact progressCallback_time start measured hfirst hsecond
          · exact ⟨start, measured⟩
      | started | completed =>
          simp only [Mem.setPc_entry, Mem.endThread_entry, status]
          exact ⟨start, measured⟩
      | _ => exact ⟨start, measured⟩
  | _ => exact ⟨start, measured⟩

/-- An entry that fits goes on to do so. -/
theorem step_fits {a : Action} {p : EntryPtr} (step : View.Step dangles max v a w)
    (old : p < v.mem.nextEntry) (fits : (v.mem.entry p).Fitting) : (w.mem.entry p).Fitting := by
  intro urlFits
  obtain ⟨id, url⟩ := step_idUrl step old
  have fits := fits (url ▸ urlFits)
  obtain ⟨start, measured⟩ := step_times step old fits.start fits.measured
  exact ⟨by rw [id]; exact fits.name, step_named step old fits.status, start, measured⟩

/-- A new entry fits. -/
theorem target_fits {o : Overrun} {request : Transaction} {e : Entry}
    (target : entrySetTarget o entryNew request = some e) : e.Fitting := by
  intro urlFits
  obtain ⟨id, url, status, nameFits⟩ := entrySetTarget_spec target
  have zeros := entrySetTarget_counters target (url ▸ urlFits)
  exact ⟨id ▸ nameFits, status ▸ trivial, by rw [zeros]; decide, by rw [zeros]; decide⟩

theorem step_unloaded {a : Action} (step : View.Step dangles max v a w)
    (unloaded : ∀ entries, v.pc = .load entries ∨ v.pc = .loading entries → entries = []) :
    ∀ entries, w.pc = .load entries ∨ w.pc = .loading entries → entries = [] := by
  intro entries h
  have loaded : w.pc.Loaded → entries = [] := fun loaded => by
    rcases h with h | h
    · exact absurd h (loaded entries).1
    · exact absurd h (loaded entries).2
  by_cases before : v.pc.Loaded
  · exact loaded (step_loaded step before)
  · cases step with
    | control move =>
        cases move with
        | goto next =>
            cases next with
            | load pc =>
                rcases h with h | h <;> cases h
                exact unloaded _ (Or.inl pc)
            | leave _ _ _ after | missing _ _ after => cases after <;> simp at h
            | _ => simp at h
        | push pc => exact absurd (unloaded _ (Or.inr pc)) (List.cons_ne_nil _ _)
        | assign _ after | kill _ _ after => cases after <;> simp at h
        | _ => simp at h
    | thread => exact unloaded entries h
    | @request r => cases command : r.command <;> simp [Command.dispatch, command] at h
    | terminate _ _ ended => rcases ended with rfl | rfl <;> simp at h
    | threadCrash | save => simp at h

/-- No record is listed twice. -/
theorem step_once {a : Action} (sound : Sound v) (once : (v.mem.records.filterMap id).Nodup)
    (step : View.Step dangles max v a w) : (w.mem.records.filterMap id).Nodup := by
  cases step with
  | control move =>
      cases move with
      | notStarted _ records =>
          rw [Mem.records_eq rfl]
          rcases records with rfl | rfl
          · exact once
          · simpa using once
      | started handle h =>
          rw [Mem.records_eq rfl, List.filterMap_append, List.nodup_append]
          refine ⟨once, by simp, ?_⟩
          intro r hr r' hr'
          obtain ⟨x, hx, rfl⟩ := List.mem_filterMap.mp hr
          simp only [List.filterMap_cons, id, List.filterMap_nil, List.mem_singleton] at hr'
          rw [hr']
          exact Nat.ne_of_lt (sound.mem.listed r hx)
      | kill h sub =>
          rw [Mem.records_eq rfl]
          exact (sub.filterMap id).nodup once
      | _ => exact once
  | thread _ _ _ stepped =>
      have same := (Mem.threadStep_move stepped).frame.2.1
      simp only [Mem.records, same]
      exact once
  | _ => exact once

theorem step_filed {a : Action} (sound : Sound v) (inv : Filed v)
    (step : View.Step dangles max v a w) : Filed w := by
  have old : ∀ p ∈ v.mem.queue, w.mem.name p = v.mem.name p :=
    fun p hp => congrArg TrxId.name (step_idUrl step (sound.mem.queueBelow p hp)).1
  have fitsOld : ∀ p ∈ v.mem.queue, (w.mem.entry p).Fitting := fun p hp =>
    step_fits step (sound.mem.queueBelow p hp) (inv.fits p hp)
  have unloaded := step_unloaded step inv.unloaded
  have once := step_once sound inv.once step
  cases step_queue step with
  | same queue =>
      refine ⟨unloaded, ?_, by rw [queue]; exact fitsOld, once⟩
      rw [queue, List.map_congr_left old]
      exact inv.names
  | @appended e mem how =>
      obtain ⟨⟨_, target⟩, fresh⟩ := how.resolve_left fun ⟨entries, h⟩ =>
        List.cons_ne_nil _ _ (inv.unloaded _ (Or.inr h))
      obtain ⟨id, -⟩ := entrySetTarget_spec target
      have entry : w.mem.entry v.mem.nextEntry = e := by
        rw [mem]
        exact Function.update_self _ _ _
      have queue : w.mem.queue = v.mem.queue ++ [v.mem.nextEntry] := by rw [mem, View.push_queue]
      refine ⟨unloaded, ?_, ?_, once⟩
      · rw [queue, List.map_append, List.map_congr_left old, List.nodup_append]
        refine ⟨inv.names, by simp, ?_⟩
        intro name hname name' hname'
        obtain ⟨q, hq, rfl⟩ := List.mem_map.mp hname
        rw [List.map_singleton, List.mem_singleton, Mem.name, entry, id] at hname'
        rw [hname']
        exact fresh q hq
      · rw [queue]
        intro p hp
        rcases List.mem_append.mp hp with hp | hp
        · exact fitsOld p hp
        · rw [List.mem_singleton.mp hp, entry]
          exact target_fits target
  | @unlinked o p queue _ _ _ mem unlinked =>
      have sub : w.mem.queue.Sublist v.mem.queue := by
        rw [mem, Mem.queue_eq rfl]
        rcases unlinked with rfl | ⟨-, rfl, -⟩
        · exact List.eraseP_sublist
        · exact List.nil_sublist _
      refine ⟨unloaded, ?_, fun p hp => fitsOld p (sub.subset hp), once⟩
      rw [List.map_congr_left fun p hp => old p (sub.subset hp)]
      exact (sub.map _).nodup inv.names

/-- A queue that was built by requests comes back from the index file exactly when it is
not empty and not lost, each entry is storable, and the downloads of its running entries
can be stopped one after the other. -/
theorem roundTrip_iff {c : Config HeapList}
    (run : (controller HeapList max).Reachable (boot HeapList []) c) :
    RoundTrip c.mem ↔ c.mem.queue ≠ [] ∧ (∀ p ∈ c.mem.queue, Storable (c.mem.entry p)) ∧
      Stoppable c.mem c.mem.queue := by
  have start : Sound (boot HeapList []).view ∧ Filed (boot HeapList []).view := by
    refine ⟨boot_sound [], ?_, ?_, ?_, ?_⟩
    · rintro entries (h | h) <;> cases h
      rfl
    all_goals simp [Config.view, boot, Mem.abs, Mem.queue, Mem.records, Mem.contents, ListApi.toList]
  obtain ⟨wf, -, filed⟩ := reachable_invariant (I := fun v => Sound v ∧ Filed v)
    (boot_wf []) start (fun _ _ _ inv step => ⟨step_sound inv.1 step, step_filed inv.1 inv.2 step⟩) run
  refine trip_iff wf ?_ ?_ ?_
  · intro items traversed
    have once := filed.once
    rw [view_mem, Mem.abs_records, Mem.recordItems_eq traversed] at once
    exact once
  · have names := filed.names
    rw [view_mem, Mem.abs_queue] at names
    exact names
  · intro p hp
    exact filed.fits p (by rw [view_mem, Mem.abs_queue]; exact hp)

/-- `a` is downloaded and `b` waits: both come back. -/
theorem roundTrip_iff_run : ∃ c : Config HeapList,
    (controller HeapList 1).Reachable (boot HeapList []) c ∧
      (c.mem.queue = [0, 1] ∧ c.mem.status 0 = .started ∧ c.mem.status 1 = .waiting) ∧
      RoundTrip c.mem := by
  obtain ⟨c, run, queue, started, waiting, storable, found⟩ := Machine.exists_run_of_exec
    (controller HeapList 1) (fun _ _ => True) (boot HeapList [])
    (startUp ++ ask (download ['a'] ['x', '/', 'a']) 7 ++
      [.thread 0 (.openFile true), .thread 0 .started] ++ ask (download ['b'] ['x', '/', 'b']) 6)
    (fun c => c.mem.queue = [0, 1] ∧ c.mem.status 0 = .started ∧ c.mem.status 1 = .waiting ∧
      (∀ p ∈ c.mem.queue, Storable (c.mem.entry p)) ∧ c.mem.findRecord (c.mem.name 0) = some (some 0))
    (by decide)
  have halted : ¬ (c.mem.status 1).Running := by
    rw [waiting]
    decide
  refine ⟨c, run, ⟨queue, started, waiting⟩, (roundTrip_iff run).mpr ⟨by simp [queue], storable, ?_, ?_⟩⟩
  · intro p hp running
    rw [queue] at hp
    rcases List.mem_pair.mp hp with rfl | rfl
    · rw [found]
      simp
    · exact absurd running halted
  · intro before p after r parts _ _ _ q hq
    have behind : q ∈ [1] := by
      have all : 0 :: [1] = before ++ p :: after := queue.symm.trans parts
      cases before with
      | nil => cases all; exact hq
      | cons x before =>
          rw [(List.cons.inj all).2]
          simp [hq]
    rw [List.mem_singleton.mp behind]
    exact halted

/-- The empty queue does not come back. -/
theorem roundTrip_empty : ¬ ∀ (max : Nat) (c : Config HeapList),
    (controller HeapList max).Reachable (boot HeapList []) c → RoundTrip c.mem := by
  intro all
  obtain ⟨c, run, empty⟩ := Machine.exists_run_of_exec (controller HeapList 1) (fun _ _ => True)
    (boot HeapList []) startUp (fun c => c.mem.queue = []) (by decide)
  exact roundTrip_nonempty (reachable_invariant (I := fun _ => True) (boot_wf []) trivial
    (fun _ _ _ _ _ => trivial) run).1 (all 1 c run) empty

end

end Dserve
