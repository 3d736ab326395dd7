import Dserve.Download
import Dserve.Index

/-!
`queue.c`: the download queue and the requests on it.

Each request handler is a function on the memory of the controller, with the reply
it leaves in `response`; the environment decides which allocations succeed and
what an uninitialised variable holds. A result `none` is undefined behaviour.
These functions run to their end; the steps at which the download threads and a
signal can come between are those of the controller.

The mutex of `queue_add` is a local variable that nothing initialises; it excludes
nobody, and `Outcome.locks` says whether the two calls that lock it return.

`Mem.queue` and `Mem.records` are the abstract contents of the two lists. The
lemmas about the queue functions are stated in terms of them, for any lawful
implementation of the lists.
-/

namespace Dserve

/-- What the environment decides while the controller works: which calls succeed, what
the local variables hold that are not initialised (`result` of `queue_entry_exists`, and
the mutex of `queue_add`, by which its two `pthread_mutex_lock` return or do not), and
what `entry_set_target` writes over. -/
structure Outcome where
  queueNew : Bool := true
  result : Bool := false
  entryNew : Bool := true
  overrun : Overrun := {}
  locks : Bool := true
  node : Bool := true
  start : StartOutcome := {}
  send : Bool := true
  fopen : Bool := true
deriving DecidableEq, Repr

/-- The three ways the status of the entry a request names is treated. -/
inductive Choice where
  | stop
  | leave
  | assign
deriving DecidableEq, Repr

/-- The `switch` of `queue_pause`. -/
def pauseChoice : EntryStatus → Choice
  | .started => .stop
  | .cancelled => .leave
  | .completed => .leave
  | _ => .assign

/-- The `switch` of `queue_cancel`. -/
def cancelChoice : EntryStatus → Choice
  | .started => .stop
  | .cancelled => .leave
  | _ => .assign

/-- The `switch` of `queue_restart`. -/
def restartChoice : EntryStatus → Choice
  | .starting => .leave
  | .started => .leave
  | .cancelled => .leave
  | .completed => .leave
  | _ => .assign

/-! ### Replies -/

def reply (request : Transaction) (status : Status) (text : CString) : Transaction :=
  setTransaction request.command status request.id.name text

def notFoundReply (request : Transaction) : Transaction :=
  reply request .failure ("File ".toList ++ request.id.name ++ " does not exist in the queue".toList)

def pauseReply (request : Transaction) (ret : Bool) : Transaction :=
  if ret then reply request .success "Successfully paused download in the the queue".toList
  else reply request .success
    "Failed to pause the download in the the queue. Check the server logs".toList

def cancelReply (request : Transaction) (ret : Bool) : Transaction :=
  if ret then reply request .success "Successfully removed download from the the queue".toList
  else reply request .success
    "Failed to remove the download from the the queue. Check the server logs".toList

def restartReply (request : Transaction) : Transaction :=
  reply request .success
    "Success: your download will start as soon as there are slots available".toList

namespace Mem

variable {L : Type → Type} [ListApi L]

/-! ### The queue -/

/-- `queue_init` -/
def queueInit (listNew : Bool) (m : Mem L) : Mem L :=
  match m.downloadQueue with
  | some _ => m
  | none => if listNew then { m with downloadQueue := some ListApi.new } else m

/-- `list_get_item(download_queue, queue_compare_id, id)` -/
def findEntry (m : Mem L) (id : CString) : Option (Option EntryPtr) :=
  getItem m.downloadQueue fun p => some (decide (m.name p = id))

/-- `queue_entry_exists`: `result` is only assigned when an entry has the id. -/
def queueEntryExists (m : Mem L) (result : Bool) (id : CString) : Option Bool :=
  match m.downloadQueue with
  | none => some result
  | some list => ListApi.forEachCompare list true
      (fun p result => if m.name p = id then some (true, true) else some (false, result)) result

/-- `queue_count_started` -/
def queueCountStarted (m : Mem L) : Option Nat :=
  match m.downloadQueue with
  | none => some 0
  | some list => ListApi.forEachCompare list false
      (fun p count => some (false, if m.status p = .started then count + 1 else count)) 0

/-- `list_remove_item(download_queue, queue_compare_id, id)` -/
def removeEntry (m : Mem L) (id : CString) : Option (Bool × Mem L) :=
  match m.downloadQueue with
  | none => some (false, m)
  | some list => (ListApi.removeItem list fun p => some (decide (m.name p = id))).map
      fun r => (r.1, { m with downloadQueue := some r.2 })

/-- The entries a `list_for_each` on the queue visits. -/
def queueItems (m : Mem L) : Option (List EntryPtr) :=
  match m.downloadQueue with
  | none => some []
  | some list => ListApi.items list

/-- `queue_update` on one entry. -/
def queueUpdate (max : Nat) (starts : EntryPtr → StartOutcome) (p : EntryPtr) (m : Mem L) :
    Option (Mem L) :=
  match m.status p with
  | .waiting => m.queueCountStarted.bind fun count =>
      if count < max then (m.downloadStart p (starts p)).map fun m => m.setStatus p .starting
      else some m
  | _ => some m

/-- `list_for_each(download_queue, queue_update, NULL)` -/
def updateAll (max : Nat) (starts : EntryPtr → StartOutcome) (m : Mem L) : Option (Mem L) :=
  match m.downloadQueue with
  | none => some m
  | some list => ListApi.forEach list (queueUpdate max starts) m

/-! ### Requests -/

/-- An allocated entry, appended to the queue: `list_append(download_queue, entry)`. A
node that cannot be allocated is dereferenced before it is tested. -/
def queuePush (node : Bool) (entry : Entry) (m : Mem L) : Option (Mem L) :=
  m.downloadQueue.bind fun list => (ListApi.append list node m.nextEntry).map fun list =>
    { m with
      entry := Function.update m.entry m.nextEntry entry
      nextEntry := m.nextEntry + 1
      downloadQueue := some list }

/-- `queue_add_container` up to the traversal: the reply, and whether the entry was
appended. -/
def queueAppend (o : Outcome) (request : Transaction) (m : Mem L) :
    Option (Mem L × Transaction × Bool) :=
  let m := m.queueInit o.queueNew
  match m.downloadQueue with
  | none =>
      some (m, reply request .failure "Not enough memory to create a download queue".toList, false)
  | some _ =>
      (m.queueEntryExists o.result request.id.name).bind fun entryExists =>
        if entryExists then
          some (m, reply request .failure
            ("File ".toList ++ request.id.name ++ " already exists in the queue".toList), false)
        else if o.entryNew then
          (entrySetTarget o.overrun entryNew request).bind fun entry =>
            (m.queuePush o.node entry).map fun m =>
              (m, reply request .success "Successfully added the file to the download queue".toList,
                true)
        else
          some (m, reply request .failure
            "Not enough memory to create a new download entry".toList, false)

/-- `queue_add`. It locks its mutex before and after; a lock that does not return leaves
it without a result. -/
def queueAdd (max : Nat) (o : Outcome) (starts : EntryPtr → StartOutcome) (request : Transaction)
    (m : Mem L) : Option (Mem L × Transaction) :=
  if o.locks then
    (m.queueAppend o request).bind fun r =>
      if r.2.2 then (r.1.updateAll max starts).map fun m => (m, r.2.1) else some (r.1, r.2.1)
  else none

/-- `queue_pause` -/
def queuePause (request : Transaction) (m : Mem L) : Option (Mem L × Transaction) :=
  (m.findEntry request.id.name).bind fun
    | none => some (m, notFoundReply request)
    | some p =>
        match pauseChoice (m.status p) with
        | .stop => (m.downloadPause request.id.name).map fun r => (r.2, pauseReply request r.1)
        | .leave => some (m, pauseReply request true)
        | .assign => some (m.setStatus p .paused, pauseReply request true)

/-- `queue_cancel` -/
def queueCancel (request : Transaction) (m : Mem L) : Option (Mem L × Transaction) :=
  (m.findEntry request.id.name).bind fun
    | none => some (m, notFoundReply request)
    | some p =>
        let stopped : Option (Mem L) :=
          match cancelChoice (m.status p) with
          | .stop => (m.downloadCancel request.id.name).map Prod.snd
          | .leave => some m
          | .assign => some (m.setStatus p .paused)
        stopped.bind fun m =>
          (m.removeEntry request.id.name).map fun r => (r.2, cancelReply request r.1)

/-- `queue_restart`. The refusals the `switch` puts into the response are lost: it is
assigned again after the `switch`, and the traversal is made in every case. -/
def queueRestart (max : Nat) (starts : EntryPtr → StartOutcome) (request : Transaction)
    (m : Mem L) : Option (Mem L × Transaction) :=
  (m.findEntry request.id.name).bind fun
    | none => some (m, notFoundReply request)
    | some p =>
        let m :=
          match restartChoice (m.status p) with
          | .assign => m.setStatus p .waiting
          | _ => m
        (m.updateAll max starts).map fun m => (m, restartReply request)

/-- `queue_get_info`: the reply about one entry. -/
def queueGetInfo (m : Mem L) (p : EntryPtr) (response : Transaction) : Transaction :=
  setTransactionData response .status .processing (m.name p) (m.entry p)

/-- `queue_status`: the replies that are sent while the queue is traversed, and the
last one. -/
def queueStatus (queueNew : Bool) (request response : Transaction) (m : Mem L) :
    Option (Mem L × List Transaction × Transaction) :=
  let m := m.queueInit queueNew
  match m.downloadQueue with
  | none => some (m, [], reply request .failure "The queue is empty".toList)
  | some list =>
      (ListApi.forEach list (fun p (sent : List Transaction × Transaction) =>
        let response := m.queueGetInfo p sent.2
        some (sent.1 ++ [response], response)) ([], response)).map
        fun sent => (m, sent.1, reply request .success [])

/-- `queue_data_save` on one entry. -/
def queueDataSave (p : EntryPtr) (s : Mem L × CString) : Option (Mem L × CString) :=
  let stopped : Option (Mem L) :=
    if (s.1.status p).Running then
      (s.1.downloadPause (s.1.name p)).map fun r => r.2.setStatus p .waiting
    else some s.1
  stopped.bind fun m => (indexLine (m.entry p)).map fun line => (m, s.2 ++ line)

/-- `queue_save`, when the index file can be created. -/
def queueSave (m : Mem L) : Option (Mem L × CString) :=
  match m.downloadQueue with
  | none => some (m, [])
  | some list => ListApi.forEach list queueDataSave (m, [])

/-! ### What the queue functions compute -/

section Facts

variable [LawfulListApi L] {m m' : Mem L}

/-- The first entry with the id is found. -/
theorem findEntry_eq {id : CString} {found : Option EntryPtr} (wf : m.Wf)
    (h : m.findEntry id = some found) : found = m.queue.find? fun p => decide (m.name p = id) := by
  have sequence := getItem_contents wf.downloadQueue h
  rw [Sequence.getItem_total] at sequence
  exact (Option.some.inj sequence).symm

omit [LawfulListApi L] in
theorem queueItems_eq {items : List EntryPtr} (h : m.queueItems = some items) : items = m.queue := by
  unfold queueItems at h
  cases hq : m.downloadQueue with
  | none => simp_all [queue, contents]
  | some list =>
      simp only [hq] at h
      simp [queue, contents, hq, ListApi.toList, h]

/-- A pass over the queue is made on the entries it has at the beginning. -/
theorem updateAll_eq {max : Nat} {starts : EntryPtr → StartOutcome} (wf : m.Wf) :
    m.updateAll max starts =
      m.queueItems.bind fun xs => Sequence.forEach (queueUpdate max starts) xs m := by
  unfold updateAll queueItems
  cases hq : m.downloadQueue with
  | none => rfl
  | some list => exact LawfulListApi.forEach (wf.downloadQueue list hq)

theorem forEachCompare_contents {σ : Type} {list : L EntryPtr} {uniqueness : Bool}
    {comparable : EntryPtr → σ → Option (Bool × σ)} {result result' : σ} (wf : m.Wf)
    (hq : m.downloadQueue = some list)
    (h : ListApi.forEachCompare list uniqueness comparable result = some result') :
    Sequence.forEachCompare uniqueness comparable m.queue result = some result' := by
  rw [LawfulListApi.forEachCompare (wf.downloadQueue list hq)] at h
  obtain ⟨xs, items, h⟩ := Option.bind_eq_some_iff.mp h
  simpa [queue, contents, hq, ListApi.toList, items] using h

omit [ListApi L] [LawfulListApi L] in
theorem countStarted_sequence (m : Mem L) (xs : List EntryPtr) (k : Nat) :
    Sequence.forEachCompare false
      (fun p count => some (false, if m.status p = .started then count + 1 else count)) xs k =
        some (k + xs.countP fun p => decide (m.status p = .started)) := by
  induction xs generalizing k with
  | nil => rfl
  | cons x xs ih =>
      by_cases hx : m.status x = .started
      · simp [Sequence.forEachCompare, hx, ih]; omega
      · simp [Sequence.forEachCompare, hx, ih]

/-- The number of `STARTED` entries. -/
theorem queueCountStarted_eq {n : Nat} (wf : m.Wf) (h : m.queueCountStarted = some n) :
    n = m.started := by
  unfold queueCountStarted at h
  cases hq : m.downloadQueue with
  | none =>
      simp only [hq, Option.some.injEq] at h
      simp [started, queue, contents, hq, ← h]
  | some list =>
      simp only [hq] at h
      have sequence := forEachCompare_contents wf hq h
      rw [countStarted_sequence] at sequence
      simpa [started] using (Option.some.inj sequence).symm

theorem queueCountStarted_total (wf : m.Wf) (traversed : m.queueItems ≠ none) :
    m.queueCountStarted = some m.started := by
  suffices ∃ n, m.queueCountStarted = some n by
    obtain ⟨n, h⟩ := this
    rw [h, queueCountStarted_eq wf h]
  unfold queueItems at traversed
  unfold queueCountStarted
  cases hq : m.downloadQueue with
  | none => exact ⟨0, rfl⟩
  | some list =>
      simp only [hq] at traversed
      obtain ⟨xs, items⟩ := Option.ne_none_iff_exists'.mp traversed
      simp only [LawfulListApi.forEachCompare (wf.downloadQueue list hq), items, Option.bind_some,
        countStarted_sequence]
      exact ⟨_, rfl⟩

/-- When no entry is reported to exist, none has the id. -/
theorem queueEntryExists_false {result : Bool} {id : CString} (wf : m.Wf)
    (h : m.queueEntryExists result id = some false) : ∀ p ∈ m.queue, m.name p ≠ id := by
  have scan : ∀ (xs : List EntryPtr), Sequence.forEachCompare true
      (fun p result => if m.name p = id then some (true, true) else some (false, result)) xs result =
        some false → ∀ p ∈ xs, m.name p ≠ id := by
    intro xs
    induction xs with
    | nil => intro _ p hp; cases hp
    | cons x xs ih =>
        intro found p hp
        by_cases hx : m.name x = id
        · simp [Sequence.forEachCompare, hx] at found
        · simp only [Sequence.forEachCompare, if_neg hx, Bool.false_eq_true, false_and, if_false]
            at found
          rcases List.mem_cons.mp hp with rfl | hp
          · exact hx
          · exact ih found p hp
  unfold queueEntryExists at h
  cases hq : m.downloadQueue with
  | none => simp [queue, contents, hq]
  | some list =>
      simp only [hq] at h
      exact scan _ (forEachCompare_contents wf hq h)

theorem queueInit_spec (listNew : Bool) (wf : m.Wf) :
    ∃ list, m.queueInit listNew = { m with downloadQueue := list } ∧
      (m.queueInit listNew).Wf ∧ (m.queueInit listNew).queue = m.queue := by
  unfold queueInit
  cases hq : m.downloadQueue with
  | some list => exact ⟨some list, by simp [← hq], wf, rfl⟩
  | none =>
      cases listNew with
      | false => exact ⟨none, by simp [← hq], wf, rfl⟩
      | true =>
          refine ⟨some ListApi.new, rfl, ⟨?_, wf.threadList⟩, ?_⟩
          · intro l hl
            cases hl
            exact LawfulListApi.wf_new
          · simp [queue, contents, hq, ListApi.toList, LawfulListApi.items_new]

/-- The memory after an entry was appended. -/
theorem queuePush_spec {node : Bool} {entry : Entry} (wf : m.Wf)
    (h : m.queuePush node entry = some m') :
    ∃ list, m' = { m with
          entry := Function.update m.entry m.nextEntry entry
          nextEntry := m.nextEntry + 1
          downloadQueue := list } ∧ m'.Wf ∧ m'.queue = m.queue ++ [m.nextEntry] := by
  obtain ⟨l, hq, h⟩ := Option.bind_eq_some_iff.mp h
  obtain ⟨l', appended, rfl⟩ := Option.map_eq_some_iff.mp h
  obtain ⟨wfL, xs, items, items'⟩ := LawfulListApi.append (wf.downloadQueue l hq) appended
  refine ⟨some l', rfl, ⟨?_, wf.threadList⟩, ?_⟩
  · intro k hk
    cases hk
    exact wfL
  · simp [queue, contents, hq, ListApi.toList, items, items']

/-- The two outcomes of a `DOWNLOAD` before the traversal: nothing is changed and
the reply is `FAILURE`, or an entry is appended, `WAITING` and with an id no other
entry has, and the reply is `SUCCESS`. -/
theorem queueAppend_spec {o : Outcome} {request response : Transaction} {added : Bool} (wf : m.Wf)
    (h : m.queueAppend o request = some (m', response, added)) :
    ∃ list, m'.Wf ∧
      ((added = false ∧ response.status = .failure ∧ m' = { m with downloadQueue := list } ∧
        m'.queue = m.queue) ∨
      (added = true ∧ response.status = .success ∧ ∃ entry,
        entrySetTarget o.overrun entryNew request = some entry ∧
        m' = { m with
          entry := Function.update m.entry m.nextEntry entry
          nextEntry := m.nextEntry + 1
          downloadQueue := list } ∧
        m'.queue = m.queue ++ [m.nextEntry] ∧ ∀ p ∈ m.queue, m.name p ≠ request.id.name)) := by
  obtain ⟨list, init, wfInit, queueInit⟩ := queueInit_spec o.queueNew wf
  simp only [queueAppend] at h
  cases hq : (m.queueInit o.queueNew).downloadQueue with
  | none =>
      simp only [hq, Option.some.injEq, Prod.mk.injEq] at h
      obtain ⟨rfl, rfl, rfl⟩ := h
      exact ⟨list, wfInit, Or.inl ⟨rfl, rfl, init, queueInit⟩⟩
  | some l =>
      simp only [hq] at h
      obtain ⟨entryExists, looked, h⟩ := Option.bind_eq_some_iff.mp h
      cases entryExists with
      | true =>
          simp only [if_true, Option.some.injEq, Prod.mk.injEq] at h
          obtain ⟨rfl, rfl, rfl⟩ := h
          exact ⟨list, wfInit, Or.inl ⟨rfl, rfl, init, queueInit⟩⟩
      | false =>
          simp only [Bool.false_eq_true, if_false] at h
          split at h
          · obtain ⟨entry, target, h⟩ := Option.bind_eq_some_iff.mp h
            obtain ⟨m'', pushed, eq⟩ := Option.map_eq_some_iff.mp h
            cases eq
            obtain ⟨list', rfl, wf', queue'⟩ := queuePush_spec wfInit pushed
            refine ⟨list', wf', Or.inr ⟨rfl, rfl, entry, target, by rw [init], ?_, ?_⟩⟩
            · rw [queue', queueInit, init]
            · intro p hp
              have differ := queueEntryExists_false wfInit looked p (queueInit ▸ hp)
              rw [init] at differ
              exact differ
          · simp only [Option.some.injEq, Prod.mk.injEq] at h
            obtain ⟨rfl, rfl, rfl⟩ := h
            exact ⟨list, wfInit, Or.inl ⟨rfl, rfl, init, queueInit⟩⟩

/-- `list_remove_item` on the queue touches nothing else. -/
theorem removeEntry_spec {id : CString} {b : Bool} (wf : m.Wf) (h : m.removeEntry id = some (b, m')) :
    ∃ list, m' = { m with downloadQueue := list } ∧ m'.Wf ∧
      (m'.queue = (m.queue.eraseP fun p => decide (m.name p = id)) ∨
        LawfulListApi.Dangles L ∧ m'.queue = [] ∧ ∃ p ∈ m.queue.head?, m.name p = id) := by
  unfold removeEntry at h
  cases hq : m.downloadQueue with
  | none =>
      simp only [hq, Option.some.injEq, Prod.mk.injEq] at h
      obtain ⟨-, rfl⟩ := h
      exact ⟨m.downloadQueue, rfl, wf, Or.inl (by simp [queue, contents, hq])⟩
  | some list =>
      simp only [hq] at h
      obtain ⟨⟨b', list'⟩, removed, eq⟩ := Option.map_eq_some_iff.mp h
      cases eq
      obtain ⟨wf', xs, ys, items, sequence, after⟩ :=
        LawfulListApi.removeItem (wf.downloadQueue list hq) removed
      rw [Sequence.removeItem_total] at sequence
      cases sequence
      refine ⟨some list', rfl, ⟨?_, wf.threadList⟩, ?_⟩
      · intro l hl
        cases hl
        exact wf'
      · rcases after with after | ⟨dangles, after, p, first, same⟩
        · left
          simp [queue, contents, ListApi.toList, hq, items, after]
        · right
          refine ⟨dangles, by simp [queue, contents, ListApi.toList, after], p, ?_, by simpa using same⟩
          simpa [queue, contents, ListApi.toList, hq, items] using first

end Facts

end Mem

end Dserve
