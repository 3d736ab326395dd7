import Dserve.List
import Dserve.Util

/-!
`downloadmanager.c`: the memory of the controller process, the download threads
and the thread list.

`Mem` holds the objects the controller and the threads share. Entries and thread
records are addressed by allocation number. An entry is never freed (a cancelled
one is only unlinked from the queue); a record is, and using it afterwards is
undefined behaviour. The thread list stores data pointers: `none` is the `NULL`
that a failed start leaves in it.

The lists are any implementation of `ListApi`: the abstract sequences, or the
heap lists of `list.c`. The destination files are not part of the state, so that
`delete_file` and the bytes a transfer writes have no effect here.

`download_pause` and `download_cancel` are cut at the accesses a thread can see:
`setStatus` writes `PAUSED`, `finishStop` is the rest.
-/

namespace Dserve

abbrev EntryPtr := Nat
abbrev RecordPtr := Nat
abbrev Tid := Nat

/-- `download_thread_t`. `handle` is what the bytes of the record, which start with
the `pthread_t`, read as a C string. -/
structure DownloadThread where
  thread : Tid
  handle : CString
  entry : EntryPtr

/-- Where `download_file` is: before `open_file`, before the `STARTED` write,
inside `curl_easy_perform`, after it with its result. -/
inductive ThreadPc where
  | opening
  | opened
  | transferring
  | performed (ok : Bool)
deriving DecidableEq, Repr

/-- A live download thread. -/
structure Thread where
  tid : Tid
  entry : EntryPtr
  pc : ThreadPc
deriving DecidableEq, Repr

/-- The memory the controller and its threads share. `threads` are the live
threads; the other thread numbers below `nextThread` have ended. -/
structure Mem (L : Type → Type) where
  entry : EntryPtr → Entry
  nextEntry : EntryPtr
  downloadQueue : Option (L EntryPtr)
  record : RecordPtr → DownloadThread
  freed : RecordPtr → Bool
  nextRecord : RecordPtr
  threadList : Option (L (Option RecordPtr))
  threads : List Thread
  nextThread : Tid

/-- What the environment decides in one call of `download_start`: whether the
allocations succeed, and the bytes of the thread handle when `pthread_create`
does. -/
structure StartOutcome where
  listNew : Bool := true
  record : Bool := true
  create : Option CString := some []
  node : Bool := true
deriving DecidableEq, Repr

namespace Mem

variable {L : Type → Type} (m : Mem L)

def status (p : EntryPtr) : EntryStatus := (m.entry p).status

/-- `entry->id.name` -/
def name (p : EntryPtr) : CString := (m.entry p).id.name

def setEntry (p : EntryPtr) (e : Entry) : Mem L :=
  { m with entry := Function.update m.entry p e }

/-- `entry->status = s` -/
def setStatus (p : EntryPtr) (s : EntryStatus) : Mem L :=
  m.setEntry p { m.entry p with status := s }

/-- A thread moves on. -/
def setPc (tid : Tid) (pc : ThreadPc) : Mem L :=
  { m with threads := m.threads.map fun t => if t.tid = tid then { t with pc := pc } else t }

/-- A thread ends: it returned, or `pthread_cancel` stopped it. The cancellation is taken to
act at once; `Cancelled` has the machine in which the thread goes on until it does. -/
def endThread (tid : Tid) : Mem L :=
  { m with threads := m.threads.filter fun t => t.tid ≠ tid }

/-- A live thread works on the entry. -/
def Live (p : EntryPtr) : Prop := ∃ t ∈ m.threads, t.entry = p

instance (p : EntryPtr) : Decidable (m.Live p) := by unfold Live; infer_instance

section Lists

variable [ListApi L]

/-- `list_get_item`: a `NULL` list has no items. -/
def getItem {α : Type} (list : Option (L α)) (comparable : α → Option Bool) : Option (Option α) :=
  match list with
  | none => some none
  | some list => ListApi.getItem list comparable

/-- `download_thread_compare_id`: dereferences the record and its entry. -/
def downloadThreadCompareId (id : CString) : Option RecordPtr → Option Bool
  | none => none
  | some r => if m.freed r then none else some (decide (m.name (m.record r).entry = id))

/-- The record `list_get_item(thread_list, download_thread_compare_id, id)` finds. -/
def findRecord (id : CString) : Option (Option RecordPtr) :=
  (getItem m.threadList (m.downloadThreadCompareId id)).map Option.join

/-- `list_remove_item(thread_list, download_thread_compare_id, id)` -/
def removeRecord (id : CString) : Option (Bool × Mem L) :=
  match m.threadList with
  | none => some (false, m)
  | some list => (ListApi.removeItem list (m.downloadThreadCompareId id)).map
      fun r => (r.1, { m with threadList := some r.2 })

/-- The effect of a `pthread_create` that succeeds, with the record it fills. -/
def createThread (p : EntryPtr) (handle : CString) : Mem L :=
  { m with
    record := Function.update m.record m.nextRecord ⟨m.nextThread, handle, p⟩
    nextRecord := m.nextRecord + 1
    threads := m.threads ++ [⟨m.nextThread, p, .opening⟩]
    nextThread := m.nextThread + 1 }

/-- `new_download_thread`: a failed `pthread_create` frees the record again. -/
def newDownloadThread (p : EntryPtr) (o : StartOutcome) : Mem L × Option RecordPtr :=
  if o.record then
    match o.create with
    | none => (m, none)
    | some handle => (m.createThread p handle, some m.nextRecord)
  else (m, none)

/-- `download_start` -/
def downloadStart (p : EntryPtr) (o : StartOutcome) : Option (Mem L) :=
  match m.threadList <|> (if o.listNew then some ListApi.new else none) with
  | none => some m
  | some list =>
      let started := m.newDownloadThread p o
      -- after "The download did not start" the NULL is appended all the same
      (ListApi.append list o.node started.2).map fun list =>
        { started.1 with threadList := some list }

/-- What `download_pause` and `download_cancel` do with the record `r` once the
entry is marked: cancel the thread, remove the first record that compares equal
to `key`, free `r`. -/
def finishStop (r : RecordPtr) (key : CString) : Option (Bool × Mem L) :=
  ((m.endThread (m.record r).thread).removeRecord key).map fun ret =>
    (ret.1, { ret.2 with freed := Function.update ret.2.freed r true })

/-- `download_pause` -/
def downloadPause (id : CString) : Option (Bool × Mem L) :=
  match m.findRecord id with
  | none => none
  | some none => some (false, m)
  | some (some r) => (m.setStatus (m.record r).entry .paused).finishStop r (m.name (m.record r).entry)

/-- `download_cancel`. The key of the removal is the record itself, so that its
bytes are compared as if they were an id. -/
def downloadCancel (id : CString) : Option (Bool × Mem L) :=
  match m.findRecord id with
  | none => none
  | some none => some (false, m)
  | some (some r) => (m.setStatus (m.record r).entry .paused).finishStop r (m.record r).handle

end Lists

/-! ### Download threads -/

end Mem

/-- One atomic step of `download_file`, with what the environment decides:
`open_file` succeeds or not, the calls `curl_easy_perform` makes to
`progress_callback`, and its result. -/
inductive ThreadAction where
  | openFile (ok : Bool)
  | started
  | progress (dltotal dlnow : Decimal) (first second : Int)
  | perform (ok : Bool)
  | completed
deriving DecidableEq, Repr

namespace Mem

variable {L : Type → Type} (m : Mem L)

/-- The step of thread `t`. The outer `none` means that the action is not enabled,
the inner one that it is undefined behaviour. -/
def threadStep (t : Thread) : ThreadAction → Option (Option (Mem L))
  | .openFile ok =>
      if t.pc = .opening then
        -- `get_file_name` prints the name it takes from the URL
        match getNameFromUrl (m.entry t.entry).url with
        | none => some none
        | some _ => some (some (if ok then m.setPc t.tid .opened else m.endThread t.tid))
      else none
  | .started =>
      if t.pc = .opened then some (some ((m.setStatus t.entry .started).setPc t.tid .transferring))
      else none
  | .progress dltotal dlnow first second =>
      if t.pc = .transferring ∧ LongRange first ∧ LongRange second then
        let e := m.entry t.entry
        -- the numbers of a URL that does not fit are a part of its text
        if e.url.length < MAX_URL_LEN then
          some (some (m.setEntry t.entry
            { e with counters := progressCallback e.counters dltotal dlnow first second }))
        else some none
      else none
  | .perform ok =>
      if t.pc = .transferring then some (some (m.setPc t.tid (.performed ok))) else none
  | .completed =>
      match t.pc with
      | .performed _ =>
          -- `COMPLETED` is written whatever `curl_easy_perform` returned
          some (some ((m.setStatus t.entry .completed).endThread t.tid))
      | _ => none

/-- The thread with a given number, while it is live. -/
def thread? (tid : Tid) : Option Thread := m.threads.find? fun t => t.tid = tid

theorem thread?_eq_some {tid : Tid} {t : Thread} (h : m.thread? tid = some t) :
    t ∈ m.threads ∧ t.tid = tid := by
  refine ⟨List.mem_of_find?_eq_some h, ?_⟩
  simpa using List.find?_some h

/-- What the step of a thread does to the memory. -/
inductive ThreadMove (t : Thread) : ThreadAction → Mem L → Prop where
  | opened : t.pc = .opening → ThreadMove t (.openFile true) (m.setPc t.tid .opened)
  | openFailed : t.pc = .opening → ThreadMove t (.openFile false) (m.endThread t.tid)
  | started : t.pc = .opened →
      ThreadMove t .started ((m.setStatus t.entry .started).setPc t.tid .transferring)
  | progress {dltotal dlnow : Decimal} {first second : Int} : t.pc = .transferring →
      LongRange first → LongRange second → (m.entry t.entry).url.length < MAX_URL_LEN →
      ThreadMove t (.progress dltotal dlnow first second) (m.setEntry t.entry
        { m.entry t.entry with
          counters := progressCallback (m.entry t.entry).counters dltotal dlnow first second })
  | performed {ok : Bool} : t.pc = .transferring →
      ThreadMove t (.perform ok) (m.setPc t.tid (.performed ok))
  | completed {ok : Bool} : t.pc = .performed ok →
      ThreadMove t .completed ((m.setStatus t.entry .completed).endThread t.tid)

theorem threadStep_move {m m' : Mem L} {t : Thread} {a : ThreadAction}
    (h : m.threadStep t a = some (some m')) : m.ThreadMove t a m' := by
  cases a with
  | openFile ok =>
      simp only [threadStep] at h
      split at h
      · next pc =>
        split at h
        · cases h
        · cases h
          cases ok with
          | true => exact .opened pc
          | false => exact .openFailed pc
      · cases h
  | started =>
      simp only [threadStep] at h
      split at h
      · next pc => cases h; exact .started pc
      · cases h
  | progress dltotal dlnow first second =>
      simp only [threadStep] at h
      split at h
      · next enabled =>
        split at h
        · next fits => cases h; exact .progress enabled.1 enabled.2.1 enabled.2.2 fits
        · cases h
      · cases h
  | perform ok =>
      simp only [threadStep] at h
      split at h
      · next pc => cases h; exact .performed pc
      · cases h
  | completed =>
      simp only [threadStep] at h
      split at h
      · next pc => cases h; exact .completed pc
      · cases h

/-! ### What each update leaves unchanged -/

section Frame

variable {m} {p q : EntryPtr} {s : EntryStatus} {e : Entry} {tid : Tid} {pc : ThreadPc}

@[simp] theorem status_setStatus :
    (m.setStatus p s).status q = if q = p then s else m.status q := by
  by_cases h : q = p
  · subst h; simp [status, setStatus, setEntry]
  · simp [status, setStatus, setEntry, h]

@[simp] theorem name_setStatus : (m.setStatus p s).name q = m.name q := by
  by_cases h : q = p
  · subst h; simp [name, setStatus, setEntry]
  · simp [name, setStatus, setEntry, h]

@[simp] theorem url_setStatus : ((m.setStatus p s).entry q).url = (m.entry q).url := by
  by_cases h : q = p
  · subst h; simp [setStatus, setEntry]
  · simp [setStatus, setEntry, h]

@[simp] theorem setStatus_downloadQueue : (m.setStatus p s).downloadQueue = m.downloadQueue := rfl
@[simp] theorem setStatus_threadList : (m.setStatus p s).threadList = m.threadList := rfl
@[simp] theorem setStatus_threads : (m.setStatus p s).threads = m.threads := rfl
@[simp] theorem setStatus_record : (m.setStatus p s).record = m.record := rfl
@[simp] theorem setStatus_freed : (m.setStatus p s).freed = m.freed := rfl
@[simp] theorem setStatus_nextEntry : (m.setStatus p s).nextEntry = m.nextEntry := rfl
@[simp] theorem setStatus_nextRecord : (m.setStatus p s).nextRecord = m.nextRecord := rfl
@[simp] theorem setStatus_nextThread : (m.setStatus p s).nextThread = m.nextThread := rfl

@[simp] theorem setPc_entry : (m.setPc tid pc).entry = m.entry := rfl
@[simp] theorem endThread_entry : (m.endThread tid).entry = m.entry := rfl

theorem mem_setPc {t : Thread} (h : t ∈ (m.setPc tid pc).threads) :
    ∃ t' ∈ m.threads, t.tid = t'.tid ∧ t.entry = t'.entry ∧
      t.pc = if t'.tid = tid then pc else t'.pc := by
  obtain ⟨t', ht', rfl⟩ := List.mem_map.mp h
  refine ⟨t', ht', ?_, ?_, ?_⟩ <;> split <;> rfl

end Frame

/-! ### The contents of the two lists -/

section Contents

variable {L : Type → Type} [ListApi L] {m m' : Mem L}

/-- The data of a list that may be `NULL`. -/
def contents {α : Type} (list : Option (L α)) : List α := (list.map ListApi.toList).getD []

/-- The entries of the download queue; none when it cannot be traversed. -/
def queue (m : Mem L) : List EntryPtr := contents m.downloadQueue

/-- How many entries of the queue are `STARTED`. -/
def started (m : Mem L) : Nat := m.queue.countP fun p => decide (m.status p = .started)

/-- The data pointers of the thread list; none when it cannot be traversed. -/
def records (m : Mem L) : List (Option RecordPtr) := contents m.threadList

variable [LawfulListApi L]

/-- The lists are ones the list operations can build. -/
structure Wf (m : Mem L) : Prop where
  downloadQueue : ∀ list, m.downloadQueue = some list → LawfulListApi.Wf list
  threadList : ∀ list, m.threadList = some list → LawfulListApi.Wf list

/-- `list_get_item` on a list that may be `NULL`. -/
theorem getItem_contents {α : Type} {list : Option (L α)} {comparable : α → Option Bool}
    {found : Option α} (wf : ∀ l, list = some l → LawfulListApi.Wf l)
    (h : getItem list comparable = some found) :
    Sequence.getItem comparable (contents list) = some found := by
  cases list with
  | none => exact h
  | some l =>
      have law : ListApi.getItem l comparable = _ := LawfulListApi.getItem (wf l rfl)
      rw [show getItem (some l) comparable = ListApi.getItem l comparable from rfl, law] at h
      obtain ⟨xs, items, found⟩ := Option.bind_eq_some_iff.mp h
      simp [contents, ListApi.toList, items, found]

/-- The record that is found is in the list, it can be read, and it is a record of
an entry with the id. -/
theorem findRecord_some {id : CString} {r : RecordPtr} (wf : m.Wf)
    (h : m.findRecord id = some (some r)) :
    some r ∈ m.records ∧ m.freed r = false ∧ m.name (m.record r).entry = id := by
  obtain ⟨found, h, join⟩ := Option.map_eq_some_iff.mp h
  obtain rfl : found = some (some r) := by
    rcases found with _ | _ | r'
    · cases join
    · cases join
    · cases join; rfl
  obtain ⟨before, after, split, compare, -⟩ :=
    Sequence.getItem_eq_some (getItem_contents wf.threadList h)
  refine ⟨by rw [records, split]; simp, ?_⟩
  simp only [downloadThreadCompareId] at compare
  split at compare
  · cases compare
  · next live => exact ⟨by simpa using live, by simpa using compare⟩

/-- When no record is found, every record can be read and belongs to another id. -/
theorem findRecord_none {id : CString} (wf : m.Wf) (h : m.findRecord id = some none) :
    ∀ x ∈ m.records, ∃ r, x = some r ∧ m.freed r = false ∧ m.name (m.record r).entry ≠ id := by
  obtain ⟨found, h, join⟩ := Option.map_eq_some_iff.mp h
  have differ : ∀ x ∈ m.records, m.downloadThreadCompareId id x = some false := by
    rcases found with _ | _ | r'
    · exact Sequence.getItem_eq_none (getItem_contents wf.threadList h)
    · -- a `NULL` record cannot be the one that is found
      obtain ⟨before, after, -, compare, -⟩ :=
        Sequence.getItem_eq_some (getItem_contents wf.threadList h)
      cases compare
    · cases join
  intro x hx
  have compare := differ x hx
  cases x with
  | none => cases compare
  | some r =>
      simp only [downloadThreadCompareId] at compare
      split at compare
      · cases compare
      · next live => exact ⟨r, rfl, by simpa using live, by simpa using compare⟩

/-- `list_remove_item` on the thread list touches nothing else. -/
theorem removeRecord_spec {id : CString} {b : Bool} (wf : m.Wf) (h : m.removeRecord id = some (b, m')) :
    ∃ list, m' = { m with threadList := list } ∧ m'.Wf ∧ m'.records.Sublist m.records := by
  unfold removeRecord at h
  cases hl : m.threadList with
  | none =>
      simp only [hl, Option.some.injEq, Prod.mk.injEq] at h
      obtain ⟨-, rfl⟩ := h
      exact ⟨m.threadList, rfl, wf, List.Sublist.refl _⟩
  | some list =>
      simp only [hl] at h
      obtain ⟨⟨b', list'⟩, removed, eq⟩ := Option.map_eq_some_iff.mp h
      cases eq
      obtain ⟨wf', xs, ys, items, sequence, after⟩ :=
        LawfulListApi.removeItem (wf.threadList list hl) removed
      refine ⟨some list', rfl, ⟨wf.downloadQueue, ?_⟩, ?_⟩
      · intro l hl'
        cases hl'
        exact wf'
      · rcases after with after | ⟨-, after, -⟩
        · simpa [records, contents, ListApi.toList, hl, items, after] using
            Sequence.removeItem_sublist sequence
        · simp [records, contents, ListApi.toList, after]

/-- What `download_start` can do: nothing but add a `NULL` to the thread list, or
create a thread and add its record. -/
theorem downloadStart_spec {p : EntryPtr} {o : StartOutcome} (wf : m.Wf)
    (h : m.downloadStart p o = some m') :
    m'.Wf ∧ ∃ list,
      (m' = { m with threadList := list } ∧
        (m'.records = m.records ∨ m'.records = m.records ++ [none])) ∨
      (∃ handle, o.create = some handle ∧ m' = { m.createThread p handle with threadList := list } ∧
        m'.records = m.records ++ [some m.nextRecord]) := by
  unfold downloadStart at h
  cases hl : (m.threadList <|> (if o.listNew then some ListApi.new else none)) with
  | none =>
      simp only [hl, Option.some.injEq] at h
      subst h
      exact ⟨wf, m.threadList, Or.inl ⟨rfl, Or.inl rfl⟩⟩
  | some list =>
      simp only [hl] at h
      obtain ⟨list', appended, rfl⟩ := Option.map_eq_some_iff.mp h
      -- the list is the one there was, or a new one
      have before : LawfulListApi.Wf list ∧ ListApi.toList list = m.records := by
        cases ht : m.threadList with
        | some l =>
            obtain rfl : l = list := by simpa [ht] using hl
            exact ⟨wf.threadList l ht, by simp [records, contents, ht]⟩
        | none =>
            rw [ht] at hl
            simp only [HOrElse.hOrElse, OrElse.orElse, Option.orElse] at hl
            split at hl
            · cases hl
              refine ⟨LawfulListApi.wf_new, ?_⟩
              simp [records, contents, ht, ListApi.toList, LawfulListApi.items_new]
            · cases hl
      obtain ⟨wf', xs, items, items'⟩ := LawfulListApi.append before.1 appended
      have data : ListApi.toList list' = m.records ++ [(m.newDownloadThread p o).2] := by
        rw [← before.2]
        simp [ListApi.toList, items, items']
      unfold newDownloadThread at data ⊢
      cases record : o.record with
      | false =>
          simp only [record] at data ⊢
          exact ⟨⟨wf.downloadQueue, fun l hl => by cases hl; exact wf'⟩, some list',
            Or.inl ⟨rfl, Or.inr data⟩⟩
      | true =>
          cases create : o.create with
          | none =>
              simp only [record, create] at data ⊢
              exact ⟨⟨wf.downloadQueue, fun l hl => by cases hl; exact wf'⟩, some list',
                Or.inl ⟨rfl, Or.inr data⟩⟩
          | some handle =>
              simp only [record, create] at data ⊢
              exact ⟨⟨wf.downloadQueue, fun l hl => by cases hl; exact wf'⟩, some list',
                Or.inr ⟨handle, rfl, rfl, data⟩⟩

/-- What is left to do after the entry of a record is marked: end its thread, take
a record out of the list, free it. -/
theorem finishStop_spec {r : RecordPtr} {key : CString} {b : Bool} (wf : m.Wf)
    (h : m.finishStop r key = some (b, m')) :
    ∃ list, m' = { m.endThread (m.record r).thread with
        threadList := list, freed := Function.update m.freed r true } ∧ m'.Wf ∧
      m'.records.Sublist m.records := by
  obtain ⟨⟨b', m''⟩, removed, eq⟩ := Option.map_eq_some_iff.mp h
  cases eq
  have wf₁ : (m.endThread (m.record r).thread).Wf := ⟨wf.downloadQueue, wf.threadList⟩
  obtain ⟨list, rfl, wf', data⟩ := removeRecord_spec wf₁ removed
  exact ⟨list, rfl, ⟨wf'.downloadQueue, wf'.threadList⟩, data⟩

end Contents

end Mem

end Dserve
