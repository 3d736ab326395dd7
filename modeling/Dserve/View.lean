import Dserve.Controller

/-!
The abstract view of the controller.

`View` is the controller with plain sequences for its two lists. `Move` lists what
a step of the controller does to it, one constructor for each write, and `Goto` the
steps that only read. A step that is undefined behaviour leaves the memory as it
was.

`step_view` is the simulation: on any lawful lists each step of the controller is a
`View.Step`. `view_invariant` is the rule the safety proofs use: an invariant of the
view, kept by each step of the view that meets the condition, holds along every run
of the controller.
-/

namespace Dserve

namespace Mem

variable {L : Type → Type} [ListApi L]

/-- The memory with the contents of the lists in place of the lists. -/
def abs (m : Mem L) : Mem List where
  entry := m.entry
  nextEntry := m.nextEntry
  downloadQueue := some m.queue
  record := m.record
  freed := m.freed
  nextRecord := m.nextRecord
  threadList := some m.records
  threads := m.threads
  nextThread := m.nextThread

theorem queue_eq {m : Mem List} {xs : List EntryPtr} (h : m.downloadQueue = some xs) :
    m.queue = xs := by
  simp [queue, contents, ListApi.toList, h]

theorem records_eq {m : Mem List} {xs : List (Option RecordPtr)} (h : m.threadList = some xs) :
    m.records = xs := by
  simp [records, contents, ListApi.toList, h]

@[simp] theorem abs_queue (m : Mem L) : m.abs.queue = m.queue := by
  simp [abs, queue, contents, ListApi.toList]

@[simp] theorem abs_records (m : Mem L) : m.abs.records = m.records := by
  simp [abs, records, contents, ListApi.toList]

@[simp] theorem abs_entry (m : Mem L) : m.abs.entry = m.entry := rfl
@[simp] theorem abs_status (m : Mem L) (p : EntryPtr) : m.abs.status p = m.status p := rfl
@[simp] theorem abs_name (m : Mem L) (p : EntryPtr) : m.abs.name p = m.name p := rfl
@[simp] theorem abs_nextEntry (m : Mem L) : m.abs.nextEntry = m.nextEntry := rfl
@[simp] theorem abs_record (m : Mem L) : m.abs.record = m.record := rfl
@[simp] theorem abs_freed (m : Mem L) : m.abs.freed = m.freed := rfl
@[simp] theorem abs_nextRecord (m : Mem L) : m.abs.nextRecord = m.nextRecord := rfl
@[simp] theorem abs_threads (m : Mem L) : m.abs.threads = m.threads := rfl

@[simp] theorem abs_started (m : Mem L) : m.abs.started = m.started := by
  unfold started
  rw [abs_queue]
  rfl

end Mem

/-- The controller, seen through the contents of its lists. -/
structure View where
  request : Transaction
  mem : Mem List
  pc : Pc
  reported : List EntryPtr

def Config.view {L : Type → Type} [ListApi L] (c : Config L) : View :=
  ⟨c.request, c.mem.abs, c.pc, c.reported⟩

section

variable {L : Type → Type} [ListApi L] (c : Config L)

@[simp] theorem view_request : c.view.request = c.request := rfl
@[simp] theorem view_mem : c.view.mem = c.mem.abs := rfl
@[simp] theorem view_pc : c.view.pc = c.pc := rfl
@[simp] theorem view_reported : c.view.reported = c.reported := rfl

end

namespace View

/-- Where the controller goes after the status of `p` was treated, with the given
queue. -/
inductive After (queue : List EntryPtr) (p : EntryPtr) : Task → Pc → Prop where
  | pause : After queue p .pause .respond
  | cancel : After queue p .cancel (.unlink p)
  | restart : After queue p .restart (.visit queue)
  | save {rest : List EntryPtr} : After queue p (.save rest) (.reset p rest)

/-- The id a stop is made for. -/
def stopId (v : View) (k : Task) (p : EntryPtr) : CString :=
  match k with
  | .save _ => v.mem.name p
  | _ => v.request.id.name

/-- The entry a request names. -/
def named (v : View) : Option EntryPtr :=
  v.mem.queue.find? fun p => decide (v.mem.name p = v.request.id.name)

/-- The steps of the controller that read the memory and do not write it. -/
inductive Goto (max : Nat) (v : View) : Pc → Prop where
  | load {entries : List Entry} : v.pc = .load entries → Goto max v (.loading entries)
  | noLoad {entries : List Entry} : v.pc = .load entries ∨ v.pc = .loading entries → Goto max v .idle
  | loaded : v.pc = .loading [] → Goto max v (.visit v.mem.queue)
  | refused : v.pc = .add → Goto max v .respond
  | ready : v.pc = .visit [] → Goto max v .idle
  | visited : v.pc = .visit [] → Goto max v .respond
  | skip {p : EntryPtr} {rest : List EntryPtr} : v.pc = .visit (p :: rest) →
      v.mem.status p ≠ .waiting → Goto max v (.visit rest)
  | waiting {p : EntryPtr} {rest : List EntryPtr} : v.pc = .visit (p :: rest) →
      v.mem.status p = .waiting → Goto max v (.count p rest)
  | full {p : EntryPtr} {rest : List EntryPtr} : v.pc = .count p rest →
      max ≤ v.mem.started → Goto max v (.visit rest)
  | free {p : EntryPtr} {rest : List EntryPtr} : v.pc = .count p rest →
      v.mem.started < max → Goto max v (.start p rest)
  | noQueue : v.pc = .status → Goto max v .respond
  | reported : v.pc = .report [] → Goto max v .respond
  | notFound {k : Task} : v.pc = .lookup k → v.named = none → Goto max v .respond
  | stop {k : Task} {p : EntryPtr} : v.pc = .lookup k → v.named = some p →
      k.choice (v.mem.status p) = .stop → Goto max v (.stop k p)
  | leave {k : Task} {p : EntryPtr} {pc : Pc} : v.pc = .lookup k → v.named = some p →
      k.choice (v.mem.status p) = .leave → After v.mem.queue p k pc → Goto max v pc
  | assign {k : Task} {p : EntryPtr} : v.pc = .lookup k → v.named = some p →
      k.choice (v.mem.status p) = .assign → Goto max v (.assign k p)
  | missing {k : Task} {p : EntryPtr} {pc : Pc} : v.pc = .stop k p →
      v.mem.findRecord (v.stopId k p) = some none → After v.mem.queue p k pc → Goto max v pc
  | saved : v.pc = .saving [] → Goto max v .exited
  | running {p : EntryPtr} {rest : List EntryPtr} : v.pc = .saving (p :: rest) →
      (v.mem.status p).Running → Goto max v (.stop (.save rest) p)
  | halted {p : EntryPtr} {rest : List EntryPtr} : v.pc = .saving (p :: rest) →
      ¬ (v.mem.status p).Running → Goto max v (.write p rest)
  | respond : v.pc = .respond → Goto max v .idle

/-- The memory with one more entry in the queue. -/
def push (m : Mem List) (e : Entry) : Mem List :=
  { m with
    entry := Function.update m.entry m.nextEntry e
    nextEntry := m.nextEntry + 1
    downloadQueue := some (m.queue ++ [m.nextEntry]) }

@[simp] theorem push_queue (m : Mem List) (e : Entry) :
    (push m e).queue = m.queue ++ [m.nextEntry] := Mem.queue_eq rfl

theorem push_entry {m : Mem List} {e : Entry} {p : EntryPtr} (old : p < m.nextEntry) :
    (push m e).entry p = m.entry p :=
  Function.update_of_ne (Nat.ne_of_lt old) _ _

theorem push_status {m : Mem List} {e : Entry} {p : EntryPtr} (old : p < m.nextEntry) :
    (push m e).status p = m.status p := congrArg Entry.status (push_entry old)

theorem push_name {m : Mem List} {e : Entry} {p : EntryPtr} (old : p < m.nextEntry) :
    (push m e).name p = m.name p := congrArg (fun e => e.id.name) (push_entry old)

/-- What a step of the controller does. `dangles` says whether the lists are lost
when their first element is removed. -/
inductive Move (dangles : Prop) (max : Nat) (v : View) : View → Prop where
  | crash : Move dangles max v { v with pc := .crashed }
  | goto {pc : Pc} : Goto max v pc → Move dangles max v { v with pc := pc }
  | push {e : Entry} {entries : List Entry} : v.pc = .loading (e :: entries) →
      Move dangles max v { v with mem := push v.mem e, pc := .loading entries }
  | added {e : Entry} {o : Overrun} : v.pc = .add →
      entrySetTarget o entryNew v.request = some e →
      (∀ p ∈ v.mem.queue, v.mem.name p ≠ v.request.id.name) →
      Move dangles max v
        { v with mem := View.push v.mem e, pc := .visit (v.mem.queue ++ [v.mem.nextEntry]) }
  | notStarted {p : EntryPtr} {rest : List EntryPtr} {records : List (Option RecordPtr)} :
      v.pc = .start p rest → records = v.mem.records ∨ records = v.mem.records ++ [none] →
      Move dangles max v
        { v with mem := { v.mem with threadList := some records }, pc := .mark p rest }
  | started {p : EntryPtr} {rest : List EntryPtr} (handle : CString) : v.pc = .start p rest →
      Move dangles max v { v with
        mem := { v.mem.createThread p handle with
          threadList := some (v.mem.records ++ [some v.mem.nextRecord]) }
        pc := .mark p rest }
  | mark {p : EntryPtr} {rest : List EntryPtr} : v.pc = .mark p rest →
      Move dangles max v { v with mem := v.mem.setStatus p .starting, pc := .visit rest }
  | statusBegin : v.pc = .status →
      Move dangles max v { v with reported := [], pc := .report v.mem.queue }
  | report {p : EntryPtr} {rest : List EntryPtr} : v.pc = .report (p :: rest) →
      Move dangles max v { v with reported := v.reported ++ [p], pc := .report rest }
  | assign {k : Task} {p : EntryPtr} {pc : Pc} : v.pc = .assign k p → After v.mem.queue p k pc →
      Move dangles max v { v with mem := v.mem.setStatus p k.value, pc := pc }
  | stop {k : Task} {p : EntryPtr} {r : RecordPtr} : v.pc = .stop k p →
      v.mem.findRecord (v.stopId k p) = some (some r) →
      Move dangles max v
        { v with mem := v.mem.setStatus (v.mem.record r).entry .paused, pc := .kill k p r }
  | kill {k : Task} {p : EntryPtr} {r : RecordPtr} {pc : Pc} {records : List (Option RecordPtr)} :
      v.pc = .kill k p r → records.Sublist v.mem.records → After v.mem.queue p k pc →
      Move dangles max v { v with
        mem := { v.mem.endThread (v.mem.record r).thread with
          threadList := some records, freed := Function.update v.mem.freed r true }
        pc := pc }
  | unlink {p : EntryPtr} {queue : List EntryPtr} : v.pc = .unlink p →
      queue = (v.mem.queue.eraseP fun q => decide (v.mem.name q = v.request.id.name)) ∨
        dangles ∧ queue = [] ∧ (∃ q ∈ v.mem.queue.head?, v.mem.name q = v.request.id.name) →
      Move dangles max v
        { v with mem := { v.mem with downloadQueue := some queue }, pc := .respond }
  | reset {p : EntryPtr} {rest : List EntryPtr} : v.pc = .reset p rest →
      Move dangles max v { v with mem := v.mem.setStatus p .waiting, pc := .write p rest }
  | write {p : EntryPtr} {rest : List EntryPtr} : v.pc = .write p rest →
      Move dangles max v { v with reported := v.reported ++ [p], pc := .saving rest }

/-- A step of the process, in the view. -/
inductive Step (dangles : Prop) (max : Nat) (v : View) : Action → View → Prop where
  | control {o : Outcome} {w : View} : Move dangles max v w → Step dangles max v (.control o) w
  | thread {tid : Tid} {t : Thread} {a : ThreadAction} {m : Mem List} :
      v.pc ≠ .exited → v.pc ≠ .crashed → v.mem.thread? tid = some t →
      v.mem.threadStep t a = some (some m) → Step dangles max v (.thread tid a) { v with mem := m }
  | threadCrash {tid : Tid} {a : ThreadAction} :
      Step dangles max v (.thread tid a) { v with pc := .crashed }
  | request {r response : Transaction} : v.pc = .idle →
      Step dangles max v (.request r response) { v with request := r, pc := r.command.dispatch }
  | save {fopen : Bool} : v.pc ≠ .exited → v.pc ≠ .crashed →
      Step dangles max v (.signal fopen) { v with reported := [], pc := .saving v.mem.queue }
  | terminate {fopen : Bool} {pc : Pc} : v.pc ≠ .exited → v.pc ≠ .crashed →
      pc = .exited ∨ pc = .crashed →
      Step dangles max v (.signal fopen) { v with pc := pc }

end View

/-! ### The simulation -/

section Simulation

variable {L : Type → Type} [ListApi L] [LawfulListApi L] {max : Nat} {c c' : Config L}

omit [ListApi L] [LawfulListApi L] in
theorem orCrash_cases {r : Option (Config L)} (h : some (c.orCrash r) = some c') :
    c' = c.crash ∨ r = some c' := by
  cases r with
  | none => exact Or.inl (Option.some.inj h).symm
  | some d => exact Or.inr h

/-- What is found in the thread list is found in its contents. -/
theorem findRecord_abs {m : Mem L} {id : CString} {found : Option RecordPtr} (wf : m.Wf)
    (h : m.findRecord id = some found) : m.abs.findRecord id = some found := by
  obtain ⟨x, looked, rfl⟩ := Option.map_eq_some_iff.mp h
  have sequence := Mem.getItem_contents wf.threadList looked
  have same : Mem.getItem m.abs.threadList (m.abs.downloadThreadCompareId id) =
      Sequence.getItem (m.downloadThreadCompareId id) m.records := rfl
  simp only [Mem.findRecord, same]
  rw [show m.records = Mem.contents m.threadList from rfl, sequence]
  rfl

omit [LawfulListApi L] in
theorem visitAll_view (h : c.visitAll = some c') :
    c'.mem = c.mem ∧ c'.view = { c.view with pc := .visit c.mem.queue } := by
  obtain ⟨items, hitems, rfl⟩ := Option.map_eq_some_iff.mp h
  rw [Mem.queueItems_eq hitems]
  exact ⟨rfl, rfl⟩

omit [LawfulListApi L] in
theorem afterSwitch_view {k : Task} {p : EntryPtr} {ret : Bool}
    (h : c.afterSwitch k p ret = some c') :
    c'.mem = c.mem ∧ ∃ pc, View.After c.mem.queue p k pc ∧ c'.view = { c.view with pc := pc } := by
  cases k with
  | pause => cases h; exact ⟨rfl, _, .pause, rfl⟩
  | cancel => cases h; exact ⟨rfl, _, .cancel, rfl⟩
  | restart =>
      obtain ⟨mem, view⟩ := visitAll_view h
      exact ⟨mem, _, .restart, view⟩
  | save rest => cases h; exact ⟨rfl, _, .save, rfl⟩

omit [LawfulListApi L] in
theorem queueInit_abs {m : Mem L} [LawfulListApi L] (listNew : Bool) (wf : m.Wf) :
    (m.queueInit listNew).Wf ∧ (m.queueInit listNew).abs = m.abs := by
  obtain ⟨list, init, wf', queue⟩ := Mem.queueInit_spec listNew wf
  refine ⟨wf', ?_⟩
  simp only [Mem.abs, queue]
  rw [init]
  rfl

/-- `process_request` on a `DOWNLOAD`. -/
theorem add_move {o : Outcome} (wf : c.mem.Wf) (pc : c.pc = .add)
    (h : c.control max o = some c') :
    c'.mem.Wf ∧ View.Move (LawfulListApi.Dangles L) max c.view c'.view := by
  obtain ⟨-, h⟩ := Config.control_add pc h
  rcases orCrash_cases h with rfl | h
  · exact ⟨wf, .crash⟩
  · obtain ⟨⟨m, response, added⟩, appended, h⟩ := Option.bind_eq_some_iff.mp h
    obtain ⟨list, wf', outcome⟩ := Mem.queueAppend_spec wf appended
    rcases outcome with ⟨rfl, -, mem, queue⟩ | ⟨rfl, -, e, target, mem, queue, fresh⟩
    · cases h
      refine ⟨wf', ?_⟩
      have same : m.abs = c.mem.abs := by
        simp only [Mem.abs, queue]
        rw [mem]
        rfl
      have view : (Config.view { c with mem := m, response := response, pc := .respond }) =
          { c.view with pc := .respond } := by
        simp only [Config.view, same]
      rw [view]
      exact .goto (.refused pc)
    · obtain ⟨mem', view⟩ := visitAll_view h
      refine ⟨mem' ▸ wf', ?_⟩
      have pushed : m.abs = View.push c.view.mem e := by
        simp only [Mem.abs, queue, View.push, Config.view]
        rw [mem]
        simp [Mem.records, Mem.queue, Mem.contents, ListApi.toList]
      rw [view]
      have moved : View.Move (LawfulListApi.Dangles L) max c.view _ :=
        .added pc target (by simpa using fresh)
      simpa [Config.view, pushed, queue] using moved

/-- The `download_start` of a scheduling pass. -/
theorem start_move {o : Outcome} {p : EntryPtr} {rest : List EntryPtr} (wf : c.mem.Wf)
    (pc : c.pc = .start p rest) (h : c.control max o = some c') :
    c'.mem.Wf ∧ View.Move (LawfulListApi.Dangles L) max c.view c'.view := by
  simp only [Config.control, pc] at h
  rcases orCrash_cases h with rfl | h
  · exact ⟨wf, .crash⟩
  · obtain ⟨m, begun, rfl⟩ := Option.map_eq_some_iff.mp h
    obtain ⟨wf', list, ⟨mem, records⟩ | ⟨handle, -, mem, records⟩⟩ := Mem.downloadStart_spec wf begun
    · refine ⟨wf', ?_⟩
      have moved : View.Move (LawfulListApi.Dangles L) max c.view _ :=
        .notStarted pc (by simpa using records)
      have same : m.abs = { c.mem.abs with threadList := some m.records } := by
        simp only [Mem.abs]
        rw [mem]
        rfl
      simpa [Config.view, same] using moved
    · refine ⟨wf', ?_⟩
      have moved : View.Move (LawfulListApi.Dangles L) max c.view _ := .started handle pc
      have same : m.abs = { c.mem.abs.createThread p handle with
          threadList := some (c.mem.records ++ [some c.mem.nextRecord]) } := by
        simp only [Mem.abs, records]
        rw [mem]
        rfl
      simpa [Config.view, same] using moved

/-- The steps that stop a download. -/
theorem kill_move {o : Outcome} {k : Task} {p : EntryPtr} {r : RecordPtr} (wf : c.mem.Wf)
    (pc : c.pc = .kill k p r) (h : c.control max o = some c') :
    c'.mem.Wf ∧ View.Move (LawfulListApi.Dangles L) max c.view c'.view := by
  simp only [Config.control, pc] at h
  rcases orCrash_cases h with rfl | h
  · exact ⟨wf, .crash⟩
  · obtain ⟨⟨ret, m⟩, finished, h⟩ := Option.bind_eq_some_iff.mp h
    obtain ⟨list, mem, wf', sublist⟩ := Mem.finishStop_spec wf finished
    obtain ⟨mem', pc', after, view⟩ := afterSwitch_view h
    refine ⟨mem' ▸ wf', ?_⟩
    have same : m.abs = { c.mem.abs.endThread (c.mem.record r).thread with
        threadList := some m.records, freed := Function.update c.mem.freed r true } := by
      simp only [Mem.abs]
      rw [mem]
      rfl
    have queue : m.queue = c.mem.queue := by
      rw [mem]
      rfl
    have moved : View.Move (LawfulListApi.Dangles L) max c.view _ :=
      .kill pc (by simpa using sublist) (by simpa [queue] using after)
    rw [view]
    simpa [Config.view, same] using moved

/-- `list_remove_item` on the queue. -/
theorem unlink_move {o : Outcome} {p : EntryPtr} (wf : c.mem.Wf) (pc : c.pc = .unlink p)
    (h : c.control max o = some c') :
    c'.mem.Wf ∧ View.Move (LawfulListApi.Dangles L) max c.view c'.view := by
  simp only [Config.control, pc] at h
  rcases orCrash_cases h with rfl | h
  · exact ⟨wf, .crash⟩
  · obtain ⟨⟨ret, m⟩, removed, rfl⟩ := Option.map_eq_some_iff.mp h
    obtain ⟨list, mem, wf', queue⟩ := Mem.removeEntry_spec wf removed
    refine ⟨wf', ?_⟩
    have moved : View.Move (LawfulListApi.Dangles L) max c.view _ :=
      .unlink pc (by rw [view_mem, Mem.abs_queue]; exact queue)
    have same : m.abs = { c.mem.abs with downloadQueue := some m.queue } := by
      simp only [Mem.abs]
      rw [mem]
      rfl
    simpa [Config.view, same] using moved

/-- Each step of the controller is a move of the view. -/
theorem control_move {o : Outcome} (wf : c.mem.Wf) (h : c.control max o = some c') :
    c'.mem.Wf ∧ View.Move (LawfulListApi.Dangles L) max c.view c'.view := by
  cases pc : c.pc with
  | add => exact add_move wf pc h
  | start p rest => exact start_move wf pc h
  | kill k p r => exact kill_move wf pc h
  | unlink p => exact unlink_move wf pc h
  | load entries =>
      obtain ⟨wf', same⟩ := queueInit_abs (m := c.mem) o.queueNew wf
      simp only [Config.control, pc] at h
      split at h
      · cases h
        refine ⟨wf', ?_⟩
        have moved : View.Move (LawfulListApi.Dangles L) max c.view _ := .goto (.noLoad (Or.inl pc))
        simpa [Config.view, same] using moved
      · cases h
        refine ⟨wf', ?_⟩
        have moved : View.Move (LawfulListApi.Dangles L) max c.view _ := .goto (.load pc)
        simpa [Config.view, same] using moved
  | loading entries =>
      cases entries with
      | nil =>
          simp only [Config.control, pc] at h
          rcases orCrash_cases h with rfl | h
          · exact ⟨wf, .crash⟩
          · obtain ⟨mem, view⟩ := visitAll_view h
            refine ⟨mem ▸ wf, ?_⟩
            rw [view]
            have moved : View.Move (LawfulListApi.Dangles L) max c.view _ := .goto (.loaded pc)
            simpa using moved
      | cons e entries =>
          simp only [Config.control, pc] at h
          split at h
          · rcases orCrash_cases h with rfl | h
            · exact ⟨wf, .crash⟩
            · obtain ⟨m, pushed, rfl⟩ := Option.map_eq_some_iff.mp h
              obtain ⟨list, mem, wf', queue⟩ := Mem.queuePush_spec wf pushed
              refine ⟨wf', ?_⟩
              have moved : View.Move (LawfulListApi.Dangles L) max c.view _ := .push pc
              have same : m.abs = View.push c.mem.abs e := by
                simp only [Mem.abs, queue, View.push]
                rw [mem]
                simp [Mem.records, Mem.queue, Mem.contents, ListApi.toList]
              simpa [Config.view, same] using moved
          · cases h
            exact ⟨wf, .goto (.noLoad (Or.inr pc))⟩
  | idle => simp [Config.control, pc] at h
  | visit rest =>
      cases rest with
      | nil =>
          simp only [Config.control, pc] at h
          split at h
          · cases h
            exact ⟨wf, .goto (.visited pc)⟩
          · cases h
            exact ⟨wf, .goto (.ready pc)⟩
      | cons p rest =>
          simp only [Config.control, pc] at h
          split at h
          · next waiting =>
            cases h
            exact ⟨wf, .goto (.waiting pc waiting)⟩
          · next other =>
            cases h
            exact ⟨wf, .goto (.skip pc other)⟩
  | count p rest =>
      simp only [Config.control, pc] at h
      rcases orCrash_cases h with rfl | h
      · exact ⟨wf, .crash⟩
      · obtain ⟨n, counted, h⟩ := Option.map_eq_some_iff.mp h
        have started := Mem.queueCountStarted_eq wf counted
        subst started
        split at h
        · next free =>
          subst h
          exact ⟨wf, .goto (.free pc (by rw [view_mem, Mem.abs_started]; exact free))⟩
        · next full =>
          subst h
          exact ⟨wf, .goto (.full pc (by rw [view_mem, Mem.abs_started]; exact Nat.le_of_not_lt full))⟩
  | mark p rest =>
      simp only [Config.control, pc] at h
      cases h
      exact ⟨⟨wf.downloadQueue, wf.threadList⟩, .mark pc⟩
  | status =>
      obtain ⟨wf', same⟩ := queueInit_abs (m := c.mem) o.queueNew wf
      simp only [Config.control, pc] at h
      split at h
      · cases h
        refine ⟨wf', ?_⟩
        have moved : View.Move (LawfulListApi.Dangles L) max c.view _ := .goto (.noQueue pc)
        simpa [Config.view, same] using moved
      · rcases orCrash_cases h with rfl | h
        · exact ⟨wf, .crash⟩
        · obtain ⟨items, hitems, rfl⟩ := Option.map_eq_some_iff.mp h
          refine ⟨wf', ?_⟩
          have queue : items = c.mem.queue := by
            rw [Mem.queueItems_eq hitems, ← Mem.abs_queue, same, Mem.abs_queue]
          have moved : View.Move (LawfulListApi.Dangles L) max c.view _ := .statusBegin pc
          simpa [Config.view, same, queue] using moved
  | report rest =>
      cases rest with
      | nil =>
          simp only [Config.control, pc] at h
          cases h
          exact ⟨wf, .goto (.reported pc)⟩
      | cons p rest =>
          simp only [Config.control, pc] at h
          cases h
          exact ⟨wf, .report pc⟩
  | lookup k =>
      simp only [Config.control, pc] at h
      rcases orCrash_cases h with rfl | h
      · exact ⟨wf, .crash⟩
      · obtain ⟨found, looked, h⟩ := Option.bind_eq_some_iff.mp h
        have named : c.view.named = found := by
          rw [Mem.findEntry_eq wf looked, View.named, view_mem, Mem.abs_queue]
          rfl
        cases found with
        | none =>
            cases h
            exact ⟨wf, .goto (.notFound pc named)⟩
        | some p =>
            simp only at h
            split at h
            · next choice =>
              cases h
              exact ⟨wf, .goto (.stop pc named choice)⟩
            · next choice =>
              obtain ⟨mem, pc', after, view⟩ := afterSwitch_view h
              refine ⟨mem ▸ wf, ?_⟩
              rw [view]
              exact .goto (.leave pc named choice (by simpa using after))
            · next choice =>
              cases h
              exact ⟨wf, .goto (.assign pc named choice)⟩
  | assign k p =>
      simp only [Config.control, pc] at h
      rcases orCrash_cases h with rfl | h
      · exact ⟨wf, .crash⟩
      · obtain ⟨mem, pc', after, view⟩ := afterSwitch_view h
        refine ⟨mem ▸ ⟨wf.downloadQueue, wf.threadList⟩, ?_⟩
        rw [view]
        exact .assign pc (by rw [view_mem, Mem.abs_queue]; exact after)
  | stop k p =>
      simp only [Config.control, pc] at h
      rcases orCrash_cases h with rfl | h
      · exact ⟨wf, .crash⟩
      · obtain ⟨found, looked, h⟩ := Option.bind_eq_some_iff.mp h
        have abs := findRecord_abs wf looked
        cases found with
        | none =>
            obtain ⟨mem, pc', after, view⟩ := afterSwitch_view h
            refine ⟨mem ▸ wf, ?_⟩
            rw [view]
            exact .goto (.missing pc abs (by simpa using after))
        | some r =>
            cases h
            exact ⟨⟨wf.downloadQueue, wf.threadList⟩, .stop pc abs⟩
  | saving rest =>
      cases rest with
      | nil =>
          simp only [Config.control, pc] at h
          cases h
          exact ⟨wf, .goto (.saved pc)⟩
      | cons p rest =>
          simp only [Config.control, pc, Task.choice] at h
          by_cases running : (c.mem.status p).Running
          · simp only [running, if_true] at h
            cases h
            exact ⟨wf, .goto (.running pc running)⟩
          · simp only [running, if_false] at h
            cases h
            exact ⟨wf, .goto (.halted pc running)⟩
  | reset p rest =>
      simp only [Config.control, pc] at h
      cases h
      exact ⟨⟨wf.downloadQueue, wf.threadList⟩, .reset pc⟩
  | write p rest =>
      simp only [Config.control, pc] at h
      rcases orCrash_cases h with rfl | h
      · exact ⟨wf, .crash⟩
      · obtain ⟨line, written, rfl⟩ := Option.map_eq_some_iff.mp h
        exact ⟨wf, .write pc⟩
  | respond =>
      simp only [Config.control, pc] at h
      cases h
      exact ⟨wf, .goto (.respond pc)⟩
  | exited => simp [Config.control, pc] at h
  | crashed => simp [Config.control, pc] at h

omit [LawfulListApi L] in
theorem threadStep_abs (m : Mem L) (t : Thread) (a : ThreadAction) :
    m.abs.threadStep t a = (m.threadStep t a).map (Option.map Mem.abs) := by
  cases a with
  | openFile ok =>
      simp only [Mem.threadStep, Mem.abs_entry]
      split
      · cases getNameFromUrl (m.entry t.entry).url with
        | none => rfl
        | some name => cases ok <;> rfl
      · rfl
  | started =>
      simp only [Mem.threadStep]
      split <;> rfl
  | progress dltotal dlnow first second =>
      have url : (m.abs.entry t.entry).url = (m.entry t.entry).url := rfl
      simp only [Mem.threadStep]
      split
      · by_cases fits : (m.entry t.entry).url.length < MAX_URL_LEN
        · rw [if_pos fits, if_pos (url ▸ fits)]
          rfl
        · rw [if_neg fits, if_neg (url ▸ fits)]
          rfl
      · rfl
  | perform ok =>
      simp only [Mem.threadStep]
      split <;> rfl
  | completed =>
      simp only [Mem.threadStep]
      cases t.pc <;> rfl

/-- The lists are not touched by the threads. -/
theorem threadStep_wf {m m' : Mem L} {t : Thread} {a : ThreadAction} (wf : m.Wf)
    (h : m.threadStep t a = some (some m')) : m'.Wf := by
  cases a with
  | openFile ok =>
      simp only [Mem.threadStep] at h
      split at h
      · split at h
        · cases h
        · cases h
          cases ok <;> exact ⟨wf.downloadQueue, wf.threadList⟩
      · cases h
  | started =>
      simp only [Mem.threadStep] at h
      split at h
      · cases h
        exact ⟨wf.downloadQueue, wf.threadList⟩
      · cases h
  | progress dltotal dlnow first second =>
      simp only [Mem.threadStep] at h
      split at h
      · split at h
        · cases h
          exact ⟨wf.downloadQueue, wf.threadList⟩
        · cases h
      · cases h
  | perform ok =>
      simp only [Mem.threadStep] at h
      split at h
      · cases h
        exact ⟨wf.downloadQueue, wf.threadList⟩
      · cases h
  | completed =>
      simp only [Mem.threadStep] at h
      split at h
      · cases h
        exact ⟨wf.downloadQueue, wf.threadList⟩
      · cases h

/-- On any lawful lists, a step of the controller process is a step of its view. -/
theorem step_view {a : Action} (wf : c.mem.Wf) (h : c.step max a = some c') :
    c'.mem.Wf ∧ View.Step (LawfulListApi.Dangles L) max c.view a c'.view := by
  cases a with
  | request r response =>
      simp only [Config.step] at h
      split at h
      · next idle =>
        cases h
        exact ⟨wf, .request idle⟩
      · cases h
  | control o =>
      obtain ⟨wf', move⟩ := control_move wf h
      exact ⟨wf', .control move⟩
  | thread tid a =>
      simp only [Config.step] at h
      split at h
      · next alive =>
        obtain ⟨t, found, h⟩ := Option.bind_eq_some_iff.mp h
        obtain ⟨m, stepped, rfl⟩ := Option.map_eq_some_iff.mp h
        cases m with
        | none => exact ⟨wf, .threadCrash⟩
        | some m =>
            refine ⟨threadStep_wf wf stepped, ?_⟩
            have abs := threadStep_abs c.mem t a
            rw [stepped] at abs
            exact .thread alive.1 alive.2 found abs
      · cases h
  | signal fopen =>
      simp only [Config.step] at h
      split at h
      · next alive =>
        cases h
        unfold Config.terminate
        split
        · exact ⟨wf, .terminate alive.2.1 alive.2.2 (Or.inl rfl)⟩
        · split
          · cases hitems : c.mem.queueItems with
            | none => exact ⟨wf, .terminate alive.2.1 alive.2.2 (Or.inr rfl)⟩
            | some items =>
                refine ⟨wf, ?_⟩
                have stepped : View.Step (LawfulListApi.Dangles L) max c.view (.signal fopen) _ :=
                  .save alive.2.1 alive.2.2
                simpa [Config.orCrash, Config.view, Mem.queueItems_eq hitems] using stepped
          · exact ⟨wf, .terminate alive.2.1 alive.2.2 (Or.inl rfl)⟩
      · cases h

theorem boot_wf (entries : List Entry) : (boot L entries).mem.Wf := by
  constructor
  · intro list h
    cases h
  · intro list h
    cases h

/-- The invariant rule: what holds of the view at the start, and is kept by the
steps that meet the condition, holds of the view in every state of a run whose steps
meet it. -/
theorem run_invariant {ok : Config L → Action → Prop} {I : View → Prop} (wf : c.mem.Wf)
    (start : I c.view)
    (keep : ∀ c a c', I c.view → ok c a → c.step max a = some c' →
      View.Step (LawfulListApi.Dangles L) max c.view a c'.view → I c'.view)
    (run : (controller L max).Run ok c c') : c'.mem.Wf ∧ I c'.view := by
  refine Machine.Run.invariant (I := fun c => c.mem.Wf ∧ I c.view) run ⟨wf, start⟩ ?_
  rintro c a c' ⟨wf, inv⟩ good step
  obtain ⟨wf', view⟩ := step_view wf step
  exact ⟨wf', keep _ _ _ inv good step view⟩

/-- The rule for what every step of the view keeps, from the start of the controller. -/
theorem view_invariant {ok : View → Action → Prop} {I : View → Prop} {entries : List Entry}
    (start : I (boot L entries).view)
    (keep : ∀ v a w, I v → ok v a → View.Step (LawfulListApi.Dangles L) max v a w → I w)
    (run : (controller L max).Run (fun c a => ok c.view a) (boot L entries) c) :
    c.mem.Wf ∧ I c.view :=
  run_invariant (boot_wf entries) start (fun _ _ _ inv good _ view => keep _ _ _ inv good view) run

/-- The rule for what every step of the view keeps, in all runs. -/
theorem reachable_invariant {I : View → Prop} (wf : c.mem.Wf) (start : I c.view)
    (keep : ∀ v a w, I v → View.Step (LawfulListApi.Dangles L) max v a w → I w)
    (run : (controller L max).Reachable c c') : c'.mem.Wf ∧ I c'.view :=
  run_invariant wf start (fun _ _ _ inv _ _ view => keep _ _ _ inv view) run

end Simulation

end Dserve
