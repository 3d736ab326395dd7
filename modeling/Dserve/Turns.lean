import Dserve.View

/-!
What the controller can do in one step.

`Turn` has one constructor for each way a step of the controller can go, with the state it leaves:
which function of the queue or of the download manager was called, what it returned, and where the
controller goes. `control_turn` is the inversion of `Config.control`, and `step_request`, `step_thread`
and `step_signal` are those of the other actions; what follows about the steps of the process is by
cases on them.
-/

namespace Dserve

namespace Config

variable {L : Type → Type} [ListApi L]

/-- The steps of the controller itself. -/
inductive Turn (max : Nat) (o : Outcome) (c : Config L) : Config L → Prop where
  | crash : c.pc ≠ .respond → Turn max o c c.crash
  | noQueue {entries : List Entry} : c.pc = .load entries →
      (c.mem.queueInit o.queueNew).downloadQueue = none →
      Turn max o c { c with mem := c.mem.queueInit o.queueNew, installed := true, pc := .idle }
  | loading {entries : List Entry} : c.pc = .load entries →
      Turn max o c { c with mem := c.mem.queueInit o.queueNew, pc := .loading entries }
  | loaded {items : List EntryPtr} : c.pc = .loading [] → c.mem.queueItems = some items →
      Turn max o c { c with pc := .visit items }
  | noEntry {e : Entry} {entries : List Entry} : c.pc = .loading (e :: entries) →
      o.entryNew = false → Turn max o c { c with installed := true, pc := .idle }
  | push {e : Entry} {entries : List Entry} {m : Mem L} : c.pc = .loading (e :: entries) →
      c.mem.queuePush o.node e = some m → Turn max o c { c with mem := m, pc := .loading entries }
  | added {m : Mem L} {response : Transaction} {items : List EntryPtr} : c.pc = .add →
      c.mem.queueAppend o c.request = some (m, response, true) → m.queueItems = some items →
      Turn max o c { c with mem := m, response := response, pc := .visit items }
  | refused {m : Mem L} {response : Transaction} : c.pc = .add →
      c.mem.queueAppend o c.request = some (m, response, false) →
      Turn max o c { c with mem := m, response := response, pc := .respond }
  | visited : c.pc = .visit [] → c.installed = true → Turn max o c { c with pc := .respond }
  | ready : c.pc = .visit [] → c.installed = false →
      Turn max o c { c with installed := true, pc := .idle }
  | waiting {p : EntryPtr} {rest : List EntryPtr} : c.pc = .visit (p :: rest) →
      c.mem.status p = .waiting → Turn max o c { c with pc := .count p rest }
  | skip {p : EntryPtr} {rest : List EntryPtr} : c.pc = .visit (p :: rest) →
      c.mem.status p ≠ .waiting → Turn max o c { c with pc := .visit rest }
  | free {p : EntryPtr} {rest : List EntryPtr} {n : Nat} : c.pc = .count p rest →
      c.mem.queueCountStarted = some n → n < max → Turn max o c { c with pc := .start p rest }
  | full {p : EntryPtr} {rest : List EntryPtr} {n : Nat} : c.pc = .count p rest →
      c.mem.queueCountStarted = some n → ¬ n < max → Turn max o c { c with pc := .visit rest }
  | start {p : EntryPtr} {rest : List EntryPtr} {m : Mem L} : c.pc = .start p rest →
      c.mem.downloadStart p o.start = some m → Turn max o c { c with mem := m, pc := .mark p rest }
  | mark {p : EntryPtr} {rest : List EntryPtr} : c.pc = .mark p rest →
      Turn max o c { c with mem := c.mem.setStatus p .starting, pc := .visit rest }
  | unlisted : c.pc = .status → (c.mem.queueInit o.queueNew).downloadQueue = none →
      Turn max o c { c with
        mem := c.mem.queueInit o.queueNew
        response := reply c.request .failure "The queue is empty".toList
        pc := .respond }
  | list {items : List EntryPtr} : c.pc = .status →
      (c.mem.queueInit o.queueNew).queueItems = some items →
      Turn max o c { c with
        mem := c.mem.queueInit o.queueNew
        reported := []
        pc := .report items }
  | listed : c.pc = .report [] →
      Turn max o c { c with response := reply c.request .success [], pc := .respond }
  | report {p : EntryPtr} {rest : List EntryPtr} : c.pc = .report (p :: rest) →
      Turn max o c ({ c with
        response := c.mem.queueGetInfo p c.response
        reported := c.reported ++ [p]
        pc := .report rest }.send o.send (c.mem.queueGetInfo p c.response))
  | notFound {k : Task} : c.pc = .lookup k → c.mem.findEntry c.request.id.name = some none →
      Turn max o c { c with response := notFoundReply c.request, pc := .respond }
  | toStop {k : Task} {p : EntryPtr} : c.pc = .lookup k →
      c.mem.findEntry c.request.id.name = some (some p) → k.choice (c.mem.status p) = .stop →
      Turn max o c { c with pc := .stop k p }
  | toAssign {k : Task} {p : EntryPtr} : c.pc = .lookup k →
      c.mem.findEntry c.request.id.name = some (some p) → k.choice (c.mem.status p) = .assign →
      Turn max o c { c with pc := .assign k p }
  | leave {k : Task} {p : EntryPtr} {c' : Config L} : c.pc = .lookup k →
      c.mem.findEntry c.request.id.name = some (some p) → k.choice (c.mem.status p) = .leave →
      c.afterSwitch k p true = some c' → Turn max o c c'
  | assign {k : Task} {p : EntryPtr} {c' : Config L} : c.pc = .assign k p →
      afterSwitch { c with mem := c.mem.setStatus p k.value } k p true = some c' → Turn max o c c'
  | missing {k : Task} {p : EntryPtr} {c' : Config L} : c.pc = .stop k p →
      c.mem.findRecord (c.stopId k p) = some none → c.afterSwitch k p false = some c' →
      Turn max o c c'
  | stop {k : Task} {p : EntryPtr} {r : RecordPtr} : c.pc = .stop k p →
      c.mem.findRecord (c.stopId k p) = some (some r) →
      Turn max o c
        { c with mem := c.mem.setStatus (c.mem.record r).entry .paused, pc := .kill k p r }
  | kill {k : Task} {p : EntryPtr} {r : RecordPtr} {ret : Bool} {m : Mem L} {c' : Config L} :
      c.pc = .kill k p r → c.mem.finishStop r (c.removeKey k r) = some (ret, m) →
      afterSwitch { c with mem := m } k p ret = some c' → Turn max o c c'
  | unlink {p : EntryPtr} {ret : Bool} {m : Mem L} : c.pc = .unlink p →
      c.mem.removeEntry c.request.id.name = some (ret, m) →
      Turn max o c { c with mem := m, response := cancelReply c.request ret, pc := .respond }
  | saved : c.pc = .saving [] → Turn max o c { c with pc := .exited }
  | running {p : EntryPtr} {rest : List EntryPtr} : c.pc = .saving (p :: rest) →
      (c.mem.status p).Running → Turn max o c { c with pc := .stop (.save rest) p }
  | halted {p : EntryPtr} {rest : List EntryPtr} : c.pc = .saving (p :: rest) →
      ¬ (c.mem.status p).Running → Turn max o c { c with pc := .write p rest }
  | reset {p : EntryPtr} {rest : List EntryPtr} : c.pc = .reset p rest →
      Turn max o c { c with mem := c.mem.setStatus p .waiting, pc := .write p rest }
  | write {p : EntryPtr} {rest : List EntryPtr} {line : CString} : c.pc = .write p rest →
      indexLine (c.mem.entry p) = some line → Turn max o c
        { c with index := c.index ++ line, reported := c.reported ++ [p], pc := .saving rest }
  | respond : c.pc = .respond → Turn max o c ({ c with pc := .idle }.send o.send c.response)

variable {max : Nat} {o : Outcome} {c c' : Config L}

/-- Every step of the controller is one of these. -/
theorem control_turn (h : c.control max o = some c') : Turn max o c c' := by
  cases pc : c.pc with
  | load entries =>
      simp only [control, pc] at h
      split at h
      · next none => cases h; exact .noQueue pc none
      · cases h; exact .loading pc
  | loading entries =>
      cases entries with
      | nil =>
          simp only [control, pc] at h
          rcases orCrash_cases h with rfl | h
          · exact .crash (by simp [pc])
          · obtain ⟨items, found, rfl⟩ := Option.map_eq_some_iff.mp h
            exact .loaded pc found
      | cons e entries =>
          simp only [control, pc] at h
          split at h
          · rcases orCrash_cases h with rfl | h
            · exact .crash (by simp [pc])
            · obtain ⟨m, pushed, rfl⟩ := Option.map_eq_some_iff.mp h
              exact .push pc pushed
          · next failed => cases h; exact .noEntry pc (Bool.not_eq_true _ ▸ failed)
  | idle => simp [control, pc] at h
  | add =>
      obtain ⟨-, h⟩ := control_add pc h
      rcases orCrash_cases h with rfl | h
      · exact .crash (by simp [pc])
      · obtain ⟨⟨m, response, added⟩, appended, h⟩ := Option.bind_eq_some_iff.mp h
        cases added with
        | true =>
            obtain ⟨items, found, rfl⟩ := Option.map_eq_some_iff.mp h
            exact .added pc appended found
        | false => cases h; exact .refused pc appended
  | visit rest =>
      cases rest with
      | nil =>
          simp only [control, pc] at h
          split at h
          · next installed => cases h; exact .visited pc installed
          · next unset => cases h; exact .ready pc (Bool.not_eq_true _ ▸ unset)
      | cons p rest =>
          simp only [control, pc] at h
          split at h
          · next waits => cases h; exact .waiting pc waits
          · next other => cases h; exact .skip pc other
  | count p rest =>
      simp only [control, pc] at h
      rcases orCrash_cases h with rfl | h
      · exact .crash (by simp [pc])
      · obtain ⟨n, count, h⟩ := Option.map_eq_some_iff.mp h
        split at h
        · next free => cases h; exact .free pc count free
        · next full => cases h; exact .full pc count full
  | start p rest =>
      simp only [control, pc] at h
      rcases orCrash_cases h with rfl | h
      · exact .crash (by simp [pc])
      · obtain ⟨m, begun, rfl⟩ := Option.map_eq_some_iff.mp h
        exact .start pc begun
  | mark p rest =>
      simp only [control, pc] at h
      cases h
      exact .mark pc
  | status =>
      simp only [control, pc] at h
      split at h
      · next none => cases h; exact .unlisted pc none
      · rcases orCrash_cases h with rfl | h
        · exact .crash (by simp [pc])
        · obtain ⟨items, found, rfl⟩ := Option.map_eq_some_iff.mp h
          exact .list pc found
  | report rest =>
      cases rest with
      | nil =>
          simp only [control, pc] at h
          cases h
          exact .listed pc
      | cons p rest =>
          simp only [control, pc] at h
          cases h
          exact .report pc
  | lookup k =>
      simp only [control, pc] at h
      rcases orCrash_cases h with rfl | h
      · exact .crash (by simp [pc])
      · obtain ⟨found, entry, h⟩ := Option.bind_eq_some_iff.mp h
        cases found with
        | none => cases h; exact .notFound pc entry
        | some p =>
            simp only at h
            split at h
            · next choice => cases h; exact .toStop pc entry choice
            · next choice => exact .leave pc entry choice h
            · next choice => cases h; exact .toAssign pc entry choice
  | assign k p =>
      simp only [control, pc] at h
      rcases orCrash_cases h with rfl | h
      · exact .crash (by simp [pc])
      · exact .assign pc h
  | stop k p =>
      simp only [control, pc] at h
      rcases orCrash_cases h with rfl | h
      · exact .crash (by simp [pc])
      · obtain ⟨found, record, h⟩ := Option.bind_eq_some_iff.mp h
        cases found with
        | none => exact .missing pc record h
        | some r => cases h; exact .stop pc record
  | kill k p r =>
      simp only [control, pc] at h
      rcases orCrash_cases h with rfl | h
      · exact .crash (by simp [pc])
      · obtain ⟨⟨ret, m⟩, finished, h⟩ := Option.bind_eq_some_iff.mp h
        exact .kill pc finished h
  | unlink p =>
      simp only [control, pc] at h
      rcases orCrash_cases h with rfl | h
      · exact .crash (by simp [pc])
      · obtain ⟨⟨ret, m⟩, removed, rfl⟩ := Option.map_eq_some_iff.mp h
        exact .unlink pc removed
  | saving rest =>
      cases rest with
      | nil =>
          simp only [control, pc] at h
          cases h
          exact .saved pc
      | cons p rest =>
          simp only [control, pc, Task.choice] at h
          by_cases running : (c.mem.status p).Running
          · rw [if_pos running] at h
            cases h
            exact .running pc running
          · rw [if_neg running] at h
            cases h
            exact .halted pc running
  | reset p rest =>
      simp only [control, pc] at h
      cases h
      exact .reset pc
  | write p rest =>
      simp only [control, pc] at h
      rcases orCrash_cases h with rfl | h
      · exact .crash (by simp [pc])
      · obtain ⟨line, written, rfl⟩ := Option.map_eq_some_iff.mp h
        exact .write pc written
  | respond =>
      simp only [control, pc] at h
      cases h
      exact .respond pc
  | exited => simp [control, pc] at h
  | crashed => simp [control, pc] at h

theorem afterSwitch_request {d d' : Config L} {k : Task} {p : EntryPtr} {ret : Bool}
    (h : d.afterSwitch k p ret = some d') : d'.request = d.request := by
  cases k with
  | restart =>
      obtain ⟨items, -, rfl⟩ := Option.map_eq_some_iff.mp h
      rfl
  | _ => cases h; rfl

/-- No step of the controller changes the request it works on. -/
theorem Turn.request (turn : Turn max o c c') : c'.request = c.request := by
  cases turn with
  | leave _ _ _ after | missing _ _ after => exact afterSwitch_request after
  | assign _ after | kill _ _ after => exact (afterSwitch_request after).trans rfl
  | _ => rfl

/-- A request is read when the controller waits for one. -/
theorem step_request {r response : Transaction} (h : c.step max (.request r response) = some c') :
    c.pc = .idle ∧ c' = { c with request := r, response := response, pc := r.command.dispatch } := by
  simp only [step] at h
  split at h
  · next idle =>
    cases h
    exact ⟨idle, rfl⟩
  · cases h

/-- A download thread takes a step on the memory, or ends the process. -/
theorem step_thread {tid : Tid} {a : ThreadAction} (h : c.step max (.thread tid a) = some c') :
    c' = c.crash ∨ ∃ t m, c.mem.thread? tid = some t ∧ c.mem.threadStep t a = some (some m) ∧
      c' = { c with mem := m } := by
  simp only [step] at h
  split at h
  · obtain ⟨t, found, h⟩ := Option.bind_eq_some_iff.mp h
    obtain ⟨m, stepped, h⟩ := Option.map_eq_some_iff.mp h
    rcases orCrash_cases (congrArg some h) with rfl | moved
    · exact Or.inl rfl
    · obtain ⟨m, rfl, rfl⟩ := Option.map_eq_some_iff.mp moved
      exact Or.inr ⟨t, m, found, stepped, rfl⟩
  · cases h

/-- A signal ends the process, or begins the save of the queue. -/
theorem step_signal {fopen : Bool} (h : c.step max (.signal fopen) = some c') :
    c' = { c with pc := .exited } ∧ (c.mem.downloadQueue = none ∨ fopen = false) ∨ c' = c.crash ∨
    ∃ items, c.mem.queueItems = some items ∧
      c' = { c with index := [], reported := [], pc := .saving items } := by
  simp only [step] at h
  split at h
  · simp only [Option.some.injEq] at h
    unfold terminate at h
    split at h
    · next none => exact Or.inl ⟨h.symm, Or.inl none⟩
    · split at h
      · rcases orCrash_cases (congrArg some h) with rfl | saves
        · exact Or.inr (Or.inl rfl)
        · obtain ⟨items, found, rfl⟩ := Option.map_eq_some_iff.mp saves
          exact Or.inr (Or.inr ⟨items, found, rfl⟩)
      · next failed => exact Or.inl ⟨h.symm, Or.inr (Bool.not_eq_true _ ▸ failed)⟩
  · cases h

end Config

end Dserve
