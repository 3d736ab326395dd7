import Dserve.Admission

/-!
The steps that find what they read.

A step of the controller is undefined behaviour when it reads a list whose first node was freed, a
`NULL` or a freed record of the thread list, a node that could not be allocated, the name of a URL that
has none, or when `entry_set_target` writes over what is not the entry's. `Config.Finds` says of the
state before a step that none of this is met, and `step_survives` that the process then goes on.
-/

namespace Dserve

/-- The step of the controller finds what it reads. -/
def Config.Defined (o : Outcome) (c : Config HeapList) : Prop :=
  match c.pc with
  | .loading (_ :: _) =>
      o.entryNew = true → o.node = true ∧ c.mem.downloadQueue.bind ListApi.items ≠ none
  | .add =>
      c.mem.downloadQueue = none ∧ o.queueNew = false ∨
        c.mem.queueItems ≠ none ∧ (HasId c.mem c.request.id.name ∨ o.result = true ∨
          o.entryNew = false ∨ TargetFits o c.request ∧ o.node = true)
  | .start _ _ =>
      c.mem.threadList = none ∧ o.start.listNew = false ∨ o.start.node = true ∧ c.mem.recordItems ≠ none
  | .stop k p => c.mem.queueItems ≠ none ∧ c.mem.findRecord (c.stopId k p) ≠ none
  | .kill k _ r => c.mem.queueItems ≠ none ∧ c.mem.findRecord (c.removeKey k r) ≠ none
  | .write p _ => getNameFromUrl (c.mem.entry p).url ≠ none
  | .loading [] | .count _ _ | .status | .lookup _ | .assign _ _ | .unlink _ => c.mem.queueItems ≠ none
  | _ => True

/-- The URL has a name to print, and does not reach the numbers that are written. -/
def ThreadAction.Finds (url : CString) : ThreadAction → Prop
  | .openFile _ => getNameFromUrl url ≠ none
  | .progress _ _ _ _ => url.length < MAX_URL_LEN
  | _ => True

/-- The step finds what it reads. -/
def Config.Finds (c : Config HeapList) : Action → Prop
  | .request _ _ => True
  | .control o => c.Defined o
  | .thread tid a => ∀ t ∈ c.mem.thread? tid, a.Finds (c.mem.entry t.entry).url
  | .signal fopen => fopen = true → c.mem.queueItems ≠ none

instance (o : Outcome) (c : Config HeapList) : Decidable (c.Defined o) := by
  unfold Config.Defined
  generalize c.pc = pc
  induction pc using Pc.casesOn with
  | loading entries => induction entries using List.casesOn <;> infer_instance
  | _ => infer_instance

instance (url : CString) : DecidablePred (ThreadAction.Finds url) := fun a => by
  induction a using ThreadAction.casesOn <;> unfold ThreadAction.Finds <;> infer_instance

instance (c : Config HeapList) : DecidablePred c.Finds := fun a => by
  induction a using Action.casesOn <;> unfold Config.Finds <;> infer_instance

section

variable {max : Nat} {o : Outcome} {c c' d : Config HeapList} {m : Mem HeapList}

/-- A result that is there is the next state. -/
theorem alive_of_defined {r : Option (Config HeapList)} (h : some (c.orCrash r) = some c')
    (defined : ∃ d, r = some d ∧ d.pc ≠ .crashed) : c'.pc ≠ .crashed := by
  obtain ⟨d, rfl, alive⟩ := defined
  cases h
  exact alive

theorem visitAll_defined (traversed : d.mem.queueItems ≠ none) :
    ∃ d', d.visitAll = some d' ∧ d'.pc ≠ .crashed := by
  obtain ⟨items, traversed⟩ := Option.ne_none_iff_exists'.mp traversed
  exact ⟨_, by rw [Config.visitAll, traversed]; rfl, by simp⟩

theorem afterSwitch_defined {k : Task} {p : EntryPtr} {ret : Bool}
    (traversed : d.mem.queueItems ≠ none) : ∃ d', d.afterSwitch k p ret = some d' ∧ d'.pc ≠ .crashed := by
  cases k with
  | restart =>
      exact visitAll_defined (d := { d with response := restartReply d.request }) traversed
  | _ => exact ⟨_, rfl, by simp⟩

/-- A node can be appended to a queue that is there. -/
theorem queuePush_defined {e : Entry} (wf : m.Wf) (traversed : m.downloadQueue.bind ListApi.items ≠ none) :
    ∃ m', m.queuePush true e = some m' := by
  obtain ⟨items, found⟩ := Option.ne_none_iff_exists'.mp traversed
  obtain ⟨list, hq, items⟩ := Option.bind_eq_some_iff.mp found
  obtain ⟨list', appended⟩ := (HeapList.Wf.append_defined (wf.downloadQueue list hq) true m.nextEntry).mpr
    ⟨rfl, by simp [items]⟩
  exact ⟨_, by rw [Mem.queuePush, hq, Option.bind_some, appended]; rfl⟩

/-- An entry can be taken out of a queue that can be traversed. -/
theorem removeEntry_defined (wf : m.Wf) (traversed : m.queueItems ≠ none) (id : CString) :
    ∃ r, m.removeEntry id = some r := by
  have lookup : m.findEntry id ≠ none := by
    rw [findEntry_items wf]
    simpa using traversed
  unfold Mem.removeEntry
  cases hq : m.downloadQueue with
  | none => exact ⟨_, rfl⟩
  | some list =>
      simp only [Mem.findEntry, Mem.getItem, hq] at lookup
      obtain ⟨r, removed⟩ := (HeapList.Wf.removeItem_defined (wf.downloadQueue list hq) _).mpr lookup
      exact ⟨_, by simp only [removed]; rfl⟩

/-- `queue_add_container`, up to the traversal. -/
theorem queueAppend_defined {request : Transaction} (wf : m.Wf)
    (finds : m.downloadQueue = none ∧ o.queueNew = false ∨
      m.queueItems ≠ none ∧ (HasId m request.id.name ∨ o.result = true ∨ o.entryNew = false ∨
        TargetFits o request ∧ o.node = true)) :
    ∃ r, m.queueAppend o request = some r ∧ (r.2.2 = true → r.1.queueItems ≠ none) := by
  by_cases there : m.downloadQueue = none ∧ o.queueNew = false
  · refine ⟨(m, reply request .failure "Not enough memory to create a download queue".toList, false), ?_,
      by simp⟩
    simp [Mem.queueAppend, Mem.queueInit, there.1, there.2]
  · obtain ⟨traversed, finds⟩ := finds.resolve_left there
    rw [queueAppend_eq wf there traversed]
    by_cases refusal : (decide (HasId m request.id.name) || o.result) = true
    · rw [if_pos refusal]
      exact ⟨_, rfl, by simp⟩
    · obtain ⟨fresh, clear⟩ : ¬ HasId m request.id.name ∧ o.result = false := by simpa using refusal
      rw [if_neg refusal]
      cases memory : o.entryNew with
      | false => exact ⟨_, rfl, by simp⟩
      | true =>
          obtain ⟨fits, node⟩ : TargetFits o request ∧ o.node = true := by
            simpa [fresh, clear, memory] using finds
          obtain ⟨entry, target⟩ : ∃ entry, entrySetTarget o.overrun entryNew request = some entry :=
            ⟨_, if_pos fits⟩
          obtain ⟨m₁, push, pushed⟩ := queuePush_pushed entry wf traversed there
          rw [if_pos rfl, target, Option.bind_some, node, push]
          exact ⟨_, rfl, fun _ => by simp [pushed.queueItems]⟩

/-- `pthread_cancel`, the removal of the record and its `free`. -/
theorem finishStop_defined {r : RecordPtr} {key : CString} (wf : m.Wf)
    (found : m.findRecord key ≠ none) (traversed : m.queueItems ≠ none) :
    ∃ ret, m.finishStop r key = some ret ∧ ret.2.queueItems ≠ none := by
  have wf' : (m.endThread (m.record r).thread).Wf := ⟨wf.downloadQueue, wf.threadList⟩
  obtain ⟨removed, removal⟩ := (removeRecord_defined wf' key).mpr found
  obtain ⟨ret, finished⟩ : ∃ ret, m.finishStop r key = some ret :=
    ⟨_, by rw [Mem.finishStop, removal]; rfl⟩
  obtain ⟨list, mem, -⟩ := Mem.finishStop_spec wf finished
  refine ⟨ret, finished, ?_⟩
  rw [mem]
  exact traversed

/-- A step of the controller that finds what it reads is none to `crashed`. -/
theorem control_survives (wf : c.mem.Wf) (defined : c.Defined o) (h : c.control max o = some c') :
    c'.pc ≠ .crashed := by
  cases pc : c.pc with
  | load entries =>
      simp only [Config.control, pc] at h
      split at h <;> cases h <;> simp
  | loading entries =>
      cases entries with
      | nil =>
          simp only [Config.Defined, pc] at defined
          simp only [Config.control, pc] at h
          exact alive_of_defined h (visitAll_defined defined)
      | cons e entries =>
          simp only [Config.Defined, pc] at defined
          simp only [Config.control, pc] at h
          split at h
          · next new =>
            obtain ⟨node, traversed⟩ := defined new
            obtain ⟨m, pushed⟩ := queuePush_defined (e := e) wf traversed
            rw [← node] at pushed
            exact alive_of_defined h ⟨_, by rw [pushed]; rfl, by simp⟩
          · cases h
            simp
  | add =>
      simp only [Config.Defined, pc] at defined
      obtain ⟨-, h⟩ := Config.control_add pc h
      obtain ⟨r, appended, traversed⟩ := queueAppend_defined wf defined
      refine alive_of_defined h ?_
      rw [appended, Option.bind_some]
      split
      · next added => exact visitAll_defined (traversed added)
      · exact ⟨_, rfl, by simp⟩
  | visit rest =>
      cases rest with
      | nil =>
          simp only [Config.control, pc] at h
          split at h <;> cases h <;> simp
      | cons p rest =>
          simp only [Config.control, pc] at h
          split at h <;> cases h <;> simp
  | count p rest =>
      simp only [Config.Defined, pc] at defined
      simp only [Config.control, pc, Mem.queueCountStarted_total wf defined, Option.map_some] at h
      refine alive_of_defined h ⟨_, rfl, ?_⟩
      split <;> simp
  | start p rest =>
      simp only [Config.Defined, pc] at defined
      simp only [Config.control, pc] at h
      obtain ⟨m, started⟩ := (downloadStart_defined (p := p) wf).mpr defined
      exact alive_of_defined h ⟨_, by rw [started]; rfl, by simp⟩
  | status =>
      simp only [Config.Defined, pc] at defined
      have init := queueInit_initialized wf o.queueNew
      rw [← init.queueItems] at defined
      obtain ⟨items, traversed⟩ := Option.ne_none_iff_exists'.mp defined
      simp only [Config.control, pc] at h
      split at h
      · cases h
        simp
      · exact alive_of_defined h ⟨_, by rw [traversed]; rfl, by simp⟩
  | report rest =>
      cases rest with
      | nil =>
          simp only [Config.control, pc] at h
          cases h
          simp
      | cons p rest =>
          simp only [Config.control, pc] at h
          cases h
          simp [Config.send]
  | lookup k =>
      simp only [Config.Defined, pc] at defined
      simp only [Config.control, pc] at h
      refine alive_of_defined h ?_
      obtain ⟨items, traversed⟩ := Option.ne_none_iff_exists'.mp defined
      rw [findEntry_items wf, traversed, Option.map_some, Option.bind_some]
      cases items.find? fun p => decide (c.mem.name p = c.request.id.name) with
      | none => exact ⟨_, rfl, by simp⟩
      | some p =>
          simp only
          split
          · exact ⟨_, rfl, by simp⟩
          · exact afterSwitch_defined defined
          · exact ⟨_, rfl, by simp⟩
  | assign k p =>
      simp only [Config.Defined, pc] at defined
      simp only [Config.control, pc] at h
      exact alive_of_defined h
        (afterSwitch_defined (d := { c with mem := c.mem.setStatus p k.value }) defined)
  | stop k p =>
      simp only [Config.Defined, pc] at defined
      simp only [Config.control, pc] at h
      refine alive_of_defined h ?_
      obtain ⟨found, lookup⟩ := Option.ne_none_iff_exists'.mp defined.2
      rw [lookup, Option.bind_some]
      cases found with
      | none => exact afterSwitch_defined defined.1
      | some r => exact ⟨_, rfl, by simp⟩
  | kill k p r =>
      simp only [Config.Defined, pc] at defined
      simp only [Config.control, pc] at h
      obtain ⟨ret, finished, traversed⟩ := finishStop_defined (r := r) wf defined.2 defined.1
      refine alive_of_defined h ?_
      rw [finished, Option.bind_some]
      exact afterSwitch_defined (d := { c with mem := ret.2 }) traversed
  | unlink p =>
      simp only [Config.Defined, pc] at defined
      simp only [Config.control, pc] at h
      obtain ⟨r, removed⟩ := removeEntry_defined wf defined c.request.id.name
      exact alive_of_defined h ⟨_, by rw [removed]; rfl, by simp⟩
  | saving rest =>
      cases rest with
      | nil =>
          simp only [Config.control, pc] at h
          cases h
          simp
      | cons p rest =>
          simp only [Config.control, pc] at h
          split at h <;> cases h <;> simp
  | write p rest =>
      simp only [Config.Defined, pc] at defined
      simp only [Config.control, pc] at h
      obtain ⟨name, named⟩ := Option.ne_none_iff_exists'.mp defined
      exact alive_of_defined h ⟨_, by rw [indexLine, named]; rfl, by simp⟩
  | mark | reset | respond =>
      simp only [Config.control, pc] at h
      cases h
      simp [Config.send]
  | idle | exited | crashed => simp [Config.control, pc] at h

theorem threadStep_defined {t : Thread} {a : ThreadAction} {r : Option (Mem HeapList)}
    (finds : a.Finds (m.entry t.entry).url) (h : m.threadStep t a = some r) : r ≠ none := by
  cases a with
  | openFile ok =>
      obtain ⟨name, named⟩ := Option.ne_none_iff_exists'.mp finds
      simp only [Mem.threadStep, named] at h
      split at h
      · cases h
        simp
      · cases h
  | progress dltotal dlnow first second =>
      simp only [Mem.threadStep, if_pos (show (m.entry t.entry).url.length < MAX_URL_LEN from finds)] at h
      split at h
      · cases h
        simp
      · cases h
  | started | perform =>
      simp only [Mem.threadStep] at h
      split at h
      · cases h
        simp
      · cases h
  | completed =>
      simp only [Mem.threadStep] at h
      split at h
      · cases h
        simp
      · cases h

/-- A step that finds what it reads is none to `crashed`. -/
theorem step_survives {a : Action} (wf : c.mem.Wf) (finds : c.Finds a) (h : c.step max a = some c') :
    c'.pc ≠ .crashed := by
  cases a with
  | request r response =>
      simp only [Config.step] at h
      split at h
      · cases h
        cases r.command <;> simp [Command.dispatch]
      · cases h
  | control o => exact control_survives wf finds h
  | thread tid a =>
      simp only [Config.step] at h
      split at h
      · next alive =>
        obtain ⟨t, found, h⟩ := Option.bind_eq_some_iff.mp h
        obtain ⟨r, stepped, rfl⟩ := Option.map_eq_some_iff.mp h
        obtain ⟨m, rfl⟩ := Option.ne_none_iff_exists'.mp (threadStep_defined (finds t found) stepped)
        exact alive.2
      · cases h
  | signal fopen =>
      simp only [Config.step] at h
      split at h
      · cases h
        unfold Config.terminate
        split
        · simp
        · split
          · next opened =>
            obtain ⟨items, traversed⟩ := Option.ne_none_iff_exists'.mp (finds opened)
            simp [Config.orCrash, traversed]
          · simp
      · cases h

end

end Dserve
