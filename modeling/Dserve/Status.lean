import Dserve.Sound

/-!
The life of a status.

The controller and the download threads write the status of an entry without
coordination. `Allowed` lists the changes that are meant to happen: an entry is
scheduled, its thread starts and completes it, a request pauses, restarts or cancels
it, and `queue_save` turns what was running into `WAITING`. A step is `Orderly` when no
thread writes the status of an entry the controller is in the middle of, and a `PAUSE` or
a save stops the thread of its entry. `Tracked` is what then holds of the statuses and the
threads, and `step_allowed` says that such a step makes an allowed change. `Cancelled`
puts the steps together to runs.
-/

namespace Dserve

/-- The command a task is part of. -/
def Task.command : Task → Option Command
  | .pause => some .pause
  | .cancel => some .cancel
  | .restart => some .restart
  | .save _ => none

/-- The task the controller is at. -/
def Pc.task : Pc → Option Task
  | .lookup k => some k
  | .assign k _ => some k
  | .stop k _ => some k
  | .kill k _ _ => some k
  | .unlink _ => some .cancel
  | _ => none

/-- A `CANCEL` has written `PAUSED` and will take `p` out of the queue. -/
def Pc.Cancelling (p : EntryPtr) : Pc → Prop
  | .kill .cancel q _ => q = p
  | .unlink q => q = p
  | _ => False

/-- The request is one of `command` for the id of `p`. -/
def View.Asks (v : View) (command : Command) (p : EntryPtr) : Prop :=
  v.request.command = command ∧ v.mem.name p = v.request.id.name

/-- The changes of the status of `p` that are meant to happen: in a step `a` from `v`
after which the controller is at `pc`. -/
inductive Allowed (v : View) (a : Action) (pc : Pc) (p : EntryPtr) :
    EntryStatus → EntryStatus → Prop where
  | scheduled {o : Outcome} {rest : List EntryPtr} : a = .control o → v.pc = .mark p rest →
      Allowed v a pc p .waiting .starting
  | started {t : Thread} : t ∈ v.mem.threads → t.entry = p → a = .thread t.tid .started →
      Allowed v a pc p .starting .started
  | completed {t : Thread} : t ∈ v.mem.threads → t.entry = p → a = .thread t.tid .completed →
      t.pc = .performed true → Allowed v a pc p .started .completed
  | paused {o : Outcome} {s : EntryStatus} : a = .control o → v.pc.task = some .pause →
      v.Asks .pause p → s = .waiting ∨ s.Running → Allowed v a pc p s .paused
  | restarted {o : Outcome} : a = .control o → v.pc.task = some .restart → v.Asks .restart p →
      Allowed v a pc p .paused .waiting
  | savePaused {o : Outcome} {rest : List EntryPtr} {s : EntryStatus} : a = .control o →
      v.pc = .stop (.save rest) p → s.Running → Allowed v a pc p s .paused
  | saved {o : Outcome} {rest : List EntryPtr} {s : EntryStatus} : a = .control o →
      v.pc = .reset p rest → s = .paused ∨ s.Running → Allowed v a pc p s .waiting
  | cancelled {o : Outcome} {s : EntryStatus} : a = .control o → v.pc.task = some .cancel →
      v.Asks .cancel p → pc.Cancelling p → Allowed v a pc p s .paused

namespace Allowed

variable {v : View} {a : Action} {pc : Pc} {p : EntryPtr} {s s' : EntryStatus}

/-- `PAUSED` is left by a `RESTART` of the id, or on the way through a save. -/
theorem leaves_paused (h : Allowed v a pc p .paused s') (changes : s' ≠ .paused) :
    s' = .waiting ∧ ((v.pc.task = some .restart ∧ v.Asks .restart p) ∨ ∃ rest, v.pc = .reset p rest) := by
  cases h with
  | paused | savePaused | cancelled => exact absurd rfl changes
  | restarted _ task asks => exact ⟨rfl, Or.inl ⟨task, asks⟩⟩
  | saved _ reset => exact ⟨rfl, Or.inr ⟨_, reset⟩⟩

/-- `STARTED` never falls back to `STARTING`. -/
theorem not_back : ¬ Allowed v a pc p .started .starting := by
  intro h
  cases h

/-- `COMPLETED` is final, but for a `CANCEL`. -/
theorem leaves_completed (h : Allowed v a pc p .completed s') :
    s' = .paused ∧ v.pc.task = some .cancel ∧ pc.Cancelling p := by
  cases h with
  | paused _ _ _ was => rcases was with h | h | h <;> cases h
  | savePaused _ _ was => rcases was with h | h <;> cases h
  | saved _ _ was => rcases was with h | h | h <;> cases h
  | cancelled _ task _ ahead => exact ⟨rfl, task, ahead⟩

/-- `COMPLETED` means that the transfer succeeded. -/
theorem completed_succeeded (h : Allowed v a pc p s .completed) :
    ∃ t ∈ v.mem.threads, t.entry = p ∧ a = .thread t.tid .completed ∧ t.pc = .performed true := by
  cases h with
  | completed ht entry action pc => exact ⟨_, ht, entry, action, pc⟩

end Allowed

/-! ### Orderly steps -/

/-- The entry the controller is in the middle of: it has read its status and goes by
it, or has written it for a thread that is not there any more or not yet. -/
def View.focus (v : View) : Option EntryPtr :=
  match v.pc with
  | .mark p _ => some p
  | .assign .pause p => some p
  | .stop .pause p => some p
  | .stop (.save _) p => some p
  | .kill _ _ r => some (v.mem.record r).entry
  | .unlink p => some p
  | _ => none

/-- A stop that finds a record finds one of `p`, unless its entry has left the queue;
what is paused has no other thread, and a save leaves no thread behind. -/
def StopsEntry (v : View) (k : Task) (p : EntryPtr) : Prop :=
  match v.mem.findRecord (v.stopId k p) with
  | none => True
  | some none =>
      match k with
      | .save _ => ¬ v.mem.Live p
      | _ => True
  | some (some r) =>
      ((v.mem.record r).entry ∈ v.mem.queue → (v.mem.record r).entry = p) ∧
        match k with
        | .cancel => True
        | .save _ => ∀ t ∈ v.mem.threads, t.entry = p → t.tid = (v.mem.record r).thread
        | _ => (v.mem.record r).entry = p →
            ∀ t ∈ v.mem.threads, t.entry = p → t.tid = (v.mem.record r).thread

instance (v : View) (k : Task) (p : EntryPtr) : Decidable (StopsEntry v k p) := by
  unfold StopsEntry
  generalize v.mem.findRecord (v.stopId k p) = found
  induction found using Option.casesOn with
  | none => infer_instance
  | some found =>
      induction found using Option.casesOn <;> induction k using Task.casesOn <;> infer_instance

/-- The thread may write the status of its entry. -/
def MayWrite (v : View) (t : Thread) : Prop :=
  t.entry ∈ v.mem.queue → v.focus ≠ some t.entry

instance (v : View) (t : Thread) : Decidable (MayWrite v t) := by
  unfold MayWrite
  infer_instance

/-- A step in good order. The controller loads statuses that have a name, pauses
entries without a thread and stops the thread of the entry it is asked to stop; a
thread keeps out of the entry the controller is in the middle of, and completes a
transfer that succeeded; a signal does not come between the writing of a status and
what belongs to it. -/
def Orderly (v : View) : Action → Prop
  | .control _ =>
      match v.pc with
      | .loading (e :: _) => e.status.Named
      | .assign .pause p => ¬ v.mem.Live p
      | .stop k p => StopsEntry v k p
      | _ => True
  | .thread tid .started => ∀ t ∈ v.mem.threads, t.tid = tid → MayWrite v t
  | .thread tid .completed => ∀ t ∈ v.mem.threads, t.tid = tid →
      MayWrite v t ∧ (t.entry ∈ v.mem.queue → t.pc = .performed true)
  | .signal _ =>
      match v.pc with
      | .mark p _ => ¬ v.mem.Live p
      | .kill _ _ _ => False
      | .unlink _ => False
      | _ => True
  | _ => True

instance (v : View) (a : Action) : Decidable (Orderly v a) := by
  unfold Orderly
  induction a using Action.casesOn with
  | control o =>
      generalize v.pc = pc
      induction pc using Pc.casesOn with
      | loading entries => induction entries using List.casesOn <;> infer_instance
      | assign k p => induction k using Task.casesOn <;> infer_instance
      | _ => infer_instance
  | thread tid a => induction a using ThreadAction.casesOn <;> infer_instance
  | signal fopen =>
      generalize v.pc = pc
      induction pc using Pc.casesOn <;> infer_instance
  | request r response => infer_instance

/-! ### The invariant -/

/-- The status an entry has while its thread is there. -/
def ThreadPc.status : ThreadPc → EntryStatus
  | .opening => .starting
  | .opened => .starting
  | .transferring => .started
  | .performed _ => .started

theorem ThreadPc.status_running (pc : ThreadPc) : pc.status.Running := by
  cases pc <;> simp [ThreadPc.status, EntryStatus.Running]

/-- The status of `q` is not that of its thread: `STARTING` is still to be written, or
`PAUSED` has been. -/
def View.Between (v : View) (q : EntryPtr) : Prop :=
  match v.pc with
  | .mark p _ => q = p
  | .kill _ _ r => q = (v.mem.record r).entry
  | .unlink p => q = p
  | _ => False

/-- What the controller has found out about the entry it is at. -/
def Knows (m : Mem List) : Pc → Prop
  | .count p _ => m.status p = .waiting
  | .start p _ => m.status p = .waiting
  | .mark p _ => m.status p = .waiting ∧ ∀ t ∈ m.threads, t.entry = p → t.pc.status = .starting
  | .assign .pause p => m.status p = .waiting ∨ m.status p = .starting ∨ m.status p = .paused
  | .assign .restart p => m.status p = .waiting ∨ m.status p = .paused
  | .assign (.save _) _ => False
  | .stop .pause p => (m.status p).Running
  | .stop (.save _) p => (m.status p).Running
  | .stop .restart _ => False
  | .kill k p r =>
      ((m.record r).entry ∈ m.queue → (m.record r).entry = p) ∧
        match k with
        | .cancel => True
        | .pause => (m.record r).entry = p →
            m.status p = .paused ∧ ∀ t ∈ m.threads, t.entry = p → t.tid = (m.record r).thread
        | .restart => False
        | .save _ => (m.status p = .paused ∨ (m.status p).Running) ∧
            ∀ t ∈ m.threads, t.entry = p → t.tid = (m.record r).thread
  | .reset p _ => (m.status p = .paused ∨ (m.status p).Running) ∧ ¬ m.Live p
  | _ => True

/-- The statuses in the queue, and the threads. -/
structure Tracked (v : View) : Prop where
  named : ∀ p ∈ v.mem.queue, (v.mem.status p).Named
  alone : ∀ t ∈ v.mem.threads, ∀ t' ∈ v.mem.threads, t.entry ∈ v.mem.queue →
    t'.entry = t.entry → t' = t
  tracks : ∀ t ∈ v.mem.threads, t.entry ∈ v.mem.queue → ¬ v.Between t.entry →
    v.mem.status t.entry = t.pc.status
  knows : Knows v.mem v.pc
  command : ∀ k command, v.pc.task = some k → k.command = some command →
    v.request.command = command

section

variable {dangles : Prop} {max : Nat} {v w : View}

theorem focus_of_between {q : EntryPtr} (h : v.Between q) : v.focus = some q := by
  unfold View.Between at h
  unfold View.focus
  split at h
  · next pc => rw [pc, h]
  · next pc => rw [pc, h]
  · next pc => rw [pc, h]
  · exact h.elim

theorem mem_of_ahead {p : EntryPtr} {pc : Pc} (sound : Sound v) (h : v.pc = pc) (hp : p ∈ pc.ahead) :
    p ∈ v.mem.queue := by
  have ahead := sound.ahead
  rw [h] at ahead
  exact ahead.subset hp

theorem Task.mem_ahead (k : Task) (p : EntryPtr) : p ∈ k.ahead p := by
  cases k <;> exact List.mem_cons_self

namespace Tracked

/-- An entry that is not running has no thread. -/
theorem not_live (inv : Tracked v) {p : EntryPtr} (hp : p ∈ v.mem.queue) (between : ¬ v.Between p)
    (halted : ¬ (v.mem.status p).Running) : ¬ v.mem.Live p := by
  rintro ⟨t, ht, rfl⟩
  rw [inv.tracks t ht hp between] at halted
  exact halted t.pc.status_running

/-- Where nothing is in between, each thread has its status. -/
theorem strict (inv : Tracked v) (calm : ∀ q, ¬ v.Between q) :
    ∀ t ∈ v.mem.threads, t.entry ∈ v.mem.queue → v.mem.status t.entry = t.pc.status :=
  fun t ht hq => inv.tracks t ht hq (calm _)

/-- A write to an entry without a thread. -/
theorem write (inv : Tracked v) {p : EntryPtr} {s : EntryStatus} {pc : Pc} (named : s.Named)
    (notLive : ¬ v.mem.Live p)
    (strict : ∀ t ∈ v.mem.threads, t.entry ∈ v.mem.queue → v.mem.status t.entry = t.pc.status)
    (knows : Knows (v.mem.setStatus p s) pc)
    (command : ∀ k command, pc.task = some k → k.command = some command →
      v.request.command = command) :
    Tracked { v with mem := v.mem.setStatus p s, pc := pc } := by
  refine ⟨?_, inv.alone, ?_, knows, command⟩
  · intro q hq
    rw [Mem.status_setStatus]
    split
    · exact named
    · exact inv.named q hq
  · intro t ht hq _
    have other : t.entry ≠ p := fun same => notLive ⟨t, ht, same⟩
    rw [Mem.status_setStatus, if_neg other]
    exact strict t ht hq

end Tracked

theorem after_task {queue : List EntryPtr} {p : EntryPtr} {k k' : Task} {pc : Pc}
    (after : View.After queue p k pc) (h : pc.task = some k') : k = k' := by
  cases after <;> cases h
  rfl

theorem goto_task {pc : Pc} {k : Task} {command : Command} (next : View.Goto max v pc)
    (h : pc.task = some k) (hk : k.command = some command) : v.pc.task = some k := by
  cases next with
  | stop pc | assign pc => cases h; rw [pc]; rfl
  | leave pc _ _ after | missing pc _ after => rw [pc, ← after_task after h]; rfl
  | running => cases h; cases hk
  | _ => cases h

theorem pauseChoice_assign {s : EntryStatus} (named : s.Named) (h : pauseChoice s = .assign) :
    s = .waiting ∨ s = .starting ∨ s = .paused := by
  cases s with
  | other => exact named.elim
  | waiting | starting | paused => simp
  | started | cancelled | completed => cases h

theorem restartChoice_assign {s : EntryStatus} (named : s.Named) (h : restartChoice s = .assign) :
    s = .waiting ∨ s = .paused := by
  cases s with
  | other => exact named.elim
  | waiting | paused => simp
  | starting | started | cancelled | completed => cases h

theorem pauseChoice_stop {s : EntryStatus} (h : pauseChoice s = .stop) : s.Running := by
  cases s <;> first | exact Or.inr rfl | cases h

theorem restartChoice_ne_stop {s : EntryStatus} : restartChoice s ≠ .stop := by
  cases s <;> simp [restartChoice]

/-- What the controller has found out, after a step that does not write. -/
theorem goto_knows {pc : Pc} {o : Outcome} (sound : Sound v) (inv : Tracked v)
    (orderly : Orderly v (.control o)) (next : View.Goto max v pc) : Knows v.mem pc := by
  have knows := inv.knows
  cases next with
  | waiting _ waiting => exact waiting
  | free h => rw [h] at knows; exact knows
  | @stop k p h named choice =>
      cases k with
      | pause => exact pauseChoice_stop choice
      | cancel => trivial
      | restart => exact absurd choice restartChoice_ne_stop
      | save rest => exact absurd h (sound.lookup rest)
  | @assign k p h named choice =>
      have status := inv.named p (List.mem_of_find?_eq_some named)
      cases k with
      | pause => exact pauseChoice_assign status choice
      | cancel => trivial
      | restart => exact restartChoice_assign status choice
      | save rest => exact absurd h (sound.lookup rest)
  | leave h _ _ after =>
      cases after with
      | save => exact absurd h (sound.lookup _)
      | _ => trivial
  | missing h found after =>
      cases after with
      | save =>
          rw [h] at knows
          simp only [Orderly, StopsEntry, h, found] at orderly
          exact ⟨Or.inr knows, orderly⟩
      | _ => trivial
  | running _ running => exact running
  | _ => trivial

theorem goto_calm {pc : Pc} (next : View.Goto max v pc) (q : EntryPtr) : ¬ v.Between q := by
  cases next with
  | noLoad h => rcases h with h | h <;> simp [View.Between, h]
  | _ => simp_all [View.Between]

theorem goto_tracked {pc : Pc} {o : Outcome} (sound : Sound v) (inv : Tracked v)
    (orderly : Orderly v (.control o)) (next : View.Goto max v pc) :
    Tracked { v with pc := pc } := by
  have strict := inv.strict (goto_calm next)
  refine ⟨inv.named, inv.alone, fun t ht hq _ => strict t ht hq,
    goto_knows (v := v) sound inv orderly next, ?_⟩
  intro k command task hk
  exact inv.command k command (goto_task next task hk) hk

/-- What follows a write that is the last one to the entry: there is no thread on it. -/
theorem after_knows {m : Mem List} {p : EntryPtr} {k : Task} {pc : Pc} {queue : List EntryPtr}
    (after : View.After queue p k pc)
    (saved : (∃ rest, k = .save rest) →
      (m.status p = .paused ∨ (m.status p).Running) ∧ ¬ m.Live p) : Knows m pc := by
  cases after with
  | save => exact saved ⟨_, rfl⟩
  | _ => trivial

theorem assign_tracked {k : Task} {p : EntryPtr} {pc : Pc} {o : Outcome} (sound : Sound v)
    (inv : Tracked v) (orderly : Orderly v (.control o)) (h : v.pc = .assign k p)
    (after : View.After v.mem.queue p k pc) :
    Tracked { v with mem := v.mem.setStatus p k.value, pc := pc } := by
  have hp : p ∈ v.mem.queue := mem_of_ahead sound h (k.mem_ahead p)
  have strict := inv.strict (by simp [View.Between, h])
  have knows := inv.knows
  rw [h] at knows
  have command : ∀ k' command, pc.task = some k' → k'.command = some command →
      v.request.command = command := by
    intro k' command task hk
    rw [← after_task after task] at hk
    exact inv.command k command (by rw [h]; rfl) hk
  cases after with
  | pause =>
      simp only [Orderly, h] at orderly
      exact inv.write trivial orderly strict trivial command
  | restart =>
      refine inv.write trivial (inv.not_live hp (by simp [View.Between, h]) ?_) strict trivial command
      rcases knows with status | status <;> rw [status] <;> decide
  | cancel =>
      -- from here on the entry may have a thread, until it is out of the queue
      refine ⟨?_, inv.alone, ?_, trivial, command⟩
      · intro q hq
        rw [Mem.status_setStatus]
        split
        · trivial
        · exact inv.named q hq
      · intro t ht hq between
        have other : t.entry ≠ p := between
        rw [Mem.status_setStatus, if_neg other]
        exact strict t ht hq
  | save => exact knows.elim

theorem stop_tracked {k : Task} {p : EntryPtr} {r : RecordPtr} {o : Outcome}
    (inv : Tracked v) (orderly : Orderly v (.control o)) (h : v.pc = .stop k p)
    (found : v.mem.findRecord (v.stopId k p) = some (some r)) :
    Tracked { v with mem := v.mem.setStatus (v.mem.record r).entry .paused, pc := .kill k p r } := by
  have strict := inv.strict (by simp [View.Between, h])
  have knows := inv.knows
  rw [h] at knows
  simp only [Orderly, StopsEntry, h, found] at orderly
  obtain ⟨own, stops⟩ := orderly
  refine ⟨?_, inv.alone, ?_, ⟨own, ?_⟩, ?_⟩
  · intro q hq
    rw [Mem.status_setStatus]
    split
    · trivial
    · exact inv.named q hq
  · intro t ht hq between
    have other : t.entry ≠ (v.mem.record r).entry := between
    rw [Mem.status_setStatus, if_neg other]
    exact strict t ht hq
  · cases k with
    | cancel => trivial
    | restart => exact knows
    | pause =>
        intro same
        have same : (v.mem.record r).entry = p := same
        refine ⟨?_, stops same⟩
        rw [Mem.status_setStatus, if_pos same.symm]
    | save rest =>
        refine ⟨?_, stops⟩
        rw [Mem.status_setStatus]
        split
        · exact Or.inl rfl
        · exact Or.inr knows
  · intro k' command task hk
    exact inv.command k' command (by rw [h]; exact task) hk

theorem kill_tracked {k : Task} {p : EntryPtr} {r : RecordPtr} {pc : Pc}
    {records : List (Option RecordPtr)} (inv : Tracked v) (h : v.pc = .kill k p r)
    (after : View.After v.mem.queue p k pc) :
    Tracked { v with
      mem := { v.mem.endThread (v.mem.record r).thread with
        threadList := some records, freed := Function.update v.mem.freed r true }
      pc := pc } := by
  have knows := inv.knows
  rw [h] at knows
  obtain ⟨own, knows⟩ := knows
  have left : ∀ t ∈ (v.mem.endThread (v.mem.record r).thread).threads,
      t ∈ v.mem.threads ∧ t.tid ≠ (v.mem.record r).thread := by
    intro t ht
    have := List.mem_filter.mp ht
    exact ⟨this.1, by simpa using this.2⟩
  have tracks : ∀ t ∈ (v.mem.endThread (v.mem.record r).thread).threads, t.entry ∈ v.mem.queue →
      t.entry ≠ (v.mem.record r).entry → v.mem.status t.entry = t.pc.status := by
    intro t ht hq other
    exact inv.tracks t (left t ht).1 hq (by simpa [View.Between, h] using other)
  refine ⟨inv.named, ?_, ?_, ?_, ?_⟩
  · intro t ht t' ht' hq same
    exact inv.alone t (left t ht).1 t' (left t' ht').1 hq same
  · intro t ht hq between
    apply tracks t ht hq
    intro same
    have atP : t.entry = p := by
      have hq : t.entry ∈ v.mem.queue := hq
      rw [same] at hq ⊢
      exact own hq
    cases after with
    | cancel => exact between atP
    | pause => exact (left t ht).2 ((knows (same ▸ atP)).2 t (left t ht).1 atP)
    | restart => exact knows
    | save => exact (left t ht).2 (knows.2 t (left t ht).1 atP)
  · refine after_knows after ?_
    rintro ⟨rest, rfl⟩
    refine ⟨knows.1, ?_⟩
    rintro ⟨t, ht, same⟩
    exact (left t ht).2 (knows.2 t (left t ht).1 same)
  · intro k' command task hk
    rw [← after_task after task] at hk
    exact inv.command k command (by rw [h]; rfl) hk

theorem push_tracked {e : Entry} {pc : Pc} (sound : Sound v) (inv : Tracked v) (named : e.status.Named)
    (calm : ∀ q, ¬ v.Between q) (knows : Knows (View.push v.mem e) pc) (task : pc.task = none) :
    Tracked { v with mem := View.push v.mem e, pc := pc } := by
  have strict := inv.strict calm
  -- the threads are at entries there were before
  have old : ∀ t ∈ v.mem.threads, t.entry ∈ (View.push v.mem e).queue → t.entry ∈ v.mem.queue := by
    intro t ht hq
    rw [View.push_queue] at hq
    rcases List.mem_append.mp hq with hq | hq
    · exact hq
    · exact absurd (List.mem_singleton.mp hq) (Nat.ne_of_lt (sound.mem.threadBelow t ht).2)
  refine ⟨?_, ?_, ?_, knows, ?_⟩
  · intro p hp
    rw [View.push_queue] at hp
    rcases List.mem_append.mp hp with hp | hp
    · rw [View.push_status (sound.mem.queueBelow p hp)]
      exact inv.named p hp
    · rw [List.mem_singleton.mp hp]
      simpa [View.push, Mem.status] using named
  · intro t ht t' ht' hq same
    exact inv.alone t ht t' ht' (old t ht hq) same
  · intro t ht hq _
    rw [View.push_status (sound.mem.threadBelow t ht).2]
    exact strict t ht (old t ht hq)
  · intro k command task'
    rw [show pc.task = some k from task'] at task
    cases task

theorem start_tracked {p : EntryPtr} {rest : List EntryPtr} (handle : CString) (sound : Sound v)
    (inv : Tracked v) (h : v.pc = .start p rest) :
    Tracked { v with
      mem := { v.mem.createThread p handle with
        threadList := some (v.mem.records ++ [some v.mem.nextRecord]) }
      pc := .mark p rest } := by
  have hp : p ∈ v.mem.queue := mem_of_ahead sound h List.mem_cons_self
  have calm : ∀ q, ¬ v.Between q := by simp [View.Between, h]
  have waiting := inv.knows
  rw [h] at waiting
  have notLive : ¬ v.mem.Live p := by
    apply inv.not_live hp (calm p)
    rw [show v.mem.status p = .waiting from waiting]
    decide
  -- the new thread is the only one at its entry
  have cases : ∀ t ∈ (v.mem.createThread p handle).threads,
      (t ∈ v.mem.threads ∧ t.entry ≠ p) ∨ t = ⟨v.mem.nextThread, p, .opening⟩ := by
    intro t ht
    rcases List.mem_append.mp ht with ht | ht
    · exact Or.inl ⟨ht, fun same => notLive ⟨t, ht, same⟩⟩
    · exact Or.inr (List.mem_singleton.mp ht)
  refine ⟨inv.named, ?_, ?_, ⟨waiting, ?_⟩, by simp [Pc.task]⟩
  · intro t ht t' ht' hq same
    rcases cases t ht with ⟨ht, other⟩ | rfl
    · rcases cases t' ht' with ⟨ht', -⟩ | rfl
      · exact inv.alone t ht t' ht' hq same
      · exact absurd same.symm other
    · rcases cases t' ht' with ⟨-, other⟩ | rfl
      · exact absurd same other
      · rfl
  · intro t ht hq between
    rcases cases t ht with ⟨ht, -⟩ | rfl
    · exact inv.strict calm t ht hq
    · exact absurd rfl between
  · intro t ht same
    rcases cases t ht with ⟨-, other⟩ | rfl
    · exact absurd same other
    · rfl

theorem mark_tracked {p : EntryPtr} {rest : List EntryPtr} (inv : Tracked v)
    (h : v.pc = .mark p rest) :
    Tracked { v with mem := v.mem.setStatus p .starting, pc := .visit rest } := by
  have knows := inv.knows
  rw [h] at knows
  refine ⟨?_, inv.alone, ?_, trivial, by simp [Pc.task]⟩
  · intro q hq
    rw [Mem.status_setStatus]
    split
    · trivial
    · exact inv.named q hq
  · intro t ht hq _
    rw [Mem.status_setStatus]
    split
    · next same => exact (knows.2 t ht same).symm
    · next other => exact inv.tracks t ht hq (by simpa [View.Between, h] using other)

theorem unlink_tracked {p : EntryPtr} {queue : List EntryPtr} (inv : Tracked v)
    (h : v.pc = .unlink p) (sub : queue.Sublist v.mem.queue) (gone : p ∉ queue) :
    Tracked { v with mem := { v.mem with downloadQueue := some queue }, pc := .respond } := by
  refine ⟨?_, ?_, ?_, trivial, by simp [Pc.task]⟩
  · intro q hq
    rw [Mem.queue_eq rfl] at hq
    exact inv.named q (sub.subset hq)
  · intro t ht t' ht' hq same
    rw [Mem.queue_eq rfl] at hq
    exact inv.alone t ht t' ht' (sub.subset hq) same
  · intro t ht hq _
    rw [Mem.queue_eq rfl] at hq
    refine inv.tracks t ht (sub.subset hq) ?_
    simp only [View.Between, h]
    rintro rfl
    exact gone hq

theorem move_tracked {o : Outcome} (sound : Sound v) (inv : Tracked v)
    (orderly : Orderly v (.control o)) (move : View.Move dangles max v w) (alive : w.pc ≠ .crashed) :
    Tracked w := by
  cases move with
  | crash => exact absurd rfl alive
  | goto next => exact goto_tracked sound inv orderly next
  | push h =>
      simp only [Orderly, h] at orderly
      exact push_tracked sound inv orderly (by simp [View.Between, h]) trivial rfl
  | added h target =>
      refine push_tracked sound inv ?_ (by simp [View.Between, h]) trivial rfl
      rw [(entrySetTarget_spec target).2.2.1]
      trivial
  | @notStarted p rest records h =>
      have calm : ∀ q, ¬ v.Between q := by simp [View.Between, h]
      have waiting := inv.knows
      rw [h] at waiting
      refine ⟨inv.named, inv.alone, fun t ht hq _ => inv.strict calm t ht hq, ⟨waiting, ?_⟩,
        by simp [Pc.task]⟩
      intro t ht same
      have hq : t.entry ∈ v.mem.queue := same ▸ mem_of_ahead sound h List.mem_cons_self
      have status := inv.strict calm t ht hq
      rw [same, show v.mem.status p = .waiting from waiting] at status
      exact absurd t.pc.status_running (by rw [← status]; decide)
  | started handle h => exact start_tracked handle sound inv h
  | mark h => exact mark_tracked inv h
  | statusBegin h | report h | write h =>
      have strict := inv.strict (by simp [View.Between, h])
      exact ⟨inv.named, inv.alone, fun t ht hq _ => strict t ht hq, trivial, by simp [Pc.task]⟩
  | assign h after => exact assign_tracked sound inv orderly h after
  | stop h found => exact stop_tracked inv orderly h found
  | kill h sub after => exact kill_tracked inv h after
  | unlink h unlinked =>
      obtain ⟨sub, gone⟩ := unlinked_gone sound h unlinked
      exact unlink_tracked inv h sub gone
  | reset h =>
      have knows := inv.knows
      rw [h] at knows
      exact inv.write trivial knows.2 (inv.strict (by simp [View.Between, h])) trivial (by simp [Pc.task])

/-- What the controller has found out outlives the step of a thread: a status that is
written is one the controller does not go by. -/
theorem thread_knows {t : Thread} {a : ThreadAction} {m : Mem List} (sound : Sound v)
    (inv : Tracked v) (ht : t ∈ v.mem.threads) (move : v.mem.ThreadMove t a m)
    (status : ∀ p ∈ v.mem.queue, m.status p = v.mem.status p ∨
      p = t.entry ∧ v.focus ≠ some p ∧ v.mem.status p = t.pc.status)
    (pcs : ∀ t' ∈ m.threads, t'.entry ∈ v.mem.queue → ∃ t₀ ∈ v.mem.threads, t'.entry = t₀.entry ∧
      (t'.pc.status = t₀.pc.status ∨ v.focus ≠ some t₀.entry)) : Knows m v.pc := by
  have knows := inv.knows
  have record := move.frame.2.2.1
  -- a status that is not running is not written, and neither is one in the focus
  have halted : ∀ p ∈ v.mem.queue, ¬ (v.mem.status p).Running → m.status p = v.mem.status p := by
    intro p hp halted
    rcases status p hp with same | ⟨-, -, running⟩
    · exact same
    · exact absurd (running ▸ t.pc.status_running) halted
  have focused : ∀ p ∈ v.mem.queue, v.focus = some p → m.status p = v.mem.status p := by
    intro p hp focus
    rcases status p hp with same | ⟨-, other, -⟩
    · exact same
    · exact absurd focus other
  have stays : ∀ p tid, (∀ t ∈ v.mem.threads, t.entry = p → t.tid = tid) →
      ∀ t ∈ m.threads, t.entry = p → t.tid = tid := by
    intro p tid all t' ht' same
    obtain ⟨t₀, ht₀, tid', entry⟩ := move.old ht'
    rw [tid']
    exact all t₀ ht₀ (entry ▸ same)
  cases h : v.pc with
  | count p rest | start p rest =>
      rw [h] at knows
      have hp := mem_of_ahead sound h List.mem_cons_self
      have waiting : v.mem.status p = .waiting := knows
      show m.status p = .waiting
      rw [halted p hp (by rw [waiting]; decide), waiting]
  | mark p rest =>
      rw [h] at knows
      have hp := mem_of_ahead sound h List.mem_cons_self
      have focus : v.focus = some p := by simp [View.focus, h]
      refine ⟨(focused p hp focus).trans knows.1, ?_⟩
      intro t' ht' same
      obtain ⟨t₀, ht₀, entry, pc | other⟩ := pcs t' ht' (same ▸ hp)
      · rw [pc]
        exact knows.2 t₀ ht₀ (entry ▸ same)
      · exact absurd (focus.trans (congrArg some (same.symm.trans entry))) other
  | assign k p =>
      rw [h] at knows
      have hp := mem_of_ahead sound h (k.mem_ahead p)
      cases k with
      | pause =>
          have focus : v.focus = some p := by simp [View.focus, h]
          simp only [Knows, focused p hp focus]
          exact knows
      | cancel => trivial
      | restart =>
          have quiet : ¬ (v.mem.status p).Running := by
            rcases knows with status | status <;> rw [status] <;> decide
          simp only [Knows, halted p hp quiet]
          exact knows
      | save => exact knows
  | stop k p =>
      rw [h] at knows
      have hp := mem_of_ahead sound h (k.mem_ahead p)
      cases k with
      | cancel => trivial
      | restart => exact knows
      | pause | save =>
          have focus : v.focus = some p := by simp [View.focus, h]
          simp only [Knows, focused p hp focus]
          exact knows
  | kill k p r =>
      rw [h] at knows
      have hp := mem_of_ahead sound h (k.mem_ahead p)
      have focus : v.focus = some (v.mem.record r).entry := by simp [View.focus, h]
      refine ⟨by rw [record, move.queue]; exact knows.1, ?_⟩
      cases k with
      | cancel => trivial
      | restart => exact knows.2
      | pause =>
          simp only [record]
          intro same
          obtain ⟨paused, all⟩ := knows.2 same
          exact ⟨(focused p hp (same ▸ focus)).trans paused, stays _ _ all⟩
      | save rest =>
          simp only [record]
          obtain ⟨halts, all⟩ := knows.2
          refine ⟨?_, stays _ _ all⟩
          rcases status p hp with same | ⟨rfl, other, -⟩
          · rw [same]
            exact halts
          · -- the thread of the record is at the entry of the record
            have own := sound.mem.truthful r (sound.record _ _ _ h) t ht (all t ht rfl)
            exact absurd (own ▸ focus) other
  | reset p rest =>
      rw [h] at knows
      have hp := mem_of_ahead sound h List.mem_cons_self
      obtain ⟨halts, notLive⟩ := knows
      refine ⟨?_, fun live => notLive (move.live live)⟩
      rcases status p hp with same | ⟨own, -, -⟩
      · rw [same]
        exact halts
      · exact absurd ⟨t, ht, own.symm⟩ notLive
  | _ => trivial

theorem Tracked.of_thread {t : Thread} {a : ThreadAction} {m : Mem List} (sound : Sound v)
    (inv : Tracked v) (move : v.mem.ThreadMove t a m)
    (named : ∀ p ∈ v.mem.queue, (m.status p).Named)
    (tracks : ∀ t' ∈ m.threads, t'.entry ∈ v.mem.queue → ¬ v.Between t'.entry →
      m.status t'.entry = t'.pc.status)
    (knows : Knows m v.pc) : Tracked { v with mem := m } := by
  refine ⟨?_, ?_, ?_, knows, inv.command⟩
  · show ∀ p ∈ m.queue, _
    rw [move.queue]
    exact named
  · intro t₁ h₁ t₂ h₂ hq same
    rw [move.queue] at hq
    obtain ⟨u₁, hu₁, tid₁, entry₁⟩ := move.old h₁
    obtain ⟨u₂, hu₂, tid₂, entry₂⟩ := move.old h₂
    have both := inv.alone u₁ hu₁ u₂ hu₂ (entry₁ ▸ hq) (entry₂.symm.trans (same.trans entry₁))
    refine List.inj_on_of_nodup_map (sound.mem.threadMove move).tids h₂ h₁ ?_
    rw [tid₁, tid₂, both]
  · intro t' ht' hq between
    rw [move.queue] at hq
    refine tracks t' ht' hq ?_
    simpa only [View.Between, move.frame.2.2.1] using between

/-- The status of a thread that may write. -/
theorem Tracked.status_of_mayWrite (inv : Tracked v) {t : Thread} (ht : t ∈ v.mem.threads)
    (hq : t.entry ∈ v.mem.queue) (may : MayWrite v t) : v.mem.status t.entry = t.pc.status :=
  inv.tracks t ht hq fun between => may hq (focus_of_between between)

/-- The steps of a thread that write no status. -/
theorem quiet_tracked {t : Thread} {a : ThreadAction} {m : Mem List} (sound : Sound v)
    (inv : Tracked v) (ht : t ∈ v.mem.threads) (move : v.mem.ThreadMove t a m)
    (status : ∀ p, m.status p = v.mem.status p)
    (old : ∀ t' ∈ m.threads, ∃ t₀ ∈ v.mem.threads, t'.entry = t₀.entry ∧ t'.pc.status = t₀.pc.status) :
    Tracked { v with mem := m } := by
  refine .of_thread sound inv move ?_ ?_ ?_
  · intro p hp
    rw [status]
    exact inv.named p hp
  · intro t' ht' hq between
    obtain ⟨t₀, ht₀, entry, pc⟩ := old t' ht'
    rw [status, entry, pc]
    exact inv.tracks t₀ ht₀ (entry ▸ hq) (entry ▸ between)
  · refine thread_knows sound inv ht move (fun p _ => Or.inl (status p)) ?_
    intro t' ht' _
    obtain ⟨t₀, ht₀, entry, pc⟩ := old t' ht'
    exact ⟨t₀, ht₀, entry, Or.inl pc⟩

/-- Where the threads are after one of them moved to `pc`. -/
theorem setPc_old {m : Mem List} {t : Thread} {pc : ThreadPc} (tids : (m.threads.map Thread.tid).Nodup)
    (ht : t ∈ m.threads) : ∀ t' ∈ (m.setPc t.tid pc).threads,
      t' ∈ m.threads ∧ t'.tid ≠ t.tid ∨ t' = { t with pc := pc } := by
  intro t' ht'
  obtain ⟨t₀, ht₀, rfl⟩ := List.mem_map.mp ht'
  by_cases same : t₀.tid = t.tid
  · obtain rfl := List.inj_on_of_nodup_map tids ht₀ ht same
    simp
  · simp [same, ht₀]

theorem thread_tracked {t : Thread} {a : ThreadAction} {m : Mem List} (sound : Sound v)
    (inv : Tracked v) (ht : t ∈ v.mem.threads) (orderly : Orderly v (.thread t.tid a))
    (move : v.mem.ThreadMove t a m) : Tracked { v with mem := m } := by
  -- a thread that moves on, with the same status
  have moved : ∀ {pc : ThreadPc}, pc.status = t.pc.status → ∀ t' ∈ (v.mem.setPc t.tid pc).threads,
      ∃ t₀ ∈ v.mem.threads, t'.entry = t₀.entry ∧ t'.pc.status = t₀.pc.status := by
    intro pc same t' ht'
    rcases setPc_old sound.mem.tids ht t' ht' with ⟨old, -⟩ | rfl
    · exact ⟨t', old, rfl, rfl⟩
    · exact ⟨t, ht, rfl, same⟩
  have status : ∀ p (s : EntryStatus), (v.mem.setStatus t.entry s).status p =
      if p = t.entry then s else v.mem.status p := fun p s => Mem.status_setStatus
  cases move with
  | opened pc => exact quiet_tracked sound inv ht (.opened pc) (fun _ => rfl) (moved (by rw [pc]; rfl))
  | performed pc =>
      exact quiet_tracked sound inv ht (.performed pc) (fun _ => rfl) (moved (by rw [pc]; rfl))
  | openFailed pc =>
      refine quiet_tracked sound inv ht (.openFailed pc) (fun _ => rfl) ?_
      intro t' ht'
      exact ⟨t', (List.mem_filter.mp ht').1, rfl, rfl⟩
  | @progress dltotal dlnow first second pc hfirst hsecond fits =>
      refine quiet_tracked (a := .progress dltotal dlnow first second) sound inv ht
        (.progress pc hfirst hsecond fits) ?_ (fun t' ht' => ⟨t', ht', rfl, rfl⟩)
      intro p
      by_cases h : p = t.entry
      · subst h
        simp [Mem.status, Mem.setEntry]
      · simp [Mem.status, Mem.setEntry, h]
  | started pc =>
      have may : MayWrite v t := orderly t ht rfl
      have written := inv.status_of_mayWrite ht
      refine .of_thread sound inv (.started pc) ?_ ?_ (thread_knows sound inv ht (.started pc) ?_ ?_)
      · intro p hp
        show ((v.mem.setStatus t.entry .started).status p).Named
        rw [status]
        split
        · trivial
        · exact inv.named p hp
      · intro t' ht' hq between
        show (v.mem.setStatus t.entry .started).status t'.entry = _
        rw [status]
        rcases setPc_old sound.mem.tids ht t' ht' with ⟨old, other⟩ | rfl
        · have differ : t'.entry ≠ t.entry := fun same =>
            other (congrArg Thread.tid (inv.alone t ht t' old (same ▸ hq) same))
          rw [if_neg differ]
          exact inv.tracks t' old hq between
        · exact if_pos rfl
      · intro p hp
        by_cases own : p = t.entry
        · subst own
          exact Or.inr ⟨rfl, may hp, written hp may⟩
        · exact Or.inl ((status p .started).trans (if_neg own))
      · intro t' ht' hq
        rcases setPc_old sound.mem.tids ht t' ht' with ⟨old, -⟩ | rfl
        · exact ⟨t', old, rfl, Or.inl rfl⟩
        · exact ⟨t, ht, rfl, Or.inr (may hq)⟩
  | @completed ok pc =>
      have may : MayWrite v t := (orderly t ht rfl).1
      have written := inv.status_of_mayWrite ht
      have left : ∀ t' ∈ ((v.mem.setStatus t.entry .completed).endThread t.tid).threads,
          t' ∈ v.mem.threads ∧ t'.tid ≠ t.tid := by
        intro t' ht'
        have := List.mem_filter.mp ht'
        exact ⟨this.1, by simpa using this.2⟩
      refine .of_thread sound inv (.completed pc) ?_ ?_
        (thread_knows sound inv ht (.completed pc) ?_ ?_)
      · intro p hp
        show ((v.mem.setStatus t.entry .completed).status p).Named
        rw [status]
        split
        · trivial
        · exact inv.named p hp
      · intro t' ht' hq between
        obtain ⟨old, other⟩ := left t' ht'
        show (v.mem.setStatus t.entry .completed).status t'.entry = _
        have differ : t'.entry ≠ t.entry := fun same =>
          other (congrArg Thread.tid (inv.alone t ht t' old (same ▸ hq) same))
        rw [status, if_neg differ]
        exact inv.tracks t' old hq between
      · intro p hp
        by_cases own : p = t.entry
        · subst own
          exact Or.inr ⟨rfl, may hp, written hp may⟩
        · exact Or.inl ((status p .completed).trans (if_neg own))
      · intro t' ht' _
        exact ⟨t', (left t' ht').1, rfl, Or.inl rfl⟩

theorem dispatch_task {command : Command} {k : Task} (h : command.dispatch.task = some k) :
    k.command = some command := by
  cases command <;> cases h <;> rfl

/-- When a signal comes, each thread has its status. -/
theorem signal_strict {fopen : Bool} (inv : Tracked v)
    (orderly : Orderly v (.signal fopen)) :
    ∀ t ∈ v.mem.threads, t.entry ∈ v.mem.queue → v.mem.status t.entry = t.pc.status := by
  intro t ht hq
  refine inv.tracks t ht hq ?_
  unfold View.Between
  unfold Orderly at orderly
  split
  · next h =>
    rw [h] at orderly
    rintro rfl
    exact orderly ⟨t, ht, rfl⟩
  · next h =>
    rw [h] at orderly
    exact orderly.elim
  · next h =>
    rw [h] at orderly
    exact orderly.elim
  · exact id

theorem step_tracked {a : Action} (sound : Sound v) (inv : v.pc ≠ .crashed → Tracked v)
    (orderly : Orderly v a) (step : View.Step dangles max v a w) (alive : w.pc ≠ .crashed) :
    Tracked w := by
  cases step with
  | @control o w move =>
      refine move_tracked sound (inv ?_) orderly move alive
      intro crashed
      cases move with
      | crash => exact alive rfl
      | goto next =>
          cases next with
          | noLoad h => rcases h with h | h <;> simp [h] at crashed
          | _ => simp_all
      | _ => simp_all
  | @thread tid t a m _ running found stepped =>
      obtain ⟨ht, rfl⟩ := Mem.thread?_eq_some v.mem found
      exact thread_tracked sound (inv running) ht orderly (Mem.threadStep_move stepped)
  | threadCrash => exact absurd rfl alive
  | @request r response idle =>
      have inv := inv (by simp [idle])
      have strict := inv.strict (by simp [View.Between, idle])
      refine ⟨inv.named, inv.alone, fun t ht hq _ => strict t ht hq, ?_, ?_⟩
      · show Knows v.mem r.command.dispatch
        cases r.command <;> trivial
      · intro k command task hk
        have own := dispatch_task task
        exact Option.some.inj (own.symm.trans hk)
  | @save fopen _ running =>
      have strict := signal_strict (inv running) orderly
      exact ⟨(inv running).named, (inv running).alone, fun t ht hq _ => strict t ht hq, trivial,
        by simp [Pc.task]⟩
  | @terminate fopen pc _ running ended =>
      have strict := signal_strict (inv running) orderly
      rcases ended with rfl | rfl <;>
        exact ⟨(inv running).named, (inv running).alone, fun t ht hq _ => strict t ht hq, trivial,
          by simp [Pc.task]⟩

/-! ### The changes -/

theorem asks_of_task {k : Task} {command : Command} {p : EntryPtr} (sound : Sound v) (inv : Tracked v)
    (task : v.pc.task = some k) (hk : k.command = some command) (subject : v.pc.subject = some p) :
    v.Asks command p := by
  have named := List.find?_some (sound.named p subject)
  exact ⟨inv.command k command task hk, by simpa using named⟩

/-- Where a write of the status of `q` leaves the others alone. -/
theorem allowed_setStatus {a : Action} {pc : Pc} {m : Mem List} {q : EntryPtr} {s : EntryStatus}
    {p : EntryPtr} (status : m.status = (v.mem.setStatus q s).status)
    (own : p = q → s = v.mem.status p ∨ Allowed v a pc p (v.mem.status p) s) :
    m.status p = v.mem.status p ∨ Allowed v a pc p (v.mem.status p) (m.status p) := by
  rw [status, Mem.status_setStatus]
  split
  · next same => exact own same
  · exact Or.inl rfl

theorem move_allowed {o : Outcome} {p : EntryPtr} (sound : Sound v) (inv : Tracked v)
    (orderly : Orderly v (.control o)) (move : View.Move dangles max v w) (hp : p ∈ v.mem.queue) :
    w.mem.status p = v.mem.status p ∨
      Allowed v (.control o) w.pc p (v.mem.status p) (w.mem.status p) := by
  have knows := inv.knows
  cases move with
  | crash | goto | notStarted | started | statusBegin | report | kill | unlink | write =>
      exact Or.inl rfl
  | push | added => exact Or.inl (View.push_status (sound.mem.queueBelow p hp))
  | mark h =>
      refine allowed_setStatus rfl ?_
      rintro rfl
      rw [h] at knows
      rw [knows.1]
      exact Or.inr (.scheduled rfl h)
  | @assign k q pc h after =>
      refine allowed_setStatus rfl ?_
      rintro rfl
      have asks : ∀ command, k.command = some command → k.subject p = some p → v.Asks command p :=
        fun command hk subject => asks_of_task sound inv (by rw [h]; rfl) hk (by rw [h]; exact subject)
      rw [h] at knows
      cases after with
      | pause =>
          have allowed : v.mem.status p = .waiting ∨ (v.mem.status p).Running →
              Allowed v (.control o) .respond p (v.mem.status p) .paused :=
            .paused rfl (by rw [h]; rfl) (asks .pause rfl rfl)
          rcases knows with status | status | status
          · exact Or.inr (allowed (Or.inl status))
          · exact Or.inr (allowed (Or.inr (Or.inl status)))
          · exact Or.inl status.symm
      | restart =>
          rcases knows with status | status
          · exact Or.inl status.symm
          · rw [status]
            exact Or.inr (.restarted rfl (by rw [h]; rfl) (asks .restart rfl rfl))
      | cancel => exact Or.inr (.cancelled rfl (by rw [h]; rfl) (asks .cancel rfl rfl) rfl)
      | save => exact knows.elim
  | @stop k q r h found =>
      refine allowed_setStatus rfl ?_
      intro own
      simp only [Orderly, StopsEntry, h, found] at orderly
      obtain rfl : p = q := own.trans (orderly.1 (own ▸ hp))
      have asks : ∀ command, k.command = some command → k.subject p = some p → v.Asks command p :=
        fun command hk subject => asks_of_task sound inv (by rw [h]; rfl) hk (by rw [h]; exact subject)
      rw [h] at knows
      cases k with
      | pause => exact Or.inr (.paused rfl (by rw [h]; rfl) (asks .pause rfl rfl) (Or.inr knows))
      | cancel => exact Or.inr (.cancelled rfl (by rw [h]; rfl) (asks .cancel rfl rfl) rfl)
      | restart => exact knows.elim
      | save rest => exact Or.inr (.savePaused rfl h knows)
  | reset h =>
      refine allowed_setStatus rfl ?_
      rintro rfl
      rw [h] at knows
      exact Or.inr (.saved rfl h knows.1)

theorem thread_allowed {t : Thread} {a : ThreadAction} {m : Mem List} {p : EntryPtr} (inv : Tracked v)
    (ht : t ∈ v.mem.threads) (orderly : Orderly v (.thread t.tid a)) (move : v.mem.ThreadMove t a m)
    (hp : p ∈ v.mem.queue) : m.status p = v.mem.status p ∨
      Allowed v (.thread t.tid a) v.pc p (v.mem.status p) (m.status p) := by
  cases move with
  | opened | openFailed | performed => exact Or.inl rfl
  | progress =>
      left
      by_cases h : p = t.entry
      · subst h
        simp [Mem.status, Mem.setEntry]
      · simp [Mem.status, Mem.setEntry, h]
  | started pc =>
      refine allowed_setStatus rfl ?_
      rintro rfl
      have may : MayWrite v t := orderly t ht rfl
      rw [inv.status_of_mayWrite ht hp may, pc]
      exact Or.inr (.started ht rfl rfl)
  | @completed ok pc =>
      refine allowed_setStatus rfl ?_
      rintro rfl
      have may : MayWrite v t := (orderly t ht rfl).1
      have succeeded := (orderly t ht rfl).2 hp
      rw [inv.status_of_mayWrite ht hp may, pc]
      exact Or.inr (.completed ht rfl rfl succeeded)

theorem step_allowed {a : Action} {p : EntryPtr} (sound : Sound v) (inv : v.pc ≠ .crashed → Tracked v)
    (orderly : Orderly v a) (step : View.Step dangles max v a w) (hp : p ∈ v.mem.queue) :
    w.mem.status p = v.mem.status p ∨ Allowed v a w.pc p (v.mem.status p) (w.mem.status p) := by
  cases step with
  | @control o w move =>
      by_cases crashed : v.pc = .crashed
      · left
        cases move <;> first | rfl | simp_all
      · exact move_allowed sound (inv crashed) orderly move hp
  | thread _ running found stepped =>
      obtain ⟨ht, rfl⟩ := Mem.thread?_eq_some v.mem found
      exact thread_allowed (inv running) ht orderly (Mem.threadStep_move stepped) hp
  | threadCrash | request | save | terminate => exact Or.inl rfl

/-- A `CANCEL` that has written `PAUSED` goes on until the entry is out of the queue. -/
theorem step_cancelling {a : Action} {p : EntryPtr} (sound : Sound v) (orderly : Orderly v a)
    (step : View.Step dangles max v a w) (cancelling : v.pc.Cancelling p) :
    w.pc.Cancelling p ∨ p ∉ w.mem.queue ∨ w.pc = .crashed := by
  have places : (∃ r, v.pc = .kill .cancel p r) ∨ v.pc = .unlink p := by
    unfold Pc.Cancelling at cancelling
    split at cancelling
    · next h => exact Or.inl ⟨_, cancelling ▸ h⟩
    · next h => exact Or.inr (cancelling ▸ h)
    · exact cancelling.elim
  cases step with
  | control move =>
      cases move with
      | crash => exact Or.inr (Or.inr rfl)
      | goto next =>
          cases next with
          | noLoad h => rcases h with h | h <;> simp [h] at places
          | _ => simp_all
      | kill h _ after =>
          obtain ⟨rfl, rfl⟩ : _ = Task.cancel ∧ _ = p := by simpa [h] using places
          cases after
          exact Or.inl rfl
      | @unlink q queue h unlinked =>
          obtain rfl : q = p := by simpa [h] using places
          refine Or.inr (Or.inl ?_)
          rw [Mem.queue_eq rfl]
          exact (unlinked_gone sound h unlinked).2
      | _ => simp_all
  | thread => exact Or.inl cancelling
  | threadCrash => exact Or.inr (Or.inr rfl)
  | request idle => simp [idle] at places
  | save | terminate =>
      rcases places with ⟨r, h⟩ | h <;>
        · simp only [Orderly, h] at orderly

end

end Dserve
