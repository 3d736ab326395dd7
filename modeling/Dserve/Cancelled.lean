import Dserve.Status

/-!
Threads that were cancelled and have not stopped.

`pthread_cancel` only requests the end of a thread: it acts on the request at its next
cancellation point, and until then it goes on. The `controller` stops it at once.
`deferred` is the same machine with the threads that still have to stop: a cancelled
thread takes the steps of any other, but nobody waits for it and no record names it. The
runs in which none of them steps are those of the controller (`deferred_controller`).

The life of a status is told here for all of these runs (`status_changes_allowed`): a
cancelled thread must not write the status of an entry that is in the queue. One that has
left `curl_easy_perform` does, and turns the `PAUSED` of a `PAUSE` into `COMPLETED`.
-/

namespace Dserve

/-- The controller process with the cancelled threads that have not stopped. -/
structure Deferred (L : Type → Type) where
  config : Config L
  cancelled : List Thread

inductive DeferredAction where
  /-- a step of the controller, of a thread nobody cancelled, or a signal -/
  | base (a : Action)
  | cancelled (tid : Tid) (a : ThreadAction)
  /-- the thread acts on its cancellation -/
  | stop (tid : Tid)
deriving DecidableEq

namespace Deferred

variable {L : Type → Type}

/-- The memory as the cancelled threads see it: they are the ones that run. -/
def lingering (s : Deferred L) : Mem L := { s.config.mem with threads := s.cancelled }

/-- The threads a step of the controller cancels. -/
def cancels (c : Config L) : Action → List Thread
  | .control _ =>
      match c.pc with
      | .kill _ _ r => c.mem.threads.filter fun t => t.tid = (c.mem.record r).thread
      | _ => []
  | _ => []

variable [ListApi L]

def step (max : Nat) (s : Deferred L) : DeferredAction → Option (Deferred L)
  | .base a => (s.config.step max a).map fun c => ⟨c, s.cancelled ++ cancels s.config a⟩
  | .cancelled tid a =>
      if s.config.Alive then
        (s.lingering.thread? tid).bind fun t => (s.lingering.threadStep t a).map fun
          | none => { s with config := s.config.crash }
          | some m =>
              { config := { s.config with mem := { m with threads := s.config.mem.threads } }
                cancelled := m.threads }
      else none
  | .stop tid =>
      if s.config.Alive then
        (s.lingering.thread? tid).map fun _ =>
          { s with cancelled := s.cancelled.filter fun t => t.tid ≠ tid }
      else none

end Deferred

/-- The controller, in which a cancelled thread stops when it acts on the request. -/
def deferred (L : Type → Type) [ListApi L] (max : Nat) : Machine (Deferred L) DeferredAction :=
  ⟨Deferred.step max⟩

/-! ### The runs of the controller -/

section

variable {L : Type → Type} [ListApi L] {max : Nat} {ok : Config L → Action → Prop}

/-- No cancelled thread takes a step, and the others are as `ok` says. -/
def Deferred.Instant (ok : Config L → Action → Prop) (s : Deferred L) : DeferredAction → Prop
  | .base a => ok s.config a
  | .cancelled _ _ => False
  | .stop _ => True

/-- The controller of the other modules is the machine with deferred cancellation, in the
runs in which no cancelled thread takes a step. -/
theorem deferred_controller {c c' : Config L} {xs : List Thread} :
    (controller L max).Run ok c c' ↔
      ∃ ys, (deferred L max).Run (Deferred.Instant ok) ⟨c, xs⟩ ⟨c', ys⟩ := by
  constructor
  · intro run
    induction run with
    | refl => exact ⟨xs, .refl⟩
    | @tail d d' a _ good step ih =>
        obtain ⟨ys, run⟩ := ih
        refine ⟨ys ++ Deferred.cancels d a, run.tail (a := .base a) good ?_⟩
        have step : d.step max a = some d' := step
        simp [deferred, Deferred.step, step]
  · rintro ⟨ys, run⟩
    refine Machine.Run.invariant (I := fun s => (controller L max).Run ok c s.config) run .refl ?_
    intro s a s' before good step
    cases a with
    | base a =>
        obtain ⟨d, stepped, rfl⟩ := Option.map_eq_some_iff.mp step
        exact before.tail good stepped
    | cancelled => exact good.elim
    | stop tid =>
        simp only [deferred, Deferred.step] at step
        split at step
        · obtain ⟨t, -, rfl⟩ := Option.map_eq_some_iff.mp step
          exact before
        · cases step

/-! ### The step of a cancelled thread -/

/-- What the step of a cancelled thread does: it writes the entry it works on, or it ends
the process. -/
theorem Deferred.step_cancelled {s s' : Deferred L} {tid : Tid} {a : ThreadAction}
    (h : s.step max (.cancelled tid a) = some s') :
    s.config.Alive ∧ ∃ t ∈ s.cancelled, t.tid = tid ∧
      (s'.config = s.config.crash ∨ ∃ m, s.lingering.ThreadMove t a m ∧
        s'.config = { s.config with mem := { s.config.mem with entry := m.entry } }) := by
  simp only [Deferred.step] at h
  split at h
  · next alive =>
    obtain ⟨t, found, h⟩ := Option.bind_eq_some_iff.mp h
    obtain ⟨ht, own⟩ := Mem.thread?_eq_some _ found
    obtain ⟨m, stepped, rfl⟩ := Option.map_eq_some_iff.mp h
    refine ⟨alive, t, ht, own, ?_⟩
    cases m with
    | none => exact Or.inl rfl
    | some m =>
        have move := Mem.threadStep_move stepped
        refine Or.inr ⟨m, move, ?_⟩
        cases move <;> rfl
  · cases h

end

section

variable {v : View}

/-- The entries may be written, as long as they keep their ids. -/
theorem Sound.rewrite (sound : Sound v) {entry : EntryPtr → Entry}
    (id : ∀ p, (entry p).id = (v.mem.entry p).id) :
    Sound { v with mem := { v.mem with entry := entry } } := by
  obtain ⟨mem, ahead, record, lookup, named⟩ := sound
  refine ⟨?_, ahead, record, lookup, ?_⟩
  · exact ⟨mem.tids, mem.threadBelow, mem.recordBelow, mem.truthful, mem.listed, mem.queueBelow,
      mem.queueNodup⟩
  · intro p subject
    have same := named_congr (v := v) (w := { v with mem := { v.mem with entry := entry } }) rfl rfl
      fun p => congrArg TrxId.name (id p)
    exact same.trans (named p subject)

/-- What the controller has found out stays true where the entries keep their statuses. -/
theorem Knows.rewrite {entry : EntryPtr → Entry} {pc : Pc} (knows : Knows v.mem pc)
    (status : ∀ p ∈ pc.ahead, (entry p).status = v.mem.status p) :
    Knows { v.mem with entry := entry } pc := by
  have same : ∀ p ∈ pc.ahead, Mem.status { v.mem with entry := entry } p = v.mem.status p := status
  cases pc with
  | count p rest | start p rest => exact (same p List.mem_cons_self).trans knows
  | mark p rest => exact ⟨(same p List.mem_cons_self).trans knows.1, knows.2⟩
  | assign k p =>
      have own := same p (k.mem_ahead p)
      cases k with
      | pause | restart =>
          simp only [Knows, own]
          exact knows
      | cancel => trivial
      | save => exact knows
  | stop k p =>
      have own := same p (k.mem_ahead p)
      cases k with
      | pause | save =>
          simp only [Knows, own]
          exact knows
      | cancel => trivial
      | restart => exact knows
  | kill k p r =>
      have own := same p (k.mem_ahead p)
      refine ⟨knows.1, ?_⟩
      cases k with
      | pause | save =>
          simp only [own]
          exact knows.2
      | cancel => trivial
      | restart => exact knows.2
  | reset p rest =>
      have own := same p List.mem_cons_self
      exact ⟨by rw [own]; exact knows.1, knows.2⟩
  | _ => trivial

theorem Tracked.rewrite (sound : Sound v) (inv : Tracked v) {entry : EntryPtr → Entry}
    (status : ∀ p ∈ v.mem.queue, (entry p).status = v.mem.status p) :
    Tracked { v with mem := { v.mem with entry := entry } } := by
  refine ⟨?_, inv.alone, ?_, ?_, inv.command⟩
  · intro p hp
    show (entry p).status.Named
    rw [status p hp]
    exact inv.named p hp
  · intro t ht hq between
    exact (status t.entry hq).trans (inv.tracks t ht hq between)
  · exact inv.knows.rewrite fun p hp => status p (sound.ahead.subset hp)

end

/-! ### Orderly steps -/

/-- A step in good order: as for the controller, and a cancelled thread writes no status of
an entry that is in the queue. -/
def Deferred.Orderly (s : Deferred HeapList) : DeferredAction → Prop
  | .base a => Dserve.Orderly s.config.view a
  | .cancelled tid a => a = .started ∨ a = .completed →
      ∀ t ∈ s.cancelled, t.tid = tid → t.entry ∉ s.config.mem.queue
  | .stop _ => True

instance (s : Deferred HeapList) (a : DeferredAction) : Decidable (s.Orderly a) := by
  unfold Deferred.Orderly
  induction a using DeferredAction.casesOn <;> infer_instance

section

variable {max : Nat} {s s' : Deferred HeapList} {a : DeferredAction}

/-- What holds in the runs in good order. -/
structure Deferred.Inv (s : Deferred HeapList) : Prop where
  wf : s.config.mem.Wf
  sound : Sound s.config.view
  tracked : s.config.pc ≠ .crashed → Tracked s.config.view

/-- In good order, the step of a cancelled thread leaves the statuses in the queue alone. -/
theorem cancelled_status {tid : Tid} {t : Thread} {a : ThreadAction} {m : Mem HeapList}
    (orderly : s.Orderly (.cancelled tid a)) (ht : t ∈ s.cancelled) (own : t.tid = tid)
    (move : s.lingering.ThreadMove t a m) :
    ∀ p ∈ s.config.mem.queue, (m.entry p).status = s.config.mem.status p := by
  intro p hp
  have other : a = .started ∨ a = .completed → p ≠ t.entry := by
    rintro writes rfl
    exact orderly writes t ht own hp
  rcases move.statusCases with ⟨-, same⟩ | ⟨started, -, same⟩ | ⟨completed, -, same, -⟩
  · exact same p
  · exact (same p).trans (if_neg (other (Or.inl started)))
  · exact (same p).trans (if_neg (other (Or.inr completed)))

theorem Deferred.Inv.step (inv : s.Inv) (orderly : s.Orderly a) (h : s.step max a = some s') :
    s'.Inv := by
  cases a with
  | base a =>
      obtain ⟨c, step, rfl⟩ := Option.map_eq_some_iff.mp h
      obtain ⟨wf, view⟩ := step_view inv.wf step
      exact ⟨wf, step_sound inv.sound view, step_tracked inv.sound inv.tracked orderly view⟩
  | cancelled tid a =>
      obtain ⟨alive, t, ht, own, crashed | ⟨m, move, config⟩⟩ := Deferred.step_cancelled h
      · refine ⟨?_, ?_, ?_⟩
        · rw [crashed]
          exact inv.wf
        · rw [crashed]
          exact step_sound inv.sound
            (@View.Step.threadCrash (LawfulListApi.Dangles HeapList) max _ tid a)
        · rw [crashed]
          exact fun h => absurd rfl h
      · have status := cancelled_status orderly ht own move
        rw [← Mem.abs_queue] at status
        refine ⟨?_, ?_, ?_⟩
        · rw [config]
          exact ⟨inv.wf.downloadQueue, inv.wf.threadList⟩
        · rw [config]
          exact inv.sound.rewrite fun p => (move.idUrl p).1
        · rw [config]
          exact fun running => (inv.tracked running).rewrite inv.sound status
  | stop tid =>
      simp only [Deferred.step] at h
      split at h
      · obtain ⟨t, -, rfl⟩ := Option.map_eq_some_iff.mp h
        exact ⟨inv.wf, inv.sound, inv.tracked⟩
      · cases h

theorem Deferred.inv_of_run {entries : List Entry}
    (run : (deferred HeapList max).Run Deferred.Orderly ⟨boot HeapList entries, []⟩ s) : s.Inv := by
  refine run.invariant ⟨boot_wf entries, boot_sound entries, fun _ => ⟨?_, ?_, ?_, trivial, ?_⟩⟩
    fun _ _ _ inv orderly step => inv.step orderly step
  all_goals simp [Config.view, boot, Mem.abs, Mem.queue, Mem.contents, ListApi.toList, Pc.task]

/-- In a run in good order, a step in good order changes the status of an entry of the
queue in one of the allowed ways only, and a `CANCEL` that has written `PAUSED` goes
on until the entry is out of the queue. -/
theorem status_changes_allowed {entries : List Entry}
    (run : (deferred HeapList max).Run Deferred.Orderly ⟨boot HeapList entries, []⟩ s)
    (orderly : s.Orderly a) (step : s.step max a = some s') :
    ∀ p ∈ s.config.mem.queue,
      (s'.config.mem.status p = s.config.mem.status p ∨
        ∃ a', a = .base a' ∧ Allowed s.config.view a' s'.config.pc p
          (s.config.mem.status p) (s'.config.mem.status p)) ∧
      (s.config.pc.Cancelling p →
        s'.config.pc.Cancelling p ∨ p ∉ s'.config.mem.queue ∨ s'.config.pc = .crashed) := by
  have inv := Deferred.inv_of_run run
  intro p hp
  cases a with
  | base a =>
      obtain ⟨c, stepped, rfl⟩ := Option.map_eq_some_iff.mp step
      obtain ⟨-, view⟩ := step_view inv.wf stepped
      constructor
      · have changes := step_allowed inv.sound inv.tracked orderly view
          (by rw [view_mem, Mem.abs_queue]; exact hp)
        exact changes.imp id fun allowed => ⟨a, rfl, allowed⟩
      · intro cancelling
        have next := step_cancelling inv.sound orderly view cancelling
        rw [view_mem, Mem.abs_queue] at next
        exact next
  | cancelled tid a =>
      obtain ⟨alive, t, ht, own, crashed | ⟨m, move, config⟩⟩ := Deferred.step_cancelled step
      · rw [crashed]
        exact ⟨Or.inl rfl, fun _ => Or.inr (Or.inr rfl)⟩
      · rw [config]
        exact ⟨Or.inl (cancelled_status orderly ht own move p hp), fun cancelling => Or.inl cancelling⟩
  | stop tid =>
      simp only [Deferred.step] at step
      split at step
      · obtain ⟨t, -, rfl⟩ := Option.map_eq_some_iff.mp step
        exact ⟨Or.inl rfl, fun cancelling => Or.inl cancelling⟩
      · cases step

/-- A `PAUSE` of a download that has started. -/
def pausedDownload : List DeferredAction :=
  (startUp ++ ask (download ['a'] ['x', '/', 'a']) 7 ++
    [Action.thread 0 (.openFile true), Action.thread 0 .started] ++
    ask (order .pause ['a']) 4).map .base

/-- The download is paused, its thread ends the transfer all the same and is then stopped; a
`RESTART` goes on. -/
theorem status_changes_allowed_run : ∃ s s' : Deferred HeapList,
    (deferred HeapList 1).Run Deferred.Orderly ⟨boot HeapList [], []⟩ s ∧
      (s.config.mem.queue = [0] ∧ s.config.mem.status 0 = .paused ∧
        s.cancelled = [⟨0, 0, .performed true⟩] ∧ s'.config.mem.status 0 = .waiting) ∧
      ∀ p ∈ s.config.mem.queue,
        (s'.config.mem.status p = s.config.mem.status p ∨
          ∃ a', DeferredAction.base (.control {}) = .base a' ∧ Allowed s.config.view a'
            s'.config.pc p (s.config.mem.status p) (s'.config.mem.status p)) ∧
        (s.config.pc.Cancelling p →
          s'.config.pc.Cancelling p ∨ p ∉ s'.config.mem.queue ∨ s'.config.pc = .crashed) := by
  obtain ⟨s, run, queue, paused, lingers, orderly, restarts⟩ := Machine.exists_run_of_exec
    (deferred HeapList 1) Deferred.Orderly ⟨boot HeapList [], []⟩
    (pausedDownload ++ [.cancelled 0 (.perform true)] ++
      (ask (order .restart ['a']) 1).map .base)
    (fun s => s.config.mem.queue = [0] ∧ s.config.mem.status 0 = .paused ∧
      s.cancelled = [⟨0, 0, .performed true⟩] ∧ s.Orderly (.base (.control {})) ∧
      (s.step 1 (.base (.control {}))).map (fun s' => s'.config.mem.status 0) = some .waiting)
    (by decide)
  obtain ⟨s', step, waiting⟩ := Option.map_eq_some_iff.mp restarts
  exact ⟨s, s', run, ⟨queue, paused, lingers, waiting⟩, status_changes_allowed run orderly step⟩

/-- A download whose transfer fails is `COMPLETED` all the same. -/
theorem failed_completed : ¬ ∀ (max : Nat) (entries : List Entry) (s s' : Deferred HeapList)
    (a : DeferredAction),
    (deferred HeapList max).Reachable ⟨boot HeapList entries, []⟩ s → s.step max a = some s' →
      ∀ p ∈ s.config.mem.queue, s'.config.mem.status p = s.config.mem.status p ∨
        ∃ a', a = .base a' ∧ Allowed s.config.view a' s'.config.pc p
          (s.config.mem.status p) (s'.config.mem.status p) := by
  intro all
  obtain ⟨s, run, queue, started, threads, completes⟩ := Machine.exists_run_of_exec
    (deferred HeapList 1) (fun _ _ => True) ⟨boot HeapList [], []⟩
    ((startUp ++ ask (download ['a'] ['x', '/', 'a']) 7 ++
      [Action.thread 0 (.openFile true), Action.thread 0 .started,
        Action.thread 0 (.perform false)]).map .base)
    (fun s => s.config.mem.queue = [0] ∧ s.config.mem.status 0 = .started ∧
      s.config.mem.threads = [⟨0, 0, .performed false⟩] ∧
      (s.step 1 (.base (.thread 0 .completed))).map (fun s' => s'.config.mem.status 0) =
        some .completed)
    (by decide)
  obtain ⟨s', step, completed⟩ := Option.map_eq_some_iff.mp completes
  rcases all 1 [] s s' _ run step 0 (by simp [queue]) with same | ⟨a', action, allowed⟩
  · rw [completed, started] at same
    cases same
  · cases action
    rw [completed] at allowed
    obtain ⟨t, ht, -, -, succeeded⟩ := allowed.completed_succeeded
    have ht : t ∈ s.config.mem.threads := ht
    rw [threads, List.mem_singleton] at ht
    rw [ht] at succeeded
    cases succeeded

/-- A cancelled thread that has left `curl_easy_perform` writes `COMPLETED` over the `PAUSED`
of a `PAUSE` that was answered. -/
example : ((deferred HeapList 1).exec (fun _ _ => True)
    ((startUp ++ ask (download ['a'] ['x', '/', 'a']) 7 ++
      [Action.thread 0 (.openFile true), Action.thread 0 .started] ++
      ask (order .pause ['a']) 4).map .base ++
      [.cancelled 0 (.perform true), .cancelled 0 .completed])
    ⟨boot HeapList [], []⟩).any (fun s => decide (s.config.pc = .idle ∧ s.config.sent.length = 2 ∧
      s.config.mem.status 0 = .completed)) = true := by decide

end

end Dserve
