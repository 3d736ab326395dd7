import Dserve.Sound

/-!
Free slots.

When the controller waits for a request, an entry should be `WAITING` only if
`max_concurrent_downloads` entries are `STARTING` or `STARTED`. A pass of
`queue_update` sees to it, but only a `DOWNLOAD`, a `RESTART` and the start of the
controller make one. It holds in the runs in which no slot becomes free while an entry
waits that no pass will come to, or while there are no more than the limit
(`no_idle_slot`). A download that completes is not followed by a pass
(`slot_left_idle`).
-/

namespace Dserve

/-- How many entries of the queue are `STARTING` or `STARTED`. -/
def Mem.running {L : Type → Type} [ListApi L] (m : Mem L) : Nat :=
  m.queue.countP fun p => decide (m.status p).Running

instance (pc : Pc) : Decidable pc.Ending := by
  unfold Pc.Ending
  induction pc using Pc.casesOn with
  | assign k p => induction k using Task.casesOn <;> infer_instance
  | stop k p => induction k using Task.casesOn <;> infer_instance
  | kill k p r => induction k using Task.casesOn <;> infer_instance
  | _ => infer_instance

/-- The pass the controller is in, or is about to begin, will come to `p`; or it will
not wait for a request again. -/
def View.Pending (v : View) (p : EntryPtr) : Prop :=
  match v.pc with
  | .load _ => True
  | .loading _ => True
  | .assign .restart _ => True
  | .visit rest => p ∈ rest
  | .count q rest => p ∈ q :: rest
  | .start q rest => p ∈ q :: rest
  | .mark q rest => p ∈ q :: rest
  | pc => pc.Ending

instance (v : View) (p : EntryPtr) : Decidable (v.Pending p) := by
  unfold View.Pending
  generalize v.pc = pc
  induction pc using Pc.casesOn with
  | assign k q => induction k using Task.casesOn <;> infer_instance
  | _ => infer_instance

/-- Only where the controller is matters. -/
theorem View.pending_of_pc {v : View} {pc : Pc} (h : v.pc = pc) (p : EntryPtr) :
    v.Pending p ↔ View.Pending { v with pc := pc } p := by
  subst h
  exact Iff.rfl

/-- The entries that wait although no pass will come to them. -/
def View.Overlooked (v : View) (p : EntryPtr) : Prop :=
  p ∈ v.mem.queue ∧ v.mem.status p = .waiting ∧ ¬ v.Pending p

instance (v : View) (p : EntryPtr) : Decidable (v.Overlooked p) := by
  unfold View.Overlooked
  infer_instance

/-- The entry a step halts, or takes out of the queue. -/
def View.halts (v : View) : Action → Option EntryPtr
  | .control _ =>
      match v.pc with
      | .assign _ p => some p
      | .stop k p => (v.mem.findRecord (v.stopId k p)).join.map fun r => (v.mem.record r).entry
      | .unlink p => some p
      | _ => none
  | .thread tid .completed => (v.mem.thread? tid).map Thread.entry
  | _ => none

/-- A slot becomes free only if no entry is overlooked, or more than `max` entries are
running; and the load ends before its end only if no slot is left idle then. -/
def KeepsBusy (max : Nat) (v : View) (a : Action) : Prop :=
  (∀ p ∈ v.halts a, p ∈ v.mem.queue → (v.mem.status p).Running →
    (∀ q ∈ v.mem.queue, ¬ v.Overlooked q) ∨ max < v.mem.running) ∧
  match v.pc, a with
  | .loading (_ :: _), .control o =>
      o.entryNew = true ∨ (∀ q ∈ v.mem.queue, v.mem.status q ≠ .waiting) ∨ max ≤ v.mem.running
  | _, _ => True

instance (max : Nat) (v : View) (a : Action) : Decidable (KeepsBusy max v a) := by
  unfold KeepsBusy
  refine @instDecidableAnd _ _ ?_ ?_
  · infer_instance
  · generalize v.pc = pc
    induction pc using Pc.casesOn with
    | loading entries =>
        induction entries using List.casesOn <;> induction a using Action.casesOn <;> infer_instance
    | _ => infer_instance

/-- What is overlooked, is because there is no slot. -/
structure Busy (max : Nat) (v : View) : Prop where
  busy : ∀ p, v.Overlooked p → max ≤ v.mem.running
  load : ∀ entries, v.pc = .load entries → v.mem.queue = []

/-! ### Counting -/

section

variable {m m' : Mem List} {p : EntryPtr} {s : EntryStatus}

theorem running_mono (queue : m'.queue = m.queue)
    (keeps : ∀ q ∈ m.queue, (m.status q).Running → (m'.status q).Running) : m.running ≤ m'.running := by
  unfold Mem.running
  rw [queue]
  refine List.countP_mono_left ?_
  intro q hq running
  exact decide_eq_true (keeps q hq (of_decide_eq_true running))

/-- A predicate that is given up at `p` only loses the occurrences of `p`. -/
theorem countP_le_add_count {P Q : EntryPtr → Bool} (keeps : ∀ q, q ≠ p → P q = true → Q q = true)
    (xs : List EntryPtr) : xs.countP P ≤ xs.countP Q + xs.count p := by
  induction xs with
  | nil => exact Nat.le_refl _
  | cons x xs ih =>
      simp only [List.countP_cons, List.count_cons]
      by_cases own : x = p
      · subst own
        simp only [beq_self_eq_true, if_true]
        split <;> split <;> omega
      · have keep := keeps x own
        split
        · next holds => simp only [keep holds, if_true]; omega
        · split <;> omega

/-- Halting one entry makes one slot free. -/
theorem running_setStatus (nodup : m.queue.Nodup) : m.running ≤ (m.setStatus p s).running + 1 := by
  have all := countP_le_add_count (p := p) (P := fun q => decide (m.status q).Running)
    (Q := fun q => decide ((m.setStatus p s).status q).Running) (by
      intro q other running
      rw [Mem.status_setStatus, if_neg other]
      exact running) m.queue
  have once := List.nodup_iff_count_le_one.mp nodup p
  unfold Mem.running
  rw [show (m.setStatus p s).queue = m.queue from rfl]
  omega

theorem started_le_running : m.started ≤ m.running := by
  refine List.countP_mono_left ?_
  intro q hq started
  exact decide_eq_true (Or.inr (of_decide_eq_true started))

end

/-! ### The invariant -/

section

variable {dangles : Prop} {max : Nat} {v w : View}

/-- No slot becomes free, and no entry is overlooked that was not before. -/
theorem Busy.mono (inv : Busy max v) (fewer : ∀ p, w.Overlooked p → v.Overlooked p)
    (running : v.mem.running ≤ w.mem.running) (load : ∀ entries, w.pc ≠ .load entries) :
    Busy max w :=
  ⟨fun p h => Nat.le_trans (inv.busy p (fewer p h)) running, fun entries h => absurd h (load entries)⟩

/-- Nothing is overlooked. -/
theorem Busy.of_pending (pending : ∀ p ∈ w.mem.queue, w.mem.status p = .waiting → w.Pending p)
    (load : ∀ entries, w.pc ≠ .load entries) : Busy max w :=
  ⟨fun p h => absurd (pending p h.1 h.2.1) h.2.2, fun entries h => absurd h (load entries)⟩

/-- One slot may become free. -/
theorem Busy.freed {a : Action} {p : EntryPtr} (inv : Busy max v) (keeps : KeepsBusy max v a)
    (halts : v.halts a = some p) (fewer : ∀ q, w.Overlooked q → v.Overlooked q)
    (running : v.mem.running ≤ w.mem.running + 1)
    (other : ¬ (p ∈ v.mem.queue ∧ (v.mem.status p).Running) → v.mem.running ≤ w.mem.running)
    (load : ∀ entries, w.pc ≠ .load entries) : Busy max w := by
  by_cases frees : p ∈ v.mem.queue ∧ (v.mem.status p).Running
  · refine ⟨?_, fun entries h => absurd h (load entries)⟩
    intro q overlooked
    have before := fewer q overlooked
    rcases keeps.1 p halts frees.1 frees.2 with none | more
    · exact absurd before (none q before.1)
    · omega
  · exact inv.mono fewer (other frees) load

theorem setStatus_fewer {p : EntryPtr} {s : EntryStatus} {pc : Pc} (halted : s ≠ .waiting)
    (pending : ∀ q, v.Pending q → View.Pending { v with mem := v.mem.setStatus p s, pc := pc } q ∨ q = p) :
    ∀ q, View.Overlooked { v with mem := v.mem.setStatus p s, pc := pc } q → v.Overlooked q := by
  rintro q ⟨hq, waiting, notPending⟩
  rw [Mem.status_setStatus] at waiting
  split at waiting
  · exact absurd waiting halted
  · next other =>
    refine ⟨hq, waiting, fun before => ?_⟩
    rcases pending q before with after | same
    · exact notPending after
    · exact other same

/-- The step of a thread leaves a slot for what it halts. -/
theorem thread_busy {t : Thread} {a : ThreadAction} {m : Mem List} (sound : Sound v)
    (inv : Busy max v) (found : v.mem.thread? t.tid = some t) (keeps : KeepsBusy max v (.thread t.tid a))
    (move : v.mem.ThreadMove t a m) : Busy max { v with mem := m } := by
  have load : ∀ entries, v.pc = .load entries → m.queue = [] := by
    intro entries h
    rw [move.queue]
    exact inv.load entries h
  have fewer : ∀ q, View.Overlooked { v with mem := m } q → v.Overlooked q := by
    rintro q ⟨hq, waiting, notPending⟩
    have hq : q ∈ m.queue := hq
    have waiting : m.status q = .waiting := waiting
    rw [move.queue] at hq
    refine ⟨hq, ?_, notPending⟩
    rcases move.statusCases with ⟨-, same⟩ | ⟨-, -, status⟩ | ⟨-, -, status, -⟩
    · rw [← same]
      exact waiting
    · rw [status] at waiting
      split at waiting
      · cases waiting
      · exact waiting
    · rw [status] at waiting
      split at waiting
      · cases waiting
      · exact waiting
  rcases move.statusCases with ⟨-, same⟩ | ⟨-, -, status⟩ | ⟨rfl, -, status, -⟩
  · refine ⟨fun p h => Nat.le_trans (inv.busy p (fewer p h)) (running_mono move.queue ?_), load⟩
    intro q _ running
    rw [same]
    exact running
  · refine ⟨fun p h => Nat.le_trans (inv.busy p (fewer p h)) (running_mono move.queue ?_), load⟩
    intro q _ running
    rw [status]
    split
    · exact Or.inr rfl
    · exact running
  · have same : m.running = (v.mem.setStatus t.entry .completed).running := by
      cases move
      rfl
    refine ⟨?_, load⟩
    by_cases frees : t.entry ∈ v.mem.queue ∧ (v.mem.status t.entry).Running
    · intro q overlooked
      have before := fewer q overlooked
      have halts : v.halts (.thread t.tid .completed) = some t.entry := by
        simp [View.halts, found]
      have one := running_setStatus (p := t.entry) (s := .completed) sound.mem.queueNodup
      show max ≤ m.running
      rcases keeps.1 _ halts frees.1 frees.2 with none | more
      · exact absurd before (none q before.1)
      · omega
    · intro q overlooked
      refine Nat.le_trans (inv.busy q (fewer q overlooked)) (running_mono move.queue ?_)
      intro q' hq' running
      rw [status]
      split
      · next own => exact absurd ⟨own ▸ hq', own ▸ running⟩ frees
      · exact running

/-- The steps that only read. -/
theorem goto_busy {pc : Pc} (inv : Busy max v) (next : View.Goto max v pc)
    (loads : (∃ entries, v.pc = .load entries ∨ v.pc = .loading entries) → pc = .idle →
      (∀ q ∈ v.mem.queue, v.mem.status q ≠ .waiting) ∨ max ≤ v.mem.running) :
    Busy max { v with pc := pc } := by
  -- the places outside a pass
  have stays : (∀ q, v.Pending q → View.Pending { v with pc := pc } q) →
      (∀ entries, pc ≠ .load entries) → Busy max { v with pc := pc } := by
    intro pending load
    refine inv.mono ?_ (Nat.le_refl _) load
    rintro q ⟨hq, waiting, notPending⟩
    exact ⟨hq, waiting, fun before => notPending (pending q before)⟩
  have all : (∀ q ∈ v.mem.queue, View.Pending { v with pc := pc } q) →
      (∀ entries, pc ≠ .load entries) → Busy max { v with pc := pc } := by
    intro pending load
    exact .of_pending (fun q hq _ => pending q hq) load
  cases next with
  | load h => exact all (fun _ _ => trivial) (by simp)
  | @noLoad entries h =>
      refine ⟨?_, by simp⟩
      rintro q ⟨hq, waiting, -⟩
      rcases loads ⟨entries, h⟩ rfl with none | busy
      · exact absurd waiting (none q hq)
      · exact busy
  | loaded h => exact all (fun q hq => hq) (by simp)
  | @skip p rest h other =>
      refine inv.mono ?_ (Nat.le_refl _) (by simp)
      rintro q ⟨hq, waiting, notPending⟩
      refine ⟨hq, waiting, fun pending => ?_⟩
      have pending : q ∈ p :: rest := (View.pending_of_pc h q).mp pending
      rcases List.mem_cons.mp pending with rfl | ahead
      · exact other waiting
      · exact notPending ahead
  | waiting h | free h => exact stays (fun q => (View.pending_of_pc h q).mp) (by simp)
  | full h full =>
      refine ⟨?_, by simp⟩
      intro q _
      exact Nat.le_trans full started_le_running
  | @leave k p pc h named choice after =>
      cases after with
      | restart => exact all (fun q hq => hq) (by simp)
      | save => exact all (fun _ _ => trivial) (by simp)
      | _ => exact stays (fun q => (View.pending_of_pc h q).mp) (by simp)
  | @missing k p pc h found after =>
      cases after with
      | restart => exact all (fun q hq => hq) (by simp)
      | _ => exact stays (fun q => (View.pending_of_pc h q).mp) (by simp)
  | @assign k p h =>
      cases k with
      | restart | save => exact all (fun _ _ => trivial) (by simp)
      | _ => exact stays (fun q => (View.pending_of_pc h q).mp) (by simp)
  | ready h | visited h =>
      exact stays (fun q pending => absurd ((View.pending_of_pc h q).mp pending) List.not_mem_nil) (by simp)
  | refused h | noQueue h | reported h | notFound h | respond h | stop h =>
      exact stays (fun q pending => ((View.pending_of_pc h q).mp pending).elim) (by simp)
  | saved | running | halted => exact all (fun _ _ => trivial) (by simp)

theorem assign_busy {k : Task} {p : EntryPtr} {pc : Pc} {o : Outcome} (sound : Sound v)
    (inv : Busy max v) (keeps : KeepsBusy max v (.control o)) (h : v.pc = .assign k p)
    (after : View.After v.mem.queue p k pc) :
    Busy max { v with mem := v.mem.setStatus p k.value, pc := pc } := by
  have halts : v.halts (.control o) = some p := by simp [View.halts, h]
  have one := running_setStatus (p := p) (s := .paused) sound.mem.queueNodup
  have other : ¬ (p ∈ v.mem.queue ∧ (v.mem.status p).Running) →
      v.mem.running ≤ (v.mem.setStatus p .paused).running := by
    intro halted
    refine running_mono rfl ?_
    intro q hq running
    have differ : q ≠ p := by
      rintro rfl
      exact halted ⟨hq, running⟩
    rw [Mem.status_setStatus, if_neg differ]
    exact running
  cases after with
  | pause | cancel =>
      refine inv.freed keeps halts (setStatus_fewer (by simp [Task.value]) ?_) one other (by simp)
      exact fun q pending => ((View.pending_of_pc h q).mp pending).elim
  | restart => exact .of_pending (fun q hq _ => hq) (by simp)
  | save => exact .of_pending (fun q _ _ => trivial) (by simp)

theorem stop_busy {k : Task} {p : EntryPtr} {r : RecordPtr} {o : Outcome} (sound : Sound v)
    (inv : Busy max v) (keeps : KeepsBusy max v (.control o)) (h : v.pc = .stop k p)
    (found : v.mem.findRecord (v.stopId k p) = some (some r)) :
    Busy max { v with mem := v.mem.setStatus (v.mem.record r).entry .paused, pc := .kill k p r } := by
  have halts : v.halts (.control o) = some (v.mem.record r).entry := by simp [View.halts, h, found]
  refine inv.freed keeps halts (setStatus_fewer (by simp) ?_)
    (running_setStatus sound.mem.queueNodup) ?_ (by simp)
  · intro q pending
    left
    cases k with
    | save => exact trivial
    | _ => exact ((View.pending_of_pc h q).mp pending).elim
  · intro halted
    refine running_mono rfl ?_
    intro q hq running
    have differ : q ≠ (v.mem.record r).entry := by
      rintro rfl
      exact halted ⟨hq, running⟩
    rw [Mem.status_setStatus, if_neg differ]
    exact running

theorem unlink_busy {p : EntryPtr} {queue : List EntryPtr} {o : Outcome} (sound : Sound v)
    (inv : Busy max v) (keeps : KeepsBusy max v (.control o)) (h : v.pc = .unlink p)
    (unlinked : queue = (v.mem.queue.eraseP fun q => decide (v.mem.name q = v.request.id.name)) ∨
      dangles ∧ queue = [] ∧ (∃ q ∈ v.mem.queue.head?, v.mem.name q = v.request.id.name)) :
    Busy max { v with mem := { v.mem with downloadQueue := some queue }, pc := .respond } := by
  rcases unlinked with erased | ⟨-, rfl, -⟩
  · have named : v.named = some p := sound.named p (by rw [h]; rfl)
    obtain ⟨before, after, parts, erased'⟩ := eraseP_named named
    rw [erased'] at erased
    have halts : v.halts (.control o) = some p := by simp [View.halts, h]
    have left : ({ v.mem with downloadQueue := some queue } : Mem List).running =
        (before ++ after).countP fun q => decide (v.mem.status q).Running := by
      unfold Mem.running
      rw [Mem.queue_eq rfl, erased]
      rfl
    have all : v.mem.running = (before ++ p :: after).countP fun q => decide (v.mem.status q).Running := by
      unfold Mem.running
      rw [parts]
    simp only [List.countP_append, List.countP_cons] at left all
    refine inv.freed keeps halts ?_ ?_ ?_ (by simp)
    · rintro q ⟨hq, waiting, -⟩
      rw [Mem.queue_eq rfl, erased] at hq
      refine ⟨?_, waiting, (View.pending_of_pc h q).mp⟩
      rw [parts]
      rcases List.mem_append.mp hq with hq | hq
      · exact List.mem_append_left _ hq
      · exact List.mem_append_right _ (List.mem_cons_of_mem _ hq)
    · rw [left, all]
      split <;> omega
    · intro halted
      have hp : p ∈ v.mem.queue := by rw [parts]; simp
      rw [left, all, if_neg fun running => halted ⟨hp, of_decide_eq_true running⟩]
      omega
  · refine .of_pending ?_ (by simp)
    intro q hq
    rw [Mem.queue_eq rfl] at hq
    cases hq

theorem move_busy {o : Outcome} (sound : Sound v) (inv : Busy max v)
    (keeps : KeepsBusy max v (.control o)) (move : View.Move dangles max v w)
    (loads : (∃ entries, v.pc = .load entries ∨ v.pc = .loading entries) → w.pc = .idle →
      (∀ q ∈ v.mem.queue, v.mem.status q ≠ .waiting) ∨ max ≤ v.mem.running) : Busy max w := by
  cases move with
  | crash | reset | write => exact .of_pending (fun q _ _ => trivial) (by simp)
  | goto next => exact goto_busy inv next loads
  | push => exact .of_pending (fun q _ _ => trivial) (by simp)
  | added =>
      refine .of_pending ?_ (by simp)
      intro q hq _
      rw [View.push_queue] at hq
      exact hq
  | notStarted h =>
      refine inv.mono ?_ (Nat.le_refl _) (by simp)
      rintro q ⟨hq, waiting, notPending⟩
      exact ⟨hq, waiting, fun pending => notPending ((View.pending_of_pc h q).mp pending)⟩
  | started handle h =>
      refine inv.mono ?_ (Nat.le_refl _) (by simp)
      rintro q ⟨hq, waiting, notPending⟩
      exact ⟨hq, waiting, fun pending => notPending ((View.pending_of_pc h q).mp pending)⟩
  | mark h =>
      refine inv.mono (setStatus_fewer (by simp) ?_) (running_mono rfl ?_) (by simp)
      · intro q pending
        exact (List.mem_cons.mp ((View.pending_of_pc h q).mp pending)).symm
      · intro q hq running
        rw [Mem.status_setStatus]
        split
        · exact Or.inl rfl
        · exact running
  | statusBegin h | report h =>
      refine inv.mono ?_ (Nat.le_refl _) (by simp)
      rintro q ⟨hq, waiting, -⟩
      exact ⟨hq, waiting, (View.pending_of_pc h q).mp⟩
  | assign h after => exact assign_busy sound inv keeps h after
  | stop h found => exact stop_busy sound inv keeps h found
  | @kill k p r pc records h sub after =>
      cases after with
      | restart => exact .of_pending (fun q hq _ => hq) (by simp)
      | save => exact .of_pending (fun q _ _ => trivial) (by simp)
      | pause | cancel =>
          refine inv.mono ?_ (Nat.le_refl _) (by simp)
          rintro q ⟨hq, waiting, -⟩
          exact ⟨hq, waiting, (View.pending_of_pc h q).mp⟩
  | unlink h unlinked => exact unlink_busy sound inv keeps h unlinked

theorem step_busy {a : Action} (sound : Sound v) (inv : Busy max v) (keeps : KeepsBusy max v a)
    (step : View.Step dangles max v a w)
    (loads : ∀ o, a = .control o → (∃ entries, v.pc = .load entries ∨ v.pc = .loading entries) →
      w.pc = .idle → (∀ q ∈ v.mem.queue, v.mem.status q ≠ .waiting) ∨ max ≤ v.mem.running) :
    Busy max w := by
  cases step with
  | control move => exact move_busy sound inv keeps move (loads _ rfl)
  | thread _ _ found stepped =>
      have same := (Mem.thread?_eq_some v.mem found).2
      subst same
      exact thread_busy sound inv found keeps (Mem.threadStep_move stepped)
  | threadCrash | save => exact .of_pending (fun q _ _ => trivial) (by simp)
  | terminate _ _ ended =>
      rcases ended with rfl | rfl <;> exact .of_pending (fun q _ _ => trivial) (by simp)
  | @request r _ idle =>
      refine inv.mono ?_ (Nat.le_refl _) ?_
      · rintro q ⟨hq, waiting, -⟩
        exact ⟨hq, waiting, (View.pending_of_pc idle q).mp⟩
      · cases r.command <;> simp [Command.dispatch]

/-- When the load ends in front of the requests, no slot is idle. -/
theorem load_busy {c c' : Config HeapList} {o : Outcome} (inv : Busy max c.view)
    (keeps : KeepsBusy max c.view (.control o)) (step : c.control max o = some c')
    (load : ∃ entries, c.view.pc = .load entries ∨ c.view.pc = .loading entries)
    (idle : c'.view.pc = .idle) :
    (∀ q ∈ c.view.mem.queue, c.view.mem.status q ≠ .waiting) ∨ max ≤ c.view.mem.running := by
  obtain ⟨entries, h | h⟩ := load
  · left
    intro q hq
    rw [inv.load entries h] at hq
    cases hq
  · have pc : c.pc = .loading entries := h
    cases entries with
    | nil =>
        simp only [Config.control, pc, Option.some.injEq] at step
        cases items : c.visitAll with
        | none =>
            rw [items] at step
            rw [← step] at idle
            cases idle
        | some d =>
            obtain ⟨-, view⟩ := visitAll_view items
            rw [items] at step
            rw [← step, show c.orCrash (some d) = d from rfl, view] at idle
            cases idle
    | cons e entries =>
        have keeps := keeps.2
        simp only [h] at keeps
        rcases keeps with memory | none | busy
        · simp only [Config.control, pc, memory, if_true, Option.some.injEq] at step
          cases pushed : c.mem.queuePush o.node e with
          | none | some =>
              rw [pushed] at step
              rw [← step] at idle
              cases idle
        · exact Or.inl none
        · exact Or.inr busy

/-- In a run in which no slot becomes free while an entry is overlooked, or while there
are no more running entries than the limit: when the controller waits for a request
and an entry is `WAITING`, at least `max` entries are `STARTING` or `STARTED`. -/
theorem no_idle_slot {entries : List Entry} {c : Config HeapList}
    (run : (controller HeapList max).Run (fun c a => KeepsBusy max c.view a)
      (boot HeapList entries) c) (idle : c.pc = .idle)
    (waits : ∃ p ∈ c.mem.queue, c.mem.status p = .waiting) : max ≤ c.mem.running := by
  have start : Sound (boot HeapList entries).view ∧ Busy max (boot HeapList entries).view := by
    refine ⟨boot_sound entries, fun p h => absurd trivial h.2.2, fun _ _ => ?_⟩
    simp [Config.view, boot, Mem.abs, Mem.queue, Mem.contents, ListApi.toList]
  obtain ⟨-, -, inv⟩ := run_invariant (I := fun v => Sound v ∧ Busy max v)
    (boot_wf entries) start
    (fun c a c' inv keeps step view => ⟨step_sound inv.1 view, step_busy inv.1 inv.2 keeps view
      (by rintro o rfl load idle; exact load_busy inv.2 keeps step load idle)⟩) run
  obtain ⟨p, hp, waiting⟩ := waits
  have waits : c.view.pc = .idle := idle
  have busy := inv.busy p ⟨by rw [view_mem, Mem.abs_queue]; exact hp, waiting,
    (View.pending_of_pc waits p).mp⟩
  unfold Mem.running at busy ⊢
  rw [view_mem, Mem.abs_queue] at busy
  exact busy

/-- A run with a limit of one, in which `a` is downloaded and `b` waits. -/
theorem no_idle_slot_run : ∃ c : Config HeapList,
    (controller HeapList 1).Run (fun c a => KeepsBusy 1 c.view a) (boot HeapList []) c ∧
      (c.pc = .idle ∧ (∃ p ∈ c.mem.queue, c.mem.status p = .waiting)) ∧ 1 ≤ c.mem.running := by
  obtain ⟨c, run, idle, waits⟩ := Machine.exists_run_of_exec (controller HeapList 1)
    (fun c a => KeepsBusy 1 c.view a) (boot HeapList [])
    (startUp ++ ask (download ['a'] ['x', '/', 'a']) 7 ++
      [.thread 0 (.openFile true), .thread 0 .started] ++ ask (download ['b'] ['x', '/', 'b']) 6)
    (fun c => c.pc = .idle ∧ ∃ p ∈ c.mem.queue, c.mem.status p = .waiting) (by decide)
  exact ⟨c, run, ⟨idle, waits⟩, no_idle_slot run idle waits⟩

/-- With a limit of one, `a` completes and `b` goes on waiting. -/
theorem slot_left_idle : ¬ ∀ (max : Nat) (entries : List Entry) (c : Config HeapList),
    (controller HeapList max).Reachable (boot HeapList entries) c → c.pc = .idle →
      (∃ p ∈ c.mem.queue, c.mem.status p = .waiting) → max ≤ c.mem.running := by
  intro all
  obtain ⟨c, run, idle, waits, none⟩ := Machine.exists_run_of_exec (controller HeapList 1)
    (fun _ _ => True) (boot HeapList [])
    (startUp ++ ask (download ['a'] ['x', '/', 'a']) 7 ++
      [.thread 0 (.openFile true), .thread 0 .started] ++ ask (download ['b'] ['x', '/', 'b']) 6 ++
      [.thread 0 (.perform true), .thread 0 .completed])
    (fun c => c.pc = .idle ∧ (∃ p ∈ c.mem.queue, c.mem.status p = .waiting) ∧ c.mem.running = 0)
    (by decide)
  have busy := all 1 [] c run idle waits
  omega

end

end Dserve
