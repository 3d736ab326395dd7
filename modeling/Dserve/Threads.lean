import Dserve.Sound

/-!
The download threads and the queue.

Between two requests every live thread should work on an entry of the queue that is
`STARTING` or `STARTED`, and no two on the same one. This holds in the runs in which
each `PAUSE` and `CANCEL` stops the threads of its entry (`threads_attached`). A
`PAUSE` or `CANCEL` of an entry that is still `STARTING` does not: it assigns
`PAUSED` and leaves the thread alone (`paused_while_starting`).

The other way round, an entry that is `STARTING` or `STARTED` should have a live
thread. This holds in the runs in which no thread is missing when `STARTING` is
written and none leaves its entry behind (`running_worked`), and
`starting_without_thread` is a run that is not one of them.
-/

namespace Dserve

/-- Whether stopping `p` ends every thread that works on it: the thread of the record
that is found is the only one, or a `CANCEL` that finds no record finds no thread
either. -/
def StopsAll (v : View) (k : Task) (p : EntryPtr) : Prop :=
  match v.mem.findRecord (v.stopId k p) with
  | none => True
  | some none => k = .cancel → ¬ v.mem.Live p
  | some (some r) => ∀ t ∈ v.mem.threads, t.entry = p ∨ t.entry = (v.mem.record r).entry →
      t.tid = (v.mem.record r).thread

instance (v : View) (k : Task) (p : EntryPtr) : Decidable (StopsAll v k p) := by
  unfold StopsAll
  generalize v.mem.findRecord (v.stopId k p) = found
  induction found using Option.casesOn with
  | none => infer_instance
  | some found => induction found using Option.casesOn <;> infer_instance

/-- Whether the treatment of `p` leaves no thread behind: it stops them all, or it
only assigns the status and there are none. -/
def LeavesNone (v : View) (k : Task) (p : EntryPtr) : Prop :=
  match k.choice (v.mem.status p) with
  | .stop => StopsAll v k p
  | .leave => True
  | .assign => ¬ v.mem.Live p

instance (v : View) (k : Task) (p : EntryPtr) : Decidable (LeavesNone v k p) := by
  unfold LeavesNone
  generalize k.choice (v.mem.status p) = choice
  induction choice using Choice.casesOn <;> infer_instance

/-- A `PAUSE` or `CANCEL` leaves no thread behind. -/
def StopsThreads (v : View) : Action → Prop
  | .control _ =>
      match v.pc, v.named with
      | .lookup k, some p => k ≠ .restart → LeavesNone v k p
      | _, _ => True
  | _ => True

instance (v : View) (a : Action) : Decidable (StopsThreads v a) := by
  unfold StopsThreads
  induction a using Action.casesOn with
  | control o =>
      generalize v.named = named
      generalize v.pc = pc
      induction pc using Pc.casesOn <;> induction named using Option.casesOn <;> infer_instance
  | _ => infer_instance

/-- The entry that is known to have no thread. -/
def Pc.quiet : Pc → Option EntryPtr
  | .count p _ => some p
  | .start p _ => some p
  | .assign _ p => some p
  | .unlink p => some p
  | _ => none

/-- The live threads and the queue, at any place outside a save. A thread may be at
an entry with another status just after it was created, and just before it is
cancelled. -/
structure Attached (v : View) : Prop where
  queued : ∀ t ∈ v.mem.threads, t.entry ∈ v.mem.queue
  running : ∀ t ∈ v.mem.threads, (v.mem.status t.entry).Running ∨
    (∃ p rest, v.pc = .mark p rest ∧ t.entry = p) ∨
    (∃ k p r, v.pc = .kill k p r ∧ t.tid = (v.mem.record r).thread)
  alone : (v.mem.threads.map Thread.entry).Nodup
  quiet : ∀ p, v.pc.quiet = some p → ¬ v.mem.Live p
  stop : ∀ k p, v.pc = .stop k p → StopsAll v k p
  kill : ∀ k p r, v.pc = .kill k p r → ∀ t ∈ v.mem.threads,
    t.entry = p ∨ t.entry = (v.mem.record r).entry → t.tid = (v.mem.record r).thread

/-- The places with no exception. -/
structure Pc.Settled (pc : Pc) : Prop where
  quiet : pc.quiet = none
  mark : ∀ p rest, pc ≠ .mark p rest
  stop : ∀ k p, pc ≠ .stop k p
  kill : ∀ k p r, pc ≠ .kill k p r

section

variable {max : Nat} {v w : View}

theorem Attached.of_settled {m : Mem List} {pc : Pc} {request : Transaction}
    {reported : List EntryPtr} (settled : pc.Settled)
    (running : ∀ t ∈ m.threads, t.entry ∈ m.queue ∧ (m.status t.entry).Running)
    (alone : (m.threads.map Thread.entry).Nodup) : Attached ⟨request, m, pc, reported⟩ := by
  refine ⟨fun t ht => (running t ht).1, fun t ht => Or.inl (running t ht).2, alone, ?_, ?_, ?_⟩
  · intro p h
    rw [settled.quiet] at h
    cases h
  · intro k p h
    exact absurd h (settled.stop k p)
  · intro k p r h
    exact absurd h (settled.kill k p r)

/-- At a place without exceptions every thread is at an entry that is running. -/
theorem Attached.strict (inv : Attached v) (mark : ∀ p rest, v.pc ≠ .mark p rest)
    (kill : ∀ k p r, v.pc ≠ .kill k p r) :
    ∀ t ∈ v.mem.threads, t.entry ∈ v.mem.queue ∧ (v.mem.status t.entry).Running := by
  intro t ht
  refine ⟨inv.queued t ht, ?_⟩
  rcases inv.running t ht with running | ⟨p, rest, pc, -⟩ | ⟨k, p, r, pc, -⟩
  · exact running
  · exact absurd pc (mark p rest)
  · exact absurd pc (kill k p r)

/-- No thread is at an entry that is not running. -/
theorem not_live_of_strict {m : Mem List} {p : EntryPtr}
    (strict : ∀ t ∈ m.threads, t.entry ∈ m.queue ∧ (m.status t.entry).Running)
    (halted : ¬ (m.status p).Running) : ¬ m.Live p := by
  rintro ⟨t, ht, rfl⟩
  exact halted (strict t ht).2

theorem restart_halted {s : EntryStatus} (h : restartChoice s = .assign) : ¬ s.Running := by
  rintro (rfl | rfl) <;> cases h

theorem cancel_halted {s : EntryStatus} (h : cancelChoice s = .leave) : ¬ s.Running := by
  rintro (rfl | rfl) <;> cases h

/-- The steps that do not write. -/
theorem goto_attached {pc : Pc} (sound : Sound v) (inv : Attached v) (goes : ¬ v.pc.Ending)
    {o : Outcome} (stops : StopsThreads v (.control o)) (next : View.Goto max v pc)
    (stays : ¬ pc.Ending) : Attached { v with pc := pc } := by
  have plain : pc.Settled → (∀ p rest, v.pc ≠ .mark p rest) → (∀ k p r, v.pc ≠ .kill k p r) →
      Attached { v with pc := pc } := by
    intro settled mark kill
    exact .of_settled settled (inv.strict mark kill) inv.alone
  have quietly : ∀ p, pc.quiet = some p → (∀ p rest, pc ≠ .mark p rest) →
      (∀ k p, pc ≠ .stop k p) → (∀ k p r, pc ≠ .kill k p r) → ¬ v.mem.Live p →
      (∀ t ∈ v.mem.threads, t.entry ∈ v.mem.queue ∧ (v.mem.status t.entry).Running) →
      Attached { v with pc := pc } := by
    intro p quiet mark stop kill notLive strict
    refine ⟨inv.queued, fun t ht => Or.inl (strict t ht).2, inv.alone, ?_,
      fun k q h => absurd h (stop k q), fun k q r h => absurd h (kill k q r)⟩
    intro q h
    rw [show pc.quiet = some q from h] at quiet
    cases quiet
    exact notLive
  cases next with
  | waiting h waiting =>
      have strict := inv.strict (by simp [h]) (by simp [h])
      refine quietly _ rfl (by simp) (by simp) (by simp) (not_live_of_strict strict ?_) strict
      rw [waiting]
      decide
  | free h =>
      exact quietly _ rfl (by simp) (by simp) (by simp) (inv.quiet _ (by rw [h]; rfl))
        (inv.strict (by simp [h]) (by simp [h]))
  | @stop k p h named choice =>
      have strict := inv.strict (by simp [h]) (by simp [h])
      refine ⟨inv.queued, fun t ht => Or.inl (strict t ht).2, inv.alone, by simp [Pc.quiet], ?_, by simp⟩
      intro k' p' h'
      cases h'
      have notRestart : k ≠ .restart := by
        rintro rfl
        cases hs : v.mem.status p <;> simp [Task.choice, restartChoice, hs] at choice
      simp only [StopsThreads, LeavesNone, h, named, choice] at stops
      exact stops notRestart
  | @leave k p pc h named choice after =>
      have strict := inv.strict (by simp [h]) (by simp [h])
      cases after with
      | pause => exact plain ⟨rfl, by simp, by simp, by simp⟩ (by simp [h]) (by simp [h])
      | cancel =>
          exact quietly _ rfl (by simp) (by simp) (by simp)
            (not_live_of_strict strict (cancel_halted choice)) strict
      | restart => exact plain ⟨rfl, by simp, by simp, by simp⟩ (by simp [h]) (by simp [h])
      | save => exact absurd h (sound.lookup _)
  | @assign k p h named choice =>
      have strict := inv.strict (by simp [h]) (by simp [h])
      refine quietly p rfl (by simp) (by simp) (by simp) ?_ strict
      by_cases restart : k = .restart
      · subst restart
        exact not_live_of_strict strict (restart_halted choice)
      · simp only [StopsThreads, LeavesNone, h, named, choice] at stops
        exact stops restart
  | @missing k p pc h found after =>
      have strict := inv.strict (by simp [h]) (by simp [h])
      cases after with
      | pause => exact plain ⟨rfl, by simp, by simp, by simp⟩ (by simp [h]) (by simp [h])
      | cancel =>
          have stop := inv.stop _ _ h
          simp only [StopsAll, found] at stop
          exact quietly _ rfl (by simp) (by simp) (by simp) (stop trivial) strict
      | restart => exact plain ⟨rfl, by simp, by simp, by simp⟩ (by simp [h]) (by simp [h])
      | save => exact absurd trivial stays
  | saved h | running h | halted h => exact absurd (by rw [h]; exact trivial) goes
  | noLoad h =>
      rcases h with h | h <;>
        exact plain ⟨rfl, by simp, by simp, by simp⟩ (by simp [h]) (by simp [h])
  | load h | loaded h | refused h | ready h | visited h | skip h | full h | noQueue h | reported h
  | notFound h | respond h =>
      exact plain ⟨rfl, by simp, by simp, by simp⟩ (by simp [h]) (by simp [h])

theorem plain_after {queue : List EntryPtr} {p : EntryPtr} {k : Task} {pc : Pc}
    (after : View.After queue p k pc) : (∀ p rest, pc ≠ .mark p rest) ∧
      (∀ k p, pc ≠ .stop k p) ∧ (∀ k p r, pc ≠ .kill k p r) ∧ ∀ q, pc.quiet = some q → q = p := by
  cases after <;> simp [Pc.quiet]

/-- After the entry was treated there is no thread on it. -/
theorem Attached.of_after {m : Mem List} {queue : List EntryPtr} {p : EntryPtr} {k : Task} {pc : Pc}
    {request : Transaction} {reported : List EntryPtr} (after : View.After queue p k pc)
    (running : ∀ t ∈ m.threads, t.entry ∈ m.queue ∧ (m.status t.entry).Running)
    (alone : (m.threads.map Thread.entry).Nodup) (notLive : ¬ m.Live p) :
    Attached ⟨request, m, pc, reported⟩ := by
  obtain ⟨mark, stop, kill, quiet⟩ := plain_after after
  refine ⟨fun t ht => (running t ht).1, fun t ht => Or.inl (running t ht).2, alone, ?_,
    fun k q h => absurd h (stop k q), fun k q r h => absurd h (kill k q r)⟩
  intro q h
  rw [quiet q h]
  exact notLive

theorem move_attached (sound : Sound v) (inv : Attached v) (goes : ¬ v.pc.Ending) {o : Outcome}
    (stops : StopsThreads v (.control o)) (move : View.Move False max v w) (stays : ¬ w.pc.Ending) :
    Attached w := by
  have strict : (∀ p rest, v.pc ≠ .mark p rest) → (∀ k p r, v.pc ≠ .kill k p r) →
      ∀ t ∈ v.mem.threads, t.entry ∈ v.mem.queue ∧ (v.mem.status t.entry).Running := inv.strict
  -- writing the status of an entry without threads changes that of no thread's entry
  have writes : ∀ {p : EntryPtr} (s : EntryStatus), ¬ v.mem.Live p →
      (∀ t ∈ v.mem.threads, t.entry ∈ v.mem.queue ∧ (v.mem.status t.entry).Running) →
      ∀ t ∈ (v.mem.setStatus p s).threads, t.entry ∈ (v.mem.setStatus p s).queue ∧
        ((v.mem.setStatus p s).status t.entry).Running := by
    intro p s notLive strict t ht
    have other : t.entry ≠ p := fun same => notLive ⟨t, ht, same⟩
    rw [Mem.status_setStatus, if_neg other]
    exact strict t ht
  cases move with
  | crash => exact absurd trivial stays
  | goto next => exact goto_attached sound inv goes stops next stays
  | push h | added h =>
      have strict := strict (by simp [h]) (by simp [h])
      refine .of_settled ⟨rfl, by simp, by simp, by simp⟩ ?_ inv.alone
      intro t ht
      have below := (sound.mem.threadBelow t ht).2
      refine ⟨by rw [View.push_queue]; exact List.mem_append_left _ (strict t ht).1, ?_⟩
      rw [View.push_status below]
      exact (strict t ht).2
  | notStarted h =>
      have strict := strict (by simp [h]) (by simp [h])
      exact ⟨fun t ht => (strict t ht).1, fun t ht => Or.inl (strict t ht).2, inv.alone,
        by simp [Pc.quiet], by simp, by simp⟩
  | @started p rest handle h =>
      have strict := strict (by simp [h]) (by simp [h])
      have notLive : ¬ v.mem.Live p := inv.quiet p (by rw [h]; rfl)
      have hp : p ∈ v.mem.queue := sound.ahead.subset (by rw [h]; exact List.mem_cons_self)
      refine ⟨?_, ?_, ?_, by simp [Pc.quiet], by simp, by simp⟩
      · intro t ht
        rcases List.mem_append.mp ht with ht | ht
        · exact (strict t ht).1
        · rw [List.mem_singleton.mp ht]
          exact hp
      · intro t ht
        rcases List.mem_append.mp ht with ht | ht
        · exact Or.inl (strict t ht).2
        · rw [List.mem_singleton.mp ht]
          exact Or.inr (Or.inl ⟨p, rest, rfl, rfl⟩)
      · simp only [Mem.createThread, List.map_append, List.map_cons, List.map_nil,
          List.nodup_append]
        refine ⟨inv.alone, by simp, ?_⟩
        intro q hq q' hq' same
        obtain ⟨t, ht, rfl⟩ := List.mem_map.mp hq
        exact notLive ⟨t, ht, same.trans (List.mem_singleton.mp hq')⟩
  | @mark p rest h =>
      refine .of_settled ⟨rfl, by simp, by simp, by simp⟩ ?_ inv.alone
      intro t ht
      refine ⟨inv.queued t ht, ?_⟩
      rw [Mem.status_setStatus]
      split
      · exact Or.inl rfl
      · next other =>
        rcases inv.running t ht with running | ⟨p', rest', pc, same⟩ | ⟨k, p', r, pc, -⟩
        · exact running
        · rw [h] at pc
          cases pc
          exact absurd same other
        · rw [h] at pc
          cases pc
  | statusBegin h | report h =>
      exact .of_settled ⟨rfl, by simp, by simp, by simp⟩ (strict (by simp [h]) (by simp [h])) inv.alone
  | @assign k p pc h after =>
      have strict := strict (by simp [h]) (by simp [h])
      have notLive : ¬ v.mem.Live p := inv.quiet p (by rw [h]; rfl)
      exact .of_after after (writes _ notLive strict) inv.alone notLive
  | @stop k p r h found =>
      have strict := strict (by simp [h]) (by simp [h])
      have stop := inv.stop _ _ h
      simp only [StopsAll, found] at stop
      refine ⟨inv.queued, ?_, inv.alone, by simp [Pc.quiet], by simp, ?_⟩
      · intro t ht
        rw [Mem.status_setStatus]
        split
        · next same => exact Or.inr (Or.inr ⟨k, p, r, rfl, stop t ht (Or.inr same)⟩)
        · exact Or.inl (strict t ht).2
      · intro k' p' r' h' t ht works
        cases h'
        exact stop t ht works
  | @kill k p r pc records h sub after =>
      have alive : ∀ t ∈ (v.mem.endThread (v.mem.record r).thread).threads,
          t ∈ v.mem.threads ∧ t.tid ≠ (v.mem.record r).thread := by
        intro t ht
        have := List.mem_filter.mp ht
        exact ⟨this.1, by simpa using this.2⟩
      refine .of_after after ?_ ?_ ?_
      · intro t ht
        obtain ⟨ht, other⟩ := alive t ht
        refine ⟨inv.queued t ht, ?_⟩
        rcases inv.running t ht with running | ⟨p', rest', pc, -⟩ | ⟨k', p', r', pc, same⟩
        · exact running
        · rw [h] at pc
          cases pc
        · rw [h] at pc
          cases pc
          exact absurd same other
      · exact (List.filter_sublist.map _).nodup inv.alone
      · rintro ⟨t, ht, same⟩
        obtain ⟨ht, other⟩ := alive t ht
        exact other (inv.kill k p r h t ht (Or.inl same))
  | @unlink p queue h unlinked =>
      have strict := strict (by simp [h]) (by simp [h])
      have notLive : ¬ v.mem.Live p := inv.quiet p (by rw [h]; rfl)
      have named : v.named = some p := sound.named p (by rw [h]; rfl)
      refine .of_settled ⟨rfl, by simp, by simp, by simp⟩ ?_ inv.alone
      intro t ht
      refine ⟨?_, (strict t ht).2⟩
      rw [Mem.queue_eq rfl]
      rcases unlinked with rfl | ⟨no, -⟩
      · exact mem_unlinked named (strict t ht).1 fun same => notLive ⟨t, ht, same⟩
      · exact no.elim
  | reset h | write h => exact absurd (by rw [h]; exact trivial) goes

theorem thread_attached {t : Thread} {a : ThreadAction} {m : Mem List} (inv : Attached v)
    (ht : t ∈ v.mem.threads) (move : v.mem.ThreadMove t a m) :
    Attached { v with mem := m } := by
  have frame := move.frame
  refine ⟨?_, ?_, ?_, ?_, ?_, ?_⟩
  · intro t' ht'
    obtain ⟨t₀, ht₀, -, entry⟩ := move.old ht'
    rw [entry, move.queue]
    exact inv.queued t₀ ht₀
  · intro t' ht'
    obtain ⟨t₀, ht₀, tid, entry⟩ := move.old ht'
    have before := inv.running t₀ ht₀
    rw [tid, entry, frame.2.2.1]
    rcases move.statusCases with ⟨-, same⟩ | ⟨-, -, status⟩ | ⟨-, -, status, others⟩
    · rw [same]
      exact before
    · rw [status]
      split
      · exact Or.inl (Or.inr rfl)
      · exact before
    · -- the entry of a thread that ended is nobody else's
      have other : t₀.entry ≠ t.entry := by
        intro sameEntry
        have same := List.inj_on_of_nodup_map inv.alone ht₀ ht sameEntry
        exact others t' ht' (tid.trans (congrArg Thread.tid same))
      rw [status, if_neg other]
      exact before
  · exact move.entries.nodup inv.alone
  · intro p quiet live
    exact inv.quiet p quiet (move.live live)
  · intro k p pc
    have stop := inv.stop k p pc
    have stopId : View.stopId { v with mem := m } k p = v.stopId k p := by
      cases k <;> simp only [View.stopId, move.name]
    unfold StopsAll at stop ⊢
    rw [stopId, move.findRecord]
    cases found : v.mem.findRecord (v.stopId k p) with
    | none => trivial
    | some found' =>
        cases found' with
        | none =>
            simp only [found] at stop
            exact fun cancel live => stop cancel (move.live live)
        | some r =>
            simp only [found] at stop
            intro t' ht' works
            obtain ⟨t₀, ht₀, tid, entry⟩ := move.old ht'
            rw [tid, frame.2.2.1]
            rw [entry, frame.2.2.1] at works
            exact stop t₀ ht₀ works
  · intro k p r pc t' ht' works
    obtain ⟨t₀, ht₀, tid, entry⟩ := move.old ht'
    rw [tid, frame.2.2.1]
    rw [entry, frame.2.2.1] at works
    exact inv.kill k p r pc t₀ ht₀ works

theorem step_attached {a : Action} (sound : Sound v) (inv : ¬ v.pc.Ending → Attached v)
    (stops : StopsThreads v a) (step : View.Step False max v a w) (stays : ¬ w.pc.Ending) :
    Attached w := by
  have goes : ¬ v.pc.Ending := fun ending => stays (step_ending step ending)
  have inv := inv goes
  cases step with
  | control move => exact move_attached sound inv goes stops move stays
  | thread _ _ found stepped =>
      exact thread_attached inv (Mem.thread?_eq_some v.mem found).1
        (Mem.threadStep_move stepped)
  | threadCrash => exact absurd trivial stays
  | @request r _ idle =>
      refine .of_settled ?_ (inv.strict (by simp [idle]) (by simp [idle])) inv.alone
      cases h : r.command <;>
        exact ⟨rfl, by simp [Command.dispatch], by simp [Command.dispatch], by simp [Command.dispatch]⟩
  | save => exact absurd trivial stays
  | terminate _ _ ended => exact absurd (by rcases ended with rfl | rfl <;> trivial) stays

/-- In a run in which every `PAUSE` and `CANCEL` stops the threads of its entry:
between two requests each live thread works on an entry of the queue that is
`STARTING` or `STARTED`, and no two work on the same one. -/
theorem threads_attached {entries : List Entry} {c : Config List}
    (run : (controller List max).Run (fun c a => StopsThreads c.view a) (boot List entries) c)
    (idle : c.pc = .idle) :
    (∀ t ∈ c.mem.threads, t.entry ∈ c.mem.queue ∧ (c.mem.status t.entry).Running) ∧
      ∀ t ∈ c.mem.threads, ∀ t' ∈ c.mem.threads, t.entry = t'.entry → t = t' := by
  have start : Sound (boot List entries).view ∧
      (¬ (boot List entries).view.pc.Ending → Attached (boot List entries).view) := by
    refine ⟨boot_sound entries, fun _ => .of_settled ⟨rfl, ?_, ?_, ?_⟩ ?_ ?_⟩ <;>
      simp [boot, Mem.abs]
  obtain ⟨-, -, attached⟩ := view_invariant
    (I := fun v => Sound v ∧ (¬ v.pc.Ending → Attached v)) start
    (fun v a w inv stops step =>
      ⟨step_sound inv.1 step, step_attached inv.1 inv.2 stops step⟩) run
  have attached := attached (by rw [view_pc, idle]; exact id)
  have strict := attached.strict (by simp [idle]) (by simp [idle])
  constructor
  · intro t ht
    simpa using strict t ht
  · intro t ht t' ht' same
    exact List.inj_on_of_nodup_map attached.alone ht ht' same

/-- A run with two downloads and a `PAUSE` of the first: the thread of the second is
left. -/
theorem threads_attached_run : ∃ c : Config List,
    (controller List 2).Run (fun c a => StopsThreads c.view a) (boot List []) c ∧
      (c.pc = .idle ∧ c.mem.threads = [⟨1, 1, .transferring⟩] ∧ c.mem.status 0 = .paused) ∧
      (∀ t ∈ c.mem.threads, t.entry ∈ c.mem.queue ∧ (c.mem.status t.entry).Running) ∧
      ∀ t ∈ c.mem.threads, ∀ t' ∈ c.mem.threads, t.entry = t'.entry → t = t' := by
  obtain ⟨c, run, paused⟩ := Machine.exists_run_of_exec (controller List 2)
    (fun c a => StopsThreads c.view a) (boot List [])
    (startUp ++ ask (download ['a'] ['x', '/', 'a']) 7 ++ ask (download ['b'] ['x', '/', 'b']) 8 ++
      [.thread 0 (.openFile true), .thread 0 .started,
        .thread 1 (.openFile true), .thread 1 .started] ++ ask (order .pause ['a']) 4)
    (fun c => c.pc = .idle ∧ c.mem.threads = [⟨1, 1, .transferring⟩] ∧ c.mem.status 0 = .paused)
    (by decide)
  exact ⟨c, run, paused, threads_attached run paused.1⟩

/-- A `PAUSE` right after the `DOWNLOAD`: the entry is `PAUSED` and the thread goes on. -/
theorem paused_while_starting : ¬ ∀ (max : Nat) (entries : List Entry) (c : Config List),
    (controller List max).Reachable (boot List entries) c → c.pc = .idle →
      (∀ t ∈ c.mem.threads, t.entry ∈ c.mem.queue ∧ (c.mem.status t.entry).Running) ∧
        ∀ t ∈ c.mem.threads, ∀ t' ∈ c.mem.threads, t.entry = t'.entry → t = t' := by
  intro all
  obtain ⟨c, run, idle, threads, paused⟩ := Machine.exists_run_of_exec (controller List 1)
    (fun _ _ => True) (boot List [])
    (startUp ++ ask (download ['a'] ['x', '/', 'a']) 7 ++ ask (order .pause ['a']) 3)
    (fun c => c.pc = .idle ∧ c.mem.threads = [⟨0, 0, .opening⟩] ∧ c.mem.status 0 = .paused)
    (by decide)
  obtain ⟨-, running⟩ := (all 1 [] c run idle).1 ⟨0, 0, .opening⟩ (by simp [threads])
  rw [show c.mem.status _ = .paused from paused] at running
  exact absurd running (by decide)

/-! ### Entries without a thread -/

/-- Another thread works on the entry of `t`. -/
def Relieved (m : Mem List) (t : Thread) : Prop :=
  ∃ t' ∈ m.threads, t'.tid ≠ t.tid ∧ t'.entry = t.entry

/-- The thread may go: its entry is not in the queue, or not running, or has another
thread. -/
def MayEnd (m : Mem List) (t : Thread) : Prop :=
  t.entry ∈ m.queue → (m.status t.entry).Running → Relieved m t

instance (m : Mem List) (t : Thread) : Decidable (MayEnd m t) := by
  unfold MayEnd Relieved
  infer_instance

/-- No entry that is loaded is running, `STARTING` is written for a thread that is
still there, and a thread that could not open its file or is cancelled leaves no
entry of the queue running without one. -/
def KeepsThreads (v : View) : Action → Prop
  | .control _ =>
      match v.pc with
      | .loading (e :: _) => ¬ e.status.Running
      | .mark p _ => v.mem.Live p
      | .kill _ _ r => ∀ t ∈ v.mem.threads, t.tid = (v.mem.record r).thread → MayEnd v.mem t
      | _ => True
  | .thread tid (.openFile false) => ∀ t ∈ v.mem.threads, t.tid = tid → MayEnd v.mem t
  | _ => True

instance (v : View) (a : Action) : Decidable (KeepsThreads v a) := by
  unfold KeepsThreads
  induction a using Action.casesOn with
  | control o =>
      generalize v.pc = pc
      induction pc using Pc.casesOn with
      | loading entries => induction entries using List.casesOn <;> infer_instance
      | _ => infer_instance
  | thread tid a =>
      induction a using ThreadAction.casesOn with
      | openFile ok => induction ok using Bool.casesOn <;> infer_instance
      | _ => infer_instance
  | _ => infer_instance

/-- Every running entry of the queue has a thread. -/
def Worked (m : Mem List) : Prop := ∀ p ∈ m.queue, (m.status p).Running → m.Live p

theorem not_running_value (k : Task) : ¬ k.value.Running := by
  cases k <;> simp [Task.value, EntryStatus.Running]

theorem move_worked {dangles : Prop} (sound : Sound v) (inv : Worked v.mem) {o : Outcome}
    (keeps : KeepsThreads v (.control o)) (move : View.Move dangles max v w) : Worked w.mem := by
  -- writing a status that is not running
  have halts : ∀ {p : EntryPtr} {s : EntryStatus}, ¬ s.Running → Worked (v.mem.setStatus p s) := by
    intro p s halted q hq running
    rw [Mem.status_setStatus] at running
    split at running
    · exact absurd running halted
    · exact inv q hq running
  -- an entry that is added and not running
  have adds : ∀ {e : Entry}, ¬ e.status.Running → Worked (View.push v.mem e) := by
    intro e halted p hp running
    rw [View.push_queue] at hp
    rcases List.mem_append.mp hp with hp | hp
    · rw [View.push_status (sound.mem.queueBelow p hp)] at running
      exact inv p hp running
    · rw [List.mem_singleton.mp hp] at running
      refine absurd ?_ halted
      simpa [View.push, Mem.status] using running
  cases move with
  | crash | goto | notStarted | statusBegin | report | write => exact inv
  | push h =>
      simp only [KeepsThreads, h] at keeps
      exact adds keeps
  | added h target =>
      apply adds
      rw [(entrySetTarget_spec target).2.2.1]
      decide
  | started handle h =>
      intro p hp running
      obtain ⟨t, ht, entry⟩ := inv p hp running
      exact ⟨t, List.mem_append_left _ ht, entry⟩
  | @mark p rest h =>
      intro q hq running
      rw [Mem.status_setStatus] at running
      split at running
      · next same =>
        subst same
        simp only [KeepsThreads, h] at keeps
        exact keeps
      · exact inv q hq running
  | @assign k p pc h after => exact halts (not_running_value k)
  | stop h => exact halts (by decide)
  | @kill k p r pc records h sub after =>
      intro q hq running
      obtain ⟨t, ht, rfl⟩ := inv q hq running
      by_cases killed : t.tid = (v.mem.record r).thread
      · simp only [KeepsThreads, h] at keeps
        obtain ⟨t', ht', other, entry⟩ := keeps t ht killed hq running
        refine ⟨t', List.mem_filter.mpr ⟨ht', ?_⟩, entry⟩
        simpa [killed] using other
      · exact ⟨t, List.mem_filter.mpr ⟨ht, by simpa using killed⟩, rfl⟩
  | @unlink p queue h unlinked =>
      intro q hq running
      rw [Mem.queue_eq rfl] at hq
      apply inv q ?_ running
      rcases unlinked with rfl | ⟨-, rfl, -⟩
      · exact List.eraseP_sublist.subset hq
      · cases hq
  | reset h => exact halts (by decide)

theorem thread_worked {t : Thread} {a : ThreadAction} {m : Mem List} (sound : Sound v)
    (inv : Worked v.mem) (ht : t ∈ v.mem.threads) (keeps : KeepsThreads v (.thread t.tid a))
    (move : v.mem.ThreadMove t a m) : Worked m := by
  intro p hp running
  rw [move.queue] at hp
  rcases move.statusCases with ⟨goes, same⟩ | ⟨rfl, -, status⟩ | ⟨rfl, -, status, others⟩
  · rw [same] at running
    obtain ⟨t₀, ht₀, rfl⟩ := inv p hp running
    by_cases ends : a = .openFile false ∧ t₀.tid = t.tid
    · obtain ⟨rfl, sameTid⟩ := ends
      obtain ⟨t', ht', other, entry⟩ := keeps t₀ ht₀ sameTid hp running
      rw [← entry]
      exact move.survive ht' (Or.inr (sameTid ▸ other))
    · refine move.survive ht₀ ?_
      by_cases tid : t₀.tid = t.tid
      · exact Or.inl ⟨fun h => ends ⟨h, tid⟩, goes⟩
      · exact Or.inr tid
  · rw [status] at running
    by_cases own : p = t.entry
    · rw [own]
      exact move.survive ht (Or.inl (by simp))
    · rw [if_neg own] at running
      obtain ⟨t₀, ht₀, rfl⟩ := inv p hp running
      exact move.survive ht₀ (Or.inl (by simp))
  · rw [status] at running
    split at running
    · exact absurd running (by decide)
    · next other =>
      obtain ⟨t₀, ht₀, rfl⟩ := inv p hp running
      refine move.survive ht₀ (Or.inr fun sameTid => other ?_)
      exact congrArg Thread.entry (List.inj_on_of_nodup_map sound.mem.tids ht₀ ht sameTid)

theorem step_worked {dangles : Prop} {a : Action} (sound : Sound v) (inv : Worked v.mem)
    (keeps : KeepsThreads v a) (step : View.Step dangles max v a w) : Worked w.mem := by
  cases step with
  | control move => exact move_worked sound inv keeps move
  | @thread tid t a m _ _ found stepped =>
      obtain ⟨ht, rfl⟩ := Mem.thread?_eq_some v.mem found
      exact thread_worked sound inv ht keeps (Mem.threadStep_move stepped)
  | threadCrash | request | save | terminate => exact inv

/-- In a run that loads no entry that is running, and in which `STARTING` is written
for live threads only and no thread leaves its entry behind: every entry that is
`STARTING` or `STARTED` has a live thread. -/
theorem running_worked {entries : List Entry} {c : Config HeapList}
    (run : (controller HeapList max).Run (fun c a => KeepsThreads c.view a)
      (boot HeapList entries) c) :
    ∀ p ∈ c.mem.queue, (c.mem.status p).Running → c.mem.Live p := by
  have start : Sound (boot HeapList entries).view ∧ Worked (boot HeapList entries).view.mem := by
    refine ⟨boot_sound entries, ?_⟩
    intro p hp
    simp [Config.view, boot, Mem.abs, Mem.queue, Mem.contents, ListApi.toList] at hp
  obtain ⟨-, -, worked⟩ := view_invariant (I := fun v => Sound v ∧ Worked v.mem) start
    (fun v a w inv keeps step =>
      ⟨step_sound inv.1 step, step_worked inv.1 inv.2 keeps step⟩) run
  intro p hp running
  have live := worked p (by rw [view_mem, Mem.abs_queue]; exact hp) running
  exact live

/-- A run in which the thread of `a` is created, and opens its file. -/
theorem running_worked_run : ∃ c : Config HeapList,
    (controller HeapList 1).Run (fun c a => KeepsThreads c.view a) (boot HeapList []) c ∧
      (c.mem.queue = [0] ∧ c.mem.status 0 = .started) ∧
      ∀ p ∈ c.mem.queue, (c.mem.status p).Running → c.mem.Live p := by
  obtain ⟨c, run, started⟩ := Machine.exists_run_of_exec (controller HeapList 1)
    (fun c a => KeepsThreads c.view a) (boot HeapList [])
    (startUp ++ ask (download ['a'] ['x', '/', 'a']) 7 ++
      [.thread 0 (.openFile true), .thread 0 .started])
    (fun c => c.mem.queue = [0] ∧ c.mem.status 0 = .started) (by decide)
  exact ⟨c, run, started, running_worked run⟩

/-- `pthread_create` fails, and the entry is `STARTING` all the same. -/
theorem starting_without_thread :
    ¬ ∀ (max : Nat) (entries : List Entry) (c : Config HeapList),
      (controller HeapList max).Reachable (boot HeapList entries) c → c.pc = .idle →
        ∀ p ∈ c.mem.queue, (c.mem.status p).Running → c.mem.Live p := by
  intro all
  obtain ⟨c, run, idle, queue, starting, threads⟩ := Machine.exists_run_of_exec
    (controller HeapList 1) (fun _ _ => True) (boot HeapList [])
    (startUp ++ ask (download ['a'] ['x', '/', 'a']) 3 ++
      [.control { start := { create := none } }] ++ List.replicate 3 (.control {}))
    (fun c => c.pc = .idle ∧ c.mem.queue = [0] ∧ c.mem.status 0 = .starting ∧ c.mem.threads = [])
    (by decide)
  obtain ⟨t, ht, -⟩ := all 1 [] c run idle 0 (by simp [queue]) (Or.inl starting)
  rw [threads] at ht
  cases ht

end

end Dserve
