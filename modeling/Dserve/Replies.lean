import Dserve.View

/-!
What the controller puts on the output queue.

Between two requests the controller loads the index file, or answers one request, or
writes the index file. Only an answer sends replies: those of a `STATUS` while the queue
is traversed, which have the status `PROCESSING`, and the one `start_controller` sends
when `process_request` has returned. After this one the controller waits for the next
request (`control_progress`).
-/

namespace Dserve

inductive Phase where
  | loading
  | idle
  | answering
  | ending
deriving DecidableEq, Repr

/-- What a task is done for. -/
def Task.phase : Task → Phase
  | .save _ => .ending
  | _ => .answering

/-- What the controller is doing. A traversal belongs to `queue_load` as long as the
signal handler is not installed. -/
def Config.phase {L : Type → Type} (c : Config L) : Phase :=
  match c.pc with
  | .load _ => .loading
  | .loading _ => .loading
  | .idle => .idle
  | .add => .answering
  | .visit _ => if c.installed then .answering else .loading
  | .count _ _ => if c.installed then .answering else .loading
  | .start _ _ => if c.installed then .answering else .loading
  | .mark _ _ => if c.installed then .answering else .loading
  | .status => .answering
  | .report _ => .answering
  | .lookup _ => .answering
  | .assign k _ => k.phase
  | .stop k _ => k.phase
  | .kill k _ _ => k.phase
  | .unlink _ => .answering
  | .saving _ => .ending
  | .reset _ _ => .ending
  | .write _ _ => .ending
  | .respond => .answering
  | .exited => .ending
  | .crashed => .ending

/-- The signal handler is installed when the index file was loaded. -/
def Config.Ready {L : Type → Type} (c : Config L) : Prop :=
  c.phase ≠ .ending → (c.installed = true ↔ c.phase ≠ .loading)

section

variable {L : Type → Type} {max : Nat} {o : Outcome} {c c' : Config L}

/-- A step that sends nothing: it stays in its phase, or it is the end of the process. -/
structure Silent (c c' : Config L) : Prop where
  sent : c'.sent = c.sent
  installed : c'.installed = c.installed
  phase : c'.phase = c.phase ∨ c'.phase = .ending

/-- What a step of the controller itself can send. -/
inductive Progress (o : Outcome) (c c' : Config L) : Prop where
  | silent : Silent c c' → Progress o c c'
  | loaded : c.phase = .loading → c'.sent = c.sent → c'.installed = true → c'.phase = .idle →
      Progress o c c'
  | report (reply : Transaction) : c.phase = .answering → c.pc ≠ .respond →
      reply.status = .processing → c'.sent = (if o.send then c.sent ++ [reply] else c.sent) →
      c'.installed = c.installed → c'.phase = .answering → Progress o c c'
  | respond : c.pc = .respond → c'.sent = (if o.send then c.sent ++ [c.response] else c.sent) →
      c'.installed = c.installed → c'.phase = .idle → Progress o c c'

theorem crash_silent : Silent c c.crash := ⟨rfl, rfl, Or.inr rfl⟩

theorem Config.Ready.answering (ready : c.Ready) (phase : c.phase = .answering) :
    c.installed = true := (ready (by simp [phase])).mpr (by simp [phase])

variable [ListApi L]

theorem visitAll_silent {d d' : Config L} (h : d.visitAll = some d') (sent : d.sent = c.sent)
    (same : d.installed = c.installed)
    (visiting : c.phase = if c.installed then .answering else .loading) : Silent c d' := by
  obtain ⟨items, -, rfl⟩ := Option.map_eq_some_iff.mp h
  refine ⟨sent, same, Or.inl ?_⟩
  rw [visiting, ← same]
  rfl

/-- After the treatment of a status, a request is answered on, and `queue_save` goes on. -/
theorem afterSwitch_silent {d d' : Config L} {k : Task} {p : EntryPtr} {ret : Bool}
    (h : d.afterSwitch k p ret = some d') (sent : d.sent = c.sent) (same : d.installed = c.installed)
    (ready : c.Ready) (treats : c.phase = k.phase ∨ c.phase = .answering) : Silent c d' := by
  cases k with
  | pause =>
      cases h
      exact ⟨sent, same, Or.inl (by rcases treats with h | h <;> rw [h] <;> rfl)⟩
  | cancel =>
      cases h
      exact ⟨sent, same, Or.inl (by rcases treats with h | h <;> rw [h] <;> rfl)⟩
  | restart =>
      have answering : c.phase = .answering := by rcases treats with h | h <;> rw [h]; rfl
      have visits : Config.visitAll { d with response := restartReply d.request } = some d' := h
      apply visitAll_silent visits sent same
      rw [answering, ready.answering answering]
      rfl
  | save rest =>
      cases h
      exact ⟨sent, same, Or.inr rfl⟩

/-- What each step of the controller sends. -/
theorem control_progress (ready : c.Ready) (h : c.control max o = some c') : Progress o c c' := by
  cases pc : c.pc with
  | load entries =>
      simp only [Config.control, pc] at h
      split at h <;> cases h
      · exact .loaded (by simp [Config.phase, pc]) rfl rfl rfl
      · exact .silent ⟨rfl, rfl, Or.inl (by simp [Config.phase, pc])⟩
  | loading entries =>
      have loading : c.phase = .loading := by simp [Config.phase, pc]
      cases entries with
      | nil =>
          simp only [Config.control, pc] at h
          rcases orCrash_cases h with rfl | h
          · exact .silent crash_silent
          · refine .silent (visitAll_silent h rfl rfl ?_)
            have unset : ¬ c.installed = true := fun set => (ready (by simp [loading])).mp set loading
            rw [loading, if_neg unset]
      | cons e entries =>
          simp only [Config.control, pc] at h
          split at h
          · rcases orCrash_cases h with rfl | h
            · exact .silent crash_silent
            · obtain ⟨m, -, rfl⟩ := Option.map_eq_some_iff.mp h
              exact .silent ⟨rfl, rfl, Or.inl loading.symm⟩
          · cases h
            exact .loaded loading rfl rfl rfl
  | idle => simp [Config.control, pc] at h
  | add =>
      have answering : c.phase = .answering := by simp [Config.phase, pc]
      obtain ⟨-, h⟩ := Config.control_add pc h
      rcases orCrash_cases h with rfl | h
      · exact .silent crash_silent
      · obtain ⟨r, -, h⟩ := Option.bind_eq_some_iff.mp h
        split at h
        · exact .silent (visitAll_silent h rfl rfl (by rw [answering, ready.answering answering]; rfl))
        · cases h
          exact .silent ⟨rfl, rfl, Or.inl answering.symm⟩
  | visit rest =>
      have phase : c.phase = if c.installed then .answering else .loading := by simp [Config.phase, pc]
      cases rest with
      | nil =>
          simp only [Config.control, pc] at h
          split at h
          · next installed =>
            cases h
            exact .silent ⟨rfl, rfl, Or.inl (by rw [phase, if_pos installed]; rfl)⟩
          · next loading =>
            cases h
            exact .loaded (by rw [phase, if_neg loading]) rfl rfl rfl
      | cons p rest =>
          simp only [Config.control, pc] at h
          split at h <;> cases h <;> exact .silent ⟨rfl, rfl, Or.inl phase.symm⟩
  | count p rest =>
      have phase : c.phase = if c.installed then .answering else .loading := by simp [Config.phase, pc]
      simp only [Config.control, pc] at h
      rcases orCrash_cases h with rfl | h
      · exact .silent crash_silent
      · obtain ⟨n, -, h⟩ := Option.map_eq_some_iff.mp h
        split at h <;> cases h <;> exact .silent ⟨rfl, rfl, Or.inl phase.symm⟩
  | start p rest =>
      have phase : c.phase = if c.installed then .answering else .loading := by simp [Config.phase, pc]
      simp only [Config.control, pc] at h
      rcases orCrash_cases h with rfl | h
      · exact .silent crash_silent
      · obtain ⟨m, -, rfl⟩ := Option.map_eq_some_iff.mp h
        exact .silent ⟨rfl, rfl, Or.inl phase.symm⟩
  | mark p rest =>
      have phase : c.phase = if c.installed then .answering else .loading := by simp [Config.phase, pc]
      simp only [Config.control, pc] at h
      cases h
      exact .silent ⟨rfl, rfl, Or.inl phase.symm⟩
  | status =>
      have answering : c.phase = .answering := by simp [Config.phase, pc]
      simp only [Config.control, pc] at h
      split at h
      · cases h
        exact .silent ⟨rfl, rfl, Or.inl answering.symm⟩
      · rcases orCrash_cases h with rfl | h
        · exact .silent crash_silent
        · obtain ⟨items, -, rfl⟩ := Option.map_eq_some_iff.mp h
          exact .silent ⟨rfl, rfl, Or.inl answering.symm⟩
  | report rest =>
      have answering : c.phase = .answering := by simp [Config.phase, pc]
      cases rest with
      | nil =>
          simp only [Config.control, pc] at h
          cases h
          exact .silent ⟨rfl, rfl, Or.inl answering.symm⟩
      | cons p rest =>
          simp only [Config.control, pc] at h
          cases h
          exact .report (c.mem.queueGetInfo p c.response) answering (by simp [pc]) rfl rfl rfl rfl
  | lookup k =>
      have answering : c.phase = .answering := by simp [Config.phase, pc]
      simp only [Config.control, pc] at h
      rcases orCrash_cases h with rfl | h
      · exact .silent crash_silent
      · obtain ⟨found, -, h⟩ := Option.bind_eq_some_iff.mp h
        cases found with
        | none =>
            cases h
            exact .silent ⟨rfl, rfl, Or.inl answering.symm⟩
        | some p =>
            have treated : k.phase = c.phase ∨ k.phase = .ending := by
              rw [answering]
              cases k <;> simp [Task.phase]
            simp only at h
            split at h
            · cases h
              exact .silent ⟨rfl, rfl, treated⟩
            · exact .silent (afterSwitch_silent h rfl rfl ready (Or.inr answering))
            · cases h
              exact .silent ⟨rfl, rfl, treated⟩
  | assign k p =>
      have phase : c.phase = k.phase := by simp [Config.phase, pc]
      simp only [Config.control, pc] at h
      rcases orCrash_cases h with rfl | h
      · exact .silent crash_silent
      · exact .silent (afterSwitch_silent h rfl rfl ready (Or.inl phase))
  | stop k p =>
      have phase : c.phase = k.phase := by simp [Config.phase, pc]
      simp only [Config.control, pc] at h
      rcases orCrash_cases h with rfl | h
      · exact .silent crash_silent
      · obtain ⟨found, -, h⟩ := Option.bind_eq_some_iff.mp h
        cases found with
        | none => exact .silent (afterSwitch_silent h rfl rfl ready (Or.inl phase))
        | some r =>
            cases h
            exact .silent ⟨rfl, rfl, Or.inl phase.symm⟩
  | kill k p r =>
      have phase : c.phase = k.phase := by simp [Config.phase, pc]
      simp only [Config.control, pc] at h
      rcases orCrash_cases h with rfl | h
      · exact .silent crash_silent
      · obtain ⟨ret, -, h⟩ := Option.bind_eq_some_iff.mp h
        exact .silent (afterSwitch_silent h rfl rfl ready (Or.inl phase))
  | unlink p =>
      have answering : c.phase = .answering := by simp [Config.phase, pc]
      simp only [Config.control, pc] at h
      rcases orCrash_cases h with rfl | h
      · exact .silent crash_silent
      · obtain ⟨ret, -, rfl⟩ := Option.map_eq_some_iff.mp h
        exact .silent ⟨rfl, rfl, Or.inl answering.symm⟩
  | saving rest =>
      cases rest with
      | nil =>
          simp only [Config.control, pc] at h
          cases h
          exact .silent ⟨rfl, rfl, Or.inr rfl⟩
      | cons p rest =>
          simp only [Config.control, pc] at h
          split at h <;> cases h <;> exact .silent ⟨rfl, rfl, Or.inr rfl⟩
  | reset p rest =>
      simp only [Config.control, pc] at h
      cases h
      exact .silent ⟨rfl, rfl, Or.inr rfl⟩
  | write p rest =>
      simp only [Config.control, pc] at h
      rcases orCrash_cases h with rfl | h
      · exact .silent crash_silent
      · obtain ⟨line, -, rfl⟩ := Option.map_eq_some_iff.mp h
        exact .silent ⟨rfl, rfl, Or.inr rfl⟩
  | respond =>
      simp only [Config.control, pc] at h
      cases h
      exact .respond pc rfl rfl rfl
  | exited => simp [Config.control, pc] at h
  | crashed => simp [Config.control, pc] at h

omit [ListApi L] in
theorem Silent.ready (step : Silent c c') (ready : c.Ready) : c'.Ready := by
  rcases step.phase with same | ended
  · unfold Config.Ready
    rw [same, step.installed]
    exact ready
  · exact fun other => absurd ended other

omit [ListApi L] in
theorem Progress.ready (step : Progress o c c') (ready : c.Ready) : c'.Ready := by
  have set : c'.installed = true → c'.phase ≠ .loading → c'.Ready :=
    fun set phase _ => ⟨fun _ => phase, fun _ => set⟩
  cases step with
  | silent step => exact step.ready ready
  | loaded _ _ installed idle => exact set installed (by simp [idle])
  | report reply answering _ _ _ same phase =>
      exact set (by rw [same]; exact ready.answering answering) (by simp [phase])
  | respond pc _ same idle =>
      have answering : c.phase = .answering := by simp [Config.phase, pc]
      exact set (by rw [same]; exact ready.answering answering) (by simp [idle])

/-- The download threads send nothing. -/
theorem thread_silent {tid : Tid} {a : ThreadAction} (h : c.step max (.thread tid a) = some c') :
    Silent c c' := by
  simp only [Config.step] at h
  split at h
  · obtain ⟨t, -, h⟩ := Option.bind_eq_some_iff.mp h
    obtain ⟨m, -, h⟩ := Option.map_eq_some_iff.mp h
    rcases orCrash_cases (congrArg some h) with rfl | moved
    · exact crash_silent
    · obtain ⟨m', -, rfl⟩ := Option.map_eq_some_iff.mp moved
      exact ⟨rfl, rfl, Or.inl rfl⟩
  · cases h

/-- A signal ends the process. -/
theorem signal_ending {fopen : Bool} (h : c.step max (.signal fopen) = some c') :
    c'.sent = c.sent ∧ c'.installed = c.installed ∧ c'.phase = .ending := by
  simp only [Config.step] at h
  split at h
  · simp only [Option.some.injEq] at h
    unfold Config.terminate at h
    split at h
    · subst h
      exact ⟨rfl, rfl, rfl⟩
    · split at h
      · rcases orCrash_cases (congrArg some h) with rfl | saves
        · exact ⟨rfl, rfl, rfl⟩
        · obtain ⟨items, -, rfl⟩ := Option.map_eq_some_iff.mp saves
          exact ⟨rfl, rfl, rfl⟩
      · subst h
        exact ⟨rfl, rfl, rfl⟩
  · cases h

theorem signal_silent {fopen : Bool} (h : c.step max (.signal fopen) = some c') : Silent c c' := by
  obtain ⟨sent, installed, ending⟩ := signal_ending h
  exact ⟨sent, installed, Or.inr ending⟩

/-- A request is read when the controller is idle. -/
theorem request_answers {r response : Transaction}
    (h : c.step max (.request r response) = some c') :
    c.phase = .idle ∧ c'.phase = .answering ∧ c'.sent = c.sent ∧ c'.installed = c.installed := by
  simp only [Config.step] at h
  split at h
  · next idle =>
    cases h
    refine ⟨by simp [Config.phase, idle], ?_, rfl, rfl⟩
    cases command : r.command <;> simp [Command.dispatch, Config.phase]
  · cases h

/-- Every step leaves the handler installed, or installs it when the file is loaded. -/
theorem Config.Ready.step {a : Action} (ready : c.Ready) (h : c.step max a = some c') : c'.Ready := by
  cases a with
  | request r response =>
      obtain ⟨idle, answering, -, same⟩ := request_answers h
      have installed : c.installed = true := (ready (by simp [idle])).mpr (by simp [idle])
      intro _
      simp [same, installed, answering]
  | control o => exact (control_progress ready h).ready ready
  | thread tid a => exact (thread_silent h).ready ready
  | signal fopen => exact (signal_silent h).ready ready

omit [ListApi L] in
theorem boot_ready (entries : List Entry) : (boot L entries).Ready := by
  intro _
  simp [boot, Config.phase]

end

end Dserve
