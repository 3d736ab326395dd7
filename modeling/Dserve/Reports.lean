import Dserve.Replies
import Dserve.Sound
import Dserve.Util

/-!
What a `STATUS` reports when its replies go through a queue that can be full.

The controller hands each reply to `send_message_local`, which calls `msgsnd` until there is
room, another error, or the limit of the retries. `queue_get_info` does not look at the result
of the dispatcher, so that the final `SUCCESS` says nothing about the reports. The output queue
is a list with a capacity, and its consumer, the download threads and signals take their steps
between any two attempts. `status_honest` is about the runs in which no report is given up.
-/

namespace Dserve

/-! ### One attempt -/

/-- What one outcome of `msgsnd` does in the loop of `send_message_local`: it goes on with the
given count of retries, or returns. -/
def sendStep (queueRetryCount : UInt16) (retryCount : Int16) : Except Errno Unit → Int16 ⊕ Bool
  | .ok _ => .inr true
  | .error errno =>
      let retryCount := retryCount + 1
      if errno ≠ .eagain ∨ retryCount.toInt ≥ queueRetryCount.toNat then .inr false
      else .inl retryCount

/-- The loop makes one attempt after the other. -/
theorem retryLoop_sendStep (limit : UInt16) (n : Int16) (outcome : Except Errno Unit)
    (rest : List (Except Errno Unit)) :
    retryLoop limit false (fun _ => true) n (outcome :: rest) =
      match sendStep limit n outcome with
      | .inl n => retryLoop limit false (fun _ => true) n rest
      | .inr ret => some ret := by
  cases outcome with
  | ok x => rfl
  | error errno =>
      simp only [retryLoop, sendStep]
      split <;> rfl

/-! ### The controller and its output queue -/

/-- A report of `queue_get_info`: the entry, what it held then, and what the dispatcher
returned. -/
structure Report where
  entry : EntryPtr
  value : Entry
  sent : Bool
deriving DecidableEq

/-- A call of `send_message_local`: the retries so far, the message, and the entry it is about
when it is a report. -/
structure Sending where
  retryCount : Int16
  message : Transaction
  about : Option (EntryPtr × Entry)
deriving DecidableEq

/-- The controller, the messages in the output queue, and the call that is going on. `asked`
is the queue when the last request was read, `reports` and `arrived` are what was reported
since, and what the output queue received. -/
structure Outlet (L : Type → Type) where
  config : Config L
  output : List Transaction
  sending : Option Sending
  asked : List EntryPtr
  reports : List Report
  arrived : List Transaction

inductive OutletAction where
  | act (a : Action)
  /-- `msgsnd`, which can also fail for another reason than a full queue -/
  | msgsnd (broken : Bool)
  /-- the consumer takes a message -/
  | take
deriving DecidableEq

namespace Outlet

variable {L : Type → Type}

/-- The call that a step of the controller begins; `response` is the reply after the step. -/
def begins (c : Config L) (response : Transaction) : Option Sending :=
  match c.pc with
  | .report (p :: _) => some ⟨0, response, some (p, c.mem.entry p)⟩
  | .respond => some ⟨0, response, none⟩
  | _ => none

/-- What `msgsnd` comes to. -/
def outcome (capacity : Nat) (broken : Bool) (s : Outlet L) : Except Errno Unit :=
  if broken then .error .other else if s.output.length < capacity then .ok () else .error .eagain

/-- The end of a call. -/
def ended (s : Outlet L) (g : Sending) (sent : Bool) : Outlet L :=
  { s with
    output := if sent then s.output ++ [g.message] else s.output
    sending := none
    reports := match g.about with
      | none => s.reports
      | some (p, value) => s.reports ++ [⟨p, value, sent⟩]
    arrived := if sent then s.arrived ++ [g.message] else s.arrived }

variable [ListApi L]

/-- One step. The replies are put on the output queue by `msgsnd` alone, so that the steps of
the controller send nothing themselves. -/
def step (max capacity : Nat) (limit : UInt16) (s : Outlet L) : OutletAction → Option (Outlet L)
  | .act (.request r response) =>
      if s.sending = none then
        (s.config.step max (.request r response)).map fun c =>
          { s with config := c, asked := s.config.mem.queue, reports := [], arrived := [] }
      else none
  | .act (.control o) =>
      if s.sending = none then
        (s.config.step max (.control { o with send := false })).map fun c =>
          { s with config := c, sending := begins s.config c.response }
      else none
  | .act (.thread tid a) => (s.config.step max (.thread tid a)).map fun c => { s with config := c }
  | .act (.signal fopen) =>
      (s.config.step max (.signal fopen)).map fun c => { s with config := c, sending := none }
  | .msgsnd broken =>
      if s.config.Alive then
        s.sending.map fun g =>
          match sendStep limit g.retryCount (s.outcome capacity broken) with
          | .inl n => { s with sending := some { g with retryCount := n } }
          | .inr sent => s.ended g sent
      else none
  | .take => if s.output = [] then none else some { s with output := s.output.tail }

end Outlet

/-- The controller with an output queue that holds `capacity` messages and a limit of retries. -/
def outlet (L : Type → Type) [ListApi L] (max capacity : Nat) (limit : UInt16) :
    Machine (Outlet L) OutletAction :=
  ⟨Outlet.step max capacity limit⟩

/-- The controller when it starts. -/
def unsent (L : Type → Type) (entries : List Entry) : Outlet L :=
  { config := boot L entries, output := [], sending := none, asked := [], reports := [], arrived := [] }

/-! ### What a `STATUS` promises -/

/-- A reply that reports an entry: its payload is the bytes of the entry. -/
def Transaction.Reports (t : Transaction) (r : Report) : Prop :=
  t.command = .status ∧ t.status = .processing ∧ t.payload.data = .entry r.value

namespace Outlet

variable {L : Type → Type}

/-- The final reply to a `STATUS`, with `SUCCESS`, reached the output queue. -/
def Succeeded (s : Outlet L) : Prop :=
  s.config.request.command = .status ∧ ∃ t ∈ s.arrived, t.status = .success

/-- The promise: when the final reply has arrived, it came after one report for each entry of
the queue, in order; and it does not arrive when a report could not be sent. -/
structure StatusHonest (s : Outlet L) : Prop where
  complete : s.Succeeded → s.reports.map Report.entry = s.asked ∧
    ∃ replies final, s.arrived = replies ++ [final] ∧ final.status = .success ∧
      List.Forall₂ (fun r t => Transaction.Reports t r) s.reports replies
  failed : (∃ r ∈ s.reports, r.sent = false) → ¬ s.Succeeded

/-- No report is given up: there is room in the queue before the retries are used up, and
`msgsnd` does not fail for another reason. -/
def ReportSent (capacity : Nat) (limit : UInt16) (s : Outlet L) : OutletAction → Prop
  | .msgsnd broken => ∀ g ∈ s.sending, g.about ≠ none →
      sendStep limit g.retryCount (s.outcome capacity broken) ≠ .inr false
  | _ => True

instance (capacity : Nat) (limit : UInt16) (s : Outlet L) (a : OutletAction) :
    Decidable (ReportSent capacity limit s a) :=
  match a with
  | .msgsnd broken => inferInstanceAs (Decidable (∀ g ∈ s.sending, g.about ≠ none →
      sendStep limit g.retryCount (s.outcome capacity broken) ≠ .inr false))
  | .act _ => .isTrue trivial
  | .take => .isTrue trivial

end Outlet

/-! ### Where the controller is with a `STATUS` -/

section

variable {L : Type → Type} {max capacity : Nat} {limit : UInt16} {c c' : Config L}
  {s s' : Outlet L} {asked : List EntryPtr} {reports : List Report} {arrived : List Transaction}

/-- The reports that were sent, and the replies that arrived for them. -/
def Told (reports : List Report) (replies : List Transaction) : Prop :=
  List.Forall₂ (fun r t => Transaction.Reports t r) (reports.filter Report.sent) replies

/-- The reports, and maybe a final reply after them. It has the status `SUCCESS` only when every
entry was visited. -/
def Closed (asked : List EntryPtr) (reports : List Report) (arrived : List Transaction) : Prop :=
  ∃ replies, Told reports replies ∧ (arrived = replies ∨ ∃ final : Transaction,
    arrived = replies ++ [final] ∧ (final.status = .success → reports.map Report.entry = asked))

/-- The stages of a `STATUS`. -/
inductive Stage [ListApi L] (c : Config L) (asked : List EntryPtr) :
    Option Sending → List Report → List Transaction → Prop where
  | begun : c.pc = .status → asked = c.mem.queue → Stage c asked none [] []
  | report {rest : List EntryPtr} {reports : List Report} {arrived : List Transaction} :
      c.pc = .report rest → Told reports arrived → asked = reports.map Report.entry ++ rest →
      Stage c asked none reports arrived
  | reporting {rest : List EntryPtr} {reports : List Report} {arrived : List Transaction}
      {p : EntryPtr} {value : Entry} {g : Sending} : c.pc = .report rest → Told reports arrived →
      g.about = some (p, value) → (∀ sent, g.message.Reports ⟨p, value, sent⟩) →
      asked = reports.map Report.entry ++ p :: rest → Stage c asked (some g) reports arrived
  | respond {reports : List Report} {arrived : List Transaction} : c.pc = .respond →
      Told reports arrived → (c.response.status = .success → reports.map Report.entry = asked) →
      Stage c asked none reports arrived
  | responding {reports : List Report} {arrived : List Transaction} {g : Sending} : c.pc = .idle →
      Told reports arrived → g.about = none →
      (g.message.status = .success → reports.map Report.entry = asked) →
      Stage c asked (some g) reports arrived
  | done {reports : List Report} {arrived : List Transaction} : c.pc = .idle →
      Closed asked reports arrived → Stage c asked none reports arrived
  | ended {sending : Option Sending} {reports : List Report} {arrived : List Transaction} :
      c.phase = .ending → sending = none ∨ ¬ c.Alive → Closed asked reports arrived →
      Stage c asked sending reports arrived

theorem Told.closed (told : Told reports arrived) : Closed asked reports arrived :=
  ⟨arrived, told, Or.inl rfl⟩

theorem Told.append (told : Told reports arrived) {r : Report} {t : Transaction}
    (reported : t.Reports r) : Told (reports ++ [r]) (if r.sent then arrived ++ [t] else arrived) := by
  unfold Told
  rw [List.filter_append]
  cases sent : r.sent with
  | true =>
      rw [List.filter_cons_of_pos sent]
      exact List.rel_append told (.cons reported .nil)
  | false =>
      rw [List.filter_cons_of_neg (by simp [sent]), List.filter_nil, List.append_nil]
      exact told

/-- The reports are answered with `PROCESSING`. -/
theorem Told.processing (told : Told reports arrived) : ∀ t ∈ arrived, t.status = .processing := by
  unfold Told at told
  generalize reports.filter Report.sent = rs at told
  induction told with
  | nil =>
      intro t ht
      cases ht
  | cons reported _ ih =>
      intro t ht
      rcases List.mem_cons.mp ht with rfl | ht
      · exact reported.2.1
      · exact ih t ht

variable [ListApi L]

/-- In every stage the replies are those of a `STATUS`. -/
theorem Stage.closed {sending : Option Sending} (stage : Stage c asked sending reports arrived) :
    Closed asked reports arrived := by
  cases stage with
  | begun _ _ => exact Told.closed .nil
  | report _ told _ => exact told.closed
  | reporting _ told _ _ _ => exact told.closed
  | respond _ told _ => exact told.closed
  | responding _ told _ _ => exact told.closed
  | done _ closed => exact closed
  | ended _ _ closed => exact closed

/-! ### The steps -/

theorem crash_stage {sending : Option Sending} (closed : Closed asked reports arrived) :
    Stage c.crash asked sending reports arrived :=
  .ended rfl (Or.inr fun alive => alive.2 rfl) closed

omit [ListApi L] in
theorem begins_ending (phase : c.phase = .ending) (response : Transaction) :
    Outlet.begins c response = none := by
  unfold Outlet.begins
  split
  · next pc => simp [Config.phase, pc] at phase
  · next pc => simp [Config.phase, pc] at phase
  · rfl

/-- A step of a download thread: the process is lost, or the threads and the entries move. -/
theorem thread_stage {sending : Option Sending} {tid : Tid} {a : ThreadAction}
    (stage : Stage c asked sending reports arrived) (h : c.step max (.thread tid a) = some c') :
    Stage c' asked sending reports arrived := by
  have alive : c.Alive := by
    by_contra dead
    simp [Config.step, dead] at h
  simp only [Config.step, if_pos alive] at h
  obtain ⟨t, -, h⟩ := Option.bind_eq_some_iff.mp h
  obtain ⟨m, moved, h⟩ := Option.map_eq_some_iff.mp h
  rcases orCrash_cases (congrArg some h) with rfl | h
  · exact crash_stage stage.closed
  · obtain ⟨m', rfl, rfl⟩ := Option.map_eq_some_iff.mp h
    cases stage with
    | begun pc same =>
        exact .begun pc (same.trans (Mem.ThreadMove.queue (Mem.threadStep_move moved)).symm)
    | report pc told same => exact .report pc told same
    | reporting pc told about reported same => exact .reporting pc told about reported same
    | respond pc told success => exact .respond pc told success
    | responding pc told about success => exact .responding pc told about success
    | done pc closed => exact .done pc closed
    | ended phase still closed =>
        exact .ended phase (still.imp_right fun dead => absurd alive dead) closed

variable [LawfulListApi L]

/-- A step of the controller on a `STATUS`. -/
theorem control_stage {o : Outcome} (wf : c.mem.Wf) (ready : c.Ready)
    (stage : Stage c asked none reports arrived) (h : c.control max o = some c') :
    Stage c' asked (Outlet.begins c c'.response) reports arrived := by
  cases stage with
  | begun pc same =>
      have none : Outlet.begins c c'.response = none := by simp [Outlet.begins, pc]
      obtain ⟨-, -, -, queue⟩ := Mem.queueInit_spec o.queueNew wf
      rw [none]
      simp only [Config.control, pc] at h
      split at h
      · cases h
        exact .respond rfl .nil fun success => by cases success
      · rcases orCrash_cases h with rfl | h
        · exact crash_stage (Told.closed .nil)
        · obtain ⟨items, visited, rfl⟩ := Option.map_eq_some_iff.mp h
          exact .report rfl .nil (same.trans (queue.symm.trans (Mem.queueItems_eq visited).symm))
  | @report rest _ _ pc told same =>
      cases rest with
      | nil =>
          have none : Outlet.begins c c'.response = none := by simp [Outlet.begins, pc]
          simp only [Config.control, pc] at h
          cases h
          rw [none]
          exact .respond rfl told fun _ => by simpa using same.symm
      | cons p rest =>
          simp only [Config.control, pc] at h
          cases h
          simp only [Outlet.begins, pc]
          exact .reporting rfl told rfl (fun _ => ⟨rfl, rfl, rfl⟩) same
  | respond pc told success =>
      simp only [Config.control, pc] at h
      cases h
      simp only [Outlet.begins, pc]
      exact .responding rfl told rfl success
  | done pc closed => simp [Config.control, pc] at h
  | ended phase still closed =>
      have ending : c'.phase = .ending := by
        cases control_progress ready h with
        | silent step =>
            rcases step.phase with same | ended
            · exact same.trans phase
            · exact ended
        | loaded loading => rw [phase] at loading; cases loading
        | report _ answering => rw [phase] at answering; cases answering
        | respond pc => simp [Config.phase, pc] at phase
      rw [begins_ending phase]
      exact .ended ending (Or.inl rfl) closed

omit [LawfulListApi L] in
/-- An attempt that goes on changes nothing but the count. -/
theorem Stage.again {g : Sending} (stage : Stage c asked (some g) reports arrived) (n : Int16) :
    Stage c asked (some { g with retryCount := n }) reports arrived := by
  cases stage with
  | reporting pc told about reported same => exact .reporting pc told about reported same
  | responding pc told about success => exact .responding pc told about success
  | ended phase still closed => exact .ended phase (still.imp_left fun none => by cases none) closed

omit [LawfulListApi L] in
/-- The end of a call of `send_message_local`. -/
theorem ended_stage {g : Sending} (alive : s.config.Alive)
    (stage : Stage s.config s.asked (some g) s.reports s.arrived) (sent : Bool) :
    Stage (s.ended g sent).config s.asked (s.ended g sent).sending (s.ended g sent).reports
      (s.ended g sent).arrived := by
  cases stage with
  | @reporting rest _ _ p value _ pc told about reported same =>
      simp only [Outlet.ended, about]
      refine .report pc (told.append (reported sent)) ?_
      simpa using same
  | responding pc told about success =>
      simp only [Outlet.ended, about]
      refine .done pc ⟨s.arrived, told, ?_⟩
      cases sent with
      | true => exact Or.inr ⟨g.message, rfl, success⟩
      | false => exact Or.inl rfl
  | ended phase still closed =>
      rcases still with none | dead
      · cases none
      · exact absurd alive dead

/-- Only `read_from_server` changes the request. -/
theorem step_request {a : Action} (wf : c.mem.Wf) (h : c.step max a = some c')
    (other : ∀ r response, a ≠ .request r response) : c'.request = c.request := by
  have stepped := (step_view wf h).2
  show c'.view.request = c.view.request
  generalize c'.view = w at stepped ⊢
  generalize c.view = v at stepped ⊢
  cases stepped with
  | control move => cases move <;> rfl
  | request idle => exact absurd rfl (other _ _)
  | _ => rfl

/-- What is known of every state: the stage of the `STATUS` that was read last. -/
def Staged (s : Outlet L) : Prop :=
  s.config.request.command = .status → Stage s.config s.asked s.sending s.reports s.arrived

theorem step_staged {a : OutletAction} (wf : s.config.mem.Wf) (ready : s.config.Ready)
    (inv : Staged s) (h : s.step max capacity limit a = some s') : Staged s' := by
  cases a with
  | act a =>
      cases a with
      | request r response =>
          simp only [Outlet.step] at h
          split at h
          · next free =>
            obtain ⟨c', read, rfl⟩ := Option.map_eq_some_iff.mp h
            simp only [Config.step] at read
            split at read
            · cases read
              intro command
              have command : r.command = .status := command
              simp only [free]
              exact .begun (by simp [command, Command.dispatch]) rfl
            · cases read
          · cases h
      | control o =>
          simp only [Outlet.step] at h
          split at h
          · next free =>
            obtain ⟨c', moved, rfl⟩ := Option.map_eq_some_iff.mp h
            intro command
            have same := step_request wf moved (fun _ _ => by simp)
            have stage := inv (same ▸ command)
            rw [free] at stage
            exact control_stage wf ready stage moved
          · cases h
      | thread tid a =>
          obtain ⟨c', moved, rfl⟩ := Option.map_eq_some_iff.mp h
          intro command
          have same := step_request wf moved (fun _ _ => by simp)
          exact thread_stage (inv (same ▸ command)) moved
      | signal fopen =>
          obtain ⟨c', moved, rfl⟩ := Option.map_eq_some_iff.mp h
          intro command
          have same := step_request wf moved (fun _ _ => by simp)
          exact .ended (signal_ending moved).2.2 (Or.inl rfl) (inv (same ▸ command)).closed
  | msgsnd broken =>
      simp only [Outlet.step] at h
      split at h
      · next alive =>
        obtain ⟨g, sending, h⟩ := Option.map_eq_some_iff.mp h
        have goes : s.config.request.command = .status →
            Stage s.config s.asked (some g) s.reports s.arrived := fun command => sending ▸ inv command
        split at h
        · cases h
          exact fun command => (goes command).again _
        · cases h
          exact fun command => ended_stage alive (goes command) _
      · cases h
  | take =>
      simp only [Outlet.step] at h
      split at h
      · cases h
      · cases h
        exact inv

omit [LawfulListApi L] in
/-- What a step of the outlet is for the controller. -/
theorem step_config {a : OutletAction} (h : s.step max capacity limit a = some s') :
    s'.config = s.config ∨ ∃ b, s.config.step max b = some s'.config := by
  cases a with
  | act a =>
      cases a with
      | request r response | control o =>
          simp only [Outlet.step] at h
          split at h
          · obtain ⟨c', moved, rfl⟩ := Option.map_eq_some_iff.mp h
            exact Or.inr ⟨_, moved⟩
          · cases h
      | thread tid a | signal fopen =>
          obtain ⟨c', moved, rfl⟩ := Option.map_eq_some_iff.mp h
          exact Or.inr ⟨_, moved⟩
  | msgsnd broken =>
      simp only [Outlet.step] at h
      split at h
      · obtain ⟨g, -, h⟩ := Option.map_eq_some_iff.mp h
        split at h <;> cases h <;> exact Or.inl rfl
      · cases h
  | take =>
      simp only [Outlet.step] at h
      split at h <;> cases h
      exact Or.inl rfl

variable {entries : List Entry} {ok : Outlet L → OutletAction → Prop}

omit [LawfulListApi L] in
/-- The controller behind the outlet runs as the controller does. -/
theorem outlet_reaches (run : (outlet L max capacity limit).Run ok (unsent L entries) s) :
    (controller L max).Reachable (boot L entries) s.config := by
  refine run.invariant (I := fun s => (controller L max).Reachable (boot L entries) s.config) .refl ?_
  intro t a u reached _ step
  rcases step_config step with same | ⟨b, moved⟩
  · rw [same]
    exact reached
  · exact reached.tail trivial moved

theorem run_staged (run : (outlet L max capacity limit).Run ok (unsent L entries) s) : Staged s := by
  have kept : s.config.Ready ∧ Staged s := by
    refine run.invariant_with (I := fun s => s.config.Ready ∧ Staged s)
      (fun t run => (reachable_invariant (I := fun _ => True) (boot_wf entries) trivial
        (fun _ _ _ _ _ => trivial) (outlet_reaches run)).1)
      ⟨boot_ready entries, fun command => by cases command⟩ ?_
    rintro t a u wf ⟨ready, staged⟩ - step
    refine ⟨?_, step_staged wf ready staged step⟩
    rcases step_config step with same | ⟨b, moved⟩
    · rw [same]
      exact ready
    · exact ready.step moved
  exact kept.2

omit [LawfulListApi L] in
/-- Where no report is given up, every report was sent. -/
theorem run_sent (run : (outlet L max capacity limit).Run (Outlet.ReportSent capacity limit)
    (unsent L entries) s) : ∀ r ∈ s.reports, r.sent = true := by
  refine run.invariant (I := fun s => ∀ r ∈ s.reports, r.sent = true) (fun r hr => by cases hr) ?_
  intro t a u inv good step
  cases a with
  | act a =>
      cases a with
      | request r response =>
          simp only [outlet, Outlet.step] at step
          split at step
          · obtain ⟨c', -, rfl⟩ := Option.map_eq_some_iff.mp step
            intro r hr
            cases hr
          · cases step
      | control o =>
          simp only [outlet, Outlet.step] at step
          split at step
          · obtain ⟨c', -, rfl⟩ := Option.map_eq_some_iff.mp step
            exact inv
          · cases step
      | thread tid a | signal fopen =>
          obtain ⟨c', -, rfl⟩ := Option.map_eq_some_iff.mp step
          exact inv
  | msgsnd broken =>
      simp only [outlet, Outlet.step] at step
      split at step
      · obtain ⟨g, sending, step⟩ := Option.map_eq_some_iff.mp step
        split at step
        · cases step
          exact inv
        · next sent outcome =>
          cases step
          intro r hr
          simp only [Outlet.ended] at hr
          cases about : g.about with
          | none =>
              rw [about] at hr
              exact inv r hr
          | some pair =>
              rw [about] at hr
              rcases List.mem_append.mp hr with hr | hr
              · exact inv r hr
              · rw [List.mem_singleton.mp hr]
                have notLost := good g sending (by simp [about])
                cases sent with
                | true => rfl
                | false => exact absurd outcome notLost
      · cases step
  | take =>
      simp only [outlet, Outlet.step] at step
      split at step <;> cases step
      exact inv

omit [LawfulListApi L] [ListApi L] in
/-- When every report was sent, the replies of a `STATUS` keep its promise. -/
theorem Closed.honest (closed : s.config.request.command = .status → Closed s.asked s.reports s.arrived)
    (sent : ∀ r ∈ s.reports, r.sent = true) : s.StatusHonest := by
  constructor
  · rintro ⟨command, t, ht, success⟩
    obtain ⟨replies, told, shape⟩ := closed command
    have processing := told.processing
    unfold Told at told
    rw [List.filter_eq_self.mpr sent] at told
    rcases shape with same | ⟨final, same, all⟩
    · rw [same] at ht
      cases (processing t ht).symm.trans success
    · rw [same] at ht
      rcases List.mem_append.mp ht with ht | ht
      · cases (processing t ht).symm.trans success
      · have last : final.status = .success := List.mem_singleton.mp ht ▸ success
        exact ⟨all last, replies, final, same, last, told⟩
  · rintro ⟨r, hr, lost⟩ -
    cases (sent r hr).symm.trans lost

/-- In every run in which no report is given up, a `STATUS` keeps its promise. -/
theorem status_honest (run : (outlet L max capacity limit).Run (Outlet.ReportSent capacity limit)
    (unsent L entries) s) : s.StatusHonest :=
  Closed.honest (fun command => (run_staged run command).closed) (run_sent run)

end

/-! ### Runs that are replayed -/

/-- The entries of an index file, as they are when it is loaded. -/
def stored (name : CString) : Entry := { entryNew with id := ⟨name⟩, status := .paused }

/-- The start of a controller that finds two entries, and a `STATUS`. -/
def asking : List OutletAction :=
  List.replicate 7 (.act (.control {})) ++
    [.act (.request (order .status ['a']) .zero), .act (.control {})]

/-- A reply that is sent in one attempt. -/
def sends : List OutletAction := [.act (.control {}), .msgsnd false]

/-- Two reports, and room for all replies. -/
theorem status_honest_run : ∃ s : Outlet HeapList,
    ((outlet HeapList 1 3 10).Run (Outlet.ReportSent 3 10) (unsent HeapList [stored ['a'], stored ['b']])
      s ∧ s.Succeeded) ∧ s.StatusHonest := by
  obtain ⟨s, run, succeeded⟩ := Machine.exists_run_of_exec (outlet HeapList 1 3 10)
    (Outlet.ReportSent 3 10) (unsent HeapList [stored ['a'], stored ['b']])
    (asking ++ sends ++ sends ++ [.act (.control {})] ++ sends)
    (fun s => s.config.request.command = .status ∧ ∃ t ∈ s.arrived, t.status = .success) (by decide)
  exact ⟨s, ⟨run, succeeded⟩, status_honest run⟩

/-- The queue holds one message. The second report is given up after ten attempts, and the
final `SUCCESS` is sent when there is room again. -/
theorem report_lost : ¬ ∀ (max capacity : Nat) (limit : UInt16) (entries : List Entry)
    (s : Outlet HeapList), (outlet HeapList max capacity limit).Reachable (unsent HeapList entries) s →
      s.StatusHonest := by
  intro all
  obtain ⟨s, run, lost, command, success⟩ := Machine.exists_run_of_exec (outlet HeapList 1 1 10)
    (fun _ _ => True) (unsent HeapList [stored ['a'], stored ['b']])
    (asking ++ sends ++ [.act (.control {})] ++ List.replicate 10 (.msgsnd false) ++
      [.take, .act (.control {})] ++ sends)
    (fun s => (∃ r ∈ s.reports, r.sent = false) ∧ s.config.request.command = .status ∧
      ∃ t ∈ s.arrived, t.status = .success) (by decide)
  exact (all 1 1 10 _ s run).failed lost ⟨command, success⟩

end Dserve
