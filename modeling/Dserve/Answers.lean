import Dserve.Defined
import Dserve.Replies

/-!
The answer to each request.

The reply is built in a local variable of the loop, which nothing initialises. Every handler
assigns it in all of its branches; the `default` branch of `process_request` leaves it as it
was. `answers_complete` says that each request is answered by the parts of a `STATUS` and
one last reply of its own command, as long as the requests have known commands or the bytes
of the variable happen to be such a reply, and each step finds what it reads. A request with an
unknown command is answered with whatever is on the stack (`unknown_answered`); one whose handler
reads what was freed is not answered at all, since the process ends there.
-/

namespace Dserve

/-- The controller with the requests it has read and what it sent after each of them. -/
structure Dialogue (L : Type → Type) where
  config : Config L
  requests : List Transaction
  answers : Nat → List Transaction

namespace Dialogue

variable {L : Type → Type}

/-- What a step of the controller sends belongs to the request that was read last. -/
def answer (s : Dialogue L) (c : Config L) : Nat → List Transaction :=
  Function.update s.answers (s.requests.length - 1)
    (s.answers (s.requests.length - 1) ++ c.sent.drop s.config.sent.length)

/-- A step of the controller, noted down. -/
def step [ListApi L] (max : Nat) (s : Dialogue L) (a : Action) : Option (Dialogue L) :=
  (s.config.step max a).map fun c =>
    match a with
    | .request r _ => ⟨c, s.requests ++ [r], s.answers⟩
    | _ => ⟨c, s.requests, s.answer c⟩

/-- The controller does not work on the request any more: it has read another one, waits for one,
or was ended by undefined behaviour. -/
def Over (s : Dialogue L) (k : Nat) : Prop :=
  k + 1 < s.requests.length ∨ s.config.pc = .idle ∨ s.config.pc = .crashed

instance (s : Dialogue L) (k : Nat) : Decidable (s.Over k) := by unfold Over; infer_instance

end Dialogue

/-- The dialogue of a controller that starts. -/
def dialogue (L : Type → Type) [ListApi L] (max : Nat) : Machine (Dialogue L) Action :=
  ⟨Dialogue.step max⟩

def silence (L : Type → Type) (entries : List Entry) : Dialogue L :=
  ⟨boot L entries, [], fun _ => []⟩

/-- A reply that is not the part of a `STATUS`, to a request with the given command. -/
def Final (command : Command) (t : Transaction) : Prop :=
  (t.status = .success ∨ t.status = .failure) ∧ t.command = command

instance (command : Command) (t : Transaction) : Decidable (Final command t) := by
  unfold Final
  infer_instance

/-- The answer to a request: parts, if it is a `STATUS`, and one last reply. -/
def Block (r : Transaction) (ts : List Transaction) : Prop :=
  ∃ parts last, ts = parts ++ [last] ∧ (∀ t ∈ parts, t.status = .processing) ∧
    (r.command ≠ .status → parts = []) ∧ Final r.command last

/-- What the inner loop of a handler takes for one request: it goes on while the reply is
`PROCESSING`. -/
def forwarded : List Transaction → List Transaction × List Transaction
  | [] => ([], [])
  | t :: ts => if t.status = .processing then (t :: (forwarded ts).1, (forwarded ts).2) else ([t], ts)

/-- Each request that is over has its answer, which is what the loop of a handler takes, and
nothing else was sent. -/
structure Answered {L : Type → Type} (s : Dialogue L) : Prop where
  block : ∀ k r, s.requests[k]? = some r → s.Over k → Block r (s.answers k)
  taken : ∀ k, k < s.requests.length → s.Over k →
    ∀ later, forwarded (s.answers k ++ later) = (s.answers k, later)
  sent : s.config.sent = (List.range s.requests.length).flatMap s.answers

/-- The commands that have a handler. -/
def Command.Handled : Command → Prop
  | .none => False
  | .other _ => False
  | _ => True

instance : DecidablePred Command.Handled := fun command => by
  cases command <;> unfold Command.Handled <;> infer_instance

/-- Every `send_to_server` succeeds. -/
def Sends : Action → Prop
  | .control o => o.send = true
  | _ => True

instance : DecidablePred Sends := fun a => by
  unfold Sends
  induction a using Action.casesOn <;> infer_instance

/-- The request has a handler, or what `response` holds happens to be a final reply to it;
every `send_to_server` succeeds. -/
def Framed : Action → Prop
  | .request r response => r.command.Handled ∨ Final r.command response
  | a => Sends a

instance : DecidablePred Framed := fun a => by
  induction a using Action.casesOn <;> unfold Framed <;> infer_instance

/-- The request can be answered, and the step finds what it reads. -/
def Answerable (s : Dialogue HeapList) (a : Action) : Prop := Framed a ∧ s.config.Finds a

instance (s : Dialogue HeapList) (a : Action) : Decidable (Answerable s a) :=
  inferInstanceAs (Decidable (_ ∧ _))

/-! ### The reply in the buffer -/

/-- Where the buffer holds the final reply. -/
def Settled {L : Type → Type} (c : Config L) : Prop :=
  match c.pc with
  | .visit _ => c.installed = true → Final c.request.command c.response
  | .count _ _ => c.installed = true → Final c.request.command c.response
  | .start _ _ => c.installed = true → Final c.request.command c.response
  | .mark _ _ => c.installed = true → Final c.request.command c.response
  | .status => c.request.command = .status
  | .report _ => c.request.command = .status
  | .respond => Final c.request.command c.response
  | _ => True

section

variable {L : Type → Type} {max : Nat} {o : Outcome} {c c' : Config L}

theorem reply_final (request : Transaction) {status : Status} (text : CString)
    (final : status = .success ∨ status = .failure) :
    Final request.command (reply request status text) := ⟨final, rfl⟩

theorem pauseReply_final (request : Transaction) (ret : Bool) :
    Final request.command (pauseReply request ret) := by
  cases ret <;> exact reply_final request _ (Or.inl rfl)

theorem cancelReply_final (request : Transaction) (ret : Bool) :
    Final request.command (cancelReply request ret) := by
  cases ret <;> exact reply_final request _ (Or.inl rfl)

/-- A step keeps the request, leaves the reply ready to be sent, and sends a part only of a
`STATUS`. -/
structure Attends (c c' : Config L) : Prop where
  request : c'.request = c.request
  settled : Settled c'
  parts : c.request.command ≠ .status → c.pc ≠ .respond → c'.sent = c.sent

theorem crash_attends : Attends c c.crash := ⟨rfl, trivial, fun _ _ => rfl⟩

variable [ListApi L]

theorem queueAppend_final {m m' : Mem L} {request response : Transaction} {added : Bool}
    (h : m.queueAppend o request = some (m', response, added)) : Final request.command response := by
  simp only [Mem.queueAppend] at h
  split at h
  · cases h
    exact reply_final request _ (Or.inr rfl)
  · obtain ⟨entryExists, -, h⟩ := Option.bind_eq_some_iff.mp h
    split at h
    · cases h
      exact reply_final request _ (Or.inr rfl)
    · split at h
      · obtain ⟨entry, -, h⟩ := Option.bind_eq_some_iff.mp h
        obtain ⟨m'', -, eq⟩ := Option.map_eq_some_iff.mp h
        cases eq
        exact reply_final request _ (Or.inl rfl)
      · cases h
        exact reply_final request _ (Or.inr rfl)

theorem visitAll_settled {d : Config L} (h : d.visitAll = some c') (same : d.request = c.request)
    (sent : d.sent = c.sent) (final : d.installed = true → Final d.request.command d.response) :
    Attends c c' := by
  obtain ⟨items, -, rfl⟩ := Option.map_eq_some_iff.mp h
  exact ⟨same, final, fun _ _ => sent⟩

theorem afterSwitch_settled {d : Config L} {k : Task} {p : EntryPtr} {ret : Bool}
    (h : d.afterSwitch k p ret = some c') (same : d.request = c.request) (sent : d.sent = c.sent) :
    Attends c c' := by
  cases k with
  | pause =>
      cases h
      exact ⟨same, pauseReply_final d.request ret, fun _ _ => sent⟩
  | cancel =>
      cases h
      exact ⟨same, trivial, fun _ _ => sent⟩
  | restart =>
      have visits : Config.visitAll { d with response := restartReply d.request } = some c' := h
      exact visitAll_settled visits same sent fun _ => reply_final d.request _ (Or.inl rfl)
  | save rest =>
      cases h
      exact ⟨same, trivial, fun _ _ => sent⟩

/-- The steps of the controller itself. -/
theorem control_attends (ready : c.Ready) (settled : Settled c) (h : c.control max o = some c') :
    Attends c c' := by
  cases pc : c.pc with
  | load entries =>
      simp only [Config.control, pc] at h
      split at h <;> cases h <;> exact ⟨rfl, trivial, fun _ _ => rfl⟩
  | loading entries =>
      have loading : c.phase = .loading := by simp [Config.phase, pc]
      cases entries with
      | nil =>
          simp only [Config.control, pc] at h
          rcases orCrash_cases h with rfl | h
          · exact crash_attends
          · apply visitAll_settled h rfl rfl
            intro set
            exact absurd loading ((ready (by simp [loading])).mp set)
      | cons e entries =>
          simp only [Config.control, pc] at h
          split at h
          · rcases orCrash_cases h with rfl | h
            · exact crash_attends
            · obtain ⟨m, -, rfl⟩ := Option.map_eq_some_iff.mp h
              exact ⟨rfl, trivial, fun _ _ => rfl⟩
          · cases h
            exact ⟨rfl, trivial, fun _ _ => rfl⟩
  | idle => simp [Config.control, pc] at h
  | add =>
      obtain ⟨-, h⟩ := Config.control_add pc h
      rcases orCrash_cases h with rfl | h
      · exact crash_attends
      · obtain ⟨r, appended, h⟩ := Option.bind_eq_some_iff.mp h
        have final := queueAppend_final appended
        split at h
        · exact visitAll_settled h rfl rfl fun _ => final
        · cases h
          exact ⟨rfl, final, fun _ _ => rfl⟩
  | visit rest =>
      simp only [Settled, pc] at settled
      cases rest with
      | nil =>
          simp only [Config.control, pc] at h
          split at h
          · next installed =>
            cases h
            exact ⟨rfl, settled installed, fun _ _ => rfl⟩
          · cases h
            exact ⟨rfl, trivial, fun _ _ => rfl⟩
      | cons p rest =>
          simp only [Config.control, pc] at h
          split at h <;> cases h <;> exact ⟨rfl, settled, fun _ _ => rfl⟩
  | count p rest =>
      simp only [Settled, pc] at settled
      simp only [Config.control, pc] at h
      rcases orCrash_cases h with rfl | h
      · exact crash_attends
      · obtain ⟨n, -, h⟩ := Option.map_eq_some_iff.mp h
        split at h <;> cases h <;> exact ⟨rfl, settled, fun _ _ => rfl⟩
  | start p rest =>
      simp only [Settled, pc] at settled
      simp only [Config.control, pc] at h
      rcases orCrash_cases h with rfl | h
      · exact crash_attends
      · obtain ⟨m, -, rfl⟩ := Option.map_eq_some_iff.mp h
        exact ⟨rfl, settled, fun _ _ => rfl⟩
  | mark p rest =>
      simp only [Settled, pc] at settled
      simp only [Config.control, pc] at h
      cases h
      exact ⟨rfl, settled, fun _ _ => rfl⟩
  | status =>
      simp only [Settled, pc] at settled
      simp only [Config.control, pc] at h
      split at h
      · cases h
        exact ⟨rfl, reply_final c.request _ (Or.inr rfl), fun _ _ => rfl⟩
      · rcases orCrash_cases h with rfl | h
        · exact crash_attends
        · obtain ⟨items, -, rfl⟩ := Option.map_eq_some_iff.mp h
          exact ⟨rfl, settled, fun _ _ => rfl⟩
  | report rest =>
      simp only [Settled, pc] at settled
      cases rest with
      | nil =>
          simp only [Config.control, pc] at h
          cases h
          exact ⟨rfl, reply_final c.request _ (Or.inl rfl), fun _ _ => rfl⟩
      | cons p rest =>
          simp only [Config.control, pc] at h
          cases h
          exact ⟨rfl, settled, fun other => absurd settled other⟩
  | lookup k =>
      simp only [Config.control, pc] at h
      rcases orCrash_cases h with rfl | h
      · exact crash_attends
      · obtain ⟨found, -, h⟩ := Option.bind_eq_some_iff.mp h
        cases found with
        | none =>
            cases h
            exact ⟨rfl, reply_final c.request _ (Or.inr rfl), fun _ _ => rfl⟩
        | some p =>
            simp only at h
            split at h
            · cases h
              exact ⟨rfl, trivial, fun _ _ => rfl⟩
            · exact afterSwitch_settled h rfl rfl
            · cases h
              exact ⟨rfl, trivial, fun _ _ => rfl⟩
  | assign k p =>
      simp only [Config.control, pc] at h
      rcases orCrash_cases h with rfl | h
      · exact crash_attends
      · exact afterSwitch_settled h rfl rfl
  | stop k p =>
      simp only [Config.control, pc] at h
      rcases orCrash_cases h with rfl | h
      · exact crash_attends
      · obtain ⟨found, -, h⟩ := Option.bind_eq_some_iff.mp h
        cases found with
        | none => exact afterSwitch_settled h rfl rfl
        | some r =>
            cases h
            exact ⟨rfl, trivial, fun _ _ => rfl⟩
  | kill k p r =>
      simp only [Config.control, pc] at h
      rcases orCrash_cases h with rfl | h
      · exact crash_attends
      · obtain ⟨ret, -, h⟩ := Option.bind_eq_some_iff.mp h
        exact afterSwitch_settled h rfl rfl
  | unlink p =>
      simp only [Config.control, pc] at h
      rcases orCrash_cases h with rfl | h
      · exact crash_attends
      · obtain ⟨ret, -, rfl⟩ := Option.map_eq_some_iff.mp h
        exact ⟨rfl, cancelReply_final c.request ret.1, fun _ _ => rfl⟩
  | saving rest =>
      cases rest with
      | nil =>
          simp only [Config.control, pc] at h
          cases h
          exact ⟨rfl, trivial, fun _ _ => rfl⟩
      | cons p rest =>
          simp only [Config.control, pc] at h
          split at h <;> cases h <;> exact ⟨rfl, trivial, fun _ _ => rfl⟩
  | reset p rest =>
      simp only [Config.control, pc] at h
      cases h
      exact ⟨rfl, trivial, fun _ _ => rfl⟩
  | write p rest =>
      simp only [Config.control, pc] at h
      rcases orCrash_cases h with rfl | h
      · exact crash_attends
      · obtain ⟨line, -, rfl⟩ := Option.map_eq_some_iff.mp h
        exact ⟨rfl, trivial, fun _ _ => rfl⟩
  | respond =>
      simp only [Config.control, pc] at h
      cases h
      exact ⟨rfl, trivial, fun _ other => absurd pc other⟩
  | exited => simp [Config.control, pc] at h
  | crashed => simp [Config.control, pc] at h

/-- The download threads leave the reply alone. -/
theorem thread_attends {tid : Tid} {a : ThreadAction} (settled : Settled c)
    (h : c.step max (.thread tid a) = some c') : Attends c c' := by
  have sent := (thread_silent h).sent
  simp only [Config.step] at h
  split at h
  · obtain ⟨t, -, h⟩ := Option.bind_eq_some_iff.mp h
    obtain ⟨m, -, h⟩ := Option.map_eq_some_iff.mp h
    rcases orCrash_cases (congrArg some h) with rfl | moved
    · exact crash_attends
    · obtain ⟨m', -, rfl⟩ := Option.map_eq_some_iff.mp moved
      exact ⟨rfl, settled, fun _ _ => sent⟩
  · cases h

/-- A signal ends the process. -/
theorem signal_attends {fopen : Bool} (h : c.step max (.signal fopen) = some c') : Attends c c' := by
  simp only [Config.step] at h
  split at h
  · simp only [Option.some.injEq] at h
    unfold Config.terminate at h
    split at h
    · subst h
      exact ⟨rfl, trivial, fun _ _ => rfl⟩
    · split at h
      · rcases orCrash_cases (congrArg some h) with rfl | saves
        · exact crash_attends
        · obtain ⟨items, -, rfl⟩ := Option.map_eq_some_iff.mp saves
          exact ⟨rfl, trivial, fun _ _ => rfl⟩
      · subst h
        exact ⟨rfl, trivial, fun _ _ => rfl⟩
  · cases h

/-- A request that can be answered is dispatched. -/
theorem request_settled {r response : Transaction} (answerable : r.command.Handled ∨ Final r.command response)
    (h : c.step max (.request r response) = some c') : c'.request = r ∧ Settled c' := by
  simp only [Config.step] at h
  split at h
  · cases h
    refine ⟨rfl, ?_⟩
    cases command : r.command with
    | none | other =>
        rw [command] at answerable
        have final := answerable.resolve_left id
        simpa [Settled, Command.dispatch, command] using final
    | status => simp [Settled, Command.dispatch, command]
    | _ => simp [Settled, Command.dispatch]
  · cases h

/-! ### The invariant -/

omit [ListApi L] in
theorem idle_iff : c.phase = .idle ↔ c.pc = .idle := by
  cases pc : c.pc with
  | assign k | stop k | kill k => cases k <;> simp [Config.phase, pc, Task.phase]
  | visit | count | start | mark => cases set : c.installed <;> simp [Config.phase, pc, set]
  | _ => simp [Config.phase, pc]

/-- What holds between the steps. -/
structure Answering (s : Dialogue L) : Prop where
  ready : s.config.Ready
  settled : Settled s.config
  block : ∀ k r, s.requests[k]? = some r → s.Over k → Block r (s.answers k)
  loading : s.config.phase = .loading → s.requests = []
  current : s.config.phase = .answering → ∃ earlier, s.requests = earlier ++ [s.config.request] ∧
    (∀ t ∈ s.answers earlier.length, t.status = .processing) ∧
    (s.config.request.command ≠ .status → s.answers earlier.length = [])
  fresh : ∀ k, s.requests.length ≤ k → s.answers k = []
  sent : s.config.sent = (List.range s.requests.length).flatMap s.answers

variable {s s' : Dialogue L}

omit [ListApi L] in
/-- Nothing is sent: the request is the same, and it is not over. -/
theorem Answering.silent (inv : Answering s) (step : Silent s.config c) (attends : Attends s.config c)
    (alive : c.pc ≠ .crashed) : Answering ⟨c, s.requests, s.answer c⟩ := by
  have answers : s.answer c = s.answers := by
    simp [Dialogue.answer, step.sent]
  rw [answers]
  have phase : ∀ p, p ≠ .ending → c.phase = p → s.config.phase = p := by
    intro p other same
    rcases step.phase with same' | ended
    · exact same'.symm.trans same
    · exact absurd (same.symm.trans ended) other
  refine ⟨step.ready inv.ready, attends.settled, ?_, ?_, ?_, inv.fresh, step.sent.trans inv.sent⟩
  · intro k r found ended
    apply inv.block k r found
    rcases ended with earlier | idle | crashed
    · exact Or.inl earlier
    · exact Or.inr (Or.inl (idle_iff.mp (phase .idle (by simp) (idle_iff.mpr idle))))
    · exact absurd crashed alive
  · intro loading
    exact inv.loading (phase .loading (by simp) loading)
  · intro answering
    have current := inv.current (phase .answering (by simp) answering)
    simp only [attends.request]
    exact current

omit [ListApi L] in
/-- The replies of the request that was read last. -/
theorem Answering.sends (inv : Answering s) {earlier : List Transaction}
    (requests : s.requests = earlier ++ [s.config.request]) {t : Transaction}
    (sent : c.sent = s.config.sent ++ [t]) :
    s.answer c = Function.update s.answers earlier.length (s.answers earlier.length ++ [t]) ∧
      c.sent = (List.range s.requests.length).flatMap (s.answer c) ∧
      ∀ k, s.requests.length ≤ k → s.answer c k = [] := by
  have last : s.requests.length - 1 = earlier.length := by simp [requests]
  have answer : s.answer c =
      Function.update s.answers earlier.length (s.answers earlier.length ++ [t]) := by
    simp [Dialogue.answer, last, sent]
  have before : ∀ k ∈ List.range earlier.length, s.answer c k = s.answers k := by
    intro k hk
    rw [answer]
    exact Function.update_of_ne (Nat.ne_of_lt (List.mem_range.mp hk)) _ _
  refine ⟨answer, ?_, ?_⟩
  · rw [sent, inv.sent, requests, List.length_append, List.length_singleton, List.range_succ,
      List.flatMap_append, List.flatMap_append, List.flatMap_congr before, answer]
    simp
  · intro k hk
    rw [answer]
    have other : k ≠ earlier.length := by
      rw [requests, List.length_append, List.length_singleton] at hk
      omega
    rw [Function.update_of_ne other]
    exact inv.fresh k hk

omit [ListApi L] in
/-- The requests before the last one are over, and their answers stay. -/
theorem Answering.earlier_block (inv : Answering s) {earlier : List Transaction} {k : Nat}
    {r : Transaction} (requests : s.requests = earlier ++ [s.config.request])
    (before : k < earlier.length) (found : s.requests[k]? = some r) (ts : List Transaction) :
    Block r (Function.update s.answers earlier.length ts k) := by
  rw [Function.update_of_ne (Nat.ne_of_lt before)]
  apply inv.block k r found
  left
  rw [requests, List.length_append, List.length_singleton]
  omega

omit [ListApi L] in
/-- A part of the answer to a `STATUS`. -/
theorem Answering.part (inv : Answering s) {t : Transaction} (attends : Attends s.config c)
    (ready : c.Ready) (answering : s.config.phase = .answering) (other : s.config.pc ≠ .respond)
    (processing : t.status = .processing) (sent : c.sent = s.config.sent ++ [t])
    (phase : c.phase = .answering) (alive : c.pc ≠ .crashed) : Answering ⟨c, s.requests, s.answer c⟩ := by
  obtain ⟨earlier, requests, parts, -⟩ := inv.current answering
  obtain ⟨answer, all, fresh⟩ := inv.sends requests sent
  have command : s.config.request.command = .status := by
    by_contra differs
    have silent := attends.parts differs other
    rw [sent] at silent
    simp at silent
  refine ⟨ready, attends.settled, ?_, ?_, ?_, fresh, all⟩
  · intro k r found ended
    rcases ended with before | idle | crashed
    · simp only [requests, List.length_append, List.length_singleton] at before
      simp only [answer]
      exact inv.earlier_block requests (by omega) found _
    · rw [idle_iff.mpr idle] at phase
      cases phase
    · rw [show c.pc = .crashed from crashed] at alive
      exact absurd rfl alive
  · intro loading
    rw [loading] at phase
    cases phase
  · intro _
    refine ⟨earlier, by rw [attends.request]; exact requests, ?_, ?_⟩
    · simp only [answer, Function.update_self]
      intro x hx
      rcases List.mem_append.mp hx with hx | hx
      · exact parts x hx
      · rw [List.mem_singleton.mp hx]
        exact processing
    · intro differs
      rw [attends.request] at differs
      exact absurd command differs

omit [ListApi L] in
/-- The last reply to the request. -/
theorem Answering.final (inv : Answering s) (attends : Attends s.config c) (ready : c.Ready)
    (pc : s.config.pc = .respond) (sent : c.sent = s.config.sent ++ [s.config.response])
    (phase : c.phase = .idle) : Answering ⟨c, s.requests, s.answer c⟩ := by
  obtain ⟨earlier, requests, parts, only⟩ := inv.current (by simp [Config.phase, pc])
  obtain ⟨answer, all, fresh⟩ := inv.sends requests sent
  have final : Final s.config.request.command s.config.response := by
    have settled := inv.settled
    simpa only [Settled, pc] using settled
  refine ⟨ready, attends.settled, ?_, ?_, ?_, fresh, all⟩
  · intro k r found _
    simp only [answer]
    by_cases last : k = earlier.length
    · subst last
      have same : s.config.request = r := by simpa [requests] using found
      subst same
      rw [Function.update_self]
      exact ⟨_, _, rfl, parts, only, final⟩
    · have length : k < s.requests.length := (List.getElem?_eq_some_iff.mp found).1
      rw [requests, List.length_append, List.length_singleton] at length
      exact inv.earlier_block requests (by omega) found _
  · intro loading
    rw [loading] at phase
    cases phase
  · intro answering
    rw [answering] at phase
    cases phase

/-- A request is read. -/
theorem Answering.request (inv : Answering s) {r response : Transaction}
    (answerable : r.command.Handled ∨ Final r.command response)
    (h : s.config.step max (.request r response) = some c) :
    Answering ⟨c, s.requests ++ [r], s.answers⟩ := by
  obtain ⟨idle, phase, sent, installed⟩ := request_answers h
  obtain ⟨request, settled⟩ := request_settled answerable h
  have set : s.config.installed = true := (inv.ready (by simp [idle])).mpr (by simp [idle])
  have none : s.answers s.requests.length = [] := inv.fresh _ (Nat.le_refl _)
  refine ⟨fun _ => ?_, settled, ?_, ?_, ?_, ?_, ?_⟩
  · simp [installed, set, phase]
  · intro k r' found ended
    rcases ended with before | idle' | crashed
    · simp only [List.length_append, List.length_singleton] at before
      have before : k < s.requests.length := by omega
      rw [List.getElem?_append_left before] at found
      exact inv.block k r' found (Or.inr (Or.inl (idle_iff.mp idle)))
    · rw [idle_iff.mpr idle'] at phase
      cases phase
    · simp [Config.phase, show c.pc = .crashed from crashed] at phase
  · intro loading
    rw [loading] at phase
    cases phase
  · intro _
    refine ⟨s.requests, by rw [request], ?_, fun _ => none⟩
    simp [none]
  · intro k hk
    simp only [List.length_append, List.length_singleton] at hk
    exact inv.fresh k (by omega)
  · simp only [sent, inv.sent, List.length_append, List.length_singleton, List.range_succ,
      List.flatMap_append, List.flatMap_singleton, none, List.append_nil]

/-- Each step that meets the condition and is none to `crashed` keeps the answers complete. -/
theorem step_answering {a : Action} (inv : Answering s) (framed : Framed a)
    (step : s.config.step max a = some c) (alive : c.pc ≠ .crashed) (h : s.step max a = some s') :
    Answering s' := by
  obtain ⟨c', step', rfl⟩ := Option.map_eq_some_iff.mp h
  obtain rfl : c = c' := Option.some.inj (step.symm.trans step')
  cases a with
  | request r response => exact inv.request framed step
  | control o =>
      have sends : o.send = true := framed
      have attends := control_attends inv.ready inv.settled step
      have progress : Progress o s.config c := control_progress inv.ready step
      have ready := progress.ready inv.ready
      cases progress with
      | silent silent => exact inv.silent silent attends alive
      | loaded loading sent _ idle =>
          have none := inv.loading loading
          have answers : s.answer c = s.answers := by simp [Dialogue.answer, sent]
          simp only [answers]
          refine ⟨ready, attends.settled, ?_, fun _ => none, ?_, inv.fresh, sent.trans inv.sent⟩
          · intro k r found
            simp [none] at found
          · intro answering
            rw [answering] at idle
            cases idle
      | report reply answering other processing sent _ phase =>
          rw [sends, if_pos rfl] at sent
          exact inv.part attends ready answering other processing sent phase alive
      | respond pc sent _ phase =>
          rw [sends, if_pos rfl] at sent
          exact inv.final attends ready pc sent phase
  | thread tid a => exact inv.silent (thread_silent step) (thread_attends inv.settled step) alive
  | signal fopen => exact inv.silent (signal_silent step) (signal_attends step) alive

omit [ListApi L] in
theorem silence_answering (entries : List Entry) : Answering (silence L entries) := by
  refine ⟨boot_ready entries, trivial, ?_, fun _ => rfl, ?_, fun _ _ => rfl, rfl⟩
  · intro k r found
    cases found
  · intro answering
    cases answering

/-! ### The answers -/

/-- The loop of a handler takes a block, and nothing that follows it. -/
theorem Block.forwarded {r : Transaction} {ts : List Transaction} (block : Block r ts)
    (later : List Transaction) : forwarded (ts ++ later) = (ts, later) := by
  obtain ⟨parts, last, rfl, processing, -, ended, -⟩ := block
  have other : last.status ≠ .processing := by
    rcases ended with ended | ended <;> simp [ended]
  induction parts with
  | nil => simp [Dserve.forwarded, other]
  | cons t parts ih =>
      have more := ih fun x hx => processing x (List.mem_cons_of_mem _ hx)
      simp only [List.cons_append, Dserve.forwarded, if_pos (processing t List.mem_cons_self), more]

end

end Dserve
