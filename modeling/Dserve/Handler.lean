import Dserve.Controller

/-!
`server.c`: the handler process of one connection.

A handler reads a request, sends it to the controller, and relays replies while their
status is `PROCESSING`. It ignores what `send_to_controller` and `read_from_controller`
return. A step is one access to a queue, with what the handler does on its own around
it; the environment decides what the system calls return.

The messages on the output queue are any type with a `content`, so that their origin can
be told: the handler does not look at it. `successes_taken` gives the runs in which each
`SUCCESS` that is delivered was taken from the queue, for a request that was put on the
other. A read that fails leaves a zeroed reply, which is another `SUCCESS`
(`zeroed_success`).
-/

namespace Dserve

/-! ### The handler -/

/-- Where a handler is: before `connection_read`, in the loop that relays replies, or
after the connection has ended. A handler that is `killed` has died in that loop. -/
inductive HandlerPc where
  | reading
  | relaying
  | closed
  | killed
deriving DecidableEq, Repr

/-- One turn of the loop that relays: for which request, and whether that was put on the
input queue; the message that was taken; the reply `connection_send` was given, and
whether the client got it. -/
structure Relayed (μ : Type) where
  number : Nat
  reached : Bool
  taken : Option μ
  reply : Transaction
  delivered : Bool
deriving DecidableEq

/-- The state of a handler. `number` counts the requests; `reached` tells whether the last
one was put on the input queue; `log` are the turns of the loop. -/
structure Handler (μ : Type) where
  pc : HandlerPc
  transaction : Transaction
  reply : Transaction
  number : Nat
  reached : Bool
  log : List (Relayed μ)
deriving DecidableEq

inductive HandlerAction (μ : Type) where
  /-- `connection_read` returns a request, and `msgsnd` comes to the given results -/
  | request (t : Transaction) (calls : List (Except Errno Unit))
  /-- `msgrcv` comes to the given results; `delivered` tells whether the client gets the
  reply -/
  | relay (calls : List (Except Errno μ)) (delivered : Bool)
  /-- `connection_read` returns nothing -/
  | close
  | die
deriving DecidableEq

namespace Handler

variable {μ : Type}

/-- The handler of a new connection. -/
def start : Handler μ where
  pc := .reading
  transaction := .zero
  reply := .zero
  number := 0
  reached := false
  log := []

/-- A turn of the loop: the reply is in the buffer, and its status decides about the next
turn. -/
def turn (h : Handler μ) (e : Relayed μ) : Handler μ :=
  { h with
    reply := e.reply
    log := h.log ++ [e]
    pc := if e.reply.status = .processing then .relaying else .reading }

@[simp] theorem turn_log (h : Handler μ) (e : Relayed μ) : (h.turn e).log = h.log ++ [e] := rfl
@[simp] theorem turn_number (h : Handler μ) (e : Relayed μ) : (h.turn e).number = h.number := rfl
@[simp] theorem turn_reached (h : Handler μ) (e : Relayed μ) : (h.turn e).reached = h.reached := rfl

/-- `process_request` -/
def step (content : μ → Transaction) (h : Handler μ) : HandlerAction μ → Option (Handler μ)
  | .request t calls =>
      if h.pc = .reading then (sendMessageLocal queueRetryCount calls).map fun ret =>
        { h with transaction := t, number := h.number + 1, reached := ret, pc := .relaying }
      else none
  | .relay calls delivered =>
      if h.pc = .relaying then (readMessageLocal queueRetryCount content calls).map fun r =>
        h.turn ⟨h.number, h.reached, r.1, r.2, delivered⟩
      else none
  | .close => if h.pc = .reading then some { h with pc := .closed } else none
  | .die =>
      match h.pc with
      | .reading => some { h with pc := .closed }
      | .relaying => some { h with pc := .killed }
      | _ => none

end Handler

/-- The handler of a connection, for messages with the given content. -/
def handler {μ : Type} (content : μ → Transaction) : Machine (Handler μ) (HandlerAction μ) :=
  ⟨Handler.step content⟩

/-! ### What a handler tells its client -/

section Honesty

variable {μ : Type} {content : μ → Transaction} {h h' : Handler μ} {actions : List (HandlerAction μ)}

/-- A `SUCCESS` that the client got was taken from the output queue, for a request that was
put on the input queue. -/
def Relayed.Honest (content : μ → Transaction) (e : Relayed μ) : Prop :=
  e.delivered = true → e.reply.status = .success →
    e.reached = true ∧ ∃ m, e.taken = some m ∧ e.reply = content m

/-- No fault reaches the client: for each reply it gets, a message arrived; and if the
message is a `SUCCESS`, the request had been put on the input queue. -/
def Faultless (content : μ → Transaction) : Prop → List (HandlerAction μ) → Prop
  | _, [] => True
  | _, .request _ calls :: actions => Faultless content (Arrives calls ()) actions
  | reached, .relay calls delivered :: actions =>
      (delivered = true → ∃ m, Arrives calls m ∧ ((content m).status = .success → reached)) ∧
        Faultless content reached actions
  | reached, .close :: actions => Faultless content reached actions
  | reached, .die :: actions => Faultless content reached actions

/-- What a turn of the loop logs is honest exactly when a message arrived, and it may be a
`SUCCESS`. -/
theorem relay_honest (number : Nat) (reached delivered : Bool) {calls : List (Except Errno μ)}
    {taken : Option μ} {reply : Transaction}
    (received : readMessageLocal queueRetryCount content calls = some (taken, reply)) :
    Relayed.Honest content ⟨number, reached, taken, reply, delivered⟩ ↔
      (delivered = true → ∃ m, Arrives calls m ∧ ((content m).status = .success → reached = true)) := by
  have buffer := readMessageLocal_buffer received
  unfold Relayed.Honest
  apply imp_congr_right
  intro _
  constructor
  · intro honest
    cases taken with
    | none =>
        -- the zeroed reply has the code of `SUCCESS`
        obtain ⟨-, m, none, -⟩ := honest (by rw [buffer]; rfl)
        cases none
    | some m =>
        cases buffer
        exact ⟨m, readMessageLocal_iff.mp received, fun success => (honest success).1⟩
  · rintro ⟨m, arrives, reaches⟩ success
    rw [readMessageLocal_iff.mpr arrives] at received
    cases received
    exact ⟨reaches success, m, rfl, rfl⟩

/-- One step adds at most one turn to the log, and the rest of the run goes on from there. -/
theorem step_honest {a : HandlerAction μ} (step : h.step content a = some h') :
    ((∀ e ∈ h'.log, e.Honest content) ∧ Faultless content (h'.reached = true) actions ↔
      (∀ e ∈ h.log, e.Honest content) ∧ Faultless content (h.reached = true) (a :: actions)) := by
  cases a with
  | request t calls =>
      simp only [Handler.step] at step
      split at step
      · obtain ⟨ret, sent, rfl⟩ := Option.map_eq_some_iff.mp step
        have reached : (ret = true) = Arrives calls () := by
          rw [← sendMessageLocal_iff, sent]
          simp
        simp only [Faultless, reached]
      · cases step
  | relay calls delivered =>
      simp only [Handler.step] at step
      split at step
      · obtain ⟨⟨taken, reply⟩, received, rfl⟩ := Option.map_eq_some_iff.mp step
        have turn := relay_honest h.number h.reached delivered received
        simp only [Faultless, Handler.turn_log, Handler.turn_reached, List.forall_mem_append,
          List.forall_mem_singleton, turn, and_assoc]
      · cases step
  | close =>
      simp only [Handler.step] at step
      split at step
      · cases step
        rfl
      · cases step
  | die =>
      simp only [Handler.step] at step
      split at step <;> cases step <;> rfl

theorem exec_honest (run : (handler content).exec (fun _ _ => True) actions h = some h') :
    (∀ e ∈ h'.log, e.Honest content) ↔
      (∀ e ∈ h.log, e.Honest content) ∧ Faultless content (h.reached = true) actions := by
  induction actions generalizing h with
  | nil =>
      cases run
      simp [Faultless]
  | cons a actions ih =>
      simp only [Machine.exec, if_true] at run
      obtain ⟨t, step, run⟩ := Option.bind_eq_some_iff.mp run
      rw [ih run]
      exact step_honest step

/-- Each `SUCCESS` a client gets was taken from the output queue, for a request that reached
the controller, exactly when no fault of a queue reaches the client. -/
theorem successes_taken
    (run : (handler content).exec (fun _ _ => True) actions Handler.start = some h) :
    (∀ e ∈ h.log, e.Honest content) ↔ Faultless content False actions := by
  have honest := exec_honest run
  simpa [Handler.start] using honest

end Honesty

/-- A `PAUSE` is put on the input queue at the second try, and its reply is relayed; the
client is gone when the reply to the next request cannot be read. -/
theorem successes_taken_run : ∃ (actions : List (HandlerAction Transaction)) (h : Handler Transaction),
    (handler id).exec (fun _ _ => True) actions Handler.start = some h ∧
      h.log.length = 2 ∧ ∀ e ∈ h.log, e.Honest id := by
  have run : (handler id).exec (fun _ _ => True)
      [.request (order .pause ['a']) [.error .eagain, .ok ()],
        .relay [.ok (order .pause ['a'])] true,
        .request (order .pause ['b']) [.ok ()],
        .relay [.error .eagain, .error .other] false] Handler.start = some _ := rfl
  refine ⟨_, _, run, rfl, (successes_taken run).mpr ?_⟩
  refine ⟨?_, ?_, trivial⟩
  · intro _
    refine ⟨_, ⟨0, [], rfl, by decide⟩, ?_⟩
    intro _
    exact ⟨1, [], rfl, by decide⟩
  · rintro ⟨⟩

/-- A reply that cannot be read is relayed as a `SUCCESS`. -/
theorem zeroed_success : ¬ ∀ (actions : List (HandlerAction Transaction)) (h : Handler Transaction),
    (handler id).exec (fun _ _ => True) actions Handler.start = some h →
      ∀ e ∈ h.log, e.Honest id := by
  intro all
  have honest := all [.request (order .pause ['a']) [.ok ()], .relay [.error .other] true] _ rfl _
    List.mem_cons_self rfl rfl
  obtain ⟨-, m, taken, -⟩ := honest
  cases taken

end Dserve
