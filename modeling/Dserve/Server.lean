import Dserve.Handler
import Dserve.Lib.Blocks
import Dserve.Replies

/-!
The server: any number of handlers and the controller, with the two queues between them.

All messages have type 1, so a handler takes whatever reply is first on the output
queue. Each message carries the request it belongs to as a ghost: the handlers do not look
at it. `replies_routed` gives the runs in which each client gets the replies to its own
requests, in whole blocks; `replies_swapped` is a run of two clients in which one gets the
reply of the other.
-/

namespace Dserve

/-- The request a client sent as the given one on its connection, from 1 on. -/
structure Ticket where
  client : Nat
  number : Nat
deriving DecidableEq, Repr

/-- A message on the output queue, and the request it was sent for; `last` marks the one
`start_controller` sends. -/
structure Posted where
  ticket : Ticket
  reply : Transaction
  last : Bool
deriving DecidableEq

/-- The processes and the queues. `posted` is what was put on the output queue so far.
`unanswered` are the requests that were put on the input queue and whose last reply was not
taken yet, in the order in which they were sent. -/
structure Server where
  handler : Nat → Handler Posted
  input : List (Ticket × Transaction)
  output : List Posted
  config : Config HeapList
  current : Ticket
  posted : List Posted
  unanswered : List Ticket

inductive ServerAction where
  | handler (client : Nat) (a : HandlerAction Posted)
  /-- `read_from_server` takes a request -/
  | serve (response : Transaction)
  | controller (a : Action)
deriving DecidableEq

namespace Server

/-- The message a handler takes is the first of the output queue. -/
def take (s : Server) : Option Posted → Option Server
  | none => some s
  | some m =>
      match s.output with
      | [] => none
      | first :: rest =>
          if first = m then some { s with
            output := rest
            unanswered := if m.last then s.unanswered.erase m.ticket else s.unanswered }
          else none

/-- One step of a handler, with its effect on the queues. -/
def stepHandler (s : Server) (client : Nat) (a : HandlerAction Posted) : Option Server :=
  ((s.handler client).step Posted.reply a).bind fun h =>
    let s := { s with handler := Function.update s.handler client h }
    match a with
    | .request t _ =>
        if h.reached then some { s with
          input := s.input ++ [(⟨client, h.number⟩, t)]
          unanswered := s.unanswered ++ [⟨client, h.number⟩] }
        else some s
    | .relay calls _ => (readMessageLocal queueRetryCount Posted.reply calls).bind fun r => s.take r.1
    | _ => some s

/-- The messages the controller put on the output queue in a step. -/
def news (s : Server) (c : Config HeapList) : List Posted :=
  (c.sent.drop s.config.sent.length).map fun reply =>
    ⟨s.current, reply, decide (s.config.pc = .respond)⟩

def step (max : Nat) (s : Server) : ServerAction → Option Server
  | .handler client a => s.stepHandler client a
  | .serve response =>
      match s.input with
      | [] => none
      | (ticket, r) :: rest => (s.config.step max (.request r response)).map fun c =>
          { s with input := rest, config := c, current := ticket }
  | .controller (.request _ _) => none
  | .controller a => (s.config.step max a).map fun c =>
      { s with config := c, output := s.output ++ s.news c, posted := s.posted ++ s.news c }

/-- The controller starts with the entries of the index file, and no client has sent
anything. -/
def start (entries : List Entry) : Server where
  handler := fun _ => Handler.start
  input := []
  output := []
  config := boot HeapList entries
  current := ⟨0, 0⟩
  posted := []
  unanswered := []

/-- What the controller put on the output queue for a request. -/
def produced (s : Server) (t : Ticket) : List Transaction :=
  (s.posted.filter fun m => decide (m.ticket = t)).map Posted.reply

end Server

/-- The daemon, for any number of connections. -/
def server (max : Nat) : Machine Server ServerAction := ⟨Server.step max⟩

namespace Handler

variable {μ : Type}

/-- The turns of the loop for one request. -/
def exchange (h : Handler μ) (number : Nat) : List (Relayed μ) :=
  h.log.filter fun e => decide (e.number = number)

/-- The replies the client got to one request. -/
def received (h : Handler μ) (number : Nat) : List Transaction :=
  ((h.exchange number).filter Relayed.delivered).map Relayed.reply

/-- The handler has left the loop for this request. -/
def Over (h : Handler μ) (number : Nat) : Prop :=
  number < h.number ∨ number = h.number ∧ (h.pc = .reading ∨ h.pc = .closed)

end Handler

/-! ### What a client may expect -/

/-- Every reply a client gets was sent for the request it is relayed for; the replies to a
request come in the order in which they were sent, none of them twice; as long as the client
gets them all they have no gap, and when the exchange is over they are the whole block. -/
structure Routed (s : Server) : Prop where
  own : ∀ client, ∀ e ∈ (s.handler client).log, e.delivered = true →
    e.reply ∈ s.produced ⟨client, e.number⟩
  ordered : ∀ client number,
    ((s.handler client).received number).Sublist (s.produced ⟨client, number⟩)
  begun : ∀ client number, (∀ e ∈ (s.handler client).exchange number, e.delivered = true) →
    (s.handler client).received number <+: s.produced ⟨client, number⟩
  whole : ∀ client number, 0 < number → (s.handler client).Over number →
    (∀ e ∈ (s.handler client).exchange number, e.delivered = true) →
    (s.handler client).received number = s.produced ⟨client, number⟩

/-- A handler takes a reply only when its request is the first of the unanswered ones; a
reply that cannot be read is not relayed to a client; and the controller can send the last
reply to a request. -/
def InTurn (s : Server) : ServerAction → Prop
  | .handler client (.relay calls delivered) =>
      match readMessageLocal queueRetryCount Posted.reply calls with
      | some (some _, _) => s.unanswered.head? = some ⟨client, (s.handler client).number⟩
      | _ => delivered = false
  | .controller (.control o) => s.config.pc = .respond → o.send = true
  | _ => True

instance (s : Server) (a : ServerAction) : Decidable (InTurn s a) := by
  unfold InTurn
  induction a using ServerAction.casesOn with
  | handler client a =>
      induction a using HandlerAction.casesOn with
      | relay calls delivered =>
          dsimp only
          generalize readMessageLocal queueRetryCount Posted.reply calls = received
          induction received using Option.casesOn with
          | none => infer_instance
          | some received =>
              induction received using Prod.casesOn with
              | mk taken reply => induction taken using Option.casesOn <;> infer_instance
      | _ => infer_instance
  | serve response => infer_instance
  | controller a => induction a using Action.casesOn <;> infer_instance

/-! ### The handlers -/

namespace Handler

variable {μ : Type} {content : μ → Transaction} {h h' : Handler μ}

/-- The messages that were taken for one request. -/
def taken (h : Handler μ) (number : Nat) : List μ := (h.exchange number).filterMap Relayed.taken

/-- What a step of a handler does: it logs a turn of its loop, or it leaves the log as it
was and no other request becomes over. -/
inductive Moves (content : μ → Transaction) (h : Handler μ) : HandlerAction μ → Handler μ → Prop where
  | request {t : Transaction} {calls : List (Except Errno Unit)} {reached : Bool} :
      h.pc = .reading → Moves content h (.request t calls)
        { h with transaction := t, number := h.number + 1, reached := reached, pc := .relaying }
  | relay {calls : List (Except Errno μ)} {delivered : Bool} {taken : Option μ} {reply : Transaction} :
      h.pc = .relaying → readMessageLocal queueRetryCount content calls = some (taken, reply) →
      Moves content h (.relay calls delivered) (h.turn ⟨h.number, h.reached, taken, reply, delivered⟩)
  | close : h.pc = .reading → Moves content h .close { h with pc := .closed }
  | die {pc : HandlerPc} : (pc = .closed → h.pc = .reading) → pc = .closed ∨ pc = .killed →
      Moves content h .die { h with pc := pc }

theorem step_moves {a : HandlerAction μ} (step : h.step content a = some h') :
    Moves content h a h' := by
  cases a with
  | request t calls =>
      simp only [Handler.step] at step
      split at step
      · next reading =>
        obtain ⟨ret, -, rfl⟩ := Option.map_eq_some_iff.mp step
        exact .request reading
      · cases step
  | relay calls delivered =>
      simp only [Handler.step] at step
      split at step
      · next relaying =>
        obtain ⟨⟨taken, reply⟩, received, rfl⟩ := Option.map_eq_some_iff.mp step
        exact .relay relaying received
      · cases step
  | close =>
      simp only [Handler.step] at step
      split at step
      · next reading =>
        cases step
        exact .close reading
      · cases step
  | die =>
      simp only [Handler.step] at step
      split at step
      · next reading =>
        cases step
        exact .die (fun _ => reading) (Or.inl rfl)
      · cases step
        exact .die (by simp) (Or.inr rfl)
      · cases step

/-- A turn of the loop belongs to the request that was read last. -/
theorem exchange_turn (e : Relayed μ) (number : Nat) : (h.turn e).exchange number =
    h.exchange number ++ if e.number = number then [e] else [] := by
  unfold exchange
  rw [turn_log, List.filter_append]
  by_cases own : e.number = number <;> simp [own]

theorem taken_turn (e : Relayed μ) (number : Nat) : (h.turn e).taken number =
    h.taken number ++ if e.number = number then e.taken.toList else [] := by
  unfold taken
  rw [exchange_turn, List.filterMap_append]
  split
  · cases found : e.taken <;> simp [found]
  · rfl

/-- A request before the last one is over, whatever the handler does about the last. -/
theorem Over.before {e : Relayed μ} {number : Nat} (ended : (h.turn e).Over number)
    (other : number ≠ h.number) : h.Over number := by
  rcases ended with less | ⟨same, -⟩
  · exact Or.inl less
  · exact absurd same other

/-- A step that logs nothing: no other request is over after it. -/
structure Quiet (h h' : Handler μ) : Prop where
  log : h'.log = h.log
  number : h.number ≤ h'.number
  ended : ∀ number, h'.Over number → h.Over number

theorem Quiet.exchange (quiet : Quiet h h') (number : Nat) : h'.exchange number = h.exchange number := by
  unfold Handler.exchange
  rw [quiet.log]

theorem request_quiet (t : Transaction) (reached : Bool) (reading : h.pc = .reading) :
    Quiet h { h with transaction := t, number := h.number + 1, reached := reached, pc := .relaying } := by
  refine ⟨rfl, Nat.le_succ _, ?_⟩
  rintro number (less | ⟨-, ended | ended⟩)
  · rcases Nat.lt_succ_iff_lt_or_eq.mp less with less | same
    · exact Or.inl less
    · exact Or.inr ⟨same, Or.inl reading⟩
  · cases ended
  · cases ended

theorem stop_quiet {pc : HandlerPc} (closed : pc = .closed → h.pc = .reading)
    (stopped : pc = .closed ∨ pc = .killed) : Quiet h { h with pc := pc } := by
  refine ⟨rfl, Nat.le_refl _, ?_⟩
  rintro number (less | ⟨same, reading | ended⟩)
  · exact Or.inl less
  · subst reading
    rcases stopped with stopped | stopped <;> cases stopped
  · exact Or.inr ⟨same, Or.inl (closed ended)⟩

end Handler

/-! ### The invariant -/

/-- The tickets of the requests on the input queue. -/
def Server.waiting (s : Server) : List Ticket := s.input.map Prod.fst

/-- When the replies on the output queue are taken, the unanswered requests that are left
are the one the controller is working on, if there is one, and those on the input queue. -/
def Drained (output : List Posted) (unanswered : List Ticket) (phase : Phase) (current : Ticket)
    (waiting : List Ticket) : Prop :=
  ∃ working, Blocks.drain Posted.ticket Posted.last output unanswered = some (working ++ waiting) ∧
    (phase = .answering → working = [current]) ∧ (phase = .loading ∨ phase = .idle → working = [])

structure Consistent (s : Server) : Prop where
  ready : s.config.Ready
  drained : Drained s.output s.unanswered s.config.phase s.current s.waiting
  known : ∀ t ∈ s.unanswered, t.number ≤ (s.handler t.client).number
  nodup : s.unanswered.Nodup
  /-- what was put on the output queue was taken for the same request, or is still there -/
  accounted : ∀ t, s.posted.filter (fun m => decide (m.ticket = t)) =
    (s.handler t.client).taken t.number ++ s.output.filter fun m => decide (m.ticket = t)
  marked : ∀ m ∈ s.posted, m.last = false → m.reply.status = .processing
  read : ∀ client, ∀ e ∈ (s.handler client).log, e.delivered = true →
    ∃ m, e.taken = some m ∧ e.reply = m.reply
  answered : ∀ client number, 0 < number → (s.handler client).Over number →
    (∀ e ∈ (s.handler client).exchange number, e.delivered = true) →
    (⟨client, number⟩ : Ticket) ∉ s.unanswered

section

variable {s : Server} {client : Nat} {h : Handler Posted}

/-- No handler falls behind when one of them has not. -/
theorem number_update (later : (s.handler client).number ≤ h.number) (c : Nat) :
    (s.handler c).number ≤ (Function.update s.handler client h c).number := by
  by_cases own : c = client
  · subst own
    simp only [Function.update_self]
    exact later
  · simp only [Function.update_of_ne own]
    exact Nat.le_refl _

/-- A turn adds one entry to one log. -/
theorem Consistent.read_turn (inv : Consistent s) {e : Relayed Posted}
    (new : e.delivered = true → ∃ m, e.taken = some m ∧ e.reply = m.reply) (c : Nat) :
    ∀ e' ∈ (Function.update s.handler client ((s.handler client).turn e) c).log,
      e'.delivered = true → ∃ m, e'.taken = some m ∧ e'.reply = m.reply := by
  intro e' he' delivered
  by_cases own : c = client
  · subst own
    simp only [Function.update_self, Handler.turn_log] at he'
    rcases List.mem_append.mp he' with he' | he'
    · exact inv.read c e' he' delivered
    · cases List.mem_singleton.mp he'
      exact new delivered
  · simp only [Function.update_of_ne own] at he'
    exact inv.read c e' he' delivered

/-- A handler that logs nothing leaves the queues to the others. -/
theorem Consistent.quiet (inv : Consistent s) (quiet : (s.handler client).Quiet h) :
    Consistent { s with handler := Function.update s.handler client h } := by
  have taken : ∀ c k, (Function.update s.handler client h c).taken k = (s.handler c).taken k := by
    intro c k
    by_cases own : c = client
    · subst own
      rw [Function.update_self, Handler.taken, quiet.exchange]
      rfl
    · rw [Function.update_of_ne own]
  refine ⟨inv.ready, inv.drained, ?_, inv.nodup, ?_, inv.marked, ?_, ?_⟩
  · exact fun t ht => (inv.known t ht).trans (number_update quiet.number t.client)
  · intro t
    rw [inv.accounted t]
    simp only [taken]
  · intro c
    by_cases own : c = client
    · subst own
      simp only [Function.update_self, quiet.log]
      exact inv.read c
    · simp only [Function.update_of_ne own]
      exact inv.read c
  · intro c k
    by_cases own : c = client
    · subst own
      simp only [Function.update_self, quiet.exchange]
      intro positive ended
      exact inv.answered c k positive (quiet.ended k ended)
    · simp only [Function.update_of_ne own]
      exact inv.answered c k

/-- A request that is put on the input queue is the last of the unanswered ones. -/
theorem Consistent.push (inv : Consistent s) (client : Nat) (t : Transaction)
    (relaying : (s.handler client).pc = .relaying)
    (fresh : (⟨client, (s.handler client).number⟩ : Ticket) ∉ s.unanswered) :
    Consistent { s with
      input := s.input ++ [(⟨client, (s.handler client).number⟩, t)]
      unanswered := s.unanswered ++ [⟨client, (s.handler client).number⟩] } := by
  obtain ⟨working, drains, answering, idle⟩ := inv.drained
  refine ⟨inv.ready, ⟨working, ?_, answering, idle⟩, ?_, ?_, inv.accounted, inv.marked, inv.read, ?_⟩
  · have joined := Blocks.drain_join drains [⟨client, (s.handler client).number⟩]
    simpa [Server.waiting] using joined
  · intro t ht
    rcases List.mem_append.mp ht with ht | ht
    · exact inv.known t ht
    · rw [List.mem_singleton.mp ht]
  · rw [List.nodup_append]
    refine ⟨inv.nodup, List.nodup_singleton _, ?_⟩
    intro a ha b hb same
    rw [List.mem_singleton.mp hb] at same
    exact fresh (same ▸ ha)
  · intro c k positive ended all member
    rcases List.mem_append.mp member with member | member
    · exact inv.answered c k positive ended all member
    · cases List.mem_singleton.mp member
      rcases ended with less | ⟨-, reading | closed⟩
      · exact Nat.lt_irrefl _ less
      · rw [relaying] at reading
        cases reading
      · rw [relaying] at closed
        cases closed

/-- A reply that could not be read, and that the client did not get. -/
theorem Consistent.unread (inv : Consistent s) {e : Relayed Posted}
    (number : e.number = (s.handler client).number) (taken : e.taken = none)
    (undelivered : e.delivered = false) :
    Consistent { s with handler := Function.update s.handler client ((s.handler client).turn e) } := by
  have later : (s.handler client).number ≤ ((s.handler client).turn e).number := Nat.le_refl _
  refine ⟨inv.ready, inv.drained, ?_, inv.nodup, ?_, inv.marked, ?_, ?_⟩
  · exact fun t ht => (inv.known t ht).trans (number_update later t.client)
  · intro t
    rw [inv.accounted t]
    by_cases own : t.client = client
    · subst own
      simp only [Function.update_self]
      rw [Handler.taken_turn, taken]
      simp
    · simp only [Function.update_of_ne own]
  · exact fun c => inv.read_turn (fun delivered => by simp [undelivered] at delivered) c
  · intro c k positive ended all
    by_cases own : c = client
    · subst own
      simp only [Function.update_self] at ended all
      rw [Handler.exchange_turn] at all
      by_cases last : e.number = k
      · have got := all e (by simp [last])
        rw [undelivered] at got
        cases got
      · rw [if_neg last, List.append_nil] at all
        exact inv.answered c k positive (ended.before fun same => last (number.trans same.symm)) all
    · simp only [Function.update_of_ne own] at ended all
      exact inv.answered c k positive ended all

/-- A reply that was taken in turn. -/
theorem Consistent.taken (inv : Consistent s) {e : Relayed Posted} {m : Posted} {rest : List Posted}
    (number : e.number = (s.handler client).number) (taken : e.taken = some m)
    (reply : e.reply = m.reply) (output : s.output = m :: rest)
    (turn : s.unanswered.head? = some ⟨client, (s.handler client).number⟩) :
    Consistent { s with
      handler := Function.update s.handler client ((s.handler client).turn e)
      output := rest
      unanswered := if m.last then s.unanswered.erase m.ticket else s.unanswered } := by
  obtain ⟨working, drains, answering, idle⟩ := inv.drained
  rw [output] at drains
  obtain ⟨ts, first, drains⟩ := Blocks.drain_cons drains
  rw [first, List.head?_cons, Option.some.injEq] at turn
  have erased : (if m.last then s.unanswered.erase m.ticket else s.unanswered) =
      if m.last then ts else s.unanswered := by
    rw [first, List.erase_cons_head]
  have distinct := inv.nodup
  rw [first] at distinct
  obtain ⟨once, distinct⟩ := List.nodup_cons.mp distinct
  have sub : ∀ t ∈ (if m.last then ts else s.unanswered), t ∈ s.unanswered := by
    intro t ht
    split at ht
    · rw [first]
      exact List.mem_cons_of_mem _ ht
    · exact ht
  have posted : m ∈ s.posted := by
    have here : m ∈ s.posted.filter fun m' => decide (m'.ticket = m.ticket) := by
      rw [inv.accounted m.ticket, output]
      simp
    exact (List.mem_filter.mp here).1
  have later : (s.handler client).number ≤ ((s.handler client).turn e).number := Nat.le_refl _
  rw [erased]
  refine ⟨inv.ready, ⟨working, drains, answering, idle⟩, ?_, ?_, ?_, inv.marked, ?_, ?_⟩
  · exact fun t ht => (inv.known t (sub t ht)).trans (number_update later t.client)
  · show (if m.last then ts else s.unanswered).Nodup
    split
    · exact distinct
    · exact inv.nodup
  · intro t
    rw [inv.accounted t, output]
    by_cases own : t.client = client
    · subst own
      simp only [Function.update_self]
      rw [Handler.taken_turn, taken, number]
      by_cases same : (s.handler t.client).number = t.number
      · have ticket : m.ticket = t := by rw [turn, same]
        simp [same, ticket]
      · have other : m.ticket ≠ t := by
          intro ticket
          rw [turn] at ticket
          exact same (congrArg Ticket.number ticket)
        simp [same, other]
    · have other : m.ticket ≠ t := by
        intro ticket
        rw [turn] at ticket
        exact own (congrArg Ticket.client ticket).symm
      simp [Function.update_of_ne own, other]
  · exact fun c => inv.read_turn (fun _ => ⟨m, taken, reply⟩) c
  · intro c k positive ended all member
    by_cases own : c = client
    · subst own
      simp only [Function.update_self] at ended all
      rw [Handler.exchange_turn] at all
      by_cases last : e.number = k
      · -- the loop is left with a reply that is not `PROCESSING`, the last of its block
        have ended : m.last = true := by
          by_contra part
          have processing := inv.marked m posted (by simpa using part)
          rcases ended with less | ⟨-, reading⟩
          · rw [← last, number] at less
            exact Nat.lt_irrefl _ less
          · simp [Handler.turn, reply, processing] at reading
        rw [if_pos ended] at member
        rw [← last, number, ← turn] at member
        exact once member
      · rw [if_neg last, List.append_nil] at all
        exact inv.answered c k positive (ended.before fun same => last (number.trans same.symm)) all
          (sub _ member)
    · simp only [Function.update_of_ne own] at ended all
      exact inv.answered c k positive ended all (sub _ member)

/-- The steps of a handler. -/
theorem stepHandler_consistent {a : HandlerAction Posted} {s' : Server} (inv : Consistent s)
    (turn : InTurn s (.handler client a)) (step : s.stepHandler client a = some s') : Consistent s' := by
  obtain ⟨h, moved, step⟩ := Option.bind_eq_some_iff.mp step
  cases Handler.step_moves moved with
  | @request t calls reached reading =>
      have quiet := inv.quiet (Handler.request_quiet t reached reading)
      simp only at step
      split at step
      · cases step
        have fresh : (⟨client, (s.handler client).number + 1⟩ : Ticket) ∉ s.unanswered := by
          intro member
          exact Nat.lt_irrefl _ (inv.known _ member)
        have pushed := quiet.push client t
        simp only [Function.update_self] at pushed
        exact pushed trivial fresh
      · cases step
        exact quiet
  | @relay calls delivered taken reply relaying received =>
      simp only [received, Option.bind_some] at step
      cases taken with
      | none =>
          have undelivered : delivered = false := by simpa [InTurn, received] using turn
          cases step
          exact inv.unread rfl rfl undelivered
      | some m =>
          have first : s.unanswered.head? = some ⟨client, (s.handler client).number⟩ := by
            simpa [InTurn, received] using turn
          simp only [Server.take] at step
          split at step
          · cases step
          · next x rest output =>
            split at step
            · next same =>
              subst same
              cases step
              exact inv.taken rfl rfl (readMessageLocal_buffer received) output first
            · cases step
  | close reading =>
      cases step
      exact inv.quiet (Handler.stop_quiet (fun _ => reading) (Or.inl rfl))
  | die closed stopped =>
      cases step
      exact inv.quiet (Handler.stop_quiet closed stopped)

/-- A step of the controller that sends nothing. -/
theorem Consistent.unsent (inv : Consistent s) {c : Config HeapList} (sent : c.sent = s.config.sent)
    (ready : c.Ready) (phase : c.phase = s.config.phase ∨ c.phase = .ending ∨
      c.phase = .idle ∧ s.config.phase = .loading) :
    Consistent { s with config := c, output := s.output ++ s.news c, posted := s.posted ++ s.news c } := by
  obtain ⟨working, drains, answering, idle⟩ := inv.drained
  have none : s.news c = [] := by simp [Server.news, sent]
  rw [none, List.append_nil, List.append_nil]
  refine ⟨ready, ⟨working, drains, ?_⟩, inv.known, inv.nodup, inv.accounted, inv.marked, inv.read,
    inv.answered⟩
  show (c.phase = .answering → _) ∧ (c.phase = .loading ∨ c.phase = .idle → _)
  rcases phase with same | ended | ⟨ready, loading⟩
  · rw [same]
    exact ⟨answering, idle⟩
  · simp [ended]
  · rw [ready]
    exact ⟨by simp, fun _ => idle (Or.inl loading)⟩

/-- A reply the controller sends goes to the end of the output queue. -/
theorem Consistent.send (inv : Consistent s) {c : Config HeapList} {reply : Transaction}
    (sent : c.sent = s.config.sent ++ [reply]) (ready : c.Ready)
    (part : s.config.pc ≠ .respond → reply.status = .processing) (working : s.config.phase = .answering)
    (phase : c.phase = if s.config.pc = .respond then .idle else .answering) :
    Consistent { s with config := c, output := s.output ++ s.news c, posted := s.posted ++ s.news c } := by
  obtain ⟨owner, drains, answering, -⟩ := inv.drained
  have one : s.news c = [⟨s.current, reply, decide (s.config.pc = .respond)⟩] := by
    simp [Server.news, sent]
  rw [one]
  generalize new : (⟨s.current, reply, decide (s.config.pc = .respond)⟩ : Posted) = m
  have own : m.ticket = s.current := by rw [← new]
  have last : m.last = decide (s.config.pc = .respond) := by rw [← new]
  rw [answering working, List.singleton_append, ← own] at drains
  have pushed := Blocks.drain_push drains
  refine ⟨ready, ?_, inv.known, inv.nodup, ?_, ?_, inv.read, inv.answered⟩
  · show Drained (s.output ++ [m]) s.unanswered c.phase s.current s.waiting
    rw [phase]
    by_cases responds : s.config.pc = .respond
    · refine ⟨[], ?_, ?_⟩
      · rw [pushed, last]
        simp [responds]
      · simp [responds]
    · refine ⟨[s.current], ?_, ?_⟩
      · rw [pushed, last, own]
        simp [responds]
      · simp [responds]
  · intro t
    simp only [List.filter_append, inv.accounted t, List.append_assoc]
  · intro m' hm' partial'
    rcases List.mem_append.mp hm' with hm' | hm'
    · exact inv.marked m' hm' partial'
    · rw [List.mem_singleton.mp hm'] at partial' ⊢
      rw [last] at partial'
      rw [← new]
      exact part (by simpa using partial')

/-- The controller reads the next request. -/
theorem Consistent.serve (inv : Consistent s) {c : Config HeapList} {t : Ticket} {r : Transaction}
    {rest : List (Ticket × Transaction)} (input : s.input = (t, r) :: rest)
    (idle : s.config.phase = .idle) (answering : c.phase = .answering)
    (installed : c.installed = s.config.installed) :
    Consistent { s with input := rest, config := c, current := t } := by
  obtain ⟨working, drains, -, none⟩ := inv.drained
  have set : s.config.installed = true := (inv.ready (by simp [idle])).mpr (by simp [idle])
  refine ⟨?_, ⟨[t], ?_, ?_⟩, inv.known, inv.nodup, inv.accounted, inv.marked, inv.read, inv.answered⟩
  · intro _
    simp [installed, set, answering]
  · rw [none (Or.inr idle), Server.waiting, input] at drains
    exact drains
  · show (c.phase = .answering → _) ∧ (c.phase = .loading ∨ c.phase = .idle → _)
    simp [answering]

theorem step_consistent {max : Nat} {a : ServerAction} {s' : Server} (inv : Consistent s)
    (turn : InTurn s a) (step : s.step max a = some s') : Consistent s' := by
  cases a with
  | handler client a => exact stepHandler_consistent inv turn step
  | serve response =>
      simp only [Server.step] at step
      split at step
      · cases step
      · next ticket r rest input =>
        obtain ⟨c, served, rfl⟩ := Option.map_eq_some_iff.mp step
        obtain ⟨idle, answering, -, installed⟩ := request_answers served
        exact inv.serve input idle answering installed
  | controller a =>
      have silent : ∀ c, Silent s.config c → Consistent
          { s with config := c, output := s.output ++ s.news c, posted := s.posted ++ s.news c } :=
        fun c quiet => inv.unsent quiet.sent (quiet.ready inv.ready) (by
          rcases quiet.phase with same | ended
          · exact Or.inl same
          · exact Or.inr (Or.inl ended))
      cases a with
      | request r response => cases step
      | thread tid a =>
          obtain ⟨c, moved, rfl⟩ := Option.map_eq_some_iff.mp step
          exact silent c (thread_silent moved)
      | signal fopen =>
          obtain ⟨c, moved, rfl⟩ := Option.map_eq_some_iff.mp step
          exact silent c (signal_silent moved)
      | control o =>
          obtain ⟨c, moved, rfl⟩ := Option.map_eq_some_iff.mp step
          have sends : s.config.pc = .respond → o.send = true := turn
          have progress := control_progress inv.ready moved
          have ready := progress.ready inv.ready
          cases progress with
          | silent quiet => exact silent c quiet
          | loaded loading sent _ idle => exact inv.unsent sent ready (Or.inr (Or.inr ⟨idle, loading⟩))
          | report reply answering pc processing sent _ phase =>
              split at sent
              · exact inv.send sent ready (fun _ => processing) answering (by rw [if_neg pc, phase])
              · exact inv.unsent sent ready (Or.inl (by rw [phase, answering]))
          | respond pc sent _ idle =>
              rw [if_pos (sends pc)] at sent
              exact inv.send sent ready (fun other => absurd pc other) (by simp [Config.phase, pc])
                (by rw [if_pos pc, idle])

theorem start_consistent (entries : List Entry) : Consistent (Server.start entries) := by
  have empty : ∀ client number, ((Server.start entries).handler client).exchange number = [] :=
    fun _ _ => rfl
  refine ⟨boot_ready entries, ⟨[], rfl, ?_, fun _ => rfl⟩, ?_, List.nodup_nil, ?_, ?_, ?_, ?_⟩
  · intro answering
    cases answering
  · intro t ht
    cases ht
  · intro t
    rfl
  · intro m hm
    cases hm
  · intro client e he
    cases he
  · intro client number _ _ _ member
    cases member

/-! ### The replies a client gets -/

/-- What is delivered was taken, and comes in the same order. -/
theorem delivered_sublist {turns : List (Relayed Posted)}
    (read : ∀ e ∈ turns, e.delivered = true → ∃ m, e.taken = some m ∧ e.reply = m.reply) :
    ((turns.filter Relayed.delivered).map Relayed.reply).Sublist
      ((turns.filterMap Relayed.taken).map Posted.reply) := by
  induction turns with
  | nil => exact List.Sublist.slnil
  | cons e turns ih =>
      have rest := ih fun e' he' => read e' (List.mem_cons_of_mem _ he')
      cases delivered : e.delivered with
      | true =>
          obtain ⟨m, taken, reply⟩ := read e List.mem_cons_self delivered
          rw [List.filter_cons_of_pos delivered, List.filterMap_cons_some taken, List.map_cons,
            List.map_cons, reply]
          exact rest.cons_cons _
      | false =>
          rw [List.filter_cons_of_neg (by simp [delivered])]
          cases taken : e.taken with
          | none =>
              rw [List.filterMap_cons_none taken]
              exact rest
          | some m =>
              rw [List.filterMap_cons_some taken]
              exact rest.cons _

/-- What was taken is delivered, if everything is. -/
theorem delivered_all {turns : List (Relayed Posted)}
    (read : ∀ e ∈ turns, e.delivered = true → ∃ m, e.taken = some m ∧ e.reply = m.reply)
    (all : ∀ e ∈ turns, e.delivered = true) :
    (turns.filter Relayed.delivered).map Relayed.reply =
      (turns.filterMap Relayed.taken).map Posted.reply := by
  apply (delivered_sublist read).eq_of_length_le
  rw [List.filter_eq_self.mpr all, List.length_map, List.length_map]
  exact List.length_filterMap_le _ _

/-- What a consistent server has relayed so far. -/
theorem Consistent.routed (inv : Consistent s) : Routed s := by
  have got : ∀ c k, ∀ e ∈ (s.handler c).exchange k, e.delivered = true →
      ∃ m, e.taken = some m ∧ e.reply = m.reply := by
    intro c k e he
    exact inv.read c e (List.mem_filter.mp he).1
  have messages : ∀ c k, ((s.handler c).taken k).map Posted.reply <+: s.produced ⟨c, k⟩ := by
    intro c k
    unfold Server.produced
    rw [inv.accounted ⟨c, k⟩, List.map_append]
    exact List.prefix_append _ _
  have ordered : ∀ c k, ((s.handler c).received k).Sublist (((s.handler c).taken k).map Posted.reply) :=
    fun c k => delivered_sublist (got c k)
  have all : ∀ c k, (∀ e ∈ (s.handler c).exchange k, e.delivered = true) →
      (s.handler c).received k = ((s.handler c).taken k).map Posted.reply :=
    fun c k delivered => delivered_all (got c k) delivered
  refine ⟨?_, ?_, ?_, ?_⟩
  · intro c e he delivered
    have received : e.reply ∈ (s.handler c).received e.number := by
      unfold Handler.received Handler.exchange
      refine List.mem_map.mpr ⟨e, ?_, rfl⟩
      simp [he, delivered]
    exact (messages c e.number).subset ((ordered c e.number).subset received)
  · intro c k
    exact (ordered c k).trans (messages c k).sublist
  · intro c k delivered
    rw [all c k delivered]
    exact messages c k
  · intro c k positive ended delivered
    obtain ⟨working, drains, -⟩ := inv.drained
    have absent := inv.answered c k positive ended delivered
    have gone : s.output.filter (fun m => decide (m.ticket = ⟨c, k⟩)) = [] := by
      apply List.filter_eq_nil_iff.mpr
      intro m hm own
      exact absent (of_decide_eq_true own ▸ Blocks.drain_owner drains m hm)
    rw [all c k delivered, Server.produced, inv.accounted ⟨c, k⟩, gone, List.append_nil]

end

/-- In every run in which the handlers take their replies in turn, the replies are routed. -/
theorem replies_routed {max : Nat} {entries : List Entry} {s : Server}
    (run : (server max).Run InTurn (Server.start entries) s) : Routed s := by
  have inv : Consistent s := run.invariant (start_consistent entries)
    fun _ _ _ inv turn step => step_consistent inv turn step
  exact inv.routed

/-! ### Two clients -/

/-- A handler relays the given reply, and the client gets it. -/
def relays (client : Nat) (m : Posted) : ServerAction := .handler client (.relay [.ok m] true)

/-- The controller serves a request in the given number of steps. -/
def serves (steps : Nat) : List ServerAction :=
  .serve .zero :: List.replicate steps (.controller (.control {}))

/-- The reply to a `PAUSE` of a file that is not in the queue. -/
def refusal (t : Ticket) (name : CString) : Posted := ⟨t, notFoundReply (order .pause name), true⟩

/-- Two clients send a request, and take their replies in the same order. -/
theorem replies_routed_run : ∃ s : Server,
    (server 1).Run InTurn (Server.start []) s ∧
      ((s.handler 1).received 1 = [notFoundReply (order .pause ['a'])] ∧
        (s.handler 2).received 1 = [notFoundReply (order .pause ['b'])]) ∧ Routed s := by
  obtain ⟨s, run, got⟩ := Machine.exists_run_of_exec (server 1) InTurn (Server.start [])
    (List.replicate 3 (.controller (.control {})) ++
      [.handler 1 (.request (order .pause ['a']) [.ok ()]),
        .handler 2 (.request (order .pause ['b']) [.ok ()])] ++ serves 2 ++ serves 2 ++
      [relays 1 (refusal ⟨1, 1⟩ ['a']), relays 2 (refusal ⟨2, 1⟩ ['b'])])
    (fun s => (s.handler 1).received 1 = [notFoundReply (order .pause ['a'])] ∧
      (s.handler 2).received 1 = [notFoundReply (order .pause ['b'])]) (by decide)
  exact ⟨s, run, got, replies_routed run⟩

/-- The second client takes the reply of the first. -/
theorem replies_swapped : ¬ ∀ (max : Nat) (entries : List Entry) (s : Server),
    (server max).Reachable (Server.start entries) s → Routed s := by
  intro all
  obtain ⟨s, run, logged, other⟩ := Machine.exists_run_of_exec (server 1) (fun _ _ => True)
    (Server.start [])
    (List.replicate 3 (.controller (.control {})) ++
      [.handler 1 (.request (order .pause ['a']) [.ok ()]),
        .handler 2 (.request (order .pause ['b']) [.ok ()])] ++ serves 2 ++ serves 2 ++
      [relays 2 (refusal ⟨1, 1⟩ ['a'])])
    (fun s => (s.handler 2).received 1 = [notFoundReply (order .pause ['a'])] ∧
      s.produced ⟨2, 1⟩ = [notFoundReply (order .pause ['b'])]) (by decide)
  have ordered := (all 1 [] s run).ordered 2 1
  rw [logged, other] at ordered
  exact absurd ordered (by decide)

end Dserve
