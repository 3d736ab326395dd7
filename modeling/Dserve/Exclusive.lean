import Dserve.Service

/-!
Clients that take turns.

All handlers read from one output queue, and each takes what comes first; `InTurn` singles out the
runs in which this is what it waits for. `exclusive_served` gives a rule for the clients under which
there are no other runs: a request is sent when none is unanswered, and it is one of those the
controller knows. When no handler dies while it waits, and the calls on the queues succeed, each
client gets the replies to its own requests, as the service gave them.
-/

namespace Dserve

/-- The clients take turns, and nothing fails meanwhile. -/
def Exclusive (s : Server) : ServerAction → Prop
  | .handler client a =>
      match a with
      | .request t calls => s.unanswered = [] ∧ t.command.Handled ∧
          sendMessageLocal queueRetryCount calls = some true
      | .relay calls _ =>
          ((readMessageLocal queueRetryCount Posted.reply calls).bind Prod.fst).isSome = true
      | .close => True
      | .die => (s.handler client).pc ≠ .relaying
  | .controller (.control o) => s.config.pc = .respond → o.send = true
  | _ => True

instance (s : Server) (a : ServerAction) : Decidable (Exclusive s a) := by
  unfold Exclusive
  induction a using ServerAction.casesOn with
  | handler client a => induction a using HandlerAction.casesOn <;> infer_instance
  | serve response => infer_instance
  | controller a => induction a using Action.casesOn <;> infer_instance

section

variable {max : Nat} {entries : List Entry} {n n' : Noted Server Dealing} {s s' : Server}

/-- Only one handler waits, and what it waits for is all that is unanswered. -/
def Server.Alone (s : Server) : Prop :=
  ∀ client, (s.handler client).pc = .relaying → s.unanswered = [⟨client, (s.handler client).number⟩]

/-- The requests are among those that the controller has a handler for. -/
def Expected (events : List Dealing) : Prop := ∀ t r, .asked t r ∈ events → r.command.Handled

/-- The last reply to a request the controller knows has another status than `PROCESSING`. -/
theorem serves_final {cat cat' : List Item} {r t : Transaction} (serves : Serves cat r t cat')
    (expected : r.command.Handled) : t.status ≠ .processing := by
  cases serves with
  | @paused ret => cases ret <;> simp [pauseReply, reply]
  | unhandled unhandled => exact absurd expected unhandled
  | _ => simp [addedReply, notFoundReply, restartReply, cancelReply, reply]

theorem last_final {m : Posted} (run : (showing max).Reachable ⟨Server.start entries, []⟩ n)
    (expected : Expected n.events) (posted : m ∈ n.state.posted) (last : m.last = true) :
    m.reply.status ≠ .processing := by
  obtain ⟨r, asked, answered⟩ := posted_answered run posted last
  obtain ⟨before, after, parts⟩ := List.append_of_mem answered
  obtain ⟨d, trace, -⟩ := server_simulates.trace (start_presents entries) run
  obtain ⟨y, y', -, shows, -⟩ := trace.shown parts
  cases shows with
  | answered _ serves => exact serves_final serves (expected _ _ asked)

/-- A message on the output queue was posted. -/
theorem Consistent.posted_first {m : Posted} {rest : List Posted} (inv : Consistent s)
    (output : s.output = m :: rest) : m ∈ s.posted := by
  have here : m ∈ s.posted.filter fun m' => decide (m'.ticket = m.ticket) := by
    rw [inv.accounted m.ticket, output]
    simp
  exact (List.mem_filter.mp here).1

/-- When only one handler waits, it takes its reply in its turn. -/
theorem exclusive_turn {a : ServerAction} (alone : s.Alone) (exclusive : Exclusive s a)
    (step : s.step max a = some s') : InTurn s a := by
  cases a with
  | handler client a =>
      cases a with
      | relay calls delivered =>
          obtain ⟨h, moved, -⟩ := Option.bind_eq_some_iff.mp step
          cases Handler.step_moves moved with
          | @relay _ _ taken reply relaying received =>
              rw [Exclusive, received] at exclusive
              obtain ⟨m, rfl⟩ := Option.isSome_iff_exists.mp exclusive
              simp only [InTurn, received, alone client relaying, List.head?_cons]
      | _ => trivial
  | serve response => trivial
  | controller a =>
      cases a with
      | control o => exact exclusive
      | _ => trivial

/-- A step of a handler leaves one that waits, or none. -/
theorem handler_alone {client : Nat} {a : HandlerAction Posted} (alone : s.Alone)
    (exclusive : Exclusive s (.handler client a)) (inv : Consistent s)
    (final : ∀ m ∈ s.posted, m.last = true → m.reply.status ≠ .processing)
    (step : s.stepHandler client a = some s') : s'.Alone := by
  obtain ⟨h, moved, step⟩ := Option.bind_eq_some_iff.mp step
  -- the handlers of the other connections stay as they are
  have others {c : Nat} (other : c ≠ client)
      (waits : (Function.update s.handler client h c).pc = .relaying) :
      s.unanswered = [⟨c, (Function.update s.handler client h c).number⟩] := by
    rw [Function.update_of_ne other] at waits ⊢
    exact alone c waits
  cases a with
  | request t calls =>
      obtain ⟨quiet, -, reaches⟩ := exclusive
      simp only [Handler.step, reaches, Option.map_some] at moved
      split at moved
      · cases moved
        simp only [if_true] at step
        cases step
        intro c waits
        by_cases own : c = client
        · subst own
          simp [quiet]
        · have waiting := others own waits
          rw [quiet] at waiting
          cases waiting
      · cases moved
  | relay calls delivered =>
      cases Handler.step_moves moved with
      | @relay _ _ taken reply relaying received =>
          simp only [Exclusive, received] at exclusive
          obtain ⟨m, rfl⟩ := Option.isSome_iff_exists.mp exclusive
          have only := alone client relaying
          have content : reply = m.reply := readMessageLocal_buffer received
          simp only [received, Option.bind_some, Server.take] at step
          split at step
          · cases step
          · next first rest output =>
            split at step
            · next same =>
              subst same
              cases step
              have posted := inv.posted_first output
              intro c waits
              by_cases own : c = client
              · subst own
                have more : first.reply.status = .processing := by
                  simpa [Handler.turn, content] using waits
                have part : first.last = false := by
                  by_contra last
                  exact final first posted (by simpa using last) more
                simpa [part] using only
              · have waiting := others own waits
                rw [only] at waiting
                exact absurd (congrArg Ticket.client (List.cons.inj waiting).1).symm own
            · cases step
  | close =>
      cases Handler.step_moves moved
      cases step
      intro c waits
      by_cases own : c = client
      · subst own
        simp at waits
      · exact others own waits
  | die =>
      cases Handler.step_moves moved with
      | die closed stopped =>
          cases step
          intro c waits
          by_cases own : c = client
          · subst own
            rcases stopped with rfl | rfl <;> simp at waits
          · exact others own waits

/-- A step of a handler asks for nothing that the controller does not know. -/
theorem exclusive_expected {a : ServerAction} (expected : Expected n.events)
    (exclusive : Exclusive n.state a) (step : (showing max).step n a = some n') :
    Expected n'.events := by
  obtain ⟨stepped, events⟩ := Machine.noted_step step
  intro t r asked
  rw [events] at asked
  rcases List.mem_append.mp asked with old | new
  · exact expected t r old
  · cases a with
    | handler client a =>
        cases a with
        | request u calls =>
            simp only [Server.shown] at new
            split at new
            · cases List.mem_singleton.mp new
              exact exclusive.2.1
            · cases new
        | _ => cases new
    | serve response => cases new
    | controller a =>
        obtain ⟨x, -, same⟩ := List.mem_map.mp new
        cases x <;> cases same

/-- Clients that take turns have no other runs than those that are in turn. -/
theorem exclusive_in_turn
    (run : (showing max).Run (fun n => Exclusive n.state) ⟨Server.start entries, []⟩ n) :
    (showing max).Run (fun n => InTurn n.state) ⟨Server.start entries, []⟩ n ∧ n.state.Alone ∧
      Expected n.events := by
  refine run.invariant (I := fun n => (showing max).Run (fun n => InTurn n.state)
    ⟨Server.start entries, []⟩ n ∧ n.state.Alone ∧ Expected n.events) ⟨.refl, ?_, ?_⟩ ?_
  · intro client waits
    cases waits
  · intro t r asked
    cases asked
  · rintro n a n' ⟨run, alone, expected⟩ exclusive step
    obtain ⟨stepped, -⟩ := Machine.noted_step step
    have turn := exclusive_turn alone exclusive stepped
    refine ⟨run.tail turn step, ?_, exclusive_expected expected exclusive step⟩
    have reachable : (showing max).Reachable ⟨Server.start entries, []⟩ n :=
      run.mono fun _ _ _ => trivial
    cases a with
    | handler client a =>
        exact handler_alone alone exclusive (run_consistent run)
          (fun m posted last => last_final reachable expected posted last) stepped
    | serve response =>
        obtain ⟨ticket, r, rest, c, -, -, same⟩ := Server.step_serve stepped
        rw [same]
        exact alone
    | controller a =>
        obtain ⟨-, c, -, same⟩ := Server.step_controller stepped
        rw [same]
        exact alone

/-! ### The result -/

/-- When the clients take turns, each gets the replies to its own requests, in whole blocks, and the
last of each block is the one the service gave. -/
theorem exclusive_served
    (run : (showing max).Run (fun n => Exclusive n.state) ⟨Server.start entries, []⟩ n) :
    Routed n.state ∧ ∀ client, ∀ e ∈ (n.state.handler client).log, e.delivered = true →
      e.reply.status ≠ .processing → ∃ r, .asked ⟨client, e.number⟩ r ∈ n.events ∧
        .answered ⟨client, e.number⟩ r e.reply ∈ n.events := by
  obtain ⟨turns, -, -⟩ := exclusive_in_turn run
  exact ⟨(run_consistent turns).routed, fun _ _ => relayed_answered turns⟩

/-- One client puts a file into the queue; when it has its reply, another takes the file out. -/
theorem exclusive_served_run : ∃ n : Noted Server Dealing,
    (showing 1).Run (fun n => Exclusive n.state) ⟨Server.start [], []⟩ n ∧
      ((n.state.handler 1).log.length = 1 ∧ (n.state.handler 2).log.length = 1) ∧
      Routed n.state ∧ ∀ client, ∀ e ∈ (n.state.handler client).log, e.delivered = true →
        e.reply.status ≠ .processing → ∃ r, .asked ⟨client, e.number⟩ r ∈ n.events ∧
          .answered ⟨client, e.number⟩ r e.reply ∈ n.events := by
  obtain ⟨n, run, got⟩ := Machine.exists_run_of_exec (showing 1) (fun n => Exclusive n.state)
    ⟨Server.start [], []⟩
    (List.replicate 3 (.controller (.control {})) ++
      .handler 1 (.request (download ['a'] ['x', '/', 'a']) [.ok ()]) :: serves 7 ++
      relays 1 ⟨⟨1, 1⟩, addedReply (download ['a'] ['x', '/', 'a']), true⟩ ::
        .handler 2 (.request (order .cancel ['a']) [.ok ()]) :: serves 4 ++
      [relays 2 ⟨⟨2, 1⟩, cancelReply (order .cancel ['a']) true, true⟩])
    (fun n => (n.state.handler 1).log.length = 1 ∧ (n.state.handler 2).log.length = 1) (by decide)
  exact ⟨n, run, got, exclusive_served run⟩

end

end Dserve
