import Dserve.Client
import Dserve.Service

/-!
`dsclient.c`: what the exit status of a command tells.

`default_send_receive` reads one reply, and `main` makes its status the exit status. When the client
reaches the daemon and the handlers take their replies in turn, this is the answer of the service:
`exit_tells` says that the exit status of a `DOWNLOAD`, `PAUSE`, `CANCEL` or `RESTART` is 0 exactly
when the request was granted. For a `PAUSE` or a `RESTART` this means no more than that there is a
download with the name.
-/

namespace Dserve

/-! ### The client -/

def EXIT_SUCCESS : Nat := 0
def EXIT_FAILURE : Nat := 1

/-- What the environment decides in a run of `dsclient`. -/
structure ClientOutcome where
  configuration : Bool := true
  /-- `connection_new` has memory, a valid address and a socket -/
  connectionNew : Bool := true
  connect : Bool := true
  /-- the transaction `connection_read` returns, if it returns a whole one -/
  read : Option Transaction
  /-- `status_command` ends without a `return` -/
  indeterminate : Bool := false

/-- `default_send_receive` -/
def defaultSendReceive (read : Option Transaction) : Bool :=
  match read with
  | none => false
  | some reply => decide (reply.status = .success ∨ reply.status = .processing)

/-- `run`, whose result is a `bool`. -/
def clientRun (o : ClientOutcome) (t : Transaction) : Bool :=
  if o.connectionNew = false then decide (EXIT_FAILURE ≠ 0)
  else if o.connect = false then false
  else
    match t.command with
    | .status => o.indeterminate
    | _ => defaultSendReceive o.read

/-- `main` -/
def clientMain (o : ClientOutcome) (options : List ClientOption) : Nat :=
  if o.configuration = false ∨ options = [] then EXIT_FAILURE
  else
    match clientRequest options with
    | none => EXIT_SUCCESS
    | some t => if clientRun o t then EXIT_SUCCESS else EXIT_FAILURE

/-- A request that changes the catalogue, or names a download of it. -/
def Command.Acts : Command → Prop
  | .download => True
  | .pause => True
  | .cancel => True
  | .restart => True
  | _ => False

/-- The request was carried out on the catalogue; a `PAUSE` and a `RESTART` change nothing there. -/
def Granted (cat : List Item) (r : Transaction) (cat' : List Item) : Prop :=
  match r.command with
  | .download => ¬ Known cat r.id.name ∧ cat' = cat ++ [⟨r.id.name, r.url⟩]
  | .cancel => Known cat r.id.name ∧ cat' = cat.eraseP fun x => decide (x.name = r.id.name)
  | .pause => Known cat r.id.name ∧ cat' = cat
  | .restart => Known cat r.id.name ∧ cat' = cat
  | _ => False

/-- The reply tells whether it was. -/
theorem serves_granted {cat cat' : List Item} {r t : Transaction} (serves : Serves cat r t cat')
    (acts : r.command.Acts) :
    defaultSendReceive (some t) = true ↔ Granted cat r cat' := by
  cases serves with
  | added command absent =>
      simp [Granted, command, defaultSendReceive, addedReply, reply, absent]
  | refused command => simp [Granted, command, defaultSendReceive, reply]
  | listed command | empty command =>
      rw [command] at acts
      exact acts.elim
  | unknown names absent =>
      cases command : r.command <;> rw [command] at names <;>
        simp [Granted, command, defaultSendReceive, notFoundReply, reply, absent,
          Command.Names] at *
  | @paused ret command known =>
      cases ret <;> simp [Granted, command, defaultSendReceive, pauseReply, reply, known]
  | restarted command known =>
      simp [Granted, command, defaultSendReceive, restartReply, reply, known]
  | cancelled command known =>
      simp [Granted, command, defaultSendReceive, cancelReply, reply, known]
  | unhandled command =>
      cases other : r.command <;> rw [other] at acts command
      all_goals first | exact acts.elim | exact absurd trivial command

/-! ### The replies before the last -/

section

variable {max : Nat} {entries : List Entry} {n : Noted Server Dealing}

/-- The controller sends something in its traversal for a `STATUS`, or at the end of a request. -/
theorem turn_sent {L : Type → Type} [ListApi L] {c c' : Config L} {o : Outcome}
    (turn : c.Turn max o c') :
    c'.sent = c.sent ∨ c.pc = .respond ∨ ∃ p rest, c.pc = .report (p :: rest) := by
  have after {d : Config L} {k : Task} {p : EntryPtr} {ret : Bool}
      (h : d.afterSwitch k p ret = some c') : c'.sent = d.sent := by
    cases k with
    | restart =>
        obtain ⟨items, -, rfl⟩ := Option.map_eq_some_iff.mp h
        rfl
    | _ => cases h; rfl
  cases turn with
  | leave _ _ _ h | missing _ _ h => exact Or.inl (after h)
  | assign _ h | kill _ _ h => exact Or.inl ((after h).trans rfl)
  | report pc => exact Or.inr (Or.inr ⟨_, _, pc⟩)
  | respond pc => exact Or.inr (Or.inl pc)
  | _ => exact Or.inl rfl

/-- A reply that is not the last one belongs to a `STATUS`. -/
def Reporting (n : Noted Server Dealing) : Prop :=
  ∀ m ∈ n.state.posted, m.last = false → ∃ r, .asked m.ticket r ∈ n.events ∧ r.command = .status

theorem news_reporting {s : Server} {d : Desk} {events : List Dealing} {a : Action}
    {c : Config HeapList} {m : Posted} (inv : s.Presents d)
    (trace : service.Trace ⟨[], []⟩ events d) (h : s.config.step max a = some c)
    (new : m ∈ s.news c) (part : m.last = false) :
    ∃ r, .asked m.ticket r ∈ events ∧ r.command = .status := by
  obtain ⟨reply, sent, rfl⟩ := List.mem_map.mp new
  have unsent (same : c.sent = s.config.sent) : False := by
    rw [same, List.drop_length] at sent
    cases sent
  have pc : s.config.pc ≠ .respond := of_decide_eq_false part
  cases a with
  | request r response =>
      obtain ⟨-, rfl⟩ := Config.step_request h
      exact (unsent rfl).elim
  | thread tid a => exact (unsent (thread_silent h).sent).elim
  | signal fopen => exact (unsent (signal_silent h).sent).elim
  | control o =>
      rcases turn_sent (Config.control_turn h) with same | respond | ⟨p, rest, report⟩
      · exact (unsent same).elim
      · exact absurd respond pc
      · have answering : s.config.phase = .answering := by simp [Config.phase, report]
        have line := inv.line (by simp [answering])
        rw [Server.working, if_pos answering] at line
        have first : (s.current, s.config.request) ∈ d.line := by rw [line]; simp
        have command := inv.exhibits.treats
        rw [report] at command
        exact ⟨_, (answered_asked trace).1 _ first, command⟩

theorem showing_reporting (run : (showing max).Reachable ⟨Server.start entries, []⟩ n) :
    Reporting n := by
  refine run.invariant_with
    (J := fun n => ∃ d, service.Trace ⟨[], []⟩ n.events d ∧ n.state.Presents d) ?_ ?_ ?_
  · exact fun n run => server_simulates.trace (start_presents entries) run
  · intro m member
    cases member
  · rintro n a n' ⟨d, trace, inv⟩ reporting - step
    obtain ⟨stepped, events⟩ := Machine.noted_step step
    have later {m : Posted} (h : ∃ r, .asked m.ticket r ∈ n.events ∧ r.command = .status) :
        ∃ r, .asked m.ticket r ∈ n'.events ∧ r.command = .status := by
      obtain ⟨r, asked, command⟩ := h
      exact ⟨r, events ▸ List.mem_append_left _ asked, command⟩
    have quiet (same : n'.state.posted = n.state.posted) : Reporting n' :=
      fun m member part => later (reporting m (same ▸ member) part)
    cases a with
    | handler client a => exact quiet (handlerStep stepped).posted
    | serve response =>
        obtain ⟨ticket, r, rest, c, -, -, same⟩ := Server.step_serve stepped
        exact quiet (by rw [same])
    | controller a =>
        obtain ⟨-, c, moved, same⟩ := Server.step_controller stepped
        intro m member part
        rw [same] at member
        rcases List.mem_append.mp member with old | new
        · exact later (reporting m old part)
        · exact later (news_reporting inv trace moved new part)

/-- A ticket is given to one request. -/
theorem asked_unique {events : List Dealing} {t : Ticket} {r r' : Transaction}
    (nodup : (tickets events).Nodup) (one : .asked t r ∈ events) (other : .asked t r' ∈ events) :
    r = r' := by
  induction events with
  | nil => cases one
  | cons e events ih =>
      have rest : (tickets events).Nodup :=
        nodup.sublist (List.Sublist.filterMap _ (List.sublist_cons_self _ _))
      have absent {r : Transaction} (here : e = .asked t r) : t ∉ tickets events := by
        subst here
        exact (List.nodup_cons.mp nodup).1
      have listed {r : Transaction} (member : .asked t r ∈ events) : t ∈ tickets events :=
        List.mem_filterMap.mpr ⟨_, member, rfl⟩
      rcases List.mem_cons.mp one with rfl | one <;> rcases List.mem_cons.mp other with same | other
      · cases same
        rfl
      · exact absurd (listed other) (absent rfl)
      · exact absurd (listed one) (absent same.symm)
      · exact ih rest one other

/-! ### The result -/

/-- When the client has reached the daemon and got a reply, and the handlers take their replies in
turn, the exit status is 0 exactly when the request was granted, in the catalogue that the requests
before it had left. -/
theorem exit_tells {o : ClientOutcome} {options : List ClientOption} {r : Transaction}
    {client : Nat} {e : Relayed Posted}
    (run : (showing max).Run (fun n => InTurn n.state) ⟨Server.start entries, []⟩ n)
    (request : clientRequest options = some r) (acts : r.command.Acts)
    (asked : .asked ⟨client, e.number⟩ r ∈ n.events) (logged : e ∈ (n.state.handler client).log)
    (delivered : e.delivered = true)
    (reached : o.configuration = true ∧ o.connectionNew = true ∧ o.connect = true ∧
      o.read = some e.reply) :
    ∃ before after d d', n.events = before ++ .answered ⟨client, e.number⟩ r e.reply :: after ∧
      service.Trace ⟨[], []⟩ before d ∧
      service.shows d (.answered ⟨client, e.number⟩ r e.reply) d' ∧
      (clientMain o options = EXIT_SUCCESS ↔ Granted d.items r d'.items) := by
  have reachable : (showing max).Reachable ⟨Server.start entries, []⟩ n :=
    run.mono fun _ _ _ => trivial
  obtain ⟨m, posted, own, reply⟩ := (run_consistent run).delivered logged delivered
  have unique {r' : Transaction} (other : .asked ⟨client, e.number⟩ r' ∈ n.events) : r = r' :=
    asked_unique (showing_numbered reachable).nodup asked other
  have last : m.last = true := by
    by_contra other
    obtain ⟨r', asked', status⟩ := showing_reporting reachable m posted (by simpa using other)
    rw [own] at asked'
    rw [unique asked', status] at acts
    exact acts
  obtain ⟨r', asked', answered⟩ := posted_answered reachable posted last
  rw [own] at asked' answered
  rw [← unique asked', reply] at answered
  obtain ⟨before, after, parts⟩ := List.append_of_mem answered
  obtain ⟨d, trace, -⟩ := server_simulates.trace (start_presents entries) reachable
  obtain ⟨y, y', first, shows, -⟩ := trace.shown parts
  refine ⟨before, after, y, y', parts, first, shows, ?_⟩
  have served : Serves y.items r e.reply y'.items := by
    cases shows with
    | answered _ serves => exact serves
  rw [← serves_granted served acts]
  have some_option : options ≠ [] := by
    rintro rfl
    cases request
  obtain ⟨configured, connected, connect, read⟩ := reached
  have exits : clientRun o r = defaultSendReceive (some e.reply) := by
    unfold clientRun
    rw [connected, connect, read]
    cases command : r.command <;> rw [command] at acts <;> first | rfl | exact acts.elim
  unfold clientMain
  rw [if_neg (by simp [configured, some_option]), request]
  simp only [exits]
  cases defaultSendReceive (some e.reply) <;> simp [EXIT_SUCCESS, EXIT_FAILURE]

/-- `dsclient --cancel --name=a` ends with 0, after another client has put the file into the queue. -/
theorem exit_tells_run : ∃ (n : Noted Server Dealing) (o : ClientOutcome),
    (showing 1).Run (fun n => InTurn n.state) ⟨Server.start [], []⟩ n ∧
      clientMain o [.cancel, .name ['a']] = EXIT_SUCCESS ∧
      ∃ before after d d', n.events = before ++
          .answered ⟨2, 1⟩ (order .cancel ['a']) (cancelReply (order .cancel ['a']) true) :: after ∧
        service.Trace ⟨[], []⟩ before d ∧
        service.shows d
          (.answered ⟨2, 1⟩ (order .cancel ['a']) (cancelReply (order .cancel ['a']) true)) d' ∧
        (clientMain o [.cancel, .name ['a']] = EXIT_SUCCESS ↔
          Granted d.items (order .cancel ['a']) d'.items) := by
  obtain ⟨n, run, logged, events⟩ := Machine.exists_run_of_exec (showing 1)
    (fun n => InTurn n.state) ⟨Server.start [], []⟩ (twoClients ++
      [relays 1 ⟨⟨1, 1⟩, addedReply (download ['a'] ['x', '/', 'a']), true⟩,
        relays 2 ⟨⟨2, 1⟩, cancelReply (order .cancel ['a']) true, true⟩])
    (fun n => (n.state.handler 2).log.map (fun e => (e.number, e.delivered, e.reply)) =
      [(1, true, cancelReply (order .cancel ['a']) true)] ∧ n.events = twoDealings) (by decide)
  obtain ⟨e, one, same⟩ := List.map_eq_singleton_iff.mp logged
  obtain ⟨number, delivered, answer⟩ : e.number = 1 ∧ e.delivered = true ∧
      e.reply = cancelReply (order .cancel ['a']) true := by simpa using same
  have asked : .asked ⟨2, e.number⟩ (order .cancel ['a']) ∈ n.events := by
    rw [events, number]
    simp [twoDealings]
  have request : clientRequest [.cancel, .name ['a']] = some (order .cancel ['a']) := rfl
  have told := exit_tells (o := { read := some e.reply }) run request trivial asked
    (one ▸ List.mem_singleton.mpr rfl) delivered ⟨rfl, rfl, rfl, rfl⟩
  rw [number, answer] at told
  exact ⟨n, { read := some (cancelReply (order .cancel ['a']) true) }, run, rfl, told⟩

end

end Dserve
