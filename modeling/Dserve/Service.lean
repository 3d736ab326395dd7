import Dserve.Catalogue
import Dserve.Server

/-!
What the clients see: one catalogue, served in the order of the requests.

`service` is the catalogue with the line of those who wait: a request joins the line when it was put
on the input queue, and the first of the line is served next. `server_refines` says that the daemon
is such a service: with any number of clients and however the processes and threads are interleaved,
no request is served twice, none overtakes another, and none is lost while the controller is not
ending; each is served in the catalogue that the requests before it have left. In the runs in which
the handlers take their replies in turn, the reply a client gets is the one the service gave to the
request it sent (`clients_served`).
-/

namespace Dserve

/-! ### The service -/

/-- The catalogue, and the requests that wait. -/
structure Desk where
  items : List Item
  line : List (Ticket × Transaction)

/-- What is seen of the daemon: a request that is put on the input queue, a download that is loaded,
a request with its last reply. -/
inductive Dealing where
  | asked (t : Ticket) (r : Transaction)
  | loaded (x : Item)
  | answered (t : Ticket) (r reply : Transaction)
deriving DecidableEq

inductive Desk.Step (d : Desk) : Dealing → Desk → Prop where
  | asked {t : Ticket} {r : Transaction} : Desk.Step d (.asked t r) ⟨d.items, d.line ++ [(t, r)]⟩
  | loaded {x : Item} : Desk.Step d (.loaded x) ⟨d.items ++ [x], d.line⟩
  | answered {t : Ticket} {r reply : Transaction} {items : List Item}
      {line : List (Ticket × Transaction)} : d.line = (t, r) :: line → Serves d.items r reply items →
      Desk.Step d (.answered t r reply) ⟨items, line⟩

/-- Requests are served one after the other, in the order in which they came. -/
def service : Component Desk Dealing := ⟨Desk.Step⟩

/-- What the controller shows, for the request it works on. -/
def Shown.dealing (current : Ticket) : Shown → Dealing
  | .loaded x => .loaded x
  | .served r reply => .answered current r reply

/-- What a step of the daemon shows. -/
def Server.shown (s : Server) : ServerAction → Server → List Dealing
  | .handler client (.request t _), s' =>
      if (s'.handler client).reached then [.asked ⟨client, (s'.handler client).number⟩ t] else []
  | .controller a, s' => (s.config.shown a s'.config).map (Shown.dealing s.current)
  | _, _ => []

/-- The daemon, with what it shows. -/
def showing (max : Nat) : Machine (Noted Server Dealing) ServerAction := (server max).noted Server.shown

/-- The request the controller works on. -/
def Server.working (s : Server) : List (Ticket × Transaction) :=
  if s.config.phase = .answering then [(s.current, s.config.request)] else []

/-- How a state of the daemon is related to one of the service. -/
structure Server.Presents (s : Server) (d : Desk) : Prop where
  exhibits : s.config.Exhibits d.items
  line : s.config.phase ≠ .ending → d.line = s.working ++ s.input

section

variable {max : Nat} {s s' : Server} {d : Desk}

/-! ### The steps of the daemon -/

/-- The controller takes the first request of the input queue. -/
theorem Server.step_serve {response : Transaction} (h : s.step max (.serve response) = some s') :
    ∃ ticket r rest c, s.input = (ticket, r) :: rest ∧
      s.config.step max (.request r response) = some c ∧
      s' = { s with input := rest, config := c, current := ticket } := by
  simp only [Server.step] at h
  split at h
  · cases h
  · next ticket r rest input =>
    obtain ⟨c, served, rfl⟩ := Option.map_eq_some_iff.mp h
    exact ⟨ticket, r, rest, c, input, served, rfl⟩

theorem Server.step_controller {a : Action} (h : s.step max (.controller a) = some s') :
    (∀ r response, a ≠ .request r response) ∧ ∃ c, s.config.step max a = some c ∧
      s' = { s with config := c, output := s.output ++ s.news c, posted := s.posted ++ s.news c } := by
  cases a with
  | request r response => cases h
  | control o | thread tid a | signal fopen =>
      obtain ⟨c, moved, rfl⟩ := Option.map_eq_some_iff.mp h
      exact ⟨by simp, c, moved, rfl⟩

/-- A handler that takes a message leaves everything alone but the output queue. -/
structure TakeStep (s s' : Server) : Prop where
  handler : s'.handler = s.handler
  config : s'.config = s.config
  current : s'.current = s.current
  posted : s'.posted = s.posted
  input : s'.input = s.input

theorem take_step {m : Option Posted} (h : s.take m = some s') : TakeStep s s' := by
  unfold Server.take at h
  split at h
  · cases h
    exact ⟨rfl, rfl, rfl, rfl, rfl⟩
  · split at h
    · cases h
    · split at h
      · cases h
        exact ⟨rfl, rfl, rfl, rfl, rfl⟩
      · cases h

/-- A handler moves on its own. -/
theorem Server.step_handler {client : Nat} {a : HandlerAction Posted}
    (h : s.step max (.handler client a) = some s') : ∃ h' : Handler Posted,
      Handler.Moves Posted.reply (s.handler client) a h' ∧
      s'.handler = Function.update s.handler client h' := by
  obtain ⟨h', moved, step⟩ := Option.bind_eq_some_iff.mp h
  refine ⟨h', Handler.step_moves moved, ?_⟩
  cases a with
  | request t calls =>
      simp only at step
      split at step <;> cases step <;> rfl
  | relay calls delivered =>
      obtain ⟨r, -, step⟩ := Option.bind_eq_some_iff.mp step
      exact (take_step step).handler
  | close | die =>
      cases step
      rfl

/-- A handler leaves the controller alone, and puts at most its request on the input queue. -/
structure HandlerStep (s s' : Server) (shown : List Dealing) : Prop where
  config : s'.config = s.config
  current : s'.current = s.current
  posted : s'.posted = s.posted
  asked : shown = [] ∧ s'.input = s.input ∨
    ∃ t r, shown = [.asked t r] ∧ s'.input = s.input ++ [(t, r)]

theorem handlerStep {client : Nat} {a : HandlerAction Posted} (h : s.stepHandler client a = some s') :
    HandlerStep s s' (s.shown (.handler client a) s') := by
  obtain ⟨h', moved, step⟩ := Option.bind_eq_some_iff.mp h
  cases a with
  | request t calls =>
      simp only at step
      split at step
      · next reached =>
        cases step
        exact ⟨rfl, rfl, rfl, Or.inr ⟨_, _, by simp [Server.shown, reached], rfl⟩⟩
      · next unsent =>
        cases step
        exact ⟨rfl, rfl, rfl, Or.inl ⟨by simp [Server.shown, unsent], rfl⟩⟩
  | relay calls delivered =>
      obtain ⟨r, -, step⟩ := Option.bind_eq_some_iff.mp step
      obtain ⟨-, config, current, posted, input⟩ := take_step step
      exact ⟨config, current, posted, Or.inl ⟨rfl, input⟩⟩
  | close | die =>
      cases step
      exact ⟨rfl, rfl, rfl, Or.inl ⟨rfl, rfl⟩⟩

section

variable {L : Type → Type} {c c' : Config L}

/-- A step of the controller shows nothing, or what it loads, or the request it has served. -/
theorem shown_cases (a : Action) (c c' : Config L) : c.shown a c' = [] ∨
    (∃ e entries rest, c.pc = .loading (e :: entries) ∧ c'.pc = .loading rest ∧
      c.shown a c' = [.loaded e.item]) ∨
    (∃ o, a = .control o ∧ c.pc = .respond ∧ c.shown a c' = [.served c.request c.response]) := by
  cases a with
  | control o =>
      simp only [Config.shown]
      split
      · next pc => exact Or.inr (Or.inr ⟨o, rfl, pc, rfl⟩)
      · next e entries pc =>
        split
        · next rest pc' => exact Or.inr (Or.inl ⟨e, entries, rest, pc, pc', rfl⟩)
        · exact Or.inl rfl
      · exact Or.inl rfl
  | _ => exact Or.inl rfl

variable [ListApi L]

/-- The controller goes on with its request until it is served, or the process ends. -/
theorem step_phase {a : Action} (ready : c.Ready) (other : ∀ r response, a ≠ .request r response)
    (h : c.step max a = some c') : c'.request = c.request ∧
      (c'.phase = c.phase ∨ c'.phase = .ending ∨ c.phase = .loading ∧ c'.phase = .idle ∨
        ∃ o, a = .control o ∧ c.pc = .respond) := by
  have silent (quiet : Silent c c') : c'.phase = c.phase ∨ c'.phase = .ending ∨
      c.phase = .loading ∧ c'.phase = .idle ∨ ∃ o, a = .control o ∧ c.pc = .respond := by
    rcases quiet.phase with same | ended
    · exact Or.inl same
    · exact Or.inr (Or.inl ended)
  cases a with
  | request r response => exact absurd rfl (other r response)
  | control o =>
      refine ⟨(Config.control_turn h).request, ?_⟩
      cases control_progress ready h with
      | silent quiet => exact silent quiet
      | loaded loading _ _ idle => exact Or.inr (Or.inr (Or.inl ⟨loading, idle⟩))
      | report _ answering _ _ _ _ phase => exact Or.inl (phase.trans answering.symm)
      | respond pc => exact Or.inr (Or.inr (Or.inr ⟨o, rfl, pc⟩))
  | thread tid a =>
      refine ⟨?_, silent (thread_silent h)⟩
      rcases Config.step_thread h with rfl | ⟨t, m, -, -, rfl⟩ <;> rfl
  | signal fopen =>
      refine ⟨?_, silent (signal_silent h)⟩
      rcases Config.step_signal h with ⟨rfl, -⟩ | rfl | ⟨items, -, rfl⟩ <;> rfl

end

/-- A step of the controller serves the first of the line, or leaves the line alone. -/
theorem controller_presents {a : Action} {c : Config HeapList} (inv : s.Presents d)
    (other : ∀ r response, a ≠ .request r response) (h : s.config.step max a = some c)
    (rest : s'.config = c ∧ s'.current = s.current ∧ s'.input = s.input) :
    ∃ d', service.Trace d ((s.config.shown a c).map (Shown.dealing s.current)) d' ∧ s'.Presents d' := by
  obtain ⟨rfl, current, input⟩ := rest
  obtain ⟨request, phase⟩ := step_phase inv.exhibits.kept.ready other h
  have step : (controller HeapList max).step s.config a = some s'.config := h
  obtain ⟨items, trace, exhibits⟩ := controller_simulates _ _ _ _ inv.exhibits trivial step
  rcases shown_cases a s.config s'.config with none | ⟨e, entries, left, pc, pc', one⟩ | ⟨o, rfl, pc, one⟩
  · rw [none, Component.trace_nil] at trace
    subst trace
    rw [none]
    refine ⟨d, .nil, exhibits, fun going => ?_⟩
    rcases phase with same | ended | ⟨loading, idle⟩ | ⟨o, rfl, pc⟩
    · rw [inv.line (same ▸ going), Server.working, Server.working, same, current, request, input]
    · exact absurd ended going
    · rw [inv.line (by simp [loading]), Server.working, Server.working, loading, idle, input]
      simp
    · simp [Config.shown, pc] at none
  · rw [one] at trace ⊢
    cases Component.trace_single.mp trace
    refine ⟨_, Component.Trace.single .loaded, exhibits, fun _ => ?_⟩
    have loading : s.config.phase = .loading := by simp [Config.phase, pc]
    have still : s'.config.phase = .loading := by simp [Config.phase, pc']
    rw [inv.line (by simp [loading]), Server.working, Server.working, loading, still, input]
    rfl
  · rw [one] at trace ⊢
    obtain ⟨⟩ | serves := Component.trace_single.mp trace
    have answering : s.config.phase = .answering := by simp [Config.phase, pc]
    have idle : s'.config.phase = .idle := by
      simp only [Config.step, Config.control, pc, Option.some.injEq] at h
      rw [← h]
      rfl
    have line := inv.line (by simp [answering])
    rw [Server.working, if_pos answering] at line
    refine ⟨_, Component.Trace.single (.answered line serves), exhibits, fun _ => ?_⟩
    simp [Server.working, idle, input]

theorem server_simulates :
    (server max).Simulates Server.shown service (fun _ _ => True) Server.Presents := by
  rintro s a s' d inv - step
  cases a with
  | handler client a =>
      obtain ⟨config, current, -, ⟨none, input⟩ | ⟨t, r, one, input⟩⟩ := handlerStep step
      · rw [none]
        refine ⟨d, .nil, config ▸ inv.exhibits, fun going => ?_⟩
        have line := inv.line (config ▸ going)
        rw [line, Server.working, Server.working, config, current, input]
      · rw [one]
        refine ⟨_, Component.Trace.single .asked, config ▸ inv.exhibits, fun going => ?_⟩
        have line := inv.line (config ▸ going)
        simp only [line, Server.working, config, current, input, List.append_assoc]
  | serve response =>
      obtain ⟨ticket, r, rest, c, input, served, rfl⟩ := Server.step_serve step
      obtain ⟨idle, answering, -, -⟩ := request_answers served
      have step : (controller HeapList max).step s.config (.request r response) = some c := served
      obtain ⟨items, trace, exhibits⟩ := controller_simulates _ _ _ _ inv.exhibits trivial step
      have same : items = d.items := Component.trace_nil.mp trace
      subst same
      refine ⟨d, .nil, exhibits, fun _ => ?_⟩
      obtain ⟨-, rfl⟩ := Config.step_request served
      rw [inv.line (by simp [idle]), Server.working, Server.working, input, idle, if_pos answering]
      rfl
  | controller a =>
      obtain ⟨other, c, moved, rfl⟩ := Server.step_controller step
      exact controller_presents inv other moved ⟨rfl, rfl, rfl⟩

theorem start_presents (entries : List Entry) : (Server.start entries).Presents ⟨[], []⟩ :=
  ⟨⟨boot_kept entries, trivial, [], fun _ => rfl, rfl⟩, fun _ => rfl⟩

/-! ### The requests that were asked -/

/-- The tickets of the requests that were put on the input queue. -/
def Dealing.ticket? : Dealing → Option Ticket
  | .asked t _ => some t
  | _ => none

def tickets (events : List Dealing) : List Ticket := events.filterMap Dealing.ticket?

theorem tickets_append (es es' : List Dealing) : tickets (es ++ es') = tickets es ++ tickets es' :=
  List.filterMap_append

theorem tickets_controller (current : Ticket) (shown : List Shown) :
    tickets (shown.map (Shown.dealing current)) = [] := by
  apply List.filterMap_eq_nil_iff.mpr
  intro e member
  obtain ⟨x, -, rfl⟩ := List.mem_map.mp member
  cases x <;> rfl

/-- No two requests have the same ticket, since each handler counts its own. -/
structure Numbered (n : Noted Server Dealing) : Prop where
  nodup : (tickets n.events).Nodup
  known : ∀ t ∈ tickets n.events, 0 < t.number ∧ t.number ≤ (n.state.handler t.client).number

/-- A handler counts on when it has a request. -/
theorem handler_number {client : Nat} {a : HandlerAction Posted} (h : s.stepHandler client a = some s') :
    (∀ c, (s.handler c).number ≤ (s'.handler c).number) ∧
      (tickets (s.shown (.handler client a) s') = [] ∨
        tickets (s.shown (.handler client a) s') = [⟨client, (s'.handler client).number⟩] ∧
          (s'.handler client).number = (s.handler client).number + 1) := by
  obtain ⟨h, moved, step⟩ := Option.bind_eq_some_iff.mp h
  cases Handler.step_moves moved with
  | @request t calls reached reading =>
      simp only at step
      split at step <;> cases step
      · refine ⟨number_update (Nat.le_succ _), Or.inr ⟨?_, by simp⟩⟩
        simp [Server.shown, tickets, Dealing.ticket?, *]
      · refine ⟨number_update (Nat.le_succ _), Or.inl ?_⟩
        simp [Server.shown, tickets, *]
  | @relay calls delivered taken reply relaying received =>
      simp only [received, Option.bind_some] at step
      refine ⟨?_, Or.inl rfl⟩
      rw [(take_step step).handler]
      exact number_update (Nat.le_refl _)
  | close | die =>
      cases step
      exact ⟨number_update (Nat.le_refl _), Or.inl rfl⟩

theorem showing_numbered {entries : List Entry} {n : Noted Server Dealing}
    (run : (showing max).Reachable ⟨Server.start entries, []⟩ n) : Numbered n := by
  refine run.invariant ⟨List.nodup_nil, fun t member => by cases member⟩ ?_
  intro n a n' inv _ step
  obtain ⟨stepped, events⟩ := Machine.noted_step step
  have quiet (same : n'.state.handler = n.state.handler)
      (none : tickets (n.state.shown a n'.state) = []) : Numbered n' := by
    constructor
    · rw [events, tickets_append, none, List.append_nil]
      exact inv.nodup
    · rw [events, tickets_append, none, List.append_nil, same]
      exact inv.known
  cases a with
  | handler client a =>
      obtain ⟨later, none | ⟨one, new⟩⟩ := handler_number stepped
      · constructor
        · rw [events, tickets_append, none, List.append_nil]
          exact inv.nodup
        · rw [events, tickets_append, none, List.append_nil]
          exact fun t member => (inv.known t member).imp_right (Nat.le_trans · (later t.client))
      · constructor
        · rw [events, tickets_append, one]
          refine List.nodup_append.mpr ⟨inv.nodup, List.nodup_singleton _, ?_⟩
          intro t old t' mem same
          have known := (inv.known t old).2
          rw [same, List.mem_singleton.mp mem] at known
          simp only [new] at known
          omega
        · rw [events, tickets_append, one]
          intro t member
          rcases List.mem_append.mp member with old | mem
          · exact (inv.known t old).imp_right (Nat.le_trans · (later t.client))
          · rw [List.mem_singleton.mp mem]
            exact ⟨new ▸ Nat.succ_pos _, Nat.le_refl _⟩
  | serve response =>
      obtain ⟨ticket, r, rest, c, -, -, same⟩ := Server.step_serve stepped
      exact quiet (by rw [same]) rfl
  | controller a =>
      obtain ⟨-, c, -, same⟩ := Server.step_controller stepped
      exact quiet (by rw [same]) (tickets_controller _ _)

/-- Nothing is answered that was not asked. -/
theorem answered_asked {es : List Dealing} (trace : service.Trace ⟨[], []⟩ es d) :
    (∀ x ∈ d.line, .asked x.1 x.2 ∈ es) ∧
      ∀ t r reply, .answered t r reply ∈ es → .asked t r ∈ es := by
  induction trace with
  | nil =>
      constructor
      · intro x member
        cases member
      · intro t r reply member
        cases member
  | @snoc es e d d' _ shown ih =>
      obtain ⟨line, asked⟩ := ih
      cases shown with
      | @asked t r =>
          constructor
          · intro x member
            rcases List.mem_append.mp member with old | new
            · exact List.mem_append_left _ (line x old)
            · rw [List.mem_singleton.mp new]
              exact List.mem_append_right _ (List.mem_singleton.mpr rfl)
          · intro t' r' reply member
            rcases List.mem_append.mp member with old | new
            · exact List.mem_append_left _ (asked _ _ _ old)
            · cases List.mem_singleton.mp new
      | loaded =>
          constructor
          · exact fun x member => List.mem_append_left _ (line x member)
          · intro t' r' reply member
            rcases List.mem_append.mp member with old | new
            · exact List.mem_append_left _ (asked _ _ _ old)
            · cases List.mem_singleton.mp new
      | @answered t r reply items rest first =>
          rw [first] at line
          constructor
          · exact fun x member => List.mem_append_left _ (line x (List.mem_cons_of_mem _ member))
          · intro t' r' reply' member
            apply List.mem_append_left
            rcases List.mem_append.mp member with old | new
            · exact asked _ _ _ old
            · cases List.mem_singleton.mp new
              exact line _ List.mem_cons_self

/-! ### The replies that were given -/

/-- What a request was answered with. -/
def Dealing.answer? : Dealing → Option (Ticket × Transaction)
  | .answered t _ reply => some (t, reply)
  | _ => none

def answers (events : List Dealing) : List (Ticket × Transaction) := events.filterMap Dealing.answer?

theorem answers_append (es es' : List Dealing) : answers (es ++ es') = answers es ++ answers es' :=
  List.filterMap_append

theorem mem_answers {es : List Dealing} {t : Ticket} {reply : Transaction} :
    (t, reply) ∈ answers es ↔ ∃ r, .answered t r reply ∈ es := by
  unfold answers
  rw [List.mem_filterMap]
  constructor
  · rintro ⟨e, member, same⟩
    cases e with
    | asked | loaded => cases same
    | answered t' r reply' =>
        cases same
        exact ⟨r, member⟩
  · rintro ⟨r, member⟩
    exact ⟨_, member, rfl⟩

/-- The last replies on a queue. -/
def finals (posted : List Posted) : List (Ticket × Transaction) :=
  (posted.filter Posted.last).map fun m => (m.ticket, m.reply)

theorem finals_append (ms ms' : List Posted) : finals (ms ++ ms') = finals ms ++ finals ms' := by
  simp [finals]

/-- What is put on the output queue as the last reply to a request is the answer of the service,
unless it cannot be sent. -/
def Delivered (n : Noted Server Dealing) : Prop := (finals n.state.posted).Sublist (answers n.events)

/-- A step of the controller puts its answer on the output queue. -/
theorem controller_delivers {a : Action} {c : Config HeapList} (ready : s.config.Ready)
    (other : ∀ r response, a ≠ .request r response) (h : s.config.step max a = some c) :
    (finals (s.news c)).Sublist (answers ((s.config.shown a c).map (Shown.dealing s.current))) := by
  have unsent (sent : c.sent = s.config.sent) : (finals (s.news c)).Sublist
      (answers ((s.config.shown a c).map (Shown.dealing s.current))) := by
    simp [Server.news, finals, sent]
  cases a with
  | request r response => exact absurd rfl (other r response)
  | thread tid a => exact unsent (thread_silent h).sent
  | signal fopen => exact unsent (signal_silent h).sent
  | control o =>
      cases control_progress ready h with
      | silent quiet => exact unsent quiet.sent
      | loaded _ sent => exact unsent sent
      | report reply _ pc _ sent =>
          split at sent
          · simp [Server.news, finals, sent, pc]
          · exact unsent sent
      | respond pc sent =>
          split at sent
          · simp [Server.news, finals, sent, pc, Config.shown, answers, Shown.dealing, Dealing.answer?]
          · exact unsent sent

theorem showing_delivered {entries : List Entry} {n : Noted Server Dealing}
    (run : (showing max).Reachable ⟨Server.start entries, []⟩ n) : Delivered n := by
  refine run.invariant_with (J := fun n => ∃ d, n.state.Presents d) ?_ (List.nil_sublist _) ?_
  · intro n run
    obtain ⟨d, -, inv⟩ := server_simulates.trace (start_presents entries) run
    exact ⟨d, inv⟩
  · rintro n a n' ⟨d, inv⟩ delivered - step
    obtain ⟨stepped, events⟩ := Machine.noted_step step
    have quiet (same : n'.state.posted = n.state.posted) : Delivered n' := by
      unfold Delivered
      rw [events, answers_append, same]
      exact List.Sublist.trans delivered (List.sublist_append_left _ _)
    cases a with
    | handler client a => exact quiet (handlerStep stepped).posted
    | serve response =>
        obtain ⟨ticket, r, rest, c, -, -, same⟩ := Server.step_serve stepped
        exact quiet (by rw [same])
    | controller a =>
        obtain ⟨other, c, moved, same⟩ := Server.step_controller stepped
        have new := controller_delivers inv.exhibits.kept.ready other moved
        have shown : n.state.shown (.controller a) n'.state =
            (n.state.config.shown a c).map (Shown.dealing n.state.current) := by
          rw [same]
          rfl
        unfold Delivered
        rw [events, answers_append, shown, same, finals_append]
        exact List.Sublist.append delivered new

/-! ### The results -/

/-- The daemon is a service: the requests that were put on the input queue are served one after
the other, in that order and each once; the last replies on the output queue are the answers of the
service, and the queue holds what it has in its catalogue. -/
theorem server_refines {entries : List Entry} {n : Noted Server Dealing}
    (run : (showing max).Reachable ⟨Server.start entries, []⟩ n) :
    (tickets n.events).Nodup ∧ Delivered n ∧ ∃ d, service.Trace ⟨[], []⟩ n.events d ∧
      (n.state.config.phase ≠ .ending → d.line = n.state.working ++ n.state.input) ∧
      (n.state.config.pc = .idle → n.state.config.mem.queueItems ≠ none →
        n.state.config.mem.catalogue = d.items) := by
  refine ⟨(showing_numbered run).nodup, showing_delivered run, ?_⟩
  obtain ⟨d, trace, inv⟩ := server_simulates.trace (start_presents entries) run
  refine ⟨d, trace, inv.line, ?_⟩
  intro idle traversed
  obtain ⟨held, holds, shows⟩ := inv.exhibits.shows
  simp only [Config.Shows, idle] at shows
  exact (holds traversed).trans shows

/-- One client puts a file into the queue, and another takes it out. -/
def twoDealings : List Dealing :=
  [.asked ⟨1, 1⟩ (download ['a'] ['x', '/', 'a']), .asked ⟨2, 1⟩ (order .cancel ['a']),
    .answered ⟨1, 1⟩ (download ['a'] ['x', '/', 'a']) (addedReply (download ['a'] ['x', '/', 'a'])),
    .answered ⟨2, 1⟩ (order .cancel ['a']) (cancelReply (order .cancel ['a']) true)]

def twoClients : List ServerAction :=
  List.replicate 3 (.controller (.control {})) ++
    [.handler 1 (.request (download ['a'] ['x', '/', 'a']) [.ok ()]),
      .handler 2 (.request (order .cancel ['a']) [.ok ()])] ++ serves 7 ++ serves 4

theorem server_refines_run : ∃ n : Noted Server Dealing,
    (showing 1).Reachable ⟨Server.start [], []⟩ n ∧ n.events = twoDealings ∧
      (tickets n.events).Nodup ∧ Delivered n ∧ ∃ d, service.Trace ⟨[], []⟩ n.events d ∧
      (n.state.config.phase ≠ .ending → d.line = n.state.working ++ n.state.input) ∧
      (n.state.config.pc = .idle → n.state.config.mem.queueItems ≠ none →
        n.state.config.mem.catalogue = d.items) := by
  obtain ⟨n, run, events⟩ := Machine.exists_run_of_exec (showing 1) (fun _ _ => True)
    ⟨Server.start [], []⟩ twoClients (fun n => n.events = twoDealings) (by decide)
  exact ⟨n, run, events, server_refines run⟩

/-- A reply that a client got was put on the output queue for its request, and took its place
there. -/
theorem Consistent.delivered {client : Nat} {e : Relayed Posted} (inv : Consistent s)
    (logged : e ∈ (s.handler client).log) (delivered : e.delivered = true) :
    ∃ m ∈ s.posted, m.ticket = ⟨client, e.number⟩ ∧ m.reply = e.reply := by
  obtain ⟨m, took, reply⟩ := inv.read client e logged delivered
  have taken : m ∈ (s.handler client).taken e.number := by
    refine List.mem_filterMap.mpr ⟨e, ?_, took⟩
    simp [Handler.exchange, logged]
  have posted := List.mem_append_left (s.output.filter fun m =>
    decide (m.ticket = ⟨client, e.number⟩)) taken
  rw [← inv.accounted ⟨client, e.number⟩, List.mem_filter] at posted
  exact ⟨m, posted.1, of_decide_eq_true posted.2, reply.symm⟩

theorem run_consistent {entries : List Entry} {n : Noted Server Dealing}
    (run : (showing max).Run (fun n => InTurn n.state) ⟨Server.start entries, []⟩ n) :
    Consistent n.state :=
  (Machine.noted_run run).invariant (start_consistent entries)
    fun _ _ _ inv turn step => step_consistent inv turn step

/-- The last reply to a request is the answer of the service. -/
theorem posted_answered {entries : List Entry} {n : Noted Server Dealing} {m : Posted}
    (run : (showing max).Reachable ⟨Server.start entries, []⟩ n) (posted : m ∈ n.state.posted)
    (last : m.last = true) :
    ∃ r, .asked m.ticket r ∈ n.events ∧ .answered m.ticket r m.reply ∈ n.events := by
  have sent : (m.ticket, m.reply) ∈ answers n.events := by
    apply (showing_delivered run).subset
    exact List.mem_map.mpr ⟨m, List.mem_filter.mpr ⟨posted, last⟩, rfl⟩
  obtain ⟨r, answered⟩ := mem_answers.mp sent
  obtain ⟨d, trace, -⟩ := server_simulates.trace (start_presents entries) run
  exact ⟨r, (answered_asked trace).2 _ _ _ answered, answered⟩

/-- In the runs in which the handlers take their replies in turn, a reply that ends an exchange is
the answer of the service. -/
theorem relayed_answered {entries : List Entry} {n : Noted Server Dealing} {client : Nat}
    {e : Relayed Posted}
    (run : (showing max).Run (fun n => InTurn n.state) ⟨Server.start entries, []⟩ n)
    (logged : e ∈ (n.state.handler client).log) (delivered : e.delivered = true)
    (final : e.reply.status ≠ .processing) : ∃ r, .asked ⟨client, e.number⟩ r ∈ n.events ∧
      .answered ⟨client, e.number⟩ r e.reply ∈ n.events := by
  have inv := run_consistent run
  obtain ⟨m, posted, own, reply⟩ := inv.delivered logged delivered
  have last : m.last = true := by
    by_contra other
    exact final (reply ▸ inv.marked m posted (by simpa using other))
  rw [← own, ← reply]
  exact posted_answered (run.mono fun _ _ _ => trivial) posted last

/-- In these runs every client that gets a reply which ends its exchange gets the one the service
gave to the request it had sent. -/
theorem clients_served {entries : List Entry} {n : Noted Server Dealing}
    (run : (showing max).Run (fun n => InTurn n.state) ⟨Server.start entries, []⟩ n) :
    ∀ client, ∀ e ∈ (n.state.handler client).log, e.delivered = true → e.reply.status ≠ .processing →
      ∃ r, .asked ⟨client, e.number⟩ r ∈ n.events ∧
        .answered ⟨client, e.number⟩ r e.reply ∈ n.events :=
  fun _ _ => relayed_answered run

/-- Each client gets the reply to what it has asked for. -/
theorem clients_served_run : ∃ n : Noted Server Dealing,
    (showing 1).Run (fun n => InTurn n.state) ⟨Server.start [], []⟩ n ∧
      ((n.state.handler 2).log.length = 1 ∧ n.events = twoDealings) ∧
      ∀ client, ∀ e ∈ (n.state.handler client).log, e.delivered = true →
        e.reply.status ≠ .processing → ∃ r, .asked ⟨client, e.number⟩ r ∈ n.events ∧
          .answered ⟨client, e.number⟩ r e.reply ∈ n.events := by
  obtain ⟨n, run, got⟩ := Machine.exists_run_of_exec (showing 1) (fun n => InTurn n.state)
    ⟨Server.start [], []⟩ (twoClients ++
      [relays 1 ⟨⟨1, 1⟩, addedReply (download ['a'] ['x', '/', 'a']), true⟩,
        relays 2 ⟨⟨2, 1⟩, cancelReply (order .cancel ['a']) true, true⟩])
    (fun n => (n.state.handler 2).log.length = 1 ∧ n.events = twoDealings) (by decide)
  exact ⟨n, run, got, clients_served run⟩

end

end Dserve
