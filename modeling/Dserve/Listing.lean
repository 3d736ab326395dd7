import Dserve.Service

/-!
What a client is shown for a `STATUS`.

The entries are reported one by one, and the download threads change them meanwhile. What a client
is shown are all the same the downloads of one catalogue, the one in which its request was served.
`status_lists` says so for the runs in which the handlers take their replies in turn: no download is
shown twice or out of its order, and none is left out when the controller can send its replies.
-/

namespace Dserve

/-- The download that a reply tells of. -/
def Transaction.item? (t : Transaction) : Option Item :=
  match t.payload.data with
  | .text _ => none
  | .entry e => some e.item

/-- The downloads in the replies to a request. -/
def listing (replies : List Transaction) : List Item := replies.filterMap Transaction.item?

@[simp] theorem reply_item (request : Transaction) (status : Status) (text : CString) :
    (reply request status text).item? = none := rfl

/-- The controller can put its reply on the output queue. -/
def ServerAction.Sends : ServerAction → Prop
  | .controller (.control o) => o.send = true
  | _ => True

instance (a : ServerAction) : Decidable a.Sends := by
  unfold ServerAction.Sends
  induction a using ServerAction.casesOn with
  | controller a => induction a using Action.casesOn <;> infer_instance
  | _ => infer_instance

/-- A part of the catalogue, in its order; the whole of it when nothing was lost. -/
def Part (whole : Bool) (xs cat : List Item) : Prop := xs.Sublist cat ∧ (whole = true → xs = cat)

/-- What was sent for a `STATUS` so far, and what the traversal still comes to, is the catalogue. -/
def Config.Lists {L : Type → Type} (c : Config L) (whole : Bool) (got cat : List Item) : Prop :=
  c.phase = .answering → c.request.command = .status →
    match c.pc with
    | .status => got = []
    | .report rest => Part whole (got ++ rest.map fun p => (c.mem.entry p).item) cat
    | .respond => c.response.item? = none ∧ Part whole got cat
    | _ => False

/-! ### The traversal -/

section

variable {L : Type → Type} [ListApi L] [LawfulListApi L] {max : Nat} {o : Outcome} {c c' : Config L}
  {held cat got : List Item} {whole : Bool}

omit [LawfulListApi L] in
theorem listing_append (ts ts' : List Transaction) :
    listing (ts ++ ts') = listing ts ++ listing ts' :=
  List.filterMap_append

omit [ListApi L] [LawfulListApi L] in
/-- A step that ends the process leaves nothing to be reported. -/
theorem Config.Lists.ended (ending : c.phase = .ending) : c.Lists whole got cat := by
  intro answering
  rw [ending] at answering
  cases answering

/-- One step of the controller on a `STATUS`. -/
theorem turn_lists (kept : c.Kept) (holds : c.mem.Holds held) (shows : c.Shows held cat)
    (lists : c.Lists whole got cat) (sends : whole = true → o.send = true)
    (began : c'.phase = .answering → c.phase = .answering) (turn : c.Turn max o c') :
    c'.Lists whole (got ++ listing (c'.sent.drop c.sent.length)) cat := by
  intro answering command
  have lists := lists (began answering) (turn.request ▸ command)
  cases turn with
  | crash => cases answering
  | unlisted pc none =>
      simp only [pc] at lists
      simp only [Config.Shows, pc] at shows
      have nothing : cat = [] := by
        rw [← shows, ← holds.queueInit o.queueNew kept.wf (by simp [Mem.queueItems, none])]
        simp [Mem.catalogue, Mem.queue, Mem.contents, none]
      simp [lists, nothing, Part, listing]
  | @list items pc found =>
      simp only [pc] at lists
      simp only [Config.Shows, pc] at shows
      have reported : items.map (fun p => ((c.mem.queueInit o.queueNew).entry p).item) = cat := by
        rw [← shows, ← holds.queueInit o.queueNew kept.wf (by simp [found]), Mem.queueItems_eq found]
        rfl
      simp [lists, reported, Part, listing]
  | listed pc =>
      simp only [pc] at lists
      simpa [Part, listing] using lists
  | @report p rest pc =>
      simp only [pc, List.map_cons] at lists
      obtain ⟨part, all⟩ := lists
      cases send : o.send with
      | true =>
          have sent : (c.mem.queueGetInfo p c.response).item? = some (c.mem.entry p).item := rfl
          simpa [Config.send, send, listing, sent, Part] using ⟨part, all⟩
      | false =>
          have lost : whole = false := by
            cases whole with
            | true => exact absurd (sends rfl) (by simp [send])
            | false => rfl
          have shorter : (got ++ rest.map fun p => (c.mem.entry p).item).Sublist cat :=
            ((List.Sublist.refl got).append (List.sublist_cons_self _ _)).trans part
          simpa [Config.send, send, listing, lost, Part] using shorter
  | respond pc => cases answering
  | noQueue pc | loading pc | loaded pc | noEntry pc | push pc | added pc | refused pc | visited pc
  | ready pc | waiting pc | skip pc | free pc | full pc | start pc | mark pc | notFound pc
  | toStop pc | toAssign pc | leave pc | assign pc | missing pc | stop pc | kill pc | unlink pc
  | saved pc | running pc | halted pc | reset pc | write pc =>
      simp only [pc] at lists

/-- The other steps leave the traversal alone, or end the process. -/
theorem step_lists {a : Action} (kept : c.Kept) (holds : c.mem.Holds held) (shows : c.Shows held cat)
    (lists : c.Lists whole got cat) (sends : ∀ o, a = .control o → whole = true → o.send = true)
    (other : ∀ r response, a ≠ .request r response) (h : c.step max a = some c') :
    c'.Lists whole (got ++ listing (c'.sent.drop c.sent.length)) cat := by
  cases a with
  | request r response => exact absurd rfl (other r response)
  | control o =>
      refine turn_lists kept holds shows lists (sends o rfl) ?_ (Config.control_turn h)
      intro answering
      obtain ⟨-, same | ended | ⟨-, idle⟩ | ⟨-, -, pc⟩⟩ := step_phase kept.ready other h
      · exact same ▸ answering
      · rw [ended] at answering
        cases answering
      · rw [idle] at answering
        cases answering
      · simp [Config.phase, pc]
  | thread tid a =>
      rcases Config.step_thread h with rfl | ⟨t, m, -, stepped, rfl⟩
      · exact .ended rfl
      · have move := Mem.threadStep_move stepped
        have same (p : EntryPtr) : (m.entry p).item = (c.mem.entry p).item := by
          obtain ⟨id, url⟩ := move.idUrl p
          rw [Entry.item, id, url, Entry.item]
        rw [List.drop_length]
        intro answering command
        have lists := lists answering command
        simp only [listing, List.filterMap_nil, List.append_nil, same]
        exact lists
  | signal fopen =>
      rcases Config.step_signal h with ⟨rfl, -⟩ | rfl | ⟨items, -, rfl⟩ <;> exact .ended rfl

end

/-! ### Requests and their replies -/

section

variable {max : Nat} {entries : List Entry} {n n' : Noted Server Dealing} {s : Server} {d : Desk}
  {whole : Bool}

/-- The requests are answered in the order in which they were asked. -/
theorem tickets_answers {es : List Dealing} (trace : service.Trace ⟨[], []⟩ es d) :
    tickets es = (answers es).map Prod.fst ++ d.line.map Prod.fst := by
  induction trace with
  | nil => rfl
  | @snoc es e d d' _ shown ih =>
      rw [tickets_append, answers_append, ih]
      cases shown with
      | @asked t r =>
          have asked : tickets [.asked t r] = [t] ∧ answers [.asked t r] = [] := ⟨rfl, rfl⟩
          simp [asked]
      | @loaded x =>
          have loaded : tickets [.loaded x] = [] ∧ answers [.loaded x] = [] := ⟨rfl, rfl⟩
          simp [loaded]
      | @answered t r reply items line first =>
          have answered : tickets [.answered t r reply] = [] ∧
              answers [.answered t r reply] = [(t, reply)] := ⟨rfl, rfl⟩
          simp [answered, first]

/-- What a step of the controller adds to the replies to a request. -/
theorem produced_news {c : Config HeapList} {output : List Posted} (t : Ticket) :
    ({ s with config := c, output := output, posted := s.posted ++ s.news c } : Server).produced t =
      s.produced t ++ if t = s.current then c.sent.drop s.config.sent.length else [] := by
  unfold Server.produced Server.news
  rw [List.filter_append, List.map_append]
  congr 1
  split
  · next own =>
    rw [List.filter_eq_self.mpr, List.map_map]
    · exact List.map_id' _
    · intro m member
      obtain ⟨reply, -, rfl⟩ := List.mem_map.mp member
      exact decide_eq_true own.symm
  · next other =>
    rw [List.filter_eq_nil_iff.mpr, List.map_nil]
    intro m member
    obtain ⟨reply, -, rfl⟩ := List.mem_map.mp member
    simpa using Ne.symm other

/-- The controller sends something only when it answers a request. -/
theorem sent_answering {a : Action} {c c' : Config HeapList} (ready : c.Ready)
    (h : c.step max a = some c') : c'.sent = c.sent ∨ c.phase = .answering := by
  cases a with
  | request r response =>
      obtain ⟨-, rfl⟩ := Config.step_request h
      exact Or.inl rfl
  | thread tid a => exact Or.inl (thread_silent h).sent
  | signal fopen => exact Or.inl (signal_silent h).sent
  | control o =>
      cases control_progress ready h with
      | silent quiet => exact Or.inl quiet.sent
      | loaded _ sent => exact Or.inl sent
      | report _ answering => exact Or.inr answering
      | respond pc => exact Or.inr (by simp [Config.phase, pc])

/-- The replies to a `STATUS` list the catalogue that the requests before it have left. -/
def Recited (whole : Bool) (n : Noted Server Dealing) (t : Ticket) (r reply : Transaction) : Prop :=
  ∃ before after d, n.events = before ++ .answered t r reply :: after ∧
    service.Trace ⟨[], []⟩ before d ∧ Part whole (listing (n.state.produced t)) d.items

/-- What is known of the replies along a run. -/
structure Telling (whole : Bool) (n : Noted Server Dealing) (d : Desk) : Prop where
  trace : service.Trace ⟨[], []⟩ n.events d
  presents : n.state.Presents d
  now : n.state.config.Lists whole (listing (n.state.produced n.state.current)) d.items
  /-- a reply belongs to a request that is over, or to the one the controller works on -/
  owned : n.state.config.phase ≠ .ending → ∀ m ∈ n.state.posted,
    m.ticket ∈ (answers n.events).map Prod.fst ∨
      n.state.config.phase = .answering ∧ m.ticket = n.state.current
  past : ∀ t r reply, .answered t r reply ∈ n.events → r.command = .status → Recited whole n t r reply

theorem Recited.later {t : Ticket} {r reply : Transaction} {es : List Dealing}
    (recited : Recited whole n t r reply) (events : n'.events = n.events ++ es)
    (produced : n'.state.produced t = n.state.produced t) : Recited whole n' t r reply := by
  obtain ⟨before, after, d, parts, trace, part⟩ := recited
  refine ⟨before, after ++ es, d, ?_, trace, produced ▸ part⟩
  rw [events, parts, List.append_assoc, List.cons_append]

/-- A request that is over is not in the line any more. -/
theorem Telling.not_waiting (inv : Telling whole n d) (numbered : Numbered n) {t : Ticket}
    (answered : t ∈ (answers n.events).map Prod.fst) : t ∉ d.line.map Prod.fst := by
  have nodup := numbered.nodup
  rw [tickets_answers inv.trace] at nodup
  exact List.disjoint_of_nodup_append nodup answered

/-- A step that answers nothing leaves what was told as it is. -/
theorem Telling.past_old {es : List Dealing} (inv : Telling whole n d)
    (events : n'.events = n.events ++ es) (unanswered : answers es = [])
    (produced : ∀ t ∈ (answers n.events).map Prod.fst, n'.state.produced t = n.state.produced t)
    (t : Ticket) (r reply : Transaction) (answered : .answered t r reply ∈ n'.events)
    (status : r.command = .status) : Recited whole n' t r reply := by
  rw [events] at answered
  rcases List.mem_append.mp answered with old | new
  · exact (inv.past t r reply old status).later events
      (produced t (List.mem_map.mpr ⟨(t, reply), mem_answers.mpr ⟨r, old⟩, rfl⟩))
  · have listed : (t, reply) ∈ answers es := mem_answers.mpr ⟨r, new⟩
    rw [unanswered] at listed
    cases listed

/-- A handler puts at most its request on the input queue. -/
theorem Telling.handler {client : Nat} {a : HandlerAction Posted} {d' : Desk}
    (inv : Telling whole n d) (step : n.state.stepHandler client a = some n'.state)
    (events : n'.events = n.events ++ n.state.shown (.handler client a) n'.state)
    (shown : service.Trace d (n.state.shown (.handler client a) n'.state) d')
    (presents : n'.state.Presents d') : Telling whole n' d' := by
  obtain ⟨config, current, posted, asked⟩ := handlerStep step
  have produced (t : Ticket) : n'.state.produced t = n.state.produced t := by
    unfold Server.produced
    rw [posted]
  obtain ⟨items, unanswered⟩ : d'.items = d.items ∧
      answers (n.state.shown (.handler client a) n'.state) = [] := by
    rcases asked with ⟨none, -⟩ | ⟨t, r, one, -⟩
    · rw [none] at shown ⊢
      rw [Component.trace_nil.mp shown]
      exact ⟨rfl, rfl⟩
    · rw [one] at shown ⊢
      cases Component.trace_single.mp shown
      exact ⟨rfl, rfl⟩
  refine ⟨events ▸ inv.trace.append shown, presents, ?_, ?_,
    inv.past_old events unanswered fun t _ => produced t⟩
  · rw [config, current, produced, items]
    exact inv.now
  · rw [config, current, posted, events, answers_append, unanswered, List.append_nil]
    exact inv.owned

/-- Nothing was sent for a request that is taken from the input queue. -/
theorem Telling.serve {response : Transaction} {d' : Desk} (inv : Telling whole n d)
    (numbered : Numbered n) (step : n.state.step max (.serve response) = some n'.state)
    (events : n'.events = n.events) (shown : service.Trace d [] d')
    (presents : n'.state.Presents d') : Telling whole n' d' := by
  obtain ⟨ticket, r, rest, c, input, served, same⟩ := Server.step_serve step
  obtain ⟨idle, dispatched⟩ := Config.step_request served
  have waiting : n.state.config.phase = .idle := by simp [Config.phase, idle]
  have produced (t : Ticket) : n'.state.produced t = n.state.produced t := by rw [same]; rfl
  have fresh : n'.state.produced ticket = [] := by
    rw [produced]
    unfold Server.produced
    rw [List.map_eq_nil_iff, List.filter_eq_nil_iff]
    intro m member own
    have first : ticket ∈ d.line.map Prod.fst := by
      rw [inv.presents.line (by simp [waiting]), input]
      simp
    rcases inv.owned (by simp [waiting]) m member with answered | ⟨answering, -⟩
    · exact inv.not_waiting numbered (of_decide_eq_true own ▸ answered) first
    · rw [waiting] at answering
      cases answering
  refine ⟨?_, presents, ?_, ?_,
    inv.past_old (events.trans (List.append_nil _).symm) rfl fun t _ => produced t⟩
  · rw [events, Component.trace_nil.mp shown]
    exact inv.trace
  · have current : n'.state.current = ticket := by rw [same]
    have config : n'.state.config = c := by rw [same]
    rw [current, config, fresh, dispatched]
    intro _ command
    simp only at command
    simp [command, Command.dispatch, listing]
  · intro _ m member
    have old : m ∈ n.state.posted := by
      rw [same] at member
      exact member
    rw [events]
    rcases inv.owned (by simp [waiting]) m old with answered | ⟨answering, -⟩
    · exact Or.inl answered
    · rw [waiting] at answering
      cases answering

/-- What the controller sends, it sends for the request it works on. -/
theorem Telling.owned_news {a : Action} {c : Config HeapList} (inv : Telling whole n d)
    (other : ∀ r response, a ≠ .request r response) (moved : n.state.config.step max a = some c)
    (going : c.phase ≠ .ending) : ∀ m ∈ n.state.posted ++ n.state.news c,
      m.ticket ∈ (answers n.events).map Prod.fst ∨
        n.state.config.phase = .answering ∧ m.ticket = n.state.current := by
  have ready := inv.presents.exhibits.kept.ready
  have before : n.state.config.phase ≠ .ending := by
    intro ended
    obtain ⟨-, same | ended' | ⟨loading, -⟩ | ⟨o, -, pc⟩⟩ := step_phase ready other moved
    · exact going (same.trans ended)
    · exact going ended'
    · rw [ended] at loading
      cases loading
    · simp [Config.phase, pc] at ended
  intro m member
  rcases List.mem_append.mp member with old | new
  · exact inv.owned before m old
  · obtain ⟨reply, sent, rfl⟩ := List.mem_map.mp new
    rcases sent_answering ready moved with unsent | answering
    · rw [unsent, List.drop_length] at sent
      cases sent
    · exact Or.inr ⟨answering, rfl⟩

/-- A step of the controller tells of one more download, or ends the replies to a request. -/
theorem Telling.controller {a : Action} {d' : Desk} (inv : Telling whole n d) (numbered : Numbered n)
    (sends : ∀ o, a = .control o → whole = true → o.send = true)
    (step : n.state.step max (.controller a) = some n'.state)
    (events : n'.events = n.events ++ n.state.shown (.controller a) n'.state)
    (shown : service.Trace d (n.state.shown (.controller a) n'.state) d')
    (presents : n'.state.Presents d') : Telling whole n' d' := by
  obtain ⟨other, c, moved, same⟩ := Server.step_controller step
  have config : n'.state.config = c := by rw [same]
  have current : n'.state.current = n.state.current := by rw [same]
  have ready := inv.presents.exhibits.kept.ready
  obtain ⟨-, phase⟩ := step_phase ready other moved
  have produced (t : Ticket) : n'.state.produced t = n.state.produced t ++
      if t = n.state.current then c.sent.drop n.state.config.sent.length else [] := by
    rw [same]
    exact produced_news t
  -- the request that is worked on is the first of the line, so it is not over
  have old (t : Ticket) (answered : t ∈ (answers n.events).map Prod.fst) :
      n'.state.produced t = n.state.produced t := by
    rw [produced]
    rcases sent_answering ready moved with sent | answering
    · simp [sent]
    · have line := inv.presents.line (by simp [answering])
      rw [Server.working, if_pos answering] at line
      have first : n.state.current ∈ d.line.map Prod.fst := by simp [line]
      rw [if_neg, List.append_nil]
      rintro rfl
      exact inv.not_waiting numbered answered first
  have lists : c.Lists whole (listing (n'.state.produced n.state.current)) d.items := by
    obtain ⟨held, holds, shows⟩ := inv.presents.exhibits.shows
    rw [produced, if_pos rfl, listing_append]
    exact step_lists inv.presents.exhibits.kept holds shows inv.now sends other moved
  have shows : n.state.shown (.controller a) n'.state =
      (n.state.config.shown a c).map (Shown.dealing n.state.current) := by
    rw [same]
    rfl
  have owned (working : n.state.config.phase = .answering → c.phase ≠ .ending →
      c.phase = .answering ∨ n.state.current ∈ (answers n'.events).map Prod.fst) :
      n'.state.config.phase ≠ .ending → ∀ m ∈ n'.state.posted,
        m.ticket ∈ (answers n'.events).map Prod.fst ∨
          n'.state.config.phase = .answering ∧ m.ticket = n'.state.current := by
    rw [config, current]
    intro going m member
    rw [same] at member
    rcases inv.owned_news other moved going m member with answered | ⟨answering, own⟩
    · rw [events, answers_append, List.map_append]
      exact Or.inl (List.mem_append_left _ answered)
    · rcases working answering going with still | answered
      · exact Or.inr ⟨still, own⟩
      · exact Or.inl (own ▸ answered)
  have trace := events ▸ inv.trace.append shown
  rcases shown_cases a n.state.config c with none | ⟨e, rest, left, pc, pc', one⟩ | ⟨o, rfl, pc, one⟩
  · rw [none, List.map_nil] at shows
    rw [shows] at shown events
    obtain rfl : d' = d := Component.trace_nil.mp shown
    refine ⟨trace, presents, ?_, owned ?_, inv.past_old events rfl old⟩
    · rw [config, current]
      exact lists
    · intro answering going
      rcases phase with same | ended | ⟨loading, -⟩ | ⟨o, rfl, pc⟩
      · exact Or.inl (same.trans answering)
      · exact absurd ended going
      · rw [answering] at loading
        cases loading
      · simp [Config.shown, pc] at none
  · rw [one] at shows
    rw [shows] at events
    have loading : n.state.config.phase = .loading := by simp [Config.phase, pc]
    refine ⟨trace, presents, ?_, owned ?_, inv.past_old events rfl old⟩
    · intro answering
      rw [config] at answering
      simp [Config.phase, pc'] at answering
    · intro answering
      rw [loading] at answering
      cases answering
  · rw [one] at shows
    rw [shows] at events
    have idle : c.phase = .idle := by
      have turn := Config.control_turn moved
      simp only [Config.step, Config.control, pc, Option.some.injEq] at moved
      rw [← moved]
      rfl
    refine ⟨trace, presents, ?_, owned fun _ _ => Or.inr ?_, ?_⟩
    · intro answering
      rw [config, idle] at answering
      cases answering
    · simp [events, answers, Shown.dealing, Dealing.answer?]
    · intro t r reply answered status
      rw [events] at answered
      rcases List.mem_append.mp answered with before | now
      · exact (inv.past t r reply before status).later events
          (old t (List.mem_map.mpr ⟨(t, reply), mem_answers.mpr ⟨r, before⟩, rfl⟩))
      · cases List.mem_singleton.mp now
        refine ⟨n.events, [], d, events, inv.trace, ?_⟩
        have now := inv.now (by simp [Config.phase, pc]) status
        simp only [pc] at now
        obtain ⟨silent, part⟩ := now
        rw [produced, if_pos rfl, listing_append]
        simp only [Config.step, Config.control, pc, Option.some.injEq] at moved
        rw [← moved]
        cases o.send <;> simpa [Config.send, listing, silent] using part

theorem showing_telling (run : (showing max).Run (fun _ a => whole = true → a.Sends)
    ⟨Server.start entries, []⟩ n) : ∃ d, Telling whole n d := by
  refine run.invariant_with (I := fun n => ∃ d, Telling whole n d) (J := Numbered) ?_ ?_ ?_
  · exact fun n run => showing_numbered (run.mono fun _ _ _ => trivial)
  · refine ⟨⟨[], []⟩, .nil, start_presents entries, ?_, ?_, ?_⟩
    · intro answering
      cases answering
    · intro _ m member
      cases member
    · intro t r reply answered
      cases answered
  · rintro n a n' numbered ⟨d, inv⟩ sends step
    obtain ⟨stepped, events⟩ := Machine.noted_step step
    obtain ⟨d', shown, presents⟩ := server_simulates _ _ _ _ inv.presents trivial stepped
    refine ⟨d', ?_⟩
    cases a with
    | handler client a => exact inv.handler stepped events shown presents
    | serve response =>
        exact inv.serve numbered stepped (events.trans (List.append_nil _)) shown presents
    | controller a =>
        refine inv.controller numbered ?_ stepped events shown presents
        rintro o rfl lossless
        exact sends lossless

/-! ### The result -/

/-- When the handlers take their replies in turn, what a client is shown for its `STATUS` are
downloads of the catalogue in which the request was served, in their order; when the controller can
send its replies and the client gets them all, they are all of it. -/
theorem status_lists {client number : Nat} {r reply : Transaction}
    (run : (showing max).Run (fun n a => InTurn n.state a ∧ (whole = true → a.Sends))
      ⟨Server.start entries, []⟩ n)
    (answered : .answered ⟨client, number⟩ r reply ∈ n.events) (status : r.command = .status) :
    ∃ before after d, n.events = before ++ .answered ⟨client, number⟩ r reply :: after ∧
      service.Trace ⟨[], []⟩ before d ∧
      (listing ((n.state.handler client).received number)).Sublist d.items ∧
      (whole = true → (n.state.handler client).Over number →
        (∀ e ∈ (n.state.handler client).exchange number, e.delivered = true) →
        listing ((n.state.handler client).received number) = d.items) := by
  have routed : Routed n.state := (run_consistent (run.mono fun _ _ good => good.1)).routed
  have reachable : (showing max).Reachable ⟨Server.start entries, []⟩ n :=
    run.mono fun _ _ _ => trivial
  obtain ⟨d, inv⟩ := showing_telling (run.mono fun _ _ good => good.2)
  obtain ⟨before, after, d, parts, trace, some, all⟩ := inv.past _ r reply answered status
  refine ⟨before, after, d, parts, trace, ?_, ?_⟩
  · exact ((routed.ordered client number).filterMap _).trans some
  · intro lossless ended delivered
    have asked := (answered_asked inv.trace).2 _ _ _ answered
    have listed : (⟨client, number⟩ : Ticket) ∈ tickets n.events :=
      List.mem_filterMap.mpr ⟨_, asked, rfl⟩
    have positive : 0 < number := ((showing_numbered reachable).known _ listed).1
    rw [routed.whole client number positive ended delivered]
    exact all lossless

/-- What a `STATUS` tells of a download that was put into the queue and is starting. -/
def starting : Transaction :=
  setTransactionData .zero .status .processing ['a']
    { entryNew with id := ⟨['a']⟩, url := ['x', '/', 'a'], status := .starting }

/-- One client puts a file into the queue, and another is shown it. -/
def oneListed : List ServerAction :=
  List.replicate 3 (.controller (.control {})) ++
    [.handler 1 (.request (download ['a'] ['x', '/', 'a']) [.ok ()]),
      .handler 2 (.request (order .status []) [.ok ()])] ++ serves 7 ++ serves 4 ++
    [relays 1 ⟨⟨1, 1⟩, addedReply (download ['a'] ['x', '/', 'a']), true⟩,
      relays 2 ⟨⟨2, 1⟩, starting, false⟩,
      relays 2 ⟨⟨2, 1⟩, reply (order .status []) .success [], true⟩]

theorem status_lists_run : ∃ n : Noted Server Dealing,
    (showing 1).Run (fun n a => InTurn n.state a ∧ (true = true → a.Sends))
      ⟨Server.start [], []⟩ n ∧
      listing ((n.state.handler 2).received 1) = [⟨['a'], ['x', '/', 'a']⟩] ∧
      ∃ before after d, n.events = before ++
          .answered ⟨2, 1⟩ (order .status []) (reply (order .status []) .success []) :: after ∧
        service.Trace ⟨[], []⟩ before d ∧
        (listing ((n.state.handler 2).received 1)).Sublist d.items ∧
        (true = true → (n.state.handler 2).Over 1 →
          (∀ e ∈ (n.state.handler 2).exchange 1, e.delivered = true) →
          listing ((n.state.handler 2).received 1) = d.items) := by
  obtain ⟨n, run, shown, answered⟩ := Machine.exists_run_of_exec (showing 1)
    (fun n a => InTurn n.state a ∧ (true = true → a.Sends)) ⟨Server.start [], []⟩ oneListed
    (fun n => listing ((n.state.handler 2).received 1) = [⟨['a'], ['x', '/', 'a']⟩] ∧
      .answered ⟨2, 1⟩ (order .status []) (reply (order .status []) .success []) ∈ n.events)
    (by decide)
  exact ⟨n, run, shown, status_lists run answered rfl⟩

end

end Dserve
