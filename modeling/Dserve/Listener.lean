import Dserve.Lib.Descriptors
import Dserve.Service

/-!
`server.c`: `run_server`, and the processes it forks.

The listening process accepts connections and forks a handler for each. A handler starts with a copy
of the descriptors of the listening process; at its end it closes the listening socket, and not the
one of its client. The listening process never closes a connection either. So each connection is
served by one process (`connections_served`), it stays open as long as the daemon listens
(`connections_held`), and the number of connections that can ever be accepted is the number of
descriptors that were free at the start (`connections_bounded`).
-/

namespace Dserve

/-- What a descriptor refers to: a file that was open before `run_server`, the listening socket, or
the connection that was accepted as the given one, from 0 on. -/
inductive Socket where
  | inherited
  | listening
  | client (n : Nat)
deriving DecidableEq

/-- A handler process: the connection it was forked for, `client_connection->socket`, and its
descriptors until it ends. -/
structure Process where
  client : Nat
  socket : Nat
  descriptors : Option (Descriptors Socket)
deriving DecidableEq

inductive ListenerPc where
  | opening
  | accepting
  /-- `connection_accept` has returned a connection with this socket -/
  | forking (socket : Nat)
deriving DecidableEq

/-- The listening process, until it ends, with `connection->socket`; the processes it has forked;
and what the handlers and the controller do. -/
structure Daemon where
  pc : ListenerPc
  connection : Nat
  descriptors : Option (Descriptors Socket)
  clients : Nat
  children : List Process
  server : Server

inductive DaemonAction where
  /-- `connection_new` and `connection_open`, with the results of their system calls -/
  | listen (malloc socket bind listen : Bool)
  | accept (malloc accept : Bool)
  | fork (fork : Bool)
  /-- a signal ends the listening process -/
  | terminate
  | handler (pid : Nat) (a : HandlerAction Posted)
  | exit (pid : Nat)
  | serve (response : Transaction)
  | controller (a : Action)
deriving DecidableEq

namespace Daemon

def ended (d : Daemon) : Daemon := { d with descriptors := none }

/-- What a handler has open after a step: `connection_close` is given the listening socket, and a
process that dies closes everything. -/
def afterStep (connection : Nat) (t : Descriptors Socket) :
    HandlerAction Posted → Option (Descriptors Socket)
  | .request _ _ => some t
  | .relay _ _ => some t
  | .close => some (t.close connection)
  | .die => none

/-- A handler works on the connection its socket refers to. -/
def stepChild (max : Nat) (d : Daemon) (pid : Nat) (p : Process) (t : Descriptors Socket)
    (a : HandlerAction Posted) : Option Daemon :=
  match t.get p.socket with
  | some (.client n) => (d.server.step max (.handler n a)).map fun s => { d with
      server := s
      children := d.children.set pid { p with descriptors := afterStep d.connection t a } }
  | _ => none

def exitChild (d : Daemon) (pid : Nat) (p : Process) (t : Descriptors Socket) : Option Daemon :=
  match t.get p.socket with
  | some (.client n) =>
      if (d.server.handler n).pc = .closed then
        some { d with children := d.children.set pid { p with descriptors := none } }
      else none
  | _ => none

def step (limit max : Nat) (d : Daemon) : DaemonAction → Option Daemon
  | .listen malloc socket bind listen =>
      match d.pc, d.descriptors with
      | .opening, some t =>
          if malloc then
            match if socket then t.alloc limit .listening else none with
            | some (fd, t) =>
                if bind && listen then
                  some { d with pc := .accepting, connection := fd, descriptors := some t }
                else some d.ended
            | none => some d.ended
          else some d.ended
      | _, _ => none
  | .accept malloc accept =>
      match d.pc, d.descriptors with
      | .accepting, some t =>
          -- `connection_accept` stores the socket where `malloc` has pointed
          if malloc then
            match if accept then t.alloc limit (.client d.clients) else none with
            | some (fd, t) =>
                some { d with pc := .forking fd, descriptors := some t, clients := d.clients + 1 }
            | none => some d
          else some d.ended
      | _, _ => none
  | .fork fork =>
      match d.pc, d.descriptors with
      | .forking socket, some t => some { d with
          pc := .accepting
          -- `ret` is a `bool`: a fork that fails is taken for one that does not
          children := if fork then d.children ++ [⟨d.clients - 1, socket, some t⟩] else d.children }
      | _, _ => none
  | .terminate => if d.descriptors.isSome then some d.ended else none
  | .handler pid a => d.children[pid]?.bind fun p => p.descriptors.bind fun t =>
      d.stepChild max pid p t a
  | .exit pid => d.children[pid]?.bind fun p => p.descriptors.bind fun t => d.exitChild pid p t
  | .serve response => (d.server.step max (.serve response)).map fun s => { d with server := s }
  | .controller a => (d.server.step max (.controller a)).map fun s => { d with server := s }

/-- The files that are open when `run_server` is called. -/
def files (used : List Bool) : Descriptors Socket :=
  ⟨used.map fun used => if used then some .inherited else none⟩

def start (used : List Bool) (entries : List Entry) : Daemon where
  pc := .opening
  connection := 0
  descriptors := some (files used)
  clients := 0
  children := []
  server := Server.start entries

end Daemon

/-- The daemon, for a process that may open so many descriptors. -/
def daemon (limit max : Nat) : Machine Daemon DaemonAction := ⟨Daemon.step limit max⟩

/-- The sockets the listening process has opened, in their order. -/
def sockets (clients : Nat) : List Socket := .listening :: (List.range clients).map .client

theorem sockets_length (clients : Nat) : (sockets clients).length = clients + 1 := by
  simp [sockets]

theorem sockets_succ (clients : Nat) : sockets clients ++ [.client clients] = sockets (clients + 1) := by
  simp [sockets, List.range_succ]

theorem sockets_client {clients n : Nat} (below : n < clients) :
    (sockets clients)[n + 1]? = some (.client n) := by
  simp [sockets, below]

theorem mem_sockets {clients i n : Nat} : (sockets clients)[i]? = some (.client n) →
    n < clients ∧ i = n + 1 := by
  intro found
  cases i with
  | zero => simp [sockets] at found
  | succ i =>
      simp only [sockets, List.getElem?_cons_succ, List.getElem?_map, Option.map_eq_some_iff] at found
      obtain ⟨k, place, same⟩ := found
      cases same
      obtain ⟨below, same⟩ := List.getElem?_eq_some_iff.mp place
      rw [List.getElem_range] at same
      subst same
      exact ⟨by simpa using below, rfl⟩

/-! ### The invariant -/

/-- The handler has neither ended its loop nor died in it. -/
def Handler.Alive {μ : Type} (h : Handler μ) : Prop := h.pc ≠ .closed ∧ h.pc ≠ .killed

/-- The descriptors of a handler are those of the listening process when it was forked; at its end
it has closed the listening socket. -/
structure Process.Sound (t₀ : Descriptors Socket) (limit connection : Nat) (s : Server)
    (p : Process) : Prop where
  socket : p.socket = Nat.nth t₀.Free (p.client + 1)
  bound : p.socket < limit
  descriptors : ∀ t, p.descriptors = some t → ∃ u, Descriptors.Filled t₀ (sockets (p.client + 1)) u ∧
    (t = u ∧ (s.handler p.client).Alive ∨ t = u.close connection ∧ (s.handler p.client).pc = .closed)

/-- The sockets the listening process has opened. -/
def Daemon.opened (d : Daemon) : List Socket := if d.pc = .opening then [] else sockets d.clients

/-- The descriptors of the processes, in terms of those that were free at the start. -/
structure Daemon.Sound (t₀ : Descriptors Socket) (limit : Nat) (d : Daemon) : Prop where
  listener : ∀ t, d.descriptors = some t → t₀.Filled d.opened t
  connection : d.pc ≠ .opening → d.connection = Nat.nth t₀.Free 0 ∧
    d.clients < Nat.count t₀.Free limit
  none : d.pc = .opening → d.clients = 0
  forking : ∀ socket, d.pc = .forking socket → socket = Nat.nth t₀.Free d.clients ∧ socket < limit ∧
    0 < d.clients ∧ ∀ p ∈ d.children, p.client + 1 < d.clients
  order : (d.children.map Process.client).Pairwise (· < ·)
  children : ∀ p ∈ d.children, p.client < d.clients ∧ p.Sound t₀ limit d.connection d.server
  fresh : ∀ n, n ∉ d.children.map Process.client → d.server.handler n = Handler.start

section

variable {t₀ t u : Descriptors Socket} {limit max connection n pid : Nat} {s s' : Server}
  {d d' : Daemon} {p p' : Process}

/-- A handler has one descriptor for each connection up to its own. -/
theorem sockets_filled {i : Nat} (only : ∀ i x, t₀.get i = some x → x = .inherited)
    (filled : t₀.Filled (sockets n) u) {k : Nat} :
    u.get i = some (.client k) ↔ k < n ∧ i = Nat.nth t₀.Free (k + 1) := by
  rw [filled i]
  constructor
  · intro found
    split at found
    · next free =>
      obtain ⟨below, place⟩ := mem_sockets found
      exact ⟨below, by rw [← place, Nat.nth_count free]⟩
    · cases only i _ found
  · rintro ⟨below, rfl⟩
    rw [if_pos (Nat.nth_mem_of_infinite t₀.infinite_free _),
      Nat.count_nth_of_infinite t₀.infinite_free, sockets_client below]

/-- The listening socket has the first of them. -/
theorem listening_filled {i : Nat} (only : ∀ i x, t₀.get i = some x → x = .inherited)
    (filled : t₀.Filled (sockets n) u) : u.get i = some .listening ↔ i = Nat.nth t₀.Free 0 := by
  rw [filled i]
  constructor
  · intro found
    split at found
    · next free =>
      cases place : Nat.count t₀.Free i with
      | zero => rw [← place, Nat.nth_count free]
      | succ k =>
          rw [place] at found
          simp [sockets] at found
    · cases only i _ found
  · rintro rfl
    rw [if_pos (Nat.nth_mem_of_infinite t₀.infinite_free _),
      Nat.count_nth_of_infinite t₀.infinite_free]
    rfl

section

variable {i k : Nat} (only : ∀ i x, t₀.get i = some x → x = .inherited)
  (opened : connection = Nat.nth t₀.Free 0) (inv : p.Sound t₀ limit connection s)
  (alive : p.descriptors = some t)

include only opened inv alive

/-- A process has the connections up to its own. -/
theorem Process.Sound.get_client :
    t.get i = some (.client k) ↔ k ≤ p.client ∧ i = Nat.nth t₀.Free (k + 1) := by
  obtain ⟨u, filled, same⟩ := inv.descriptors t alive
  have all := sockets_filled (i := i) (k := k) only filled
  rw [Nat.lt_succ_iff] at all
  rcases same with ⟨rfl, -⟩ | ⟨rfl, -⟩
  · exact all
  · rw [Descriptors.get_close]
    split
    · next same =>
      constructor
      · intro found
        cases found
      · rintro ⟨-, place⟩
        cases Nat.nth_injective t₀.infinite_free ((opened.symm.trans same.symm).trans place)
    · exact all

/-- It has the listening socket until its loop has ended. -/
theorem Process.Sound.get_listening :
    t.get i = some .listening ↔ i = Nat.nth t₀.Free 0 ∧ (s.handler p.client).pc ≠ .closed := by
  obtain ⟨u, filled, ⟨rfl, running, -⟩ | ⟨rfl, closed⟩⟩ := inv.descriptors t alive
  · rw [listening_filled only filled]
    exact (and_iff_left running).symm
  · rw [Descriptors.get_close, closed]
    split
    · simp
    · next other =>
      rw [listening_filled only filled]
      simp [← opened, other]

/-- A process works on the connection it was forked for. -/
theorem Process.Sound.client : t.get p.socket = some (.client p.client) :=
  (inv.get_client only opened alive).mpr ⟨Nat.le_refl _, inv.socket⟩

end

/-- A process does not notice what other handlers do. -/
theorem Process.Sound.frame (inv : p.Sound t₀ limit connection s)
    (same : s'.handler p.client = s.handler p.client) : p.Sound t₀ limit connection s' :=
  ⟨inv.socket, inv.bound, same ▸ inv.descriptors⟩

/-- A process that has ended. -/
theorem Process.Sound.ended (inv : p.Sound t₀ limit connection s) :
    Process.Sound t₀ limit connection s' { p with descriptors := none } :=
  ⟨inv.socket, inv.bound, fun _ alive => (by cases alive)⟩

/-- The steps of the queues leave the processes alone. -/
theorem Daemon.Sound.frame (inv : d.Sound t₀ limit) (same : s.handler = d.server.handler) :
    Daemon.Sound t₀ limit { d with server := s } := by
  refine ⟨inv.listener, inv.connection, inv.none, inv.forking, inv.order, fun p member => ?_, ?_⟩
  · obtain ⟨below, sound⟩ := inv.children p member
    exact ⟨below, sound.frame (by rw [same])⟩
  · intro n absent
    show s.handler n = Handler.start
    rw [same]
    exact inv.fresh n absent

/-- Putting back a process that was forked for the same connection changes no other. -/
theorem Daemon.Sound.set (inv : d.Sound t₀ limit) (here : d.children[pid]? = some p)
    (client : p'.client = p.client) (sound : p'.Sound t₀ limit d.connection s)
    (same : ∀ n, n ≠ p.client → s.handler n = d.server.handler n) :
    Daemon.Sound t₀ limit { d with server := s, children := d.children.set pid p' } := by
  have member := List.mem_of_getElem? here
  have clients : (d.children.set pid p').map Process.client = d.children.map Process.client := by
    apply List.ext_getElem?
    intro i
    rw [List.map_set, List.getElem?_set]
    split
    · next own =>
      subst own
      obtain ⟨inside, -⟩ := List.getElem?_eq_some_iff.mp here
      rw [if_pos (by simpa using inside), List.getElem?_map, here, Option.map_some, client]
    · rfl
  refine ⟨inv.listener, inv.connection, inv.none, ?_, clients ▸ inv.order, ?_, ?_⟩
  · intro socket pc
    obtain ⟨place, bound, some_client, before⟩ := inv.forking socket pc
    refine ⟨place, bound, some_client, fun q hq => ?_⟩
    rcases List.mem_or_eq_of_mem_set hq with old | rfl
    · exact before q old
    · rw [client]
      exact before p member
  · intro q hq
    obtain ⟨i, place⟩ := List.mem_iff_getElem?.mp hq
    rw [List.getElem?_set] at place
    split at place
    · split at place
      · cases place
        exact ⟨client ▸ (inv.children p member).1, sound⟩
      · cases place
    · next other =>
      obtain ⟨below, old⟩ := inv.children q (List.mem_of_getElem? place)
      refine ⟨below, old.frame (same _ fun equal => other ?_)⟩
      -- no two processes were forked for one connection
      have distinct : (d.children.map Process.client).Nodup := inv.order.imp Nat.ne_of_lt
      obtain ⟨inside, -⟩ := List.getElem?_eq_some_iff.mp here
      apply (List.getElem?_inj (by simpa using inside) distinct).mp
      rw [List.getElem?_map, List.getElem?_map, here, place, Option.map_some, Option.map_some, equal]
  · intro n absent
    rw [clients] at absent
    have other : n ≠ p.client := fun equal => absent (equal ▸ List.mem_map_of_mem member)
    rw [same n other]
    exact inv.fresh n absent

/-- Nothing else changes when the listening process ends. -/
theorem Daemon.Sound.terminated (inv : d.Sound t₀ limit) : d.ended.Sound t₀ limit :=
  ⟨fun _ alive => (by cases alive), inv.connection, inv.none, inv.forking, inv.order, inv.children,
    inv.fresh⟩

theorem listen_sound {malloc socket bind listen : Bool} (inv : d.Sound t₀ limit)
    (h : d.step limit max (.listen malloc socket bind listen) = some d') : d'.Sound t₀ limit := by
  simp only [Daemon.step] at h
  split at h
  · next t pc alive =>
    split at h
    · split at h
      · next fd t' opened =>
        split at h
        · cases h
          have opened : t.alloc limit .listening = some (fd, t') := by
            split at opened
            · exact opened
            · cases opened
          have filled := inv.listener t alive
          rw [Daemon.opened, if_pos pc] at filled
          obtain ⟨filled, place⟩ := filled.alloc opened
          have none := inv.none pc
          have empty : d.children = [] := by
            apply List.eq_nil_iff_forall_not_mem.mpr
            intro p member
            have below := (inv.children p member).1
            omega
          refine ⟨?_, ?_, ?_, ?_, inv.order, ?_, inv.fresh⟩
          · intro t same
            cases same
            simpa [Daemon.opened, none, sockets] using filled
          · intro _
            refine ⟨place, ?_⟩
            show d.clients < _
            rw [none, Nat.lt_nth_iff_count_lt t₀.infinite_free]
            exact place ▸ (Descriptors.alloc_opens opened).bound
          · intro opening
            cases opening
          · intro socket forking
            cases forking
          · intro p member
            simp [empty] at member
        · cases h
          exact inv.terminated
      · cases h
        exact inv.terminated
    · cases h
      exact inv.terminated
  · cases h

theorem accept_sound {malloc accept : Bool} (inv : d.Sound t₀ limit)
    (h : d.step limit max (.accept malloc accept) = some d') : d'.Sound t₀ limit := by
  simp only [Daemon.step] at h
  split at h
  · next t pc alive =>
    split at h
    · split at h
      · next fd t' opened =>
        cases h
        have opened : t.alloc limit (.client d.clients) = some (fd, t') := by
          split at opened
          · exact opened
          · cases opened
        have filled := inv.listener t alive
        rw [Daemon.opened, if_neg (by simp [pc])] at filled
        obtain ⟨filled, place⟩ := filled.alloc opened
        rw [sockets_length] at place
        have bound := (Descriptors.alloc_opens opened).bound
        obtain ⟨connection, -⟩ := inv.connection (by simp [pc])
        refine ⟨?_, ?_, ?_, ?_, inv.order, ?_, inv.fresh⟩
        · intro t same
          cases same
          simpa [Daemon.opened, sockets_succ] using filled
        · intro _
          refine ⟨connection, ?_⟩
          show d.clients + 1 < _
          rw [Nat.lt_nth_iff_count_lt t₀.infinite_free, ← place]
          exact bound
        · intro opening
          cases opening
        · intro socket forking
          cases forking
          refine ⟨place, bound, Nat.succ_pos _, fun p member => ?_⟩
          have below := (inv.children p member).1
          show p.client + 1 < d.clients + 1
          omega
        · intro p member
          obtain ⟨below, sound⟩ := inv.children p member
          exact ⟨Nat.lt_succ_of_lt below, sound⟩
      · cases h
        exact inv
    · cases h
      exact inv.terminated
  · cases h

theorem fork_sound {fork : Bool} (inv : d.Sound t₀ limit)
    (h : d.step limit max (.fork fork) = some d') : d'.Sound t₀ limit := by
  simp only [Daemon.step] at h
  split at h
  · next socket t pc alive =>
    cases h
    have filled := inv.listener t alive
    obtain ⟨connection, count⟩ := inv.connection (by simp [pc])
    obtain ⟨place, bound, some_client, before⟩ := inv.forking socket pc
    rw [Daemon.opened, if_neg (by simp [pc])] at filled
    have last : d.clients - 1 + 1 = d.clients := Nat.sub_add_cancel some_client
    have absent : d.clients - 1 ∉ d.children.map Process.client := by
      intro member
      obtain ⟨p, hp, same⟩ := List.mem_map.mp member
      have below := before p hp
      omega
    refine ⟨?_, fun _ => ⟨connection, count⟩, ?_, ?_, ?_, ?_, ?_⟩
    · intro t' same
      cases alive.symm.trans same
      simpa [Daemon.opened] using filled
    · intro opening
      cases opening
    · intro socket forking
      cases forking
    · cases fork with
      | false => exact inv.order
      | true =>
          simp only [if_true, List.map_append, List.map_cons, List.map_nil]
          refine List.pairwise_append.mpr ⟨inv.order, List.pairwise_singleton _ _, ?_⟩
          intro n member k mem
          obtain ⟨p, hp, rfl⟩ := List.mem_map.mp member
          cases List.mem_singleton.mp mem
          have below := before p hp
          show p.client < d.clients - 1
          omega
    · intro p member
      have cases : p ∈ d.children ∨ p = ⟨d.clients - 1, socket, some t⟩ := by
        cases fork with
        | false => exact Or.inl member
        | true => exact List.mem_append.mp member |>.imp id List.mem_singleton.mp
      rcases cases with old | rfl
      · exact inv.children p old
      · refine ⟨Nat.sub_lt some_client Nat.one_pos, ?_, bound, ?_⟩
        · show socket = Nat.nth t₀.Free (d.clients - 1 + 1)
          rw [last]
          exact place
        · intro t' same
          cases same
          refine ⟨t, last.symm ▸ filled, Or.inl ⟨rfl, ?_⟩⟩
          show (d.server.handler (d.clients - 1)).Alive
          rw [inv.fresh _ absent]
          exact ⟨by simp [Handler.start], by simp [Handler.start]⟩
    · intro n absent
      apply inv.fresh
      cases fork with
      | false => exact absent
      | true =>
          intro old
          refine absent ?_
          simp only [if_true, List.map_append]
          exact List.mem_append_left _ old
  · cases h

/-- A step of a handler, or its end. -/
theorem stepChild_sound {a : HandlerAction Posted} (only : ∀ i x, t₀.get i = some x → x = .inherited)
    (inv : d.Sound t₀ limit) (here : d.children[pid]? = some p) (alive : p.descriptors = some t)
    (h : d.stepChild max pid p t a = some d') : d'.Sound t₀ limit := by
  obtain ⟨below, sound⟩ := inv.children p (List.mem_of_getElem? here)
  obtain ⟨opened, -⟩ := inv.connection fun opening => by
    rw [inv.none opening] at below
    cases below
  have own := sound.client only opened alive
  rw [Daemon.stepChild, own] at h
  obtain ⟨s, moved, rfl⟩ := Option.map_eq_some_iff.mp h
  obtain ⟨h', moves, handlers⟩ := Server.step_handler moved
  have others : ∀ n, n ≠ p.client → s.handler n = d.server.handler n := by
    intro n other
    rw [handlers, Function.update_of_ne other]
  have mine : s.handler p.client = h' := by rw [handlers, Function.update_self]
  obtain ⟨u, filled, state⟩ := sound.descriptors t alive
  refine inv.set here rfl ?_ others
  cases moves with
  | request reading =>
      rcases state with ⟨rfl, -⟩ | ⟨-, closed⟩
      · refine ⟨sound.socket, sound.bound, fun t' same => ?_⟩
        cases same
        exact ⟨t, filled, Or.inl ⟨rfl, by rw [mine]; exact ⟨by simp, by simp⟩⟩⟩
      · rw [reading] at closed
        cases closed
  | @relay calls delivered taken reply relaying received =>
      rcases state with ⟨rfl, -⟩ | ⟨-, closed⟩
      · refine ⟨sound.socket, sound.bound, fun t' same => ?_⟩
        cases same
        refine ⟨t, filled, Or.inl ⟨rfl, ?_⟩⟩
        rw [mine]
        by_cases more : reply.status = .processing <;> simp [Handler.Alive, Handler.turn, more]
      · rw [relaying] at closed
        cases closed
  | close reading =>
      rcases state with ⟨rfl, -⟩ | ⟨-, closed⟩
      · refine ⟨sound.socket, sound.bound, fun t' same => ?_⟩
        cases same
        exact ⟨t, filled, Or.inr ⟨rfl, by rw [mine]⟩⟩
      · rw [reading] at closed
        cases closed
  | die => exact sound.ended

theorem exitChild_sound (inv : d.Sound t₀ limit) (here : d.children[pid]? = some p)
    (h : d.exitChild pid p t = some d') : d'.Sound t₀ limit := by
  obtain ⟨below, sound⟩ := inv.children p (List.mem_of_getElem? here)
  unfold Daemon.exitChild at h
  split at h
  · split at h
    · cases h
      exact inv.set here rfl sound.ended fun _ _ => rfl
    · cases h
  · cases h

theorem daemon_sound {a : DaemonAction} (only : ∀ i x, t₀.get i = some x → x = .inherited)
    (inv : d.Sound t₀ limit) (h : d.step limit max a = some d') : d'.Sound t₀ limit := by
  cases a with
  | listen malloc socket bind listen => exact listen_sound inv h
  | accept malloc accept => exact accept_sound inv h
  | fork fork => exact fork_sound inv h
  | terminate =>
      simp only [Daemon.step] at h
      split at h
      · cases h
        exact inv.terminated
      · cases h
  | handler pid a =>
      obtain ⟨p, here, h⟩ := Option.bind_eq_some_iff.mp h
      obtain ⟨t, alive, h⟩ := Option.bind_eq_some_iff.mp h
      exact stepChild_sound only inv here alive h
  | exit pid =>
      obtain ⟨p, here, h⟩ := Option.bind_eq_some_iff.mp h
      obtain ⟨t, alive, h⟩ := Option.bind_eq_some_iff.mp h
      exact exitChild_sound inv here h
  | serve response =>
      obtain ⟨s, moved, rfl⟩ := Option.map_eq_some_iff.mp h
      obtain ⟨ticket, r, rest, c, -, -, rfl⟩ := Server.step_serve moved
      exact inv.frame rfl
  | controller a =>
      obtain ⟨s, moved, rfl⟩ := Option.map_eq_some_iff.mp h
      obtain ⟨-, c, -, rfl⟩ := Server.step_controller moved
      exact inv.frame rfl

theorem files_inherited (used : List Bool) (i : Nat) (x : Socket)
    (found : (Daemon.files used).get i = some x) : x = .inherited := by
  simp only [Daemon.files, Descriptors.get, List.getD_eq_getElem?_getD, List.getElem?_map] at found
  cases here : used[i]? with
  | none => simp [here] at found
  | some open_file => cases open_file <;> simp_all

theorem start_sound (used : List Bool) (entries : List Entry) :
    (Daemon.start used entries).Sound (Daemon.files used) limit where
  listener t same := by
    cases same
    exact Descriptors.filled_nil _
  connection opened := absurd rfl opened
  none _ := rfl
  forking socket pc := by cases pc
  order := List.Pairwise.nil
  children p member := by cases member
  fresh _ _ := rfl

/-- The queues and the controller are those of the server. -/
theorem daemon_part (a : DaemonAction) (h : d.step limit max a = some d') :
    d'.server = d.server ∨ ∃ b, d.server.step max b = some d'.server := by
  cases a with
  | listen malloc socket bind listen =>
      simp only [Daemon.step] at h
      split at h
      · repeat' split at h
        all_goals cases h; exact Or.inl rfl
      · cases h
  | accept malloc accept =>
      simp only [Daemon.step] at h
      split at h
      · repeat' split at h
        all_goals cases h; exact Or.inl rfl
      · cases h
  | fork fork =>
      simp only [Daemon.step] at h
      split at h
      · cases h
        exact Or.inl rfl
      · cases h
  | terminate =>
      simp only [Daemon.step] at h
      split at h
      · cases h
        exact Or.inl rfl
      · cases h
  | handler pid a =>
      obtain ⟨p, -, h⟩ := Option.bind_eq_some_iff.mp h
      obtain ⟨t, -, h⟩ := Option.bind_eq_some_iff.mp h
      unfold Daemon.stepChild at h
      split at h
      · obtain ⟨s, moved, rfl⟩ := Option.map_eq_some_iff.mp h
        exact Or.inr ⟨_, moved⟩
      · cases h
  | exit pid =>
      obtain ⟨p, -, h⟩ := Option.bind_eq_some_iff.mp h
      obtain ⟨t, -, h⟩ := Option.bind_eq_some_iff.mp h
      unfold Daemon.exitChild at h
      split at h
      · split at h
        · cases h
          exact Or.inl rfl
        · cases h
      · cases h
  | serve response | controller a =>
      obtain ⟨s, moved, rfl⟩ := Option.map_eq_some_iff.mp h
      exact Or.inr ⟨_, moved⟩

theorem reachable_sound {used : List Bool} {entries : List Entry}
    (run : (daemon limit max).Reachable (Daemon.start used entries) d) :
    d.Sound (Daemon.files used) limit :=
  Machine.Run.invariant run (start_sound used entries)
    fun _ _ _ inv _ step => daemon_sound (files_inherited used) inv step

/-- There is a process that has the socket open. -/
def Daemon.Holds (d : Daemon) (x : Socket) : Prop :=
  ∃ t, (d.descriptors = some t ∨ ∃ p ∈ d.children, p.descriptors = some t) ∧ ∃ fd, t.get fd = some x

end

/-! ### The results -/

section

variable {limit max : Nat} {used : List Bool} {entries : List Entry} {d : Daemon}

/-- The processes are the handlers of the server: each works on a connection of its own, which was
accepted, and a connection without a process sends no request. -/
theorem connections_served (run : (daemon limit max).Reachable (Daemon.start used entries) d) :
    (server max).Reachable (Server.start entries) d.server ∧
      (d.children.map Process.client).Pairwise (· < ·) ∧
      (∀ p ∈ d.children, p.client < d.clients ∧
        ∀ t, p.descriptors = some t → t.get p.socket = some (.client p.client)) ∧
      ∀ n, d.server.handler n ≠ Handler.start → ∃ p ∈ d.children, p.client = n := by
  have inv := reachable_sound run
  refine ⟨run.part Daemon.server fun _ a _ step => daemon_part a step, inv.order, ?_, ?_⟩
  · intro p member
    obtain ⟨below, sound⟩ := inv.children p member
    refine ⟨below, fun t alive => sound.client (files_inherited used) ?_ alive⟩
    refine (inv.connection fun opening => ?_).1
    rw [inv.none opening] at below
    cases below
  · intro n busy
    by_contra absent
    refine busy (inv.fresh n fun member => absent ?_)
    obtain ⟨p, hp, same⟩ := List.mem_map.mp member
    exact ⟨p, hp, same⟩

/-- The first client sends a request and goes away, and the second has just connected. -/
def twoConnections : List DaemonAction :=
  [.listen true true true true, .accept true true, .fork true,
    .handler 0 (.request (order .pause ['a']) [.ok ()])] ++
    (List.replicate 3 (.controller (.control {})) ++ [.serve .zero] ++
      List.replicate 2 (.controller (.control {}))) ++
    [.handler 0 (.relay [.ok (refusal ⟨0, 1⟩ ['a'])] true), .handler 0 .close, .exit 0,
      .accept true true, .fork true]

theorem connections_served_run : ∃ d : Daemon,
    (daemon 6 1).Reachable (Daemon.start [true, true, true] []) d ∧
      (d.clients = 2 ∧ d.children.map Process.client = [0, 1] ∧
        (d.server.handler 0).received 1 = [notFoundReply (order .pause ['a'])]) ∧
      (server 1).Reachable (Server.start []) d.server ∧
      (d.children.map Process.client).Pairwise (· < ·) ∧
      (∀ p ∈ d.children, p.client < d.clients ∧
        ∀ t, p.descriptors = some t → t.get p.socket = some (.client p.client)) ∧
      ∀ n, d.server.handler n ≠ Handler.start → ∃ p ∈ d.children, p.client = n := by
  obtain ⟨d, run, got⟩ := Machine.exists_run_of_exec (daemon 6 1) (fun _ _ => True)
    (Daemon.start [true, true, true] []) twoConnections
    (fun d => d.clients = 2 ∧ d.children.map Process.client = [0, 1] ∧
      (d.server.handler 0).received 1 = [notFoundReply (order .pause ['a'])]) (by decide)
  exact ⟨d, run, got, connections_served run⟩

/-- The listening process gives away the descriptors that were free at the start, one after the
other: each connection has its own, whether there is a handler for it or not. It can accept a
connection as long as one of them is left below the limit. -/
theorem connections_bounded (run : (daemon limit max).Reachable (Daemon.start used entries) d) :
    (d.pc ≠ .opening → d.clients < Nat.count (Daemon.files used).Free limit) ∧
      (∀ t, d.descriptors = some t → ∀ n < d.clients, ∀ fd, t.get fd = some (.client n) ↔
        fd = Nat.nth (Daemon.files used).Free (n + 1)) ∧
      (∀ p ∈ d.children, p.socket = Nat.nth (Daemon.files used).Free (p.client + 1) ∧
        p.socket < limit) ∧
      (d.pc = .accepting → d.descriptors ≠ none →
        ((∃ d', (daemon limit max).step d (.accept true true) = some d' ∧
            d'.clients = d.clients + 1) ↔
          d.clients + 1 < Nat.count (Daemon.files used).Free limit)) := by
  have inv := reachable_sound run
  refine ⟨fun opened => (inv.connection opened).2, ?_, ?_, ?_⟩
  · intro t here n below fd
    have opened : d.pc ≠ .opening := fun opening => by
      rw [inv.none opening] at below
      cases below
    have filled := inv.listener t here
    rw [Daemon.opened, if_neg opened] at filled
    exact (sockets_filled (files_inherited used) filled).trans (and_iff_right below)
  · intro p member
    obtain ⟨-, sound⟩ := inv.children p member
    exact ⟨sound.socket, sound.bound⟩
  · intro pc alive
    obtain ⟨t, here⟩ := Option.ne_none_iff_exists'.mp alive
    have filled := inv.listener t here
    rw [Daemon.opened, if_neg (by simp [pc])] at filled
    have full : t.alloc limit (.client d.clients) = none ↔ _ := filled.alloc_eq_none
    rw [sockets_length] at full
    rw [← Nat.not_le, ← full]
    simp only [daemon, Daemon.step, pc, here, if_true]
    cases t.alloc limit (.client d.clients) with
    | none => simp
    | some r => simp

/-- With six descriptors, a third connection is not accepted, although the first client has gone. -/
theorem connections_bounded_run : ∃ d : Daemon,
    (daemon 6 1).Reachable (Daemon.start [true, true, true] []) d ∧
      (d.clients = 2 ∧ d.pc = .accepting) ∧
      (d.pc ≠ .opening → d.clients < Nat.count (Daemon.files [true, true, true]).Free 6) ∧
      (∀ t, d.descriptors = some t → ∀ n < d.clients, ∀ fd, t.get fd = some (.client n) ↔
        fd = Nat.nth (Daemon.files [true, true, true]).Free (n + 1)) ∧
      (∀ p ∈ d.children,
        p.socket = Nat.nth (Daemon.files [true, true, true]).Free (p.client + 1) ∧ p.socket < 6) ∧
      (d.pc = .accepting → d.descriptors ≠ none →
        ((∃ d', (daemon 6 1).step d (.accept true true) = some d' ∧ d'.clients = d.clients + 1) ↔
          d.clients + 1 < Nat.count (Daemon.files [true, true, true]).Free 6)) := by
  obtain ⟨d, run, got⟩ := Machine.exists_run_of_exec (daemon 6 1) (fun _ _ => True)
    (Daemon.start [true, true, true] []) (twoConnections ++ [.accept true true])
    (fun d => d.clients = 2 ∧ d.pc = .accepting) (by decide)
  exact ⟨d, run, got, connections_bounded run⟩

/-- A connection stays open until the listening process has ended and all handlers that were forked
for it or later ones; the port, until that process has ended and no handler is left in its loop. -/
theorem connections_held (run : (daemon limit max).Reachable (Daemon.start used entries) d) :
    (∀ n < d.clients, d.Holds (.client n) ↔
      d.descriptors ≠ none ∨ ∃ p ∈ d.children, p.descriptors ≠ none ∧ n ≤ p.client) ∧
    (d.pc ≠ .opening → (d.Holds .listening ↔ d.descriptors ≠ none ∨
      ∃ p ∈ d.children, p.descriptors ≠ none ∧ (d.server.handler p.client).pc ≠ .closed)) := by
  have inv := reachable_sound run
  have only := files_inherited used
  have listener {t : Descriptors Socket} (opened : d.pc ≠ .opening) (alive : d.descriptors = some t) :
      Descriptors.Filled (Daemon.files used) (sockets d.clients) t := by
    have filled := inv.listener t alive
    rwa [Daemon.opened, if_neg opened] at filled
  constructor
  · intro n below
    have opened : d.pc ≠ .opening := fun opening => by
      rw [inv.none opening] at below
      cases below
    obtain ⟨connection, -⟩ := inv.connection opened
    constructor
    · rintro ⟨t, alive | ⟨p, member, alive⟩, fd, found⟩
      · exact Or.inl (by simp [alive])
      · have own := ((inv.children p member).2.get_client only connection alive).mp found
        exact Or.inr ⟨p, member, by simp [alive], own.1⟩
    · rintro (alive | ⟨p, member, alive, later⟩)
      · obtain ⟨t, alive⟩ := Option.ne_none_iff_exists'.mp alive
        exact ⟨t, Or.inl alive, _, (sockets_filled only (listener opened alive)).mpr ⟨below, rfl⟩⟩
      · obtain ⟨t, alive⟩ := Option.ne_none_iff_exists'.mp alive
        have sound := (inv.children p member).2
        exact ⟨t, Or.inr ⟨p, member, alive⟩, _,
          (sound.get_client only connection alive).mpr ⟨later, rfl⟩⟩
  · intro opened
    obtain ⟨connection, -⟩ := inv.connection opened
    constructor
    · rintro ⟨t, alive | ⟨p, member, alive⟩, fd, found⟩
      · exact Or.inl (by simp [alive])
      · have own := ((inv.children p member).2.get_listening only connection alive).mp found
        exact Or.inr ⟨p, member, by simp [alive], own.2⟩
    · rintro (alive | ⟨p, member, alive, running⟩)
      · obtain ⟨t, alive⟩ := Option.ne_none_iff_exists'.mp alive
        exact ⟨t, Or.inl alive, _, (listening_filled only (listener opened alive)).mpr rfl⟩
      · obtain ⟨t, alive⟩ := Option.ne_none_iff_exists'.mp alive
        have sound := (inv.children p member).2
        exact ⟨t, Or.inr ⟨p, member, alive⟩, _,
          (sound.get_listening only connection alive).mpr ⟨rfl, running⟩⟩

/-- The listening process has ended, and so has the handler of the first connection: the second
handler still has it open. -/
theorem connections_held_run : ∃ d : Daemon,
    (daemon 6 1).Reachable (Daemon.start [true, true, true] []) d ∧
      (d.clients = 2 ∧ d.descriptors = none ∧ (d.server.handler 0).pc = .closed) ∧
      (∀ n < d.clients, d.Holds (.client n) ↔
        d.descriptors ≠ none ∨ ∃ p ∈ d.children, p.descriptors ≠ none ∧ n ≤ p.client) ∧
      (d.pc ≠ .opening → (d.Holds .listening ↔ d.descriptors ≠ none ∨
        ∃ p ∈ d.children, p.descriptors ≠ none ∧ (d.server.handler p.client).pc ≠ .closed)) := by
  obtain ⟨d, run, got⟩ := Machine.exists_run_of_exec (daemon 6 1) (fun _ _ => True)
    (Daemon.start [true, true, true] []) (twoConnections ++ [.terminate])
    (fun d => d.clients = 2 ∧ d.descriptors = none ∧ (d.server.handler 0).pc = .closed) (by decide)
  exact ⟨d, run, got, connections_held run⟩

end

end Dserve
