import Dserve.Lib.Machine
import Mathlib.Data.List.Basic
import Mathlib.Tactic.Cases

/-!
`connection.c`: transactions over a TCP connection.

`connection_send` and `connection_read` make one call each. A `send()` may take only a part
of the transaction, and what `recvfrom()` returns is lost when it is not a whole one. The
bytes arrive in order, cut in any way. `received_prefix` says that the transactions which
are read are those that were sent, as long as no `send()` was short and no bytes were lost
before. After a read that was cut, the next one returns pieces of two transactions
(`assembled`).
-/

namespace Dserve

/-- `sizeof(transaction_t)` -/
def transactionSize : Nat := 1804

theorem transactionSize_pos : 0 < transactionSize := by decide

/-- The bytes of a `transaction_t`. -/
structure Message where
  bytes : List UInt8
  size : bytes.length = transactionSize

def CONNECTION_NO_DATA : Int := 0
def CONNECTION_DISCONNECTED : Int := -1
def CONNECTION_ERROR : Int := -2

/-- One direction of a connection: what was sent, how much of each `send()` took, the bytes
on their way, how many were taken out, and what the successful reads returned. -/
structure Wire where
  sent : List Message
  accepted : List Nat
  stream : List UInt8
  closed : Bool
  taken : Nat
  received : List Message

/-- A connection that was just made. -/
def Wire.connected : Wire := ⟨[], [], [], false, 0, []⟩

/-- `connection_send`: `send()` fails, or takes the first bytes of the transaction. -/
def connectionSend (w : Wire) (m : Message) : Option Nat → Option (Int × Wire)
  | none => some (-1, { w with sent := w.sent ++ [m], accepted := w.accepted ++ [0] })
  | some n =>
      if n ≤ transactionSize then
        some (n, { w with
          sent := w.sent ++ [m]
          accepted := w.accepted ++ [n]
          stream := w.stream ++ m.bytes.take n })
      else none

/-- `connection_read`: nothing is there before the timeout, or `recvfrom()` fails, or it
takes some of the bytes that arrived; none when the other end has closed the connection. -/
def connectionRead (w : Wire) (ready : Bool) (result : Option Nat) : Option (Int × Wire) :=
  if ready then
    match result with
    | none => some (CONNECTION_ERROR, w)
    | some n =>
        let w' := { w with stream := w.stream.drop n, taken := w.taken + n }
        if whole : n = transactionSize ∧ n ≤ w.stream.length then
          let m : Message := ⟨w.stream.take n, by rw [List.length_take]; omega⟩
          some (n, { w' with received := w.received ++ [m] })
        else if n = 0 then
          if w.stream = [] ∧ w.closed then some (CONNECTION_DISCONNECTED, w') else none
        else if n < transactionSize ∧ n ≤ w.stream.length then some (CONNECTION_ERROR, w')
        else none
  else some (CONNECTION_NO_DATA, w)

inductive WireAction where
  | send (m : Message) (result : Option Nat)
  | close
  | read (ready : Bool) (result : Option Nat)

def Wire.step (w : Wire) : WireAction → Option Wire
  | .send m result => if w.closed then none else (connectionSend w m result).map Prod.snd
  | .close => some { w with closed := true }
  | .read ready result => (connectionRead w ready result).map Prod.snd

/-- The two ends of one direction. -/
def connection : Machine Wire WireAction := ⟨Wire.step⟩

/-- A whole transaction is read only when all bytes taken before were whole transactions,
and those up to this one were accepted in full. -/
def InStep (w : Wire) : WireAction → Prop
  | .read true (some n) => n = transactionSize →
      w.taken = w.received.length * transactionSize ∧
        ∀ k ∈ w.accepted.take (w.received.length + 1), k = transactionSize
  | _ => True

/-- What of each transaction was accepted. -/
def Wire.parts (w : Wire) : List (List UInt8) :=
  List.zipWith (fun m k => m.bytes.take k) w.sent w.accepted

/-- What holds between the steps. -/
structure Carried (w : Wire) : Prop where
  length : w.accepted.length = w.sent.length
  bytes : ∃ before : List UInt8, before.length = w.taken ∧ before ++ w.stream = w.parts.flatten
  received : w.received <+: w.sent

variable {w w' : Wire} {m : Message} {n : Nat}

theorem connected_carried : Carried Wire.connected :=
  ⟨rfl, ⟨[], rfl, rfl⟩, List.nil_prefix⟩

/-- A transaction of which the first bytes are accepted. -/
theorem Carried.send (inv : Carried w) (m : Message) (n : Nat) :
    Carried { w with
      sent := w.sent ++ [m]
      accepted := w.accepted ++ [n]
      stream := w.stream ++ m.bytes.take n } := by
  obtain ⟨before, taken, bytes⟩ := inv.bytes
  refine ⟨by simp [inv.length], ⟨before, taken, ?_⟩, inv.received.trans (List.prefix_append _ _)⟩
  simp only [Wire.parts]
  rw [List.zipWith_append inv.length.symm, List.flatten_append, ← List.append_assoc, bytes]
  simp [Wire.parts]

/-- Bytes are taken and lost. -/
theorem Carried.drop (inv : Carried w) (enough : n ≤ w.stream.length) :
    Carried { w with stream := w.stream.drop n, taken := w.taken + n } := by
  obtain ⟨before, taken, bytes⟩ := inv.bytes
  refine ⟨inv.length, ⟨before ++ w.stream.take n, ?_, ?_⟩, inv.received⟩
  · rw [List.length_append, List.length_take, taken, Nat.min_eq_left enough]
  · rw [List.append_assoc, List.take_append_drop]
    exact bytes

/-- The transactions that were accepted in full are all there. -/
theorem parts_take (length : w.accepted.length = w.sent.length) {j : Nat}
    (full : ∀ k ∈ w.accepted.take j, k = transactionSize) :
    w.parts.take j = (w.sent.take j).map Message.bytes := by
  unfold Wire.parts
  rw [List.take_zipWith]
  have lengths : (w.sent.take j).length = (w.accepted.take j).length := by
    simp [length]
  generalize w.sent.take j = ms at lengths
  generalize w.accepted.take j = ks at full lengths
  induction ms generalizing ks with
  | nil => rfl
  | cons m ms ih =>
      cases ks with
      | nil => cases lengths
      | cons k ks =>
          rw [List.zipWith_cons_cons, List.map_cons, full k List.mem_cons_self,
            List.take_of_length_le (Nat.le_of_eq m.size),
            ih ks (fun k hk => full k (List.mem_cons_of_mem _ hk)) (Nat.succ.inj lengths)]

theorem flatten_bytes (ms : List Message) :
    (ms.map Message.bytes).flatten.length = ms.length * transactionSize := by
  induction ms with
  | nil => simp
  | cons m ms ih =>
      rw [List.map_cons, List.flatten_cons, List.length_append, ih, m.size, List.length_cons,
        Nat.succ_mul, Nat.add_comm]

/-- When everything before was taken in whole transactions, the next one is what is read. -/
theorem Carried.next (inv : Carried w) (taken : w.taken = w.received.length * transactionSize)
    (full : ∀ k ∈ w.accepted.take (w.received.length + 1), k = transactionSize)
    (enough : transactionSize ≤ w.stream.length) :
    ∃ m, w.received ++ [m] <+: w.sent ∧ w.stream.take transactionSize = m.bytes := by
  obtain ⟨before, length, bytes⟩ := inv.bytes
  generalize count : w.received.length = j at taken full
  have within : j ≤ w.sent.length := by
    rw [← count]
    exact inv.received.length_le
  -- a byte has arrived, so one more transaction was sent
  have more : j < w.sent.length := by
    by_contra none
    have all : w.parts.take j = w.parts := by
      apply List.take_of_length_le
      simp only [Wire.parts, List.length_zipWith]
      omega
    have parts : w.parts = (w.sent.take j).map Message.bytes := by
      rw [← all]
      apply parts_take inv.length
      intro k hk
      exact full k ((List.take_sublist_take_left (Nat.le_succ j)).mem hk)
    have lengths := congrArg List.length bytes
    rw [parts, flatten_bytes, List.length_append, List.length_take, Nat.min_eq_left within, length,
      taken] at lengths
    have positive := transactionSize_pos
    omega
  have carried : before ++ w.stream = ((w.sent.take j).map Message.bytes).flatten ++
      (w.sent[j].bytes ++ (w.parts.drop (j + 1)).flatten) := by
    rw [bytes, ← List.append_assoc]
    conv_lhs => rw [← List.take_append_drop (j + 1) w.parts]
    rw [List.flatten_append, parts_take inv.length full, List.take_succ_eq_append_getElem more,
      List.map_append, List.flatten_append]
    simp
  have front : before.length = ((w.sent.take j).map Message.bytes).flatten.length := by
    rw [length, taken, flatten_bytes, List.length_take, Nat.min_eq_left within]
  obtain ⟨-, stream⟩ := List.append_inj carried front
  refine ⟨w.sent[j], ?_, ?_⟩
  · have received := List.prefix_iff_eq_take.mp inv.received
    rw [count] at received
    rw [received, ← List.take_succ_eq_append_getElem more]
    exact List.take_prefix _ _
  · rw [stream, ← w.sent[j].size, List.take_left]

/-- What a `connection_read` does. -/
theorem read_cases {ready : Bool} {result : Option Nat} (h : w.step (.read ready result) = some w') :
    w' = w ∨
    (∃ n, n ≤ w.stream.length ∧
      w' = { w with stream := w.stream.drop n, taken := w.taken + n }) ∨
    (ready = true ∧ result = some transactionSize ∧ ∃ m : Message,
      transactionSize ≤ w.stream.length ∧ m.bytes = w.stream.take transactionSize ∧
      w' = { w with
        stream := w.stream.drop transactionSize
        taken := w.taken + transactionSize
        received := w.received ++ [m] }) := by
  obtain ⟨⟨ret, w''⟩, read, rfl⟩ := Option.map_eq_some_iff.mp h
  unfold connectionRead at read
  split at read
  · next arrived =>
    cases result with
    | none =>
        cases read
        exact Or.inl rfl
    | some n =>
        simp only at read
        split at read
        · next whole =>
          obtain ⟨rfl, enough⟩ := whole
          cases read
          exact Or.inr (Or.inr ⟨arrived, rfl, _, enough, rfl, rfl⟩)
        · split at read
          · next none =>
            split at read
            · cases read
              exact Or.inr (Or.inl ⟨n, by omega, rfl⟩)
            · cases read
          · split at read
            · next part =>
              cases read
              exact Or.inr (Or.inl ⟨n, part.2, rfl⟩)
            · cases read
  · cases read
    exact Or.inl rfl

/-- A transaction that is accepted in full. -/
theorem step_send (m : Message) (alive : w.closed = false) :
    connection.step w (.send m (some transactionSize)) = some { w with
      sent := w.sent ++ [m]
      accepted := w.accepted ++ [transactionSize]
      stream := w.stream ++ m.bytes } := by
  have whole : m.bytes.take transactionSize = m.bytes := List.take_of_length_le (Nat.le_of_eq m.size)
  simp [connection, Wire.step, connectionSend, alive, whole]

/-- A read that returns a whole transaction. -/
theorem step_read (m : Message) {rest : List UInt8} (stream : w.stream = m.bytes ++ rest) :
    connection.step w (.read true (some transactionSize)) = some { w with
      stream := rest
      taken := w.taken + transactionSize
      received := w.received ++ [m] } := by
  have first : (m.bytes ++ rest).take transactionSize = m.bytes := by
    rw [← m.size, List.take_left]
  have left : (m.bytes ++ rest).drop transactionSize = rest := by
    rw [← m.size, List.drop_left]
  simp [connection, Wire.step, connectionRead, stream, first, left, m.size]

/-- A read that returns a part of a transaction. -/
theorem step_part (positive : n ≠ 0) (part : n < transactionSize) (enough : n ≤ w.stream.length) :
    connection.step w (.read true (some n)) =
      some { w with stream := w.stream.drop n, taken := w.taken + n } := by
  simp [connection, Wire.step, connectionRead, positive, part, enough, Nat.ne_of_lt part]

/-- Each step that meets the condition keeps the stream in step. -/
theorem step_carried {a : WireAction} (inv : Carried w) (ok : InStep w a) (h : w.step a = some w') :
    Carried w' := by
  cases a with
  | send m result =>
      simp only [Wire.step] at h
      split at h
      · cases h
      · obtain ⟨⟨ret, w''⟩, sent, rfl⟩ := Option.map_eq_some_iff.mp h
        cases result with
        | none =>
            cases sent
            simpa using inv.send m 0
        | some n =>
            simp only [connectionSend] at sent
            split at sent
            · cases sent
              exact inv.send m n
            · cases sent
  | close =>
      cases h
      exact ⟨inv.length, inv.bytes, inv.received⟩
  | read ready result =>
      rcases read_cases h with rfl | ⟨n, enough, rfl⟩ | ⟨rfl, rfl, m, enough, bytes, rfl⟩
      · exact inv
      · exact inv.drop enough
      · obtain ⟨taken, full⟩ := ok rfl
        obtain ⟨m', within, same⟩ := inv.next taken full enough
        have message : m = m' := by
          cases m
          cases m'
          simp only [Message.mk.injEq]
          exact bytes.trans same
        have dropped := inv.drop enough
        exact ⟨dropped.length, dropped.bytes, message ▸ within⟩

/-- In a run whose reads are in step, the transactions that are read are the first of those
that were sent, each in its place. -/
theorem received_prefix (run : connection.Run InStep Wire.connected w) : w.received <+: w.sent :=
  (run.invariant connected_carried fun _ _ _ inv ok step => step_carried inv ok step).received

/-- The transaction of which all bytes are `b`. -/
def Message.all (b : UInt8) : Message := ⟨List.replicate transactionSize b, List.length_replicate⟩

/-- A transaction that is sent and read. -/
theorem received_prefix_run : ∃ w, connection.Run InStep Wire.connected w ∧
    w.received = [Message.all 7] ∧ w.received <+: w.sent := by
  have sends : InStep Wire.connected (.send (Message.all 7) (some transactionSize)) := trivial
  have run := Machine.Run.refl.tail sends (step_send (Message.all 7) rfl)
  have reads : InStep { Wire.connected with
      sent := Wire.connected.sent ++ [Message.all 7]
      accepted := Wire.connected.accepted ++ [transactionSize]
      stream := Wire.connected.stream ++ (Message.all 7).bytes } (.read true (some transactionSize)) := by
    intro _
    exact ⟨rfl, by simp [Wire.connected]⟩
  have run := run.tail reads (step_read (Message.all 7) (List.append_nil _).symm)
  exact ⟨_, run, rfl, received_prefix run⟩

/-- A read takes a byte of the first transaction, and the next one what is left of it with
the first byte of the second. -/
theorem assembled : ¬ ∀ w, connection.Reachable Wire.connected w → w.received <+: w.sent := by
  intro all
  have run : connection.Reachable Wire.connected _ :=
    Machine.Run.refl.tail trivial (step_send (Message.all 0) rfl)
  have run := run.tail trivial (step_part (by decide) (by decide : 1 < transactionSize)
    (by simp [Wire.connected, (Message.all 0).size, transactionSize]))
  have run := run.tail trivial (step_send (Message.all 1) rfl)
  have cut : List.replicate (transactionSize - 1) (0 : UInt8) ++ List.replicate transactionSize 1 =
      (List.replicate (transactionSize - 1) 0 ++ [1]) ++ List.replicate (transactionSize - 1) 1 := by
    rw [List.append_assoc]
    rfl
  have run := run.tail trivial (step_read
    ⟨List.replicate (transactionSize - 1) 0 ++ [1], by rw [List.length_append, List.length_replicate]; rfl⟩
    cut)
  obtain ⟨rest, sent⟩ := all _ run
  have first := congrArg (List.map Message.bytes) sent
  have bytes : List.replicate (transactionSize - 1) (0 : UInt8) ++ [1] = List.replicate transactionSize 0 :=
    (List.cons.inj first).1
  have one : (1 : UInt8) ∈ List.replicate transactionSize 0 := by
    rw [← bytes]
    exact List.mem_append_right _ (List.mem_singleton_self 1)
  exact absurd (List.eq_of_mem_replicate one) (by decide)

end Dserve
