import Dserve.Layout

/-!
`status_command`: the loop that reads the replies to a `STATUS`.

The loop goes on while the reply in the buffer is `PROCESSING`. A read that times out leaves the
buffer as it was, and `continue` goes on to the test, so that after one report a peer that falls
silent keeps the loop going. It ends exactly when the first read times out, or some read leaves
another status in the buffer (`reading_ends_iff`).
-/

namespace Dserve

/-- What a call of `connection_read` comes to: `select()` finds nothing to read, `recvfrom()`
fails, or it takes bytes, none when the other end has closed the connection. -/
inductive ReadOutcome where
  | noData
  | failed
  | taken (bytes : List UInt8) (fits : bytes.length ≤ transactionSize)

namespace ReadOutcome

/-- A whole transaction. -/
def Whole : ReadOutcome → Prop
  | .taken bytes _ => bytes.length = transactionSize
  | _ => False

/-- Part of a transaction. -/
def Part : ReadOutcome → Prop
  | .taken bytes _ => bytes ≠ [] ∧ bytes.length ≠ transactionSize
  | _ => False

def Disconnect : ReadOutcome → Prop
  | .taken bytes _ => bytes = []
  | _ => False

end ReadOutcome

/-- `connection_read` and the buffer it is given: what it returns, and what it leaves. -/
def connectionReadInto (data : TransactionBytes) : ReadOutcome → Int × TransactionBytes
  | .noData => (CONNECTION_NO_DATA, data)
  | .failed => (CONNECTION_ERROR, .zero)
  | .taken bytes _ =>
      let numRead : Int :=
        if bytes.length = transactionSize then bytes.length
        else if bytes = [] then CONNECTION_DISCONNECTED
        else CONNECTION_ERROR
      (numRead, Object.store .zero 0 bytes)

/-- `reply.status == PROCESSING` -/
def Processing (reply : TransactionBytes) : Prop := reply.load TransactionField.status = enumBytes 1

instance (reply : TransactionBytes) : Decidable (Processing reply) :=
  inferInstanceAs (Decidable (_ = _))

/-- The inner loop of `status_command`, over the outcomes of its reads: the replies whose entry it
prints; none when the outcomes are used up and the loop is still going. -/
def readReplies : TransactionBytes → List ReadOutcome → Option (List TransactionBytes)
  | _, [] => none
  | reply, outcome :: rest =>
      let (numRead, reply) := connectionReadInto reply outcome
      -- after a read that fails, `continue` comes to the same test
      let shown := if 0 < numRead ∧ Processing reply then [reply] else []
      if Processing reply then (readReplies reply rest).map (shown ++ ·) else some shown

section

variable (reads : Nat → ReadOutcome)

/-- The outcomes of the first reads. -/
def firstReads (n : Nat) : List ReadOutcome := (List.range n).map reads

/-- The loop ends after exactly so many reads. -/
def EndsAfter (n : Nat) : Prop :=
  (readReplies .zero (firstReads reads n)).isSome ∧
    ∀ k < n, readReplies .zero (firstReads reads k) = none

/-- The loop ends, no later than the first whole reply that is not `PROCESSING` and no later than
the first disconnect. -/
def ReadingEnds : Prop :=
  ∃ n, EndsAfter reads (n + 1) ∧
    (∀ i, (reads i).Whole → ¬ Processing (connectionReadInto .zero (reads i)).2 → n ≤ i) ∧
    ∀ i, (reads i).Disconnect → n ≤ i

/-- The first read finds nothing, or some read leaves a status that is not `PROCESSING`. -/
def EndAnswered : Prop :=
  reads 0 = .noData ∨
    ∃ i, reads i ≠ .noData ∧ ¬ Processing (connectionReadInto .zero (reads i)).2

/-- The buffer after the first reads. -/
def held : Nat → TransactionBytes
  | 0 => .zero
  | n + 1 => (connectionReadInto (held n) (reads n)).2

end

variable {reads : Nat → ReadOutcome} {reply : TransactionBytes} {outcome : ReadOutcome} {n : Nat}

/-- What is read does not depend on what was in the buffer. -/
theorem connectionReadInto_overwrites (some : outcome ≠ .noData) (data : TransactionBytes) :
    connectionReadInto data outcome = connectionReadInto .zero outcome := by
  cases outcome with
  | noData => exact absurd rfl some
  | failed => rfl
  | taken bytes fits => rfl

theorem firstReads_succ (reads : Nat → ReadOutcome) (n : Nat) :
    firstReads reads (n + 1) = firstReads reads n ++ [reads n] := by
  simp [firstReads, List.range_succ]

theorem zero_not_processing : ¬ Processing .zero := by
  unfold Processing
  rw [Object.load_zero (by decide)]
  decide

theorem disconnect_not_processing (closed : outcome.Disconnect) :
    ¬ Processing (connectionReadInto reply outcome).2 := by
  cases outcome with
  | noData => cases closed
  | failed => cases closed
  | taken bytes fits =>
      obtain rfl : bytes = [] := closed
      exact zero_not_processing

theorem readReplies_isSome (rest : List ReadOutcome) :
    (readReplies reply (outcome :: rest)).isSome ↔
      (Processing (connectionReadInto reply outcome).2 →
        (readReplies (connectionReadInto reply outcome).2 rest).isSome) := by
  rw [readReplies]
  by_cases processing : Processing (connectionReadInto reply outcome).2
  · simp [processing]
  · simp [processing]

/-- While the status is `PROCESSING` the loop goes on with what it holds. -/
theorem readReplies_held (processing : ∀ k < n, Processing (held reads (k + 1)))
    (rest : List ReadOutcome) :
    (readReplies .zero (firstReads reads n ++ rest)).isSome ↔ (readReplies (held reads n) rest).isSome := by
  induction n generalizing rest with
  | zero => rfl
  | succ n ih =>
      have before := ih (fun k hk => processing k (Nat.lt_succ_of_lt hk)) (reads n :: rest)
      rw [firstReads_succ, List.append_assoc, List.singleton_append, before, readReplies_isSome]
      have goesOn : Processing (connectionReadInto (held reads n) (reads n)).2 :=
        processing n (Nat.lt_succ_self n)
      exact ⟨fun ends => ends goesOn, fun ends _ => ends⟩

theorem readReplies_pending (processing : ∀ k < n, Processing (held reads (k + 1))) :
    readReplies .zero (firstReads reads n) = none := by
  have pending := readReplies_held processing []
  rw [List.append_nil] at pending
  rw [← Option.not_isSome_iff_eq_none, pending]
  simp [readReplies]

/-- The loop ends after the first read that leaves a status other than `PROCESSING`. -/
theorem endsAfter_iff : EndsAfter reads (n + 1) ↔
    (∀ k < n, Processing (held reads (k + 1))) ∧ ¬ Processing (held reads (n + 1)) := by
  constructor
  · rintro ⟨ends, pending⟩
    have processing : ∀ k < n, Processing (held reads (k + 1)) := by
      intro k
      induction k using Nat.strongRecOn with
      | ind k ih =>
          intro hk
          by_contra other
          have stops : (readReplies .zero (firstReads reads (k + 1))).isSome := by
            rw [firstReads_succ, readReplies_held fun i hi => ih i hi (Nat.lt_trans hi hk),
              readReplies_isSome]
            exact fun processing => absurd processing other
          rw [pending (k + 1) (Nat.succ_lt_succ hk)] at stops
          cases stops
    constructor
    · exact processing
    · intro last
      have all : ∀ k < n + 1, Processing (held reads (k + 1)) := by
        intro k hk
        rcases Nat.lt_succ_iff_lt_or_eq.mp hk with hk | rfl
        · exact processing k hk
        · exact last
      rw [readReplies_pending all] at ends
      cases ends
  · rintro ⟨processing, other⟩
    constructor
    · rw [firstReads_succ, readReplies_held processing, readReplies_isSome]
      exact fun processing => absurd processing other
    · intro k hk
      exact readReplies_pending fun i hi => processing i (Nat.lt_of_lt_of_le hi (Nat.le_of_lt_succ hk))

theorem endAnswered_of_endsAfter (ends : EndsAfter reads (n + 1)) : EndAnswered reads := by
  obtain ⟨processing, other⟩ := endsAfter_iff.mp ends
  by_cases silent : reads n = .noData
  · cases n with
    | zero => exact Or.inl silent
    | succ n =>
        -- what it holds is what it held before, so it would have ended then
        have same : held reads (n + 2) = held reads (n + 1) := by
          rw [held, silent]
          rfl
        rw [same] at other
        exact absurd (processing n (Nat.lt_succ_self n)) other
  · rw [held, connectionReadInto_overwrites silent] at other
    exact Or.inr ⟨n, silent, other⟩

theorem stops_of_endAnswered (answered : EndAnswered reads) : ∃ n, ¬ Processing (held reads (n + 1)) := by
  rcases answered with silent | ⟨i, some, other⟩
  · apply Exists.intro 0
    rw [held, silent]
    exact zero_not_processing
  · apply Exists.intro i
    rw [held, connectionReadInto_overwrites some]
    exact other

/-- The loop ends, and in time, exactly when the first read finds nothing or some read leaves a
status that is not `PROCESSING`. -/
theorem reading_ends_iff (reads : Nat → ReadOutcome) : ReadingEnds reads ↔ EndAnswered reads := by
  constructor
  · rintro ⟨n, ends, -, -⟩
    exact endAnswered_of_endsAfter ends
  · intro answered
    have stops := stops_of_endAnswered answered
    classical
    have inTime : ∀ i, ¬ Processing (held reads (i + 1)) → Nat.find stops ≤ i :=
      fun i other => Nat.find_min' stops other
    refine ⟨Nat.find stops, endsAfter_iff.mpr ⟨?_, Nat.find_spec stops⟩, ?_, ?_⟩
    · intro k earlier
      exact not_not.mp (Nat.find_min stops earlier)
    · intro i whole other
      have some : reads i ≠ .noData := by
        intro silent
        rw [silent] at whole
        exact whole
      apply inTime
      rw [held, connectionReadInto_overwrites some]
      exact other
    · intro i closed
      exact inTime i (disconnect_not_processing closed)

/-- A report, as far as its status. -/
def report : ReadOutcome :=
  .taken ((List.replicate 4 0 ++ enumBytes 1) ++ List.replicate (transactionSize - 8) 0) (by
    rw [List.length_append, List.length_replicate]
    decide)

theorem report_processing : Processing (connectionReadInto .zero report).2 := by
  unfold Processing
  change Object.load (Object.store .zero 0 _) _ = _
  rw [Object.load_store (Nat.zero_le _) _ (by decide)]
  · rfl
  · rw [List.length_append, List.length_replicate]
    decide

/-- One report, and nothing after it. -/
def fallsSilent : Nat → ReadOutcome
  | 0 => report
  | _ + 1 => .noData

/-- After one report the peer falls silent, and the loop does not end. -/
theorem reading_unending : ¬ ∀ reads : Nat → ReadOutcome,
    {i | (reads i).Whole ∨ (reads i).Part}.Finite → ReadingEnds reads := by
  intro all
  have finite : {i | (fallsSilent i).Whole ∨ (fallsSilent i).Part}.Finite := by
    apply (Set.finite_singleton 0).subset
    intro i heard
    cases i with
    | zero => rfl
    | succ i =>
        rcases heard with whole | part
        · cases whole
        · cases part
  obtain ⟨n, ends, -, -⟩ := all fallsSilent finite
  rcases endAnswered_of_endsAfter ends with silent | ⟨i, some, other⟩
  · cases silent
  · cases i with
    | zero => exact other report_processing
    | succ i => exact some rfl

end Dserve
