import Dserve.Util
import Mathlib.Data.Nat.Find
import Mathlib.Tactic.ByContra

/-!
The retries of `send_message_local` and `read_message_local`, for any `queue_retry_count`.

The two functions share their loop. Its counter is a `short` and the limit an `unsigned
short`: up to 32767 the limit is reached, and from 32768 on it never is, so that the loop only
ends with an outcome other than `EAGAIN`. Both functions keep their contract exactly when the
limit can be counted to or such an outcome comes in time (`retries_kept_iff`).
-/

namespace Dserve

section

variable {α β : Type}

/-- The outcomes of the first attempts. -/
def firstCalls (calls : Nat → Except Errno α) (n : Nat) : List (Except Errno α) :=
  (List.range n).map calls

/-- The function returns after exactly the given number of attempts. -/
def ReturnsAfter (f : List (Except Errno α) → Option β) (calls : Nat → Except Errno α)
    (attempts : Nat) (result : β) : Prop :=
  f (firstCalls calls attempts) = some result ∧ ∀ n < attempts, f (firstCalls calls n) = none

/-- How many of the first attempts succeeded: the messages that were enqueued, or received. -/
def succeeded (calls : Nat → Except Errno α) (attempts : Nat) : Nat :=
  (firstCalls calls attempts).countP Except.isOk

/-- `send_message_local` makes at most `max 1 queue_retry_count` attempts, and returns `true`
when one of them enqueued the message, once, and `false` when none did. -/
def SendKept (queueRetryCount : UInt16) (msgsnd : Nat → Except Errno Unit) : Prop :=
  ∃ attempts result, attempts ≤ max 1 queueRetryCount.toNat ∧
    ReturnsAfter (sendMessageLocal queueRetryCount) msgsnd attempts result ∧
    succeeded msgsnd attempts = if result = true then 1 else 0

/-- `read_message_local` makes at most `max 1 queue_retry_count` attempts, and returns `true`
when one of them received a message, which is then in the buffer, and `false` when none did,
with a buffer that is all zero. -/
def ReadKept {μ : Type} (queueRetryCount : UInt16) (content : μ → Transaction)
    (msgrcv : Nat → Except Errno μ) : Prop :=
  ∃ attempts taken buffer, attempts ≤ max 1 queueRetryCount.toNat ∧
    ReturnsAfter (readMessageLocal queueRetryCount content) msgrcv attempts (taken, buffer) ∧
    match taken with
    | some m => succeeded msgrcv attempts = 1 ∧ (∃ i < attempts, msgrcv i = .ok m) ∧
        buffer = content m
    | none => succeeded msgrcv attempts = 0 ∧ buffer = .zero

/-- The counter can reach the limit, or an attempt within the limit ends with something else
than `EAGAIN`. -/
def EndsInTime (queueRetryCount : UInt16) (calls : Nat → Except Errno α) : Prop :=
  queueRetryCount.toNat < 32768 ∨ ∃ i < queueRetryCount.toNat, calls i ≠ .error .eagain

/-- The first attempts all have the loop go on. -/
def Waits (queueRetryCount : UInt16) (calls : Nat → Except Errno α) (n : Nat) : Prop :=
  ∀ i < n, calls i = .error .eagain ∧ ¬ Exhausted queueRetryCount (i + 1)

variable {limit : UInt16} {calls : Nat → Except Errno α} {failed : β} {done : α → β} {n : Nat}

theorem firstCalls_succ : firstCalls calls (n + 1) = firstCalls calls n ++ [calls n] := by
  simp [firstCalls, List.range_succ]

/-- While the loop waits, it counts. -/
theorem retryLoop_waits (waits : Waits limit calls n) (rest : List (Except Errno α)) :
    retryLoop limit failed done 0 (firstCalls calls n ++ rest) =
      retryLoop limit failed done (Int16.ofNat n) rest := by
  induction n generalizing rest with
  | zero => rfl
  | succ n ih =>
      obtain ⟨again, more⟩ := waits n (Nat.lt_succ_self n)
      rw [firstCalls_succ, List.append_assoc, ih fun i hi => waits i (Nat.lt_succ_of_lt hi)]
      rw [again, List.singleton_append]
      exact retryLoop_again more

theorem retryLoop_pending (waits : Waits limit calls n) :
    retryLoop limit failed done 0 (firstCalls calls n) = none := by
  calc retryLoop limit failed done 0 (firstCalls calls n)
      = retryLoop limit failed done 0 (firstCalls calls n ++ []) := by rw [List.append_nil]
    _ = retryLoop limit failed done (Int16.ofNat n) [] := retryLoop_waits waits []
    _ = none := rfl

/-- What the loop comes to at the first attempt that does not have it go on. -/
theorem retryLoop_returns (waits : Waits limit calls n)
    (stops : calls n ≠ .error .eagain ∨ Exhausted limit (n + 1)) :
    ReturnsAfter (retryLoop limit failed done 0) calls (n + 1)
      (match calls n with
      | .ok x => done x
      | .error _ => failed) := by
  constructor
  · rw [firstCalls_succ, retryLoop_waits waits]
    cases call : calls n with
    | ok x => rfl
    | error errno =>
        apply retryLoop_gives_up
        rw [call] at stops
        rcases stops with differ | reached
        · exact Or.inl fun same => differ (by rw [same])
        · exact Or.inr reached
  · intro k hk
    exact retryLoop_pending fun i hi => waits i (Nat.lt_of_lt_of_le hi (Nat.le_of_lt_succ hk))

theorem succeeded_waits (waits : Waits limit calls n) :
    succeeded calls (n + 1) = if (calls n).isOk = true then 1 else 0 := by
  have none : (firstCalls calls n).countP Except.isOk = 0 := by
    rw [List.countP_eq_zero]
    intro o ho
    obtain ⟨i, hi, rfl⟩ := List.mem_map.mp ho
    rw [(waits i (List.mem_range.mp hi)).1]
    simp [Except.isOk, Except.toBool]
  rw [succeeded, firstCalls_succ, List.countP_append, none, List.countP_singleton, Nat.zero_add]

/-- From 32768 on the limit is not reached. -/
theorem not_exhausted (large : 32768 ≤ limit.toNat) : ¬ Exhausted limit n := by
  have bound := Int16.toInt_lt (Int16.ofNat n)
  unfold Exhausted
  omega

/-- The first attempt at which the loop ends comes in time. -/
theorem exists_stop (ends : EndsInTime limit calls) :
    ∃ n, n < max 1 limit.toNat ∧ Waits limit calls n ∧
      (calls n ≠ .error .eagain ∨ Exhausted limit (n + 1)) := by
  classical
  have stops : ∃ n, n < max 1 limit.toNat ∧ (calls n ≠ .error .eagain ∨ Exhausted limit (n + 1)) := by
    rcases ends with small | ⟨i, hi, other⟩
    · refine ⟨limit.toNat - 1, by omega, Or.inr ?_⟩
      rw [exhausted_iff (by omega)]
      omega
    · exact ⟨i, by omega, Or.inl other⟩
  refine ⟨Nat.find stops, (Nat.find_spec stops).1, fun i hi => ?_, (Nat.find_spec stops).2⟩
  have before := Nat.find_min stops hi
  have inside : i < max 1 limit.toNat := Nat.lt_trans hi (Nat.find_spec stops).1
  by_contra other
  refine before ⟨inside, ?_⟩
  rcases Classical.not_and_iff_not_or_not.mp other with differ | reached
  · exact Or.inl differ
  · exact Or.inr (Classical.not_not.mp reached)

/-- Without such an attempt no number of attempts within the limit is enough. -/
theorem endsInTime_of_returns {attempts : Nat} {result : β}
    (returns : ReturnsAfter (retryLoop limit failed done 0) calls attempts result)
    (within : attempts ≤ max 1 limit.toNat) : EndsInTime limit calls := by
  by_contra late
  obtain ⟨large, again⟩ := not_or.mp late
  have waits : Waits limit calls attempts := by
    intro i hi
    constructor
    · by_contra other
      exact again ⟨i, by omega, other⟩
    · exact not_exhausted (Nat.le_of_not_lt large)
  cases (retryLoop_pending waits).symm.trans returns.1

theorem sendKept_iff {msgsnd : Nat → Except Errno Unit} :
    SendKept limit msgsnd ↔ EndsInTime limit msgsnd := by
  constructor
  · rintro ⟨attempts, result, within, returns, -⟩
    exact endsInTime_of_returns returns within
  · intro ends
    obtain ⟨n, within, waits, stops⟩ := exists_stop ends
    refine ⟨n + 1, _, within, retryLoop_returns waits stops, ?_⟩
    rw [succeeded_waits waits]
    cases msgsnd n <;> rfl

theorem readKept_iff {μ : Type} {content : μ → Transaction} {msgrcv : Nat → Except Errno μ} :
    ReadKept limit content msgrcv ↔ EndsInTime limit msgrcv := by
  constructor
  · rintro ⟨attempts, taken, buffer, within, returns, -⟩
    exact endsInTime_of_returns returns within
  · intro ends
    obtain ⟨n, within, waits, stops⟩ := exists_stop ends
    have returns : ReturnsAfter (readMessageLocal limit content) msgrcv (n + 1)
        (match msgrcv n with
        | .ok m => (some m, content m)
        | .error _ => (none, .zero)) := retryLoop_returns waits stops
    have count := succeeded_waits waits
    cases call : msgrcv n with
    | ok m =>
        rw [call] at returns count
        exact ⟨n + 1, some m, content m, within, returns, count, ⟨n, Nat.lt_succ_self n, call⟩, rfl⟩
    | error errno =>
        rw [call] at returns count
        exact ⟨n + 1, none, .zero, within, returns, count, rfl⟩

/-- The two functions keep their contract exactly when the limit can be counted to, or an
attempt within the limit ends with something else than `EAGAIN`. -/
theorem retries_kept_iff {μ : Type} (queueRetryCount : UInt16) (content : μ → Transaction)
    (msgsnd : Nat → Except Errno Unit) (msgrcv : Nat → Except Errno μ) :
    (SendKept queueRetryCount msgsnd ↔ EndsInTime queueRetryCount msgsnd) ∧
      (ReadKept queueRetryCount content msgrcv ↔ EndsInTime queueRetryCount msgrcv) :=
  ⟨sendKept_iff, readKept_iff⟩

/-- With a limit of 40000 and a queue that stays full the counter wraps, and
`send_message_local` does not return. -/
theorem retries_unbounded : ¬ ∀ (queueRetryCount : UInt16) (msgsnd : Nat → Except Errno Unit),
    SendKept queueRetryCount msgsnd := by
  intro all
  rcases sendKept_iff.mp (all 40000 fun _ => .error .eagain) with small | ⟨i, -, other⟩
  · exact absurd small (by decide)
  · exact other rfl

end

end Dserve
