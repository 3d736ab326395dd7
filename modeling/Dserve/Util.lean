import Dserve.Transaction

/-!
`util.c`: the name of a download and the messages on the System V queues.

`send_message_local` and `read_message_local` retry a system call that reports
`EAGAIN`. They are modelled over the outcomes of the successive calls; a result
`none` means that the given outcomes are used up and the call is still going on.
The retry counter is a `short`, the limit an `unsigned short`.
-/

namespace Dserve

/-! ### `get_name_from_url` -/

/-- The loop of `get_name_from_url`: `i` runs down to 1. -/
def nameLoop (url : CString) : Nat → Option CString
  | 0 => none
  | i + 1 => if url[i + 1]? = some '/' then some (url.drop (i + 2)) else nameLoop url i

/-- `get_name_from_url(url, strlen(url))`. When no separator is found the function
ends without a return value: undefined behaviour, `none`. -/
def getNameFromUrl (url : CString) : Option CString := nameLoop url url.length

theorem nameLoop_eq_some {url n : CString} {i : Nat} (h : nameLoop url i = some n) :
    ∃ before, before ≠ [] ∧ url = before ++ '/' :: n := by
  induction i with
  | zero => cases h
  | succ i ih =>
      simp only [nameLoop] at h
      split at h
      · next at_i =>
        simp only [Option.some.injEq] at h
        subst h
        obtain ⟨hlt, hget⟩ := List.getElem?_eq_some_iff.mp at_i
        refine ⟨url.take (i + 1), ?_, ?_⟩
        · intro empty
          have := congrArg List.length empty
          rw [List.length_take, Nat.min_eq_left (Nat.le_of_lt hlt)] at this
          simp at this
        · calc url = url.take (i + 1) ++ url.drop (i + 1) := (List.take_append_drop _ _).symm
            _ = url.take (i + 1) ++ '/' :: url.drop (i + 2) := by
                rw [List.drop_eq_getElem_cons hlt, hget]
      · exact ih h

/-- The name is the part of the URL after a separator that is not its first
character. -/
theorem getNameFromUrl_eq_some {url n : CString} (h : getNameFromUrl url = some n) :
    ∃ before, before ≠ [] ∧ url = before ++ '/' :: n := nameLoop_eq_some h

/-! ### Messages -/

/-- `errno` after a failed queue call. -/
inductive Errno where
  | eagain
  | other
deriving DecidableEq, Repr

/-- The retry loop that both message functions share: `retry_count` is
incremented, the call gives up unless the error is `EAGAIN` and the limit is not
reached. `failed` and `done` are what the function returns in the two cases. -/
def retryLoop {α β : Type} (queueRetryCount : UInt16) (failed : β) (done : α → β) :
    Int16 → List (Except Errno α) → Option β
  | _, [] => none
  | _, .ok x :: _ => some (done x)
  | retryCount, .error errno :: rest =>
      let retryCount := retryCount + 1
      if errno ≠ .eagain ∨ retryCount.toInt ≥ queueRetryCount.toNat then some failed
      else retryLoop queueRetryCount failed done retryCount rest

/-- `send_message_local`, over the outcomes of `msgsnd`. -/
def sendMessageLocal (queueRetryCount : UInt16) (msgsnd : List (Except Errno Unit)) :
    Option Bool :=
  retryLoop queueRetryCount false (fun _ => true) 0 msgsnd

/-- `read_message_local`, over the outcomes of `msgrcv`: the message it took, when the
result is `true`, and what the caller's buffer holds. The buffer is zeroed before the first
attempt and only assigned, with the content of the message, after a successful one. -/
def readMessageLocal {μ : Type} (queueRetryCount : UInt16) (content : μ → Transaction)
    (msgrcv : List (Except Errno μ)) : Option (Option μ × Transaction) :=
  retryLoop queueRetryCount (none, .zero) (fun m => (some m, content m)) 0 msgrcv

/-- `OPT_DEFAULT_Q_RETRY_COUNT`: what `queue_retry_count` is set to. -/
def queueRetryCount : UInt16 := 10

/-- The value comes before another error, and before the retries are used up. -/
def Arrives {α : Type} (outcomes : List (Except Errno α)) (x : α) : Prop :=
  ∃ retries rest, outcomes = List.replicate retries (.error .eagain) ++ .ok x :: rest ∧
    retries < queueRetryCount.toNat

/-! ### The retry loop -/

/-- After so many failures the counter has reached the limit. -/
def Exhausted (queueRetryCount : UInt16) (failures : Nat) : Prop :=
  (Int16.ofNat failures).toInt ≥ queueRetryCount.toNat

section Loop

variable {α β : Type} {limit : UInt16} {failed : β} {done : α → β} {n : Nat}
  {rest outcomes : List (Except Errno α)} {x : α}

/-- Up to 32767 the limit is reached by counting. -/
theorem exhausted_iff (fits : n < 32768) : Exhausted limit n ↔ limit.toNat ≤ n := by
  unfold Exhausted
  rw [Int16.toInt_ofNat_of_lt fits]
  omega

/-- A failure that has the loop go on. -/
theorem retryLoop_again (more : ¬ Exhausted limit (n + 1)) :
    retryLoop limit failed done (Int16.ofNat n) (.error .eagain :: rest) =
      retryLoop limit failed done (Int16.ofNat (n + 1)) rest := by
  have counted : Int16.ofNat n + 1 = Int16.ofNat (n + 1) := (Int16.ofNat_add n 1).symm
  have waiting : ¬ (Errno.eagain ≠ .eagain ∨ (Int16.ofNat (n + 1)).toInt ≥ limit.toNat) := by
    rintro (differ | reached)
    · exact differ rfl
    · exact more reached
  simp only [retryLoop, counted]
  rw [if_neg waiting]

/-- A failure with which the loop gives up. -/
theorem retryLoop_gives_up {errno : Errno} (ends : errno ≠ .eagain ∨ Exhausted limit (n + 1)) :
    retryLoop limit failed done (Int16.ofNat n) (.error errno :: rest) = some failed := by
  have counted : Int16.ofNat n + 1 = Int16.ofNat (n + 1) := (Int16.ofNat_add n 1).symm
  simp only [retryLoop, counted]
  exact if_pos ends

/-- What a retry loop comes to, from any number of retries on. -/
theorem retryLoop_iff (differ : ∀ x, done x ≠ failed) (injective : ∀ x y, done x = done y → x = y)
    (left : n < queueRetryCount.toNat) :
    retryLoop queueRetryCount failed done (Int16.ofNat n) outcomes = some (done x) ↔
      ∃ retries rest, outcomes = List.replicate retries (.error .eagain) ++ .ok x :: rest ∧
        n + retries < queueRetryCount.toNat := by
  have limit : queueRetryCount.toNat = 10 := rfl
  induction outcomes generalizing n with
  | nil => simp [retryLoop]
  | cons o rest ih =>
      have reached : Exhausted queueRetryCount (n + 1) ↔ queueRetryCount.toNat ≤ n + 1 :=
        exhausted_iff (by omega)
      constructor
      · intro h
        cases o with
        | ok y =>
            simp only [retryLoop, Option.some.injEq] at h
            exact ⟨0, rest, by rw [injective _ _ h]; rfl, left⟩
        | error errno =>
            by_cases ends : errno ≠ .eagain ∨ Exhausted queueRetryCount (n + 1)
            · rw [retryLoop_gives_up ends] at h
              exact absurd (Option.some.inj h).symm (differ x)
            · obtain ⟨again, more⟩ := not_or.mp ends
              obtain rfl : errno = .eagain := Classical.not_not.mp again
              rw [retryLoop_again more] at h
              rw [reached] at more
              obtain ⟨retries, rest, rfl, fits⟩ := (ih (Nat.lt_of_not_le more)).mp h
              exact ⟨retries + 1, rest, rfl, by omega⟩
      · rintro ⟨retries, rest', parts, fits⟩
        cases retries with
        | zero =>
            simp only [List.replicate_zero, List.nil_append, List.cons.injEq] at parts
            rw [parts.1]
            rfl
        | succ retries =>
            simp only [List.replicate_succ, List.cons_append, List.cons.injEq] at parts
            obtain ⟨rfl, parts⟩ := parts
            have more : ¬ Exhausted queueRetryCount (n + 1) := by
              rw [reached]
              omega
            rw [retryLoop_again more]
            exact (ih (by omega)).mpr ⟨retries, rest', parts, by omega⟩

theorem retryLoop_arrives (failed : β) (done : α → β) (differ : ∀ x, done x ≠ failed)
    (injective : ∀ x y, done x = done y → x = y) :
    retryLoop queueRetryCount failed done 0 outcomes = some (done x) ↔ Arrives outcomes x := by
  have loop : retryLoop queueRetryCount failed done (Int16.ofNat 0) outcomes = some (done x) ↔ _ :=
    retryLoop_iff differ injective (by decide)
  simp only [Nat.zero_add] at loop
  exact loop

end Loop

/-- `send_message_local` succeeds when `msgsnd` does, in time. -/
theorem sendMessageLocal_iff {msgsnd : List (Except Errno Unit)} :
    sendMessageLocal queueRetryCount msgsnd = some true ↔ Arrives msgsnd () :=
  retryLoop_arrives false (fun _ => true) (fun _ => by simp) fun _ _ _ => rfl

/-- `read_message_local` takes the message that arrives. -/
theorem readMessageLocal_iff {μ : Type} {content : μ → Transaction} {msgrcv : List (Except Errno μ)}
    {m : μ} : readMessageLocal queueRetryCount content msgrcv = some (some m, content m) ↔
      Arrives msgrcv m := by
  apply retryLoop_arrives (none, Transaction.zero) fun m => (some m, content m)
  · intro x
    simp
  · intro x y same
    exact Option.some.inj (Prod.mk.inj same).1

/-- When `read_message_local` fails the buffer is all zero; otherwise it holds the content
of the message that was taken. -/
theorem readMessageLocal_buffer {μ : Type} {limit : UInt16} {content : μ → Transaction}
    {msgrcv : List (Except Errno μ)} {taken : Option μ} {buffer : Transaction}
    (h : readMessageLocal limit content msgrcv = some (taken, buffer)) :
    buffer = (taken.map content).getD .zero := by
  unfold readMessageLocal at h
  generalize (0 : Int16) = retryCount at h
  induction msgrcv generalizing retryCount with
  | nil => cases h
  | cons o rest ih =>
      cases o with
      | ok m =>
          cases h
          rfl
      | error errno =>
          simp only [retryLoop] at h
          split at h
          · cases h
            rfl
          · exact ih _ h

end Dserve
