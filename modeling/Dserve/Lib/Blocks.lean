/-!
Blocks of messages on a queue.

Each message has an owner, and the last message of a block is marked. `drain` takes the
messages off the queue for owners that are waited for in the given order: an owner is done
with when its last message was taken. What is left are the owners whose block is not
complete yet. A new owner goes to the end of the waiting, a new message to the end of the
queue (`drain_join`, `drain_append`).
-/

namespace Blocks

variable {μ τ : Type} [DecidableEq τ] {owner : μ → τ} {last : μ → Bool}
variable {m : μ} {messages more : List μ} {owners rest : List τ}

/-- The owners that are still waited for when the messages were taken. There is no result
when a message is not for the owner whose turn it is. -/
def drain (owner : μ → τ) (last : μ → Bool) : List μ → List τ → Option (List τ)
  | [], owners => some owners
  | _ :: _, [] => none
  | m :: messages, t :: ts =>
      if owner m = t then drain owner last messages (if last m then ts else t :: ts) else none

theorem drain_cons (h : drain owner last (m :: messages) owners = some rest) :
    ∃ ts, owners = owner m :: ts ∧
      drain owner last messages (if last m then ts else owners) = some rest := by
  cases owners with
  | nil => cases h
  | cons t ts =>
      simp only [drain] at h
      split at h
      · next own => exact ⟨ts, by rw [own], h⟩
      · cases h

theorem drain_append : drain owner last (messages ++ more) owners =
    (drain owner last messages owners).bind (drain owner last more) := by
  induction messages generalizing owners with
  | nil => rfl
  | cons m messages ih =>
      cases owners with
      | nil => rfl
      | cons t ts =>
          simp only [List.cons_append, drain]
          split
          · exact ih
          · rfl

/-- Who comes later does not change what is taken. -/
theorem drain_join (h : drain owner last messages owners = some rest) (later : List τ) :
    drain owner last messages (owners ++ later) = some (rest ++ later) := by
  induction messages generalizing owners with
  | nil =>
      cases h
      rfl
  | cons m messages ih =>
      obtain ⟨ts, rfl, h⟩ := drain_cons h
      have taken := ih h
      simp only [List.cons_append, drain, if_true]
      split at taken
      · next ended =>
        rw [if_pos ended]
        exact taken
      · next part =>
        rw [if_neg part]
        exact taken

/-- Every message on the queue is for someone who is waited for. -/
theorem drain_owner (h : drain owner last messages owners = some rest) :
    ∀ m ∈ messages, owner m ∈ owners := by
  induction messages generalizing owners with
  | nil => simp
  | cons m messages ih =>
      obtain ⟨ts, rfl, h⟩ := drain_cons h
      intro m' hm'
      rcases List.mem_cons.mp hm' with rfl | hm'
      · exact List.mem_cons_self
      · have later := ih h m' hm'
        split at later
        · exact List.mem_cons_of_mem _ later
        · exact later

/-- One more message of the owner whose turn it is. -/
theorem drain_push (h : drain owner last messages owners = some (owner m :: rest)) :
    drain owner last (messages ++ [m]) owners =
      some (if last m then rest else owner m :: rest) := by
  rw [drain_append, h]
  simp [drain]

end Blocks
