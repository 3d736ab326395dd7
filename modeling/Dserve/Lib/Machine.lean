/-!
Labelled machines and their runs.

A machine is a partial step function: an action that is not enabled in a state
has no result. A run may be restricted by a condition on the state and the
action of each of its steps, so that a safety property can be stated for every
run (`Reachable`) or for the runs whose steps all meet a condition (`Run ok`).

`Run.invariant` is the induction every safety proof uses; `exec` replays a list
of actions, so that concrete runs can be evaluated (`exists_run_of_exec`).
-/

/-- A partial step function on states `σ`, driven by actions `α`. -/
structure Machine (σ α : Type) where
  step : σ → α → Option σ

namespace Machine

variable {σ α : Type} {M : Machine σ α} {ok ok' : σ → α → Prop} {s t u : σ}

/-- `M.Run ok s t`: `t` is reached from `s` by steps that meet `ok`, each in the
state it starts from. -/
inductive Run (M : Machine σ α) (ok : σ → α → Prop) (s : σ) : σ → Prop where
  | refl : Run M ok s s
  | tail {t u : σ} {a : α} : Run M ok s t → ok t a → M.step t a = some u → Run M ok s u

/-- Reachability by any steps. -/
abbrev Reachable (M : Machine σ α) (s t : σ) : Prop := M.Run (fun _ _ => True) s t

theorem Run.mono (sub : ∀ s a, ok s a → ok' s a) (run : M.Run ok s t) : M.Run ok' s t := by
  induction run with
  | refl => exact .refl
  | tail _ good step ih => exact ih.tail (sub _ _ good) step

theorem Run.trans (first : M.Run ok s t) (second : M.Run ok t u) : M.Run ok s u := by
  induction second with
  | refl => exact first
  | tail _ good step ih => exact ih.tail good step

/-- What holds at the start and is kept by every admitted step holds in every
state of the run. -/
theorem Run.invariant {I : σ → Prop} (run : M.Run ok s t) (start : I s)
    (keep : ∀ t a u, I t → ok t a → M.step t a = some u → I u) : I t := by
  induction run with
  | refl => exact start
  | tail _ good step ih => exact keep _ _ _ ih good step

/-- The invariant rule with a second property that is already known along the
run. -/
theorem Run.invariant_with {I J : σ → Prop} (run : M.Run ok s t)
    (known : ∀ t, M.Run ok s t → J t) (start : I s)
    (keep : ∀ t a u, J t → I t → ok t a → M.step t a = some u → I u) : I t := by
  induction run with
  | refl => exact start
  | tail before good step ih => exact keep _ _ _ (known _ before) ih good step

/-- Replay a list of actions; an action that is not enabled, or not admitted by
`ok`, stops the replay. -/
def exec (M : Machine σ α) (ok : σ → α → Prop) [∀ s a, Decidable (ok s a)] :
    List α → σ → Option σ
  | [], s => some s
  | a :: as, s => if ok s a then (M.step s a).bind (M.exec ok as) else none

theorem exec_run [∀ s a, Decidable (ok s a)] {as : List α} (h : M.exec ok as s = some t) :
    M.Run ok s t := by
  suffices ∀ r, M.Run ok r s → M.Run ok r t from this s .refl
  intro r before
  induction as generalizing s with
  | nil => simp only [exec, Option.some.injEq] at h; exact h ▸ before
  | cons a as ih =>
      simp only [exec] at h
      split at h
      · next good =>
        obtain ⟨u, step, rest⟩ := Option.bind_eq_some_iff.mp h
        exact ih rest (before.tail good step)
      · cases h

/-- A replay that ends in a state with `p` witnesses a run to such a state. -/
theorem exists_run_of_exec (M : Machine σ α) (ok : σ → α → Prop) [∀ s a, Decidable (ok s a)]
    (s : σ) (as : List α) (p : σ → Prop) [∀ s, Decidable (p s)]
    (h : (M.exec ok as s).any (fun t => decide (p t)) = true) : ∃ t, M.Run ok s t ∧ p t := by
  cases hs : M.exec ok as s with
  | none => simp [hs] at h
  | some t => exact ⟨t, exec_run hs, by simpa [hs] using h⟩

end Machine
