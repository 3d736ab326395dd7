import Dserve.Lib.Machine
import Mathlib.Data.Nat.Basic

/-!
How long a machine can go on by itself.

The actions of a machine are its own or those of its surroundings. A `Variant` is a measure that
every own step makes smaller and no other step makes greater, as long as an invariant holds. Then
the own steps of a run are no more than the measure at its start, however the others come between
(`Variant.own_steps`).
-/

namespace Machine

variable {σ α : Type} {M : Machine σ α} {I : σ → Prop} {own other : α → Bool} {work : σ → Nat}
  {s t : σ} {as : List α}

structure Variant (M : Machine σ α) (I : σ → Prop) (own other : α → Bool) (work : σ → Nat) : Prop where
  keeps : ∀ s a t, I s → M.step s a = some t → I t
  less : ∀ s a t, I s → own a = true → M.step s a = some t → work t < work s
  same : ∀ s a t, I s → other a = true → M.step s a = some t → work t ≤ work s

/-- What is left of the measure after a run, and the own steps of the run, are no more than the
measure was. -/
theorem Variant.own_steps (variant : M.Variant I own other work) (start : I s)
    (actions : ∀ a ∈ as, own a = true ∨ other a = true)
    (run : M.exec (fun _ _ => True) as s = some t) : as.countP own + work t ≤ work s := by
  induction as generalizing s with
  | nil =>
      cases run
      simp
  | cons a as ih =>
      simp only [exec, if_true] at run
      obtain ⟨u, step, run⟩ := Option.bind_eq_some_iff.mp run
      have rest := ih (variant.keeps _ _ _ start step)
        (fun a' ha' => actions a' (List.mem_cons_of_mem _ ha')) run
      by_cases mine : own a = true
      · have less := variant.less _ _ _ start mine step
        rw [List.countP_cons_of_pos mine]
        omega
      · have not_more := variant.same _ _ _ start
          ((actions a List.mem_cons_self).resolve_left mine) step
        rw [List.countP_cons_of_neg mine]
        omega

end Machine
