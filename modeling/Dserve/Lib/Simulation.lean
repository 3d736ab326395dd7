import Dserve.Lib.Machine

/-!
A machine that behaves like a component which is only described.

A `Component` says which events may be seen in a state, and which states they leave behind. A
machine is `noted` when the events of its steps are written down. When every step keeps a relation
to the states of the component, which shows the events of the step meanwhile, then all that is
written down along a run is a trace of the component (`Simulates.trace`).
-/

/-- What may be seen of a component in a state, and the state after that. -/
structure Component (τ ε : Type) where
  shows : τ → ε → τ → Prop

namespace Component

variable {τ ε : Type} {C D : Component τ ε} {x y z : τ} {es es' : List ε} {e : ε}

/-- The component goes from one state to another and shows these events. -/
inductive Trace (C : Component τ ε) (x : τ) : List ε → τ → Prop where
  | nil : Trace C x [] x
  | snoc {es : List ε} {e : ε} {y z : τ} : Trace C x es y → C.shows y e z → Trace C x (es ++ [e]) z

theorem Trace.single (shown : C.shows x e y) : C.Trace x [e] y := Trace.nil.snoc shown

theorem Trace.append (first : C.Trace x es y) (second : C.Trace y es' z) : C.Trace x (es ++ es') z := by
  induction second with
  | nil => rwa [List.append_nil]
  | snoc _ shown ih =>
      rw [← List.append_assoc]
      exact ih.snoc shown

theorem trace_nil : C.Trace x [] y ↔ y = x := by
  constructor
  · intro trace
    generalize none : ([] : List ε) = es at trace
    cases trace with
    | nil => rfl
    | snoc => simp at none
  · rintro rfl
    exact .nil

theorem trace_single : C.Trace x [e] y ↔ C.shows x e y := by
  constructor
  · intro trace
    generalize one : [e] = es at trace
    cases trace with
    | nil => cases one
    | @snoc es e' y z trace shown =>
        have split : [] ++ [e] = es ++ [e'] := one
        obtain ⟨first, same⟩ := List.append_inj' split rfl
        rw [← first, trace_nil] at trace
        cases same
        exact trace ▸ shown
  · exact Trace.single

/-- Every event of a trace was shown in the state that the events before it lead to. -/
theorem Trace.shown (trace : C.Trace x es z) {before after : List ε} (here : es = before ++ e :: after) :
    ∃ y y', C.Trace x before y ∧ C.shows y e y' ∧ C.Trace y' after z := by
  induction trace generalizing after with
  | nil => simp at here
  | @snoc es e' y z trace shown ih =>
      rcases List.eq_nil_or_concat after with rfl | ⟨after, last, rfl⟩
      · obtain ⟨rfl, same⟩ := List.append_inj' here rfl
        cases List.cons.inj same |>.1
        exact ⟨y, z, trace, shown, .nil⟩
      · have split : es ++ [e'] = (before ++ e :: after) ++ [last] := by
          rw [here]
          simp
        obtain ⟨same, own⟩ := List.append_inj' split rfl
        cases List.cons.inj own |>.1
        obtain ⟨u, u', first, event, rest⟩ := ih same
        rw [List.concat_eq_append]
        exact ⟨u, u', first, event, rest.snoc shown⟩

end Component

/-- A state, and the events that led to it. -/
structure Noted (σ ε : Type) where
  state : σ
  events : List ε

namespace Machine

variable {σ α τ β ε : Type} {M : Machine σ α} {N : Machine τ β} {event : σ → α → σ → List ε}
  {C : Component τ ε} {ok : σ → α → Prop} {R : σ → τ → Prop} {n n' : Noted σ ε} {s : σ} {x : τ}

/-- The machine, with the events of its steps written down. -/
def noted (M : Machine σ α) (event : σ → α → σ → List ε) : Machine (Noted σ ε) α :=
  ⟨fun n a => (M.step n.state a).map fun t => ⟨t, n.events ++ event n.state a t⟩⟩

theorem noted_step {a : α} (h : (M.noted event).step n a = some n') :
    M.step n.state a = some n'.state ∧ n'.events = n.events ++ event n.state a n'.state := by
  obtain ⟨t, step, rfl⟩ := Option.map_eq_some_iff.mp h
  exact ⟨step, rfl⟩

/-- A run that is noted is a run. -/
theorem noted_run (run : (M.noted event).Run (fun n => ok n.state) n n') :
    M.Run ok n.state n'.state := by
  induction run with
  | refl => exact .refl
  | tail _ good step ih => exact ih.tail good (noted_step step).1

/-- What runs inside a machine is run by it, if every step of the machine leaves it alone or steps
it. -/
theorem Run.part (part : σ → τ) {t : σ} (run : M.Run ok s t)
    (steps : ∀ s a t, M.step s a = some t → part t = part s ∨ ∃ b, N.step (part s) b = some (part t)) :
    N.Reachable (part s) (part t) := by
  induction run with
  | refl => exact .refl
  | tail _ _ step ih =>
      rcases steps _ _ _ step with same | ⟨b, step⟩
      · exact same ▸ ih
      · exact ih.tail trivial step

/-- Every step keeps the relation to the component, which shows the events of the step. -/
def Simulates (M : Machine σ α) (event : σ → α → σ → List ε) (C : Component τ ε)
    (ok : σ → α → Prop) (R : σ → τ → Prop) : Prop :=
  ∀ s a t x, R s x → ok s a → M.step s a = some t → ∃ y, C.Trace x (event s a t) y ∧ R t y

/-- What is noted along a run is a trace of the component. -/
theorem Simulates.trace (sim : M.Simulates event C ok R) (start : R s x)
    (run : (M.noted event).Run (fun n => ok n.state) ⟨s, []⟩ n) :
    ∃ y, C.Trace x n.events y ∧ R n.state y := by
  induction run with
  | refl => exact ⟨x, .nil, start⟩
  | tail _ good step ih =>
      obtain ⟨stepped, events⟩ := noted_step step
      obtain ⟨y, trace, related⟩ := ih
      obtain ⟨z, shown, related⟩ := sim _ _ _ _ related good stepped
      exact ⟨z, events ▸ trace.append shown, related⟩

end Machine
