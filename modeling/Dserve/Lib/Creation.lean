import Mathlib.Data.List.Forall2

/-!
Creating what is missing, one name after the other.

`createEach` looks for each name and creates it when it is not there. A strict one stops at the
first creation that fails, a lenient one goes on. `createEach_iff` says when going through one list
of names comes to the same as the strict way through another.
-/

/-- Where things exist under names, and can be created. -/
structure Places (σ ν : Type) where
  found : σ → ν → Bool
  create : σ → ν → σ × Bool
  created : ∀ s p, (create s p).2 = true → found (create s p).1 p = true
  kept : ∀ s p q, found s q = true → found (create s p).1 q = true
  refused : ∀ s p, (create s p).2 = false → (create s p).1 = s

/-- What was looked for, and what was created, or not. -/
inductive Trial (ν : Type) where
  | looked (p : ν)
  | tried (p : ν) (made : Bool)
deriving DecidableEq

/-- The trials, what is returned, and the state that is left. -/
structure Trials (σ ν : Type) where
  trace : List (Trial ν)
  ret : Bool
  state : σ
deriving DecidableEq

namespace Places

variable {σ ν : Type} (places : Places σ ν)

/-- Look for a name and create it when it is not there; then go on, unless that failed. -/
def visit (strict : Bool) (s : σ) (p : ν) (next : σ → Trials σ ν) : Trials σ ν :=
  if places.found s p then
    { next s with trace := .looked p :: (next s).trace }
  else
    let made := places.create s p
    if made.2 = false ∧ strict = true then ⟨[.looked p, .tried p false], false, made.1⟩
    else { next made.1 with trace := .looked p :: .tried p made.2 :: (next made.1).trace }

def createEach (strict : Bool) : σ → List ν → Trials σ ν
  | s, [] => ⟨[], true, s⟩
  | s, p :: ps => places.visit strict s p fun s => createEach strict s ps

/-- The names up to the first one that cannot be created. -/
def reached : σ → List ν → List ν
  | _, [] => []
  | s, p :: ps =>
      if places.found s p then p :: reached s ps
      else if (places.create s p).2 then p :: reached (places.create s p).1 ps
      else [p]

/-- Some name cannot be created. -/
def fails : σ → List ν → Bool
  | _, [] => false
  | s, p :: ps =>
      if places.found s p then fails s ps
      else if (places.create s p).2 then fails (places.create s p).1 ps
      else true

variable {places} {strict : Bool} {s : σ} {p q a w : ν} {ps as ws : List ν} {next : σ → Trials σ ν}

/-! ### One name -/

theorem createEach_cons (places : Places σ ν) (strict : Bool) (s : σ) (p : ν) (ps : List ν) :
    places.createEach strict s (p :: ps) =
      places.visit strict s p fun s => places.createEach strict s ps := rfl

theorem visit_found (there : places.found s p = true) : places.visit strict s p next =
    { next s with trace := .looked p :: (next s).trace } := if_pos there

theorem visit_made (missing : places.found s p = false) (made : (places.create s p).2 = true) :
    places.visit strict s p next =
      { next (places.create s p).1 with
        trace := .looked p :: .tried p true :: (next (places.create s p).1).trace } := by
  unfold visit
  simp only [missing, made, Bool.false_eq_true, if_false, reduceCtorEq, false_and]

theorem visit_strict (missing : places.found s p = false) (refused : (places.create s p).2 = false) :
    places.visit true s p next = ⟨[.looked p, .tried p false], false, s⟩ := by
  unfold visit
  simp only [missing, refused, Bool.false_eq_true, if_false, and_self, if_true,
    places.refused s p refused]

theorem visit_lenient (missing : places.found s p = false)
    (refused : (places.create s p).2 = false) : places.visit false s p next =
      { next s with trace := .looked p :: .tried p false :: (next s).trace } := by
  unfold visit
  simp only [missing, refused, Bool.false_eq_true, if_false, and_false, places.refused s p refused]

/-- The first trial is a look at the name. -/
theorem visit_head : (places.visit strict s p next).trace.head? = some (.looked p) := by
  unfold visit
  split
  · rfl
  · dsimp only
    split <;> rfl

theorem createEach_head (places : Places σ ν) (strict : Bool) (s : σ) (ps : List ν) :
    (places.createEach strict s ps).trace.head? = ps.head?.map .looked := by
  cases ps with
  | nil => rfl
  | cons p ps => exact visit_head

/-- What exists goes on existing. -/
theorem createEach_kept (there : places.found s q = true) :
    places.found (places.createEach strict s ps).state q = true := by
  induction ps generalizing s with
  | nil => exact there
  | cons p ps ih =>
      rw [createEach_cons, visit]
      split
      · exact ih there
      · dsimp only
        split
        · exact places.kept s p q there
        · exact ih (places.kept s p q there)

/-- The lenient way goes through all names, whatever comes of it. -/
theorem createEach_lenient : (places.createEach false s ps).ret = true := by
  induction ps generalizing s with
  | nil => rfl
  | cons p ps ih =>
      rw [createEach_cons, visit]
      split
      · exact ih
      · simp only [Bool.false_eq_true, and_false, if_false]
        exact ih

/-! ### Two lists of names -/

/-- Going through one list leaves the trials of the strict way through the other, and returns true
exactly when the names of the other exist. -/
def Follows (places : Places σ ν) (strict : Bool) (s : σ) (ps ws : List ν) : Prop :=
  (places.createEach strict s ps).trace = (places.createEach true s ws).trace ∧
    ((places.createEach strict s ps).ret = true ↔
      ∀ w ∈ ws, places.found (places.createEach strict s ps).state w = true)

/-- The first names are the same. -/
theorem follows_head (follows : places.Follows strict s (a :: as) (w :: ws)) : a = w := by
  have heads := congrArg List.head? follows.1
  rw [createEach_head, createEach_head] at heads
  cases heads
  rfl

/-- A name that is there is passed. -/
theorem follows_found (there : places.found s w = true) :
    places.Follows strict s (w :: as) (w :: ws) ↔ places.Follows strict s as ws := by
  have still : places.found (places.createEach strict s as).state w = true := createEach_kept there
  unfold Follows
  simp only [createEach_cons, visit_found there, List.cons.injEq, true_and, List.forall_mem_cons, still]

/-- And so is one that is created. -/
theorem follows_made (missing : places.found s w = false) (made : (places.create s w).2 = true) :
    places.Follows strict s (w :: as) (w :: ws) ↔
      places.Follows strict (places.create s w).1 as ws := by
  have still : places.found (places.createEach strict (places.create s w).1 as).state w = true :=
    createEach_kept (places.created s w made)
  unfold Follows
  simp only [createEach_cons, visit_made missing made, List.cons.injEq, true_and, List.forall_mem_cons,
    still]

/-- When a name cannot be created, a strict way stops as it should, and a lenient one does not. -/
theorem follows_refused (missing : places.found s w = false)
    (refused : (places.create s w).2 = false) :
    places.Follows strict s (w :: as) (w :: ws) ↔ strict = true := by
  unfold Follows
  cases strict with
  | true =>
      simp only [createEach_cons, visit_strict missing refused, true_and, iff_true, Bool.false_eq_true,
        false_iff]
      intro all
      rw [all w List.mem_cons_self] at missing
      cases missing
  | false =>
      simp only [createEach_cons, visit_strict missing refused, visit_lenient missing refused,
        Bool.false_eq_true, iff_false, List.cons.injEq, true_and]
      rintro ⟨trace, ret⟩
      cases as with
      | nil =>
          have there : places.found s w = true := ret.mp rfl w List.mem_cons_self
          rw [missing] at there
          cases there
      | cons a as =>
          have head := places.createEach_head false s (a :: as)
          rw [trace] at head
          cases head

/-- Only the names themselves are reached. -/
theorem reached_subset : places.reached s ws ⊆ ws := by
  induction ws generalizing s with
  | nil => exact List.Subset.refl _
  | cons w ws ih =>
      rw [reached]
      split
      · exact List.cons_subset_cons w ih
      · split
        · exact List.cons_subset_cons w ih
        · exact List.cons_subset_cons w (List.nil_subset ws)

/-- The first name is reached. -/
theorem head_reached : w ∈ places.reached s (w :: ws) := by
  rw [reached]
  split
  · exact List.mem_cons_self
  · split <;> exact List.mem_cons_self

/-- Names follow those they should be exactly when they are right as far as these are reached, and
none of these is refused, unless the way is strict. -/
theorem createEach_iff {right : ν → Prop} (same : List.Forall₂ (fun a w => a = w ↔ right w) as ws) :
    places.Follows strict s as ws ↔
      (∀ w ∈ places.reached s ws, right w) ∧ (strict = true ∨ places.fails s ws = false) := by
  induction same generalizing s with
  | nil => simp [Follows, createEach, reached, fails]
  | @cons a w as ws first _ ih =>
      by_cases is_right : right w
      · obtain rfl := first.mpr is_right
        cases there : places.found s a with
        | true => simp [follows_found there, ih, reached, fails, there, is_right]
        | false =>
            cases made : (places.create s a).2 with
            | true => simp [follows_made there made, ih, reached, fails, there, made, is_right]
            | false => simp [follows_refused there made, reached, fails, there, made, is_right]
      · constructor
        · intro follows
          exact absurd (first.mp (follows_head follows)) is_right
        · rintro ⟨all, -⟩
          exact absurd (all w head_reached) is_right

end Places
