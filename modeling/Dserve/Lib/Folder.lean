import Mathlib.Data.Set.Card

/-!
Named files, and the search for a name that is free.

A folder is a finite set of names with their contents; every name is one that the file system
admits. `probe` counts up to the first index that is not taken. Among `n` different names there is
a free one when fewer than `n` of them are in use (`exists_free`).
-/

structure Folder (ν χ : Type) (admits : ν → Prop) where
  content : ν → Option χ
  names : Finset ν
  mem_names : ∀ name, name ∈ names ↔ content name ≠ none
  admitted : ∀ name ∈ names, admits name

namespace Folder

variable {ν χ : Type} [DecidableEq ν] {admits : ν → Prop} {f g : Folder ν χ admits} {old new : ν}

/-- Give the file another name; what had that name is lost. None when there is no file with the old
name, or the new one is not admitted. -/
def rename (f : Folder ν χ admits) (old new : ν) [Decidable (admits new)] :
    Option (Folder ν χ admits) :=
  if valid : old ∈ f.names ∧ admits new then
    some {
      content := fun name =>
        if name = new then f.content old else if name = old then none else f.content name
      names := insert new (f.names.erase old)
      mem_names := by
        intro name
        rw [Finset.mem_insert, Finset.mem_erase]
        by_cases is_new : name = new
        · simp only [is_new, true_or, if_true, true_iff]
          exact (f.mem_names old).mp valid.1
        · by_cases is_old : name = old
          · subst is_old
            simp [is_new]
          · simp only [is_new, is_old, false_or, if_false, ne_eq, not_false_eq_true, true_and]
            exact f.mem_names name
      admitted := by
        intro name hname
        rcases Finset.mem_insert.mp hname with rfl | kept
        · exact valid.2
        · exact f.admitted name (Finset.mem_of_mem_erase kept) }
  else none

/-- The file has the new name and not the old one, and every other name has what it had. -/
theorem rename_content [Decidable (admits new)] (renamed : f.rename old new = some g)
    (differ : new ≠ old) : g.content new = f.content old ∧ g.content old = none ∧
      ∀ name, name ≠ old → name ≠ new → g.content name = f.content name := by
  unfold rename at renamed
  split at renamed
  · cases renamed
    refine ⟨if_pos rfl, ?_, ?_⟩
    · show (if old = new then f.content old else if old = old then none else f.content old) = none
      rw [if_neg (Ne.symm differ), if_pos rfl]
    · intro name not_old not_new
      show (if name = new then f.content old else if name = old then none else f.content name) = _
      rw [if_neg not_new, if_neg not_old]
  · cases renamed

/-- An empty file of this name, unless there is a file of this name already. None when the name is
not admitted. -/
def create (f : Folder ν χ admits) (name : ν) (empty : χ) [Decidable (admits name)] :
    Option (Folder ν χ admits) :=
  if name ∈ f.names then some f
  else if valid : admits name then
    some {
      content := fun other => if other = name then some empty else f.content other
      names := insert name f.names
      mem_names := by
        intro other
        rw [Finset.mem_insert]
        by_cases same : other = name
        · simp [same]
        · simp only [same, false_or, if_false]
          exact f.mem_names other
      admitted := by
        intro other member
        rcases Finset.mem_insert.mp member with rfl | old
        · exact valid
        · exact f.admitted other old }
  else none

/-- Change what a file has. -/
def modify (f : Folder ν χ admits) (name : ν) (change : χ → χ) : Folder ν χ admits where
  content other := if other = name then (f.content name).map change else f.content other
  names := f.names
  mem_names other := by
    by_cases same : other = name
    · subst same
      simp only [if_true, ne_eq, Option.map_eq_none_iff]
      exact f.mem_names other
    · simp only [same, if_false]
      exact f.mem_names other
  admitted := f.admitted

variable {name : ν} {empty : χ}

theorem create_content [Decidable (admits name)] (created : f.create name empty = some g)
    (new : name ∉ f.names) (other : ν) :
    g.content other = if other = name then some empty else f.content other := by
  unfold create at created
  rw [if_neg new] at created
  split at created
  · cases created
    rfl
  · cases created

theorem modify_content (f : Folder ν χ admits) (name other : ν) (change : χ → χ) :
    (f.modify name change).content other =
      if other = name then (f.content name).map change else f.content other := rfl

end Folder

/-! ### The first free index -/

section

variable {taken : Nat → Bool} {left i k : Nat}

/-- The first of the next `left` indices from `i` on that is not taken. -/
def probe (taken : Nat → Bool) : Nat → Nat → Option Nat
  | 0, _ => none
  | left + 1, i => if taken i then probe taken left (i + 1) else some i

/-- What is found is free, and everything before it is taken. -/
theorem probe_least (found : probe taken left i = some k) :
    k < i + left ∧ taken k = false ∧ ∀ j, i ≤ j → j < k → taken j = true := by
  induction left generalizing i with
  | zero => cases found
  | succ left ih =>
      rw [probe] at found
      split at found
      · next used =>
        obtain ⟨bound, free, before⟩ := ih found
        refine ⟨by omega, free, ?_⟩
        intro j from_i below
        rcases Nat.eq_or_lt_of_le from_i with rfl | later
        · exact used
        · exact before j later below
      · next unused =>
        cases found
        refine ⟨by omega, Bool.not_eq_true _ ▸ unused, ?_⟩
        intro j from_i below
        omega

/-- A free index is found. -/
theorem probe_finds (start : i ≤ k) (bound : k < i + left) (free : taken k = false) :
    ∃ k, probe taken left i = some k := by
  induction left generalizing i with
  | zero => omega
  | succ left ih =>
      rw [probe]
      split
      · next used =>
        have later : i + 1 ≤ k := by
          rcases Nat.eq_or_lt_of_le start with rfl | later
          · rw [free] at used
            cases used
          · exact later
        exact ih later (by omega)
      · exact ⟨i, rfl⟩

/-- One of the first `n` names is free when fewer than `n` of these are in use. -/
theorem exists_free {ν : Type} {name : Nat → ν} {names : Finset ν} {n : Nat}
    (inj : ∀ i j, name i = name j → i = j)
    (few : {x | x ∈ names ∧ ∃ i < n, x = name i}.ncard < n) : ∃ k < n, name k ∉ names := by
  by_contra none_free
  push Not at none_free
  have finite : {x | x ∈ names ∧ ∃ i < n, x = name i}.Finite :=
    names.finite_toSet.subset fun x hx => hx.1
  have within : name '' ↑(Finset.range n) ⊆ {x | x ∈ names ∧ ∃ i < n, x = name i} := by
    rintro x ⟨i, hi, rfl⟩
    have below : i < n := Finset.mem_range.mp hi
    exact ⟨none_free i below, i, below, rfl⟩
  have all := Set.ncard_le_ncard within finite
  rw [Set.ncard_image_of_injective _ fun i j => inj i j, Set.ncard_coe_finset, Finset.card_range] at all
  exact absurd few (Nat.not_lt.mpr all)

end
