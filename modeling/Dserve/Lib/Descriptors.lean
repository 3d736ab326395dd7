import Mathlib.Data.Nat.Nth

/-!
The descriptors of a process.

A descriptor is the place of an entry in the table of its process. A new one is the least that is
free, unless that is beyond the limit; one that is closed is free again. A process that only opens
gets the descriptors that were free at the start, one after the other (`Filled.alloc`), until none
of these is left below the limit (`Filled.alloc_eq_none`).
-/

/-- The objects that are open, by their descriptors. -/
structure Descriptors (δ : Type) where
  entries : List (Option δ)
deriving DecidableEq

namespace Descriptors

variable {δ : Type} {limit fd i : Nat} {t t' t₀ : Descriptors δ} {x y : δ} {xs : List δ}

def get (t : Descriptors δ) (fd : Nat) : Option δ := t.entries.getD fd none

/-- Nothing is open under this descriptor. -/
def Free (t : Descriptors δ) (fd : Nat) : Prop := t.get fd = none

instance (t : Descriptors δ) : DecidablePred t.Free := fun fd =>
  decidable_of_iff ((t.get fd).isNone = true) Option.isNone_iff_eq_none

/-- Open an object under the least free descriptor. -/
def alloc (limit : Nat) (t : Descriptors δ) (x : δ) : Option (Nat × Descriptors δ) :=
  let fd := t.entries.findIdx Option.isNone
  if fd < limit then some (fd, ⟨t.entries.take fd ++ some x :: t.entries.drop (fd + 1)⟩) else none

def close (t : Descriptors δ) (fd : Nat) : Descriptors δ := ⟨t.entries.set fd none⟩

theorem get_close (t : Descriptors δ) (fd i : Nat) :
    (t.close fd).get i = if i = fd then none else t.get i := by
  unfold get close
  rw [List.getD_eq_getElem?_getD, List.getD_eq_getElem?_getD, List.getElem?_set]
  by_cases same : fd = i
  · subst same
    by_cases inside : fd < t.entries.length <;> simp [inside]
  · rw [if_neg same, if_neg fun h => same h.symm]

/-- Beyond the table everything is free. -/
theorem infinite_free (t : Descriptors δ) : (Set.ofPred t.Free).Infinite := by
  apply Set.infinite_of_injective_forall_mem (f := fun n => t.entries.length + n)
  · exact fun i j same => Nat.add_left_cancel same
  · intro n
    show t.get _ = none
    unfold get
    rw [List.getD_eq_default _ _ (Nat.le_add_right _ _)]

/-- The descriptor that is taken is the least free one. -/
theorem findIdx_least (t : Descriptors δ) : t.Free (t.entries.findIdx Option.isNone) ∧
    ∀ i < t.entries.findIdx Option.isNone, ¬ t.Free i := by
  constructor
  · unfold Free get
    by_cases inside : t.entries.findIdx Option.isNone < t.entries.length
    · rw [List.getD_eq_getElem _ _ inside]
      exact Option.isNone_iff_eq_none.mp List.findIdx_getElem
    · exact List.getD_eq_default _ _ (Nat.not_lt.mp inside)
  · intro i below free
    have inside : i < t.entries.length := Nat.lt_of_lt_of_le below List.findIdx_le_length
    have used := List.not_of_lt_findIdx below
    unfold Free get at free
    rw [List.getD_eq_getElem _ _ inside] at free
    simp [free] at used

/-- What `alloc` does. -/
structure Opens (limit : Nat) (t : Descriptors δ) (x : δ) (fd : Nat) (t' : Descriptors δ) : Prop where
  bound : fd < limit
  free : t.Free fd
  least : ∀ i < fd, ¬ t.Free i
  get : ∀ i, t'.get i = if i = fd then some x else t.get i

theorem alloc_opens (h : t.alloc limit x = some (fd, t')) : Opens limit t x fd t' := by
  simp only [alloc] at h
  split at h
  · next bound =>
    obtain ⟨free, least⟩ := t.findIdx_least
    generalize idx : t.entries.findIdx Option.isNone = k at *
    cases h
    refine ⟨bound, free, least, fun i => ?_⟩
    have short : fd ≤ t.entries.length := idx ▸ List.findIdx_le_length
    have length : (t.entries.take fd).length = fd := by rw [List.length_take, Nat.min_eq_left short]
    unfold Descriptors.get
    simp only [List.getD_eq_getElem?_getD]
    rcases Nat.lt_trichotomy i fd with below | rfl | above
    · rw [List.getElem?_append_left (by omega), List.getElem?_take, if_pos below, if_neg (by omega)]
    · rw [List.getElem?_append_right (by omega), length, Nat.sub_self, if_pos rfl]
      rfl
    · obtain ⟨d, rfl⟩ := Nat.exists_eq_add_of_lt above
      rw [List.getElem?_append_right (by omega), length, if_neg (by omega)]
      have place : fd + d + 1 - fd = d + 1 := by omega
      have here : fd + 1 + d = fd + d + 1 := by omega
      rw [place, List.getElem?_cons_succ, List.getElem?_drop, here]
  · cases h

theorem alloc_eq_none : t.alloc limit x = none ↔ ∀ i < limit, ¬ t.Free i := by
  obtain ⟨free, least⟩ := t.findIdx_least
  simp only [alloc]
  split
  · next bound =>
    constructor
    · intro h
      cases h
    · intro none
      exact absurd free (none _ bound)
  · next beyond => exact ⟨fun _ i below => least i (by omega), fun _ => rfl⟩

/-- The free descriptors of a table were given to these objects, in their order. -/
def Filled (t₀ : Descriptors δ) (xs : List δ) (t : Descriptors δ) : Prop :=
  ∀ i, t.get i = if t₀.Free i then xs[Nat.count t₀.Free i]? else t₀.get i

theorem filled_nil (t : Descriptors δ) : Filled t [] t := by
  intro i
  split
  · next free => exact free
  · rfl

/-- What is free now was free at the start, and none of the objects came to it. -/
theorem Filled.free_iff (filled : Filled t₀ xs t) :
    t.Free i ↔ t₀.Free i ∧ xs.length ≤ Nat.count t₀.Free i := by
  unfold Free
  rw [filled i]
  by_cases free : t₀.Free i
  · rw [if_pos free, List.getElem?_eq_none_iff]
    exact ⟨fun h => ⟨free, h⟩, And.right⟩
  · rw [if_neg free]
    exact ⟨fun h => absurd h free, fun h => h.1⟩

/-- The next object gets the next of them. -/
theorem Filled.alloc (filled : Filled t₀ xs t) (h : t.alloc limit x = some (fd, t')) :
    Filled t₀ (xs ++ [x]) t' ∧ fd = Nat.nth t₀.Free xs.length := by
  obtain ⟨-, free, least, opened⟩ := alloc_opens h
  obtain ⟨free₀, count⟩ := filled.free_iff.mp free
  have exact : Nat.count t₀.Free fd = xs.length := by
    apply Nat.le_antisymm _ count
    by_contra more
    have below := Nat.nth_lt_of_lt_count (Nat.not_le.mp more)
    refine least _ below (filled.free_iff.mpr ⟨Nat.nth_mem_of_infinite t₀.infinite_free _, ?_⟩)
    rw [Nat.count_nth_of_infinite t₀.infinite_free]
  refine ⟨fun i => ?_, by rw [← exact, Nat.nth_count free₀]⟩
  rw [opened i]
  by_cases same : i = fd
  · subst same
    rw [if_pos rfl, if_pos free₀, exact, List.getElem?_append_right (Nat.le_refl _), Nat.sub_self]
    rfl
  · rw [if_neg same, filled i]
    by_cases free_i : t₀.Free i
    · have other : Nat.count t₀.Free i ≠ xs.length := fun h =>
        same (Nat.count_injective free_i free₀ (h.trans exact.symm))
      rw [if_pos free_i, if_pos free_i]
      rcases Nat.lt_or_gt_of_ne other with less | more
      · rw [List.getElem?_append_left less]
      · rw [List.getElem?_eq_none (Nat.le_of_lt more), List.getElem?_eq_none (by simpa using more)]
    · rw [if_neg free_i, if_neg free_i]

/-- Nothing can be opened when they have all been given away. -/
theorem Filled.alloc_eq_none (filled : Filled t₀ xs t) :
    t.alloc limit x = none ↔ Nat.count t₀.Free limit ≤ xs.length := by
  rw [Descriptors.alloc_eq_none]
  constructor
  · intro used
    by_contra more
    have below := Nat.nth_lt_of_lt_count (Nat.not_le.mp more)
    refine used _ below (filled.free_iff.mpr ⟨Nat.nth_mem_of_infinite t₀.infinite_free _, ?_⟩)
    rw [Nat.count_nth_of_infinite t₀.infinite_free]
  · intro full i below free
    obtain ⟨free₀, count⟩ := filled.free_iff.mp free
    exact absurd (Nat.count_strict_mono free₀ below) (Nat.not_lt.mpr (full.trans count))

end Descriptors
