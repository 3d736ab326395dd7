import Mathlib.Algebra.Group.Defs
import Mathlib.Data.List.TakeWhile

/-!
Objects in memory.

An object is a row of cells. `load` and `store` are `memcpy` out of it and into it. A load
gives back what was stored on its range, and what was there before on every other range
(`load_store`, `load_store_disjoint`). A C string in a range ends with its first zero
(`cstring`); `strncpy` leaves one exactly when the string is shorter than the field
(`cstring_strncpy`).
-/

structure Object (β : Type) (n : Nat) where
  cells : List β
  size : cells.length = n

/-- The place of a member in an object. -/
structure Object.Place where
  offset : Nat
  width : Nat
deriving DecidableEq

/-- The first multiple of the alignment from `offset` on. -/
def Object.alignUp (align offset : Nat) : Nat := (offset + align - 1) / align * align

/-- The places of members with the given sizes and alignments, one after the other. -/
def Object.layout : Nat → List (Nat × Nat) → List Place
  | _, [] => []
  | offset, (width, align) :: members =>
      ⟨alignUp align offset, width⟩ :: layout (alignUp align offset + width) members

namespace Object

variable {β : Type} {n : Nat}

def zero [Zero β] : Object β n := ⟨List.replicate n 0, List.length_replicate⟩

/-- The cells of a field. -/
def load (o : Object β n) (f : Place) : List β := (o.cells.drop f.offset).take f.width

/-- Cells that would lie past the object are not written. -/
def store (o : Object β n) (offset : Nat) (bytes : List β) : Object β n where
  cells := o.cells.take offset ++ bytes.take (n - offset) ++ o.cells.drop (offset + bytes.length)
  size := by
    have := o.size
    simp only [List.length_append, List.length_take, List.length_drop]
    omega

variable {o : Object β n} {offset : Nat} {bytes : List β} {f : Place}

theorem getElem?_store (i : Nat) : (o.store offset bytes).cells[i]? =
    if offset ≤ i ∧ i < offset + bytes.length ∧ i < n then bytes[i - offset]? else o.cells[i]? := by
  have size := o.size
  have before : (o.cells.take offset).length = min offset n := by rw [List.length_take, size]
  have written : (bytes.take (n - offset)).length = min (n - offset) bytes.length := List.length_take
  simp only [store, List.append_assoc]
  by_cases below : i < min offset n
  · rw [List.getElem?_append_left (by omega), List.getElem?_take_of_lt (by omega), if_neg (by omega)]
  rw [List.getElem?_append_right (by omega), before]
  by_cases within : i < min offset n + min (n - offset) bytes.length
  · rw [List.getElem?_append_left (by omega), List.getElem?_take_of_lt (by omega), if_pos (by omega)]
    congr 1
    omega
  · rw [List.getElem?_append_right (by omega), List.getElem?_drop, written, if_neg (by omega)]
    by_cases past : n ≤ i
    · rw [List.getElem?_eq_none (by omega), List.getElem?_eq_none (by omega)]
    · congr 1
      omega

/-- A range that was written has the bytes written there. -/
theorem load_store (start : offset ≤ f.offset) (stop : f.offset + f.width ≤ offset + bytes.length)
    (inside : f.offset + f.width ≤ n) :
    (o.store offset bytes).load f = (bytes.drop (f.offset - offset)).take f.width := by
  apply List.ext_getElem?
  intro i
  simp only [load, List.getElem?_take, List.getElem?_drop, getElem?_store]
  split
  · rw [if_pos (by omega)]
    congr 1
    omega
  · rfl

/-- A field that was written whole. -/
theorem load_store_self (whole : bytes.length = f.width) (inside : f.offset + f.width ≤ n) :
    (o.store f.offset bytes).load f = bytes := by
  rw [load_store (Nat.le_refl _) (by omega) inside, Nat.sub_self, List.drop_zero]
  exact List.take_of_length_le (Nat.le_of_eq whole)

/-- A field whose front was written. -/
theorem load_store_front (short : bytes.length ≤ f.width) (inside : f.offset + f.width ≤ n) :
    (o.store f.offset bytes).load f = bytes ++ (o.load f).drop bytes.length := by
  apply List.ext_getElem?
  intro i
  simp only [load, List.getElem?_take, List.getElem?_drop, getElem?_store, List.getElem?_append]
  by_cases within : i < f.width
  · rw [if_pos within]
    by_cases front : i < bytes.length
    · rw [if_pos (by omega), if_pos front]
      congr 1
      omega
    · rw [if_neg (by omega), if_neg front, if_pos (by omega)]
      congr 1
      omega
  · rw [if_neg within, if_neg (by omega), if_neg (by omega)]

/-- Every other range is as it was. -/
theorem load_store_disjoint (apart : offset + bytes.length ≤ f.offset ∨ f.offset + f.width ≤ offset) :
    (o.store offset bytes).load f = o.load f := by
  apply List.ext_getElem?
  intro i
  simp only [load, List.getElem?_take, List.getElem?_drop, getElem?_store]
  split
  · rw [if_neg (by omega)]
  · rfl

/-- Objects that agree on fields that cover them are the same. -/
theorem ext_load {o' : Object β n} {places : List Place}
    (cover : ∀ i < n, ∃ f ∈ places, f.offset ≤ i ∧ i < f.offset + f.width)
    (same : ∀ f ∈ places, o.load f = o'.load f) : o = o' := by
  have cells : o.cells = o'.cells := by
    apply List.ext_getElem?
    intro i
    by_cases inside : i < n
    · obtain ⟨f, hf, start, stop⟩ := cover i inside
      have at_i := congrArg (·[i - f.offset]?) (same f hf)
      simp only [load, List.getElem?_take, List.getElem?_drop] at at_i
      rw [if_pos (by omega), if_pos (by omega), Nat.add_sub_cancel' start] at at_i
      exact at_i
    · have size := o.size
      have size' := o'.size
      rw [List.getElem?_eq_none (by omega), List.getElem?_eq_none (by omega)]
  cases o
  cases o'
  cases cells
  rfl

theorem load_zero [Zero β] (inside : f.offset + f.width ≤ n) :
    (zero : Object β n).load f = List.replicate f.width 0 := by
  simp only [load, zero, List.drop_replicate, List.take_replicate]
  congr 1
  omega

end Object

/-! ### C strings -/

section

variable {β : Type} [Zero β] [DecidableEq β]

/-- The string at the start of the cells; none when there is no terminator among them. -/
def cstring (cells : List β) : Option (List β) :=
  if 0 ∈ cells then some (cells.takeWhile (· ≠ 0)) else none

/-- `strlen`, as far as the cells go. -/
def strlen (cells : List β) : Nat := (cells.takeWhile (· ≠ 0)).length

/-- A string that ends in its field ends there for `strlen` too. -/
theorem strlen_of_cstring {n : Nat} {o : Object β n} {f : Object.Place} {s : List β}
    (ends : cstring (o.load f) = some s) : strlen (o.cells.drop f.offset) = s.length := by
  unfold cstring at ends
  split at ends
  · next terminated =>
    cases ends
    have stops : (List.takeWhile (· ≠ 0) (o.load f)).length ≠ (o.load f).length := by
      intro whole
      have all := List.takeWhile_eq_self_iff.mp (List.IsPrefix.eq_of_length (List.takeWhile_prefix _) whole)
      simpa using all 0 terminated
    have cells : o.cells.drop f.offset = o.load f ++ (o.cells.drop f.offset).drop f.width :=
      (List.take_append_drop _ _).symm
    rw [strlen, cells, List.takeWhile_append, if_neg stops]
  · cases ends

/-- `strcmp(a, b) == 0`; none when it reads past the cells. -/
def strcmpEqual : List β → List β → Option Bool
  | x :: xs, y :: ys => if x = y then if x = 0 then some true else strcmpEqual xs ys else some false
  | _, _ => none

/-- What `strncpy` writes into a field of `n` cells. -/
def strncpy (s : List β) (n : Nat) : List β := s.take n ++ List.replicate (n - s.length) 0

variable {s : List β} {n k : Nat}

omit [DecidableEq β] in
@[simp] theorem length_strncpy : (strncpy s n).length = n := by
  simp only [strncpy, List.length_append, List.length_take, List.length_replicate]
  omega

omit [DecidableEq β] in
theorem take_strncpy (within : k ≤ n) : (strncpy s n).take k = strncpy s k := by
  simp only [strncpy, List.take_append, List.take_take, List.take_replicate, List.length_take]
  congr 2 <;> omega

/-- The copy can be read as a string when it did not fill the field. -/
theorem cstring_strncpy (clean : 0 ∉ s) :
    cstring (strncpy s n) = if s.length < n then some s else none := by
  split
  · next short =>
    have terminated : (0 : β) ∈ strncpy s n := by
      apply List.mem_append_right
      rw [List.mem_replicate]
      exact ⟨by omega, rfl⟩
    have stops : ∀ b ∈ s, (decide (b ≠ 0)) = true := by
      intro b hb
      simpa using fun zero : b = 0 => clean (zero ▸ hb)
    rw [cstring, if_pos terminated, strncpy, List.take_of_length_le (by omega),
      List.takeWhile_append_of_pos stops, List.takeWhile_replicate]
    simp
  · next long =>
    have filled : strncpy s n = s.take n := by
      rw [strncpy, Nat.sub_eq_zero_of_le (by omega), List.replicate_zero, List.append_nil]
    rw [filled, cstring, if_neg]
    intro zero
    exact clean (List.mem_of_mem_take zero)

omit [DecidableEq β] in
/-- A string that does not fill the field is followed by its terminator, and by zeros. -/
theorem strncpy_short (short : s.length < n) :
    strncpy s n = s ++ [0] ++ List.replicate (n - (s ++ [0]).length) 0 := by
  have rest : n - s.length = n - (s ++ [0]).length + 1 := by
    rw [List.length_append, List.length_singleton]
    omega
  rw [strncpy, List.take_of_length_le (Nat.le_of_lt short), rest, List.replicate_succ,
    List.append_assoc, List.singleton_append]

omit [DecidableEq β] in
/-- Past the string there are zeros. -/
theorem drop_strncpy (short : s.length ≤ k) (within : k ≤ n) :
    (strncpy s n).drop k = List.replicate (n - k) 0 := by
  rw [strncpy, List.take_of_length_le (by omega), List.drop_append, List.drop_eq_nil_of_le short,
    List.nil_append, List.drop_replicate]
  congr 1
  omega

end
