import Dserve.Lib.Settings

/-!
A text by its lines, and by the pieces that a buffer cuts them into.

`fgets_pieces` says that `fgets` takes the next piece, so that a loop over `fgets` is a fold
over `pieces`.
-/

namespace Settings

open Scan

/-- The lines of a text, each with its newline. The last one need not have one. -/
def lines : List Char → List (List Char)
  | [] => []
  | c :: rest =>
      if c = '\n' then [c] :: lines rest
      else match lines rest with
        | [] => [[c]]
        | line :: after => (c :: line) :: after

/-- The lines, cut after every `n` characters. There is room for `room` more in the first. -/
def pieces (n : Nat) : Nat → List Char → List (List Char)
  | _, [] => []
  | room, c :: rest =>
      if c = '\n' ∨ room ≤ 1 then [c] :: pieces n n rest
      else match pieces n (room - 1) rest with
        | [] => [[c]]
        | piece :: after => (c :: piece) :: after

/-- The line begins with the key and `=`, and that is its first `=`. -/
def HasKey (key line : List Char) : Prop := '=' ∈ line ∧ line.takeWhile (· ≠ '=') = key

instance (key line : List Char) : Decidable (HasKey key line) := by unfold HasKey; infer_instance

/-- What a line has behind its first `=`. -/
def valueText (line : List Char) : List Char := (line.dropWhile (· ≠ '=')).tail

/-- The first line with the key. -/
def lineOf (key text : List Char) : Option (List Char) :=
  (lines text).find? fun line => decide (HasKey key line)

section

variable {n : Nat} {rest : List Char} {c : Char} {eof : Bool}

/-- What is read off a text is its next piece. -/
theorem fgets_pieces {room : Nat} (positive : 0 < room) (c : Char) (rest : List Char) (eof : Bool) :
    pieces n room (c :: rest) = (fgets room ⟨c :: rest, eof⟩).1 ::
      pieces n n (fgets room ⟨c :: rest, eof⟩).2.rest := by
  induction rest generalizing room c with
  | nil =>
      obtain ⟨room, rfl⟩ := Nat.exists_eq_succ_of_ne_zero (Nat.ne_of_gt positive)
      by_cases newline : c = '\n'
      · simp [pieces, fgets, newline]
      · cases room <;> simp [pieces, fgets, newline]
  | cons d rest ih =>
      obtain ⟨room, rfl⟩ := Nat.exists_eq_succ_of_ne_zero (Nat.ne_of_gt positive)
      rw [pieces, fgets]
      by_cases newline : c = '\n'
      · simp only [newline, true_or, if_true]
      · cases room with
        | zero => simp [fgets, newline]
        | succ room =>
            have next := ih (Nat.succ_pos room) d
            rw [if_neg (by simp [newline])]
            simp only [if_neg newline, Nat.succ_sub_one, next]

/-- The end-of-file flag is set only where nothing is left. -/
theorem fgets_ended {s : Input} (ended : s.eof = true → s.rest = []) :
    (fgets n s).2.eof = true → (fgets n s).2.rest = [] := by
  induction n generalizing s with
  | zero => exact ended
  | succ n ih =>
      obtain ⟨rest, eof⟩ := s
      cases rest with
      | nil => exact fun _ => rfl
      | cons c rest =>
          have more : eof = false := by
            cases eof with
            | false => rfl
            | true => cases ended rfl
          simp only [fgets]
          split
          · simp [more]
          · exact ih (s := ⟨rest, eof⟩) (by simp [more])

/-- A character at least is taken off. -/
theorem fgets_shorter (room : 0 < n) (c : Char) (rest : List Char) (eof : Bool) :
    (fgets n ⟨c :: rest, eof⟩).2.rest.length ≤ rest.length := by
  obtain ⟨n, rfl⟩ := Nat.exists_eq_succ_of_ne_zero (Nat.ne_of_gt room)
  simp only [fgets]
  split
  · exact Nat.le_refl _
  · have split := congrArg List.length (fgets_split n ⟨rest, eof⟩)
    rw [List.length_append] at split
    exact Nat.le_trans (Nat.le_add_left _ _) (Nat.le_of_eq split)

end

end Settings
