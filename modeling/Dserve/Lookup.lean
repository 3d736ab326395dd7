import Dserve.Lib.Pieces
import Dserve.Options

/-!
`options_read` on any file.

The name is looked for in the pieces that `fgets` cuts the file into, and the mask then takes
what is behind the first `=` of that piece, whatever is in front of it. `options_read_iff` says
when this is the value of the line that has the name in front of its first `=`: when the first
piece with the name is the beginning of that line, and the value is not changed by the cut; or
when neither has a value.
-/

namespace Dserve

open Scan Settings

/-! ### The masks -/

/-- What `%d` stores: `strtol` stops at the ends of `long`, and the low word is kept. -/
def int (n : Int) : BitVec 32 := BitVec.ofInt 32 (max (-2 ^ 63) (min n (2 ^ 63 - 1)))

/-- `OPT_MAX_STR_SIZE_MASK` -/
def asWord (text : CString) : Option CString := (scanWord (some OPT_MAX_STR_SIZE) ⟨text, false⟩).1

/-- `%hi` -/
def asShort (text : CString) : Option (BitVec 16) := (scanInt ⟨text, false⟩).1.map short

/-- `%d` -/
def asInt (text : CString) : Option (BitVec 32) := (scanDecimal ⟨text, false⟩).1.map int

/-- `options_read_int` -/
def optionsReadInt (behind : Char) (file name : CString) : Option (Option (BitVec 32)) :=
  (optionsRead behind file name).map fun line => line.bind fun line => (afterKey line).bind asInt

/-! ### What is found -/

/-- A piece as `trim` leaves it. -/
def trimmed (piece : List Char) : CString := (stringOf piece).dropWhile isSpace

/-- The first piece of a file with the name in it. -/
def firstPiece (file name : CString) : Option CString :=
  ((pieces (OPT_MAX_STR_SIZE - 2) (OPT_MAX_STR_SIZE - 2) file).map trimmed).find?
    fun piece => decide (name <:+: piece)

/-- What a mask reads of that piece. -/
def found {α : Type} (convert : CString → Option α) (file name : CString) : Option α :=
  (firstPiece file name).bind fun piece => (afterKey piece).bind convert

/-- The beginning of a line, as it is read. -/
def beginning (line : List Char) : CString := trimmed (line.take (OPT_MAX_STR_SIZE - 2))

/-- The value of the first line with the name in front of its first `=`. -/
def valueOf {α : Type} (convert : CString → Option α) (file name : CString) : Option α :=
  (lineOf name file).bind fun line => convert (valueText line)

/-- The value of the line with the name is assigned, and no other line supplies one. -/
def Assigns {α : Type} (convert : CString → Option α) (behind : Char) (file name : CString)
    (result : Option (Option α)) : Prop :=
  result = some (valueOf convert file name) ∧
    ∀ v, result = some (some v) → ∃ line, lineOf name file = some line ∧
      optionsRead behind file name = some (some (beginning line))

/-- Where the value comes from. -/
inductive Supplied {α : Type} (convert : CString → Option α) (file name : CString) : Prop where
  /-- The first piece with the name is the beginning of the line that has it, and has enough of
  the value. -/
  | own (line : List Char) (has : lineOf name file = some line)
      (first : firstPiece file name = some (beginning line))
      (whole : (afterKey (beginning line)).bind convert = convert (valueText line))
  /-- Neither the first piece with the name nor the line that has it has a value to be read. -/
  | nothing (piece : ∀ piece ∈ firstPiece file name, (afterKey piece).bind convert = none)
      (line : ∀ line ∈ lineOf name file, convert (valueText line) = none)

section

variable {behind : Char} {name : CString}

/-- The loop stops at the first piece with the name, or behind the last piece. -/
theorem optionsReadLoop_pieces {fuel : Nat} {s : Input} (ended : s.eof = true → s.rest = [])
    (enough : s.rest.length < fuel) :
    ∃ line, optionsReadLoop behind name fuel s = some line ∧
      (line = (((pieces (OPT_MAX_STR_SIZE - 2) (OPT_MAX_STR_SIZE - 2) s.rest).map trimmed).find?
          fun piece => decide (name <:+: piece)) ∨ s.rest = [] ∧ name = [] ∧ line = some []) := by
  induction fuel generalizing s with
  | zero => cases enough
  | succ fuel ih =>
      obtain ⟨rest, eof⟩ := s
      cases rest with
      | nil =>
          cases eof with
          | true => exact ⟨none, rfl, Or.inl rfl⟩
          | false =>
              have line : fgets (OPT_MAX_STR_SIZE - 2) ⟨[], false⟩ = ([], ⟨[], true⟩) := rfl
              have blank : trim behind [] = some [] := trim_string behind (by decide)
              rw [optionsReadLoop, if_neg Bool.false_ne_true]
              simp only [line, blank, Option.bind_some]
              split
              · next inside => exact ⟨some [], rfl, Or.inr (by simpa using List.eq_nil_of_infix_nil inside)⟩
              · cases fuel <;> exact ⟨none, rfl, Or.inl rfl⟩
      | cons c rest =>
          have more : eof = false := by
            cases eof with
            | false => rfl
            | true => cases ended rfl
          subst more
          have room : 0 < OPT_MAX_STR_SIZE - 2 := by decide
          have next := @fgets_pieces (OPT_MAX_STR_SIZE - 2) _ room c rest false
          have short := fgets_length (OPT_MAX_STR_SIZE - 2) ⟨c :: rest, false⟩
          have shorter := fgets_shorter room c rest false
          have left := @fgets_ended (OPT_MAX_STR_SIZE - 2) ⟨c :: rest, false⟩ (absurd · Bool.false_ne_true)
          rw [next, optionsReadLoop, if_neg Bool.false_ne_true]
          have trims : trim behind (fgets (OPT_MAX_STR_SIZE - 2) ⟨c :: rest, false⟩).1 =
              some (trimmed (fgets (OPT_MAX_STR_SIZE - 2) ⟨c :: rest, false⟩).1) :=
            trim_string behind (Nat.lt_of_le_of_lt short (by decide))
          simp only [trims, Option.bind_some, List.map_cons]
          split
          · next inside => exact ⟨_, rfl, Or.inl (List.find?_cons_of_pos (by simpa using inside)).symm⟩
          · next outside =>
            rw [List.find?_cons_of_neg (by simpa using outside)]
            obtain ⟨line, read, which⟩ := ih left (by simp only [List.length_cons] at enough; omega)
            refine ⟨line, read, ?_⟩
            rcases which with same | ⟨-, empty, -⟩
            · exact Or.inl same
            · exact absurd (empty ▸ List.nil_infix) outside

/-- The first piece is the line that is read. Only the empty name finds more, an empty piece, and
that in an empty file. -/
theorem optionsRead_first (behind : Char) (file name : CString) :
    optionsRead behind file name = some (firstPiece file name) ∨
      optionsRead behind file name = some (some []) ∧ firstPiece file name = none := by
  obtain ⟨line, read, which⟩ := @optionsReadLoop_pieces behind name (file.length + 1) ⟨file, false⟩
    (absurd · Bool.false_ne_true) (Nat.lt_succ_self _)
  rcases which with rfl | ⟨empty, -, rfl⟩
  · exact Or.inl read
  · obtain rfl : file = [] := empty
    exact Or.inr ⟨read, rfl⟩

/-- What is read of the line that the loop stops at is what is read of the first piece. -/
theorem optionsRead_found {α : Type} (behind : Char) (file name : CString)
    (convert : CString → Option α) :
    (optionsRead behind file name).map (fun line => line.bind fun line => (afterKey line).bind convert) =
      some (found convert file name) := by
  rcases optionsRead_first behind file name with read | ⟨read, first⟩
  · rw [read]
    rfl
  · rw [read, found, first]
    rfl

/-- What the readers assign. -/
theorem optionsReadChar_eq (behind : Char) (file name : CString) :
    optionsReadChar behind file name = some (found asWord file name) :=
  optionsRead_found behind file name asWord

theorem optionsReadShort_eq (behind : Char) (file name : CString) :
    optionsReadShort behind file name = some (found asShort file name) :=
  optionsRead_found behind file name asShort

theorem optionsReadInt_eq (behind : Char) (file name : CString) :
    optionsReadInt behind file name = some (found asInt file name) :=
  optionsRead_found behind file name asInt

/-- What is found is the value of the line with the name, and found there. -/
theorem assigns_found_iff {α : Type} {convert : CString → Option α} {file : CString} :
    Assigns convert behind file name (some (found convert file name)) ↔ Supplied convert file name := by
  constructor
  · rintro ⟨same, own⟩
    have same := Option.some.inj same
    cases value : found convert file name with
    | none =>
        apply Supplied.nothing
        · intro piece first
          rwa [found, Option.mem_def.mp first] at value
        · intro line has
          rwa [value, valueOf, Option.mem_def.mp has, Option.bind_some, eq_comm] at same
    | some v =>
        obtain ⟨line, has, read⟩ := own v (congrArg some value)
        have first : firstPiece file name = some (beginning line) := by
          rcases optionsRead_first behind file name with eq | ⟨-, none⟩
          · exact Option.some.inj (eq.symm.trans read)
          · rw [found, none] at value
            cases value
        rw [found, valueOf, has, first] at same
        exact .own line has first same
  · intro supplied
    cases supplied with
    | own line has first whole =>
        constructor
        · rw [found, valueOf, has, first, Option.bind_some, Option.bind_some, whole]
        · intro v _
          refine ⟨line, has, ?_⟩
          rcases optionsRead_first behind file name with eq | ⟨-, none⟩
          · rw [eq, first]
          · rw [first] at none
            cases none
    | nothing piece line =>
        have unread : found convert file name = none := Option.bind_eq_none_iff.mpr piece
        have valueless : valueOf convert file name = none := Option.bind_eq_none_iff.mpr line
        rw [unread]
        constructor
        · rw [valueless]
        · intro v read
          cases read

/-- `options_read` assigns the value of the first line with the name in front of its first `=`,
and nothing when no line has it, exactly when the first piece with the name is the beginning
of that line and has enough of its value, or there is no value to be read in either. -/
theorem options_read_iff (behind : Char) (file name : CString) :
    (Assigns asWord behind file name (optionsReadChar behind file name) ↔ Supplied asWord file name) ∧
    (Assigns asShort behind file name (optionsReadShort behind file name) ↔
      Supplied asShort file name) ∧
    (Assigns asInt behind file name (optionsReadInt behind file name) ↔ Supplied asInt file name) := by
  rw [optionsReadChar_eq, optionsReadShort_eq, optionsReadInt_eq]
  exact ⟨assigns_found_iff, assigns_found_iff, assigns_found_iff⟩

/-- A comment that names the port, and the port. -/
def commented : CString := "# server.listen.port\nserver.listen.port=80\n".toList

/-- The port is not read. -/
theorem comment_read : ¬ ∀ (behind : Char) (file name : CString),
    Assigns asWord behind file name (optionsReadChar behind file name) ∧
    Assigns asShort behind file name (optionsReadShort behind file name) ∧
    Assigns asInt behind file name (optionsReadInt behind file name) := by
  intro all
  have port := (all ' ' commented "server.listen.port".toList).2.1.1
  have own : valueOf asShort commented "server.listen.port".toList = some 80 := by decide
  have read : optionsReadShort ' ' commented "server.listen.port".toList = some none := by decide
  rw [own, read] at port
  cases port

end

end Dserve
