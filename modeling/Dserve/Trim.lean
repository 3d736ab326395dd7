import Dserve.Lib.Memory
import Dserve.Options
import Mathlib.Data.List.DropRight

/-!
`util.c`: `rtrim`, `ltrim` and `trim`, on the bytes of a buffer.

`rtrim` starts at the index it is given as the size. That is the terminator of a string whose
length was given, and the byte behind the buffer when the size of the buffer was given, as in
`options_read`; in both cases it has stopped before it comes to the last character of the string.
So white space at the end stays, and the second way of calling reads past the buffer
(`trim_never`). `ltrim` does what it is for (`ltrim_strips`).
-/

namespace Dserve

open Scan

namespace Trim

/-- The loop of `rtrim` from `i` down. Nothing in it stops at the first byte: below that, it would
be in front of the buffer. -/
def rtrim (input : Memory Char) : Nat → Option (Memory Char)
  | 0 => do
      let (c, input) ← input.read 0
      if isSpace c then none else some input
  | i + 1 => do
      let (c, input) ← input.read (i + 1)
      if isSpace c then
        let input ← input.write (i + 1) '\x00'
        rtrim input i
      else some input

/-- `ltrim`, with `memcpy` as `memmove`. A negative length is no `size_t` it could copy. -/
def ltrim (input : Memory Char) (size : Nat) : Option (Memory Char) := do
  let (i, input) ← input.scan isSpace
  if i > 0 then
    if size < i then none
    else
      let input ← input.move 0 i (size - i)
      input.fill (size - i) '\x00' i
  else some input

/-- `strlen` -/
def strlen (s : Memory Char) : Option (Nat × Memory Char) := s.scan fun c => c != '\x00'

def trim (input : Memory Char) (size : Nat) : Option (Memory Char) := do
  let input ← rtrim input size
  let (tmp_size, input) ← strlen input
  ltrim input tmp_size

end Trim

/-- A string in a buffer, with the bytes behind the buffer that can be accessed. The size of the
buffer is an `int`. -/
structure Held where
  string : CString
  unused : List Char
  behind : List Char
  clean : '\x00' ∉ string
  size_lt : string.length + 1 + unused.length < 2147483648

namespace Held

def size (h : Held) : Nat := h.string.length + 1 + h.unused.length

def bytes (h : Held) : List Char := h.string ++ '\x00' :: (h.unused ++ h.behind)

def memory (h : Held) : Memory Char := ⟨h.bytes, []⟩

/-- What `trim` is for: no white space at either end. -/
def stripped (h : Held) : CString := (h.string.dropWhile isSpace).rdropWhile isSpace

/-- `trim(buffer, n)` leaves the string without white space at its ends. -/
def Leaves (h : Held) (n : Nat) : Prop :=
  ∃ m, Trim.trim h.memory n = some m ∧ stringOf m.bytes = h.stripped

/-- `trim(buffer, n)` accesses no index from `stop` on. -/
def Inside (h : Held) (n stop : Nat) : Prop :=
  ∃ m, Trim.trim h.memory n = some m ∧ ∀ i ∈ m.touched, i < stop

/-- Both ways to call `trim`, with the size of the buffer and with the length of the string. -/
structure Trims (h : Held) : Prop where
  whole : h.Leaves h.size
  wholeInside : h.Inside h.size h.size
  string : h.Leaves h.string.length
  stringInside : h.Inside h.string.length (h.string.length + 1)

/-- The string does not end with white space, unless there is nothing else in it. -/
def Untrailed (h : Held) : Prop :=
  (∀ c ∈ h.string.getLast?, isSpace c = false) ∨ ∀ c ∈ h.string, isSpace c = true

/-- What `ltrim(buffer, strlen(buffer))` is for. -/
structure LeftStripped (h : Held) (m : Memory Char) : Prop where
  front : m.bytes.take h.string.length = h.string.dropWhile isSpace ++
    List.replicate (h.string.length - (h.string.dropWhile isSpace).length) '\x00'
  terminator : m.bytes[h.string.length]? = some '\x00'
  behind : m.bytes.drop h.string.length = h.bytes.drop h.string.length
  inside : ∀ i ∈ m.touched, i ≤ h.string.length
  again : ∀ n, ∃ m', Trim.ltrim m n = some m' ∧ m'.bytes = m.bytes

end Held

namespace Trim

variable {s : CString} {m : Memory Char} {rest : List Char}

/-! ### `ltrim` -/

/-- The white space at the front ends at a byte that is none. -/
theorem stopped (s : CString) (rest : List Char) : ∃ c rest',
    s.dropWhile isSpace ++ '\x00' :: rest = c :: rest' ∧ isSpace c = false := by
  have first := List.head?_dropWhile_not isSpace s
  cases kept : s.dropWhile isSpace with
  | nil => exact ⟨'\x00', rest, rfl, by decide⟩
  | cons c kept' =>
      rw [kept] at first
      exact ⟨c, kept' ++ '\x00' :: rest, rfl, by simpa using first⟩

theorem zeros_append (k : Nat) (rest : List Char) :
    List.replicate k '\x00' ++ '\x00' :: rest = '\x00' :: (List.replicate k '\x00' ++ rest) := by
  rw [← List.cons_append, ← List.replicate_succ, List.replicate_succ', List.append_assoc]
  rfl

/-- Without white space at the front, nothing is written. -/
theorem ltrim_stop {c : Char} (bytes : m.bytes = c :: rest) (stop : isSpace c = false) (n : Nat) :
    ltrim m n = some ⟨m.bytes, m.touched ++ [0]⟩ := by
  have split : m.bytes = [] ++ c :: rest := bytes
  have scanned := Memory.scan_eq split (by simp) stop
  rw [ltrim, scanned]
  rfl

theorem ltrim_eq (bytes : m.bytes = s ++ '\x00' :: rest) : ∃ touched,
    ltrim m s.length = some ⟨s.dropWhile isSpace ++
      List.replicate (s.length - (s.dropWhile isSpace).length) '\x00' ++ '\x00' :: rest,
      m.touched ++ touched⟩ ∧ ∀ i ∈ touched, i ≤ s.length := by
  have split : s.takeWhile isSpace ++ s.dropWhile isSpace = s := List.takeWhile_append_dropWhile
  obtain ⟨c, rest', stopped, stop⟩ := stopped s rest
  have first : m.bytes = s.takeWhile isSpace ++ c :: rest' := by
    rw [← stopped, ← List.append_assoc, split, bytes]
  have size : (s.takeWhile isSpace).length + (s.dropWhile isSpace).length = s.length := by
    rw [← List.length_append, split]
  have scanned := Memory.scan_eq first (fun _ => List.mem_takeWhile_imp) stop
  have blanks : s.length - (s.dropWhile isSpace).length = (s.takeWhile isSpace).length := by omega
  have kept : s.length - (s.takeWhile isSpace).length = (s.dropWhile isSpace).length := by omega
  simp only [ltrim, scanned, Option.bind_eq_bind, Option.bind_some, blanks, kept]
  by_cases some_blank : (s.takeWhile isSpace).length > 0
  · have parts : m.bytes = s.takeWhile isSpace ++ s.dropWhile isSpace ++ '\x00' :: rest := by
      rw [split, bytes]
    have shifted := Memory.shift_eq
      (m := ⟨m.bytes, m.touched ++ List.range ((s.takeWhile isSpace).length + 1)⟩) parts '\x00'
    rw [if_pos some_blank, if_neg (by omega), shifted]
    refine ⟨_, by simp only [List.append_assoc]; rfl, ?_⟩
    intro i hi
    simp only [List.mem_append, List.mem_range, List.mem_range'_1] at hi
    omega
  · have none_blank : s.takeWhile isSpace = [] := List.eq_nil_of_length_eq_zero (by omega)
    rw [none_blank, List.nil_append] at split
    rw [if_neg some_blank, none_blank, split, bytes]
    exact ⟨[0], by simp, by simp⟩

/-! ### `rtrim` -/

/-- `rtrim` only comes down to the terminator: what it clears was behind the string. -/
theorem rtrim_eq {i : Nat} (bytes : m.bytes = s ++ '\x00' :: rest) (start : s.length ≤ i)
    (readable : i < m.bytes.length) : ∃ rest' touched,
    rtrim m i = some ⟨s ++ '\x00' :: rest', m.touched ++ touched⟩ ∧
      i ∈ touched ∧ ∀ j ∈ touched, j ≤ i := by
  induction i generalizing m rest with
  | zero =>
      have empty : s = [] := List.eq_nil_of_length_eq_zero (Nat.le_zero.mp start)
      subst empty
      have here : m.bytes[0]? = some '\x00' := by rw [bytes]; rfl
      have stop : isSpace '\x00' = false := by decide
      simp only [rtrim, Memory.read_eq here, Option.bind_eq_bind, Option.bind_some, stop,
        Bool.false_eq_true, if_false]
      exact ⟨rest, [0], by rw [bytes], by simp, by simp⟩
  | succ i ih =>
      have here : m.bytes[i + 1]? = some m.bytes[i + 1] := List.getElem?_eq_getElem readable
      simp only [rtrim, Memory.read_eq here, Option.bind_eq_bind, Option.bind_some]
      by_cases blank : isSpace m.bytes[i + 1] = true
      · have below : s.length < i + 1 := by
          apply Nat.lt_of_le_of_ne start
          intro last
          have zero : m.bytes[i + 1]? = some '\x00' := by simp [bytes, ← last]
          rw [Option.some.inj (here.symm.trans zero)] at blank
          exact absurd blank (by decide)
        have cleared : m.bytes.set (i + 1) '\x00' = s ++ '\x00' :: rest.set (i - s.length) '\x00' := by
          obtain ⟨k, rfl⟩ := Nat.exists_eq_add_of_le (Nat.le_of_lt_succ below)
          rw [bytes, List.set_append_right _ _ (Nat.le_of_lt below), Nat.add_sub_cancel_left,
            Nat.add_assoc, Nat.add_sub_cancel_left]
          rfl
        obtain ⟨rest', touched, run, -, inside⟩ := ih (m := ⟨m.bytes.set (i + 1) '\x00',
          m.touched ++ [i + 1] ++ [i + 1]⟩) cleared (Nat.le_of_lt_succ below) (by simp; omega)
        have written := Memory.write_eq (m := ⟨m.bytes, m.touched ++ [i + 1]⟩) readable '\x00'
        rw [if_pos blank, written, Option.bind_some, run]
        refine ⟨rest', [i + 1] ++ [i + 1] ++ touched, by simp only [List.append_assoc], by simp, ?_⟩
        intro j hj
        simp only [List.mem_append, List.mem_singleton] at hj
        rcases hj with (rfl | rfl) | later
        · exact Nat.le_refl _
        · exact Nat.le_refl _
        · exact Nat.le_succ_of_le (inside j later)
      · rw [if_neg blank]
        exact ⟨rest, [i + 1], by rw [bytes], by simp, by simp⟩

/-- There is no byte to read at an index past the memory. -/
theorem rtrim_none {i : Nat} (past : m.bytes.length ≤ i) : rtrim m i = none := by
  cases i <;> simp only [rtrim, Memory.read_none past, Option.bind_eq_bind, Option.bind_none]

/-! ### `trim` -/

/-- `trim` takes the white space off the front of a string, and reads the index it is given. -/
theorem trim_eq {i : Nat} (clean : '\x00' ∉ s) (bytes : m.bytes = s ++ '\x00' :: rest)
    (start : s.length ≤ i) (readable : i < m.bytes.length) : ∃ m' rest',
    trim m i = some m' ∧ m'.bytes = s.dropWhile isSpace ++ '\x00' :: rest' ∧
      (m.touched = [] → i ∈ m'.touched ∧ ∀ j ∈ m'.touched, j ≤ i) := by
  obtain ⟨rest₁, touched₁, right, reads, inside₁⟩ := rtrim_eq bytes start readable
  have all : ∀ c ∈ s, (c != '\x00') = true := fun c hc => by
    simpa using fun zero : c = '\x00' => clean (zero ▸ hc)
  have length := Memory.scan_eq (p := fun c => c != '\x00')
    (m := ⟨s ++ '\x00' :: rest₁, m.touched ++ touched₁⟩) rfl all (by decide)
  obtain ⟨touched₂, left, inside₂⟩ := ltrim_eq (m := ⟨s ++ '\x00' :: rest₁,
    m.touched ++ touched₁ ++ List.range (s.length + 1)⟩) rfl
  simp only [trim, right, strlen, length, Option.bind_eq_bind, Option.bind_some, left]
  refine ⟨_, List.replicate (s.length - (s.dropWhile isSpace).length) '\x00' ++ rest₁, rfl, ?_, ?_⟩
  · simp only [List.append_assoc, zeros_append]
  · intro untouched
    simp only [untouched, List.nil_append]
    constructor
    · simp [reads]
    · intro j hj
      simp only [List.mem_append, List.mem_range] at hj
      rcases hj with (hj | hj) | hj
      · exact inside₁ j hj
      · omega
      · exact (inside₂ j hj).trans start

/-- On a line in its array, `trim` here is the `trim` of the options. -/
theorem trim_bytes (behind : Char) {line : CString} (short : line.length < OPT_MAX_STR_SIZE) :
    Dserve.trim behind line = (trim ⟨line ++ List.replicate (OPT_MAX_STR_SIZE - line.length) '\x00' ++
      [behind], []⟩ OPT_MAX_STR_SIZE).map fun m => stringOf m.bytes := by
  obtain ⟨k, zeros⟩ := Nat.exists_eq_succ_of_ne_zero (Nat.sub_ne_zero_of_lt short)
  obtain ⟨rest, split⟩ := stringOf_split line (List.replicate k '\x00' ++ [behind])
  have array : line ++ List.replicate (OPT_MAX_STR_SIZE - line.length) '\x00' ++ [behind] =
      stringOf line ++ '\x00' :: rest := by
    rw [← split, zeros, List.replicate_succ, List.append_assoc, List.cons_append]
  have size : (line ++ List.replicate (OPT_MAX_STR_SIZE - line.length) '\x00' ++ [behind]).length =
      OPT_MAX_STR_SIZE + 1 := by
    simp only [List.length_append, List.length_replicate, List.length_singleton]
    omega
  have below : (stringOf line).length ≤ OPT_MAX_STR_SIZE :=
    (List.takeWhile_prefix _).length_le.trans (Nat.le_of_lt short)
  obtain ⟨m, rest', run, bytes, -⟩ := trim_eq (m := ⟨_, []⟩) (stringOf_clean line) array below
    (Nat.lt_of_lt_of_eq (Nat.lt_succ_self _) size.symm)
  have clean : '\x00' ∉ (stringOf line).dropWhile isSpace := fun zero =>
    stringOf_clean line ((List.dropWhile_suffix _).mem zero)
  rw [trim_string behind short, run, Option.map_some, bytes, stringOf_append clean]

end Trim

namespace Held

variable {h : Held} {n : Nat}

theorem length_bytes (h : Held) : h.bytes.length = h.size + h.behind.length := by
  simp only [bytes, size, List.length_append, List.length_cons]
  omega

theorem clean_dropWhile (h : Held) : '\x00' ∉ h.string.dropWhile isSpace := fun zero =>
  h.clean ((List.dropWhile_suffix _).mem zero)

/-- What is left without its front ends with the last character, if there is anything left. -/
theorem stripped_iff (h : Held) : h.string.dropWhile isSpace = h.stripped ↔ h.Untrailed := by
  have ends (nonempty : h.string.dropWhile isSpace ≠ []) :
      h.string.getLast? = some ((h.string.dropWhile isSpace).getLast nonempty) := by
    conv_lhs => rw [← List.takeWhile_append_dropWhile (p := isSpace) (l := h.string)]
    rw [List.getLast?_append_of_ne_nil _ nonempty, List.getLast?_eq_some_getLast nonempty]
  rw [stripped, eq_comm, List.rdropWhile_eq_self_iff]
  constructor
  · intro last
    by_cases nonempty : h.string.dropWhile isSpace = []
    · exact Or.inr (List.dropWhile_eq_nil_iff.mp nonempty)
    · refine Or.inl fun c hc => ?_
      rw [ends nonempty] at hc
      cases hc
      simpa using last nonempty
  · rintro (last | all) nonempty
    · simpa using last _ (ends nonempty)
    · exact absurd (List.dropWhile_eq_nil_iff.mpr all) nonempty

/-- The memory does not reach to the index `rtrim` starts at. -/
theorem trim_past (past : h.bytes.length ≤ n) : Trim.trim h.memory n = none := by
  rw [Trim.trim, Trim.rtrim_none past]
  rfl

theorem trim_run (start : h.string.length ≤ n) (readable : n < h.bytes.length) : ∃ m,
    Trim.trim h.memory n = some m ∧ stringOf m.bytes = h.string.dropWhile isSpace ∧
      n ∈ m.touched ∧ ∀ i ∈ m.touched, i ≤ n := by
  obtain ⟨m, rest, run, bytes, touched⟩ := Trim.trim_eq (m := h.memory) h.clean rfl start readable
  refine ⟨m, run, ?_, touched rfl⟩
  rw [bytes, stringOf_append h.clean_dropWhile]

theorem leaves_iff (start : h.string.length ≤ n) :
    h.Leaves n ↔ n < h.bytes.length ∧ h.Untrailed := by
  constructor
  · rintro ⟨m, run, left⟩
    rcases Nat.lt_or_ge n h.bytes.length with readable | past
    · obtain ⟨m', run', left', -⟩ := trim_run start readable
      cases run.symm.trans run'
      exact ⟨readable, h.stripped_iff.mp (left'.symm.trans left)⟩
    · rw [trim_past past] at run
      cases run
  · rintro ⟨readable, untrailed⟩
    obtain ⟨m, run, left, -⟩ := trim_run start readable
    exact ⟨m, run, left.trans (h.stripped_iff.mpr untrailed)⟩

/-- The index `rtrim` starts at is read. -/
theorem not_inside (start : h.string.length ≤ n) : ¬ h.Inside n n := by
  rintro ⟨m, run, inside⟩
  rcases Nat.lt_or_ge n h.bytes.length with readable | past
  · obtain ⟨m', run', -, reads, -⟩ := trim_run start readable
    cases run.symm.trans run'
    exact Nat.lt_irrefl n (inside n reads)
  · rw [trim_past past] at run
    cases run

theorem inside (start : h.string.length ≤ n) (readable : n < h.bytes.length) :
    h.Inside n (n + 1) := by
  obtain ⟨m, run, -, -, inside⟩ := trim_run start readable
  exact ⟨m, run, fun i hi => Nat.lt_succ_of_le (inside i hi)⟩

end Held

/-- `trim` called with the size of its buffer always reads past it, and what it leaves there is
right only if a byte can be read there and no white space is at the end. Called with the length
of the string, it is right exactly if no white space is at the end. -/
theorem trim_never (h : Held) : ¬ h.Trims ∧ ¬ h.Inside h.size h.size ∧
    (h.Leaves h.size ↔ h.behind ≠ [] ∧ h.Untrailed) ∧
    (h.Leaves h.string.length ∧ h.Inside h.string.length (h.string.length + 1) ↔ h.Untrailed) := by
  have within : h.string.length ≤ h.size := by
    rw [Held.size]
    omega
  have readable : h.string.length < h.bytes.length := by
    rw [h.length_bytes, Held.size]
    omega
  have outside : ¬ h.Inside h.size h.size := Held.not_inside within
  refine ⟨fun trims => outside trims.wholeInside, outside, ?_, ?_⟩
  · have next : h.size < h.bytes.length ↔ h.behind ≠ [] := by
      rw [h.length_bytes, ← List.length_pos_iff]
      omega
    rw [Held.leaves_iff within, next]
  · constructor
    · exact fun leaves => ((Held.leaves_iff (Nat.le_refl _)).mp leaves.1).2
    · intro untrailed
      constructor
      · exact (Held.leaves_iff (Nat.le_refl _)).mpr ⟨readable, untrailed⟩
      · exact Held.inside (Nat.le_refl _) readable

/-- A letter and a blank, in a buffer of four bytes. -/
def trailing : Held where
  string := ['a', ' ']
  unused := ['\x00']
  behind := ['b']
  clean := by decide
  size_lt := by decide

/-- The blank stays, and the byte behind the buffer is read. -/
theorem trim_keeps_blank : ¬ trailing.Trims ∧ ¬ trailing.Leaves trailing.string.length ∧
    ¬ trailing.Inside trailing.size trailing.size := by
  have string : Trim.trim trailing.memory 2 =
      some ⟨['a', ' ', '\x00', '\x00', 'b'], [2, 0, 1, 2, 0]⟩ := by decide
  have whole : Trim.trim trailing.memory 4 =
      some ⟨['a', ' ', '\x00', '\x00', 'b'], [4, 0, 1, 2, 0]⟩ := by decide
  have kept : ¬ trailing.Leaves 2 := by
    rintro ⟨m, run, left⟩
    rw [string] at run
    cases run
    exact absurd left (by decide)
  have outside : ¬ trailing.Inside 4 4 := by
    rintro ⟨m, run, inside⟩
    rw [whole] at run
    cases run
    exact absurd (inside 4 (by decide)) (Nat.lt_irrefl 4)
  exact ⟨fun trims => kept trims.string, kept, outside⟩

/-- `ltrim` moves the string to the front of its buffer, clears what is left behind it, and writes
nothing from the terminator on. -/
theorem ltrim_strips (h : Held) :
    ∃ m, Trim.ltrim h.memory h.string.length = some m ∧ h.LeftStripped m := by
  obtain ⟨touched, run, inside⟩ := Trim.ltrim_eq (m := h.memory) rfl
  have shorter : (h.string.dropWhile isSpace).length ≤ h.string.length :=
    (List.dropWhile_suffix _).length_le
  have front : (h.string.dropWhile isSpace ++
      List.replicate (h.string.length - (h.string.dropWhile isSpace).length) '\x00').length =
        h.string.length := by
    rw [List.length_append, List.length_replicate]
    omega
  refine ⟨_, run, ?_, ?_, ?_, inside, ?_⟩
  · rw [List.take_left' front]
  · rw [List.getElem?_append_right (Nat.le_of_eq front), front, Nat.sub_self]
    rfl
  · rw [List.drop_left' front, Held.bytes, List.drop_left]
  · intro n
    have bytes := Trim.zeros_append (h.string.length - (h.string.dropWhile isSpace).length)
      (h.unused ++ h.behind)
    obtain ⟨c, rest, first, stop⟩ := Trim.stopped h.string
      (List.replicate (h.string.length - (h.string.dropWhile isSpace).length) '\x00' ++
        (h.unused ++ h.behind))
    have begins : (h.string.dropWhile isSpace ++
        List.replicate (h.string.length - (h.string.dropWhile isSpace).length) '\x00' ++
          '\x00' :: (h.unused ++ h.behind)) = c :: rest := by
      rw [← first, ← bytes, List.append_assoc]
    exact ⟨_, Trim.ltrim_stop begins stop n, rfl⟩

end Dserve
