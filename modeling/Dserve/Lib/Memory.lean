import Mathlib.Data.List.TakeWhile

/-!
Memory from an address on, with a record of the indices that are accessed.

What can be accessed at all is a list of bytes; an access past it has no result. The record says
which of the bytes were read or written, so that a caller who owns a part of them can see that
a function stayed inside. `scan_eq` is the loop that looks for the end of a run of bytes, and
`shift_eq` moves the rest of a range to its front and clears what is left behind it.
-/

/-- The bytes from an address on, and the indices accessed so far. -/
structure Memory (β : Type) where
  bytes : List β
  touched : List Nat
deriving DecidableEq

namespace Memory

variable {β : Type}

def read (m : Memory β) (i : Nat) : Option (β × Memory β) :=
  m.bytes[i]?.map fun b => (b, { m with touched := m.touched ++ [i] })

def write (m : Memory β) (i : Nat) (b : β) : Option (Memory β) :=
  if i < m.bytes.length then some ⟨m.bytes.set i b, m.touched ++ [i]⟩ else none

/-- `memmove`: every byte is read before the first one is written. -/
def move (m : Memory β) (target source n : Nat) : Option (Memory β) :=
  if target + n ≤ m.bytes.length ∧ source + n ≤ m.bytes.length then
    some ⟨m.bytes.take target ++ (m.bytes.drop source).take n ++ m.bytes.drop (target + n),
      m.touched ++ List.range' source n ++ List.range' target n⟩
  else none

/-- `memset` -/
def fill (m : Memory β) (target : Nat) (b : β) (n : Nat) : Option (Memory β) :=
  if target + n ≤ m.bytes.length then
    some ⟨m.bytes.take target ++ List.replicate n b ++ m.bytes.drop (target + n),
      m.touched ++ List.range' target n⟩
  else none

/-- The loop that goes up from `i` while the byte it reads satisfies `p`. -/
def scanLoop (p : β → Bool) : Nat → Nat → Memory β → Option (Nat × Memory β)
  | 0, _, _ => none
  | fuel + 1, i, m => do
      let (b, m) ← m.read i
      if p b then scanLoop p fuel (i + 1) m else some (i, m)

/-- The first index whose byte does not satisfy `p`. -/
def scan (p : β → Bool) (m : Memory β) : Option (Nat × Memory β) :=
  scanLoop p m.bytes.length 0 m

variable {p : β → Bool} {m m' : Memory β} {front kept rest : List β} {b : β} {i n last : Nat}

/-! ### Accesses -/

theorem read_eq (here : m.bytes[i]? = some b) :
    m.read i = some (b, ⟨m.bytes, m.touched ++ [i]⟩) := by
  rw [read, here]
  rfl

theorem read_none (past : m.bytes.length ≤ i) : m.read i = none := by
  rw [read, List.getElem?_eq_none past]
  rfl

theorem write_eq (here : i < m.bytes.length) (b : β) :
    m.write i b = some ⟨m.bytes.set i b, m.touched ++ [i]⟩ := if_pos here

/-! ### Scanning -/

theorem scanLoop_eq {done : List β} {fuel : Nat} (enough : front.length < fuel)
    (bytes : m.bytes = done ++ front ++ b :: rest) (all : ∀ x ∈ front, p x = true)
    (stop : p b = false) :
    scanLoop p fuel done.length m = some (done.length + front.length,
      ⟨m.bytes, m.touched ++ List.range' done.length (front.length + 1)⟩) := by
  induction front generalizing done m fuel with
  | nil =>
      obtain ⟨fuel, rfl⟩ := Nat.exists_eq_succ_of_ne_zero (Nat.ne_of_gt enough)
      have here : m.bytes[done.length]? = some b := by simp [bytes]
      simp [scanLoop, read_eq here, stop]
  | cons x front ih =>
      obtain ⟨fuel, rfl⟩ := Nat.exists_eq_succ_of_ne_zero (Nat.ne_of_gt (Nat.lt_of_le_of_lt (Nat.zero_le _) enough))
      have here : m.bytes[done.length]? = some x := by simp [bytes]
      have holds : p x = true := all x List.mem_cons_self
      have bytes' : m.bytes = (done ++ [x]) ++ front ++ b :: rest := by simp [bytes]
      have next := ih (m := ⟨m.bytes, m.touched ++ [done.length]⟩)
        (Nat.lt_of_succ_lt_succ enough) bytes' fun y hy => all y (List.mem_cons_of_mem _ hy)
      rw [List.length_append, List.length_singleton] at next
      simp only [scanLoop, read_eq here, Option.bind_eq_bind, Option.bind_some, holds, if_true, next]
      rw [List.length_cons, List.append_assoc, List.singleton_append, Nat.add_assoc,
        Nat.add_comm 1]
      rfl

/-- A scan stops at the end of a run, and reads the bytes up to there. -/
theorem scan_eq (bytes : m.bytes = front ++ b :: rest) (all : ∀ x ∈ front, p x = true)
    (stop : p b = false) : m.scan p = some (front.length,
      ⟨m.bytes, m.touched ++ List.range (front.length + 1)⟩) := by
  have enough : front.length < m.bytes.length := by simp [bytes]
  have bytes' : m.bytes = [] ++ front ++ b :: rest := bytes
  have found := scanLoop_eq enough bytes' all stop
  rw [List.length_nil, Nat.zero_add, ← List.range_eq_range'] at found
  exact found

/-! ### Shifting -/

theorem move_eq (bytes : m.bytes = front ++ kept ++ rest) :
    m.move 0 front.length kept.length = some ⟨kept ++ m.bytes.drop kept.length,
      m.touched ++ List.range' front.length kept.length ++ List.range' 0 kept.length⟩ := by
  have fits : 0 + kept.length ≤ m.bytes.length ∧ front.length + kept.length ≤ m.bytes.length := by
    simp only [bytes, List.length_append]
    omega
  have moved : (m.bytes.drop front.length).take kept.length = kept := by
    rw [bytes, List.append_assoc, List.drop_left, List.take_left]
  rw [move, if_pos fits, List.take_zero, List.nil_append, moved, Nat.zero_add]

theorem fill_eq {target : Nat} (fits : target + n ≤ m.bytes.length) (b : β) :
    m.fill target b n = some ⟨m.bytes.take target ++ List.replicate n b ++ m.bytes.drop (target + n),
      m.touched ++ List.range' target n⟩ := if_pos fits

/-- The range behind `front` is moved to the front, and what is left behind it is cleared. -/
theorem shift_eq (bytes : m.bytes = front ++ kept ++ rest) (b : β) :
    (m.move 0 front.length kept.length).bind (fun m => m.fill kept.length b front.length) =
      some ⟨kept ++ List.replicate front.length b ++ rest,
        m.touched ++ List.range' front.length kept.length ++ List.range' 0 kept.length ++
          List.range' kept.length front.length⟩ := by
  have size : m.bytes.length = front.length + kept.length + rest.length := by
    rw [bytes, List.length_append, List.length_append]
  have behind : (m.bytes.drop kept.length).drop front.length = rest := by
    rw [List.drop_drop, bytes, ← List.length_append, List.drop_left' (by simp [Nat.add_comm])]
  rw [move_eq bytes, Option.bind_some, fill_eq]
  · simp only [List.take_left, List.drop_append, List.drop_of_length_le (Nat.le_add_right _ _),
      Nat.add_sub_cancel_left, List.nil_append, behind]
  · simp only [List.length_append, List.length_drop]
    omega

end Memory
