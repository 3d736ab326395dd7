import Dserve.Lib.Folder
import Dserve.Lib.Scan
import Dserve.Transaction

/-!
`rename_if_exists`: an old log gets the first free name with a number.

The loop tries `name.000`, `name.001` and so on until a name is free. Two numbers never print
alike, so that it ends before its `int` overflows while there are fewer than 2^31 rotated logs, and
nothing that exists is overwritten (`renameIfExists_keeps`).
-/

namespace Dserve

/-- A path the system calls take: shorter than `PATH_MAX`. -/
def IsPath (name : CString) : Prop := name.length < 4096

instance (name : CString) : Decidable (IsPath name) := inferInstanceAs (Decidable (_ < _))

/-- The files, with their contents. -/
abbrev LogFiles := Folder CString (List UInt8) IsPath

/-- What the environment decides: `access` grants reading and writing, `malloc` has memory, and
`rename` succeeds when it can. -/
structure RenameOutcome where
  access : Bool := true
  malloc : Bool := true
  rename : Bool := true

/-- `%.03i` of a number that is not negative. -/
def printPadded (i : Nat) : CString := List.leftpad 3 '0' (Nat.toDigits 10 i)

/-- The name with a number. -/
def rotatedName (filename : CString) (i : Nat) : CString := filename ++ '.' :: printPadded i

/-- `snprintf(new_file, size, "%s.%03i", filename, i)` -/
def newFile (filename : CString) (i : Nat) : CString :=
  let size := filename.length + 16
  (rotatedName filename i).take (size - 1)

/-- The number of values of an `int` from zero on. -/
def INT_COUNT : Nat := 2147483648

/-- `rename_if_exists`; none when the counter overflows. -/
def renameIfExists (o : RenameOutcome) (filename : CString) (logs : LogFiles) :
    Option (Bool × LogFiles) :=
  if filename ∉ logs.names then some (true, logs)
  else if o.access = false then some (false, logs)
  -- the size is an `int`
  else if filename.length + 16 ≥ INT_COUNT then none
  else if o.malloc = false then some (false, logs)
  else (probe (fun i => decide (newFile filename i ∈ logs.names)) INT_COUNT 0).map fun i =>
    match if o.rename then logs.rename filename (newFile filename i) else none with
    | some logs => (true, logs)
    | none => (false, logs)

/-- The log has the name with the least number that no file had. -/
structure Rotated (before after : LogFiles) (filename : CString) (i : Nat) : Prop where
  least : ∀ j < i, rotatedName filename j ∈ before.names
  free : rotatedName filename i ∉ before.names
  moved : after.content (rotatedName filename i) = before.content filename
  gone : after.content filename = none
  others : ∀ name, name ≠ filename → name ≠ rotatedName filename i →
    after.content name = before.content name

/-- No content is lost. -/
structure Keeps (before : LogFiles) (filename : CString) (ret : Bool) (after : LogFiles) : Prop where
  renamed : ret = true →
    if filename ∈ before.names then ∃ i, Rotated before after filename i else after = before
  refused : ret = false → after = before

/-- The rotated logs there are. -/
def rotatedLogs (logs : LogFiles) (filename : CString) : Set CString :=
  {name | name ∈ logs.names ∧ ∃ i < INT_COUNT, name = rotatedName filename i}

section

variable {filename : CString} {i j : Nat}

/-- Zeros in front do not change what is read. -/
theorem printPadded_inj (same : printPadded i = printPadded j) : i = j := by
  have read (n : Nat) : Nat.ofDigitChars 10 (printPadded n) 0 = n := by
    rw [printPadded, List.leftpad, Nat.ofDigitChars_append, Nat.ofDigitChars_replicate_zero,
      Nat.mul_zero, Nat.ofDigitChars_ten_toDigits]
  rw [← read i, ← read j, same]

theorem rotatedName_inj (filename : CString) (i j : Nat)
    (same : rotatedName filename i = rotatedName filename j) : i = j :=
  printPadded_inj (List.cons.inj (List.append_cancel_left same)).2

/-- An `int` has ten digits at most. -/
theorem length_printPadded (int : i < INT_COUNT) : (printPadded i).length ≤ 10 := by
  have digits : (Nat.toDigits 10 i).length ≤ 10 := by
    rw [Nat.length_toDigits_le_iff (by decide) (by decide)]
    exact Nat.lt_trans int (by decide)
  rw [printPadded, List.leftpad, List.length_append, List.length_replicate]
  omega

/-- The buffer has room for every number. -/
theorem newFile_whole (int : i < INT_COUNT) : newFile filename i = rotatedName filename i := by
  have digits := length_printPadded int
  unfold newFile rotatedName
  apply List.take_of_length_le
  simp only [List.length_append, List.length_cons]
  omega

theorem rotatedName_ne : rotatedName filename i ≠ filename := by
  intro same
  have length := congrArg List.length same
  simp only [rotatedName, List.length_append, List.length_cons] at length
  omega

variable {logs : LogFiles} {o : RenameOutcome}

/-- The loop comes to a free name before the counter overflows, and to the first one. -/
theorem probe_rotated (few : (rotatedLogs logs filename).ncard < INT_COUNT) :
    ∃ i, probe (fun i => decide (newFile filename i ∈ logs.names)) INT_COUNT 0 = some i ∧
      newFile filename i = rotatedName filename i ∧ rotatedName filename i ∉ logs.names ∧
      ∀ j < i, rotatedName filename j ∈ logs.names := by
  obtain ⟨k, int, free⟩ := exists_free (rotatedName_inj filename) few
  rw [← newFile_whole int] at free
  obtain ⟨i, found⟩ : ∃ i, probe (fun i => decide (newFile filename i ∈ logs.names)) INT_COUNT 0 =
      some i := probe_finds (Nat.zero_le k) (by rw [Nat.zero_add]; exact int) (decide_eq_false free)
  obtain ⟨bound, unused, before⟩ := probe_least found
  rw [Nat.zero_add] at bound
  refine ⟨i, found, newFile_whole bound, ?_, ?_⟩
  · rw [← newFile_whole bound]
    exact of_decide_eq_false unused
  · intro j below
    rw [← newFile_whole (Nat.lt_trans below bound)]
    exact of_decide_eq_true (before j (Nat.zero_le j) below)

theorem keeps_refused : Keeps logs filename false logs where
  renamed := nofun
  refused _ := rfl

end

/-- `rename_if_exists` returns. When it returns true, the log has the first free name with a number
and nothing else has changed; when it returns false, nothing has. No number is cut off. -/
theorem renameIfExists_keeps (o : RenameOutcome) (filename : CString) (logs : LogFiles)
    (few : (rotatedLogs logs filename).ncard < INT_COUNT) :
    (∃ ret after, renameIfExists o filename logs = some (ret, after) ∧
      Keeps logs filename ret after) ∧
    ∀ i < INT_COUNT, newFile filename i = rotatedName filename i := by
  refine ⟨?_, fun i int => newFile_whole int⟩
  unfold renameIfExists
  by_cases present : filename ∈ logs.names
  · rw [if_neg (not_not.mpr present)]
    cases access : o.access with
    | false => exact ⟨false, logs, rfl, keeps_refused⟩
    | true =>
        have path : filename.length < 4096 := logs.admitted filename present
        have int : ¬ filename.length + 16 ≥ INT_COUNT := by
          simp only [INT_COUNT]
          omega
        rw [if_neg (by decide), if_neg int]
        cases malloc : o.malloc with
        | false => exact ⟨false, logs, rfl, keeps_refused⟩
        | true =>
            obtain ⟨i, found, whole, free, least⟩ := probe_rotated few
            rw [if_neg (by decide), found, Option.map_some, whole]
            cases result : if o.rename then logs.rename filename (rotatedName filename i) else none with
            | none => exact ⟨false, logs, rfl, keeps_refused⟩
            | some after =>
                have renamed : logs.rename filename (rotatedName filename i) = some after := by
                  split at result
                  · exact result
                  · cases result
                obtain ⟨moved, gone, others⟩ := Folder.rename_content renamed rotatedName_ne
                refine ⟨true, after, rfl, fun _ => ?_, nofun⟩
                rw [if_pos present]
                exact ⟨i, least, free, moved, gone, others⟩
  · rw [if_pos present]
    refine ⟨true, logs, rfl, fun _ => ?_, nofun⟩
    rw [if_neg present]

/-- A log, and one that was rotated before. -/
def twoLogs : LogFiles where
  content name :=
    if name = ['l'] then some [1] else if name = ['l', '.', '0', '0', '0'] then some [0] else none
  names := {['l'], ['l', '.', '0', '0', '0']}
  mem_names := by
    intro name
    rw [Finset.mem_insert, Finset.mem_singleton]
    by_cases log : name = ['l']
    · simp [log]
    · by_cases rotated : name = ['l', '.', '0', '0', '0'] <;> simp [log, rotated]
  admitted := by decide

/-- Two files are fewer than 2^31. -/
theorem renameIfExists_keeps_two : (rotatedLogs twoLogs ['l']).ncard < INT_COUNT ∧
    ((∃ ret after, renameIfExists {} ['l'] twoLogs = some (ret, after) ∧
      Keeps twoLogs ['l'] ret after) ∧
    ∀ i < INT_COUNT, newFile ['l'] i = rotatedName ['l'] i) := by
  have few : (rotatedLogs twoLogs ['l']).ncard < INT_COUNT := by
    have within : rotatedLogs twoLogs ['l'] ⊆ ↑twoLogs.names := fun name h => h.1
    have bound := Set.ncard_le_ncard within twoLogs.names.finite_toSet
    rw [Set.ncard_coe_finset] at bound
    exact Nat.lt_of_le_of_lt bound (by decide)
  exact ⟨few, renameIfExists_keeps {} ['l'] twoLogs few⟩

end Dserve
