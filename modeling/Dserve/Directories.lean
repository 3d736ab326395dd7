import Dserve.Lib.Creation
import Dserve.Transaction
import Mathlib.Data.List.TakeDrop

/-!
`create_dir` and `recursive_mkdir`.

The length of the prefix is summed up from differences of pointers. The last difference is taken
after `strstr` has returned `NULL`, so that the last length is the address of the path, negated and
cut to an `int`: the whole path is tested when that is negative, and otherwise a prefix of that
length. Without a messenger a creation that fails goes unnoticed. `recursiveMkdir_iff` says when the
directories are made all the same.
-/

namespace Dserve

/-- A path that is not empty. -/
structure DirPath where
  chars : CString
  nonempty : chars ≠ []

/-- What `recursive_mkdir` meets: whether `malloc` has memory, whether a messenger is installed, and
where the path lies. -/
structure MkdirSetting where
  malloc : Bool
  messenger : Bool
  address : BitVec 64

/-- The value `strlen(path) + 1` has as an `int`. -/
def tmpSize (path : CString) : Int := (BitVec.ofNat 32 (path.length + 1)).toInt

/-- `snprintf(tmp, tmp_size, "%.*s", count, path)`; a negative precision is as if there were none. -/
def printPrefix (path : CString) (count : BitVec 32) : CString :=
  (if count.toInt < 0 then path else path.take count.toInt.toNat).take ((tmpSize path).toNat - 1)

section

variable {σ : Type} (dirs : Places σ CString)

/-- The loop of `recursive_mkdir`, with the pointers as indexes into the path: `strstr` has come to
`ptr`, with the rest of the path still to search. -/
def mkdirLoop (o : MkdirSetting) (path : CString) (last ptr : Nat) (count : BitVec 32) :
    CString → σ → Trials σ CString
  | [], s =>
      -- `ptr` is `NULL`
      let count := count + (0#64 - (o.address + BitVec.ofNat 64 last)).setWidth 32
      dirs.visit o.messenger s (printPrefix path count) fun s => ⟨[], true, s⟩
  | c :: rest, s =>
      if c = '/' then
        let count := count + BitVec.ofNat 32 (ptr - last)
        dirs.visit o.messenger s (printPrefix path count) fun s =>
          mkdirLoop o path ptr (ptr + 1) count rest s
      else mkdirLoop o path last (ptr + 1) count rest s

/-- `recursive_mkdir`; none when `tmp` has no bytes and is read all the same. A negative size is
more than `malloc` ever has. -/
def recursiveMkdir (o : MkdirSetting) (path : DirPath) (s : σ) : Option (Trials σ CString) :=
  if o.malloc = false ∨ tmpSize path.chars < 0 then some ⟨[], false, s⟩
  else if tmpSize path.chars = 0 then none
  else some (mkdirLoop dirs o path.chars 0 1 0 path.chars.tail s)

end

/-- The indexes of the separators in a string, whose first character has the given index. -/
def separators : Nat → CString → List Nat
  | _, [] => []
  | i, c :: rest => if c = '/' then i :: separators (i + 1) rest else separators (i + 1) rest

/-- The prefixes that end before a separator, and the path itself. -/
def DirPath.parents (path : DirPath) : List CString :=
  (separators 1 path.chars.tail).map path.chars.take ++ [path.chars]

/-- What is tested for each of them. -/
def DirPath.printed (path : DirPath) (address : BitVec 64) : List CString :=
  (separators 1 path.chars.tail).map (fun i => printPrefix path.chars (BitVec.ofNat 32 i)) ++
    [printPrefix path.chars (-address.setWidth 32)]

/-- The address, negated, is negative as an `int`, or as large as the path. -/
def AddressFits (address : BitVec 64) (path : CString) : Prop :=
  (-address.setWidth 32).toInt < 0 ∨ (path.length : Int) ≤ (-address.setWidth 32).toInt

/-- The directories are tried as they should be, up to the first that cannot be made, and the
result says whether they all exist. -/
def MakesPath {σ : Type} (dirs : Places σ CString) (o : MkdirSetting) (path : DirPath) (s : σ) :
    Prop :=
  ∃ made, recursiveMkdir dirs o path s = some made ∧
    made.trace = (dirs.createEach true s path.parents).trace ∧
    (made.ret = true ↔ ∀ p ∈ path.parents, dirs.found made.state p = true)

section

variable {σ : Type} {dirs : Places σ CString} {o : MkdirSetting} {path : DirPath} {chars rest : CString}
  {s : σ} {last ptr i : Nat}

/-! ### The loop -/

/-- The loop goes through what it prints for each separator, and for the `NULL` at the end. -/
theorem mkdirLoop_eq (behind : last ≤ ptr) :
    mkdirLoop dirs o chars last ptr (BitVec.ofNat 32 last) rest s =
      dirs.createEach o.messenger s
        ((separators ptr rest).map (fun i => printPrefix chars (BitVec.ofNat 32 i)) ++
          [printPrefix chars (-o.address.setWidth 32)]) := by
  induction rest generalizing last ptr s with
  | nil =>
      have wrapped : BitVec.ofNat 32 last + (0#64 - (o.address + BitVec.ofNat 64 last)).setWidth 32 =
          -o.address.setWidth 32 := by
        rw [BitVec.zero_sub, BitVec.setWidth_neg_of_le (by decide), BitVec.setWidth_add _ _ (by decide),
          BitVec.setWidth_ofNat_of_le (by decide)]
        grind
      rw [mkdirLoop, wrapped]
      rfl
  | cons c rest ih =>
      rw [mkdirLoop, separators]
      by_cases separator : c = '/'
      · have summed : BitVec.ofNat 32 last + BitVec.ofNat 32 (ptr - last) = BitVec.ofNat 32 ptr := by
          rw [← BitVec.ofNat_add, Nat.add_sub_cancel' behind]
        simp only [if_pos separator, summed, List.map_cons, List.cons_append, Places.createEach]
        congr 1
        funext s
        exact ih (Nat.le_succ ptr)
      · rw [if_neg separator, if_neg separator]
        exact ih (Nat.le_succ_of_le behind)

/-! ### What is printed -/

theorem tmpSize_lt (chars : CString) : tmpSize chars < 2147483648 := BitVec.toInt_lt

theorem separators_bound (h : i ∈ separators ptr rest) : ptr ≤ i ∧ i < ptr + rest.length := by
  induction rest generalizing ptr with
  | nil => cases h
  | cons c rest ih =>
      have inside : i ∈ separators (ptr + 1) rest → ptr ≤ i ∧ i < ptr + (rest.length + 1) := by
        intro later
        have := ih later
        omega
      rw [separators] at h
      rw [List.length_cons]
      split at h
      · rcases List.mem_cons.mp h with rfl | later
        · omega
        · exact inside later
      · exact inside h

/-- What is printed for a separator is the prefix when that fits. -/
theorem printPrefix_separator (h : i ∈ separators 1 chars.tail) :
    printPrefix chars (BitVec.ofNat 32 i) = chars.take i ↔
      ((chars.take i).length : Int) < tmpSize chars := by
  obtain ⟨positive, bound⟩ := separators_bound h
  rw [List.length_tail] at bound
  have length : (chars.take i).length = i := List.length_take_of_le (by omega)
  rw [length]
  constructor
  · intro same
    have cut : (printPrefix chars (BitVec.ofNat 32 i)).length ≤ (tmpSize chars).toNat - 1 :=
      List.length_take_le _ _
    rw [same, length] at cut
    omega
  · intro fits
    have small : i < 2147483648 := by
      have := tmpSize_lt chars
      omega
    have value : (BitVec.ofNat 32 i).toInt = i := by
      have toNat : (BitVec.ofNat 32 i).toNat = i := by
        rw [BitVec.toNat_ofNat]
        exact Nat.mod_eq_of_lt (by omega)
      rw [BitVec.toInt_eq_toNat_of_lt (by omega), toNat]
    rw [printPrefix, value, if_neg (by omega), Int.toNat_natCast]
    exact List.take_of_length_le (by omega)

/-- What is printed at the end is the path when that fits and the address does. -/
theorem printPrefix_last {address : BitVec 64} (nonempty : chars ≠ []) :
    printPrefix chars (-address.setWidth 32) = chars ↔
      (chars.length : Int) < tmpSize chars ∧ AddressFits address chars := by
  have positive : 0 < chars.length := List.length_pos_iff.mpr nonempty
  unfold printPrefix AddressFits
  generalize (-address.setWidth 32).toInt = count
  constructor
  · intro same
    have length := congrArg List.length same
    rw [List.length_take] at length
    split at length
    · omega
    · rw [List.length_take] at length
      omega
  · rintro ⟨fits, negative | large⟩
    · rw [if_pos negative]
      exact List.take_of_length_le (by omega)
    · rw [if_neg (by omega), List.take_take]
      exact List.take_of_length_le (by omega)

/-- The string that is tested where a directory should be is that directory when it fits `tmp`,
and, if it is the path itself, the address does. -/
theorem printed_parents (path : DirPath) (address : BitVec 64) :
    List.Forall₂ (fun a w => a = w ↔
        (w.length : Int) < tmpSize path.chars ∧ (w = path.chars → AddressFits address path.chars))
      (path.printed address) path.parents := by
  apply List.rel_append
  · rw [List.forall₂_map_left_iff, List.forall₂_map_right_iff, List.forall₂_same]
    intro i hi
    have proper : path.chars.take i ≠ path.chars := by
      intro whole
      obtain ⟨positive, bound⟩ := separators_bound hi
      rw [List.take_eq_self_iff] at whole
      rw [List.length_tail] at bound
      omega
    rw [printPrefix_separator hi]
    exact ⟨fun fits => ⟨fits, fun whole => absurd whole proper⟩, And.left⟩
  · apply List.Forall₂.cons _ .nil
    rw [printPrefix_last path.nonempty]
    exact ⟨fun fits => ⟨fits.1, fun _ => fits.2⟩, fun fits => ⟨fits.1, fits.2 rfl⟩⟩

theorem parents_cons (path : DirPath) : ∃ p ps, path.parents = p :: ps :=
  List.exists_cons_of_ne_nil (List.append_ne_nil_of_right_ne_nil _ (List.cons_ne_nil _ _))

end

/-- The directories are made exactly when there is memory for `tmp`, each directory that is reached
fits it, the address of the path fits if the path itself is reached, and no creation fails unless
there is a messenger. -/
theorem recursiveMkdir_iff {σ : Type} (dirs : Places σ CString) (o : MkdirSetting) (path : DirPath)
    (s : σ) : MakesPath dirs o path s ↔
      o.malloc = true ∧ (∀ p ∈ dirs.reached s path.parents, (p.length : Int) < tmpSize path.chars) ∧
        (path.chars ∈ dirs.reached s path.parents → AddressFits o.address path.chars) ∧
        (o.messenger = true ∨ dirs.fails s path.parents = false) := by
  obtain ⟨first, others, parents⟩ := parents_cons path
  have reached : first ∈ dirs.reached s path.parents := parents ▸ Places.head_reached
  unfold MakesPath recursiveMkdir
  by_cases stops : o.malloc = false ∨ tmpSize path.chars < 0
  · rw [if_pos stops]
    constructor
    · rintro ⟨made, returned, trace, -⟩
      cases returned
      have head := dirs.createEach_head true s path.parents
      rw [← trace, parents] at head
      cases head
    · rintro ⟨memory, fits, -⟩
      have := fits first reached
      rcases stops with none | negative
      · rw [memory] at none
        cases none
      · omega
  rw [if_neg stops]
  obtain ⟨memory, size⟩ := not_or.mp stops
  by_cases empty : tmpSize path.chars = 0
  · rw [if_pos empty]
    constructor
    · rintro ⟨made, returned, -⟩
      cases returned
    · rintro ⟨-, fits, -⟩
      have := fits first reached
      omega
  · have loop : mkdirLoop dirs o path.chars 0 1 0 path.chars.tail s =
        dirs.createEach o.messenger s (path.printed o.address) := mkdirLoop_eq (Nat.zero_le 1)
    have follows : dirs.Follows o.messenger s (path.printed o.address) path.parents ↔ _ :=
      Places.createEach_iff (printed_parents path o.address)
    rw [if_neg empty, loop]
    constructor
    · rintro ⟨made, returned, result⟩
      cases returned
      obtain ⟨right, heard⟩ := follows.mp result
      exact ⟨Bool.not_eq_false _ ▸ memory, fun p hp => (right p hp).1, fun hp => (right _ hp).2 rfl, heard⟩
    · rintro ⟨-, fits, address, heard⟩
      refine ⟨_, rfl, follows.mpr ⟨?_, heard⟩⟩
      intro p hp
      refine ⟨fits p hp, ?_⟩
      rintro rfl
      exact address hp

/-- Nothing exists, and nothing can be created. -/
def noPlaces : Places Unit CString where
  found _ _ := false
  create _ _ := ((), false)
  created := nofun
  kept := nofun
  refused _ _ _ := rfl

/-- Without a messenger, a directory that could not be made is reported as made. -/
theorem mkdir_unheard : ¬ ∀ (σ : Type) (dirs : Places σ CString) (o : MkdirSetting) (path : DirPath)
    (s : σ), MakesPath dirs o path s := by
  intro all
  obtain ⟨made, returned, -, exist⟩ := all Unit noPlaces ⟨true, false, 1⟩ ⟨['d'], by decide⟩ ()
  have result : recursiveMkdir noPlaces ⟨true, false, 1⟩ ⟨['d'], by decide⟩ () =
      some ⟨[.looked ['d'], .tried ['d'] false], true, ()⟩ := by decide
  rw [result] at returned
  cases returned
  exact absurd (exist.mp rfl ['d'] (by decide)) (by decide)

end Dserve
