import Mathlib.Logic.Function.Basic

/-!
A directory of files.

A name leads to a file. An open file is used by its number, so that it keeps its bytes when
its name is removed, and a file that is created under the name later is another one.
-/

structure Disk (ν β : Type) where
  dir : ν → Option Nat
  content : Nat → List β
  next : Nat

namespace Disk

variable {ν β : Type} [DecidableEq ν]

def empty : Disk ν β := ⟨fun _ => none, fun _ => [], 0⟩

/-- The bytes of the file with the name. -/
def read (d : Disk ν β) (name : ν) : Option (List β) := (d.dir name).map d.content

/-- Open a file for appending; it is created when there is none. -/
def create (d : Disk ν β) (name : ν) : Disk ν β × Nat :=
  match d.dir name with
  | some file => (d, file)
  | none =>
      ({ dir := Function.update d.dir name (some d.next)
         content := Function.update d.content d.next []
         next := d.next + 1 }, d.next)

def append (d : Disk ν β) (file : Nat) (bytes : List β) : Disk ν β :=
  { d with content := Function.update d.content file (d.content file ++ bytes) }

def truncate (d : Disk ν β) (file : Nat) : Disk ν β :=
  { d with content := Function.update d.content file [] }

def unlink (d : Disk ν β) (name : ν) : Disk ν β :=
  { d with dir := Function.update d.dir name none }

/-- Two names lead to two files, which were created. -/
structure Wf (d : Disk ν β) : Prop where
  inj : ∀ name name' file, d.dir name = some file → d.dir name' = some file → name = name'
  below : ∀ name file, d.dir name = some file → file < d.next

variable {d : Disk ν β} {name other : ν} {file : Nat}

omit [DecidableEq ν] in
theorem wf_empty : (empty : Disk ν β).Wf := by
  constructor <;> simp [empty]

/-- The file that is opened is the one with the name. -/
theorem create_dir : (d.create name).1.dir name = some (d.create name).2 := by
  unfold create
  cases found : d.dir name with
  | some file => exact found
  | none => exact Function.update_self _ _ _

/-- It has the bytes it had, or none. -/
theorem create_content : (d.create name).1.content (d.create name).2 = (d.read name).getD [] := by
  unfold create read
  cases found : d.dir name with
  | some file => rfl
  | none => exact Function.update_self _ _ _

theorem create_dir_other (differs : other ≠ name) : (d.create name).1.dir other = d.dir other := by
  unfold create
  cases found : d.dir name with
  | some file => rfl
  | none => exact Function.update_of_ne differs _ _

/-- The names there were lead to the same files. -/
theorem create_dir_kept (found : d.dir other = some file) : (d.create name).1.dir other = some file := by
  by_cases same : other = name
  · subst same
    unfold create
    rw [found]
    exact found
  · rw [create_dir_other same]
    exact found

/-- The files there were keep their bytes. -/
theorem create_content_other (wf : d.Wf) (found : d.dir other = some file) :
    (d.create name).1.content file = d.content file := by
  unfold create
  cases h : d.dir name with
  | some file => rfl
  | none => exact Function.update_of_ne (Nat.ne_of_lt (wf.below other file found)) _ _

theorem wf_create (wf : d.Wf) : (d.create name).1.Wf := by
  unfold create
  cases found : d.dir name with
  | some file => exact wf
  | none =>
      have new : ∀ other file, Function.update d.dir name (some d.next) other = some file →
          (other = name ∧ file = d.next) ∨ (other ≠ name ∧ d.dir other = some file) := by
        intro other file h
        by_cases same : other = name
        · subst same
          rw [Function.update_self] at h
          exact Or.inl ⟨rfl, (Option.some.inj h).symm⟩
        · rw [Function.update_of_ne same] at h
          exact Or.inr ⟨same, h⟩
      constructor
      · intro a b file ha hb
        rcases new a file ha with ⟨rfl, rfl⟩ | ⟨-, oldA⟩
        · rcases new b _ hb with ⟨rfl, -⟩ | ⟨-, oldB⟩
          · rfl
          · exact absurd (wf.below b _ oldB) (Nat.lt_irrefl _)
        · rcases new b file hb with ⟨rfl, rfl⟩ | ⟨-, oldB⟩
          · exact absurd (wf.below a _ oldA) (Nat.lt_irrefl _)
          · exact wf.inj a b file oldA oldB
      · intro a file ha
        rcases new a file ha with ⟨-, rfl⟩ | ⟨-, oldA⟩
        · exact Nat.lt_succ_self _
        · exact Nat.lt_succ_of_lt (wf.below a file oldA)

theorem wf_unlink (wf : d.Wf) : (d.unlink name).Wf := by
  have old : ∀ other file, (d.unlink name).dir other = some file → d.dir other = some file := by
    intro other file h
    by_cases same : other = name
    · subst same
      simp [unlink] at h
    · simpa [unlink, same] using h
  exact ⟨fun a b file ha hb => wf.inj a b file (old a file ha) (old b file hb),
    fun a file ha => wf.below a file (old a file ha)⟩

omit [DecidableEq ν] in
theorem wf_append (wf : d.Wf) (file : Nat) (bytes : List β) : (d.append file bytes).Wf := ⟨wf.inj, wf.below⟩

omit [DecidableEq ν] in
theorem wf_truncate (wf : d.Wf) (file : Nat) : (d.truncate file).Wf := ⟨wf.inj, wf.below⟩

theorem unlink_dir_other (differs : other ≠ name) : (d.unlink name).dir other = d.dir other :=
  Function.update_of_ne differs _ _

omit [DecidableEq ν] in
theorem append_content {bytes : List β} :
    (d.append file bytes).content file = d.content file ++ bytes := Function.update_self _ _ _

omit [DecidableEq ν] in
theorem append_content_other {file' : Nat} {bytes : List β} (differs : file' ≠ file) :
    (d.append file bytes).content file' = d.content file' := Function.update_of_ne differs _ _

omit [DecidableEq ν] in
theorem truncate_content : (d.truncate file).content file = [] := Function.update_self _ _ _

omit [DecidableEq ν] in
theorem truncate_content_other {file' : Nat} (differs : file' ≠ file) :
    (d.truncate file).content file' = d.content file' := Function.update_of_ne differs _ _

end Disk
