import Dserve.Lib.Machine
import Dserve.Rotation

/-!
`util.c`: `remap_io` and `remap_log`, over all the times the daemon is started.

The listening process and the controller have a log each, in the same directory. A process that
starts gives the log of the one before it a number and opens a new one; the one before may still
write to its own, and so may the handlers it has forked. A process whose `remap_log` fails has no
log of its own. `logs_kept` says that nothing that was ever written to a log is lost, or mixed with
what was written to another, and that the numbers tell the order of the starts.
-/

namespace Dserve

/-- The processes with a log: `DS_USER_AGENT`, and the controller. -/
inductive Logger where
  | server
  | controller
deriving DecidableEq

def Logger.base : Logger → CString
  | .server => "dserver".toList
  | .controller => "controller".toList

/-- What the environment decides in `remap_io`. -/
structure RemapOutcome where
  malloc : Bool := true
  rename : RenameOutcome := {}
  freopen : Bool := true

/-- `snprintf(name, sizeof(name) - 1, "%s.log", base_name)` -/
def remapName (base : CString) : CString := (base ++ ".log".toList).take 30

/-- `snprintf(fullpath, size - 1 , "%s/%s", dir, name)` -/
def fullpath (dir name : CString) : CString :=
  let size := dir.length + 64
  (dir ++ '/' :: name).take (size - 2)

/-- `remap_io`; none when `rename_if_exists` overflows. -/
def remapIo (o : RemapOutcome) (dir name : CString) (logs : LogFiles) : Option (Bool × LogFiles) :=
  if o.malloc = false then some (false, logs)
  else (renameIfExists o.rename (fullpath dir name) logs).map fun r =>
    if r.1 then
      match if o.freopen then r.2.create (fullpath dir name) [] else none with
      | some logs => (true, logs)
      | none => (false, r.2)
    else (false, r.2)

/-- `remap_log` -/
def remapLog (o : RemapOutcome) (dir base : CString) (logs : LogFiles) : Option (Bool × LogFiles) :=
  remapIo o dir (remapName base) logs

/-! ### The processes that write -/

/-- A log that `remap_log` has opened: the path, the name the file has now, and what was written to
it since. -/
structure Stream where
  path : CString
  name : CString
  written : List UInt8
deriving DecidableEq

structure Logs where
  files : LogFiles
  streams : List Stream

inductive LogAction where
  /-- a process starts -/
  | remap (o : RemapOutcome) (l : Logger)
  /-- something is written to a log that was opened -/
  | write (i : Nat) (text : List UInt8)

/-- The name of a file after `rename_if_exists`. -/
def nameAfter (o : RenameOutcome) (path : CString) (logs : LogFiles) (name : CString) : CString :=
  match renameIfExists o path logs, probe (fun i => decide (newFile path i ∈ logs.names)) INT_COUNT 0 with
  | some (true, after), some i => if name = path ∧ path ∉ after.names then newFile path i else name
  | _, _ => name

/-- A stream stays with its file. -/
def Stream.follow (rename : CString → CString) (s : Stream) : Stream := { s with name := rename s.name }

def Logs.step (dir : CString) (logs : Logs) : LogAction → Option Logs
  | .remap o l => (remapLog o dir l.base logs.files).map fun r =>
      let path := fullpath dir (remapName l.base)
      let rename := if o.malloc then nameAfter o.rename path logs.files else id
      let streams := logs.streams.map (Stream.follow rename)
      ⟨r.2, if r.1 then streams ++ [⟨path, path, []⟩] else streams⟩
  | .write i text => logs.streams[i]?.map fun s =>
      ⟨logs.files.modify s.name (· ++ text),
        logs.streams.set i { s with written := s.written ++ text }⟩

/-- All the processes that have their logs in the directory, one start after the other. -/
def logging (dir : CString) : Machine Logs LogAction := ⟨Logs.step dir⟩

/-! ### The names -/

/-- The path of a log. -/
def logPath (dir : CString) (l : Logger) : CString := dir ++ '/' :: (l.base ++ ".log".toList)

/-- No name is cut off. -/
theorem fullpath_eq (dir : CString) (l : Logger) : fullpath dir (remapName l.base) = logPath dir l := by
  have whole : remapName l.base = l.base ++ ".log".toList := by cases l <;> rfl
  have short : (l.base ++ ".log".toList).length ≤ 30 := by cases l <;> decide
  unfold fullpath logPath
  rw [whole]
  apply List.take_of_length_le
  simp only [List.length_append, List.length_cons] at short ⊢
  omega

theorem isDigit_printPadded {i : Nat} {c : Char} (member : c ∈ printPadded i) : c.isDigit = true := by
  rcases List.mem_append.mp member with zero | digit
  · rw [List.eq_of_mem_replicate zero]
    rfl
  · exact Nat.isDigit_of_mem_toDigits (by decide) (by decide) digit

/-- What stands behind the last full stop. -/
theorem append_cons_inj {α : Type} {c : α} {f g p q : List α} (same : f ++ c :: p = g ++ c :: q)
    (not_p : c ∉ p) (not_q : c ∉ q) : f = g ∧ p = q := by
  rcases List.append_eq_append_iff.mp same with ⟨d, rfl, rest⟩ | ⟨d, rfl, rest⟩
  · cases d with
    | nil => exact ⟨(List.append_nil f).symm, (List.cons.inj rest).2⟩
    | cons x d =>
        obtain ⟨-, rfl⟩ := List.cons.inj rest
        exact absurd (List.mem_append_right d List.mem_cons_self) not_p
  · cases d with
    | nil => exact ⟨List.append_nil g, (List.cons.inj rest).2.symm⟩
    | cons x d =>
        obtain ⟨-, rfl⟩ := List.cons.inj rest
        exact absurd (List.mem_append_right d List.mem_cons_self) not_q

theorem stop_printPadded (i : Nat) : '.' ∉ printPadded i :=
  fun member => absurd (isDigit_printPadded member) (by decide)

/-- The number tells which log it was. -/
theorem rotatedName_eq {f g : CString} {i j : Nat} (same : rotatedName f i = rotatedName g j) :
    f = g ∧ i = j := by
  obtain ⟨base, digits⟩ := append_cons_inj same (stop_printPadded i) (stop_printPadded j)
  exact ⟨base, printPadded_inj digits⟩

/-- A log with a number is not the log of a process. -/
theorem rotatedName_logPath {dir f : CString} {i : Nat} {l : Logger} :
    rotatedName f i ≠ logPath dir l := by
  intro same
  have path : logPath dir l = (dir ++ '/' :: l.base) ++ '.' :: "log".toList := by
    unfold logPath
    simp
  rw [path] at same
  obtain ⟨-, digits⟩ := append_cons_inj same (stop_printPadded i) (by decide)
  have letter : 'l' ∈ printPadded i := by rw [digits]; decide
  exact absurd (isDigit_printPadded letter) (by decide)

/-! ### One start -/

section

variable {dir path name : CString} {o : RenameOutcome} {before after : LogFiles} {ret : Bool} {i : Nat}

/-- What `rename_if_exists` does when it returns: it leaves everything as it was, or the log has the
first free number. -/
inductive Renames (o : RenameOutcome) (before : LogFiles) (path : CString) (ret : Bool)
    (after : LogFiles) : Prop where
  | same : after = before → (ret = true → path ∉ before.names) →
      (∀ name ∈ before.names, nameAfter o path before name = name) → Renames o before path ret after
  | moved (i : Nat) : ret = true → path ∈ before.names → Rotated before after path i →
      (∀ name, nameAfter o path before name = if name = path then rotatedName path i else name) →
      Renames o before path ret after

theorem renameIfExists_renames (h : renameIfExists o path before = some (ret, after)) :
    Renames o before path ret after := by
  by_cases present : path ∈ before.names
  · have unmoved (same : after = before) (refused : ret = false) : Renames o before path ret after := by
      refine .same same (fun moved => by rw [refused] at moved; cases moved) fun name _ => ?_
      rw [nameAfter, h, refused]
    have h' := h
    unfold renameIfExists at h'
    rw [if_neg (not_not.mpr present)] at h'
    split at h'
    · cases h'
      exact unmoved rfl rfl
    · split at h'
      · cases h'
      · split at h'
        · cases h'
          exact unmoved rfl rfl
        · obtain ⟨i, found, result⟩ := Option.map_eq_some_iff.mp h'
          split at result
          · next logs renamed =>
            cases result
            obtain ⟨bound, free, least⟩ := probe_least found
            rw [Nat.zero_add] at bound
            have whole : newFile path i = rotatedName path i := newFile_whole bound
            have renamed : before.rename path (rotatedName path i) = some after := by
              split at renamed
              · exact whole ▸ renamed
              · cases renamed
            obtain ⟨content, gone, others⟩ := Folder.rename_content renamed rotatedName_ne
            have absent : path ∉ after.names := fun member => (after.mem_names path).mp member gone
            refine .moved i rfl present ⟨?_, whole ▸ of_decide_eq_false free, content, gone, others⟩ ?_
            · intro j below
              rw [← newFile_whole (Nat.lt_trans below bound)]
              exact of_decide_eq_true (least j (Nat.zero_le j) below)
            · intro name
              simp only [nameAfter, h, found, whole, absent, not_false_eq_true, and_true]
          · cases result
            exact unmoved rfl rfl
  · have h' := h
    unfold renameIfExists at h'
    rw [if_pos present] at h'
    cases h'
    refine .same rfl (fun _ => present) fun name member => ?_
    simp only [nameAfter, h]
    split
    · next after i same found =>
      cases same
      rw [if_neg]
      rintro ⟨rfl, -⟩
      exact present member
    · rfl

/-- The files there are after a rename. -/
theorem Rotated.mem_names (rotated : Rotated before after path i) (present : path ∈ before.names) :
    name ∈ after.names ↔ name = rotatedName path i ∨ name ≠ path ∧ name ∈ before.names := by
  rw [after.mem_names, before.mem_names]
  by_cases new : name = rotatedName path i
  · subst new
    rw [rotated.moved]
    simp [(before.mem_names path).mp present]
  · by_cases old : name = path
    · subst old
      simp [rotated.gone, new]
    · simp [rotated.others name old new, new, old]

end

/-! ### What is kept -/

/-- Where the files and the texts are. `now` is where the files of the start are. -/
structure Logs.Kept (dir : CString) (start : LogFiles) (now : CString → CString) (logs : Logs) : Prop where
  /-- every log that was opened is in a file of its own -/
  written : ∀ s ∈ logs.streams, logs.files.content s.name = some s.written
  distinct : (logs.streams.map Stream.name).Nodup
  /-- a file keeps its name, or is a log that got a number -/
  named : ∀ s ∈ logs.streams, (∃ l, s.path = logPath dir l) ∧
    (s.name = s.path ∨ ∃ k, s.name = rotatedName s.path k ∧
      ∀ j < k, rotatedName s.path j ∈ logs.files.names)
  /-- of two logs of the same process, the one that was opened later has the greater number -/
  order : logs.streams.Pairwise fun s s' => s.path = s'.path →
    ∃ k, s.name = rotatedName s.path k ∧ ∀ k', s'.name = rotatedName s'.path k' → k < k'
  /-- a file that was there keeps its name, or it is a log that got a number -/
  old : ∀ name ∈ start.names, logs.files.content (now name) = start.content name ∧
    (now name = name ∨ (∃ l, name = logPath dir l) ∧ ∃ k, now name = rotatedName name k ∧
      ∀ j < k, rotatedName name j ∈ logs.files.names) ∧
    now name ∉ logs.streams.map Stream.name
  apart : Set.InjOn now start.names

section

variable {dir path name : CString} {start after : LogFiles} {now : CString → CString} {logs logs' : Logs}
  {l : Logger} {i : Nat} {s : Stream}

theorem Logs.Kept.mem_names (inv : logs.Kept dir start now) (member : s ∈ logs.streams) :
    s.name ∈ logs.files.names := by
  rw [logs.files.mem_names, inv.written s member]
  simp

theorem Logs.Kept.now_mem (inv : logs.Kept dir start now) (member : name ∈ start.names) :
    now name ∈ logs.files.names := by
  rw [logs.files.mem_names, (inv.old name member).1]
  exact (start.mem_names name).mp member

/-- A stream whose file has the path of a log was opened under this path. -/
theorem Logs.Kept.path_eq (inv : logs.Kept dir start now) (member : s ∈ logs.streams)
    (same : s.name = logPath dir l) : s.path = logPath dir l := by
  rcases (inv.named s member).2 with own | ⟨k, rotated, -⟩
  · exact own ▸ same
  · exact absurd (rotated.symm.trans same) rotatedName_logPath

/-- A log gets a number. -/
theorem Logs.Kept.rotate (inv : logs.Kept dir start now) (present : logPath dir l ∈ logs.files.names)
    (rotated : Rotated logs.files after (logPath dir l) i) {rename : CString → CString}
    (renames : ∀ name,
      rename name = if name = logPath dir l then rotatedName (logPath dir l) i else name) :
    Logs.Kept dir start (rename ∘ now) ⟨after, logs.streams.map (Stream.follow rename)⟩ := by
  have names (name : CString) : name ∈ after.names ↔ _ := rotated.mem_names present
  have injective : Set.InjOn rename logs.files.names := by
    intro x hx y hy same
    rw [renames, renames] at same
    split at same <;> split at same
    · next x_path y_path => exact x_path.trans y_path.symm
    · exact absurd (same ▸ hy) rotated.free
    · exact absurd (same ▸ hx) rotated.free
    · exact same
  have content (name : CString) (member : name ∈ logs.files.names) :
      after.content (rename name) = logs.files.content name := by
    rw [renames]
    split
    · next own => rw [rotated.moved, own]
    · next other =>
      refine rotated.others name other fun same => ?_
      exact absurd (same ▸ member) rotated.free
  have numbered {f : CString} {k : Nat} (member : rotatedName f k ∈ logs.files.names) :
      rotatedName f k ∈ after.names := (names _).mpr (Or.inr ⟨rotatedName_logPath, member⟩)
  refine ⟨?_, ?_, ?_, ?_, ?_, ?_⟩
  · intro s' member'
    obtain ⟨s, member, rfl⟩ := List.mem_map.mp member'
    exact (content _ (inv.mem_names member)).trans (inv.written s member)
  · have same : (logs.streams.map (Stream.follow rename)).map Stream.name =
        (logs.streams.map Stream.name).map rename := by
      rw [List.map_map, List.map_map]
      rfl
    show ((logs.streams.map (Stream.follow rename)).map Stream.name).Nodup
    rw [same]
    refine inv.distinct.map_on fun x hx y hy => ?_
    obtain ⟨s, member, rfl⟩ := List.mem_map.mp hx
    obtain ⟨s', member', rfl⟩ := List.mem_map.mp hy
    exact injective (inv.mem_names member) (inv.mem_names member')
  · intro s' member'
    obtain ⟨s, member, rfl⟩ := List.mem_map.mp member'
    refine ⟨(inv.named s member).1, ?_⟩
    show rename s.name = s.path ∨ ∃ k, rename s.name = rotatedName s.path k ∧ _
    rw [renames]
    split
    · next own =>
      have path := inv.path_eq member own
      refine Or.inr ⟨i, by rw [path], fun j below => numbered ?_⟩
      show rotatedName s.path j ∈ logs.files.names
      rw [path]
      exact rotated.least j below
    · rcases (inv.named s member).2 with own | ⟨k, own, least⟩
      · exact Or.inl own
      · exact Or.inr ⟨k, own, fun j below => numbered (least j below)⟩
  · refine List.pairwise_map.mpr (inv.order.imp_of_mem ?_)
    intro s s' member member' before path
    obtain ⟨k, own, later⟩ := before path
    refine ⟨k, ?_, ?_⟩
    · show rename s.name = rotatedName s.path k
      rw [renames, own, if_neg rotatedName_logPath]
    · intro k' new
      replace new : rename s'.name = rotatedName s'.path k' := new
      rw [renames] at new
      split at new
      · next newest =>
        obtain ⟨same, rfl⟩ := rotatedName_eq new
        -- the least number that was free is greater than every number that was given before
        have taken := inv.mem_names member
        rw [own] at taken
        replace path : s.path = s'.path := path
        rw [path, ← same] at own taken
        rcases Nat.lt_trichotomy k i with less | rfl | more
        · exact less
        · exact absurd taken rotated.free
        · rcases (inv.named s member).2 with first | ⟨k₁, number, least⟩
          · rw [path, ← same] at first
            exact absurd (own.symm.trans first) rotatedName_logPath
          · rw [path, ← same] at number least
            obtain ⟨-, rfl⟩ := rotatedName_eq (number.symm.trans own)
            exact absurd (least i more) rotated.free
      · exact later k' new
  · intro name member
    obtain ⟨kept, form, absent⟩ := inv.old name member
    have mem := inv.now_mem member
    refine ⟨(content _ mem).trans kept, ?_, ?_⟩
    · show rename (now name) = name ∨
        (∃ l, name = logPath dir l) ∧ ∃ k, rename (now name) = rotatedName name k ∧ _
      rw [renames]
      split
      · next own =>
        rcases form with same | ⟨-, k, number, -⟩
        · have path : name = logPath dir l := same.symm.trans own
          refine Or.inr ⟨⟨l, path⟩, i, by rw [path], fun j below => numbered ?_⟩
          show rotatedName name j ∈ logs.files.names
          rw [path]
          exact rotated.least j below
        · exact absurd (number.symm.trans own) rotatedName_logPath
      · exact form.imp id fun ⟨log, k, number, least⟩ =>
          ⟨log, k, number, fun j below => numbered (least j below)⟩
    · intro here
      obtain ⟨s', member', same⟩ := List.mem_map.mp here
      obtain ⟨s, in_streams, rfl⟩ := List.mem_map.mp member'
      refine absent (List.mem_map.mpr ⟨s, in_streams, ?_⟩)
      exact injective (inv.mem_names in_streams) mem same
  · exact injective.comp inv.apart fun name member => inv.now_mem member

/-- A process opens a new log. -/
theorem Logs.Kept.reopen (inv : logs.Kept dir start now) (new : logPath dir l ∉ logs.files.names)
    (created : logs.files.create (logPath dir l) [] = some after) :
    Logs.Kept dir start now
      ⟨after, logs.streams ++ [⟨logPath dir l, logPath dir l, []⟩]⟩ := by
  have content := Folder.create_content created new
  have old (name : CString) (member : name ∈ logs.files.names) :
      after.content name = logs.files.content name := by
    rw [content, if_neg]
    rintro rfl
    exact new member
  have names (name : CString) (member : name ∈ logs.files.names) : name ∈ after.names := by
    rw [after.mem_names, old name member]
    exact (logs.files.mem_names name).mp member
  have other (s : Stream) (member : s ∈ logs.streams) : s.name ≠ logPath dir l :=
    fun same => new (same ▸ inv.mem_names member)
  refine ⟨?_, ?_, ?_, ?_, ?_, inv.apart⟩
  · intro s member
    rcases List.mem_append.mp member with member | member
    · rw [old _ (inv.mem_names member), inv.written s member]
    · rw [List.mem_singleton.mp member, content, if_pos rfl]
  · rw [List.map_append]
    refine List.nodup_append.mpr ⟨inv.distinct, List.nodup_singleton _, ?_⟩
    intro x hx y hy
    obtain ⟨s, member, rfl⟩ := List.mem_map.mp hx
    rw [List.mem_singleton.mp hy]
    exact other s member
  · intro s member
    rcases List.mem_append.mp member with member | member
    · obtain ⟨path, form⟩ := inv.named s member
      exact ⟨path, form.imp id fun ⟨k, own, least⟩ => ⟨k, own, fun j below => names _ (least j below)⟩⟩
    · rw [List.mem_singleton.mp member]
      exact ⟨⟨l, rfl⟩, Or.inl rfl⟩
  · refine List.pairwise_append.mpr ⟨inv.order, List.pairwise_singleton _ _, ?_⟩
    intro s member s' member' path
    rw [List.mem_singleton.mp member'] at path ⊢
    rcases (inv.named s member).2 with own | ⟨k, own, -⟩
    · exact absurd (own.trans path) (other s member)
    · exact ⟨k, own, fun k' same => absurd same.symm rotatedName_logPath⟩
  · intro name member
    obtain ⟨kept, form, absent⟩ := inv.old name member
    refine ⟨by rw [old _ (inv.now_mem member), kept], ?_, ?_⟩
    · exact form.imp id fun ⟨log, k, number, least⟩ =>
        ⟨log, k, number, fun j below => names _ (least j below)⟩
    · rw [List.map_append]
      intro here
      rcases List.mem_append.mp here with here | here
      · exact absent here
      · have same : now name = logPath dir l := List.mem_singleton.mp here
        exact new (same ▸ inv.now_mem member)

/-- A process writes to its log. -/
theorem Logs.Kept.write {text : List UInt8} (inv : logs.Kept dir start now)
    (here : logs.streams[i]? = some s) : Logs.Kept dir start now
      ⟨logs.files.modify s.name (· ++ text),
        logs.streams.set i { s with written := s.written ++ text }⟩ := by
  have member := List.mem_of_getElem? here
  obtain ⟨inside, place⟩ := List.getElem?_eq_some_iff.mp here
  have names : (logs.streams.set i { s with written := s.written ++ text }).map Stream.name =
      logs.streams.map Stream.name := by
    rw [List.map_set, ← place, ← List.getElem_map Stream.name]
    exact List.set_getElem_self (by simpa using inside)
  have paths (s' : Stream) (mem : s' ∈ logs.streams.set i { s with written := s.written ++ text }) :
      ∃ s₀ ∈ logs.streams, s'.name = s₀.name ∧ s'.path = s₀.path := by
    rcases List.mem_or_eq_of_mem_set mem with old | rfl
    · exact ⟨s', old, rfl, rfl⟩
    · exact ⟨s, member, rfl, rfl⟩
  refine ⟨?_, names ▸ inv.distinct, ?_, ?_, ?_, inv.apart⟩
  · intro s' mem
    obtain ⟨j, at_j⟩ := List.mem_iff_getElem?.mp mem
    rw [List.getElem?_set] at at_j
    rw [Folder.modify_content]
    split at at_j
    · cases at_j
      rw [if_pos rfl, inv.written s member]
      rfl
    · next other =>
      have old := List.mem_of_getElem? at_j
      rw [if_neg, inv.written s' old]
      intro same
      apply other
      apply (List.getElem?_inj (by simpa using inside) inv.distinct).mp
      rw [List.getElem?_map, List.getElem?_map, here, at_j, Option.map_some, Option.map_some, same]
  · intro s' mem
    obtain ⟨s₀, old, name, path⟩ := paths s' mem
    rw [name, path]
    exact inv.named s₀ old
  · have order : (logs.streams.map fun s => (s.path, s.name)).Pairwise fun x y => x.1 = y.1 →
        ∃ k, x.2 = rotatedName x.1 k ∧ ∀ k', y.2 = rotatedName y.1 k' → k < k' :=
      List.pairwise_map.mpr inv.order
    have same : (logs.streams.set i { s with written := s.written ++ text }).map
        (fun s => (s.path, s.name)) = logs.streams.map fun s => (s.path, s.name) := by
      have bound : i < (logs.streams.map fun s => (s.path, s.name)).length := by
        simpa using inside
      have put : (s.path, s.name) = (logs.streams.map fun s => (s.path, s.name))[i] := by
        rw [List.getElem_map, place]
      rw [List.map_set, put]
      exact List.set_getElem_self _
    exact List.pairwise_map.mp (same ▸ order)
  · intro name mem
    obtain ⟨kept, form, absent⟩ := inv.old name mem
    refine ⟨?_, form, names ▸ absent⟩
    rw [Folder.modify_content, if_neg, kept]
    intro same
    exact absent (same ▸ List.mem_map_of_mem member)

/-- The streams stay when the names of their files do. -/
theorem follow_same {rename : CString → CString} {streams : List Stream}
    (same : ∀ s ∈ streams, rename s.name = s.name) : streams.map (Stream.follow rename) = streams := by
  calc streams.map (Stream.follow rename) = streams.map id := by
        refine List.map_congr_left fun s member => ?_
        unfold Stream.follow
        rw [same s member]
        rfl
    _ = streams := List.map_id streams

/-- A process starts: it gives the log that is there a number, and opens a new one. -/
theorem Logs.Kept.remap {o : RemapOutcome} (inv : logs.Kept dir start now)
    (h : (logging dir).step logs (.remap o l) = some logs') : ∃ now, logs'.Kept dir start now := by
  obtain ⟨⟨ret, files⟩, remapped, rfl⟩ := Option.map_eq_some_iff.mp h
  simp only [fullpath_eq]
  simp only [remapLog, remapIo, fullpath_eq] at remapped
  -- the log is opened, or not
  have opened {now : CString → CString} {files₁ files₂ : LogFiles} {streams : List Stream} {ret : Bool}
      (inv : Logs.Kept dir start now ⟨files₁, streams⟩) (new : logPath dir l ∉ files₁.names)
      (create : (match if o.freopen then files₁.create (logPath dir l) [] else none with
        | some logs => (true, logs)
        | none => (false, files₁)) = (ret, files₂)) :
      Logs.Kept dir start now
        ⟨files₂, if ret then streams ++ [⟨logPath dir l, logPath dir l, []⟩] else streams⟩ := by
    split at create
    · next created =>
      cases create
      split at created
      · exact inv.reopen new created
      · cases created
    · cases create
      exact inv
  cases malloc : o.malloc with
  | false =>
      rw [if_pos malloc] at remapped
      cases remapped
      refine ⟨now, ?_⟩
      have same : logs.streams.map (Stream.follow id) = logs.streams := follow_same fun _ _ => rfl
      simpa [same] using inv
  | true =>
      rw [if_neg (by simp [malloc])] at remapped
      obtain ⟨⟨ret', after⟩, renamed, result⟩ := Option.map_eq_some_iff.mp remapped
      simp only [if_true]
      cases renameIfExists_renames renamed with
      | same unchanged absent names =>
          subst unchanged
          refine ⟨now, ?_⟩
          rw [follow_same fun s member => names s.name (inv.mem_names member)]
          cases ret' with
          | true => exact opened inv (absent rfl) result
          | false =>
              cases result
              exact inv
      | moved i returned present rotated names =>
          cases returned
          refine ⟨_, opened (inv.rotate present rotated names) ?_ result⟩
          intro here
          exact (after.mem_names _).mp here rotated.gone

end

/-- However often the processes are started, and whatever they write meanwhile: the files that were
there are kept, what is written to a log that was opened is whole and in a file of its own, and the
numbers of the logs follow the order of the starts. -/
theorem logs_kept {dir : CString} {files : LogFiles} {logs : Logs}
    (run : (logging dir).Reachable ⟨files, []⟩ logs) : ∃ now, logs.Kept dir files now := by
  refine Machine.Run.invariant (I := fun logs => ∃ now, logs.Kept dir files now) run ⟨id, ?_⟩ ?_
  · refine ⟨?_, List.nodup_nil, ?_, List.Pairwise.nil, ?_, fun _ _ _ _ same => same⟩
    · intro s member
      cases member
    · intro s member
      cases member
    · intro name _
      refine ⟨rfl, Or.inl rfl, fun member => ?_⟩
      cases member
  · rintro logs a logs' ⟨now, inv⟩ - step
    cases a with
    | remap o l => exact inv.remap step
    | write i text =>
        obtain ⟨s, here, rfl⟩ := Option.map_eq_some_iff.mp step
        exact ⟨now, inv.write here⟩

/-- The listening process is started twice, and writes once more after it was started again. -/
def twoStarts : List LogAction :=
  [.remap {} .server, .write 0 [1], .remap {} .controller, .remap {} .server, .write 0 [2], .write 2 [3]]

theorem logs_kept_run : ∃ logs : Logs, (logging ['d']).Reachable ⟨twoLogs, []⟩ logs ∧
    logs.streams.map Stream.written = [[1, 2], [], [3]] ∧ ∃ now, logs.Kept ['d'] twoLogs now := by
  obtain ⟨logs, run, got⟩ := Machine.exists_run_of_exec (logging ['d']) (fun _ _ => True)
    ⟨twoLogs, []⟩ twoStarts (fun logs => logs.streams.map Stream.written = [[1, 2], [], [3]]) (by decide)
  exact ⟨logs, run, got, logs_kept run⟩

end Dserve
