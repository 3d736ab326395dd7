import Dserve.Lib.Disk
import Dserve.Sound

/-!
The destination files.

A download is written to the file that is named after its URL, in append mode, from the
length that the file has. `delete_file` is called on one path of `CANCEL` only. `file_complete`
says that a transfer which succeeds leaves the resource in the file, as long as a transfer
finds nothing but a beginning of its own resource there and has the file for itself. A
download that is `COMPLETED` and cancelled leaves its file for the next URL with the same
name (`left_over`).

What the remote side delivers from an offset is a resource without that many bytes; resources
do not change.
-/

namespace Dserve

/-- What a download thread has open: the file, the offset it asked to resume from, and how
many bytes it has written. -/
structure Transfer where
  file : Nat
  offset : Nat
  delivered : Nat

/-- The controller process and the download directory. -/
structure Host where
  config : Config HeapList
  disk : Disk CString UInt8
  transfer : Tid → Transfer

/-- `get_file_name`: the directory in front of the name is the same for all entries. -/
def Mem.fileName {L : Type → Type} (m : Mem L) (p : EntryPtr) : Option CString :=
  getNameFromUrl (m.entry p).url

/-- What `open_file` meets: `fopen` fails; `ftell` returns the length; `ftell` fails and
`freopen` empties the file, or fails, too. -/
inductive OpenOutcome where
  | failed
  | resumed
  | truncated
  | lost
deriving DecidableEq, Repr

def OpenOutcome.opens : OpenOutcome → Bool
  | .resumed => true
  | .truncated => true
  | _ => false

/-- `open_file` -/
def openFile (d : Disk CString UInt8) (name : CString) :
    OpenOutcome → Disk CString UInt8 × Option Transfer
  | .failed => (d, none)
  | .resumed =>
      let opened := d.create name
      (opened.1, some ⟨opened.2, (opened.1.content opened.2).length, 0⟩)
  | .truncated =>
      let opened := d.create name
      (opened.1.truncate opened.2, some ⟨opened.2, 0, 0⟩)
  | .lost => ((d.create name).1, none)

/-- A step of the process, where `unlinked` says whether `unlink` succeeds; a thread opens its
file; `libcurl` hands the next bytes to `fwrite`. -/
inductive HostAction where
  | process (a : Action) (unlinked : Bool)
  | openFile (tid : Tid) (o : OpenOutcome)
  | deliver (tid : Tid) (count : Nat)

namespace Host

/-- The bytes of its resource that a thread still has to deliver. -/
def missing (resource : CString → List UInt8) (h : Host) (t : Thread) : List UInt8 :=
  (resource (h.config.mem.entry t.entry).url).drop
    ((h.transfer t.tid).offset + (h.transfer t.tid).delivered)

/-- `download_cancel` calls `delete_file` when the record is out of the list. -/
def deleteFile (h : Host) (unlinked : Bool) (c : Config HeapList) : Host :=
  match h.config.pc with
  | .kill .cancel _ r =>
      if c.pc = .crashed then { h with config := c }
      else
        match h.config.mem.fileName (h.config.mem.record r).entry with
        | none => { h with config := h.config.crash }
        | some name => { h with config := c, disk := if unlinked then h.disk.unlink name else h.disk }
  | _ => { h with config := c }

def step (resource : CString → List UInt8) (max : Nat) (h : Host) : HostAction → Option Host
  | .process a unlinked =>
      match a with
      | .control o => (h.config.step max (.control o)).map (h.deleteFile unlinked)
      | .thread _ (.openFile _) => none
      | .thread tid (.perform true) =>
          -- `CURLE_OK` is returned when everything was delivered
          (h.config.mem.thread? tid).bind fun t =>
            if h.missing resource t = [] then
              (h.config.step max (.thread tid (.perform true))).map fun c => { h with config := c }
            else none
      | a => (h.config.step max a).map fun c => { h with config := c }
  | .openFile tid o =>
      (h.config.mem.thread? tid).bind fun t =>
        (h.config.step max (.thread tid (.openFile o.opens))).map fun c =>
          match h.config.mem.fileName t.entry with
          | none => { h with config := c }
          | some name =>
              let opened := Dserve.openFile h.disk name o
              { config := c
                disk := opened.1
                transfer :=
                  match opened.2 with
                  | none => h.transfer
                  | some transfer => Function.update h.transfer tid transfer }
  | .deliver tid count =>
      if h.config.Alive then
        (h.config.mem.thread? tid).bind fun t =>
          if t.pc = .transferring then
            let transfer := h.transfer tid
            let bytes := (h.missing resource t).take count
            some { h with
              disk := h.disk.append transfer.file bytes
              transfer := Function.update h.transfer tid
                { transfer with delivered := transfer.delivered + bytes.length } }
          else none
      else none

end Host

/-- The controller with its files, for given resources. -/
def host (resource : CString → List UInt8) (max : Nat) : Machine Host HostAction :=
  ⟨Host.step resource max⟩

/-- A controller that starts with an empty download directory. -/
def emptyHost (entries : List Entry) : Host := ⟨boot HeapList entries, .empty, fun _ => ⟨0, 0, 0⟩⟩

/-- No other thread has the file of an entry open. -/
def Host.Alone (h : Host) (tid : Tid) (p : EntryPtr) : Prop :=
  ∀ u ∈ h.config.mem.threads, u.tid ≠ tid → u.pc ≠ .opening →
    h.config.mem.fileName u.entry ≠ h.config.mem.fileName p

instance (h : Host) (tid : Tid) (p : EntryPtr) : Decidable (h.Alone tid p) := by
  unfold Host.Alone
  infer_instance

/-- The file of a transfer holds its resource, if no other transfer to the file is running. -/
def Whole (resource : CString → List UInt8) (h : Host) (tid : Tid) : Prop :=
  ∀ t, h.config.mem.thread? tid = some t → h.Alone tid t.entry →
    ∃ name, h.config.mem.fileName t.entry = some name ∧
      h.disk.read name = some (resource (h.config.mem.entry t.entry).url)

/-- The file is not opened while another thread has it open, what it has then is a beginning
of the resource, or it is emptied; and it is not deleted while another thread has it open. -/
def Undisturbed (resource : CString → List UInt8) (h : Host) : HostAction → Prop
  | .openFile tid o =>
      match h.config.mem.thread? tid, o with
      | some t, .resumed => h.Alone tid t.entry ∧
          ((h.config.mem.fileName t.entry).bind h.disk.read).getD [] <+:
            resource (h.config.mem.entry t.entry).url
      | some t, .truncated => h.Alone tid t.entry
      | _, _ => True
  | .process (.control _) _ =>
      match h.config.pc with
      | .kill .cancel _ r => h.Alone (h.config.mem.record r).thread (h.config.mem.record r).entry
      | _ => True
  | _ => True

instance (resource : CString → List UInt8) (h : Host) (a : HostAction) :
    Decidable (Undisturbed resource h a) := by
  unfold Undisturbed
  induction a using HostAction.casesOn with
  | openFile tid o =>
      dsimp only
      generalize h.config.mem.thread? tid = t
      induction t using Option.casesOn <;> induction o using OpenOutcome.casesOn <;> infer_instance
  | process a unlinked =>
      induction a using Action.casesOn with
      | control o =>
          dsimp only
          generalize h.config.pc = pc
          induction pc using Pc.casesOn with
          | kill k p r => induction k using Task.casesOn <;> infer_instance
          | _ => infer_instance
      | _ => infer_instance
  | deliver => infer_instance

/-- The file that a thread has open holds the part of the resource that was delivered. -/
def Filled (resource : CString → List UInt8) (h : Host) (t : Thread) : Prop :=
  ∃ name, h.config.mem.fileName t.entry = some name ∧
    h.disk.dir name = some (h.transfer t.tid).file ∧
    h.disk.content (h.transfer t.tid).file = (resource (h.config.mem.entry t.entry).url).take
      ((h.transfer t.tid).offset + (h.transfer t.tid).delivered) ∧
    (t.pc = .performed true → h.missing resource t = [])

/-- What holds between the steps. -/
structure Synced (resource : CString → List UInt8) (h : Host) : Prop where
  wf : h.config.mem.Wf
  sound : Sound h.config.view
  disk : h.disk.Wf
  filled : ∀ t ∈ h.config.mem.threads, t.pc ≠ .opening → Filled resource h t
  apart : ∀ t ∈ h.config.mem.threads, t.pc ≠ .opening → h.Alone t.tid t.entry

/-- The threads that have a file open after the step had it open before, for the same URL,
and those that succeeded have delivered everything. -/
def Continues (resource : CString → List UInt8) (h : Host) (c : Config HeapList) : Prop :=
  ∀ t' ∈ c.mem.threads, t'.pc ≠ .opening → ∃ t ∈ h.config.mem.threads, t.pc ≠ .opening ∧
    t'.tid = t.tid ∧ (c.mem.entry t'.entry).url = (h.config.mem.entry t.entry).url ∧
    (t'.pc = .performed true → t.pc = .performed true ∨ h.missing resource t = [])

section

variable {resource : CString → List UInt8} {max : Nat} {h h' : Host} {c : Config HeapList}

theorem empty_synced (entries : List Entry) : Synced resource (emptyHost entries) := by
  refine ⟨boot_wf entries, boot_sound entries, Disk.wf_empty, ?_, ?_⟩
  · intro t ht
    cases ht
  · intro t ht
    cases ht

/-! ### The process -/

/-- A step of the process, on files that its threads have open. -/
theorem Synced.process (inv : Synced resource h) (wf : c.mem.Wf) (sound : Sound c.view)
    (continues : Continues resource h c) {disk : Disk CString UInt8} (wfDisk : disk.Wf)
    (kept : ∀ t ∈ c.mem.threads, t.pc ≠ .opening → ∀ name file, c.mem.fileName t.entry = some name →
      h.disk.dir name = some file →
        disk.dir name = some file ∧ disk.content file = h.disk.content file) :
    Synced resource { h with config := c, disk := disk } := by
  refine ⟨wf, sound, wfDisk, ?_, ?_⟩
  · intro t' ht' opened'
    obtain ⟨t, ht, opened, tid, url, performed⟩ := continues t' ht' opened'
    obtain ⟨name, file, linked, bytes, complete⟩ := inv.filled t ht opened
    have named : c.mem.fileName t'.entry = some name := by
      unfold Mem.fileName at file ⊢
      rw [url]
      exact file
    obtain ⟨dir, content⟩ := kept t' ht' opened' _ _ named linked
    refine ⟨name, named, ?_, ?_, ?_⟩
    · rw [tid]
      exact dir
    · simp only [tid, url]
      exact content.trans bytes
    · intro ended
      have all : h.missing resource t = [] := (performed ended).elim complete id
      simpa only [Host.missing, tid, url] using all
  · intro t' ht' opened' u' hu' differs openedU'
    obtain ⟨t, ht, opened, tid, url, -⟩ := continues t' ht' opened'
    obtain ⟨u, hu, openedU, tidU, urlU, -⟩ := continues u' hu' openedU'
    have apart := inv.apart t ht opened u hu (by rw [← tid, ← tidU]; exact differs) openedU
    simp only [Mem.fileName, url, urlU]
    exact apart

/-- What a step of the controller leaves of the threads. -/
theorem move_threads {dangles : Prop} {v w : View} (sound : Sound v) (move : View.Move dangles max v w)
    {t : Thread} (ht : t ∈ w.mem.threads) (opened : t.pc ≠ .opening) :
    t ∈ v.mem.threads ∧ (w.mem.entry t.entry).url = (v.mem.entry t.entry).url := by
  cases move with
  | crash | goto | statusBegin | report | notStarted | unlink | write => exact ⟨ht, rfl⟩
  | push | added =>
      exact ⟨ht, congrArg Entry.url (View.push_entry (sound.mem.threadBelow t ht).2)⟩
  | started handle =>
      rcases List.mem_append.mp ht with ht | ht
      · exact ⟨ht, rfl⟩
      · rw [List.mem_singleton.mp ht] at opened
        exact absurd rfl opened
  | mark | assign | stop | reset => exact ⟨ht, Mem.url_setStatus⟩
  | kill => exact ⟨(List.mem_filter.mp ht).1, rfl⟩

/-- The steps of the controller itself. -/
theorem control_continues {o : Outcome} (inv : Synced resource h)
    (step : h.config.step max (.control o) = some c) :
    c.mem.Wf ∧ Sound c.view ∧ Continues resource h c := by
  obtain ⟨wf, move⟩ := control_move inv.wf step
  refine ⟨wf, move_sound inv.sound move, ?_⟩
  intro t ht opened
  obtain ⟨old, url⟩ := move_threads inv.sound move (t := t) ht opened
  exact ⟨t, old, opened, rfl, url, Or.inl⟩

/-- A step of a thread that has its file open. -/
theorem thread_continues {t : Thread} {a : ThreadAction} {m : Mem HeapList} (inv : Synced resource h)
    (found : h.config.mem.thread? t.tid = some t) (move : h.config.mem.ThreadMove t a m)
    (other : a ≠ .openFile true) (complete : a = .perform true → h.missing resource t = []) :
    Continues resource h { h.config with mem := m } := by
  have mem := (Mem.thread?_eq_some _ found).1
  have only : ∀ u ∈ h.config.mem.threads, u.tid = t.tid → u = t := by
    intro u hu same
    exact List.inj_on_of_nodup_map inv.sound.mem.tids hu mem same
  have moved : ∀ {pc : ThreadPc}, t.pc ≠ .opening → (pc = .performed true → a = .perform true) →
      ∀ t' ∈ (h.config.mem.setPc t.tid pc).threads, t'.pc ≠ .opening →
        ∃ u ∈ h.config.mem.threads, u.pc ≠ .opening ∧ t'.tid = u.tid ∧ t'.entry = u.entry ∧
          (t'.pc = .performed true → u.pc = .performed true ∨ h.missing resource u = []) := by
    intro pc opened ends t' ht' opened'
    obtain ⟨u, hu, tid, entry, pc'⟩ := Mem.mem_setPc ht'
    refine ⟨u, hu, ?_, tid, entry, ?_⟩
    · by_cases own : u.tid = t.tid
      · rw [only u hu own]
        exact opened
      · rwa [pc', if_neg own] at opened'
    · intro ended
      by_cases own : u.tid = t.tid
      · rw [pc', if_pos own] at ended
        rw [only u hu own]
        exact Or.inr (complete (ends ended))
      · rw [pc', if_neg own] at ended
        exact Or.inl ended
  have url := fun p => (move.idUrl p).2
  intro t' ht' opened'
  cases move with
  | opened => exact absurd rfl other
  | openFailed | completed =>
      exact ⟨t', (List.mem_filter.mp ht').1, opened', rfl, url t'.entry, Or.inl⟩
  | progress => exact ⟨t', ht', opened', rfl, url t'.entry, Or.inl⟩
  | started pc =>
      obtain ⟨u, hu, opened, tid, entry, ended⟩ := moved (by simp [pc]) (by simp) t' ht' opened'
      refine ⟨u, hu, opened, tid, ?_, ended⟩
      rw [← entry]
      exact url t'.entry
  | @performed ok pc =>
      obtain ⟨u, hu, opened, tid, entry, ended⟩ :=
        @moved (.performed ok) (by simp [pc]) (by simp) t' ht' opened'
      refine ⟨u, hu, opened, tid, ?_, ended⟩
      rw [← entry]
      exact url t'.entry

/-- A step that leaves the memory alone. -/
theorem continues_of_mem (same : c.mem = h.config.mem) : Continues resource h c := by
  intro t ht opened
  rw [same] at ht
  exact ⟨t, ht, opened, rfl, by rw [same], Or.inl⟩

theorem crash_sound (inv : Synced resource h) : Sound h.config.crash.view := by
  have move : View.Move (LawfulListApi.Dangles HeapList) 0 h.config.view h.config.crash.view := .crash
  exact move_sound inv.sound move

/-- A step of a thread, in the process. -/
theorem thread_step {tid : Tid} {a : ThreadAction} (inv : Synced resource h)
    (step : h.config.step max (.thread tid a) = some c) :
    c.mem.Wf ∧ Sound c.view ∧ ∃ t, h.config.mem.thread? tid = some t ∧ t.tid = tid ∧
      (c = h.config.crash ∨ ∃ m, c = { h.config with mem := m } ∧ h.config.mem.ThreadMove t a m) := by
  obtain ⟨wf, view⟩ := step_view inv.wf step
  refine ⟨wf, step_sound inv.sound view, ?_⟩
  simp only [Config.step] at step
  split at step
  · obtain ⟨t, found, step⟩ := Option.bind_eq_some_iff.mp step
    obtain ⟨m, moved, step⟩ := Option.map_eq_some_iff.mp step
    refine ⟨t, found, (Mem.thread?_eq_some _ found).2, ?_⟩
    cases m with
    | none => exact Or.inl step.symm
    | some m => exact Or.inr ⟨m, step.symm, Mem.threadStep_move moved⟩
  · cases step

/-- The steps of a thread that has its file open, and those that do not touch it. -/
theorem Synced.thread {tid : Tid} {a : ThreadAction} (inv : Synced resource h)
    (step : h.config.step max (.thread tid a) = some c) (other : a ≠ .openFile true)
    (complete : ∀ t, h.config.mem.thread? tid = some t → a = .perform true → h.missing resource t = [])
    {disk : Disk CString UInt8} (wfDisk : disk.Wf)
    (kept : ∀ name file, h.disk.dir name = some file →
      disk.dir name = some file ∧ disk.content file = h.disk.content file) :
    Synced resource { h with config := c, disk := disk } := by
  obtain ⟨wf, sound, t, found, rfl, moved⟩ := thread_step inv step
  have continues : Continues resource h c := by
    rcases moved with rfl | ⟨m, rfl, move⟩
    · exact continues_of_mem rfl
    · exact thread_continues inv found move other (complete t found)
  exact inv.process wf sound continues wfDisk fun _ _ _ _ _ _ linked => kept _ _ linked

/-! ### The files -/

/-- What was written, and the next bytes that are delivered. -/
theorem take_delivered (xs : List UInt8) (n count : Nat) :
    xs.take n ++ (xs.drop n).take count = xs.take (n + ((xs.drop n).take count).length) := by
  rw [List.take_add, List.length_take, ← List.take_eq_take_min]

/-- A thread opens its file. -/
theorem Synced.opened (inv : Synced resource h) {t : Thread} {tid : Tid} {name : CString}
    {o : OpenOutcome} (found : h.config.mem.thread? tid = some t)
    (file : h.config.mem.fileName t.entry = some name) (opens : o.opens = true)
    (undisturbed : Undisturbed resource h (.openFile tid o)) (wf : (h.config.mem.setPc tid .opened).Wf)
    (sound : Sound (Config.view { h.config with mem := h.config.mem.setPc tid .opened }))
    {transfer : Transfer} (result : (openFile h.disk name o).2 = some transfer) :
    Synced resource
      { config := { h.config with mem := h.config.mem.setPc tid .opened }
        disk := (openFile h.disk name o).1
        transfer := Function.update h.transfer tid transfer } := by
  obtain ⟨mem, rfl⟩ := Mem.thread?_eq_some _ found
  have alone : h.Alone t.tid t.entry := by
    cases o <;> simp_all [Undisturbed, OpenOutcome.opens]
  -- the file that was opened, and the others
  have created : transfer.file = (h.disk.create name).2 := by
    cases o <;> simp only [openFile, reduceCtorEq, Option.some.injEq] at result <;> rw [← result]
  have dir : (openFile h.disk name o).1.dir = (h.disk.create name).1.dir := by
    cases o <;> simp_all [openFile, OpenOutcome.opens, Disk.truncate]
  have wfDisk : (openFile h.disk name o).1.Wf := by
    cases o with
    | failed | lost => cases opens
    | resumed => exact Disk.wf_create inv.disk
    | truncated => exact Disk.wf_truncate (Disk.wf_create inv.disk) _
  have kept : ∀ other file, other ≠ name → h.disk.dir other = some file →
      (openFile h.disk name o).1.content file = h.disk.content file := by
    intro other file' differs linked
    have content : (h.disk.create name).1.content file' = h.disk.content file' :=
      Disk.create_content_other inv.disk linked
    cases o with
    | failed | lost => cases opens
    | resumed => exact content
    | truncated =>
        have apart : file' ≠ (h.disk.create name).2 := by
          rintro rfl
          exact differs ((Disk.wf_create inv.disk).inj _ _ _ (Disk.create_dir_kept linked) Disk.create_dir)
        exact (Disk.truncate_content_other apart).trans content
  have begun : (openFile h.disk name o).1.content transfer.file =
      (resource (h.config.mem.entry t.entry).url).take (transfer.offset + transfer.delivered) := by
    rw [created]
    cases o with
    | failed | lost => cases opens
    | resumed =>
        simp only [openFile, Option.some.injEq] at result
        have start := undisturbed
        simp only [Undisturbed, found, file, Option.bind_some] at start
        rw [← result]
        simp only [openFile, Disk.create_content]
        exact List.prefix_iff_eq_take.mp start.2
    | truncated =>
        simp only [openFile, Option.some.injEq] at result
        rw [← result]
        exact Disk.truncate_content
  have threads : ∀ t' ∈ (h.config.mem.setPc t.tid .opened).threads, t'.pc ≠ .opening →
      (t'.tid = t.tid ∧ t'.entry = t.entry ∧ t'.pc = .opened) ∨
        (t'.tid ≠ t.tid ∧ t' ∈ h.config.mem.threads) := by
    intro t' ht' opened'
    obtain ⟨u, hu, rfl⟩ := List.mem_map.mp ht'
    by_cases own : u.tid = t.tid
    · have same := List.inj_on_of_nodup_map inv.sound.mem.tids hu mem own
      left
      simp [same]
    · right
      simp only [if_neg own]
      exact ⟨own, hu⟩
  refine ⟨wf, sound, wfDisk, ?_, ?_⟩
  · intro t' ht' opened'
    rcases threads t' ht' opened' with ⟨tid, entry, pc⟩ | ⟨differs, old⟩
    · refine ⟨name, by rw [entry]; exact file, ?_, ?_, ?_⟩
      · simp only [tid, Function.update_self, dir, created]
        exact Disk.create_dir
      · simp only [tid, entry, Function.update_self]
        exact begun
      · intro ended
        rw [pc] at ended
        cases ended
    · obtain ⟨name', file', linked, bytes, complete⟩ := inv.filled t' old opened'
      have other : name' ≠ name := by
        rintro rfl
        exact alone t' old differs opened' (file'.trans file.symm)
      refine ⟨name', file', ?_, ?_, ?_⟩
      · simp only [Function.update_of_ne differs, dir]
        exact Disk.create_dir_kept linked
      · simp only [Function.update_of_ne differs]
        exact (kept name' _ other linked).trans bytes
      · intro ended
        simp only [Host.missing, Function.update_of_ne differs]
        exact complete ended
  · intro t' ht' opened' u' hu' differs openedU'
    rcases threads t' ht' opened' with ⟨tid, entry, -⟩ | ⟨other, old⟩
    · rcases threads u' hu' openedU' with ⟨tidU, -, -⟩ | ⟨otherU, oldU⟩
      · exact absurd (tidU.trans tid.symm) differs
      · rw [entry]
        exact alone u' oldU otherU openedU'
    · rcases threads u' hu' openedU' with ⟨-, entryU, -⟩ | ⟨otherU, oldU⟩
      · rw [entryU]
        exact (alone t' old other opened').symm
      · exact inv.apart t' old opened' u' oldU differs openedU'

/-- A thread writes the next bytes. -/
theorem Synced.deliver (inv : Synced resource h) {t : Thread} (mem : t ∈ h.config.mem.threads)
    (transferring : t.pc = .transferring) (count : Nat) :
    Synced resource { h with
      disk := h.disk.append (h.transfer t.tid).file ((h.missing resource t).take count)
      transfer := Function.update h.transfer t.tid
        { h.transfer t.tid with
          delivered := (h.transfer t.tid).delivered + ((h.missing resource t).take count).length } } := by
  have opened : t.pc ≠ .opening := by simp [transferring]
  obtain ⟨name, file, linked, bytes, -⟩ := inv.filled t mem opened
  refine ⟨inv.wf, inv.sound, Disk.wf_append inv.disk _ _, ?_, inv.apart⟩
  intro u hu openedU
  by_cases own : u.tid = t.tid
  · obtain rfl : u = t := List.inj_on_of_nodup_map inv.sound.mem.tids hu mem own
    refine ⟨name, file, ?_, ?_, ?_⟩
    · simp only [Function.update_self]
      exact linked
    · simp only [Function.update_self]
      rw [Disk.append_content, bytes, ← Nat.add_assoc]
      exact take_delivered _ _ _
    · intro ended
      rw [transferring] at ended
      cases ended
  · obtain ⟨name', file', linked', bytes', complete'⟩ := inv.filled u hu openedU
    have other : (h.transfer u.tid).file ≠ (h.transfer t.tid).file := by
      intro same
      rw [same] at linked'
      have names := inv.disk.inj _ _ _ linked' linked
      exact inv.apart t mem opened u hu own openedU (by rw [file', file, names])
    refine ⟨name', file', ?_, ?_, ?_⟩
    · simp only [Function.update_of_ne own]
      exact linked'
    · simp only [Function.update_of_ne own]
      exact (Disk.append_content_other other).trans bytes'
    · intro ended
      simp only [Host.missing, Function.update_of_ne own]
      exact complete' ended

/-- `download_cancel` ends the thread before it deletes the file. -/
theorem cancelled_threads {o : Outcome} {p : EntryPtr} {r : RecordPtr} (inv : Synced resource h)
    (pc : h.config.pc = .kill .cancel p r) (step : h.config.step max (.control o) = some c)
    (alive : c.pc ≠ .crashed) : ∀ t ∈ c.mem.threads, t.tid ≠ (h.config.mem.record r).thread := by
  have step : h.config.control max o = some c := step
  simp only [Config.control, pc] at step
  rcases orCrash_cases step with rfl | step
  · exact absurd rfl alive
  · obtain ⟨⟨ret, m⟩, finish, step⟩ := Option.bind_eq_some_iff.mp step
    obtain ⟨list, rfl, -⟩ := Mem.finishStop_spec inv.wf finish
    obtain ⟨same, -⟩ := afterSwitch_view step
    intro t ht
    rw [same] at ht
    simpa using (List.mem_filter.mp ht).2

/-- The steps of the controller, with the file that is deleted. -/
theorem Synced.control {o : Outcome} {unlinked : Bool} (inv : Synced resource h)
    (undisturbed : Undisturbed resource h (.process (.control o) unlinked))
    (step : h.config.step max (.control o) = some c) : Synced resource (h.deleteFile unlinked c) := by
  obtain ⟨wf, sound, continues⟩ := control_continues inv step
  have stays : Synced resource { h with config := c } :=
    inv.process wf sound continues inv.disk fun _ _ _ _ _ _ linked => ⟨linked, rfl⟩
  unfold Host.deleteFile
  split
  · next p r pc =>
    split
    · exact stays
    · next alive =>
      split
      · exact inv.process (c := h.config.crash) inv.wf (crash_sound inv) (continues_of_mem rfl) inv.disk
          fun _ _ _ _ _ _ linked => ⟨linked, rfl⟩
      · next name file =>
        cases unlinked with
        | false => exact stays
        | true =>
            simp only [Undisturbed, pc] at undisturbed
            apply inv.process wf sound continues (Disk.wf_unlink inv.disk)
            intro t ht opened name' file' named linked
            refine ⟨(Disk.unlink_dir_other ?_).trans linked, rfl⟩
            rintro rfl
            obtain ⟨u, hu, openedU, tid, url, -⟩ := continues t ht opened
            have ended := cancelled_threads inv pc step alive t ht
            apply undisturbed u hu (by rw [← tid]; exact ended) openedU
            unfold Mem.fileName at named ⊢
            rw [← url, named]
            exact file.symm
  · exact stays

/-- A request or a signal. -/
theorem Synced.quiet {a : Action} (inv : Synced resource h) (step : h.config.step max a = some c)
    (same : c.mem = h.config.mem) : Synced resource { h with config := c } := by
  obtain ⟨wf, view⟩ := step_view inv.wf step
  exact inv.process wf (step_sound inv.sound view) (continues_of_mem same) inv.disk
    fun _ _ _ _ _ _ linked => ⟨linked, rfl⟩

theorem request_mem {r response : Transaction} {d : Config HeapList}
    (step : d.step max (.request r response) = some c) : c.mem = d.mem := by
  simp only [Config.step] at step
  split at step
  · cases step
    rfl
  · cases step

theorem signal_mem {fopen : Bool} {d : Config HeapList} (step : d.step max (.signal fopen) = some c) :
    c.mem = d.mem := by
  simp only [Config.step] at step
  split at step
  · cases step
    unfold Config.terminate
    split
    · rfl
    · split
      · cases d.mem.queueItems <;> rfl
      · rfl
  · cases step

/-- `open_file`, in the process. -/
theorem openFile_cases {d : Config HeapList} {tid : Tid} {ok : Bool} {t : Thread}
    (found : d.mem.thread? tid = some t) (step : d.step max (.thread tid (.openFile ok)) = some c) :
    (d.mem.fileName t.entry = none ∧ c = d.crash) ∨
    (∃ name, d.mem.fileName t.entry = some name ∧
      c = { d with mem := if ok then d.mem.setPc tid .opened else d.mem.endThread tid }) := by
  obtain ⟨-, own⟩ := Mem.thread?_eq_some _ found
  simp only [Config.step, found, Option.bind_some, Mem.threadStep, own] at step
  unfold Mem.fileName
  split at step
  · split at step
    · cases name : getNameFromUrl (d.mem.entry t.entry).url with
      | none =>
          simp only [name, Option.map_some] at step
          exact Or.inl ⟨rfl, (Option.some.inj step).symm⟩
      | some name' =>
          simp only [name, Option.map_some] at step
          exact Or.inr ⟨name', rfl, (Option.some.inj step).symm⟩
    · cases step
  · cases step

/-- Each step that meets the condition keeps the files as they must be. -/
theorem step_synced {a : HostAction} (inv : Synced resource h) (undisturbed : Undisturbed resource h a)
    (step : h.step resource max a = some h') : Synced resource h' := by
  cases a with
  | process a unlinked =>
      cases a with
      | control o =>
          obtain ⟨c, moved, rfl⟩ := Option.map_eq_some_iff.mp step
          exact inv.control undisturbed moved
      | request r response =>
          obtain ⟨c, moved, rfl⟩ := Option.map_eq_some_iff.mp step
          exact inv.quiet moved (request_mem moved)
      | signal fopen =>
          obtain ⟨c, moved, rfl⟩ := Option.map_eq_some_iff.mp step
          exact inv.quiet moved (signal_mem moved)
      | thread tid a =>
          have stays : ∀ c, h.config.step max (.thread tid a) = some c → a ≠ .openFile true →
              (∀ t, h.config.mem.thread? tid = some t → a = .perform true →
                h.missing resource t = []) → Synced resource { h with config := c } :=
            fun c moved other complete =>
              inv.thread moved other complete inv.disk fun _ _ linked => ⟨linked, rfl⟩
          cases a with
          | openFile ok => cases step
          | perform ok =>
              cases ok with
              | false =>
                  obtain ⟨c, moved, rfl⟩ := Option.map_eq_some_iff.mp step
                  exact stays c moved (by simp) (by simp)
              | true =>
                  obtain ⟨t, found, step⟩ := Option.bind_eq_some_iff.mp step
                  split at step
                  · next complete =>
                    obtain ⟨c, moved, rfl⟩ := Option.map_eq_some_iff.mp step
                    apply stays c moved (by simp)
                    intro t' found' _
                    rw [found] at found'
                    cases found'
                    exact complete
                  · cases step
          | started | progress | completed =>
              obtain ⟨c, moved, rfl⟩ := Option.map_eq_some_iff.mp step
              exact stays c moved (by simp) (by simp)
  | openFile tid o =>
      obtain ⟨t, found, step⟩ := Option.bind_eq_some_iff.mp step
      obtain ⟨c, moved, rfl⟩ := Option.map_eq_some_iff.mp step
      have stays : ∀ disk : Disk CString UInt8, o.opens = false → disk.Wf →
          (∀ name file, h.disk.dir name = some file →
            disk.dir name = some file ∧ disk.content file = h.disk.content file) →
          Synced resource { h with config := c, disk := disk } := by
        intro disk closed wfDisk kept
        exact inv.thread moved (by simp [closed]) (by simp) wfDisk kept
      obtain ⟨wf, view⟩ := step_view inv.wf moved
      have sound := step_sound inv.sound view
      rcases openFile_cases found moved with ⟨file, rfl⟩ | ⟨name, file, rfl⟩
      · simp only [file]
        exact inv.process wf sound (continues_of_mem rfl) inv.disk fun _ _ _ _ _ _ linked => ⟨linked, rfl⟩
      · simp only [file]
        cases o with
        | failed => exact stays h.disk rfl inv.disk fun _ _ linked => ⟨linked, rfl⟩
        | lost =>
            exact stays _ rfl (Disk.wf_create inv.disk) fun _ _ linked =>
              ⟨Disk.create_dir_kept linked, Disk.create_content_other inv.disk linked⟩
        | resumed => exact inv.opened found file rfl undisturbed wf sound rfl
        | truncated => exact inv.opened found file rfl undisturbed wf sound rfl
  | deliver tid count =>
      simp only [Host.step] at step
      split at step
      · obtain ⟨t, found, step⟩ := Option.bind_eq_some_iff.mp step
        obtain ⟨mem, rfl⟩ := Mem.thread?_eq_some _ found
        split at step
        · next transferring =>
          cases step
          exact inv.deliver mem transferring count
        · cases step
      · cases step

/-! ### Transfers that succeed -/

theorem performed_pc {d : Config HeapList} {tid : Tid} (step : d.step max (.thread tid (.perform true)) = some c) :
    ∀ t ∈ c.mem.threads, t.tid = tid → t.pc = .performed true := by
  simp only [Config.step] at step
  split at step
  · obtain ⟨t, found, step⟩ := Option.bind_eq_some_iff.mp step
    obtain ⟨m, moved, step⟩ := Option.map_eq_some_iff.mp step
    obtain ⟨-, own⟩ := Mem.thread?_eq_some _ found
    simp only [Mem.threadStep] at moved
    split at moved
    · cases moved
      cases step
      intro t' ht' same
      obtain ⟨u, hu, tid, -, pc⟩ := Mem.mem_setPc ht'
      rw [pc, if_pos (by rw [own, ← tid]; exact same)]
    · cases moved
  · cases step

/-- In a run whose steps meet the condition, a transfer for which `curl_easy_perform` returns
`CURLE_OK` leaves the resource in its file, if no other transfer to the file is running. -/
theorem file_complete {entries : List Entry} {tid : Tid} {unlinked : Bool}
    (run : (host resource max).Run (Undisturbed resource) (emptyHost entries) h)
    (step : h.step resource max (.process (.thread tid (.perform true)) unlinked) = some h') :
    Whole resource h' tid := by
  have inv : Synced resource h := run.invariant (empty_synced entries)
    fun _ _ _ inv undisturbed step => step_synced inv undisturbed step
  have undisturbed : Undisturbed resource h (.process (.thread tid (.perform true)) unlinked) := trivial
  have inv' : Synced resource h' := step_synced inv undisturbed step
  have ended : ∀ t ∈ h'.config.mem.threads, t.tid = tid → t.pc = .performed true := by
    obtain ⟨t, -, step⟩ := Option.bind_eq_some_iff.mp step
    split at step
    · obtain ⟨c, moved, rfl⟩ := Option.map_eq_some_iff.mp step
      exact performed_pc moved
    · cases step
  intro t found _
  obtain ⟨mem, own⟩ := Mem.thread?_eq_some _ found
  have pc := ended t mem own
  obtain ⟨name, file, linked, bytes, complete⟩ := inv'.filled t mem (by simp [pc])
  refine ⟨name, file, ?_⟩
  have all : (resource (h'.config.mem.entry t.entry).url).length ≤
      (h'.transfer t.tid).offset + (h'.transfer t.tid).delivered :=
    List.drop_eq_nil_iff.mp (complete pc)
  rw [Disk.read, linked, Option.map_some, bytes, List.take_of_length_le all]

/-- A download of two bytes that is paused after the first and resumed. -/
theorem file_complete_run : ∃ h h' : Host,
    (host (fun _ => [1, 2]) 2).Run (Undisturbed fun _ => [1, 2]) (emptyHost []) h ∧
      (h'.transfer 2).offset = 1 ∧ Whole (fun _ => [1, 2]) h' 2 := by
  obtain ⟨h, run, performs⟩ := Machine.exists_run_of_exec (host (fun _ => [1, 2]) 2)
    (Undisturbed fun _ => [1, 2]) (emptyHost [])
    ((startUp ++ ask (download ['z'] ['x', '/', 'z']) 7 ++ ask (download ['a'] ['x', '/', 'a']) 8).map
        (fun a => .process a true) ++
      [.openFile 1 .resumed, .process (.thread 1 .started) true, .deliver 1 1] ++
      (ask (order .pause ['a']) 4 ++ ask (order .restart ['a']) 8).map (fun a => .process a true) ++
      [.openFile 2 .resumed, .process (.thread 2 .started) true, .deliver 2 1])
    (fun h => (h.step (fun _ => [1, 2]) 2 (.process (.thread 2 (.perform true)) true)).map
      (fun h' => (h'.transfer 2).offset) = some 1)
    (by decide)
  obtain ⟨h', step, resumed⟩ := Option.map_eq_some_iff.mp performs
  exact ⟨h, h', run, resumed, file_complete run step⟩

/-- Two resources whose URLs end in the same name. -/
def namesakes (url : CString) : List UInt8 := if url = ['x', '/', 'a'] then [1] else [2]

/-- A download that ended and was cancelled has left its file, which is taken for the
beginning of another resource. -/
theorem left_over : ¬ ∀ (resource : CString → List UInt8) (max : Nat) (entries : List Entry)
    (h h' : Host) (tid : Tid) (unlinked : Bool),
    (host resource max).Reachable (emptyHost entries) h →
      h.step resource max (.process (.thread tid (.perform true)) unlinked) = some h' →
        Whole resource h' tid := by
  intro all
  obtain ⟨h, run, performs⟩ := Machine.exists_run_of_exec (host namesakes 2) (fun _ _ => True)
    (emptyHost [])
    ((startUp ++ ask (download ['z'] ['x', '/', 'z']) 7 ++ ask (download ['a'] ['x', '/', 'a']) 8).map
        (fun a => .process a true) ++
      [.openFile 1 .resumed, .process (.thread 1 .started) true, .deliver 1 1,
        .process (.thread 1 (.perform true)) true, .process (.thread 1 .completed) true] ++
      (ask (order .cancel ['a']) 4 ++ ask (download ['a'] ['y', '/', 'a']) 8).map
        (fun a => .process a true) ++
      [.openFile 2 .resumed, .process (.thread 2 .started) true])
    (fun h => (h.step namesakes 2 (.process (.thread 2 (.perform true)) true)).any (fun h' =>
      decide (h'.config.mem.thread? 2 = some ⟨2, 2, .performed true⟩ ∧ h'.Alone 2 2 ∧
        h'.disk.read ['a'] = some [1] ∧ (h'.config.mem.entry 2).url = ['y', '/', 'a'])) = true)
    (by decide)
  obtain ⟨h', step, facts⟩ := (Option.any_eq_true _ _).mp performs
  obtain ⟨found, alone, content, url⟩ := of_decide_eq_true facts
  obtain ⟨name, file, read⟩ := all namesakes 2 [] h h' 2 true run step _ found alone
  have named : name = ['a'] := by
    unfold Mem.fileName at file
    rw [url] at file
    exact (Option.some.inj file).symm
  rw [named, content, url] at read
  exact absurd read (by decide)

end

end Dserve
