import Dserve.Sound

/-!
The thread list and the queue.

`download_pause` and `download_cancel` look records up by id. What they rely on is that each
data pointer in the thread list is a record that was not freed, that no two records have the
same id, and that the record of an id is about the entry the queue has under it. This holds
in the runs in which a start appends a record for an id that has none, a cancelled download's
record reads as its own id, and an entry leaves the queue after its record
(`records_sound`). A `pthread_create` that fails leaves a null pointer in the list
(`null_listed`).
-/

namespace Dserve

/-- The ids of the records in the thread list. -/
def Mem.recordIds {L : Type → Type} [ListApi L] (m : Mem L) : List CString :=
  (m.records.filterMap id).map fun r => m.name (m.record r).entry

/-- What `download_pause` and `download_cancel` rely on. -/
structure RecordsSound (m : Mem List) : Prop where
  present : ∀ x ∈ m.records, ∃ r, x = some r ∧ m.freed r = false
  unique : m.recordIds.Nodup
  current : ∀ id r, m.findRecord id = some (some r) →
    m.findEntry id = some (some (m.record r).entry)

/-- `download_start` gives up before the list is touched, or it succeeds, for an entry that
its id names and that has no record. -/
def StartsClean (m : Mem List) (p : EntryPtr) (o : StartOutcome) : Prop :=
  (m.threadList = none ∧ o.listNew = false) ∨
  (o.record = true ∧ o.create ≠ none ∧ m.findEntry (m.name p) = some (some p) ∧
    m.findRecord (m.name p) = some none)

instance (m : Mem List) (p : EntryPtr) (o : StartOutcome) : Decidable (StartsClean m p o) := by
  unfold StartsClean
  infer_instance

/-- Each start is clean, the bytes of a record that is cancelled read as its id, and an entry
that is unlinked has no record left. -/
def KeepsRecords (c : Config List) : Action → Prop
  | .control o =>
      match c.pc with
      | .start p _ => StartsClean c.mem p o.start
      | .kill .cancel _ r => (c.mem.record r).handle = c.mem.name (c.mem.record r).entry
      | .unlink _ => c.mem.findRecord c.request.id.name = some none
      | _ => True
  | _ => True

instance (c : Config List) (a : Action) : Decidable (KeepsRecords c a) := by
  unfold KeepsRecords
  induction a using Action.casesOn with
  | control o =>
      generalize c.pc = pc
      induction pc using Pc.casesOn with
      | kill k p r => induction k using Task.casesOn <;> infer_instance
      | _ => infer_instance
  | _ => infer_instance

/-- The record's entry is the one the queue has under its id. -/
def Named (m : Mem List) (r : RecordPtr) : Prop :=
  m.queue.find? (fun p => decide (m.name p = m.name (m.record r).entry)) = some (m.record r).entry

/-- What holds between the steps. -/
structure Recorded (v : View) : Prop where
  present : ∀ x ∈ v.mem.records, ∃ r, x = some r ∧ v.mem.freed r = false
  unique : v.mem.recordIds.Nodup
  queued : ∀ r, some r ∈ v.mem.records → Named v.mem r
  killed : ∀ k p r, v.pc = .kill k p r → some r ∈ v.mem.records
  freedBelow : ∀ r, v.mem.freed r = true → r < v.mem.nextRecord

section

variable {max : Nat} {v w : View} {r : RecordPtr}

theorem list_wf (m : Mem List) : m.Wf := ⟨fun _ _ => trivial, fun _ _ => trivial⟩

theorem find?_congr {xs : List EntryPtr} {f g : EntryPtr → Bool} (same : ∀ p ∈ xs, f p = g p) :
    xs.find? f = xs.find? g := by
  induction xs with
  | nil => rfl
  | cons x xs ih =>
      rw [List.find?_cons, List.find?_cons, same x List.mem_cons_self,
        ih fun p hp => same p (List.mem_cons_of_mem _ hp)]

/-- Nothing but the place of the controller, the statuses and the threads has changed. -/
theorem Recorded.frame (inv : Recorded v) (records : w.mem.records = v.mem.records)
    (record : w.mem.record = v.mem.record) (freed : w.mem.freed = v.mem.freed)
    (next : w.mem.nextRecord = v.mem.nextRecord) (name : w.mem.name = v.mem.name)
    (queue : w.mem.queue = v.mem.queue)
    (killed : ∀ k p r, w.pc = .kill k p r → some r ∈ v.mem.records) : Recorded w := by
  refine ⟨?_, ?_, ?_, ?_, ?_⟩
  · rw [records, freed]
    exact inv.present
  · unfold Mem.recordIds
    rw [records, name, record]
    exact inv.unique
  · unfold Named
    rw [records, name, record, queue]
    exact inv.queued
  · rw [records]
    exact killed
  · rw [freed, next]
    exact inv.freedBelow

/-- The entry of a listed record is one that was allocated. -/
theorem Sound.listed_entry (sound : Sound v) (listed : some r ∈ v.mem.records) :
    (v.mem.record r).entry < v.mem.nextEntry :=
  (sound.mem.recordBelow r (sound.mem.listed r listed)).2

/-- An entry is appended to the queue. -/
theorem Recorded.push (sound : Sound v) (inv : Recorded v) {e : Entry} {pc : Pc}
    (killed : ∀ k p r, pc ≠ .kill k p r) : Recorded { v with mem := View.push v.mem e, pc := pc } := by
  have old : ∀ r, some r ∈ v.mem.records →
      (View.push v.mem e).name (v.mem.record r).entry = v.mem.name (v.mem.record r).entry :=
    fun r listed => View.push_name (sound.listed_entry listed)
  have ids : (View.push v.mem e).recordIds = v.mem.recordIds := by
    unfold Mem.recordIds
    apply List.map_congr_left
    intro r hr
    obtain ⟨x, hx, rfl⟩ := List.mem_filterMap.mp hr
    exact old r hx
  refine ⟨inv.present, ?_, ?_, ?_, inv.freedBelow⟩
  · show (View.push v.mem e).recordIds.Nodup
    rw [ids]
    exact inv.unique
  · intro r listed
    have found : v.mem.queue.find? _ = some _ := inv.queued r listed
    show (View.push v.mem e).queue.find? _ = _
    rw [View.push_queue, List.find?_append]
    have kept : v.mem.queue.find? (fun p => decide ((View.push v.mem e).name p =
        (View.push v.mem e).name ((View.push v.mem e).record r).entry)) = some (v.mem.record r).entry := by
      rw [← found]
      apply find?_congr
      intro p hp
      rw [View.push_name (sound.mem.queueBelow p hp)]
      exact congrArg (fun id => decide (v.mem.name p = id)) (old r listed)
    rw [kept]
    rfl
  · intro k p r h
    exact absurd h (killed k p r)

/-- What `download_start` does when it can create the thread. -/
theorem downloadStart_created {m m' : Mem List} {p : EntryPtr} {o : StartOutcome} {handle : CString}
    (record : o.record = true) (create : o.create = some handle)
    (h : m.downloadStart p o = some m') :
    m' = m ∨ m' = { m.createThread p handle with
      threadList := some (m.records ++ [some m.nextRecord]) } := by
  unfold Mem.downloadStart at h
  cases hl : (m.threadList <|> (if o.listNew then some ListApi.new else none)) with
  | none =>
      rw [hl] at h
      exact Or.inl (Option.some.inj h).symm
  | some list =>
      rw [hl] at h
      have before : list = m.records := by
        cases ht : m.threadList with
        | some l =>
            obtain rfl : l = list := by simpa [ht] using hl
            exact (Mem.records_eq ht).symm
        | none =>
            simp only [ht, HOrElse.hOrElse, OrElse.orElse, Option.orElse] at hl
            split at hl
            · cases hl
              simp [Mem.records, Mem.contents, ht]
              rfl
            · cases hl
      have appended : ListApi.append list o.node (some m.nextRecord) =
          if o.node then some (list ++ [some m.nextRecord]) else none := rfl
      simp only [Mem.newDownloadThread, record, create, if_true, appended] at h
      cases node : o.node with
      | false => simp [node] at h
      | true =>
          simp only [node, if_true, Option.map_some, Option.some.injEq] at h
          exact Or.inr (by rw [← h, before])

/-- The memory with a new thread and its record. -/
def withThread (m : Mem List) (p : EntryPtr) (handle : CString) : Mem List :=
  { m.createThread p handle with threadList := some (m.records ++ [some m.nextRecord]) }

theorem withThread_records (m : Mem List) (p : EntryPtr) (handle : CString) :
    (withThread m p handle).records = m.records ++ [some m.nextRecord] := Mem.records_eq rfl

/-- A record is appended for an id that has none. -/
theorem Recorded.created (sound : Sound v) (inv : Recorded v) {p : EntryPtr} {rest : List EntryPtr}
    (handle : CString) (named : v.mem.queue.find? (fun q => decide (v.mem.name q = v.mem.name p)) = some p)
    (fresh : ∀ r, some r ∈ v.mem.records → v.mem.name (v.mem.record r).entry ≠ v.mem.name p) :
    Recorded { v with mem := withThread v.mem p handle, pc := .mark p rest } := by
  have old : ∀ r, some r ∈ v.mem.records → (withThread v.mem p handle).record r = v.mem.record r :=
    fun r listed => Function.update_of_ne (Nat.ne_of_lt (sound.mem.listed r listed)) _ _
  have new : (withThread v.mem p handle).record v.mem.nextRecord = ⟨v.mem.nextThread, handle, p⟩ :=
    Function.update_self _ _ _
  have unfreed : v.mem.freed v.mem.nextRecord = false := by
    cases h : v.mem.freed v.mem.nextRecord with
    | false => rfl
    | true => exact absurd (inv.freedBelow _ h) (Nat.lt_irrefl _)
  have ids : (withThread v.mem p handle).recordIds = v.mem.recordIds ++ [v.mem.name p] := by
    unfold Mem.recordIds
    rw [withThread_records, List.filterMap_append, List.map_append]
    congr 1
    · apply List.map_congr_left
      intro r hr
      obtain ⟨x, hx, rfl⟩ := List.mem_filterMap.mp hr
      rw [old r hx]
      rfl
    · simp only [List.filterMap_cons, id, List.filterMap_nil, List.map_cons, List.map_nil, new]
      rfl
  refine ⟨?_, ?_, ?_, ?_, ?_⟩
  · intro x hx
    rw [withThread_records] at hx
    rcases List.mem_append.mp hx with hx | hx
    · exact inv.present x hx
    · exact ⟨v.mem.nextRecord, List.mem_singleton.mp hx, unfreed⟩
  · show (withThread v.mem p handle).recordIds.Nodup
    rw [ids, List.nodup_append]
    refine ⟨inv.unique, by simp, ?_⟩
    intro id hid id' hid' same
    obtain ⟨r, hr, rfl⟩ := List.mem_map.mp hid
    obtain ⟨x, hx, rfl⟩ := List.mem_filterMap.mp hr
    exact fresh r hx (same.trans (List.mem_singleton.mp hid'))
  · intro r listed
    rw [withThread_records] at listed
    rcases List.mem_append.mp listed with listed | listed
    · show Named (withThread v.mem p handle) r
      unfold Named
      rw [old r listed]
      exact inv.queued r listed
    · obtain rfl : r = v.mem.nextRecord := Option.some.inj (List.mem_singleton.mp listed)
      show Named (withThread v.mem p handle) v.mem.nextRecord
      unfold Named
      rw [new]
      exact named
  · intro k q r h
    cases h
  · intro r h
    exact Nat.lt_succ_of_lt (inv.freedBelow r h)

theorem find?_eraseP {xs : List EntryPtr} {f g : EntryPtr → Bool}
    (apart : ∀ p, g p = true → f p = false) : (xs.eraseP f).find? g = xs.find? g := by
  induction xs with
  | nil => rfl
  | cons x xs ih =>
      cases hf : f x with
      | true =>
          have hg : g x = false := by
            cases hg : g x with
            | false => rfl
            | true => rw [apart x hg] at hf; cases hf
          rw [List.eraseP_cons_of_pos hf, List.find?_cons_of_neg (by simp [hg])]
      | false =>
          rw [List.eraseP_cons_of_neg (by simp [hf]), List.find?_cons, List.find?_cons, ih]

/-- An entry that has no record is unlinked. -/
theorem Recorded.unlinked (inv : Recorded v) {pc : Pc} {id : CString}
    (fresh : ∀ r, some r ∈ v.mem.records → v.mem.name (v.mem.record r).entry ≠ id)
    (killed : ∀ k p r, pc ≠ .kill k p r) :
    Recorded { v with
      mem := { v.mem with
        downloadQueue := some (v.mem.queue.eraseP fun q => decide (v.mem.name q = id)) }
      pc := pc } := by
  refine ⟨inv.present, inv.unique, ?_, fun k p r h => absurd h (killed k p r), inv.freedBelow⟩
  intro r listed
  have found : v.mem.queue.find? _ = some _ := inv.queued r listed
  have queue : Mem.queue { v.mem with
      downloadQueue := some (v.mem.queue.eraseP fun q => decide (v.mem.name q = id)) } =
        v.mem.queue.eraseP fun q => decide (v.mem.name q = id) := Mem.queue_eq rfl
  unfold Named
  rw [queue, ← found]
  apply find?_eraseP
  intro q same
  simp only [decide_eq_true_eq] at same
  have other : ¬ v.mem.name q = id := fun h => fresh r listed (same.symm.trans h)
  simpa using other

/-- The record of an id is the one that `list_remove_item` takes out. -/
theorem Recorded.removal (inv : Recorded v) (listed : some r ∈ v.mem.records) :
    ∃ before after, v.mem.records = before ++ some r :: after ∧
      Sequence.removeItem (v.mem.downloadThreadCompareId (v.mem.name (v.mem.record r).entry))
        v.mem.records = some (true, before ++ after) ∧ some r ∉ before ++ after := by
  obtain ⟨before, after, parts⟩ := List.append_of_mem listed
  have compare : ∀ s, some s ∈ v.mem.records →
      v.mem.downloadThreadCompareId (v.mem.name (v.mem.record r).entry) (some s) =
        some (decide (v.mem.name (v.mem.record s).entry = v.mem.name (v.mem.record r).entry)) := by
    intro s hs
    obtain ⟨s', eq, live⟩ := inv.present _ hs
    cases eq
    simp [Mem.downloadThreadCompareId, live]
  have unique := inv.unique
  unfold Mem.recordIds at unique
  have head : (some r :: after).filterMap id = r :: after.filterMap id := by simp
  rw [parts, List.filterMap_append, head, (List.perm_middle.map _).nodup_iff, List.map_cons,
    List.nodup_cons] at unique
  have others : ∀ s, some s ∈ before ++ after →
      v.mem.name (v.mem.record s).entry ≠ v.mem.name (v.mem.record r).entry := by
    intro s hs same
    refine unique.1 (List.mem_map.mpr ⟨s, ?_, same⟩)
    rw [← List.filterMap_append]
    exact List.mem_filterMap.mpr ⟨some s, hs, rfl⟩
  refine ⟨before, after, parts, ?_, fun hr => others r hr rfl⟩
  have live := compare r listed
  rw [decide_eq_true rfl] at live
  rw [parts] at compare ⊢
  refine Sequence.removeItem_append ?_ live
  intro x hx
  obtain ⟨s, rfl, -⟩ := inv.present x (parts ▸ List.mem_append_left _ hx)
  rw [compare s (List.mem_append_left _ hx)]
  exact congrArg some (decide_eq_false (others s (List.mem_append_left _ hx)))

/-- A record leaves the list and is freed. -/
theorem Recorded.finished (inv : Recorded v) (sound : Sound v) {before after : List (Option RecordPtr)}
    (tid : Tid) (pc : Pc) (listed : some r ∈ v.mem.records)
    (parts : v.mem.records = before ++ some r :: after) (away : some r ∉ before ++ after)
    (killed : ∀ k p r, pc ≠ .kill k p r) :
    Recorded { v with
      mem := { v.mem.endThread tid with
        threadList := some (before ++ after), freed := Function.update v.mem.freed r true }
      pc := pc } := by
  have sub : (before ++ after).Sublist v.mem.records := by
    rw [parts]
    exact (List.Sublist.refl before).append (List.sublist_cons_self _ _)
  have kept : ∀ s, some s ∈ before ++ after → Function.update v.mem.freed r true s = v.mem.freed s := by
    intro s hs
    refine Function.update_of_ne ?_ _ _
    rintro rfl
    exact away hs
  refine ⟨?_, ?_, ?_, fun k p r h => absurd h (killed k p r), ?_⟩
  · intro x hx
    rw [Mem.records_eq rfl] at hx
    obtain ⟨s, rfl, live⟩ := inv.present x (sub.subset hx)
    exact ⟨s, rfl, (kept s hx).trans live⟩
  · unfold Mem.recordIds
    rw [Mem.records_eq rfl]
    exact ((sub.filterMap id).map _).nodup inv.unique
  · intro s hs
    rw [Mem.records_eq rfl] at hs
    exact inv.queued s (sub.subset hs)
  · intro s hs
    by_cases own : s = r
    · rw [own]
      exact sound.mem.listed r listed
    · refine inv.freedBelow s ?_
      rw [← hs]
      exact (Function.update_of_ne own _ _).symm

/-- The steps of the controller that do not touch the thread list. -/
theorem move_recorded (sound : Sound v) (inv : Recorded v)
    (start : ∀ p rest, v.pc ≠ .start p rest) (kill : ∀ k p r, v.pc ≠ .kill k p r)
    (fresh : ∀ p, v.pc = .unlink p →
      ∀ r, some r ∈ v.mem.records → v.mem.name (v.mem.record r).entry ≠ v.request.id.name)
    (move : View.Move False max v w) : Recorded w := by
  have statuses : ∀ {p : EntryPtr} {s : EntryStatus} {pc : Pc} {reported : List EntryPtr},
      (∀ k p r, pc = .kill k p r → some r ∈ v.mem.records) →
        Recorded ⟨v.request, v.mem.setStatus p s, pc, reported⟩ := by
    intro p s pc reported killed
    exact inv.frame rfl rfl rfl rfl (funext fun _ => Mem.name_setStatus) rfl killed
  have same : ∀ {pc : Pc} {reported : List EntryPtr}, (∀ k p r, pc ≠ .kill k p r) →
      Recorded ⟨v.request, v.mem, pc, reported⟩ := by
    intro pc reported killed
    exact inv.frame rfl rfl rfl rfl rfl rfl fun k p r h => absurd h (killed k p r)
  cases move with
  | crash => exact same (by simp)
  | goto next =>
      cases next with
      | leave _ _ _ after => cases after <;> exact same (by simp)
      | missing _ _ after => cases after <;> exact same (by simp)
      | _ => exact same (by simp)
  | push => exact inv.push sound (by simp)
  | added => exact inv.push sound (by simp)
  | notStarted pc => exact absurd pc (start _ _)
  | started handle pc => exact absurd pc (start _ _)
  | mark => exact statuses (by simp)
  | statusBegin => exact same (by simp)
  | report => exact same (by simp)
  | assign pc after =>
      refine statuses ?_
      cases after <;> simp
  | stop pc found =>
      refine statuses ?_
      intro k p r h
      cases h
      exact (Mem.findRecord_some (list_wf _) found).1
  | kill pc => exact absurd pc (kill _ _ _)
  | unlink pc unlinked =>
      rcases unlinked with rfl | ⟨dangles, -⟩
      · exact inv.unlinked (fresh _ pc) (by simp)
      · exact dangles.elim
  | reset => exact statuses (by simp)
  | write => exact same (by simp)

variable {c c' : Config List} {o : Outcome}

/-- A clean start. -/
theorem start_recorded (sound : Sound c.view) (inv : Recorded c.view) {p : EntryPtr}
    {rest : List EntryPtr} (pc : c.pc = .start p rest) (clean : StartsClean c.mem p o.start)
    (h : c.control max o = some c') : Recorded c'.view := by
  simp only [Config.control, pc] at h
  rcases orCrash_cases h with rfl | h
  · exact inv.frame rfl rfl rfl rfl rfl rfl (by simp [Config.view, Config.crash])
  · obtain ⟨m, begun, rfl⟩ := Option.map_eq_some_iff.mp h
    have unchanged : m = c.mem → Recorded (Config.view { c with mem := m, pc := .mark p rest }) := by
      rintro rfl
      exact inv.frame rfl rfl rfl rfl rfl rfl (by simp [Config.view])
    rcases clean with ⟨none, listNew⟩ | ⟨record, create, named, fresh⟩
    · apply unchanged
      simp only [Mem.downloadStart, none, listNew] at begun
      exact (Option.some.inj begun).symm
    · obtain ⟨handle, create⟩ := Option.ne_none_iff_exists'.mp create
      rcases downloadStart_created record create begun with same | created
      · exact unchanged same
      · have records : m.records = c.mem.records ++ [some c.mem.nextRecord] := by
          rw [created]
          exact Mem.records_eq rfl
        have same : withThread c.mem.abs p handle = { c.mem.abs.createThread p handle with
            threadList := some (c.mem.records ++ [some c.mem.nextRecord]) } := by
          simp only [withThread, Mem.abs_records, Mem.abs_nextRecord]
        have abs : m.abs = withThread c.mem.abs p handle := by
          rw [same]
          simp only [Mem.abs, records]
          rw [created]
          rfl
        have view : Config.view { c with mem := m, pc := .mark p rest } =
            { c.view with mem := withThread c.view.mem p handle, pc := .mark p rest } := by
          simp only [Config.view, abs]
        rw [view]
        apply inv.created sound
        · rw [view_mem, Mem.abs_queue]
          exact (Mem.findEntry_eq (list_wf _) named).symm
        · intro r listed
          rw [view_mem, Mem.abs_records] at listed
          obtain ⟨s, eq, -, other⟩ := Mem.findRecord_none (list_wf _) fresh _ listed
          cases eq
          exact other

/-- What is left of a stop whose record is in the list. -/
theorem Mem.finishStop_removed {m m' : Mem List} {key : CString} {list rest : List (Option RecordPtr)}
    {ret : Bool} (threadList : m.threadList = some list)
    (removed : Sequence.removeItem (m.downloadThreadCompareId key) list = some (true, rest))
    (h : m.finishStop r key = some (ret, m')) :
    m' = { m.endThread (m.record r).thread with
      threadList := some rest, freed := Function.update m.freed r true } := by
  obtain ⟨⟨ret', m''⟩, taken, eq⟩ := Option.map_eq_some_iff.mp h
  have list' : (m.endThread (m.record r).thread).threadList = some list := threadList
  simp only [Mem.removeRecord, list'] at taken
  obtain ⟨⟨b, left⟩, taken, eq'⟩ := Option.map_eq_some_iff.mp taken
  have same : some (b, left) = some (true, rest) := taken.symm.trans removed
  cases same
  cases eq'
  cases eq
  rfl

theorem after_not_kill {queue : List EntryPtr} {p : EntryPtr} {k : Task} {pc : Pc}
    (after : View.After queue p k pc) (k' : Task) (p' : EntryPtr) (r' : RecordPtr) :
    pc ≠ .kill k' p' r' := by
  cases after <;> simp

/-- A stop takes the record out that it frees. -/
theorem kill_recorded (sound : Sound c.view) (inv : Recorded c.view) {k : Task} {p : EntryPtr}
    (pc : c.pc = .kill k p r)
    (own : k = .cancel → (c.mem.record r).handle = c.mem.name (c.mem.record r).entry)
    (h : c.control max o = some c') : Recorded c'.view := by
  simp only [Config.control, pc] at h
  rcases orCrash_cases h with rfl | h
  · exact inv.frame rfl rfl rfl rfl rfl rfl (by simp [Config.view, Config.crash])
  · obtain ⟨⟨ret, m⟩, finish, h⟩ := Option.bind_eq_some_iff.mp h
    have key : c.removeKey k r = c.mem.name (c.mem.record r).entry := by
      cases k with
      | cancel => exact own rfl
      | _ => rfl
    have listed : some r ∈ c.view.mem.records := inv.killed k p r pc
    have records : c.mem.records = c.view.mem.records := (Mem.abs_records c.mem).symm
    obtain ⟨before, after, parts, removal, away⟩ := inv.removal listed
    have finished : m = { c.mem.endThread (c.mem.record r).thread with
        threadList := some (before ++ after), freed := Function.update c.mem.freed r true } := by
      rw [key] at finish
      cases list : c.mem.threadList with
      | none =>
          have empty : c.mem.records = [] := by simp [Mem.records, Mem.contents, list]
          rw [← records, empty] at listed
          cases listed
      | some list' =>
          have removed : Sequence.removeItem
              (c.mem.downloadThreadCompareId (c.mem.name (c.mem.record r).entry)) list' =
                some (true, before ++ after) := by
            rw [← records, Mem.records_eq list] at removal
            exact removal
          exact Mem.finishStop_removed list removed finish
    obtain ⟨mem', pc', switch, view⟩ := afterSwitch_view h
    have done := inv.finished sound (c.mem.record r).thread pc' listed parts away
      (after_not_kill switch)
    have abs : m.abs = { c.mem.abs.endThread (c.mem.record r).thread with
        threadList := some (before ++ after), freed := Function.update c.mem.freed r true } := by
      rw [finished]
      simp only [Mem.abs, Mem.records_eq (m := { c.mem.endThread (c.mem.record r).thread with
        threadList := some (before ++ after), freed := Function.update c.mem.freed r true }) rfl]
      rfl
    rw [view]
    simp only [Config.view, abs] at done ⊢
    exact done

/-- Each step that meets the condition keeps the records as they must be. -/
theorem step_recorded {a : Action} (sound : Sound c.view) (inv : Recorded c.view)
    (keeps : KeepsRecords c a) (h : c.step max a = some c')
    (step : View.Step (LawfulListApi.Dangles List) max c.view a c'.view) : Recorded c'.view := by
  cases a with
  | control o =>
      have move : View.Move (LawfulListApi.Dangles List) max c.view c'.view := by
        cases step with
        | control move => exact move
      have h : c.control max o = some c' := h
      cases pc : c.pc with
      | start p rest =>
          simp only [KeepsRecords, pc] at keeps
          exact start_recorded sound inv pc keeps h
      | kill k p r =>
          apply kill_recorded sound inv pc _ h
          rintro rfl
          simpa only [KeepsRecords, pc] using keeps
      | unlink p =>
          simp only [KeepsRecords, pc] at keeps
          apply move_recorded sound inv (by simp [pc]) (by simp [pc]) _ move
          intro _ _ r listed
          rw [view_mem, Mem.abs_records] at listed
          obtain ⟨s, eq, -, other⟩ := Mem.findRecord_none (list_wf _) keeps _ listed
          cases eq
          exact other
      | _ => exact move_recorded sound inv (by simp [pc]) (by simp [pc]) (by simp [pc]) move
  | thread tid a =>
      generalize c'.view = w at step
      cases step with
      | thread _ _ found moved =>
          have move := Mem.threadStep_move moved
          obtain ⟨-, threadList, record, freed, next, -⟩ := move.frame
          refine inv.frame ?_ record freed next (funext move.name) move.queue inv.killed
          simp only [Mem.records, threadList]
      | threadCrash => exact inv.frame rfl rfl rfl rfl rfl rfl (by simp)
  | request r response =>
      generalize c'.view = w at step
      cases step with
      | request idle =>
          refine inv.frame rfl rfl rfl rfl rfl rfl ?_
          intro k p s kill
          have dispatch : r.command.dispatch = .kill k p s := kill
          cases command : r.command <;> rw [command] at dispatch <;> cases dispatch
  | signal fopen =>
      generalize c'.view = w at step
      cases step with
      | save => exact inv.frame rfl rfl rfl rfl rfl rfl (by simp)
      | terminate _ _ ended =>
          refine inv.frame rfl rfl rfl rfl rfl rfl ?_
          rintro k p r rfl
          rcases ended with ended | ended <;> cases ended

/-- What the lookups rely on. -/
theorem Recorded.sound {m : Mem List} {v : View} (inv : Recorded v) (abs : v.mem = m.abs) :
    RecordsSound m := by
  have records : v.mem.records = m.records := by rw [abs, Mem.abs_records]
  refine ⟨?_, ?_, ?_⟩
  · intro x hx
    rw [← records] at hx
    obtain ⟨r, eq, live⟩ := inv.present x hx
    rw [abs] at live
    exact ⟨r, eq, live⟩
  · have unique := inv.unique
    rw [abs] at unique
    unfold Mem.recordIds at unique ⊢
    rwa [Mem.abs_records] at unique
  · intro id r found
    obtain ⟨listed, -, name⟩ := Mem.findRecord_some (list_wf _) found
    have named := inv.queued r (records ▸ listed)
    rw [abs] at named
    unfold Named at named
    rw [Mem.abs_queue] at named
    have looked : m.findEntry id = some (m.queue.find? fun p => decide (m.name p = id)) := by
      unfold Mem.findEntry Mem.getItem Mem.queue Mem.contents
      cases m.downloadQueue with
      | none => rfl
      | some list =>
          exact (Sequence.getItem_total _ _).trans (by simp [ListApi.toList])
    rw [looked, ← name]
    exact congrArg some named

/-- In a run whose steps meet the condition, what is in the thread list can be looked up:
each data pointer is a record that was not freed, no two are about one id, and a record that
is found is about the entry which the queue has under the id. -/
theorem records_sound {entries : List Entry}
    (run : (controller List max).Run KeepsRecords (boot List entries) c) : RecordsSound c.mem := by
  have start : Sound (boot List entries).view ∧ Recorded (boot List entries).view := by
    refine ⟨boot_sound entries, ⟨?_, ?_, ?_, ?_, ?_⟩⟩ <;>
      simp [Config.view, boot, Mem.abs, Mem.records, Mem.contents, ListApi.toList, Mem.recordIds]
  obtain ⟨-, -, recorded⟩ := run_invariant (I := fun v => Sound v ∧ Recorded v) (boot_wf entries) start
    (fun c a c' inv keeps h step =>
      ⟨step_sound inv.1 step, step_recorded inv.1 inv.2 keeps h step⟩) run
  exact recorded.sound rfl

/-- Two downloads, one of which is paused and started again. -/
theorem records_sound_run : ∃ c : Config List,
    (controller List 2).Run KeepsRecords (boot List []) c ∧
      (c.mem.records = [some 1, some 2] ∧ c.mem.recordIds = [['b'], ['a']]) ∧ RecordsSound c.mem := by
  obtain ⟨c, run, records⟩ := Machine.exists_run_of_exec
    (controller List 2) KeepsRecords (boot List [])
    (startUp ++ ask (download ['a'] ['x', '/', 'a']) 7 ++ ask (download ['b'] ['x', '/', 'b']) 8 ++
      [.thread 0 (.openFile true), .thread 0 .started] ++ ask (order .pause ['a']) 4 ++
      ask (order .restart ['a']) 8)
    (fun c => c.mem.records = [some 1, some 2] ∧ c.mem.recordIds = [['b'], ['a']]) (by decide)
  exact ⟨c, run, records, records_sound run⟩

/-- `pthread_create` fails: a null pointer is in the list. -/
theorem null_listed : ¬ ∀ (max : Nat) (entries : List Entry) (c : Config List),
    (controller List max).Reachable (boot List entries) c → RecordsSound c.mem := by
  intro all
  obtain ⟨c, run, records⟩ := Machine.exists_run_of_exec
    (controller List 1) (fun _ _ => True) (boot List [])
    (startUp ++ ask (download ['a'] ['x', '/', 'a']) 3 ++
      [.control { start := { create := none } }])
    (fun c => c.mem.records = [none]) (by decide)
  obtain ⟨r, eq, -⟩ := (all 1 [] c run).present none (by simp [records])
  cases eq

end

end Dserve
