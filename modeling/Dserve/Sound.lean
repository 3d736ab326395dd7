import Dserve.View

/-!
What holds in every run of the controller: the numbers it hands out are fresh, a
record and the thread it was made for agree on the entry, the queue has no entry
twice, and a traversal only has entries of the queue ahead.
-/

namespace Dserve

/-- The entries a task is about: the one it is at, and those `queue_save` has ahead. -/
def Task.ahead (p : EntryPtr) : Task → List EntryPtr
  | .save rest => p :: rest
  | _ => [p]

def Task.subject (p : EntryPtr) : Task → Option EntryPtr
  | .save _ => none
  | _ => some p

/-- The entries the controller has still to deal with: those a traversal has ahead,
or the one a request is about. -/
def Pc.ahead : Pc → List EntryPtr
  | .visit rest => rest
  | .count p rest => p :: rest
  | .start p rest => p :: rest
  | .mark p rest => p :: rest
  | .report rest => rest
  | .assign k p => k.ahead p
  | .stop k p => k.ahead p
  | .kill k p _ => k.ahead p
  | .unlink p => [p]
  | .saving rest => rest
  | .reset p rest => p :: rest
  | .write p rest => p :: rest
  | _ => []

/-- The entry a request was found to name. -/
def Pc.subject : Pc → Option EntryPtr
  | .assign k p => k.subject p
  | .stop k p => k.subject p
  | .kill k p _ => k.subject p
  | .unlink p => some p
  | _ => none

/-- The memory is consistent. -/
structure MemSound (m : Mem List) : Prop where
  tids : (m.threads.map Thread.tid).Nodup
  threadBelow : ∀ t ∈ m.threads, t.tid < m.nextThread ∧ t.entry < m.nextEntry
  recordBelow : ∀ r < m.nextRecord, (m.record r).thread < m.nextThread ∧
    (m.record r).entry < m.nextEntry
  truthful : ∀ r < m.nextRecord, ∀ t ∈ m.threads, t.tid = (m.record r).thread →
    t.entry = (m.record r).entry
  listed : ∀ r, some r ∈ m.records → r < m.nextRecord
  queueBelow : ∀ p ∈ m.queue, p < m.nextEntry
  queueNodup : m.queue.Nodup

/-- The memory is consistent, and the controller works on what there is. -/
structure Sound (v : View) : Prop where
  mem : MemSound v.mem
  ahead : v.pc.ahead.Sublist v.mem.queue
  record : ∀ k p r, v.pc = .kill k p r → r < v.mem.nextRecord
  lookup : ∀ rest, v.pc ≠ .lookup (.save rest)
  named : ∀ p, v.pc.subject = some p → v.named = some p

/-! ### The memory -/

namespace MemSound

variable {m m' : Mem List}

theorem setEntry (h : MemSound m) (p : EntryPtr) (e : Entry) : MemSound (m.setEntry p e) :=
  ⟨h.tids, h.threadBelow, h.recordBelow, h.truthful, h.listed, h.queueBelow, h.queueNodup⟩

theorem setStatus (h : MemSound m) (p : EntryPtr) (s : EntryStatus) : MemSound (m.setStatus p s) :=
  h.setEntry p _

/-- The live threads may become fewer, and move on. -/
theorem setThreads (h : MemSound m) {threads : List Thread}
    (tids : (threads.map Thread.tid).Sublist (m.threads.map Thread.tid))
    (old : ∀ t ∈ threads, ∃ t' ∈ m.threads, t.tid = t'.tid ∧ t.entry = t'.entry) :
    MemSound { m with threads := threads } := by
  refine ⟨tids.nodup h.tids, ?_, h.recordBelow, ?_, h.listed, h.queueBelow, h.queueNodup⟩
  · intro t ht
    obtain ⟨t', ht', tid, entry⟩ := old t ht
    rw [tid, entry]
    exact h.threadBelow t' ht'
  · intro r hr t ht same
    obtain ⟨t', ht', tid, entry⟩ := old t ht
    rw [entry]
    exact h.truthful r hr t' ht' (tid ▸ same)

theorem endThread (h : MemSound m) (tid : Tid) : MemSound (m.endThread tid) := by
  refine h.setThreads (List.filter_sublist.map _) ?_
  intro t ht
  exact ⟨t, (List.mem_filter.mp ht).1, rfl, rfl⟩

theorem setPc (h : MemSound m) (tid : Tid) (pc : ThreadPc) : MemSound (m.setPc tid pc) := by
  refine h.setThreads ?_ ?_
  · rw [List.map_map]
    have same : (Thread.tid ∘ fun t : Thread => if t.tid = tid then { t with pc := pc } else t) =
        Thread.tid := by
      funext t
      simp only [Function.comp]
      split <;> rfl
    rw [same]
  · intro t ht
    obtain ⟨t', ht', tid', entry, -⟩ := Mem.mem_setPc ht
    exact ⟨t', ht', tid', entry⟩

/-- Records may leave the thread list, and be freed. -/
theorem setRecords (h : MemSound m) {records : List (Option RecordPtr)} (freed : RecordPtr → Bool)
    (sub : ∀ r, some r ∈ records → some r ∈ m.records) :
    MemSound { m with threadList := some records, freed := freed } := by
  refine ⟨h.tids, h.threadBelow, h.recordBelow, h.truthful, ?_, h.queueBelow, h.queueNodup⟩
  intro r hr
  rw [Mem.records_eq rfl] at hr
  exact h.listed r (sub r hr)

/-- Entries may leave the queue. -/
theorem setQueue (h : MemSound m) {queue : List EntryPtr} (sub : queue.Sublist m.queue) :
    MemSound { m with downloadQueue := some queue } := by
  refine ⟨h.tids, h.threadBelow, h.recordBelow, h.truthful, h.listed, ?_, ?_⟩
  · rw [Mem.queue_eq rfl]
    intro p hp
    exact h.queueBelow p (sub.subset hp)
  · rw [Mem.queue_eq rfl]
    exact sub.nodup h.queueNodup

theorem push (h : MemSound m) (e : Entry) : MemSound (View.push m e) := by
  refine ⟨h.tids, ?_, ?_, h.truthful, h.listed, ?_, ?_⟩
  · intro t ht
    have := h.threadBelow t ht
    exact ⟨this.1, Nat.lt_succ_of_lt this.2⟩
  · intro r hr
    have := h.recordBelow r hr
    exact ⟨this.1, Nat.lt_succ_of_lt this.2⟩
  · rw [View.push_queue]
    intro p hp
    rcases List.mem_append.mp hp with hp | hp
    · exact Nat.lt_succ_of_lt (h.queueBelow p hp)
    · rw [List.mem_singleton.mp hp]
      exact Nat.lt_succ_self _
  · rw [View.push_queue, List.nodup_append]
    refine ⟨h.queueNodup, by simp, ?_⟩
    intro p hp q hq
    rw [List.mem_singleton.mp hq]
    exact Nat.ne_of_lt (h.queueBelow p hp)

/-- A thread and its record are created together. -/
theorem createThread (h : MemSound m) {p : EntryPtr} (hp : p < m.nextEntry) (handle : CString) :
    MemSound { m.createThread p handle with
      threadList := some (m.records ++ [some m.nextRecord]) } := by
  have old : ∀ r < m.nextRecord,
      Function.update m.record m.nextRecord ⟨m.nextThread, handle, p⟩ r = m.record r :=
    fun r hr => Function.update_of_ne (Nat.ne_of_lt hr) _ _
  have cases : ∀ r < m.nextRecord + 1, r < m.nextRecord ∨ r = m.nextRecord := by
    intro r hr
    exact Nat.lt_or_eq_of_le (Nat.le_of_lt_succ hr)
  refine ⟨?_, ?_, ?_, ?_, ?_, h.queueBelow, h.queueNodup⟩
  · simp only [Mem.createThread, List.map_append, List.map_cons, List.map_nil, List.nodup_append]
    refine ⟨h.tids, by simp, ?_⟩
    intro tid htid tid' htid'
    obtain ⟨t, ht, rfl⟩ := List.mem_map.mp htid
    rw [List.mem_singleton.mp htid']
    exact Nat.ne_of_lt (h.threadBelow t ht).1
  · intro t ht
    rcases List.mem_append.mp ht with ht | ht
    · have := h.threadBelow t ht
      exact ⟨Nat.lt_succ_of_lt this.1, this.2⟩
    · rw [List.mem_singleton.mp ht]
      exact ⟨Nat.lt_succ_self _, hp⟩
  · intro r hr
    simp only [Mem.createThread]
    rcases cases r hr with hr | rfl
    · rw [old r hr]
      have := h.recordBelow r hr
      exact ⟨Nat.lt_succ_of_lt this.1, this.2⟩
    · rw [Function.update_self]
      exact ⟨Nat.lt_succ_self _, hp⟩
  · intro r hr t ht same
    simp only [Mem.createThread] at same ⊢
    rcases cases r hr with hr | rfl
    · rw [old r hr] at same ⊢
      rcases List.mem_append.mp ht with ht | ht
      · exact h.truthful r hr t ht same
      · rw [List.mem_singleton.mp ht] at same
        exact absurd same (Nat.ne_of_gt (h.recordBelow r hr).1)
    · rw [Function.update_self] at same ⊢
      rcases List.mem_append.mp ht with ht | ht
      · exact absurd same (Nat.ne_of_lt (h.threadBelow t ht).1)
      · rw [List.mem_singleton.mp ht]
  · intro r hr
    rw [Mem.records_eq rfl] at hr
    rcases List.mem_append.mp hr with hr | hr
    · exact Nat.lt_succ_of_lt (h.listed r hr)
    · rw [List.mem_singleton.mp hr |> Option.some.inj]
      exact Nat.lt_succ_self _

theorem threadMove (h : MemSound m) {t : Thread} {a : ThreadAction} (move : m.ThreadMove t a m') :
    MemSound m' := by
  cases move with
  | opened => exact h.setPc _ _
  | openFailed => exact h.endThread _
  | started => exact (h.setStatus _ _).setPc _ _
  | progress => exact h.setEntry _ _
  | performed => exact h.setPc _ _
  | completed => exact (h.setStatus _ _).endThread _

end MemSound

/-! ### Names -/

namespace Mem.ThreadMove

variable {L : Type → Type} {m m' : Mem L} {t : Thread} {a : ThreadAction}

/-- A thread leaves everything alone but the entry it works on and its own state. -/
theorem frame (move : m.ThreadMove t a m') :
    m'.downloadQueue = m.downloadQueue ∧ m'.threadList = m.threadList ∧ m'.record = m.record ∧
      m'.freed = m.freed ∧ m'.nextRecord = m.nextRecord ∧ m'.nextEntry = m.nextEntry := by
  cases move <;> exact ⟨rfl, rfl, rfl, rfl, rfl, rfl⟩

theorem queue [ListApi L] (move : m.ThreadMove t a m') : m'.queue = m.queue := by
  cases move <;> rfl

/-- Ids and URLs are not written after the entry was made. -/
theorem idUrl (move : m.ThreadMove t a m') (p : EntryPtr) :
    (m'.entry p).id = (m.entry p).id ∧ (m'.entry p).url = (m.entry p).url := by
  have update : ∀ e : Entry, e.id = (m.entry t.entry).id → e.url = (m.entry t.entry).url →
      ((m.setEntry t.entry e).entry p).id = (m.entry p).id ∧
        ((m.setEntry t.entry e).entry p).url = (m.entry p).url := by
    intro e id url
    by_cases h : p = t.entry
    · subst h
      simp [Mem.setEntry, id, url]
    · simp [Mem.setEntry, h]
  cases move with
  | opened => exact ⟨rfl, rfl⟩
  | openFailed => exact ⟨rfl, rfl⟩
  | started => exact update _ rfl rfl
  | progress => exact update _ rfl rfl
  | performed => exact ⟨rfl, rfl⟩
  | completed => exact update _ rfl rfl

theorem name (move : m.ThreadMove t a m') (p : EntryPtr) : m'.name p = m.name p :=
  congrArg TrxId.name (move.idUrl p).1

/-- A live thread was live before the step. -/
theorem old (move : m.ThreadMove t a m') {t' : Thread} (h : t' ∈ m'.threads) :
    ∃ t₀ ∈ m.threads, t'.tid = t₀.tid ∧ t'.entry = t₀.entry := by
  have moved : ∀ {pc : ThreadPc}, t' ∈ (m.setPc t.tid pc).threads →
      ∃ t₀ ∈ m.threads, t'.tid = t₀.tid ∧ t'.entry = t₀.entry := by
    intro pc h
    obtain ⟨t₀, ht₀, tid, entry, -⟩ := Mem.mem_setPc h
    exact ⟨t₀, ht₀, tid, entry⟩
  have kept : t' ∈ (m.endThread t.tid).threads → ∃ t₀ ∈ m.threads, t'.tid = t₀.tid ∧ t'.entry = t₀.entry :=
    fun h => ⟨t', (List.mem_filter.mp h).1, rfl, rfl⟩
  cases move with
  | opened | performed | started => exact moved h
  | openFailed | completed => exact kept h
  | progress => exact ⟨t', h, rfl, rfl⟩

theorem live (move : m.ThreadMove t a m') {p : EntryPtr} (h : m'.Live p) : m.Live p := by
  obtain ⟨t', ht', rfl⟩ := h
  obtain ⟨t₀, ht₀, -, entry⟩ := move.old ht'
  exact ⟨t₀, ht₀, entry.symm⟩

/-- A thread stays live, unless it is the one that moves and it ends. -/
theorem survive (move : m.ThreadMove t a m') {t₀ : Thread} (ht₀ : t₀ ∈ m.threads)
    (stays : (a ≠ .openFile false ∧ a ≠ .completed) ∨ t₀.tid ≠ t.tid) : m'.Live t₀.entry := by
  have moved : ∀ {pc : ThreadPc}, (m.setPc t.tid pc).Live t₀.entry := by
    intro pc
    refine ⟨_, List.mem_map_of_mem ht₀, ?_⟩
    split <;> rfl
  have kept : t₀.tid ≠ t.tid → (m.endThread t.tid).Live t₀.entry := fun other =>
    ⟨t₀, List.mem_filter.mpr ⟨ht₀, by simpa using other⟩, rfl⟩
  cases move with
  | opened | performed | started => exact moved
  | openFailed | completed => exact kept (stays.resolve_left (by simp))
  | progress => exact ⟨t₀, ht₀, rfl⟩

/-- The entries the threads work on, one for each thread. -/
theorem entries (move : m.ThreadMove t a m') :
    (m'.threads.map Thread.entry).Sublist (m.threads.map Thread.entry) := by
  have moved : ∀ {pc : ThreadPc}, (m.setPc t.tid pc).threads.map Thread.entry =
      m.threads.map Thread.entry := by
    intro pc
    rw [Mem.setPc, List.map_map]
    refine congrArg (List.map · m.threads) (funext fun t' => ?_)
    simp only [Function.comp]
    split <;> rfl
  cases move with
  | opened | performed => exact moved ▸ List.Sublist.refl _
  | started =>
      have same : ((m.setStatus t.entry .started).setPc t.tid .transferring).threads =
        (m.setPc t.tid .transferring).threads := rfl
      rw [same, moved]
  | openFailed | completed => exact List.filter_sublist.map _
  | progress => exact List.Sublist.refl _

/-- A thread writes `STARTED`, or it writes `COMPLETED` and ends, or it writes no
status. -/
theorem statusCases (move : m.ThreadMove t a m') :
    (a ≠ .completed ∧ ∀ q, m'.status q = m.status q) ∨
    (a = .started ∧ t.pc = .opened ∧
      ∀ q, m'.status q = if q = t.entry then .started else m.status q) ∨
    (a = .completed ∧ (∃ ok, t.pc = .performed ok) ∧
      (∀ q, m'.status q = if q = t.entry then .completed else m.status q) ∧
      ∀ t' ∈ m'.threads, t'.tid ≠ t.tid) := by
  cases move with
  | opened | openFailed | performed => exact Or.inl ⟨by simp, fun q => rfl⟩
  | progress =>
      refine Or.inl ⟨by simp, fun q => ?_⟩
      by_cases h : q = t.entry
      · subst h
        simp [Mem.status, Mem.setEntry]
      · simp [Mem.status, Mem.setEntry, h]
  | started pc =>
      exact Or.inr (Or.inl ⟨rfl, pc, fun q => Mem.status_setStatus⟩)
  | @completed ok pc =>
      refine Or.inr (Or.inr ⟨rfl, ⟨ok, pc⟩, fun q => Mem.status_setStatus, ?_⟩)
      intro t' ht'
      simpa using (List.mem_filter.mp ht').2

theorem findRecord [ListApi L] (move : m.ThreadMove t a m') (id : CString) :
    m'.findRecord id = m.findRecord id := by
  obtain ⟨-, threadList, record, freed, -, -⟩ := move.frame
  have compare : m'.downloadThreadCompareId id = m.downloadThreadCompareId id := by
    funext x
    cases x with
    | none => rfl
    | some r => simp only [Mem.downloadThreadCompareId, freed, record, move.name]
  simp only [Mem.findRecord, threadList, compare]

end Mem.ThreadMove

/-- The entry a request names depends on the ids in the queue only. -/
theorem named_congr {v w : View} (request : w.request = v.request) (queue : w.mem.queue = v.mem.queue)
    (name : ∀ p, w.mem.name p = v.mem.name p) : w.named = v.named := by
  simp only [View.named, request, queue, name]

/-- Unlinking by id takes out the entry the request names. -/
theorem eraseP_named {v : View} {p : EntryPtr} (named : v.named = some p) :
    ∃ before after, v.mem.queue = before ++ p :: after ∧
      (v.mem.queue.eraseP fun q => decide (v.mem.name q = v.request.id.name)) = before ++ after := by
  obtain ⟨hp, before, after, parts, hbefore⟩ := List.find?_eq_some_iff_append.mp named
  refine ⟨before, after, parts, ?_⟩
  have differ : ∀ x ∈ before, ¬ decide (v.mem.name x = v.request.id.name) = true := by
    intro x hx
    simpa using hbefore x hx
  rw [parts, List.eraseP_append_right _ differ]
  exact congrArg (before ++ ·) (List.eraseP_cons_of_pos hp)

/-- The other entries stay in the queue. -/
theorem mem_unlinked {v : View} {p q : EntryPtr} (named : v.named = some p) (hq : q ∈ v.mem.queue)
    (other : q ≠ p) :
    q ∈ v.mem.queue.eraseP fun q => decide (v.mem.name q = v.request.id.name) := by
  obtain ⟨before, after, parts, erased⟩ := eraseP_named named
  rw [erased]
  rw [parts] at hq
  simpa [other] using hq

/-! ### The controller -/

variable {dangles : Prop} {max : Nat} {v w : View}

theorem named_mem {p : EntryPtr} (h : v.named = some p) : [p].Sublist v.mem.queue :=
  List.singleton_sublist.mpr (List.mem_of_find?_eq_some h)

theorem after_ahead {queue : List EntryPtr} {p : EntryPtr} {k : Task} {pc : Pc}
    (after : View.After queue p k pc) (h : (k.ahead p).Sublist queue) : pc.ahead.Sublist queue := by
  cases after with
  | pause => exact List.nil_sublist _
  | cancel => exact h
  | restart => exact List.Sublist.refl _
  | save => exact h

/-- What the controller is about at a place: nothing that is found in a record, not
the lookup of a save, and the entry the request names. -/
structure Plain (named : Option EntryPtr) (pc : Pc) : Prop where
  notKill : ∀ k p r, pc ≠ .kill k p r
  notLookup : ∀ rest, pc ≠ .lookup (.save rest)
  named : ∀ p, pc.subject = some p → named = some p

theorem after_plain {queue : List EntryPtr} {p : EntryPtr} {k : Task} {pc : Pc}
    {named : Option EntryPtr} (after : View.After queue p k pc)
    (h : ∀ q, k.subject p = some q → named = some q) : Plain named pc := by
  cases after with
  | cancel => exact ⟨by simp, by simp, h⟩
  | _ => exact ⟨by simp, by simp, by simp [Pc.subject]⟩

theorem ahead_named {p : EntryPtr} {k : Task} (sound : Sound v) (pc : v.pc = .lookup k)
    (named : v.named = some p) : (k.ahead p).Sublist v.mem.queue := by
  cases k with
  | save rest => exact absurd pc (sound.lookup rest)
  | _ => exact named_mem named

theorem subject_named {p : EntryPtr} {k : Task} (named : v.named = some p) :
    ∀ q, k.subject p = some q → v.named = some q := by
  intro q h
  cases k <;> cases h <;> exact named

/-- Where the controller goes without writing. -/
theorem goto_sound {pc : Pc} (sound : Sound v) (next : View.Goto max v pc) :
    pc.ahead.Sublist v.mem.queue ∧ Plain v.named pc := by
  have same : ∀ {pc : Pc}, v.pc = pc → pc.ahead.Sublist v.mem.queue := by
    intro pc h
    exact h ▸ sound.ahead
  have tail : ∀ {p : EntryPtr} {rest : List EntryPtr}, v.pc.ahead = p :: rest →
      rest.Sublist v.mem.queue := by
    intro p rest h
    exact (List.sublist_cons_self p rest).trans (h ▸ sound.ahead)
  have plain : ∀ {pc : Pc}, (∀ k p r, pc ≠ .kill k p r) → (∀ k, pc ≠ .lookup k) →
      pc.subject = none → Plain v.named pc := by
    intro pc notKill notLookup subject
    exact ⟨notKill, fun rest => notLookup _, fun p h => by rw [subject] at h; cases h⟩
  cases next with
  | loaded => exact ⟨List.Sublist.refl _, plain (by simp) (by simp) rfl⟩
  | skip h => exact ⟨tail (congrArg Pc.ahead h), plain (by simp) (by simp) rfl⟩
  | waiting h =>
      exact ⟨by have ahead := same h; exact ahead, plain (by simp) (by simp) rfl⟩
  | full h => exact ⟨tail (congrArg Pc.ahead h), plain (by simp) (by simp) rfl⟩
  | free h =>
      exact ⟨by have ahead := same h; exact ahead, plain (by simp) (by simp) rfl⟩
  | stop h named =>
      exact ⟨ahead_named sound h named, by simp, by simp, subject_named named⟩
  | leave h named _ after =>
      exact ⟨after_ahead after (ahead_named sound h named), after_plain after (subject_named named)⟩
  | assign h named =>
      exact ⟨ahead_named sound h named, by simp, by simp, subject_named named⟩
  | missing h _ after =>
      refine ⟨after_ahead after (same h), after_plain after ?_⟩
      intro q subject
      exact sound.named q (by rw [h]; exact subject)
  | running h =>
      exact ⟨by have ahead := same h; exact ahead, by simp, by simp,
        by simp [Pc.subject, Task.subject]⟩
  | halted h =>
      exact ⟨by have ahead := same h; exact ahead, plain (by simp) (by simp) rfl⟩
  | _ => exact ⟨List.nil_sublist _, plain (by simp) (by simp) rfl⟩

theorem Sound.of_plain {m : Mem List} {pc : Pc} {reported : List EntryPtr} (mem : MemSound m)
    (ahead : pc.ahead.Sublist m.queue) (plain : Plain (View.named ⟨v.request, m, pc, reported⟩) pc) :
    Sound ⟨v.request, m, pc, reported⟩ :=
  ⟨mem, ahead, fun k p r h => absurd h (plain.notKill k p r), plain.notLookup, plain.named⟩

theorem move_sound (sound : Sound v) (move : View.Move dangles max v w) : Sound w := by
  have same : ∀ {pc : Pc}, v.pc = pc → pc.ahead.Sublist v.mem.queue := by
    intro pc h
    exact h ▸ sound.ahead
  have tail : ∀ {p : EntryPtr} {rest : List EntryPtr}, v.pc.ahead = p :: rest →
      rest.Sublist v.mem.queue := by
    intro p rest h
    exact (List.sublist_cons_self p rest).trans (h ▸ sound.ahead)
  have status : ∀ (p : EntryPtr) (s : EntryStatus) (pc : Pc),
      View.named { v with mem := v.mem.setStatus p s, pc := pc } = v.named := by
    intro p s pc
    exact named_congr rfl rfl fun q => Mem.name_setStatus
  have plain : ∀ {named : Option EntryPtr} {pc : Pc}, (∀ k p r, pc ≠ .kill k p r) →
      (∀ k, pc ≠ .lookup k) → pc.subject = none → Plain named pc := by
    intro named pc notKill notLookup subject
    exact ⟨notKill, fun rest => notLookup _, fun p h => by rw [subject] at h; cases h⟩
  cases move with
  | crash => exact .of_plain sound.mem (List.nil_sublist _) (plain (by simp) (by simp) rfl)
  | goto next =>
      obtain ⟨ahead, plain⟩ := goto_sound sound next
      exact .of_plain sound.mem ahead plain
  | push =>
      exact .of_plain (sound.mem.push _) (List.nil_sublist _) (plain (by simp) (by simp) rfl)
  | added =>
      refine .of_plain (sound.mem.push _) ?_ (plain (by simp) (by simp) rfl)
      rw [View.push_queue]
      exact List.Sublist.refl _
  | notStarted h records =>
      refine .of_plain (sound.mem.setRecords v.mem.freed ?_) (by have ahead := same h; exact ahead)
        (plain (by simp) (by simp) rfl)
      intro r hr
      rcases records with rfl | rfl
      · exact hr
      · simpa using hr
  | @started p rest handle h =>
      have hp : p < v.mem.nextEntry :=
        sound.mem.queueBelow p ((same h).subset List.mem_cons_self)
      exact .of_plain (sound.mem.createThread hp handle) (by have ahead := same h; exact ahead)
        (plain (by simp) (by simp) rfl)
  | mark h =>
      exact .of_plain (sound.mem.setStatus _ _) (tail (congrArg Pc.ahead h))
        (plain (by simp) (by simp) rfl)
  | statusBegin => exact .of_plain sound.mem (List.Sublist.refl _) (plain (by simp) (by simp) rfl)
  | report h =>
      exact .of_plain sound.mem (tail (congrArg Pc.ahead h)) (plain (by simp) (by simp) rfl)
  | assign h after =>
      refine .of_plain (sound.mem.setStatus _ _) (after_ahead after (same h)) ?_
      rw [status]
      exact after_plain after fun q subject => sound.named q (by rw [h]; exact subject)
  | @stop k p r h found =>
      have wf : v.mem.Wf := ⟨fun _ _ => trivial, fun _ _ => trivial⟩
      refine ⟨sound.mem.setStatus _ _, by have ahead := same h; exact ahead, ?_, by simp, ?_⟩
      · intro k' p' r' h'
        cases h'
        exact sound.mem.listed _ (Mem.findRecord_some wf found).1
      · intro q subject
        rw [status]
        exact sound.named q (by rw [h]; exact subject)
  | kill h sub after =>
      exact .of_plain ((sound.mem.endThread _).setRecords _ fun r hr => sub.subset hr)
        (after_ahead after (same h))
        (after_plain after fun q subject => sound.named q (by rw [h]; exact subject))
  | unlink h queue =>
      refine .of_plain (sound.mem.setQueue ?_) (List.nil_sublist _) (plain (by simp) (by simp) rfl)
      rcases queue with rfl | ⟨-, rfl, -⟩
      · exact List.eraseP_sublist
      · exact List.nil_sublist _
  | reset h =>
      exact .of_plain (sound.mem.setStatus _ _) (by have ahead := same h; exact ahead)
        (plain (by simp) (by simp) rfl)
  | write h =>
      exact .of_plain sound.mem (tail (congrArg Pc.ahead h)) (plain (by simp) (by simp) rfl)

theorem dispatch_plain (named : Option EntryPtr) (command : Command) :
    command.dispatch.ahead = [] ∧ Plain named command.dispatch := by
  cases command <;>
    exact ⟨rfl, by simp [Command.dispatch], by simp [Command.dispatch],
      by simp [Command.dispatch, Pc.subject]⟩

theorem step_sound {a : Action} (sound : Sound v) (step : View.Step dangles max v a w) : Sound w := by
  cases step with
  | control move => exact move_sound sound move
  | thread _ _ _ stepped =>
      have move := Mem.threadStep_move stepped
      obtain ⟨-, -, -, -, nextRecord, -⟩ := move.frame
      refine ⟨sound.mem.threadMove move, move.queue ▸ sound.ahead, nextRecord ▸ sound.record,
        sound.lookup, ?_⟩
      intro p subject
      rw [← sound.named p subject]
      exact named_congr rfl move.queue move.name
  | threadCrash =>
      exact ⟨sound.mem, List.nil_sublist _, by simp, by simp, by simp [Pc.subject]⟩
  | @request r _ _ =>
      obtain ⟨ahead, plain⟩ := dispatch_plain (View.named ⟨r, v.mem, r.command.dispatch, v.reported⟩)
        r.command
      exact ⟨sound.mem, ahead ▸ List.nil_sublist _, fun k p r h => absurd h (plain.notKill k p r),
        plain.notLookup, plain.named⟩
  | save => exact ⟨sound.mem, List.Sublist.refl _, by simp, by simp, by simp [Pc.subject]⟩
  | terminate _ _ ended =>
      rcases ended with rfl | rfl <;>
        exact ⟨sound.mem, List.nil_sublist _, by simp, by simp, by simp [Pc.subject]⟩

/-- The entry that is unlinked is out of the queue. -/
theorem unlinked_gone {p : EntryPtr} {queue : List EntryPtr} (sound : Sound v) (h : v.pc = .unlink p)
    (unlinked : queue = (v.mem.queue.eraseP fun q => decide (v.mem.name q = v.request.id.name)) ∨
      dangles ∧ queue = [] ∧ (∃ q ∈ v.mem.queue.head?, v.mem.name q = v.request.id.name)) :
    queue.Sublist v.mem.queue ∧ p ∉ queue := by
  have named : v.named = some p := sound.named p (by rw [h]; rfl)
  rcases unlinked with rfl | ⟨-, rfl, -⟩
  · obtain ⟨before, after, parts, erased⟩ := eraseP_named named
    refine ⟨List.eraseP_sublist, ?_⟩
    have nodup := sound.mem.queueNodup
    rw [parts, List.nodup_append] at nodup
    rw [erased]
    intro hp
    rcases List.mem_append.mp hp with hp | hp
    · exact nodup.2.2 p hp p List.mem_cons_self rfl
    · exact (List.nodup_cons.mp nodup.2.1).1 hp
  · exact ⟨List.nil_sublist _, List.not_mem_nil⟩

/-- The controller is on its way out: it saves the queue, or it has ended. -/
def Pc.Ending : Pc → Prop
  | .assign (.save _) _ => True
  | .stop (.save _) _ => True
  | .kill (.save _) _ _ => True
  | .saving _ => True
  | .reset _ _ => True
  | .write _ _ => True
  | .exited => True
  | .crashed => True
  | _ => False

theorem after_ending {queue : List EntryPtr} {p : EntryPtr} {k : Task} {pc : Pc}
    (after : View.After queue p k pc) (h : (Pc.stop k p).Ending) : pc.Ending := by
  cases after with
  | save => exact trivial
  | _ => exact h.elim

/-- There is no way back from a save. -/
theorem step_ending {a : Action} (step : View.Step dangles max v a w) (ending : v.pc.Ending) :
    w.pc.Ending := by
  cases step with
  | control move =>
      cases move with
      | goto next =>
          cases next with
          | saved | running | halted => exact trivial
          | noLoad h => rcases h with h | h <;> rw [h] at ending <;> exact ending.elim
          | missing h _ after =>
              rw [h] at ending
              exact after_ending after ending
          | load h | loaded h | refused h | ready h | visited h | skip h | waiting h | full h
          | free h | noQueue h | reported h | notFound h | stop h | leave h | assign h | respond h =>
              rw [h] at ending
              exact ending.elim
      | crash | reset | write => exact trivial
      | @assign k p pc h after =>
          rw [h] at ending
          exact after_ending after (by cases k <;> exact ending)
      | @kill k p r pc records h _ after =>
          rw [h] at ending
          exact after_ending after (by cases k <;> exact ending)
      | @stop k p r h =>
          rw [h] at ending
          cases k <;> exact ending
      | push h | added h | notStarted h | started _ h | mark h | statusBegin h | report h | unlink h =>
          rw [h] at ending
          exact ending.elim
  | thread => exact ending
  | threadCrash | save => exact trivial
  | request idle => rw [idle] at ending; exact ending.elim
  | terminate _ _ ended => rcases ended with rfl | rfl <;> exact trivial

theorem boot_sound {L : Type → Type} [ListApi L] (entries : List Entry) :
    Sound (boot L entries).view := by
  constructor
  · constructor <;> simp [Config.view, boot, Mem.abs, Mem.queue, Mem.records, Mem.contents,
      ListApi.toList]
  · exact List.nil_sublist _
  · intro k p r h
    cases h
  · intro rest h
    cases h
  · intro p h
    cases h

end Dserve
