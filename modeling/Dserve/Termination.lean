import Dserve.Interrupt
import Dserve.Stop

/-!
What the handler of a termination signal saves.

A signal between any two stores of a request should have `queue_save` write the entries
of the queue before the request, or those after it. That holds as long as the handler
does not come between `node->next = NULL` of a `CANCEL` of the first entry and the next
request, each record that has to be stopped can be found and taken out of the thread
list as it is then, and each entry that is written has the name of its URL for an id, since
it is that name that the line begins with (`interrupted_saves`). `node->next = NULL` cuts the first entry, which
stays the root, off from all the others (`cut_off`).
-/

namespace Dserve

/-- The id and the URL of an entry. -/
def Mem.idUrl {L : Type → Type} (m : Mem L) (p : EntryPtr) : TrxId × CString :=
  ((m.entry p).id, (m.entry p).url)

/-- What a request makes of a queue. -/
def applied (request : Transaction) (queue : List (TrxId × CString)) : List (TrxId × CString) :=
  match request.command with
  | .download =>
      if queue.any fun e => decide (e.1.name = request.id.name) then queue
      else queue ++ [(request.id, request.url)]
  | .cancel => queue.eraseP fun e => decide (e.1.name = request.id.name)
  | _ => queue

/-- What the traversal of `queue_save` has still ahead. -/
def Pc.saves : Pc → Option (List EntryPtr)
  | .report _ => none
  | pc => pc.traversal

/-- `CANCEL` of the first of several entries, between `node->next = NULL` and
`free(node)`. -/
def CutOff (queue : List (TrxId × CString)) (s : Point) : Prop :=
  match s.work with
  | some ⟨[.queue (.free _)], _⟩ =>
      1 < queue.length ∧ ∀ e ∈ queue.head?, e.1.name = s.config.request.id.name
  | _ => False

instance (queue : List (TrxId × CString)) (s : Point) : Decidable (CutOff queue s) := by
  unfold CutOff
  generalize s.work = work
  induction work using Option.casesOn with
  | none => infer_instance
  | some work =>
      induction work using Work.casesOn with
      | mk stores ret =>
          induction stores using List.casesOn with
          | nil => infer_instance
          | cons store stores =>
              induction store using Store.casesOn with
              | queue store =>
                  induction store using ListStore.casesOn <;>
                    induction stores using List.casesOn <;> infer_instance
              | _ => infer_instance

/-- The first node of the queue was freed. -/
def RootFreed (m : Mem HeapList) : Prop :=
  ∃ list ∈ m.downloadQueue, ∃ p ∈ list.root, (list.nodes p).isNone

instance (m : Mem HeapList) : Decidable (RootFreed m) := by
  unfold RootFreed
  infer_instance

/-- `download_pause` finds the record of the entry, or none, without meeting a `NULL`, a
freed record or a freed node, and can take it out of the list. -/
def Pausable (m : Mem HeapList) (p : EntryPtr) : Prop :=
  ∀ list ∈ m.threadList, list.Removable (m.downloadThreadCompareId (m.name p))

instance (m : Mem HeapList) (p : EntryPtr) : Decidable (Pausable m p) := by
  unfold Pausable
  infer_instance

/-- The signal comes while the queue can be read, and the handler only meets entries it
can pause, and writes only those that have the name of their URL for an id. No other request
is read. -/
def Saveable (queue : List (TrxId × CString)) (s : Point) : Action → Prop
  | .request _ _ => False
  | .thread _ _ => True
  | .signal _ => ¬ CutOff queue s ∧ ¬ RootFreed s.config.mem
  | .control _ =>
      match s.config.pc with
      | .stop (.save _) p => Pausable s.config.mem p
      | .write p _ => getNameFromUrl (s.config.mem.entry p).url = some (s.config.mem.name p)
      | _ => True

instance (queue : List (TrxId × CString)) (s : Point) (a : Action) : Decidable (Saveable queue s a) := by
  induction a using Action.casesOn with
  | control o =>
      unfold Saveable
      generalize s.config.pc = pc
      induction pc using Pc.casesOn with
      | stop k p => induction k using Task.casesOn <;> infer_instance
      | _ => infer_instance
  | _ =>
      unfold Saveable
      infer_instance

/-- The action is not a request. -/
def Action.Unasked : Action → Prop
  | .request _ _ => False
  | _ => True

instance : DecidablePred Action.Unasked := fun a => by
  induction a using Action.casesOn <;> unfold Action.Unasked <;> infer_instance

/-- The line is one of `queue_data_save`, and it gives the id and the URL: the id, a number,
the URL, and the numbers of the entry. -/
def LineOf (x : TrxId × CString) (line : CString) : Prop :=
  (∃ e : Entry, (e.id, e.url) = x ∧ indexLine e = some line) ∧
    ∃ (status : Int) (numbers : CString),
      line = x.1.name ++ ' ' :: (Scan.printInt status ++ ' ' :: (x.2 ++ ' ' :: numbers))

/-- The text is a line for each of the entries. -/
def Printed (m : Mem HeapList) (entries : List EntryPtr) (text : CString) : Prop :=
  ∃ lines, text = lines.flatten ∧ List.Forall₂ (fun p line => LineOf (m.idUrl p) line) entries lines

/-- The handler is called, or it works. -/
def Handles (s : Point) : Action → Prop
  | .signal _ => True
  | .control _ => s.config.pc.saves ≠ none
  | _ => False

/-- The entries `queue_save` has written, and those it has still ahead, are the queue
before a request or the one after it; and it goes on without touching what is freed, in
the steps that are `ok`. -/
structure SavesEither (max : Nat) (ok : Point → Action → Prop)
    (before after : List (TrxId × CString)) (s : Point) : Prop where
  entries : ∀ ahead, s.config.pc.saves = some ahead →
    (s.config.reported ++ ahead).map s.config.mem.idUrl = before ∨
      (s.config.reported ++ ahead).map s.config.mem.idUrl = after
  written : s.config.pc.saves ≠ none →
    Printed s.config.mem s.config.reported s.config.index
  defined : ∀ a t, Handles s a → ok s a → (interruptible max).step s a = some t →
    t.config.pc ≠ .crashed

/-! ### What the requests do to the queue -/

/-- The queue is the chain of `ps`, or there is none. -/
structure Queued (m : Mem HeapList) (ps : List EntryPtr) : Prop where
  list : (m.downloadQueue = none ∧ ps = []) ∨
    ∃ list cells, m.downloadQueue = some list ∧ list.Rep cells ∧ HeapList.dataOf cells = ps
  below : ∀ p ∈ ps, p < m.nextEntry

/-- The command whose handler will change the queue. -/
def Pc.changes : Pc → Option Command
  | .add => some .download
  | .lookup .cancel => some .cancel
  | .assign .cancel _ => some .cancel
  | .stop .cancel _ => some .cancel
  | .kill .cancel _ _ => some .cancel
  | .unlink _ => some .cancel
  | _ => none

/-- The store is not one to the queue. -/
def Store.Aside : Store → Prop
  | .queue _ => False
  | _ => True

/-- The queue holds what it held before the request or what it holds after it, or it is
lost. -/
def Resting (before after : List (TrxId × CString)) (m : Mem HeapList) (pc : Pc) : Prop :=
  (∃ ps, Queued m ps ∧ (ps.map m.idUrl = before ∨ ps.map m.idUrl = after ∧ pc.changes = none)) ∨
    ∃ list, m.downloadQueue = some list ∧ list.Dangling

/-- Where a request is with the queue: it is not changed yet or not any more, a node is
being appended, or one is being removed. -/
inductive Changing (before after : List (TrxId × CString)) (m : Mem HeapList) (id : CString) :
    Pc → Option Work → Prop where
  | resting {pc : Pc} {work : Option Work} : Resting before after m pc →
      (∀ w ∈ work, ∀ s ∈ w.stores, s.Aside) → Changing before after m id pc work
  | appending {list : HeapList EntryPtr} {ps : List EntryPtr} {x : EntryPtr}
      {ahead : List (ListStore EntryPtr)} : m.downloadQueue = some list →
      list.Appending ps x ahead → (∀ p ∈ ps ++ [x], p < m.nextEntry) → ps.map m.idUrl = before →
      (ps ++ [x]).map m.idUrl = after →
      Changing before after m id .add (some ⟨ahead.map .queue, true⟩)
  | removing {list : HeapList EntryPtr} {front back : List EntryPtr} {x p : EntryPtr} {node : Nat}
      {ahead : List (ListStore EntryPtr)} : m.downloadQueue = some list →
      list.Removing front x back node ahead → (∀ p ∈ front ++ x :: back, p < m.nextEntry) →
      (front ++ x :: back).map m.idUrl = before → (front ++ back).map m.idUrl = after →
      m.name x = id → Changing before after m id (.unlink p) (some ⟨ahead.map .queue, true⟩)

/-- Neither in a save nor in the load of the index file. -/
structure Calm (pc : Pc) : Prop where
  saves : pc.saves = none
  task : ∀ rest, pc ≠ .lookup (.save rest)
  loaded : pc.Loaded

/-- The controller works on the request, and no signal came. -/
structure Handling (before : List (TrxId × CString)) (r : Transaction) (s : Point) : Prop where
  request : s.config.request = r
  command : ∀ command, s.config.pc.changes = some command → r.command = command
  calm : Calm s.config.pc
  phase : Changing before (applied r before) s.config.mem r.id.name s.config.pc s.work

/-- The downloads of `a`, which the thread starts, and of `b`, which waits. -/
def twoDownloads : List Action :=
  startUp ++ ask (download ['a'] ['x', '/', 'a']) 16 ++
    [.thread 0 (.openFile true), .thread 0 .started] ++ ask (download ['b'] ['x', '/', 'b']) 12

section

variable {before after : List (TrxId × CString)} {m m' : Mem HeapList} {id : CString} {pc pc' : Pc}
  {work : Option Work} {max : Nat} {o : Outcome} {c c' : Config HeapList} {request : Transaction}
  {s t : Point}

/-! ### Steps that leave the queue as it is -/

/-- The memory has the same queue, with the same ids and URLs, but that a missing one may
have been made. -/
structure SameQueue (m m' : Mem HeapList) : Prop where
  queue : m'.downloadQueue = m.downloadQueue ∨
    m.downloadQueue = none ∧ m'.downloadQueue = some ListApi.new
  nextEntry : m'.nextEntry = m.nextEntry
  idUrl : m'.idUrl = m.idUrl

theorem SameQueue.refl : SameQueue m m := ⟨Or.inl rfl, rfl, rfl⟩

theorem SameQueue.trans {m'' : Mem HeapList} (first : SameQueue m m') (second : SameQueue m' m'') :
    SameQueue m m'' := by
  refine ⟨?_, second.nextEntry.trans first.nextEntry, second.idUrl.trans first.idUrl⟩
  rcases second.queue with queue | ⟨missing, made⟩
  · rw [queue]
    exact first.queue
  · rcases first.queue with queue | ⟨-, made'⟩
    · exact Or.inr ⟨queue ▸ missing, made⟩
    · rw [made'] at missing
      cases missing

theorem idUrl_setStatus (p : EntryPtr) (status : EntryStatus) :
    (m.setStatus p status).idUrl = m.idUrl := by
  funext q
  by_cases same : q = p
  · subst same
    simp [Mem.idUrl, Mem.setStatus, Mem.setEntry]
  · simp [Mem.idUrl, Mem.setStatus, Mem.setEntry, same]

theorem SameQueue.setStatus (p : EntryPtr) (status : EntryStatus) :
    SameQueue m (m.setStatus p status) := ⟨Or.inl rfl, rfl, idUrl_setStatus p status⟩

theorem SameQueue.queueInit (queueNew : Bool) : SameQueue m (m.queueInit queueNew) := by
  unfold Mem.queueInit
  cases hq : m.downloadQueue with
  | some list => exact .refl
  | none =>
      cases queueNew with
      | true => exact ⟨Or.inr ⟨hq, rfl⟩, rfl, rfl⟩
      | false => exact .refl

theorem Mem.ThreadMove.sameQueue {thread : Thread} {a : ThreadAction} (move : m.ThreadMove thread a m') :
    SameQueue m m' := by
  obtain ⟨queue, -, -, -, -, nextEntry⟩ := move.frame
  refine ⟨Or.inl queue, nextEntry, funext fun p => ?_⟩
  obtain ⟨id, url⟩ := move.idUrl p
  simp only [Mem.idUrl, id, url]

theorem Queued.same {ps : List EntryPtr} (queued : Queued m ps) (same : SameQueue m m') :
    Queued m' ps := by
  refine ⟨?_, fun p hp => same.nextEntry ▸ queued.below p hp⟩
  rcases same.queue with queue | ⟨missing, made⟩
  · rw [queue]
    exact queued.list
  · rcases queued.list with ⟨-, rfl⟩ | ⟨list, cells, listed, -⟩
    · exact Or.inr ⟨_, [], made, HeapList.rep_new, rfl⟩
    · rw [missing] at listed
      cases listed

theorem Resting.same (resting : Resting before after m pc) (same : SameQueue m m')
    (changes : pc.changes = none → pc'.changes = none) : Resting before after m' pc' := by
  rcases resting with ⟨ps, queued, holds⟩ | ⟨list, listed, dangling⟩
  · refine Or.inl ⟨ps, queued.same same, ?_⟩
    rw [same.idUrl]
    rcases holds with holds | ⟨holds, settled⟩
    · exact Or.inl holds
    · exact Or.inr ⟨holds, changes settled⟩
  · rcases same.queue with queue | ⟨missing, -⟩
    · exact Or.inr ⟨list, queue.trans listed, dangling⟩
    · rw [missing] at listed
      cases listed

/-- The step of a thread, which makes no queue. -/
theorem Changing.same (phase : Changing before after m id pc work) (same : SameQueue m m')
    (queue : m'.downloadQueue = m.downloadQueue) : Changing before after m' id pc work := by
  have name : m'.name = m.name := funext fun p =>
    congrArg (fun e : TrxId × CString => e.1.name) (congrFun same.idUrl p)
  cases phase with
  | resting resting aside => exact .resting (resting.same same fun settled => settled) aside
  | appending listed appending below holds holds' =>
      exact .appending (queue.trans listed) appending (same.nextEntry ▸ below) (same.idUrl ▸ holds)
        (same.idUrl ▸ holds')
  | removing listed removing below holds holds' named =>
      exact .removing (queue.trans listed) removing (same.nextEntry ▸ below) (same.idUrl ▸ holds)
        (same.idUrl ▸ holds') (name ▸ named)

theorem Changing.rests (phase : Changing before after m id pc none) : Resting before after m pc := by
  cases phase with
  | resting resting => exact resting

/-- At other places than those where the queue is changed. -/
theorem Changing.elsewhere (phase : Changing before after m id pc work) (add : pc ≠ .add)
    (unlink : ∀ p, pc ≠ .unlink p) :
    Resting before after m pc ∧ ∀ w ∈ work, ∀ s ∈ w.stores, s.Aside := by
  cases phase with
  | resting resting aside => exact ⟨resting, aside⟩
  | appending => exact absurd rfl add
  | removing => exact absurd rfl (unlink _)

/-! ### One step of the controller -/

/-- A step that leaves the queue as it is. -/
structure Quiet (c c' : Config HeapList) : Prop where
  request : c'.request = c.request
  queue : SameQueue c.mem c'.mem
  changes : ∀ command, c'.pc.changes = some command → c.pc.changes = some command
  calm : Calm c'.pc

theorem Quiet.goto (request : c'.request = c.request) (queue : SameQueue c.mem c'.mem)
    (changes : c'.pc.changes = none) (calm : Calm c'.pc) : Quiet c c' :=
  ⟨request, queue, by simp [changes], calm⟩

/-- Where no request changes the queue any more. -/
theorem calm_settled : Calm .idle ∧ (∀ rest, Calm (.visit rest)) ∧ (∀ p rest, Calm (.count p rest)) ∧
    (∀ p rest, Calm (.start p rest)) ∧ (∀ p rest, Calm (.mark p rest)) ∧
    (∀ rest, Calm (.report rest)) ∧ Calm .respond := by
  refine ⟨?_, fun rest => ?_, fun p rest => ?_, fun p rest => ?_, fun p rest => ?_, fun rest => ?_, ?_⟩ <;>
    exact ⟨rfl, by simp, by simp [Pc.Loaded]⟩

theorem afterSwitch_quiet {k : Task} {p : EntryPtr} {ret : Bool} (task : ∀ rest, k ≠ .save rest)
    (changes : k = .cancel → c.pc.changes = some .cancel) (h : c.afterSwitch k p ret = some c') :
    Quiet c c' := by
  cases k with
  | pause =>
      cases h
      exact ⟨rfl, .refl, by simp [Pc.changes], rfl, by simp, by simp [Pc.Loaded]⟩
  | cancel =>
      cases h
      refine ⟨rfl, .refl, ?_, rfl, by simp, by simp [Pc.Loaded]⟩
      rintro command ⟨⟩
      exact changes rfl
  | restart =>
      obtain ⟨items, -, rfl⟩ := Option.map_eq_some_iff.mp h
      exact ⟨rfl, .refl, by simp [Pc.changes], rfl, by simp, by simp [Pc.Loaded]⟩
  | save rest => exact absurd rfl (task rest)

/-- The tasks of the requests. -/
theorem Task.calm {k : Task} (task : ∀ rest, k ≠ .save rest) :
    (∀ p, Calm (.assign k p)) ∧ (∀ p, Calm (.stop k p)) ∧ ∀ p r, Calm (.kill k p r) := by
  cases k with
  | save rest => exact absurd rfl (task rest)
  | _ =>
      refine ⟨fun p => ?_, fun p => ?_, fun p r => ?_⟩ <;>
        exact ⟨rfl, by simp, by simp [Pc.Loaded]⟩

/-- The steps that are made as in `controller`. -/
theorem control_quiet (h : c.control max o = some c') (calm : Calm c.pc) (add : c.pc ≠ .add)
    (kill : ∀ k p r, c.pc ≠ .kill k p r) (unlink : ∀ p, c.pc ≠ .unlink p)
    (start : ∀ p rest, c.pc ≠ .start p rest) : c'.pc = .crashed ∨ Quiet c c' := by
  obtain ⟨saves, task, loaded⟩ := calm
  obtain ⟨idle, visit, count, begun, -, report, respond⟩ := calm_settled
  cases pc : c.pc with
  | load entries => exact absurd pc (loaded entries).1
  | loading entries => exact absurd pc (loaded entries).2
  | add => exact absurd pc add
  | start p rest => exact absurd pc (start p rest)
  | kill k p r => exact absurd pc (kill k p r)
  | unlink p => exact absurd pc (unlink p)
  | saving rest | reset p rest | write p rest =>
      rw [pc] at saves
      cases saves
  | idle | exited | crashed => simp [Config.control, pc] at h
  | visit rest =>
      right
      cases rest with
      | nil =>
          simp only [Config.control, pc] at h
          split at h
          · cases h
            exact .goto rfl .refl rfl respond
          · cases h
            exact .goto rfl .refl rfl idle
      | cons p rest =>
          simp only [Config.control, pc] at h
          split at h
          · cases h
            exact .goto rfl .refl rfl (count _ _)
          · cases h
            exact .goto rfl .refl rfl (visit _)
  | count p rest =>
      simp only [Config.control, pc] at h
      rcases orCrash_cases h with rfl | h
      · exact Or.inl rfl
      · right
        obtain ⟨n, -, h⟩ := Option.map_eq_some_iff.mp h
        split at h
        · subst h
          exact .goto rfl .refl rfl (begun _ _)
        · subst h
          exact .goto rfl .refl rfl (visit _)
  | mark p rest =>
      simp only [Config.control, pc] at h
      cases h
      exact Or.inr (.goto rfl (.setStatus p _) rfl (visit _))
  | status =>
      simp only [Config.control, pc] at h
      split at h
      · cases h
        exact Or.inr (.goto rfl (.queueInit _) rfl respond)
      · rcases orCrash_cases h with rfl | h
        · exact Or.inl rfl
        · obtain ⟨items, -, rfl⟩ := Option.map_eq_some_iff.mp h
          exact Or.inr (.goto rfl (.queueInit _) rfl (report _))
  | report rest =>
      right
      cases rest with
      | nil =>
          simp only [Config.control, pc] at h
          cases h
          exact .goto rfl .refl rfl respond
      | cons p rest =>
          simp only [Config.control, pc] at h
          cases h
          exact .goto rfl .refl rfl (report _)
  | respond =>
      simp only [Config.control, pc] at h
      cases h
      exact Or.inr (.goto rfl .refl rfl idle)
  | lookup k =>
      have other : ∀ rest, k ≠ .save rest := by
        rintro rest rfl
        exact task rest pc
      simp only [Config.control, pc] at h
      rcases orCrash_cases h with rfl | h
      · exact Or.inl rfl
      · right
        obtain ⟨found, -, h⟩ := Option.bind_eq_some_iff.mp h
        cases found with
        | none =>
            cases h
            exact .goto rfl .refl rfl respond
        | some p =>
            have changes : k = .cancel → c.pc.changes = some .cancel := by
              rintro rfl
              rw [pc]
              rfl
            simp only at h
            split at h
            · cases h
              refine ⟨rfl, .refl, ?_, (Task.calm other).2.1 p⟩
              intro command h
              rw [pc]
              cases k <;> simp_all [Pc.changes]
            · exact afterSwitch_quiet other changes h
            · cases h
              refine ⟨rfl, .refl, ?_, (Task.calm other).1 p⟩
              intro command h
              rw [pc]
              cases k <;> simp_all [Pc.changes]
  | assign k p =>
      have other : ∀ rest, k ≠ .save rest := by
        rintro rest rfl
        rw [pc] at saves
        cases saves
      simp only [Config.control, pc] at h
      rcases orCrash_cases h with rfl | h
      · exact Or.inl rfl
      · right
        obtain ⟨request, queue, changes, calm⟩ := afterSwitch_quiet other (by rintro rfl; rfl) h
        have marked : SameQueue c.mem (c.mem.setStatus p k.value) := .setStatus p _
        exact ⟨request, marked.trans queue, fun command h => pc ▸ changes command h, calm⟩
  | stop k p =>
      have other : ∀ rest, k ≠ .save rest := by
        rintro rest rfl
        rw [pc] at saves
        cases saves
      have cancels : k = .cancel → c.pc.changes = some .cancel := by
        rintro rfl
        rw [pc]
        rfl
      simp only [Config.control, pc] at h
      rcases orCrash_cases h with rfl | h
      · exact Or.inl rfl
      · right
        obtain ⟨found, -, h⟩ := Option.bind_eq_some_iff.mp h
        cases found with
        | none => exact afterSwitch_quiet other cancels h
        | some r =>
            cases h
            refine ⟨rfl, .setStatus _ _, ?_, (Task.calm other).2.2 p r⟩
            intro command h
            rw [pc]
            cases k <;> simp_all [Pc.changes]

theorem Quiet.settles (quiet : Quiet c c') (settled : c.pc.changes = none) : c'.pc.changes = none := by
  cases h : c'.pc.changes with
  | none => rfl
  | some command =>
      rw [quiet.changes command h] at settled
      cases settled

theorem Handling.quiet (inv : Handling before request s) (rests :
    Resting before (applied request before) s.config.mem s.config.pc) (quiet : Quiet s.config c')
    (aside : ∀ w ∈ work, ∀ st ∈ w.stores, st.Aside) : Handling before request ⟨c', work⟩ :=
  ⟨quiet.request.trans inv.request, fun command h => inv.command command (quiet.changes command h),
    quiet.calm, .resting (rests.same quiet.queue quiet.settles) aside⟩

/-! ### The stores -/

theorem store_aside {st : Store} (aside : st.Aside) (h : m.store st = some m') :
    SameQueue m m' ∧ m'.downloadQueue = m.downloadQueue := by
  cases st with
  | queue st => exact aside.elim
  | threads st =>
      obtain ⟨list, -, h⟩ := Option.bind_eq_some_iff.mp h
      obtain ⟨list', -, rfl⟩ := Option.map_eq_some_iff.mp h
      exact ⟨⟨Or.inl rfl, rfl, rfl⟩, rfl⟩
  | release r =>
      cases h
      exact ⟨⟨Or.inl rfl, rfl, rfl⟩, rfl⟩

theorem store_queue {list : HeapList EntryPtr} {st : ListStore EntryPtr}
    (listed : m.downloadQueue = some list) (h : m.store (.queue st) = some m') :
    ∃ list', st.exec list = some list' ∧ m' = { m with downloadQueue := some list' } := by
  simp only [Mem.store, listed, Option.bind_some] at h
  obtain ⟨list', executed, rfl⟩ := Option.map_eq_some_iff.mp h
  exact ⟨list', executed, rfl⟩

theorem Changing.store {st : Store} {stores : List Store} {ret : Bool}
    (phase : Changing before after m id pc (some ⟨st :: stores, ret⟩)) (h : m.store st = some m') :
    Changing before after m' id pc (some ⟨stores, ret⟩) := by
  generalize hw : some (Work.mk (st :: stores) ret) = work at phase
  cases phase with
  | resting resting aside =>
      subst hw
      have aside := aside _ rfl
      obtain ⟨same, -⟩ := store_aside (aside st List.mem_cons_self) h
      refine .resting (resting.same same fun settled => settled) ?_
      rintro w ⟨⟩ st' hst
      exact aside st' (List.mem_cons_of_mem _ hst)
  | @appending list ps x ahead listed appending below holds holds' =>
      cases ahead with
      | nil => cases hw
      | cons a ahead =>
          cases hw
          obtain ⟨list', executed, rfl⟩ := store_queue listed h
          exact .appending rfl (appending.step executed) below holds holds'
  | @removing list front back x p node ahead listed removing below holds holds' named =>
      cases ahead with
      | nil => cases hw
      | cons a ahead =>
          cases hw
          obtain ⟨list', executed, rfl⟩ := store_queue listed h
          exact .removing rfl (removing.step executed) below holds holds' named

/-- When all stores are made, the request is done with the queue. -/
theorem Changing.finished {ret : Bool} (phase : Changing before after m id pc (some ⟨[], ret⟩))
    (settled : pc'.changes = none) : Resting before after m pc' := by
  generalize hw : some (Work.mk [] ret) = work at phase
  cases phase with
  | resting resting => exact resting.same .refl fun _ => settled
  | @appending list ps x ahead listed appending below holds holds' =>
      cases ahead with
      | cons a ahead => cases hw
      | nil =>
          obtain ⟨cells, rep, data⟩ := appending.finished
          exact Or.inl ⟨_, ⟨Or.inr ⟨list, cells, listed, rep, data⟩, below⟩, Or.inr ⟨holds', settled⟩⟩
  | @removing list front back x p node ahead listed removing below holds holds' named =>
      cases ahead with
      | cons a ahead => cases hw
      | nil =>
          have outcome := removing.finished
          split at outcome
          · exact Or.inr ⟨list, listed, outcome⟩
          · obtain ⟨cells, rep, data⟩ := outcome
            refine Or.inl ⟨_, ⟨Or.inr ⟨list, cells, listed, rep, data⟩, ?_⟩, Or.inr ⟨holds', settled⟩⟩
            intro q hq
            refine below q ?_
            rcases List.mem_append.mp hq with hq | hq
            · exact List.mem_append_left _ hq
            · exact List.mem_append_right _ (List.mem_cons_of_mem _ hq)

/-! ### The beginnings -/

/-- A queue that can be searched is not lost. -/
theorem Resting.queued {list : HeapList EntryPtr} (resting : Resting before after m pc)
    (listed : m.downloadQueue = some list) (searched : ¬ list.Dangling) : ∃ ps cells,
      list.Rep cells ∧ HeapList.dataOf cells = ps ∧ (∀ p ∈ ps, p < m.nextEntry) ∧
        (ps.map m.idUrl = before ∨ ps.map m.idUrl = after ∧ pc.changes = none) := by
  rcases resting with ⟨ps, ⟨held, below⟩, holds⟩ | ⟨list', listed', dangling⟩
  · rcases held with ⟨missing, -⟩ | ⟨list', cells, listed', rep, data⟩
    · rw [missing] at listed
      cases listed
    · cases listed.symm.trans listed'
      exact ⟨ps, cells, rep, data, below, holds⟩
  · cases listed.symm.trans listed'
    exact absurd dangling searched

theorem queueEntryExists_dangling {list : HeapList EntryPtr} {result : Bool}
    (listed : m.downloadQueue = some list) (dangling : list.Dangling) :
    m.queueEntryExists result id = none := by
  obtain ⟨p, fuel, root, freed, brk⟩ := dangling
  simp only [Mem.queueEntryExists, listed]
  show HeapList.forEachCompareLoop list.nodes _ _ list.brk list.root result = none
  simp [brk, root, HeapList.forEachCompareLoop, freed]

theorem removeStores_dangling {list : HeapList EntryPtr} {comparable : EntryPtr → Option Bool}
    (dangling : list.Dangling) : list.removeStores comparable = none := by
  obtain ⟨p, fuel, root, freed, brk⟩ := dangling
  simp [HeapList.removeStores, brk, root, HeapList.findNode, freed]

theorem appendStores_malloc {list : HeapList EntryPtr} {node : Bool} {x : EntryPtr}
    {stores : List (ListStore EntryPtr)} (h : list.appendStores node x = some stores) :
    node = true := by
  obtain ⟨last, -, h⟩ := Option.bind_eq_some_iff.mp h
  cases node with
  | true => rfl
  | false => cases h

/-- The entries of a queue in which no entry has the id. -/
theorem absent_id {list : HeapList EntryPtr} {cells : List (Nat × EntryPtr)} {result : Bool}
    (listed : m.downloadQueue = some list) (rep : list.Rep cells)
    (looked : m.queueEntryExists result id = some false) :
    ∀ p ∈ HeapList.dataOf cells, m.name p ≠ id := by
  have wf : Mem.Wf { m with threadList := none } := by
    refine ⟨fun l hl => ?_, by simp⟩
    cases listed.symm.trans hl
    exact Or.inl ⟨cells, rep⟩
  have queue : Mem.queue { m with threadList := none } = HeapList.dataOf cells := by
    simp [Mem.queue, Mem.contents, listed, ListApi.toList, rep.items]
  have absent := Mem.queueEntryExists_false wf looked
  rw [queue] at absent
  exact absent

/-- The new entry is filled, and the stores of `list_append` begin. -/
theorem phase_appending {o : Overrun} {list : HeapList EntryPtr} {cells : List (Nat × EntryPtr)} {entry : Entry}
    {stores : List (ListStore EntryPtr)} (command : request.command = .download)
    (listed : m.downloadQueue = some list) (rep : list.Rep cells)
    (below : ∀ p ∈ HeapList.dataOf cells, p < m.nextEntry)
    (holds : (HeapList.dataOf cells).map m.idUrl = before)
    (fresh : ∀ p ∈ HeapList.dataOf cells, m.name p ≠ request.id.name)
    (target : entrySetTarget o entryNew request = some entry)
    (begun : list.appendStores true m.nextEntry = some stores) :
    Changing before (applied request before) { m with
      entry := Function.update m.entry m.nextEntry entry, nextEntry := m.nextEntry + 1 }
      request.id.name .add (some ⟨stores.map .queue, true⟩) := by
  generalize filled : { m with
    entry := Function.update m.entry m.nextEntry entry, nextEntry := m.nextEntry + 1 } = m'
  obtain ⟨id, url, -⟩ := entrySetTarget_spec target
  have old : (HeapList.dataOf cells).map m'.idUrl = before := by
    rw [← holds]
    refine List.map_congr_left fun p hp => ?_
    subst filled
    simp [Mem.idUrl, Function.update_of_ne (Nat.ne_of_lt (below p hp))]
  have new : m'.idUrl m.nextEntry = (request.id, request.url) := by
    subst filled
    simp [Mem.idUrl, id, url]
  have absent : (before.any fun e => decide (e.1.name = request.id.name)) = false := by
    rw [← holds, List.any_eq_false]
    intro e he
    obtain ⟨p, hp, rfl⟩ := List.mem_map.mp he
    exact ne_true_of_eq_false (decide_eq_false (fresh p hp))
  have appending : list.Appending (HeapList.dataOf cells) m.nextEntry stores := rep.appending begun
  refine .appending ?_ appending ?_ old ?_
  · subst filled
    exact listed
  · subst filled
    intro p hp
    rcases List.mem_append.mp hp with hp | hp
    · exact Nat.lt_succ_of_lt (below p hp)
    · rw [List.mem_singleton.mp hp]
      exact Nat.lt_succ_self _
  · rw [List.map_append, old, applied, command]
    simp [absent, new]

theorem beginAdd_handling {o : Outcome} (inv : Handling before request ⟨c, none⟩) (pc : c.pc = .add)
    (h : Point.beginAdd o c = some t) : Handling before request t := by
  obtain ⟨-, -, -, -, -, -, respond⟩ := calm_settled
  have same := inv.request
  have command := inv.command .download (by rw [pc]; rfl)
  have rests := inv.phase.rests
  have refused : ∀ response : Transaction,
      Handling before request ⟨{ c with response := response, pc := .respond }, none⟩ := fun response =>
    inv.quiet rests (.goto rfl .refl rfl respond) (by simp)
  unfold Point.beginAdd at h
  cases hq : c.mem.downloadQueue with
  | none =>
      simp only [hq] at h
      split at h
      · cases h
        exact inv.quiet rests ⟨rfl, .queueInit true, fun _ h => h, inv.calm⟩ (by simp)
      · cases h
        exact refused _
  | some list =>
      simp only [hq] at h
      obtain ⟨entryExists, looked, h⟩ := Option.bind_eq_some_iff.mp h
      split at h
      · cases h
        exact refused _
      · next absent =>
        split at h
        · obtain ⟨entry, target, h⟩ := Option.bind_eq_some_iff.mp h
          obtain ⟨stores, begun, rfl⟩ := Option.map_eq_some_iff.mp h
          obtain rfl : entryExists = false := by simpa using absent
          obtain ⟨ps, cells, rep, rfl, below, holds⟩ := rests.queued hq fun dangling => by
            rw [queueEntryExists_dangling hq dangling] at looked
            cases looked
          have holds := holds.resolve_right (by simp [pc, Pc.changes])
          have fresh := absent_id hq rep looked
          rw [show c.request = request from same] at fresh target
          rw [appendStores_malloc begun] at begun
          have phase := phase_appending command hq rep below holds fresh target begun
          exact ⟨same, inv.command, inv.calm, pc ▸ hq ▸ phase⟩
        · cases h
          exact refused _

theorem newDownloadThread_same (p : EntryPtr) (o : StartOutcome) :
    SameQueue m (m.newDownloadThread p o).1 := by
  unfold Mem.newDownloadThread
  split
  · split
    · exact .refl
    · exact ⟨Or.inl rfl, rfl, rfl⟩
  · exact .refl

theorem beginStart_handling {p : EntryPtr} {rest : List EntryPtr}
    (inv : Handling before request ⟨c, none⟩)
    (h : Point.beginStart o c p rest = some t) : Handling before request t := by
  obtain ⟨-, -, -, -, mark, -, -⟩ := calm_settled
  unfold Point.beginStart at h
  split at h
  · split at h
    · cases h
      exact inv.quiet inv.phase.rests ⟨rfl, ⟨Or.inl rfl, rfl, rfl⟩, fun _ h => h, inv.calm⟩ (by simp)
    · cases h
      exact inv.quiet inv.phase.rests (.goto rfl .refl rfl (mark p rest)) (by simp)
  · obtain ⟨stores, -, rfl⟩ := Option.map_eq_some_iff.mp h
    refine inv.quiet inv.phase.rests
      ⟨rfl, newDownloadThread_same p o.start, fun _ h => h, inv.calm⟩ ?_
    rintro w ⟨⟩ st hst
    obtain ⟨st, -, rfl⟩ := List.mem_map.mp hst
    trivial

/-- What is still to do once the thread was cancelled is aside from the queue. -/
theorem beginKill_work {k : Task} {r : RecordPtr} (h : Point.beginKill c k r = some t) :
    ∃ work, t = ⟨{ c with mem := c.mem.endThread (c.mem.record r).thread }, some work⟩ ∧
      ∀ st ∈ work.stores, st.Aside := by
  simp only [Point.beginKill] at h
  split at h
  · cases h
    exact ⟨_, rfl, by simp [Store.Aside]⟩
  · obtain ⟨removed, -, rfl⟩ := Option.map_eq_some_iff.mp h
    refine ⟨_, rfl, fun st hst => ?_⟩
    rcases List.mem_append.mp hst with hst | hst
    · obtain ⟨st, -, rfl⟩ := List.mem_map.mp hst
      trivial
    · rw [List.mem_singleton.mp hst]
      trivial

theorem beginKill_handling {k : Task} {r : RecordPtr} (inv : Handling before request ⟨c, none⟩)
    (h : Point.beginKill c k r = some t) : Handling before request t := by
  obtain ⟨work, rfl, aside⟩ := beginKill_work h
  refine inv.quiet inv.phase.rests ⟨rfl, ⟨Or.inl rfl, rfl, rfl⟩, fun _ h => h, inv.calm⟩ ?_
  rintro w ⟨⟩
  exact aside

/-- The stores of the removal of an entry begin. -/
theorem phase_removing {list : HeapList EntryPtr} {cells front back : List (Nat × EntryPtr)}
    {x p : EntryPtr} {node : Nat} {stores : List (ListStore EntryPtr)}
    (command : request.command = .cancel) (listed : m.downloadQueue = some list)
    (rep : list.Rep cells) (below : ∀ p ∈ HeapList.dataOf cells, p < m.nextEntry)
    (holds : (HeapList.dataOf cells).map m.idUrl = before) (parts : cells = front ++ (node, x) :: back)
    (differ : ∀ c ∈ front, m.name c.2 ≠ request.id.name) (named : m.name x = request.id.name)
    (begun : list.unlinkStores node = some stores) :
    Changing before (applied request before) m request.id.name (.unlink p)
      (some ⟨stores.map .queue, true⟩) := by
  subst parts
  have data : HeapList.dataOf (front ++ (node, x) :: back) =
      HeapList.dataOf front ++ x :: HeapList.dataOf back := by simp
  rw [data] at below holds
  refine .removing listed ⟨list, front, back, [], rep, rfl, rfl, begun, rfl⟩ below holds ?_ named
  rw [applied, command, ← holds, List.map_append, List.map_append, List.map_cons,
    List.eraseP_append_right, List.eraseP_cons_of_pos]
  · exact decide_eq_true named
  · intro e he
    obtain ⟨q, hq, rfl⟩ := List.mem_map.mp he
    obtain ⟨c, hc, rfl⟩ := List.mem_map.mp hq
    exact ne_true_of_eq_false (decide_eq_false (differ c hc))

theorem beginUnlink_handling {p : EntryPtr} (inv : Handling before request ⟨c, none⟩)
    (pc : c.pc = .unlink p) (h : Point.beginUnlink c = some t) : Handling before request t := by
  have same : c.request = request := inv.request
  have command := inv.command .cancel (by rw [show (Point.mk c none).config.pc = _ from pc]; rfl)
  have idle : Quiet c c := ⟨rfl, .refl, fun _ h => h, inv.calm⟩
  have rests := inv.phase.rests
  unfold Point.beginUnlink at h
  cases hq : c.mem.downloadQueue with
  | none =>
      simp only [hq] at h
      cases h
      exact inv.quiet rests idle (by simp)
  | some list =>
      simp only [hq] at h
      obtain ⟨⟨ret, stores⟩, begun, rfl⟩ := Option.map_eq_some_iff.mp h
      obtain ⟨ps, cells, rep, rfl, below, holds⟩ := rests.queued hq fun dangling => by
        rw [removeStores_dangling dangling] at begun
        cases begun
      have holds := holds.resolve_right (by simp [pc, Pc.changes])
      obtain ⟨found, searched, begun⟩ := Option.bind_eq_some_iff.mp begun
      cases found with
      | none =>
          cases begun
          exact inv.quiet rests idle (by simp)
      | some found =>
          obtain ⟨node, x⟩ := found
          obtain ⟨stores, begun, eq⟩ := Option.map_eq_some_iff.mp begun
          cases eq
          obtain ⟨front, back, parts, differ, named⟩ :=
            HeapList.findNode_walk rep.reads.walk searched
          rw [same] at differ named
          have phase := phase_removing (p := p) command hq rep below holds parts
            (by simpa using differ) (by simpa using named) begun
          exact ⟨same, inv.command, inv.calm, pc ▸ phase⟩

/-! ### The steps of a request -/

/-- After its last store the function goes on where no request changes the queue. -/
theorem Handling.finished {ret : Bool} (inv : Handling before request ⟨c, some ⟨[], ret⟩⟩)
    (same : c'.request = c.request) (mem : c'.mem = c.mem) (settled : c'.pc.changes = none)
    (calm : Calm c'.pc) : Handling before request ⟨c', none⟩ := by
  refine ⟨same.trans inv.request, by simp [settled], calm, ?_⟩
  refine .resting ?_ (by simp)
  rw [show (Point.mk c' none).config.mem = c.mem from mem]
  exact inv.phase.finished settled

theorem finish_handling {ret : Bool} (inv : Handling before request ⟨c, some ⟨[], ret⟩⟩)
    (h : Point.finish c ret = some c') : Handling before request ⟨c', none⟩ := by
  obtain ⟨-, visit, -, -, mark, -, respond⟩ := calm_settled
  cases pc : c.pc with
  | add =>
      rw [Point.finish, pc] at h
      obtain ⟨items, -, rfl⟩ := Option.map_eq_some_iff.mp h
      exact inv.finished rfl rfl rfl (visit _)
  | start p rest =>
      rw [Point.finish, pc] at h
      cases h
      exact inv.finished rfl rfl rfl (mark _ _)
  | unlink p =>
      rw [Point.finish, pc] at h
      cases h
      exact inv.finished rfl rfl rfl respond
  | kill k p r =>
      rw [Point.finish, pc] at h
      obtain ⟨resting, -⟩ := inv.phase.elsewhere (by simp [pc]) (by simp [pc])
      have other : ∀ rest, k ≠ .save rest := by
        rintro rest rfl
        have saves := inv.calm.saves
        rw [show (Point.mk c _).config.pc = .kill (.save rest) p r from pc] at saves
        cases saves
      have quiet : Quiet c c' := afterSwitch_quiet other (by rintro rfl; rw [pc]; rfl) h
      exact inv.quiet resting quiet (by simp)
  | _ =>
      rw [Point.finish, pc] at h
      cases h
      obtain ⟨resting, -⟩ := inv.phase.elsewhere (by simp [pc]) (by simp [pc])
      exact ⟨inv.request, inv.command, inv.calm, .resting resting (by simp)⟩

theorem orCrash_point {r : Option Point} (h : some (Point.orCrash c r) = some t) :
    t.config.pc = .crashed ∨ r = some t := by
  cases r with
  | none =>
      cases h
      exact Or.inl rfl
  | some s => exact Or.inr h

/-- A step of the controller that no signal interrupted. -/
theorem control_handling (inv : Handling before request s) (h : s.control max o = some t) :
    t.config.pc = .crashed ∨ Handling before request t := by
  obtain ⟨c, work⟩ := s
  cases work with
  | some w =>
      obtain ⟨stores, ret⟩ := w
      cases stores with
      | nil =>
          simp only [Point.control, Option.some.injEq] at h
          subst h
          cases finished : Point.finish c ret with
          | none => exact Or.inl rfl
          | some c' => exact Or.inr (finish_handling inv finished)
      | cons st stores =>
          rcases orCrash_point h with crashed | h
          · exact Or.inl crashed
          · obtain ⟨m, stored, rfl⟩ := Option.map_eq_some_iff.mp h
            exact Or.inr ⟨inv.request, inv.command, inv.calm, inv.phase.store stored⟩
  | none =>
      cases pc : c.pc with
      | add =>
          simp only [Point.control, pc] at h
          split at h
          · exact (orCrash_point h).imp_right (beginAdd_handling inv pc)
          · cases h
      | start p rest =>
          simp only [Point.control, pc] at h
          exact (orCrash_point h).imp_right (beginStart_handling inv)
      | kill k p r =>
          simp only [Point.control, pc] at h
          exact (orCrash_point h).imp_right (beginKill_handling inv)
      | unlink p =>
          simp only [Point.control, pc] at h
          exact (orCrash_point h).imp_right (beginUnlink_handling inv pc)
      | _ =>
          simp only [Point.control, pc] at h
          obtain ⟨c', stepped, rfl⟩ := Option.map_eq_some_iff.mp h
          have outcome := control_quiet stepped inv.calm (by simp [pc]) (by simp [pc]) (by simp [pc])
            (by simp [pc])
          exact outcome.imp_right fun quiet => inv.quiet inv.phase.rests quiet (by simp)

/-! ### The signal -/

theorem HeapList.Dangling.rootFreed {list : HeapList EntryPtr} (listed : m.downloadQueue = some list)
    (dangling : list.Dangling) : RootFreed m := by
  obtain ⟨p, fuel, root, freed, -⟩ := dangling
  exact ⟨list, listed, p, root, by rw [freed]; rfl⟩

/-- What a traversal of the queue sees, wherever the request is. -/
theorem Handling.items {list : HeapList EntryPtr} (inv : Handling before request s)
    (attached : ¬ CutOff before s) (allocated : ¬ RootFreed s.config.mem)
    (listed : s.config.mem.downloadQueue = some list) :
    ∃ items, s.config.mem.queueItems = some items ∧ (items.map s.config.mem.idUrl = before ∨
      items.map s.config.mem.idUrl = applied request before) := by
  obtain ⟨⟨m, pc, r, response, sent, reported, index, installed⟩, work⟩ := s
  obtain ⟨rfl, -, -, phase⟩ := inv
  have traversal : m.queueItems = ListApi.items list := by
    simp only [Mem.queueItems, show m.downloadQueue = some list from listed]
  rw [traversal]
  generalize hid : r.id.name = id at phase
  cases phase with
  | resting resting aside =>
      obtain ⟨ps, cells, rep, rfl, -, holds⟩ := resting.queued listed fun dangling =>
        allocated (dangling.rootFreed listed)
      exact ⟨_, rep.items, holds.imp_right And.left⟩
  | @appending list' ps x ahead listed' appending below holds holds' =>
      cases listed.symm.trans listed'
      rcases appending.items with items | items
      · exact ⟨_, items, Or.inl holds⟩
      · exact ⟨_, items, Or.inr holds'⟩
  | @removing list' front back x p node ahead listed' removing below holds holds' named =>
      cases listed.symm.trans listed'
      have whole : front = [] → ahead ≠ [] ∧ (ahead = [.free node] → back = []) := by
        rintro rfl
        constructor
        · rintro rfl
          exact allocated (HeapList.Dangling.rootFreed listed removing.finished)
        · rintro rfl
          by_contra more
          refine attached ⟨?_, ?_⟩
          · rw [← holds]
            simpa using List.length_pos_iff.mpr more
          · rw [← holds]
            rintro e ⟨⟩
            exact named.trans hid.symm
      rcases removing.items whole with items | items
      · exact ⟨_, items, Or.inl holds⟩
      · exact ⟨_, items, Or.inr holds'⟩

/-! ### The handler -/

/-- The handler has written what was before `ahead` of one of the two queues. -/
structure Saved (before after : List (TrxId × CString)) (ahead : List EntryPtr)
    (c : Config HeapList) : Prop where
  items : ∃ items, c.mem.queueItems = some items ∧
    (items.map c.mem.idUrl = before ∨ items.map c.mem.idUrl = after)
  entries : (c.reported ++ ahead).map c.mem.idUrl = before ∨
    (c.reported ++ ahead).map c.mem.idUrl = after
  written : Printed c.mem c.reported c.index

/-- The handler can make the stores it has still to make in the thread list. -/
structure Pausing (s : Point) : Prop where
  aside : ∀ w ∈ s.work, ∀ st ∈ w.stores, st.Aside
  defined : ∀ w ∈ s.work, ∃ m, s.config.mem.storeAll w.stores = some m
  removable : ∀ k p r, s.config.pc = .kill k p r → s.work = none → ∀ list ∈ s.config.mem.threadList,
    list.Removable (s.config.mem.downloadThreadCompareId (s.config.removeKey k r))

/-- The handler works. -/
def Saving (before after : List (TrxId × CString)) (s : Point) : Prop :=
  ∃ ahead, s.config.pc.saves = some ahead ∧ Saved before after ahead s.config ∧ Pausing s

theorem Saved.move {ahead : List EntryPtr} (saved : Saved before after ahead c)
    (queue : c'.mem.downloadQueue = c.mem.downloadQueue) (idUrl : c'.mem.idUrl = c.mem.idUrl)
    (reported : c'.reported = c.reported) (index : c'.index = c.index) :
    Saved before after ahead c' := by
  have items : c'.mem.queueItems = c.mem.queueItems := by
    unfold Mem.queueItems
    rw [queue]
  refine ⟨?_, ?_, ?_⟩
  · rw [items, idUrl]
    exact saved.items
  · rw [reported, idUrl]
    exact saved.entries
  · rw [Printed, reported, index, idUrl]
    exact saved.written

/-- At a place where nothing is pending. -/
theorem Pausing.calm (kill : ∀ k p r, c.pc ≠ .kill k p r) : Pausing ⟨c, none⟩ :=
  ⟨by simp, by simp, fun k p r h => absurd h (kill k p r)⟩

theorem terminate_saving {fopen : Bool} {items : List EntryPtr} (traversed :
    c.mem.queueItems = some items) (holds : items.map c.mem.idUrl = before ∨
      items.map c.mem.idUrl = after) :
    (c.terminate fopen).pc = .exited ∨ Saving before after ⟨c.terminate fopen, none⟩ := by
  unfold Config.terminate
  split
  · exact Or.inl rfl
  · split
    · right
      refine ⟨items, ?_, ?_, ?_⟩
      · simp [Config.orCrash, traversed, Pc.saves, Pc.traversal]
      · simp only [Config.orCrash, traversed, Option.map_some, Option.getD_some]
        exact ⟨⟨items, traversed, holds⟩, holds, [], rfl, .nil⟩
      · simp only [Config.orCrash, traversed, Option.map_some, Option.getD_some]
        exact .calm (by simp)
    · exact Or.inl rfl

/-- With records that can be looked up and taken out, `list_get_item` finds one of the id, or
none. -/
theorem pausable_found {p : EntryPtr} (pausable : Pausable m p) :
    ∃ found, m.findRecord (m.name p) = some found ∧
      ∀ r ∈ found, m.name (m.record r).entry = m.name p := by
  unfold Mem.findRecord Mem.getItem
  cases hl : m.threadList with
  | none => exact ⟨none, rfl, by simp⟩
  | some list =>
      have removable := pausable list hl
      have lookup : ListApi.getItem list (m.downloadThreadCompareId (m.name p)) =
          (HeapList.findNode list.nodes (m.downloadThreadCompareId (m.name p)) list.brk
            list.root).map (Option.map Prod.snd) := HeapList.getItemLoop_findNode
      unfold HeapList.Removable at removable
      simp only [lookup]
      cases found : HeapList.findNode list.nodes (m.downloadThreadCompareId (m.name p)) list.brk
          list.root with
      | none => simp [found] at removable
      | some found' =>
          cases found' with
          | none => exact ⟨none, rfl, by simp⟩
          | some node =>
              obtain ⟨q, x⟩ := node
              refine ⟨x, rfl, ?_⟩
              rintro r rfl
              obtain ⟨-, same⟩ := HeapList.findNode_some found
              simp only [Mem.downloadThreadCompareId] at same
              split at same
              · cases same
              · simpa using same

/-- The record is taken out with stores that can all be made. -/
theorem beginKill_defined {k : Task} {r : RecordPtr} (removable : ∀ list ∈ c.mem.threadList,
    list.Removable (c.mem.downloadThreadCompareId (c.removeKey k r))) :
    ∃ work, Point.beginKill c k r =
        some ⟨{ c with mem := c.mem.endThread (c.mem.record r).thread }, some work⟩ ∧
      (∀ st ∈ work.stores, st.Aside) ∧
      ∃ m, (c.mem.endThread (c.mem.record r).thread).storeAll work.stores = some m := by
  have compare : (c.mem.endThread (c.mem.record r).thread).downloadThreadCompareId (c.removeKey k r) =
      c.mem.downloadThreadCompareId (c.removeKey k r) := Mem.compareId_congr rfl rfl fun _ => rfl
  suffices ∃ t, Point.beginKill c k r = some t ∧ ∀ work, t.work = some work →
      ∃ m, (c.mem.endThread (c.mem.record r).thread).storeAll work.stores = some m by
    obtain ⟨t, begun, defined⟩ := this
    obtain ⟨work, rfl, aside⟩ := beginKill_work begun
    exact ⟨work, begun, aside, defined work rfl⟩
  cases hl : c.mem.threadList with
  | none =>
      have missing : (c.mem.endThread (c.mem.record r).thread).threadList = none := hl
      refine ⟨_, by simp only [Point.beginKill, missing]; rfl, ?_⟩
      rintro work ⟨⟩
      exact ⟨_, rfl⟩
  | some list =>
      have listed : (c.mem.endThread (c.mem.record r).thread).threadList = some list := hl
      obtain ⟨⟨ret, list'⟩, removed⟩ := HeapList.removable_iff.mp (removable list hl)
      rw [HeapList.removeItem_stores] at removed
      obtain ⟨⟨ret', stores⟩, begun, made⟩ := Option.bind_eq_some_iff.mp removed
      obtain ⟨list'', made, -⟩ := Option.map_eq_some_iff.mp made
      refine ⟨_, by simp only [Point.beginKill, listed, compare, begun, Option.map_some]; rfl, ?_⟩
      rintro work ⟨⟩
      refine ⟨{ c.mem.endThread (c.mem.record r).thread with
        threadList := some list'', freed := Function.update c.mem.freed r true }, ?_⟩
      rw [Mem.storeAll_append, Mem.storeAll_threads listed, made]
      rfl

/-- Where the handler can be. -/
theorem saves_cases {ahead : List EntryPtr} (h : pc.saves = some ahead) :
    pc = .saving ahead ∨ ∃ p rest, ahead = p :: rest ∧ (pc = .assign (.save rest) p ∨
      pc = .stop (.save rest) p ∨ (∃ r, pc = .kill (.save rest) p r) ∨ pc = .reset p rest ∨
        pc = .write p rest) := by
  cases pc with
  | saving rest =>
      cases h
      exact Or.inl rfl
  | reset p rest | write p rest =>
      cases h
      exact Or.inr ⟨p, rest, rfl, by simp⟩
  | assign k p | stop k p | kill k p r =>
      cases k with
      | save rest =>
          cases h
          exact Or.inr ⟨p, rest, rfl, by simp⟩
      | _ => cases h
  | _ => cases h

/-- The end of a pause. -/
theorem finish_saving {ahead : List EntryPtr} {ret : Bool} (saves : c.pc.saves = some ahead)
    (saved : Saved before after ahead c) : ∃ c', Point.finish c ret = some c' ∧
      Saving before after ⟨c', none⟩ := by
  rcases saves_cases saves with pc | ⟨p, rest, rfl, pc | pc | ⟨r, pc⟩ | pc | pc⟩
  · exact ⟨c, by rw [Point.finish, pc], ahead, saves, saved, .calm (by simp [pc])⟩
  · exact ⟨c, by rw [Point.finish, pc], _, saves, saved, .calm (by simp [pc])⟩
  · exact ⟨c, by rw [Point.finish, pc], _, saves, saved, .calm (by simp [pc])⟩
  · exact ⟨{ c with pc := .reset p rest }, by rw [Point.finish, pc]; rfl, _, rfl,
      saved.move rfl rfl rfl rfl, .calm (by simp)⟩
  · exact ⟨c, by rw [Point.finish, pc], _, saves, saved, .calm (by simp [pc])⟩
  · exact ⟨c, by rw [Point.finish, pc], _, saves, saved, .calm (by simp [pc])⟩

/-- The steps that are made as in `controller`. -/
theorem control_other (add : c.pc ≠ .add) (start : ∀ p rest, c.pc ≠ .start p rest)
    (kill : ∀ k p r, c.pc ≠ .kill k p r) (unlink : ∀ p, c.pc ≠ .unlink p) :
    Point.control max o ⟨c, none⟩ = (c.control max o).map fun c => ⟨c, none⟩ := by
  cases pc : c.pc with
  | add => exact absurd pc add
  | start p rest => exact absurd pc (start p rest)
  | kill k p r => exact absurd pc (kill k p r)
  | unlink p => exact absurd pc (unlink p)
  | _ => simp only [Point.control, pc]

/-- `download_pause` on an entry that can be paused. -/
theorem stop_saving {p : EntryPtr} {rest : List EntryPtr} (pc : c.pc = .stop (.save rest) p)
    (saved : Saved before after (p :: rest) c) (pausable : Pausable c.mem p)
    (h : c.control max o = some c') : Saving before after ⟨c', none⟩ := by
  obtain ⟨found, looked, named⟩ := pausable_found pausable
  simp only [Config.control, pc, Config.stopId, looked, Option.bind_some] at h
  cases found with
  | none =>
      cases h
      exact ⟨_, rfl, saved.move rfl rfl rfl rfl, .calm (by simp [Config.orCrash, Config.afterSwitch])⟩
  | some r =>
      cases h
      refine ⟨_, rfl, saved.move rfl (idUrl_setStatus _ _) rfl rfl, by simp, by simp, ?_⟩
      rintro k p' r' pc' - list listed
      cases pc'
      have key : Config.removeKey { c with
          mem := c.mem.setStatus (c.mem.record r).entry .paused, pc := .kill (.save rest) p r }
          (.save rest) r = c.mem.name p := Mem.name_setStatus.trans (named r rfl)
      have compare : (c.mem.setStatus (c.mem.record r).entry .paused).downloadThreadCompareId
          (c.mem.name p) = c.mem.downloadThreadCompareId (c.mem.name p) :=
        Mem.compareId_congr rfl rfl fun _ => Mem.name_setStatus
      have removable := pausable list listed
      rw [← compare, ← key] at removable
      exact removable

/-- The line of an entry that has the name of its URL for an id. -/
theorem lineOf_indexLine {e : Entry} (named : getNameFromUrl e.url = some e.id.name) :
    ∃ line, indexLine e = some line ∧ LineOf (e.id, e.url) line := by
  refine ⟨_, by rw [indexLine, named]; rfl, ⟨e, rfl, by rw [indexLine, named]; rfl⟩, e.status.toCode, _, rfl⟩

theorem write_saving {p : EntryPtr} {rest : List EntryPtr} (pc : c.pc = .write p rest)
    (saved : Saved before after (p :: rest) c)
    (named : getNameFromUrl (c.mem.entry p).url = some (c.mem.name p))
    (h : c.control max o = some c') : Saving before after ⟨c', none⟩ := by
  obtain ⟨line, hline, gives⟩ := lineOf_indexLine named
  simp only [Config.control, pc, hline] at h
  cases h
  obtain ⟨lines, text, all⟩ := saved.written
  refine ⟨rest, rfl, ⟨saved.items, ?_, lines ++ [line], ?_, ?_⟩, .calm (by simp [Config.orCrash])⟩
  · have entries := saved.entries
    rw [show c.reported ++ p :: rest = c.reported ++ [p] ++ rest by simp] at entries
    exact entries
  · show c.index ++ line = _
    rw [text]
    simp
  · exact List.rel_append all (.cons gives .nil)

/-- One step of the handler, when it can pause and write what it meets. -/
theorem control_saving {queue : List (TrxId × CString)} (saving : Saving before after s)
    (ok : Saveable queue s (.control o)) (h : s.control max o = some t) :
    t.config.pc = .exited ∨ Saving before after t := by
  obtain ⟨ahead, saves, saved, pausing⟩ := saving
  obtain ⟨c, work⟩ := s
  replace saves : c.pc.saves = some ahead := saves
  replace saved : Saved before after ahead c := saved
  cases work with
  | some w =>
      obtain ⟨stores, ret⟩ := w
      right
      cases stores with
      | nil =>
          obtain ⟨c', finished, saving⟩ : ∃ c', Point.finish c ret = some c' ∧
              Saving before after ⟨c', none⟩ := finish_saving saves saved
          simp only [Point.control, finished] at h
          cases h
          exact saving
      | cons st stores =>
          obtain ⟨m, defined⟩ := pausing.defined _ rfl
          obtain ⟨m₁, stored, defined⟩ := Option.bind_eq_some_iff.mp defined
          have aside := pausing.aside _ rfl
          obtain ⟨same, queue⟩ := store_aside (aside st List.mem_cons_self) stored
          simp only [Point.control, stored] at h
          cases h
          refine ⟨ahead, saves, saved.move queue same.idUrl rfl rfl, ?_, ?_, fun _ _ _ _ h => by cases h⟩
          · rintro w ⟨⟩ st' hst
            exact aside st' (List.mem_cons_of_mem _ hst)
          · rintro w ⟨⟩
            exact ⟨m, defined⟩
  | none =>
      by_cases kill : ∃ k p r, c.pc = .kill k p r
      · right
        obtain ⟨k, p, r, pc⟩ := kill
        obtain ⟨work, begun, aside, defined⟩ :=
          beginKill_defined (k := k) (pausing.removable k p r pc rfl)
        simp only [Point.control, pc, begun] at h
        cases h
        rw [pc] at saves
        refine ⟨_, saves, saved.move rfl rfl rfl rfl, ?_, ?_, fun _ _ _ _ h => by cases h⟩
        · rintro w ⟨⟩
          exact aside
        · rintro w ⟨⟩
          exact defined
      · simp only [not_exists] at kill
        rw [control_other ?_ ?_ kill ?_] at h
        · obtain ⟨c', stepped, rfl⟩ := Option.map_eq_some_iff.mp h
          rcases saves_cases saves with pc | ⟨p, rest, rfl, pc | pc | ⟨r, pc⟩ | pc | pc⟩
          · cases ahead with
            | nil =>
                simp only [Config.control, pc] at stepped
                cases stepped
                exact Or.inl rfl
            | cons p rest =>
                right
                simp only [Config.control, pc] at stepped
                split at stepped
                · cases stepped
                  exact ⟨_, rfl, saved.move rfl rfl rfl rfl, .calm (by simp)⟩
                · cases stepped
                  exact ⟨_, rfl, saved.move rfl rfl rfl rfl, .calm (by simp)⟩
          · right
            simp only [Config.control, pc] at stepped
            cases stepped
            exact ⟨_, rfl, saved.move rfl (idUrl_setStatus _ _) rfl rfl,
              .calm (by simp [Config.orCrash, Config.afterSwitch])⟩
          · simp only [Saveable, pc] at ok
            exact Or.inr (stop_saving pc saved ok stepped)
          · exact absurd pc (kill _ _ _)
          · right
            simp only [Config.control, pc] at stepped
            cases stepped
            exact ⟨_, rfl, saved.move rfl (idUrl_setStatus _ _) rfl rfl, .calm (by simp)⟩
          · simp only [Saveable, pc] at ok
            exact Or.inr (write_saving pc saved ok stepped)
        all_goals
          intros
          rintro pc
          rw [pc] at saves
          cases saves

/-! ### The threads -/

theorem thread_moves {tid : Tid} {a : ThreadAction} (h : s.step max (.thread tid a) = some t) :
    t.config.pc = .crashed ∨ ∃ thread m, s.config.mem.ThreadMove thread a m ∧
      t = ⟨{ s.config with mem := m }, s.work⟩ := by
  obtain ⟨c', stepped, rfl⟩ := Option.map_eq_some_iff.mp h
  simp only [Config.step] at stepped
  split at stepped
  · obtain ⟨thread, -, stepped⟩ := Option.bind_eq_some_iff.mp stepped
    obtain ⟨result, moved, rfl⟩ := Option.map_eq_some_iff.mp stepped
    cases result with
    | none => exact Or.inl rfl
    | some m => exact Or.inr ⟨thread, m, Mem.threadStep_move moved, rfl⟩
  · cases stepped

theorem thread_handling {thread : Thread} {a : ThreadAction} (inv : Handling before request s)
    (move : s.config.mem.ThreadMove thread a m) :
    Handling before request ⟨{ s.config with mem := m }, s.work⟩ :=
  ⟨inv.request, inv.command, inv.calm, inv.phase.same move.sameQueue move.frame.1⟩

/-- Whether stores can be made is a matter of the lists alone. -/
theorem storeAll_defined {stores : List Store} (queue : m'.downloadQueue = m.downloadQueue)
    (threads : m'.threadList = m.threadList) (h : ∃ x, m.storeAll stores = some x) :
    ∃ x, m'.storeAll stores = some x := by
  induction stores generalizing m m' with
  | nil => exact ⟨m', rfl⟩
  | cons st stores ih =>
      obtain ⟨x, h⟩ := h
      obtain ⟨m₁, stored, h⟩ := Option.bind_eq_some_iff.mp h
      suffices ∃ m₁', m'.store st = some m₁' ∧ m₁'.downloadQueue = m₁.downloadQueue ∧
          m₁'.threadList = m₁.threadList by
        obtain ⟨m₁', stored', queue', threads'⟩ := this
        simp only [Mem.storeAll, stored', Option.bind_some]
        exact ih queue' threads' ⟨x, h⟩
      cases st with
      | queue st =>
          obtain ⟨list, listed, stored⟩ := Option.bind_eq_some_iff.mp stored
          obtain ⟨list', executed, rfl⟩ := Option.map_eq_some_iff.mp stored
          exact ⟨{ m' with downloadQueue := some list' },
            by simp [Mem.store, queue, listed, executed], rfl, threads⟩
      | threads st =>
          obtain ⟨list, listed, stored⟩ := Option.bind_eq_some_iff.mp stored
          obtain ⟨list', executed, rfl⟩ := Option.map_eq_some_iff.mp stored
          exact ⟨{ m' with threadList := some list' },
            by simp [Mem.store, threads, listed, executed], queue, rfl⟩
      | release r =>
          cases stored
          exact ⟨_, rfl, queue, threads⟩

theorem thread_saving {thread : Thread} {a : ThreadAction} (saving : Saving before after s)
    (move : s.config.mem.ThreadMove thread a m) :
    Saving before after ⟨{ s.config with mem := m }, s.work⟩ := by
  obtain ⟨ahead, saves, saved, pausing⟩ := saving
  obtain ⟨queue, threads, record, freed, -, -⟩ := move.frame
  refine ⟨ahead, saves, saved.move queue move.sameQueue.idUrl rfl rfl, pausing.aside, ?_, ?_⟩
  · intro w hw
    exact storeAll_defined queue threads (pausing.defined w hw)
  · intro k p r pc work list listed
    have removable := pausing.removable k p r pc work list (threads ▸ listed)
    have key : Config.removeKey { s.config with mem := m } k r = s.config.removeKey k r := by
      cases k with
      | cancel =>
          show (m.record r).handle = _
          rw [record]
          rfl
      | _ =>
          show m.name (m.record r).entry = _
          rw [record, move.name]
          rfl
    have compare : m.downloadThreadCompareId = s.config.mem.downloadThreadCompareId :=
      funext fun id => Mem.compareId_congr freed record move.name
    rw [← compare, ← key] at removable
    exact removable

/-! ### Runs -/

/-- What holds while a request is handled, and after a signal. -/
def Interrupted (before : List (TrxId × CString)) (r : Transaction) (s : Point) : Prop :=
  s.config.pc = .exited ∨ s.config.pc = .crashed ∨ Handling before r s ∨
    Saving before (applied r before) s

theorem signal_step {fopen : Bool} (h : s.step max (.signal fopen) = some t) :
    s.config.Alive ∧ t = ⟨s.config.terminate fopen, none⟩ := by
  obtain ⟨c', stepped, rfl⟩ := Option.map_eq_some_iff.mp h
  simp only [Config.step] at stepped
  split at stepped
  · next enabled =>
    cases stepped
    exact ⟨enabled.2, rfl⟩
  · cases stepped

/-- A signal that comes while the queue can be read. -/
theorem signal_saving {fopen : Bool} (inv : Interrupted before request s)
    (ok : Saveable before s (.signal fopen)) (h : s.step max (.signal fopen) = some t) :
    t.config.pc = .exited ∨ Saving before (applied request before) t := by
  obtain ⟨alive, rfl⟩ := signal_step h
  rcases inv with exited | crashed | handling | saving
  · exact absurd exited alive.1
  · exact absurd crashed alive.2
  · cases hq : s.config.mem.downloadQueue with
    | none =>
        left
        simp [Config.terminate, hq]
    | some list =>
        obtain ⟨items, traversed, holds⟩ := handling.items ok.1 ok.2 hq
        exact terminate_saving traversed holds
  · obtain ⟨ahead, -, saved, -⟩ := saving
    obtain ⟨items, traversed, holds⟩ := saved.items
    exact terminate_saving traversed holds

theorem step_interrupted {a : Action} (inv : Interrupted before request s)
    (ok : Saveable before s a) (h : s.step max a = some t) : Interrupted before request t := by
  cases a with
  | request r response => exact ok.elim
  | signal fopen =>
      rcases signal_saving inv ok h with exited | saving
      · exact Or.inl exited
      · exact Or.inr (Or.inr (Or.inr saving))
  | thread tid a =>
      rcases thread_moves h with crashed | ⟨thread, m, move, rfl⟩
      · exact Or.inr (Or.inl crashed)
      · exact inv.imp_right (Or.imp_right (Or.imp (fun inv => thread_handling inv move)
          fun inv => thread_saving inv move))
  | control o =>
      simp only [Point.step] at h
      split at h
      · next alive =>
        rcases inv with exited | crashed | handling | saving
        · exact absurd exited alive.1
        · exact absurd crashed alive.2
        · exact Or.inr ((control_handling handling h).imp_right Or.inl)
        · exact (control_saving saving ok h).imp_right fun saving => Or.inr (Or.inr saving)
      · cases h

/-! ### The states in which a request is read -/

/-- A signal came. -/
def Signalled (pc : Pc) : Prop := pc = .exited ∨ pc = .crashed ∨ pc.saves ≠ none

/-- The controller loads the index file, handles requests, or was signalled. -/
def Ready (s : Point) : Prop :=
  Signalled s.config.pc ∨ (s.work = none ∧
    (∃ entries, s.config.pc = .load entries ∨ s.config.pc = .loading entries) ∧
    ∃ ps, Queued s.config.mem ps) ∨ ∃ before, Handling before s.config.request s

theorem afterSave_signalled {p : EntryPtr} {rest : List EntryPtr} {ret : Bool}
    (h : c.afterSwitch (.save rest) p ret = some c') : Signalled c'.pc := by
  cases h
  exact Or.inr (Or.inr (by simp [Pc.saves, Pc.traversal]))

theorem saves_signalled {ahead : List EntryPtr} (saves : c.pc.saves = some ahead)
    (kill : ∀ k p r, c.pc ≠ .kill k p r) (h : c.control max o = some c') : Signalled c'.pc := by
  rcases saves_cases saves with pc | ⟨p, rest, rfl, pc | pc | ⟨r, pc⟩ | pc | pc⟩
  · cases ahead with
    | nil =>
        simp only [Config.control, pc] at h
        cases h
        exact Or.inl rfl
    | cons p rest =>
        simp only [Config.control, pc] at h
        split at h <;> cases h <;> exact Or.inr (Or.inr (by simp [Pc.saves, Pc.traversal]))
  · simp only [Config.control, pc] at h
    rcases orCrash_cases h with rfl | h
    · exact Or.inr (Or.inl rfl)
    · exact afterSave_signalled h
  · simp only [Config.control, pc] at h
    rcases orCrash_cases h with rfl | h
    · exact Or.inr (Or.inl rfl)
    · obtain ⟨found, -, h⟩ := Option.bind_eq_some_iff.mp h
      cases found with
      | none => exact afterSave_signalled h
      | some r =>
          cases h
          exact Or.inr (Or.inr (by simp [Pc.saves, Pc.traversal]))
  · exact absurd pc (kill _ _ _)
  · simp only [Config.control, pc] at h
    cases h
    exact Or.inr (Or.inr (by simp [Pc.saves, Pc.traversal]))
  · simp only [Config.control, pc] at h
    rcases orCrash_cases h with rfl | h
    · exact Or.inr (Or.inl rfl)
    · obtain ⟨line, -, rfl⟩ := Option.map_eq_some_iff.mp h
      exact Or.inr (Or.inr (by simp [Pc.saves, Pc.traversal]))

/-- The handler does not go back. -/
theorem control_signalled (working : s.config.pc.saves ≠ none) (h : s.control max o = some t) :
    Signalled t.config.pc := by
  obtain ⟨c, work⟩ := s
  obtain ⟨ahead, saves⟩ : ∃ ahead, c.pc.saves = some ahead := Option.ne_none_iff_exists'.mp working
  have here : Signalled c.pc := Or.inr (Or.inr (by simp [saves]))
  cases work with
  | some w =>
      obtain ⟨stores, ret⟩ := w
      cases stores with
      | nil =>
          simp only [Point.control, Option.some.injEq] at h
          subst h
          rcases saves_cases saves with pc | ⟨p, rest, rfl, pc | pc | ⟨r, pc⟩ | pc | pc⟩ <;>
            simp [Point.finish, pc, Config.orCrash, Config.afterSwitch, Signalled, Pc.saves, Pc.traversal]
      | cons st stores =>
          rcases orCrash_point h with crashed | h
          · exact Or.inr (Or.inl crashed)
          · obtain ⟨m, -, rfl⟩ := Option.map_eq_some_iff.mp h
            exact here
  | none =>
      by_cases kill : ∃ k p r, c.pc = .kill k p r
      · obtain ⟨k, p, r, pc⟩ := kill
        simp only [Point.control, pc] at h
        rcases orCrash_point h with crashed | h
        · exact Or.inr (Or.inl crashed)
        · obtain ⟨work, rfl, -⟩ := beginKill_work h
          exact here
      · simp only [not_exists] at kill
        rw [control_other ?_ ?_ kill ?_] at h
        · obtain ⟨c', stepped, rfl⟩ := Option.map_eq_some_iff.mp h
          exact saves_signalled saves kill stepped
        all_goals
          intros
          rintro pc
          rw [pc] at saves
          cases saves

/-- One entry of the index file is appended. -/
theorem queuePush_queued {ps : List EntryPtr} {node : Bool} {e : Entry} (queued : Queued m ps)
    (h : m.queuePush node e = some m') : Queued m' (ps ++ [m.nextEntry]) := by
  obtain ⟨list, listed, h⟩ := Option.bind_eq_some_iff.mp h
  obtain ⟨list', appended, rfl⟩ := Option.map_eq_some_iff.mp h
  obtain rfl := HeapList.append_malloc appended
  rcases queued.list with ⟨missing, -⟩ | ⟨list'', cells, listed', rep, rfl⟩
  · rw [missing] at listed
    cases listed
  · cases listed.symm.trans listed'
    obtain ⟨list₁, appended', rep'⟩ := rep.append m.nextEntry
    cases appended.symm.trans appended'
    refine ⟨Or.inr ⟨_, _, rfl, rep', by simp⟩, ?_⟩
    intro p hp
    rcases List.mem_append.mp hp with hp | hp
    · exact Nat.lt_succ_of_lt (queued.below p hp)
    · rw [List.mem_singleton.mp hp]
      exact Nat.lt_succ_self _

/-- The load of the index file ends with a queue that is not changed. -/
theorem handling_of_queued {ps : List EntryPtr} (queued : Queued c.mem ps) (calm : Calm c.pc)
    (settled : c.pc.changes = none) : ∃ before, Handling before c.request ⟨c, none⟩ :=
  ⟨ps.map c.mem.idUrl, rfl, by simp [settled], calm,
    .resting (Or.inl ⟨ps, queued, Or.inl rfl⟩) (by simp)⟩

theorem load_ready {ps : List EntryPtr} {es : List Entry} (queued : Queued c.mem ps)
    (pc : c.pc = .load es ∨ c.pc = .loading es) (h : c.control max o = some c') :
    Ready ⟨c', none⟩ := by
  obtain ⟨idle, visit, -, -, -, -, -⟩ := calm_settled
  rcases pc with pc | pc
  · simp only [Config.control, pc] at h
    have queued := queued.same (.queueInit o.queueNew)
    split at h
    · cases h
      exact Or.inr (Or.inr (handling_of_queued queued idle rfl))
    · cases h
      exact Or.inr (Or.inl ⟨rfl, ⟨es, Or.inr rfl⟩, ps, queued⟩)
  · cases es with
    | nil =>
        simp only [Config.control, pc] at h
        rcases orCrash_cases h with rfl | h
        · exact Or.inl (Or.inr (Or.inl rfl))
        · obtain ⟨items, -, rfl⟩ := Option.map_eq_some_iff.mp h
          exact Or.inr (Or.inr (handling_of_queued queued (visit _) rfl))
    | cons e es =>
        simp only [Config.control, pc] at h
        split at h
        · rcases orCrash_cases h with rfl | h
          · exact Or.inl (Or.inr (Or.inl rfl))
          · obtain ⟨m, pushed, rfl⟩ := Option.map_eq_some_iff.mp h
            exact Or.inr (Or.inl ⟨rfl, ⟨es, Or.inr rfl⟩, _, queuePush_queued queued pushed⟩)
        · cases h
          exact Or.inr (Or.inr (handling_of_queued queued idle rfl))

theorem request_handling {r response : Transaction} (inv : Ready s)
    (h : s.step max (.request r response) = some t) :
    Handling (s.config.mem.queue.map s.config.mem.idUrl) r t := by
  obtain ⟨c', stepped, rfl⟩ := Option.map_eq_some_iff.mp h
  simp only [Config.step] at stepped
  split at stepped
  · next idle =>
    cases stepped
    rcases inv with (pc | pc | saves) | ⟨-, ⟨entries, pc | pc⟩, -⟩ | ⟨before, handling⟩
    · rw [idle] at pc
      cases pc
    · rw [idle] at pc
      cases pc
    · rw [idle] at saves
      exact absurd rfl saves
    · rw [idle] at pc
      cases pc
    · rw [idle] at pc
      cases pc
    · obtain ⟨resting, -⟩ := handling.phase.elsewhere (by simp [idle]) (by simp [idle])
      refine ⟨rfl, ?_, ?_, .resting ?_ (by simp)⟩
      · intro command h
        cases hr : r.command <;> simp_all [Command.dispatch, Pc.changes]
      · show Calm r.command.dispatch
        cases r.command <;> exact ⟨rfl, by simp [Command.dispatch], by simp [Pc.Loaded, Command.dispatch]⟩
      · rcases resting with ⟨ps, queued, -⟩ | lost
        · have same : s.config.mem.queue = ps := by
            rcases queued.list with ⟨missing, rfl⟩ | ⟨list, cells, listed, rep, rfl⟩
            · simp [Mem.queue, Mem.contents, missing]
            · simp [Mem.queue, Mem.contents, listed, ListApi.toList, rep.items]
          exact Or.inl ⟨ps, queued, Or.inl (by rw [same])⟩
        · exact Or.inr lost
  · cases stepped

theorem terminate_signalled (fopen : Bool) : Signalled (c.terminate fopen).pc := by
  unfold Config.terminate
  split
  · exact Or.inl rfl
  · split
    · cases c.mem.queueItems with
      | none => exact Or.inr (Or.inl rfl)
      | some items => exact Or.inr (Or.inr (by simp [Config.orCrash, Pc.saves, Pc.traversal]))
    · exact Or.inl rfl

theorem step_ready {a : Action} (inv : Ready s) (h : s.step max a = some t) : Ready t := by
  cases a with
  | request r response =>
      have handling := request_handling inv h
      rw [← handling.request] at handling
      exact Or.inr (Or.inr ⟨_, handling⟩)
  | signal fopen =>
      obtain ⟨-, rfl⟩ := signal_step h
      exact Or.inl (terminate_signalled fopen)
  | thread tid a =>
      rcases thread_moves h with crashed | ⟨thread, m, move, rfl⟩
      · exact Or.inl (Or.inr (Or.inl crashed))
      · rcases inv with signalled | ⟨work, loading, ps, queued⟩ | ⟨before, handling⟩
        · exact Or.inl signalled
        · exact Or.inr (Or.inl ⟨work, loading, ps, queued.same move.sameQueue⟩)
        · exact Or.inr (Or.inr ⟨before, thread_handling handling move⟩)
  | control o =>
      simp only [Point.step] at h
      split at h
      · next alive =>
        rcases inv with (exited | crashed | saves) | ⟨work, ⟨entries, pc⟩, ps, queued⟩ | ⟨before, handling⟩
        · exact absurd exited alive.1
        · exact absurd crashed alive.2
        · exact Or.inl (control_signalled saves h)
        · obtain ⟨c, work'⟩ := s
          cases work
          rw [control_other] at h
          · obtain ⟨c', stepped, rfl⟩ := Option.map_eq_some_iff.mp h
            exact load_ready queued pc stepped
          all_goals
            intros
            rintro pc'
            rcases pc with pc | pc <;> cases pc.symm.trans pc'
        · rcases control_handling handling h with crashed | handling
          · exact Or.inl (Or.inr (Or.inl crashed))
          · refine Or.inr (Or.inr ⟨before, ?_⟩)
            rw [handling.request]
            exact handling
      · cases h

theorem ready_of_reachable {entries : List Entry} (reached : (interruptible max).Reachable
    ⟨boot HeapList entries, none⟩ s) : Ready s := by
  refine reached.invariant ?_ fun _ _ _ inv _ step => step_ready inv step
  refine Or.inr (Or.inl ⟨rfl, ⟨entries, Or.inl rfl⟩, [], Or.inl ⟨rfl, rfl⟩, by simp⟩)

/-- Wherever a termination signal comes while a request is handled, `queue_save` writes the
entries of the queue before the request or those after it, with their ids and URLs, as long as
the queue can be read when the signal comes, each entry that is met can be paused, and each that
is written has the name of its URL for an id. -/
theorem interrupted_saves {entries : List Entry} {s₀ s₁ s : Point} {r response : Transaction}
    (reached : (interruptible max).Reachable ⟨boot HeapList entries, none⟩ s₀)
    (asked : (interruptible max).step s₀ (.request r response) = some s₁)
    (run : (interruptible max).Run (Saveable (s₀.config.mem.queue.map s₀.config.mem.idUrl)) s₁ s) :
    SavesEither max (Saveable (s₀.config.mem.queue.map s₀.config.mem.idUrl))
      (s₀.config.mem.queue.map s₀.config.mem.idUrl)
      (applied r (s₀.config.mem.queue.map s₀.config.mem.idUrl)) s := by
  have start := request_handling (ready_of_reachable reached) asked
  generalize s₀.config.mem.queue.map s₀.config.mem.idUrl = before at run start ⊢
  have inv : Interrupted before r s :=
    run.invariant (Or.inr (Or.inr (Or.inl start))) fun _ _ _ inv ok step => step_interrupted inv ok step
  have saving : ∀ ahead, s.config.pc.saves = some ahead → Saved before (applied r before) ahead s.config := by
    intro ahead saves
    rcases inv with exited | crashed | handling | ⟨ahead', saves', saved, -⟩
    · rw [exited] at saves
      cases saves
    · rw [crashed] at saves
      cases saves
    · rw [handling.calm.saves] at saves
      cases saves
    · cases saves.symm.trans saves'
      exact saved
  refine ⟨fun ahead saves => (saving ahead saves).entries, ?_, ?_⟩
  · intro saves
    obtain ⟨ahead, saves⟩ := Option.ne_none_iff_exists'.mp saves
    exact (saving ahead saves).written
  · intro a t handles ok step
    have alive : t.config.pc = .exited ∨ Saving before (applied r before) t := by
      cases a with
      | signal fopen => exact signal_saving inv ok step
      | control o =>
          rcases inv with exited | crashed | handling | saving
          · exact absurd (by rw [exited]; rfl) handles
          · exact absurd (by rw [crashed]; rfl) handles
          · exact absurd handling.calm.saves handles
          · simp only [interruptible, Point.step] at step
            split at step
            · exact control_saving saving ok step
            · cases step
      | thread tid a => exact handles.elim
      | request r response => exact handles.elim
    intro crashed
    rcases alive with exited | ⟨ahead, saves, -⟩
    · rw [crashed] at exited
      cases exited
    · rw [crashed] at saves
      cases saves

/-- `b` is cancelled while `a` is loaded. The signal comes before the `free` of the node,
and `queue_save` pauses `a` and writes it. -/
theorem interrupted_saves_run : ∃ s₀ s₁ s : Point,
    (s.config.pc = .saving [] ∧ s.config.reported = [0] ∧
      s₀.config.mem.queue.map s₀.config.mem.idUrl =
        [(⟨['a']⟩, ['x', '/', 'a']), (⟨['b']⟩, ['x', '/', 'b'])]) ∧
    (interruptible 1).step s₀ (.request (order .cancel ['b']) .zero) = some s₁ ∧
    SavesEither 1 (Saveable (s₀.config.mem.queue.map s₀.config.mem.idUrl))
      (s₀.config.mem.queue.map s₀.config.mem.idUrl)
      (applied (order .cancel ['b']) (s₀.config.mem.queue.map s₀.config.mem.idUrl)) s := by
  obtain ⟨s₀, reached, queue, continues⟩ := Machine.exists_run_of_exec (interruptible 1)
    (fun _ _ => True) ⟨boot HeapList [], none⟩ twoDownloads
    (fun s₀ => s₀.config.mem.queue.map s₀.config.mem.idUrl =
        [(⟨['a']⟩, ['x', '/', 'a']), (⟨['b']⟩, ['x', '/', 'b'])] ∧
      ((interruptible 1).step s₀ (.request (order .cancel ['b']) .zero)).any (fun s₁ =>
        ((interruptible 1).exec (Saveable (s₀.config.mem.queue.map s₀.config.mem.idUrl))
          (List.replicate 7 (.control {}) ++ .signal true :: List.replicate 11 (.control {})) s₁).any
            fun s => decide (s.config.pc = .saving [] ∧ s.config.reported = [0])) = true)
    (by decide)
  obtain ⟨s₁, asked, continues⟩ := (Option.any_eq_true _ _).mp continues
  obtain ⟨s, run, saved⟩ := Machine.exists_run_of_exec (interruptible 1) _ s₁ _
    (fun s => s.config.pc = .saving [] ∧ s.config.reported = [0]) continues
  exact ⟨s₀, s₁, s, ⟨saved.1, saved.2, queue⟩, asked, interrupted_saves reached asked run⟩

/-- `a` is cancelled. Once its `next` is `NULL`, a traversal from the root sees `a` alone. -/
theorem cut_off : ¬ ∀ (max : Nat) (entries : List Entry) (s₀ s₁ s : Point) (r response : Transaction),
    (interruptible max).Reachable ⟨boot HeapList entries, none⟩ s₀ →
    (interruptible max).step s₀ (.request r response) = some s₁ →
    (interruptible max).Run (fun _ a => a.Unasked) s₁ s →
    SavesEither max (fun _ _ => True) (s₀.config.mem.queue.map s₀.config.mem.idUrl)
      (applied r (s₀.config.mem.queue.map s₀.config.mem.idUrl)) s := by
  intro all
  obtain ⟨s₀, reached, queue, continues⟩ := Machine.exists_run_of_exec (interruptible 1)
    (fun _ _ => True) ⟨boot HeapList [], none⟩ twoDownloads
    (fun s₀ => s₀.config.mem.queue.map s₀.config.mem.idUrl =
        [(⟨['a']⟩, ['x', '/', 'a']), (⟨['b']⟩, ['x', '/', 'b'])] ∧
      ((interruptible 1).step s₀ (.request (order .cancel ['a']) .zero)).any (fun s₁ =>
        ((interruptible 1).exec (fun _ a => a.Unasked)
          (List.replicate 10 (.control {}) ++ [.signal true]) s₁).any
            fun s => decide (s.config.pc.saves = some [0] ∧
              ([0].map s.config.mem.idUrl = [(⟨['a']⟩, ['x', '/', 'a'])] ∧ s.config.reported = []))) = true)
    (by decide)
  obtain ⟨s₁, asked, continues⟩ := (Option.any_eq_true _ _).mp continues
  obtain ⟨s, run, saves, alone, reported⟩ := Machine.exists_run_of_exec (interruptible 1) _ s₁ _
    (fun s => s.config.pc.saves = some [0] ∧
      ([0].map s.config.mem.idUrl = [(⟨['a']⟩, ['x', '/', 'a'])] ∧ s.config.reported = [])) continues
  have entries := (all 1 [] s₀ s₁ s _ .zero reached asked run).entries [0] saves
  rw [reported, List.nil_append, alone, queue] at entries
  revert entries
  decide

end

end Dserve
