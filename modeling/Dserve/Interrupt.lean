import Dserve.Retention
import Dserve.Stores

/-!
A termination signal between two stores of a request.

`interruptible` is the controller, store by store: where a step of `controller` changes
one of the two lists, a `Point` has the stores of it that are still to be made, and a
signal or the step of a thread can come before each of them. Without a signal it does
what the controller does (`interruptible_run`). The signal is taken by the thread that
works on the request.
-/

namespace Dserve

/-- A store of the controller to one of its lists, or the `free` of a thread record. -/
inductive Store where
  | queue (s : ListStore EntryPtr)
  | threads (s : ListStore (Option RecordPtr))
  | release (r : RecordPtr)
deriving DecidableEq

/-- The stores a function has still to make, and what it returns. -/
structure Work where
  stores : List Store
  ret : Bool
deriving DecidableEq

/-- The controller between two stores. -/
structure Point where
  config : Config HeapList
  work : Option Work

def Mem.store (m : Mem HeapList) : Store → Option (Mem HeapList)
  | .queue s => m.downloadQueue.bind fun list => (s.exec list).map fun list =>
      { m with downloadQueue := some list }
  | .threads s => m.threadList.bind fun list => (s.exec list).map fun list =>
      { m with threadList := some list }
  | .release r => some { m with freed := Function.update m.freed r true }

def Mem.storeAll : List Store → Mem HeapList → Option (Mem HeapList)
  | [], m => some m
  | s :: stores, m => (m.store s).bind (storeAll stores)

namespace Point

/-- `queue_add_container` up to its `list_append`. The queue is made in a step of its
own. Nothing points to the new entry before it is in the list. -/
def beginAdd (o : Outcome) (c : Config HeapList) : Option Point :=
  match c.mem.downloadQueue with
  | none =>
      if o.queueNew then some ⟨{ c with mem := c.mem.queueInit true }, none⟩
      else
        some ⟨{ c with
          response := reply c.request .failure "Not enough memory to create a download queue".toList
          pc := .respond }, none⟩
  | some list =>
      (c.mem.queueEntryExists o.result c.request.id.name).bind fun entryExists =>
        if entryExists then
          some ⟨{ c with
            response := reply c.request .failure
              ("File ".toList ++ c.request.id.name ++ " already exists in the queue".toList)
            pc := .respond }, none⟩
        else if o.entryNew then
          (entrySetTarget o.overrun entryNew c.request).bind fun entry =>
            (list.appendStores o.node c.mem.nextEntry).map fun stores =>
              ⟨{ c with
                mem := { c.mem with
                  entry := Function.update c.mem.entry c.mem.nextEntry entry
                  nextEntry := c.mem.nextEntry + 1 }
                response := reply c.request .success
                  "Successfully added the file to the download queue".toList },
              some ⟨stores.map .queue, true⟩⟩
        else
          some ⟨{ c with
            response := reply c.request .failure
              "Not enough memory to create a new download entry".toList
            pc := .respond }, none⟩

/-- `download_start` up to its `list_append`. The thread list is made in a step of its
own; the thread runs from here on. -/
def beginStart (o : Outcome) (c : Config HeapList) (p : EntryPtr) (rest : List EntryPtr) :
    Option Point :=
  match c.mem.threadList with
  | none =>
      if o.start.listNew then
        some ⟨{ c with mem := { c.mem with threadList := some ListApi.new } }, none⟩
      else some ⟨{ c with pc := .mark p rest }, none⟩
  | some list =>
      let started := c.mem.newDownloadThread p o.start
      (list.appendStores o.start.node started.2).map fun stores =>
        ⟨{ c with mem := started.1 }, some ⟨stores.map .threads, true⟩⟩

/-- `download_pause` and `download_cancel` after the entry was marked: `pthread_cancel`,
and the search for the record that is taken out. -/
def beginKill (c : Config HeapList) (k : Task) (r : RecordPtr) : Option Point :=
  let m := c.mem.endThread (c.mem.record r).thread
  match m.threadList with
  | none => some ⟨{ c with mem := m }, some ⟨[.release r], false⟩⟩
  | some list =>
      (list.removeStores (m.downloadThreadCompareId (c.removeKey k r))).map fun removed =>
        ⟨{ c with mem := m }, some ⟨removed.2.map .threads ++ [.release r], removed.1⟩⟩

/-- The `list_remove_item` of `queue_cancel`. -/
def beginUnlink (c : Config HeapList) : Option Point :=
  match c.mem.downloadQueue with
  | none => some ⟨c, some ⟨[], false⟩⟩
  | some list =>
      (list.removeStores fun p => some (decide (c.mem.name p = c.request.id.name))).map
        fun removed => ⟨c, some ⟨removed.2.map .queue, removed.1⟩⟩

/-- What follows the last store. -/
def finish (c : Config HeapList) (ret : Bool) : Option (Config HeapList) :=
  match c.pc with
  | .add => c.visitAll
  | .start p rest => some { c with pc := .mark p rest }
  | .kill k p _ => c.afterSwitch k p ret
  | .unlink _ => some { c with response := cancelReply c.request ret, pc := .respond }
  | _ => some c

def orCrash (c : Config HeapList) (result : Option Point) : Point := result.getD ⟨c.crash, none⟩

/-- One step of the controller itself. -/
def control (max : Nat) (o : Outcome) (s : Point) : Option Point :=
  match s.work with
  | some ⟨store :: stores, ret⟩ =>
      some <| orCrash s.config <| (s.config.mem.store store).map fun m =>
        ⟨{ s.config with mem := m }, some ⟨stores, ret⟩⟩
  | some ⟨[], ret⟩ => some ⟨s.config.orCrash (finish s.config ret), none⟩
  | none =>
      match s.config.pc with
      | .add => if o.locks then some (orCrash s.config (beginAdd o s.config)) else none
      | .start p rest => some (orCrash s.config (beginStart o s.config p rest))
      | .kill k _ r => some (orCrash s.config (beginKill s.config k r))
      | .unlink _ => some (orCrash s.config (beginUnlink s.config))
      | _ => (s.config.control max o).map fun c => ⟨c, none⟩

/-- One step of the process. The handler does not go back to what it interrupts. -/
def step (max : Nat) (s : Point) : Action → Option Point
  | .control o => if s.config.Alive then s.control max o else none
  | .thread tid a => (s.config.step max (.thread tid a)).map fun c => ⟨c, s.work⟩
  | .request r response => (s.config.step max (.request r response)).map fun c => ⟨c, none⟩
  | .signal fopen => (s.config.step max (.signal fopen)).map fun c => ⟨c, none⟩

end Point

/-- The controller that can be interrupted between two stores. -/
def interruptible (max : Nat) : Machine Point Action := ⟨Point.step max⟩

/-! ### Without a signal -/

namespace Mem

variable {m : Mem HeapList}

theorem storeAll_append {stores stores' : List Store} :
    m.storeAll (stores ++ stores') = (m.storeAll stores).bind (storeAll stores') := by
  induction stores generalizing m with
  | nil => rfl
  | cons s stores ih =>
      simp only [List.cons_append, storeAll, Option.bind_assoc]
      exact Option.bind_congr fun m _ => ih

theorem storeAll_queue {list : HeapList EntryPtr} {stores : List (ListStore EntryPtr)}
    (h : m.downloadQueue = some list) : m.storeAll (stores.map .queue) =
      (ListStore.execAll stores list).map fun list => { m with downloadQueue := some list } := by
  induction stores generalizing m list with
  | nil =>
      cases m
      cases h
      rfl
  | cons s stores ih =>
      simp only [List.map_cons, storeAll, store, h, Option.bind_some, ListStore.execAll]
      cases s.exec list with
      | none => rfl
      | some list => exact ih rfl

theorem storeAll_threads {list : HeapList (Option RecordPtr)}
    {stores : List (ListStore (Option RecordPtr))} (h : m.threadList = some list) :
    m.storeAll (stores.map .threads) =
      (ListStore.execAll stores list).map fun list => { m with threadList := some list } := by
  induction stores generalizing m list with
  | nil =>
      cases m
      cases h
      rfl
  | cons s stores ih =>
      simp only [List.map_cons, storeAll, store, h, Option.bind_some, ListStore.execAll]
      cases s.exec list with
      | none => rfl
      | some list => exact ih rfl

end Mem

section

variable {max : Nat} {c c' : Config HeapList} {o : Outcome} {m : Mem HeapList}

theorem control_alive (h : c.control max o = some c') : c.Alive := by
  constructor
  · intro pc
    simp [Config.control, pc] at h
  · intro pc
    simp [Config.control, pc] at h

theorem single_step {s t : Point} (alive : s.config.Alive) (h : s.control max o = some t) :
    (interruptible max).Reachable s t := by
  refine Machine.Run.refl.tail (a := .control o) trivial ?_
  show Point.step max s (.control o) = some t
  rw [Point.step, if_pos alive, h]

/-- The stores of a function, one after the other. -/
theorem stores_run {stores : List Store} {ret : Bool} (alive : c.Alive)
    (h : c.mem.storeAll stores = some m) : (interruptible max).Reachable ⟨c, some ⟨stores, ret⟩⟩
      ⟨{ c with mem := m }, some ⟨[], ret⟩⟩ := by
  induction stores generalizing c with
  | nil =>
      cases h
      exact .refl
  | cons s stores ih =>
      obtain ⟨m₁, stored, h⟩ := Option.bind_eq_some_iff.mp h
      have first : (interruptible max).Reachable ⟨c, some ⟨s :: stores, ret⟩⟩
          ⟨{ c with mem := m₁ }, some ⟨stores, ret⟩⟩ := by
        refine single_step (o := {}) alive ?_
        simp [Point.control, Point.orCrash, stored]
      exact first.trans (ih (c := { c with mem := m₁ }) alive h)

/-- A function: it begins, makes its stores, and the controller goes on. -/
theorem work_run (c₁ : Config HeapList) (stores : List Store) (ret : Bool) (alive : c.Alive)
    (alive₁ : c₁.Alive) (begun : Point.control max o ⟨c, none⟩ = some ⟨c₁, some ⟨stores, ret⟩⟩)
    (made : c₁.mem.storeAll stores = some m)
    (h : Point.finish { c₁ with mem := m } ret = some c') :
    (interruptible max).Reachable ⟨c, none⟩ ⟨c', none⟩ := by
  have first := single_step (s := ⟨c, none⟩) alive begun
  refine (first.trans (stores_run alive₁ made)).trans ?_
  refine single_step (o := {}) alive₁ ?_
  simp [Point.control, Config.orCrash, h]

/-- `queue_add_container` when there is a queue. -/
theorem addListed_run {list : HeapList EntryPtr} (alive : c.Alive) (pc : c.pc = .add)
    (locks : o.locks = true) (hq : c.mem.downloadQueue = some list)
    (h : ((c.mem.queueAppend o c.request).bind fun r =>
      let c := { c with mem := r.1, response := r.2.1 }
      if r.2.2 then c.visitAll else some { c with pc := .respond }) = some c') :
    (interruptible max).Reachable ⟨c, none⟩ ⟨c', none⟩ := by
  obtain ⟨⟨m, response, added⟩, appended, h⟩ := Option.bind_eq_some_iff.mp h
  have init : c.mem.queueInit o.queueNew = c.mem := by simp [Mem.queueInit, hq]
  simp only [Mem.queueAppend, init, hq] at appended
  obtain ⟨entryExists, looked, appended⟩ := Option.bind_eq_some_iff.mp appended
  cases entryExists with
  | true =>
      cases appended
      cases h
      refine single_step (s := ⟨c, none⟩) (o := o) alive ?_
      simp only [Point.control, pc, locks, Point.beginAdd, hq, looked, Option.bind_some, if_true,
        Point.orCrash, Option.getD_some]
  | false =>
      rw [if_neg (by simp)] at appended
      cases hentry : o.entryNew with
      | false =>
          rw [hentry, if_neg (by simp)] at appended
          cases appended
          cases h
          refine single_step (s := ⟨c, none⟩) (o := o) alive ?_
          simp only [Point.control, pc, locks, if_true, Point.beginAdd, hq, looked, Option.bind_some,
            Bool.false_eq_true, if_false, hentry, Point.orCrash, Option.getD_some]
      | true =>
          rw [hentry, if_pos rfl] at appended
          obtain ⟨entry, target, appended⟩ := Option.bind_eq_some_iff.mp appended
          obtain ⟨m', pushed, eq⟩ := Option.map_eq_some_iff.mp appended
          cases eq
          simp only [Mem.queuePush, hq, Option.bind_some] at pushed
          obtain ⟨list', linked, rfl⟩ := Option.map_eq_some_iff.mp pushed
          obtain ⟨stores, begun, made⟩ :=
            Option.bind_eq_some_iff.mp ((HeapList.append_stores _ _).symm.trans linked)
          let filled : Mem HeapList := { c.mem with
            entry := Function.update c.mem.entry c.mem.nextEntry entry
            nextEntry := c.mem.nextEntry + 1 }
          let begunAt : Config HeapList := { c with
            mem := filled
            response := reply c.request .success
              "Successfully added the file to the download queue".toList }
          refine work_run (o := o) (m := { filled with downloadQueue := some list' }) begunAt
            (stores.map .queue) true alive alive ?_ ?_ ?_
          · simp only [Point.control, pc, locks, Point.beginAdd, hq, looked, Option.bind_some,
              Bool.false_eq_true, if_false, hentry, if_true, target, begun, Option.map_some,
              Point.orCrash, Option.getD_some, begunAt, filled]
          · rw [Mem.storeAll_queue (m := filled) hq, made]
            rfl
          · rw [Point.finish, pc]
            exact h

theorem add_run (alive : c.Alive) (pc : c.pc = .add) (h : c.control max o = some c')
    (alive' : c'.pc ≠ .crashed) : (interruptible max).Reachable ⟨c, none⟩ ⟨c', none⟩ := by
  obtain ⟨locks, h⟩ := Config.control_add pc h
  rcases orCrash_cases h with rfl | h
  · exact absurd rfl alive'
  · cases hq : c.mem.downloadQueue with
    | some list => exact addListed_run alive pc locks hq h
    | none =>
        cases hnew : o.queueNew with
        | true =>
            -- the queue is made first
            have made : (interruptible max).Reachable ⟨c, none⟩
                ⟨{ c with mem := c.mem.queueInit true }, none⟩ := by
              refine single_step (s := ⟨c, none⟩) (o := o) alive ?_
              simp only [Point.control, pc, locks, Point.beginAdd, hq, hnew, if_true, Point.orCrash,
                Option.getD_some]
            have listed : (c.mem.queueInit true).downloadQueue = some ListApi.new := by
              simp [Mem.queueInit, hq]
            refine made.trans (addListed_run (o := o) (c := { c with mem := c.mem.queueInit true })
              alive pc locks listed ?_)
            have twice : (c.mem.queueInit true).queueInit o.queueNew = c.mem.queueInit o.queueNew := by
              simp [Mem.queueInit, hq, hnew]
            simp only [Mem.queueAppend, twice]
            exact h
        | false =>
            have init : c.mem.queueInit false = c.mem := by simp [Mem.queueInit, hq]
            simp only [Mem.queueAppend, hnew, init, hq, Option.bind_some] at h
            cases h
            refine single_step (s := ⟨c, none⟩) (o := o) alive ?_
            simp only [Point.control, pc, locks, if_true, Point.beginAdd, hq, hnew, Bool.false_eq_true,
              if_false, Point.orCrash, Option.getD_some]

/-- `download_start` when there is a thread list. -/
theorem startListed_run {p : EntryPtr} {rest : List EntryPtr} {list : HeapList (Option RecordPtr)}
    (alive : c.Alive) (pc : c.pc = .start p rest) (hl : c.mem.threadList = some list)
    (begun : c.mem.downloadStart p o.start = some m) :
    (interruptible max).Reachable ⟨c, none⟩ ⟨{ c with mem := m, pc := .mark p rest }, none⟩ := by
  have there : (some list <|> (if o.start.listNew then some ListApi.new else none)) = some list := rfl
  simp only [Mem.downloadStart, hl, there] at begun
  obtain ⟨list', linked, rfl⟩ := Option.map_eq_some_iff.mp begun
  obtain ⟨stores, begun, made⟩ :=
    Option.bind_eq_some_iff.mp ((HeapList.append_stores _ _).symm.trans linked)
  have kept : (c.mem.newDownloadThread p o.start).1.threadList = some list := by
    rw [← hl]
    unfold Mem.newDownloadThread
    split
    · split <;> rfl
    · rfl
  refine work_run (o := o) (m := { (c.mem.newDownloadThread p o.start).1 with
      threadList := some list' }) { c with mem := (c.mem.newDownloadThread p o.start).1 }
    (stores.map .threads) true alive alive ?_ ?_ ?_
  · simp [Point.control, pc, Point.beginStart, hl, begun, Point.orCrash]
  · rw [Mem.storeAll_threads kept, made]
    rfl
  · simp [Point.finish, pc]

theorem start_run {p : EntryPtr} {rest : List EntryPtr} (alive : c.Alive) (pc : c.pc = .start p rest)
    (h : c.control max o = some c') (alive' : c'.pc ≠ .crashed) :
    (interruptible max).Reachable ⟨c, none⟩ ⟨c', none⟩ := by
  simp only [Config.control, pc] at h
  rcases orCrash_cases h with rfl | h
  · exact absurd rfl alive'
  · obtain ⟨m, begun, rfl⟩ := Option.map_eq_some_iff.mp h
    cases hl : c.mem.threadList with
    | some list => exact startListed_run alive pc hl begun
    | none =>
        cases hnew : o.start.listNew with
        | true =>
            have made : (interruptible max).Reachable ⟨c, none⟩
                ⟨{ c with mem := { c.mem with threadList := some ListApi.new } }, none⟩ := by
              refine single_step (s := ⟨c, none⟩) (o := o) alive ?_
              simp [Point.control, pc, Point.beginStart, hl, hnew, Point.orCrash]
            let made' : Config HeapList :=
              { c with mem := { c.mem with threadList := some ListApi.new } }
            have listed : made'.mem.threadList = some ListApi.new := rfl
            refine made.trans (startListed_run (o := o) (c := made') alive pc listed ?_)
            rw [← begun]
            simp only [Mem.downloadStart, hl, hnew]
            unfold Mem.newDownloadThread
            cases o.start.record with
            | false => rfl
            | true => cases o.start.create <;> rfl
        | false =>
            simp only [Mem.downloadStart, hl, hnew] at begun
            cases begun
            refine single_step (s := ⟨c, none⟩) (o := o) alive ?_
            simp [Point.control, pc, Point.beginStart, hl, hnew, Point.orCrash]

theorem kill_run {k : Task} {p : EntryPtr} {r : RecordPtr} (alive : c.Alive) (pc : c.pc = .kill k p r)
    (h : c.control max o = some c') (alive' : c'.pc ≠ .crashed) :
    (interruptible max).Reachable ⟨c, none⟩ ⟨c', none⟩ := by
  simp only [Config.control, pc] at h
  rcases orCrash_cases h with rfl | h
  · exact absurd rfl alive'
  · obtain ⟨⟨ret, m⟩, finished, h⟩ := Option.bind_eq_some_iff.mp h
    obtain ⟨⟨ret', m'⟩, removed, eq⟩ := Option.map_eq_some_iff.mp finished
    cases eq
    unfold Mem.removeRecord at removed
    cases hl : c.mem.threadList with
    | none =>
        have missing : (c.mem.endThread (c.mem.record r).thread).threadList = none := hl
        simp only [missing, Option.some.injEq, Prod.mk.injEq] at removed
        obtain ⟨rfl, rfl⟩ := removed
        refine work_run (o := o) { c with mem := c.mem.endThread (c.mem.record r).thread }
          [.release r] false alive alive ?_ rfl ?_
        · simp [Point.control, pc, Point.orCrash, Point.beginKill, missing]
        · rw [Point.finish, pc]
          exact h
    | some list =>
        have listed : (c.mem.endThread (c.mem.record r).thread).threadList = some list := hl
        simp only [listed, HeapList.removeItem_stores] at removed
        obtain ⟨⟨ret₁, list₁⟩, taken, eq⟩ := Option.map_eq_some_iff.mp removed
        cases eq
        obtain ⟨⟨ret₂, stores⟩, begun, made⟩ := Option.bind_eq_some_iff.mp taken
        obtain ⟨list₂, made, eq⟩ := Option.map_eq_some_iff.mp made
        cases eq
        refine work_run (o := o) (m := { c.mem.endThread (c.mem.record r).thread with
            threadList := some list₁, freed := Function.update c.mem.freed r true })
          { c with mem := c.mem.endThread (c.mem.record r).thread }
          (stores.map .threads ++ [.release r]) ret₂ alive alive ?_ ?_ ?_
        · simp [Point.control, pc, Point.orCrash, Point.beginKill, listed, begun]
        · rw [Mem.storeAll_append, Mem.storeAll_threads listed, made]
          rfl
        · rw [Point.finish, pc]
          exact h

theorem unlink_run {p : EntryPtr} (alive : c.Alive) (pc : c.pc = .unlink p)
    (h : c.control max o = some c') (alive' : c'.pc ≠ .crashed) :
    (interruptible max).Reachable ⟨c, none⟩ ⟨c', none⟩ := by
  simp only [Config.control, pc] at h
  rcases orCrash_cases h with rfl | h
  · exact absurd rfl alive'
  · obtain ⟨⟨ret, m⟩, removed, rfl⟩ := Option.map_eq_some_iff.mp h
    unfold Mem.removeEntry at removed
    cases hq : c.mem.downloadQueue with
    | none =>
        simp only [hq, Option.some.injEq, Prod.mk.injEq] at removed
        obtain ⟨rfl, rfl⟩ := removed
        refine work_run (o := o) c [] false alive alive ?_ rfl ?_
        · simp [Point.control, pc, Point.orCrash, Point.beginUnlink, hq]
        · simp [Point.finish, pc]
    | some list =>
        simp only [hq, HeapList.removeItem_stores] at removed
        obtain ⟨⟨ret₁, list₁⟩, taken, eq⟩ := Option.map_eq_some_iff.mp removed
        cases eq
        obtain ⟨⟨ret₂, stores⟩, begun, made⟩ := Option.bind_eq_some_iff.mp taken
        obtain ⟨list₂, made, eq⟩ := Option.map_eq_some_iff.mp made
        cases eq
        refine work_run (o := o) (m := { c.mem with downloadQueue := some list₁ }) c
          (stores.map .queue) ret₂ alive alive ?_ ?_ ?_
        · simp [Point.control, pc, Point.orCrash, Point.beginUnlink, hq, begun]
        · rw [Mem.storeAll_queue hq, made]
          rfl
        · simp [Point.finish, pc]

/-- Each step of the controller is a run of the interruptible one. -/
theorem interruptible_step {a : Action} (h : c.step max a = some c') (alive' : c'.pc ≠ .crashed) :
    (interruptible max).Reachable ⟨c, none⟩ ⟨c', none⟩ := by
  cases a with
  | control o =>
      have alive : c.Alive := control_alive (show c.control max o = some c' from h)
      cases pc : c.pc with
      | add => exact add_run alive pc h alive'
      | start p rest => exact start_run alive pc h alive'
      | kill k p r => exact kill_run alive pc h alive'
      | unlink p => exact unlink_run alive pc h alive'
      | _ =>
          refine single_step (s := ⟨c, none⟩) (o := o) alive ?_
          simp only [Point.control, pc]
          rw [show c.control max o = some c' from h]
          rfl
  | thread tid a =>
      refine Machine.Run.refl.tail (a := .thread tid a) trivial ?_
      show Point.step max ⟨c, none⟩ (.thread tid a) = _
      rw [Point.step, h]
      rfl
  | request r response =>
      refine Machine.Run.refl.tail (a := .request r response) trivial ?_
      show Point.step max ⟨c, none⟩ (.request r response) = _
      rw [Point.step, h]
      rfl
  | signal fopen =>
      refine Machine.Run.refl.tail (a := .signal fopen) trivial ?_
      show Point.step max ⟨c, none⟩ (.signal fopen) = _
      rw [Point.step, h]
      rfl

theorem step_alive {a : Action} (h : c.step max a = some c') : c.pc ≠ .crashed := by
  intro pc
  cases a <;> simp [Config.step, Config.control, Config.Alive, pc] at h

/-- Each run of the controller is one of the interruptible one. -/
theorem interruptible_run (run : (controller HeapList max).Reachable c c') (alive : c'.pc ≠ .crashed) :
    (interruptible max).Reachable ⟨c, none⟩ ⟨c', none⟩ := by
  induction run with
  | refl => exact .refl
  | tail _ _ step ih => exact (ih (step_alive step)).trans (interruptible_step step alive)

end

end Dserve
