import Dserve.Lib.Machine
import Dserve.Queue

/-!
`controller.c`: the process that owns the queue, as a machine.

The controller reads a request, works on it in steps, and sends the reply. A step
is what it does between two accesses the download threads can see: the reading of
a status, the counting of the `STARTED` entries, the creation of a thread, the
writing of a status, `pthread_cancel`. The threads take their own steps in
between, and once the handler is installed a signal can end any of this with
`queue_save`. Undefined behaviour ends the run in `crashed`. `pthread_mutex_lock` need not return
on the mutex of `queue_add`; the controller then takes no more steps.

The machine is generic in the lists. Its abstract view has plain sequences for
them (`View`), and `Move` lists what one step of the controller does to the view.
`step_view` is the simulation: whatever lawful lists the controller runs on, each
step of it is a step of the view. The invariants of the following modules are
proved about the view.
-/

namespace Dserve

/-- What the treatment of a status is part of. -/
inductive Task where
  | pause
  | cancel
  | restart
  | save (rest : List EntryPtr)
deriving DecidableEq, Repr

/-- Where the controller is. -/
inductive Pc where
  /-- before `queue_load`, and in its loop: the entries the file still has -/
  | load (entries : List Entry)
  | loading (entries : List Entry)
  /-- waiting for a request -/
  | idle
  | add
  /-- `queue_update`, in its `list_for_each`: before the status is read, before the
  entries are counted, before `download_start`, before `STARTING` is written -/
  | visit (rest : List EntryPtr)
  | count (p : EntryPtr) (rest : List EntryPtr)
  | start (p : EntryPtr) (rest : List EntryPtr)
  | mark (p : EntryPtr) (rest : List EntryPtr)
  | status
  | report (rest : List EntryPtr)
  /-- before `list_get_item` and the `switch` of a request -/
  | lookup (k : Task)
  | assign (k : Task) (p : EntryPtr)
  /-- `download_pause` and `download_cancel`: before `PAUSED` is written, before
  `pthread_cancel` -/
  | stop (k : Task) (p : EntryPtr)
  | kill (k : Task) (p : EntryPtr) (r : RecordPtr)
  | unlink (p : EntryPtr)
  /-- `queue_data_save`, in its `list_for_each`: before the status is read, before
  `WAITING` is written, before the line is -/
  | saving (rest : List EntryPtr)
  | reset (p : EntryPtr) (rest : List EntryPtr)
  | write (p : EntryPtr) (rest : List EntryPtr)
  /-- before `send_to_server` -/
  | respond
  | exited
  | crashed
deriving DecidableEq

/-- The controller process and the files it writes. `sent` are the replies put on the
output queue, `index` is the text of the index file. `reported` are the entries the
current `STATUS` or `queue_save` has dealt with. -/
structure Config (L : Type → Type) where
  mem : Mem L
  pc : Pc
  request : Transaction
  response : Transaction
  sent : List Transaction
  reported : List EntryPtr
  index : CString
  installed : Bool

inductive Action where
  /-- `read_from_server` returns a request; `response` is not initialised -/
  | request (r response : Transaction)
  | control (o : Outcome)
  | thread (tid : Tid) (a : ThreadAction)
  | signal (fopen : Bool)
deriving DecidableEq

/-- The `switch` of the request handlers, and the test of `queue_data_save`. -/
def Task.choice : Task → EntryStatus → Choice
  | .pause => pauseChoice
  | .cancel => cancelChoice
  | .restart => restartChoice
  | .save _ => fun status => if status.Running then .stop else .leave

/-- The status the `default` branch assigns. -/
def Task.value : Task → EntryStatus
  | .restart => .waiting
  | _ => .paused

/-- `process_request`: where the handler of a command begins. -/
def Command.dispatch : Command → Pc
  | .download => .add
  | .status => .status
  | .pause => .lookup .pause
  | .cancel => .lookup .cancel
  | .restart => .lookup .restart
  | .none => .respond
  | .other _ => .respond

namespace Config

variable {L : Type → Type}

def crash (c : Config L) : Config L := { c with pc := .crashed }

/-- A step with a result that is undefined behaviour when there is none. -/
def orCrash (c : Config L) (result : Option (Config L)) : Config L := result.getD c.crash

/-- The process still runs. -/
def Alive (c : Config L) : Prop := c.pc ≠ .exited ∧ c.pc ≠ .crashed

instance (c : Config L) : Decidable c.Alive := by unfold Alive; infer_instance

/-- `send_to_server` -/
def send (c : Config L) (ok : Bool) (t : Transaction) : Config L :=
  { c with sent := if ok then c.sent ++ [t] else c.sent }

variable [ListApi L]

/-- The beginning of `list_for_each(download_queue, queue_update, NULL)`. -/
def visitAll (c : Config L) : Option (Config L) :=
  c.mem.queueItems.map fun items => { c with pc := .visit items }

/-- What follows the treatment of the status of `p`. -/
def afterSwitch (c : Config L) (k : Task) (p : EntryPtr) (ret : Bool) : Option (Config L) :=
  match k with
  | .pause => some { c with response := pauseReply c.request ret, pc := .respond }
  | .cancel => some { c with pc := .unlink p }
  | .restart => visitAll { c with response := restartReply c.request }
  | .save rest => some { c with pc := .reset p rest }

/-- The id `download_pause` and `download_cancel` are given. -/
def stopId (c : Config L) (k : Task) (p : EntryPtr) : CString :=
  match k with
  | .save _ => c.mem.name p
  | _ => c.request.id.name

/-- What `list_remove_item` is given by `download_cancel` and by `download_pause`. -/
def removeKey (c : Config L) (k : Task) (r : RecordPtr) : CString :=
  match k with
  | .cancel => (c.mem.record r).handle
  | _ => c.mem.name (c.mem.record r).entry

/-- One step of the controller itself. -/
def control (max : Nat) (o : Outcome) (c : Config L) : Option (Config L) :=
  match c.pc with
  | .load entries =>
      let m := c.mem.queueInit o.queueNew
      match m.downloadQueue with
      | none => some { c with mem := m, installed := true, pc := .idle }
      | some _ => some { c with mem := m, pc := .loading entries }
  | .loading [] => some (c.orCrash c.visitAll)
  | .loading (e :: entries) =>
      if o.entryNew then
        some <| c.orCrash <| (c.mem.queuePush o.node e).map fun m =>
          { c with mem := m, pc := .loading entries }
      else some { c with installed := true, pc := .idle }
  | .idle => none
  | .add =>
      if o.locks then
        some <| c.orCrash <| (c.mem.queueAppend o c.request).bind fun r =>
          let c := { c with mem := r.1, response := r.2.1 }
          if r.2.2 then c.visitAll else some { c with pc := .respond }
      else none
  | .visit [] =>
      if c.installed then some { c with pc := .respond }
      else some { c with installed := true, pc := .idle }
  | .visit (p :: rest) =>
      if c.mem.status p = .waiting then some { c with pc := .count p rest }
      else some { c with pc := .visit rest }
  | .count p rest =>
      some <| c.orCrash <| c.mem.queueCountStarted.map fun count =>
        if count < max then { c with pc := .start p rest } else { c with pc := .visit rest }
  | .start p rest =>
      some <| c.orCrash <| (c.mem.downloadStart p o.start).map fun m =>
        { c with mem := m, pc := .mark p rest }
  | .mark p rest => some { c with mem := c.mem.setStatus p .starting, pc := .visit rest }
  | .status =>
      let m := c.mem.queueInit o.queueNew
      match m.downloadQueue with
      | none =>
          some { c with
            mem := m
            response := reply c.request .failure "The queue is empty".toList
            pc := .respond }
      | some _ =>
          some <| c.orCrash <| m.queueItems.map fun items =>
            { c with mem := m, reported := [], pc := .report items }
  | .report [] => some { c with response := reply c.request .success [], pc := .respond }
  | .report (p :: rest) =>
      let response := c.mem.queueGetInfo p c.response
      some ({ c with
        response := response, reported := c.reported ++ [p], pc := .report rest }.send o.send response)
  | .lookup k =>
      some <| c.orCrash <| (c.mem.findEntry c.request.id.name).bind fun
        | none => some { c with response := notFoundReply c.request, pc := .respond }
        | some p =>
            match k.choice (c.mem.status p) with
            | .stop => some { c with pc := .stop k p }
            | .leave => c.afterSwitch k p true
            | .assign => some { c with pc := .assign k p }
  | .assign k p =>
      some <| c.orCrash <| afterSwitch { c with mem := c.mem.setStatus p k.value } k p true
  | .stop k p =>
      some <| c.orCrash <| (c.mem.findRecord (c.stopId k p)).bind fun
        | none => c.afterSwitch k p false
        | some r =>
            some { c with mem := c.mem.setStatus (c.mem.record r).entry .paused, pc := .kill k p r }
  | .kill k p r =>
      some <| c.orCrash <| (c.mem.finishStop r (c.removeKey k r)).bind fun ret =>
        afterSwitch { c with mem := ret.2 } k p ret.1
  | .unlink _ =>
      some <| c.orCrash <| (c.mem.removeEntry c.request.id.name).map fun ret =>
        { c with mem := ret.2, response := cancelReply c.request ret.1, pc := .respond }
  | .saving [] => some { c with pc := .exited }
  | .saving (p :: rest) =>
      match Task.choice (.save rest) (c.mem.status p) with
      | .stop => some { c with pc := .stop (.save rest) p }
      | _ => some { c with pc := .write p rest }
  | .reset p rest => some { c with mem := c.mem.setStatus p .waiting, pc := .write p rest }
  | .write p rest =>
      some <| c.orCrash <| (indexLine (c.mem.entry p)).map fun line =>
        { c with index := c.index ++ line, reported := c.reported ++ [p], pc := .saving rest }
  | .respond => some ({ c with pc := .idle }.send o.send c.response)
  | .exited => none
  | .crashed => none

/-- The step of a `DOWNLOAD`, when the mutex can be locked. -/
theorem control_add {max : Nat} {o : Outcome} {c c' : Config L} (pc : c.pc = .add)
    (h : c.control max o = some c') :
    o.locks = true ∧ some (c.orCrash ((c.mem.queueAppend o c.request).bind fun r =>
      let c := { c with mem := r.1, response := r.2.1 }
      if r.2.2 then c.visitAll else some { c with pc := .respond })) = some c' := by
  simp only [control, pc] at h
  split at h
  · next locks => exact ⟨locks, h⟩
  · cases h

/-- `termination_handler` up to the traversal of `queue_save`. -/
def terminate (fopen : Bool) (c : Config L) : Config L :=
  match c.mem.downloadQueue with
  | none => { c with pc := .exited }
  | some _ =>
      if fopen then
        c.orCrash <| c.mem.queueItems.map fun items =>
          { c with index := [], reported := [], pc := .saving items }
      else { c with pc := .exited }

/-- One step of the process: an action that cannot happen has no result. -/
def step (max : Nat) (c : Config L) : Action → Option (Config L)
  | .request r response =>
      if c.pc = .idle then some { c with request := r, response := response, pc := r.command.dispatch }
      else none
  | .control o => c.control max o
  | .thread tid a =>
      if c.Alive then
        (c.mem.thread? tid).bind fun t => (c.mem.threadStep t a).map fun m =>
          c.orCrash (m.map fun m => { c with mem := m })
      else none
  | .signal fopen => if c.installed ∧ c.Alive then some (c.terminate fopen) else none

end Config

/-- The controller with a limit of `max` concurrent downloads. -/
def controller (L : Type → Type) [ListApi L] (max : Nat) : Machine (Config L) Action :=
  ⟨Config.step max⟩

/-- The controller when it starts, with the entries of the index file. -/
def boot (L : Type → Type) (entries : List Entry) : Config L where
  mem := {
    entry := fun _ => entryNew
    nextEntry := 0
    downloadQueue := none
    record := fun _ => ⟨0, [], 0⟩
    freed := fun _ => false
    nextRecord := 0
    threadList := none
    threads := []
    nextThread := 0 }
  pc := .load entries
  request := .zero
  response := .zero
  sent := []
  reported := []
  index := []
  installed := false

/-! ### Runs that are replayed -/

/-- A `DOWNLOAD` request. -/
def download (name url : CString) : Transaction :=
  { command := .download, status := .success, id := ⟨name⟩, payload := ⟨url.length, .text url⟩ }

/-- A request that only names an entry. -/
def order (command : Command) (name : CString) : Transaction :=
  { command := command, status := .success, id := ⟨name⟩, payload := ⟨0, .text []⟩ }

/-- The first steps of a controller that finds no entries. -/
def startUp : List Action := List.replicate 3 (.control {})

/-- A request and the given number of steps on it. -/
def ask (r : Transaction) (steps : Nat) : List Action :=
  .request r .zero :: List.replicate steps (.control {})

end Dserve
