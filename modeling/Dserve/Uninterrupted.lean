import Dserve.View

/-!
The functions of `queue.c` and the steps of the controller.

`queue_add`, `queue_pause`, `queue_cancel`, `queue_restart`, `queue_status` and `queue_save`
run to their end in `Queue.lean`; the machine does the same work in steps, with the threads in
between. When nothing comes between them, the steps compute what the functions do: from the
beginning of the handler to the point where the reply is sent, or from the first entry of the
index file to the exit. Where a function is undefined behaviour, the run ends in `crashed`.
-/

namespace Dserve

/-- A step of the controller itself. -/
def Alone {L : Type → Type} : Config L → Action → Prop
  | _, .control _ => True
  | _, _ => False

section

variable {L : Type → Type} [ListApi L] {max : Nat} {c c' : Config L}

/-- Steps of the controller alone. -/
abbrev Runs (max : Nat) (c c' : Config L) : Prop := (controller L max).Run Alone c c'

/-- Steps of the controller alone that end in undefined behaviour. -/
def Crashes (max : Nat) (c : Config L) : Prop := ∃ c', Runs max c c' ∧ c'.pc = .crashed

/-- The steps from `c` on leave the memory and the reply the function has left. -/
def Computes (max : Nat) (c : Config L) : Option (Mem L × Transaction) → Prop
  | some (m, response) => Runs max c { c with mem := m, response := response, pc := .respond }
  | none => Crashes max c

theorem runs_step (o : Outcome) (h : c.control max o = some c') : Runs max c c' :=
  Machine.Run.tail (a := .control o) .refl trivial h

theorem Crashes.here {base : Config L} : Crashes max base.crash := ⟨base.crash, .refl, rfl⟩

theorem Crashes.after (first : Runs max c c') (crashes : Crashes max c') : Crashes max c := by
  obtain ⟨d, run, crashed⟩ := crashes
  exact ⟨d, first.trans run, crashed⟩

theorem crashes_step (o : Outcome) (h : c.control max o = some c.crash) : Crashes max c :=
  .after (runs_step o h) .here

theorem Computes.after {m : Mem L} {pc : Pc} {result : Option (Mem L × Transaction)}
    (first : Runs max c { c with mem := m, pc := pc })
    (rest : Computes max { c with mem := m, pc := pc } result) : Computes max c result := by
  cases result with
  | none => exact Crashes.after first rest
  | some r => exact first.trans rest

/-! ### Stopping a download -/

/-- `download_pause` or `download_cancel` has the given result, and the caller goes on. -/
def Stops (max : Nat) (c : Config L) (k : Task) (p : EntryPtr) : Option (Bool × Mem L) → Prop
  | some (ret, m) => Runs max c (c.orCrash (Config.afterSwitch { c with mem := m } k p ret))
  | none => Crashes max c

/-- Where the controller is does not matter for what follows the treatment of a status. -/
theorem afterSwitch_pc (pc : Pc) {k : Task} {p : EntryPtr} {ret : Bool} :
    ({ c with pc := pc } : Config L).afterSwitch k p ret = c.afterSwitch k p ret := by
  cases k <;> rfl

theorem kill_stops {k : Task} {p : EntryPtr} {r : RecordPtr} (pc : c.pc = .kill k p r) :
    Stops max c k p (c.mem.finishStop r (c.removeKey k r)) := by
  cases finish : c.mem.finishStop r (c.removeKey k r) with
  | none =>
      apply crashes_step {}
      simp only [Config.control, pc, finish]
      rfl
  | some ret =>
      apply runs_step {}
      simp only [Config.control, pc, finish, Option.bind_some]

theorem stop_crashes {k : Task} {p : EntryPtr} (pc : c.pc = .stop k p)
    (lookup : c.mem.findRecord (c.stopId k p) = none) : Crashes max c := by
  apply crashes_step {}
  simp only [Config.control, pc, lookup]
  rfl

theorem stop_missing {k : Task} {p : EntryPtr} (pc : c.pc = .stop k p)
    (lookup : c.mem.findRecord (c.stopId k p) = some none) :
    Stops max c k p (some (false, c.mem)) := by
  apply runs_step {}
  simp only [Config.control, pc, lookup, Option.bind_some]
  rw [← pc]

/-- The entry of the record that is found is marked, and the thread is killed after that. -/
theorem stop_found {k : Task} {p : EntryPtr} {r : RecordPtr} (pc : c.pc = .stop k p)
    (stops : k ≠ .restart) (lookup : c.mem.findRecord (c.stopId k p) = some (some r)) :
    Stops max c k p
      ((c.mem.setStatus (c.mem.record r).entry .paused).finishStop r (c.removeKey k r)) := by
  have marks : Runs max c { c with
      mem := c.mem.setStatus (c.mem.record r).entry .paused, pc := .kill k p r } := by
    apply runs_step {}
    simp only [Config.control, pc, lookup, Option.bind_some]
    rfl
  have key : Config.removeKey { c with
      mem := c.mem.setStatus (c.mem.record r).entry .paused, pc := .kill k p r } k r =
        c.removeKey k r := by
    cases k <;> first | rfl | exact Mem.name_setStatus
  have kills : Stops max { c with
      mem := c.mem.setStatus (c.mem.record r).entry .paused, pc := .kill k p r } k p
        ((c.mem.setStatus (c.mem.record r).entry .paused).finishStop r (c.removeKey k r)) := by
    rw [← key]
    exact kill_stops rfl
  cases finish : (c.mem.setStatus (c.mem.record r).entry .paused).finishStop r
      (c.removeKey k r) with
  | none =>
      rw [finish] at kills
      exact Crashes.after marks kills
  | some ret =>
      rw [finish] at kills
      cases k with
      | restart => exact absurd rfl stops
      | pause => exact marks.trans kills
      | cancel => exact marks.trans kills
      | save rest => exact marks.trans kills

/-- `download_pause`, as `queue_pause` and `queue_data_save` call it. -/
theorem downloadPause_stops {k : Task} {p : EntryPtr} (pc : c.pc = .stop k p)
    (cancel : k ≠ .cancel) (restart : k ≠ .restart) :
    Stops max c k p (c.mem.downloadPause (c.stopId k p)) := by
  unfold Mem.downloadPause
  cases lookup : c.mem.findRecord (c.stopId k p) with
  | none => exact stop_crashes pc lookup
  | some found =>
      cases found with
      | none => exact stop_missing pc lookup
      | some r =>
          have stops : Stops max c k p _ := stop_found pc restart lookup
          cases k with
          | cancel => exact absurd rfl cancel
          | restart => exact absurd rfl restart
          | pause => exact stops
          | save rest => exact stops

theorem downloadCancel_stops {p : EntryPtr} (pc : c.pc = .stop .cancel p) :
    Stops max c .cancel p (c.mem.downloadCancel c.request.id.name) := by
  unfold Mem.downloadCancel
  cases lookup : c.mem.findRecord c.request.id.name with
  | none => exact stop_crashes pc lookup
  | some found =>
      cases found with
      | none => exact stop_missing pc lookup
      | some r => exact stop_found pc (by decide) lookup

/-! ### The entry a request names -/

theorem lookup_crashes {k : Task} (pc : c.pc = .lookup k)
    (found : c.mem.findEntry c.request.id.name = none) : Crashes max c := by
  apply crashes_step {}
  simp only [Config.control, pc, found]
  rfl

theorem lookup_missing {k : Task} (pc : c.pc = .lookup k)
    (found : c.mem.findEntry c.request.id.name = some none) :
    Computes max c (some (c.mem, notFoundReply c.request)) := by
  apply runs_step {}
  simp only [Config.control, pc, found, Option.bind_some]
  rfl

theorem lookup_stop {k : Task} {p : EntryPtr} (pc : c.pc = .lookup k)
    (found : c.mem.findEntry c.request.id.name = some (some p))
    (choice : k.choice (c.mem.status p) = .stop) : Runs max c { c with pc := .stop k p } := by
  apply runs_step {}
  simp only [Config.control, pc, found, Option.bind_some, choice]
  rfl

theorem lookup_leave {k : Task} {p : EntryPtr} (pc : c.pc = .lookup k)
    (found : c.mem.findEntry c.request.id.name = some (some p))
    (choice : k.choice (c.mem.status p) = .leave) :
    Runs max c (c.orCrash (c.afterSwitch k p true)) := by
  apply runs_step {}
  simp only [Config.control, pc, found, Option.bind_some, choice]

theorem lookup_assign {k : Task} {p : EntryPtr} (pc : c.pc = .lookup k)
    (found : c.mem.findEntry c.request.id.name = some (some p))
    (choice : k.choice (c.mem.status p) = .assign) :
    Runs max c (c.orCrash
      (Config.afterSwitch { c with mem := c.mem.setStatus p k.value } k p true)) := by
  have first : Runs max c { c with pc := .assign k p } := by
    apply runs_step {}
    simp only [Config.control, pc, found, Option.bind_some, choice]
    rfl
  have second : Runs max { c with pc := .assign k p } (Config.orCrash { c with pc := .assign k p }
      (Config.afterSwitch { c with
        mem := c.mem.setStatus p k.value, pc := .assign k p } k p true)) := runs_step {} rfl
  rw [afterSwitch_pc (.assign k p) (c := { c with mem := c.mem.setStatus p k.value })] at second
  exact first.trans second

/-! ### Pause and cancel -/

theorem pause_computes (pc : c.pc = .lookup .pause) :
    Computes max c (c.mem.queuePause c.request) := by
  unfold Mem.queuePause
  cases found : c.mem.findEntry c.request.id.name with
  | none => exact lookup_crashes pc found
  | some found' =>
      cases found' with
      | none => exact lookup_missing pc found
      | some p =>
          simp only [Option.bind_some]
          cases choice : pauseChoice (c.mem.status p) with
          | leave => exact lookup_leave pc found choice
          | assign => exact lookup_assign pc found choice
          | stop =>
              have first : Runs max c { c with pc := .stop .pause p } := lookup_stop pc found choice
              have stops : Stops max { c with pc := .stop .pause p } .pause p
                (c.mem.downloadPause c.request.id.name) := downloadPause_stops rfl (by decide) (by decide)
              simp only
              cases paused : c.mem.downloadPause c.request.id.name with
              | none =>
                  rw [paused] at stops
                  exact Crashes.after first stops
              | some ret =>
                  rw [paused] at stops
                  exact first.trans stops

theorem unlink_computes {p : EntryPtr} (pc : c.pc = .unlink p) :
    Computes max c ((c.mem.removeEntry c.request.id.name).map
      fun r => (r.2, cancelReply c.request r.1)) := by
  cases removed : c.mem.removeEntry c.request.id.name with
  | none =>
      apply crashes_step {}
      simp only [Config.control, pc, removed]
      rfl
  | some r =>
      apply runs_step {}
      simp only [Config.control, pc, removed]
      rfl

theorem cancel_computes (pc : c.pc = .lookup .cancel) :
    Computes max c (c.mem.queueCancel c.request) := by
  unfold Mem.queueCancel
  cases found : c.mem.findEntry c.request.id.name with
  | none => exact lookup_crashes pc found
  | some found' =>
      cases found' with
      | none => exact lookup_missing pc found
      | some p =>
          simp only [Option.bind_some]
          cases choice : cancelChoice (c.mem.status p) with
          | leave => exact .after (lookup_leave pc found choice) (unlink_computes rfl)
          | assign => exact .after (lookup_assign pc found choice) (unlink_computes rfl)
          | stop =>
              have first : Runs max c { c with pc := .stop .cancel p } := lookup_stop pc found choice
              have stops : Stops max { c with pc := .stop .cancel p } .cancel p
                (c.mem.downloadCancel c.request.id.name) := downloadCancel_stops rfl
              simp only
              cases stopped : c.mem.downloadCancel c.request.id.name with
              | none =>
                  rw [stopped] at stops
                  exact Crashes.after first stops
              | some ret =>
                  rw [stopped] at stops
                  exact .after (first.trans stops) (unlink_computes rfl)

/-! ### Scheduling passes -/

/-- The steps from `c` on reach the given place with the memory the function has left. -/
def Reaches (max : Nat) (c : Config L) (pc : Pc) : Option (Mem L) → Prop
  | some m => Runs max c { c with mem := m, pc := pc }
  | none => Crashes max c

/-- `queue_update` on one entry. -/
theorem update_reaches {starts : EntryPtr → StartOutcome} {p : EntryPtr} {rest : List EntryPtr}
    (pc : c.pc = .visit (p :: rest)) :
    Reaches max c (.visit rest) (c.mem.queueUpdate max starts p) := by
  unfold Mem.queueUpdate
  by_cases waiting : c.mem.status p = .waiting
  · have counts : Runs max c { c with pc := .count p rest } := by
      apply runs_step {}
      simp only [Config.control, pc, waiting, if_true]
    simp only [waiting]
    cases counted : c.mem.queueCountStarted with
    | none =>
        refine .after counts (crashes_step {} ?_)
        simp only [Config.control, counted]
        rfl
    | some count =>
        simp only [Option.bind_some]
        split
        · next free =>
          have starting : Runs max c { c with pc := .start p rest } := by
            refine counts.trans (runs_step {} ?_)
            simp only [Config.control, counted, Option.map_some, free, if_true]
            rfl
          cases begun : c.mem.downloadStart p (starts p) with
          | none =>
              refine .after starting (crashes_step { start := starts p } ?_)
              simp only [Config.control, begun]
              rfl
          | some m =>
              have marks : Runs max c { c with mem := m, pc := .mark p rest } := by
                refine starting.trans (runs_step { start := starts p } ?_)
                simp only [Config.control, begun]
                rfl
              exact marks.trans (runs_step {} rfl)
        · next full =>
          refine counts.trans (runs_step {} ?_)
          simp only [Config.control, counted, Option.map_some, full, if_false]
          rfl
  · have skips : Runs max c { c with pc := .visit rest } := by
      apply runs_step {}
      simp only [Config.control, pc, waiting, if_false]
    split
    · next other => exact absurd other waiting
    · exact skips

/-- A pass over entries of the queue. -/
theorem pass_reaches {starts : EntryPtr → StartOutcome} {xs : List EntryPtr} (pc : c.pc = .visit xs) :
    Reaches max c (.visit []) (Sequence.forEach (Mem.queueUpdate max starts) xs c.mem) := by
  induction xs generalizing c with
  | nil =>
      have here : Runs max c { c with pc := .visit [] } := by
        rw [← pc]
        exact .refl
      exact here
  | cons p rest ih =>
      have first : Reaches max c (.visit rest) (c.mem.queueUpdate max starts p) := update_reaches pc
      simp only [Sequence.forEach]
      cases updated : c.mem.queueUpdate max starts p with
      | none =>
          rw [updated] at first
          exact first
      | some m =>
          rw [updated] at first
          have later : Reaches max { c with mem := m, pc := .visit rest } (.visit [])
            (Sequence.forEach (Mem.queueUpdate max starts) rest m) := ih rfl
          simp only [Option.bind_some]
          cases passed : Sequence.forEach (Mem.queueUpdate max starts) rest m with
          | none =>
              rw [passed] at later
              exact Crashes.after first later
          | some m' =>
              rw [passed] at later
              exact first.trans later

/-! ### Status -/

/-- The replies that are sent while the queue is traversed. -/
theorem report_runs {xs : List EntryPtr} (before : List Transaction) (pc : c.pc = .report xs) :
    ∃ later response,
      Sequence.forEach (fun p (sent : List Transaction × Transaction) =>
          some (sent.1 ++ [c.mem.queueGetInfo p sent.2], c.mem.queueGetInfo p sent.2)) xs
        (before, c.response) = some (before ++ later, response) ∧
      Runs max c { c with
        sent := c.sent ++ later
        response := response
        reported := c.reported ++ xs
        pc := .report [] } := by
  induction xs generalizing c before with
  | nil =>
      refine ⟨[], c.response, by simp [Sequence.forEach], ?_⟩
      rw [List.append_nil, List.append_nil, ← pc]
      exact .refl
  | cons p rest ih =>
      let info := c.mem.queueGetInfo p c.response
      have first : Runs max c { c with
          sent := c.sent ++ [info], response := info, reported := c.reported ++ [p]
          pc := .report rest } := by
        apply runs_step {}
        simp only [Config.control, pc, Config.send, if_true]
        rfl
      obtain ⟨later, response, report, runs⟩ := ih (c := { c with
        sent := c.sent ++ [info], response := info, reported := c.reported ++ [p]
        pc := .report rest }) (before ++ [info]) rfl
      refine ⟨info :: later, response, ?_, ?_⟩
      · rw [List.append_cons]
        exact report
      · rw [List.append_cons c.sent, List.append_cons c.reported]
        exact first.trans runs

end

section

variable {L : Type → Type} [ListApi L] [LawfulListApi L] {max : Nat} {c : Config L}

/-- The pass a handler ends with. -/
theorem traversal_computes {starts : EntryPtr → StartOutcome} {m : Mem L} {response : Transaction}
    (wf : m.Wf) (installed : c.installed = true)
    (first : Runs max c (c.orCrash (Config.visitAll { c with mem := m, response := response }))) :
    Computes max c ((m.updateAll max starts).map fun m => (m, response)) := by
  rw [Mem.updateAll_eq wf]
  unfold Config.visitAll at first
  cases items : m.queueItems with
  | none =>
      simp only [items] at first
      exact Crashes.after first .here
  | some xs =>
      simp only [items] at first
      have passes : Reaches max { c with mem := m, response := response, pc := .visit xs } (.visit [])
        (Sequence.forEach (Mem.queueUpdate max starts) xs m) := pass_reaches rfl
      simp only [Option.bind_some]
      cases passed : Sequence.forEach (Mem.queueUpdate max starts) xs m with
      | none =>
          rw [passed] at passes
          exact Crashes.after first passes
      | some m' =>
          rw [passed] at passes
          refine (first.trans passes).trans (runs_step {} ?_)
          simp only [Config.control, installed, if_true]

theorem restart_computes {starts : EntryPtr → StartOutcome} (wf : c.mem.Wf)
    (installed : c.installed = true) (pc : c.pc = .lookup .restart) :
    Computes max c (c.mem.queueRestart max starts c.request) := by
  unfold Mem.queueRestart
  cases found : c.mem.findEntry c.request.id.name with
  | none => exact lookup_crashes pc found
  | some found' =>
      cases found' with
      | none => exact lookup_missing pc found
      | some p =>
          simp only [Option.bind_some]
          cases choice : restartChoice (c.mem.status p) with
          | leave => exact traversal_computes wf installed (lookup_leave pc found choice)
          | assign =>
              have wf' : (c.mem.setStatus p .waiting).Wf := ⟨wf.1, wf.2⟩
              exact traversal_computes wf' installed (lookup_assign pc found choice)
          | stop => cases h : c.mem.status p <;> simp [restartChoice, h] at choice

/-- `queue_add`, when its mutex can be locked, with the calls of the environment it makes
before the traversal. -/
theorem add_computes {o : Outcome} {starts : EntryPtr → StartOutcome} (wf : c.mem.Wf)
    (installed : c.installed = true) (locks : o.locks = true) (pc : c.pc = .add) :
    Computes max c (c.mem.queueAdd max o starts c.request) := by
  rw [Mem.queueAdd, if_pos locks]
  cases appended : c.mem.queueAppend o c.request with
  | none =>
      apply crashes_step o
      simp only [Config.control, pc, locks, if_true, appended]
      rfl
  | some r =>
      obtain ⟨m, response, added⟩ := r
      obtain ⟨-, wf', -⟩ := Mem.queueAppend_spec wf appended
      have first : Runs max c (c.orCrash
          (if added then Config.visitAll { c with mem := m, response := response }
          else some { c with mem := m, response := response, pc := .respond })) := by
        apply runs_step o
        simp only [Config.control, pc, locks, if_true, appended, Option.bind_some]
      cases added with
      | true => exact traversal_computes wf' installed first
      | false => exact first

/-- `queue_status`: the replies about the entries are sent before the last one is made. -/
theorem status_computes {o : Outcome} (wf : c.mem.Wf) (pc : c.pc = .status) :
    match c.mem.queueStatus o.queueNew c.request c.response with
    | none => Crashes max c
    | some (m, sent, response) => ∃ reported, Runs max c { c with
        mem := m
        sent := c.sent ++ sent
        response := response
        reported := reported
        pc := .respond } := by
  obtain ⟨-, -, wf', -⟩ := Mem.queueInit_spec o.queueNew wf
  unfold Mem.queueStatus
  simp only
  cases hq : (c.mem.queueInit o.queueNew).downloadQueue with
  | none =>
      have answers : Runs max c { c with
          mem := c.mem.queueInit o.queueNew
          response := reply c.request .failure "The queue is empty".toList
          pc := .respond } := by
        apply runs_step o
        simp only [Config.control, pc, hq]
      simp only [List.append_nil]
      exact ⟨c.reported, answers⟩
  | some list =>
      have law := @LawfulListApi.forEach L _ _ _ _ list
        (fun p (sent : List Transaction × Transaction) =>
          some (sent.1 ++ [(c.mem.queueInit o.queueNew).queueGetInfo p sent.2],
            (c.mem.queueInit o.queueNew).queueGetInfo p sent.2)) ([], c.response)
        (wf'.downloadQueue list hq)
      simp only [law]
      cases items : ListApi.items list with
      | none =>
          apply crashes_step o
          simp only [Config.control, pc, hq, Mem.queueItems, items]
          rfl
      | some xs =>
          let begun : Config L :=
            { c with mem := c.mem.queueInit o.queueNew, reported := [], pc := .report xs }
          have begins : Runs max c begun := by
            apply runs_step o
            simp only [Config.control, pc, hq, Mem.queueItems, items]
            rfl
          obtain ⟨later, response, report, runs⟩ :=
            @report_runs L _ max begun xs [] rfl
          simp only [Option.bind_some]
          have reported : Sequence.forEach (fun p (sent : List Transaction × Transaction) =>
              some (sent.1 ++ [(c.mem.queueInit o.queueNew).queueGetInfo p sent.2],
                (c.mem.queueInit o.queueNew).queueGetInfo p sent.2)) xs ([], c.response) =
              some ([] ++ later, response) := report
          rw [reported]
          exact ⟨_, (begins.trans runs).trans (runs_step {} rfl)⟩

end

end Dserve
