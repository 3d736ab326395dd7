import Dserve.Catalogue
import Dserve.Lib.Variant

/-!
How long the controller works on a request.

A request takes a few steps for each entry of the queue, and no more: `queue_update` takes four
for an entry it starts, `STATUS` one for each entry, `queue_save` five for an entry it stops first.
The download threads come between as often as they like, but neither the queue nor the place the
controller is at changes by that. So it comes back to the next request, or ends after a signal,
within a number of its own steps that is linear in the queue (`controller_responds`), unless a
`DOWNLOAD` does not get the mutex of `queue_add`, which nothing initialises.
-/

namespace Dserve

/-- The steps there are after the treatment of a status, with `n` entries in the queue. -/
def Task.left (n : Nat) : Task → Nat
  | .pause => 1
  | .cancel => 2
  | .restart => 4 * n + 2
  | .save rest => 5 * rest.length + 3

/-- The steps there are at most until the controller waits for a request, or is gone. -/
def Pc.work (n : Nat) : Pc → Nat
  | .load entries => 5 * entries.length + 4 * n + 4
  | .loading entries => 5 * entries.length + 4 * n + 3
  | .idle => 0
  | .add => 4 * n + 7
  | .visit rest => 4 * rest.length + 2
  | .count _ rest => 4 * rest.length + 5
  | .start _ rest => 4 * rest.length + 4
  | .mark _ rest => 4 * rest.length + 3
  | .status => n + 3
  | .report rest => rest.length + 2
  | .lookup k => k.left n + 3
  | .assign k _ => k.left n + 1
  | .stop k _ => k.left n + 2
  | .kill k _ _ => k.left n + 1
  | .unlink _ => 2
  | .saving rest => 5 * rest.length + 1
  | .reset _ rest => 5 * rest.length + 3
  | .write _ rest => 5 * rest.length + 2
  | .respond => 1
  | .exited => 0
  | .crashed => 0

def Config.work {L : Type → Type} [ListApi L] (c : Config L) : Nat := c.pc.work c.mem.queue.length

def Action.isControl : Action → Bool
  | .control _ => true
  | _ => false

def Action.isThread : Action → Bool
  | .thread _ _ => true
  | _ => false

section

variable {L : Type → Type} [ListApi L] {max : Nat} {o : Outcome} {c c' : Config L}

theorem afterSwitch_work {d d' : Config L} {k : Task} {p : EntryPtr} {ret : Bool}
    (h : d.afterSwitch k p ret = some d') : d'.work ≤ k.left d.mem.queue.length := by
  cases k with
  | restart =>
      obtain ⟨items, found, rfl⟩ := Option.map_eq_some_iff.mp h
      have queue : items = d.mem.queue := Mem.queueItems_eq found
      simp [Config.work, Pc.work, Task.left, queue]
  | _ =>
      cases h
      exact Nat.le_refl _

variable [LawfulListApi L]

omit [LawfulListApi L] in
theorem work_pos (busy : c.pc ≠ .idle) (alive : c.Alive) : 0 < c.work := by
  unfold Config.work
  cases pc : c.pc with
  | idle => exact absurd pc busy
  | exited => exact absurd pc alive.1
  | crashed => exact absurd pc alive.2
  | _ => simp [Pc.work]

omit [LawfulListApi L] in
/-- The controller can take a step unless it waits for a request or is gone. -/
theorem control_enabled (max : Nat) (o : Outcome) :
    (c.control max o).isSome = true ↔
      c.pc ≠ .idle ∧ c.Alive ∧ (c.pc = .add → o.locks = true) := by
  unfold Config.Alive
  cases pc : c.pc with
  | loading entries =>
      cases entries with
      | nil => simp [Config.control, pc]
      | cons e entries => by_cases new : o.entryNew <;> simp [Config.control, pc, new]
  | visit rest =>
      cases rest with
      | nil => by_cases installed : c.installed <;> simp [Config.control, pc, installed]
      | cons p rest => by_cases waiting : c.mem.status p = .waiting <;> simp [Config.control, pc, waiting]
  | report rest => cases rest <;> simp [Config.control, pc]
  | saving rest =>
      cases rest with
      | nil => simp [Config.control, pc]
      | cons p rest =>
          by_cases running : (c.mem.status p).Running <;> simp [Config.control, pc, Task.choice, running]
  | load entries | status =>
      simp only [Config.control, pc]
      split <;> simp
  | add => by_cases locks : o.locks <;> simp [Config.control, pc, locks]
  | _ => simp [Config.control, pc]

/-- Every step of the controller leaves less to be done. -/
theorem turn_work (wf : c.mem.Wf) (busy : c.pc ≠ .idle) (alive : c.Alive) (turn : c.Turn max o c') :
    c'.work < c.work := by
  have init : (c.mem.queueInit o.queueNew).queue = c.mem.queue := by
    obtain ⟨list, -, -, queue⟩ := Mem.queueInit_spec o.queueNew wf
    exact queue
  cases turn with
  | crash => exact work_pos busy alive
  | noQueue pc => simp [Config.work, pc, Pc.work]
  | loading pc =>
      simp only [Config.work, pc, Pc.work, init]
      omega
  | loaded pc found =>
      simp only [Config.work, pc, Pc.work, Mem.queueItems_eq found, List.length_nil]
      omega
  | noEntry pc => simp [Config.work, pc, Pc.work]
  | push pc pushed =>
      obtain ⟨list, -, -, queue⟩ := Mem.queuePush_spec wf pushed
      simp only [Config.work, pc, Pc.work, queue, List.length_append, List.length_cons, List.length_nil]
      omega
  | added pc appended found =>
      obtain ⟨list, -, ⟨differ, -⟩ | ⟨-, -, e, -, -, queue, -⟩⟩ := Mem.queueAppend_spec wf appended
      · cases differ
      · simp only [Config.work, pc, Pc.work, Mem.queueItems_eq found, queue, List.length_append,
          List.length_cons, List.length_nil]
        omega
  | refused pc =>
      simp only [Config.work, pc, Pc.work]
      omega
  | visited pc | ready pc => simp [Config.work, pc, Pc.work]
  | waiting pc | skip pc | free pc | full pc | start pc | mark pc | listed pc | report pc | saved pc
  | halted pc | reset pc | write pc | respond pc =>
      simp [Config.work, pc, Pc.work, Config.send] <;> omega
  | unlisted pc => simp [Config.work, pc, Pc.work]
  | list pc found =>
      simp only [Config.work, pc, Pc.work, Mem.queueItems_eq found, init]
      omega
  | notFound pc | toStop pc | toAssign pc | unlink pc =>
      simp only [Config.work, pc, Pc.work]
      omega
  | running pc =>
      simp only [Config.work, pc, Pc.work, Task.left, List.length_cons]
      omega
  | stop pc =>
      show Pc.work c.mem.queue.length _ < _
      simp only [Config.work, pc, Pc.work]
      omega
  | leave pc _ _ after | missing pc _ after =>
      have left := afterSwitch_work after
      simp only [Config.work, pc, Pc.work] at left ⊢
      omega
  | @assign k p c' pc after =>
      have left := afterSwitch_work after
      have queue : (c.mem.setStatus p k.value).queue = c.mem.queue := rfl
      simp only [Config.work, pc, Pc.work, queue] at left ⊢
      omega
  | @kill k p r ret m c' pc finished after =>
      have left := afterSwitch_work after
      obtain ⟨list, mem, -, -⟩ := Mem.finishStop_spec wf finished
      have queue : m.queue = c.mem.queue := by
        rw [mem]
        rfl
      simp only [Config.work, pc, Pc.work, queue] at left ⊢
      omega

/-- The work of the controller is a measure of its steps that the threads leave alone. -/
theorem controller_variant :
    (controller L max).Variant (fun c => c.mem.Wf) Action.isControl Action.isThread Config.work where
  keeps c a c' wf step := (step_view wf step).1
  less c a c' wf own step := by
    cases a with
    | control o =>
        have step : c.control max o = some c' := step
        obtain ⟨busy, alive, -⟩ := (control_enabled max o).mp (by rw [step]; rfl)
        exact turn_work wf busy alive (Config.control_turn step)
    | _ => cases own
  same c a c' wf other step := by
    cases a with
    | thread tid a =>
        have step : c.step max (.thread tid a) = some c' := step
        rcases Config.step_thread step with rfl | ⟨t, m, -, stepped, rfl⟩
        · exact Nat.zero_le _
        · have queue : m.queue = c.mem.queue := (Mem.threadStep_move stepped).queue
          simp only [Config.work, queue]
          exact Nat.le_refl _
    | _ => cases other

/-! ### The results -/

/-- The controller has taken at most `n` steps, and can take the next one unless it waits for a
request, is gone, or does not get the mutex of `queue_add`. -/
def GoesOn (max n : Nat) (as : List Action) (c : Config L) : Prop :=
  as.countP Action.isControl ≤ n ∧
    (c.pc ≠ .idle → c.Alive → ∀ o : Outcome, (c.pc = .add → o.locks = true) →
      ∃ c', c.step max (.control o) = some c')

theorem goesOn {n : Nat} {as : List Action} (wf : c.mem.Wf) (work : c.work ≤ n)
    (actions : ∀ a ∈ as, a.isControl = true ∨ a.isThread = true)
    (run : (controller L max).exec (fun _ _ => True) as c = some c') : GoesOn max n as c' := by
  have steps := controller_variant.own_steps wf actions run
  refine ⟨by omega, ?_⟩
  intro busy alive o locks
  exact Option.isSome_iff_exists.mp ((control_enabled max o).mpr ⟨busy, alive, locks⟩)

/-- In every reachable state, a request with `n` entries in the queue takes at most `4 * n + 7`
steps of the controller, and the end of the process at most `5 * n + 1`, whatever the download
threads do meanwhile. -/
theorem controller_responds {entries : List Entry} {c c₁ c₂ : Config L} {a : Action} {as : List Action}
    (before : (controller L max).Reachable (boot L entries) c) (step : c.step max a = some c₁)
    (actions : ∀ a ∈ as, a.isControl = true ∨ a.isThread = true)
    (run : (controller L max).exec (fun _ _ => True) as c₁ = some c₂) :
    (∀ r response, a = .request r response → GoesOn max (4 * c.mem.queue.length + 7) as c₂) ∧
      ∀ fopen, a = .signal fopen → GoesOn max (5 * c.mem.queue.length + 1) as c₂ := by
  have wf : c.mem.Wf := before.invariant (boot_wf entries) fun _ _ _ wf _ step => (step_view wf step).1
  have wf₁ := (step_view wf step).1
  constructor
  · rintro r response rfl
    obtain ⟨-, rfl⟩ := Config.step_request step
    refine goesOn wf₁ ?_ actions run
    cases r.command with
    | download | status | pause | cancel | restart =>
        simp only [Config.work, Command.dispatch, Pc.work, Task.left]
        omega
    | none | other => simp [Config.work, Command.dispatch, Pc.work]
  · rintro fopen rfl
    refine goesOn wf₁ ?_ actions run
    rcases Config.step_signal step with ⟨rfl, -⟩ | rfl | ⟨items, found, rfl⟩
    · exact Nat.zero_le _
    · exact Nat.zero_le _
    · simp [Config.work, Pc.work, Mem.queueItems_eq found]

end

/-- The steps of a `DOWNLOAD`, with one of the new thread among them. -/
def downloadSteps : List Action :=
  List.replicate 4 (.control {}) ++ [.thread 0 (.openFile true)] ++ List.replicate 3 (.control {})

theorem controller_responds_run : ∃ c c₁ c₂ : Config HeapList,
    (controller HeapList 1).Reachable (boot HeapList []) c ∧
      c.step 1 (.request (download ['a'] ['x', '/', 'a']) .zero) = some c₁ ∧ c₂.pc = .idle ∧
      GoesOn 1 (4 * c.mem.queue.length + 7) downloadSteps c₂ := by
  obtain ⟨c, run, served⟩ := Machine.exists_run_of_exec (controller HeapList 1) (fun _ _ => True)
    (boot HeapList []) startUp
    (fun c => ((c.step 1 (.request (download ['a'] ['x', '/', 'a']) .zero)).bind fun c =>
      (controller HeapList 1).exec (fun _ _ => True) downloadSteps c).any
        (fun c => decide (c.pc = .idle)) = true) (by decide)
  obtain ⟨c₂, reached, idle⟩ := (Option.any_eq_true _ _).mp served
  obtain ⟨c₁, read, steps⟩ := Option.bind_eq_some_iff.mp reached
  have responds := controller_responds run read (by decide) steps
  exact ⟨c, c₁, c₂, run, read, of_decide_eq_true idle, responds.1 _ _ rfl⟩

end Dserve
