import Dserve.View

/-!
The limit on concurrent downloads.

`queue_update` starts a download when fewer than `max_concurrent_downloads` entries
are `STARTED`. That bounds the number of live threads in the runs in which the count
misses no thread (`limit_respected`). It misses those that have not written
`STARTED` yet: the status is `STARTING` from the creation of the thread on, and two
downloads that are requested one after the other both start (`limit_exceeded`).
-/

namespace Dserve

variable {max : Nat}

/-- When the scheduler counts fewer than `max` `STARTED` entries, it counts at least
as many as there are live threads. -/
def CountsThreads (max : Nat) (v : View) : Action → Prop
  | .control _ =>
      match v.pc with
      | .count _ _ => v.mem.started < max → v.mem.threads.length ≤ v.mem.started
      | _ => True
  | _ => True

instance (v : View) (a : Action) : Decidable (CountsThreads max v a) := by
  unfold CountsThreads
  induction a using Action.casesOn with
  | control o =>
      generalize v.pc = pc
      induction pc using Pc.casesOn <;> infer_instance
  | _ => infer_instance

/-- Between the count and the creation of the thread there is room for one more. -/
structure WithinLimit (max : Nat) (v : View) : Prop where
  bound : v.mem.threads.length ≤ max
  room : ∀ p rest, v.pc = .start p rest → v.mem.threads.length < max

theorem length_threads_le {m m' : Mem List} {t : Thread} {a : ThreadAction}
    (move : m.ThreadMove t a m') : m'.threads.length ≤ m.threads.length := by
  cases move with
  | opened => simp [Mem.setPc]
  | openFailed => exact List.length_filter_le _ _
  | started => simp [Mem.setPc]
  | progress => exact Nat.le_refl _
  | performed => simp [Mem.setPc]
  | completed => exact List.length_filter_le _ _

theorem move_within {dangles : Prop} {v w : View} {o : Outcome} (inv : WithinLimit max v)
    (counted : CountsThreads max v (.control o)) (move : View.Move dangles max v w) :
    WithinLimit max w := by
  have keep : ∀ w : View, w.mem.threads.length ≤ v.mem.threads.length →
      (∀ p rest, w.pc ≠ .start p rest) → WithinLimit max w := by
    intro w fewer elsewhere
    constructor
    · exact Nat.le_trans fewer inv.bound
    · intro p rest pc
      exact absurd pc (elsewhere p rest)
  cases move with
  | goto next =>
      cases next with
      | free pc free =>
          refine ⟨inv.bound, fun _ _ _ => ?_⟩
          simp only [CountsThreads, pc] at counted
          exact Nat.lt_of_le_of_lt (counted free) free
      | leave _ _ _ after => cases after <;> exact keep _ (Nat.le_refl _) (by simp)
      | missing _ _ after => cases after <;> exact keep _ (Nat.le_refl _) (by simp)
      | _ => exact keep _ (Nat.le_refl _) (by simp)
  | started handle pc =>
      have room := inv.room _ _ pc
      constructor
      · show (v.mem.threads ++ [_]).length ≤ max
        rw [List.length_append]
        exact room
      · intro p rest pc'
        cases pc'
  | kill _ _ after => cases after <;> exact keep _ (List.length_filter_le _ _) (by simp)
  | assign _ after => cases after <;> exact keep _ (Nat.le_refl _) (by simp)
  | _ => exact keep _ (Nat.le_refl _) (by simp)

theorem step_within {dangles : Prop} {v w : View} {a : Action} (inv : WithinLimit max v)
    (counted : CountsThreads max v a) (step : View.Step dangles max v a w) : WithinLimit max w := by
  cases step with
  | control move => exact move_within inv counted move
  | thread alive running found stepped =>
      have fewer := length_threads_le (Mem.threadStep_move stepped)
      constructor
      · exact Nat.le_trans fewer inv.bound
      · intro p rest pc
        exact Nat.lt_of_le_of_lt fewer (inv.room p rest pc)
  | threadCrash => exact ⟨inv.bound, fun _ _ pc => by cases pc⟩
  | @request r response idle =>
      refine ⟨inv.bound, fun p rest pc => ?_⟩
      have : r.command.dispatch = .start p rest := pc
      cases h : r.command <;> rw [h] at this <;> cases this
  | save => exact ⟨inv.bound, fun _ _ pc => by cases pc⟩
  | terminate _ _ ended =>
      refine ⟨inv.bound, fun p rest pc => ?_⟩
      rcases ended with rfl | rfl <;> cases pc

/-- In a run in which the scheduler's count never misses a live thread, there are
never more than `max` of them. -/
theorem limit_respected {entries : List Entry} {c : Config HeapList}
    (run : (controller HeapList max).Run (fun c a => CountsThreads max c.view a)
      (boot HeapList entries) c) : c.mem.threads.length ≤ max := by
  have start : WithinLimit max (boot HeapList entries).view := by
    constructor
    · exact Nat.zero_le _
    · intro p rest pc
      cases pc
  have inv := view_invariant start (fun v a w inv counted step => step_within inv counted step) run
  exact inv.2.bound

/-- A run with a limit of one: `a` is being downloaded, so `b` waits. -/
theorem limit_respected_run : ∃ c : Config HeapList,
    (controller HeapList 1).Run (fun c a => CountsThreads 1 c.view a) (boot HeapList []) c ∧
      (c.mem.threads.length = 1 ∧ c.mem.status 1 = .waiting) ∧ c.mem.threads.length ≤ 1 := by
  obtain ⟨c, run, waits⟩ := Machine.exists_run_of_exec (controller HeapList 1)
    (fun c a => CountsThreads 1 c.view a) (boot HeapList [])
    (startUp ++ ask (download ['a'] ['x', '/', 'a']) 7 ++
      [.thread 0 (.openFile true), .thread 0 .started] ++ ask (download ['b'] ['x', '/', 'b']) 6)
    (fun c => c.mem.threads.length = 1 ∧ c.mem.status 1 = .waiting) (by decide)
  exact ⟨c, run, waits, limit_respected run⟩

/-- A run with a limit of one and two downloads that both start. -/
theorem limit_exceeded : ¬ ∀ (max : Nat) (entries : List Entry) (c : Config HeapList),
    (controller HeapList max).Reachable (boot HeapList entries) c → c.mem.threads.length ≤ max := by
  intro all
  obtain ⟨c, run, two⟩ := Machine.exists_run_of_exec (controller HeapList 1) (fun _ _ => True)
    (boot HeapList [])
    (startUp ++ ask (download ['a'] ['x', '/', 'a']) 7 ++ ask (download ['b'] ['x', '/', 'b']) 5)
    (fun c => c.mem.threads.length = 2) (by decide)
  have bound := all 1 [] c run
  omega

end Dserve
