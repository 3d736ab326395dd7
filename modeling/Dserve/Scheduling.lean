import Dserve.Sound

/-!
One scheduling pass: `list_for_each` with `queue_update`, while the download threads go on.

`pass` takes the statuses one at a time, those that `queue_count_started` reads included; a pass of
the controller is a pass of it (`pass_of_controller`). Entries start in the order of the queue as
long as no thread completes a `STARTED` entry while an entry that the pass has come to is `WAITING`
(`first_come_first_served`). A thread that does completes its entry between two visits, and the
count of the second one has room for a later entry (`overtaken`).
-/

namespace Dserve

/-- Where a pass is: before the status of the next entry is read, before the `STARTED` entries are
counted for it, before the status of the next of these is read, before `download_start`, and before
`STARTING` is written. -/
inductive PassPc where
  | visit (rest : List EntryPtr)
  | ask (p : EntryPtr) (rest : List EntryPtr)
  | count (p : EntryPtr) (rest left : List EntryPtr) (n : Nat)
  | start (p : EntryPtr) (rest : List EntryPtr)
  | mark (p : EntryPtr) (rest : List EntryPtr)
  | crashed
deriving DecidableEq

/-- The entries the pass has not come to. An entry it starts counts among them until its status is
written. -/
def PassPc.ahead : PassPc → List EntryPtr
  | .visit rest => rest
  | .ask _ rest => rest
  | .count _ rest _ _ => rest
  | .start p rest => p :: rest
  | .mark p rest => p :: rest
  | .crashed => []

structure Pass (L : Type → Type) where
  mem : Mem L
  pc : PassPc

inductive PassAction where
  | control (o : StartOutcome)
  | thread (tid : Tid) (a : ThreadAction)
deriving DecidableEq

namespace Pass

variable {L : Type → Type} [ListApi L]

def crash (s : Pass L) : Pass L := { s with pc := .crashed }

/-- One step of `queue_update`. -/
def control (max : Nat) (o : StartOutcome) (s : Pass L) : Option (Pass L) :=
  match s.pc with
  | .visit [] => none
  | .visit (p :: rest) =>
      some { s with pc := if s.mem.status p = .waiting then .ask p rest else .visit rest }
  | .ask p rest =>
      some <| (s.mem.queueItems.map fun items => { s with pc := .count p rest items 0 }).getD s.crash
  | .count p rest (q :: left) n =>
      some { s with pc := .count p rest left (if s.mem.status q = .started then n + 1 else n) }
  | .count p rest [] n => some { s with pc := if n < max then .start p rest else .visit rest }
  | .start p rest =>
      some <| ((s.mem.downloadStart p o).map fun m => ⟨m, .mark p rest⟩).getD s.crash
  | .mark p rest => some ⟨s.mem.setStatus p .starting, .visit rest⟩
  | .crashed => none

def step (max : Nat) (s : Pass L) : PassAction → Option (Pass L)
  | .control o => s.control max o
  | .thread tid a =>
      if s.pc = .crashed then none
      else (s.mem.thread? tid).bind fun t => (s.mem.threadStep t a).map fun m =>
        (m.map fun m => { s with mem := m }).getD s.crash

/-- The entries the pass has come to. -/
def seen (s : Pass L) : List EntryPtr := s.mem.queue.take (s.mem.queue.length - s.pc.ahead.length)

/-- No thread completes a `STARTED` entry while an entry that the pass has come to is `WAITING`. -/
def KeepsSlots (s : Pass L) : PassAction → Prop
  | .thread tid .completed => ∀ t ∈ s.mem.thread? tid,
      s.mem.status t.entry = .started → t.entry ∈ s.mem.queue →
        ∀ p ∈ s.seen, s.mem.status p ≠ .waiting
  | _ => True

end Pass

/-- A pass with a limit of `max` concurrent downloads. -/
def pass (L : Type → Type) [ListApi L] (max : Nat) : Machine (Pass L) PassAction := ⟨Pass.step max⟩

/-- A whole pass that starts the entry after `visited`. -/
structure PassStarts {L : Type → Type} [ListApi L] (max : Nat) (ok : Pass L → PassAction → Prop)
    (s u : Pass L) (visited : List EntryPtr) : Prop where
  begins : s.pc = .visit s.mem.queue
  ends : u.pc = .visit []
  starts : ∃ t q rest, s.mem.queue = visited ++ q :: rest ∧ t.pc = .start q rest ∧
    (pass L max).Run ok s t ∧ (pass L max).Run ok t u

section

variable {L : Type → Type} [ListApi L] {max : Nat} {m m' : Mem L} {s s' t u : Pass L}
  {xs visited rest : List EntryPtr} {p q : EntryPtr}

/-- The `STARTED` entries among some. -/
def startedIn (m : Mem L) (xs : List EntryPtr) : Nat :=
  xs.countP fun p => decide (m.status p = .started)

omit [ListApi L] in
theorem startedIn_append (m : Mem L) (xs ys : List EntryPtr) :
    startedIn m (xs ++ ys) = startedIn m xs + startedIn m ys := List.countP_append

omit [ListApi L] in
theorem startedIn_mono (keep : ∀ q ∈ xs, m.status q = .started → m'.status q = .started) :
    startedIn m xs ≤ startedIn m' xs := by
  apply List.countP_mono_left
  intro q hq started
  rw [decide_eq_true_iff] at started ⊢
  exact keep q hq started

/-- What the pass has to keep for the entries it has passed. -/
inductive PassInTurn (max : Nat) (m : Mem L) : PassPc → Prop where
  | visit {seen rest : List EntryPtr} : m.queue = seen ++ rest →
      (∀ w ∈ seen, m.status w = .waiting → max ≤ m.started) → PassInTurn max m (.visit rest)
  | ask {seen rest : List EntryPtr} {p : EntryPtr} : m.queue = seen ++ p :: rest →
      (∀ w ∈ seen, m.status w = .waiting → max ≤ m.started) → PassInTurn max m (.ask p rest)
  /-- As long as an earlier entry waits, the count will reach the limit. As long as `p` waits, what
  was counted is still `STARTED`. -/
  | count {seen rest read left : List EntryPtr} {p : EntryPtr} {n : Nat} :
      m.queue = seen ++ p :: rest → m.queue = read ++ left →
      (∀ w ∈ seen, m.status w = .waiting → max ≤ n + startedIn m left) →
      (∀ w ∈ seen ++ [p], m.status w = .waiting → n ≤ startedIn m read) →
      PassInTurn max m (.count p rest left n)
  | start {seen rest : List EntryPtr} {p : EntryPtr} : m.queue = seen ++ p :: rest →
      (∀ w ∈ seen, m.status w ≠ .waiting) → PassInTurn max m (.start p rest)
  | mark {seen rest : List EntryPtr} {p : EntryPtr} : m.queue = seen ++ p :: rest →
      (∀ w ∈ seen, m.status w ≠ .waiting) → PassInTurn max m (.mark p rest)
  | crashed : PassInTurn max m .crashed

/-- The entries a pass has come to are those before the ones ahead. -/
theorem seen_eq (place : s.mem.queue = visited ++ s.pc.ahead) : s.seen = visited := by
  unfold Pass.seen
  rw [place, List.length_append, Nat.add_sub_cancel, List.take_left]

/-- `download_start` leaves the entries and the queue. -/
theorem downloadStart_entries {o : StartOutcome} (h : m.downloadStart p o = some m') :
    m'.queue = m.queue ∧ ∀ q, m'.status q = m.status q := by
  have same : (m.newDownloadThread p o).1.entry = m.entry ∧
      (m.newDownloadThread p o).1.downloadQueue = m.downloadQueue := by
    unfold Mem.newDownloadThread
    cases o.record with
    | false => exact ⟨rfl, rfl⟩
    | true => cases o.create <;> exact ⟨rfl, rfl⟩
  unfold Mem.downloadStart at h
  split at h
  · cases h
    exact ⟨rfl, fun _ => rfl⟩
  · obtain ⟨list, -, rfl⟩ := Option.map_eq_some_iff.mp h
    constructor
    · exact congrArg Mem.contents same.2
    · intro q
      exact congrArg (fun entry => (entry q).status) same.1

/-- One step of the pass. -/
theorem control_inTurn {pc : PassPc} {o : StartOutcome} (inv : PassInTurn max m pc)
    (h : Pass.control max o ⟨m, pc⟩ = some s') : PassInTurn max s'.mem s'.pc := by
  have passed {seen rest : List EntryPtr} {p : EntryPtr} (place : m.queue = seen ++ p :: rest) :
      m.queue = seen ++ [p] ++ rest := by
    rw [place, List.append_assoc, List.singleton_append]
  cases inv with
  | @visit seen rest place enough =>
      cases rest with
      | nil => cases h
      | cons p rest =>
          cases h
          by_cases waits : m.status p = .waiting
          · simp only [waits, if_true]
            exact .ask place enough
          · simp only [waits, if_false]
            apply PassInTurn.visit (passed place)
            intro w hw waiting
            rcases List.mem_append.mp hw with hw | hw
            · exact enough w hw waiting
            · rw [List.mem_singleton.mp hw] at waiting
              exact absurd waiting waits
  | @ask seen rest p place enough =>
      cases items : m.queueItems with
      | none =>
          simp only [Pass.control, items] at h
          cases h
          exact .crashed
      | some xs =>
          simp only [Pass.control, items] at h
          cases h
          obtain rfl := Mem.queueItems_eq items
          apply PassInTurn.count place (List.nil_append _).symm
          · intro w hw waiting
            rw [Nat.zero_add]
            exact enough w hw waiting
          · intro _ _ _
            exact Nat.zero_le _
  | @count seen rest read left p n place split reaches counted =>
      cases left with
      | nil =>
          cases h
          rw [List.append_nil] at split
          by_cases room : n < max
          · simp only [room, if_true]
            apply PassInTurn.start place
            intro w hw waiting
            exact absurd (reaches w hw waiting) (Nat.not_le.mpr room)
          · simp only [room, if_false]
            apply PassInTurn.visit (passed place)
            intro w hw waiting
            have still := counted w hw waiting
            rw [← split] at still
            exact (Nat.le_of_not_lt room).trans still
      | cons q left =>
          cases h
          have one : startedIn m [q] = if m.status q = .started then 1 else 0 := by
            by_cases started : m.status q = .started <;> simp [startedIn, started]
          have next : (if m.status q = .started then n + 1 else n) = n + startedIn m [q] := by
            rw [one]
            split <;> rfl
          change PassInTurn max m (.count p rest left (if m.status q = .started then n + 1 else n))
          rw [next]
          apply PassInTurn.count place (split.trans (List.append_cons read q left))
          · intro w hw waiting
            have total := reaches w hw waiting
            rw [← List.singleton_append, startedIn_append] at total
            omega
          · intro w hw waiting
            have still := counted w hw waiting
            rw [startedIn_append]
            omega
  | @start seen rest p place none_waits =>
      cases begun : m.downloadStart p o with
      | none =>
          simp only [Pass.control, begun] at h
          cases h
          exact .crashed
      | some m' =>
          simp only [Pass.control, begun] at h
          cases h
          obtain ⟨queue, status⟩ := downloadStart_entries begun
          apply PassInTurn.mark (queue.trans place)
          intro w hw
          rw [status]
          exact none_waits w hw
  | @mark seen rest p place none_waits =>
      cases h
      apply PassInTurn.visit (m := m.setStatus p .starting) (passed place)
      intro w hw waiting
      rw [Mem.status_setStatus] at waiting
      split at waiting
      · cases waiting
      · next other =>
        rcases List.mem_append.mp hw with hw | hw
        · exact absurd waiting (none_waits w hw)
        · exact absurd (List.mem_singleton.mp hw) other
  | crashed => cases h

omit [ListApi L] in
/-- No entry waits because of a thread. -/
theorem threadMove_waiting {thread : Thread} {a : ThreadAction} (move : m.ThreadMove thread a m')
    (waiting : m'.status p = .waiting) : m.status p = .waiting := by
  rcases move.statusCases with ⟨-, same⟩ | ⟨-, -, writes⟩ | ⟨-, -, writes, -⟩
  · rw [← same p]
    exact waiting
  · rw [writes p] at waiting
    split at waiting
    · cases waiting
    · exact waiting
  · rw [writes p] at waiting
    split at waiting
    · cases waiting
    · exact waiting

/-- When an entry that was passed waits, what is `STARTED` stays so. -/
theorem threadMove_started {thread : Thread} {a : ThreadAction} {tid : Tid}
    (found : s.mem.thread? tid = some thread) (keeps : s.KeepsSlots (.thread tid a))
    (move : s.mem.ThreadMove thread a m') (hp : p ∈ s.seen) (waiting : s.mem.status p = .waiting) :
    ∀ q ∈ s.mem.queue, s.mem.status q = .started → m'.status q = .started := by
  intro q hq started
  rcases move.statusCases with ⟨-, same⟩ | ⟨-, -, writes⟩ | ⟨rfl, -, writes, -⟩
  · rw [same q]
    exact started
  · rw [writes q]
    split
    · rfl
    · exact started
  · rw [writes q]
    split
    · next own =>
      subst own
      exact absurd waiting (keeps thread found started hq p hp)
    · exact started

/-- One step of a thread. -/
theorem threadMove_inTurn {pc : PassPc} {thread : Thread} {a : ThreadAction} {tid : Tid}
    (inv : PassInTurn max m pc) (found : m.thread? tid = some thread)
    (keeps : Pass.KeepsSlots ⟨m, pc⟩ (.thread tid a)) (move : m.ThreadMove thread a m') :
    PassInTurn max m' pc := by
  have still {w : EntryPtr} {xs : List EntryPtr} (hw : w ∈ Pass.seen ⟨m, pc⟩)
      (part : ∀ q ∈ xs, q ∈ m.queue) (waiting : m'.status w = .waiting) :
      startedIn m xs ≤ startedIn m' xs :=
    startedIn_mono fun q hq =>
      threadMove_started (s := ⟨m, pc⟩) found keeps move hw (threadMove_waiting move waiting) q
        (part q hq)
  have total {w : EntryPtr} (hw : w ∈ Pass.seen ⟨m, pc⟩) (waiting : m'.status w = .waiting) :
      m.started ≤ m'.started := by
    have more : startedIn m m.queue ≤ startedIn m' m.queue := still hw (fun _ => id) waiting
    rw [Mem.started, Mem.started, move.queue]
    exact more
  have passed {seen rest : List EntryPtr} {p : EntryPtr} (place : m.queue = seen ++ p :: rest) :
      m.queue = seen ++ [p] ++ rest := by
    rw [place, List.append_assoc, List.singleton_append]
  cases inv with
  | @visit seen rest place enough =>
      have all : Pass.seen ⟨m, .visit rest⟩ = seen := seen_eq place
      apply PassInTurn.visit (move.queue.trans place)
      intro w hw waiting
      exact (enough w hw (threadMove_waiting move waiting)).trans (total (all ▸ hw) waiting)
  | @ask seen rest p place enough =>
      have all : Pass.seen ⟨m, .ask p rest⟩ = seen ++ [p] := seen_eq (passed place)
      apply PassInTurn.ask (move.queue.trans place)
      intro w hw waiting
      have reached : w ∈ Pass.seen ⟨m, .ask p rest⟩ := all ▸ List.mem_append_left _ hw
      exact (enough w hw (threadMove_waiting move waiting)).trans (total reached waiting)
  | @count seen rest read left p n place split reaches counted =>
      have all : Pass.seen ⟨m, .count p rest left n⟩ = seen ++ [p] := seen_eq (passed place)
      apply PassInTurn.count (move.queue.trans place) (move.queue.trans split)
      · intro w hw waiting
        have reached : w ∈ Pass.seen ⟨m, .count p rest left n⟩ := all ▸ List.mem_append_left _ hw
        have more : startedIn m left ≤ startedIn m' left :=
          still reached (fun q hq => split ▸ List.mem_append_right _ hq) waiting
        have before := reaches w hw (threadMove_waiting move waiting)
        omega
      · intro w hw waiting
        have more : startedIn m read ≤ startedIn m' read :=
          still (all ▸ hw) (fun q hq => split ▸ List.mem_append_left _ hq) waiting
        exact (counted w hw (threadMove_waiting move waiting)).trans more
  | start place none_waits =>
      apply PassInTurn.start (move.queue.trans place)
      intro w hw waiting
      exact none_waits w hw (threadMove_waiting move waiting)
  | mark place none_waits =>
      apply PassInTurn.mark (move.queue.trans place)
      intro w hw waiting
      exact none_waits w hw (threadMove_waiting move waiting)
  | crashed => exact .crashed

/-- What a step of a pass does to the memory. -/
theorem pass_thread {tid : Tid} {a : ThreadAction} (h : s.step max (.thread tid a) = some s') :
    s' = s.crash ∨ ∃ thread m', s.mem.thread? tid = some thread ∧ s.mem.ThreadMove thread a m' ∧
      s' = { s with mem := m' } := by
  simp only [Pass.step] at h
  split at h
  · cases h
  · obtain ⟨thread, found, h⟩ := Option.bind_eq_some_iff.mp h
    obtain ⟨result, stepped, rfl⟩ := Option.map_eq_some_iff.mp h
    cases result with
    | none => exact Or.inl rfl
    | some m' => exact Or.inr ⟨thread, m', found, Mem.threadStep_move stepped, rfl⟩

theorem step_inTurn {a : PassAction} (inv : PassInTurn max s.mem s.pc) (keeps : s.KeepsSlots a)
    (h : s.step max a = some s') : PassInTurn max s'.mem s'.pc := by
  cases a with
  | control o => exact control_inTurn inv h
  | thread tid a =>
      rcases pass_thread h with rfl | ⟨thread, m', found, move, rfl⟩
      · exact .crashed
      · exact threadMove_inTurn inv found keeps move

/-- No step of the pass makes an entry wait, or changes the queue. -/
theorem control_frame {pc : PassPc} {o : StartOutcome} (h : Pass.control max o ⟨m, pc⟩ = some s') :
    s'.mem.queue = m.queue ∧ ∀ p, s'.mem.status p = .waiting → m.status p = .waiting := by
  cases pc with
  | visit rest =>
      cases rest with
      | nil => cases h
      | cons p rest =>
          cases h
          exact ⟨rfl, fun _ => id⟩
  | ask p rest =>
      cases items : m.queueItems <;> simp only [Pass.control, items] at h <;> cases h <;>
        exact ⟨rfl, fun _ => id⟩
  | count p rest left n =>
      cases left <;> cases h <;> exact ⟨rfl, fun _ => id⟩
  | start p rest =>
      cases begun : m.downloadStart p o with
      | none =>
          simp only [Pass.control, begun] at h
          cases h
          exact ⟨rfl, fun _ => id⟩
      | some m' =>
          simp only [Pass.control, begun] at h
          cases h
          obtain ⟨queue, status⟩ := downloadStart_entries begun
          exact ⟨queue, fun p waits => (status p).symm.trans waits⟩
  | mark p rest =>
      cases h
      constructor
      · rfl
      · intro q waits
        rw [Mem.status_setStatus] at waits
        split at waits
        · cases waits
        · exact waits
  | crashed => cases h

theorem step_frame {a : PassAction} (h : s.step max a = some s') :
    s'.mem.queue = s.mem.queue ∧ ∀ p, s'.mem.status p = .waiting → s.mem.status p = .waiting := by
  cases a with
  | thread tid a =>
      rcases pass_thread h with rfl | ⟨thread, m', -, move, rfl⟩
      · exact ⟨rfl, fun _ => id⟩
      · exact ⟨move.queue, fun _ => threadMove_waiting move⟩
  | control o => exact control_frame h

theorem run_frame {ok : Pass L → PassAction → Prop} (run : (pass L max).Run ok s t) :
    t.mem.queue = s.mem.queue ∧ ∀ p, t.mem.status p = .waiting → s.mem.status p = .waiting := by
  induction run with
  | refl => exact ⟨rfl, fun _ => id⟩
  | tail _ _ step ih =>
      obtain ⟨queue, waiting⟩ := step_frame step
      exact ⟨queue.trans ih.1, fun p waits => ih.2 p (waiting p waits)⟩

theorem run_inTurn (run : (pass L max).Run Pass.KeepsSlots s t) (begins : s.pc = .visit s.mem.queue) :
    PassInTurn max t.mem t.pc := by
  apply run.invariant (I := fun t => PassInTurn max t.mem t.pc)
  · rw [begins]
    apply PassInTurn.visit (List.nil_append _).symm
    intro w hw
    cases hw
  · intro t a u inv keeps step
    exact step_inTurn inv keeps step

end

/-! ### The passes of the controller -/

/-- Where a pass of the controller is. The controller counts in one step. -/
def Pc.pass : Pc → Option PassPc
  | .visit rest => some (.visit rest)
  | .count p rest => some (.ask p rest)
  | .start p rest => some (.start p rest)
  | .mark p rest => some (.mark p rest)
  | _ => none

theorem Pc.pass_running {pc : Pc} {pc' : PassPc} (h : pc.pass = some pc') : pc' ≠ .crashed := by
  rintro rfl
  cases pc <;> cases h

def Action.pass : Action → Option PassAction
  | .control o => some (.control o.start)
  | .thread tid a => some (.thread tid a)
  | _ => none

section

variable {L : Type → Type} [ListApi L] [LawfulListApi L] {max : Nat}
  {ok : Pass L → PassAction → Prop} {m : Mem L} {c c' : Config L} {pc pc' : PassPc}

omit [LawfulListApi L] in
theorem count_run (free : ∀ s o, ok s (.control o)) (p : EntryPtr) (rest left : List EntryPtr) (n : Nat) :
    (pass L max).Run ok ⟨m, .count p rest left n⟩ ⟨m, .count p rest [] (n + startedIn m left)⟩ := by
  induction left generalizing n with
  | nil => exact .refl
  | cons q left ih =>
      have one := Machine.Run.tail (M := pass L max) .refl (free ⟨m, .count p rest (q :: left) n⟩ {}) rfl
      have more := ih (if m.status q = .started then n + 1 else n)
      have total : (if m.status q = .started then n + 1 else n) + startedIn m left =
          n + startedIn m (q :: left) := by
        by_cases started : m.status q = .started
        · simp only [startedIn, started, if_true, decide_true, List.countP_cons_of_pos]
          omega
        · simp [startedIn, started]
      rw [total] at more
      exact one.trans more

/-- What was counted can be traversed. -/
theorem queueItems_of_count {n : Nat} (wf : m.Wf) (counted : m.queueCountStarted = some n) :
    ∃ items, m.queueItems = some items := by
  unfold Mem.queueCountStarted at counted
  unfold Mem.queueItems
  cases hq : m.downloadQueue with
  | none => exact ⟨[], rfl⟩
  | some list =>
      simp only [hq, LawfulListApi.forEachCompare (wf.downloadQueue list hq)] at counted
      obtain ⟨items, traversed, -⟩ := Option.bind_eq_some_iff.mp counted
      exact ⟨items, traversed⟩

/-- A step of the controller in a pass. -/
theorem control_pass {o : Outcome} (free : ∀ s o, ok s (.control o)) (wf : c.mem.Wf)
    (here : c.pc.pass = some pc) (there : c'.pc.pass = some pc') (h : c.control max o = some c') :
    (pass L max).Run ok ⟨c.mem, pc⟩ ⟨c'.mem, pc'⟩ := by
  have one {s : Pass L} (step : Pass.control max o.start ⟨c.mem, pc⟩ = some s) :
      (pass L max).Run ok ⟨c.mem, pc⟩ s := .tail .refl (free _ o.start) step
  cases at_pc : c.pc with
  | visit rest =>
      rw [at_pc] at here
      cases here
      cases rest with
      | nil =>
          simp only [Config.control, at_pc] at h
          split at h <;> cases h <;> cases there
      | cons p rest =>
          apply one
          by_cases waits : c.mem.status p = .waiting
          · simp only [Config.control, at_pc, waits, if_true] at h
            cases h
            cases there
            simp only [Pass.control, waits, if_true]
          · simp only [Config.control, at_pc, waits, if_false] at h
            cases h
            cases there
            simp only [Pass.control, waits, if_false]
  | count p rest =>
      rw [at_pc] at here
      cases here
      simp only [Config.control, at_pc] at h
      rcases orCrash_cases h with rfl | h
      · cases there
      · obtain ⟨n, counted, rfl⟩ := Option.map_eq_some_iff.mp h
        obtain ⟨items, traversed⟩ := queueItems_of_count wf counted
        have asks : (pass L max).Run ok ⟨c.mem, .ask p rest⟩ ⟨c.mem, .count p rest items 0⟩ := by
          apply one
          simp only [Pass.control, traversed]
          rfl
        obtain rfl := Mem.queueItems_eq traversed
        have total : 0 + startedIn c.mem c.mem.queue = n := by
          rw [Mem.queueCountStarted_eq wf counted, Nat.zero_add]
          rfl
        have counts := asks.trans (count_run free p rest c.mem.queue 0)
        rw [total] at counts
        apply counts.tail (free _ {})
        by_cases room : n < max
        · simp only [room, if_true] at there ⊢
          cases there
          simp only [pass, Pass.step, Pass.control, room, if_true]
        · simp only [room, if_false] at there ⊢
          cases there
          simp only [pass, Pass.step, Pass.control, room, if_false]
  | start p rest =>
      rw [at_pc] at here
      cases here
      simp only [Config.control, at_pc] at h
      rcases orCrash_cases h with rfl | h
      · cases there
      · obtain ⟨m, begun, rfl⟩ := Option.map_eq_some_iff.mp h
        cases there
        apply one
        simp only [Pass.control, begun]
        rfl
  | mark p rest =>
      rw [at_pc] at here
      cases here
      simp only [Config.control, at_pc] at h
      cases h
      cases there
      exact one rfl
  | _ =>
      rw [at_pc] at here
      cases here

/-- A pass of the controller is a pass. -/
theorem pass_of_controller (free : ∀ s o, ok s (.control o)) (wf : c.mem.Wf)
    (here : c.pc.pass = some pc)
    (run : (controller L max).Run
      (fun c a => ∃ pc b, c.pc.pass = some pc ∧ a.pass = some b ∧ ok ⟨c.mem, pc⟩ b) c c') :
    c'.mem.Wf ∧ ∀ pc', c'.pc.pass = some pc' →
      (pass L max).Run ok ⟨c.mem, pc⟩ ⟨c'.mem, pc'⟩ := by
  induction run with
  | refl =>
      constructor
      · exact wf
      · intro pc' there
        cases here.symm.trans there
        exact .refl
  | @tail d e a before good step ih =>
      obtain ⟨wf', reaches⟩ := ih
      obtain ⟨pc₁, b, at_d, passes, fine⟩ := good
      have so_far := reaches pc₁ at_d
      cases a with
      | request r response => cases passes
      | signal fopen => cases passes
      | control o =>
          constructor
          · exact (control_move wf' step).1
          · intro pc' there
            exact so_far.trans (control_pass free wf' at_d there step)
      | thread tid a =>
          cases passes
          have moved : d.step max (.thread tid a) = some e := step
          have sound : e.mem.Wf := (step_view wf' moved).1
          constructor
          · exact sound
          · intro pc' there
            simp only [controller, Config.step] at step
            split at step
            · obtain ⟨thread, found, step⟩ := Option.bind_eq_some_iff.mp step
              obtain ⟨result, stepped, rfl⟩ := Option.map_eq_some_iff.mp step
              cases result with
              | none => cases there
              | some m' =>
                  obtain rfl : pc₁ = pc' := Option.some.inj (at_d.symm.trans there)
                  apply so_far.tail fine
                  have running : pc₁ ≠ .crashed := Pc.pass_running at_d
                  simp only [pass, Pass.step, running, if_false, found, Option.bind_some, stepped]
                  rfl
            · cases step

end

/-! ### Passes that are replayed -/

section

variable {L : Type → Type} [ListApi L] {max : Nat} {ok : Pass L → PassAction → Prop}

instance (s : Pass L) (a : PassAction) : Decidable (s.KeepsSlots a) := by
  cases a with
  | control o => exact isTrue trivial
  | thread tid a =>
      cases a with
      | completed =>
          unfold Pass.KeepsSlots
          infer_instance
      | _ => exact isTrue trivial

/-- A pass that is replayed, up to the start of an entry and to the end. -/
theorem passStarts_of_exec [∀ s a, Decidable (ok s a)] (s : Pass L) (as bs : List PassAction)
    (visited : List EntryPtr) (q : EntryPtr) (rest : List EntryPtr) (p : Pass L → Prop)
    [∀ s, Decidable (p s)] (begins : s.pc = .visit (visited ++ q :: rest))
    (queue : s.mem.queue = visited ++ q :: rest)
    (h : (((pass L max).exec ok as s).any fun t => decide (t.pc = .start q rest) &&
      ((pass L max).exec ok bs t).any fun u => decide (u.pc = .visit [] ∧ p u)) = true) :
    ∃ u, PassStarts max ok s u visited ∧ p u := by
  cases first : (pass L max).exec ok as s with
  | none => simp [first] at h
  | some t =>
      rw [first, Option.any_some, Bool.and_eq_true, decide_eq_true_iff] at h
      obtain ⟨starts, h⟩ := h
      obtain ⟨u, run, ends, holds⟩ := Machine.exists_run_of_exec (pass L max) ok t bs
        (fun u => u.pc = .visit [] ∧ p u) h
      apply Exists.intro u
      constructor
      · constructor
        · rw [queue]
          exact begins
        · exact ends
        · exact ⟨t, q, rest, queue, starts, Machine.exec_run first, run⟩
      · exact holds

end

/-- The steps of a pass itself. -/
def passSteps (n : Nat) : List PassAction := List.replicate n (.control {})

/-- The pass the controller is about to make. -/
def Config.passing (c : Config HeapList) : Pass HeapList := ⟨c.mem, .visit c.mem.queue⟩

/-- `a` is being downloaded, `b` waits, and so does `c`, which was just added. -/
def threeEntries : List Action :=
  startUp ++ ask (download ['a'] ['x', '/', 'a']) 7 ++
    [.thread 0 (.openFile true), .thread 0 .started] ++
    ask (download ['b'] ['x', '/', 'b']) 6 ++ ask (download ['c'] ['x', '/', 'c']) 1

/-- Entries start in the order of the queue: when no thread completes a `STARTED` entry while an
entry that the pass has come to waits, an entry that waits before and after the pass does not come
before one that the pass starts. -/
theorem first_come_first_served {max : Nat} {s u : Pass HeapList} {visited : List EntryPtr}
    (passed : PassStarts max Pass.KeepsSlots s u visited) : ∀ p ∈ visited,
      s.mem.status p = .waiting → u.mem.status p ≠ .waiting := by
  intro p hp _ after
  obtain ⟨t, q, rest, place, starts, run, goesOn⟩ := passed.starts
  have waits : t.mem.status p = .waiting := (run_frame goesOn).2 p after
  have inv := run_inTurn run passed.begins
  rw [starts] at inv
  cases inv with
  | @start seen _ _ place' none_waits =>
      have places : seen ++ q :: rest = visited ++ q :: rest := by
        rw [← place', ← place, (run_frame run).1]
      obtain rfl := List.append_cancel_right places
      exact none_waits p hp waits

/-- The download of `a` has completed: `b` starts, and then `c`. -/
theorem first_come_first_served_pass : ∃ s u : Pass HeapList,
    PassStarts 1 Pass.KeepsSlots s u [0, 1] ∧ s.mem.status 1 = .waiting ∧
      u.mem.status 1 ≠ .waiting := by
  obtain ⟨c, -, queue, waits, replay⟩ := Machine.exists_run_of_exec (controller HeapList 1)
    (fun _ _ => True) (boot HeapList [])
    (threeEntries ++ [.thread 0 (.perform true), .thread 0 .completed])
    (fun c => c.mem.queue = [0, 1] ++ 2 :: [] ∧ c.mem.status 1 = .waiting ∧
      (((pass HeapList 1).exec Pass.KeepsSlots (passSteps 15) c.passing).any fun t =>
        decide (t.pc = .start 2 []) &&
          ((pass HeapList 1).exec Pass.KeepsSlots (passSteps 2) t).any fun u =>
            decide (u.pc = .visit [] ∧ True)) = true) (by decide)
  obtain ⟨u, passed, -⟩ := passStarts_of_exec c.passing _ _ [0, 1] 2 [] (fun _ => True)
    (congrArg PassPc.visit queue) queue replay
  exact ⟨c.passing, u, passed, waits, first_come_first_served passed 1 (by decide) waits⟩

/-- `b` was passed when the download of `a` completes, and `c` starts. -/
theorem overtaken : ¬ ∀ (max : Nat) (s u : Pass HeapList) (visited : List EntryPtr),
    PassStarts max (fun _ _ => True) s u visited → ∀ p ∈ visited,
      s.mem.status p = .waiting → u.mem.status p ≠ .waiting := by
  intro all
  obtain ⟨c, -, queue, waits, replay⟩ := Machine.exists_run_of_exec (controller HeapList 1)
    (fun _ _ => True) (boot HeapList []) threeEntries
    (fun c => c.mem.queue = [0, 1] ++ 2 :: [] ∧ c.mem.status 1 = .waiting ∧
      (((pass HeapList 1).exec (fun _ _ => True)
        (passSteps 7 ++ [.thread 0 (.perform true), .thread 0 .completed] ++ passSteps 6)
        c.passing).any fun t => decide (t.pc = .start 2 []) &&
          ((pass HeapList 1).exec (fun _ _ => True) (passSteps 2) t).any fun u =>
            decide (u.pc = .visit [] ∧ u.mem.status 1 = .waiting)) = true) (by decide)
  obtain ⟨u, passed, still⟩ := passStarts_of_exec c.passing _ _ [0, 1] 2 [] _
    (congrArg PassPc.visit queue) queue replay
  exact all 1 c.passing u [0, 1] passed 1 (by decide) waits still

end Dserve
