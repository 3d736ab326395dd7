import Dserve.Transaction
import Mathlib.Algebra.Order.Field.Rat
import Mathlib.Data.List.Induction
import Mathlib.Tactic.Linarith

/-!
`progress_callback`: what an entry says of its download, over the calls of several transfers.

A call refreshes the sample when a second has passed since the one before. Then `remaining` is set
to the total, `speed` to the bytes since the previous refresh without regard to the seconds, or to
the count of a transfer minus the count another one had reached, and `size` stays the total of the
first transfer. The accounts are right exactly when nothing has arrived (`accounts_iff`).
-/

namespace Dserve

/-- What happens to an entry: a transfer begins, or its thread calls `progress_callback`. -/
inductive Activity where
  | transfer (total : ℚ)
  | call (dlnow : ℚ) (first second : Int)

/-- An entry, and what has arrived for it. -/
structure Meter where
  entry : Counters ℚ
  /-- the total of the transfer -/
  total : ℚ
  /-- the last count of the transfer -/
  count : ℚ
  /-- the bytes of all transfers -/
  received : ℚ
  /-- the bytes there were when the sample was taken -/
  sampled : ℚ
  clock : Int

/-- An entry that was not downloaded yet. -/
def Meter.fresh (clock : Int) : Meter :=
  { entry := ⟨0, 0, 0, 0, ⟨0, 0⟩⟩, total := 0, count := 0, received := 0, sampled := 0,
    clock := clock }

namespace Meter

/-- The call takes the first sample. -/
def Samples (m : Meter) : Prop := m.entry.time.measured = 0

/-- The call refreshes the sample. -/
def Due (m : Meter) (second : Int) : Prop :=
  m.entry.time.measured ≠ 0 ∧ second - m.entry.time.measured ≥ 1

instance (m : Meter) : Decidable m.Samples := inferInstanceAs (Decidable (_ = _))
instance (m : Meter) (second : Int) : Decidable (m.Due second) := inferInstanceAs (Decidable (_ ∧ _))

def step (m : Meter) : Activity → Meter
  | .transfer total => { m with total := total, count := 0 }
  | .call dlnow first second =>
      let received := m.received + (dlnow - m.count)
      { m with
        entry := progressCallback m.entry m.total dlnow first second
        count := dlnow
        received := received
        sampled := if m.Samples ∨ m.Due second then received else m.sampled
        clock := second }

/-- Totals are positive, a count does not fall and does not pass the total, and the clock does not
go back. -/
def Allowed (m : Meter) : Activity → Prop
  | .transfer total => 0 < total
  | .call dlnow first second =>
      0 < m.total ∧ m.count ≤ dlnow ∧ dlnow ≤ m.total ∧ m.clock ≤ first ∧ first ≤ second

/-- The activity refreshes the sample. -/
def Refreshes (m : Meter) : Activity → Prop
  | .transfer _ => False
  | .call _ _ second => m.Due second

/-- What an entry says after a call that refreshed the sample. -/
structure Accounts (m next : Meter) : Prop where
  size : next.entry.size = next.total
  remaining : next.entry.remaining = next.entry.size - next.entry.complete
  started : 0 ≤ next.entry.complete
  bounded : next.entry.complete ≤ next.entry.size
  speed : next.entry.speed =
    (next.received - m.sampled) / ((next.entry.time.measured - m.entry.time.measured : Int) : ℚ)
  forward : 0 ≤ next.entry.speed

/-- Nothing has arrived in this transfer, nothing since the last sample, and the total is still the
first one. -/
def Quiet (m : Meter) : Activity → Prop
  | .transfer _ => True
  | .call dlnow _ _ => dlnow = 0 ∧ m.entry.size = m.total ∧ m.received = m.sampled

end Meter

/-- The meter after some activities. -/
def meterAfter (clock : Int) (activities : List Activity) : Meter :=
  activities.foldl Meter.step (.fresh clock)

/-- Every activity is allowed when it comes. -/
def Meter.AllowsAll (m : Meter) : List Activity → Prop
  | [] => True
  | a :: activities => m.Allowed a ∧ (m.step a).AllowsAll activities

/-- What one entry goes through. -/
structure History where
  clock : Int
  activities : List Activity
  allowed : (Meter.fresh clock).AllowsAll activities

/-- A call of the history that refreshes the sample, after some activities. -/
def History.Refresh (h : History) (before : List Activity) (a : Activity) : Prop :=
  before ++ [a] <+: h.activities ∧ (meterAfter h.clock before).Refreshes a

/-- The accounts are right after every call that refreshes the sample. -/
def History.Right (h : History) : Prop :=
  ∀ before a, h.Refresh before a →
    Meter.Accounts (meterAfter h.clock before) (meterAfter h.clock (before ++ [a]))

/-! ### One call -/

section

variable {e : Counters ℚ} {dltotal dlnow : ℚ} {first second : Int}

/-- A call gives an entry without a size one, and then takes the first sample, refreshes it, or
leaves it. -/
theorem progressCallback_cases (e : Counters ℚ) (dltotal dlnow : ℚ) (first second : Int) :
    ∃ e₁ : Counters ℚ, e₁.size = (if e.size = 0 then dltotal else e.size) ∧ e₁.complete = e.complete ∧
      (e.time.measured = 0 ∧ progressCallback e dltotal dlnow first second =
          { e₁ with time := { e₁.time with measured := second } } ∨
        (e.time.measured ≠ 0 ∧ second - e.time.measured ≥ 1) ∧
          progressCallback e dltotal dlnow first second =
            { e₁ with
              speed := dlnow - e₁.complete
              time := { e₁.time with measured := second }
              remaining := dltotal
              complete := dlnow } ∨
        (e.time.measured ≠ 0 ∧ ¬ second - e.time.measured ≥ 1) ∧
          progressCallback e dltotal dlnow first second = e₁) := by
  refine ⟨if e.size = 0 then { e with size := dltotal, time := { e.time with start := first } } else e,
    by split <;> rfl, by split <;> rfl, ?_⟩
  have measured : (if e.size = 0 then { e with size := dltotal, time := { e.time with start := first } }
      else e).time.measured = e.time.measured := by split <;> rfl
  simp only [progressCallback, measured]
  by_cases sample : e.time.measured = 0
  · exact Or.inl ⟨sample, if_pos sample⟩
  · rw [if_neg sample]
    by_cases due : second - e.time.measured ≥ 1
    · exact Or.inr (Or.inl ⟨⟨sample, due⟩, if_pos due⟩)
    · exact Or.inr (Or.inr ⟨⟨sample, due⟩, if_neg due⟩)

theorem progressCallback_size : (progressCallback e dltotal dlnow first second).size =
    if e.size = 0 then dltotal else e.size := by
  obtain ⟨e₁, size, -, ⟨-, eq⟩ | ⟨-, eq⟩ | ⟨-, eq⟩⟩ := progressCallback_cases e dltotal dlnow first second
  · rw [eq, size]
  · rw [eq, size]
  · rw [eq, size]

theorem progressCallback_complete : (progressCallback e dltotal dlnow first second).complete =
    if e.time.measured ≠ 0 ∧ second - e.time.measured ≥ 1 then dlnow else e.complete := by
  obtain ⟨e₁, -, complete, ⟨sample, eq⟩ | ⟨due, eq⟩ | ⟨wait, eq⟩⟩ :=
    progressCallback_cases e dltotal dlnow first second
  · rw [eq, if_neg fun due => due.1 sample, complete]
  · rw [eq, if_pos due]
  · rw [eq, if_neg fun due => wait.2 due.2, complete]

theorem progressCallback_due (dltotal dlnow : ℚ) (first : Int) (sized : e.size ≠ 0) (sampled : e.time.measured ≠ 0)
    (due : second - e.time.measured ≥ 1) : progressCallback e dltotal dlnow first second =
      { e with
        speed := dlnow - e.complete
        time := { e.time with measured := second }
        remaining := dltotal
        complete := dlnow } := by
  unfold progressCallback
  rw [if_neg sized]
  exact (if_neg sampled).trans (if_pos due)

end

namespace Meter

variable {m : Meter} {a : Activity}

/-- What every activity keeps. -/
structure Kept (m : Meter) : Prop where
  sized : m.entry.time.measured ≠ 0 → m.entry.size ≠ 0
  complete : 0 ≤ m.entry.complete
  count : 0 ≤ m.count

theorem Kept.step (kept : m.Kept) (allowed : m.Allowed a) : (m.step a).Kept := by
  cases a with
  | transfer total => exact ⟨kept.sized, kept.complete, le_refl 0⟩
  | call dlnow first second =>
      obtain ⟨positive, rises, -⟩ := allowed
      have now : 0 ≤ dlnow := kept.count.trans rises
      constructor
      · intro _ zero
        simp only [Meter.step] at zero
        rw [progressCallback_size] at zero
        split at zero
        · exact absurd zero (ne_of_gt positive)
        · contradiction
      · simp only [Meter.step]
        rw [progressCallback_complete]
        split
        · exact now
        · exact kept.complete
      · exact now

/-- The accounts after a refresh are right exactly when nothing was counted before it and nothing
has arrived. -/
theorem accounts_step (kept : m.Kept) (allowed : m.Allowed a) (refreshes : m.Refreshes a) :
    Accounts m (m.step a) ↔ m.entry.complete = 0 ∧ m.Quiet a := by
  cases a with
  | transfer total => cases refreshes
  | call dlnow first second =>
      obtain ⟨positive, rises, below, -⟩ := allowed
      obtain ⟨sampled, due⟩ := refreshes
      have callback := progressCallback_due m.total dlnow first (kept.sized sampled) sampled due
      have seconds : (0 : ℚ) < ((second - m.entry.time.measured : Int) : ℚ) := by
        exact_mod_cast Int.lt_of_lt_of_le Int.zero_lt_one due
      constructor
      · rintro ⟨size, remaining, -, -, speed, forward⟩
        simp only [step, callback] at size remaining speed forward
        -- what remains is the whole total, so that the count is zero
        obtain rfl : dlnow = 0 := by linarith
        have uncounted : m.entry.complete = 0 := le_antisymm (by linarith) kept.complete
        have idle : m.count = 0 := le_antisymm rises kept.count
        rw [uncounted, idle, eq_comm, div_eq_iff (ne_of_gt seconds)] at speed
        have silent : m.received = m.sampled := by linarith
        exact ⟨uncounted, rfl, size, silent⟩
      · rintro ⟨uncounted, rfl, sized, silent⟩
        have idle : m.count = 0 := le_antisymm rises kept.count
        constructor
        · simp only [step, callback]
          exact sized
        · simp only [step, callback, sized, sub_zero]
        · simp only [step, callback]
          exact le_refl 0
        · simp only [step, callback, sized]
          exact le_of_lt positive
        · simp only [step, callback, uncounted, idle, silent, sub_self, add_zero, zero_div]
        · simp only [step, callback, uncounted, sub_self]
          exact le_refl 0

/-- Only a refresh changes the count of the entry. -/
theorem complete_step : (m.step a).entry.complete = m.entry.complete ∨
    m.Refreshes a ∧ (m.Quiet a → (m.step a).entry.complete = 0) := by
  cases a with
  | transfer total => exact Or.inl rfl
  | call dlnow first second =>
      simp only [step]
      rw [progressCallback_complete]
      split
      · next due => exact Or.inr ⟨due, fun quiet => quiet.1⟩
      · exact Or.inl rfl

end Meter

/-! ### Histories -/

theorem meterAfter_append (clock : Int) (before : List Activity) (a : Activity) :
    meterAfter clock (before ++ [a]) = (meterAfter clock before).step a := by
  rw [meterAfter, List.foldl_append]
  rfl

theorem Meter.allowsAll_append {m : Meter} (before after : List Activity) :
    m.AllowsAll (before ++ after) ↔
      m.AllowsAll before ∧ (before.foldl Meter.step m).AllowsAll after := by
  induction before generalizing m with
  | nil => exact ⟨fun allowed => ⟨trivial, allowed⟩, And.right⟩
  | cons a before ih =>
      simp only [List.cons_append, Meter.AllowsAll, List.foldl_cons, ih, and_assoc]

namespace History

variable (h : History)

/-- Each refresh comes after nothing. -/
def Idle : Prop := ∀ before a, h.Refresh before a → (meterAfter h.clock before).Quiet a

variable {h} {before : List Activity} {a : Activity}

theorem allowed_of_front (part : before ++ [a] <+: h.activities) :
    (meterAfter h.clock before).Allowed a := by
  obtain ⟨after, parts⟩ := part
  have allowed := h.allowed
  rw [← parts, List.append_assoc, Meter.allowsAll_append] at allowed
  exact allowed.2.1

/-- What one activity keeps holds all along. -/
theorem kept (part : before <+: h.activities) : (meterAfter h.clock before).Kept := by
  induction before using List.reverseRecOn with
  | nil => exact ⟨fun nonzero => absurd rfl nonzero, le_refl 0, le_refl 0⟩
  | append_singleton before a ih =>
      rw [meterAfter_append]
      exact (ih ((List.prefix_append before [a]).trans part)).step (allowed_of_front part)

/-- As long as each refresh comes after nothing, the entry counts nothing. -/
theorem uncounted (part : before <+: h.activities)
    (idle : ∀ earlier a, earlier ++ [a] <+: before → h.Refresh earlier a →
      (meterAfter h.clock earlier).Quiet a) : (meterAfter h.clock before).entry.complete = 0 := by
  induction before using List.reverseRecOn with
  | nil => rfl
  | append_singleton before a ih =>
      have shorter := List.prefix_append before [a]
      have zero := ih (shorter.trans part) fun earlier a' within =>
        idle earlier a' (within.trans shorter)
      rw [meterAfter_append]
      rcases Meter.complete_step (m := meterAfter h.clock before) (a := a) with same | ⟨refreshes, sets⟩
      · rw [same, zero]
      · exact sets (idle before a (List.prefix_rfl) ⟨part, refreshes⟩)

end History

/-- The accounts of an entry are right after every refresh exactly when at each of them nothing has
arrived: the count is zero, no byte came since the last sample, and the total is the first one. -/
theorem accounts_iff (h : History) : h.Right ↔ h.Idle := by
  constructor
  · intro right before a refresh
    have kept := h.kept ((List.prefix_append before [a]).trans refresh.1)
    have accounts := right before a refresh
    rw [meterAfter_append] at accounts
    exact ((Meter.accounts_step kept (History.allowed_of_front refresh.1) refresh.2).mp accounts).2
  · intro idle before a refresh
    have part : before <+: h.activities := (List.prefix_append before [a]).trans refresh.1
    rw [meterAfter_append, Meter.accounts_step (h.kept part) (History.allowed_of_front refresh.1) refresh.2]
    exact ⟨h.uncounted part fun earlier a' _ => idle earlier a', idle before a refresh⟩

/-- Ten bytes of a hundred arrive in a second. -/
def tenBytes : History where
  clock := 1
  activities := [.transfer 100, .call 0 1 1] ++ [.call 10 2 2]
  allowed := by norm_num [Meter.AllowsAll, Meter.Allowed, Meter.step, Meter.fresh]

/-- After the first ten of a hundred bytes a hundred remain. -/
theorem remaining_total : ¬ ∀ h : History, h.Right := by
  intro all
  have refresh : tenBytes.Refresh [.transfer 100, .call 0 1 1] (.call 10 2 2) := by
    constructor
    · exact List.prefix_rfl
    · simp [tenBytes, meterAfter, Meter.step, Meter.fresh, Meter.Refreshes, Meter.Due,
        progressCallback]
  have remaining := (all tenBytes _ _ refresh).remaining
  norm_num [tenBytes, meterAfter, Meter.step, Meter.fresh, progressCallback] at remaining

end Dserve
