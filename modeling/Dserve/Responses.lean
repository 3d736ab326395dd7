import Dserve.Sound
import Dserve.Stop

/-!
Whether the responses tell the truth.

A `PAUSE`, `CANCEL` or `RESTART` should be answered `SUCCESS` when it had its effect,
and otherwise `FAILURE` with nothing changed. The code answers `FAILURE` only when no
entry has the id; each handler assigns `SUCCESS` in all its branches. `responses_truthful`
gives the states in which this is the truth. The `PAUSE` of a download that is
`COMPLETED` is one of the others (`completed_paused`).
-/

namespace Dserve

variable {m m' : Mem HeapList} {id : CString} {p : EntryPtr} {r : RecordPtr}

/-! ### What a request is for -/

/-- The queue, the statuses of its entries and the thread list are as before. -/
structure Unchanged (m m' : Mem HeapList) : Prop where
  queue : m'.queueItems = m.queueItems
  statuses : ∀ p ∈ m.queue, m'.status p = m.status p
  records : m'.recordItems = m.recordItems

/-- The thread list can be traversed, and has no record of `p`. -/
def NoRecord (m : Mem HeapList) (p : EntryPtr) : Prop :=
  ∃ items, m.recordItems = some items ∧ ∀ r, some r ∈ items → (m.record r).entry ≠ p

/-- The effect of a `PAUSE`. -/
def IsPaused (id : CString) (m' : Mem HeapList) : Prop :=
  ∃ p, m'.findEntry id = some (some p) ∧ m'.status p = .paused ∧ NoRecord m' p

/-- The effect of a `CANCEL`. -/
def IsCancelled (m : Mem HeapList) (id : CString) (m' : Mem HeapList) : Prop :=
  (∃ p, m.findEntry id = some (some p)) ∧ m'.findEntry id = some none

/-- The effect of a `RESTART`. -/
def IsRestarted (m : Mem HeapList) (id : CString) (m' : Mem HeapList) : Prop :=
  ∃ p, m.findEntry id = some (some p) ∧ (m.status p = .waiting ∨ m.status p = .paused) ∧
    (m'.status p = .waiting ∨ m'.status p = .starting)

/-- A response that tells the truth: `SUCCESS` exactly when the request had its effect,
otherwise `FAILURE` with nothing changed. -/
def Truthful (m : Mem HeapList) (effect : Mem HeapList → Prop)
    (result : Option (Mem HeapList × Transaction)) : Prop :=
  ∃ m' response, result = some (m', response) ∧ (response.status = .success ↔ effect m') ∧
    (response.status ≠ .success → response.status = .failure ∧ Unchanged m m')

/-! ### When the responses are truthful -/

/-- The record that is found for `id` is one of `p`, the only one, and not the first of
the thread list. -/
def StopsOnly (m : Mem HeapList) (id : CString) (p : EntryPtr) : Prop :=
  ∃ before r after, m.recordItems = some (before ++ some r :: after) ∧ before ≠ [] ∧
    m.findRecord id = some (some r) ∧ (m.record r).entry = p ∧
    ∀ r', some r' ∈ before ++ after → (m.record r').entry ≠ p

/-- A `PAUSE` is truthful when no entry has the id; or when the entry is `STARTED` and
its record can be taken out; or when it is neither `COMPLETED` nor `CANCELLED` and has no
record. -/
def PauseHonest (m : Mem HeapList) (id : CString) : Prop :=
  match m.findEntry id with
  | none => False
  | some none => True
  | some (some p) =>
      match m.status p with
      | .started => StopsOnly m id p
      | .completed => False
      | .cancelled => False
      | _ => NoRecord m p

/-- A `CANCEL` is truthful when no entry has the id; or when the entry is not the first
of the queue and the only one with the id, and, if it is `STARTED`, the thread list can
be searched for its record and for the bytes of that record. -/
def CancelHonest (m : Mem HeapList) (id : CString) : Prop :=
  match m.findEntry id with
  | none => False
  | some none => True
  | some (some p) => m.queue.head? ≠ some p ∧ (∀ q ∈ m.queue, m.name q = id → q = p) ∧
      (m.status p = .started → match m.findRecord id with
        | none => False
        | some none => True
        | some (some r) => m.findRecord (m.record r).handle ≠ none)

/-- An allocation that `download_start` does not test fails in a pass that starts the
given entries; `listed` says whether there is a thread list. -/
def StartsFail (starts : EntryPtr → StartOutcome) : Bool → List EntryPtr → Prop
  | _, [] => False
  | true, p :: ps => (starts p).node = false ∨ StartsFail starts true ps
  | false, p :: ps =>
      if (starts p).listNew then (starts p).node = false ∨ StartsFail starts true ps
      else StartsFail starts false ps

/-- A `RESTART` is truthful when no entry has the id; or when the entry is `WAITING` or
`PAUSED` and the pass that follows, if there is a slot, finds a thread list it can append
to and no allocation fails that is not tested. -/
def RestartHonest (max : Nat) (starts : EntryPtr → StartOutcome) (m : Mem HeapList) (id : CString) :
    Prop :=
  match m.findEntry id with
  | none => False
  | some none => True
  | some (some p) => (m.status p = .waiting ∨ m.status p = .paused) ∧
      (m.started < max → m.recordItems ≠ none ∧
        ¬ StartsFail starts m.threadList.isSome
          (m.queue.filter fun q => decide (q = p ∨ m.status q = .waiting)))

/-! ### The two lists -/

theorem findEntry_items (wf : m.Wf) :
    m.findEntry id = m.queueItems.map fun xs => xs.find? fun p => decide (m.name p = id) := by
  unfold Mem.findEntry Mem.getItem Mem.queueItems
  cases h : m.downloadQueue with
  | none => rfl
  | some list =>
      simp only [LawfulListApi.getItem (wf.downloadQueue list h)]
      cases ListApi.items list with
      | none => rfl
      | some xs => exact Sequence.getItem_total _ xs

/-- The place of the entry that is found. -/
theorem findEntry_found (wf : m.Wf) (h : m.findEntry id = some (some p)) :
    ∃ before after, m.queueItems = some (before ++ p :: after) ∧ m.name p = id ∧
      ∀ q ∈ before, m.name q ≠ id := by
  rw [findEntry_items wf] at h
  obtain ⟨xs, items, found⟩ := Option.map_eq_some_iff.mp h
  obtain ⟨name, before, after, rfl, differ⟩ := List.find?_eq_some_iff_append.mp found
  exact ⟨before, after, items, by simpa using name, fun q hq => by simpa using differ q hq⟩

/-- `list_remove_item` takes the entry out that is found; a queue that loses its first
entry is lost. -/
theorem removeEntry_found (wf : m.Wf) {before after : List EntryPtr}
    (items : m.queueItems = some (before ++ p :: after)) (name : m.name p = id)
    (differ : ∀ q ∈ before, m.name q ≠ id) :
    ∃ list, m.removeEntry id = some (true, { m with downloadQueue := some list }) ∧
      LawfulListApi.Wf list ∧
      ListApi.items list = if before = [] then none else some (before ++ after) := by
  unfold Mem.queueItems at items
  unfold Mem.removeEntry
  cases hl : m.downloadQueue with
  | none => simp [hl] at items
  | some list =>
      simp only [hl] at items
      have passed : ∀ q ∈ before, some (decide (m.name q = id)) = some false :=
        fun q hq => by simp [differ q hq]
      obtain ⟨list', removed, wf', items'⟩ :=
        HeapList.Wf.removeItem_found (wf.downloadQueue list hl) items passed (by simp [name])
      exact ⟨list', by simp [removed], wf', items'⟩

/-- An answer of `SUCCESS` is true when the request had its effect. -/
theorem truthful_success {effect : Mem HeapList → Prop} {response : Transaction}
    (success : response.status = .success) :
    Truthful m effect (some (m', response)) ↔ effect m' := by
  constructor
  · rintro ⟨m'', response', result, truth, -⟩
    cases result
    exact truth.mp success
  · intro holds
    exact ⟨m', response, rfl, ⟨fun _ => holds, fun _ => success⟩, fun failed => absurd success failed⟩

/-- An answer of `FAILURE` is true when the request had no effect and changed nothing. -/
theorem truthful_refused {effect : Mem HeapList → Prop} {response : Transaction}
    (failure : response.status = .failure) (none : ¬ effect m) :
    Truthful m effect (some (m, response)) := by
  refine ⟨m, response, rfl, ?_, fun _ => ⟨failure, rfl, fun _ _ => rfl, rfl⟩⟩
  rw [failure]
  exact ⟨fun h => (by cases h), fun holds => absurd holds none⟩

theorem not_truthful_undefined {effect : Mem HeapList → Prop} : ¬ Truthful m effect none := by
  rintro ⟨m', response, result, -⟩
  cases result

/-! ### `PAUSE` -/

theorem findEntry_congr (wf : m.Wf) (wf' : m'.Wf) (queue : m'.downloadQueue = m.downloadQueue)
    (name : ∀ p, m'.name p = m.name p) : m'.findEntry id = m.findEntry id := by
  rw [findEntry_items wf, findEntry_items wf']
  unfold Mem.queueItems
  simp only [queue, name]

theorem pauseReply_success (request : Transaction) (ret : Bool) :
    (pauseReply request ret).status = .success := by
  cases ret <;> rfl

theorem isPaused_iff (found : m'.findEntry id = some (some p)) :
    IsPaused id m' ↔ m'.status p = .paused ∧ NoRecord m' p := by
  constructor
  · rintro ⟨q, found', paused⟩
    rw [found] at found'
    cases found'
    exact paused
  · intro paused
    exact ⟨p, found, paused⟩

/-- The `PAUSE` of an entry that is `STARTED`. -/
theorem pause_started {request : Transaction} (wf : m.Wf)
    (entry : m.findEntry request.id.name = some (some p)) (started : m.status p = .started) :
    Truthful m (IsPaused request.id.name)
        ((m.downloadPause request.id.name).map fun r => (r.2, pauseReply request r.1)) ↔
      StopsOnly m request.id.name p := by
  cases h : m.findRecord request.id.name with
  | none =>
      have undefined : m.downloadPause request.id.name = none := by simp [Mem.downloadPause, h]
      rw [undefined]
      refine ⟨fun truth => absurd truth not_truthful_undefined, ?_⟩
      rintro ⟨before, r, after, -, -, found, -⟩
      rw [h] at found
      cases found
  | some found =>
      cases found with
      | none =>
          have missing : m.downloadPause request.id.name = some (false, m) := by
            simp [Mem.downloadPause, h]
          rw [missing, Option.map_some, truthful_success (pauseReply_success _ _), isPaused_iff entry]
          refine ⟨fun paused => absurd (started.symm.trans paused.1) (by simp), ?_⟩
          rintro ⟨before, r, after, -, -, found, -⟩
          rw [h] at found
          cases found
      | some r =>
          obtain ⟨before, after, list, items, -, paused, wfList, items'⟩ := Mem.downloadPause_found wf h
          rw [paused, Option.map_some, truthful_success (pauseReply_success _ _)]
          generalize result : ({ (m.setStatus (m.record r).entry .paused).endThread
              (m.record r).thread with
            threadList := some list, freed := Function.update m.freed r true } : Mem HeapList) = m'
          have wf' : m'.Wf := by
            rw [← result]
            exact ⟨wf.1, fun l hl => by cases hl; exact wfList⟩
          have queue : m'.downloadQueue = m.downloadQueue := by rw [← result]; rfl
          have name : ∀ q, m'.name q = m.name q := by
            intro q
            rw [← result]
            exact Mem.name_setStatus
          have entry' := (findEntry_congr wf wf' queue name).trans entry
          have status : m'.status p = if p = (m.record r).entry then .paused else m.status p := by
            rw [← result]
            exact Mem.status_setStatus
          have record : m'.record = m.record := by rw [← result]; rfl
          have recordItems : m'.recordItems = if before = [] then none else some (before ++ after) := by
            rw [← items', ← result]
            rfl
          rw [isPaused_iff entry', status]
          constructor
          · rintro ⟨isPaused, left, traversed, none⟩
            rw [recordItems] at traversed
            split at traversed
            · cases traversed
            · next first =>
              cases traversed
              refine ⟨before, r, after, items, first, h, ?_, ?_⟩
              · by_contra other
                rw [if_neg fun same => other same.symm, started] at isPaused
                cases isPaused
              · rw [← record]
                exact none
          · rintro ⟨before', r', after', items', first, found, own, none⟩
            rw [h] at found
            cases found
            have outside : ∀ {xs : List (Option RecordPtr)}, (∀ x ∈ xs, x ∈ before' ++ after') →
                some r ∉ xs := fun sub mem => none r (sub _ mem) own
            have parts : before' ++ some r :: after' = before ++ some r :: after :=
              Option.some.inj (items'.symm.trans items)
            obtain ⟨rfl, -, rfl⟩ := (List.append_cons_inj_of_notMem
              (outside fun x hx => List.mem_append_left _ hx)
              (outside fun x hx => List.mem_append_right _ hx)).mp parts
            rw [if_neg first] at recordItems
            refine ⟨if_pos own.symm, _, recordItems, ?_⟩
            rw [record]
            exact none

theorem pause_truthful {request : Transaction} (wf : m.Wf) :
    Truthful m (IsPaused request.id.name) (m.queuePause request) ↔
      PauseHonest m request.id.name := by
  unfold Mem.queuePause PauseHonest
  cases entry : m.findEntry request.id.name with
  | none => exact ⟨fun truth => absurd truth not_truthful_undefined, False.elim⟩
  | some found =>
      cases found with
      | none =>
          refine ⟨fun _ => trivial, fun _ => truthful_refused rfl ?_⟩
          rintro ⟨p, found, -⟩
          rw [entry] at found
          cases found
      | some p =>
          have left : m.status p ≠ .paused → (Truthful m (IsPaused request.id.name)
              (some (m, pauseReply request true)) ↔ False) := by
            intro other
            rw [truthful_success (pauseReply_success _ _), isPaused_iff entry, iff_false]
            exact fun paused => other paused.1
          have assigned : Truthful m (IsPaused request.id.name)
              (some (m.setStatus p .paused, pauseReply request true)) ↔ NoRecord m p := by
            have wf' : (m.setStatus p .paused).Wf := ⟨wf.1, wf.2⟩
            have entry' := (findEntry_congr wf wf' rfl fun _ => Mem.name_setStatus).trans entry
            rw [truthful_success (pauseReply_success _ _), isPaused_iff entry', Mem.status_setStatus,
              if_pos rfl]
            exact ⟨fun paused => paused.2, fun none => ⟨rfl, none⟩⟩
          simp only [Option.bind_some]
          cases status : m.status p with
          | started => exact pause_started wf entry status
          | completed | cancelled => exact left (by rw [status]; simp)
          | waiting | starting | paused | other => exact assigned

/-! ### `CANCEL` -/

theorem cancelReply_success (request : Transaction) (ret : Bool) :
    (cancelReply request ret).status = .success := by
  cases ret <;> rfl

/-- A record can be taken out by an id exactly when one can be looked up by it. -/
theorem removeRecord_defined (wf : m.Wf) (id : CString) :
    (∃ r, m.removeRecord id = some r) ↔ m.findRecord id ≠ none := by
  unfold Mem.removeRecord Mem.findRecord Mem.getItem
  cases h : m.threadList with
  | none => simp
  | some list =>
      rw [ne_eq, Option.map_eq_none_iff]
      refine Iff.trans ?_ (HeapList.Wf.removeItem_defined (wf.threadList list h) _)
      constructor
      · rintro ⟨r, removal⟩
        obtain ⟨x, removed, -⟩ := Option.map_eq_some_iff.mp removal
        exact ⟨x, removed⟩
      · rintro ⟨x, removed⟩
        exact ⟨_, by simp only [removed, Option.map_some]; rfl⟩

/-- Taking the entry out of the queue leaves none with its id, if it is not the first and
the only one. -/
theorem removeEntry_cancels (wf : m.Wf) (nodup : m.queue.Nodup) (request : Transaction)
    (found : m.findEntry request.id.name = some (some p)) (wf' : m'.Wf)
    (queue : m'.downloadQueue = m.downloadQueue) (name : ∀ q, m'.name q = m.name q) :
    Truthful m (IsCancelled m request.id.name)
        ((m'.removeEntry request.id.name).map fun r => (r.2, cancelReply request r.1)) ↔
      m.queue.head? ≠ some p ∧ ∀ q ∈ m.queue, m.name q = request.id.name → q = p := by
  have found' := (findEntry_congr wf wf' queue name).trans found
  obtain ⟨before, after, items, own, differ⟩ := findEntry_found wf' found'
  obtain ⟨list, removed, wfList, items'⟩ := removeEntry_found wf' items own differ
  have parts : m.queue = before ++ p :: after := by
    have same : m.queue = m'.queue := by simp only [Mem.queue, queue]
    rw [same, ← Mem.queueItems_eq items]
  have wf'' : ({ m' with downloadQueue := some list } : Mem HeapList).Wf :=
    ⟨fun l hl => by cases hl; exact wfList, wf'.2⟩
  rw [removed, Option.map_some, truthful_success (cancelReply_success _ _)]
  rw [parts] at nodup ⊢
  obtain ⟨outside, -⟩ := List.nodup_cons.mp (List.nodup_middle.mp nodup)
  have lookup : ({ m' with downloadQueue := some list } : Mem HeapList).findEntry request.id.name =
      (ListApi.items list).map fun xs => xs.find? fun q => decide (m.name q = request.id.name) := by
    rw [findEntry_items wf'']
    simp only [← name]
    rfl
  unfold IsCancelled
  rw [lookup, items']
  constructor
  · rintro ⟨-, gone⟩
    split at gone
    · cases gone
    · next first =>
      have none := List.find?_eq_none.mp (Option.some.inj gone)
      constructor
      · obtain ⟨x, xs, rfl⟩ := List.exists_cons_of_ne_nil first
        rintro head
        cases head
        exact outside (by simp)
      · intro q hq same
        by_contra other
        have left : q ∈ before ++ after := by simpa [other] using hq
        exact none q left (by simpa using same)
  · rintro ⟨head, only⟩
    refine ⟨⟨p, found⟩, ?_⟩
    have first : before ≠ [] := by
      rintro rfl
      exact head rfl
    rw [if_neg first]
    refine congrArg some (List.find?_eq_none.mpr ?_)
    intro q hq same
    have member : q ∈ before ++ p :: after := by
      rcases List.mem_append.mp hq with hq | hq <;> simp [hq]
    have same' := only q member (by simpa using same)
    exact outside (same' ▸ hq)

/-- What `download_cancel` leaves of the queue, when it returns. -/
theorem downloadCancel_defined (wf : m.Wf) (found : m.findRecord id = some (some r)) :
    (m.findRecord (m.record r).handle ≠ none → ∃ ret, m.downloadCancel id = some ret ∧ ret.2.Wf ∧
      ret.2.downloadQueue = m.downloadQueue ∧ ∀ q, ret.2.name q = m.name q) ∧
    (m.findRecord (m.record r).handle = none → m.downloadCancel id = none) := by
  generalize stopped : (m.setStatus (m.record r).entry .paused).endThread (m.record r).thread = s
  have wfS : s.Wf := by rw [← stopped]; exact ⟨wf.1, wf.2⟩
  have name : ∀ q, s.name q = m.name q := by
    intro q
    rw [← stopped]
    exact Mem.name_setStatus
  have compare : s.downloadThreadCompareId (m.record r).handle =
      m.downloadThreadCompareId (m.record r).handle := by
    rw [← stopped]
    exact Mem.compareId_congr rfl rfl fun _ => Mem.name_setStatus
  have lookup : s.findRecord (m.record r).handle = m.findRecord (m.record r).handle := by
    unfold Mem.findRecord
    rw [compare, ← stopped]
    rfl
  have cancel : m.downloadCancel id = (s.removeRecord (m.record r).handle).map fun ret =>
      (ret.1, { ret.2 with freed := Function.update ret.2.freed r true }) := by
    rw [← stopped]
    simp only [Mem.downloadCancel, found]
    rfl
  have defined := removeRecord_defined wfS (m.record r).handle
  rw [lookup] at defined
  constructor
  · intro readable
    obtain ⟨⟨b, s'⟩, removed⟩ := defined.mpr readable
    obtain ⟨list, rfl, wf', -⟩ := Mem.removeRecord_spec wfS removed
    refine ⟨_, by rw [cancel, removed]; rfl, ⟨wf'.1, wf'.2⟩, by rw [← stopped]; rfl, name⟩
  · intro unreadable
    rw [cancel, Option.map_eq_none_iff]
    by_contra returns
    exact defined.mp (Option.ne_none_iff_exists'.mp returns) unreadable

theorem cancel_truthful {request : Transaction} (wf : m.Wf) (nodup : m.queue.Nodup) :
    Truthful m (IsCancelled m request.id.name) (m.queueCancel request) ↔
      CancelHonest m request.id.name := by
  unfold Mem.queueCancel CancelHonest
  cases entry : m.findEntry request.id.name with
  | none => exact ⟨fun truth => absurd truth not_truthful_undefined, False.elim⟩
  | some found =>
      cases found with
      | none =>
          refine ⟨fun _ => trivial, fun _ => truthful_refused rfl ?_⟩
          rintro ⟨⟨p, found⟩, -⟩
          rw [entry] at found
          cases found
      | some p =>
          have removal : ∀ m' : Mem HeapList, m'.Wf → m'.downloadQueue = m.downloadQueue →
              (∀ q, m'.name q = m.name q) → _ :=
            fun m' wf' queue name => removeEntry_cancels wf nodup request entry wf' queue name
          have unstarted : ∀ {s : EntryStatus} {P : Prop}, s ≠ .started →
              ((m.queue.head? ≠ some p ∧ (∀ q ∈ m.queue, m.name q = request.id.name → q = p)) ↔
                m.queue.head? ≠ some p ∧ (∀ q ∈ m.queue, m.name q = request.id.name → q = p) ∧
                  (s = .started → P)) := by
            intro s P other
            simp [other]
          simp only [Option.bind_some]
          cases status : m.status p with
          | cancelled =>
              exact (removal m wf rfl fun _ => rfl).trans (unstarted (by simp))
          | waiting | starting | paused | completed | other =>
              exact (removal (m.setStatus p .paused) ⟨wf.1, wf.2⟩ rfl fun _ => Mem.name_setStatus).trans
                (unstarted (by simp))
          | started =>
              simp only [cancelChoice, forall_const]
              cases found : m.findRecord request.id.name with
              | none =>
                  have undefined : m.downloadCancel request.id.name = none := by
                    simp [Mem.downloadCancel, found]
                  rw [undefined]
                  exact ⟨fun truth => absurd truth not_truthful_undefined, fun h => h.2.2.elim⟩
              | some found' =>
                  cases found' with
                  | none =>
                      have missing : m.downloadCancel request.id.name = some (false, m) := by
                        simp [Mem.downloadCancel, found]
                      rw [missing]
                      simpa using removal m wf rfl fun _ => rfl
                  | some r =>
                      obtain ⟨returns, undefined⟩ := downloadCancel_defined wf found
                      by_cases readable : m.findRecord (m.record r).handle = none
                      · rw [undefined readable]
                        exact ⟨fun truth => absurd truth not_truthful_undefined,
                          fun h => absurd readable h.2.2⟩
                      · obtain ⟨ret, cancelled, wf', queue, name⟩ := returns readable
                        rw [cancelled]
                        simpa [readable] using removal ret.2 wf' queue name

/-! ### `RESTART` -/

/-- `download_start` returns when it stops in front of a list it cannot allocate, or when
it can append to the thread list. -/
theorem downloadStart_defined {o : StartOutcome} (wf : m.Wf) :
    (∃ m', m.downloadStart p o = some m') ↔
      (m.threadList = none ∧ o.listNew = false) ∨ (o.node = true ∧ m.recordItems ≠ none) := by
  unfold Mem.downloadStart Mem.recordItems
  cases h : m.threadList with
  | some list =>
      have defined := HeapList.Wf.append_defined (wf.threadList list h) o.node (m.newDownloadThread p o).2
      simpa [Option.map_eq_some_iff] using defined
  | none =>
      cases new : o.listNew with
      | false => simp
      | true =>
          have defined := HeapList.Wf.append_defined (LawfulListApi.wf_new (L := HeapList)) o.node
            (m.newDownloadThread p o).2
          have items : ListApi.items (ListApi.new : HeapList (Option RecordPtr)) = some [] :=
            LawfulListApi.items_new
          simpa [Option.map_eq_some_iff, items] using defined

/-- What a start leaves alone, and the thread list after it. -/
theorem downloadStart_frame {o : StartOutcome} (wf : m.Wf) (h : m.downloadStart p o = some m') :
    m'.Wf ∧ m'.downloadQueue = m.downloadQueue ∧ m'.entry = m.entry ∧
      (m.recordItems ≠ none → m'.recordItems ≠ none) ∧
      m'.threadList.isSome = (m.threadList.isSome || o.listNew) := by
  obtain ⟨wf', list, shape⟩ := Mem.downloadStart_spec wf h
  have appended : ∀ {l : HeapList (Option RecordPtr)}, LawfulListApi.Wf l →
      (∃ s : Mem HeapList, (ListApi.append l o.node (m.newDownloadThread p o).2).map
        (fun list => { s with threadList := some list }) = some m') →
      m'.recordItems ≠ none ∧ m'.threadList.isSome = true := by
    rintro l wfL ⟨s, h⟩
    obtain ⟨l', append, rfl⟩ := Option.map_eq_some_iff.mp h
    obtain ⟨-, xs, -, items⟩ := HeapList.Wf.append wfL append
    simp [Mem.recordItems, items]
  refine ⟨wf', ?_, ?_, ?_⟩
  · rcases shape with ⟨rfl, -⟩ | ⟨handle, -, rfl, -⟩ <;> rfl
  · rcases shape with ⟨rfl, -⟩ | ⟨handle, -, rfl, -⟩ <;> rfl
  · unfold Mem.downloadStart at h
    cases hl : m.threadList with
    | some l =>
        rw [hl] at h
        obtain ⟨items, some⟩ := appended (wf.threadList l hl) ⟨_, h⟩
        exact ⟨fun _ => items, by rw [some]; rfl⟩
    | none =>
        rw [hl] at h
        cases new : o.listNew with
        | false =>
            rw [new] at h
            cases h
            exact ⟨id, by rw [hl]; rfl⟩
        | true =>
            rw [new] at h
            obtain ⟨items, some⟩ := appended LawfulListApi.wf_new ⟨_, h⟩
            exact ⟨fun _ => items, by rw [some]; rfl⟩

section

variable {max : Nat} {starts : EntryPtr → StartOutcome} {xs : List EntryPtr}

theorem queueUpdate_eq (wf : m.Wf) (traversed : m.queueItems ≠ none) :
    m.queueUpdate max starts p =
      if m.status p = .waiting ∧ m.started < max then
        (m.downloadStart p (starts p)).map fun m => m.setStatus p .starting
      else some m := by
  unfold Mem.queueUpdate
  rw [Mem.queueCountStarted_total wf traversed]
  by_cases waiting : m.status p = .waiting
  · simp [waiting]
  · simp [waiting]

/-- What a start that returns leaves for the rest of the pass. -/
structure StartsOne (m : Mem HeapList) (p : EntryPtr) (o : StartOutcome) (m' : Mem HeapList) : Prop where
  wf : m'.Wf
  queue : m'.downloadQueue = m.downloadQueue
  status : ∀ q, m'.status q = if q = p then .starting else m.status q
  started : m'.started = m.started
  records : m.recordItems ≠ none → m'.recordItems ≠ none
  listed : m'.threadList.isSome = (m.threadList.isSome || o.listNew)

theorem startsOne {o : StartOutcome} {s : Mem HeapList} (wf : m.Wf) (waiting : m.status p = .waiting)
    (h : m.downloadStart p o = some s) : StartsOne m p o (s.setStatus p .starting) := by
  obtain ⟨wf', queue, entry, records, listed⟩ := downloadStart_frame wf h
  have status : ∀ q, (s.setStatus p .starting).status q = if q = p then .starting else m.status q := by
    intro q
    rw [Mem.status_setStatus]
    simp only [Mem.status, entry]
  refine ⟨⟨wf'.1, wf'.2⟩, queue, status, ?_, records, listed⟩
  have same : (s.setStatus p .starting).queue = m.queue := by
    simp only [Mem.queue, Mem.setStatus_downloadQueue, queue]
  unfold Mem.started
  rw [same]
  refine List.countP_congr ?_
  intro q _
  rw [status]
  split
  · next own => simp [own, waiting]
  · rfl

/-- A property that every start of a pass keeps holds after the pass. -/
theorem pass_rule {P : Mem HeapList → Prop} (wf : m.Wf) (traversed : m.queueItems ≠ none) (before : P m)
    (kept : ∀ {m s : Mem HeapList} {p : EntryPtr}, P m → m.Wf → m.status p = .waiting →
      m.downloadStart p (starts p) = some s → P (s.setStatus p .starting))
    (h : Sequence.forEach (Mem.queueUpdate max starts) xs m = some m') : m'.Wf ∧ P m' := by
  induction xs generalizing m with
  | nil =>
      cases h
      exact ⟨wf, before⟩
  | cons x xs ih =>
      obtain ⟨m₁, first, h⟩ := Option.bind_eq_some_iff.mp h
      rw [queueUpdate_eq wf traversed] at first
      split at first
      · next free =>
        obtain ⟨s, begun, rfl⟩ := Option.map_eq_some_iff.mp first
        have one := startsOne wf free.1 begun
        have traversed' : (s.setStatus x .starting).queueItems ≠ none := by
          simpa only [Mem.queueItems, one.queue] using traversed
        exact ih one.wf traversed' (kept before wf free.1 begun) h
      · cases first
        exact ih wf traversed before h

/-- The statuses after a pass: what was waiting may be `STARTING`. -/
theorem pass_statuses (wf : m.Wf) (traversed : m.queueItems ≠ none)
    (h : Sequence.forEach (Mem.queueUpdate max starts) xs m = some m') (q : EntryPtr) :
    m'.status q = m.status q ∨ m.status q = .waiting ∧ m'.status q = .starting := by
  refine (pass_rule (P := fun m' => m'.status q = m.status q ∨
    m.status q = .waiting ∧ m'.status q = .starting) wf traversed (Or.inl rfl) ?_ h).2
  intro m₁ s p before wf₁ waiting begun
  rw [(startsOne wf₁ waiting begun).status]
  split
  · next own =>
    rcases before with same | ⟨-, starting⟩
    · exact Or.inr ⟨same ▸ own ▸ waiting, rfl⟩
    · rw [own, waiting] at starting
      cases starting
  · exact before

theorem startsFail_cons {listed : Bool} :
    StartsFail starts listed (p :: xs) ↔
      ((listed || (starts p).listNew) = true ∧ (starts p).node = false) ∨
        StartsFail starts (listed || (starts p).listNew) xs := by
  cases listed with
  | true => simp [StartsFail]
  | false => cases h : (starts p).listNew <;> simp [StartsFail, h]

/-- A pass comes to its end when there is no slot, or when the thread list can be
appended to and no allocation fails that is not tested. -/
theorem pass_defined (wf : m.Wf) (traversed : m.queueItems ≠ none) (nodup : xs.Nodup) :
    (∃ m', Sequence.forEach (Mem.queueUpdate max starts) xs m = some m') ↔
      (m.started < max → (∀ q ∈ xs, m.status q = .waiting → m.recordItems ≠ none) ∧
        ¬ StartsFail starts m.threadList.isSome (xs.filter fun q => decide (m.status q = .waiting))) := by
  induction xs generalizing m with
  | nil => simp [Sequence.forEach, StartsFail]
  | cons x xs ih =>
      obtain ⟨fresh, nodup⟩ := List.nodup_cons.mp nodup
      simp only [Sequence.forEach, queueUpdate_eq wf traversed]
      by_cases free : m.status x = .waiting ∧ m.started < max
      · rw [if_pos free, List.filter_cons_of_pos (by simp [free.1]), startsFail_cons]
        have defined := downloadStart_defined (p := x) (o := starts x) wf
        cases begun : m.downloadStart x (starts x) with
        | none =>
            rw [begun] at defined
            refine ⟨by simp, fun h => ?_⟩
            obtain ⟨records, fine⟩ := h free.2
            have records := records x List.mem_cons_self free.1
            -- the list is there, or it was allocated, so that it was the node that failed
            refine absurd (Or.inl ⟨?_, ?_⟩) fine
            · cases listed : m.threadList with
              | some list => rfl
              | none =>
                  cases new : (starts x).listNew with
                  | true => rfl
                  | false => simpa using defined.mpr (Or.inl ⟨listed, new⟩)
            · cases node : (starts x).node with
              | false => rfl
              | true => simpa using defined.mpr (Or.inr ⟨node, records⟩)
        | some s =>
            have one := startsOne wf free.1 begun
            have traversed' : (s.setStatus x .starting).queueItems ≠ none := by
              simpa only [Mem.queueItems, one.queue] using traversed
            have status : ∀ q ∈ xs, (s.setStatus x .starting).status q = m.status q := by
              intro q hq
              rw [one.status, if_neg fun same => fresh (by rw [← same]; exact hq)]
            have filtered : (xs.filter fun q => decide ((s.setStatus x .starting).status q = .waiting)) =
                xs.filter fun q => decide (m.status q = .waiting) :=
              List.filter_congr fun q hq => by rw [status q hq]
            rw [Option.map_some, Option.bind_some, ih one.wf traversed' nodup, one.started, one.listed,
              filtered]
            rw [begun] at defined
            have begins := defined.mp ⟨s, rfl⟩
            have records : m.recordItems ≠ none := by
              rcases begins with ⟨none, -⟩ | ⟨-, records⟩
              · simp [Mem.recordItems, none]
              · exact records
            have fine : ¬ (((m.threadList.isSome || (starts x).listNew) = true) ∧
                (starts x).node = false) := by
              rintro ⟨listed, node⟩
              rcases begins with ⟨none, new⟩ | ⟨node', -⟩
              · simp [none, new] at listed
              · rw [node] at node'
                cases node'
            constructor
            · intro rest _
              refine ⟨fun _ _ _ => records, ?_⟩
              rintro (failed | failed)
              · exact fine failed
              · exact (rest free.2).2 failed
            · intro all _
              exact ⟨fun _ _ _ => one.records records, fun failed => (all free.2).2 (Or.inr failed)⟩
      · rw [if_neg free, Option.bind_some, ih wf traversed nodup]
        by_cases waiting : m.status x = .waiting
        · have full : ¬ m.started < max := fun free' => free ⟨waiting, free'⟩
          simp [full]
        · rw [List.filter_cons_of_neg (by simpa using waiting)]
          simp [waiting]

/-- The pass that follows an entry being set back to `WAITING`. -/
theorem restart_defined (wf : m.Wf) (nodup : m.queue.Nodup) (member : p ∈ m.queue)
    (traversed : m.queueItems ≠ none) (restartable : m.status p = .waiting ∨ m.status p = .paused) :
    (∃ m', (m.setStatus p .waiting).updateAll max starts = some m') ↔
      (m.started < max → m.recordItems ≠ none ∧
        ¬ StartsFail starts m.threadList.isSome
          (m.queue.filter fun q => decide (q = p ∨ m.status q = .waiting))) := by
  have wf' : (m.setStatus p .waiting).Wf := ⟨wf.1, wf.2⟩
  obtain ⟨xs, items⟩ := Option.ne_none_iff_exists'.mp traversed
  have contents := Mem.queueItems_eq items
  have items' : (m.setStatus p .waiting).queueItems = some xs := items
  have traversed' : (m.setStatus p .waiting).queueItems ≠ none := by simp [items']
  have started : (m.setStatus p .waiting).started = m.started := by
    unfold Mem.started
    refine List.countP_congr ?_
    intro q _
    rw [Mem.status_setStatus]
    split
    · next own => rcases restartable with waiting | paused <;> simp [*]
    · rfl
  have filtered : (xs.filter fun q => decide ((m.setStatus p .waiting).status q = .waiting)) =
      m.queue.filter fun q => decide (q = p ∨ m.status q = .waiting) := by
    rw [← contents]
    refine List.filter_congr ?_
    intro q _
    rw [Mem.status_setStatus]
    by_cases own : q = p <;> simp [own]
  rw [Mem.updateAll_eq wf', items', Option.bind_some, pass_defined wf' traversed' (contents ▸ nodup),
    started, filtered]
  constructor
  · intro passes free
    obtain ⟨records, fine⟩ := passes free
    exact ⟨records p (contents ▸ member) (by rw [Mem.status_setStatus, if_pos rfl]), fine⟩
  · intro passes free
    obtain ⟨records, fine⟩ := passes free
    exact ⟨fun _ _ _ => records, fine⟩

theorem restart_truthful {request : Transaction} (wf : m.Wf) (nodup : m.queue.Nodup) :
    Truthful m (IsRestarted m request.id.name) (m.queueRestart max starts request) ↔
      RestartHonest max starts m request.id.name := by
  unfold Mem.queueRestart RestartHonest
  cases entry : m.findEntry request.id.name with
  | none => exact ⟨fun truth => absurd truth not_truthful_undefined, False.elim⟩
  | some found =>
      cases found with
      | none =>
          refine ⟨fun _ => trivial, fun _ => truthful_refused rfl ?_⟩
          rintro ⟨p, found, -⟩
          rw [entry] at found
          cases found
      | some p =>
          obtain ⟨before, after, items, -, -⟩ := findEntry_found wf entry
          have traversed : m.queueItems ≠ none := by simp [items]
          have member : p ∈ m.queue := by simp [← Mem.queueItems_eq items]
          -- the reply is `SUCCESS` in every case
          have never : ¬ (m.status p = .waiting ∨ m.status p = .paused) →
              ∀ result : Option (Mem HeapList),
                ¬ Truthful m (IsRestarted m request.id.name)
                  (result.map fun m => (m, restartReply request)) := by
            rintro other result ⟨m', response, answered, truth, -⟩
            obtain ⟨m'', -, same⟩ := Option.map_eq_some_iff.mp answered
            cases same
            obtain ⟨q, found, restartable, -⟩ := truth.mp rfl
            rw [entry] at found
            cases found
            exact other restartable
          have restarts : m.status p = .waiting ∨ m.status p = .paused →
              (Truthful m (IsRestarted m request.id.name)
                (((m.setStatus p .waiting).updateAll max starts).map
                  fun m => (m, restartReply request)) ↔
              (m.started < max → m.recordItems ≠ none ∧
                ¬ StartsFail starts m.threadList.isSome
                  (m.queue.filter fun q => decide (q = p ∨ m.status q = .waiting)))) := by
            intro restartable
            rw [← restart_defined wf nodup member traversed restartable]
            constructor
            · rintro ⟨m', response, answered, -⟩
              obtain ⟨m'', passed, -⟩ := Option.map_eq_some_iff.mp answered
              exact ⟨m'', passed⟩
            · rintro ⟨m', passed⟩
              rw [passed, Option.map_some, truthful_success rfl]
              have wf' : (m.setStatus p .waiting).Wf := ⟨wf.1, wf.2⟩
              have items' : (m.setStatus p .waiting).queueItems = some (before ++ p :: after) := items
              rw [Mem.updateAll_eq wf', items', Option.bind_some] at passed
              refine ⟨p, entry, restartable, ?_⟩
              rcases pass_statuses wf' (by simp [items']) passed p with same | ⟨-, starting⟩
              · rw [same, Mem.status_setStatus, if_pos rfl]
                exact Or.inl rfl
              · exact Or.inr starting
          simp only [Option.bind_some]
          cases status : m.status p with
          | waiting | paused =>
              simpa [restartChoice, status] using restarts (by simp [status])
          | starting | started | cancelled | completed | other =>
              simpa using never (by simp [status]) _

end

/-! ### The states that can be reached -/

end Dserve
