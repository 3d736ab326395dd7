import Dserve.Admission

/-!
What becomes of a `DOWNLOAD` when allocations fail.

`queue_add_container` tests the results of `queue_init` and `entry_new`. `new_node` does not
return `NULL` but dereferences it, and the result of `download_start` is not looked at: the
entry is `STARTING` whether or not there is a thread. `recovered_iff` is the exact condition
under which a request is refused without a trace or leaves an entry that waits or is worked on.
-/

namespace Dserve

/-- The reply is `FAILURE`, and the entries, the thread list and the threads are as before. -/
structure Untouched (m m' : Mem HeapList) (response : Transaction) : Prop where
  failure : response.status = .failure
  queue : m'.queue = m.queue
  entries : m'.entry = m.entry
  threadList : m'.threadList = m.threadList
  threads : m'.threads = m.threads

/-- A live thread works on the entry, and a record of it is in the thread list. -/
def WorkedOn (m : Mem HeapList) (p : EntryPtr) : Prop :=
  ∃ r, some r ∈ m.records ∧ m.freed r = false ∧ (m.record r).entry = p ∧
    ∃ t ∈ m.threads, t.tid = (m.record r).thread ∧ t.entry = p

/-- The reply is `SUCCESS`, and the new entry is in the queue and waits, or is worked on. -/
structure Taken (m : Mem HeapList) (request : Transaction) (m' : Mem HeapList)
    (response : Transaction) : Prop where
  success : response.status = .success
  queued : m'.queue = m.queue ++ [m.nextEntry]
  entry : (m'.entry m.nextEntry).id = request.id
  runs : m'.status m.nextEntry = .waiting ∨
    m'.status m.nextEntry = .starting ∧ WorkedOn m' m.nextEntry

/-- The thread list is there when the pass comes to the new entry. -/
def listedAtEnd (starts : EntryPtr → StartOutcome) (m : Mem HeapList) : Bool :=
  m.threadList.isSome || m.queue.any fun p => decide (m.status p = .waiting) && (starts p).listNew

/-- The mutex can be locked, and: there is no memory for a queue; or the queue can be read, and
the request is refused before the new node, or the target of the entry can be set and no
allocation fails that is not tested: the node, and, when there is a free slot, those of the nodes
of all threads that are started and of the thread of the new entry. -/
def Recovers (max : Nat) (o : Outcome) (starts : EntryPtr → StartOutcome) (m : Mem HeapList)
    (request : Transaction) : Prop :=
  o.locks = true ∧ (m.downloadQueue = none ∧ o.queueNew = false ∨
    m.queueItems ≠ none ∧
      (HasId m request.id.name ∨ o.result = true ∨ o.entryNew = false ∨
        TargetFits o request ∧ o.node = true ∧
          (m.started < max → m.recordItems ≠ none ∧
            ¬ StartsFail starts m.threadList.isSome (waitingNext m) ∧
            (listedAtEnd starts m || (starts m.nextEntry).listNew) = true ∧
            (starts m.nextEntry).record = true ∧ (starts m.nextEntry).create ≠ none)))

/-! ### Records that were freed -/

/-- Only records that were allocated were freed. -/
def FreedBelow {L : Type → Type} (m : Mem L) : Prop := ∀ r, m.freed r = true → r < m.nextRecord

theorem step_freedBelow {dangles : Prop} {max : Nat} {v w : View} {a : Action} (sound : Sound v)
    (inv : FreedBelow v.mem) (step : View.Step dangles max v a w) : FreedBelow w.mem := by
  cases step with
  | control move =>
      cases move with
      | started handle h => exact fun r freed => Nat.lt_succ_of_lt (inv r freed)
      | @kill k p r pc records h =>
          intro s freed
          by_cases same : s = r
          · exact same ▸ sound.record k p r h
          · have kept : Function.update v.mem.freed r true s = v.mem.freed s :=
              Function.update_of_ne same _ _
            exact inv s (kept.symm.trans freed)
      | _ => exact inv
  | thread _ _ _ stepped =>
      obtain ⟨-, -, -, freed, next, -⟩ := (Mem.threadStep_move stepped).frame
      intro r h
      rw [next]
      exact inv r (freed ▸ h)
  | _ => exact inv

section

variable {max : Nat} {m m' : Mem HeapList} {o : StartOutcome} {starts : EntryPtr → StartOutcome}
  {request : Transaction} {p : EntryPtr} {xs ys : List EntryPtr}

/-! ### One start -/

/-- `download_start` creates a thread when there is a list, a record and a thread to be had. -/
structure Created (m : Mem HeapList) (p : EntryPtr) (m' : Mem HeapList) : Prop where
  listed : some m.nextRecord ∈ m'.records
  freed : m'.freed = m.freed
  nextRecord : m'.nextRecord = m.nextRecord + 1
  record : (m'.record m.nextRecord).entry = p
  threads : m'.threads = m.threads ++ [⟨(m'.record m.nextRecord).thread, p, .opening⟩]

/-- No thread is created. -/
structure NotCreated (m m' : Mem HeapList) : Prop where
  freed : m'.freed = m.freed
  nextRecord : m'.nextRecord = m.nextRecord
  threads : m'.threads = m.threads

theorem downloadStart_cases (wf : m.Wf) (h : m.downloadStart p o = some m') :
    (m.threadList.isSome || o.listNew) = true ∧ o.record = true ∧ o.create ≠ none ∧ Created m p m' ∨
    ¬ ((m.threadList.isSome || o.listNew) = true ∧ o.record = true ∧ o.create ≠ none) ∧
      NotCreated m m' := by
  unfold Mem.downloadStart at h
  cases there : (m.threadList <|> (if o.listNew then some ListApi.new else none)) with
  | none =>
      rw [there] at h
      cases h
      right
      constructor
      · rintro ⟨listed, -⟩
        cases hl : m.threadList with
        | some l => simp [hl] at there
        | none =>
            have new : o.listNew = true := by simpa [hl] using listed
            simp [hl, new] at there
      · exact ⟨rfl, rfl, rfl⟩
  | some list =>
      have ready : LawfulListApi.Wf list ∧ (m.threadList.isSome || o.listNew) = true := by
        cases hl : m.threadList with
        | some l =>
            obtain rfl : l = list := by simpa [hl] using there
            exact ⟨wf.threadList l hl, rfl⟩
        | none =>
            cases new : o.listNew with
            | false => simp [hl, new] at there
            | true =>
                obtain rfl : ListApi.new = list := by simpa [hl, new] using there
                exact ⟨LawfulListApi.wf_new, rfl⟩
      rw [there] at h
      obtain ⟨list', appended, rfl⟩ := Option.map_eq_some_iff.mp h
      obtain ⟨-, records, -, items⟩ := HeapList.Wf.append ready.1 appended
      cases record : o.record with
      | false =>
          have started : m.newDownloadThread p o = (m, none) := by simp [Mem.newDownloadThread, record]
          rw [started]
          exact Or.inr ⟨fun creates => Bool.false_ne_true creates.2.1, rfl, rfl, rfl⟩
      | true =>
          cases create : o.create with
          | none =>
              have started : m.newDownloadThread p o = (m, none) := by
                simp [Mem.newDownloadThread, record, create]
              rw [started]
              exact Or.inr ⟨fun creates => creates.2.2 rfl, rfl, rfl, rfl⟩
          | some handle =>
              have started : m.newDownloadThread p o = (m.createThread p handle, some m.nextRecord) := by
                simp [Mem.newDownloadThread, record, create]
              rw [started] at items ⊢
              refine Or.inl ⟨ready.2, rfl, by simp, ?_, rfl, rfl, ?_, ?_⟩
              · simp [Mem.records, Mem.contents, ListApi.toList, items]
              · simp [Mem.createThread]
              · simp [Mem.createThread]

/-! ### The pass up to the new entry -/

/-- What a pass over the entries `xs` leaves as it was, and what it adds. -/
structure Passed (max : Nat) (starts : EntryPtr → StartOutcome) (xs : List EntryPtr)
    (m m' : Mem HeapList) : Prop where
  wf : m'.Wf
  queue : m'.downloadQueue = m.downloadQueue
  status : ∀ q, q ∉ xs → m'.status q = m.status q
  started : m'.started = m.started
  freed : FreedBelow m → FreedBelow m'
  threads : ∀ t ∈ m'.threads, t ∈ m.threads ∨ t.entry ∈ xs
  listed : m.started < max → m'.threadList.isSome =
    (m.threadList.isSome || xs.any fun p => decide (m.status p = .waiting) && (starts p).listNew)

theorem Passed.nil (wf : m.Wf) : Passed max starts [] m m := by
  constructor
  · exact wf
  · rfl
  · exact fun _ _ => rfl
  · rfl
  · exact id
  · exact fun _ ht => Or.inl ht
  · simp

theorem Passed.cons {m₁ : Mem HeapList} (first : Passed max starts [p] m m₁) (outside : p ∉ xs)
    (rest : Passed max starts xs m₁ m') : Passed max starts (p :: xs) m m' := by
  constructor
  · exact rest.wf
  · exact rest.queue.trans first.queue
  · intro q hq
    have parts := List.ne_and_not_mem_of_not_mem_cons hq
    rw [rest.status q parts.2, first.status q (by simpa using parts.1)]
  · exact rest.started.trans first.started
  · exact fun below => rest.freed (first.freed below)
  · intro t ht
    rcases rest.threads t ht with ht | ht
    · exact (first.threads t ht).imp_right fun same => List.mem_cons.mpr (Or.inl (by simpa using same))
    · exact Or.inr (List.mem_cons_of_mem _ ht)
  · intro free
    have same : ∀ q ∈ xs, m₁.status q = m.status q := fun q hq =>
      first.status q fun own => outside (List.mem_singleton.mp own ▸ hq)
    have any : (xs.any fun q => decide (m₁.status q = .waiting) && (starts q).listNew) =
        xs.any fun q => decide (m.status q = .waiting) && (starts q).listNew := by
      rw [Bool.eq_iff_iff, List.any_eq_true, List.any_eq_true]
      apply exists_congr
      intro q
      apply and_congr_right
      intro hq
      rw [same q hq]
    rw [rest.listed (first.started ▸ free), first.listed free, any]
    simp [Bool.or_assoc]

/-- One entry of a pass. -/
theorem update_passed (wf : m.Wf) (traversed : m.queueItems ≠ none)
    (h : m.queueUpdate max starts p = some m') : Passed max starts [p] m m' := by
  rw [queueUpdate_eq wf traversed] at h
  split at h
  · next free =>
    obtain ⟨s, begun, rfl⟩ := Option.map_eq_some_iff.mp h
    have one := startsOne wf free.1 begun
    have outcome := downloadStart_cases wf begun
    constructor
    · exact one.wf
    · exact one.queue
    · intro q hq
      rw [one.status, if_neg (by simpa using hq)]
    · exact one.started
    · intro below r freed
      rcases outcome with ⟨-, -, -, created⟩ | ⟨-, same⟩
      · exact created.nextRecord ▸ Nat.lt_succ_of_lt (below r (created.freed ▸ freed))
      · exact same.nextRecord ▸ below r (same.freed ▸ freed)
    · intro t ht
      rcases outcome with ⟨-, -, -, created⟩ | ⟨-, same⟩
      · have ht' : t ∈ m.threads ++ [⟨(s.record m.nextRecord).thread, p, .opening⟩] :=
          created.threads ▸ ht
        rcases List.mem_append.mp ht' with old | new
        · exact Or.inl old
        · rw [List.mem_singleton.mp new]
          exact Or.inr (List.mem_singleton.mpr rfl)
      · exact Or.inl (same.threads ▸ ht)
    · intro _
      rw [one.listed]
      simp [free.1]
  · next busy =>
    cases h
    constructor
    · exact wf
    · rfl
    · exact fun _ _ => rfl
    · rfl
    · exact id
    · exact fun _ ht => Or.inl ht
    · intro free
      have other : ¬ m.status p = .waiting := fun waiting => busy ⟨waiting, free⟩
      simp [other]

theorem pass_passed (wf : m.Wf) (traversed : m.queueItems ≠ none) (nodup : xs.Nodup)
    (h : Sequence.forEach (Mem.queueUpdate max starts) xs m = some m') :
    Passed max starts xs m m' := by
  induction xs generalizing m with
  | nil =>
      cases h
      exact Passed.nil wf
  | cons x xs ih =>
      obtain ⟨m₁, first, h⟩ := Option.bind_eq_some_iff.mp h
      have one := update_passed wf traversed first
      have traversed' : m₁.queueItems ≠ none := by simpa only [Mem.queueItems, one.queue] using traversed
      exact one.cons (List.nodup_cons.mp nodup).1 (ih one.wf traversed' (List.nodup_cons.mp nodup).2 h)

/-! ### The turn of the new entry -/

/-- A waiting entry that no thread works on waits, or is worked on, after its turn exactly when
there is no slot or its thread is created. -/
theorem update_runs (wf : m.Wf) (traversed : m.queueItems ≠ none) (waiting : m.status p = .waiting)
    (below : FreedBelow m) (alone : ∀ t ∈ m.threads, t.entry ≠ p)
    (h : m.queueUpdate max starts p = some m') :
    (m'.status p = .waiting ∨ m'.status p = .starting ∧ WorkedOn m' p) ↔
      (m.started < max → (m.threadList.isSome || (starts p).listNew) = true ∧
        (starts p).record = true ∧ (starts p).create ≠ none) := by
  rw [queueUpdate_eq wf traversed] at h
  split at h
  · next free =>
    obtain ⟨s, begun, rfl⟩ := Option.map_eq_some_iff.mp h
    have starting : (s.setStatus p .starting).status p = .starting := by
      rw [Mem.status_setStatus, if_pos rfl]
    have worked : ((s.setStatus p .starting).status p = .waiting ∨
        (s.setStatus p .starting).status p = .starting ∧ WorkedOn (s.setStatus p .starting) p) ↔
          WorkedOn s p := by
      rw [starting]
      constructor
      · rintro (h | ⟨-, works⟩)
        · cases h
        · exact works
      · exact fun works => Or.inr ⟨rfl, works⟩
    rw [worked]
    rcases downloadStart_cases wf begun with ⟨listed, record, create, created⟩ | ⟨failed, same⟩
    · have kept : s.freed m.nextRecord = false := by
        rw [created.freed]
        by_contra freed
        exact Nat.lt_irrefl _ (below _ (by simpa using freed))
      have running : ⟨(s.record m.nextRecord).thread, p, .opening⟩ ∈ s.threads := by
        rw [created.threads]
        exact List.mem_append_right _ (List.mem_singleton.mpr rfl)
      constructor
      · exact fun _ _ => ⟨listed, record, create⟩
      · exact fun _ => ⟨m.nextRecord, created.listed, kept, created.record, _, running, rfl, rfl⟩
    · constructor
      · rintro ⟨r, -, -, -, t, ht, -, own⟩
        exact absurd own (alone t (same.threads ▸ ht))
      · exact fun creates => absurd (creates free.2) failed
  · next busy =>
    cases h
    exact ⟨fun _ free => absurd ⟨waiting, free⟩ busy, fun _ => Or.inl waiting⟩

/-- A new entry that is added is taken on exactly when there is no slot or its thread is
created. -/
theorem Pushed.taken_iff {o : Outcome} {entry : Entry} {m₁ : Mem HeapList} {response : Transaction}
    (pushed : Pushed m entry m₁) (below : ∀ p ∈ m.queue, p < m.nextEntry) (nodup : m.queue.Nodup)
    (freed : FreedBelow m) (threads : ∀ t ∈ m.threads, t.entry < m.nextEntry)
    (target : entrySetTarget o.overrun entryNew request = some entry)
    (passed : m₁.updateAll max starts = some m') (success : response.status = .success) :
    Taken m request m' response ↔
      (m.started < max → (listedAtEnd starts m || (starts m.nextEntry).listNew) = true ∧
        (starts m.nextEntry).record = true ∧ (starts m.nextEntry).create ≠ none) := by
  obtain ⟨id, -, waiting, -⟩ := entrySetTarget_spec target
  obtain ⟨old, new, started, -⟩ := pushed.frame below waiting
  obtain ⟨list, same⟩ := pushed.rest
  have away : m.nextEntry ∉ m.queue := fun there => Nat.lt_irrefl _ (below _ there)
  have traversed₁ : m₁.queueItems ≠ none := by simp [pushed.queueItems]
  rw [Mem.updateAll_eq pushed.wf, pushed.queueItems, Option.bind_some] at passed
  obtain ⟨-, queue, names⟩ := pass_frame pushed.wf traversed₁ passed
  rw [Sequence.forEach_append] at passed
  obtain ⟨m₂, before, last⟩ := Option.bind_eq_some_iff.mp passed
  obtain ⟨m₃, turn, rest⟩ := Option.bind_eq_some_iff.mp last
  cases rest
  have pass := pass_passed pushed.wf traversed₁ nodup before
  have traversed₂ : m₂.queueItems ≠ none := by simpa only [Mem.queueItems, pass.queue] using traversed₁
  have waits : m₂.status m.nextEntry = .waiting := by
    rw [pass.status _ away, Mem.status, new, waiting]
  have freed₁ : FreedBelow m₁ := by
    rw [same]
    exact freed
  have alone : ∀ t ∈ m₂.threads, t.entry ≠ m.nextEntry := by
    intro t ht own
    rcases pass.threads t ht with ht | ht
    · rw [same] at ht
      exact Nat.ne_of_lt (threads t ht) own
    · exact away (own ▸ ht)
  have listed : m.started < max → m₂.threadList.isSome = listedAtEnd starts m := by
    intro free
    rw [pass.listed (started ▸ free), listedAtEnd, show m₁.threadList = m.threadList by rw [same]]
    congr 1
    rw [Bool.eq_iff_iff, List.any_eq_true, List.any_eq_true]
    apply exists_congr
    intro p
    apply and_congr_right
    intro hp
    rw [show m₁.status p = m.status p from congrArg Entry.status (old p hp)]
  have runs := update_runs pass.wf traversed₂ waits (pass.freed freed₁) alone turn
  rw [pass.started, started] at runs
  have outcome : Taken m request m' response ↔
      m'.status m.nextEntry = .waiting ∨ m'.status m.nextEntry = .starting ∧ WorkedOn m' m.nextEntry := by
    have last : m'.queue = m.queue ++ [m.nextEntry] := by
      rw [Mem.queueItems_eq pushed.queueItems]
      simp only [Mem.queue, queue]
    have named : m'.name m.nextEntry = request.id.name := by
      rw [(names m.nextEntry).1, Mem.name, new, id]
    constructor
    · exact fun taken => taken.runs
    · exact fun runs => ⟨success, last, congrArg TrxId.mk named, runs⟩
  rw [outcome, runs]
  apply forall_congr'
  intro free
  rw [listed free]

/-- What becomes of a request whose entry is added. -/
theorem Pushed.outcome {o : Outcome} {entry : Entry} {m₁ : Mem HeapList} {response : Transaction}
    (pushed : Pushed m entry m₁) (below : ∀ p ∈ m.queue, p < m.nextEntry) (nodup : m.queue.Nodup)
    (freed : FreedBelow m) (threads : ∀ t ∈ m.threads, t.entry < m.nextEntry)
    (target : entrySetTarget o.overrun entryNew request = some entry) (success : response.status = .success) :
    (∃ m' r, (m₁.updateAll max starts).map (fun m => (m, response)) = some (m', r) ∧
      (Untouched m m' r ∨ Taken m request m' r)) ↔
      (m.started < max → m.recordItems ≠ none ∧
        ¬ StartsFail starts m.threadList.isSome (waitingNext m) ∧
        (listedAtEnd starts m || (starts m.nextEntry).listNew) = true ∧
        (starts m.nextEntry).record = true ∧ (starts m.nextEntry).create ≠ none) := by
  have defined : (∃ m', m₁.updateAll max starts = some m') ↔ _ :=
    pushed.updateAll_defined below nodup (entrySetTarget_spec target).2.2.1
  constructor
  · rintro ⟨m', r, added, outcome⟩ free
    obtain ⟨m₂, passed, same⟩ := Option.map_eq_some_iff.mp added
    obtain ⟨rfl, rfl⟩ := Prod.mk.injEq _ _ _ _ ▸ same
    obtain ⟨readable, fine⟩ := defined.mp ⟨m₂, passed⟩ free
    rcases outcome with untouched | taken
    · cases success.symm.trans untouched.failure
    · exact ⟨readable, fine,
        (pushed.taken_iff below nodup freed threads target passed success).mp taken free⟩
  · intro recovers
    obtain ⟨m', passed⟩ := defined.mpr fun free => ⟨(recovers free).1, (recovers free).2.1⟩
    refine ⟨m', response, by rw [passed]; rfl, Or.inr ?_⟩
    exact (pushed.taken_iff below nodup freed threads target passed success).mpr
      fun free => (recovers free).2.2

/-! ### The outcome of a request -/

/-- A refusal leaves no trace. -/
theorem untouched_init {response : Transaction} (wf : m.Wf) (listNew : Bool)
    (traversed : m.queueItems ≠ none) (failure : response.status = .failure) :
    Untouched m (m.queueInit listNew) response := by
  have init := queueInit_initialized wf listNew
  obtain ⟨list, same⟩ := init.rest
  constructor
  · exact failure
  · exact init.queue traversed
  · rw [same]
  · rw [same]
  · rw [same]

variable (max starts request) in
/-- The four ends of `queue_add` when the queue can be read. -/
theorem queueAdd_cases {o : Outcome} (wf : m.Wf) (locks : o.locks = true)
    (there : ¬ (m.downloadQueue = none ∧ o.queueNew = false)) (traversed : m.queueItems ≠ none) :
    (HasId m request.id.name ∨ o.result = true ∨ o.entryNew = false) ∧
        (∃ response, response.status = .failure ∧
          m.queueAdd max o starts request = some (m.queueInit o.queueNew, response)) ∨
      ¬ (HasId m request.id.name ∨ o.result = true ∨ o.entryNew = false) ∧
        (¬ (TargetFits o request ∧ o.node = true) ∧ m.queueAdd max o starts request = none ∨
          (TargetFits o request ∧ o.node = true) ∧ ∃ entry m₁ response,
            entrySetTarget o.overrun entryNew request = some entry ∧ Pushed m entry m₁ ∧
            response.status = .success ∧ m.queueAdd max o starts request =
              (m₁.updateAll max starts).map fun m => (m, response)) := by
  rw [Mem.queueAdd, if_pos locks, queueAppend_eq wf there traversed]
  by_cases refusal : (decide (HasId m request.id.name) || o.result) = true
  · have known : HasId m request.id.name ∨ o.result = true := by simpa using refusal
    rw [if_pos refusal]
    exact Or.inl ⟨known.elim Or.inl fun held => Or.inr (Or.inl held), _, rfl, rfl⟩
  · obtain ⟨fresh, clear⟩ : ¬ HasId m request.id.name ∧ o.result = false := by simpa using refusal
    rw [if_neg refusal]
    cases memory : o.entryNew with
    | false => exact Or.inl ⟨Or.inr (Or.inr rfl), _, rfl, rfl⟩
    | true =>
        right
        apply And.intro (by simp [fresh, clear])
        rw [if_pos rfl]
        generalize accepted : reply request .success
          "Successfully added the file to the download queue".toList = response
        have success : response.status = .success := by
          rw [← accepted]
          rfl
        by_cases fits : TargetFits o request
        · obtain ⟨entry, target⟩ : ∃ entry, entrySetTarget o.overrun entryNew request = some entry :=
            ⟨_, if_pos fits⟩
          cases node : o.node with
          | false =>
              left
              constructor
              · exact fun stored => Bool.false_ne_true stored.2
              · rw [target, Option.bind_some, queuePush_undefined]
                rfl
          | true =>
              obtain ⟨m₁, push, pushed⟩ := queuePush_pushed entry wf traversed there
              refine Or.inr ⟨⟨fits, rfl⟩, _, m₁, response, target, pushed, success, ?_⟩
              rw [target, Option.bind_some, push]
              rfl
        · have target : entrySetTarget o.overrun entryNew request = none := if_neg fits
          left
          constructor
          · exact fun stored => fits stored.1
          · rw [target]
            rfl

theorem queueAdd_recovers (wf : m.Wf) (below : ∀ p ∈ m.queue, p < m.nextEntry) (nodup : m.queue.Nodup)
    (freed : FreedBelow m) (threads : ∀ t ∈ m.threads, t.entry < m.nextEntry) (o : Outcome) :
    (∃ m' response, m.queueAdd max o starts request = some (m', response) ∧
      (Untouched m m' response ∨ Taken m request m' response)) ↔ Recovers max o starts m request := by
  unfold Recovers
  by_cases locks : o.locks = true
  case neg => simp [Mem.queueAdd, locks]
  rw [and_iff_right locks]
  by_cases there : m.downloadQueue = none ∧ o.queueNew = false
  · have refused : m.queueAdd max o starts request = some (m, reply request .failure
        "Not enough memory to create a download queue".toList) := by
      simp [Mem.queueAdd, Mem.queueAppend, Mem.queueInit, locks, there.1, there.2]
    constructor
    · exact fun _ => Or.inl there
    · exact fun _ => ⟨_, _, refused, Or.inl ⟨rfl, rfl, rfl, rfl, rfl⟩⟩
  · by_cases untraversed : m.queueItems = none
    · simp [Mem.queueAdd, queueAppend_undefined wf there untraversed, untraversed, there]
    · rcases queueAdd_cases max starts request wf locks there untraversed
        with ⟨refusal, response, failure, added⟩ | ⟨fresh, ends⟩
      · have untouched := untouched_init wf o.queueNew untraversed failure
        constructor
        · exact fun _ => Or.inr ⟨untraversed, refusal.imp_right fun rest => rest.imp_right Or.inl⟩
        · exact fun _ => ⟨_, _, added, Or.inl untouched⟩
      · simp only [not_or, Bool.not_eq_true, Bool.not_eq_false] at fresh
        obtain ⟨unknown, clear, memory⟩ := fresh
        rcases ends with ⟨lost, added⟩ | ⟨stored, entry, m₁, response, target, pushed, success, added⟩
        · rw [added]
          constructor
          · rintro ⟨m', response, defined, -⟩
            cases defined
          · rintro (h | ⟨-, h | h | h | ⟨fits, node, -⟩⟩)
            · exact absurd h there
            · exact absurd h unknown
            · exact absurd (clear.symm.trans h) Bool.false_ne_true
            · exact absurd (h.symm.trans memory) Bool.false_ne_true
            · exact absurd ⟨fits, node⟩ lost
        · rw [added, pushed.outcome below nodup freed threads target success]
          constructor
          · exact fun recovers =>
              Or.inr ⟨untraversed, Or.inr (Or.inr (Or.inr ⟨stored.1, stored.2, recovers⟩))⟩
          · rintro (h | ⟨-, h | h | h | ⟨-, -, recovers⟩⟩)
            · exact absurd h there
            · exact absurd h unknown
            · exact absurd (clear.symm.trans h) Bool.false_ne_true
            · exact absurd (h.symm.trans memory) Bool.false_ne_true
            · exact recovers

end

end Dserve
