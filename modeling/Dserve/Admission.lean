import Dserve.Client

/-!
What becomes of a `DOWNLOAD`: the duplicate check and the new entry.

`queue_entry_exists` writes its `result` only when an entry has the id, and otherwise answers
what the variable happens to hold. With memory available a request is refused for its id alone
exactly when that is `false`, or the id is there, and nothing on the way to the reply is
undefined behaviour (`admitted_iff`).
-/

namespace Dserve

/-- Some entry of the queue has the id. -/
def HasId (m : Mem HeapList) (id : CString) : Prop := ∃ p ∈ m.queue, m.name p = id

instance (m : Mem HeapList) (id : CString) : Decidable (HasId m id) := by unfold HasId; infer_instance

/-- `entry_set_target` stays with the entry: the id fits its field, and the 972 bytes behind
the block, which it writes for every URL, are nobody's. -/
def TargetFits (o : Outcome) (request : Transaction) : Prop :=
  request.id.name.length < MAX_NAME_LEN ∧ o.overrun.spare = true

instance (o : Outcome) (request : Transaction) : Decidable (TargetFits o request) :=
  inferInstanceAs (Decidable (_ ∧ _))

/-- Every allocation for a request succeeds. -/
structure AllAllocated (o : Outcome) (starts : EntryPtr → StartOutcome) : Prop where
  queueNew : o.queueNew = true
  entryNew : o.entryNew = true
  node : o.node = true
  start : ∀ p, (starts p).listNew = true ∧ (starts p).record = true ∧ (starts p).node = true

/-- The law of `queue_add_container`: an id that is there is refused, and any other is added
at the end. The ids of the other entries stay what they are. -/
structure Admitted (m : Mem HeapList) (request : Transaction) (m' : Mem HeapList)
    (response : Transaction) : Prop where
  refused : response.status = .failure ∧ m'.queue = m.queue ↔ HasId m request.id.name
  added : ¬ HasId m request.id.name → response.status = .success ∧
    m'.queue = m.queue ++ [m.nextEntry] ∧ m.nextEntry ∉ m.queue ∧
    (m'.entry m.nextEntry).id = request.id
  names : ∀ p ∈ m.queue, m'.name p = m.name p
  distinct : (m.queue.map m.name).Nodup → (m'.queue.map m'.name).Nodup

/-- The mutex can be locked, the queue can be read, and the id is there; or it is not, the
variable holds `false`, the target of the entry can be set, and a download that can be started
finds a thread list that can be read. -/
def Admissible (max : Nat) (o : Outcome) (m : Mem HeapList) (request : Transaction) : Prop :=
  o.locks = true ∧ m.queueItems ≠ none ∧ (HasId m request.id.name ∨
    o.result = false ∧ TargetFits o request ∧ (m.started < max → m.recordItems ≠ none))

section

variable {max : Nat} {m m' : Mem HeapList} {o : Outcome} {starts : EntryPtr → StartOutcome}
  {request : Transaction}

/-! ### The duplicate check -/

theorem exists_sequence (m : Mem HeapList) (id : CString) (xs : List EntryPtr) (result : Bool) :
    Sequence.forEachCompare true
      (fun p result => if m.name p = id then some (true, true) else some (false, result)) xs result =
        some ((xs.any fun p => decide (m.name p = id)) || result) := by
  induction xs with
  | nil => rfl
  | cons x xs ih =>
      by_cases same : m.name x = id
      · simp [Sequence.forEachCompare, same]
      · simp [Sequence.forEachCompare, same, ih]

/-- `queue_entry_exists` on a queue that can be read. -/
theorem queueEntryExists_eq (wf : m.Wf) (traversed : m.queueItems ≠ none) (result : Bool)
    (id : CString) : m.queueEntryExists result id = some (decide (HasId m id) || result) := by
  obtain ⟨xs, items⟩ := Option.ne_none_iff_exists'.mp traversed
  have contents := Mem.queueItems_eq items
  have any : (xs.any fun p => decide (m.name p = id)) = decide (HasId m id) := by
    rw [contents, Bool.eq_iff_iff, decide_eq_true_iff, List.any_eq_true]
    simp [HasId]
  unfold Mem.queueItems at items
  unfold Mem.queueEntryExists
  cases hq : m.downloadQueue with
  | none =>
      have empty : m.queue = [] := by simp [Mem.queue, Mem.contents, hq]
      simp [HasId, empty]
  | some list =>
      simp only [hq] at items
      simp only [LawfulListApi.forEachCompare (wf.downloadQueue list hq), items, Option.bind_some,
        exists_sequence, any]

theorem queueEntryExists_undefined (wf : m.Wf) (untraversed : m.queueItems = none) (result : Bool)
    (id : CString) : m.queueEntryExists result id = none := by
  unfold Mem.queueItems at untraversed
  unfold Mem.queueEntryExists
  cases hq : m.downloadQueue with
  | none => simp [hq] at untraversed
  | some list =>
      simp only [hq] at untraversed
      simp only [LawfulListApi.forEachCompare (wf.downloadQueue list hq), untraversed,
        Option.bind_none]

/-! ### The queue when a request comes -/

/-- There is a queue after `queue_init`, unless there was none and no memory for one. -/
theorem queueInit_some (there : ¬ (m.downloadQueue = none ∧ o.queueNew = false)) :
    ∃ list, (m.queueInit o.queueNew).downloadQueue = some list := by
  unfold Mem.queueInit
  cases hq : m.downloadQueue with
  | some list => exact ⟨list, hq⟩
  | none =>
      cases new : o.queueNew with
      | false => exact absurd ⟨hq, new⟩ there
      | true => exact ⟨_, rfl⟩

/-- `queue_init` only makes a queue where there was none. -/
structure Initialized (m m₀ : Mem HeapList) : Prop where
  wf : m₀.Wf
  queueItems : m₀.queueItems = m.queueItems
  rest : ∃ list, m₀ = { m with downloadQueue := list }

theorem queueInit_initialized (wf : m.Wf) (listNew : Bool) : Initialized m (m.queueInit listNew) := by
  obtain ⟨list, init, wf', -⟩ := Mem.queueInit_spec listNew wf
  refine ⟨wf', ?_, list, init⟩
  unfold Mem.queueInit Mem.queueItems
  cases hq : m.downloadQueue with
  | some l => simp only [hq]
  | none =>
      cases listNew with
      | false => simp only [hq, Bool.false_eq_true, if_false]
      | true => exact LawfulListApi.items_new (L := HeapList)

theorem Initialized.queue {m₀ : Mem HeapList} (init : Initialized m m₀) (traversed : m.queueItems ≠ none) :
    m₀.queue = m.queue := by
  obtain ⟨xs, items⟩ := Option.ne_none_iff_exists'.mp traversed
  rw [← Mem.queueItems_eq items, ← Mem.queueItems_eq (init.queueItems.trans items)]

/-- What `queue_add_container` does before it has a new entry. -/
theorem queueAppend_eq (wf : m.Wf) (there : ¬ (m.downloadQueue = none ∧ o.queueNew = false))
    (traversed : m.queueItems ≠ none) : m.queueAppend o request =
      if (decide (HasId m request.id.name) || o.result) = true then
        some (m.queueInit o.queueNew, reply request .failure
          ("File ".toList ++ request.id.name ++ " already exists in the queue".toList), false)
      else if o.entryNew = true then
        (entrySetTarget o.overrun entryNew request).bind fun entry =>
          ((m.queueInit o.queueNew).queuePush o.node entry).map fun m =>
            (m, reply request .success "Successfully added the file to the download queue".toList, true)
      else some (m.queueInit o.queueNew, reply request .failure
        "Not enough memory to create a new download entry".toList, false) := by
  have init := queueInit_initialized wf o.queueNew
  obtain ⟨list, hq⟩ := queueInit_some there
  obtain ⟨l, same⟩ := init.rest
  have traversed₀ : (m.queueInit o.queueNew).queueItems ≠ none := init.queueItems ▸ traversed
  have there₀ : decide (HasId (m.queueInit o.queueNew) request.id.name) =
      decide (HasId m request.id.name) := by
    have names : (m.queueInit o.queueNew).name = m.name := by rw [same]; rfl
    simp only [HasId, init.queue traversed, names]
  unfold Mem.queueAppend
  simp only [hq, queueEntryExists_eq init.wf traversed₀, Option.bind_some, there₀]

theorem queueAppend_undefined (wf : m.Wf) (there : ¬ (m.downloadQueue = none ∧ o.queueNew = false))
    (untraversed : m.queueItems = none) : m.queueAppend o request = none := by
  have init := queueInit_initialized wf o.queueNew
  obtain ⟨list, hq⟩ := queueInit_some there
  unfold Mem.queueAppend
  simp only [hq, queueEntryExists_undefined init.wf (init.queueItems.trans untraversed),
    Option.bind_none]

/-! ### The new entry -/

/-- The queue with a new entry, which waits. -/
structure Pushed (m : Mem HeapList) (entry : Entry) (m₁ : Mem HeapList) : Prop where
  wf : m₁.Wf
  rest : ∃ list, m₁ = { m with
    entry := Function.update m.entry m.nextEntry entry
    nextEntry := m.nextEntry + 1
    downloadQueue := list }
  queueItems : m₁.queueItems = some (m.queue ++ [m.nextEntry])

theorem queuePush_pushed (entry : Entry) (wf : m.Wf) (traversed : m.queueItems ≠ none)
    (there : ¬ (m.downloadQueue = none ∧ o.queueNew = false)) :
    ∃ m₁, (m.queueInit o.queueNew).queuePush true entry = some m₁ ∧ Pushed m entry m₁ := by
  have init := queueInit_initialized wf o.queueNew
  obtain ⟨list, hq⟩ := queueInit_some there
  obtain ⟨l, same⟩ := init.rest
  have readable : ListApi.items list ≠ none := by
    have traversed₀ : (m.queueInit o.queueNew).queueItems ≠ none := init.queueItems ▸ traversed
    simpa [Mem.queueItems, hq] using traversed₀
  obtain ⟨list', appended⟩ := (HeapList.Wf.append_defined (init.wf.downloadQueue list hq) true
    (m.queueInit o.queueNew).nextEntry).mpr ⟨rfl, readable⟩
  have pushed : (m.queueInit o.queueNew).queuePush true entry = some { m.queueInit o.queueNew with
      entry := Function.update (m.queueInit o.queueNew).entry (m.queueInit o.queueNew).nextEntry entry
      nextEntry := (m.queueInit o.queueNew).nextEntry + 1
      downloadQueue := some list' } := by
    simp only [Mem.queuePush, hq, Option.bind_some, appended, Option.map_some]
  obtain ⟨-, -, wf₁, queue₁⟩ := Mem.queuePush_spec init.wf pushed
  refine ⟨_, pushed, wf₁, ⟨some list', by rw [same]⟩, ?_⟩
  obtain ⟨-, xs, items, items'⟩ := HeapList.Wf.append (init.wf.downloadQueue list hq) appended
  have contents : xs = m.queue := by
    rw [← init.queue traversed]
    simp [Mem.queue, Mem.contents, hq, ListApi.toList, items]
  have next : (m.queueInit o.queueNew).nextEntry = m.nextEntry := by rw [same]
  rw [contents, next] at items'
  exact items'

theorem queuePush_undefined {entry : Entry} : m.queuePush false entry = none := by
  unfold Mem.queuePush
  cases hq : m.downloadQueue with
  | none => rfl
  | some list =>
      have undefined : ListApi.append list false m.nextEntry = none := by
        cases appended : ListApi.append list false m.nextEntry with
        | none => rfl
        | some list' => cases HeapList.append_malloc appended
      simp [undefined]

/-- What the new entry leaves as it was. -/
theorem Pushed.frame {entry : Entry} {m₁ : Mem HeapList} (pushed : Pushed m entry m₁)
    (below : ∀ p ∈ m.queue, p < m.nextEntry) (waiting : entry.status = .waiting) :
    (∀ p ∈ m.queue, m₁.entry p = m.entry p) ∧ m₁.entry m.nextEntry = entry ∧
      m₁.started = m.started ∧ m₁.recordItems = m.recordItems := by
  obtain ⟨list, same⟩ := pushed.rest
  have old : ∀ p ∈ m.queue, m₁.entry p = m.entry p := by
    intro p hp
    rw [same]
    exact Function.update_of_ne (Nat.ne_of_lt (below p hp)) _ _
  have new : m₁.entry m.nextEntry = entry := by
    rw [same]
    exact Function.update_self _ _ _
  refine ⟨old, new, ?_, by rw [same]; rfl⟩
  have counted : m.queue.countP (fun p => decide (m₁.status p = .started)) = m.started := by
    apply List.countP_congr
    intro p hp
    rw [show m₁.status p = m.status p from congrArg Entry.status (old p hp)]
  have queue : m₁.queue = m.queue ++ [m.nextEntry] := (Mem.queueItems_eq pushed.queueItems).symm
  have notStarted : ¬ m₁.status m.nextEntry = .started := by simp [Mem.status, new, waiting]
  rw [Mem.started, queue, List.countP_append, counted]
  simp [notStarted]

/-- The entries that are `WAITING` when the pass over the queue begins. -/
def waitingNext (m : Mem HeapList) : List EntryPtr :=
  m.queue.filter (fun p => decide (m.status p = .waiting)) ++ [m.nextEntry]

/-- When the pass over the queue with the new entry comes to its end. -/
theorem Pushed.updateAll_defined {entry : Entry} {m₁ : Mem HeapList} (pushed : Pushed m entry m₁)
    (below : ∀ p ∈ m.queue, p < m.nextEntry) (nodup : m.queue.Nodup)
    (waiting : entry.status = .waiting) :
    (∃ m', m₁.updateAll max starts = some m') ↔
      (m.started < max → m.recordItems ≠ none ∧
        ¬ StartsFail starts m.threadList.isSome (waitingNext m)) := by
  obtain ⟨old, new, started, records⟩ := pushed.frame below waiting
  have nodup' : (m.queue ++ [m.nextEntry]).Nodup := by
    rw [List.nodup_append]
    have apart : ∀ p ∈ m.queue, ∀ q ∈ [m.nextEntry], p ≠ q := by
      intro p hp q hq
      rw [List.mem_singleton.mp hq]
      exact Nat.ne_of_lt (below p hp)
    exact ⟨nodup, by simp, apart⟩
  have newWaits : m₁.status m.nextEntry = .waiting := by simp [Mem.status, new, waiting]
  have filtered : ((m.queue ++ [m.nextEntry]).filter fun p => decide (m₁.status p = .waiting)) =
      waitingNext m := by
    have last : [m.nextEntry].filter (fun p => decide (m₁.status p = .waiting)) = [m.nextEntry] :=
      List.filter_cons_of_pos (by simp [newWaits])
    have others : m.queue.filter (fun p => decide (m₁.status p = .waiting)) =
        m.queue.filter fun p => decide (m.status p = .waiting) := by
      apply List.filter_congr
      intro p hp
      rw [show m₁.status p = m.status p from congrArg Entry.status (old p hp)]
    rw [List.filter_append, last, others, waitingNext]
  have listed : m₁.threadList = m.threadList := by
    obtain ⟨list, same⟩ := pushed.rest
    rw [same]
  rw [Mem.updateAll_eq pushed.wf, pushed.queueItems, Option.bind_some,
    pass_defined pushed.wf (by simp [pushed.queueItems]) nodup', started, records, filtered, listed]
  constructor
  · intro passes free
    obtain ⟨readable, fine⟩ := passes free
    exact ⟨readable m.nextEntry (by simp) newWaits, fine⟩
  · intro passes free
    obtain ⟨readable, fine⟩ := passes free
    exact ⟨fun _ _ _ => readable, fine⟩

/-! ### The law -/

/-- Where no allocation fails there is nothing untested that does. -/
theorem AllAllocated.startsFine (memory : AllAllocated o starts) (listed : Bool) (xs : List EntryPtr) :
    ¬ StartsFail starts listed xs := by
  induction xs generalizing listed with
  | nil => exact id
  | cons x xs ih =>
      rw [startsFail_cons, (memory.start x).2.2]
      rintro (⟨-, failed⟩ | failed)
      · cases failed
      · exact ih _ failed

/-- A refusal follows the law exactly when the id is there. -/
theorem admitted_refusal {m₀ : Mem HeapList} {response : Transaction}
    (queue : m₀.queue = m.queue) (name : m₀.name = m.name) (failure : response.status = .failure) :
    Admitted m request m₀ response ↔ HasId m request.id.name := by
  constructor
  · intro admitted
    exact admitted.refused.mp ⟨failure, queue⟩
  · intro there
    refine ⟨⟨fun _ => there, fun _ => ⟨failure, queue⟩⟩, fun fresh => absurd there fresh, ?_, ?_⟩
    · intro p _
      rw [name]
    · rw [queue, name]
      exact id

/-- A new entry follows the law. -/
theorem admitted_entry {entry : Entry} {m₁ : Mem HeapList} {response : Transaction}
    (pushed : Pushed m entry m₁) (below : ∀ p ∈ m.queue, p < m.nextEntry)
    (target : entrySetTarget o.overrun entryNew request = some entry) (fresh : ¬ HasId m request.id.name)
    (passed : m₁.updateAll max starts = some m') (success : response.status = .success) :
    Admitted m request m' response := by
  obtain ⟨id, -, waiting, -⟩ := entrySetTarget_spec target
  obtain ⟨old, new, -, -⟩ := pushed.frame below waiting
  rw [Mem.updateAll_eq pushed.wf, pushed.queueItems, Option.bind_some] at passed
  obtain ⟨wf', queue, same⟩ := pass_frame pushed.wf (by simp [pushed.queueItems]) passed
  have queue' : m'.queue = m.queue ++ [m.nextEntry] := by
    rw [Mem.queueItems_eq pushed.queueItems]
    simp only [Mem.queue, queue]
  have away : m.nextEntry ∉ m.queue := fun there => Nat.lt_irrefl _ (below _ there)
  have names : ∀ p ∈ m.queue, m'.name p = m.name p := by
    intro p hp
    rw [(same p).1]
    exact congrArg (fun e : Entry => e.id.name) (old p hp)
  have newName : m'.name m.nextEntry = request.id.name := by
    rw [(same _).1, Mem.name, new, id]
  refine ⟨⟨?_, fun there => absurd there fresh⟩, fun _ => ⟨success, queue', away, ?_⟩, names, ?_⟩
  · rintro ⟨failure, -⟩
    rw [success] at failure
    cases failure
  · exact congrArg TrxId.mk newName
  · intro distinct
    have sameNames : m.queue.map m'.name = m.queue.map m.name := List.map_congr_left names
    rw [queue', List.map_append, List.map_singleton, newName, sameNames, List.nodup_append]
    refine ⟨distinct, by simp, ?_⟩
    intro a ha b hb
    obtain ⟨p, hp, rfl⟩ := List.mem_map.mp ha
    rw [List.mem_singleton.mp hb]
    exact fun taken => fresh ⟨p, hp, taken⟩

/-- The law of the request holds exactly when it is admissible. -/
theorem queueAdd_admitted (wf : m.Wf) (below : ∀ p ∈ m.queue, p < m.nextEntry) (nodup : m.queue.Nodup)
    (memory : AllAllocated o starts) :
    (∃ m' response, m.queueAdd max o starts request = some (m', response) ∧
      Admitted m request m' response) ↔ Admissible max o m request := by
  have there : ¬ (m.downloadQueue = none ∧ o.queueNew = false) := by
    rw [memory.queueNew]
    simp
  unfold Admissible
  by_cases locks : o.locks = true
  case neg => simp [Mem.queueAdd, locks]
  by_cases untraversed : m.queueItems = none
  · simp [Mem.queueAdd, queueAppend_undefined wf there untraversed, untraversed]
  · obtain ⟨list, same⟩ := (queueInit_initialized wf o.queueNew).rest
    have queue := (queueInit_initialized wf o.queueNew).queue untraversed
    have name : (m.queueInit o.queueNew).name = m.name := by rw [same]; rfl
    simp only [Mem.queueAdd, locks, queueAppend_eq wf there untraversed, memory.entryNew, if_true,
      true_and]
    by_cases refusal : (decide (HasId m request.id.name) || o.result) = true
    · rw [if_pos refusal]
      have law : Admitted m request (m.queueInit o.queueNew) (reply request .failure
          ("File ".toList ++ request.id.name ++ " already exists in the queue".toList)) ↔
          HasId m request.id.name := admitted_refusal queue name rfl
      simp only [Option.bind_some, Bool.false_eq_true, if_false, Option.some.injEq, Prod.mk.injEq]
      constructor
      · rintro ⟨m', response, ⟨rfl, rfl⟩, admitted⟩
        exact ⟨untraversed, Or.inl (law.mp admitted)⟩
      · rintro ⟨-, known | ⟨clear, -, -⟩⟩
        · exact ⟨_, _, ⟨rfl, rfl⟩, law.mpr known⟩
        · have known : HasId m request.id.name := by simpa [clear] using refusal
          exact ⟨_, _, ⟨rfl, rfl⟩, law.mpr known⟩
    · rw [if_neg refusal]
      obtain ⟨fresh, clear⟩ : ¬ HasId m request.id.name ∧ o.result = false := by simpa using refusal
      by_cases fits : TargetFits o request
      · obtain ⟨entry, target⟩ : ∃ entry, entrySetTarget o.overrun entryNew request = some entry :=
          ⟨_, if_pos fits⟩
        obtain ⟨m₁, push, pushed⟩ := queuePush_pushed entry wf untraversed there
        have defined : (∃ m', m₁.updateAll max starts = some m') ↔ _ :=
          pushed.updateAll_defined below nodup (entrySetTarget_spec target).2.2.1
        simp only [target, Option.bind_some, memory.node, push, Option.map_some, if_true]
        constructor
        · rintro ⟨m', response, added, -⟩
          obtain ⟨m₂, passed, -⟩ := Option.map_eq_some_iff.mp added
          exact ⟨untraversed, Or.inr ⟨clear, fits, fun free => (defined.mp ⟨m₂, passed⟩ free).1⟩⟩
        · rintro ⟨-, known | ⟨-, -, readable⟩⟩
          · exact absurd known fresh
          · obtain ⟨m', passed⟩ := defined.mpr fun free => ⟨readable free, memory.startsFine _ _⟩
            refine ⟨m', _, by rw [passed]; rfl, ?_⟩
            exact admitted_entry pushed below target fresh passed rfl
      · have target : entrySetTarget o.overrun entryNew request = none := if_neg fits
        simp only [target, Option.bind_none]
        constructor
        · rintro ⟨m', response, added, -⟩
          cases added
        · rintro ⟨-, known | ⟨-, fits', -⟩⟩
          · exact absurd known fresh
          · exact absurd fits' fits

end

end Dserve
