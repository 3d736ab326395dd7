import Dserve.Operations
import Dserve.Queue

/-!
The traversals of `list.c`, and what the queue counts with them.

`list_get_item`, `list_remove_item` and `list_for_each_compare` are three loops over one chain.
`Sound.traverses` says that they stop at the same node, the first that satisfies the comparison,
and that the two loops that do not stop visit every node once. A comparison may write through its
`result`; only what it returns depends on nothing but the data it compares.

The counts are as wide as their types: `list_count` is an `unsigned int` that goes back to zero,
and the `int` of `queue_count_started` must not overflow (`traversals_agree`).
-/

namespace Dserve

open Chain

namespace HeapList

variable {α : Type}

/-- `queue_count_by_status`. The data of a node may be `NULL`; a signed overflow is undefined. -/
def queueCountByStatus (status : α → Option EntryStatus) (tmp : EntryStatus) (data : α)
    (count : Nat) : Option (Bool × Nat) :=
  if status data = some tmp then
    if count + 1 < 2147483648 then some (false, count + 1) else none
  else some (false, count)

/-- `queue_count_started`, with the counter as wide as it is. -/
def queueCountStarted (status : α → Option EntryStatus) (downloadQueue : Option (HeapList α)) :
    Option Nat :=
  match downloadQueue with
  | none => some 0
  | some list => ListApi.forEachCompare list false (queueCountByStatus status .started) 0

/-- The comparison, and what it writes through its `result`. -/
def comparing {σ : Type} (comparable : α → Bool) (effect : α → σ → σ) (data : α) (result : σ) :
    Option (Bool × σ) := some (comparable data, effect data result)

/-- What visiting the nodes leaves in `result`. -/
def visited {σ : Type} (effect : α → σ → σ) (nodes : List (Nat × α)) (result : σ) : σ :=
  nodes.foldl (fun result n => effect n.2 result) result

/-- The three searches stop at `n`, after the nodes `before` it. -/
structure Selects (list : HeapList α) (comparable : α → Bool) (before : List (Nat × α))
    (n : Nat × α) : Prop where
  getItem : ListApi.getItem list (fun x => some (comparable x)) = some (some n.2)
  removeItem : ∃ list', list.unlink n.1 = some list' ∧ list'.nodes n.1 = none ∧
    ListApi.removeItem list (fun x => some (comparable x)) = some (true, list')
  forEachCompare : ∀ {σ : Type} (effect : α → σ → σ) (result : σ),
    ListApi.forEachCompare list true (comparing comparable effect) result =
      some (visited effect (before ++ [n]) result)

/-- The three searches find nothing on `nodes`. -/
structure SelectsNone (list : HeapList α) (comparable : α → Bool) (nodes : List (Nat × α)) :
    Prop where
  getItem : ListApi.getItem list (fun x => some (comparable x)) = some none
  removeItem : ListApi.removeItem list (fun x => some (comparable x)) = some (false, list)
  forEachCompare : ∀ {σ : Type} (effect : α → σ → σ) (result : σ),
    ListApi.forEachCompare list true (comparing comparable effect) result =
      some (visited effect nodes result)

/-- The traversals agree on a list with the given nodes. -/
structure Traverses (list : HeapList α) (nodes : List (Nat × α)) (comparable : α → Bool) :
    Prop where
  found : ∀ before n after, nodes = before ++ n :: after →
    (∀ c ∈ before, comparable c.2 = false) → comparable n.2 = true →
      Selects list comparable before n
  missing : (∀ c ∈ nodes, comparable c.2 = false) → SelectsNone list comparable nodes
  forEachCompare : ∀ {σ : Type} (effect : α → σ → σ) (result : σ),
    ListApi.forEachCompare list false (comparing comparable effect) result =
      some (visited effect nodes result)
  forEach : ∀ {σ : Type} (effect : α → σ → σ) (data : σ),
    ListApi.forEach list (fun x data => some (effect x data)) data =
      some (visited effect nodes data)

end HeapList

/-! ### Visits -/

namespace Sequence

variable {α σ : Type} {comparable : α → Bool} {nodes before after : List (Nat × α)} {n : Nat × α}
  (effect : α → σ → σ) (result : σ)

open HeapList (comparing visited dataOf queueCountByStatus)

/-- The loop goes on behind nodes that do not stop it. -/
theorem forEachCompare_pass {uniqueness : Bool}
    (passed : ∀ c ∈ before, uniqueness = true → comparable c.2 = false) (rest : List (Nat × α)) :
    forEachCompare uniqueness (comparing comparable effect) (dataOf (before ++ rest)) result =
      forEachCompare uniqueness (comparing comparable effect) (dataOf rest)
        (visited effect before result) := by
  induction before generalizing result with
  | nil => rfl
  | cons c before ih =>
      have here : ¬ (comparable c.2 = true ∧ uniqueness = true) := by
        rintro ⟨holds, unique⟩
        rw [passed c List.mem_cons_self unique] at holds
        cases holds
      simp only [List.cons_append, List.map_cons, forEachCompare, comparing, if_neg here]
      exact ih (effect c.2 result) fun d hd => passed d (List.mem_cons_of_mem _ hd)

/-- Where nothing stops it, every node is visited. -/
theorem forEachCompare_all {uniqueness : Bool}
    (passed : ∀ c ∈ nodes, uniqueness = true → comparable c.2 = false) :
    forEachCompare uniqueness (comparing comparable effect) (dataOf nodes) result =
      some (visited effect nodes result) := by
  have run := forEachCompare_pass effect result passed []
  rwa [List.append_nil] at run

/-- With uniqueness the nodes up to the first that satisfies the comparison are visited. -/
theorem forEachCompare_found (differ : ∀ c ∈ before, comparable c.2 = false)
    (holds : comparable n.2 = true) :
    forEachCompare true (comparing comparable effect) (dataOf (before ++ n :: after)) result =
      some (visited effect (before ++ [n]) result) := by
  have last : visited effect (before ++ [n]) result = effect n.2 (visited effect before result) :=
    List.foldl_append
  rw [forEachCompare_pass effect result fun c hc _ => differ c hc, last]
  simp only [List.map_cons, forEachCompare, comparing, holds, and_self, if_true]

theorem forEach_all (nodes : List (Nat × α)) :
    forEach (fun x data => some (effect x data)) (dataOf nodes) result =
      some (visited effect nodes result) := by
  induction nodes generalizing result with
  | nil => rfl
  | cons c nodes ih => exact ih (effect c.2 result)

/-- The entries that are `STARTED` are counted, as long as the counter holds them. -/
theorem forEachCompare_count (status : α → Option EntryStatus) {k : Nat}
    (fits : k + nodes.countP (fun n => decide (status n.2 = some .started)) < 2147483648) :
    forEachCompare false (queueCountByStatus status .started) (dataOf nodes) k =
      some (k + nodes.countP fun n => decide (status n.2 = some .started)) := by
  induction nodes generalizing k with
  | nil => rfl
  | cons c nodes ih =>
      by_cases here : status c.2 = some .started
      · have counted : (c :: nodes).countP (fun n => decide (status n.2 = some .started)) =
            nodes.countP (fun n => decide (status n.2 = some .started)) + 1 := by simp [here]
        rw [counted] at fits ⊢
        have next := ih (k := k + 1) (by omega)
        have room : k + 1 < 2147483648 := by omega
        simp only [List.map_cons, forEachCompare, queueCountByStatus, here, if_true, if_pos room,
          Bool.false_eq_true, false_and, if_false]
        rw [next]
        congr 1
        omega
      · have counted : (c :: nodes).countP (fun n => decide (status n.2 = some .started)) =
            nodes.countP (fun n => decide (status n.2 = some .started)) := by simp [here]
        rw [counted] at fits ⊢
        simp only [List.map_cons, forEachCompare, queueCountByStatus, here, if_false,
          Bool.false_eq_true, false_and]
        exact ih fits

end Sequence

namespace HeapList

variable {α : Type} {list : HeapList α} {nodes before after : List (Nat × α)} {n : Nat × α}
  {comparable : α → Bool}

theorem Sound.selects (sound : list.Sound nodes) (split : nodes = before ++ n :: after)
    (differ : ∀ c ∈ before, comparable c.2 = false) (holds : comparable n.2 = true) :
    Selects list comparable before n := by
  subst split
  have rep := sound.rep
  have data : dataOf (before ++ n :: after) = dataOf before ++ n.2 :: dataOf after := by simp
  have differ' : ∀ y ∈ dataOf before, (fun x => some (comparable x)) y = some false := by
    intro y hy
    obtain ⟨c, hc, rfl⟩ := List.mem_map.mp hy
    exact congrArg some (differ c hc)
  constructor
  · rw [rep.getItem]
    show Sequence.getItem _ _ = _
    have first : (dataOf (before ++ n :: after)).find? comparable = some n.2 := by
      apply List.find?_eq_some_iff_append.mpr
      refine ⟨holds, dataOf before, dataOf after, data, fun y hy => ?_⟩
      rw [Option.some.inj (differ' y hy)]
      rfl
    rw [Sequence.getItem_total, first]
  · have loop : ListApi.removeItem list (fun x => some (comparable x)) =
        (list.unlink n.1).map fun list => (true, list) :=
      removeItemLoop_first rep.chain rep.length_le (fun c hc => congrArg some (differ c hc))
        (congrArg some holds)
    obtain ⟨list', removed, -⟩ := rep.removeItem_found data differ' (congrArg some holds)
    obtain ⟨list₁, unlinked, same⟩ := Option.map_eq_some_iff.mp (loop.symm.trans removed)
    cases same
    exact ⟨list', unlinked, unlink_freed unlinked, removed⟩
  · intro σ effect result
    rw [rep.forEachCompare]
    exact Sequence.forEachCompare_found effect result differ holds

theorem Sound.selectsNone (sound : list.Sound nodes)
    (differ : ∀ c ∈ nodes, comparable c.2 = false) : SelectsNone list comparable nodes := by
  constructor
  · rw [sound.rep.getItem]
    show Sequence.getItem _ _ = _
    have absent : (dataOf nodes).find? comparable = none := by
      apply List.find?_eq_none.mpr
      intro y hy
      obtain ⟨c, hc, rfl⟩ := List.mem_map.mp hy
      simp [differ c hc]
    rw [Sequence.getItem_total, absent]
  · exact removeItemLoop_none sound.rep.chain sound.rep.length_le fun c hc =>
      congrArg some (differ c hc)
  · intro σ effect result
    rw [sound.rep.forEachCompare]
    exact Sequence.forEachCompare_all effect result fun c hc _ => differ c hc

theorem Sound.traverses (sound : list.Sound nodes) (comparable : α → Bool) :
    Traverses list nodes comparable := by
  constructor
  · exact fun before n after split differ holds => sound.selects split differ holds
  · exact fun differ => sound.selectsNone differ
  · intro σ effect result
    rw [sound.rep.forEachCompare]
    exact Sequence.forEachCompare_all effect result fun _ _ unique => absurd unique Bool.false_ne_true
  · intro σ effect data
    rw [sound.rep.forEach]
    exact Sequence.forEach_all effect data nodes

theorem Sound.queueCountStarted (sound : list.Sound nodes) (status : α → Option EntryStatus)
    (fits : nodes.countP (fun n => decide (status n.2 = some .started)) < 2147483648) :
    HeapList.queueCountStarted status (some list) =
      some (nodes.countP fun n => decide (status n.2 = some .started)) := by
  have counted := Sequence.forEachCompare_count (k := 0) status (by rwa [Nat.zero_add])
  rw [Nat.zero_add] at counted
  exact (sound.rep.forEachCompare).trans counted

end HeapList

/-- The counter of the controller's model is that of the code while it fits into an `int`. -/
theorem queueCountStarted_queue {m : Mem HeapList} {list : HeapList EntryPtr}
    {nodes : List (Nat × EntryPtr)} (sound : list.Sound nodes) (queue : m.downloadQueue = some list)
    (fits : nodes.countP (fun n => decide (m.status n.2 = .started)) < 2147483648) :
    m.queueCountStarted = HeapList.queueCountStarted (fun p => some (m.status p)) m.downloadQueue := by
  have same : (fun n : Nat × EntryPtr => decide (some (m.status n.2) = some EntryStatus.started)) =
      fun n => decide (m.status n.2 = .started) := by
    funext n
    simp
  have counted := sound.queueCountStarted (fun p => some (m.status p)) (by rwa [same])
  rw [queue, counted, same]
  unfold Mem.queueCountStarted
  rw [queue]
  have sequence := Mem.countStarted_sequence m (HeapList.dataOf nodes) 0
  rw [Nat.zero_add, List.countP_map] at sequence
  exact (sound.rep.forEachCompare).trans sequence

section

variable {α : Type} {list : HeapList α} {nodes : List (Nat × α)}

/-- The searches and visits agree on every well-formed list; `list_count` is the number of nodes
modulo `2 ^ 32`, and `queue_count_started` that of the `STARTED` entries while it fits an `int`. -/
theorem traversals_agree (sound : list.Sound nodes) (comparable : α → Bool)
    (status : α → Option EntryStatus) :
    list.Traverses nodes comparable ∧
      (∃ n, list.count = some n ∧ n.toNat = nodes.length % 4294967296) ∧
      (nodes.countP (fun n => decide (status n.2 = some .started)) < 2147483648 →
        HeapList.queueCountStarted status (some list) =
          some (nodes.countP fun n => decide (status n.2 = some .started))) := by
  refine ⟨sound.traverses comparable, ⟨_, sound.count, ?_⟩, sound.queueCountStarted status⟩
  rw [UInt32.toNat_ofNat']

theorem traversals_agree_pair : pairList.Traverses pairNodes (· = 8) ∧
    (∃ n, pairList.count = some n ∧ n.toNat = pairNodes.length % 4294967296) ∧
    (pairNodes.countP (fun _ => decide (some EntryStatus.started = some .started)) < 2147483648 →
      HeapList.queueCountStarted (fun _ => some .started) (some pairList) =
        some (pairNodes.countP fun _ => decide (some EntryStatus.started = some .started))) :=
  traversals_agree pairList_sound (· = 8) fun _ => some .started

/-- A list of `2 ^ 32` nodes is counted as empty. -/
theorem count_differs : ¬ ∀ (list : HeapList Nat) (nodes : List (Nat × Nat)), list.Sound nodes →
    ∃ n, list.count = some n ∧ n.toNat = nodes.length := by
  intro all
  obtain ⟨list, nodes, sound, long⟩ := HeapList.exists_sound 0 4294967296
  obtain ⟨n, counted, same⟩ := all list nodes sound
  have zero : n = 0 := by
    rw [sound.count, long] at counted
    exact (Option.some.inj counted).symm
  rw [zero, long] at same
  cases same

end

end Dserve
