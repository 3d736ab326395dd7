import Dserve.List

/-!
The four functions of `list.c` that change a list, called in any order.

`list_insert` and `list_remove` are the ones the server does not use. `Call.apply` says what
each call is for, on the nodes of the list; a node is given by its address and its datum.
The heap keeps the nodes doubly linked as long as no call takes out the first of them and
none inserts in front of a node or at the end (`linked_iff`): `root` is not assigned by a
removal, and `list_insert` compares by an assignment, so that it goes on with a null
pointer.
-/

namespace Dserve

open Chain

namespace HeapList

variable {α : Type}

/-- The loop of `go_to`: the node it stops at and the count. -/
def goTo (h : CellHeap Nat α) (position : Nat) : Nat → Option Nat → Nat → Option (Option Nat × Nat)
  | _, none, count => some (none, count)
  | 0, some p, count => if count < position then none else some (some p, count)
  | fuel + 1, some p, count =>
      if count < position then do
        let node ← h p
        goTo h position fuel node.next (count + 1)
      else some (some p, count)

/-- `list_insert` -/
def insert (list : HeapList α) (malloc : Bool) (data : α) (position : Nat) :
    Option (Option Nat × HeapList α) := do
  let (_, count) ← goTo list.nodes position list.brk list.root 0
  if count ≠ position then some (none, list)
  else if malloc then
    let p := list.brk
    let h := Function.update list.nodes p (some ⟨none, none, data⟩)
    -- the condition is `current = NULL`: it assigns, and is false
    let current : Option Nat := none
    let node ← current.bind h
    let h ← setNext h node.previous (some p)
    let node ← current.bind h
    let h ← setPrevious h (some p) node.previous
    let h ← setPrevious h current (some p)
    let h ← setNext h (some p) current
    some (some p, { list with nodes := h, brk := p + 1 })
  else none

/-- `list_remove`: the node is unlinked and given to the caller. -/
def remove (list : HeapList α) (position : Nat) : Option (Option Nat × HeapList α) := do
  let (found, count) ← goTo list.nodes position list.brk list.root 0
  if count ≠ position then some (none, list)
  else
    match found with
    | none => some (none, list)
    | some p =>
        let node ← list.nodes p
        let h ← setNext list.nodes node.previous node.next
        let node ← h p
        let h ← setPrevious h node.next node.previous
        let node ← h p
        some (some p, { list with
          nodes := Function.update h p (some { node with previous := none, next := none })
          current := node.previous })

end HeapList

/-- A call that changes a list. -/
inductive Call (α : Type) where
  | append (data : α)
  | insert (data : α) (position : Nat)
  | remove (position : Nat)
  | removeItem (comparable : α → Bool)

namespace Call

variable {α : Type}

/-- What the call does to the list, when there is memory. -/
def run (list : HeapList α) : Call α → Option (HeapList α)
  | append data => ListApi.append list true data
  | insert data position => (list.insert true data position).map Prod.snd
  | remove position => (list.remove position).map Prod.snd
  | removeItem comparable => (ListApi.removeItem list fun x => some (comparable x)).map Prod.snd

/-- What the call is for: the nodes of the list after it. A new node is at the address
`malloc` returns next. -/
def apply (brk : Nat) (nodes : List (Nat × α)) : Call α → List (Nat × α)
  | append data => nodes ++ [(brk, data)]
  | insert data position => nodes.insertIdx position (brk, data)
  | remove position => nodes.eraseIdx position
  | removeItem comparable => nodes.eraseP fun c => comparable c.2

/-- The address `malloc` returns next, after the call. -/
def brk (brk : Nat) (nodes : List (Nat × α)) : Call α → Nat
  | append _ => brk + 1
  | insert _ position => if position ≤ nodes.length then brk + 1 else brk
  | remove _ => brk
  | removeItem _ => brk

/-- The call leaves the first node of the list alone, and it is no `list_insert` at a
position the list has. -/
def KeepsFirst (nodes : List (Nat × α)) : Call α → Prop
  | append _ => True
  | insert _ position => nodes.length < position
  | remove position => position = 0 → nodes = []
  | removeItem comparable => ∀ c ∈ nodes.head?, comparable c.2 = false

end Call

section

variable {α : Type}

/-- Following `next` from `first` visits the given nodes, with their data, and ends. -/
def Path (h : CellHeap Nat α) : Option Nat → List (Nat × α) → Prop
  | first, [] => first = none
  | first, (p, x) :: nodes => first = some p ∧ ∃ c, h p = some c ∧ c.data = x ∧ Path h c.next nodes

/-- The nodes of the list are doubly linked from `root`. -/
structure Linked (list : HeapList α) (nodes : List (Nat × α)) : Prop where
  root : list.root = none ↔ nodes = []
  path : Path list.nodes list.root nodes
  distinct : (nodes.map Prod.fst).Nodup
  links : ∀ before after a b, nodes = before ++ a :: b :: after →
    ∃ c d, list.nodes a.1 = some c ∧ list.nodes b.1 = some d ∧ c.next = some b.1 ∧
      d.previous = some a.1
  first : ∀ a ∈ nodes.head?, ∃ c, list.nodes a.1 = some c ∧ c.previous = none
  current : ∀ p, list.current = some p → ∃ a ∈ nodes, a.1 = p

/-- Before each call and after the last one the nodes are linked, and no call is undefined
behaviour. -/
def Intact : List (Call α) → HeapList α → List (Nat × α) → Prop
  | [], list, nodes => Linked list nodes
  | c :: calls, list, nodes => Linked list nodes ∧
      ∃ list', c.run list = some list' ∧ Intact calls list' (c.apply list.brk nodes)

/-- Each of the calls leaves the first node alone. -/
def KeepFirst : List (Call α) → Nat → List (Nat × α) → Prop
  | [], _, _ => True
  | c :: calls, brk, nodes =>
      c.KeepsFirst nodes ∧ KeepFirst calls (c.brk brk nodes) (c.apply brk nodes)

/-! ### What holds between the calls -/

namespace HeapList

variable {list list' : HeapList α} {nodes : List (Nat × α)}

/-- The chain is there, and `current` is one of its nodes. -/
structure Sound (list : HeapList α) (nodes : List (Nat × α)) : Prop where
  rep : Rep list nodes
  current : ∀ p, list.current = some p → ∃ a ∈ nodes, a.1 = p

theorem path_of_seg {h : CellHeap Nat α} {prev first : Option Nat}
    (seg : Seg h prev first nodes none) : Path h first nodes := by
  induction nodes generalizing prev first with
  | nil => exact seg
  | cons c nodes ih =>
      obtain ⟨p, x⟩ := c
      obtain ⟨rfl, n, cell, rest⟩ := seg
      exact ⟨rfl, _, cell, rfl, ih rest⟩

theorem Sound.linked (sound : Sound list nodes) : Linked list nodes := by
  have chain := sound.rep.chain
  refine ⟨?_, path_of_seg chain, sound.rep.distinct, ?_, ?_, sound.current⟩
  · cases nodes with
    | nil => exact ⟨fun _ => rfl, fun _ => chain⟩
    | cons c nodes => simp [chain.1]
  · rintro before after ⟨a, x⟩ ⟨b, y⟩ rfl
    obtain ⟨mid, -, rfl, n, cellA, rfl, k, cellB, -⟩ := Seg.append_iff.mp chain
    exact ⟨_, _, cellA, cellB, rfl, rfl⟩
  · intro a head
    cases nodes with
    | nil => cases head
    | cons c nodes =>
        cases head
        obtain ⟨-, n, cell, -⟩ := chain
        exact ⟨_, cell, rfl⟩

/-! #### The calls -/

theorem append_current {data : α} (h : ListApi.append list true data = some list') :
    list'.brk = list.brk + 1 ∧ (list'.current = list.current ∨ list'.current = some list.brk) := by
  have h : HeapList.append list true data = some list' := h
  simp only [HeapList.append, if_true, Option.bind_eq_bind] at h
  obtain ⟨last, -, h⟩ := Option.bind_eq_some_iff.mp h
  cases last with
  | none =>
      cases h
      exact ⟨rfl, Or.inr rfl⟩
  | some a =>
      obtain ⟨h₁, -, h⟩ := Option.bind_eq_some_iff.mp h
      obtain ⟨h₂, -, h⟩ := Option.bind_eq_some_iff.mp h
      cases h
      exact ⟨rfl, Or.inl rfl⟩

theorem Sound.append (sound : Sound list nodes) (data : α) :
    ∃ list', ListApi.append list true data = some list' ∧ list'.brk = list.brk + 1 ∧
      Sound list' (nodes ++ [(list.brk, data)]) := by
  obtain ⟨list', appended, rep⟩ := sound.rep.append data
  obtain ⟨brk, current⟩ := append_current appended
  refine ⟨list', appended, brk, rep, fun p hp => ?_⟩
  rcases current with same | fresh
  · obtain ⟨a, ha, rfl⟩ := sound.current p (same ▸ hp)
    exact ⟨a, List.mem_append_left _ ha, rfl⟩
  · rw [fresh] at hp
    cases hp
    exact ⟨(list.brk, data), by simp, rfl⟩

/-- `go_to` stops at the position, or at the end of a shorter list. -/
theorem goTo_eq {h : CellHeap Nat α} {prev first : Option Nat} {fuel position count : Nat}
    (seg : Seg h prev first nodes none) (enough : nodes.length ≤ fuel) (before : count ≤ position) :
    goTo h position fuel first count =
      some ((nodes[position - count]?).map Prod.fst, min position (count + nodes.length)) := by
  induction nodes generalizing prev first fuel count with
  | nil =>
      cases seg
      simp only [goTo, List.getElem?_nil, Option.map_none, List.length_nil]
      congr 2
      omega
  | cons c nodes ih =>
      obtain ⟨p, x⟩ := c
      obtain ⟨rfl, n, cell, rest⟩ := seg
      obtain ⟨fuel, rfl⟩ : ∃ k, fuel = k + 1 := ⟨fuel - 1, by simp at enough; omega⟩
      simp only [goTo]
      by_cases more : count < position
      · rw [if_pos more]
        simp only [cell, Option.bind_eq_bind, Option.bind_some]
        rw [ih rest (by simpa using enough) more]
        have index : position - count = (position - (count + 1)) + 1 := by omega
        rw [index, List.getElem?_cons_succ, List.length_cons]
        congr 3
        omega
      · have here : position = count := by omega
        subst here
        simp

/-- `list_remove` unlinks as `list_remove_item` does, and keeps the node. -/
theorem remove_eq {position p : Nat} {node : Cell Nat α}
    (found : goTo list.nodes position list.brk list.root 0 = some (some p, position))
    (cell : list.nodes p = some node) (unlinked : list.unlink p = some list') :
    list.remove position = some (some p, { list' with
      nodes := Function.update list'.nodes p (some { node with previous := none, next := none }) }) := by
  simp only [unlink, cell, Option.bind_eq_bind, Option.bind_some] at unlinked
  obtain ⟨h₁, next, unlinked⟩ := Option.bind_eq_some_iff.mp unlinked
  have cell₁ := setNext_keeps cell next
  rw [cell₁, Option.bind_some] at unlinked
  obtain ⟨h₂, previous, unlinked⟩ := Option.bind_eq_some_iff.mp unlinked
  have cell₂ := setPrevious_keeps cell₁ previous
  rw [cell₂, Option.bind_some] at unlinked
  cases unlinked
  simp only [remove, found, Option.bind_eq_bind, Option.bind_some, ne_eq, not_true_eq_false,
    if_false, cell, next, cell₁, previous, cell₂, Function.update_idem]

/-- A node that is in no chain may hold anything. -/
theorem Rep.update (rep : Rep list nodes) {p : Nat} (away : ∀ a ∈ nodes, a.1 ≠ p)
    (node : Option (Cell Nat α)) :
    Rep { list with nodes := Function.update list.nodes p node } nodes :=
  ⟨rep.chain.frame fun a ha => Function.update_of_ne (away a ha) _ _, rep.distinct, rep.below⟩

/-- A node of the chain is none of the others. -/
theorem away_of_distinct {before after : List (Nat × α)} {b : Nat × α}
    (distinct : ((before ++ b :: after).map Prod.fst).Nodup) : ∀ c ∈ before ++ after, c.1 ≠ b.1 := by
  rw [(List.perm_middle.map Prod.fst).nodup_iff, List.map_cons, List.nodup_cons] at distinct
  intro c hc same
  exact distinct.1 (same ▸ List.mem_map_of_mem hc)

/-- A node that has a predecessor. -/
theorem split_at {k : Nat} (inside : k + 1 < nodes.length) :
    ∃ before a b after, nodes = before ++ a :: b :: after ∧ before.length = k := by
  refine ⟨nodes.take k, nodes[k], nodes[k + 1], nodes.drop (k + 2), ?_, ?_⟩
  · calc nodes = nodes.take k ++ nodes.drop k := (List.take_append_drop k nodes).symm
      _ = nodes.take k ++ nodes[k] :: nodes[k + 1] :: nodes.drop (k + 2) := by
        rw [List.drop_eq_getElem_cons (by omega), List.drop_eq_getElem_cons inside]
  · rw [List.length_take]
    omega

/-- A removal that leaves the first node alone: the node is given to the caller, detached. -/
theorem Sound.remove (sound : Sound list nodes) {position : Nat} (keeps : position = 0 → nodes = []) :
    ∃ list', list.remove position = some (nodes[position]?.map Prod.fst, list') ∧
      list'.brk = list.brk ∧ Sound list' (nodes.eraseIdx position) ∧
      (∀ c ∈ nodes[position]?, list'.nodes c.1 = some ⟨none, none, c.2⟩) ∧
      (nodes.length ≤ position → list' = list) := by
  have stops := goTo_eq sound.rep.chain sound.rep.length_le (Nat.zero_le position)
  simp only [Nat.sub_zero, Nat.zero_add] at stops
  rcases Nat.lt_or_ge position nodes.length with inside | outside
  · cases position with
    | zero => simp [keeps rfl] at inside
    | succ k =>
        obtain ⟨before, ⟨a, x⟩, ⟨b, y⟩, after, rfl, rfl⟩ := split_at inside
        obtain ⟨list₁, unlinked, rep, current, brk⟩ := unlink_eq sound.rep
        have here : (before ++ (a, x) :: (b, y) :: after)[before.length + 1]? = some (b, y) := by
          simp
        rw [here, Nat.min_eq_left (Nat.le_of_lt inside)] at stops
        obtain ⟨n, q, cell⟩ := sound.rep.chain.allocated (c := (b, y)) (by simp)
        have removed := remove_eq stops cell unlinked
        have erased : (before ++ (a, x) :: (b, y) :: after).eraseIdx (before.length + 1) =
            before ++ (a, x) :: after := by
          rw [List.eraseIdx_append_of_length_le (by omega)]
          simp
        have away : ∀ c ∈ before ++ (a, x) :: after, c.1 ≠ b := by
          rw [List.append_cons] at sound ⊢
          exact away_of_distinct sound.rep.distinct
        rw [erased, here]
        refine ⟨_, removed, brk, ⟨rep.update away _, fun p hp => ?_⟩, ?_, fun outside => ?_⟩
        · have same : a = p := Option.some.inj (current.symm.trans hp)
          exact ⟨(a, x), by simp, same⟩
        · rintro c ⟨⟩
          exact Function.update_self _ _ _
        · omega
  · have missing : nodes[position]? = none := List.getElem?_eq_none outside
    have unchanged : list.remove position = some (none, list) := by
      simp only [HeapList.remove, stops, missing, Option.map_none, Option.bind_eq_bind, Option.bind_some]
      split <;> rfl
    rw [List.eraseIdx_of_length_le outside, missing]
    exact ⟨list, unchanged, rfl, sound, by simp, fun _ => rfl⟩

theorem insert_outside {data : α} {position : Nat} (sound : Sound list nodes)
    (outside : nodes.length < position) : list.insert true data position = some (none, list) := by
  have stops := goTo_eq sound.rep.chain sound.rep.length_le (Nat.zero_le position)
  have short : min position (0 + nodes.length) ≠ position := by omega
  simp only [HeapList.insert, stops, Option.bind_eq_bind, Option.bind_some]
  rw [if_pos short]

/-- `list_insert` at a position the list has dereferences a null pointer. -/
theorem insert_inside {data : α} {position : Nat} (sound : Sound list nodes)
    (inside : position ≤ nodes.length) : list.insert true data position = none := by
  have stops := goTo_eq sound.rep.chain sound.rep.length_le (Nat.zero_le position)
  have there : ¬ min position (0 + nodes.length) ≠ position := by omega
  simp only [HeapList.insert, stops, Option.bind_eq_bind, Option.bind_some]
  rw [if_neg there]
  rfl

theorem unlink_freed {p : Nat} (h : list.unlink p = some list') : list'.nodes p = none := by
  simp only [unlink, Option.bind_eq_bind, Option.bind_eq_some_iff, Option.some.injEq] at h
  obtain ⟨_, -, _, -, _, -, _, -, _, -, rfl⟩ := h
  exact Function.update_self _ _ _

/-- A removal that leaves the first node alone: the node that is found is freed. -/
theorem Sound.removeItem (sound : Sound list nodes) {comparable : α → Bool}
    (keeps : ∀ c ∈ nodes.head?, comparable c.2 = false) :
    ∃ list', ListApi.removeItem list (fun x => some (comparable x)) =
        some (nodes.any fun c => comparable c.2, list') ∧
      list'.brk = list.brk ∧ Sound list' (nodes.eraseP fun c => comparable c.2) ∧
      (∀ c ∈ nodes.find? (fun c => comparable c.2), list'.nodes c.1 = none) ∧
      ((∀ c ∈ nodes, comparable c.2 = false) → list' = list) := by
  cases found : nodes.find? fun c => comparable c.2 with
  | none =>
      have differ : ∀ c ∈ nodes, ¬ comparable c.2 = true := List.find?_eq_none.mp found
      have absent : (nodes.any fun c => comparable c.2) = false := List.any_eq_false.mpr differ
      rw [List.eraseP_of_forall_not differ, absent]
      have loop : ListApi.removeItem list (fun x => some (comparable x)) = some (false, list) :=
        removeItemLoop_none sound.rep.chain sound.rep.length_le fun c hc => by
          simpa using differ c hc
      exact ⟨list, loop, rfl, sound, by simp, fun _ => rfl⟩
  | some b =>
      obtain ⟨selected, before, after, rfl, differ⟩ := List.find?_eq_some_iff_append.mp found
      rcases List.eq_nil_or_concat' before with rfl | ⟨before, a, rfl⟩
      · rw [keeps b rfl] at selected
        cases selected
      · have erased : (before ++ [a] ++ b :: after).eraseP (fun c => comparable c.2) =
            before ++ a :: after := by
          calc (before ++ [a] ++ b :: after).eraseP (fun c => comparable c.2)
              = before ++ [a] ++ (b :: after).eraseP (fun c => comparable c.2) :=
                List.eraseP_append_right _ fun c hc => by simpa using differ c hc
            _ = before ++ [a] ++ after := congrArg (before ++ [a] ++ ·)
                (List.eraseP_cons_of_pos (p := fun c : Nat × α => comparable c.2) selected)
            _ = before ++ a :: after := (List.append_cons before a after).symm
        have present : ((before ++ [a] ++ b :: after).any fun c => comparable c.2) = true :=
          List.any_eq_true.mpr ⟨b, by simp, selected⟩
        have rep : Rep list (before ++ (a.1, a.2) :: (b.1, b.2) :: after) := by
          simpa using sound.rep
        obtain ⟨list', unlinked, rep', current, brk⟩ := unlink_eq rep
        have loop : ListApi.removeItem list (fun x => some (comparable x)) =
            (list.unlink b.1).map fun list => (true, list) :=
          removeItemLoop_first sound.rep.chain sound.rep.length_le
            (fun c hc => by simpa using differ c hc) (by simpa using selected)
        rw [unlinked] at loop
        rw [erased, present]
        refine ⟨list', loop, brk, ⟨rep', fun p hp => ?_⟩, ?_, fun none => ?_⟩
        · have same : a.1 = p := Option.some.inj (current.symm.trans hp)
          exact ⟨a, by simp, same⟩
        · rintro c ⟨⟩
          exact unlink_freed unlinked
        · rw [none b (by simp)] at selected
          cases selected

/-! #### Calls that take out the first node -/

theorem unlink_root {p : Nat} (h : list.unlink p = some list') : list'.root = list.root := by
  simp only [unlink, Option.bind_eq_bind, Option.bind_eq_some_iff, Option.some.injEq] at h
  obtain ⟨_, -, _, -, _, -, _, -, _, -, rfl⟩ := h
  rfl

theorem removeItem_root {comparable : α → Option Bool} {b : Bool}
    (h : ListApi.removeItem list comparable = some (b, list')) : list'.root = list.root := by
  suffices ∀ fuel first, list.removeItemLoop comparable fuel first = some (b, list') →
      list'.root = list.root from this _ _ h
  intro fuel
  induction fuel with
  | zero =>
      intro first h
      cases first with
      | none =>
          cases h
          rfl
      | some p => cases h
  | succ fuel ih =>
      intro first h
      cases first with
      | none =>
          cases h
          rfl
      | some p =>
          obtain ⟨node, -, h⟩ := Option.bind_eq_some_iff.mp h
          split at h
          · cases h
          · obtain ⟨list₁, unlinked, eq⟩ := Option.map_eq_some_iff.mp h
            cases eq
            exact unlink_root unlinked
          · exact ih _ h

theorem remove_root {position : Nat} {found : Option Nat}
    (h : list.remove position = some (found, list')) : list'.root = list.root := by
  simp only [HeapList.remove, Option.bind_eq_bind] at h
  obtain ⟨⟨stop, count⟩, -, h⟩ := Option.bind_eq_some_iff.mp h
  split at h
  · cases h
    rfl
  · split at h
    · cases h
      rfl
    · simp only [Option.bind_eq_some_iff, Option.some.injEq, Prod.mk.injEq] at h
      obtain ⟨_, -, _, -, _, -, _, -, _, -, -, rfl⟩ := h
      rfl

/-- The list still starts at its old first node. -/
theorem not_linked_tail {a : Nat × α} (sound : Sound list (a :: nodes)) (root : list'.root = list.root) :
    ¬ Linked list' nodes := by
  intro linked
  have first : list'.root = some a.1 := root.trans sound.rep.chain.1
  cases nodes with
  | nil =>
      rw [linked.root.mpr rfl] at first
      cases first
  | cons b nodes =>
      have same : b.1 = a.1 := Option.some.inj (linked.path.1.symm.trans first)
      have distinct := sound.rep.distinct
      simp only [List.map_cons, List.nodup_cons, List.mem_cons, not_or] at distinct
      exact distinct.1.1 same.symm

end HeapList

/-! ### Sequences of calls -/

variable {list list' : HeapList α} {nodes : List (Nat × α)}

/-- A call that leaves the first node alone does what it is for. -/
theorem call_sound {c : Call α} (sound : list.Sound nodes) (keeps : c.KeepsFirst nodes) :
    ∃ list', c.run list = some list' ∧ list'.brk = c.brk list.brk nodes ∧
      list'.Sound (c.apply list.brk nodes) := by
  cases c with
  | append data => exact sound.append data
  | insert data position =>
      have outside : nodes.length < position := keeps
      refine ⟨list, ?_, ?_, ?_⟩
      · simp [Call.run, HeapList.insert_outside sound outside]
      · simp [Call.brk, Nat.not_le_of_lt outside]
      · rw [Call.apply, List.insertIdx_of_length_lt outside]
        exact sound
  | remove position =>
      obtain ⟨list', removed, brk, sound', -⟩ := sound.remove keeps
      exact ⟨list', by simp [Call.run, removed], brk, sound'⟩
  | removeItem comparable =>
      obtain ⟨list', removed, brk, sound', -⟩ := sound.removeItem keeps
      exact ⟨list', by simp [Call.run, removed], brk, sound'⟩

/-- A call that does not leave the first node alone is undefined behaviour, or the list
still starts at it. -/
theorem call_unlinked {c : Call α} (sound : list.Sound nodes) (takes : ¬ c.KeepsFirst nodes)
    (h : c.run list = some list') : ¬ Linked list' (c.apply list.brk nodes) := by
  cases c with
  | append data => exact absurd trivial takes
  | insert data position =>
      have inside : position ≤ nodes.length := Nat.le_of_not_lt takes
      simp [Call.run, HeapList.insert_inside sound inside] at h
  | remove position =>
      obtain ⟨rfl, nonempty⟩ := Classical.not_imp.mp takes
      obtain ⟨⟨found, list''⟩, removed, rfl⟩ := Option.map_eq_some_iff.mp h
      cases nodes with
      | nil => exact absurd rfl nonempty
      | cons a nodes => exact HeapList.not_linked_tail sound (HeapList.remove_root removed)
  | removeItem comparable =>
      obtain ⟨⟨b, list''⟩, removed, rfl⟩ := Option.map_eq_some_iff.mp h
      cases nodes with
      | nil => exact absurd (by simp [Call.KeepsFirst]) takes
      | cons a nodes =>
          have selected : comparable a.2 = true := by simpa [Call.KeepsFirst] using takes
          have erased : (a :: nodes).eraseP (fun c => comparable c.2) = nodes :=
            List.eraseP_cons_of_pos (p := fun c : Nat × α => comparable c.2) selected
          rw [Call.apply, erased]
          exact HeapList.not_linked_tail sound (HeapList.removeItem_root removed)

theorem intact_iff {calls : List (Call α)} (sound : list.Sound nodes) :
    Intact calls list nodes ↔ KeepFirst calls list.brk nodes := by
  induction calls generalizing list nodes with
  | nil => exact ⟨fun _ => trivial, fun _ => sound.linked⟩
  | cons c calls ih =>
      constructor
      · rintro ⟨-, list', called, later⟩
        have linked : Linked list' (c.apply list.brk nodes) := by
          cases calls with
          | nil => exact later
          | cons => exact later.1
        have keeps : c.KeepsFirst nodes := by
          by_contra takes
          exact call_unlinked sound takes called linked
        obtain ⟨list'', called', brk, sound'⟩ := call_sound sound keeps
        rw [called] at called'
        cases called'
        exact ⟨keeps, brk ▸ (ih sound').mp later⟩
      · rintro ⟨keeps, later⟩
        obtain ⟨list', called, brk, sound'⟩ := call_sound sound keeps
        exact ⟨sound.linked, list', called, (ih sound').mpr (brk ▸ later)⟩

/-- A new list stays doubly linked through a sequence of calls exactly when each of them
leaves the first node alone. -/
theorem linked_iff (calls : List (Call α)) : Intact calls HeapList.new [] ↔ KeepFirst calls 0 [] := by
  have sound : (HeapList.new : HeapList α).Sound [] := by
    refine ⟨HeapList.rep_new, fun p hp => ?_⟩
    cases hp
  exact intact_iff sound

/-- The first `list_insert` into a new list dereferences a null pointer. -/
theorem insert_undefined : ¬ ∀ (calls : List (Call Nat)),
    ∃ list nodes, calls.foldlM Call.run HeapList.new = some list ∧ Linked list nodes := by
  intro all
  obtain ⟨list, nodes, called, -⟩ := all [.insert 7 0]
  cases called

end

end Dserve
