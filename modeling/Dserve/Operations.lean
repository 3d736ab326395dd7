import Dserve.Links

/-!
What each function of `list.c` does to a well-formed list.

`Sound list nodes` is the well-formed list with the given nodes. `list_append` puts the new
node at its end (`append_appends`). `list_remove` and `list_remove_item` take out the node
they are asked for, as long as it is not the first (`remove_removes_iff`,
`removeItem_removes_iff`), and `list_insert` only does what it is for when the list has no such
position (`insert_inserts_iff`). `list_count` is an `unsigned int` that goes back to zero.
-/

namespace Dserve

open Chain

namespace HeapList

variable {α : Type}

/-- `list_append`, with the node it returns. -/
def appendNode (list : HeapList α) (malloc : Bool) (data : α) :
    Option (Option Nat × HeapList α) := do
  let last ← goToEnd list.nodes list.brk list.root
  if malloc then
    let p := list.brk
    let h := Function.update list.nodes p (some ⟨none, none, data⟩)
    match last with
    | none => some (some p, { nodes := h, brk := p + 1, root := some p, current := some p })
    | some _ => do
        let h ← setNext h last (some p)
        let h ← setPrevious h (some p) last
        some (some p, { list with nodes := h, brk := p + 1 })
  else none

/-- The loop of `list_count`. -/
def countLoop (h : CellHeap Nat α) : Nat → Option Nat → UInt32 → Option UInt32
  | _, none, count => some count
  | 0, some _, _ => none
  | fuel + 1, some p, count => do
      let node ← h p
      countLoop h fuel node.next (count + 1)

/-- `list_count` -/
def count (list : HeapList α) : Option UInt32 := countLoop list.nodes list.brk list.root 0

/-- What is reached from the fields of the list, through `next` and `previous`. -/
inductive Reached (list : HeapList α) : Nat → Prop where
  | root {p : Nat} : list.root = some p → Reached list p
  | current {p : Nat} : list.current = some p → Reached list p
  | next {p q : Nat} {c : Cell Nat α} : Reached list p → list.nodes p = some c →
      c.next = some q → Reached list q
  | previous {p q : Nat} {c : Cell Nat α} : Reached list p → list.nodes p = some c →
      c.previous = some q → Reached list q

/-! ### What the functions are for -/

/-- `list_append` returns the new node, which is the last one of the list after it. -/
structure Appends (list : HeapList α) (nodes : List (Nat × α)) (data : α) (list' : HeapList α) :
    Prop where
  returned : list.appendNode true data = some (some list.brk, list')
  sound : list'.Sound (nodes ++ [(list.brk, data)])
  elsewhere : ∀ p, p ≠ list.brk → (∀ c ∈ nodes, c.1 ≠ p) → list'.nodes p = list.nodes p

/-- `list_insert` returns the new node, which is at the position after it; it returns `NULL`
and changes nothing if the list is too short. -/
def Inserts (list : HeapList α) (nodes : List (Nat × α)) (data : α) (position : Nat) : Prop :=
  ∃ found list', list.insert true data position = some (found, list') ∧
    if position ≤ nodes.length then
      found = some list.brk ∧ list'.Sound (nodes.insertIdx position (list.brk, data))
    else found = none ∧ list' = list

/-- `list_remove` returns the node at the position, detached, and the list goes on without
it; it returns `NULL` and changes nothing if the list is too short. -/
def Removes (list : HeapList α) (nodes : List (Nat × α)) (position : Nat) : Prop :=
  ∃ found list', list.remove position = some (found, list') ∧
    match nodes[position]? with
    | some c => found = some c.1 ∧ list'.nodes c.1 = some ⟨none, none, c.2⟩ ∧
        list'.Sound (nodes.eraseIdx position)
    | none => found = none ∧ list' = list

/-- `list_remove_item` frees the first node that satisfies the predicate, and the list goes on
without it; it returns `false` and changes nothing if there is none. -/
def RemovesItem (list : HeapList α) (nodes : List (Nat × α)) (comparable : α → Bool) : Prop :=
  ∃ ret list', ListApi.removeItem list (fun x => some (comparable x)) = some (ret, list') ∧
    (ret = true ↔ ∃ c ∈ nodes, comparable c.2 = true) ∧
    match nodes.find? fun c => comparable c.2 with
    | some c => list'.Sound (nodes.eraseP fun c => comparable c.2) ∧ list'.nodes c.1 = none ∧
        ¬ Reached list' c.1
    | none => list' = list

section

variable {list list' : HeapList α} {nodes : List (Nat × α)}

/-! ### What is reached -/

theorem seg_neighbours {h : CellHeap Nat α} {prev first : Option Nat}
    (seg : Seg h prev first nodes none) {a : Nat × α} (ha : a ∈ nodes) {c : Cell Nat α}
    (cell : h a.1 = some c) :
    (∀ q, c.next = some q → ∃ b ∈ nodes, b.1 = q) ∧
      ∀ q, c.previous = some q → prev = some q ∨ ∃ b ∈ nodes, b.1 = q := by
  induction nodes generalizing prev first with
  | nil => cases ha
  | cons d nodes ih =>
      obtain ⟨p, x⟩ := d
      obtain ⟨rfl, n, here, rest⟩ := seg
      rcases List.mem_cons.mp ha with rfl | later
      · rw [here] at cell
        cases cell
        constructor
        · intro q next
          replace next : n = some q := next
          subst next
          cases nodes with
          | nil => cases rest
          | cons b nodes => exact ⟨b, by simp, (Option.some.inj rest.1).symm⟩
        · exact fun q previous => Or.inl previous
      · obtain ⟨next, previous⟩ := ih rest later
        constructor
        · intro q hq
          obtain ⟨b, hb, same⟩ := next q hq
          exact ⟨b, List.mem_cons_of_mem _ hb, same⟩
        · intro q hq
          rcases previous q hq with same | ⟨b, hb, same⟩
          · cases same
            exact Or.inr ⟨(p, x), List.mem_cons_self, rfl⟩
          · exact Or.inr ⟨b, List.mem_cons_of_mem _ hb, same⟩

/-- Only the nodes of a well-formed list are reached. -/
theorem Sound.reached (sound : list.Sound nodes) {p : Nat} (reached : Reached list p) :
    ∃ a ∈ nodes, a.1 = p := by
  induction reached with
  | root root =>
      cases nodes with
      | nil =>
          have empty : list.root = none := sound.rep.chain
          rw [empty] at root
          cases root
      | cons a nodes =>
          have first := sound.rep.chain.1
          rw [root] at first
          cases first
          exact ⟨a, List.mem_cons_self, rfl⟩
  | current current => exact sound.current _ current
  | next _ cell link ih =>
      obtain ⟨a, ha, rfl⟩ := ih
      exact (seg_neighbours sound.rep.chain ha cell).1 _ link
  | previous _ cell link ih =>
      obtain ⟨a, ha, rfl⟩ := ih
      rcases (seg_neighbours sound.rep.chain ha cell).2 _ link with missing | there
      · cases missing
      · exact there

theorem Sound.not_reached (sound : list.Sound nodes) {p : Nat} (away : ∀ a ∈ nodes, a.1 ≠ p) :
    ¬ Reached list p := by
  intro reached
  obtain ⟨a, ha, same⟩ := sound.reached reached
  exact away a ha same

/-! ### `list_append` -/

/-- `list_append` does what `append` does, and returns the new node. -/
theorem appendNode_eq (list : HeapList α) (malloc : Bool) (data : α) :
    list.appendNode malloc data =
      (ListApi.append list malloc data).map fun list' => (some list.brk, list') := by
  show list.appendNode malloc data = (list.append malloc data).map _
  simp only [appendNode, append, Option.bind_eq_bind]
  cases goToEnd list.nodes list.brk list.root with
  | none => rfl
  | some last =>
      cases malloc with
      | false => rfl
      | true =>
          cases last with
          | none => rfl
          | some a =>
              simp only [Option.bind_some, if_true, Option.map_bind]
              apply Option.bind_congr
              intro h _
              rw [Function.comp_apply]
              cases setPrevious h (some list.brk) (some a) <;> rfl

/-- Linking two nodes writes no other. -/
theorem setNext_elsewhere {h h' : CellHeap Nat α} {a q : Nat}
    (linked : setNext h (some a) (some q) = some h') {p : Nat} (pa : p ≠ a) (pq : p ≠ q) :
    h' p = h p := by
  simp only [setNext, Option.bind_eq_bind, Option.bind_eq_some_iff, Option.some.injEq] at linked
  obtain ⟨c, -, d, -, rfl⟩ := linked
  rw [Function.update_of_ne pq, Function.update_of_ne pa]

theorem setPrevious_elsewhere {h h' : CellHeap Nat α} {a q : Nat}
    (linked : setPrevious h (some a) (some q) = some h') {p : Nat} (pa : p ≠ a) (pq : p ≠ q) :
    h' p = h p := by
  simp only [setPrevious, Option.bind_eq_bind, Option.bind_eq_some_iff, Option.some.injEq] at linked
  obtain ⟨c, -, d, -, rfl⟩ := linked
  rw [Function.update_of_ne pq, Function.update_of_ne pa]

/-- Only the last node of the list and the new one are written. -/
theorem append_elsewhere (sound : list.Sound nodes) {data : α}
    (h : ListApi.append list true data = some list') {p : Nat} (fresh : p ≠ list.brk)
    (away : ∀ c ∈ nodes, c.1 ≠ p) : list'.nodes p = list.nodes p := by
  have h : list.append true data = some list' := h
  simp only [append, goToEnd_eq sound.rep.chain sound.rep.length_le, Option.bind_eq_bind,
    Option.bind_some, if_true] at h
  cases last : nodes.getLast? with
  | none =>
      rw [last] at h
      cases h
      exact Function.update_of_ne fresh _ _
  | some a =>
      rw [last] at h
      obtain ⟨h₁, next, h⟩ := Option.bind_eq_some_iff.mp h
      obtain ⟨h₂, previous, h⟩ := Option.bind_eq_some_iff.mp h
      cases h
      have pa : p ≠ a.1 := fun same => away a (List.mem_of_getLast? last) same.symm
      calc h₂ p = h₁ p := setPrevious_elsewhere previous fresh pa
        _ = Function.update list.nodes list.brk (some ⟨none, none, data⟩) p :=
          setNext_elsewhere next pa fresh
        _ = list.nodes p := Function.update_of_ne fresh _ _

theorem countLoop_eq {h : CellHeap Nat α} {prev first : Option Nat} {fuel : Nat} {count : UInt32}
    (seg : Seg h prev first nodes none) (enough : nodes.length ≤ fuel) :
    countLoop h fuel first count = some (count + UInt32.ofNat nodes.length) := by
  induction nodes generalizing prev first fuel count with
  | nil =>
      cases seg
      simp [countLoop]
  | cons c nodes ih =>
      obtain ⟨p, x⟩ := c
      obtain ⟨rfl, n, cell, rest⟩ := seg
      obtain ⟨fuel, rfl⟩ : ∃ k, fuel = k + 1 := ⟨fuel - 1, by simp at enough; omega⟩
      simp only [countLoop, cell, Option.bind_eq_bind, Option.bind_some]
      rw [ih rest (by simpa using enough), List.length_cons, UInt32.ofNat_add,
        UInt32.add_assoc, UInt32.add_comm 1]
      rfl

theorem Sound.count (sound : list.Sound nodes) : list.count = some (UInt32.ofNat nodes.length) := by
  rw [HeapList.count, countLoop_eq sound.rep.chain sound.rep.length_le, UInt32.zero_add]

theorem Sound.appends (sound : list.Sound nodes) (data : α) : ∃ list', Appends list nodes data list' := by
  obtain ⟨list', appended, -, sound'⟩ := sound.append data
  have appends : list.appendNode true data = some (some list.brk, list') := by
    rw [appendNode_eq, appended]
    rfl
  exact ⟨list', appends, sound', fun p fresh away => append_elsewhere sound appended fresh away⟩

/-- There are lists of any length. -/
theorem exists_sound (data : α) (n : Nat) :
    ∃ (list : HeapList α) (nodes : List (Nat × α)), list.Sound nodes ∧ nodes.length = n := by
  induction n with
  | zero => exact ⟨new, [], ⟨rep_new, by simp [new]⟩, rfl⟩
  | succ n ih =>
      obtain ⟨list, nodes, sound, rfl⟩ := ih
      obtain ⟨list', -, -, sound'⟩ := sound.append data
      exact ⟨list', _, sound', by simp⟩

/-! ### Removals -/

/-- A list whose root was not moved does not start at its second node. -/
theorem not_sound_tail {a : Nat × α} (sound : list.Sound (a :: nodes)) (root : list'.root = list.root) :
    ¬ list'.Sound nodes := fun sound' => not_linked_tail sound root sound'.linked

end

end HeapList

section

variable {α : Type} {list : HeapList α} {nodes : List (Nat × α)}

/-- `list_append` puts a new node at the end of a well-formed list, and `list_count` grows by
one, modulo `2 ^ 32`. -/
theorem append_appends (sound : list.Sound nodes) (data : α) :
    ∃ list', list.Appends nodes data list' ∧
      ∃ n n', list.count = some n ∧ list'.count = some n' ∧ n' = n + 1 ∧
        (nodes.length + 1 < UInt32.size → n'.toNat = n.toNat + 1) := by
  obtain ⟨list', appends⟩ := sound.appends data
  have longer : UInt32.ofNat (nodes ++ [(list.brk, data)]).length = UInt32.ofNat nodes.length + 1 := by
    rw [List.length_append, List.length_singleton, UInt32.ofNat_add]
    rfl
  have counted : nodes.length + 1 < UInt32.size →
      (UInt32.ofNat (nodes ++ [(list.brk, data)]).length).toNat = (UInt32.ofNat nodes.length).toNat + 1 := by
    intro fits
    have size : UInt32.size = 4294967296 := rfl
    rw [List.length_append, List.length_singleton, UInt32.toNat_ofNat_of_lt' (by omega),
      UInt32.toNat_ofNat_of_lt' (by omega)]
  exact ⟨list', appends, _, _, sound.count, appends.sound.count, longer, counted⟩

/-- The nodes of a list of two. -/
def pairNodes : List (Nat × Nat) := [(0, 7), (1, 8)]

/-- A list of two nodes. -/
def pairList : HeapList Nat where
  nodes p := if p = 0 then some ⟨some 1, none, 7⟩ else if p = 1 then some ⟨none, some 0, 8⟩ else none
  brk := 2
  root := some 0
  current := some 0

theorem pairList_sound : pairList.Sound pairNodes := by
  constructor
  · exact ⟨⟨rfl, some 1, rfl, rfl, none, rfl, rfl⟩, by decide, by decide⟩
  · intro p hp
    cases hp
    exact ⟨(0, 7), by simp [pairNodes], rfl⟩

theorem append_appends_pair : ∃ list', pairList.Appends pairNodes 9 list' ∧
    ∃ n n', pairList.count = some n ∧ list'.count = some n' ∧ n' = n + 1 ∧
      (pairNodes.length + 1 < UInt32.size → n'.toNat = n.toNat + 1) :=
  append_appends pairList_sound 9

/-- On a list of `2 ^ 32 - 1` nodes, `list_count` goes back to zero. -/
theorem count_wraps : ¬ ∀ (list : HeapList Nat) (nodes : List (Nat × Nat)) (data : Nat),
    list.Sound nodes → ∃ list', list.Appends nodes data list' ∧
      ∃ n n', list.count = some n ∧ list'.count = some n' ∧ n'.toNat = n.toNat + 1 := by
  intro all
  obtain ⟨list, nodes, sound, long⟩ := HeapList.exists_sound 0 (4294967295)
  obtain ⟨list', appends, n, n', count, count', grows⟩ := all list nodes 0 sound
  have zero : n' = 0 := by
    have counted := appends.sound.count
    rw [count', List.length_append, long, List.length_singleton] at counted
    have wraps : UInt32.ofNat (4294967295 + 1) = 0 := by decide
    exact Option.some.inj (counted.trans (congrArg some wraps))
  rw [zero] at grows
  exact absurd grows (Nat.succ_ne_zero _).symm

/-- `list_insert` does what it is for exactly when the list is shorter than the position:
at any other it dereferences `NULL`. -/
theorem insert_inserts_iff (sound : list.Sound nodes) (data : α) (position : Nat) :
    list.Inserts nodes data position ↔ nodes.length < position := by
  constructor
  · rintro ⟨found, list', inserted, -⟩
    by_contra inside
    rw [HeapList.insert_inside sound (Nat.le_of_not_lt inside)] at inserted
    cases inserted
  · intro outside
    refine ⟨none, list, HeapList.insert_outside sound outside, ?_⟩
    rw [if_neg (Nat.not_le_of_lt outside)]
    exact ⟨rfl, rfl⟩

theorem insert_inserts_pair : pairList.Inserts pairNodes 9 3 ↔ pairNodes.length < 3 :=
  insert_inserts_iff pairList_sound 9 3

/-- Insertion in front of the first node. -/
theorem insert_front_undefined : ¬ ∀ (list : HeapList Nat) (nodes : List (Nat × Nat)) (data position : Nat),
    list.Sound nodes → list.Inserts nodes data position := by
  intro all
  obtain ⟨found, list', inserted, -⟩ := all pairList pairNodes 9 0 pairList_sound
  have undefined : pairList.insert true 9 0 = none := by decide
  rw [undefined] at inserted
  cases inserted

/-- `list_remove` does what it is for exactly when the position is not that of a first node. -/
theorem remove_removes_iff (sound : list.Sound nodes) (position : Nat) :
    list.Removes nodes position ↔ (position = 0 → nodes = []) := by
  constructor
  · rintro ⟨found, list', removed, holds⟩ rfl
    cases nodes with
    | nil => rfl
    | cons a nodes =>
        obtain ⟨-, -, sound'⟩ := holds
        exact absurd sound' (HeapList.not_sound_tail sound (HeapList.remove_root removed))
  · intro keeps
    obtain ⟨list', removed, -, sound', detached, unchanged⟩ := sound.remove keeps
    refine ⟨_, list', removed, ?_⟩
    cases here : nodes[position]? with
    | none => exact ⟨rfl, unchanged (List.getElem?_eq_none_iff.mp here)⟩
    | some c => exact ⟨rfl, detached c here, sound'⟩

theorem remove_removes_pair : pairList.Removes pairNodes 1 ↔ (1 = 0 → pairNodes = []) :=
  remove_removes_iff pairList_sound 1

/-- The first node is given to the caller, and the list still starts at it. -/
theorem remove_keeps_root : ¬ ∀ (list : HeapList Nat) (nodes : List (Nat × Nat)) (position : Nat),
    list.Sound nodes → list.Removes nodes position := by
  intro all
  obtain ⟨found, list', removed, -, -, sound'⟩ := all pairList pairNodes 0 pairList_sound
  exact HeapList.not_sound_tail pairList_sound (HeapList.remove_root removed) sound'

/-- `list_remove_item` does what it is for exactly when the first node does not satisfy the
predicate. -/
theorem removeItem_removes_iff (sound : list.Sound nodes) (comparable : α → Bool) :
    list.RemovesItem nodes comparable ↔ ∀ c ∈ nodes.head?, comparable c.2 = false := by
  constructor
  · rintro ⟨ret, list', removed, -, holds⟩ a first
    obtain ⟨nodes, rfl⟩ : ∃ tail, nodes = a :: tail := by
      cases nodes with
      | nil => cases first
      | cons b nodes =>
          cases first
          exact ⟨nodes, rfl⟩
    by_contra selected
    have selected : comparable a.2 = true := by simpa using selected
    have found : (a :: nodes).find? (fun c => comparable c.2) = some a := by simp [selected]
    have erased : (a :: nodes).eraseP (fun c => comparable c.2) = nodes := by simp [selected]
    rw [found, erased] at holds
    exact HeapList.not_sound_tail sound (HeapList.removeItem_root removed) holds.1
  · intro keeps
    obtain ⟨list', removed, -, sound', freed, unchanged⟩ := sound.removeItem keeps
    refine ⟨_, list', removed, by simp, ?_⟩
    cases found : nodes.find? fun c => comparable c.2 with
    | none => exact unchanged fun c hc => by simpa using List.find?_eq_none.mp found c hc
    | some c =>
        obtain ⟨selected, before, after, rfl, differ⟩ := List.find?_eq_some_iff_append.mp found
        refine ⟨sound', freed c found, sound'.not_reached fun a ha => ?_⟩
        have away := HeapList.away_of_distinct sound.rep.distinct
        rw [List.eraseP_append_right _ fun d hd => by simpa using differ d hd] at ha
        have erased : (c :: after).eraseP (fun c => comparable c.2) = after := by simp [selected]
        rw [erased] at ha
        exact away a ha

theorem removeItem_removes_pair : pairList.RemovesItem pairNodes (· = 8) ↔
    ∀ c ∈ pairNodes.head?, decide (c.2 = 8) = false :=
  removeItem_removes_iff pairList_sound (· = 8)

/-- The first node is freed, and the list still starts at it. -/
theorem removeItem_keeps_root : ¬ ∀ (list : HeapList Nat) (nodes : List (Nat × Nat))
    (comparable : Nat → Bool), list.Sound nodes → list.RemovesItem nodes comparable := by
  intro all
  obtain ⟨ret, list', removed, -, sound', -⟩ := all pairList pairNodes (· = 7) pairList_sound
  exact HeapList.not_sound_tail pairList_sound (HeapList.removeItem_root removed) sound'

end

end Dserve
