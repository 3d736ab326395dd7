import Dserve.Lib.Chain
import Mathlib.Data.List.Nodup
import Mathlib.Data.List.Perm.Subperm

/-!
`list.c` and `node.c`.

The queue and the download manager only use `list_new`, `list_append`,
`list_remove_item` and three traversals; `ListApi` is that interface. It has two
implementations:

* `HeapList` is the code: nodes in a heap, linked through `set_next` and
  `set_previous`, every loop following `next` from `root`;
* `List` is what the lists are for: the abstract sequence of their data.

A result `none` is undefined behaviour: a node that is not allocated was
dereferenced, a comparison met a datum it cannot read, or a loop does not end. A
loop over a heap list runs on fuel, as many steps as nodes were ever allocated;
no chain of distinct nodes is longer.

`HeapList.Rep` relates the two: the heap holds a doubly linked chain with the
given nodes. Traversals and `list_append` refine the abstract sequence on every
such list. `list_remove_item` refines it when the node it removes is not the
first; it never assigns `root`, so after removing the first node the list starts
at a freed one (`Rep.removeItem_found`). `LawfulListApi` is what both
implementations have in common.
-/

namespace Dserve

/-- The part of `list.h` the server uses. -/
class ListApi (L : Type → Type) where
  new {α : Type} : L α
  append {α : Type} (list : L α) (malloc : Bool) (data : α) : Option (L α)
  removeItem {α : Type} (list : L α) (comparable : α → Option Bool) : Option (Bool × L α)
  forEachCompare {α σ : Type} (list : L α) (uniqueness : Bool)
    (comparable : α → σ → Option (Bool × σ)) (result : σ) : Option σ
  forEach {α σ : Type} (list : L α) (handle : α → σ → Option σ) (data : σ) : Option σ
  getItem {α : Type} (list : L α) (comparable : α → Option Bool) : Option (Option α)

/-- The data a traversal passes to its handle, from the root to the end. -/
def ListApi.items {L : Type → Type} [ListApi L] {α : Type} (list : L α) : Option (List α) :=
  ListApi.forEach list (fun x seen => some (seen ++ [x])) []

/-! ### Abstract sequences -/

namespace Sequence

variable {α σ : Type}

def removeItem (comparable : α → Option Bool) : List α → Option (Bool × List α)
  | [] => some (false, [])
  | x :: xs =>
      match comparable x with
      | none => none
      | some true => some (true, xs)
      | some false => (removeItem comparable xs).map fun r => (r.1, x :: r.2)

def forEachCompare (uniqueness : Bool) (comparable : α → σ → Option (Bool × σ)) :
    List α → σ → Option σ
  | [], result => some result
  | x :: xs, result =>
      match comparable x result with
      | none => none
      | some (ret, result) =>
          if ret = true ∧ uniqueness = true then some result
          else forEachCompare uniqueness comparable xs result

def forEach (handle : α → σ → Option σ) : List α → σ → Option σ
  | [], data => some data
  | x :: xs, data => (handle x data).bind (forEach handle xs)

def getItem (comparable : α → Option Bool) : List α → Option (Option α)
  | [] => some none
  | x :: xs =>
      match comparable x with
      | none => none
      | some true => some (some x)
      | some false => getItem comparable xs

end Sequence

instance : ListApi List where
  new := []
  append list malloc data := if malloc then some (list ++ [data]) else none
  removeItem list comparable := Sequence.removeItem comparable list
  forEachCompare list uniqueness comparable result :=
    Sequence.forEachCompare uniqueness comparable list result
  forEach list handle data := Sequence.forEach handle list data
  getItem list comparable := Sequence.getItem comparable list

/-! ### The heap lists of `list.c` -/

/-- `list_t`, with the nodes it owns. `brk` is the next address `malloc` returns;
a freed address is not handed out again, so that a use after free is seen. -/
structure HeapList (α : Type) where
  nodes : CellHeap Nat α
  brk : Nat
  root : Option Nat
  current : Option Nat

section Heap

variable {α σ : Type}

/-- `set_previous` -/
def setPrevious (h : CellHeap Nat α) (node previous : Option Nat) : Option (CellHeap Nat α) :=
  match node with
  | none => some h
  | some p => do
      let c ← h p
      let h := Function.update h p (some { c with previous := previous })
      match previous with
      | none => some h
      | some q => do
          let d ← h q
          some (Function.update h q (some { d with next := node }))

/-- `set_next` -/
def setNext (h : CellHeap Nat α) (node next : Option Nat) : Option (CellHeap Nat α) :=
  match node with
  | none => some h
  | some p => do
      let c ← h p
      let h := Function.update h p (some { c with next := next })
      match next with
      | none => some h
      | some q => do
          let d ← h q
          some (Function.update h q (some { d with previous := node }))

namespace HeapList

/-- `list_new` -/
def new : HeapList α := ⟨fun _ => none, 0, none, none⟩

/-- The loop of `go_to_end`. -/
def goToEnd (h : CellHeap Nat α) : Nat → Option Nat → Option (Option Nat)
  | _, none => some none
  | 0, some _ => none
  | fuel + 1, some p => do
      let node ← h p
      match node.next with
      | none => some (some p)
      | some q => goToEnd h fuel (some q)

/-- `list_append`. `new_node` dereferences the result of a failed `malloc`. -/
def append (list : HeapList α) (malloc : Bool) (data : α) : Option (HeapList α) := do
  let last ← goToEnd list.nodes list.brk list.root
  if malloc then
    let p := list.brk
    let h := Function.update list.nodes p (some ⟨none, none, data⟩)
    match last with
    | none => some { nodes := h, brk := p + 1, root := some p, current := some p }
    | some _ => do
        let h ← setNext h last (some p)
        let h ← setPrevious h (some p) last
        some { list with nodes := h, brk := p + 1 }
  else none

/-- The body of `list_remove_item` for the node it removes. -/
def unlink (list : HeapList α) (p : Nat) : Option (HeapList α) := do
  let node ← list.nodes p
  let h ← setNext list.nodes node.previous node.next
  let node ← h p
  let h ← setPrevious h node.next node.previous
  let node ← h p
  -- `root` is not assigned, whether or not `p` was the first node
  some { list with nodes := Function.update h p none, current := node.previous }

/-- The loop of `list_remove_item`. -/
def removeItemLoop (list : HeapList α) (comparable : α → Option Bool) :
    Nat → Option Nat → Option (Bool × HeapList α)
  | _, none => some (false, list)
  | 0, some _ => none
  | fuel + 1, some p => do
      let node ← list.nodes p
      match comparable node.data with
      | none => none
      | some true => (list.unlink p).map fun list => (true, list)
      | some false => removeItemLoop list comparable fuel node.next

/-- The loop of `list_for_each_compare`. -/
def forEachCompareLoop (h : CellHeap Nat α) (uniqueness : Bool)
    (comparable : α → σ → Option (Bool × σ)) : Nat → Option Nat → σ → Option σ
  | _, none, result => some result
  | 0, some _, _ => none
  | fuel + 1, some p, result => do
      let node ← h p
      match comparable node.data result with
      | none => none
      | some (ret, result) =>
          if ret = true ∧ uniqueness = true then some result
          else forEachCompareLoop h uniqueness comparable fuel node.next result

/-- The loop of `list_for_each`. -/
def forEachLoop (h : CellHeap Nat α) (handle : α → σ → Option σ) : Nat → Option Nat → σ → Option σ
  | _, none, data => some data
  | 0, some _, _ => none
  | fuel + 1, some p, data => do
      let node ← h p
      let data ← handle node.data data
      forEachLoop h handle fuel node.next data

/-- The loop of `list_get_item`. -/
def getItemLoop (h : CellHeap Nat α) (comparable : α → Option Bool) :
    Nat → Option Nat → Option (Option α)
  | _, none => some none
  | 0, some _ => none
  | fuel + 1, some p => do
      let node ← h p
      match comparable node.data with
      | none => none
      | some true => some (some node.data)
      | some false => getItemLoop h comparable fuel node.next

end HeapList

end Heap

instance : ListApi HeapList where
  new := HeapList.new
  append list malloc data := list.append malloc data
  removeItem list comparable := list.removeItemLoop comparable list.brk list.root
  forEachCompare list uniqueness comparable result :=
    HeapList.forEachCompareLoop list.nodes uniqueness comparable list.brk list.root result
  forEach list handle data := HeapList.forEachLoop list.nodes handle list.brk list.root data
  getItem list comparable := HeapList.getItemLoop list.nodes comparable list.brk list.root

/-! ### Facts about abstract sequences -/

namespace Sequence

variable {α σ : Type} {comparable : α → Option Bool}

theorem forEach_collect (xs seen : List α) :
    forEach (fun x seen => some (seen ++ [x])) xs seen = some (seen ++ xs) := by
  induction xs generalizing seen with
  | nil => simp [forEach]
  | cons x xs ih => simp [forEach, ih]

theorem forEach_append (handle : α → σ → Option σ) (xs ys : List α) (data : σ) :
    forEach handle (xs ++ ys) data = (forEach handle xs data).bind (forEach handle ys) := by
  induction xs generalizing data with
  | nil => rfl
  | cons x xs ih =>
      simp only [List.cons_append, forEach, Option.bind_assoc]
      exact congrArg _ (funext ih)

/-- An element that is found satisfies the comparison, and no element before it
does. -/
theorem getItem_eq_some {xs : List α} {x : α} (h : getItem comparable xs = some (some x)) :
    ∃ before after, xs = before ++ x :: after ∧ comparable x = some true ∧
      ∀ y ∈ before, comparable y = some false := by
  induction xs with
  | nil => simp [getItem] at h
  | cons y ys ih =>
      simp only [getItem] at h
      split at h
      · cases h
      · next hy =>
        simp only [Option.some.injEq] at h
        subst h
        exact ⟨[], ys, rfl, hy, by simp⟩
      · next hy =>
        obtain ⟨before, after, rfl, hx, hbefore⟩ := ih h
        refine ⟨y :: before, after, rfl, hx, fun z hz => ?_⟩
        rcases List.mem_cons.mp hz with rfl | hz
        · exact hy
        · exact hbefore z hz

theorem getItem_eq_none {xs : List α} (h : getItem comparable xs = some none) :
    ∀ y ∈ xs, comparable y = some false := by
  induction xs with
  | nil => simp
  | cons y ys ih =>
      simp only [getItem] at h
      split at h
      · cases h
      · cases h
      · next hy =>
        intro z hz
        rcases List.mem_cons.mp hz with rfl | hz
        · exact hy
        · exact ih h z hz

/-- `list_remove_item` takes out the element `list_get_item` finds. -/
theorem removeItem_append {before after : List α} {x : α}
    (hbefore : ∀ y ∈ before, comparable y = some false) (hx : comparable x = some true) :
    removeItem comparable (before ++ x :: after) = some (true, before ++ after) := by
  induction before with
  | nil => simp [removeItem, hx]
  | cons y ys ih =>
      simp only [List.cons_append, removeItem, hbefore y List.mem_cons_self]
      rw [ih fun z hz => hbefore z (List.mem_cons_of_mem _ hz)]
      rfl

/-- A comparison that is `false` on all elements removes nothing. -/
theorem removeItem_none {xs : List α} (h : ∀ y ∈ xs, comparable y = some false) :
    removeItem comparable xs = some (false, xs) := by
  induction xs with
  | nil => rfl
  | cons y ys ih =>
      simp only [removeItem, h y List.mem_cons_self]
      rw [ih fun z hz => h z (List.mem_cons_of_mem _ hz)]
      rfl

/-- With a comparison that can always be made, the element that is found is the
first one that satisfies it. -/
theorem getItem_total (select : α → Bool) (xs : List α) :
    getItem (fun x => some (select x)) xs = some (xs.find? select) := by
  induction xs with
  | nil => rfl
  | cons x xs ih =>
      cases hx : select x with
      | true => simp [getItem, hx]
      | false => simp [getItem, hx, ih]

theorem removeItem_total (select : α → Bool) (xs : List α) :
    removeItem (fun x => some (select x)) xs = some (xs.any select, xs.eraseP select) := by
  induction xs with
  | nil => rfl
  | cons x xs ih =>
      cases hx : select x with
      | true => simp [removeItem, hx]
      | false => simp [removeItem, hx, ih]

/-- What is left after a removal was there before, in the same order. -/
theorem removeItem_sublist {xs ys : List α} {b : Bool}
    (h : removeItem comparable xs = some (b, ys)) : ys.Sublist xs := by
  induction xs generalizing ys with
  | nil =>
      simp only [removeItem, Option.some.injEq, Prod.mk.injEq] at h
      simp [← h.2]
  | cons x xs ih =>
      simp only [removeItem] at h
      split at h
      · cases h
      · simp only [Option.some.injEq, Prod.mk.injEq] at h
        exact h.2 ▸ List.sublist_cons_self x xs
      · obtain ⟨r, hr, heq⟩ := Option.map_eq_some_iff.mp h
        cases heq
        exact (ih hr).cons_cons x

end Sequence

@[simp] theorem items_list {α : Type} (xs : List α) : ListApi.items xs = some xs := by
  have collected := Sequence.forEach_collect xs []
  rwa [List.nil_append] at collected

/-! ### Heap lists refine abstract sequences -/

namespace HeapList

open Chain

variable {α σ : Type} {list : HeapList α} {cells : List (Nat × α)} {comparable : α → Option Bool}

/-- The heap holds a doubly linked chain of `cells` from the root. -/
structure Rep (list : HeapList α) (cells : List (Nat × α)) : Prop where
  chain : Seg list.nodes none list.root cells none
  distinct : (cells.map Prod.fst).Nodup
  below : ∀ c ∈ cells, c.1 < list.brk

/-- The abstract sequence a chain stands for. -/
abbrev dataOf (cells : List (Nat × α)) : List α := cells.map Prod.snd

theorem rep_new : Rep (new : HeapList α) [] := ⟨rfl, by simp, by simp⟩

/-- A traversal, which only follows `next`, sees `cells`. -/
structure Reads (list : HeapList α) (cells : List (Nat × α)) : Prop where
  walk : Walk list.nodes list.root cells none
  distinct : (cells.map Prod.fst).Nodup
  below : ∀ c ∈ cells, c.1 < list.brk

theorem Rep.reads (rep : Rep list cells) : Reads list cells :=
  ⟨rep.chain.walk, rep.distinct, rep.below⟩

/-- The fuel of a loop covers every node of the chain. -/
theorem Reads.length_le (reads : Reads list cells) : cells.length ≤ list.brk := by
  have sub : cells.map Prod.fst ⊆ List.range list.brk := by
    intro p hp
    obtain ⟨c, hc, rfl⟩ := List.mem_map.mp hp
    exact List.mem_range.mpr (reads.below c hc)
  simpa using (List.subperm_of_subset reads.distinct sub).length_le

theorem Rep.length_le (rep : Rep list cells) : cells.length ≤ list.brk := rep.reads.length_le

theorem getItemLoop_eq {h : CellHeap Nat α} {prev first : Option Nat} {fuel : Nat}
    (seg : Seg h prev first cells none) (enough : cells.length ≤ fuel) :
    getItemLoop h comparable fuel first = Sequence.getItem comparable (dataOf cells) := by
  induction cells generalizing prev first fuel with
  | nil => cases seg; simp [getItemLoop, Sequence.getItem]
  | cons c cells ih =>
      obtain ⟨p, x⟩ := c
      obtain ⟨rfl, n, cell, rest⟩ := seg
      obtain ⟨fuel, rfl⟩ : ∃ k, fuel = k + 1 := ⟨fuel - 1, by simp at enough; omega⟩
      simp only [getItemLoop, cell, Option.bind_eq_bind, Option.bind_some, List.map_cons,
        Sequence.getItem]
      rw [ih rest (by simpa using enough)]

/-- What the handle keeps, a traversal that ends keeps, on any list. -/
theorem forEachLoop_preserves {P : σ → Prop} {h : CellHeap Nat α} {handle : α → σ → Option σ}
    (step : ∀ x data data', P data → handle x data = some data' → P data') {fuel : Nat}
    {first : Option Nat} {data data' : σ} (holds : P data)
    (done : forEachLoop h handle fuel first data = some data') : P data' := by
  induction fuel generalizing first data with
  | zero =>
      cases first with
      | none => cases done; exact holds
      | some p => cases done
  | succ fuel ih =>
      cases first with
      | none => cases done; exact holds
      | some p =>
          obtain ⟨node, -, done⟩ := Option.bind_eq_some_iff.mp done
          obtain ⟨data₁, handled, done⟩ := Option.bind_eq_some_iff.mp done
          exact ih (step node.data data data₁ holds handled) done

theorem forEachLoop_eq {h : CellHeap Nat α} {first : Option Nat} {fuel : Nat}
    {handle : α → σ → Option σ} {data : σ} (walk : Walk h first cells none)
    (enough : cells.length ≤ fuel) :
    forEachLoop h handle fuel first data = Sequence.forEach handle (dataOf cells) data := by
  induction cells generalizing first fuel data with
  | nil => cases walk; simp [forEachLoop, Sequence.forEach]
  | cons c cells ih =>
      obtain ⟨p, x⟩ := c
      obtain ⟨rfl, n, q, cell, rest⟩ := walk
      obtain ⟨fuel, rfl⟩ : ∃ k, fuel = k + 1 := ⟨fuel - 1, by simp at enough; omega⟩
      simp only [forEachLoop, cell, Option.bind_eq_bind, Option.bind_some, List.map_cons,
        Sequence.forEach]
      cases handle x data with
      | none => rfl
      | some data => exact ih rest (by simpa using enough)

theorem forEachCompareLoop_eq {h : CellHeap Nat α} {prev first : Option Nat} {fuel : Nat}
    {uniqueness : Bool} {compare : α → σ → Option (Bool × σ)} {result : σ}
    (seg : Seg h prev first cells none) (enough : cells.length ≤ fuel) :
    forEachCompareLoop h uniqueness compare fuel first result =
      Sequence.forEachCompare uniqueness compare (dataOf cells) result := by
  induction cells generalizing prev first fuel result with
  | nil => cases seg; simp [forEachCompareLoop, Sequence.forEachCompare]
  | cons c cells ih =>
      obtain ⟨p, x⟩ := c
      obtain ⟨rfl, n, cell, rest⟩ := seg
      obtain ⟨fuel, rfl⟩ : ∃ k, fuel = k + 1 := ⟨fuel - 1, by simp at enough; omega⟩
      simp only [forEachCompareLoop, cell, Option.bind_eq_bind, Option.bind_some, List.map_cons,
        Sequence.forEachCompare]
      cases compare x result with
      | none => rfl
      | some r => simp only [ih rest (show cells.length ≤ fuel by simpa using enough)]

theorem Rep.getItem (rep : Rep list cells) :
    ListApi.getItem list comparable = ListApi.getItem (dataOf cells) comparable :=
  getItemLoop_eq rep.chain rep.length_le

theorem Rep.forEach {handle : α → σ → Option σ} {data : σ} (rep : Rep list cells) :
    ListApi.forEach list handle data = ListApi.forEach (dataOf cells) handle data :=
  forEachLoop_eq rep.reads.walk rep.length_le

theorem Rep.forEachCompare {uniqueness : Bool} {compare : α → σ → Option (Bool × σ)} {result : σ}
    (rep : Rep list cells) :
    ListApi.forEachCompare list uniqueness compare result =
      ListApi.forEachCompare (dataOf cells) uniqueness compare result :=
  forEachCompareLoop_eq rep.chain rep.length_le

theorem Reads.items (reads : Reads list cells) : ListApi.items list = some (dataOf cells) := by
  refine (forEachLoop_eq reads.walk reads.length_le).trans ?_
  exact items_list (dataOf cells)

theorem Rep.items (rep : Rep list cells) : ListApi.items list = some (dataOf cells) :=
  rep.reads.items

/-! #### `list_append` -/

theorem goToEnd_eq {h : CellHeap Nat α} {prev first : Option Nat} {fuel : Nat}
    (seg : Seg h prev first cells none) (enough : cells.length ≤ fuel) :
    goToEnd h fuel first = some (cells.getLast?.map Prod.fst) := by
  induction cells generalizing prev first fuel with
  | nil => cases seg; simp [goToEnd]
  | cons c cells ih =>
      obtain ⟨p, x⟩ := c
      obtain ⟨rfl, n, cell, rest⟩ := seg
      obtain ⟨fuel, rfl⟩ : ∃ k, fuel = k + 1 := ⟨fuel - 1, by simp at enough; omega⟩
      simp only [goToEnd, cell, Option.bind_eq_bind, Option.bind_some]
      cases cells with
      | nil => cases rest; rfl
      | cons d cells =>
          obtain ⟨q, y⟩ := d
          have hq := rest.1
          subst hq
          simp only [ih rest (by simpa using enough), List.getLast?_cons_cons]

/-- `set_next(last, node)` on a node that was just allocated. -/
theorem setNext_fresh {h : CellHeap Nat α} {a p : Nat} {c : Cell Nat α} {x : α} (cell : h a = some c)
    (away : a ≠ p) :
    setNext (Function.update h p (some ⟨none, none, x⟩)) (some a) (some p) =
      some (Function.update (Function.update h a (some { c with next := some p })) p
        (some ⟨none, some a, x⟩)) := by
  simp only [setNext, Function.update_of_ne away, cell, Option.bind_eq_bind, Option.bind_some,
    Function.update_of_ne away.symm, Function.update_self]
  refine congrArg some (funext fun k => ?_)
  simp only [Function.update_apply]
  split_ifs <;> rfl

/-- `list_append` links a fresh node behind the last one. -/
theorem Rep.append (rep : Rep list cells) (data : α) :
    ∃ list', ListApi.append list true data = some list' ∧
      Rep list' (cells ++ [(list.brk, data)]) := by
  have fresh : ∀ c ∈ cells, c.1 ≠ list.brk := fun c hc => Nat.ne_of_lt (rep.below c hc)
  have distinct : ((cells ++ [(list.brk, data)]).map Prod.fst).Nodup := by
    rw [List.map_append, List.nodup_append]
    refine ⟨rep.distinct, by simp, ?_⟩
    intro p hp q hq
    obtain ⟨c, hc, rfl⟩ := List.mem_map.mp hp
    simp only [List.map_cons, List.map_nil, List.mem_singleton] at hq
    exact hq ▸ fresh c hc
  have below : ∀ c ∈ cells ++ [(list.brk, data)], c.1 < list.brk + 1 := by
    intro c hc
    rcases List.mem_append.mp hc with hc | hc
    · exact Nat.lt_succ_of_lt (rep.below c hc)
    · simp only [List.mem_singleton] at hc
      simp [hc]
  have last := goToEnd_eq rep.chain rep.length_le
  rcases List.eq_nil_or_concat' cells with rfl | ⟨xs, c, rfl⟩
  · refine ⟨⟨Function.update list.nodes list.brk (some ⟨none, none, data⟩), list.brk + 1,
      some list.brk, some list.brk⟩, ?_, ?_, distinct, below⟩
    · show HeapList.append list true data = _
      simp [HeapList.append, last]
    · exact ⟨rfl, none, by simp, rfl⟩
  · obtain ⟨a, x⟩ := c
    obtain ⟨n, q, cell⟩ := rep.chain.allocated (c := (a, x)) (by simp)
    have away : a ≠ list.brk := fresh (a, x) (by simp)
    have step := rep.chain.snoc (y := data) rep.distinct cell fresh
    refine ⟨⟨Function.update (Function.update list.nodes a (some ⟨some list.brk, q, x⟩)) list.brk
      (some ⟨none, some a, data⟩), list.brk + 1, list.root, list.current⟩, ?_, step, distinct, below⟩
    show HeapList.append list true data = _
    simp only [HeapList.append, last, List.getLast?_append, List.getLast?_singleton,
      Option.some_or, Option.map_some, Option.bind_eq_bind, Option.bind_some, if_true]
    rw [setNext_fresh cell away]
    simp only [Option.bind_some, setPrevious, Function.update_self, Function.update_of_ne away,
      Option.bind_eq_bind]
    -- `set_previous` writes again what `set_next` wrote.
    congr 2
    funext k
    rw [Function.update_apply, Function.update_apply, Function.update_apply, Function.update_apply]
    split_ifs <;> simp_all

/-! #### `list_remove_item` -/

/-- Unlinking a node that has a predecessor. -/
theorem unlink_eq {xs ys : List (Nat × α)} {a p : Nat} {x y : α}
    (rep : Rep list (xs ++ (a, x) :: (p, y) :: ys)) :
    ∃ list', list.unlink p = some list' ∧ Rep list' (xs ++ (a, x) :: ys) ∧
      list'.current = some a ∧ list'.brk = list.brk := by
  obtain ⟨mid, -, right⟩ := Seg.append_iff.mp rep.chain
  obtain ⟨-, n, cellA, hn, m, cellP, rest⟩ := right
  subst hn
  have distinct := rep.distinct
  rw [List.map_append, List.nodup_append] at distinct
  simp only [List.map_cons, List.nodup_cons, List.mem_cons, not_or] at distinct
  obtain ⟨-, ⟨⟨ap, aNotin⟩, pNotin, distinctY⟩, -⟩ := distinct
  have keep : ((xs ++ (a, x) :: ys).map Prod.fst).Nodup ∧
      ∀ c ∈ xs ++ (a, x) :: ys, c.1 < list.brk := by
    have sub : (xs ++ (a, x) :: ys).Sublist (xs ++ (a, x) :: (p, y) :: ys) := by simp
    exact ⟨(sub.map Prod.fst).nodup rep.distinct, fun c hc => rep.below c (sub.subset hc)⟩
  cases ys with
  | nil =>
      cases rest
      refine ⟨{ list with
        nodes := Function.update (Function.update list.nodes a
          (some { next := none, previous := lastOf none xs, data := x })) p none
        current := some a }, ?_, ⟨?_, keep.1, keep.2⟩, rfl, rfl⟩
      · simp [unlink, cellP, setNext, setPrevious, cellA, Function.update_of_ne (Ne.symm ap)]
      · refine rep.chain.unlink rep.distinct ?_ (by simp) ?_
        · intro d hd e he
          rw [cellA] at hd
          rw [cellP] at he
          cases hd
          cases he
          simp [Function.update_of_ne ap]
        · intro k hka hkp _
          simp [Function.update_of_ne hka, Function.update_of_ne hkp]
  | cons c ys =>
      obtain ⟨q, z⟩ := c
      obtain ⟨rfl, k, cellQ, -⟩ := rest
      simp only [List.map_cons, List.mem_cons, not_or] at aNotin pNotin
      have aq := aNotin.1
      have pq := pNotin.1
      refine ⟨{ list with
        nodes := Function.update (Function.update (Function.update list.nodes a
          (some { next := some q, previous := lastOf none xs, data := x })) q
          (some { next := k, previous := some a, data := z })) p none
        current := some a }, ?_, ⟨?_, keep.1, keep.2⟩, rfl, rfl⟩
      · simp only [unlink, cellP, setNext, setPrevious, cellA, Option.bind_eq_bind,
          Option.bind_some, Function.update_of_ne (Ne.symm aq), Function.update_of_ne aq,
          Function.update_of_ne pq, Function.update_of_ne (Ne.symm ap), cellQ,
          Function.update_self]
        congr 2
        funext j
        by_cases hp : j = p
        · subst hp; simp
        · by_cases ha : j = a
          · subst ha
            simp [Function.update_of_ne ap, Function.update_of_ne aq]
          · by_cases hq : j = q
            · subst hq
              simp [Function.update_of_ne (Ne.symm aq), Function.update_of_ne (Ne.symm pq)]
            · simp [Function.update_of_ne hp, Function.update_of_ne ha, Function.update_of_ne hq]
      · refine rep.chain.unlink rep.distinct ?_ ?_ ?_
        · intro d hd e he
          rw [cellA] at hd
          rw [cellP] at he
          cases hd
          cases he
          simp [Function.update_of_ne ap, Function.update_of_ne aq]
        · rintro q' z' zs heq d hd
          cases heq
          rw [cellQ] at hd
          cases hd
          simp [Function.update_of_ne (Ne.symm pq)]
        · intro j hja hjp hjq
          simp [Function.update_of_ne hjp, Function.update_of_ne hja,
            Function.update_of_ne (hjq q z ys rfl)]

/-- Linking the neighbours of a node does not write the node, even where one of them is
the node itself. -/
theorem setNext_keeps {h h' : CellHeap Nat α} {p : Nat} {c : Cell Nat α} (cell : h p = some c)
    (linked : setNext h c.previous c.next = some h') : h' p = some c := by
  obtain ⟨next, previous, data⟩ := c
  cases previous with
  | none =>
      cases linked
      exact cell
  | some a =>
      obtain ⟨d, atA, linked⟩ := Option.bind_eq_some_iff.mp linked
      have first : Function.update h a (some { d with next := next }) p =
          some ⟨next, some a, data⟩ := by
        by_cases same : p = a
        · subst same
          rw [cell] at atA
          cases atA
          exact Function.update_self _ _ _
        · rw [Function.update_of_ne same, cell]
      cases next with
      | none =>
          cases linked
          exact first
      | some q =>
          obtain ⟨e, atQ, linked⟩ := Option.bind_eq_some_iff.mp linked
          cases linked
          by_cases same : p = q
          · subst same
            rw [first] at atQ
            cases atQ
            exact Function.update_self _ _ _
          · rw [Function.update_of_ne same, first]

theorem setPrevious_keeps {h h' : CellHeap Nat α} {p : Nat} {c : Cell Nat α} (cell : h p = some c)
    (linked : setPrevious h c.next c.previous = some h') : h' p = some c := by
  obtain ⟨next, previous, data⟩ := c
  cases next with
  | none =>
      cases linked
      exact cell
  | some q =>
      obtain ⟨d, atQ, linked⟩ := Option.bind_eq_some_iff.mp linked
      have first : Function.update h q (some { d with previous := previous }) p =
          some ⟨some q, previous, data⟩ := by
        by_cases same : p = q
        · subst same
          rw [cell] at atQ
          cases atQ
          exact Function.update_self _ _ _
        · rw [Function.update_of_ne same, cell]
      cases previous with
      | none =>
          cases linked
          exact first
      | some a =>
          obtain ⟨e, atA, linked⟩ := Option.bind_eq_some_iff.mp linked
          cases linked
          by_cases same : p = a
          · subst same
            rw [first] at atA
            cases atA
            exact Function.update_self _ _ _
          · rw [Function.update_of_ne same, first]

theorem removeItemLoop_none {prev first : Option Nat} {fuel : Nat}
    (seg : Seg list.nodes prev first cells none) (enough : cells.length ≤ fuel)
    (differ : ∀ c ∈ cells, comparable c.2 = some false) :
    list.removeItemLoop comparable fuel first = some (false, list) := by
  induction cells generalizing prev first fuel with
  | nil => cases seg; simp [removeItemLoop]
  | cons c cells ih =>
      obtain ⟨p, x⟩ := c
      obtain ⟨rfl, n, cell, rest⟩ := seg
      obtain ⟨fuel, rfl⟩ : ∃ k, fuel = k + 1 := ⟨fuel - 1, by simp at enough; omega⟩
      have hx : comparable x = some false := differ (p, x) List.mem_cons_self
      simp only [removeItemLoop, cell, Option.bind_eq_bind, Option.bind_some, hx]
      exact ih rest (by simpa using enough) fun c hc => differ c (List.mem_cons_of_mem _ hc)

/-- The loop unlinks the first node that satisfies the comparison. -/
theorem removeItemLoop_first {prev first : Option Nat} {fuel : Nat} {before after : List (Nat × α)}
    {p : Nat} {x : α} (seg : Seg list.nodes prev first (before ++ (p, x) :: after) none)
    (enough : (before ++ (p, x) :: after).length ≤ fuel)
    (differ : ∀ c ∈ before, comparable c.2 = some false) (hx : comparable x = some true) :
    list.removeItemLoop comparable fuel first =
      (list.unlink p).map fun list => (true, list) := by
  induction before generalizing prev first fuel with
  | nil =>
      obtain ⟨rfl, n, cell, -⟩ := seg
      obtain ⟨fuel, rfl⟩ : ∃ k, fuel = k + 1 := ⟨fuel - 1, by simp at enough; omega⟩
      simp [removeItemLoop, cell, hx]
  | cons c before ih =>
      obtain ⟨q, y⟩ := c
      obtain ⟨rfl, n, cell, rest⟩ := seg
      obtain ⟨fuel, rfl⟩ : ∃ k, fuel = k + 1 := ⟨fuel - 1, by simp at enough; omega⟩
      have hy : comparable y = some false := differ (q, y) List.mem_cons_self
      simp only [removeItemLoop, cell, Option.bind_eq_bind, Option.bind_some, hy]
      exact ih rest (by simpa using enough) fun c hc => differ c (List.mem_cons_of_mem _ hc)

theorem removeItemLoop_undefined {prev first : Option Nat} {fuel : Nat}
    (seg : Seg list.nodes prev first cells none)
    (undefined : Sequence.getItem comparable (dataOf cells) = none) :
    list.removeItemLoop comparable fuel first = none := by
  induction cells generalizing prev first fuel with
  | nil => cases undefined
  | cons c cells ih =>
      obtain ⟨p, x⟩ := c
      obtain ⟨rfl, n, cell, rest⟩ := seg
      cases fuel with
      | zero => rfl
      | succ fuel =>
          cases hx : comparable x with
          | none => simp [removeItemLoop, cell, hx]
          | some b =>
              cases b with
              | true => simp [Sequence.getItem, hx] at undefined
              | false =>
                  simp only [List.map_cons, Sequence.getItem, hx] at undefined
                  simp only [removeItemLoop, cell, Option.bind_eq_bind, Option.bind_some, hx]
                  exact ih rest undefined

/-- The list starts at an address that is not allocated. -/
def Dangling (list : HeapList α) : Prop :=
  ∃ p fuel, list.root = some p ∧ list.nodes p = none ∧ list.brk = fuel + 1

/-- After `list_remove_item` removed the first node, the root is an address that
is no longer allocated. -/
theorem removeItem_first_dangles {p : Nat} {x : α} (rep : Rep list ((p, x) :: cells))
    (hx : comparable x = some true) :
    ∃ list', ListApi.removeItem list comparable = some (true, list') ∧ Dangling list' := by
  obtain ⟨hroot, n, cell, rest⟩ := rep.chain
  have distinct := rep.distinct
  simp only [List.map_cons, List.nodup_cons] at distinct
  obtain ⟨fuel, hfuel⟩ : ∃ k, list.brk = k + 1 :=
    ⟨list.brk - 1, by have := rep.below (p, x) List.mem_cons_self; omega⟩
  have loop : ListApi.removeItem list comparable = (list.unlink p).map fun list => (true, list) := by
    show list.removeItemLoop comparable list.brk list.root = _
    simp [hfuel, hroot, removeItemLoop, cell, hx]
  cases n with
  | none =>
      refine ⟨{ list with nodes := Function.update list.nodes p none, current := none }, ?_,
        p, fuel, hroot, by simp, hfuel⟩
      simp [loop, unlink, cell, setNext, setPrevious]
  | some q =>
      cases cells with
      | nil => cases rest
      | cons c cells =>
          obtain ⟨r, z⟩ := c
          obtain ⟨hq, k, cellQ, -⟩ := rest
          cases hq
          simp only [List.map_cons, List.mem_cons, not_or] at distinct
          have pq := distinct.1.1
          refine ⟨{ list with
            nodes := Function.update (Function.update list.nodes q
              (some { next := k, previous := none, data := z })) p none
            current := none }, ?_, p, fuel, hroot, by simp, hfuel⟩
          simp [loop, unlink, cell, setNext, setPrevious, cellQ, Function.update_of_ne pq]

/-- `list_remove_item` takes out the datum `list_get_item` finds; when that is the
first one, the list is left dangling. -/
theorem Rep.removeItem_found (rep : Rep list cells) {before after : List α} {x : α}
    (split : dataOf cells = before ++ x :: after)
    (differ : ∀ y ∈ before, comparable y = some false) (hx : comparable x = some true) :
    ∃ list', ListApi.removeItem list comparable = some (true, list') ∧
      if before = [] then Dangling list'
      else ∃ cells', Rep list' cells' ∧ dataOf cells' = before ++ after := by
  obtain ⟨front, back, rfl, hfront, hback⟩ := List.map_eq_append_iff.mp split
  obtain ⟨c, back, rfl, rfl, rfl⟩ := List.map_eq_cons_iff.mp hback
  obtain ⟨p, x⟩ := c
  rcases List.eq_nil_or_concat' front with rfl | ⟨xs, a, rfl⟩
  · obtain ⟨list', removed, dangling⟩ := removeItem_first_dangles rep hx
    exact ⟨list', removed, by simpa [← hfront] using dangling⟩
  · obtain ⟨a, z⟩ := a
    have rep' : Rep list (xs ++ (a, z) :: (p, x) :: back) := by simpa using rep
    obtain ⟨list', unlinked, repAfter, -⟩ := unlink_eq rep'
    have loop := removeItemLoop_first rep.chain rep.length_le
      (fun c hc => differ c.2 (hfront ▸ List.mem_map_of_mem hc)) hx
    rw [unlinked] at loop
    refine ⟨list', loop, ?_⟩
    rw [if_neg (by simp [← hfront])]
    exact ⟨_, repAfter, by simp [← hfront]⟩

theorem Dangling.items (dangling : Dangling list) : ListApi.items list = none := by
  obtain ⟨p, fuel, root, freed, brk⟩ := dangling
  show forEachLoop list.nodes _ list.brk list.root [] = none
  rw [brk, root]
  simp [forEachLoop, freed]

end HeapList

/-! ### Lawful lists -/

/-- The data of a list; none when the list cannot be traversed. -/
def ListApi.toList {L : Type → Type} [ListApi L] {α : Type} (list : L α) : List α :=
  (ListApi.items list).getD []

/-- What holds of every list that was built by the operations: one that returns
agrees with the abstract sequence. If the implementation `Dangles`, the removal of
the first element leaves a list that cannot be traversed any more. -/
class LawfulListApi (L : Type → Type) [ListApi L] where
  Wf {α : Type} : L α → Prop
  Dangles : Prop
  wf_new {α : Type} : Wf (ListApi.new : L α)
  items_new {α : Type} : ListApi.items (ListApi.new : L α) = some []
  append {α : Type} {list list' : L α} {malloc : Bool} {data : α} :
    Wf list → ListApi.append list malloc data = some list' →
      Wf list' ∧ ∃ xs, ListApi.items list = some xs ∧ ListApi.items list' = some (xs ++ [data])
  removeItem {α : Type} {list list' : L α} {comparable : α → Option Bool} {b : Bool} :
    Wf list → ListApi.removeItem list comparable = some (b, list') →
      Wf list' ∧ ∃ xs ys, ListApi.items list = some xs ∧
        Sequence.removeItem comparable xs = some (b, ys) ∧
        (ListApi.items list' = some ys ∨
          Dangles ∧ ListApi.items list' = none ∧ ∃ x ∈ xs.head?, comparable x = some true)
  forEachCompare {α σ : Type} {list : L α} {uniqueness : Bool}
    {comparable : α → σ → Option (Bool × σ)} {result : σ} :
    Wf list → ListApi.forEachCompare list uniqueness comparable result =
      (ListApi.items list).bind fun xs => Sequence.forEachCompare uniqueness comparable xs result
  forEach {α σ : Type} {list : L α} {handle : α → σ → Option σ} {data : σ} :
    Wf list → ListApi.forEach list handle data =
      (ListApi.items list).bind fun xs => Sequence.forEach handle xs data
  getItem {α : Type} {list : L α} {comparable : α → Option Bool} :
    Wf list → ListApi.getItem list comparable =
      (ListApi.items list).bind (Sequence.getItem comparable)

instance : LawfulListApi List where
  Wf _ := True
  Dangles := False
  wf_new := trivial
  items_new := rfl
  append {α list list' malloc data} _ h := by
    refine ⟨trivial, list, items_list list, ?_⟩
    cases malloc with
    | false => cases h
    | true => cases h; exact items_list _
  removeItem {α list list' comparable b} _ h :=
    ⟨trivial, list, list', items_list list, h, Or.inl (items_list list')⟩
  forEachCompare _ := by rw [items_list]; rfl
  forEach _ := by rw [items_list]; rfl
  getItem _ := by rw [items_list]; rfl

namespace HeapList

variable {α σ : Type} {list : HeapList α}

/-- The lists `list.c` can produce: chains, and lists whose first node was freed. -/
def Wf (list : HeapList α) : Prop := (∃ cells, Rep list cells) ∨ Dangling list

theorem append_malloc {list' : HeapList α} {malloc : Bool} {data : α}
    (h : ListApi.append list malloc data = some list') : malloc = true := by
  cases malloc with
  | true => rfl
  | false =>
      have : HeapList.append list false data = some list' := h
      simp [HeapList.append] at this

theorem Wf.append {list' : HeapList α} {malloc : Bool} {data : α} (wf : Wf list)
    (h : ListApi.append list malloc data = some list') :
    Wf list' ∧ ∃ xs, ListApi.items list = some xs ∧ ListApi.items list' = some (xs ++ [data]) := by
  obtain rfl := append_malloc h
  rcases wf with ⟨cells, rep⟩ | ⟨p, fuel, root, freed, brk⟩
  · obtain ⟨list'', appended, rep'⟩ := rep.append data
    rw [h] at appended
    cases appended
    refine ⟨Or.inl ⟨_, rep'⟩, dataOf cells, rep.items, ?_⟩
    rw [rep'.items]
    simp
  · have : HeapList.append list true data = some list' := h
    simp [HeapList.append, root, brk, goToEnd, freed] at this

theorem Wf.removeItem {list' : HeapList α} {comparable : α → Option Bool} {b : Bool} (wf : Wf list)
    (h : ListApi.removeItem list comparable = some (b, list')) :
    Wf list' ∧ ∃ xs ys, ListApi.items list = some xs ∧
      Sequence.removeItem comparable xs = some (b, ys) ∧
      (ListApi.items list' = some ys ∨
        True ∧ ListApi.items list' = none ∧ ∃ x ∈ xs.head?, comparable x = some true) := by
  rcases wf with ⟨cells, rep⟩ | ⟨p, fuel, root, freed, brk⟩
  · cases found : Sequence.getItem comparable (dataOf cells) with
    | none =>
        have : ListApi.removeItem list comparable = none :=
          removeItemLoop_undefined rep.chain found
        rw [h] at this
        cases this
    | some found' =>
        cases found' with
        | none =>
            have differ := Sequence.getItem_eq_none found
            have same : ListApi.removeItem list comparable = some (false, list) :=
              removeItemLoop_none rep.chain rep.length_le fun c hc =>
                differ c.2 (List.mem_map_of_mem hc)
            rw [h] at same
            cases same
            exact ⟨Or.inl ⟨cells, rep⟩, _, _, rep.items, Sequence.removeItem_none differ,
              Or.inl rep.items⟩
        | some x =>
            obtain ⟨before, after, parts, hx, differ⟩ := Sequence.getItem_eq_some found
            obtain ⟨list'', removed, shape⟩ := rep.removeItem_found parts differ hx
            rw [h] at removed
            cases removed
            have sequence : Sequence.removeItem comparable (dataOf cells) =
                some (true, before ++ after) := by
              rw [parts]
              exact Sequence.removeItem_append differ hx
            split at shape
            · next empty =>
              refine ⟨Or.inr shape, _, _, rep.items, sequence, Or.inr ⟨trivial, shape.items, x, ?_, hx⟩⟩
              simp [parts, empty]
            · obtain ⟨cells', rep', data⟩ := shape
              exact ⟨Or.inl ⟨cells', rep'⟩, _, _, rep.items, sequence,
                Or.inl (by rw [rep'.items, data])⟩
  · have : list.removeItemLoop comparable list.brk list.root = some (b, list') := h
    simp [brk, root, removeItemLoop, freed] at this

/-- `list_append` is undefined behaviour when there is no memory for the node, and on a
list that cannot be traversed. -/
theorem Wf.append_defined (wf : Wf list) (malloc : Bool) (data : α) :
    (∃ list', ListApi.append list malloc data = some list') ↔
      malloc = true ∧ ListApi.items list ≠ none := by
  constructor
  · rintro ⟨list', appended⟩
    obtain ⟨-, xs, items, -⟩ := wf.append appended
    exact ⟨append_malloc appended, by simp [items]⟩
  · rintro ⟨rfl, items⟩
    rcases wf with ⟨cells, rep⟩ | dangling
    · obtain ⟨list', appended, -⟩ := rep.append data
      exact ⟨list', appended⟩
    · exact absurd dangling.items items

/-- A removal that finds its item takes out that one; a list that loses its first item is lost. -/
theorem Wf.removeItem_found (wf : Wf list) {before after : List α} {x : α}
    (items : ListApi.items list = some (before ++ x :: after))
    (differ : ∀ y ∈ before, comparable y = some false) (same : comparable x = some true) :
    ∃ list', ListApi.removeItem list comparable = some (true, list') ∧ Wf list' ∧
      ListApi.items list' = if before = [] then none else some (before ++ after) := by
  rcases wf with ⟨cells, rep⟩ | dangling
  · rw [rep.items] at items
    obtain ⟨list', removed, shape⟩ := rep.removeItem_found (Option.some.inj items) differ same
    refine ⟨list', removed, ?_, ?_⟩
    · split at shape
      · exact Or.inr shape
      · obtain ⟨cells', rep', -⟩ := shape
        exact Or.inl ⟨cells', rep'⟩
    · split at shape
      · next empty => rw [if_pos empty, shape.items]
      · next more =>
        obtain ⟨cells', rep', data⟩ := shape
        rw [if_neg more, rep'.items, data]
  · rw [dangling.items] at items
    cases items

/-- `list_remove_item` is undefined behaviour where `list_get_item` is. -/
theorem Wf.removeItem_defined (wf : Wf list) (comparable : α → Option Bool) :
    (∃ r, ListApi.removeItem list comparable = some r) ↔ ListApi.getItem list comparable ≠ none := by
  rcases wf with ⟨cells, rep⟩ | ⟨p, fuel, root, freed, brk⟩
  · rw [rep.getItem, show ListApi.getItem (dataOf cells) comparable =
      Sequence.getItem comparable (dataOf cells) from rfl]
    cases found : Sequence.getItem comparable (dataOf cells) with
    | none =>
        have undefined : ListApi.removeItem list comparable = none :=
          removeItemLoop_undefined rep.chain found
        simp [undefined]
    | some found' =>
        refine ⟨fun _ => by simp, fun _ => ?_⟩
        cases found' with
        | none =>
            exact ⟨_, removeItemLoop_none rep.chain rep.length_le fun c hc =>
              Sequence.getItem_eq_none found c.2 (List.mem_map_of_mem hc)⟩
        | some x =>
            obtain ⟨before, after, parts, hx, differ⟩ := Sequence.getItem_eq_some found
            obtain ⟨list', removed, -⟩ := rep.removeItem_found parts differ hx
            exact ⟨_, removed⟩
  · have removal : ListApi.removeItem list comparable =
        list.removeItemLoop comparable list.brk list.root := rfl
    have lookup : ListApi.getItem list comparable =
        getItemLoop list.nodes comparable list.brk list.root := rfl
    simp [removal, lookup, brk, root, removeItemLoop, getItemLoop, freed]

end HeapList

instance : LawfulListApi HeapList where
  Wf := HeapList.Wf
  Dangles := True
  wf_new := Or.inl ⟨[], HeapList.rep_new⟩
  items_new := HeapList.rep_new.items
  append := HeapList.Wf.append
  removeItem := HeapList.Wf.removeItem
  forEachCompare {α σ list uniqueness comparable result} wf := by
    rcases wf with ⟨cells, rep⟩ | dangling
    · rw [rep.items, rep.forEachCompare]
      rfl
    · rw [dangling.items]
      obtain ⟨p, fuel, root, freed, brk⟩ := dangling
      show HeapList.forEachCompareLoop list.nodes _ _ list.brk list.root result = none
      simp [brk, root, HeapList.forEachCompareLoop, freed]
  forEach {α σ list handle data} wf := by
    rcases wf with ⟨cells, rep⟩ | dangling
    · rw [rep.items, rep.forEach]
      rfl
    · rw [dangling.items]
      obtain ⟨p, fuel, root, freed, brk⟩ := dangling
      show HeapList.forEachLoop list.nodes _ list.brk list.root data = none
      simp [brk, root, HeapList.forEachLoop, freed]
  getItem {α list comparable} wf := by
    rcases wf with ⟨cells, rep⟩ | dangling
    · rw [rep.items, rep.getItem]
      rfl
    · rw [dangling.items]
      obtain ⟨p, fuel, root, freed, brk⟩ := dangling
      show HeapList.getItemLoop list.nodes _ list.brk list.root = none
      simp [brk, root, HeapList.getItemLoop, freed]

end Dserve
