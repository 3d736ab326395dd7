import Dserve.List

/-!
`list_append` and `list_remove_item`, store by store.

A signal can come between any two stores. `appendStores` and `removeStores` are the
stores of the two functions in their order, with the values that are written; executed
one after the other they make up the functions (`append_stores`, `removeItem_stores`).

A traversal only follows `next`. Between the stores of `list_append` it sees the list
without the new node or with it (`Appending.items`), and between those of a removal the
list with the node or without it, as long as the node is not the first
(`Removing.items`). A first node stays the root: the traversal sees all of the list
until `node->next = NULL` and that node alone from there to its `free`.
-/

namespace Dserve

/-- A store of `list.c` or `node.c`. `newNode` are those of `new_node`, whose node
nothing points to yet. -/
inductive ListStore (α : Type) where
  | newNode (data : α)
  | next (node : Nat) (value : Option Nat)
  | previous (node : Nat) (value : Option Nat)
  | root (value : Option Nat)
  | current (value : Option Nat)
  | free (node : Nat)
deriving DecidableEq

namespace ListStore

variable {α : Type}

/-- A store to a node that is not allocated is undefined behaviour. -/
def exec (list : HeapList α) : ListStore α → Option (HeapList α)
  | .newNode data => some { list with
      nodes := Function.update list.nodes list.brk (some ⟨none, none, data⟩)
      brk := list.brk + 1 }
  | .next p value => (list.nodes p).map fun node =>
      { list with nodes := Function.update list.nodes p (some { node with next := value }) }
  | .previous p value => (list.nodes p).map fun node =>
      { list with nodes := Function.update list.nodes p (some { node with previous := value }) }
  | .root value => some { list with root := value }
  | .current value => some { list with current := value }
  | .free p => (list.nodes p).map fun _ =>
      { list with nodes := Function.update list.nodes p none }

def execAll : List (ListStore α) → HeapList α → Option (HeapList α)
  | [], list => some list
  | s :: stores, list => (s.exec list).bind (execAll stores)

/-- The store does not change what a traversal sees that sees `cells`. -/
def Keeps (cells : List (Nat × α)) : ListStore α → Prop
  | .newNode _ => True
  | .next p value => ∀ n, Chain.successor cells p = some n → value = n
  | .previous _ _ => True
  | .root value => value = cells.head?.map Prod.fst
  | .current _ => True
  | .free p => Chain.successor cells p = none

theorem execAll_append {stores stores' : List (ListStore α)} {list : HeapList α} :
    execAll (stores ++ stores') list = (execAll stores list).bind (execAll stores') := by
  induction stores generalizing list with
  | nil => rfl
  | cons s stores ih =>
      simp only [List.cons_append, execAll, Option.bind_assoc]
      exact Option.bind_congr fun list _ => ih

end ListStore

section Stores

variable {α : Type}

/-- `set_next` -/
def setNextStores (node next : Option Nat) : List (ListStore α) :=
  match node with
  | none => []
  | some p => .next p next :: match next with
      | none => []
      | some q => [.previous q node]

/-- `set_previous` -/
def setPreviousStores (node previous : Option Nat) : List (ListStore α) :=
  match node with
  | none => []
  | some p => .previous p previous :: match previous with
      | none => []
      | some q => [.next q node]

end Stores

namespace HeapList

open ListStore

variable {α : Type}

/-- `list_append` -/
def appendStores (list : HeapList α) (malloc : Bool) (data : α) : Option (List (ListStore α)) :=
  (goToEnd list.nodes list.brk list.root).bind fun last =>
    if malloc then
      let p := list.brk
      some (.newNode data :: match last with
        | none => [.root (some p), .current (some p)]
        | some _ => setNextStores last (some p) ++ setPreviousStores (some p) last)
    else none

/-- The body of `list_remove_item` for the node it removes. -/
def unlinkStores (list : HeapList α) (p : Nat) : Option (List (ListStore α)) :=
  (list.nodes p).map fun node =>
    setNextStores node.previous node.next ++ setPreviousStores node.next node.previous ++
      [.current node.previous, .previous p none, .next p none, .free p]

/-- The loop of `list_remove_item` up to the node it removes. -/
def findNode (h : CellHeap Nat α) (comparable : α → Option Bool) :
    Nat → Option Nat → Option (Option (Nat × α))
  | _, none => some none
  | 0, some _ => none
  | fuel + 1, some p => do
      let node ← h p
      match comparable node.data with
      | none => none
      | some true => some (some (p, node.data))
      | some false => findNode h comparable fuel node.next

/-- `list_remove_item` -/
def removeStores (list : HeapList α) (comparable : α → Option Bool) :
    Option (Bool × List (ListStore α)) :=
  (findNode list.nodes comparable list.brk list.root).bind fun
    | none => some (false, [])
    | some c => (list.unlinkStores c.1).map fun stores => (true, stores)

/-! ### The stores make up the functions -/

section

variable {list : HeapList α} {h : CellHeap Nat α} {p : Nat} {c : Cell Nat α}

theorem setNext_stores (node next : Option Nat) :
    execAll (setNextStores node next) list =
      (setNext list.nodes node next).map fun h => { list with nodes := h } := by
  cases node with
  | none => rfl
  | some p =>
      cases hp : list.nodes p with
      | none => cases next <;> simp [setNextStores, execAll, exec, setNext, hp]
      | some c =>
          cases next with
          | none => simp [setNextStores, execAll, exec, setNext, hp]
          | some q =>
              simp only [setNextStores, execAll, exec, setNext, hp, Option.map_some,
                Option.bind_some, Option.bind_eq_bind]
              cases Function.update list.nodes p (some { c with next := some q }) q <;> rfl

theorem setPrevious_stores (node previous : Option Nat) :
    execAll (setPreviousStores node previous) list =
      (setPrevious list.nodes node previous).map fun h => { list with nodes := h } := by
  cases node with
  | none => rfl
  | some p =>
      cases hp : list.nodes p with
      | none => cases previous <;> simp [setPreviousStores, execAll, exec, setPrevious, hp]
      | some c =>
          cases previous with
          | none => simp [setPreviousStores, execAll, exec, setPrevious, hp]
          | some q =>
              simp only [setPreviousStores, execAll, exec, setPrevious, hp, Option.map_some,
                Option.bind_some, Option.bind_eq_bind]
              cases Function.update list.nodes p (some { c with previous := some q }) q <;> rfl

theorem append_stores (malloc : Bool) (data : α) : list.append malloc data =
    (list.appendStores malloc data).bind fun stores => execAll stores list := by
  unfold append appendStores
  cases goToEnd list.nodes list.brk list.root with
  | none => rfl
  | some last =>
      cases malloc with
      | false => rfl
      | true =>
          cases last with
          | none => rfl
          | some a =>
              simp only [Option.bind_eq_bind, Option.bind_some, if_true, execAll, exec,
                execAll_append, setNext_stores]
              cases setNext (Function.update list.nodes list.brk (some ⟨none, none, data⟩))
                (some a) (some list.brk) with
              | none => rfl
              | some h =>
                  simp only [Option.map_some, Option.bind_some, setPrevious_stores]
                  cases setPrevious h (some list.brk) (some a) <;> rfl

theorem unlink_stores (p : Nat) : list.unlink p =
    (list.unlinkStores p).bind fun stores => execAll stores list := by
  unfold unlink unlinkStores
  cases cell : list.nodes p with
  | none => rfl
  | some c =>
      simp only [Option.bind_eq_bind, Option.bind_some, Option.map_some, execAll_append,
        setNext_stores]
      cases next : setNext list.nodes c.previous c.next with
      | none => rfl
      | some h =>
          have cell := setNext_keeps cell next
          simp only [Option.bind_some, Option.map_some, cell, setPrevious_stores]
          cases previous : setPrevious h c.next c.previous with
          | none => rfl
          | some h =>
              have cell := setPrevious_keeps cell previous
              simp [execAll, exec, cell]

theorem removeItemLoop_stores (comparable : α → Option Bool) (fuel : Nat) (first : Option Nat) :
    list.removeItemLoop comparable fuel first =
      (findNode list.nodes comparable fuel first).bind fun
        | none => some (false, list)
        | some c => (list.unlink c.1).map fun list => (true, list) := by
  induction fuel generalizing first with
  | zero => cases first <;> rfl
  | succ fuel ih =>
      cases first with
      | none => rfl
      | some p =>
          simp only [removeItemLoop, findNode]
          cases list.nodes p with
          | none => rfl
          | some node =>
              simp only [Option.bind_eq_bind, Option.bind_some]
              cases comparable node.data with
              | none => rfl
              | some b =>
                  cases b with
                  | true => rfl
                  | false => exact ih node.next

theorem removeItem_stores (comparable : α → Option Bool) : ListApi.removeItem list comparable =
    (list.removeStores comparable).bind fun r =>
      (execAll r.2 list).map fun list => (r.1, list) := by
  rw [show ListApi.removeItem list comparable =
    list.removeItemLoop comparable list.brk list.root from rfl, removeItemLoop_stores]
  unfold removeStores
  cases findNode list.nodes comparable list.brk list.root with
  | none => rfl
  | some found =>
      cases found with
      | none => rfl
      | some c =>
          simp only [Option.bind_some, unlink_stores]
          cases list.unlinkStores c.1 <;> rfl

end

/-! ### What a traversal sees between the stores -/

section

open Chain

variable {list list' : HeapList α} {cells : List (Nat × α)}

/-- A store that changes a node but not the `next` of one that is seen. -/
theorem Reads.update (reads : Reads list cells) {p : Nat} {c c' : Cell Nat α}
    (cell : list.nodes p = some c) (data : c'.data = c.data)
    (next : ∀ n, successor cells p = some n → c'.next = n) :
    Reads { list with nodes := Function.update list.nodes p (some c') } cells := by
  refine ⟨reads.walk.frame fun d hd e found => ?_, reads.distinct, reads.below⟩
  by_cases same : d.1 = p
  · rw [same, cell] at found
    cases found
    obtain ⟨n, seen⟩ : ∃ n, successor cells p = some n := by
      refine Option.ne_none_iff_exists'.mp fun absent => ?_
      exact successor_none.mp absent d hd same
    have kept : c'.next = c.next := (next n seen).trans (reads.walk.successor_eq seen cell).symm
    refine ⟨c'.previous, ?_⟩
    rw [← kept, ← data, same]
    exact Function.update_self _ _ _
  · exact ⟨e.previous, (Function.update_of_ne same _ _).trans found⟩

/-- A store to a node that is not seen. -/
theorem Reads.elsewhere (reads : Reads list cells) {p : Nat} {node : Option (Cell Nat α)}
    (away : ∀ c ∈ cells, c.1 ≠ p) : Reads { list with nodes := Function.update list.nodes p node } cells := by
  refine ⟨reads.walk.frame fun d hd e found => ⟨e.previous, ?_⟩, reads.distinct, reads.below⟩
  exact (Function.update_of_ne (away d hd) _ _).trans found

theorem Reads.exec (reads : Reads list cells) {s : ListStore α} (keeps : s.Keeps cells)
    (h : s.exec list = some list') : Reads list' cells := by
  cases s with
  | newNode data =>
      cases h
      have away : ∀ c ∈ cells, c.1 ≠ list.brk := fun c hc => Nat.ne_of_lt (reads.below c hc)
      obtain ⟨walk, distinct, below⟩ : Reads { list with
          nodes := Function.update list.nodes list.brk (some ⟨none, none, data⟩) } cells :=
        reads.elsewhere away
      exact ⟨walk, distinct, fun c hc => Nat.lt_succ_of_lt (below c hc)⟩
  | next p value =>
      obtain ⟨c, cell, rfl⟩ := Option.map_eq_some_iff.mp h
      exact reads.update cell rfl keeps
  | previous p value =>
      obtain ⟨c, cell, rfl⟩ := Option.map_eq_some_iff.mp h
      refine reads.update cell rfl fun n seen => ?_
      exact reads.walk.successor_eq (d := c) seen cell
  | root value =>
      cases h
      obtain rfl : value = cells.head?.map Prod.fst := keeps
      exact ⟨reads.walk.first_eq ▸ reads.walk, reads.distinct, reads.below⟩
  | current value =>
      cases h
      exact ⟨reads.walk, reads.distinct, reads.below⟩
  | free p =>
      obtain ⟨c, -, rfl⟩ := Option.map_eq_some_iff.mp h
      exact reads.elsewhere (successor_none.mp keeps)

theorem Reads.execAll (reads : Reads list cells) {stores : List (ListStore α)}
    (keeps : ∀ s ∈ stores, s.Keeps cells) (h : execAll stores list = some list') :
    Reads list' cells := by
  induction stores generalizing list with
  | nil =>
      cases h
      exact reads
  | cons s stores ih =>
      obtain ⟨list₁, first, h⟩ := Option.bind_eq_some_iff.mp h
      exact ih (reads.exec (keeps s List.mem_cons_self) first)
        (fun t ht => keeps t (List.mem_cons_of_mem _ ht)) h

/-- The stores of a change: those of `keep` keep what is seen, `switch` makes the change,
and those of `rest` keep what is seen then. -/
theorem Reads.switched {cells' : List (Nat × α)} {keep rest finished ahead : List (ListStore α)}
    {switch : ListStore α} (reads : Reads list cells) (keeps : ∀ s ∈ keep, s.Keeps cells)
    (switches : ∀ between list₁, ListStore.execAll keep list = some between →
      switch.exec between = some list₁ → Reads list₁ cells')
    (keeps' : ∀ s ∈ rest, s.Keeps cells') (parts : keep ++ switch :: rest = finished ++ ahead)
    (h : ListStore.execAll finished list = some list') : Reads list' cells ∨ Reads list' cells' := by
  rcases List.append_eq_append_iff.mp parts with ⟨more, rfl, behind⟩ | ⟨more, rfl, -⟩
  · cases more with
    | nil =>
        rw [List.append_nil] at h
        exact Or.inl (reads.execAll keeps h)
    | cons s more =>
        obtain ⟨rfl, rfl⟩ := List.cons.inj behind
        rw [execAll_append] at h
        obtain ⟨between, kept, h⟩ := Option.bind_eq_some_iff.mp h
        obtain ⟨list₁, switched, h⟩ := Option.bind_eq_some_iff.mp h
        right
        exact (switches between list₁ kept switched).execAll
          (fun s hs => keeps' s (List.mem_append_left _ hs)) h
  · left
    exact reads.execAll (fun s hs => keeps s (List.mem_append_left _ hs)) h

/-- Storing in the cell `a` where the cells `zs` begin. -/
theorem Reads.link {xs ys zs : List (Nat × α)} {a : Nat} {y : α} {n : Option Nat} {c : Cell Nat α}
    (reads : Reads list (xs ++ (a, y) :: ys)) (cell : list.nodes a = some c)
    (walk : Walk list.nodes n zs none) (distinct : ((xs ++ (a, y) :: zs).map Prod.fst).Nodup)
    (below : ∀ c ∈ zs, c.1 < list.brk) :
    Reads { list with nodes := Function.update list.nodes a (some { c with next := n }) }
      (xs ++ (a, y) :: zs) := by
  obtain ⟨mid, left, rfl, m, q, atA, -⟩ := Walk.append_iff.mp reads.walk
  rw [cell] at atA
  cases atA
  have keys := distinct
  rw [List.map_append, List.nodup_append] at keys
  obtain ⟨-, right, apart⟩ := keys
  refine ⟨Walk.append_iff.mpr ⟨some a, left.frame ?_, rfl, n, q, Function.update_self _ _ _,
    walk.frame ?_⟩, distinct, ?_⟩
  · intro d hd e found
    have away : d.1 ≠ a := fun same => apart _ (List.mem_map_of_mem hd) a (by simp) same
    exact ⟨e.previous, (Function.update_of_ne away _ _).trans found⟩
  · intro d hd e found
    have away : d.1 ≠ a := by
      rintro rfl
      exact (List.nodup_cons.mp right).1 (List.mem_map.mpr ⟨d, hd, rfl⟩)
    exact ⟨e.previous, (Function.update_of_ne away _ _).trans found⟩
  · intro d hd
    rcases List.mem_append.mp hd with hd | hd
    · exact reads.below d (List.mem_append_left _ hd)
    · rcases List.mem_cons.mp hd with rfl | hd
      · exact reads.below _ (List.mem_append_right _ List.mem_cons_self)
      · exact below d hd

/-- Between the stores of `list_append`: those of `ahead` are still to be made. -/
def Appending (list : HeapList α) (xs : List α) (x : α) (ahead : List (ListStore α)) : Prop :=
  ∃ (start : HeapList α) (cells : List (Nat × α)) (finished : List (ListStore α)),
    Rep start cells ∧ dataOf cells = xs ∧ start.appendStores true x = some (finished ++ ahead) ∧
      ListStore.execAll finished start = some list

theorem Rep.appending (rep : Rep list cells) {x : α} {stores : List (ListStore α)}
    (h : list.appendStores true x = some stores) : Appending list (dataOf cells) x stores :=
  ⟨list, cells, [], rep, rfl, h, rfl⟩

theorem Appending.step {xs : List α} {x : α} {s : ListStore α} {ahead : List (ListStore α)}
    (appending : Appending list xs x (s :: ahead)) (h : s.exec list = some list') :
    Appending list' xs x ahead := by
  obtain ⟨start, cells, finished, rep, data, stores, executed⟩ := appending
  refine ⟨start, cells, finished ++ [s], rep, data, by simpa using stores, ?_⟩
  rw [execAll_append, executed]
  simp [ListStore.execAll, h]

/-- When all stores are made, the datum is in the list. -/
theorem Appending.finished {xs : List α} {x : α} (appending : Appending list xs x []) :
    ∃ cells, Rep list cells ∧ dataOf cells = xs ++ [x] := by
  obtain ⟨start, cells, finished, rep, rfl, stores, executed⟩ := appending
  obtain ⟨list', appended, rep'⟩ := rep.append x
  have same : start.append true x = some list := by
    rw [append_stores, stores, List.append_nil, Option.bind_some, executed]
  cases same.symm.trans appended
  exact ⟨_, rep', by simp⟩

/-- A traversal between the stores of `list_append` sees the list without the datum or
with it. -/
theorem Appending.items {xs : List α} {x : α} {ahead : List (ListStore α)}
    (appending : Appending list xs x ahead) :
    ListApi.items list = some xs ∨ ListApi.items list = some (xs ++ [x]) := by
  obtain ⟨start, cells, finished, rep, rfl, stores, executed⟩ := appending
  have fresh : ∀ c ∈ cells, c.1 ≠ start.brk := fun c hc => Nat.ne_of_lt (rep.below c hc)
  have distinct : ((cells ++ [(start.brk, x)]).map Prod.fst).Nodup := by
    rw [List.map_append, List.nodup_append]
    refine ⟨rep.distinct, by simp, ?_⟩
    intro p hp q hq
    obtain ⟨c, hc, rfl⟩ := List.mem_map.mp hp
    rw [List.map_singleton, List.mem_singleton] at hq
    exact hq ▸ fresh c hc
  suffices Reads list cells ∨ Reads list (cells ++ [(start.brk, x)]) by
    rcases this with reads | reads
    · exact Or.inl reads.items
    · right
      rw [reads.items]
      simp
  simp only [appendStores, goToEnd_eq rep.chain rep.length_le, Option.bind_some, if_true,
    Option.some.injEq] at stores
  rcases List.eq_nil_or_concat' cells with rfl | ⟨front, c, rfl⟩
  · have parts : [ListStore.newNode x] ++ .root (some start.brk) :: [.current (some start.brk)] =
        finished ++ ahead := stores
    refine rep.reads.switched (by simp [Keeps]) ?_ (by simp [Keeps]) parts executed
    intro between list₁ kept switched
    cases kept
    cases switched
    exact ⟨⟨rfl, none, none, Function.update_self _ _ _, rfl⟩, by simp, by simp⟩
  · obtain ⟨a, y⟩ := c
    have away : ∀ c ∈ front, c.1 ≠ a := by
      intro c hc same
      have keys := rep.distinct
      rw [List.map_append, List.nodup_append] at keys
      exact keys.2.2 _ (List.mem_map_of_mem hc) a (by simp) same
    rw [List.append_assoc]
    simp only [List.getLast?_append, List.getLast?_singleton, Option.some_or, Option.map_some] at stores
    have parts : [ListStore.newNode x] ++ .next a (some start.brk) :: [.previous start.brk (some a),
        .previous start.brk (some a), .next a (some start.brk)] = finished ++ ahead := stores
    refine rep.reads.switched (by simp [Keeps]) ?_ ?_ parts executed
    · intro between list₁ kept switched
      cases kept
      obtain ⟨d, cell, rfl⟩ := Option.map_eq_some_iff.mp switched
      have reads : Reads _ (front ++ [(a, y)]) :=
        rep.reads.exec (s := .newNode x) trivial rfl
      refine reads.link cell ?_ (by simpa using distinct) (by simp)
      exact ⟨rfl, none, none, Function.update_self _ _ _, rfl⟩
    · simp [Keeps, successor_append away]

/-- Between the stores of `list_remove_item` on the node `p`. -/
def Removing (list : HeapList α) (front : List α) (x : α) (back : List α) (p : Nat)
    (ahead : List (ListStore α)) : Prop :=
  ∃ (start : HeapList α) (before after : List (Nat × α)) (finished : List (ListStore α)),
    Rep start (before ++ (p, x) :: after) ∧ dataOf before = front ∧ dataOf after = back ∧
      start.unlinkStores p = some (finished ++ ahead) ∧ ListStore.execAll finished start = some list

theorem Removing.step {front back : List α} {x : α} {p : Nat} {s : ListStore α}
    {ahead : List (ListStore α)} (removing : Removing list front x back p (s :: ahead))
    (h : s.exec list = some list') : Removing list' front x back p ahead := by
  obtain ⟨start, before, after, finished, rep, hfront, hback, stores, executed⟩ := removing
  refine ⟨start, before, after, finished ++ [s], rep, hfront, hback, by simpa using stores, ?_⟩
  rw [execAll_append, executed]
  simp [ListStore.execAll, h]

/-- When all stores are made, the node is out of the list, which is lost if it was the
first. -/
theorem Removing.finished {front back : List α} {x : α} {p : Nat}
    (removing : Removing list front x back p []) :
    if front = [] then Dangling list else ∃ cells, Rep list cells ∧ dataOf cells = front ++ back := by
  obtain ⟨start, before, after, finished, rep, rfl, rfl, stores, executed⟩ := removing
  have unlinked : start.unlink p = some list := by
    rw [unlink_stores, stores, List.append_nil, Option.bind_some, executed]
  rcases List.eq_nil_or_concat' before with rfl | ⟨xs, a, rfl⟩
  · obtain ⟨comparable, hx⟩ : ∃ comparable : α → Option Bool, comparable x = some true :=
      ⟨fun _ => some true, rfl⟩
    have loop := removeItemLoop_first rep.chain rep.length_le (by simp) hx
    obtain ⟨list', removed, dangling⟩ := removeItem_first_dangles rep hx
    rw [unlinked] at loop
    cases loop.symm.trans removed
    exact dangling
  · have split : Rep start (xs ++ (a.1, a.2) :: (p, x) :: after) := by simpa using rep
    obtain ⟨list', unlinked', rep', -⟩ := unlink_eq split
    cases unlinked.symm.trans unlinked'
    rw [if_neg (by simp)]
    exact ⟨_, rep', by simp⟩

/-- A traversal between the stores of a removal sees the list with the node or without
it. If the node is the first, it must not be cut off: `node->next = NULL` cuts it off from
what is behind it, and then it is freed. -/
theorem Removing.items {front back : List α} {x : α} {p : Nat} {ahead : List (ListStore α)}
    (removing : Removing list front x back p ahead)
    (attached : front = [] → ahead ≠ [] ∧ (ahead = [.free p] → back = [])) :
    ListApi.items list = some (front ++ x :: back) ∨ ListApi.items list = some (front ++ back) := by
  obtain ⟨start, before, after, finished, rep, rfl, rfl, stores, executed⟩ := removing
  have distinct := rep.distinct
  rw [List.map_append, List.nodup_append] at distinct
  obtain ⟨-, right, apart⟩ := distinct
  have afterP : ∀ c ∈ after, c.1 ≠ p := by
    rintro c hc rfl
    exact (List.nodup_cons.mp right).1 (List.mem_map.mpr ⟨c, hc, rfl⟩)
  rcases List.eq_nil_or_concat' before with rfl | ⟨xs, a, rfl⟩
  · left
    obtain ⟨kept, cutOff⟩ := attached rfl
    obtain ⟨-, n, cell, rest⟩ := rep.chain
    -- all stores but the last two leave the walk as it is
    obtain ⟨early, writes, keeps⟩ : ∃ early : List (ListStore α),
        start.unlinkStores p = some (early ++ [.next p none] ++ [.free p]) ∧
          ∀ s ∈ early, s.Keeps ((p, x) :: after) := by
      refine ⟨setPreviousStores n none ++ [.current none, .previous p none], ?_, ?_⟩
      · simp [unlinkStores, cell, setNextStores]
      · cases n <;> simp [setPreviousStores, Keeps]
    rw [writes] at stores
    obtain ⟨ahead, last, rfl⟩ := (List.eq_nil_or_concat' ahead).resolve_left kept
    rw [← List.append_assoc, Option.some.injEq] at stores
    obtain ⟨made, hlast⟩ := List.append_inj' stores rfl
    obtain rfl := (List.cons.inj hlast).1
    suffices ∀ s ∈ finished, s.Keeps ((p, x) :: after) from
      (rep.reads.execAll this executed).items
    rcases List.eq_nil_or_concat' ahead with rfl | ⟨ahead, t, rfl⟩
    · obtain rfl : after = [] := List.map_eq_nil_iff.mp (cutOff rfl)
      rw [List.append_nil] at made
      rw [← made]
      intro s hs
      rcases List.mem_append.mp hs with hs | hs
      · exact keeps s hs
      · rw [List.mem_singleton.mp hs]
        simp [Keeps, successor]
    · rw [← List.append_assoc] at made
      obtain ⟨rfl, -⟩ := List.append_inj' made rfl
      exact fun s hs => keeps s (List.mem_append_left _ hs)
  · obtain ⟨a, y⟩ := a
    have awayA : ∀ c ∈ xs, c.1 ≠ a := by
      intro c hc same
      have keys := rep.distinct
      simp only [List.append_assoc, List.map_append, List.nodup_append] at keys
      exact keys.2.2 _ (List.mem_map_of_mem hc) a (by simp) same
    have distinct' : ((xs ++ (a, y) :: after).map Prod.fst).Nodup := by
      have sub : (xs ++ (a, y) :: after).Sublist (xs ++ [(a, y)] ++ (p, x) :: after) := by simp
      exact (sub.map Prod.fst).nodup rep.distinct
    have absent : successor (xs ++ (a, y) :: after) p = none := by
      refine successor_none.mpr fun c hc same => ?_
      rcases List.mem_append.mp hc with hc | hc
      · exact apart _ (List.mem_map_of_mem (List.mem_append_left _ hc)) p (by simp) same
      · rcases List.mem_cons.mp hc with rfl | hc
        · exact apart _ (List.mem_map_of_mem (List.mem_append_right _ (List.mem_singleton_self _)))
            p (by simp) same
        · exact afterP c hc same
    obtain ⟨mid, left, rest⟩ := Seg.append_iff.mp rep.chain
    obtain ⟨rfl, n, cell, tail⟩ := rest
    rw [lastOf_append_singleton] at cell
    suffices Reads list (xs ++ [(a, y)] ++ (p, x) :: after) ∨ Reads list (xs ++ (a, y) :: after) by
      rcases this with reads | reads
      · left
        rw [reads.items]
        simp
      · right
        rw [reads.items]
        simp
    have first := tail.walk.first_eq
    have parts : [] ++ ListStore.next a n :: ((setNextStores (some a) n).tail ++
        setPreviousStores n (some a) ++
        [.current (some a), .previous p none, .next p none, .free p]) = finished ++ ahead := by
      rw [unlinkStores, cell, Option.map_some, Option.some.injEq] at stores
      rw [← stores]
      rfl
    refine rep.reads.switched (by simp) ?_ ?_ parts executed
    · intro between list₁ kept switched
      cases kept
      obtain ⟨d, cellA, rfl⟩ := Option.map_eq_some_iff.mp switched
      have reads : Reads start (xs ++ (a, y) :: (p, x) :: after) := by
        simpa using rep.reads
      exact reads.link cellA tail.walk distinct' fun c hc => rep.below c (by simp [hc])
    · have here : successor (xs ++ (a, y) :: after) a = some n := by
        rw [successor_append awayA, first]
      cases n <;> simp [setNextStores, setPreviousStores, Keeps, here, absent]

/-! ### The search for a node -/

variable {h : CellHeap Nat α} {comparable : α → Option Bool} {fuel : Nat} {first : Option Nat}

theorem findNode_some {p : Nat} {x : α} (found : findNode h comparable fuel first = some (some (p, x))) :
    (∃ c, h p = some c ∧ c.data = x) ∧ comparable x = some true := by
  induction fuel generalizing first with
  | zero => cases first <;> cases found
  | succ fuel ih =>
      cases first with
      | none => cases found
      | some q =>
          obtain ⟨node, cell, found⟩ := Option.bind_eq_some_iff.mp found
          split at found
          · cases found
          · next compare =>
            cases found
            exact ⟨⟨node, cell, rfl⟩, compare⟩
          · exact ih found

/-- `list_get_item` gives the datum of the node `list_remove_item` removes. -/
theorem getItemLoop_findNode : getItemLoop h comparable fuel first =
    (findNode h comparable fuel first).map (Option.map Prod.snd) := by
  induction fuel generalizing first with
  | zero => cases first <;> rfl
  | succ fuel ih =>
      cases first with
      | none => rfl
      | some p =>
          simp only [getItemLoop, findNode]
          cases h p with
          | none => rfl
          | some node =>
              simp only [Option.bind_eq_bind, Option.bind_some]
              cases comparable node.data with
              | none => rfl
              | some b =>
                  cases b with
                  | true => rfl
                  | false => exact ih

/-- On a list that can be walked the first datum that satisfies the comparison is found. -/
theorem findNode_walk {p : Nat} {x : α} (walk : Walk h first cells none)
    (found : findNode h comparable fuel first = some (some (p, x))) :
    ∃ before after, cells = before ++ (p, x) :: after ∧
      (∀ c ∈ before, comparable c.2 = some false) ∧ comparable x = some true := by
  induction fuel generalizing first cells with
  | zero => cases first <;> cases found
  | succ fuel ih =>
      cases cells with
      | nil =>
          cases walk
          cases found
      | cons c cells =>
          obtain ⟨q, y⟩ := c
          obtain ⟨rfl, n, prev, cell, rest⟩ := walk
          simp only [findNode, cell, Option.bind_eq_bind, Option.bind_some] at found
          split at found
          · cases found
          · next compare =>
            cases found
            exact ⟨[], cells, rfl, by simp, compare⟩
          · next differ =>
            obtain ⟨before, after, rfl, all, compare⟩ := ih rest found
            refine ⟨(q, y) :: before, after, rfl, ?_, compare⟩
            intro c hc
            rcases List.mem_cons.mp hc with rfl | hc
            · exact differ
            · exact all c hc

/-- The search of `list_remove_item` meets no freed node and no datum that cannot be
compared, and the neighbours of the node it finds are allocated. -/
def Removable (list : HeapList α) (comparable : α → Option Bool) : Prop :=
  match findNode list.nodes comparable list.brk list.root with
  | none => False
  | some none => True
  | some (some c) => ∀ node ∈ list.nodes c.1, (∀ q ∈ node.previous, (list.nodes q).isSome) ∧
      ∀ q ∈ node.next, (list.nodes q).isSome

instance (list : HeapList α) (comparable : α → Option Bool) : Decidable (Removable list comparable) := by
  unfold Removable
  generalize findNode list.nodes comparable list.brk list.root = found
  induction found using Option.casesOn with
  | none => infer_instance
  | some found => induction found using Option.casesOn <;> infer_instance

theorem update_allocated {p k : Nat} {c d : Cell Nat α} (cell : h p = some c) :
    (Function.update h p (some d) k).isSome = (h k).isSome := by
  by_cases same : k = p
  · rw [same, Function.update_self, cell]
    rfl
  · rw [Function.update_of_ne same]

/-- Writing two nodes needs both to be allocated, and they stay so. -/
theorem writeTwo_defined (f g : Cell Nat α → Cell Nat α) (p q : Nat) (r : Option (CellHeap Nat α))
    (hr : r = (h p).bind fun c => (Function.update h p (some (f c)) q).bind fun d =>
      some (Function.update (Function.update h p (some (f c))) q (some (g d)))) :
    (∀ h', r = some h' → ∀ k, (h' k).isSome = (h k).isSome) ∧
      ((∃ h', r = some h') ↔ (h p).isSome ∧ (h q).isSome) := by
  subst hr
  cases hp : h p with
  | none => simp
  | some c =>
      have kept : ∀ k, (Function.update h p (some (f c)) k).isSome = (h k).isSome :=
        fun k => update_allocated hp
      simp only [Option.bind_some, Option.isSome_some, true_and]
      rw [← kept q]
      cases hq : Function.update h p (some (f c)) q with
      | none => simp
      | some d =>
          refine ⟨?_, by simp⟩
          intro h' written k
          cases written
          exact (update_allocated hq).trans (kept k)

/-- The nodes `set_next` writes are allocated, and stay so. -/
theorem setNext_defined (node next : Option Nat) :
    (∀ h', setNext h node next = some h' → ∀ k, (h' k).isSome = (h k).isSome) ∧
      ((∃ h', setNext h node next = some h') ↔
        ∀ p ∈ node, (h p).isSome ∧ ∀ q ∈ next, (h q).isSome) := by
  cases node with
  | none => simp [setNext]
  | some p =>
      cases next with
      | none =>
          cases hp : h p with
          | none => simp [setNext, hp]
          | some c => simp [setNext, hp, update_allocated hp]
      | some q =>
          obtain ⟨kept, defined⟩ := writeTwo_defined (fun c => { c with next := some q })
            (fun d => { d with previous := some p }) p q _ rfl
          exact ⟨kept, defined.trans (by simp)⟩

/-- The nodes `set_previous` writes are allocated, and stay so. -/
theorem setPrevious_defined (node previous : Option Nat) :
    (∀ h', setPrevious h node previous = some h' → ∀ k, (h' k).isSome = (h k).isSome) ∧
      ((∃ h', setPrevious h node previous = some h') ↔
        ∀ p ∈ node, (h p).isSome ∧ ∀ q ∈ previous, (h q).isSome) := by
  cases node with
  | none => simp [setPrevious]
  | some p =>
      cases previous with
      | none =>
          cases hp : h p with
          | none => simp [setPrevious, hp]
          | some c => simp [setPrevious, hp, update_allocated hp]
      | some q =>
          obtain ⟨kept, defined⟩ := writeTwo_defined (fun c => { c with previous := some q })
            (fun d => { d with next := some p }) p q _ rfl
          exact ⟨kept, defined.trans (by simp)⟩

/-- Removing a node that is allocated needs its neighbours to be. -/
theorem unlink_defined {p : Nat} {c : Cell Nat α} (cell : list.nodes p = some c) :
    (∃ list', list.unlink p = some list') ↔ (∀ q ∈ c.previous, (list.nodes q).isSome) ∧
      ∀ q ∈ c.next, (list.nodes q).isSome := by
  obtain ⟨kept, next⟩ := setNext_defined (h := list.nodes) c.previous c.next
  constructor
  · rintro ⟨list', unlinked⟩
    simp only [unlink, cell, Option.bind_eq_bind, Option.bind_some] at unlinked
    obtain ⟨h₁, linked, unlinked⟩ := Option.bind_eq_some_iff.mp unlinked
    rw [setNext_keeps cell linked, Option.bind_some] at unlinked
    obtain ⟨h₂, linked₂, -⟩ := Option.bind_eq_some_iff.mp unlinked
    have previous := (setPrevious_defined c.next c.previous).2.mp ⟨h₂, linked₂⟩
    refine ⟨fun q hq => (next.mp ⟨h₁, linked⟩ q hq).1, fun q hq => ?_⟩
    exact (kept h₁ linked q).symm.trans (previous q hq).1
  · rintro ⟨atPrevious, atNext⟩
    obtain ⟨h₁, linked⟩ := next.mpr fun q hq => ⟨atPrevious q hq, atNext⟩
    have kept := kept h₁ linked
    obtain ⟨h₂, linked₂⟩ := (setPrevious_defined (h := h₁) c.next c.previous).2.mpr fun q hq =>
      ⟨(kept q).trans (atNext q hq), fun q hq => (kept q).trans (atPrevious q hq)⟩
    have cell₁ := setNext_keeps cell linked
    simp [unlink, cell, linked, cell₁, linked₂, setPrevious_keeps cell₁ linked₂]

theorem removable_iff : Removable list comparable ↔
    ∃ r, ListApi.removeItem list comparable = some r := by
  rw [show ListApi.removeItem list comparable =
    list.removeItemLoop comparable list.brk list.root from rfl, removeItemLoop_stores]
  unfold Removable
  cases found : findNode list.nodes comparable list.brk list.root with
  | none => simp
  | some c =>
      cases c with
      | none => simp
      | some c =>
          obtain ⟨p, x⟩ := c
          obtain ⟨⟨node, cell, -⟩, -⟩ := findNode_some found
          simp only [Option.bind_some, cell, Option.mem_some_iff, forall_eq', ← unlink_defined cell]
          simp

end

end HeapList

end Dserve
