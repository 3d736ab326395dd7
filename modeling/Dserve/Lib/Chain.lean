import Mathlib.Logic.Function.Basic
import Mathlib.Data.List.Nodup

/-!
Doubly linked chains in a heap of cells.

`Seg h prev first cells next` says that following `next` from `first` visits the
given cells (address and datum), that the first of them points back to `prev`,
that consecutive cells point at each other, and that the last one points on to
`next`. A whole chain starts with no predecessor and ends with no successor.

The two facts the list operations rest on are `Seg.append_iff`, which cuts a
chain at any place, and `Seg.frame`, which carries a segment to a heap that has
the same cells at its addresses. `Seg.snoc` and `Seg.unlink` are the two shape
changes: a cell linked behind the last one, and a cell with a predecessor taken
out.

`Walk` is what a traversal sees of a chain: the `next` of its cells and not their
`previous`. It also holds between the stores of a change.
-/

/-- A cell of a doubly linked chain. -/
structure Cell (ι α : Type) where
  next : Option ι
  previous : Option ι
  data : α

/-- A heap: the allocated cells, by address. -/
abbrev CellHeap (ι α : Type) := ι → Option (Cell ι α)

namespace Chain

variable {ι α : Type}

/-- A doubly linked segment from `first` to `next`, entered from `prev`. -/
def Seg (h : CellHeap ι α) : Option ι → Option ι → List (ι × α) → Option ι → Prop
  | _, first, [], next => first = next
  | prev, first, (p, x) :: cells, next =>
      first = some p ∧ ∃ n, h p = some ⟨n, prev, x⟩ ∧ Seg h (some p) n cells next

/-- The address a segment's successor points back to. -/
def lastOf (prev : Option ι) (cells : List (ι × α)) : Option ι :=
  match cells.getLast? with
  | none => prev
  | some c => some c.1

@[simp] theorem lastOf_nil (prev : Option ι) : lastOf prev ([] : List (ι × α)) = prev := rfl

@[simp] theorem lastOf_append_singleton (prev : Option ι) (cells : List (ι × α)) (c : ι × α) :
    lastOf prev (cells ++ [c]) = some c.1 := by
  simp [lastOf]

@[simp] theorem lastOf_cons (prev : Option ι) (c : ι × α) (cells : List (ι × α)) :
    lastOf prev (c :: cells) = lastOf (some c.1) cells := by
  cases cells with
  | nil => rfl
  | cons d cells => simp [lastOf, List.getLast?_cons]

/-- A segment is cut at any place. -/
theorem Seg.append_iff {h : CellHeap ι α} {prev first next : Option ι} {xs ys : List (ι × α)} :
    Seg h prev first (xs ++ ys) next ↔
      ∃ mid, Seg h prev first xs mid ∧ Seg h (lastOf prev xs) mid ys next := by
  induction xs generalizing prev first with
  | nil =>
      constructor
      · intro seg
        exact ⟨first, rfl, seg⟩
      · rintro ⟨mid, rfl, seg⟩
        exact seg
  | cons c xs ih =>
      obtain ⟨p, x⟩ := c
      simp only [List.cons_append, Seg, lastOf_cons]
      constructor
      · rintro ⟨hfirst, n, cell, seg⟩
        obtain ⟨mid, left, right⟩ := ih.mp seg
        exact ⟨mid, ⟨hfirst, n, cell, left⟩, right⟩
      · rintro ⟨mid, ⟨hfirst, n, cell, left⟩, right⟩
        exact ⟨hfirst, n, cell, ih.mpr ⟨mid, left, right⟩⟩

/-- A segment only depends on the cells at its own addresses. -/
theorem Seg.frame {h h' : CellHeap ι α} {prev first next : Option ι} {cells : List (ι × α)}
    (same : ∀ c ∈ cells, h' c.1 = h c.1) (seg : Seg h prev first cells next) :
    Seg h' prev first cells next := by
  induction cells generalizing prev first with
  | nil => exact seg
  | cons c cells ih =>
      obtain ⟨p, x⟩ := c
      obtain ⟨hfirst, n, cell, rest⟩ := seg
      have head : h' p = h p := same (p, x) List.mem_cons_self
      exact ⟨hfirst, n, head.trans cell,
        ih (fun c hc => same c (List.mem_cons_of_mem _ hc)) rest⟩

/-- Every address of a segment is allocated. -/
theorem Seg.allocated {h : CellHeap ι α} {prev first next : Option ι} {cells : List (ι × α)}
    (seg : Seg h prev first cells next) {c : ι × α} (hc : c ∈ cells) :
    ∃ n q, h c.1 = some ⟨n, q, c.2⟩ := by
  induction cells generalizing prev first with
  | nil => cases hc
  | cons d cells ih =>
      obtain ⟨p, x⟩ := d
      obtain ⟨-, n, cell, rest⟩ := seg
      rcases List.mem_cons.mp hc with rfl | hc
      · exact ⟨n, prev, cell⟩
      · exact ih rest hc

/-- The first address of a segment, or its successor when it is empty. -/
theorem Seg.first_eq {h : CellHeap ι α} {prev first next : Option ι} {cells : List (ι × α)}
    (seg : Seg h prev first cells next) :
    first = match cells with | [] => next | c :: _ => some c.1 := by
  cases cells with
  | nil => exact seg
  | cons c cells => exact seg.1

/-- A walk from `first` to `last` that follows `next` only. -/
def Walk (h : CellHeap ι α) : Option ι → List (ι × α) → Option ι → Prop
  | first, [], last => first = last
  | first, (p, x) :: cells, last =>
      first = some p ∧ ∃ n q, h p = some ⟨n, q, x⟩ ∧ Walk h n cells last

/-- A segment can be walked. -/
theorem Seg.walk {h : CellHeap ι α} {prev first next : Option ι} {cells : List (ι × α)}
    (seg : Seg h prev first cells next) : Walk h first cells next := by
  induction cells generalizing prev first with
  | nil => exact seg
  | cons c cells ih =>
      obtain ⟨hfirst, n, cell, rest⟩ := seg
      exact ⟨hfirst, n, prev, cell, ih rest⟩

theorem Walk.append_iff {h : CellHeap ι α} {first last : Option ι} {xs ys : List (ι × α)} :
    Walk h first (xs ++ ys) last ↔ ∃ mid, Walk h first xs mid ∧ Walk h mid ys last := by
  induction xs generalizing first with
  | nil =>
      constructor
      · intro walk
        exact ⟨first, rfl, walk⟩
      · rintro ⟨mid, rfl, walk⟩
        exact walk
  | cons c xs ih =>
      constructor
      · rintro ⟨hfirst, n, q, cell, walk⟩
        obtain ⟨mid, left, right⟩ := ih.mp walk
        exact ⟨mid, ⟨hfirst, n, q, cell, left⟩, right⟩
      · rintro ⟨mid, ⟨hfirst, n, q, cell, left⟩, right⟩
        exact ⟨hfirst, n, q, cell, ih.mpr ⟨mid, left, right⟩⟩

/-- A walk does not see the `previous` of its cells. -/
theorem Walk.frame {h h' : CellHeap ι α} {first last : Option ι} {cells : List (ι × α)}
    (same : ∀ c ∈ cells, ∀ d, h c.1 = some d → ∃ q, h' c.1 = some { d with previous := q })
    (walk : Walk h first cells last) : Walk h' first cells last := by
  induction cells generalizing first with
  | nil => exact walk
  | cons c cells ih =>
      obtain ⟨hfirst, n, q, cell, rest⟩ := walk
      obtain ⟨q', head⟩ := same c List.mem_cons_self _ cell
      exact ⟨hfirst, n, q', head, ih (fun c hc => same c (List.mem_cons_of_mem _ hc)) rest⟩

/-- Where a walk over the cells goes from `p`. -/
def successor [DecidableEq ι] : List (ι × α) → ι → Option (Option ι)
  | [], _ => none
  | c :: cells, p => if c.1 = p then some (cells.head?.map Prod.fst) else successor cells p

theorem successor_none [DecidableEq ι] {cells : List (ι × α)} {p : ι} :
    successor cells p = none ↔ ∀ c ∈ cells, c.1 ≠ p := by
  induction cells with
  | nil => simp [successor]
  | cons c cells ih =>
      by_cases hc : c.1 = p
      · simp [successor, hc]
      · simp [successor, hc, ih]

theorem successor_append [DecidableEq ι] {xs ys : List (ι × α)} {p : ι} {x : α}
    (away : ∀ c ∈ xs, c.1 ≠ p) :
    successor (xs ++ (p, x) :: ys) p = some (ys.head?.map Prod.fst) := by
  induction xs with
  | nil => simp [successor]
  | cons c xs ih =>
      rw [List.cons_append, successor, if_neg (away c List.mem_cons_self)]
      exact ih fun d hd => away d (List.mem_cons_of_mem _ hd)

/-- The first address of a walk to the end. -/
theorem Walk.first_eq {h : CellHeap ι α} {first : Option ι} {cells : List (ι × α)}
    (walk : Walk h first cells none) : first = cells.head?.map Prod.fst := by
  cases cells with
  | nil => exact walk
  | cons c cells => exact walk.1

theorem Walk.successor_eq [DecidableEq ι] {h : CellHeap ι α} {first n : Option ι}
    {cells : List (ι × α)} {p : ι} {d : Cell ι α} (walk : Walk h first cells none)
    (next : successor cells p = some n) (cell : h p = some d) : d.next = n := by
  induction cells generalizing first with
  | nil => cases next
  | cons c cells ih =>
      obtain ⟨-, m, q, found, rest⟩ := walk
      rw [successor] at next
      split at next
      · next same =>
        rw [same, cell] at found
        cases found
        cases next
        exact rest.first_eq
      · exact ih rest next

/-- Linking a fresh cell `p` behind the last cell `a` of a chain. -/
theorem Seg.snoc [DecidableEq ι] {h : CellHeap ι α} {prev first : Option ι} {xs : List (ι × α)} {a p : ι}
    {x y : α} {d : Cell ι α} (seg : Seg h prev first (xs ++ [(a, x)]) none)
    (distinct : ((xs ++ [(a, x)]).map Prod.fst).Nodup) (cell : h a = some d)
    (fresh : ∀ c ∈ xs ++ [(a, x)], c.1 ≠ p) :
    Seg (Function.update (Function.update h a (some { d with next := some p })) p
      (some ⟨none, some a, y⟩)) prev first (xs ++ [(a, x)] ++ [(p, y)]) none := by
  obtain ⟨mid, left, right⟩ := Seg.append_iff.mp seg
  obtain ⟨rfl, n, found, last⟩ := right
  rw [cell] at found
  cases found
  have ap : a ≠ p := fresh (a, x) (by simp)
  have leftFrame : ∀ c ∈ xs, Function.update (Function.update h a
      (some { next := some p, previous := lastOf prev xs, data := x })) p
      (some ⟨none, some a, y⟩) c.1 = h c.1 := by
    intro c hc
    have hcp : c.1 ≠ p := fresh c (by simp [hc])
    have hca : c.1 ≠ a := by
      rintro rfl
      rw [List.map_append, List.nodup_append] at distinct
      exact distinct.2.2 _ (List.mem_map_of_mem hc) _ (by simp) rfl
    simp [Function.update_of_ne hcp, Function.update_of_ne hca]
  rw [List.append_assoc]
  refine Seg.append_iff.mpr ⟨some a, left.frame leftFrame, ?_⟩
  exact ⟨rfl, some p, by simp [Function.update_of_ne ap], rfl, none, by simp, rfl⟩

/-- Taking out a cell `p` that has a predecessor `a`: `a` points on to the
successor of `p`, which points back to `a`, and `p` is freed. The heap `h'` is
given by what it holds, so that any order of writes that has this effect will
do. -/
theorem Seg.unlink {h h' : CellHeap ι α} {prev first : Option ι} {xs ys : List (ι × α)}
    {a p : ι} {x y : α}
    (seg : Seg h prev first (xs ++ (a, x) :: (p, y) :: ys) none)
    (distinct : ((xs ++ (a, x) :: (p, y) :: ys).map Prod.fst).Nodup)
    (atA : ∀ d, h a = some d → ∀ e, h p = some e → h' a = some { d with next := e.next })
    (atNext : ∀ q z zs, ys = (q, z) :: zs → ∀ d, h q = some d →
      h' q = some { d with previous := some a })
    (elsewhere : ∀ k, k ≠ a → k ≠ p → (∀ q z zs, ys = (q, z) :: zs → k ≠ q) → h' k = h k) :
    Seg h' prev first (xs ++ (a, x) :: ys) none := by
  obtain ⟨mid, left, right⟩ := Seg.append_iff.mp seg
  obtain ⟨rfl, n, cellA, hn, m, cellP, rest⟩ := right
  rw [List.map_append, List.nodup_append] at distinct
  obtain ⟨-, distinctR, disjoint⟩ := distinct
  simp only [List.map_cons, List.nodup_cons, List.mem_cons, not_or] at distinctR
  obtain ⟨⟨-, aNotin⟩, pNotin, distinctY⟩ := distinctR
  refine Seg.append_iff.mpr ⟨some a, left.frame fun c hc => ?_, rfl, m, ?_, ?_⟩
  · have hmem := List.mem_map_of_mem (f := Prod.fst) hc
    refine elsewhere _ (fun e => disjoint _ hmem _ (by simp) e)
      (fun e => disjoint _ hmem p (by simp) e) fun q z zs hys e => ?_
    exact disjoint _ hmem q (by simp [hys]) e
  · rw [atA _ cellA _ cellP]
  · -- The rest of the chain: its first cell now points back to `a`.
    cases ys with
    | nil => exact rest
    | cons c ys =>
        obtain ⟨q, z⟩ := c
        obtain ⟨rfl, k, cellQ, tail⟩ := rest
        refine ⟨rfl, k, by rw [atNext q z ys rfl _ cellQ], tail.frame fun c hc => ?_⟩
        have hmem := List.mem_map_of_mem (f := Prod.fst) hc
        simp only [List.map_cons, List.mem_cons, not_or] at aNotin pNotin distinctY
        refine elsewhere _ (fun e => aNotin.2 (e ▸ hmem)) (fun e => pNotin.2 (e ▸ hmem)) ?_
        rintro q' z' zs' heq e
        cases heq
        exact (List.nodup_cons.mp distinctY).1 (e ▸ hmem)

end Chain
