import Mathlib.Algebra.Order.Ring.Nat
import Mathlib.Data.List.Basic

/-!
Streams over a block cipher.

A cipher turns one block after the other into as many bytes, and carries a state from each to the
next. A context holds that state and the bytes that do not make a block yet: `update` encrypts
the whole blocks there are and keeps the rest, `final` pads it. However the input is cut into
updates, the output is that of one update with all of it (`update_append`).
-/

/-- A cipher on blocks, with the state it carries from block to block and its padding. -/
structure BlockCipher (κ β : Type) where
  block : Nat
  pos : 0 < block
  encrypt : κ → List β → κ × List β
  pad : List β → List β
  length_encrypt : ∀ k x, (encrypt k x).2.length = block

namespace BlockCipher

variable {κ β : Type} (C : BlockCipher κ β)

/-- So many blocks from the front of the input. -/
def blocks : Nat → κ → List β → κ × List β
  | 0, k, _ => (k, [])
  | n + 1, k, xs =>
      let first := C.encrypt k (xs.take C.block)
      let rest := blocks n first.1 (xs.drop C.block)
      (rest.1, first.2 ++ rest.2)

/-- The bytes that are buffered are less than a block. -/
@[ext]
structure Context where
  chain : κ
  buffered : List β
  short : buffered.length < C.block

variable {C}

namespace Context

/-- How many whole blocks there are with more input. -/
def whole (c : C.Context) (xs : List β) : Nat := (c.buffered ++ xs).length / C.block

def update (c : C.Context) (xs : List β) : List β × C.Context :=
  ((C.blocks (c.whole xs) c.chain (c.buffered ++ xs)).2,
   { chain := (C.blocks (c.whole xs) c.chain (c.buffered ++ xs)).1
     buffered := (c.buffered ++ xs).drop (c.whole xs * C.block)
     short := by
       rw [List.length_drop, whole, Nat.mul_comm, ← Nat.mod_eq_sub_mul_div]
       exact Nat.mod_lt _ C.pos })

def final (c : C.Context) : List β := (C.encrypt c.chain (C.pad c.buffered)).2

/-- What a whole input becomes. -/
def encryption (c : C.Context) (xs : List β) : List β := (c.update xs).1 ++ (c.update xs).2.final

end Context

/-! ### Blocks -/

variable {k : κ} {xs ys : List β}

theorem length_blocks (n : Nat) : (C.blocks n k xs).2.length = n * C.block := by
  induction n generalizing k xs with
  | zero => rw [Nat.zero_mul]; rfl
  | succ n ih =>
      rw [blocks, List.length_append, C.length_encrypt, ih, Nat.succ_mul, Nat.add_comm]

/-- Only the blocks that are encrypted are read. -/
theorem blocks_append {n : Nat} (enough : n * C.block ≤ xs.length) :
    C.blocks n k (xs ++ ys) = C.blocks n k xs := by
  induction n generalizing k xs with
  | zero => rfl
  | succ n ih =>
      rw [Nat.succ_mul] at enough
      have one : C.block ≤ xs.length := by omega
      have rest : n * C.block ≤ (xs.drop C.block).length := by
        rw [List.length_drop]
        omega
      simp only [blocks, List.take_append_of_le_length one, List.drop_append_of_le_length one,
        ih rest]

theorem blocks_add (n m : Nat) : C.blocks (n + m) k xs =
    ((C.blocks m (C.blocks n k xs).1 (xs.drop (n * C.block))).1,
     (C.blocks n k xs).2 ++ (C.blocks m (C.blocks n k xs).1 (xs.drop (n * C.block))).2) := by
  induction n generalizing k xs with
  | zero => simp [blocks]
  | succ n ih =>
      have behind : xs.drop ((n + 1) * C.block) = (xs.drop C.block).drop (n * C.block) := by
        rw [List.drop_drop, Nat.succ_mul, Nat.add_comm]
      rw [Nat.add_right_comm, blocks, ih, blocks, behind, List.append_assoc]

/-! ### Updates -/

namespace Context

variable (c : C.Context)

theorem update_output (xs : List β) :
    (c.update xs).1 = (C.blocks (c.whole xs) c.chain (c.buffered ++ xs)).2 := rfl

theorem update_chain (xs : List β) :
    (c.update xs).2.chain = (C.blocks (c.whole xs) c.chain (c.buffered ++ xs)).1 := rfl

theorem update_buffered (xs : List β) :
    (c.update xs).2.buffered = (c.buffered ++ xs).drop (c.whole xs * C.block) := rfl

theorem length_update (xs : List β) :
    (c.update xs).1.length = (c.buffered.length + xs.length) / C.block * C.block := by
  rw [update_output, length_blocks, whole, List.length_append]

theorem length_final : c.final.length = C.block := C.length_encrypt _ _

theorem update_nil : c.update [] = ([], c) := by
  have none_whole : c.whole [] = 0 := by
    rw [whole, List.append_nil]
    exact Nat.div_eq_of_lt c.short
  apply Prod.ext
  · rw [update_output, none_whole]
    rfl
  · apply Context.ext
    · rw [update_chain, none_whole]
      rfl
    · rw [update_buffered, none_whole, Nat.zero_mul, List.append_nil]
      rfl

/-- Two updates are one with both inputs. -/
theorem update_append (xs ys : List β) : c.update (xs ++ ys) =
    ((c.update xs).1 ++ ((c.update xs).2.update ys).1, ((c.update xs).2.update ys).2) := by
  have covered : c.whole xs * C.block ≤ (c.buffered ++ xs).length := Nat.div_mul_le_self _ _
  have behind : (c.buffered ++ (xs ++ ys)).drop (c.whole xs * C.block) =
      (c.update xs).2.buffered ++ ys := by
    rw [← List.append_assoc, List.drop_append_of_le_length covered, update_buffered]
  have count : c.whole (xs ++ ys) = c.whole xs + (c.update xs).2.whole ys := by
    have size : (c.buffered ++ (xs ++ ys)).length =
        ((c.update xs).2.buffered ++ ys).length + c.whole xs * C.block := by
      rw [← behind, List.length_drop, ← List.append_assoc, List.length_append]
      omega
    rw [whole, size, Nat.add_mul_div_right _ _ C.pos, Nat.add_comm]
    rfl
  have front : C.blocks (c.whole xs) c.chain (c.buffered ++ (xs ++ ys)) =
      C.blocks (c.whole xs) c.chain (c.buffered ++ xs) := by
    rw [← List.append_assoc, blocks_append covered]
  have run : C.blocks (c.whole (xs ++ ys)) c.chain (c.buffered ++ (xs ++ ys)) =
      (((c.update xs).2.update ys).2.chain, (c.update xs).1 ++ ((c.update xs).2.update ys).1) := by
    rw [count, blocks_add, front, behind]
    rfl
  apply Prod.ext
  · rw [update_output, run]
  · apply Context.ext
    · rw [update_chain, run]
    · rw [update_buffered, count, Nat.add_mul, ← List.drop_drop, behind]
      rfl

end Context

end BlockCipher
