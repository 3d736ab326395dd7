import Dserve.Lib.BlockCipher
import Mathlib.Data.List.Range

/-!
`encrypt.c`: `encrypt_data`.

The data is given to the cipher a hundred bytes at a time. `ol` is where the next bytes go to in
`ret`, and the next input is read from the same index of the data; after a hundred bytes that is
where the input goes on only if the cipher has put out a hundred bytes as well. So a block is
encrypted when one call takes all of it, or when the block length of the cipher divides a hundred;
that of AES does not (`encryptData_iff`).
-/

namespace Dserve

/-- `block_size` in `encrypt_data`. -/
def blockSize : Nat := 100

variable {κ : Type} {C : BlockCipher κ UInt8}

/-- The variables of `encrypt_data`: what is in `ret`, which ends at `ol`, the context, and the
indices of the data that were given to the cipher. -/
structure Encrypting (C : BlockCipher κ UInt8) where
  ctx : C.Context
  ret : List UInt8
  fed : List Nat

namespace Encrypting

def ol (s : Encrypting C) : Nat := s.ret.length

/-- `EVP_EncryptUpdate(&ctx, &ret[ol], &tmp, &data[ol], n)` and `ol += tmp`. Writing past
`alloc_size` is undefined behaviour. -/
def update (alloc_size : Nat) (data : Nat → UInt8) (n : Nat) (s : Encrypting C) :
    Option (Encrypting C) :=
  let out := s.ctx.update ((List.range' s.ol n).map data)
  if s.ol + out.1.length ≤ alloc_size then
    some ⟨out.2, s.ret ++ out.1, s.fed ++ List.range' s.ol n⟩
  else none

/-- The loop over the whole chunks. -/
def loop (alloc_size : Nat) (data : Nat → UInt8) : Nat → Encrypting C → Option (Encrypting C)
  | 0, s => some s
  | n + 1, s => (s.update alloc_size data blockSize).bind (loop alloc_size data n)

/-- The call for what is left, if there is any. -/
def remainder (alloc_size : Nat) (data : Nat → UInt8) (size : Nat) (s : Encrypting C) :
    Option (Encrypting C) :=
  if size % blockSize ≠ 0 then s.update alloc_size data (size % blockSize) else some s

/-- `EVP_EncryptFinal` -/
def final (alloc_size : Nat) (s : Encrypting C) : Option (List UInt8) :=
  if s.ol + s.ctx.final.length ≤ alloc_size then some (s.ret ++ s.ctx.final) else none

end Encrypting

/-- `encrypt_data`: the indices given to the cipher, and what is returned. `data` are the bytes from
an address on, the first `size` of them the block. No memory is had for a size that makes
`alloc_size` overflow. -/
def encryptData (malloc : Bool) (ctx : C.Context) (data : Nat → UInt8) (size : Nat) :
    Option (List Nat × Option (List UInt8)) :=
  let alloc_size := size + C.block
  if malloc then do
    let s ← Encrypting.loop alloc_size data (size / blockSize) ⟨ctx, [], []⟩
    let s ← s.remainder alloc_size data size
    let ret ← s.final alloc_size
    some (s.fed, some ret)
  else some ([], none)

/-- The cipher gets the block, each byte once and in order, and the encryption of the block is
returned. -/
def Encrypts (malloc : Bool) (ctx : C.Context) (data : Nat → UInt8) (size : Nat) : Prop :=
  encryptData malloc ctx data size =
    some (List.range size, some (ctx.encryption ((List.range size).map data)))

namespace Encrypting

variable {ctx : C.Context} {data : Nat → UInt8} {alloc_size size n : Nat} {s s' : Encrypting C}

/-- What was put out, and what is buffered, come from what was given to the cipher. -/
structure From (ctx : C.Context) (data : Nat → UInt8) (s : Encrypting C) : Prop where
  ret : s.ret = (ctx.update (s.fed.map data)).1
  ctx : s.ctx = (ctx.update (s.fed.map data)).2

theorem from_start : From ctx data ⟨ctx, [], []⟩ := by
  constructor
  · rw [List.map_nil, ctx.update_nil]
  · rw [List.map_nil, ctx.update_nil]

theorem From.ol (origin : From ctx data s) :
    s.ol = (ctx.buffered.length + s.fed.length) / C.block * C.block := by
  rw [Encrypting.ol, origin.ret, ctx.length_update, List.length_map]

theorem From.update (origin : From ctx data s) (n : Nat) : From ctx data
    ⟨(s.ctx.update ((List.range' s.ol n).map data)).2,
      s.ret ++ (s.ctx.update ((List.range' s.ol n).map data)).1, s.fed ++ List.range' s.ol n⟩ := by
  constructor
  · rw [List.map_append, ctx.update_append, origin.ret, origin.ctx]
  · rw [List.map_append, ctx.update_append, origin.ctx]

/-- A call that stays inside `ret`. -/
theorem update_eq (h : s.update alloc_size data n = some s') :
    s' = ⟨(s.ctx.update ((List.range' s.ol n).map data)).2,
      s.ret ++ (s.ctx.update ((List.range' s.ol n).map data)).1, s.fed ++ List.range' s.ol n⟩ := by
  simp only [Encrypting.update] at h
  split at h
  · exact (Option.some.inj h).symm
  · cases h

theorem update_from (origin : From ctx data s) (h : s.update alloc_size data n = some s') :
    From ctx data s' := by
  rw [update_eq h]
  exact origin.update n

theorem update_fed (h : s.update alloc_size data n = some s') :
    s'.fed = s.fed ++ List.range' s.ol n := by
  rw [update_eq h]

/-- The call is made when there is room for all that was put out until then. -/
theorem update_some (origin : From ctx data s)
    (room : (ctx.buffered.length + (s.fed.length + n)) / C.block * C.block ≤ alloc_size) :
    ∃ s', s.update alloc_size data n = some s' := by
  have next : s.ol + (s.ctx.update ((List.range' s.ol n).map data)).1.length =
      (ctx.buffered.length + (s.fed ++ List.range' s.ol n).length) / C.block * C.block :=
    List.length_append.symm.trans (origin.update n).ol
  rw [List.length_append, List.length_range'] at next
  exact ⟨_, if_pos (next ▸ room)⟩

/-! ### Runs -/

theorem loop_from {n : Nat} (origin : From ctx data s) (h : s.loop alloc_size data n = some s') :
    From ctx data s' ∧ s'.fed.length = s.fed.length + n * blockSize ∧ s.fed <+: s'.fed := by
  induction n generalizing s with
  | zero =>
      cases h
      exact ⟨origin, by rw [Nat.zero_mul, Nat.add_zero], List.prefix_rfl⟩
  | succ n ih =>
      obtain ⟨s₁, one, rest⟩ := Option.bind_eq_some_iff.mp h
      obtain ⟨origin', long, front⟩ := ih (update_from origin one) rest
      rw [update_fed one] at long front
      refine ⟨origin', ?_, (List.prefix_append _ _).trans front⟩
      rw [long, List.length_append, List.length_range', Nat.succ_mul]
      omega

theorem remainder_from (origin : From ctx data s)
    (h : s.remainder alloc_size data size = some s') :
    From ctx data s' ∧ s'.fed.length = s.fed.length + size % blockSize ∧ s.fed <+: s'.fed := by
  rw [remainder] at h
  split at h
  · refine ⟨update_from origin h, ?_, ?_⟩
    · rw [update_fed h, List.length_append, List.length_range']
    · rw [update_fed h]
      exact List.prefix_append _ _
  · next whole =>
    cases h
    refine ⟨origin, ?_, List.prefix_rfl⟩
    omega

/-- A call goes on with the block when what was put out is what was given to the cipher. -/
theorem update_goes_on {m : Nat} (origin : From ctx data s) (fed : s.fed = List.range m)
    (start : C.block ∣ m)
    (room : (ctx.buffered.length + (m + n)) / C.block * C.block ≤ alloc_size) :
    ∃ s', s.update alloc_size data n = some s' ∧ From ctx data s' ∧ s'.fed = List.range (m + n) := by
  have length : s.fed.length = m := by rw [fed, List.length_range]
  obtain ⟨s', h⟩ := update_some origin (length.symm ▸ room)
  have next : s.ol = m := by
    obtain ⟨k, rfl⟩ := start
    rw [origin.ol, length, Nat.add_mul_div_left _ _ C.pos, Nat.div_eq_of_lt ctx.short, Nat.zero_add,
      Nat.mul_comm]
  refine ⟨s', h, update_from origin h, ?_⟩
  have joined := List.range'_append_1 (s := 0) (m := m) (n := n)
  rw [Nat.zero_add] at joined
  rw [update_fed h, fed, next, List.range_eq_range', List.range_eq_range', joined]

theorem loop_goes_on {n m : Nat} (origin : From ctx data s) (fed : s.fed = List.range m)
    (starts : ∀ j < n, C.block ∣ m + j * blockSize)
    (room : (ctx.buffered.length + (m + n * blockSize)) / C.block * C.block ≤ alloc_size) :
    ∃ s', s.loop alloc_size data n = some s' ∧ From ctx data s' ∧
      s'.fed = List.range (m + n * blockSize) := by
  induction n generalizing m s with
  | zero => exact ⟨s, rfl, origin, by rw [fed, Nat.zero_mul, Nat.add_zero]⟩
  | succ n ih =>
      have start : C.block ∣ m := by
        have first := starts 0 (Nat.succ_pos n)
        rwa [Nat.zero_mul, Nat.add_zero] at first
      have sum : m + (n + 1) * blockSize = m + blockSize + n * blockSize := by
        rw [Nat.succ_mul]
        omega
      rw [sum] at room ⊢
      have first : (ctx.buffered.length + (m + blockSize)) / C.block * C.block ≤ alloc_size :=
        (Nat.mul_le_mul_right _ (Nat.div_le_div_right (by omega))).trans room
      obtain ⟨s₁, one, origin₁, fed₁⟩ := update_goes_on origin fed start first
      have later : ∀ j < n, C.block ∣ m + blockSize + j * blockSize := by
        intro j hj
        have next := starts (j + 1) (Nat.succ_lt_succ hj)
        rw [Nat.succ_mul] at next
        rwa [Nat.add_assoc, Nat.add_comm blockSize]
      obtain ⟨s', rest, found⟩ := ih origin₁ fed₁ later room
      exact ⟨s', Option.bind_eq_some_iff.mpr ⟨s₁, one, rest⟩, found⟩

/-- What a call is given starts where the bytes that were put out end. -/
theorem fed_next (h : s.update alloc_size data n = some s') (some_bytes : 0 < n) :
    s.fed ++ [s.ol] <+: s'.fed := by
  obtain ⟨n, rfl⟩ := Nat.exists_eq_succ_of_ne_zero (Nat.ne_of_gt some_bytes)
  rw [update_fed h, List.range'_succ]
  exact ⟨_, by rw [List.append_assoc]; rfl⟩

end Encrypting

section

variable {ctx : C.Context} {data : Nat → UInt8} {malloc : Bool} {size : Nat}

open Encrypting

/-- Whatever the cipher was given, as many bytes as the block has, their encryption is returned. -/
theorem encryptData_fed {fed : List Nat} {ret : Option (List UInt8)}
    (h : encryptData true ctx data size = some (fed, ret)) :
    ret = some (ctx.encryption (fed.map data)) ∧ fed.length = size ∧
      (ctx.buffered.length + size) / C.block * C.block ≤ size := by
  simp only [encryptData, if_true, Option.bind_eq_bind, Option.bind_eq_some_iff, Option.some.injEq,
    Prod.mk.injEq] at h
  obtain ⟨s₁, looped, s₂, rest, out, ended, rfl, rfl⟩ := h
  obtain ⟨origin₁, long₁, -⟩ := loop_from from_start looped
  obtain ⟨origin₂, long₂, -⟩ := remainder_from origin₁ rest
  have long : s₂.fed.length = size := by
    rw [long₂, long₁, List.length_nil, Nat.zero_add, Nat.mul_comm]
    exact Nat.div_add_mod size blockSize
  rw [final] at ended
  split at ended
  · next room =>
    rw [s₂.ctx.length_final, origin₂.ol, long] at room
    refine ⟨?_, long, Nat.le_of_add_le_add_right room⟩
    rw [← ended, origin₂.ret, origin₂.ctx]
    rfl
  · cases ended

/-- With more than one call, the second is given the byte behind the first chunk only if a hundred
bytes were put out by then. -/
theorem block_dvd {ret : Option (List UInt8)} (long : blockSize < size)
    (h : encryptData true ctx data size = some (List.range size, ret)) : C.block ∣ blockSize := by
  simp only [encryptData, if_true, Option.bind_eq_bind, Option.bind_eq_some_iff, Option.some.injEq,
    Prod.mk.injEq] at h
  obtain ⟨s₁, looped, s₂, rest, -, -, fed, -⟩ := h
  obtain ⟨k, chunks⟩ : ∃ k, size / blockSize = k + 1 :=
    Nat.exists_eq_succ_of_ne_zero (Nat.ne_of_gt (Nat.div_pos (Nat.le_of_lt long) (by decide)))
  rw [chunks] at looped
  obtain ⟨s₀, first, looped⟩ := Option.bind_eq_some_iff.mp looped
  have origin₀ := update_from from_start first
  have fed₀ : s₀.fed = List.range' 0 blockSize := update_fed first
  have second : s₀.fed ++ [s₀.ol] <+: s₂.fed := by
    cases k with
    | zero =>
        cases looped
        have left : size % blockSize ≠ 0 := by
          have divided := Nat.div_add_mod size blockSize
          rw [chunks] at divided
          omega
        rw [remainder, if_pos left] at rest
        exact fed_next rest (Nat.pos_of_ne_zero left)
    | succ k =>
        obtain ⟨s₃, second, looped⟩ := Option.bind_eq_some_iff.mp looped
        obtain ⟨origin₁, -, front₁⟩ := loop_from (update_from origin₀ second) looped
        obtain ⟨-, -, front₂⟩ := remainder_from origin₁ rest
        exact (fed_next second (by decide)).trans (front₁.trans front₂)
  have length : s₀.fed.length = blockSize := by rw [fed₀, List.length_range']
  have there : (s₀.fed ++ [s₀.ol])[blockSize]? = some s₀.ol := by
    rw [List.getElem?_append_right (Nat.le_of_eq length), length, Nat.sub_self]
    rfl
  have found : (List.range size)[blockSize]? = some s₀.ol := by
    obtain ⟨more, joined⟩ := second
    have within : blockSize < (s₀.fed ++ [s₀.ol]).length := by
      rw [List.length_append, length]
      exact Nat.lt_succ_self _
    rw [← fed, ← joined, List.getElem?_append_left within, there]
  rw [List.getElem?_range long] at found
  rw [Option.some.inj found, origin₀.ol]
  exact Nat.dvd_mul_left _ _

/-- AES has blocks of 16 bytes, so it is only right in one call. -/
theorem aes_short (aes : C.block = 16) (h : Encrypts true ctx data size) : size ≤ blockSize := by
  by_contra long
  have divides := block_dvd (Nat.lt_of_not_le long) h
  rw [aes] at divides
  exact absurd divides (by decide)

/-- When each call starts behind what was put out and there is room for that, the block is given
to the cipher. -/
theorem encryptData_goes_on (ctx : C.Context) (data : Nat → UInt8)
    (starts : size ≤ blockSize ∨ C.block ∣ blockSize)
    (room : (ctx.buffered.length + size) / C.block * C.block ≤ size) :
    ∃ ret, encryptData true ctx data size = some (List.range size, ret) := by
  have divided : size / blockSize * blockSize + size % blockSize = size := by
    rw [Nat.mul_comm]
    exact Nat.div_add_mod size blockSize
  have enough (n : Nat) (shorter : n ≤ size) :
      (ctx.buffered.length + n) / C.block * C.block ≤ size + C.block :=
    (Nat.mul_le_mul_right _ (Nat.div_le_div_right (by omega))).trans (room.trans (Nat.le_add_right _ _))
  have multiple (j : Nat) (within : j < size / blockSize ∨ j = size / blockSize ∧ size % blockSize ≠ 0) :
      C.block ∣ 0 + j * blockSize := by
    rcases starts with short | divides
    · have first : j = 0 := by
        simp only [blockSize] at divided within short
        omega
      rw [first, Nat.zero_mul]
      exact Nat.dvd_zero _
    · rw [Nat.zero_add]
      exact divides.mul_left j
  have start : From ctx data ⟨ctx, [], []⟩ := from_start
  obtain ⟨s₁, looped, origin₁, fed₁⟩ := loop_goes_on start rfl
    (fun j hj => multiple j (Or.inl hj)) (enough _ (by omega))
  rw [Nat.zero_add] at fed₁
  obtain ⟨s₂, rest, origin₂, fed₂⟩ : ∃ s₂, s₁.remainder (size + C.block) data size = some s₂ ∧
      From ctx data s₂ ∧ s₂.fed = List.range size := by
    rw [remainder]
    split
    · next left =>
      have start := multiple (size / blockSize) (Or.inr ⟨rfl, left⟩)
      rw [Nat.zero_add] at start
      have next := update_goes_on (n := size % blockSize) origin₁ fed₁ start (enough _ (by omega))
      rwa [divided] at next
    · refine ⟨s₁, rfl, origin₁, ?_⟩
      rw [fed₁]
      congr 1
      omega
  have ended : s₂.final (size + C.block) = some (s₂.ret ++ s₂.ctx.final) := by
    apply if_pos
    rw [s₂.ctx.length_final, origin₂.ol, fed₂, List.length_range]
    exact Nat.add_le_add_right room _
  refine ⟨some (s₂.ret ++ s₂.ctx.final), ?_⟩
  simp only [encryptData, if_true, looped, rest, ended, Option.bind_eq_bind, Option.bind_some, fed₂]

end

/-- `encrypt_data` gives the block to the cipher and returns its encryption exactly if there is
memory for it, one call takes all of the block or the block length of the cipher divides a
hundred, and what the context had buffered leaves room for it in `ret`; with nothing buffered it
does. -/
theorem encryptData_iff (malloc : Bool) (ctx : C.Context) (data : Nat → UInt8) (size : Nat) :
    Encrypts malloc ctx data size ↔ malloc = true ∧ (size ≤ blockSize ∨ C.block ∣ blockSize) ∧
      (ctx.buffered.length + size) / C.block * C.block ≤ size := by
  constructor
  · intro encrypts
    cases malloc with
    | false => simp [Encrypts, encryptData] at encrypts
    | true =>
        obtain ⟨-, -, room⟩ := encryptData_fed encrypts
        refine ⟨rfl, ?_, room⟩
        rcases Nat.lt_or_ge blockSize size with long | short
        · exact Or.inr (block_dvd long encrypts)
        · exact Or.inl short
  · rintro ⟨rfl, starts, room⟩
    obtain ⟨ret, run⟩ := encryptData_goes_on ctx data starts room
    obtain ⟨encrypted, -, -⟩ := encryptData_fed run
    rw [Encrypts, run, encrypted]

/-- Blocks of 16 bytes, each combined with the one before it as in CBC mode. -/
def chained : BlockCipher (List UInt8) UInt8 where
  block := 16
  pos := by decide
  encrypt k x := (List.ofFn fun i : Fin 16 => k.getD i 0 ^^^ x.getD i 0,
    List.ofFn fun i : Fin 16 => k.getD i 0 ^^^ x.getD i 0)
  pad x := x ++ List.replicate (16 - x.length) (UInt8.ofNat (16 - x.length))
  length_encrypt _ _ := List.length_ofFn

def chainedStart : chained.Context := ⟨List.replicate 16 0, [], by decide⟩

/-- Of 101 bytes the last is not given to the cipher; the one at index 96 is, for the second
time. -/
theorem last_byte_lost : ¬ Encrypts true chainedStart (fun i => UInt8.ofNat i) 101 ∧
    (encryptData true chainedStart (fun i => UInt8.ofNat i) 101).map Prod.fst =
      some (List.range 100 ++ [96]) := by
  have fed : (encryptData true chainedStart (fun i => UInt8.ofNat i) 101).map Prod.fst =
      some (List.range 100 ++ [96]) := by rfl
  refine ⟨fun encrypts => ?_, fed⟩
  rw [Encrypts] at encrypts
  rw [encrypts] at fed
  exact absurd fed (by decide)

end Dserve
