import Dserve.Layout

/-!
`transaction.c`: `set_transaction` and `set_transaction_data`, on the bytes of a transaction.

Both give `snprintf` one byte less than the field has, and `snprintf` keeps one of these for its
terminator: a name of `MAX_NAME_LEN - 1` characters loses its last one, and so does a text of
`MAX_DATA_LEN - 1`. `set_transaction_data` does not assign `payload.len`, which keeps the length of
an earlier message. `encoders_iff` says when the two leave what they are given.
-/

namespace Dserve

open Object (Place)

/-- The characters of a C string. -/
structure Chars where
  bytes : List UInt8
  clean : 0 ∉ bytes

/-- A name that has a place in `trx_id_t`. -/
structure Name extends Chars where
  fits : bytes.length ≤ MAX_NAME_LEN - 1

namespace TransactionBytes

/-- `bzero` of a member. -/
def clear (t : TransactionBytes) (f : Place) : TransactionBytes :=
  t.store f.offset (List.replicate f.width 0)

/-- `snprintf` and `vsnprintf` into a member, with the size they are given. -/
def print (t : TransactionBytes) (f : Place) (size : Nat) (s : Chars) : TransactionBytes :=
  t.store f.offset (s.bytes.take (size - 1) ++ [0])

/-- `set_transaction`; `text` is what the format and its arguments come to. -/
def setTransaction (dest : TransactionBytes) (command status : UInt8) (name text : Chars) :
    TransactionBytes :=
  let dest := dest.store TransactionField.command.offset (enumBytes command)
  let dest := dest.store TransactionField.status.offset (enumBytes status)
  let dest := clear dest TransactionField.id
  let dest := print dest TransactionField.id (MAX_NAME_LEN - 1) name
  let dest := clear dest TransactionField.data
  let dest := print dest TransactionField.data (MAX_DATA_LEN - 1) text
  dest.store TransactionField.len.offset
    (ushortBytes (strlen (dest.cells.drop TransactionField.data.offset)))

/-- What `set_transaction_data` answers when the data does not fit. -/
def tooBig : Chars where
  bytes := encode "Internal data error: data too is too big to handle".toList
  clean := by decide

/-- `set_transaction_data` -/
def setTransactionData (dest : TransactionBytes) (command status : UInt8) (name : Chars)
    (data : List UInt8) : TransactionBytes :=
  let dest := dest.store TransactionField.command.offset (enumBytes command)
  let dest := dest.store TransactionField.status.offset (enumBytes status)
  let dest := clear dest TransactionField.id
  let dest := print dest TransactionField.id (MAX_NAME_LEN - 1) name
  let dest := clear dest TransactionField.data
  if data.length > MAX_DATA_LEN then setTransaction dest command 2 name tooBig
  else dest.store TransactionField.data.offset data

end TransactionBytes

/-- The name, and the text as far as `payload_t` has place for it. -/
structure HoldsText (t : TransactionBytes) (name text : List UInt8) : Prop where
  id : cstring (t.load TransactionField.id) = some name
  data : cstring (t.load TransactionField.data) = some (text.take (MAX_DATA_LEN - 1))
  len : t.load TransactionField.len = ushortBytes (text.take (MAX_DATA_LEN - 1)).length

/-- The name, and the block with zeros after it. -/
structure HoldsBlock (t : TransactionBytes) (name block : List UInt8) : Prop where
  id : cstring (t.load TransactionField.id) = some name
  data : t.load TransactionField.data = block ++ List.replicate (MAX_DATA_LEN - block.length) 0
  len : t.load TransactionField.len = ushortBytes block.length

namespace TransactionBytes

section

variable {t dest : TransactionBytes} {command status : UInt8} {name text : Chars}
  {data : List UInt8} {f : Place} {size : Nat} {s : Chars}

theorem load_clear (inside : f.offset + f.width ≤ transactionSize) :
    (t.clear f).load f = List.replicate f.width 0 :=
  Object.load_store_self List.length_replicate inside

/-- A string of which less than the width is kept. -/
theorem length_kept (kept : 0 < size) (small : size ≤ f.width) :
    (s.bytes.take (size - 1)).length < f.width := by
  rw [List.length_take]
  omega

/-- Printing into a cleared member is `strncpy` of what is kept. -/
theorem load_print (kept : 0 < size) (small : size ≤ f.width)
    (inside : f.offset + f.width ≤ transactionSize) :
    ((t.clear f).print f size s).load f = strncpy (s.bytes.take (size - 1)) f.width := by
  have short : (s.bytes.take (size - 1)).length < f.width := length_kept kept small
  have written : (s.bytes.take (size - 1) ++ [0]).length ≤ f.width := by
    rw [List.length_append, List.length_singleton]
    exact short
  rw [print, Object.load_store_front written inside, load_clear inside, List.drop_replicate,
    strncpy_short short]

theorem clean_take (s : Chars) (n : Nat) : 0 ∉ s.bytes.take n :=
  fun zero => s.clean (List.mem_of_mem_take zero)

theorem cstring_print (kept : 0 < size) (small : size ≤ f.width)
    (inside : f.offset + f.width ≤ transactionSize) :
    cstring (((t.clear f).print f size s).load f) = some (s.bytes.take (size - 1)) := by
  rw [load_print kept small inside, cstring_strncpy (clean_take s _), if_pos (length_kept kept small)]

/-- Printing stays inside its member. -/
theorem load_print_disjoint {g : Place} (kept : 0 < size) (small : size ≤ f.width)
    (apart : f.offset + f.width ≤ g.offset ∨ g.offset + g.width ≤ f.offset) :
    ((t.clear f).print f size s).load g = t.load g := by
  rw [print, Object.load_store_disjoint, clear, Object.load_store_disjoint]
  · rw [List.length_replicate]
    exact apart
  · simp only [List.length_append, List.length_take, List.length_singleton]
    omega

/-! ### What `set_transaction` leaves in each member -/

theorem load_command : (setTransaction dest command status name text).load TransactionField.command =
    enumBytes command := by
  unfold setTransaction
  rw [Object.load_store_disjoint (Or.inr (by decide)),
    load_print_disjoint (by decide) (by decide) (Or.inr (by decide)),
    load_print_disjoint (by decide) (by decide) (Or.inr (by decide)),
    Object.load_store_disjoint (Or.inr (by decide))]
  exact Object.load_store_self rfl (by decide)

theorem load_status : (setTransaction dest command status name text).load TransactionField.status =
    enumBytes status := by
  unfold setTransaction
  rw [Object.load_store_disjoint (Or.inr (by decide)),
    load_print_disjoint (by decide) (by decide) (Or.inr (by decide)),
    load_print_disjoint (by decide) (by decide) (Or.inr (by decide))]
  exact Object.load_store_self rfl (by decide)

theorem load_id : (setTransaction dest command status name text).load TransactionField.id =
    strncpy (name.bytes.take (MAX_NAME_LEN - 2)) MAX_NAME_LEN := by
  unfold setTransaction
  rw [Object.load_store_disjoint (Or.inr (by decide)),
    load_print_disjoint (by decide) (by decide) (Or.inr (by decide))]
  exact load_print (by decide) (by decide) (by decide)

theorem load_data : (setTransaction dest command status name text).load TransactionField.data =
    strncpy (text.bytes.take (MAX_DATA_LEN - 2)) MAX_DATA_LEN := by
  unfold setTransaction
  rw [Object.load_store_disjoint (Or.inl (Nat.le_refl 266))]
  exact load_print (by decide) (by decide) (by decide)

theorem load_len : (setTransaction dest command status name text).load TransactionField.len =
    ushortBytes (text.bytes.take (MAX_DATA_LEN - 2)).length := by
  unfold setTransaction
  simp only
  rw [strlen_of_cstring (cstring_print (by decide) (by decide) (by decide))]
  exact Object.load_store_self rfl (by decide)

/-- The bytes between and behind the members. -/
def padding : List Place := [⟨263, 1⟩, ⟨1802, 2⟩]

/-- Apart from every member. -/
theorem padding_apart {g : Place} (hf : f ∈ padding) (hg : g ∈ TransactionField.all) :
    g.offset + g.width ≤ f.offset ∨ f.offset + f.width ≤ g.offset := by
  have apart : ∀ f ∈ padding, ∀ g ∈ TransactionField.all,
      g.offset + g.width ≤ f.offset ∨ f.offset + f.width ≤ g.offset := by decide
  exact apart f hf g hg

/-- Writing a member leaves the padding. -/
theorem store_padding {g : Place} {bytes : List UInt8} (hf : f ∈ padding)
    (hg : g ∈ TransactionField.all) (length : bytes.length ≤ g.width) :
    (t.store g.offset bytes).load f = t.load f := by
  apply Object.load_store_disjoint
  have apart := padding_apart hf hg
  omega

theorem clear_padding {g : Place} (hf : f ∈ padding) (hg : g ∈ TransactionField.all) :
    (t.clear g).load f = t.load f :=
  store_padding hf hg (Nat.le_of_eq List.length_replicate)

theorem print_padding {g : Place} (hf : f ∈ padding) (hg : g ∈ TransactionField.all)
    (kept : 0 < size) (small : size ≤ g.width) : (t.print g size s).load f = t.load f := by
  apply store_padding hf hg
  simp only [List.length_append, List.length_take, List.length_singleton]
  omega

theorem load_padding (hf : f ∈ padding) :
    (setTransaction dest command status name text).load f = dest.load f := by
  have number (n : Nat) : (ushortBytes n).length ≤ 2 := Nat.le_refl 2
  have code (c : UInt8) : (enumBytes c).length ≤ 4 := Nat.le_refl 4
  unfold setTransaction
  rw [store_padding (g := TransactionField.len) hf (by decide) (number _),
    print_padding (g := TransactionField.data) hf (by decide) (by decide) (by decide),
    clear_padding (g := TransactionField.data) hf (by decide),
    print_padding (g := TransactionField.id) hf (by decide) (by decide) (by decide),
    clear_padding (g := TransactionField.id) hf (by decide),
    store_padding (g := TransactionField.status) hf (by decide) (code status),
    store_padding (g := TransactionField.command) hf (by decide) (code command)]

/-- The members and the padding are all there is. -/
theorem members_cover : ∀ i < transactionSize, ∃ f ∈ TransactionField.all ++ padding,
    f.offset ≤ i ∧ i < f.offset + f.width := by
  intro i inside
  have split : i < 4 ∨ 4 ≤ i ∧ i < 8 ∨ 8 ≤ i ∧ i < 263 ∨ i = 263 ∨ 264 ≤ i ∧ i < 266 ∨
      266 ≤ i ∧ i < 1802 ∨ 1802 ≤ i := by
    omega
  have size : transactionSize = 1804 := rfl
  rcases split with h | h | h | h | h | h | h
  · exact ⟨TransactionField.command, by decide, Nat.zero_le i, h⟩
  · exact ⟨TransactionField.status, by decide, h⟩
  · exact ⟨TransactionField.id, by decide, h⟩
  · exact ⟨⟨263, 1⟩, by decide, Nat.le_of_eq h.symm, by simp only; omega⟩
  · exact ⟨TransactionField.len, by decide, h⟩
  · exact ⟨TransactionField.data, by decide, h⟩
  · exact ⟨⟨1802, 2⟩, by decide, h, by simp only; omega⟩

/-- What `set_transaction` leaves depends on what was there in the padding alone. -/
theorem setTransaction_overwrites {dest' : TransactionBytes}
    (same : ∀ f ∈ padding, dest'.load f = dest.load f) :
    setTransaction dest' command status name text = setTransaction dest command status name text := by
  apply Object.ext_load members_cover
  intro f hf
  rcases List.mem_append.mp hf with member | gap
  · simp only [TransactionField.all, List.mem_cons, List.not_mem_nil, or_false] at member
    rcases member with rfl | rfl | rfl | rfl | rfl
    · rw [load_command, load_command]
    · rw [load_status, load_status]
    · rw [load_id, load_id]
    · rw [load_len, load_len]
    · rw [load_data, load_data]
  · rw [load_padding gap, load_padding gap, same f gap]

/-! ### What `set_transaction_data` leaves -/

/-- Data that does not fit is answered by `set_transaction`. -/
theorem setTransactionData_big (big : MAX_DATA_LEN < data.length) :
    setTransactionData dest command status name data =
      setTransaction dest command 2 name tooBig := by
  have code (c : UInt8) : (enumBytes c).length ≤ 4 := Nat.le_refl 4
  simp only [setTransactionData]
  rw [if_pos big]
  apply setTransaction_overwrites
  intro f hf
  rw [clear_padding (g := TransactionField.data) hf (by decide),
    print_padding (g := TransactionField.id) hf (by decide) (by decide) (by decide),
    clear_padding (g := TransactionField.id) hf (by decide),
    store_padding (g := TransactionField.status) hf (by decide) (code status),
    store_padding (g := TransactionField.command) hf (by decide) (code command)]

section Fits

variable (fits : data.length ≤ MAX_DATA_LEN)
include fits

theorem setTransactionData_id :
    (setTransactionData dest command status name data).load TransactionField.id =
      strncpy (name.bytes.take (MAX_NAME_LEN - 2)) MAX_NAME_LEN := by
  simp only [setTransactionData]
  rw [if_neg (Nat.not_lt.mpr fits), Object.load_store_disjoint (Or.inr (by decide)), clear,
    Object.load_store_disjoint (Or.inr (by decide))]
  exact load_print (by decide) (by decide) (by decide)

theorem setTransactionData_data :
    (setTransactionData dest command status name data).load TransactionField.data =
      data ++ List.replicate (MAX_DATA_LEN - data.length) 0 := by
  simp only [setTransactionData]
  rw [if_neg (Nat.not_lt.mpr fits), Object.load_store_front fits (by decide),
    load_clear (by decide), List.drop_replicate]
  rfl

/-- The length is the one the destination had. -/
theorem setTransactionData_len :
    (setTransactionData dest command status name data).load TransactionField.len =
      dest.load TransactionField.len := by
  simp only [setTransactionData]
  rw [if_neg (Nat.not_lt.mpr fits), Object.load_store_disjoint (Or.inr (by decide)), clear,
    Object.load_store_disjoint (Or.inr (by decide)),
    load_print_disjoint (by decide) (by decide) (Or.inl (by decide)),
    Object.load_store_disjoint (Or.inl (Nat.le_add_left 8 256)),
    Object.load_store_disjoint (Or.inl (Nat.le_add_left 4 260))]

end Fits

/-- What is kept of a name leaves place for its terminator. -/
theorem kept_short {n : Nat} (bytes : List UInt8) (place : 2 ≤ n) :
    (bytes.take (n - 2)).length < n := by
  rw [List.length_take]
  omega

/-- A name is kept when it is one character shorter than it may be. -/
theorem cstring_name {name : Name} :
    cstring (strncpy (name.bytes.take (MAX_NAME_LEN - 2)) MAX_NAME_LEN) = some name.bytes ↔
      name.bytes.length ≤ MAX_NAME_LEN - 2 := by
  rw [cstring_strncpy (clean_take _ _), if_pos (kept_short _ (by decide)), Option.some.injEq, List.take_eq_self_iff]

end

end TransactionBytes

open TransactionBytes

variable {dest : TransactionBytes} {command status : UInt8} {name : Name} {text : Chars}
  {data : List UInt8}

theorem holdsText_iff : HoldsText (dest.setTransaction command status name.toChars text) name.bytes
      text.bytes ↔
    name.bytes.length ≤ MAX_NAME_LEN - 2 ∧ text.bytes.length ≤ MAX_DATA_LEN - 2 := by
  have kept : text.bytes.take (MAX_DATA_LEN - 2) = text.bytes.take (MAX_DATA_LEN - 1) ↔
      text.bytes.length ≤ MAX_DATA_LEN - 2 := by
    rw [List.take_eq_take_iff]
    simp only [MAX_DATA_LEN]
    omega
  have data : cstring ((dest.setTransaction command status name.toChars text).load
      TransactionField.data) = some (text.bytes.take (MAX_DATA_LEN - 2)) := by
    rw [load_data, cstring_strncpy (clean_take _ _), if_pos (kept_short _ (by decide))]
  constructor
  · intro holds
    constructor
    · have id := holds.id
      rw [load_id] at id
      exact cstring_name.mp id
    · rw [← kept]
      exact Option.some.inj (data.symm.trans holds.data)
  · rintro ⟨named, fits⟩
    constructor
    · rw [load_id]
      exact cstring_name.mpr named
    · rw [data, kept.mpr fits]
    · rw [load_len, kept.mpr fits]

theorem holdsBlock_iff (fits : data.length ≤ MAX_DATA_LEN) :
    HoldsBlock (dest.setTransactionData command status name.toChars data) name.bytes data ↔
      name.bytes.length ≤ MAX_NAME_LEN - 2 ∧
        dest.load TransactionField.len = ushortBytes data.length := by
  constructor
  · intro holds
    constructor
    · have id := holds.id
      rw [setTransactionData_id fits] at id
      exact cstring_name.mp id
    · rw [← setTransactionData_len fits]
      exact holds.len
  · rintro ⟨named, len⟩
    constructor
    · rw [setTransactionData_id fits]
      exact cstring_name.mpr named
    · exact setTransactionData_data fits
    · rw [setTransactionData_len fits]
      exact len

/-- What `set_transaction` is for. -/
def EncodesText (dest : TransactionBytes) (command status : UInt8) (name : Name) (text : Chars) :
    Prop :=
  HoldsText (dest.setTransaction command status name.toChars text) name.bytes text.bytes

/-- What `set_transaction_data` is for. -/
def EncodesBlock (dest : TransactionBytes) (command status : UInt8) (name : Name)
    (data : List UInt8) : Prop :=
  if data.length ≤ MAX_DATA_LEN then
    HoldsBlock (dest.setTransactionData command status name.toChars data) name.bytes data
  else
    dest.setTransactionData command status name.toChars data =
      dest.setTransaction command 2 name.toChars tooBig

/-- `set_transaction` is right exactly when the name and the text are one character shorter than
they may be, `set_transaction_data` when the data does not fit, or the name is that short and the
destination has the length already. -/
theorem encoders_iff (dest : TransactionBytes) (command status : UInt8) (name : Name) (text : Chars)
    (data : List UInt8) :
    (EncodesText dest command status name text ↔
      name.bytes.length ≤ MAX_NAME_LEN - 2 ∧ text.bytes.length ≤ MAX_DATA_LEN - 2) ∧
    (EncodesBlock dest command status name data ↔
      MAX_DATA_LEN < data.length ∨ (name.bytes.length ≤ MAX_NAME_LEN - 2 ∧
        dest.load TransactionField.len = ushortBytes data.length)) := by
  constructor
  · exact holdsText_iff
  · unfold EncodesBlock
    by_cases fits : data.length ≤ MAX_DATA_LEN
    · rw [if_pos fits, holdsBlock_iff fits]
      constructor
      · exact Or.inr
      · intro encodes
        exact encodes.resolve_left (Nat.not_lt.mpr fits)
    · rw [if_neg fits]
      constructor
      · intro _
        exact Or.inl (Nat.lt_of_not_le fits)
      · intro _
        exact setTransactionData_big (Nat.lt_of_not_le fits)

/-- A name of `MAX_NAME_LEN - 1` characters. -/
def longName : Name where
  bytes := List.replicate (MAX_NAME_LEN - 1) 97
  clean := by
    intro zero
    exact absurd (List.eq_of_mem_replicate zero) (by decide)
  fits := Nat.le_of_eq List.length_replicate

theorem long_name_cut : ¬ ∀ (dest : TransactionBytes) (command status : UInt8) (name : Name)
    (text : Chars) (data : List UInt8),
    EncodesText dest command status name text ∧ EncodesBlock dest command status name data := by
  intro all
  obtain ⟨encodes, -⟩ := all .zero 1 0 longName tooBig []
  have short : longName.bytes.length ≤ MAX_NAME_LEN - 2 := (holdsText_iff.mp encodes).1
  have length : longName.bytes.length = MAX_NAME_LEN - 1 := List.length_replicate
  rw [length] at short
  exact absurd short (by decide)

/-! ### The transactions of the controller -/

/-- The bytes of a transaction that carries a message. -/
structure Represents (t : TransactionBytes) (u : Transaction) : Prop where
  id : cstring (t.load TransactionField.id) = some (encode u.id.name)
  data : cstring (t.load TransactionField.data) = some (encode u.url)
  len : t.load TransactionField.len = ushortBytes u.payload.len

/-- A string, as the code has it. -/
def IsArgument.chars {s : CString} (bytes : IsArgument s) : Chars := ⟨encode s, encode_clean bytes⟩

theorem encode_take (s : CString) (n : Nat) : (encode s).take n = encode (s.take n) := by
  rw [encode, encode, List.map_take]

/-- `setTransaction` is what the bytes are read as. -/
theorem setTransaction_represents {s s' : CString} (isName : IsArgument s) (isText : IsArgument s')
    (u : Command) (v : Status) :
    Represents (dest.setTransaction command status isName.chars isText.chars)
      (Dserve.setTransaction u v s s') := by
  have kept (t : CString) (n : Nat) : ((encode t).take n).length = (t.take n).length := by
    rw [encode_take, length_encode]
  constructor
  · rw [load_id, cstring_strncpy (clean_take _ _), if_pos (kept_short _ (by decide))]
    exact congrArg some (encode_take s _)
  · rw [load_data, cstring_strncpy (clean_take _ _), if_pos (kept_short _ (by decide))]
    exact congrArg some (encode_take s' _)
  · rw [load_len]
    exact congrArg ushortBytes (kept s' _)

end Dserve
