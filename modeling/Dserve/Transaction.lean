/-!
The data the client, the upstream handlers and the controller exchange:
`entry.h`, `transaction.h` and `transaction.c`.

A C string is the list of its characters up to the terminator. The numbers of an
entry are C doubles; the only operations the code applies to them are a
subtraction and a comparison with zero, so the accounting fields are generic in
the number type and the server's own entries use decimals with the six places
that `"%lf"` prints, infinities and NaN.

An enumeration field holds any `int`: the codes outside the enumeration are kept
as a constructor of their own, because index files and requests can carry them.
-/

namespace Dserve

/-- The characters of a C string, without its terminator. -/
abbrev CString := List Char

def MAX_NAME_LEN : Nat := 255
def MAX_URL_LEN : Nat := 512
def MAX_DATA_LEN : Nat := 1536

/-! ### Enumerations -/

/-- `command_t` -/
inductive Command where
  | none
  | download
  | status
  | pause
  | cancel
  | restart
  | other (code : Int)
deriving DecidableEq, Repr

/-- `status_t` -/
inductive Status where
  | success
  | processing
  | failure
  | other (code : Int)
deriving DecidableEq, Repr

/-- The numbering of `status_t`: an all-zero transaction has status `SUCCESS`. -/
def Status.ofCode (n : Int) : Status :=
  if n = 0 then .success else if n = 1 then .processing else if n = 2 then .failure else .other n

/-- `entry_status_t` -/
inductive EntryStatus where
  | waiting
  | starting
  | started
  | paused
  | cancelled
  | completed
  | other (code : Int) (unnamed : code < 0 ∨ 5 < code)
deriving DecidableEq, Repr

namespace EntryStatus

def toCode : EntryStatus → Int
  | .waiting => 0
  | .starting => 1
  | .started => 2
  | .paused => 3
  | .cancelled => 4
  | .completed => 5
  | .other code _ => code

def ofCode (n : Int) : EntryStatus :=
  if h : n < 0 ∨ 5 < n then .other n h
  else if n = 0 then .waiting
  else if n = 1 then .starting
  else if n = 2 then .started
  else if n = 3 then .paused
  else if n = 4 then .cancelled
  else .completed

@[simp] theorem ofCode_toCode (s : EntryStatus) : ofCode s.toCode = s := by
  cases s with
  | other code unnamed => simp [toCode, ofCode, unnamed]
  | _ => rfl

theorem toCode_ofCode (n : Int) : (ofCode n).toCode = n := by
  unfold ofCode
  split
  · rfl
  · have code : n = 0 ∨ n = 1 ∨ n = 2 ∨ n = 3 ∨ n = 4 ∨ n = 5 := by omega
    rcases code with rfl | rfl | rfl | rfl | rfl | rfl <;> rfl

/-- One of the six enumerators. -/
def Named : EntryStatus → Prop
  | .other _ _ => False
  | _ => True

instance (s : EntryStatus) : Decidable s.Named :=
  match s with
  | .other _ _ => isFalse id
  | .waiting | .starting | .started | .paused | .cancelled | .completed => isTrue trivial

/-- `STARTING` or `STARTED`: the states in which a download is meant to run. -/
def Running (s : EntryStatus) : Prop := s = .starting ∨ s = .started

instance (s : EntryStatus) : Decidable s.Running := by unfold Running; infer_instance

end EntryStatus

/-! ### Entries -/

/-- A number with the six decimal places that `"%lf"` prints, or an infinity or a NaN. -/
inductive Decimal where
  | finite (micros : Int)
  | infinity (negative : Bool)
  | nan
deriving DecidableEq, Repr

def Decimal.sub : Decimal → Decimal → Decimal
  | .finite a, .finite b => .finite (a - b)
  | .nan, _ => .nan
  | _, .nan => .nan
  | .infinity a, .infinity b => if a = b then .nan else .infinity a
  | .infinity a, .finite _ => .infinity a
  | .finite _, .infinity b => .infinity !b

instance : Zero Decimal := ⟨.finite 0⟩
instance : Sub Decimal := ⟨Decimal.sub⟩

/-- `trx_id_t` -/
structure TrxId where
  name : CString
deriving DecidableEq, Repr

/-- The range of a `long`, and of a `time_t`. -/
def LongRange (n : Int) : Prop := -9223372036854775808 ≤ n ∧ n < 9223372036854775808

instance (n : Int) : Decidable (LongRange n) := inferInstanceAs (Decidable (_ ∧ _))

/-- `entry_time_t`, in seconds. -/
structure EntryTime where
  start : Int
  measured : Int
deriving DecidableEq, Repr

/-- The accounting fields of `entry_t`, over any type of numbers. -/
structure Counters (ν : Type) where
  size : ν
  remaining : ν
  complete : ν
  speed : ν
  time : EntryTime
deriving DecidableEq, Repr

/-- `entry_t` -/
structure Entry where
  id : TrxId
  status : EntryStatus
  url : CString
  counters : Counters Decimal
deriving DecidableEq, Repr

/-- `entry_new`: all fields zero, `WAITING`. -/
def entryNew : Entry :=
  { id := ⟨[]⟩, status := .waiting, url := [], counters := ⟨0, 0, 0, 0, ⟨0, 0⟩⟩ }

/-- `progress_callback(entry, dltotal, dlnow)`. `first` is the clock when
`time.start` is read, `second` when `time.measured` or `now` is. -/
def progressCallback {ν : Type} [Zero ν] [Sub ν] [DecidableEq ν] (e : Counters ν)
    (dltotal dlnow : ν) (first second : Int) : Counters ν :=
  let e := if e.size = 0 then { e with size := dltotal, time := { e.time with start := first } } else e
  if e.time.measured = 0 then { e with time := { e.time with measured := second } }
  else if second - e.time.measured ≥ 1 then
    { e with
      speed := dlnow - e.complete
      time := { e.time with measured := second }
      remaining := dltotal
      complete := dlnow }
  else e

/-- The times it leaves are ones there were, or were read from the clock. -/
theorem progressCallback_time {ν : Type} [Zero ν] [Sub ν] [DecidableEq ν] {e : Counters ν}
    {dltotal dlnow : ν} {first second : Int} (start : LongRange e.time.start)
    (measured : LongRange e.time.measured) (hfirst : LongRange first) (hsecond : LongRange second) :
    LongRange (progressCallback e dltotal dlnow first second).time.start ∧
      LongRange (progressCallback e dltotal dlnow first second).time.measured := by
  unfold progressCallback
  by_cases unset : e.size = 0
  · simp only [if_pos unset]
    split
    · exact ⟨hfirst, hsecond⟩
    · split
      · exact ⟨hfirst, hsecond⟩
      · exact ⟨hfirst, measured⟩
  · simp only [if_neg unset]
    split
    · exact ⟨start, hsecond⟩
    · split
      · exact ⟨start, hsecond⟩
      · exact ⟨start, measured⟩

/-! ### Transactions -/

/-- What a payload holds: a message text or the bytes of an entry. -/
inductive Data where
  | text (chars : CString)
  | entry (e : Entry)
deriving DecidableEq, Repr

/-- `payload_t` -/
structure Payload where
  len : Nat
  data : Data
deriving DecidableEq, Repr

/-- `transaction_t` -/
structure Transaction where
  command : Command
  status : Status
  id : TrxId
  payload : Payload
deriving DecidableEq, Repr

/-- The transaction whose bytes are all zero. -/
def Transaction.zero : Transaction :=
  { command := .none, status := .ofCode 0, id := ⟨[]⟩, payload := ⟨0, .text []⟩ }

/-- The URL of a `DOWNLOAD` request: `payload.data` read as a string. -/
def Transaction.url (t : Transaction) : CString :=
  match t.payload.data with
  | .text chars => chars
  | .entry e => e.id.name

/-- `set_transaction`: `snprintf` is given one byte less than each field has, and
keeps one more for its terminator. -/
def setTransaction (command : Command) (status : Status) (name text : CString) : Transaction :=
  let data := text.take (MAX_DATA_LEN - 2)
  { command := command, status := status, id := ⟨name.take (MAX_NAME_LEN - 2)⟩,
    payload := ⟨data.length, .text data⟩ }

/-- `sizeof(entry_t)` -/
def entrySize : Nat := 824

/-- `set_transaction_data` on an entry. `payload.len` is not assigned. -/
def setTransactionData (dest : Transaction) (command : Command) (status : Status) (name : CString)
    (data : Entry) : Transaction :=
  if entrySize > MAX_DATA_LEN then
    setTransaction command .failure name "Internal data error: data too is too big to handle".toList
  else
    { command := command, status := status, id := ⟨name.take (MAX_NAME_LEN - 2)⟩,
      payload := { dest.payload with data := .entry data } }

@[simp] theorem setTransaction_status (command : Command) (status : Status) (name text : CString) :
    (setTransaction command status name text).status = status := rfl

@[simp] theorem setTransaction_command (command : Command) (status : Status)
    (name text : CString) : (setTransaction command status name text).command = command := rfl

@[simp] theorem setTransactionData_status (dest : Transaction) (command : Command) (status : Status)
    (name : CString) (data : Entry) :
    (setTransactionData dest command status name data).status = status := rfl

/-- What `entry_set_target` finds behind the URL of an entry. It copies the 1536 bytes
of the payload to the 512 of the field, whatever the URL is: over the numbers of the
entry, and over 972 bytes behind its block, which nobody allocated. -/
structure Overrun where
  /-- the bytes behind the block belong to nobody, and stay so -/
  spare : Bool := true
  /-- what the numbers read as when the URL reaches them -/
  counters : Counters Decimal := ⟨0, 0, 0, 0, ⟨0, 0⟩⟩
deriving DecidableEq, Repr

/-- `entry_set_target`: the name and the payload are copied whole. A name that does not
fit its field is left without a terminator, and a copy that hits what is not the
entry's is undefined behaviour: `none`. What follows the terminator of the URL in the
payload is taken to be zero; a URL that fills the payload is taken to end with it. -/
def entrySetTarget (o : Overrun) (entry : Entry) (request : Transaction) : Option Entry :=
  if request.id.name.length < MAX_NAME_LEN ∧ o.spare then
    some { entry with
      id := request.id
      url := request.url
      counters := if request.url.length < MAX_URL_LEN then entry.counters else o.counters }
  else none

/-- A new entry has the id and the URL of the request, and waits. -/
theorem entrySetTarget_spec {o : Overrun} {request : Transaction} {entry : Entry}
    (h : entrySetTarget o entryNew request = some entry) :
    entry.id = request.id ∧ entry.url = request.url ∧ entry.status = .waiting ∧
      request.id.name.length < MAX_NAME_LEN := by
  unfold entrySetTarget at h
  split at h
  · next fits =>
    cases h
    exact ⟨rfl, rfl, rfl, fits.1⟩
  · cases h

theorem entrySetTarget_spare {o : Overrun} {entry entry' : Entry} {request : Transaction}
    (h : entrySetTarget o entry request = some entry') : o.spare = true := by
  unfold entrySetTarget at h
  split at h
  · next fits => exact fits.2
  · cases h

/-- The numbers of a new entry whose URL fits are zero. -/
theorem entrySetTarget_counters {o : Overrun} {request : Transaction} {entry : Entry}
    (h : entrySetTarget o entryNew request = some entry)
    (fits : request.url.length < MAX_URL_LEN) : entry.counters = entryNew.counters := by
  simp only [entrySetTarget, if_pos fits] at h
  split at h
  · cases h
    rfl
  · cases h

end Dserve
