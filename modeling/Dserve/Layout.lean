import Dserve.Client
import Dserve.Connection
import Dserve.Lib.Object

/-!
The bytes of `transaction_t` and `entry_t`, from the command line of `dsclient` to the entry
that `queue_add` appends.

Every field is copied with the size of its source: a name that fills its field has no
terminator, and a URL of `MAX_URL_LEN` characters or more runs over the fields behind
`entry_t.url`. Nothing on the way looks at the lengths. `stored_iff` says that an accepted
request leaves the name and the URL in their fields exactly when both fit, and
`entrySetTarget_stored` that `entrySetTarget` is what the bytes do then.

What the compiler leaves between two members is zero, since both objects start as zeros. The
socket and the message queue carry whole transactions.
-/

namespace Dserve

open Object (Place)

/-! ### Declared members -/

namespace TransactionField

def command : Place := ⟨0, 4⟩
def status : Place := ⟨4, 4⟩
def id : Place := ⟨8, MAX_NAME_LEN⟩
def len : Place := ⟨264, 2⟩
def data : Place := ⟨266, MAX_DATA_LEN⟩

/-- The members of `transaction_t` and `payload_t`, in their order. -/
def all : List Place := [command, status, id, len, data]

end TransactionField

/-- The members lie where their sizes and alignments put them. -/
theorem transaction_layout :
    Object.layout 0 [(4, 4), (4, 4), (MAX_NAME_LEN, 1), (2, 2), (MAX_DATA_LEN, 1)] =
        TransactionField.all ∧
      Object.alignUp 4 (TransactionField.data.offset + TransactionField.data.width) =
        transactionSize := by
  decide

namespace EntryField

def id : Place := ⟨0, MAX_NAME_LEN⟩
def status : Place := ⟨256, 4⟩
def url : Place := ⟨260, MAX_URL_LEN⟩
def size : Place := ⟨776, 8⟩
def remaining : Place := ⟨784, 8⟩
def complete : Place := ⟨792, 8⟩
def speed : Place := ⟨800, 8⟩
def start : Place := ⟨808, 8⟩
def measured : Place := ⟨816, 8⟩

/-- The doubles and the two times. -/
def numbers : List Place := [size, remaining, complete, speed, start, measured]

/-- The members of `entry_t` and `entry_time_t`, in their order. -/
def all : List Place := [id, status, url] ++ numbers

end EntryField

theorem entry_layout :
    Object.layout 0 ([(MAX_NAME_LEN, 1), (4, 4), (MAX_URL_LEN, 1)] ++ List.replicate 6 (8, 8)) =
        EntryField.all ∧
      Object.alignUp 8 (EntryField.measured.offset + EntryField.measured.width) = entrySize := by
  decide

abbrev TransactionBytes := Object UInt8 transactionSize
abbrev EntryBytes := Object UInt8 entrySize

/-- The bytes of an enumerator; none is over 255. -/
def enumBytes (code : UInt8) : List UInt8 := [code, 0, 0, 0]

/-- `unsigned short int` -/
def ushortBytes (n : Nat) : List UInt8 := [UInt8.ofNat n, UInt8.ofNat (n / 256)]

/-! ### The command line -/

/-- The bytes of a string. -/
def encode (s : CString) : List UInt8 := s.map fun c => UInt8.ofNat c.toNat

/-- The argument of an option, empty when it takes none. -/
def ClientOption.optarg : ClientOption → CString
  | .port optarg => optarg
  | .host optarg => optarg
  | .name optarg => optarg
  | .url optarg => optarg
  | _ => []

/-- What `argv` holds: bytes, up to a terminator. -/
def IsArgument (s : CString) : Prop := ∀ c ∈ s, 0 < c.toNat ∧ c.toNat < 256

/-- The options of a command line. -/
structure CommandLine where
  options : List ClientOption
  bytes : ∀ o ∈ options, IsArgument o.optarg

/-- The `switch` of `main`, on the bytes of the transaction. -/
def ClientOption.store (t : TransactionBytes) : ClientOption → Option TransactionBytes
  | .name optarg =>
      some (t.store TransactionField.id.offset (strncpy (encode optarg) MAX_NAME_LEN))
  | .url optarg =>
      let t := t.store TransactionField.data.offset (strncpy (encode optarg) MAX_DATA_LEN)
      let len := strlen (t.cells.drop TransactionField.data.offset)
      let t := t.store TransactionField.len.offset (ushortBytes len)
      some (t.store TransactionField.command.offset (enumBytes 1))
  | .status => some (t.store TransactionField.command.offset (enumBytes 2))
  | .pause => some (t.store TransactionField.command.offset (enumBytes 4))
  | .cancel => some (t.store TransactionField.command.offset (enumBytes 8))
  | .restart => some (t.store TransactionField.command.offset (enumBytes 16))
  | .init => none
  | .help => none
  | .port _ => some t
  | .host _ => some t
  | .keepalive => some t
  | .invalid => some t

/-- The transaction `main` sends. -/
def clientBytes : List ClientOption → Option TransactionBytes
  | [] => none
  | options => options.foldlM ClientOption.store .zero

def ClientOption.nameGiven (given : CString) : ClientOption → CString
  | .name optarg => optarg
  | _ => given

def ClientOption.urlGiven (given : CString) : ClientOption → CString
  | .url optarg => optarg
  | _ => given

/-- The last argument of `--name`. -/
def nameGiven (options : List ClientOption) : CString := options.foldl ClientOption.nameGiven []

/-- The last argument of `--url`. -/
def urlGiven (options : List ClientOption) : CString := options.foldl ClientOption.urlGiven []

/-! ### The queue -/

/-- `entry_set_target`: two calls of `memcpy`, with the sizes of the request's members. -/
def EntryBytes.setTarget (entry : EntryBytes) (request : TransactionBytes) : EntryBytes :=
  (entry.store EntryField.id.offset (request.load TransactionField.id)).store
    EntryField.url.offset (request.load TransactionField.data)

/-- The download queue and the bytes of its entries. -/
structure ByteQueue where
  downloadQueue : Option (HeapList EntryPtr)
  entry : EntryPtr → EntryBytes
  nextEntry : EntryPtr

namespace ByteQueue

/-- `queue_init` -/
def queueInit (listNew : Bool) (q : ByteQueue) : ByteQueue :=
  match q.downloadQueue with
  | some _ => q
  | none => if listNew then { q with downloadQueue := some ListApi.new } else q

/-- `queue_entry_exists`; `strcmp` is called on the two objects from their ids on. -/
def queueEntryExists (q : ByteQueue) (result : Bool) (id : List UInt8) : Option Bool :=
  match q.downloadQueue with
  | none => some result
  | some list => ListApi.forEachCompare list true
      (fun p result => (strcmpEqual ((q.entry p).cells.drop EntryField.id.offset) id).map
        fun same => if same then (true, true) else (false, result)) result

/-- `queue_count_started` -/
def queueCountStarted (q : ByteQueue) : Option Nat :=
  match q.downloadQueue with
  | none => some 0
  | some list => ListApi.forEachCompare list false
      (fun p count => some (false,
        if (q.entry p).load EntryField.status = enumBytes 2 then count + 1 else count)) 0

/-- `queue_update` on one entry. `download_start` leaves the bytes of the entry alone;
`starts` says whether it comes back. -/
def queueUpdate (max : Nat) (starts : EntryPtr → Bool) (p : EntryPtr) (q : ByteQueue) :
    Option ByteQueue :=
  if (q.entry p).load EntryField.status = enumBytes 0 then
    q.queueCountStarted.bind fun count =>
      if count < max then
        if starts p then
          some { q with
            entry := Function.update q.entry p
              ((q.entry p).store EntryField.status.offset (enumBytes 1)) }
        else none
      else some q
  else some q

/-- `queue_add`, with the status of the reply. -/
def queueAdd (max : Nat) (o : Outcome) (starts : EntryPtr → Bool) (request : TransactionBytes)
    (q : ByteQueue) : Option (ByteQueue × Status) :=
  let q := q.queueInit o.queueNew
  match q.downloadQueue with
  | none => some (q, .failure)
  | some list =>
      (q.queueEntryExists o.result (request.cells.drop TransactionField.id.offset)).bind
        fun entryExists =>
          if entryExists then some (q, .failure)
          else if o.entryNew then
            (ListApi.append list o.node q.nextEntry).bind fun list =>
              let q : ByteQueue :=
                { downloadQueue := some list
                  entry := Function.update q.entry q.nextEntry (EntryBytes.setTarget .zero request)
                  nextEntry := q.nextEntry + 1 }
              (ListApi.forEach list (queueUpdate max starts) q).map fun q => (q, .success)
          else some (q, .failure)

/-- `process_request` on a `DOWNLOAD`, the only command that adds an entry. -/
def processDownload (max : Nat) (o : Outcome) (starts : EntryPtr → Bool)
    (request : TransactionBytes) (q : ByteQueue) : Option (ByteQueue × Status) :=
  if request.load TransactionField.command = enumBytes 1 then q.queueAdd max o starts request
  else none

end ByteQueue

/-- The entry has the name and the URL, each with its terminator inside its field, and its
numbers are zero. -/
structure Stored (entry : EntryBytes) (name url : CString) : Prop where
  id : cstring (entry.load EntryField.id) = some (encode name)
  url : cstring (entry.load EntryField.url) = some (encode url)
  numbers : ∀ f ∈ EntryField.numbers, entry.load f = List.replicate f.width 0

/-- The bytes of a transaction that carries the name and the URL. -/
structure Carries (t : TransactionBytes) (name url : CString) : Prop where
  id : t.load TransactionField.id = strncpy (encode name) MAX_NAME_LEN
  data : t.load TransactionField.data = strncpy (encode url) MAX_DATA_LEN

section

variable {t t' : TransactionBytes} {name url : CString} {options : List ClientOption}

theorem encode_clean {s : CString} (bytes : IsArgument s) : 0 ∉ encode s := by
  intro zero
  obtain ⟨c, hc, eq⟩ := List.mem_map.mp zero
  obtain ⟨positive, small⟩ := bytes c hc
  have := congrArg UInt8.toNat eq
  rw [UInt8.toNat_ofNat', Nat.mod_eq_of_lt small] at this
  simp only [UInt8.toNat_zero] at this
  omega

@[simp] theorem length_encode (s : CString) : (encode s).length = s.length := List.length_map ..

/-- The bytes of the argument an option was picked from. -/
theorem CommandLine.picked_bytes {pick : CString → ClientOption → CString} (line : CommandLine)
    (picks : ∀ given o, pick given o = given ∨ pick given o = o.optarg) :
    IsArgument (line.options.foldl pick []) := by
  apply List.foldlRecOn
  · intro c hc
    cases hc
  · intro given bytes o ho
    rcases picks given o with eq | eq
    · rw [eq]
      exact bytes
    · rw [eq]
      exact line.bytes o ho

theorem CommandLine.name_clean (line : CommandLine) : 0 ∉ encode (nameGiven line.options) :=
  encode_clean (line.picked_bytes fun given o => by
    cases o <;> simp [ClientOption.nameGiven, ClientOption.optarg])

theorem CommandLine.url_clean (line : CommandLine) : 0 ∉ encode (urlGiven line.options) :=
  encode_clean (line.picked_bytes fun given o => by
    cases o <;> simp [ClientOption.urlGiven, ClientOption.optarg])

/-! ### What the client sends -/

theorem zero_carries : Carries .zero [] [] where
  id := Object.load_zero (by decide)
  data := Object.load_zero (by decide)

/-- Writing another member leaves the name and the URL. -/
theorem Carries.store {offset : Nat} {bytes : List UInt8} (carries : Carries t name url)
    (id : offset + bytes.length ≤ 8 ∨ 263 ≤ offset) (data : offset + bytes.length ≤ 266) :
    Carries (t.store offset bytes) name url where
  id := by
    rw [Object.load_store_disjoint id]
    exact carries.id
  data := by
    rw [Object.load_store_disjoint (Or.inl data)]
    exact carries.data

/-- One option keeps the name and the URL, or writes its own over them. -/
theorem Carries.option {o : ClientOption} (carries : Carries t name url) (h : o.store t = some t') :
    Carries t' (o.nameGiven name) (o.urlGiven url) := by
  have command (code : UInt8) :
      Carries (t.store TransactionField.command.offset (enumBytes code)) name url :=
    carries.store (Or.inl (Nat.le_add_left 4 4)) (Nat.le_add_left 4 262)
  cases o with
  | name optarg =>
      cases h
      constructor
      · exact Object.load_store_self (f := TransactionField.id) length_strncpy (by decide)
      · rw [Object.load_store_disjoint]
        · exact carries.data
        · left
          rw [length_strncpy]
          decide
  | url optarg =>
      cases h
      apply Carries.store _ (Or.inl (by decide)) (by decide)
      apply Carries.store _ (Or.inr (by decide)) (Nat.le_refl 266)
      constructor
      · rw [Object.load_store_disjoint (Or.inr (by decide))]
        exact carries.id
      · exact Object.load_store_self (f := TransactionField.data) length_strncpy (by decide)
  | status => cases h; exact command 2
  | cancel => cases h; exact command 8
  | pause => cases h; exact command 4
  | restart => cases h; exact command 16
  | init => cases h
  | help => cases h
  | port optarg => cases h; exact carries
  | host optarg => cases h; exact carries
  | keepalive => cases h; exact carries
  | invalid => cases h; exact carries

/-- The transaction of a command line carries what its last `--name` and `--url` say. -/
theorem clientBytes_carries (sent : clientBytes options = some t) :
    Carries t (nameGiven options) (urlGiven options) := by
  have run : ∀ (options : List ClientOption) (t t' : TransactionBytes) (name url : CString),
      Carries t name url → options.foldlM ClientOption.store t = some t' →
      Carries t'
        (options.foldl ClientOption.nameGiven name) (options.foldl ClientOption.urlGiven url) := by
    intro options
    induction options with
    | nil =>
        intro t t' name url carries h
        cases h
        exact carries
    | cons o options ih =>
        intro t t' name url carries h
        obtain ⟨t₁, first, h⟩ := Option.bind_eq_some_iff.mp h
        exact ih _ _ _ _ (carries.option first) h
  cases options with
  | nil => cases sent
  | cons o options => exact run (o :: options) .zero t [] [] zero_carries sent

/-! ### What the entry holds -/

/-- The copies of `entry_set_target` are right when the strings fit, and only then. -/
theorem setTarget_stored (carries : Carries t name url) (cleanName : 0 ∉ encode name)
    (cleanUrl : 0 ∉ encode url) : Stored (EntryBytes.setTarget .zero t) name url ↔
      name.length < MAX_NAME_LEN ∧ url.length < MAX_URL_LEN := by
  have id : (EntryBytes.setTarget .zero t).load EntryField.id =
      strncpy (encode name) MAX_NAME_LEN := by
    unfold EntryBytes.setTarget
    rw [Object.load_store_disjoint (Or.inr (by decide)), carries.id]
    exact Object.load_store_self (f := EntryField.id) length_strncpy (by decide)
  -- the part of the data from the offset of a later member on
  have data (f : Place) (after : 260 ≤ f.offset) (inside : f.offset + f.width ≤ entrySize) :
      (EntryBytes.setTarget .zero t).load f =
        ((strncpy (encode url) MAX_DATA_LEN).drop (f.offset - 260)).take f.width := by
    unfold EntryBytes.setTarget
    rw [carries.data]
    apply Object.load_store after _ inside
    rw [length_strncpy]
    simp only [entrySize] at inside
    simp only [MAX_DATA_LEN]
    omega
  have target : (EntryBytes.setTarget .zero t).load EntryField.url =
      strncpy (encode url) MAX_URL_LEN := by
    rw [data EntryField.url (by decide) (by decide)]
    exact take_strncpy (by decide)
  have named : cstring (strncpy (encode name) MAX_NAME_LEN) = some (encode name) ↔
      name.length < MAX_NAME_LEN := by
    rw [cstring_strncpy cleanName, length_encode]
    simp
  have located : cstring (strncpy (encode url) MAX_URL_LEN) = some (encode url) ↔
      url.length < MAX_URL_LEN := by
    rw [cstring_strncpy cleanUrl, length_encode]
    simp
  constructor
  · intro stored
    exact ⟨named.mp (id ▸ stored.id), located.mp (target ▸ stored.url)⟩
  · rintro ⟨short, fits⟩
    refine ⟨?_, ?_, ?_⟩
    · rw [id]
      exact named.mpr short
    · rw [target]
      exact located.mpr fits
    · intro f hf
      -- the numbers lie behind `url`, where the data is zero
      have place : 776 ≤ f.offset ∧ f.offset + f.width ≤ entrySize := by
        revert f
        decide
      have bound := place.2
      simp only [entrySize] at bound
      simp only [MAX_URL_LEN] at fits
      rw [data f (by omega) place.2, drop_strncpy (by rw [length_encode]; omega)
        (by simp only [MAX_DATA_LEN]; omega), List.take_replicate]
      congr 1
      simp only [MAX_DATA_LEN]
      omega

/-! ### What the traversal leaves alone -/

/-- A member other than `status`. -/
def Place.ApartFromStatus (f : Place) : Prop := f.offset + f.width ≤ 256 ∨ 260 ≤ f.offset

/-- The queues differ in the statuses of their entries alone. -/
def SameMembers (q q' : ByteQueue) : Prop :=
  ∀ p f, Place.ApartFromStatus f → (q'.entry p).load f = (q.entry p).load f

theorem queueUpdate_same {q q' : ByteQueue} {max : Nat} {starts : EntryPtr → Bool} {p : EntryPtr}
    (h : q.queueUpdate max starts p = some q') : SameMembers q q' := by
  unfold ByteQueue.queueUpdate at h
  split at h
  · obtain ⟨count, -, h⟩ := Option.bind_eq_some_iff.mp h
    split at h
    · split at h
      · cases h
        intro p' f apart
        by_cases same : p' = p
        · subst same
          simp only [Function.update_self]
          exact Object.load_store_disjoint apart.symm
        · simp only [Function.update_of_ne same]
      · cases h
    · cases h
      exact fun _ _ _ => rfl
  · cases h
    exact fun _ _ _ => rfl

theorem Stored.same {entry entry' : EntryBytes} (stored : Stored entry name url)
    (same : ∀ f, Place.ApartFromStatus f → entry'.load f = entry.load f) :
    Stored entry' name url where
  id := by
    rw [same _ (Or.inl (by decide))]
    exact stored.id
  url := by
    rw [same _ (Or.inr (by decide))]
    exact stored.url
  numbers := by
    intro f hf
    have behind : 260 ≤ f.offset := by
      revert f
      decide
    rw [same f (Or.inr behind)]
    exact stored.numbers f hf

@[simp] theorem queueInit_nextEntry (listNew : Bool) (q : ByteQueue) :
    (q.queueInit listNew).nextEntry = q.nextEntry := by
  unfold ByteQueue.queueInit
  split
  · rfl
  · split <;> rfl

/-- The entry of an accepted request is the one that `entry_set_target` filled. -/
theorem processDownload_entry {q q' : ByteQueue} {max : Nat} {o : Outcome}
    {starts : EntryPtr → Bool} (h : q.processDownload max o starts t = some (q', .success)) :
    ∀ f, Place.ApartFromStatus f →
      (q'.entry q.nextEntry).load f = (EntryBytes.setTarget .zero t).load f := by
  unfold ByteQueue.processDownload ByteQueue.queueAdd at h
  split at h
  · simp only [queueInit_nextEntry] at h
    split at h
    · cases h
    · obtain ⟨entryExists, -, h⟩ := Option.bind_eq_some_iff.mp h
      split at h
      · cases h
      · split at h
        · obtain ⟨list, -, h⟩ := Option.bind_eq_some_iff.mp h
          obtain ⟨q₁, passed, eq⟩ := Option.map_eq_some_iff.mp h
          cases eq
          intro f apart
          have same := HeapList.forEachLoop_preserves (P := SameMembers _)
            (fun p q q' kept one p' f apart => (queueUpdate_same one p' f apart).trans (kept p' f apart))
            (fun _ _ _ => rfl) passed
          rw [same q.nextEntry f apart]
          simp only [Function.update_self]
        · cases h
  · cases h

/-- A list with one item. -/
theorem append_new (p : EntryPtr) : ∃ list : HeapList EntryPtr,
    ListApi.append ListApi.new true p = some list ∧
      (∀ {σ : Type} (handle : EntryPtr → σ → Option σ) (data : σ),
        ListApi.forEach list handle data = (handle p data).bind some) ∧
      ∀ {σ : Type} (following : EntryPtr → σ → σ) (result : σ),
        ListApi.forEachCompare list false (fun p result => some (false, following p result)) result =
          some (following p result) :=
  ⟨_, rfl, fun _ _ => rfl, fun _ _ => rfl⟩

/-- A controller without a queue takes the request when there is memory. With no slots it
starts nothing. -/
theorem processDownload_first (download : t.load TransactionField.command = enumBytes 1) :
    ∃ q', ByteQueue.processDownload 0 {} (fun _ => true) t ⟨none, fun _ => .zero, 0⟩ =
      some (q', .success) := by
  obtain ⟨list, appended, forEach, compare⟩ := append_new 0
  have looked : ByteQueue.queueEntryExists ⟨some ListApi.new, fun _ => .zero, 0⟩ false
      (t.cells.drop TransactionField.id.offset) = some false := rfl
  have kept (entry : EntryPtr → EntryBytes) :
      ByteQueue.queueUpdate 0 (fun _ => true) 0 ⟨some list, entry, 1⟩ =
        some ⟨some list, entry, 1⟩ := by
    simp [ByteQueue.queueUpdate, ByteQueue.queueCountStarted, compare]
  simp only [ByteQueue.processDownload, if_pos download, ByteQueue.queueAdd, ByteQueue.queueInit,
    if_true, looked, Option.bind_some, Bool.false_eq_true, if_false, appended, forEach, kept,
    Nat.zero_add, Option.map_some]
  exact ⟨_, rfl⟩

/-! ### From the command line to the entry -/

/-- The options `--name` and `--url` make a `DOWNLOAD`. -/
theorem download_sent (name url : CString) : ∃ t, clientBytes [.name name, .url url] = some t ∧
    t.load TransactionField.command = enumBytes 1 :=
  ⟨_, rfl, Object.load_store_self (f := TransactionField.command) rfl (by decide)⟩

def CommandLine.download {name url : CString} (named : IsArgument name) (located : IsArgument url) :
    CommandLine where
  options := [.name name, .url url]
  bytes := by
    intro o ho
    simp only [List.mem_cons, List.not_mem_nil, or_false] at ho
    rcases ho with rfl | rfl
    · exact named
    · exact located

/-- An accepted request leaves the name and the URL in their fields, and zeros in the
numbers, exactly when both fit. -/
theorem stored_iff (line : CommandLine) (sent : clientBytes line.options = some t)
    (download : t.load TransactionField.command = enumBytes 1) :
    (∀ (max : Nat) (o : Outcome) (starts : EntryPtr → Bool) (q q' : ByteQueue),
      q.processDownload max o starts t = some (q', .success) →
        Stored (q'.entry q.nextEntry) (nameGiven line.options) (urlGiven line.options)) ↔
      (nameGiven line.options).length < MAX_NAME_LEN ∧
        (urlGiven line.options).length < MAX_URL_LEN := by
  have stored := setTarget_stored (clientBytes_carries sent) line.name_clean line.url_clean
  constructor
  · intro all
    obtain ⟨q', accepted⟩ := processDownload_first download
    exact stored.mp ((all 0 {} _ _ q' accepted).same fun f apart =>
      (processDownload_entry accepted f apart).symm)
  · intro fits max o starts q q' accepted
    exact (stored.mpr fits).same (processDownload_entry accepted)

theorem stored_run : ∃ t, clientBytes [.name ['a'], .url ['x', '/', 'a']] = some t ∧
    ∀ (max : Nat) (o : Outcome) (starts : EntryPtr → Bool) (q q' : ByteQueue),
      q.processDownload max o starts t = some (q', .success) →
        Stored (q'.entry q.nextEntry) ['a'] ['x', '/', 'a'] := by
  obtain ⟨t, sent, download⟩ := download_sent ['a'] ['x', '/', 'a']
  have named : IsArgument ['a'] := by simp [IsArgument]
  have located : IsArgument ['x', '/', 'a'] := by simp [IsArgument]
  exact ⟨t, sent, (stored_iff (.download named located) sent download).mpr
    ⟨Nat.le_add_left 2 253, Nat.le_add_left 4 508⟩⟩

/-- A URL that is as long as its field is accepted, and has no terminator there. -/
theorem url_fills_field : ¬ ∀ (line : CommandLine) (t : TransactionBytes),
    clientBytes line.options = some t → t.load TransactionField.command = enumBytes 1 →
      ∀ (max : Nat) (o : Outcome) (starts : EntryPtr → Bool) (q q' : ByteQueue),
        q.processDownload max o starts t = some (q', .success) →
          Stored (q'.entry q.nextEntry) (nameGiven line.options) (urlGiven line.options) := by
  intro all
  obtain ⟨url, length, letters⟩ : ∃ url : CString, url.length = MAX_URL_LEN ∧ IsArgument url := by
    refine ⟨List.replicate MAX_URL_LEN 'x', List.length_replicate, fun c hc => ?_⟩
    rw [(List.mem_replicate.mp hc).2]
    decide
  have named : IsArgument ['a'] := by simp [IsArgument]
  obtain ⟨t, sent, download⟩ := download_sent ['a'] url
  obtain ⟨q', accepted⟩ := processDownload_first download
  have stored := (all (.download named letters) t sent download 0 {} _ _ q' accepted).same
    fun f apart => (processDownload_entry accepted f apart).symm
  have fits := (setTarget_stored (clientBytes_carries sent) (encode_clean named)
    (encode_clean letters)).mp stored
  exact absurd length (Nat.ne_of_lt fits.2)

/-! ### The strings behind the bytes -/

/-- The transaction of the model has the strings that the command line gives, cut to the
widths of their fields. -/
theorem clientRequest_strings {request : Transaction} (made : clientRequest options = some request) :
    request.id.name = (nameGiven options).take MAX_NAME_LEN ∧
      request.url = (urlGiven options).take MAX_DATA_LEN := by
  have run : ∀ (options : List ClientOption) (t t' : Transaction) (name url : CString),
      t.id.name = name.take MAX_NAME_LEN → t.url = url.take MAX_DATA_LEN →
      options.foldlM ClientOption.write t = some t' →
      t'.id.name = (options.foldl ClientOption.nameGiven name).take MAX_NAME_LEN ∧
        t'.url = (options.foldl ClientOption.urlGiven url).take MAX_DATA_LEN := by
    intro options
    induction options with
    | nil =>
        intro t t' name url id located h
        cases h
        exact ⟨id, located⟩
    | cons o options ih =>
        intro t t' name url id located h
        obtain ⟨t₁, first, h⟩ := Option.bind_eq_some_iff.mp h
        have one : t₁.id.name = (o.nameGiven name).take MAX_NAME_LEN ∧
            t₁.url = (o.urlGiven url).take MAX_DATA_LEN := by
          cases o with
          | name optarg => cases first; exact ⟨rfl, located⟩
          | url optarg => cases first; exact ⟨id, rfl⟩
          | _ => cases first <;> exact ⟨id, located⟩
        exact ih _ _ _ _ one.1 one.2 h
  cases options with
  | nil => cases made
  | cons o options => exact run (o :: options) .zero request [] [] rfl rfl made

/-- On the requests whose bytes end up in their fields, `entrySetTarget` is what the bytes do, as
long as those behind the entry are nobody's. -/
theorem entrySetTarget_stored {o : Overrun} {request : Transaction} (spare : o.spare = true)
    (line : CommandLine) (sent : clientBytes line.options = some t)
    (made : clientRequest line.options = some request)
    (stored : Stored (EntryBytes.setTarget .zero t) (nameGiven line.options) (urlGiven line.options)) :
    entrySetTarget o entryNew request = some { entryNew with
      id := ⟨nameGiven line.options⟩
      url := urlGiven line.options } := by
  obtain ⟨name, url⟩ := clientRequest_strings made
  have fits := (setTarget_stored (clientBytes_carries sent) line.name_clean line.url_clean).mp stored
  have whole : request.id.name = nameGiven line.options ∧ request.url = urlGiven line.options := by
    rw [name, url, List.take_of_length_le (Nat.le_of_lt fits.1), List.take_of_length_le]
    · exact ⟨rfl, rfl⟩
    · exact Nat.le_trans (Nat.le_of_lt fits.2) (by decide)
  unfold entrySetTarget
  rw [if_pos ⟨by rw [whole.1]; exact fits.1, spare⟩, if_pos (by rw [whole.2]; exact fits.2), whole.2,
    ← whole.1]

end

end Dserve
