import Dserve.Lib.Settings
import Dserve.Transaction

/-!
`options.c`: the configuration files, written by `options_write_for_server` and
`options_write_for_client` and read back by their counterparts.

A value is found by looking for its key anywhere in a piece of at most 254 characters of the
file, and strings are read as words. `server_round_trip_iff` and `client_round_trip_iff` say
which options come back: the strings that are not empty, have no white space and fit the
piece, as long as no string has the key of a later option in it. A line with a later key in
its string is read in place of that option's own line; the option comes back then if the
string happens to say the same.

`keep_alive`, `quiet` and `debug` are adjacent bytes that are read through a pointer to
`short`.
-/

namespace Dserve

open Scan Settings

def OPT_MAX_STR_SIZE : Nat := 256

/-- `options_t`, as far as it is written to a file. The bools are bytes. -/
structure Options where
  port : BitVec 16
  host : CString
  timeout : BitVec 16
  logdir : CString
  destdir : CString
  maxConcurrentDownloads : BitVec 16
  keepAlive : BitVec 8
  quiet : BitVec 8
  debug : BitVec 8
deriving DecidableEq

/-! ### `trim` -/

/-- The loop of `rtrim`; none when it runs past the start. -/
def rtrim (input : List Char) : Nat → Option (List Char)
  | 0 => if isSpace (input.getD 0 '\x00') then none else some input
  | i + 1 =>
      if isSpace (input.getD (i + 1) '\x00') then rtrim (input.set (i + 1) '\x00') i
      else some input

/-- `ltrim`; the `memcpy` to a lower address copies upwards. -/
def ltrim (input : List Char) (size : Nat) : List Char :=
  let i := (input.takeWhile isSpace).length
  if i > 0 then
    (input.drop i).take (size - i) ++ List.replicate i '\x00' ++ input.drop size
  else input

/-- The string in an array. -/
def stringOf (array : List Char) : CString := array.takeWhile (· ≠ '\x00')

/-- `trim(line, sizeof(line))` on a line in its array. `rtrim` starts at the byte behind the
array. -/
def trim (behind : Char) (line : CString) : Option CString :=
  let array := line ++ List.replicate (OPT_MAX_STR_SIZE - line.length) '\x00' ++ [behind]
  (rtrim array OPT_MAX_STR_SIZE).map fun array => stringOf (ltrim array (stringOf array).length)

/-! ### Reading -/

/-- The loop of `options_read`: the line with the name. -/
def optionsReadLoop (behind : Char) (name : CString) : Nat → Input → Option (Option CString)
  | fuel, s =>
      if s.eof then some none
      else match fuel with
        | 0 => none
        | fuel + 1 =>
            let (line, s) := fgets (OPT_MAX_STR_SIZE - 2) s
            (trim behind line).bind fun line =>
              if name <:+: line then some (some line) else optionsReadLoop behind name fuel s

/-- `options_read` up to the `sscanf`. A pass of the loop reads a character or finds the end
of the file. -/
def optionsRead (behind : Char) (file name : CString) : Option (Option CString) :=
  optionsReadLoop behind name (file.length + 1) ⟨file, false⟩

/-- What `%hi` stores: `strtol` stops at the ends of `long`, and the low half word is kept. -/
def short (n : Int) : BitVec 16 := BitVec.ofInt 16 (max (-2 ^ 63) (min n (2 ^ 63 - 1)))

/-- `sscanf(line, "%[^=]=%hi", ..)` -/
def readNumber (line : CString) : Option (BitVec 16) :=
  (afterKey line).bind fun text => (scanInt ⟨text, false⟩).1.map short

/-- `options_read_char`: what it assigns, if anything. -/
def optionsReadChar (behind : Char) (file name : CString) : Option (Option CString) :=
  (optionsRead behind file name).map fun line => line.bind (readWord OPT_MAX_STR_SIZE)

/-- `options_read_short` -/
def optionsReadShort (behind : Char) (file name : CString) : Option (Option (BitVec 16)) :=
  (optionsRead behind file name).map fun line => line.bind readNumber

/-- The two bytes of a `short`, in memory order. -/
def lowByte (v : BitVec 16) : BitVec 8 := v.setWidth 8

def highByte (v : BitVec 16) : BitVec 8 := (v >>> 8).setWidth 8

/-- What the calls of `options_read_for_server` assign, in their order. -/
structure ServerValues where
  port : Option (BitVec 16)
  host : Option CString
  timeout : Option (BitVec 16)
  logdir : Option CString
  destdir : Option CString
  maxConcurrentDownloads : Option (BitVec 16)
  quiet : Option (BitVec 16)
  debug : Option (BitVec 16)

def serverValues (behind : Char) (file : CString) : Option ServerValues := do
  let port ← optionsReadShort behind file "server.listen.port".toList
  let host ← optionsReadChar behind file "server.listen.ip".toList
  let timeout ← optionsReadShort behind file "server.connection.timeout".toList
  let logdir ← optionsReadChar behind file "server.directory.log".toList
  let destdir ← optionsReadChar behind file "server.directory.dest".toList
  let maxConcurrentDownloads ← optionsReadShort behind file "server.downloads.max".toList
  let quiet ← optionsReadShort behind file "server.mode.quiet".toList
  let debug ← optionsReadShort behind file "server.mode.debug".toList
  some ⟨port, host, timeout, logdir, destdir, maxConcurrentDownloads, quiet, debug⟩

/-- The assignments, in the order of the calls. -/
def ServerValues.assign (v : ServerValues) (dest : Options) : Options :=
  let dest := { dest with
    port := v.port.getD dest.port
    host := v.host.getD dest.host
    timeout := v.timeout.getD dest.timeout
    logdir := v.logdir.getD dest.logdir
    destdir := v.destdir.getD dest.destdir
    maxConcurrentDownloads := v.maxConcurrentDownloads.getD dest.maxConcurrentDownloads }
  -- the high byte of `quiet` goes to `debug`, that of `debug` behind the structure's members
  let dest := { dest with
    quiet := (v.quiet.map lowByte).getD dest.quiet
    debug := (v.quiet.map highByte).getD dest.debug }
  { dest with debug := (v.debug.map lowByte).getD dest.debug }

/-- `options_read_for_server` -/
def optionsReadForServer (behind : Char) (dest : Options) (file : CString) : Option Options :=
  (serverValues behind file).map fun v => v.assign dest

/-- What the calls of `options_read_for_client` assign, in their order. -/
structure ClientValues where
  port : Option (BitVec 16)
  host : Option CString
  timeout : Option (BitVec 16)
  keepAlive : Option (BitVec 16)

def clientValues (behind : Char) (file : CString) : Option ClientValues := do
  let port ← optionsReadShort behind file "client.server.port".toList
  let host ← optionsReadChar behind file "client.server.ip".toList
  let timeout ← optionsReadShort behind file "client.connection.timeout".toList
  let keepAlive ← optionsReadShort behind file "client.connection.keepalive".toList
  some ⟨port, host, timeout, keepAlive⟩

def ClientValues.assign (v : ClientValues) (dest : Options) : Options :=
  { dest with
    port := v.port.getD dest.port
    host := v.host.getD dest.host
    timeout := v.timeout.getD dest.timeout
    keepAlive := (v.keepAlive.map lowByte).getD dest.keepAlive
    quiet := (v.keepAlive.map highByte).getD dest.quiet }

/-- `options_read_for_client` -/
def optionsReadForClient (behind : Char) (dest : Options) (file : CString) : Option Options :=
  (clientValues behind file).map fun v => v.assign dest

/-! ### Writing -/

/-- `%hu` -/
def printUnsigned (v : BitVec 16) : CString := printInt v.toNat

/-- `%hi` -/
def printShort (v : BitVec 16) : CString := printInt v.toInt

/-- `%hi` of a bool. -/
def printBool (b : BitVec 8) : CString := printInt b.toNat

/-- The lines of `options_write_for_server`. -/
def serverSettings (source : Options) : List Setting :=
  [⟨"server.listen.port".toList, printUnsigned source.port⟩,
    ⟨"server.listen.ip".toList, source.host⟩,
    ⟨"server.connection.timeout".toList, printShort source.timeout⟩,
    ⟨"server.directory.log".toList, source.logdir⟩,
    ⟨"server.directory.dest".toList, source.destdir⟩,
    ⟨"server.downloads.max".toList, printShort source.maxConcurrentDownloads⟩,
    ⟨"server.mode.quiet".toList, printBool source.quiet⟩,
    ⟨"server.mode.debug".toList, printBool source.debug⟩]

/-- `options_write_for_server` -/
def optionsWriteForServer (source : Options) : CString := text (serverSettings source)

/-- The lines of `options_write_for_client`. -/
def clientSettings (source : Options) : List Setting :=
  [⟨"client.server.port".toList, printUnsigned source.port⟩,
    ⟨"client.server.ip".toList, source.host⟩,
    ⟨"client.connection.timeout".toList, printShort source.timeout⟩,
    ⟨"client.connection.keepalive".toList, printBool source.keepAlive⟩]

/-- `options_write_for_client` -/
def optionsWriteForClient (source : Options) : CString := text (clientSettings source)

/-! ### What comes back -/

/-- Options whose strings have no newline, and whose bools are bools. -/
structure Proper (o : Options) : Prop where
  texts : ∀ s ∈ [o.host, o.logdir, o.destdir], '\n' ∉ s ∧ '\x00' ∉ s
  bools : ∀ b ∈ [o.keepAlive, o.quiet, o.debug], b = 0 ∨ b = 1

/-- The options of the server are the same. -/
structure ServerRestored (o d : Options) : Prop where
  port : d.port = o.port
  host : d.host = o.host
  timeout : d.timeout = o.timeout
  logdir : d.logdir = o.logdir
  destdir : d.destdir = o.destdir
  maxConcurrentDownloads : d.maxConcurrentDownloads = o.maxConcurrentDownloads
  quiet : d.quiet = o.quiet
  debug : d.debug = o.debug

/-- The options of the client are the same. -/
structure ClientRestored (o d : Options) : Prop where
  port : d.port = o.port
  host : d.host = o.host
  timeout : d.timeout = o.timeout
  keepAlive : d.keepAlive = o.keepAlive

def serverKeys : List CString :=
  ["server.listen.port", "server.listen.ip", "server.connection.timeout", "server.directory.log",
    "server.directory.dest", "server.downloads.max", "server.mode.quiet",
    "server.mode.debug"].map String.toList

def clientKeys : List CString :=
  ["client.server.port", "client.server.ip", "client.connection.timeout",
    "client.connection.keepalive"].map String.toList

/-- The number that the line with the key begins its value with. -/
def numberAt (settings : List Setting) (key : CString) : Option (BitVec 16) :=
  (source settings key).bind fun s => (scanInt ⟨s.text (OPT_MAX_STR_SIZE - 2), false⟩).1.map short

/-- The keys of the strings. -/
def textKeys : List CString :=
  ["server.listen.ip".toList, "server.directory.log".toList, "server.directory.dest".toList,
    "client.server.ip".toList]

/-- The strings of a file: the line that is found for each has the string, which is a word
that fits. -/
def TextsKept (settings : List Setting) : Prop :=
  ∀ s ∈ settings, s.key ∈ textKeys → Kept (OPT_MAX_STR_SIZE - 2) settings s

/-- The options that the server reads back. -/
structure ServerRestorable (o : Options) : Prop where
  texts : TextsKept (serverSettings o)
  timeout : numberAt (serverSettings o) "server.connection.timeout".toList = some o.timeout
  maxConcurrentDownloads :
    numberAt (serverSettings o) "server.downloads.max".toList = some o.maxConcurrentDownloads
  quiet : (numberAt (serverSettings o) "server.mode.quiet".toList).map lowByte = some o.quiet
  debug : ((numberAt (serverSettings o) "server.mode.debug".toList).map lowByte).or
    ((numberAt (serverSettings o) "server.mode.quiet".toList).map highByte) = some o.debug

/-- The options that the client reads back. -/
structure ClientRestorable (o : Options) : Prop where
  texts : TextsKept (clientSettings o)
  timeout : numberAt (clientSettings o) "client.connection.timeout".toList = some o.timeout
  keepAlive :
    (numberAt (clientSettings o) "client.connection.keepalive".toList).map lowByte =
      some o.keepAlive

section

variable {o : Options} {line name : CString} {behind : Char} {settings : List Setting}

/-! ### Lines in their array -/

theorem stringOf_append (clean : '\x00' ∉ line) (rest : List Char) :
    stringOf (line ++ '\x00' :: rest) = line := by
  have all : ∀ c ∈ line, decide (c ≠ '\x00') = true := by
    intro c hc
    simpa using fun zero : c = '\x00' => clean (zero ▸ hc)
  rw [stringOf, List.takeWhile_append_of_pos all, List.takeWhile_cons_of_neg (by simp),
    List.append_nil]

theorem rtrim_stop {array : List Char} {i : Nat} (stop : isSpace (array.getD i '\x00') = false) :
    rtrim array i = some array := by
  cases i <;> simp only [rtrim, stop, Bool.false_eq_true, if_false]

/-- `rtrim` leaves the line alone: the array ends with zeros. -/
theorem rtrim_array (behind : Char) (short : line.length < OPT_MAX_STR_SIZE) : ∃ rest,
    rtrim (line ++ List.replicate (OPT_MAX_STR_SIZE - line.length) '\x00' ++ [behind])
      OPT_MAX_STR_SIZE = some (line ++ '\x00' :: rest) := by
  obtain ⟨k, zeros⟩ : ∃ k, OPT_MAX_STR_SIZE - line.length = k + 1 :=
    ⟨_, (Nat.succ_pred_eq_of_pos (Nat.sub_pos_of_lt short)).symm⟩
  have size : line.length + (k + 1) = 255 + 1 := by
    simp only [OPT_MAX_STR_SIZE] at zeros short
    omega
  have last (c : Char) : (line ++ List.replicate (k + 1) '\x00' ++ [c]).getD 255 '\x00' = '\x00' := by
    rw [List.append_assoc, List.getD_append_right _ _ _ _ (by omega), List.getD_append]
    · simp
    · rw [List.length_replicate]
      omega
  rw [zeros]
  change ∃ rest, rtrim _ (255 + 1) = _
  rw [rtrim]
  split
  · refine ⟨List.replicate k '\x00' ++ ['\x00'], ?_⟩
    have cleared : (line ++ List.replicate (k + 1) '\x00' ++ [behind]).set (255 + 1) '\x00' =
        line ++ List.replicate (k + 1) '\x00' ++ ['\x00'] := by
      rw [List.set_append_right _ _ (by simp [size]), List.length_append, List.length_replicate, size]
      rfl
    rw [cleared, rtrim_stop (by rw [last]; rfl)]
    simp [List.replicate_succ]
  · exact ⟨List.replicate k '\x00' ++ [behind], by simp [List.replicate_succ]⟩

/-- `ltrim` takes the leading white space off the string in an array. -/
theorem ltrim_array (clean : '\x00' ∉ line) (rest : List Char) :
    stringOf (ltrim (line ++ '\x00' :: rest) (stringOf (line ++ '\x00' :: rest)).length) =
      line.dropWhile isSpace := by
  rw [stringOf_append clean]
  have blank : (line ++ '\x00' :: rest).takeWhile isSpace = line.takeWhile isSpace := by
    rw [List.takeWhile_append, List.takeWhile_cons_of_neg (by decide), List.append_nil]
    split
    · next whole => exact ((List.takeWhile_prefix isSpace).eq_of_length whole).symm
    · rfl
  have dropped : line.drop (line.takeWhile isSpace).length = line.dropWhile isSpace := by
    calc line.drop (line.takeWhile isSpace).length
        = (line.takeWhile isSpace ++ line.dropWhile isSpace).drop (line.takeWhile isSpace).length := by
          rw [List.takeWhile_append_dropWhile]
      _ = line.dropWhile isSpace := List.drop_left
  have within : (line.takeWhile isSpace).length ≤ line.length := (List.takeWhile_prefix _).length_le
  simp only [ltrim, blank]
  split
  · next some_blank =>
    obtain ⟨i, eq⟩ := Nat.exists_eq_succ_of_ne_zero (Nat.ne_of_gt some_blank)
    rw [List.drop_append_of_le_length within, dropped]
    have left : (line.dropWhile isSpace).length = line.length - (line.takeWhile isSpace).length := by
      rw [← dropped, List.length_drop]
    rw [List.take_left' left, eq, List.replicate_succ, List.append_assoc, List.cons_append]
    exact stringOf_append (fun zero => clean ((List.dropWhile_suffix _).mem zero)) _
  · next no_blank =>
    have none_blank : (line.takeWhile isSpace).length = 0 := by omega
    rw [none_blank, List.drop_zero] at dropped
    rw [← dropped]
    exact stringOf_append clean rest

theorem stringOf_clean (line : List Char) : '\x00' ∉ stringOf line := by
  intro zero
  simpa using List.mem_takeWhile_imp zero

/-- The string of a line that has its terminator behind it. -/
theorem stringOf_split (line rest : List Char) :
    ∃ rest', line ++ '\x00' :: rest = stringOf line ++ '\x00' :: rest' := by
  induction line with
  | nil => exact ⟨rest, rfl⟩
  | cons c line ih =>
      by_cases zero : c = '\x00'
      · exact ⟨line ++ '\x00' :: rest, by simp [stringOf, zero]⟩
      · obtain ⟨rest', eq⟩ := ih
        refine ⟨rest', ?_⟩
        simp only [stringOf, ne_eq, zero, not_false_eq_true, decide_true, List.takeWhile_cons_of_pos,
          List.cons_append] at eq ⊢
        rw [eq]

/-- `trim` takes the leading white space off the string in a line. -/
theorem trim_string (behind : Char) (short : line.length < OPT_MAX_STR_SIZE) :
    trim behind line = some ((stringOf line).dropWhile isSpace) := by
  obtain ⟨rest, eq⟩ := rtrim_array behind short
  obtain ⟨rest', split⟩ := stringOf_split line rest
  simp only [trim, eq, Option.map_some, split, ltrim_array (stringOf_clean line)]

theorem trim_line (behind : Char) (clean : '\x00' ∉ line) (short : line.length < OPT_MAX_STR_SIZE) :
    trim behind line = some (line.dropWhile isSpace) := by
  have whole : stringOf line = line := by
    apply List.takeWhile_eq_self_iff.mpr
    intro c hc
    simpa using fun zero : c = '\x00' => clean (zero ▸ hc)
  rw [trim_string behind short, whole]

/-! ### The searches -/

/-- On text, the loop is the search for the key. -/
theorem optionsReadLoop_eq {fuel : Nat} {s : Input} (clean : '\x00' ∉ s.rest) :
    optionsReadLoop behind name fuel s = search (OPT_MAX_STR_SIZE - 2) name fuel s := by
  induction fuel generalizing s with
  | zero => rfl
  | succ fuel ih =>
      have split := fgets_split (OPT_MAX_STR_SIZE - 2) s
      have length := fgets_length (OPT_MAX_STR_SIZE - 2) s
      rw [← split, List.mem_append, not_or] at clean
      have trimmed := trim_line behind clean.1 (by simp only [OPT_MAX_STR_SIZE] at *; omega)
      rw [optionsReadLoop, search]
      simp only [trimmed, Option.bind_some, ih clean.2]

/-- What is found in a file of settings is what is read. -/
theorem optionsRead_finds {found : Option CString} {file : CString} (clean : '\x00' ∉ file)
    (finds : Finds (OPT_MAX_STR_SIZE - 2) name file found) :
    optionsRead behind file name = some found := by
  rw [optionsRead, optionsReadLoop_eq clean]
  exact finds _ (Nat.lt_succ_self _)

/-! ### The written files -/

/-- Keys that cannot be confused with each other or with a number. -/
structure KeySet (keys : List CString) : Prop where
  distinct : keys.Nodup
  start : ∀ k ∈ keys, k.head?.map isSpace = some false
  clean : ∀ k ∈ keys, '\n' ∉ k ∧ '=' ∉ k ∧ '\x00' ∉ k ∧ '.' ∈ k ∧ k.length < OPT_MAX_STR_SIZE - 2
  apart : ∀ k ∈ keys, ∀ k' ∈ keys, k' ≠ k → Apart k (k' ++ ['='])

theorem KeySet.key {keys : List CString} (set : KeySet keys) {k : CString} (mem : k ∈ keys) :
    Key (OPT_MAX_STR_SIZE - 2) k := by
  obtain ⟨newline, equals, -, -, fits⟩ := set.clean k mem
  refine ⟨?_, newline, equals, fits⟩
  obtain ⟨c, head, shown⟩ := Option.map_eq_some_iff.mp (set.start k mem)
  obtain ⟨rest, eq⟩ := List.head?_eq_some_iff.mp head
  exact ⟨c, rest, eq, shown⟩

theorem serverKeys_set : KeySet serverKeys :=
  ⟨by simp [serverKeys], by decide, by decide, by decide +kernel⟩

theorem clientKeys_set : KeySet clientKeys :=
  ⟨by simp [clientKeys], by decide, by decide, by decide +kernel⟩

/-- The lines that a writer produces: strings without a newline, and numbers. -/
structure Written (settings : List Setting) : Prop where
  keys : KeySet (settings.map Setting.key)
  texts : ∀ s ∈ settings, s.key ∈ textKeys → '\n' ∉ s.value ∧ '\x00' ∉ s.value
  numbers : ∀ s ∈ settings, s.key ∉ textKeys → ∃ n, s.value = printInt n

theorem server_written (proper : Proper o) : Written (serverSettings o) where
  keys := serverKeys_set
  texts := by
    have host := proper.texts o.host (by simp)
    have logdir := proper.texts o.logdir (by simp)
    have destdir := proper.texts o.destdir (by simp)
    simp only [serverSettings, List.forall_mem_cons]
    exact ⟨fun h => absurd h (by simp [textKeys]), fun _ => host, fun h => absurd h (by simp [textKeys]),
      fun _ => logdir, fun _ => destdir, fun h => absurd h (by simp [textKeys]),
      fun h => absurd h (by simp [textKeys]), fun h => absurd h (by simp [textKeys]), nofun⟩
  numbers := by
    simp only [serverSettings, List.forall_mem_cons]
    exact ⟨fun _ => ⟨_, rfl⟩, fun h => absurd (by simp [textKeys]) h, fun _ => ⟨_, rfl⟩,
      fun h => absurd (by simp [textKeys]) h, fun h => absurd (by simp [textKeys]) h,
      fun _ => ⟨_, rfl⟩, fun _ => ⟨_, rfl⟩, fun _ => ⟨_, rfl⟩, nofun⟩

theorem client_written (proper : Proper o) : Written (clientSettings o) where
  keys := clientKeys_set
  texts := by
    have host := proper.texts o.host (by simp)
    simp only [clientSettings, List.forall_mem_cons]
    exact ⟨fun h => absurd h (by simp [textKeys]), fun _ => host, fun h => absurd h (by simp [textKeys]),
      fun h => absurd h (by simp [textKeys]), nofun⟩
  numbers := by
    simp only [clientSettings, List.forall_mem_cons]
    exact ⟨fun _ => ⟨_, rfl⟩, fun h => absurd (by simp [textKeys]) h, fun _ => ⟨_, rfl⟩,
      fun _ => ⟨_, rfl⟩, nofun⟩

theorem mem_printInt {n : Int} {c : Char} (h : c ∈ printInt n) : c = '-' ∨ c.isDigit = true := by
  unfold printInt at h
  rcases List.mem_append.mp h with h | h
  · split at h
    · exact Or.inl (List.mem_singleton.mp h)
    · cases h
  · exact Or.inr (isDigit_toDigits h)

theorem Written.mixed (written : Written settings) :
    Mixed (OPT_MAX_STR_SIZE - 2) settings (fun s => s.key ∈ textKeys) := by
  have named (s : Setting) (hs : s ∈ settings) : s.key ∈ settings.map Setting.key :=
    List.mem_map_of_mem hs
  refine ⟨⟨?_, written.keys.distinct, ?_, ?_⟩, ?_⟩
  · exact fun s hs => written.keys.key (named s hs)
  · exact fun s hs t ht => written.keys.apart _ (named s hs) _ (named t ht)
  · intro s hs newline
    by_cases texts : s.key ∈ textKeys
    · exact (written.texts s hs texts).1 newline
    · obtain ⟨n, eq⟩ := written.numbers s hs texts
      rw [eq] at newline
      rcases mem_printInt newline with h | h <;> cases h
  · intro s hs number t ht inside
    obtain ⟨n, eq⟩ := written.numbers s hs number
    have dot : '.' ∈ printInt n := eq ▸ inside.mem (written.keys.clean _ (named t ht)).2.2.2.1
    rcases mem_printInt dot with h | h <;> cases h

theorem Written.clean (written : Written settings) : '\x00' ∉ text settings := by
  intro zero
  obtain ⟨s, hs, zero⟩ := List.mem_flatMap.mp zero
  simp only [Setting.line, List.mem_append, List.mem_cons, List.not_mem_nil, or_false] at zero
  rcases zero with (zero | zero | zero) | zero
  · exact (written.keys.clean _ (List.mem_map_of_mem hs)).2.2.1 zero
  · cases zero
  · by_cases texts : s.key ∈ textKeys
    · exact (written.texts s hs texts).2 zero
    · obtain ⟨n, eq⟩ := written.numbers s hs texts
      rw [eq] at zero
      rcases mem_printInt zero with h | h <;> cases h
  · cases zero

/-! ### Single options -/

section

variable {own : Setting} (written : Written settings)
include written

/-- A string that is kept is read. -/
theorem readChar_kept (behind : Char) (own_mem : own ∈ settings)
    (kept : Kept (OPT_MAX_STR_SIZE - 2) settings own) :
    optionsReadChar behind (text settings) own.key = some (some own.value) := by
  obtain ⟨line, finds, read⟩ := kept.reads written.mixed OPT_MAX_STR_SIZE (by decide) own_mem
  rw [optionsReadChar, optionsRead_finds written.clean finds]
  exact congrArg some read

/-- Strings that are read are kept. -/
theorem kept_of_readChar
    (read : ∀ s ∈ settings, s.key ∈ textKeys →
      optionsReadChar behind (text settings) s.key = some (some s.value)) :
    TextsKept settings := by
  apply written.mixed.kept_of_reads OPT_MAX_STR_SIZE (by decide)
  intro s hs texts line finds
  have found := read s hs texts
  rw [optionsReadChar, optionsRead_finds written.clean finds] at found
  exact Option.some.inj found

/-- With the strings kept, a number is read from the line that has the key. -/
theorem readShort_kept (kept : TextsKept settings) (own_mem : own ∈ settings) :
    optionsReadShort behind (text settings) own.key = some (numberAt settings own.key) := by
  obtain ⟨s, found, finds⟩ := written.mixed.finds_kept kept own_mem
  have named := written.mixed.readable.keys s (mem_of_source found).1
  rw [optionsReadShort, optionsRead_finds written.clean finds, numberAt, found]
  simp only [Option.map_some, Option.bind_some, readNumber, afterKey_line named]

end

/-- What is printed for 16 bits is short. -/
theorem length_printInt {n : Int} (small : n.natAbs < 10 ^ 5) : (printInt n).length ≤ 6 := by
  have digits : (Nat.toDigits 10 n.natAbs).length ≤ 5 :=
    (Nat.length_toDigits_le_iff (by decide) (by decide)).mpr small
  unfold printInt
  split <;> simp <;> omega

/-- A number in the line of a setting. -/
theorem scanInt_text {own : Setting} {n : Int} (value : own.value = printInt n)
    (small : n.natAbs < 10 ^ 5) (fits : own.key.length + 8 ≤ OPT_MAX_STR_SIZE - 2) :
    (scanInt ⟨own.text (OPT_MAX_STR_SIZE - 2), false⟩).1 = some n := by
  have length := length_printInt small
  have whole : own.text (OPT_MAX_STR_SIZE - 2) = printInt n ++ ['\n'] := by
    rw [Setting.text, value]
    apply List.take_of_length_le
    rw [List.length_append, List.length_singleton]
    omega
  rw [whole, scanInt_print (skipSpace_visible ((visible_printInt n).append _)) (by decide)]

/-- A number on its own line. -/
theorem numberAt_own {own : Setting} {n : Int} (found : source settings own.key = some own)
    (value : own.value = printInt n) (small : n.natAbs < 10 ^ 5)
    (fits : own.key.length + 8 ≤ OPT_MAX_STR_SIZE - 2) :
    numberAt settings own.key = some (short n) := by
  rw [numberAt, found, Option.bind_some, scanInt_text value small fits]
  rfl

theorem short_toNat (v : BitVec 16) : short v.toNat = v := by
  have bound := v.isLt
  have inside : max (-2 ^ 63) (min (v.toNat : Int) (2 ^ 63 - 1)) = v.toNat := by omega
  rw [short, inside]
  simp

theorem short_toInt (v : BitVec 16) : short v.toInt = v := by
  have low := BitVec.le_toInt v
  have high := BitVec.toInt_lt (x := v)
  have inside : max (-2 ^ 63) (min v.toInt (2 ^ 63 - 1)) = v.toInt := by omega
  rw [short, inside, BitVec.ofInt_toInt]

theorem natAbs_toInt (v : BitVec 16) : v.toInt.natAbs < 10 ^ 5 := by
  have low := BitVec.le_toInt v
  have high := BitVec.toInt_lt (x := v)
  omega

theorem natAbs_byte (b : BitVec 8) : (b.toNat : Int).natAbs < 10 ^ 5 := by
  have bound := b.isLt
  omega

theorem lowByte_bool {b : BitVec 8} (bool : b = 0 ∨ b = 1) : lowByte (short b.toNat) = b := by
  rcases bool with rfl | rfl <;> rfl

/-- An assignment that gives a value whatever was there before. -/
theorem getD_all {α : Type} {r : Option α} {v : α} (other : α) (differs : other ≠ v)
    (all : ∀ x, r.getD x = v) : r = some v := by
  cases r with
  | none => exact absurd (all other) differs
  | some w => exact congrArg some (all w)

theorem succ_ne {w : Nat} (v : BitVec (w + 1)) : v + 1 ≠ v := by
  intro same
  have := congrArg (fun x => x - v) same
  simp at this

/-! ### The server's file -/

theorem server_port :
    numberAt (serverSettings o) "server.listen.port".toList = some o.port := by
  have bound := o.port.isLt
  have fits : "server.listen.port".toList.length + 8 ≤ OPT_MAX_STR_SIZE - 2 := by decide
  calc numberAt (serverSettings o) "server.listen.port".toList = some (short o.port.toNat) :=
        @numberAt_own _ ⟨"server.listen.port".toList, printUnsigned o.port⟩ _
          (source_cons.trans (if_pos (Or.inl rfl))) rfl (by omega) fits
    _ = some o.port := by rw [short_toNat]

theorem serverValues_kept (proper : Proper o) (kept : TextsKept (serverSettings o)) :
    serverValues behind (optionsWriteForServer o) = some
      { port := some o.port
        host := some o.host
        timeout := numberAt (serverSettings o) "server.connection.timeout".toList
        logdir := some o.logdir
        destdir := some o.destdir
        maxConcurrentDownloads := numberAt (serverSettings o) "server.downloads.max".toList
        quiet := numberAt (serverSettings o) "server.mode.quiet".toList
        debug := numberAt (serverSettings o) "server.mode.debug".toList } := by
  have written := server_written proper
  have number (own : Setting) (mem : own ∈ serverSettings o) :
      optionsReadShort behind (optionsWriteForServer o) own.key =
        some (numberAt (serverSettings o) own.key) := readShort_kept written kept mem
  have word (own : Setting) (mem : own ∈ serverSettings o) (texts : own.key ∈ textKeys) :
      optionsReadChar behind (optionsWriteForServer o) own.key = some (some own.value) :=
    readChar_kept written behind mem (kept own mem texts)
  have ip : "server.listen.ip".toList ∈ textKeys := by simp [textKeys]
  have log : "server.directory.log".toList ∈ textKeys := by simp [textKeys]
  have dest : "server.directory.dest".toList ∈ textKeys := by simp [textKeys]
  have port := number ⟨"server.listen.port".toList, printUnsigned o.port⟩ (.head _)
  have host := word ⟨"server.listen.ip".toList, o.host⟩ (.tail _ (.head _)) ip
  have timeout := number ⟨"server.connection.timeout".toList, printShort o.timeout⟩
    (.tail _ (.tail _ (.head _)))
  have logdir := word ⟨"server.directory.log".toList, o.logdir⟩
    (.tail _ (.tail _ (.tail _ (.head _)))) log
  have destdir := word ⟨"server.directory.dest".toList, o.destdir⟩
    (.tail _ (.tail _ (.tail _ (.tail _ (.head _))))) dest
  have downloads := number ⟨"server.downloads.max".toList, printShort o.maxConcurrentDownloads⟩
    (.tail _ (.tail _ (.tail _ (.tail _ (.tail _ (.head _))))))
  have quiet := number ⟨"server.mode.quiet".toList, printBool o.quiet⟩
    (.tail _ (.tail _ (.tail _ (.tail _ (.tail _ (.tail _ (.head _)))))))
  have debug := number ⟨"server.mode.debug".toList, printBool o.debug⟩
    (.tail _ (.tail _ (.tail _ (.tail _ (.tail _ (.tail _ (.tail _ (.head _))))))))
  simp only [serverValues, port, host, timeout, logdir, destdir, downloads, quiet, debug,
    Option.bind_eq_bind, Option.bind_some, server_port]

/-- The strings of the server are read back when they are kept. -/
theorem server_texts {v : ServerValues} (proper : Proper o)
    (read : serverValues behind (optionsWriteForServer o) = some v) (host : v.host = some o.host)
    (logdir : v.logdir = some o.logdir) (destdir : v.destdir = some o.destdir) :
    TextsKept (serverSettings o) := by
  simp only [serverValues, Option.bind_eq_bind, Option.bind_eq_some_iff] at read
  obtain ⟨_, -, _, readHost, _, -, _, readLogdir, _, readDestdir, _, -, _, -, _, -, eq⟩ := read
  cases eq
  cases host
  cases logdir
  cases destdir
  apply kept_of_readChar (server_written proper)
  intro s hs
  simp only [serverSettings, List.mem_cons, List.not_mem_nil, or_false] at hs
  rcases hs with rfl | rfl | rfl | rfl | rfl | rfl | rfl | rfl
  · exact fun h => absurd h (by simp [textKeys])
  · exact fun _ => readHost
  · exact fun h => absurd h (by simp [textKeys])
  · exact fun _ => readLogdir
  · exact fun _ => readDestdir
  · exact fun h => absurd h (by simp [textKeys])
  · exact fun h => absurd h (by simp [textKeys])
  · exact fun h => absurd h (by simp [textKeys])

/-- What the server writes, it reads back exactly when the options are restorable. -/
theorem server_round_trip_iff (proper : Proper o) (behind : Char) :
    (∀ dest, ∃ d, optionsReadForServer behind dest (optionsWriteForServer o) = some d ∧
      ServerRestored o d) ↔ ServerRestorable o := by
  constructor
  · intro all
    obtain ⟨d, read, -⟩ := all o
    obtain ⟨v, values, -⟩ := Option.map_eq_some_iff.mp read
    have restored (dest : Options) : ServerRestored o (v.assign dest) := by
      obtain ⟨d, read, restored⟩ := all dest
      rw [optionsReadForServer, values] at read
      cases read
      exact restored
    have host : v.host = some o.host := by
      apply getD_all ('x' :: o.host) (by simp)
      exact fun x => (restored { o with host := x }).host
    have logdir : v.logdir = some o.logdir := by
      apply getD_all ('x' :: o.logdir) (by simp)
      exact fun x => (restored { o with logdir := x }).logdir
    have destdir : v.destdir = some o.destdir := by
      apply getD_all ('x' :: o.destdir) (by simp)
      exact fun x => (restored { o with destdir := x }).destdir
    have kept := server_texts proper values host logdir destdir
    rw [serverValues_kept proper kept] at values
    cases values
    refine ⟨kept, ?_, ?_, ?_, ?_⟩
    · apply getD_all (o.timeout + 1) (succ_ne _)
      exact fun x => (restored { o with timeout := x }).timeout
    · apply getD_all (o.maxConcurrentDownloads + 1) (succ_ne _)
      exact fun x => (restored { o with maxConcurrentDownloads := x }).maxConcurrentDownloads
    · apply getD_all (o.quiet + 1) (succ_ne _)
      exact fun x => (restored { o with quiet := x }).quiet
    · apply getD_all (o.debug + 1) (succ_ne _)
      intro x
      rw [Option.getD_or]
      exact (restored { o with debug := x }).debug
  · intro restorable dest
    refine ⟨_, congrArg (Option.map _) (serverValues_kept proper restorable.texts), ?_⟩
    constructor
    · rfl
    · rfl
    · change (numberAt _ _).getD _ = _
      rw [restorable.timeout]
      rfl
    · rfl
    · rfl
    · change (numberAt _ _).getD _ = _
      rw [restorable.maxConcurrentDownloads]
      rfl
    · change ((numberAt _ _).map _).getD _ = _
      rw [restorable.quiet]
      rfl
    · change ((numberAt _ _).map _).getD (((numberAt _ _).map _).getD _) = _
      rw [← Option.getD_or, restorable.debug]
      rfl

/-! ### The client's file -/

theorem client_port :
    numberAt (clientSettings o) "client.server.port".toList = some o.port := by
  have bound := o.port.isLt
  have fits : "client.server.port".toList.length + 8 ≤ OPT_MAX_STR_SIZE - 2 := by decide
  calc numberAt (clientSettings o) "client.server.port".toList = some (short o.port.toNat) :=
        @numberAt_own _ ⟨"client.server.port".toList, printUnsigned o.port⟩ _
          (source_cons.trans (if_pos (Or.inl rfl))) rfl (by omega) fits
    _ = some o.port := by rw [short_toNat]

theorem clientValues_kept (proper : Proper o) (kept : TextsKept (clientSettings o)) :
    clientValues behind (optionsWriteForClient o) = some
      { port := some o.port
        host := some o.host
        timeout := numberAt (clientSettings o) "client.connection.timeout".toList
        keepAlive := numberAt (clientSettings o) "client.connection.keepalive".toList } := by
  have written := client_written proper
  have number (own : Setting) (mem : own ∈ clientSettings o) :
      optionsReadShort behind (optionsWriteForClient o) own.key =
        some (numberAt (clientSettings o) own.key) := readShort_kept written kept mem
  have ip : "client.server.ip".toList ∈ textKeys := by simp [textKeys]
  have host_mem : ⟨"client.server.ip".toList, o.host⟩ ∈ clientSettings o := .tail _ (.head _)
  have port := number ⟨"client.server.port".toList, printUnsigned o.port⟩ (.head _)
  have host := readChar_kept written behind host_mem (kept _ host_mem ip)
  have timeout := number ⟨"client.connection.timeout".toList, printShort o.timeout⟩
    (.tail _ (.tail _ (.head _)))
  have keepAlive := number ⟨"client.connection.keepalive".toList, printBool o.keepAlive⟩
    (.tail _ (.tail _ (.tail _ (.head _))))
  rw [← optionsWriteForClient] at host
  simp only [clientValues, port, host, timeout, keepAlive, Option.bind_eq_bind, Option.bind_some,
    client_port]

theorem client_texts {v : ClientValues} (proper : Proper o)
    (read : clientValues behind (optionsWriteForClient o) = some v) (host : v.host = some o.host) :
    TextsKept (clientSettings o) := by
  simp only [clientValues, Option.bind_eq_bind, Option.bind_eq_some_iff] at read
  obtain ⟨_, -, _, readHost, _, -, _, -, eq⟩ := read
  cases eq
  cases host
  apply kept_of_readChar (client_written proper)
  intro s hs
  simp only [clientSettings, List.mem_cons, List.not_mem_nil, or_false] at hs
  rcases hs with rfl | rfl | rfl | rfl
  · exact fun h => absurd h (by simp [textKeys])
  · exact fun _ => readHost
  · exact fun h => absurd h (by simp [textKeys])
  · exact fun h => absurd h (by simp [textKeys])

/-- What the client writes, it reads back exactly when the options are restorable. -/
theorem client_round_trip_iff (proper : Proper o) (behind : Char) :
    (∀ dest, ∃ d, optionsReadForClient behind dest (optionsWriteForClient o) = some d ∧
      ClientRestored o d) ↔ ClientRestorable o := by
  constructor
  · intro all
    obtain ⟨d, read, -⟩ := all o
    obtain ⟨v, values, -⟩ := Option.map_eq_some_iff.mp read
    have restored (dest : Options) : ClientRestored o (v.assign dest) := by
      obtain ⟨d, read, restored⟩ := all dest
      rw [optionsReadForClient, values] at read
      cases read
      exact restored
    have host : v.host = some o.host := by
      apply getD_all ('x' :: o.host) (by simp)
      exact fun x => (restored { o with host := x }).host
    have kept := client_texts proper values host
    rw [clientValues_kept proper kept] at values
    cases values
    refine ⟨kept, ?_, ?_⟩
    · apply getD_all (o.timeout + 1) (succ_ne _)
      exact fun x => (restored { o with timeout := x }).timeout
    · apply getD_all (o.keepAlive + 1) (succ_ne _)
      exact fun x => (restored { o with keepAlive := x }).keepAlive
  · intro restorable dest
    refine ⟨_, congrArg (Option.map _) (clientValues_kept proper restorable.texts), ?_⟩
    constructor
    · rfl
    · rfl
    · change (numberAt _ _).getD _ = _
      rw [restorable.timeout]
      rfl
    · change ((numberAt _ _).map _).getD _ = _
      rw [restorable.keepAlive]
      rfl

/-! ### Strings without keys -/

/-- The strings are words that fit, and no key occurs in them. -/
def Unambiguous (settings : List Setting) : Prop :=
  ∀ s ∈ settings, s.key ∈ textKeys →
    Plain (OPT_MAX_STR_SIZE - 2 - (s.key.length + 1)) s.value ∧
      ∀ t ∈ settings, ¬ t.key <:+: s.value

theorem Unambiguous.source (clear : Unambiguous settings) (written : Written settings)
    {own : Setting} (own_mem : own ∈ settings) : source settings own.key = some own := by
  apply source_own written.mixed.readable.distinct own_mem
  intro s hs
  by_cases texts : s.key ∈ textKeys
  · exact (clear s hs texts).2 own own_mem
  · exact written.mixed.numbers s hs texts own own_mem

theorem Unambiguous.kept (clear : Unambiguous settings) (written : Written settings) :
    TextsKept settings :=
  fun s hs texts => ⟨s, clear.source written hs, rfl, (clear s hs texts).1⟩

/-- Such options come back to the server. -/
theorem server_restorable (proper : Proper o) (clear : Unambiguous (serverSettings o)) :
    ServerRestorable o := by
  have written := server_written proper
  have number (own : Setting) (n : Int) (mem : own ∈ serverSettings o) (value : own.value = printInt n)
      (small : n.natAbs < 10 ^ 5) : numberAt (serverSettings o) own.key = some (short n) := by
    apply numberAt_own (clear.source written mem) value small
    have fits : ∀ k ∈ serverKeys, k.length + 8 ≤ OPT_MAX_STR_SIZE - 2 := by decide
    exact fits _ (List.mem_map_of_mem mem)
  have timeout := number ⟨"server.connection.timeout".toList, printShort o.timeout⟩ _
    (.tail _ (.tail _ (.head _))) rfl (natAbs_toInt o.timeout)
  have downloads := number ⟨"server.downloads.max".toList, printShort o.maxConcurrentDownloads⟩ _
    (.tail _ (.tail _ (.tail _ (.tail _ (.tail _ (.head _)))))) rfl (natAbs_toInt o.maxConcurrentDownloads)
  have quiet := number ⟨"server.mode.quiet".toList, printBool o.quiet⟩ _
    (.tail _ (.tail _ (.tail _ (.tail _ (.tail _ (.tail _ (.head _))))))) rfl (natAbs_byte o.quiet)
  have debug := number ⟨"server.mode.debug".toList, printBool o.debug⟩ _
    (.tail _ (.tail _ (.tail _ (.tail _ (.tail _ (.tail _ (.tail _ (.head _)))))))) rfl (natAbs_byte o.debug)
  dsimp only at timeout downloads quiet debug
  refine ⟨clear.kept written, ?_, ?_, ?_, ?_⟩
  · rw [timeout, short_toInt]
  · rw [downloads, short_toInt]
  · rw [quiet]
    exact congrArg some (lowByte_bool (proper.bools o.quiet (by simp)))
  · rw [debug]
    exact congrArg some (lowByte_bool (proper.bools o.debug (by simp)))

/-- Such options come back to the client. -/
theorem client_restorable (proper : Proper o) (clear : Unambiguous (clientSettings o)) :
    ClientRestorable o := by
  have written := client_written proper
  have number (own : Setting) (n : Int) (mem : own ∈ clientSettings o) (value : own.value = printInt n)
      (small : n.natAbs < 10 ^ 5) : numberAt (clientSettings o) own.key = some (short n) := by
    apply numberAt_own (clear.source written mem) value small
    have fits : ∀ k ∈ clientKeys, k.length + 8 ≤ OPT_MAX_STR_SIZE - 2 := by decide
    exact fits _ (List.mem_map_of_mem mem)
  have timeout := number ⟨"client.connection.timeout".toList, printShort o.timeout⟩ _
    (.tail _ (.tail _ (.head _))) rfl (natAbs_toInt o.timeout)
  have keepAlive := number ⟨"client.connection.keepalive".toList, printBool o.keepAlive⟩ _
    (.tail _ (.tail _ (.tail _ (.head _)))) rfl (natAbs_byte o.keepAlive)
  dsimp only at timeout keepAlive
  refine ⟨clear.kept written, ?_, ?_⟩
  · rw [timeout, short_toInt]
  · rw [keepAlive]
    exact congrArg some (lowByte_bool (proper.bools o.keepAlive (by simp)))

/-! ### Both files -/

/-- The options that a program writes to its file come back, whatever was there before,
exactly when they are restorable. -/
theorem options_round_trip_iff (proper : Proper o) (behind : Char) :
    ((∀ dest, ∃ d, optionsReadForServer behind dest (optionsWriteForServer o) = some d ∧
      ServerRestored o d) ↔ ServerRestorable o) ∧
    ((∀ dest, ∃ d, optionsReadForClient behind dest (optionsWriteForClient o) = some d ∧
      ClientRestored o d) ↔ ClientRestorable o) :=
  ⟨server_round_trip_iff proper behind, client_round_trip_iff proper behind⟩

/-- Options with a host, and the two directories. -/
def hostOptions (host : CString) : Options :=
  { port := 80, host := host, timeout := 10, logdir := ['l'], destdir := ['d'],
    maxConcurrentDownloads := 20, keepAlive := 0, quiet := 0, debug := 1 }

theorem options_round_trip_run :
    (∀ dest, ∃ d, optionsReadForServer ' ' dest (optionsWriteForServer (hostOptions ['h'])) = some d ∧
      ServerRestored (hostOptions ['h']) d) ∧
    ∀ dest, ∃ d, optionsReadForClient ' ' dest (optionsWriteForClient (hostOptions ['h'])) = some d ∧
      ClientRestored (hostOptions ['h']) d := by
  have proper : Proper (hostOptions ['h']) := ⟨by decide, by decide⟩
  have letters {settings : List Setting} (written : Written settings)
      (one : ∀ s ∈ settings, s.key ∈ textKeys → s.value ∈ [['h'], ['l'], ['d']]) :
      Unambiguous settings := by
    intro s hs texts
    have room : ∀ k ∈ textKeys, 1 ≤ OPT_MAX_STR_SIZE - 2 - (k.length + 1) := by decide
    have letter : ∀ v ∈ [['h'], ['l'], ['d']],
        v ≠ [] ∧ (∀ c ∈ v, isSpace c = false) ∧ v.length ≤ 1 ∧ '.' ∉ v := by simp [isSpace]
    obtain ⟨nonempty, word, length, dot⟩ := letter s.value (one s hs texts)
    refine ⟨⟨nonempty, word, Nat.le_trans length (room _ texts)⟩, fun t ht inside => dot ?_⟩
    exact inside.mem (written.keys.clean _ (List.mem_map_of_mem ht)).2.2.2.1
  have server : Unambiguous (serverSettings (hostOptions ['h'])) :=
    letters (server_written proper) (by simp [serverSettings, textKeys, hostOptions])
  have client : Unambiguous (clientSettings (hostOptions ['h'])) :=
    letters (client_written proper) (by simp [clientSettings, textKeys, hostOptions])
  obtain ⟨serverIff, clientIff⟩ := options_round_trip_iff proper ' '
  exact ⟨serverIff.mpr (server_restorable proper server), clientIff.mpr (client_restorable proper client)⟩

/-- A host with a space in it comes back cut. -/
theorem host_cut : ¬ ∀ (o : Options) (behind : Char), Proper o →
    (∀ s ∈ [o.host, o.logdir, o.destdir], s.length ≤ 255) →
      (∀ dest, ∃ d, optionsReadForServer behind dest (optionsWriteForServer o) = some d ∧
        ServerRestored o d) ∧
      ∀ dest, ∃ d, optionsReadForClient behind dest (optionsWriteForClient o) = some d ∧
        ClientRestored o d := by
  intro all
  have proper : Proper (hostOptions ['a', ' ', 'b']) := ⟨by decide, by decide⟩
  have restorable := (client_round_trip_iff proper ' ').mp
    (all (hostOptions ['a', ' ', 'b']) ' ' proper (by decide)).2
  obtain ⟨s, -, -, plain⟩ := restorable.texts ⟨"client.server.ip".toList, ['a', ' ', 'b']⟩
    (.tail _ (.head _)) (by simp [textKeys])
  exact absurd (plain.word ' ' (by decide)) (by decide)

end

end Dserve
