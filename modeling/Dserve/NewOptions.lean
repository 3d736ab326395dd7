import Dserve.Lookup

/-!
`options_new`: the options object, from the file or from the defaults.

The object is allocated and not cleared. What a file does not give keeps the contents of the
memory: `options_new_determined_iff` says which keys a file must have for the object to depend
on nothing else. The constructor for the server runs into the one for the client, which looks
for its own keys in the same file, so that these may stand in for a key of the server's.
-/

namespace Dserve

open Scan Settings

/-- `options_t` without the name of the file. -/
structure OptionsObject extends Options where
  queueRetryCount : BitVec 16
  queueRetryWait : BitVec 16
deriving DecidableEq

/-- `options_type_t` -/
inductive OptionsType where
  | client
  | server
deriving DecidableEq

/-- The programs that `options.c` is built into: `DSSERVER` is defined for the server. -/
inductive Program where
  | client
  | server
deriving DecidableEq

def OPT_DEFAULT_MAX_CONCURRENT_DOWNLOADS : BitVec 16 := 20

def OPT_DEFAULT_Q_RETRY_COUNT : BitVec 16 := 10

def OPT_DEFAULT_Q_RETRY_WAIT : BitVec 16 := 100

def OPT_DEFAULT_PORT : BitVec 16 := 62434

def OPT_DEFAULT_TIMEOUT : BitVec 16 := 10

def OPT_DOWNLOAD_DIR : CString := "Downloads".toList

def OPT_LOG_DIR : CString := "logs".toList

def OPT_DEFAULT_ALTERNATE_DIR : CString := "tmp".toList

def FILE_SEPARATOR : CString := "/".toList

/-- `OPT_DEFAULT_HOST` -/
def Program.defaultHost : Program → CString
  | .server => "0.0.0.0".toList
  | .client => "127.0.0.1".toList

/-- `DS_DEFAULT_DIR` -/
def Program.defaultDir : Program → CString
  | .server => ".dsserver".toList
  | .client => ".dsclient".toList

/-- `options_set_string`, with the text that its format makes. -/
def optionsSetString (size : Nat) (text : CString) : CString := text.take (size - 1)

/-- `options_set_logdir` -/
def optionsSetLogdir (program : Program) (dir : Option CString) : CString :=
  let dir := dir.getD OPT_DEFAULT_ALTERNATE_DIR
  optionsSetString OPT_MAX_STR_SIZE (dir ++ FILE_SEPARATOR ++ program.defaultDir ++ FILE_SEPARATOR ++
    OPT_LOG_DIR ++ FILE_SEPARATOR)

/-- `options_set_destdir` -/
def optionsSetDestdir (dir : Option CString) : CString :=
  let dir := dir.getD OPT_DEFAULT_ALTERNATE_DIR
  optionsSetString OPT_MAX_STR_SIZE (dir ++ FILE_SEPARATOR ++ OPT_DOWNLOAD_DIR)

/-- `options_new_for_server`. The file is none when it does not exist; the object and the file
afterwards are returned. -/
def optionsNewForServer (behind : Char) (program : Program) (home : Option CString)
    (ret : OptionsObject) (file : Option CString) : Option (OptionsObject × CString) := do
  let (options, file) ← match file with
    | none =>
        let options := { ret.toOptions with
          quiet := 0
          debug := 1
          maxConcurrentDownloads := OPT_DEFAULT_MAX_CONCURRENT_DOWNLOADS
          port := OPT_DEFAULT_PORT
          host := optionsSetString (OPT_MAX_STR_SIZE - 1) program.defaultHost
          logdir := optionsSetLogdir program home
          destdir := optionsSetDestdir home }
        some (options, optionsWriteForServer options)
    | some file => (optionsReadForServer behind ret.toOptions file).map fun options => (options, file)
  some (
    { toOptions := { options with timeout := OPT_DEFAULT_TIMEOUT }
      queueRetryCount := OPT_DEFAULT_Q_RETRY_COUNT
      queueRetryWait := OPT_DEFAULT_Q_RETRY_WAIT }, file)

/-- `options_new_for_client` -/
def optionsNewForClient (behind : Char) (program : Program) (ret : OptionsObject)
    (file : Option CString) : Option (OptionsObject × CString) :=
  match file with
  | none =>
      let options := { ret.toOptions with
        timeout := OPT_DEFAULT_TIMEOUT
        keepAlive := 0
        port := OPT_DEFAULT_PORT
        host := optionsSetString (OPT_MAX_STR_SIZE - 1) program.defaultHost }
      some ({ ret with toOptions := options }, optionsWriteForClient options)
  | some file =>
      (optionsReadForClient behind ret.toOptions file).map fun options =>
        ({ ret with toOptions := options }, file)

/-- `options_new`, with the memory that `malloc` gives. -/
def optionsNew (behind : Char) (program : Program) (home : Option CString) (type : OptionsType)
    (ret : OptionsObject) (file : Option CString) : Option (OptionsObject × CString) :=
  match type with
  | .server =>
      (optionsNewForServer behind program home ret file).bind fun (ret, file) =>
        optionsNewForClient behind program ret (some file)
  | .client => optionsNewForClient behind program ret file

/-! ### An existing file -/

/-- What a file gives the server. -/
def serverFound (file : CString) : ServerValues where
  port := found asShort file "server.listen.port".toList
  host := found asWord file "server.listen.ip".toList
  timeout := found asShort file "server.connection.timeout".toList
  logdir := found asWord file "server.directory.log".toList
  destdir := found asWord file "server.directory.dest".toList
  maxConcurrentDownloads := found asShort file "server.downloads.max".toList
  quiet := found asShort file "server.mode.quiet".toList
  debug := found asShort file "server.mode.debug".toList

/-- What a file gives the client. -/
def clientFound (file : CString) : ClientValues where
  port := found asShort file "client.server.port".toList
  host := found asWord file "client.server.ip".toList
  timeout := found asShort file "client.connection.timeout".toList
  keepAlive := found asShort file "client.connection.keepalive".toList

/-- The client's object: the memory, as far as the file does not say otherwise. -/
def clientObject (ret : OptionsObject) (file : CString) : OptionsObject :=
  { ret with toOptions := (clientFound file).assign ret.toOptions }

/-- The server's object. -/
def serverObject (ret : OptionsObject) (file : CString) : OptionsObject :=
  clientObject
    { toOptions := { (serverFound file).assign ret.toOptions with timeout := OPT_DEFAULT_TIMEOUT }
      queueRetryCount := OPT_DEFAULT_Q_RETRY_COUNT
      queueRetryWait := OPT_DEFAULT_Q_RETRY_WAIT } file

section

variable {behind : Char} {program : Program} {home : Option CString} {ret : OptionsObject}
  {file : CString}

theorem serverValues_found (behind : Char) (file : CString) :
    serverValues behind file = some (serverFound file) := by
  simp only [serverValues, optionsReadShort_eq, optionsReadChar_eq, Option.bind_eq_bind,
    Option.bind_some, serverFound]

theorem clientValues_found (behind : Char) (file : CString) :
    clientValues behind file = some (clientFound file) := by
  simp only [clientValues, optionsReadShort_eq, optionsReadChar_eq, Option.bind_eq_bind,
    Option.bind_some, clientFound]

theorem optionsNew_client :
    optionsNew behind program home .client ret (some file) = some (clientObject ret file, file) := by
  simp only [optionsNew, optionsNewForClient, optionsReadForClient, clientValues_found,
    Option.map_some, clientObject]

theorem optionsNew_server :
    optionsNew behind program home .server ret (some file) = some (serverObject ret file, file) := by
  simp only [optionsNew, optionsNewForServer, optionsNewForClient, optionsReadForServer,
    optionsReadForClient, serverValues_found, clientValues_found, Option.map_some,
    Option.bind_eq_bind, Option.bind_some, serverObject, clientObject]

end

/-! ### What the object depends on -/

/-- The objects agree on what the server reads. -/
structure ServerAgree (o o' : OptionsObject) : Prop where
  port : o.port = o'.port
  timeout : o.timeout = o'.timeout
  logdir : o.logdir = o'.logdir
  destdir : o.destdir = o'.destdir
  maxConcurrentDownloads : o.maxConcurrentDownloads = o'.maxConcurrentDownloads
  queueRetryCount : o.queueRetryCount = o'.queueRetryCount
  queueRetryWait : o.queueRetryWait = o'.queueRetryWait
  quiet : o.quiet = o'.quiet
  debug : o.debug = o'.debug

/-- The objects agree on what the client reads. -/
structure ClientAgree (o o' : OptionsObject) : Prop where
  host : o.host = o'.host
  port : o.port = o'.port
  timeout : o.timeout = o'.timeout
  keepAlive : o.keepAlive = o'.keepAlive

/-- Any two runs on the file return objects that agree. -/
def Determined (agree : OptionsObject → OptionsObject → Prop) (type : OptionsType) (file : CString) :
    Prop :=
  ∀ (program : Program) (home : Option CString) (behind behind' : Char) (ret ret' : OptionsObject),
    ∃ o o', optionsNew behind program home type ret (some file) = some (o, file) ∧
      optionsNew behind' program home type ret' (some file) = some (o', file) ∧ agree o o'

/-- The first piece of the file with the name has a number behind its first `=`. -/
def HasNumber (file name : CString) : Prop :=
  ∃ piece text n, firstPiece file name = some piece ∧ afterKey piece = some text ∧
    (scanInt ⟨text, false⟩).1 = some n

/-- The first piece of the file with the name has a word behind its first `=`. -/
def HasWord (file name : CString) : Prop :=
  ∃ piece text, firstPiece file name = some piece ∧ afterKey piece = some text ∧
    ∃ c ∈ text, isSpace c = false

/-- The file gives what the server reads. The bools that are read as `short` also give the byte
behind them. -/
structure ServerGiven (file : CString) : Prop where
  port : HasNumber file "server.listen.port".toList ∨ HasNumber file "client.server.port".toList
  logdir : HasWord file "server.directory.log".toList
  destdir : HasWord file "server.directory.dest".toList
  maxConcurrentDownloads : HasNumber file "server.downloads.max".toList
  quiet : HasNumber file "server.mode.quiet".toList ∨
    HasNumber file "client.connection.keepalive".toList
  debug : HasNumber file "server.mode.debug".toList ∨ HasNumber file "server.mode.quiet".toList

/-- The file gives what the client reads. -/
structure ClientGiven (file : CString) : Prop where
  host : HasWord file "client.server.ip".toList
  port : HasNumber file "client.server.port".toList
  timeout : HasNumber file "client.connection.timeout".toList
  keepAlive : HasNumber file "client.connection.keepalive".toList

section

variable {file name : CString}

theorem found_isSome {α : Type} {convert : CString → Option α} :
    (found convert file name).isSome = true ↔
      ∃ piece text v, firstPiece file name = some piece ∧ afterKey piece = some text ∧
        convert text = some v := by
  simp only [found, Option.isSome_iff_exists, Option.bind_eq_some_iff]
  constructor
  · rintro ⟨v, piece, first, text, behind, read⟩
    exact ⟨piece, text, v, first, behind, read⟩
  · rintro ⟨piece, text, v, first, behind, read⟩
    exact ⟨v, piece, first, text, behind, read⟩

theorem hasNumber_iff : HasNumber file name ↔ (found asShort file name).isSome = true := by
  rw [found_isSome]
  constructor
  · rintro ⟨piece, text, n, first, behind, read⟩
    exact ⟨piece, text, short n, first, behind, by rw [asShort, read, Option.map_some]⟩
  · rintro ⟨piece, text, v, first, behind, read⟩
    obtain ⟨n, read, -⟩ := Option.map_eq_some_iff.mp read
    exact ⟨piece, text, n, first, behind, read⟩

/-- A word is read where there is one. -/
theorem asWord_some {text : CString} : (∃ w, asWord text = some w) ↔ ∃ c ∈ text, isSpace c = false := by
  have blank : text.dropWhile isSpace = [] ↔ ∀ c ∈ text, isSpace c = true := List.dropWhile_eq_nil_iff
  simp only [asWord, scanWord, Input.skipSpace, Input.span]
  cases shown : text.dropWhile isSpace with
  | nil =>
      have all := blank.mp shown
      constructor
      · rintro ⟨w, read⟩
        cases read
      · rintro ⟨c, hc, visible⟩
        rw [all c hc] at visible
        cases visible
  | cons c rest =>
      constructor
      · intro _
        by_contra none
        have all : text.dropWhile isSpace = [] := by
          apply blank.mpr
          intro c hc
          by_contra visible
          exact none ⟨c, hc, by simpa using visible⟩
        rw [all] at shown
        cases shown
      · intro _
        exact ⟨_, rfl⟩

theorem hasWord_iff : HasWord file name ↔ (found asWord file name).isSome = true := by
  rw [found_isSome]
  constructor
  · rintro ⟨piece, text, first, behind, word⟩
    obtain ⟨w, read⟩ := asWord_some.mpr word
    exact ⟨piece, text, w, first, behind, read⟩
  · rintro ⟨piece, text, w, first, behind, read⟩
    exact ⟨piece, text, first, behind, asWord_some.mp ⟨w, read⟩⟩

/-- What does not depend on the contents of the memory has been read. -/
theorem isSome_of_getD {α : Type} {r : Option α} {x y : α} (differ : x ≠ y)
    (same : r.getD x = r.getD y) : r.isSome = true := by
  cases r with
  | none => exact absurd same differ
  | some v => rfl

theorem getD_eq_of_isSome {α : Type} {r : Option α} (read : r.isSome = true) (x y : α) :
    r.getD x = r.getD y := by
  obtain ⟨v, rfl⟩ := Option.isSome_iff_exists.mp read
  rfl

/-- The object on either of two memories. -/
theorem determined_server {agree : OptionsObject → OptionsObject → Prop} :
    Determined agree .server file ↔ ∀ ret ret', agree (serverObject ret file) (serverObject ret' file) := by
  constructor
  · intro determined ret ret'
    obtain ⟨o, o', new, new', same⟩ := determined .server none ' ' ' ' ret ret'
    rw [optionsNew_server] at new new'
    cases new
    cases new'
    exact same
  · intro all program home behind behind' ret ret'
    exact ⟨_, _, optionsNew_server, optionsNew_server, all ret ret'⟩

theorem determined_client {agree : OptionsObject → OptionsObject → Prop} :
    Determined agree .client file ↔ ∀ ret ret', agree (clientObject ret file) (clientObject ret' file) := by
  constructor
  · intro determined ret ret'
    obtain ⟨o, o', new, new', same⟩ := determined .client none ' ' ' ' ret ret'
    rw [optionsNew_client] at new new'
    cases new
    cases new'
    exact same
  · intro all program home behind behind' ret ret'
    exact ⟨_, _, optionsNew_client, optionsNew_client, all ret ret'⟩

/-- Memory that has the same everywhere. -/
def filled (v : BitVec 16) (b : BitVec 8) (s : CString) : OptionsObject :=
  { port := v, host := s, timeout := v, logdir := s, destdir := s, maxConcurrentDownloads := v,
    keepAlive := b, quiet := b, debug := b, queueRetryCount := v, queueRetryWait := v }

/-! The server's fields that two reads can give. -/

theorem serverObject_port (ret : OptionsObject) : (serverObject ret file).port =
    ((clientFound file).port.or (serverFound file).port).getD ret.port := (Option.getD_or ..).symm

theorem serverObject_quiet (ret : OptionsObject) : (serverObject ret file).quiet =
    (((clientFound file).keepAlive.map highByte).or ((serverFound file).quiet.map lowByte)).getD
      ret.quiet := (Option.getD_or ..).symm

theorem serverObject_debug (ret : OptionsObject) : (serverObject ret file).debug =
    (((serverFound file).debug.map lowByte).or ((serverFound file).quiet.map highByte)).getD
      ret.debug := (Option.getD_or ..).symm

/-- The object of the server does not depend on the memory exactly when the file gives every
field. -/
theorem server_determined_iff : Determined ServerAgree .server file ↔ ServerGiven file := by
  rw [determined_server]
  constructor
  · intro all
    have agree := all (filled 0 0 []) (filled 1 1 ['x'])
    have words : ([] : CString) ≠ ['x'] := by simp
    have port := agree.port
    have quiet := agree.quiet
    have debug := agree.debug
    rw [serverObject_port, serverObject_port] at port
    rw [serverObject_quiet, serverObject_quiet] at quiet
    rw [serverObject_debug, serverObject_debug] at debug
    constructor
    · have read := isSome_of_getD (by decide) port
      rw [Option.isSome_or, Bool.or_eq_true] at read
      exact read.symm.imp hasNumber_iff.mpr hasNumber_iff.mpr
    · exact hasWord_iff.mpr (isSome_of_getD words agree.logdir)
    · exact hasWord_iff.mpr (isSome_of_getD words agree.destdir)
    · exact hasNumber_iff.mpr (isSome_of_getD (by decide) agree.maxConcurrentDownloads)
    · have read := isSome_of_getD (by decide) quiet
      rw [Option.isSome_or, Bool.or_eq_true, Option.isSome_map, Option.isSome_map] at read
      exact read.symm.imp hasNumber_iff.mpr hasNumber_iff.mpr
    · have read := isSome_of_getD (by decide) debug
      rw [Option.isSome_or, Bool.or_eq_true, Option.isSome_map, Option.isSome_map] at read
      exact read.imp hasNumber_iff.mpr hasNumber_iff.mpr
  · intro given ret ret'
    constructor
    · rw [serverObject_port, serverObject_port]
      apply getD_eq_of_isSome
      rw [Option.isSome_or, Bool.or_eq_true]
      exact given.port.symm.imp hasNumber_iff.mp hasNumber_iff.mp
    · rfl
    · exact getD_eq_of_isSome (hasWord_iff.mp given.logdir) _ _
    · exact getD_eq_of_isSome (hasWord_iff.mp given.destdir) _ _
    · exact getD_eq_of_isSome (hasNumber_iff.mp given.maxConcurrentDownloads) _ _
    · rfl
    · rfl
    · rw [serverObject_quiet, serverObject_quiet]
      apply getD_eq_of_isSome
      rw [Option.isSome_or, Bool.or_eq_true, Option.isSome_map, Option.isSome_map]
      exact given.quiet.symm.imp hasNumber_iff.mp hasNumber_iff.mp
    · rw [serverObject_debug, serverObject_debug]
      apply getD_eq_of_isSome
      rw [Option.isSome_or, Bool.or_eq_true, Option.isSome_map, Option.isSome_map]
      exact given.debug.imp hasNumber_iff.mp hasNumber_iff.mp

/-- The same of the client. -/
theorem client_determined_iff : Determined ClientAgree .client file ↔ ClientGiven file := by
  rw [determined_client]
  constructor
  · intro all
    have agree := all (filled 0 0 []) (filled 1 1 ['x'])
    have words : ([] : CString) ≠ ['x'] := by simp
    constructor
    · exact hasWord_iff.mpr (isSome_of_getD words agree.host)
    · exact hasNumber_iff.mpr (isSome_of_getD (by decide) agree.port)
    · exact hasNumber_iff.mpr (isSome_of_getD (by decide) agree.timeout)
    · have read := isSome_of_getD (by decide) agree.keepAlive
      rw [Option.isSome_map] at read
      exact hasNumber_iff.mpr read
  · intro given ret ret'
    constructor
    · exact getD_eq_of_isSome (hasWord_iff.mp given.host) _ _
    · exact getD_eq_of_isSome (hasNumber_iff.mp given.port) _ _
    · exact getD_eq_of_isSome (hasNumber_iff.mp given.timeout) _ _
    · apply getD_eq_of_isSome
      rw [Option.isSome_map]
      exact hasNumber_iff.mp given.keepAlive

/-- The object that `options_new` returns for a file is determined by the file exactly when the
file gives every field that the program reads. -/
theorem options_new_determined_iff (file : CString) :
    (Determined ServerAgree .server file ↔ ServerGiven file) ∧
      (Determined ClientAgree .client file ↔ ClientGiven file) :=
  ⟨server_determined_iff, client_determined_iff⟩

/-- An empty file leaves the port as the memory has it. -/
theorem empty_undetermined : ¬ ∀ file : CString,
    Determined ServerAgree .server file ∧ Determined ClientAgree .client file := by
  intro all
  have agree := determined_client.mp (all []).2 (filled 0 0 []) (filled 1 1 ['x'])
  have ports : (0 : BitVec 16) = 1 := agree.port
  cases ports

end

end Dserve
