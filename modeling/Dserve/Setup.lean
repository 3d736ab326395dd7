import Dserve.Client
import Dserve.Directories
import Dserve.Interference
import Dserve.Lib.Simulation

/-!
`main` of both programs, up to `run`: the settings that last from one start to the next.

A start reads the configuration file or creates it, changes the object by the options of its command
line, and then runs on it, or saves it for `--init`. The file is a text in which values can be taken
for keys, the memory of the object is not cleared, and the server overwrites some of what it has read.
`settings_last` says that this is a store all the same: whatever starts of the two programs a user
mixes, and whatever fails on the way, each run has the settings that the last `--init` of its own
program left, or the defaults, changed by its own options. What the server never finds again is
whether it is quiet. A file that cannot be opened ends the process at the first use of the stream.
`starts_run` says that nothing but this and a lack of memory keeps a start from its run: a log or
destination directory that cannot be made goes unnoticed, because there is no messenger yet.
-/

namespace Dserve

open Scan Settings

/-! ### The programs -/

/-- `DS_CONFIG_FILE` -/
def Program.configFile : Program → CString
  | .server => "dsserver.conf".toList
  | .client => "dsclient.conf".toList

/-- What `getopt_long` returns to the server. The long options are declared without an argument, so
that `optarg` is `NULL` for `--port` and `--host`. -/
inductive ServerOption where
  | port (optarg : Option CString)
  | host (optarg : Option CString)
  | quiet
  | debug
  | init
  | help
  | invalid
deriving DecidableEq

/-- What the environment decides in a start. -/
structure Startup where
  /-- `getenv("HOME")` -/
  home : Option CString
  /-- the memory for the name of the file -/
  filename : Bool := true
  /-- the memory of the object, as `malloc` gives it -/
  object : Option OptionsObject
  /-- the byte behind the line that `options_read` reads -/
  behind : Char
  /-- the calls of `recursive_mkdir`, for which no messenger is installed -/
  configDir : MkdirSetting
  logDir : MkdirSetting
  destDir : MkdirSetting
  /-- the `fopen` of `options_new` that creates the file, where its directory is, and those that
  read it -/
  creates : Bool := true
  reads : Bool := true
  /-- `options_save` can open the file -/
  opens : Bool := true

/-- A command line, and what the program meets. -/
inductive Launch where
  | server (e : Startup) (options : List ServerOption)
  | client (e : Startup) (options : List ClientOption)

/-- The directories there are, and the files. -/
structure Site (σ : Type) where
  dirs : σ
  files : CString → Option CString

/-- What a start comes to: `run` is called, or `options_save`, or neither. -/
inductive Parsed where
  | runs (o : OptionsObject)
  | saves (o : OptionsObject)
  | ends

/-- What the `switch` in the loop does. -/
inductive Switched where
  | goes (o : OptionsObject)
  | saves
  | ends

/-- `strtol(optarg, NULL, 10)`, assigned to an `unsigned short`. -/
def portNumber (optarg : CString) : BitVec 16 := short ((scanDecimal ⟨optarg, false⟩).1.getD 0)

/-- The `switch` of the server's `main`; none for a `NULL` that is read. -/
def ServerOption.switch (o : OptionsObject) : ServerOption → Option Switched
  | .port optarg => optarg.map fun optarg => .goes { o with port := portNumber optarg }
  | .host optarg => optarg.map fun optarg => .goes { o with host := optarg.take (OPT_MAX_STR_SIZE - 1) }
  | .quiet => some (.goes { o with quiet := 1 })
  | .debug => some (.goes { o with debug := 1 })
  | .init => some .saves
  | .help => some .ends
  | .invalid => some (.goes o)

/-- The `switch` of the client's `main`, as far as it concerns the object. The last byte of the host is
not written: none when the argument leaves nothing else to end the string. -/
def ClientOption.switch (o : OptionsObject) : ClientOption → Option Switched
  | .port optarg => some (.goes { o with port := portNumber optarg })
  | .host optarg =>
      if optarg.length < OPT_MAX_STR_SIZE - 1 then some (.goes { o with host := optarg }) else none
  | .keepalive => some (.goes { o with keepAlive := 1 })
  | .init => some .saves
  | .help => some .ends
  | .name _ => some (.goes o)
  | .url _ => some (.goes o)
  | .status => some (.goes o)
  | .cancel => some (.goes o)
  | .pause => some (.goes o)
  | .restart => some (.goes o)
  | .invalid => some (.goes o)

/-- The loop of `main`. -/
def optionLoop {χ : Type} (switch : OptionsObject → χ → Option Switched) :
    List χ → OptionsObject → Option Parsed
  | [], o => some (.runs o)
  | x :: rest, o =>
      match switch o x with
      | none => none
      | some (.goes o) => optionLoop switch rest o
      | some .saves => some (.saves o)
      | some .ends => some .ends

/-- The options that the loop goes past. -/
def ServerOption.goesOn : ServerOption → Bool
  | .init => false
  | .help => false
  | _ => true

def ClientOption.goesOn : ClientOption → Bool
  | .init => false
  | .help => false
  | _ => true

/-- `options_write_for_server` or `options_write_for_client` -/
def Program.write (program : Program) (o : OptionsObject) : CString :=
  match program with
  | .server => optionsWriteForServer o.toOptions
  | .client => optionsWriteForClient o.toOptions

/-- `options_save` -/
def optionsSave (program : Program) (opens : Bool) (filename : CString) (o : OptionsObject)
    (files : CString → Option CString) : CString → Option CString :=
  if opens then Function.update files filename (some (program.write o)) else files

/-- The directory that a file is in. -/
def parentDir (filename : CString) : CString := (filename.reverse.dropWhile (· ≠ '/')).tail.reverse

section

variable {σ : Type} (dirs : Places σ CString)

/-- `recursive_mkdir` before a messenger is installed. An empty path is read behind its end. -/
def mkdirAtStart (o : MkdirSetting) (path : CString) (s : σ) : Option (Bool × σ) :=
  if nonempty : path ≠ [] then
    (recursiveMkdir dirs { o with messenger := false } ⟨path, nonempty⟩ s).map fun made =>
      (made.ret, made.state)
  else none

/-- `options_get_filename` -/
def optionsGetFilename (program : Program) (e : Startup) (s : σ) : Option (Option CString × σ) :=
  match e.home with
  | none => some (none, s)
  | some home =>
      if e.filename = false then some (none, s)
      else
        let len := home.length + program.defaultDir.length + program.configFile.length + 3
        let filename := (home ++ FILE_SEPARATOR ++ program.defaultDir).take (len - 2)
        (mkdirAtStart dirs e.configDir filename s).map fun (made, s) =>
          (if made then some (filename ++ FILE_SEPARATOR ++ program.configFile) else none, s)

/-- The first `fopen` of `options_new` has a stream: to create the file, where its directory is, or to
read it. -/
def firstOpens (e : Startup) (filename : CString) (u : Site σ) : Bool :=
  match u.files filename with
  | none => e.creates && dirs.found u.dirs (parentDir filename)
  | some _ => e.reads

/-- The second one, after `options_new_for_server`. -/
def secondOpens (type : OptionsType) (e : Startup) : Bool :=
  match type with
  | .server => e.reads
  | .client => true

/-- `options_new` on a file. A stream that is `NULL` is printed to, or read: the process dies there,
and no object comes of it. -/
def openOptions (program : Program) (type : OptionsType) (e : Startup) (ret : OptionsObject)
    (filename : CString) (u : Site σ) : Option (Option (CString × OptionsObject) × Site σ) :=
  if firstOpens dirs e filename u then
    (optionsNew e.behind program e.home type ret (u.files filename)).map fun (o, file) =>
      (if secondOpens type e then some (filename, o) else none,
        { u with files := Function.update u.files filename (some file) })
  else some (none, u)

/-- `get_configuration_object`, with the name of the file. -/
def getConfigurationObject (program : Program) (type : OptionsType) (e : Startup) (u : Site σ) :
    Option (Option (CString × OptionsObject) × Site σ) :=
  (optionsGetFilename dirs program e u.dirs).bind fun (filename, s) =>
    match filename, e.object with
    | some filename, some ret => openOptions dirs program type e ret filename { u with dirs := s }
    | _, _ => some (none, { u with dirs := s })

/-- `create_directories` -/
def createDirectories (e : Startup) (o : OptionsObject) (s : σ) : Option (Bool × σ) :=
  (mkdirAtStart dirs e.logDir o.logdir s).bind fun (made, s) =>
    if made then mkdirAtStart dirs e.destDir o.destdir s else some (false, s)

/-- What is left of the files. -/
def Parsed.files (program : Program) (opens : Bool) (filename : CString)
    (files : CString → Option CString) : Parsed → CString → Option CString
  | .saves o => optionsSave program opens filename o files
  | _ => files

/-- `main` of the server, up to `run`. -/
def serverStart (e : Startup) (options : List ServerOption) (u : Site σ) : Option (Parsed × Site σ) :=
  (getConfigurationObject dirs .server .server e u).bind fun (found, u) =>
    match found with
    | none => some (.ends, u)
    | some (filename, o) =>
        (createDirectories dirs e o u.dirs).bind fun (made, s) =>
          if made = false then some (.ends, { u with dirs := s })
          else
            (optionLoop ServerOption.switch options { o with quiet := 0, debug := 1 }).map fun parsed =>
              (parsed, ⟨s, parsed.files .server e.opens filename u.files⟩)

/-- `main` of the client, up to `run`. -/
def clientStart (e : Startup) (options : List ClientOption) (u : Site σ) : Option (Parsed × Site σ) :=
  (getConfigurationObject dirs .client .client e u).bind fun (found, u) =>
    match found with
    | none => some (.ends, u)
    | some (filename, o) =>
        -- not enough options
        if options = [] then some (.ends, u)
        else (optionLoop ClientOption.switch options o).map fun parsed =>
          (parsed, { u with files := parsed.files .client e.opens filename u.files })

def start (u : Site σ) : Launch → Option (Parsed × Site σ)
  | .server e options => serverStart dirs e options u
  | .client e options => clientStart dirs e options u

/-- The starts of both programs, one after the other. -/
def starts : Machine (Site σ) Launch := ⟨fun u l => (start dirs u l).map Prod.snd⟩

end

/-! ### The settings -/

/-- What the server keeps. -/
structure ServerSettings where
  port : BitVec 16
  host : CString
  logdir : CString
  destdir : CString
  maxConcurrentDownloads : BitVec 16

/-- What the client keeps. -/
structure ClientSettings where
  port : BitVec 16
  host : CString
  keepAlive : Bool

/-- The settings that a user has. -/
structure UserSettings where
  server : ServerSettings
  client : ClientSettings

/-- What an option changes of them. -/
def ServerSettings.change (k : ServerSettings) : ServerOption → ServerSettings
  | .port (some optarg) => { k with port := portNumber optarg }
  | .host (some optarg) => { k with host := optarg }
  | _ => k

def ClientSettings.change (k : ClientSettings) : ClientOption → ClientSettings
  | .port optarg => { k with port := portNumber optarg }
  | .host optarg => { k with host := optarg }
  | .keepalive => { k with keepAlive := true }
  | _ => k

/-- What is seen of a program: a run, with the object that it has then, or the settings saved, with
the options in front of `--init`. -/
inductive Use (χ : Type) where
  | ran (options : List χ) (o : OptionsObject)
  | saved (options : List χ)

/-- What is seen of both. -/
inductive Used where
  | server (use : Use ServerOption)
  | client (use : Use ClientOption)

/-- Only what is saved changes the settings that are kept. -/
def UserSettings.after (k : UserSettings) : Used → UserSettings
  | .server (.saved options) => { k with server := options.foldl ServerSettings.change k.server }
  | .client (.saved options) => { k with client := options.foldl ClientSettings.change k.client }
  | _ => k

/-- The byte of a bool. -/
def byte (b : Bool) : BitVec 8 := if b then 1 else 0

/-- The options have these settings. -/
structure ServerSettings.In (k : ServerSettings) (o : Options) : Prop where
  port : o.port = k.port
  host : o.host = k.host
  logdir : o.logdir = k.logdir
  destdir : o.destdir = k.destdir
  maxConcurrentDownloads : o.maxConcurrentDownloads = k.maxConcurrentDownloads

structure ClientSettings.In (k : ClientSettings) (o : Options) : Prop where
  port : o.port = k.port
  host : o.host = k.host
  timeout : o.timeout = OPT_DEFAULT_TIMEOUT
  keepAlive : o.keepAlive = byte k.keepAlive

/-- The server runs on these settings, and is quiet or not. -/
structure Serving (k : ServerSettings) (quiet : Bool) (o : OptionsObject) : Prop where
  kept : k.In o.toOptions
  timeout : o.timeout = OPT_DEFAULT_TIMEOUT
  queueRetryCount : o.queueRetryCount = OPT_DEFAULT_Q_RETRY_COUNT
  queueRetryWait : o.queueRetryWait = OPT_DEFAULT_Q_RETRY_WAIT
  quiet : o.quiet = byte quiet
  debug : o.debug = 1

/-- A run has the settings that are kept, changed by its own options. -/
def UserSettings.Shows (k : UserSettings) : Used → Prop
  | .server (.ran options o) =>
      Serving (options.foldl ServerSettings.change k.server) (options.any (· = .quiet)) o
  | .client (.ran options o) => (options.foldl ClientSettings.change k.client).In o.toOptions
  | _ => True

/-- A store of settings. -/
def settings : Component UserSettings Used := ⟨fun k e k' => k.Shows e ∧ k' = k.after e⟩

/-- The settings of a user who has saved nothing. -/
def UserSettings.initial (home : CString) : UserSettings where
  server :=
    { port := OPT_DEFAULT_PORT, host := Program.server.defaultHost
      logdir := optionsSetLogdir .server (some home), destdir := optionsSetDestdir (some home)
      maxConcurrentDownloads := OPT_DEFAULT_MAX_CONCURRENT_DOWNLOADS }
  client := { port := OPT_DEFAULT_PORT, host := Program.client.defaultHost, keepAlive := false }

/-! ### What is seen of a start -/

/-- What is seen of a start that comes to this. -/
def Launch.uses : Launch → Parsed → List Used
  | .server _ options, .runs o => [.server (.ran options o)]
  | .client _ options, .runs o => [.client (.ran options o)]
  | .server e options, .saves _ =>
      if e.opens then [.server (.saved (options.takeWhile ServerOption.goesOn))] else []
  | .client e options, .saves _ =>
      if e.opens then [.client (.saved (options.takeWhile ClientOption.goesOn))] else []
  | _, .ends => []

section

variable {σ : Type} (dirs : Places σ CString)

def usesOf (u : Site σ) (l : Launch) (_ : Site σ) : List Used :=
  match start dirs u l with
  | none => []
  | some (parsed, _) => l.uses parsed

/-- The starts, with what is seen of them. -/
def history : Machine (Noted (Site σ) Used) Launch := (starts dirs).noted (usesOf dirs)

end

/-- A word that fits its line, and has no key of either program in it. -/
structure FileWord (s : CString) : Prop where
  plain : Settings.Plain 232 s
  clean : '\x00' ∉ s
  apart : ∀ key ∈ serverKeys ++ clientKeys, ¬ key <:+: s

/-- The directories in the home can be written to the file. -/
structure Habitable (home : CString) : Prop where
  logdir : FileWord (optionsSetLogdir .server (some home))
  destdir : FileWord (optionsSetDestdir (some home))

def ServerOption.Fits : ServerOption → Prop
  | .host (some optarg) => FileWord optarg
  | _ => True

def ClientOption.Fits : ClientOption → Prop
  | .host optarg => FileWord optarg
  | _ => True

/-- The home, if any, is this one, and the hosts can be written to the file. -/
def Launch.Fits (home : CString) : Launch → Prop
  | .server e options => (∀ h ∈ e.home, h = home) ∧ ∀ x ∈ options, x.Fits
  | .client e options => (∀ h ∈ e.home, h = home) ∧ ∀ x ∈ options, x.Fits

/-- The directory of the configuration file of a program. -/
def Program.dir (program : Program) (home : CString) : DirPath :=
  ⟨home ++ FILE_SEPARATOR ++ program.defaultDir, by simp [FILE_SEPARATOR]⟩

/-- The configuration file of a program. -/
def Program.path (program : Program) (home : CString) : CString :=
  (program.dir home).chars ++ FILE_SEPARATOR ++ program.configFile

/-- The directory is there, or it can be made. -/
def Startup.Homes {σ : Type} (dirs : Places σ CString) (e : Startup) (dir : DirPath) (s : σ) : Prop :=
  dirs.found s dir.chars = true ∨
    AddressFits e.configDir.address dir.chars ∧ dirs.fails s dir.parents = false

/-- The home is this one, there is memory for what every start allocates, and the configuration file
can be opened: it is there, or there is a place for it. -/
structure Startup.Ready {σ : Type} (dirs : Places σ CString) (e : Startup) (program : Program)
    (home : CString) (u : Site σ) : Prop where
  at_home : e.home = some home
  filename : e.filename = true
  object : e.object.isSome = true
  configDir : e.configDir.malloc = true
  reads : e.reads = true
  creates : u.files (program.path home) = none →
    e.creates = true ∧ e.Homes dirs (program.dir home) u.dirs

/-- A start that has what it needs. -/
def Launch.Ready {σ : Type} (dirs : Places σ CString) (home : CString) (u : Site σ) : Launch → Prop
  | .server e options => e.Ready dirs .server home u ∧ e.logDir.malloc = true ∧
      e.destDir.malloc = true ∧ ∀ x ∈ options, x.goesOn = true ∧ x ≠ .port none ∧ x ≠ .host none
  | .client e options => e.Ready dirs .client home u ∧ options ≠ [] ∧ ∀ x ∈ options, x.goesOn = true

/-- What is seen of a start that runs. -/
def Launch.ran (o : OptionsObject) : Launch → Used
  | .server _ options => .server (.ran options o)
  | .client _ options => .client (.ran options o)

section

variable {o : Options} {ret : OptionsObject} {home text : CString} {behind : Char}

/-! ### The loop over the options -/

/-- What the options keep that the loop goes past, and what is then so of the object. -/
theorem optionLoop_rule {χ : Type} {switch : OptionsObject → χ → Option Switched} {goesOn : χ → Bool}
    {good : χ → Prop} {Holds : List χ → OptionsObject → Prop}
    (goes : ∀ seen x o o', good x → Holds seen o → switch o x = some (.goes o') →
      goesOn x = true ∧ Holds (seen ++ [x]) o')
    (stops : ∀ o x, switch o x = some .saves → goesOn x = false)
    {options seen : List χ} {o : OptionsObject} {parsed : Parsed} (all : ∀ x ∈ options, good x)
    (begins : Holds seen o) (loop : optionLoop switch options o = some parsed) :
    (∀ o', parsed = .runs o' → Holds (seen ++ options) o') ∧
      ∀ o', parsed = .saves o' → Holds (seen ++ options.takeWhile goesOn) o' := by
  induction options generalizing seen o with
  | nil =>
      cases loop
      refine ⟨fun o' same => ?_, fun o' same => (by cases same)⟩
      cases same
      rwa [List.append_nil]
  | cons x rest ih =>
      rw [optionLoop] at loop
      split at loop
      · cases loop
      · next o₁ switched =>
        obtain ⟨past, holds⟩ := goes seen x o o₁ (all x List.mem_cons_self) begins switched
        obtain ⟨runs, saves⟩ := ih (fun y hy => all y (List.mem_cons_of_mem x hy)) holds loop
        rw [List.takeWhile_cons_of_pos past]
        simp only [List.append_assoc, List.singleton_append] at runs saves
        exact ⟨runs, saves⟩
      · next switched =>
        cases loop
        refine ⟨fun o' same => (by cases same), fun o' same => ?_⟩
        cases same
        have past : ¬ goesOn x = true := by rw [stops o x switched]; exact Bool.false_ne_true
        rwa [List.takeWhile_cons_of_neg past, List.append_nil]
      · cases loop
        exact ⟨fun o' same => (by cases same), fun o' same => (by cases same)⟩

/-! ### The server's file -/

/-- The texts of the options can be written to the file. -/
structure Writable (o : Options) : Prop where
  host : FileWord o.host
  logdir : FileWord o.logdir
  destdir : FileWord o.destdir

/-- Every key is longer. -/
theorem FileWord.of_short {s : CString} (nonempty : s ≠ [])
    (word : (s.all fun c => !isSpace c) = true) (clean : '\x00' ∉ s) (short : s.length < 16) :
    FileWord s := by
  have visible : ∀ c ∈ s, isSpace c = false := by simpa using word
  refine ⟨⟨nonempty, visible, by omega⟩, clean, fun key mem inside => ?_⟩
  have long : ∀ key ∈ serverKeys ++ clientKeys, 16 ≤ key.length := by decide
  have := long key mem
  have := inside.length_le
  omega

theorem FileWord.newline {s : CString} (good : FileWord s) : '\n' ∉ s := by
  intro mem
  cases good.plain.word '\n' mem

theorem FileWord.fits {s key : CString} (good : FileWord s) (short : key.length ≤ 21) :
    Settings.Plain (OPT_MAX_STR_SIZE - 2 - (key.length + 1)) s := by
  refine ⟨good.plain.nonempty, good.plain.word, ?_⟩
  have := good.plain.fits
  simp only [OPT_MAX_STR_SIZE]
  omega

/-- The lines of the server's file. -/
def serverLines (o : Options) : List ServerSetting :=
  [⟨.port, printUnsigned o.port⟩, ⟨.ip, o.host⟩, ⟨.timeout, printShort o.timeout⟩, ⟨.log, o.logdir⟩,
    ⟨.dest, o.destdir⟩, ⟨.max, printShort o.maxConcurrentDownloads⟩, ⟨.quiet, printBool o.quiet⟩,
    ⟨.debug, printBool o.debug⟩]

theorem fileText_serverLines (o : Options) : fileText (serverLines o) = optionsWriteForServer o := rfl

/-- A line has a number, or one of the texts. -/
theorem Writable.line (good : Writable o) : ∀ s ∈ serverLines o,
    (¬ s.key.IsText ∧ ∃ n, s.value = printInt n) ∨ (s.key.IsText ∧ FileWord s.value) := by
  simp only [serverLines, List.forall_mem_cons]
  exact ⟨.inl ⟨by decide, _, rfl⟩, .inr ⟨by decide, good.host⟩, .inl ⟨by decide, _, rfl⟩,
    .inr ⟨by decide, good.logdir⟩, .inr ⟨by decide, good.destdir⟩, .inl ⟨by decide, _, rfl⟩,
    .inl ⟨by decide, _, rfl⟩, .inl ⟨by decide, _, rfl⟩, by simp⟩

theorem Writable.file (good : Writable o) : ServerFile (serverLines o) where
  distinct := by simp [serverLines]
  values := by
    intro s mem
    unfold ServerKey.WellFormed
    rcases good.line s mem with ⟨number, n, value⟩ | ⟨word, fits⟩
    · rw [if_neg number]
      exact ⟨n, value⟩
    · rw [if_pos word]
      exact ⟨fits.plain.nonempty, fits.plain.word, fits.clean⟩

theorem Writable.noKeys (good : Writable o) : NoKeys (serverLines o) := by
  intro name key s mem
  rcases good.line s mem with ⟨-, n, value⟩ | ⟨-, fits⟩
  · rw [value]
    apply printInt_apart
    rcases key with server | client
    · exact (serverKeys_set.clean _ server).2.2.2.1
    · exact (clientKeys_set.clean _ client).2.2.2.1
  · exact fits.apart name (List.mem_append.mpr key)

theorem Writable.unambiguous (good : Writable o) : Unambiguous (serverSettings o) := by
  have keyed : ∀ s ∈ serverSettings o, s.key ∈ serverKeys := by
    intro s mem
    exact List.mem_map_of_mem mem
  have text : ∀ s ∈ serverSettings o, s.key ∈ textKeys → FileWord s.value := by
    simp only [serverSettings, List.forall_mem_cons]
    refine ⟨?_, fun _ => good.host, ?_, fun _ => good.logdir, fun _ => good.destdir, ?_, ?_, ?_, by simp⟩
    all_goals exact fun h => absurd h (by simp [textKeys])
  intro s mem isText
  have short : ∀ key ∈ textKeys, key.length ≤ 21 := by decide
  exact ⟨(text s mem isText).fits (short s.key isText),
    fun t ht => (text s mem isText).apart t.key (List.mem_append_left _ (keyed t ht))⟩

theorem Writable.proper (good : Writable o) (keepAlive : o.keepAlive = 0)
    (quiet : o.quiet = 0 ∨ o.quiet = 1) (debug : o.debug = 1) : Proper o where
  texts := by
    intro s mem
    simp only [List.mem_cons, List.not_mem_nil, or_false] at mem
    rcases mem with rfl | rfl | rfl
    · exact ⟨good.host.newline, good.host.clean⟩
    · exact ⟨good.logdir.newline, good.logdir.clean⟩
    · exact ⟨good.destdir.newline, good.destdir.clean⟩
  bools := by
    intro b mem
    simp only [List.mem_cons, List.not_mem_nil, or_false] at mem
    rcases mem with rfl | rfl | rfl
    · exact .inl keepAlive
    · exact quiet
    · exact .inr debug

/-- The client's part of the constructor finds nothing. -/
theorem Writable.alone (good : Writable o) :
    clientFound (optionsWriteForServer o) = ⟨none, none, none, none⟩ := by
  rw [← fileText_serverLines]
  exact clientFound_noKeys good.file good.noKeys

/-- What is found of the options that last. -/
theorem Writable.found (good : Writable o) (quiet : o.quiet = 0 ∨ o.quiet = 1) (debug : o.debug = 1) :
    (serverFound (optionsWriteForServer o)).port = some o.port ∧
      (serverFound (optionsWriteForServer o)).host = some o.host ∧
      (serverFound (optionsWriteForServer o)).logdir = some o.logdir ∧
      (serverFound (optionsWriteForServer o)).destdir = some o.destdir ∧
      (serverFound (optionsWriteForServer o)).maxConcurrentDownloads =
        some o.maxConcurrentDownloads := by
  -- `keep_alive` is not written, and may be anything
  let o₀ : Options := { o with keepAlive := 0 }
  have good₀ : Writable o₀ := ⟨good.host, good.logdir, good.destdir⟩
  have proper : Proper o₀ := good₀.proper rfl quiet debug
  have restorable := server_restorable proper good₀.unambiguous
  have values := @serverValues_kept _ ' ' proper restorable.texts
  rw [serverValues_found, Option.some.injEq] at values
  have same : optionsWriteForServer o = optionsWriteForServer o₀ := rfl
  rw [same, values]
  exact ⟨rfl, rfl, rfl, rfl, restorable.maxConcurrentDownloads⟩

/-! ### The client's file -/

theorem clientUnambiguous (good : FileWord o.host) : Unambiguous (clientSettings o) := by
  have keyed : ∀ s ∈ clientSettings o, s.key ∈ clientKeys := by
    intro s mem
    exact List.mem_map_of_mem mem
  have text : ∀ s ∈ clientSettings o, s.key ∈ textKeys → FileWord s.value := by
    simp only [clientSettings, List.forall_mem_cons]
    refine ⟨?_, fun _ => good, ?_, ?_, by simp⟩
    all_goals exact fun h => absurd h (by simp [textKeys])
  intro s mem isText
  have short : ∀ key ∈ textKeys, key.length ≤ 21 := by decide
  exact ⟨(text s mem isText).fits (short s.key isText),
    fun t ht => (text s mem isText).apart t.key (List.mem_append_right _ (keyed t ht))⟩

theorem clientFound_written (good : FileWord o.host) (keepAlive : o.keepAlive = 0 ∨ o.keepAlive = 1) :
    (clientFound (optionsWriteForClient o)).port = some o.port ∧
      (clientFound (optionsWriteForClient o)).host = some o.host ∧
      (clientFound (optionsWriteForClient o)).timeout = some o.timeout ∧
      (clientFound (optionsWriteForClient o)).keepAlive.map lowByte = some o.keepAlive := by
  -- the options of the server are not written, and may be anything
  let o₀ : Options := { o with logdir := [], destdir := [], quiet := 0, debug := 0 }
  have proper : Proper o₀ := by
    constructor
    · intro s mem
      simp only [o₀, List.mem_cons, List.not_mem_nil, or_false] at mem
      rcases mem with rfl | rfl | rfl
      · exact ⟨good.newline, good.clean⟩
      · exact ⟨by simp, by simp⟩
      · exact ⟨by simp, by simp⟩
    · intro b mem
      simp only [o₀, List.mem_cons, List.not_mem_nil, or_false] at mem
      rcases mem with rfl | rfl | rfl
      · exact keepAlive
      · exact .inl rfl
      · exact .inl rfl
  have restorable := client_restorable (o := o₀) proper (clientUnambiguous good)
  have values := @clientValues_kept _ ' ' proper restorable.texts
  rw [clientValues_found, Option.some.injEq] at values
  have same : optionsWriteForClient o = optionsWriteForClient o₀ := rfl
  rw [same, values]
  exact ⟨rfl, rfl, restorable.timeout, restorable.keepAlive⟩

/-! ### The constructor -/

/-- The texts of the settings can be written to the file. -/
structure ServerSettings.Writable (k : ServerSettings) : Prop where
  host : FileWord k.host
  logdir : FileWord k.logdir
  destdir : FileWord k.destdir

/-- The file has the settings, or there is none and they are the initial ones. -/
def ServerSettings.Filed (home : CString) (k : ServerSettings) : Option CString → Prop
  | none => k = (UserSettings.initial home).server
  | some text => ∃ o : Options, text = optionsWriteForServer o ∧ k.In o ∧
      (o.quiet = 0 ∨ o.quiet = 1) ∧ o.debug = 1

def ClientSettings.Filed (home : CString) (k : ClientSettings) : Option CString → Prop
  | none => k = (UserSettings.initial home).client
  | some text => ∃ o : Options, text = optionsWriteForClient o ∧ k.In o

theorem ServerSettings.In.writable {k : ServerSettings} (isIn : k.In o) (good : k.Writable) :
    Dserve.Writable o :=
  ⟨isIn.host ▸ good.host, isIn.logdir ▸ good.logdir, isIn.destdir ▸ good.destdir⟩

/-- What the server's constructor leaves in the object and in the file. -/
theorem server_new {k : ServerSettings} {o : OptionsObject} {file : Option CString} (good : k.Writable)
    (filed : k.Filed home file)
    (new : optionsNew behind .server (some home) .server ret file = some (o, text)) :
    k.In o.toOptions ∧ o.timeout = OPT_DEFAULT_TIMEOUT ∧
      o.queueRetryCount = OPT_DEFAULT_Q_RETRY_COUNT ∧ o.queueRetryWait = OPT_DEFAULT_Q_RETRY_WAIT ∧
      k.Filed home (some text) := by
  cases file with
  | some written =>
      obtain ⟨written, rfl, isIn, quiet, debug⟩ := filed
      have writable := isIn.writable good
      obtain ⟨port, host, logdir, destdir, downloads⟩ := writable.found quiet debug
      rw [optionsNew_server, serverObject_alone writable.alone] at new
      cases new
      refine ⟨⟨?_, ?_, ?_, ?_, ?_⟩, rfl, rfl, rfl, written, rfl, isIn, quiet, debug⟩
      · exact (congrArg (Option.getD · _) port).trans isIn.port
      · exact (congrArg (Option.getD · _) host).trans isIn.host
      · exact (congrArg (Option.getD · _) logdir).trans isIn.logdir
      · exact (congrArg (Option.getD · _) destdir).trans isIn.destdir
      · exact (congrArg (Option.getD · _) downloads).trans isIn.maxConcurrentDownloads
  | none =>
      obtain rfl : k = (UserSettings.initial home).server := filed
      -- the defaults are written, with the timeout that the memory has
      let options : Options := { ret.toOptions with
        quiet := 0
        debug := 1
        maxConcurrentDownloads := OPT_DEFAULT_MAX_CONCURRENT_DOWNLOADS
        port := OPT_DEFAULT_PORT
        host := optionsSetString (OPT_MAX_STR_SIZE - 1) Program.server.defaultHost
        logdir := optionsSetLogdir .server (some home)
        destdir := optionsSetDestdir (some home) }
      have isIn : (UserSettings.initial home).server.In options := ⟨rfl, rfl, rfl, rfl, rfl⟩
      simp only [optionsNew, optionsNewForServer, optionsNewForClient, optionsReadForClient,
        clientValues_found, Option.map_some, Option.bind_eq_bind, Option.bind_some] at new
      cases new
      have alone : clientFound (optionsWriteForServer options) = ⟨none, none, none, none⟩ :=
        (isIn.writable good).alone
      refine ⟨?_, ?_, rfl, rfl, options, rfl, isIn, .inl rfl, rfl⟩
      · change (UserSettings.initial home).server.In
          ((clientFound (optionsWriteForServer options)).assign
            { options with timeout := OPT_DEFAULT_TIMEOUT })
        rw [alone]
        exact ⟨rfl, rfl, rfl, rfl, rfl⟩
      · change ((clientFound (optionsWriteForServer options)).assign
          { options with timeout := OPT_DEFAULT_TIMEOUT }).timeout = OPT_DEFAULT_TIMEOUT
        rw [alone]
        rfl

theorem byte_bool (b : Bool) : byte b = 0 ∨ byte b = 1 := by
  cases b
  · exact .inl rfl
  · exact .inr rfl

/-- What the client's constructor leaves in the object and in the file. -/
theorem client_new {k : ClientSettings} {o : OptionsObject} {file : Option CString}
    (good : FileWord k.host) (filed : k.Filed home file)
    (new : optionsNew behind .client (some home) .client ret file = some (o, text)) :
    k.In o.toOptions ∧ k.Filed home (some text) := by
  cases file with
  | some written =>
      obtain ⟨written, rfl, isIn⟩ := filed
      obtain ⟨port, host, timeout, keepAlive⟩ := clientFound_written (isIn.host ▸ good)
        (isIn.keepAlive ▸ byte_bool k.keepAlive)
      rw [optionsNew_client] at new
      cases new
      refine ⟨⟨?_, ?_, ?_, ?_⟩, written, rfl, isIn⟩
      · exact (congrArg (Option.getD · _) port).trans isIn.port
      · exact (congrArg (Option.getD · _) host).trans isIn.host
      · exact (congrArg (Option.getD · _) timeout).trans isIn.timeout
      · exact (congrArg (Option.getD · _) keepAlive).trans isIn.keepAlive
  | none =>
      obtain rfl : k = (UserSettings.initial home).client := filed
      simp only [optionsNew, optionsNewForClient] at new
      cases new
      exact ⟨⟨rfl, rfl, rfl, rfl⟩, _, rfl, rfl, rfl, rfl, rfl⟩

/-! ### A start -/

section

variable {σ : Type} {dirs : Places σ CString} {e : Startup} {program : Program} {type : OptionsType}
  {u u' : Site σ} {filename : CString} {object : OptionsObject}

/-- The directory fits what is allocated for the name of the file. -/
theorem filename_whole (program : Program) (home : CString) :
    (home ++ FILE_SEPARATOR ++ program.defaultDir).take
        (home.length + program.defaultDir.length + program.configFile.length + 3 - 2) =
      home ++ FILE_SEPARATOR ++ program.defaultDir := by
  apply List.take_of_length_le
  simp only [FILE_SEPARATOR, List.length_append]
  have one : "/".toList.length = 1 := rfl
  omega

theorem optionsGetFilename_path {s s' : σ}
    (named : optionsGetFilename dirs program e s = some (some filename, s')) :
    ∃ home, e.home = some home ∧ filename = program.path home := by
  unfold optionsGetFilename at named
  split at named
  · cases named
  · next home at_home =>
    split at named
    · cases named
    · obtain ⟨⟨made, s''⟩, -, eq⟩ := Option.map_eq_some_iff.mp named
      rw [filename_whole] at eq
      refine ⟨home, at_home, ?_⟩
      cases made with
      | false => cases eq
      | true =>
          cases eq
          rfl

/-- What `get_configuration_object` leaves: the files as they were, or the file that `options_new` has
opened, and then the object unless the process died. -/
theorem configuration_cases {found : Option (CString × OptionsObject)}
    (got : getConfigurationObject dirs program type e u = some (found, u')) :
    (found = none ∧ u'.files = u.files) ∨
      ∃ home ret o text, e.home = some home ∧ (found = none ∨ found = some (program.path home, o)) ∧
        optionsNew e.behind program (some home) type ret (u.files (program.path home)) =
          some (o, text) ∧
        u'.files = Function.update u.files (program.path home) (some text) := by
  obtain ⟨⟨name, s⟩, named, got⟩ := Option.bind_eq_some_iff.mp got
  dsimp only at got
  split at got
  · next filename ret object =>
    obtain ⟨home, at_home, rfl⟩ := optionsGetFilename_path named
    unfold openOptions at got
    split at got
    · obtain ⟨⟨o, text⟩, new, eq⟩ := Option.map_eq_some_iff.mp got
      cases eq
      rw [at_home] at new
      refine .inr ⟨home, ret, o, text, at_home, ?_, new, rfl⟩
      cases secondOpens type e
      · exact .inl rfl
      · exact .inr rfl
    · cases got
      exact .inl ⟨rfl, rfl⟩
  · cases got
    exact .inl ⟨rfl, rfl⟩

/-- A start leaves the files alone, or makes the object, and what the loop comes to on it decides what
becomes of the files, unless the program ends before. -/
def Proceeds (program : Program) (type : OptionsType) (e : Startup)
    (loop : OptionsObject → Option Parsed) (parsed : Parsed) (u u' : Site σ) : Prop :=
  (parsed = .ends ∧ u'.files = u.files) ∨
    ∃ home ret o text, e.home = some home ∧
      optionsNew e.behind program (some home) type ret (u.files (program.path home)) =
        some (o, text) ∧
      (parsed = .ends ∨ loop o = some parsed) ∧
      u'.files = parsed.files program e.opens (program.path home)
        (Function.update u.files (program.path home) (some text))

theorem serverStart_proceeds {options : List ServerOption} {parsed : Parsed}
    (started : serverStart dirs e options u = some (parsed, u')) :
    Proceeds .server .server e
      (fun o => optionLoop ServerOption.switch options { o with quiet := 0, debug := 1 })
      parsed u u' := by
  obtain ⟨⟨found, v⟩, got, started⟩ := Option.bind_eq_some_iff.mp started
  rcases configuration_cases got with
    ⟨rfl, files⟩ | ⟨home, ret, o, text, at_home, rfl | rfl, new, files⟩
  · cases started
    exact .inl ⟨rfl, files⟩
  · cases started
    exact .inr ⟨home, ret, o, text, at_home, new, .inl rfl, files⟩
  · obtain ⟨⟨made, s⟩, -, started⟩ := Option.bind_eq_some_iff.mp started
    refine .inr ⟨home, ret, o, text, at_home, new, ?_⟩
    dsimp only at started
    split at started
    · cases started
      exact ⟨.inl rfl, files⟩
    · obtain ⟨parsed, loop, eq⟩ := Option.map_eq_some_iff.mp started
      cases eq
      exact ⟨.inr loop, congrArg (parsed.files .server e.opens (Program.server.path home)) files⟩

theorem clientStart_proceeds {options : List ClientOption} {parsed : Parsed}
    (started : clientStart dirs e options u = some (parsed, u')) :
    Proceeds .client .client e (optionLoop ClientOption.switch options) parsed u u' := by
  obtain ⟨⟨found, v⟩, got, started⟩ := Option.bind_eq_some_iff.mp started
  rcases configuration_cases got with
    ⟨rfl, files⟩ | ⟨home, ret, o, text, at_home, rfl | rfl, new, files⟩
  · cases started
    exact .inl ⟨rfl, files⟩
  · cases started
    exact .inr ⟨home, ret, o, text, at_home, new, .inl rfl, files⟩
  · refine .inr ⟨home, ret, o, text, at_home, new, ?_⟩
    dsimp only at started
    split at started
    · cases started
      exact ⟨.inl rfl, files⟩
    · obtain ⟨parsed, loop, eq⟩ := Option.map_eq_some_iff.mp started
      cases eq
      exact ⟨.inr loop, congrArg (parsed.files .client e.opens (Program.client.path home)) files⟩

end

/-! ### The options of a start -/

/-- What holds in the loop of the server, with the options that it has seen. -/
structure ServerSeen (k : ServerSettings) (seen : List ServerOption) (o : OptionsObject) : Prop where
  serving : Serving (seen.foldl ServerSettings.change k) (seen.any (· = .quiet)) o
  writable : (seen.foldl ServerSettings.change k).Writable

theorem ServerSeen.goes {k : ServerSettings} (seen : List ServerOption) (x : ServerOption)
    (o o' : OptionsObject) (good : x.Fits) (holds : ServerSeen k seen o)
    (switched : x.switch o = some (.goes o')) :
    x.goesOn = true ∧ ServerSeen k (seen ++ [x]) o' := by
  obtain ⟨⟨kept, timeout, count, wait, quiet, debug⟩, writable⟩ := holds
  have next : (seen ++ [x]).foldl ServerSettings.change k =
      (seen.foldl ServerSettings.change k).change x := by
    rw [List.foldl_append, List.foldl_cons, List.foldl_nil]
  have silent (other : x ≠ .quiet) :
      (seen ++ [x]).any (· = .quiet) = seen.any (· = .quiet) := by
    rw [List.any_append]
    simp [other]
  cases x with
  | port optarg =>
      obtain ⟨text, rfl, eq⟩ := Option.map_eq_some_iff.mp switched
      cases eq
      refine ⟨rfl, ⟨?_, timeout, count, wait, ?_, debug⟩, ?_⟩
      · rw [next]
        exact ⟨rfl, kept.host, kept.logdir, kept.destdir, kept.maxConcurrentDownloads⟩
      · rw [silent (by simp)]
        exact quiet
      · rw [next]
        exact ⟨writable.host, writable.logdir, writable.destdir⟩
  | host optarg =>
      obtain ⟨text, rfl, eq⟩ := Option.map_eq_some_iff.mp switched
      cases eq
      have whole : text.take (OPT_MAX_STR_SIZE - 1) = text := by
        apply List.take_of_length_le
        have fits := good.plain.fits
        simp only [OPT_MAX_STR_SIZE]
        omega
      refine ⟨rfl, ⟨?_, timeout, count, wait, ?_, debug⟩, ?_⟩
      · rw [next]
        exact ⟨kept.port, whole, kept.logdir, kept.destdir, kept.maxConcurrentDownloads⟩
      · rw [silent (by simp)]
        exact quiet
      · rw [next]
        exact ⟨good, writable.logdir, writable.destdir⟩
  | quiet =>
      cases switched
      refine ⟨rfl, ⟨?_, timeout, count, wait, ?_, debug⟩, ?_⟩
      · rw [next]
        exact ⟨kept.port, kept.host, kept.logdir, kept.destdir, kept.maxConcurrentDownloads⟩
      · simp [byte]
      · rw [next]
        exact writable
  | debug =>
      cases switched
      refine ⟨rfl, ⟨?_, timeout, count, wait, ?_, rfl⟩, ?_⟩
      · rw [next]
        exact ⟨kept.port, kept.host, kept.logdir, kept.destdir, kept.maxConcurrentDownloads⟩
      · rw [silent (by simp)]
        exact quiet
      · rw [next]
        exact writable
  | invalid =>
      cases switched
      refine ⟨rfl, ⟨?_, timeout, count, wait, ?_, debug⟩, ?_⟩
      · rw [next]
        exact kept
      · rw [silent (by simp)]
        exact quiet
      · rw [next]
        exact writable
  | init | help => cases switched

/-- What holds in the loop of the client. -/
structure ClientSeen (k : ClientSettings) (seen : List ClientOption) (o : OptionsObject) : Prop where
  kept : (seen.foldl ClientSettings.change k).In o.toOptions
  host : FileWord (seen.foldl ClientSettings.change k).host

theorem ClientSeen.goes {k : ClientSettings} (seen : List ClientOption) (x : ClientOption)
    (o o' : OptionsObject) (good : x.Fits) (holds : ClientSeen k seen o)
    (switched : x.switch o = some (.goes o')) :
    x.goesOn = true ∧ ClientSeen k (seen ++ [x]) o' := by
  obtain ⟨kept, writable⟩ := holds
  have next : (seen ++ [x]).foldl ClientSettings.change k =
      (seen.foldl ClientSettings.change k).change x := by
    rw [List.foldl_append, List.foldl_cons, List.foldl_nil]
  cases x with
  | port optarg =>
      cases switched
      refine ⟨rfl, ?_, ?_⟩
      · rw [next]
        exact ⟨rfl, kept.host, kept.timeout, kept.keepAlive⟩
      · rw [next]
        exact writable
  | host optarg =>
      rw [ClientOption.switch] at switched
      split at switched
      · cases switched
        refine ⟨rfl, ?_, ?_⟩
        · rw [next]
          exact ⟨kept.port, rfl, kept.timeout, kept.keepAlive⟩
        · rw [next]
          exact good
      · cases switched
  | keepalive =>
      cases switched
      refine ⟨rfl, ?_, ?_⟩
      · rw [next]
        exact ⟨kept.port, kept.host, kept.timeout, rfl⟩
      · rw [next]
        exact writable
  | init | help => cases switched
  | name optarg | url optarg =>
      cases switched
      refine ⟨rfl, ?_, ?_⟩
      · rw [next]
        exact kept
      · rw [next]
        exact writable
  | status | cancel | pause | restart | invalid =>
      cases switched
      refine ⟨rfl, ?_, ?_⟩
      · rw [next]
        exact kept
      · rw [next]
        exact writable

/-! ### The store -/

/-- The files have the settings that are kept. -/
structure UserSettings.Filed (home : CString) (k : UserSettings)
    (files : CString → Option CString) : Prop where
  writable : k.server.Writable
  host : FileWord k.client.host
  server : k.server.Filed home (files (Program.server.path home))
  client : k.client.Filed home (files (Program.client.path home))

theorem paths_differ (home : CString) : Program.server.path home ≠ Program.client.path home := by
  intro same
  simp only [Program.path, Program.dir, List.append_assoc] at same
  exact absurd (List.append_cancel_left same) (by decide)

section

variable {σ : Type} {dirs : Places σ CString} {u u' : Site σ} {k : UserSettings} {e : Startup}
  {parsed : Parsed} {files : CString → Option CString}

/-- The server's file does not concern the client. -/
theorem UserSettings.Filed.server_written (held : k.Filed home files) {own : ServerSettings}
    (writable : own.Writable) (filed : own.Filed home (some text)) :
    UserSettings.Filed home { k with server := own }
      (Function.update files (Program.server.path home) (some text)) := by
  refine ⟨writable, held.host, ?_, ?_⟩
  · rwa [Function.update_self]
  · rw [Function.update_of_ne (paths_differ home).symm]
    exact held.client

theorem UserSettings.Filed.client_written (held : k.Filed home files) {own : ClientSettings}
    (writable : FileWord own.host) (filed : own.Filed home (some text)) :
    UserSettings.Filed home { k with client := own }
      (Function.update files (Program.client.path home) (some text)) := by
  refine ⟨held.writable, writable, ?_, ?_⟩
  · rw [Function.update_of_ne (paths_differ home)]
    exact held.server
  · rwa [Function.update_self]

/-- A start of the server shows what it should, and keeps the rest. -/
theorem serverStart_shows {options : List ServerOption} (held : k.Filed home u.files)
    (at_home : ∀ h ∈ e.home, h = home) (good : ∀ x ∈ options, x.Fits)
    (started : serverStart dirs e options u = some (parsed, u')) :
    ∃ k', settings.Trace k ((Launch.server e options).uses parsed) k' ∧ k'.Filed home u'.files := by
  rcases serverStart_proceeds started with ⟨rfl, same⟩ | ⟨own, ret, o, text, is_own, new, loop, left⟩
  · exact ⟨k, .nil, same ▸ held⟩
  rw [left]
  obtain rfl : own = home := at_home own is_own
  obtain ⟨kept, timeout, count, wait, filed⟩ := server_new held.writable held.server new
  have created := held.server_written held.writable filed
  have begins : ServerSeen k.server [] { o with quiet := 0, debug := 1 } :=
    ⟨⟨⟨kept.port, kept.host, kept.logdir, kept.destdir, kept.maxConcurrentDownloads⟩, timeout, count,
      wait, rfl, rfl⟩, held.writable⟩
  have stops (o : OptionsObject) (x : ServerOption) (save : x.switch o = some .saves) :
      x.goesOn = false := by
    cases x with
    | init => rfl
    | port optarg | host optarg => cases optarg <;> cases save
    | _ => cases save
  cases parsed with
  | ends => exact ⟨k, .nil, created⟩
  | runs o' =>
      have looped := loop.resolve_left (by simp)
      have seen := (optionLoop_rule ServerSeen.goes stops good begins looped).1 o' rfl
      exact ⟨k, .single ⟨seen.serving, rfl⟩, created⟩
  | saves o' =>
      have looped := loop.resolve_left (by simp)
      have seen := (optionLoop_rule ServerSeen.goes stops good begins looped).2 o' rfl
      have saved : ServerSettings.Filed own ((options.takeWhile ServerOption.goesOn).foldl
          ServerSettings.change k.server) (some (Program.server.write o')) := by
        refine ⟨o'.toOptions, rfl, seen.serving.kept, ?_, seen.serving.debug⟩
        rw [seen.serving.quiet]
        exact byte_bool _
      simp only [Launch.uses, Parsed.files, optionsSave]
      split
      · exact ⟨_, .single ⟨trivial, rfl⟩, created.server_written seen.writable saved⟩
      · exact ⟨k, .nil, created⟩

/-- A start of the client shows what it should, and keeps the rest. -/
theorem clientStart_shows {options : List ClientOption} (held : k.Filed home u.files)
    (at_home : ∀ h ∈ e.home, h = home) (good : ∀ x ∈ options, x.Fits)
    (started : clientStart dirs e options u = some (parsed, u')) :
    ∃ k', settings.Trace k ((Launch.client e options).uses parsed) k' ∧ k'.Filed home u'.files := by
  rcases clientStart_proceeds started with ⟨rfl, same⟩ | ⟨own, ret, o, text, is_own, new, loop, left⟩
  · exact ⟨k, .nil, same ▸ held⟩
  rw [left]
  obtain rfl : own = home := at_home own is_own
  obtain ⟨kept, filed⟩ := client_new held.host held.client new
  have created := held.client_written held.host filed
  have begins : ClientSeen k.client [] o := ⟨kept, held.host⟩
  have stops (o : OptionsObject) (x : ClientOption) (save : x.switch o = some .saves) :
      x.goesOn = false := by
    cases x with
    | init => rfl
    | host optarg =>
        rw [ClientOption.switch] at save
        split at save <;> cases save
    | _ => cases save
  cases parsed with
  | ends => exact ⟨k, .nil, created⟩
  | runs o' =>
      have looped := loop.resolve_left (by simp)
      have seen := (optionLoop_rule ClientSeen.goes stops good begins looped).1 o' rfl
      exact ⟨k, .single ⟨seen.kept, rfl⟩, created⟩
  | saves o' =>
      have looped := loop.resolve_left (by simp)
      have seen := (optionLoop_rule ClientSeen.goes stops good begins looped).2 o' rfl
      simp only [Launch.uses, Parsed.files, optionsSave]
      split
      · exact ⟨_, .single ⟨trivial, rfl⟩,
          created.client_written seen.host ⟨o'.toOptions, rfl, seen.kept⟩⟩
      · exact ⟨k, .nil, created⟩

theorem history_step {l : Launch} (started : start dirs u l = some (parsed, u')) (es : List Used) :
    (history dirs).step ⟨u, es⟩ l = some ⟨u', es ++ l.uses parsed⟩ := by
  have step : (starts dirs).step u l = some u' := congrArg (Option.map Prod.snd) started
  have shown : usesOf dirs u l u' = l.uses parsed := by rw [usesOf, started]
  change ((starts dirs).step u l).map _ = _
  rw [step, Option.map_some, shown]

/-- Every start shows what the store allows. -/
theorem starts_simulate : (starts dirs).Simulates (usesOf dirs) settings (fun _ l => l.Fits home)
    fun u k => k.Filed home u.files := by
  intro u l u' k held fits step
  obtain ⟨⟨parsed, v⟩, started, rfl⟩ := Option.map_eq_some_iff.mp step
  simp only [usesOf, started]
  cases l with
  | server e options => exact serverStart_shows held fits.1 fits.2 started
  | client e options => exact clientStart_shows held fits.1 fits.2 started

end

/-- The settings that are kept follow from what has been saved. -/
theorem settings_after {k k' : UserSettings} {es : List Used} (trace : settings.Trace k es k') :
    k' = es.foldl UserSettings.after k := by
  induction trace with
  | nil => rfl
  | snoc _ shown ih => rw [List.foldl_append, ← ih, List.foldl_cons, List.foldl_nil, shown.2]

/-- A user who has no files yet has the initial settings. -/
theorem initial_filed {files : CString → Option CString} (habitable : Habitable home)
    (fresh : ∀ program : Program, files (program.path home) = none) :
    (UserSettings.initial home).Filed home files := by
  have host (program : Program) : FileWord program.defaultHost := by
    cases program <;> exact .of_short (by decide) rfl (by decide) (by decide)
  refine ⟨⟨host .server, habitable.logdir, habitable.destdir⟩, host .client, ?_, ?_⟩
  · rw [fresh .server]
    rfl
  · rw [fresh .client]
    rfl

/-! ### Starts that succeed -/

section

variable {σ : Type} {dirs : Places σ CString} {u : Site σ} {k : UserSettings} {e : Startup}
  {program : Program} {type : OptionsType} {s : σ}

theorem tmpSize_eq {chars : CString} (short : chars.length ≤ 255) :
    tmpSize chars = chars.length + 1 := by
  have small : chars.length + 1 < 2 ^ 31 := by omega
  rw [tmpSize, BitVec.toInt_eq_toNat_of_lt (by rw [BitVec.toNat_ofNat]; omega), BitVec.toNat_ofNat]
  omega

/-- Without a messenger `recursive_mkdir` goes on to the end. -/
theorem recursiveMkdir_unheard {setting : MkdirSetting} (path : DirPath) (memory : setting.malloc = true)
    (short : path.chars.length ≤ 255) (s : σ) :
    recursiveMkdir dirs { setting with messenger := false } path s =
      some (dirs.createEach false s (path.printed setting.address)) := by
  have size := tmpSize_eq short
  have some_size : ¬ ({ setting with messenger := false } : MkdirSetting).malloc = false ∧
      ¬ tmpSize path.chars < 0 ∧ ¬ tmpSize path.chars = 0 := by
    refine ⟨by simp [memory], ?_, ?_⟩ <;> omega
  rw [recursiveMkdir, if_neg (not_or.mpr ⟨some_size.1, some_size.2.1⟩), if_neg some_size.2.2]
  exact congrArg some (@mkdirLoop_eq _ dirs { setting with messenger := false } path.chars
    path.chars.tail s 0 1 (Nat.zero_le 1))

/-- Without a messenger, nothing but the memory matters. -/
theorem mkdirAtStart_made {setting : MkdirSetting} (path : DirPath) (memory : setting.malloc = true)
    (short : path.chars.length ≤ 255) (s : σ) : mkdirAtStart dirs setting path.chars s =
      some (true, (dirs.createEach false s (path.printed setting.address)).state) := by
  rw [mkdirAtStart, dif_pos path.nonempty, recursiveMkdir_unheard path memory short s, Option.map_some,
    Places.createEach_lenient]

/-- The directory of the file is there when it was there, or could be made. -/
theorem Startup.Homes.found {dir : DirPath} (homes : e.Homes dirs dir s)
    (memory : e.configDir.malloc = true) (short : dir.chars.length ≤ 255) :
    dirs.found (dirs.createEach false s (dir.printed e.configDir.address)).state dir.chars = true := by
  rcases homes with there | ⟨address, makes⟩
  · exact Places.createEach_kept there
  · have unheard := @recursiveMkdir_unheard _ dirs e.configDir dir memory short s
    have fits : ∀ p ∈ dirs.reached s dir.parents, (p.length : Int) < tmpSize dir.chars := by
      intro p reached
      have size := tmpSize_eq short
      have part : p.length ≤ dir.chars.length := by
        rcases List.mem_append.mp (Places.reached_subset reached) with before | whole
        · obtain ⟨i, -, rfl⟩ := List.mem_map.mp before
          exact List.length_take_le' _ _
        · rw [List.mem_singleton.mp whole]
      omega
    obtain ⟨made, returned, -, exist⟩ := (recursiveMkdir_iff dirs
      { e.configDir with messenger := false } dir s).mpr ⟨memory, fits, fun _ => address, .inr makes⟩
    rw [unheard] at returned
    cases returned
    exact exist.mp Places.createEach_lenient _ (List.mem_append_right _ List.mem_cons_self)

theorem parentDir_eq {dir name : CString} (simple : '/' ∉ name) :
    parentDir (dir ++ '/' :: name) = dir := by
  have front : ∀ c ∈ name.reverse, decide (c ≠ '/') = true := by
    intro c mem
    refine decide_eq_true ?_
    rintro rfl
    exact simple (List.mem_reverse.mp mem)
  rw [parentDir, List.reverse_append, List.reverse_cons, List.append_assoc,
    List.dropWhile_append_of_pos front]
  simp

theorem parentDir_path (program : Program) (home : CString) :
    parentDir (program.path home) = (program.dir home).chars := by
  have simple : '/' ∉ program.configFile := by cases program <;> decide
  have split : program.path home = (program.dir home).chars ++ '/' :: program.configFile := by
    rw [Program.path, List.append_assoc]
    rfl
  rw [split]
  exact parentDir_eq simple

/-- When its streams are there, the constructor returns. -/
theorem optionsNew_total (behind : Char) (program : Program) (home : Option CString) (type : OptionsType)
    (ret : OptionsObject) (file : Option CString) :
    ∃ o text, optionsNew behind program home type ret file = some (o, text) := by
  cases file with
  | some text =>
      cases type with
      | server => exact ⟨_, _, optionsNew_server⟩
      | client => exact ⟨_, _, optionsNew_client⟩
  | none =>
      cases type with
      | server =>
          simp only [optionsNew, optionsNewForServer, optionsNewForClient, optionsReadForClient,
            clientValues_found, Option.map_some, Option.bind_eq_bind, Option.bind_some]
          exact ⟨_, _, rfl⟩
      | client => exact ⟨_, _, rfl⟩

/-- A loop that goes past every option comes to `run`. -/
theorem optionLoop_runs {χ : Type} {switch : OptionsObject → χ → Option Switched} {options : List χ}
    (goes : ∀ x ∈ options, ∀ o, ∃ o', switch o x = some (.goes o')) (o : OptionsObject) :
    ∃ o', optionLoop switch options o = some (.runs o') := by
  induction options generalizing o with
  | nil => exact ⟨o, rfl⟩
  | cons x rest ih =>
      obtain ⟨o₁, switched⟩ := goes x List.mem_cons_self o
      rw [optionLoop, switched]
      exact ih (fun y hy => goes y (List.mem_cons_of_mem x hy)) o₁

/-- With memory, and a file that can be opened, there is an object. -/
theorem configuration_found (ready : e.Ready dirs program home u) (short : home.length ≤ 232) :
    ∃ ret o text s, optionsNew e.behind program (some home) type ret (u.files (program.path home)) =
        some (o, text) ∧
      getConfigurationObject dirs program type e u = some (some (program.path home, o),
        ⟨s, Function.update u.files (program.path home) (some text)⟩) := by
  obtain ⟨ret, object⟩ := Option.isSome_iff_exists.mp ready.object
  obtain ⟨o, text, new⟩ := optionsNew_total e.behind program (some home) type ret
    (u.files (program.path home))
  have fits : (program.dir home).chars.length ≤ 255 := by
    have tail : (FILE_SEPARATOR ++ program.defaultDir).length = 10 := by cases program <;> rfl
    show (home ++ FILE_SEPARATOR ++ program.defaultDir).length ≤ 255
    rw [List.append_assoc, List.length_append, tail]
    omega
  have made := @mkdirAtStart_made _ dirs e.configDir (program.dir home) ready.configDir fits u.dirs
  generalize state : (dirs.createEach false u.dirs
    ((program.dir home).printed e.configDir.address)).state = s at made
  have named : optionsGetFilename dirs program e u.dirs = some (some (program.path home), s) := by
    rw [optionsGetFilename, ready.at_home]
    simp only [ready.filename, Bool.true_eq_false, if_false, filename_whole]
    exact congrArg (Option.map _) made
  have first : firstOpens dirs e (program.path home) { u with dirs := s } = true := by
    rw [firstOpens]
    split
    · next absent =>
      obtain ⟨creates, homes⟩ := ready.creates absent
      have there := homes.found ready.configDir fits
      rw [state] at there
      rw [creates, parentDir_path, there]
      rfl
    · exact ready.reads
  have second : secondOpens type e = true := by
    cases type with
    | server => exact ready.reads
    | client => rfl
  refine ⟨ret, o, text, s, new, ?_⟩
  rw [getConfigurationObject, named, Option.bind_some]
  simp only [object, openOptions, first, second, ready.at_home, new, Option.map_some, if_true]

theorem Habitable.short (habitable : Habitable home) : home.length ≤ 232 := by
  have fits := habitable.logdir.plain.fits
  simp only [optionsSetLogdir, optionsSetString, OPT_MAX_STR_SIZE, Option.getD_some, List.length_take,
    List.length_append] at fits
  omega

/-- With memory, the server comes to its loop. -/
theorem server_loops (habitable : Habitable home) (held : k.Filed home u.files)
    (ready : e.Ready dirs .server home u)
    (logDir : e.logDir.malloc = true) (destDir : e.destDir.malloc = true)
    (options : List ServerOption) : ∃ o files s,
      serverStart dirs e options u =
        (optionLoop ServerOption.switch options o).map fun parsed =>
          (parsed, ⟨s, parsed.files .server e.opens (Program.server.path home) files⟩) := by
  obtain ⟨ret, o, text, s, new, got⟩ := @configuration_found home _ dirs u e .server .server ready
    habitable.short
  obtain ⟨kept, -, -, -, -⟩ := server_new held.writable held.server new
  have writable := kept.writable held.writable
  have made₁ := @mkdirAtStart_made _ dirs e.logDir ⟨o.logdir, writable.logdir.plain.nonempty⟩ logDir
    (writable.logdir.plain.fits.trans (by decide)) s
  generalize (dirs.createEach false s _).state = s₁ at made₁
  have made₂ := @mkdirAtStart_made _ dirs e.destDir ⟨o.destdir, writable.destdir.plain.nonempty⟩ destDir
    (writable.destdir.plain.fits.trans (by decide)) s₁
  generalize (dirs.createEach false s₁ _).state = s₂ at made₂
  refine ⟨{ o with quiet := 0, debug := 1 },
    Function.update u.files (Program.server.path home) (some text), s₂, ?_⟩
  rw [serverStart, got, Option.bind_some]
  dsimp only
  rw [createDirectories, made₁, Option.bind_some]
  simp only [made₂, if_true, Option.bind_some, Bool.true_eq_false, if_false]

/-- With memory, the client comes to its loop. -/
theorem client_loops (habitable : Habitable home) (ready : e.Ready dirs .client home u) {options : List ClientOption}
    (some_options : options ≠ []) : ∃ o files s,
      clientStart dirs e options u =
        (optionLoop ClientOption.switch options o).map fun parsed =>
          (parsed, ⟨s, parsed.files .client e.opens (Program.client.path home) files⟩) := by
  obtain ⟨ret, o, text, s, new, got⟩ := @configuration_found home _ dirs u e .client .client ready
    habitable.short
  refine ⟨o, Function.update u.files (Program.client.path home) (some text), s, ?_⟩
  rw [clientStart, got, Option.bind_some]
  simp only [if_neg some_options]

/-- A start that has what it needs runs. -/
theorem start_runs {l : Launch} (habitable : Habitable home) (held : k.Filed home u.files)
    (fits : l.Fits home) (ready : l.Ready dirs home u) : ∃ o u', start dirs u l = some (.runs o, u') := by
  cases l with
  | server e options =>
      obtain ⟨ready, logDir, destDir, past⟩ := ready
      obtain ⟨o, files, s, started⟩ := @server_loops home _ dirs u k e habitable held ready logDir
        destDir options
      have goes : ∀ x ∈ options, ∀ o, ∃ o', ServerOption.switch o x = some (.goes o') := by
        intro x mem o
        obtain ⟨on, port, host⟩ := past x mem
        cases x with
        | port optarg | host optarg =>
            cases optarg with
            | none => contradiction
            | some text => exact ⟨_, rfl⟩
        | init | help => cases on
        | _ => exact ⟨_, rfl⟩
      obtain ⟨o', loop⟩ := optionLoop_runs goes o
      refine ⟨o', ⟨s, files⟩, ?_⟩
      rw [start, started, loop]
      rfl
  | client e options =>
      obtain ⟨ready, some_options, past⟩ := ready
      obtain ⟨o, files, s, started⟩ := @client_loops home _ dirs u e habitable ready options
        some_options
      have goes : ∀ x ∈ options, ∀ o, ∃ o', ClientOption.switch o x = some (.goes o') := by
        intro x mem o
        have on := past x mem
        cases x with
        | host optarg =>
            have good : FileWord optarg := fits.2 _ mem
            have short := good.plain.fits
            have room : optarg.length < OPT_MAX_STR_SIZE - 1 := by
              simp only [OPT_MAX_STR_SIZE]
              omega
            exact ⟨_, if_pos room⟩
        | init | help => cases on
        | _ => exact ⟨_, rfl⟩
      obtain ⟨o', loop⟩ := optionLoop_runs goes o
      refine ⟨o', ⟨s, files⟩, ?_⟩
      rw [start, started, loop]
      rfl

end

/-- Every run of a program has the settings that its last `--init` has left, or the defaults, changed
by its own options. -/
theorem settings_last {σ : Type} {dirs : Places σ CString} {home : CString} {u : Site σ}
    {n : Noted (Site σ) Used} (habitable : Habitable home)
    (fresh : ∀ program : Program, u.files (program.path home) = none)
    (run : (history dirs).Run (fun _ l => l.Fits home) ⟨u, []⟩ n)
    {before after : List Used} {e : Used} (here : n.events = before ++ e :: after) :
    (before.foldl UserSettings.after (UserSettings.initial home)).Shows e := by
  obtain ⟨k, trace, -⟩ := starts_simulate.trace (initial_filed habitable fresh) run
  obtain ⟨k₁, k₂, first, shown, -⟩ := trace.shown here
  rw [← settings_after first]
  exact shown.1

/-- A start in the home `h`. -/
def startup : Startup where
  home := some ['h']
  object := some (filled 0 0 [])
  behind := ' '
  configDir := ⟨true, false, 1⟩
  logDir := ⟨true, false, 1⟩
  destDir := ⟨true, false, 1⟩

/-- Only the directory of the configuration file can be made. -/
def homePlaces : Places (List CString) CString where
  found s p := decide (p ∈ s)
  create s p := if p ∈ (Program.server.dir ['h']).parents then (p :: s, true) else (s, false)
  created s p h := by
    split at h
    · simp [*]
    · cases h
  kept s p q there := by
    split
    · simpa using Or.inr (of_decide_eq_true there)
    · exact there
  refused s p h := by
    split at h
    · cases h
    · simp [*]

/-- The first start finds a place for its file. -/
theorem startup_homes : startup.Homes homePlaces (Program.server.dir ['h']) [] :=
  .inr ⟨.inl (by decide), by decide⟩

theorem startup_habitable : Habitable ['h'] := by
  have word : ∀ s ∈ [optionsSetLogdir .server (some ['h']), optionsSetDestdir (some ['h'])],
      s ≠ [] ∧ (s.all fun c => !isSpace c) = true ∧ s.length ≤ 232 ∧ '\x00' ∉ s ∧
        ((serverKeys ++ clientKeys).all fun key => !decide (key <:+: s)) = true := by
    decide +kernel
  have good : ∀ s ∈ [optionsSetLogdir .server (some ['h']), optionsSetDestdir (some ['h'])],
      FileWord s := by
    intro s mem
    obtain ⟨nonempty, visible, fits, clean, apart⟩ := word s mem
    exact ⟨⟨nonempty, by simpa using visible, fits⟩, clean,
      fun key mem => by simpa using List.all_eq_true.mp apart key mem⟩
  exact ⟨good _ (.head _), good _ (.tail _ (.head _))⟩

/-- `dsserver -p 80 --init`, and then `dsserver`. -/
theorem settings_last_run : ∃ n o,
    (history homePlaces).Run (fun _ l => l.Fits ['h']) ⟨⟨[], fun _ => none⟩, []⟩ n ∧
      n.events = [.server (.saved [.port (some ['8', '0'])])] ++ .server (.ran [] o) :: [] ∧
      o.port = 80 := by
  have first_held := @initial_filed ['h'] (fun _ => none) startup_habitable fun _ => rfl
  have fits (options : List ServerOption) (good : ∀ x ∈ options, x.Fits) :
      (Launch.server startup options).Fits ['h'] :=
    ⟨fun h at_home => (Option.some.inj at_home).symm, good⟩
  have fits₁ := fits [.port (some ['8', '0']), .init] (by simp [ServerOption.Fits])
  have fits₂ := fits [] (by simp)
  -- the settings are saved
  obtain ⟨o₁, files₁, s₁, started₁⟩ := @server_loops ['h'] _ homePlaces ⟨[], fun _ => none⟩ _ _
    startup_habitable first_held ⟨rfl, rfl, rfl, rfl, rfl, fun _ => ⟨rfl, startup_homes⟩⟩ rfl rfl
    [.port (some ['8', '0']), .init]
  have save : ∃ u, start homePlaces ⟨[], fun _ => none⟩
      (.server startup [.port (some ['8', '0']), .init]) =
        some (.saves { o₁ with port := portNumber ['8', '0'] }, u) ∧
      u.files (Program.server.path ['h']) ≠ none :=
    ⟨_, started₁, by simp [Parsed.files, optionsSave, startup]⟩
  obtain ⟨u, save, there⟩ := save
  have run₁ : (history homePlaces).Run (fun _ l => l.Fits ['h']) ⟨⟨[], fun _ => none⟩, []⟩
      ⟨u, [.server (.saved [.port (some ['8', '0'])])]⟩ := by
    exact .tail .refl fits₁ (history_step save [])
  obtain ⟨k, -, held⟩ := starts_simulate.trace first_held run₁
  -- and found again
  obtain ⟨o, u', started⟩ := @start_runs ['h'] _ homePlaces u k (.server startup []) startup_habitable
    held fits₂ ⟨⟨rfl, rfl, rfl, rfl, rfl, fun absent => absurd absent there⟩, rfl, rfl, by simp⟩
  have run := run₁.tail fits₂ (history_step started _)
  have last := settings_last startup_habitable (fun _ => rfl) run rfl
  exact ⟨_, o, run, rfl, last.kept.port⟩

/-- Whatever has been started before, a start that has its memory and can open its file comes to
`run`. -/
theorem starts_run {σ : Type} {dirs : Places σ CString} {home : CString} {u : Site σ}
    {n : Noted (Site σ) Used} {l : Launch} (habitable : Habitable home)
    (fresh : ∀ program : Program, u.files (program.path home) = none)
    (run : (history dirs).Run (fun _ l => l.Fits home) ⟨u, []⟩ n) (fits : l.Fits home)
    (ready : l.Ready dirs home n.state) :
    ∃ n' o, (history dirs).step n l = some n' ∧ n'.events = n.events ++ [l.ran o] := by
  obtain ⟨k, -, held⟩ := starts_simulate.trace (initial_filed habitable fresh) run
  obtain ⟨o, u', started⟩ := @start_runs home _ dirs n.state k l habitable held fits ready
  have shown : l.uses (.runs o) = [l.ran o] := by cases l <;> rfl
  exact ⟨_, o, history_step started n.events, by rw [shown]⟩

/-- The first start of the server: neither the log nor the destination directory can be made. -/
theorem starts_run_run : ∃ n' o,
    (history homePlaces).step ⟨⟨[], fun _ => none⟩, []⟩ (.server startup [.quiet]) = some n' ∧
      n'.events = [] ++ [.server (.ran [.quiet] o)] :=
  starts_run startup_habitable (fun _ => rfl) .refl
    ⟨fun h at_home => (Option.some.inj at_home).symm, by simp [ServerOption.Fits]⟩
    ⟨⟨rfl, rfl, rfl, rfl, rfl, fun _ => ⟨rfl, startup_homes⟩⟩, rfl, rfl,
      by simp [ServerOption.goesOn]⟩

end

end Dserve
