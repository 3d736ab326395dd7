import Dserve.NewOptions

/-!
`options_new` on a server's file: whether a key sets its own field and no other.

The values leak in four ways. A string may contain the name of another key, of the client's too,
for which the same file is searched. The timeout is overwritten. `quiet` and `keep_alive` are
read through a pointer to `short`, so that they write the byte behind them. And what does not
fit a field is cut. `options_new_independent_iff` says that a file without strings is free of
this under conditions on its numbers, and that one with a string never is.
-/

namespace Dserve

open Scan Settings

/-! ### The server's file -/

/-- The keys of the server. -/
inductive ServerKey where
  | port
  | ip
  | timeout
  | log
  | dest
  | max
  | quiet
  | debug
deriving DecidableEq

namespace ServerKey

def name : ServerKey → CString
  | port => "server.listen.port".toList
  | ip => "server.listen.ip".toList
  | timeout => "server.connection.timeout".toList
  | log => "server.directory.log".toList
  | dest => "server.directory.dest".toList
  | max => "server.downloads.max".toList
  | quiet => "server.mode.quiet".toList
  | debug => "server.mode.debug".toList

/-- The keys of strings. -/
def IsText (k : ServerKey) : Prop := k = ip ∨ k = log ∨ k = dest

instance (k : ServerKey) : Decidable k.IsText := by unfold IsText; infer_instance

/-- How many values the field of a number has. -/
def size : ServerKey → Nat
  | quiet | debug => 256
  | _ => 65536

end ServerKey

/-- What is in a field. -/
inductive FieldValue where
  | number (n : Nat)
  | text (s : CString)
deriving DecidableEq

/-- The field of a key. -/
def ServerKey.field (o : OptionsObject) : ServerKey → FieldValue
  | port => .number o.port.toNat
  | ip => .text o.host
  | timeout => .number o.timeout.toNat
  | log => .text o.logdir
  | dest => .text o.destdir
  | max => .number o.maxConcurrentDownloads.toNat
  | quiet => .number o.quiet.toNat
  | debug => .number o.debug.toNat

/-- A field has what a value says. -/
def FieldValue.IsValue : FieldValue → CString → Prop
  | number n, value => value = printInt n
  | text s, value => value = s

/-- A word for a string, an integer for the others. -/
def ServerKey.WellFormed (k : ServerKey) (value : CString) : Prop :=
  if k.IsText then value ≠ [] ∧ (∀ c ∈ value, isSpace c = false) ∧ '\x00' ∉ value
  else ∃ n, value = printInt n

/-- A line of the file. -/
structure ServerSetting where
  key : ServerKey
  value : CString
deriving DecidableEq

def ServerSetting.setting (s : ServerSetting) : Setting := ⟨s.key.name, s.value⟩

@[simp] theorem ServerSetting.setting_key (s : ServerSetting) : s.setting.key = s.key.name := rfl

@[simp] theorem ServerSetting.setting_value (s : ServerSetting) : s.setting.value = s.value := rfl

def fileText (settings : List ServerSetting) : CString := text (settings.map ServerSetting.setting)

/-- Well-formed lines for some of the keys, in any order. -/
structure ServerFile (settings : List ServerSetting) : Prop where
  distinct : (settings.map ServerSetting.key).Nodup
  values : ∀ s ∈ settings, s.key.WellFormed s.value

/-- The objects differ in the field of the key at most. -/
structure DifferAt (key : ServerKey) (o o' : OptionsObject) : Prop where
  others : ∀ k, k ≠ key → k.field o = k.field o'
  keepAlive : o.keepAlive = o'.keepAlive
  queueRetryCount : o.queueRetryCount = o'.queueRetryCount
  queueRetryWait : o.queueRetryWait = o'.queueRetryWait

/-- Every key sets its field, and a change of its value changes no other. -/
def Independent (settings : List ServerSetting) : Prop :=
  ∀ (behind : Char) (program : Program) (home : Option CString) (ret : OptionsObject),
    ∃ o, optionsNew behind program home .server ret (some (fileText settings)) =
        some (o, fileText settings) ∧
      ∀ before own after, settings = before ++ own :: after →
        (own.key.field o).IsValue own.value ∧
        ∀ value, own.key.WellFormed value → ∃ o',
          optionsNew behind program home .server ret
            (some (fileText (before ++ ⟨own.key, value⟩ :: after))) =
            some (o', fileText (before ++ ⟨own.key, value⟩ :: after)) ∧ DifferAt own.key o o'

/-- No strings, numbers that their fields hold, the default timeout if any, and with `quiet` also
`debug`, which is read after it. -/
structure Untangled (settings : List ServerSetting) : Prop where
  numbers : ∀ s ∈ settings, ¬ s.key.IsText
  sizes : ∀ s ∈ settings, ∃ n, n < s.key.size ∧ s.value = printInt n
  timeout : ∀ s ∈ settings, s.key = .timeout → s.value = printInt OPT_DEFAULT_TIMEOUT.toNat
  debug : .quiet ∈ settings.map ServerSetting.key → .debug ∈ settings.map ServerSetting.key

section

variable {settings before after : List ServerSetting} {own : ServerSetting} {k key : ServerKey}
  {name value : CString} {ret : OptionsObject}

theorem ServerKey.name_injective : Function.Injective ServerKey.name := by
  intro k k' same
  have distinct : ∀ k k' : ServerKey, k.name = k'.name → k = k' := by
    intro k k'
    cases k <;> cases k' <;> decide
  exact distinct k k' same

theorem ServerKey.name_mem (k : ServerKey) : k.name ∈ serverKeys := by
  cases k <;> decide

/-- A client's key does not begin inside of a server's. -/
theorem clientKeys_apart : ∀ c ∈ clientKeys, ∀ k ∈ serverKeys, Apart c (k ++ ['=']) := by
  decide +kernel

/-- The value that a file has for a key. -/
def given (settings : List ServerSetting) (key : ServerKey) : Option CString :=
  (settings.find? fun s => decide (s.key = key)).map ServerSetting.value

/-- No value contains the name. -/
def Clear (settings : List ServerSetting) (name : CString) : Prop :=
  ∀ s ∈ settings, ¬ name <:+: s.value

theorem ServerKey.WellFormed.clean (form : k.WellFormed value) : '\n' ∉ value ∧ '\x00' ∉ value := by
  unfold ServerKey.WellFormed at form
  split at form
  · obtain ⟨-, word, zero⟩ := form
    refine ⟨fun newline => ?_, zero⟩
    have blank := word '\n' newline
    cases blank
  · obtain ⟨n, rfl⟩ := form
    constructor
    · intro newline
      rcases mem_printInt newline with h | h <;> cases h
    · intro zero
      rcases mem_printInt zero with h | h <;> cases h

/-- A number contains no key. -/
theorem printInt_apart {n : Int} (dot : '.' ∈ name) : ¬ name <:+: printInt n := by
  intro inside
  rcases mem_printInt (inside.mem dot) with h | h <;> cases h

theorem ServerFile.readable (file : ServerFile settings) :
    Readable (OPT_MAX_STR_SIZE - 2) (settings.map ServerSetting.setting) := by
  have named : ∀ t ∈ settings.map ServerSetting.setting, t.key ∈ serverKeys := by
    intro t ht
    obtain ⟨s, -, rfl⟩ := List.mem_map.mp ht
    exact s.key.name_mem
  constructor
  · exact fun t ht => serverKeys_set.key (named t ht)
  · have names : (settings.map ServerSetting.setting).map Setting.key =
        (settings.map ServerSetting.key).map ServerKey.name := by
      simp only [List.map_map]
      rfl
    rw [names]
    exact file.distinct.map ServerKey.name_injective
  · exact fun s hs t ht => serverKeys_set.apart _ (named s hs) _ (named t ht)
  · intro t ht
    obtain ⟨s, hs, rfl⟩ := List.mem_map.mp ht
    exact (file.values s hs).clean.1

theorem ServerFile.clean (file : ServerFile settings) : '\x00' ∉ fileText settings := by
  intro zero
  obtain ⟨t, ht, zero⟩ := List.mem_flatMap.mp zero
  obtain ⟨s, hs, rfl⟩ := List.mem_map.mp ht
  simp only [ServerSetting.setting, Setting.line, List.mem_append, List.mem_cons, List.not_mem_nil,
    or_false] at zero
  rcases zero with (zero | zero | zero) | zero
  · exact (serverKeys_set.clean _ s.key.name_mem).2.2.1 zero
  · cases zero
  · exact (file.values s hs).clean.2 zero
  · cases zero

theorem found_of_finds {α : Type} {file : CString} {line : Option CString}
    (convert : CString → Option α) (clean : '\x00' ∉ file)
    (finds : Finds (OPT_MAX_STR_SIZE - 2) name file line) :
    found convert file name = line.bind fun line => (afterKey line).bind convert := by
  have read := optionsRead_found ' ' file name convert
  rw [optionsRead_finds clean finds, Option.map_some] at read
  exact (Option.some.inj read).symm

/-- Where no value contains the name, only its own line can be found. -/
theorem source_of_clear (clear : Clear settings name) :
    source (settings.map ServerSetting.setting) name =
      (settings.find? fun s => decide (s.key.name = name)).map ServerSetting.setting := by
  induction settings with
  | nil => rfl
  | cons s settings ih =>
      have outside := clear s List.mem_cons_self
      rw [List.map_cons, source_cons, List.find?_cons, ih fun t ht => clear t (List.mem_cons_of_mem s ht)]
      rw [s.setting_key, s.setting_value]
      by_cases same : s.key.name = name
      · rw [if_pos (Or.inl same), decide_eq_true same]
        rfl
      · rw [if_neg (not_or.mpr ⟨same, outside⟩), decide_eq_false same]

/-- What is found for a key of the server. -/
theorem found_given {α : Type} {convert : CString → Option α} (file : ServerFile settings)
    (clear : Clear settings key.name) : found convert (fileText settings) key.name =
      (given settings key).bind fun value =>
        convert (Setting.text (OPT_MAX_STR_SIZE - 2) ⟨key.name, value⟩) := by
  have named := serverKeys_set.key key.name_mem
  have apart : ∀ t ∈ settings.map ServerSetting.setting, t.key ≠ key.name →
      Apart key.name (t.key ++ ['=']) := by
    intro t ht other
    obtain ⟨s, -, rfl⟩ := List.mem_map.mp ht
    exact serverKeys_set.apart _ key.name_mem _ s.key.name_mem other
  have same : (fun s : ServerSetting => decide (s.key.name = key.name)) =
      fun s => decide (s.key = key) := by
    funext s
    exact decide_eq_decide.mpr ServerKey.name_injective.eq_iff
  have src := source_of_clear clear
  rw [same] at src
  cases found : settings.find? fun s => decide (s.key = key) with
  | none =>
      rw [found] at src
      rw [found_of_finds convert file.clean (finds_none file.readable named apart src), given, found]
      rfl
  | some s =>
      rw [found] at src
      obtain rfl : s.key = key := by simpa using List.find?_some found
      rw [found_of_finds convert file.clean (finds_source file.readable named apart src (Or.inl rfl)),
        given, found]
      exact congrArg (Option.bind · convert) (@afterKey_line _ s.setting named)

/-- Nothing is found for a key of the client. -/
theorem found_client {α : Type} {convert : CString → Option α} (file : ServerFile settings)
    (client : name ∈ clientKeys) (clear : Clear settings name) :
    found convert (fileText settings) name = none := by
  have apart : ∀ t ∈ settings.map ServerSetting.setting, t.key ≠ name → Apart name (t.key ++ ['=']) := by
    intro t ht _
    obtain ⟨s, -, rfl⟩ := List.mem_map.mp ht
    exact clientKeys_apart _ client _ s.key.name_mem
  have different : ∀ c ∈ clientKeys, c ∉ serverKeys := by decide
  have src := source_of_clear clear
  rw [List.find?_eq_none.mpr, Option.map_none] at src
  · rw [found_of_finds convert file.clean (finds_none file.readable (clientKeys_set.key client) apart src)]
    rfl
  · intro s _ same
    exact different name client (of_decide_eq_true same ▸ s.key.name_mem)

/-! ### Files without a key in a value -/

/-- No value contains a key. -/
def NoKeys (settings : List ServerSetting) : Prop :=
  ∀ name, name ∈ serverKeys ∨ name ∈ clientKeys → Clear settings name

/-- Numbers contain no key. -/
theorem ServerFile.noKeys (file : ServerFile settings) (numbers : ∀ s ∈ settings, ¬ s.key.IsText) :
    NoKeys settings := by
  intro name named s hs
  have form := file.values s hs
  unfold ServerKey.WellFormed at form
  rw [if_neg (numbers s hs)] at form
  obtain ⟨n, value⟩ := form
  rw [value]
  apply printInt_apart
  rcases named with server | client
  · exact (serverKeys_set.clean _ server).2.2.2.1
  · exact (clientKeys_set.clean _ client).2.2.2.1

theorem NoKeys.server (clear : NoKeys settings) (k : ServerKey) : Clear settings k.name :=
  clear k.name (Or.inl k.name_mem)

/-- The client finds nothing in such a file. -/
theorem clientFound_noKeys (file : ServerFile settings) (clear : NoKeys settings) :
    clientFound (fileText settings) = ⟨none, none, none, none⟩ := by
  have absent {α : Type} (convert : CString → Option α) : ∀ c ∈ clientKeys,
      found convert (fileText settings) c = none := fun c client =>
    found_client file client (clear c (Or.inr client))
  simp only [clientFound, absent asShort _ (.head _), absent asWord _ (.tail _ (.head _)),
    absent asShort _ (.tail _ (.tail _ (.head _))), absent asShort _ (.tail _ (.tail _ (.tail _ (.head _))))]

/-- The object when the client finds nothing. -/
theorem serverObject_alone {file : CString} (alone : clientFound file = ⟨none, none, none, none⟩) :
    serverObject ret file =
      { toOptions := { (serverFound file).assign ret.toOptions with timeout := OPT_DEFAULT_TIMEOUT }
        queueRetryCount := OPT_DEFAULT_Q_RETRY_COUNT
        queueRetryWait := OPT_DEFAULT_Q_RETRY_WAIT } := by
  rw [serverObject, clientObject, alone]
  rfl

theorem given_own (file : ServerFile settings) (mem : own ∈ settings) :
    given settings own.key = some own.value := by
  obtain ⟨s, found⟩ : ∃ s, settings.find? (fun s => decide (s.key = own.key)) = some s := by
    apply Option.isSome_iff_exists.mp
    rw [List.find?_isSome]
    exact ⟨own, mem, by simp⟩
  have same : s.key = own.key := by simpa using List.find?_some found
  have eq := List.inj_on_of_nodup_map file.distinct (List.mem_of_find?_eq_some found) mem same
  rw [given, found, eq, Option.map_some]

theorem given_absent (absent : k ∉ settings.map ServerSetting.key) : given settings k = none := by
  rw [given, List.find?_eq_none.mpr, Option.map_none]
  intro s hs same
  exact absent (of_decide_eq_true same ▸ List.mem_map_of_mem hs)

/-- The values of the other keys. -/
theorem given_change (other : k ≠ own.key) : given (before ++ own :: after) k =
    given (before ++ ⟨own.key, value⟩ :: after) k := by
  have first : decide (own.key = k) = false := decide_eq_false (Ne.symm other)
  simp only [given, List.find?_append, List.find?_cons, first]

theorem ServerFile.change (file : ServerFile (before ++ own :: after)) (form : own.key.WellFormed value) :
    ServerFile (before ++ ⟨own.key, value⟩ :: after) := by
  constructor
  · have keys := file.distinct
    simp only [List.map_append, List.map_cons] at keys ⊢
    exact keys
  · intro s hs
    simp only [List.mem_append, List.mem_cons] at hs
    rcases hs with hs | rfl | hs
    · exact file.values s (by simp [hs])
    · exact form
    · exact file.values s (by simp [hs])

theorem numbers_change (numbers : ∀ s ∈ before ++ own :: after, ¬ s.key.IsText) :
    ∀ s ∈ before ++ ⟨own.key, value⟩ :: after, ¬ s.key.IsText := by
  intro s hs
  simp only [List.mem_append, List.mem_cons] at hs
  rcases hs with hs | rfl | hs
  · exact numbers s (by simp [hs])
  · exact numbers own (by simp)
  · exact numbers s (by simp [hs])

/-- The number that is found for a key. -/
theorem found_number {n : Nat} (file : ServerFile settings) (clear : NoKeys settings)
    (mem : own ∈ settings) (value : own.value = printInt n) (small : n < 65536) :
    found asShort (fileText settings) own.key.name = some (short n) := by
  have fits : ∀ k ∈ serverKeys, k.length + 8 ≤ OPT_MAX_STR_SIZE - 2 := by decide
  have read := @scanInt_text own.setting n value (by omega) (fits _ own.key.name_mem)
  rw [found_given file (clear.server _), given_own file mem, Option.bind_some,
    asShort]
  exact congrArg (Option.map short) read

theorem short_nat {n : Nat} (small : n < 65536) : (short n).toNat = n := by
  have same := short_toNat (BitVec.ofNat 16 n)
  rw [BitVec.toNat_ofNat, Nat.mod_eq_of_lt small] at same
  rw [same, BitVec.toNat_ofNat, Nat.mod_eq_of_lt small]

theorem lowByte_nat {n : Nat} (small : n < 256) : (lowByte (short n)).toNat = n := by
  rw [lowByte, BitVec.toNat_setWidth, short_nat (by omega), Nat.mod_eq_of_lt small]

/-- In an untangled file every key sets its field. -/
theorem Untangled.sets (file : ServerFile settings) (untangled : Untangled settings) (mem : own ∈ settings) :
    (own.key.field (serverObject ret (fileText settings))).IsValue own.value := by
  obtain ⟨n, small, value⟩ := untangled.sizes own mem
  have bound : n < 65536 := by
    cases h : own.key <;> rw [h] at small <;> simp only [ServerKey.size] at small <;> omega
  have clear := file.noKeys untangled.numbers
  have read := found_number file clear mem value bound
  have number := untangled.numbers own mem
  rw [serverObject_alone (clientFound_noKeys file clear)]
  cases key : own.key with
  | port =>
      rw [key] at read
      change own.value = printInt ((found asShort (fileText settings) ServerKey.port.name).getD _).toNat
      rw [read, Option.getD_some, short_nat bound]
      exact value
  | ip => exact absurd (by simp [key, ServerKey.IsText]) number
  | timeout => exact untangled.timeout own mem key
  | log => exact absurd (by simp [key, ServerKey.IsText]) number
  | dest => exact absurd (by simp [key, ServerKey.IsText]) number
  | max =>
      rw [key] at read
      change own.value = printInt ((found asShort (fileText settings) ServerKey.max.name).getD _).toNat
      rw [read, Option.getD_some, short_nat bound]
      exact value
  | quiet =>
      rw [key] at read small
      change own.value =
        printInt (((found asShort (fileText settings) ServerKey.quiet.name).map lowByte).getD _).toNat
      rw [read, Option.map_some, Option.getD_some, lowByte_nat small]
      exact value
  | debug =>
      rw [key] at read small
      change own.value =
        printInt (((found asShort (fileText settings) ServerKey.debug.name).map lowByte).getD _).toNat
      rw [read, Option.map_some, Option.getD_some, lowByte_nat small]
      exact value

/-- What is found for the other keys does not depend on the value. -/
theorem found_change {α : Type} (convert : CString → Option α)
    (file : ServerFile (before ++ own :: after)) (form : own.key.WellFormed value)
    (clear : NoKeys (before ++ own :: after)) (clear' : NoKeys (before ++ ⟨own.key, value⟩ :: after))
    (other : k ≠ own.key) : found convert (fileText (before ++ own :: after)) k.name =
      found convert (fileText (before ++ ⟨own.key, value⟩ :: after)) k.name := by
  rw [found_given file (clear.server k), found_given (file.change form) (clear'.server k), given_change other]

/-- As long as no value contains a key, a value changes its own field only, but for `quiet`, which
needs `debug` to be read after it. -/
theorem differAt_of_noKeys (file : ServerFile (before ++ own :: after)) (form : own.key.WellFormed value)
    (clear : NoKeys (before ++ own :: after)) (clear' : NoKeys (before ++ ⟨own.key, value⟩ :: after))
    (written : own.key = .quiet →
      (found asShort (fileText (before ++ own :: after)) ServerKey.debug.name).isSome = true) :
    DifferAt own.key (serverObject ret (fileText (before ++ own :: after)))
      (serverObject ret (fileText (before ++ ⟨own.key, value⟩ :: after))) := by
  have same {α : Type} (convert : CString → Option α) (k : ServerKey) (other : k ≠ own.key) :=
    found_change convert file form clear clear' other
  rw [serverObject_alone (clientFound_noKeys file clear),
    serverObject_alone (clientFound_noKeys (file.change form) clear')]
  constructor
  · intro k other
    cases k with
    | port => exact congrArg (fun v => FieldValue.number (v.getD ret.port).toNat) (same asShort .port other)
    | ip => exact congrArg (fun v => FieldValue.text (v.getD ret.host)) (same asWord .ip other)
    | timeout => rfl
    | log => exact congrArg (fun v => FieldValue.text (v.getD ret.logdir)) (same asWord .log other)
    | dest => exact congrArg (fun v => FieldValue.text (v.getD ret.destdir)) (same asWord .dest other)
    | max =>
        exact congrArg (fun v => FieldValue.number (v.getD ret.maxConcurrentDownloads).toNat)
          (same asShort .max other)
    | quiet =>
        exact congrArg (fun v => FieldValue.number ((v.map lowByte).getD ret.quiet).toNat)
          (same asShort .quiet other)
    | debug =>
        have debug := same asShort .debug other
        have fields {v v' : Option (BitVec 16)} {d d' : Option (BitVec 16)} (eq : d = d')
            (either : d.isSome = true ∨ v = v') :
            ((d.map lowByte).getD ((v.map highByte).getD ret.debug)).toNat =
              ((d'.map lowByte).getD ((v'.map highByte).getD ret.debug)).toNat := by
          subst eq
          rcases either with read | rfl
          · obtain ⟨n, rfl⟩ := Option.isSome_iff_exists.mp read
            rfl
          · rfl
        apply congrArg FieldValue.number
        apply fields debug
        by_cases quiet : own.key = .quiet
        · -- the byte that `quiet` writes is written again
          exact Or.inl (written quiet)
        · exact Or.inr (same asShort .quiet (Ne.symm quiet))
  · rfl
  · rfl
  · rfl

/-- In an untangled file a value changes its own field only. -/
theorem Untangled.differAt (file : ServerFile (before ++ own :: after))
    (untangled : Untangled (before ++ own :: after)) (form : own.key.WellFormed value) :
    DifferAt own.key (serverObject ret (fileText (before ++ own :: after)))
      (serverObject ret (fileText (before ++ ⟨own.key, value⟩ :: after))) := by
  have clear := file.noKeys untangled.numbers
  apply differAt_of_noKeys file form clear ((file.change form).noKeys (numbers_change untangled.numbers))
  intro quiet
  obtain ⟨s, hs, key⟩ := List.mem_map.mp (untangled.debug (by simp [quiet]))
  obtain ⟨n, small, value⟩ := untangled.sizes s hs
  rw [key] at small
  have bound : n < 65536 := Nat.lt_trans small (by decide)
  have read := found_number file clear hs value bound
  rw [key] at read
  exact Option.isSome_iff_exists.mpr ⟨_, read⟩

/-- Independence, of the objects. -/
theorem independent_iff : Independent settings ↔
    ∀ ret before own after, settings = before ++ own :: after →
      (own.key.field (serverObject ret (fileText settings))).IsValue own.value ∧
      ∀ value, own.key.WellFormed value → DifferAt own.key (serverObject ret (fileText settings))
        (serverObject ret (fileText (before ++ ⟨own.key, value⟩ :: after))) := by
  constructor
  · intro independent ret before own after eq
    obtain ⟨o, new, all⟩ := independent ' ' .server none ret
    rw [optionsNew_server] at new
    cases new
    obtain ⟨sets, changes⟩ := all before own after eq
    refine ⟨sets, fun value form => ?_⟩
    obtain ⟨o', new', differ⟩ := changes value form
    rw [optionsNew_server] at new'
    cases new'
    exact differ
  · intro all behind program home ret
    refine ⟨_, optionsNew_server, fun before own after eq => ?_⟩
    obtain ⟨sets, changes⟩ := all ret before own after eq
    exact ⟨sets, fun value form => ⟨_, optionsNew_server, changes value form⟩⟩

/-! ### Files with strings -/

/-- A word with a key of the client in it, behind a digit. -/
def keepaliveWord (digit : Char) : CString := digit :: "client.connection.keepalive".toList

/-- What the client reads of the line with such a word. -/
theorem keepaliveWord_read : ∀ k : ServerKey, k.IsText → ∀ d ∈ [('1', (1 : BitVec 16)), ('2', 2)],
    Setting.Fits (OPT_MAX_STR_SIZE - 2) ⟨k.name, keepaliveWord d.1⟩ ∧
      asShort (Setting.text (OPT_MAX_STR_SIZE - 2) ⟨k.name, keepaliveWord d.1⟩) = some d.2 := by
  intro k text
  rcases text with rfl | rfl | rfl
  · decide
  · decide
  · decide

theorem keepaliveWord_form (text : k.IsText) : ∀ d ∈ [('1', (1 : BitVec 16)), ('2', 2)],
    k.WellFormed (keepaliveWord d.1) := by
  have digits : ∀ d ∈ [('1', (1 : BitVec 16)), ('2', 2)], isSpace d.1 = false ∧ d.1 ≠ '\x00' := by decide
  have key : "client.connection.keepalive".toList.all (fun c => !isSpace c && c != '\x00') = true := by
    decide
  intro d hd
  have all : ∀ c ∈ keepaliveWord d.1, isSpace c = false ∧ c ≠ '\x00' := by
    intro c hc
    rcases List.mem_cons.mp hc with rfl | hc
    · exact digits d hd
    · simpa using List.all_eq_true.mp key c hc
  unfold ServerKey.WellFormed
  rw [if_pos text]
  exact ⟨List.cons_ne_nil _ _, fun c hc => (all c hc).1, fun zero => (all _ zero).2 rfl⟩

/-- The first string of a file can give the client its `keepalive`. -/
theorem found_keepaliveWord {c : Char} (file : ServerFile (before ++ own :: after))
    (numbers : ∀ s ∈ before, ¬ s.key.IsText)
    (fits : Setting.Fits (OPT_MAX_STR_SIZE - 2) ⟨own.key.name, own.value⟩)
    (word : own.value = keepaliveWord c) :
    found asShort (fileText (before ++ own :: after)) "client.connection.keepalive".toList =
      asShort (Setting.text (OPT_MAX_STR_SIZE - 2) ⟨own.key.name, own.value⟩) := by
  have client : "client.connection.keepalive".toList ∈ clientKeys := by decide
  have inside : "client.connection.keepalive".toList <:+: own.value := by
    rw [word]
    exact (List.suffix_cons _ _).isInfix
  have front : ServerFile before := by
    constructor
    · have keys := file.distinct
      rw [List.map_append] at keys
      exact keys.of_append_left
    · exact fun s hs => file.values s (List.mem_append_left _ hs)
  have earlier : source (before.map ServerSetting.setting) "client.connection.keepalive".toList = none := by
    rw [source_of_clear (front.noKeys numbers _ (Or.inr client)), List.find?_eq_none.mpr]
    · rfl
    · intro s _ same
      have different : "client.connection.keepalive".toList ∉ serverKeys := by decide
      exact different (of_decide_eq_true same ▸ s.key.name_mem)
  have src : source ((before ++ own :: after).map ServerSetting.setting)
      "client.connection.keepalive".toList = some own.setting := by
    unfold source at earlier ⊢
    rw [List.map_append, List.find?_append, earlier, Option.none_or, List.map_cons]
    exact List.find?_cons_of_pos (decide_eq_true (Or.inr inside))
  have apart : ∀ t ∈ (before ++ own :: after).map ServerSetting.setting,
      t.key ≠ "client.connection.keepalive".toList →
        Apart "client.connection.keepalive".toList (t.key ++ ['=']) := by
    intro t ht _
    obtain ⟨s, -, rfl⟩ := List.mem_map.mp ht
    exact clientKeys_apart _ client _ s.key.name_mem
  rw [found_of_finds asShort file.clean
    (finds_source file.readable (clientKeys_set.key client) apart src (Or.inr fits))]
  exact congrArg (Option.bind · asShort) (@afterKey_line _ own.setting (serverKeys_set.key own.key.name_mem))

/-- In a file with a string, the first string leaks. -/
theorem Independent.numbers (file : ServerFile settings) (independent : Independent settings) :
    ∀ s ∈ settings, ¬ s.key.IsText := by
  intro s hs text
  obtain ⟨own, first⟩ : ∃ own, settings.find? (fun s => decide s.key.IsText) = some own := by
    apply Option.isSome_iff_exists.mp
    rw [List.find?_isSome]
    exact ⟨s, hs, decide_eq_true text⟩
  obtain ⟨texts, before, after, eq, earlier⟩ := List.find?_eq_some_iff_append.mp first
  have texts := of_decide_eq_true texts
  have numbers : ∀ s ∈ before, ¬ s.key.IsText := by
    intro s hs
    simpa using earlier s hs
  subst eq
  have changed : ∀ d ∈ [('1', (1 : BitVec 16)), ('2', 2)],
      (serverObject (filled 0 0 []) (fileText (before ++ own :: after))).keepAlive = lowByte d.2 := by
    intro d hd
    have form := keepaliveWord_form texts d hd
    obtain ⟨fits, read⟩ := keepaliveWord_read own.key texts d hd
    have leaked := found_keepaliveWord (file.change form) numbers fits rfl
    have differ := (independent_iff.mp independent (filled 0 0 []) before own after rfl).2 _ form
    rw [differ.keepAlive]
    change ((found asShort _ "client.connection.keepalive".toList).map lowByte).getD _ = _
    rw [leaked, read]
    rfl
  have same := (changed _ (.head _)).symm.trans (changed _ (.tail _ (.head _)))
  cases same

/-- Without `debug` its field has the high byte of `quiet`. -/
theorem debug_of_quiet {n : Nat} (file : ServerFile settings) (clear : NoKeys settings)
    (mem : ⟨.quiet, printInt n⟩ ∈ settings) (small : n < 65536)
    (absent : .debug ∉ settings.map ServerSetting.key) :
    (serverObject ret (fileText settings)).debug = highByte (short n) := by
  have quiet : (serverFound (fileText settings)).quiet = some (short n) :=
    @found_number _ ⟨.quiet, printInt n⟩ n file clear mem rfl small
  have debug : (serverFound (fileText settings)).debug = none := by
    change found asShort _ ServerKey.debug.name = none
    rw [found_given file (clear.server .debug), given_absent absent, Option.bind_none]
  rw [serverObject_debug, quiet, debug]
  rfl

/-- So a file with `quiet` has `debug`. -/
theorem Independent.debug (file : ServerFile settings) (independent : Independent settings)
    (numbers : ∀ s ∈ settings, ¬ s.key.IsText) (quiet : .quiet ∈ settings.map ServerSetting.key) :
    .debug ∈ settings.map ServerSetting.key := by
  by_contra absent
  obtain ⟨⟨key, value⟩, mem, rfl⟩ := List.mem_map.mp quiet
  obtain ⟨before, after, rfl⟩ := List.append_of_mem mem
  have high : ∀ n : Nat, n < 65536 →
      (serverObject (filled 0 0 []) (fileText (before ++ ⟨.quiet, value⟩ :: after))).debug =
        highByte (short n) := by
    intro n small
    have form : ServerKey.quiet.WellFormed (printInt n) := ⟨n, rfl⟩
    have differ := (independent_iff.mp independent (filled 0 0 []) before _ after rfl).2 _ form
    have same := FieldValue.number.inj (differ.others .debug ServerKey.noConfusion)
    have absent' : .debug ∉ (before ++ ⟨.quiet, printInt n⟩ :: after).map ServerSetting.key := by
      simpa only [List.map_append, List.map_cons] using absent
    rw [BitVec.eq_of_toNat_eq same]
    have clear := (file.change form).noKeys (numbers_change numbers)
    exact debug_of_quiet (file.change form) clear (by simp) small absent'
  have same := (high 0 (by decide)).symm.trans (high 256 (by decide))
  revert same
  decide

/-- An independent file is untangled. -/
theorem Independent.untangled (file : ServerFile settings) (independent : Independent settings) :
    Untangled settings := by
  have numbers := independent.numbers file
  have sets : ∀ own ∈ settings, (own.key.field (serverObject (filled 0 0 []) (fileText settings))).IsValue
      own.value := by
    intro own mem
    obtain ⟨before, after, eq⟩ := List.append_of_mem mem
    exact (independent_iff.mp independent _ before own after eq).1
  constructor
  · exact numbers
  · intro s hs
    have number := numbers s hs
    have set := sets s hs
    cases key : s.key with
    | port => exact ⟨_, (serverObject _ _).port.isLt, by rw [key] at set; exact set⟩
    | ip => exact absurd (by simp [key, ServerKey.IsText]) number
    | timeout => exact ⟨_, (serverObject _ _).timeout.isLt, by rw [key] at set; exact set⟩
    | log => exact absurd (by simp [key, ServerKey.IsText]) number
    | dest => exact absurd (by simp [key, ServerKey.IsText]) number
    | max => exact ⟨_, (serverObject _ _).maxConcurrentDownloads.isLt, by rw [key] at set; exact set⟩
    | quiet => exact ⟨_, (serverObject _ _).quiet.isLt, by rw [key] at set; exact set⟩
    | debug => exact ⟨_, (serverObject _ _).debug.isLt, by rw [key] at set; exact set⟩
  · intro s hs key
    have set := sets s hs
    rw [key, serverObject_alone (clientFound_noKeys file (file.noKeys numbers))] at set
    exact set
  · exact fun quiet => independent.debug file numbers quiet

/-- Every key sets its own field and no other exactly when the file is untangled. -/
theorem options_new_independent_iff (file : ServerFile settings) :
    Independent settings ↔ Untangled settings := by
  constructor
  · exact fun independent => independent.untangled file
  · intro untangled
    rw [independent_iff]
    intro ret before own after eq
    subst eq
    exact ⟨untangled.sets file (by simp), fun value form => untangled.differAt file form⟩

/-- A port and both modes. -/
def portAndModes : List ServerSetting :=
  [⟨.port, printInt 80⟩, ⟨.quiet, printInt 0⟩, ⟨.debug, printInt 1⟩]

theorem options_new_independent_run : Independent portAndModes := by
  have file : ServerFile portAndModes := by
    refine ⟨by decide, ?_⟩
    simp only [portAndModes, List.forall_mem_cons, List.not_mem_nil, false_implies, implies_true, and_true]
    exact ⟨⟨80, rfl⟩, ⟨0, rfl⟩, ⟨1, rfl⟩⟩
  apply (options_new_independent_iff file).mpr
  constructor
  · decide
  · simp only [portAndModes, List.forall_mem_cons, List.not_mem_nil, false_implies, implies_true, and_true]
    exact ⟨⟨80, by decide, rfl⟩, ⟨0, by decide, rfl⟩, ⟨1, by decide, rfl⟩⟩
  · decide
  · decide

/-- The timeout of the file is not used. -/
theorem timeout_lost : ¬ ∀ settings, ServerFile settings → Independent settings := by
  intro all
  have file : ServerFile [⟨.timeout, printInt 30⟩] := by
    refine ⟨by decide, ?_⟩
    simp only [List.forall_mem_cons, List.not_mem_nil, false_implies, implies_true, and_true]
    exact ⟨30, rfl⟩
  have set := (independent_iff.mp (all _ file) (filled 0 0 []) [] _ [] rfl).1
  have numbers : ∀ s ∈ [(⟨.timeout, printInt 30⟩ : ServerSetting)], ¬ s.key.IsText := by decide
  rw [serverObject_alone (clientFound_noKeys file (file.noKeys numbers))] at set
  have ten : printInt 30 = printInt 10 := set
  revert ten
  decide

end

end Dserve
