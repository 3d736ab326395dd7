import Dserve.Lib.Words
import Dserve.Index

/-!
The loop of `queue_load` on any text.

A pass either reads a character or finds the end of the file, and so the loop ends, unless a
pass stores a URL that does not fit its field (`loading_ends_iff`). A record is a line of nine
words that the nine conversions read whole, with values an entry can have; the loader does not
know lines, and appends an entry in every pass, whatever was read. It appends the records and
nothing else exactly when there is a record and every line is blank or a record
(`loads_records_iff`).
-/

namespace Dserve

open Scan Scan.Input

/-! ### The passes of the loop -/

/-- What the conversions of a pass leave of the file. -/
def scanPass (s : Input) : Input := (scanf indexFormat s).2

/-- The file goes on with a name, a number and a URL that does not fit its field: the `"%s"` of
the URL has no width, and writes over the entry and what is behind it. -/
def LongUrl (s : Input) : Prop :=
  ∃ w, (scanf indexFormat s).1[2]? = some (.word w) ∧ MAX_URL_LEN ≤ w.length

/-- One pass of the loop, as far as the file is concerned: none when the URL is stored over what
is not the entry's. -/
def readPass (s : Input) : Option Input := (scanEntry s).map Prod.snd

/-- The file after a number of passes. -/
def passes : Nat → Input → Option Input
  | 0, s => some s
  | n + 1, s => (readPass s).bind (passes n)

/-- The pass can read a name. -/
def NameRead (s : Input) : Prop := ∃ w, (scanWord (some 255) s).1 = some w

/-- The loop makes `n` passes: `feof` is false before each, and true after the last. -/
def PassesEnd (s : Input) (n : Nat) : Prop :=
  (∀ k < n, ∃ t, passes k s = some t ∧ t.eof = false) ∧ ∃ t, passes n s = some t ∧ t.eof = true

/-- The same of the conversions alone. -/
def ScansEnd (s : Input) (n : Nat) : Prop :=
  (∀ k < n, (scanPass^[k] s).eof = false) ∧ (scanPass^[n] s).eof = true

variable {s s' : Input} {n fuel : Nat} {e : Entry}

theorem ScansEnd.next (ends : ScansEnd s (n + 1)) : ScansEnd (scanPass s) n := by
  constructor
  · exact fun k hk => ends.1 (k + 1) (Nat.succ_lt_succ hk)
  · exact ends.2

/-- A name that is read is at least one character, and no later conversion puts one back. -/
theorem scanPass_shorter (name : NameRead s) : (scanPass s).rest.length < s.rest.length := by
  obtain ⟨w, read⟩ := name
  have scanned : Directive.scan (.word (some 255)) s =
      (some (some (.word w)), (scanWord (some 255) s).2) := by simp [Directive.scan, read]
  have cons := @scanf_cons _ indexFormat.tail _ _ (some (.word w)) scanned
  have pass : scanPass s = (scanf indexFormat.tail (scanWord (some 255) s).2).2 := by
    show (scanf (.word (some 255) :: indexFormat.tail) s).2 = _
    rw [cons]
  have first : (scanWord (some 255) s).2.rest.length < s.rest.length :=
    scanWord_shorter (by decide) (by simp [read])
  rw [pass]
  exact Nat.lt_of_le_of_lt (scanf_consumes indexFormat.tail _).suffix.length_le first

/-- A name can only fail to be read at the end of the file. -/
theorem scanPass_ended (none : (scanWord (some 255) s).1 = none) : (scanPass s).eof = true := by
  have failed : Directive.scan (.word (some 255)) s = (Option.none, (scanWord (some 255) s).2) := by
    simp [Directive.scan, none]
  have pass : scanPass s = (scanWord (some 255) s).2 := congrArg Prod.snd (scanf_fail failed)
  rw [pass]
  exact (scanWord_none none).1

theorem exists_scansEnd (s : Input) : ∃ n ≤ s.rest.length + 1, ScansEnd s n := by
  induction length : s.rest.length using Nat.strongRecOn generalizing s with
  | ind m ih =>
      by_cases ended : s.eof = true
      · exact ⟨0, Nat.zero_le _, fun k hk => absurd hk (Nat.not_lt_zero k), ended⟩
      · have running : s.eof = false := by simpa using ended
        cases name : (scanWord (some 255) s).1 with
        | none =>
            refine ⟨1, Nat.le_add_left 1 m, fun k hk => ?_, scanPass_ended name⟩
            rw [Nat.lt_one_iff.mp hk]
            exact running
        | some w =>
            have shorter := scanPass_shorter ⟨w, name⟩
            obtain ⟨n, le, passes, last⟩ := ih _ (length ▸ shorter) (scanPass s) rfl
            refine ⟨n + 1, by omega, fun k hk => ?_, last⟩
            cases k with
            | zero => exact running
            | succ k => exact passes k (Nat.lt_of_succ_lt_succ hk)

/-- The entries of the passes, one for each, unless a URL does not fit. -/
def passEntries (s : Input) (n : Nat) : Option (List Entry) :=
  (List.range n).mapM fun k => (scanEntry (scanPass^[k] s)).map Prod.fst

theorem passEntries_succ (s : Input) (n : Nat) : passEntries s (n + 1) =
    (scanEntry s).bind fun r => (passEntries (scanPass s) n).map (r.1 :: ·) := by
  unfold passEntries
  rw [List.range_succ_eq_map, List.mapM_cons, List.mapM_map]
  have later : ((fun k => (scanEntry (scanPass^[k] s)).map Prod.fst) ∘ Nat.succ) =
      fun k => (scanEntry (scanPass^[k] (scanPass s))).map Prod.fst := rfl
  rw [later]
  cases read : scanEntry s with
  | none => simp [read]
  | some r => simp [read, Option.map_eq_bind]

theorem scanEntry_rest (read : scanEntry s = some (e, s')) : s' = scanPass s := by
  simp only [scanEntry] at read
  split at read
  · cases read
    rfl
  · cases read

/-- With fuel for all passes the loop appends what they read. -/
theorem loadLoop_passes (enough : n ≤ fuel) (ends : ScansEnd s n) :
    loadLoop fuel s = passEntries s n := by
  induction n generalizing s fuel with
  | zero =>
      have ended : s.eof = true := ends.2
      unfold loadLoop
      rw [if_pos ended]
      rfl
  | succ n ih =>
      obtain ⟨fuel, rfl⟩ : ∃ k, fuel = k + 1 := ⟨fuel - 1, by omega⟩
      have running : s.eof = false := ends.1 0 (Nat.succ_pos n)
      rw [loadLoop, running, passEntries_succ]
      cases read : scanEntry s with
      | none => rfl
      | some r =>
          have next := @scanEntry_rest s r.2 r.1 read
          simp only [Bool.false_eq_true, if_false, Option.bind_some, next]
          rw [ih (Nat.le_of_succ_le_succ enough) ends.next]

theorem queueLoad_passes (file : CString) : ∃ n ≤ file.length + 1, ScansEnd ⟨file, false⟩ n ∧
    queueLoad file = passEntries ⟨file, false⟩ n := by
  obtain ⟨n, le, ends⟩ := exists_scansEnd ⟨file, false⟩
  exact ⟨n, le, ends, loadLoop_passes le ends⟩

/-! ### The loop ends -/

/-- A pass overruns the entry exactly at a URL that does not fit. -/
theorem scanEntry_eq_none : scanEntry s = none ↔ LongUrl s := by
  simp only [scanEntry, ite_eq_right_iff, reduceCtorEq, imp_false, Nat.not_lt, assignFrom_url]
  constructor
  · intro long
    cases third : (scanf indexFormat s).1[2]? with
    | none => simp [third, entryNew, MAX_URL_LEN] at long
    | some v =>
        cases v with
        | word w => exact ⟨w, third, by simpa [third, Value.word?] using long⟩
        | _ => simp [third, Value.word?, entryNew, MAX_URL_LEN] at long
  · rintro ⟨w, third, long⟩
    simpa [third, Value.word?] using long

theorem readPass_long (long : LongUrl s) : readPass s = none := by
  rw [readPass, scanEntry_eq_none.mpr long]
  rfl

theorem readPass_fits (fits : ¬ LongUrl s) : readPass s = some (scanPass s) := by
  obtain ⟨⟨e, t⟩, read⟩ := Option.ne_none_iff_exists'.mp (mt scanEntry_eq_none.mp fits)
  rw [readPass, read, ← scanEntry_rest read]
  rfl

theorem passes_fit (fit : ∀ k < n, ¬ LongUrl (scanPass^[k] s)) : passes n s = some (scanPass^[n] s) := by
  induction n generalizing s with
  | zero => rfl
  | succ n ih =>
      have first : ¬ LongUrl s := fit 0 (Nat.succ_pos n)
      rw [passes, readPass_fits first, Option.bind_some]
      exact ih fun k hk => fit (k + 1) (Nat.succ_lt_succ hk)

/-- What was passed had URLs that fit. -/
theorem fit_of_passes (passed : passes n s = some s') : ∀ k < n, ¬ LongUrl (scanPass^[k] s) := by
  induction n generalizing s with
  | zero => exact fun k hk => absurd hk (Nat.not_lt_zero k)
  | succ n ih =>
      obtain ⟨t, read, rest⟩ := Option.bind_eq_some_iff.mp passed
      have first : ¬ LongUrl s := by
        intro long
        rw [readPass_long long] at read
        cases read
      obtain rfl : scanPass s = t := Option.some.inj ((readPass_fits first).symm.trans read)
      intro k hk
      cases k with
      | zero => exact first
      | succ k => exact ih rest k (Nat.lt_of_succ_lt_succ hk)

theorem passEntries_ne_none : passEntries s n ≠ none ↔ ∀ k < n, ¬ LongUrl (scanPass^[k] s) := by
  induction n generalizing s with
  | zero => simp [passEntries]
  | succ n ih =>
      rw [passEntries_succ]
      cases read : scanEntry s with
      | none =>
          refine iff_of_false (fun defined => defined rfl) fun fit => ?_
          exact fit 0 (Nat.succ_pos n) (scanEntry_eq_none.mp read)
      | some r =>
          rw [Option.bind_some, ne_eq, Option.map_eq_none_iff, ← ne_eq, ih, Nat.forall_lt_succ_left]
          have first : ¬ LongUrl s := by
            intro long
            rw [scanEntry_eq_none.mpr long] at read
            cases read
          exact (and_iff_right first).symm

/-- No pass of the loop meets a URL that does not fit. -/
def UrlsFit (file : CString) : Prop :=
  ∀ k, (∀ j ≤ k, (scanPass^[j] ⟨file, false⟩).eof = false) → ¬ LongUrl (scanPass^[k] ⟨file, false⟩)

theorem urlsFit_iff {file : CString} (ends : ScansEnd ⟨file, false⟩ n) :
    UrlsFit file ↔ ∀ k < n, ¬ LongUrl (scanPass^[k] ⟨file, false⟩) := by
  constructor
  · exact fun fit k hk => fit k fun j hj => ends.1 j (Nat.lt_of_le_of_lt hj hk)
  · intro fit k running
    refine fit k (Nat.lt_of_not_le fun passed => ?_)
    have last := running n passed
    rw [ends.2] at last
    cases last

/-- The reading loop ends: a pass that can read a name uses up a character, one that cannot has
found the end of the file, and there is at most one pass more than there are characters. -/
def LoadingEnds (file : CString) : Prop :=
  (∀ s s', readPass s = some s' →
    (NameRead s → s'.rest.length < s.rest.length) ∧ (¬ NameRead s → s'.eof = true)) ∧
  ∃ n ≤ file.length + 1, PassesEnd ⟨file, false⟩ n

theorem readPass_progress (read : readPass s = some s') :
    (NameRead s → s'.rest.length < s.rest.length) ∧ (¬ NameRead s → s'.eof = true) := by
  obtain ⟨⟨e, t⟩, scanned, rfl⟩ := Option.map_eq_some_iff.mp read
  have pass : t = scanPass s := scanEntry_rest scanned
  rw [show (e, t).2 = scanPass s from pass]
  constructor
  · exact scanPass_shorter
  · intro none
    apply scanPass_ended
    cases name : (scanWord (some 255) s).1 with
    | none => rfl
    | some w => exact absurd ⟨w, name⟩ none

theorem ScansEnd.passesEnd (ends : ScansEnd s n) (fit : ∀ k < n, ¬ LongUrl (scanPass^[k] s)) :
    PassesEnd s n := by
  constructor
  · exact fun k hk => ⟨_, passes_fit fun j hj => fit j (Nat.lt_trans hj hk), ends.1 k hk⟩
  · exact ⟨_, passes_fit fit, ends.2⟩

theorem PassesEnd.scansEnd (ends : PassesEnd s n) :
    ScansEnd s n ∧ ∀ k < n, ¬ LongUrl (scanPass^[k] s) := by
  obtain ⟨t, passed, last⟩ := ends.2
  have fit := fit_of_passes passed
  have at_pass : ∀ k ≤ n, passes k s = some (scanPass^[k] s) := fun k hk =>
    passes_fit fun j hj => fit j (Nat.lt_of_lt_of_le hj hk)
  refine ⟨⟨fun k hk => ?_, ?_⟩, fit⟩
  · obtain ⟨u, passed, running⟩ := ends.1 k hk
    rw [at_pass k (Nat.le_of_lt hk)] at passed
    cases passed
    exact running
  · rw [at_pass n (Nat.le_refl n)] at passed
    cases passed
    exact last

/-- The reading loop ends exactly when it meets no URL that does not fit, and then there are
entries that it appends. -/
theorem loading_ends_iff (file : CString) :
    (LoadingEnds file ↔ UrlsFit file) ∧ (queueLoad file ≠ none ↔ UrlsFit file) := by
  obtain ⟨n, le, ends, loaded⟩ := queueLoad_passes file
  constructor
  · constructor
    · rintro ⟨-, k, -, passesEnd⟩
      exact (urlsFit_iff passesEnd.scansEnd.1).mpr passesEnd.scansEnd.2
    · intro fit
      exact ⟨fun _ _ => readPass_progress, n, le, ends.passesEnd ((urlsFit_iff ends).mp fit)⟩
  · rw [loaded, passEntries_ne_none, urlsFit_iff ends]

/-- The line that is written for an entry whose URL does not fit. -/
theorem longUrl_indexLine {line rest : CString} {eof : Bool} (written : indexLine e = some line)
    (name : getNameFromUrl e.url = some e.id.name) (nonempty : e.id.name ≠ [])
    (short : e.id.name.length ≤ 255) (noSpace : ∀ c ∈ e.url, isSpace c = false)
    (long : MAX_URL_LEN ≤ e.url.length) : LongUrl ⟨line ++ rest, eof⟩ := by
  obtain ⟨before, -, url⟩ := getNameFromUrl_eq_some name
  have urlNonempty : e.url ≠ [] := by simp [url]
  have nameNoSpace : ∀ c ∈ e.id.name, isSpace c = false := fun c hc => noSpace c (by simp [url, hc])
  have blank : isSpace ' ' = true := by decide
  simp only [indexLine, name, Option.map_some, Option.some.injEq] at written
  subst written
  simp only [List.append_assoc, List.cons_append, List.nil_append]
  have start := @skipSpace_visible _ eof ((visible_word nonempty nameNoSpace).append
    (' ' :: (printInt e.status.toCode ++ ' ' :: (e.url ++ ' ' :: (e.counters.size.print ++ ' ' ::
      (e.counters.remaining.print ++ ' ' :: (e.counters.complete.print ++ ' ' ::
      (e.counters.speed.print ++ ' ' :: (printInt e.counters.time.start ++ ' ' ::
      (printInt e.counters.time.measured ++ '\n' :: rest))))))))))
  -- the name and the number, then the URL, however long it is
  obtain ⟨s₁, h₁, e₁⟩ := scanf_field (indexFormat.drop 2)
    (Directive.scan_word (scanWord_append_width start nonempty nameNoSpace blank short)) blank
    ((visible_printInt _).append _)
  obtain ⟨s₂, h₂, e₂⟩ := scanf_field (indexFormat.drop 4) (Directive.scan_int (scanInt_print h₁ blank))
    blank ((visible_word urlNonempty noSpace).append _)
  have e₃ := scanf_cons (indexFormat.drop 5)
    (Directive.scan_word (scanWord_append h₂ urlNonempty noSpace blank))
  refine ⟨e.url, ?_, long⟩
  have values := (congrArg Prod.fst e₁).trans (congrArg (_ :: ·) ((congrArg Prod.fst e₂).trans
    (congrArg (_ :: ·) (congrArg Prod.fst e₃))))
  rw [show indexFormat = .word (some 255) :: .space :: indexFormat.drop 2 from rfl, values]
  rfl

/-- A URL of any length, with the name `a`. -/
def urlOfLength (n : Nat) : CString := List.replicate n 'x' ++ ['/', 'a']

theorem urlOfLength_name (n : Nat) : getNameFromUrl (urlOfLength (n + 1)) = some ['a'] := by
  have length : (List.replicate (n + 1) 'x' ++ ['/', 'a']).length = n + 1 + 1 + 1 := by simp
  have after : (List.replicate (n + 1) 'x' ++ ['/', 'a'])[n + 1 + 1 + 1]? = none :=
    List.getElem?_eq_none (Nat.le_of_eq length)
  have letter : (List.replicate (n + 1) 'x' ++ ['/', 'a'])[n + 1 + 1]? = some 'a' := by simp
  have separator : (List.replicate (n + 1) 'x' ++ ['/', 'a'])[n + 1]? = some '/' := by simp
  rw [urlOfLength, getNameFromUrl, length, nameLoop, nameLoop, nameLoop, after, letter, separator]
  simp [List.drop_append]

/-- A file with one line, for an entry with a URL of a million characters: the loop does not end. -/
theorem long_url_overruns : ¬ ∀ file, LoadingEnds file := by
  intro ends
  have name := urlOfLength_name 999999
  have noSpace : ∀ c ∈ urlOfLength 1000000, isSpace c = false := by
    intro c hc
    rcases List.mem_append.mp hc with hc | hc
    · rw [List.eq_of_mem_replicate hc]
      rfl
    · rcases List.mem_pair.mp hc with rfl | rfl <;> rfl
  have long : 512 ≤ (urlOfLength 1000000).length := by
    rw [urlOfLength, List.length_append, List.length_replicate]
    exact Nat.le_add_right_of_le (by decide)
  generalize urlOfLength 1000000 = url at name noSpace long
  obtain ⟨line, written⟩ : ∃ line, indexLine { entryNew with id := ⟨['a']⟩, url := url } = some line :=
    ⟨_, by rw [indexLine, name]; rfl⟩
  have overlong := @longUrl_indexLine _ line [] false written name (List.cons_ne_nil _ _)
    (by decide : 1 ≤ 255) noSpace long
  rw [List.append_nil] at overlong
  have fits := (loading_ends_iff line).1.mp (ends line)
  exact fits 0 (fun j hj => by rw [Nat.le_zero.mp hj]; rfl) overlong

/-! ### Records -/

/-- The conversions of the fields, in order. -/
def indexFields : List Directive :=
  [.word (some 255), .int, .word none, .real, .real, .real, .real, .long, .long]

/-- The entry with the given values in its fields. -/
def entryOf : List Value → Option Entry
  | [.word name, .int status, .word url, .real size, .real remaining, .real complete, .real speed,
      .int start, .int measured] =>
      some
        { id := ⟨name⟩
          status := .ofCode status
          url := url
          counters :=
            { size := Number.toDecimal size
              remaining := Number.toDecimal remaining
              complete := Number.toDecimal complete
              speed := Number.toDecimal speed
              time := ⟨start, measured⟩ } }
  | _ => none

/-- The values an entry that was read can have. -/
structure RecordFits (e : Entry) : Prop extends Fits e where
  url : e.url.length < MAX_URL_LEN
  name_text : '\x00' ∉ e.id.name
  url_text : '\x00' ∉ e.url

instance (e : Entry) : Decidable (RecordFits e) :=
  decidable_of_iff
    ((e.id.name.length < MAX_NAME_LEN ∧ e.status.Named ∧ LongRange e.counters.time.start ∧
        LongRange e.counters.time.measured) ∧
      e.url.length < MAX_URL_LEN ∧ '\x00' ∉ e.id.name ∧ '\x00' ∉ e.url)
    ⟨fun ⟨⟨name, status, start, measured⟩, url, name', url'⟩ =>
        ⟨⟨name, status, start, measured⟩, url, name', url'⟩,
      fun fits => ⟨⟨fits.name, fits.status, fits.start, fits.measured⟩, fits.url, fits.name_text,
        fits.url_text⟩⟩

/-- The entry of a line that is a well-formed record: nine words that are read whole, with values
that fit. -/
def record? (line : CString) : Option Entry :=
  ((readFields indexFields (words line)).bind entryOf).filter fun e => decide (RecordFits e)

/-- What the file says, line by line. -/
def records (file : CString) : List Entry := (file.splitOn '\n').filterMap record?

section Records

variable {line : CString} {vs : List Value} {more : List CString}

theorem record?_eq_some (record : record? line = some e) :
    ∃ vs, readFields indexFields (words line) = some vs ∧ entryOf vs = some e ∧ RecordFits e := by
  obtain ⟨read, fits⟩ := Option.filter_eq_some_iff.mp record
  obtain ⟨vs, values, fields⟩ := Option.bind_eq_some_iff.mp read
  exact ⟨vs, values, fields, of_decide_eq_true fits⟩

/-- A record has one word for each field. -/
theorem length_record (record : record? line = some e) : (words line).length = 9 := by
  obtain ⟨vs, read, -⟩ := record?_eq_some record
  exact length_readFields read

theorem record?_blank (blank : words line = []) : record? line = none := by
  cases record : record? line with
  | none => rfl
  | some e =>
      have nine := length_record record
      rw [blank] at nine
      cases nine

theorem whole_decimal (d : Decimal) :
    ∃ x, Directive.real.whole d.print = some (.real x) ∧ Number.toDecimal x = d := by
  have start := @skipSpace_visible _ false ((visible_decimal d).append [' '])
  obtain ⟨x, scanned, same⟩ := scanReal_decimal start rfl
  exact ⟨x, Directive.whole_of_scan (by simp) (visible_decimal d).ne_nil (fun c h => (mem_decimal h).1)
    rfl (Directive.scan_real scanned), same⟩

/-- The line that is written for an entry is a record of it. -/
theorem record_indexLine (storable : Storable e) (fits : RecordFits e) (written : indexLine e = some line) :
    record? line = some e := by
  obtain ⟨named, nonempty, noSpace, -⟩ := storable
  obtain ⟨before, -, url⟩ := getNameFromUrl_eq_some named
  have urlNonempty : e.url ≠ [] := by simp [url]
  have nameNoSpace : ∀ c ∈ e.id.name, isSpace c = false := fun c hc =>
    noSpace c (by simp [url, hc])
  have nameFits : ∀ n ∈ some 255, e.id.name.length ≤ n := by
    rintro _ ⟨⟩
    exact Nat.le_of_lt fits.name
  have blank : isSpace ' ' = true := rfl
  have number : ∀ (n : Int) (text : CString),
      words (printInt n ++ ' ' :: text) = printInt n :: words text := fun n text =>
    words_field (visible_printInt n).ne_nil printInt_no_space blank
  have real : ∀ (d : Decimal) (text : CString),
      words (d.print ++ ' ' :: text) = d.print :: words text := fun d text =>
    words_field (visible_decimal d).ne_nil (fun c h => (mem_decimal h).1) blank
  have last : words (printInt e.counters.time.measured ++ ['\n']) = [printInt e.counters.time.measured] :=
    words_field (visible_printInt _).ne_nil printInt_no_space rfl
  simp only [indexLine, named, Option.map_some, Option.some.injEq] at written
  obtain ⟨size, size_whole, size_eq⟩ := whole_decimal e.counters.size
  obtain ⟨remaining, remaining_whole, remaining_eq⟩ := whole_decimal e.counters.remaining
  obtain ⟨complete, complete_whole, complete_eq⟩ := whole_decimal e.counters.complete
  obtain ⟨speed, speed_whole, speed_eq⟩ := whole_decimal e.counters.speed
  have fields : words line = [e.id.name, printInt e.status.toCode, e.url, e.counters.size.print,
      e.counters.remaining.print, e.counters.complete.print, e.counters.speed.print,
      printInt e.counters.time.start, printInt e.counters.time.measured] := by
    rw [← written, words_field nonempty nameNoSpace blank, number, words_field urlNonempty noSpace blank,
      real, real, real, real, number, last]
  have values : readFields indexFields (words line) = some [.word e.id.name, .int e.status.toCode,
      .word e.url, .real size, .real remaining, .real complete, .real speed,
      .int e.counters.time.start, .int e.counters.time.measured] := by
    simp [fields, indexFields, readFields, Directive.whole_word nameFits nonempty nameNoSpace,
      @Directive.whole_word e.url none (by simp) urlNonempty noSpace, Directive.whole_int,
      Directive.whole_long, size_whole, remaining_whole, complete_whole, speed_whole]
  simp [record?, values, entryOf, size_eq, remaining_eq, complete_eq, speed_eq, fits]

/-- What is assigned from the values of a record is the entry they make. -/
theorem assignFrom_entryOf (fields : entryOf vs = some e) (fits : Fits e) :
    assignFrom entryNew 0 vs = e := by
  unfold entryOf at fields
  split at fields
  · next name status url size remaining complete speed start measured =>
    cases fields
    have code : toInt status = status := by
      have toCode := EntryStatus.toCode_ofCode status
      rw [← toCode]
      exact toInt_toCode fits.status
    simp [assignFrom, assignField, entryNew, code, toLong_of_range fits.start,
      toLong_of_range fits.measured]
  · cases fields

/-- At a record, a pass reads the record and the white space behind it. -/
theorem scanEntry_record (record : record? line = some e) (text : words s.rest = words line ++ more) :
    scanEntry s = some (e, scanPass s) ∧ words (scanPass s).rest = more ∧
      (more = [] → (scanPass s).eof = true) := by
  obtain ⟨vs, read, fields, fits⟩ := record?_eq_some record
  obtain ⟨s', scanned, left, ended⟩ := scanf_fields read text
  have scanned : scanf indexFormat s = (vs, s') := scanned
  have pass : scanPass s = s' := congrArg Prod.snd scanned
  rw [pass]
  have read : scanEntry s = some (e, s') := by
    simp only [scanEntry, scanned, assignFrom_entryOf fields fits.toFits]
    exact if_pos fits.url
  exact ⟨read, left, ended (List.cons_ne_nil _ _)⟩

/-- Passes over lines that are blank or records. -/
theorem passEntries_records {lines : List CString} (text : words s.rest = lines.flatMap words)
    (wellFormed : ∀ line ∈ lines, words line ≠ [] → (record? line).isSome)
    (flag : s.eof = true ↔ words s.rest = []) (ends : ScansEnd s n) :
    passEntries s n = some (lines.filterMap record?) := by
  induction lines generalizing s n with
  | nil =>
      have ended : s.eof = true := flag.mpr text
      cases n with
      | zero => rfl
      | succ n =>
          have running : s.eof = false := ends.1 0 (Nat.succ_pos n)
          rw [running] at ended
          cases ended
  | cons line lines ih =>
      have others := fun l hl => wellFormed l (List.mem_cons_of_mem line hl)
      by_cases blank : words line = []
      · rw [List.filterMap_cons_none (record?_blank blank)]
        rw [List.flatMap_cons, blank, List.nil_append] at text
        exact ih text others flag ends
      · obtain ⟨e, record⟩ := Option.isSome_iff_exists.mp (wellFormed line List.mem_cons_self blank)
        have running : s.eof ≠ true := by
          intro ended
          have none := text.symm.trans (flag.mp ended)
          exact blank (List.append_eq_nil_iff.mp none).1
        obtain ⟨read, left, last⟩ := scanEntry_record record text
        have consumes : Consumes _ s (scanPass s) := scanf_consumes indexFormat s
        have flag' : (scanPass s).eof = true ↔ words (scanPass s).rest = [] := by
          constructor
          · intro ended
            rw [consumes.ended (fun h => absurd h running) ended, words_nil]
          · intro none
            exact last (left.symm.trans none)
        cases n with
        | zero => exact absurd ends.2 running
        | succ n =>
            rw [passEntries_succ, read, Option.bind_some, ih left others flag' ends.next,
              List.filterMap_cons_some record]
            rfl

/-- A pass uses up nine words at most. -/
theorem scanPass_consumes (s : Input) (n : Nat) : Consumes (n * 9) s (scanPass^[n] s) := by
  induction n with
  | zero => exact Consumes.refl 0 s
  | succ n ih =>
      have pass : Consumes 9 (scanPass^[n] s) (scanPass (scanPass^[n] s)) := scanf_consumes indexFormat _
      rw [Function.iterate_succ_apply', Nat.succ_mul]
      exact ih.trans pass

theorem length_passEntries {es : List Entry} (read : passEntries s n = some es) : es.length = n := by
  induction n generalizing s es with
  | zero =>
      cases read
      rfl
  | succ n ih =>
      rw [passEntries_succ] at read
      obtain ⟨r, -, read⟩ := Option.bind_eq_some_iff.mp read
      obtain ⟨es, rest, rfl⟩ := Option.map_eq_some_iff.mp read
      exact congrArg Nat.succ (ih rest)

/-- When there are not more words than the records have, every other line is blank. -/
theorem blank_of_length {lines : List CString}
    (length : (lines.flatMap words).length ≤ (lines.filterMap record?).length * 9) :
    ∀ line ∈ lines, words line ≠ [] → (record? line).isSome := by
  have least : ∀ ls : List CString, (ls.filterMap record?).length * 9 ≤ (ls.flatMap words).length := by
    intro ls
    induction ls with
    | nil => exact Nat.zero_le _
    | cons l ls ih =>
        rw [List.flatMap_cons, List.length_append]
        cases record : record? l with
        | none =>
            rw [List.filterMap_cons_none record]
            omega
        | some e =>
            have nine := length_record record
            rw [List.filterMap_cons_some record, List.length_cons]
            omega
  induction lines with
  | nil => simp
  | cons l ls ih =>
      rw [List.flatMap_cons, List.length_append] at length
      have rest := least ls
      cases record : record? l with
      | none =>
          rw [List.filterMap_cons_none record] at length
          have empty : words l = [] := List.length_eq_zero_iff.mp (by omega)
          rintro line (_ | ⟨_, member⟩) nonempty
          · exact absurd empty nonempty
          · exact ih (by omega) line member nonempty
      | some e =>
          have nine := length_record record
          rw [List.filterMap_cons_some record, List.length_cons] at length
          rintro line (_ | ⟨_, member⟩) nonempty
          · rw [record]
            rfl
          · exact ih (by omega) line member nonempty

/-- The loader appends the records of the file, in order and with their values, and nothing else,
exactly when the file has a record and every line that is not blank is one. Every pass appends an
entry and uses up nine words at most; with as many passes as records no word is left for another
line. A pass is made even when there are no words. -/
theorem loads_records_iff (file : CString) :
    queueLoad file = some (records file) ↔
      records file ≠ [] ∧ ∀ line ∈ file.splitOn '\n', words line ≠ [] → (record? line).isSome := by
  obtain ⟨n, -, ends, loaded⟩ := queueLoad_passes file
  rw [loaded]
  constructor
  · intro read
    have length : (records file).length = n := length_passEntries read
    constructor
    · intro none
      rw [none] at length
      cases length
      cases ends.2
    · apply blank_of_length
      have consumes := scanPass_consumes ⟨file, false⟩ n
      have ended : (scanPass^[n] ⟨file, false⟩).rest = [] := consumes.ended (fun h => by cases h) ends.2
      have words := consumes.words
      rw [ended, words_nil, words_lines, ← length] at words
      simpa [records] using words
  · rintro ⟨some, wellFormed⟩
    have nonempty : words file ≠ [] := by
      intro none
      apply some
      rw [words_lines] at none
      exact List.filterMap_eq_nil_iff.mpr fun line member =>
        record?_blank (List.flatMap_eq_nil_iff.mp none line member)
    exact passEntries_records (words_lines file) wellFormed
      (iff_of_false Bool.false_ne_true nonempty) ends

/-- The loader appends an entry for an empty file. -/
theorem empty_file_loaded : ¬ ∀ file, queueLoad file = some (records file) := by
  intro loads
  have empty : queueLoad [] = some [] := loads []
  cases empty

end Records

end Dserve
