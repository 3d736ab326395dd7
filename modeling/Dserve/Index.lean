import Dserve.Lib.Scan
import Dserve.Util

/-!
The index file of the download queue: the line `queue_data_save` writes for an
entry and the loop with which `queue_load` reads the file back.

The loader appends one entry for each pass of its loop, whatever its `fscanf`
assigned; a field that was not reached keeps the zero of `entry_new`. The loop is
controlled by `feof`, and a pass either reads a character or finds the end of the
file, so that the length of the file is fuel enough.

`scanEntry_line` is the round trip of one line. It holds for the entries whose
id is the name the writer takes from the URL (`Storable`); for the others the
entry that is read differs from the one that was written, whatever follows in the
file (`scanEntry_differs`).
-/

namespace Dserve

open Scan Scan.Input

/-! ### Writing -/

/-- `%lf` of a number. -/
def Decimal.print : Decimal → CString
  | .finite micros => printReal 6 micros
  | .infinity negative => printInfinity negative
  | .nan => printNan

/-- The line of `queue_data_save`. The first field is taken from the URL, not from
the id. -/
def indexLine (entry : Entry) : Option CString :=
  (getNameFromUrl entry.url).map fun name =>
    name ++ ' ' :: (printInt entry.status.toCode ++ ' ' :: (entry.url ++ ' ' ::
      (entry.counters.size.print ++ ' ' ::
      (entry.counters.remaining.print ++ ' ' ::
      (entry.counters.complete.print ++ ' ' ::
      (entry.counters.speed.print ++ ' ' ::
      (printInt entry.counters.time.start ++ ' ' ::
      (printInt entry.counters.time.measured ++ ['\n']))))))))

/-! ### Reading -/

/-- The format of `queue_load`. -/
def indexFormat : List Directive :=
  [.word (some 255), .space, .int, .space, .word none, .space, .real, .space, .real, .space,
    .real, .space, .real, .space, .long, .space, .long, .space]

/-- A scanned real as a number with six places. -/
def Number.toDecimal : Number → Decimal
  | .finite r =>
      if 0 ≤ r.exponent + 6 then .finite (r.mantissa * 10 ^ (r.exponent + 6).toNat)
      else .finite (r.mantissa.tdiv (10 ^ (-(r.exponent + 6)).toNat))
  | .infinity negative => .infinity negative
  | .nan => .nan

/-- What `%li` stores: for a number that no `long` holds, the nearest one. -/
def toLong (n : Int) : Int := max (-9223372036854775808) (min n 9223372036854775807)

/-- What `%i` stores: the low 32 bits of that. -/
def toInt (n : Int) : Int := (toLong n).bmod 4294967296

theorem toLong_of_range {n : Int} (range : LongRange n) : toLong n = n := by
  obtain ⟨low, high⟩ := range
  unfold toLong
  omega

/-- The codes of `entry_status_t` are read as they are. -/
theorem toInt_toCode {s : EntryStatus} (named : s.Named) : toInt s.toCode = s.toCode := by
  cases s with
  | other code unnamed => cases named
  | _ => rfl

/-- The pointer arguments of the `fscanf`, in order. -/
def assignField (e : Entry) : Nat → Value → Entry
  | 0, .word w => { e with id := ⟨w⟩ }
  | 1, .int n => { e with status := .ofCode (toInt n) }
  | 2, .word w => { e with url := w }
  | 3, .real x => { e with counters := { e.counters with size := Number.toDecimal x } }
  | 4, .real x => { e with counters := { e.counters with remaining := Number.toDecimal x } }
  | 5, .real x => { e with counters := { e.counters with complete := Number.toDecimal x } }
  | 6, .real x => { e with counters := { e.counters with speed := Number.toDecimal x } }
  | 7, .int n =>
      { e with counters := { e.counters with time := { e.counters.time with start := toLong n } } }
  | 8, .int n =>
      { e with counters := { e.counters with time := { e.counters.time with measured := toLong n } } }
  | _, _ => e

def assignFrom (e : Entry) : Nat → List Value → Entry
  | _, [] => e
  | i, v :: vs => assignFrom (assignField e i v) (i + 1) vs

/-- One pass of the loop of `queue_load`: a new entry, filled by `fscanf`. -/
def scanEntry (s : Input) : Option (Entry × Input) :=
  let (vs, s) := scanf indexFormat s
  let entry := assignFrom entryNew 0 vs
  -- the conversion of the URL has no width
  if entry.url.length < MAX_URL_LEN then some (entry, s) else none

/-- `while (!feof(idx_file))`: the entries that are appended to the queue. -/
def loadLoop : Nat → Input → Option (List Entry)
  | fuel, s =>
      if s.eof then some []
      else match fuel with
        | 0 => none
        | fuel + 1 => (scanEntry s).bind fun r => (loadLoop fuel r.2).map (r.1 :: ·)

/-- What `queue_load` appends for an index file with the given text. -/
def queueLoad (file : CString) : Option (List Entry) := loadLoop (file.length + 1) ⟨file, false⟩

/-! ### One line, there and back -/

/-- The entries whose line can be read back: the id is the name the writer takes
from the URL, it is not empty, and the URL has no white space and fits its field. -/
def Storable (e : Entry) : Prop :=
  getNameFromUrl e.url = some e.id.name ∧ e.id.name ≠ [] ∧ (∀ c ∈ e.url, isSpace c = false) ∧
    e.url.length < MAX_URL_LEN

instance (e : Entry) : Decidable (Storable e) :=
  @instDecidableAnd _ _ inferInstance (@instDecidableAnd _ _ inferInstance
    (@instDecidableAnd _ _ (List.decidableBAll (fun c => isSpace c = false) e.url) inferInstance))

/-- What `entry_set_target`, the enumeration and `time_t` bound. -/
structure Fits (e : Entry) : Prop where
  name : e.id.name.length < MAX_NAME_LEN
  status : e.status.Named
  start : LongRange e.counters.time.start
  measured : LongRange e.counters.time.measured

/-- The numbers of an entry are its own as long as the URL does not reach them. -/
def Entry.Fitting (e : Entry) : Prop := e.url.length < MAX_URL_LEN → Fits e

/-- A number that was printed is read back. -/
theorem scanReal_decimal {d : Decimal} {rest : CString} {s : Input} {c : Char} {eof : Bool}
    (start : s.skipSpace = ⟨d.print ++ c :: rest, eof⟩) (stop : isSpace c = true) :
    ∃ x, scanReal s = (some x, ⟨c :: rest, eof⟩) ∧ Number.toDecimal x = d := by
  cases d with
  | finite micros =>
      exact ⟨_, scanReal_print (by decide) start stop, by simp [Number.toDecimal]⟩
  | infinity negative => exact ⟨_, scanReal_printInfinity start stop, rfl⟩
  | nan => exact ⟨_, scanReal_printNan start stop, rfl⟩

theorem visible_decimal (d : Decimal) : Visible d.print := by
  cases d with
  | finite micros => exact visible_printReal 6 micros
  | infinity negative => cases negative <;> exact ⟨_, _, rfl, rfl⟩
  | nan => exact ⟨_, _, rfl, rfl⟩

/-- A printed number is a word without a separator. -/
theorem mem_decimal {d : Decimal} {c : Char} (h : c ∈ d.print) : isSpace c = false ∧ c ≠ '/' := by
  cases d with
  | finite micros =>
      refine ⟨printReal_no_space c h, ?_⟩
      rintro rfl
      rcases mem_printReal h with h | h | h <;> exact absurd h (by decide)
  | infinity negative =>
      cases negative <;> simp [Decimal.print, printInfinity] at h <;>
        rcases h with rfl | rfl | rfl | rfl <;> decide
  | nan =>
      simp [Decimal.print, printNan] at h
      rcases h with rfl | rfl | rfl <;> decide

/-- Reading the line of an entry that is storable gives the entry back, and leaves
the input behind the line and the white space after it. -/
theorem scanEntry_line {e : Entry} {line rest : CString} {s : Input} {eof : Bool}
    (storable : Storable e) (fits : Fits e) (written : indexLine e = some line)
    (start : s.skipSpace = ⟨line ++ rest, eof⟩) :
    scanEntry s = some (e, skipSpace ⟨rest, eof⟩) := by
  obtain ⟨named, nonempty, noSpace, urlFits⟩ := storable
  obtain ⟨before, -, url⟩ := getNameFromUrl_eq_some named
  have urlNonempty : e.url ≠ [] := by simp [url]
  have nameNoSpace : ∀ c ∈ e.id.name, isSpace c = false := fun c hc =>
    noSpace c (by simp [url, hc])
  simp only [indexLine, named, Option.map_some, Option.some.injEq] at written
  subst written
  simp only [List.append_assoc, List.cons_append, List.nil_append] at start
  have nameFits : e.id.name.length ≤ 255 := Nat.le_of_lt fits.name
  have blank : isSpace ' ' = true := by decide
  have newline : isSpace '\n' = true := by decide
  -- The nine fields, from left to right.
  obtain ⟨s₁, h₁, e₁⟩ := scanf_field (indexFormat.drop 2)
    (Directive.scan_word (scanWord_append_width start nonempty nameNoSpace blank nameFits)) blank
    ((visible_printInt _).append _)
  obtain ⟨s₂, h₂, e₂⟩ := scanf_field (indexFormat.drop 4) (Directive.scan_int (scanInt_print h₁ blank))
    blank ((visible_word urlNonempty noSpace).append _)
  obtain ⟨s₃, h₃, e₃⟩ := scanf_field (indexFormat.drop 6)
    (Directive.scan_word (scanWord_append h₂ urlNonempty noSpace blank)) blank
    ((visible_decimal _).append _)
  obtain ⟨size, scanned₄, size_eq⟩ := scanReal_decimal h₃ blank
  obtain ⟨s₄, h₄, e₄⟩ := scanf_field (indexFormat.drop 8) (Directive.scan_real scanned₄) blank
    ((visible_decimal _).append _)
  obtain ⟨remaining, scanned₅, remaining_eq⟩ := scanReal_decimal h₄ blank
  obtain ⟨s₅, h₅, e₅⟩ := scanf_field (indexFormat.drop 10) (Directive.scan_real scanned₅) blank
    ((visible_decimal _).append _)
  obtain ⟨complete, scanned₆, complete_eq⟩ := scanReal_decimal h₅ blank
  obtain ⟨s₆, h₆, e₆⟩ := scanf_field (indexFormat.drop 12) (Directive.scan_real scanned₆) blank
    ((visible_decimal _).append _)
  obtain ⟨speed, scanned₇, speed_eq⟩ := scanReal_decimal h₆ blank
  obtain ⟨s₇, h₇, e₇⟩ := scanf_field (indexFormat.drop 14) (Directive.scan_real scanned₇) blank
    ((visible_printInt _).append _)
  obtain ⟨s₈, h₈, e₈⟩ := scanf_field (indexFormat.drop 16) (Directive.scan_long (scanLong_print h₇ blank))
    blank ((visible_printInt _).append _)
  have e₉ := scanf_cons [Directive.space] (Directive.scan_long (scanLong_print h₈ newline))
  have last : scanf [Directive.space] ⟨'\n' :: rest, eof⟩ = ([], skipSpace ⟨rest, eof⟩) := by
    simp [scanf, Directive.scan, skipSpace_space newline]
  rw [last] at e₉
  simp only [indexFormat, List.drop] at e₁ e₂ e₃ e₄ e₅ e₆ e₇ e₈
  rw [e₉] at e₈
  rw [e₈] at e₇
  rw [e₇] at e₆
  rw [e₆] at e₅
  rw [e₅] at e₄
  rw [e₄] at e₃
  rw [e₃] at e₂
  rw [e₂] at e₁
  simp only [scanEntry, indexFormat, e₁]
  simp [assignFrom, assignField, entryNew, size_eq, remaining_eq, complete_eq, speed_eq, urlFits,
    toInt_toCode fits.status, toLong_of_range fits.start, toLong_of_range fits.measured]

/-! ### Lines that cannot be read back -/

theorem assignFrom_id_succ (e : Entry) (i : Nat) (vs : List Value) :
    (assignFrom e (i + 1) vs).id = e.id := by
  induction vs generalizing e i with
  | nil => rfl
  | cons v vs ih =>
      rw [assignFrom, ih]
      unfold assignField
      split <;> first | rfl | contradiction

/-- The id is the first field. -/
theorem assignFrom_id (e : Entry) (vs : List Value) :
    (assignFrom e 0 vs).id.name = (vs[0]?.bind Value.word?).getD e.id.name := by
  cases vs with
  | nil => rfl
  | cons v vs =>
      rw [assignFrom, assignFrom_id_succ]
      cases v <;> rfl

theorem assignFrom_url_after (e : Entry) (i : Nat) (vs : List Value) :
    (assignFrom e (i + 3) vs).url = e.url := by
  induction vs generalizing e i with
  | nil => rfl
  | cons v vs ih =>
      rw [assignFrom, ih]
      unfold assignField
      split <;> first | rfl | omega

/-- The URL is the third one. -/
theorem assignFrom_url (e : Entry) (vs : List Value) :
    (assignFrom e 0 vs).url = (vs[2]?.bind Value.word?).getD e.url := by
  match vs with
  | [] => rfl
  | [v] => cases v <;> rfl
  | [v, w] => cases v <;> cases w <;> rfl
  | v :: w :: x :: vs =>
      show (assignFrom (assignField (assignField (assignField e 0 v) 1 w) 2 x) 3 vs).url = _
      rw [assignFrom_url_after _ 0]
      cases v <;> cases w <;> cases x <;> rfl

section Read

variable {e : Entry} {s s' : Input}

/-- What a pass of the loop reads. -/
theorem scanEntry_fields (read : scanEntry s = some (e, s')) :
    e.id.name = ((scanf indexFormat s).1[0]?.bind Value.word?).getD [] ∧
      e.url = ((scanf indexFormat s).1[2]?.bind Value.word?).getD [] := by
  simp only [scanEntry] at read
  split at read
  · simp only [Option.some.injEq, Prod.mk.injEq] at read
    obtain ⟨rfl, -⟩ := read
    exact ⟨assignFrom_id _ _, assignFrom_url _ _⟩
  · cases read

theorem scanEntry_url_no_space (read : scanEntry s = some (e, s')) :
    ∀ c ∈ e.url, isSpace c = false := by
  intro c hc
  rw [(scanEntry_fields read).2] at hc
  cases third : (scanf indexFormat s).1[2]? with
  | none => simp [third] at hc
  | some v =>
      cases v with
      | word w =>
          simp only [third, Option.bind_some, Value.word?, Option.getD_some] at hc
          exact scanf_word_no_space (List.mem_of_getElem? third) c hc
      | _ => simp [third, Value.word?] at hc

/-- At a text that starts with a word, the id that is read is the beginning of it. -/
theorem scanEntry_word {w rest : CString} {c : Char} {eof : Bool}
    (read : scanEntry s = some (e, s')) (start : s.skipSpace = ⟨w ++ c :: rest, eof⟩)
    (nonempty : w ≠ []) (word : ∀ x ∈ w, isSpace x = false) (blank : isSpace c = true) :
    e.id.name = w.take 255 := by
  have taken := scanWord_take (n := 255) start nonempty word blank
  have first : (scanf indexFormat s).1[0]? = some (.word (w.take 255)) :=
    scanf_head _ (by simp [Directive.scan, taken])
  rw [(scanEntry_fields read).1, first]
  rfl

/-- At a text of two words, where the first is a printed integer and is followed by
a further word: when the second contains a separator, it is not the URL that is
read. -/
theorem scanEntry_shifted {w url real rest : CString} {eof : Bool}
    (read : scanEntry s = some (e, s'))
    (start : s.skipSpace = ⟨w ++ ' ' :: (url ++ ' ' :: (real ++ ' ' :: rest)), eof⟩)
    (short : w.length ≤ 255) (nonempty : w ≠ []) (word : ∀ x ∈ w, isSpace x = false)
    (noSpace : ∀ x ∈ url, isSpace x = false) (separator : '/' ∈ url) (hreal : real ≠ [])
    (realNoSpace : ∀ x ∈ real, isSpace x = false) (realNoSeparator : '/' ∉ real) :
    e.url ≠ url := by
  have blank : isSpace ' ' = true := by decide
  have urlNonempty : url ≠ [] := List.ne_nil_of_mem separator
  obtain ⟨s₁, h₁, e₁⟩ := scanf_field (indexFormat.drop 2)
    (Directive.scan_word (scanWord_append_width start nonempty word blank short)) blank
    ((visible_word urlNonempty noSpace).append _)
  have values : (scanf indexFormat s).1 = .word w :: (scanf (indexFormat.drop 2) s₁).1 :=
    congrArg Prod.fst e₁
  rw [(scanEntry_fields read).2, values]
  cases number : scanInt s₁ with
  | mk r s₂ =>
      cases r with
      | none =>
          -- the URL is not a number, and `fscanf` ends
          have stopped : Directive.int.scan s₁ = (none, s₂) := by simp [Directive.scan, number]
          have none : scanf (indexFormat.drop 2) s₁ = ([], s₂) := scanf_fail stopped
          rw [none]
          exact fun empty => urlNonempty empty.symm
      | some n =>
          obtain ⟨xs, reads, hxs⟩ := scanInt_consumes number
          obtain ⟨zs, rfl, hrest⟩ := reads.prefix_of_word h₁ blank
          -- the third field is the next word, which is not the whole URL
          obtain ⟨v, tail, after, vNonempty, vNoSpace, differs⟩ :
              ∃ v tail, s₂.skipSpace.skipSpace = ⟨v ++ ' ' :: tail, s₂.eof⟩ ∧ v ≠ [] ∧
                (∀ x ∈ v, isSpace x = false) ∧ v ≠ xs ++ zs := by
            have s₂eq : s₂ = ⟨zs ++ ' ' :: (real ++ ' ' :: rest), s₂.eof⟩ := by rw [← hrest]
            rw [skipSpace_idem, s₂eq]
            by_cases hzs : zs = []
            · refine ⟨real, rest, ?_, hreal, realNoSpace, ?_⟩
              · rw [hzs, List.nil_append, skipSpace_space blank,
                  skipSpace_visible ((visible_word hreal realNoSpace).append _)]
              · intro same
                exact realNoSeparator (same ▸ separator)
            · have zsNoSpace : ∀ x ∈ zs, isSpace x = false := fun x hx => noSpace x (by simp [hx])
              refine ⟨zs, real ++ ' ' :: rest, ?_, hzs, zsNoSpace, ?_⟩
              · rw [skipSpace_visible ((visible_word hzs zsNoSpace).append _)]
              · intro same
                have length := congrArg List.length same
                have := List.length_pos_iff.mpr hxs
                rw [List.length_append] at length
                omega
          have space : Directive.space.scan s₂ = (some none, s₂.skipSpace) := rfl
          have more : (scanf (indexFormat.drop 2) s₁).1[1]? = some (.word v) := by
            show (scanf (.int :: .space :: .word none :: indexFormat.drop 5) s₁).1[1]? = _
            rw [scanf_cons _ (Directive.scan_int number), scanf_cons _ space,
              scanf_cons _ (Directive.scan_word (scanWord_append after vNonempty vNoSpace blank))]
            rfl
          rw [List.getElem?_cons_succ, more]
          exact differs

end Read

theorem length_printInt_status {status : EntryStatus} (named : status.Named) :
    (printInt status.toCode).length ≤ 255 := by
  cases status with
  | other code unnamed => cases named
  | _ => decide

/-- A URL that was read fits its field. -/
theorem scanEntry_url_fits {e : Entry} {s s' : Input} (read : scanEntry s = some (e, s')) :
    e.url.length < MAX_URL_LEN := by
  simp only [scanEntry] at read
  split at read
  · next fits => cases read; exact fits
  · cases read

/-- What a pass of the loop reads, when the line it starts at was not written for
a storable entry: not the entry it was written for. -/
theorem scanEntry_differs {e e' : Entry} {line rest : CString} {s s' : Input} {eof : Bool}
    (bad : ¬ Storable e) (fits : e.Fitting)
    (written : indexLine e = some line)
    (start : s.skipSpace = skipSpace ⟨line ++ rest, eof⟩) (read : scanEntry s = some (e', s')) :
    e'.id ≠ e.id ∨ e'.url ≠ e.url := by
  by_cases urlFits : e.url.length < MAX_URL_LEN
  case neg =>
    right
    intro same
    exact urlFits (same ▸ scanEntry_url_fits read)
  have fits := fits urlFits
  obtain ⟨n, name, rfl⟩ := Option.map_eq_some_iff.mp written
  obtain ⟨before, -, url⟩ := getNameFromUrl_eq_some name
  by_cases clean : ∀ c ∈ e.url, isSpace c = false
  · have blank : isSpace ' ' = true := by decide
    have nNoSpace : ∀ c ∈ n, isSpace c = false := fun c hc => clean c (by simp [url, hc])
    simp only [List.append_assoc, List.cons_append, List.nil_append] at start
    by_cases empty : n = []
    · rw [empty, List.nil_append, skipSpace_space blank,
        skipSpace_visible ((visible_printInt _).append _)] at start
      have separator : '/' ∈ e.url := by simp [url]
      exact Or.inr (scanEntry_shifted read start (length_printInt_status fits.status)
        (visible_printInt _).ne_nil printInt_no_space clean separator (visible_decimal _).ne_nil
        (fun _ hx => (mem_decimal hx).1) fun hx => (mem_decimal hx).2 rfl)
    · left
      rw [skipSpace_visible ((visible_word empty nNoSpace).append _)] at start
      have id := scanEntry_word read start empty nNoSpace blank
      intro same
      rw [same] at id
      have whole : n.length ≤ 255 := by
        have := congrArg List.length id
        simp only [List.length_take] at this
        have short := fits.name
        unfold MAX_NAME_LEN at short
        omega
      rw [List.take_of_length_le whole] at id
      exact bad ⟨id ▸ name, id ▸ empty, clean, urlFits⟩
  · right
    intro same
    rw [← same] at clean
    exact clean (scanEntry_url_no_space read)

/-! ### The whole file -/

/-- A line is not empty, and the blanks at its beginning do not reach its end. -/
theorem indexLine_visible {e : Entry} {line : CString} (written : indexLine e = some line)
    (rest : CString) : (skipSpace ⟨line ++ rest, false⟩).eof = false ∧ line ≠ [] := by
  obtain ⟨n, -, rfl⟩ := Option.map_eq_some_iff.mp written
  constructor
  · obtain ⟨c, status, digits, visible⟩ := visible_printInt e.status.toCode
    simp only [skipSpace, span, Bool.false_or, List.isEmpty_eq_false_iff, ne_eq,
      List.dropWhile_eq_nil_iff]
    intro blank
    have := blank c (by simp [digits])
    rw [visible] at this
    cases this
  · simp

/-- The loop on the lines of some entries: it reads them back exactly when all of
them are storable. -/
theorem loadLoop_lines {es : List Entry} {lines : List CString} {fuel : Nat} {s : Input}
    (written : List.Forall₂ (fun e line => indexLine e = some line) es lines)
    (fits : ∀ e ∈ es, e.Fitting) (nonempty : es ≠ [])
    (enough : es.length ≤ fuel)
    (notEnd : s.eof = false) (start : s.skipSpace = skipSpace ⟨lines.flatten, false⟩) :
    loadLoop fuel s = some es ↔ ∀ e ∈ es, Storable e := by
  induction written generalizing fuel s with
  | nil => exact absurd rfl nonempty
  | @cons e line es lines lineEq rest ih =>
      obtain ⟨fuel, rfl⟩ : ∃ k, fuel = k + 1 := ⟨fuel - 1, by simp at enough; omega⟩
      have fitsE := fits e List.mem_cons_self
      have loop : loadLoop (fuel + 1) s =
          (scanEntry s).bind fun r => (loadLoop fuel r.2).map (r.1 :: ·) := by
        rw [loadLoop, notEnd]
        rfl
      rw [loop, List.forall_mem_cons]
      by_cases storable : Storable e
      · have first : s.skipSpace = ⟨line ++ lines.flatten, false⟩ := by
          rw [start, List.flatten_cons, skipSpace_visible]
          obtain ⟨named, nameNonempty, noSpace, -⟩ := storable
          obtain ⟨before, -, url⟩ := getNameFromUrl_eq_some named
          rw [indexLine, named] at lineEq
          cases lineEq
          exact ((visible_word nameNonempty fun c hc => noSpace c (by simp [url, hc])).append _).append _
        rw [scanEntry_line storable (fitsE storable.2.2.2) lineEq first]
        cases es with
        | nil =>
            cases rest
            have ended : loadLoop fuel (skipSpace ⟨[], false⟩) = some [] := by
              unfold loadLoop
              rfl
            simp [ended, storable]
        | cons e' es =>
            have stop : (skipSpace ⟨lines.flatten, false⟩).eof = false := by
              cases rest with
              | cons lineEq' _ =>
                  rw [List.flatten_cons]
                  exact (indexLine_visible lineEq' _).1
            have more : loadLoop fuel (skipSpace ⟨lines.flatten, false⟩) = some (e' :: es) ↔
                ∀ x ∈ e' :: es, Storable x :=
              ih (fun x hx => fits x (List.mem_cons_of_mem _ hx)) (by simp) (by simpa using enough)
                stop (skipSpace_idem _)
            simp only [Option.bind_some, Option.map_eq_some_iff, List.cons.injEq, true_and,
              exists_eq_right, more, storable]
      · constructor
        · intro loaded
          obtain ⟨⟨e', s'⟩, read, loaded⟩ := Option.bind_eq_some_iff.mp loaded
          obtain ⟨es', -, eq⟩ := Option.map_eq_some_iff.mp loaded
          cases eq
          rw [List.flatten_cons] at start
          rcases scanEntry_differs storable fitsE lineEq start read with differs | differs
          · exact absurd rfl differs
          · exact absurd rfl differs
        · intro all
          exact absurd all.1 storable

/-- Loading the lines of some entries: the loop of `queue_load` ends with these
entries exactly when all of them are storable. -/
theorem queueLoad_lines {es : List Entry} {lines : List CString}
    (written : List.Forall₂ (fun e line => indexLine e = some line) es lines)
    (fits : ∀ e ∈ es, e.Fitting) (nonempty : es ≠ []) :
    queueLoad lines.flatten = some es ↔ ∀ e ∈ es, Storable e := by
  refine loadLoop_lines written fits nonempty ?_ rfl rfl
  have long : ∀ {es : List Entry} {lines : List CString},
      List.Forall₂ (fun e line => indexLine e = some line) es lines →
        es.length ≤ lines.flatten.length := by
    intro es lines written
    induction written with
    | nil => simp
    | cons lineEq _ ih =>
        have := List.length_pos_iff.mpr (indexLine_visible lineEq []).2
        simp only [List.length_cons, List.flatten_cons, List.length_append]
        omega
  exact Nat.le_succ_of_le (long written)

/-- An empty index file is read as one entry without a name. -/
theorem queueLoad_empty : queueLoad [] = some [entryNew] := by
  decide

end Dserve
