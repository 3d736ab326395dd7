import Mathlib

/-!
Formatted input and output in the manner of C's `stdio`.

An input is the text that is left and the end-of-file flag, which is set by an
attempt to read past the end, not by reaching it. The conversions `%s`, `%d`, `%i`,
`%li` and `%lf` skip white space, consume the longest prefix of a matching text
and fail when that prefix does not match; white space in a format skips white
space. `scanf` stops at the first conversion that fails. A number is scanned as
mantissa and exponent, so that no rounding takes place.

Scanning what was printed gives the value back: `scanWord_append`,
`scanInt_print`, `scanLong_print`, `scanReal_print`. Whatever its text is, a
scanned word has no white space (`scanWord_no_space`) and a scanned integer takes
a text without white space off the input (`scanInt_consumes`).
-/

namespace Scan

/-- `isspace` in the C locale. -/
def isSpace (c : Char) : Bool :=
  c = ' ' || c = '\t' || c = '\n' || c = '\x0b' || c = '\x0c' || c = '\x0d'

/-- A text stream open for reading. -/
@[ext]
structure Input where
  rest : List Char
  eof : Bool
deriving DecidableEq

namespace Input

/-- Read characters while they satisfy `p`. -/
def span (p : Char → Bool) (s : Input) : List Char × Input :=
  (s.rest.takeWhile p, ⟨s.rest.dropWhile p, s.eof || (s.rest.dropWhile p).isEmpty⟩)

def skipSpace (s : Input) : Input := (s.span isSpace).2

/-- An optional sign: whether it is a minus. -/
def sign (s : Input) : Bool × Input :=
  match s.rest with
  | [] => (false, ⟨[], true⟩)
  | '-' :: rest => (true, ⟨rest, s.eof⟩)
  | '+' :: rest => (false, ⟨rest, s.eof⟩)
  | _ => (false, s)

end Input

open Input

/-! ### Conversions -/

/-- `%s`, with an optional field width. -/
def scanWord (width : Option Nat) (s : Input) : Option (List Char) × Input :=
  let s := s.skipSpace
  match s.rest, width with
  | [], _ => (none, s)
  | _, none => let (w, s) := s.span (fun c => !isSpace c); (some w, s)
  | rest, some n =>
      let w := (rest.take n).takeWhile fun c => !isSpace c
      -- a full field is not followed by a look at the next character
      (some w, ⟨rest.drop w.length, s.eof || (decide (w.length < n) && (rest.drop w.length).isEmpty)⟩)

def signed (negative : Bool) (n : Nat) : Int := if negative then -(n : Int) else n

def isOctal (c : Char) : Bool := '0' ≤ c && c ≤ '7'

def isHex (c : Char) : Bool := c.isDigit || ('a' ≤ c && c ≤ 'f') || ('A' ≤ c && c ≤ 'F')

def hexValue (c : Char) : Nat :=
  if c.isDigit then c.toNat - '0'.toNat
  else if 'a' ≤ c then c.toNat - 'a'.toNat + 10
  else c.toNat - 'A'.toNat + 10

def hexNumber : List Char → Nat := List.foldl (fun n c => 16 * n + hexValue c) 0

/-- The digits of a number: a failure when there are none. -/
def scanDigits (p : Char → Bool) (value : List Char → Nat) (negative : Bool) (s : Input) :
    Option Int × Input :=
  let (ds, s) := s.span p
  (if ds = [] then none else some (signed negative (value ds)), s)

/-- `%d` -/
def scanDecimal (s : Input) : Option Int × Input :=
  let (negative, s) := s.skipSpace.sign
  scanDigits Char.isDigit (Nat.ofDigitChars 10 · 0) negative s

/-- An integer after its sign: the prefix selects the base. -/
def scanUnsigned (negative : Bool) (s : Input) : Option Int × Input :=
  match s.rest with
  | '0' :: x :: rest =>
      if x = 'x' ∨ x = 'X' then
        scanDigits isHex hexNumber negative ⟨rest, s.eof⟩
      else scanDigits isOctal (Nat.ofDigitChars 8 · 0) negative s
  | ['0'] => scanDigits isOctal (Nat.ofDigitChars 8 · 0) negative s
  | _ => scanDigits Char.isDigit (Nat.ofDigitChars 10 · 0) negative s

/-- `%i` -/
def scanInt (s : Input) : Option Int × Input :=
  let (negative, s) := s.skipSpace.sign
  scanUnsigned negative s

/-- `%li`, which takes the base from the prefix as `%i` does. -/
def scanLong (s : Input) : Option Int × Input := scanInt s

/-- A finite real: `mantissa * 10 ^ exponent`. -/
structure Real10 where
  mantissa : Int
  exponent : Int
deriving DecidableEq

/-- `mantissa * 2 ^ exponent` -/
def Real10.ofBinary (mantissa exponent : Int) : Real10 :=
  if 0 ≤ exponent then ⟨mantissa * 2 ^ exponent.toNat, 0⟩
  else ⟨mantissa * 5 ^ (-exponent).toNat, exponent⟩

/-- What `%lf` reads. -/
inductive Number where
  | finite (r : Real10)
  | infinity (negative : Bool)
  | nan
deriving DecidableEq

/-- The optional exponent of a real, behind its mark. -/
def scanExponent (mark : Char) (s : Input) : Option Int × Input :=
  match s.rest with
  | c :: rest =>
      if c.toLower = mark then
        let (negative, s) := sign ⟨rest, s.eof⟩
        scanDigits Char.isDigit (Nat.ofDigitChars 10 · 0) negative s
      else (some 0, s)
  | [] => (some 0, s)

/-- The optional fraction of a real. -/
def scanFraction (p : Char → Bool) (s : Input) : List Char × Input :=
  match s.rest with
  | '.' :: rest => span p ⟨rest, s.eof⟩
  | _ => ([], s)

/-- Digits, of which some may be a fraction, and an exponent. `value` is given the digits, how
many of them are the fraction, and the exponent. -/
def scanMantissa (p : Char → Bool) (mark : Char) (value : List Char → Nat → Int → Real10)
    (s : Input) : Option Number × Input :=
  let (whole, s) := s.span p
  let (fraction, s) := scanFraction p s
  if whole ++ fraction = [] then (none, s)
  else
    let (exponent, s) := scanExponent mark s
    (exponent.map fun e => .finite (value (whole ++ fraction) fraction.length e), s)

def decimalValue (negative : Bool) (digits : List Char) (places : Nat) (exponent : Int) : Real10 :=
  ⟨signed negative (Nat.ofDigitChars 10 digits 0), exponent - places⟩

def hexadecimalValue (negative : Bool) (digits : List Char) (places : Nat) (exponent : Int) : Real10 :=
  .ofBinary (signed negative (hexNumber digits)) (exponent - 4 * places)

/-- A finite real after its sign: the prefix selects the base. -/
def scanFinite (negative : Bool) (s : Input) : Option Number × Input :=
  match s.rest with
  | '0' :: x :: rest =>
      if x.toLower = 'x' then scanMantissa isHex 'p' (hexadecimalValue negative) ⟨rest, s.eof⟩
      else scanMantissa Char.isDigit 'e' (decimalValue negative) s
  | _ => scanMantissa Char.isDigit 'e' (decimalValue negative) s

/-- Characters that spell a word, in upper or lower case, as far as they do. -/
def spell : List Char → Input → Bool × Input
  | [], s => (true, s)
  | w :: ws, s =>
      match s.rest with
      | [] => (false, ⟨[], true⟩)
      | c :: rest => if c.toLower = w then spell ws ⟨rest, s.eof⟩ else (false, s)

/-- `inf` or `infinity`, after the sign. -/
def scanInfinity (negative : Bool) (s : Input) : Option Number × Input :=
  match spell ['i', 'n', 'f'] s with
  | (false, s) => (none, s)
  | (true, s) =>
      match s.rest with
      | [] => (some (.infinity negative), ⟨[], true⟩)
      | c :: _ =>
          if c.toLower = 'i' then
            let (whole, s) := spell ['i', 'n', 'i', 't', 'y'] s
            (if whole then some (.infinity negative) else none, s)
          else (some (.infinity negative), s)

/-- The characters between the parentheses of a NaN. -/
def isNChar (c : Char) : Bool := c.isAlphanum || c = '_'

/-- The parenthesis behind these characters. -/
def scanClosing (s : Input) : Option Number × Input :=
  match s.rest with
  | ')' :: rest => (some .nan, ⟨rest, s.eof⟩)
  | _ => (none, s)

/-- `nan`, which may have characters in parentheses behind it. -/
def scanNan (s : Input) : Option Number × Input :=
  match spell ['n', 'a', 'n'] s with
  | (false, s) => (none, s)
  | (true, s) =>
      match s.rest with
      | [] => (some .nan, ⟨[], true⟩)
      | c :: rest =>
          if c = '(' then scanClosing (span isNChar ⟨rest, s.eof⟩).2
          else (some .nan, s)

/-- A real after its sign. -/
def scanMagnitude (negative : Bool) (s : Input) : Option Number × Input :=
  if s.rest.head?.map Char.toLower = some 'i' then scanInfinity negative s
  else if s.rest.head?.map Char.toLower = some 'n' then scanNan s
  else scanFinite negative s

/-- `%lf` -/
def scanReal (s : Input) : Option Number × Input :=
  let (negative, s) := s.skipSpace.sign
  scanMagnitude negative s

/-! ### Formats -/

inductive Directive where
  | space
  | word (width : Option Nat)
  | int
  | long
  | real
deriving DecidableEq

inductive Value where
  | word (w : List Char)
  | int (n : Int)
  | real (x : Number)
deriving DecidableEq

def Value.word? : Value → Option (List Char)
  | .word w => some w
  | _ => none

/-- One directive: white space assigns nothing, a conversion fails or yields a value. -/
def Directive.scan : Directive → Input → Option (Option Value) × Input
  | .space, s => (some none, s.skipSpace)
  | .word width, s => let (r, s) := scanWord width s; (r.map fun w => some (.word w), s)
  | .int, s => let (r, s) := scanInt s; (r.map fun n => some (.int n), s)
  | .long, s => let (r, s) := scanLong s; (r.map fun n => some (.int n), s)
  | .real, s => let (r, s) := scanReal s; (r.map fun x => some (.real x), s)

/-- `fscanf`: the values assigned before the first failure. -/
def scanf : List Directive → Input → List Value × Input
  | [], s => ([], s)
  | d :: ds, s =>
      match d.scan s with
      | (none, s) => ([], s)
      | (some v, s) => let (vs, s) := scanf ds s; (v.toList ++ vs, s)

/-! ### Printing -/

/-- `%i`, `%li` -/
def printInt (n : Int) : List Char :=
  (if n < 0 then ['-'] else []) ++ Nat.toDigits 10 n.natAbs

/-- `%lf` of a number that has at most `places` decimal places, given as a multiple
of the last one. -/
def printReal (places : Nat) (n : Int) : List Char :=
  (if n < 0 then ['-'] else []) ++ Nat.toDigits 10 (n.natAbs / 10 ^ places) ++ '.' ::
    List.leftpad places '0' (Nat.toDigits 10 (n.natAbs % 10 ^ places))

/-- `%lf` of an infinity. -/
def printInfinity (negative : Bool) : List Char := (if negative then ['-'] else []) ++ ['i', 'n', 'f']

/-- `%lf` of a NaN. -/
def printNan : List Char := ['n', 'a', 'n']

/-! ### Reading -/

theorem span_append {p : Char → Bool} {xs rest : List Char} {c : Char} {eof : Bool}
    (all : ∀ x ∈ xs, p x = true) (stop : p c = false) :
    span p ⟨xs ++ c :: rest, eof⟩ = (xs, ⟨c :: rest, eof⟩) := by
  simp [span, List.takeWhile_append_of_pos all, List.dropWhile_append_of_pos all, stop]

/-- What is read is what is missing. -/
theorem span_split (p : Char → Bool) (s : Input) :
    s.rest = (s.span p).1 ++ (s.span p).2.rest ∧ ∀ x ∈ (s.span p).1, p x = true := by
  refine ⟨by simp [span], fun x hx => ?_⟩
  exact List.mem_takeWhile_imp hx

theorem skipSpace_cons {rest : List Char} {c : Char} {eof : Bool} (stop : isSpace c = false) :
    skipSpace ⟨c :: rest, eof⟩ = ⟨c :: rest, eof⟩ := by
  simp [skipSpace, span, stop]

theorem skipSpace_idem (s : Input) : s.skipSpace.skipSpace = s.skipSpace := by
  have twice : ∀ l : List Char, (l.dropWhile isSpace).dropWhile isSpace = l.dropWhile isSpace := by
    intro l
    induction l with
    | nil => rfl
    | cons c l ih =>
        by_cases h : isSpace c = true
        · simpa [h] using ih
        · simp [h]
  simp [skipSpace, span, twice]

/-- The characters that end a number or a word in printed text. -/
theorem isSpace_cases {c : Char} (h : isSpace c = true) :
    c = ' ' ∨ c = '\t' ∨ c = '\n' ∨ c = '\x0b' ∨ c = '\x0c' ∨ c = '\x0d' := by
  simpa [isSpace, or_assoc] using h

theorem isDigit_of_isSpace {c : Char} (h : isSpace c = true) : c.isDigit = false := by
  rcases isSpace_cases h with rfl | rfl | rfl | rfl | rfl | rfl <;> rfl

theorem isSpace_of_isDigit {c : Char} (h : c.isDigit = true) : isSpace c = false := by
  cases hc : isSpace c with
  | false => rfl
  | true => rw [isDigit_of_isSpace hc] at h; cases h

theorem toLower_of_isDigit {c : Char} (h : c.isDigit = true) : c.toLower = c := by
  unfold Char.toLower
  rw [dif_neg]
  rintro ⟨above, -⟩
  simp only [Char.isDigit, Bool.and_eq_true, decide_eq_true_eq] at h
  have small : c.val ≤ 57 := h.2
  have large : (65 : UInt32) ≤ c.val := above
  exact absurd (UInt32.le_trans large small) (by decide)

theorem sign_of_isDigit {c : Char} {rest : List Char} {eof : Bool} (h : c.isDigit = true) :
    sign ⟨c :: rest, eof⟩ = (false, ⟨c :: rest, eof⟩) := by
  unfold sign
  split
  · next heq => cases heq
  · next heq => cases heq; cases h
  · next heq => cases heq; cases h
  · rfl

/-! ### Words -/

theorem takeWhile_take_word {w : List Char} (rest : List Char) {c : Char} (n : Nat)
    (word : ∀ x ∈ w, isSpace x = false) (stop : isSpace c = true) :
    ((w ++ c :: rest).take n).takeWhile (fun c => !isSpace c) = w.take n := by
  rw [List.take_append, List.takeWhile_append_of_pos fun x hx => by
    simp [word x (List.mem_of_mem_take hx)]]
  cases n - w.length with
  | zero => simp
  | succ k => simp [stop]

theorem scanWord_append {s : Input} {w rest : List Char} {c : Char} {eof : Bool}
    (start : s.skipSpace = ⟨w ++ c :: rest, eof⟩) (nonempty : w ≠ [])
    (word : ∀ x ∈ w, isSpace x = false) (stop : isSpace c = true) :
    scanWord none s = (some w, ⟨c :: rest, eof⟩) := by
  obtain ⟨x, w, rfl⟩ := List.exists_cons_of_ne_nil nonempty
  have read : span (fun c => !isSpace c) ⟨x :: w ++ c :: rest, eof⟩ = (x :: w, ⟨c :: rest, eof⟩) :=
    span_append (fun y hy => by simp [word y hy]) (by simp [stop])
  simp only [scanWord, start, List.cons_append] at read ⊢
  rw [read]

/-- A word that fits the field width. -/
theorem scanWord_append_width {s : Input} {w rest : List Char} {c : Char} {eof : Bool} {n : Nat}
    (start : s.skipSpace = ⟨w ++ c :: rest, eof⟩) (nonempty : w ≠ [])
    (word : ∀ x ∈ w, isSpace x = false) (stop : isSpace c = true) (fits : w.length ≤ n) :
    scanWord (some n) s = (some w, ⟨c :: rest, eof⟩) := by
  obtain ⟨x, w, rfl⟩ := List.exists_cons_of_ne_nil nonempty
  have read := takeWhile_take_word rest n word stop
  rw [List.take_of_length_le fits] at read
  simp only [scanWord, start, List.cons_append] at read ⊢
  rw [read]
  simp

/-- With a field width, at most that many characters of a word are read. -/
theorem scanWord_take {s : Input} {w rest : List Char} {c : Char} {eof : Bool} {n : Nat}
    (start : s.skipSpace = ⟨w ++ c :: rest, eof⟩) (nonempty : w ≠ [])
    (word : ∀ x ∈ w, isSpace x = false) (stop : isSpace c = true) :
    (scanWord (some n) s).1 = some (w.take n) := by
  obtain ⟨x, w, rfl⟩ := List.exists_cons_of_ne_nil nonempty
  have read := takeWhile_take_word rest n word stop
  simp only [scanWord, start, List.cons_append] at read ⊢
  rw [read]

theorem scanWord_no_space {s s' : Input} {width : Option Nat} {w : List Char}
    (h : scanWord width s = (some w, s')) : ∀ x ∈ w, isSpace x = false := by
  intro x hx
  simp only [scanWord] at h
  split at h
  · cases h
  · simp only [Prod.mk.injEq, Option.some.injEq] at h
    have := (span_split (fun c => !isSpace c) s.skipSpace).2 x (h.1 ▸ hx)
    simpa using this
  · simp only [Prod.mk.injEq, Option.some.injEq] at h
    have := List.mem_takeWhile_imp (h.1 ▸ hx)
    simpa using this

/-! ### Integers -/

theorem isDigit_toDigits {n : Nat} {c : Char} (h : c ∈ Nat.toDigits 10 n) : c.isDigit = true :=
  Nat.isDigit_of_mem_toDigits (by decide) (by decide) h

/-- Only zero is printed with a leading zero. -/
theorem head_toDigits {n : Nat} (pos : 0 < n) {ds : List Char} : Nat.toDigits 10 n ≠ '0' :: ds := by
  induction n using Nat.strongRecOn generalizing ds with
  | ind n ih =>
      rw [Nat.toDigits_eq_if (by decide)]
      split
      · next small =>
        have nonzero : ∀ k < 10, 0 < k → k.digitChar ≠ '0' := by decide
        intro h
        simp only [List.cons.injEq] at h
        exact nonzero n small pos h.1
      · next large =>
        have hq : 0 < n / 10 := by omega
        obtain ⟨c, cs, hcs⟩ := List.exists_cons_of_ne_nil (Nat.toDigits_ne_nil (n := n / 10) (b := 10))
        rw [hcs]
        intro h
        simp only [List.cons_append, List.cons.injEq] at h
        exact ih (n / 10) (by omega) hq (by rw [hcs, h.1])

theorem signed_natAbs (n : Int) : signed (decide (n < 0)) n.natAbs = n := by
  unfold signed
  by_cases negative : n < 0
  · rw [if_pos (decide_eq_true negative)]
    omega
  · rw [if_neg (by simpa using negative)]
    omega

/-- The sign of a printed number, and its digits. -/
theorem sign_print (n : Int) {ds : List Char} (rest : List Char) (eof : Bool) (digits : ds ≠ [])
    (all : ∀ x ∈ ds, x.isDigit = true) :
    sign ⟨(if n < 0 then ['-'] else []) ++ ds ++ rest, eof⟩ = (decide (n < 0), ⟨ds ++ rest, eof⟩) := by
  by_cases negative : n < 0
  · simp [negative, sign]
  · obtain ⟨d, ds, rfl⟩ := List.exists_cons_of_ne_nil digits
    simp [negative, sign_of_isDigit (all d List.mem_cons_self)]

theorem scanDigits_append {p : Char → Bool} {value : List Char → Nat} {negative : Bool}
    {ds rest : List Char} {c : Char} {eof : Bool} (digits : ds ≠ []) (all : ∀ x ∈ ds, p x = true)
    (stop : p c = false) :
    scanDigits p value negative ⟨ds ++ c :: rest, eof⟩ =
      (some (signed negative (value ds)), ⟨c :: rest, eof⟩) := by
  simp [scanDigits, span_append all stop, digits]

theorem scanInt_print {s : Input} {n : Int} {rest : List Char} {c : Char} {eof : Bool}
    (start : s.skipSpace = ⟨printInt n ++ c :: rest, eof⟩) (stop : isSpace c = true) :
    scanInt s = (some n, ⟨c :: rest, eof⟩) := by
  have all : ∀ x ∈ Nat.toDigits 10 n.natAbs, x.isDigit = true := fun x hx => isDigit_toDigits hx
  have read := sign_print n (c :: rest) eof Nat.toDigits_ne_nil all
  have cx : c ≠ 'x' ∧ c ≠ 'X' ∧ isOctal c = false := by
    rcases isSpace_cases stop with rfl | rfl | rfl | rfl | rfl | rfl <;> exact ⟨by simp, by simp, rfl⟩
  simp only [scanInt, scanUnsigned, start, printInt, read]
  by_cases zero : n = 0
  · subst zero
    -- a printed zero is scanned as an octal number
    show (if c = 'x' ∨ c = 'X' then _ else
      scanDigits isOctal (Nat.ofDigitChars 8 · 0) false ⟨['0'] ++ c :: rest, eof⟩) = _
    have octal : ∀ x ∈ ['0'], isOctal x = true := by
      intro x hx
      rw [List.mem_singleton.mp hx]
      rfl
    rw [if_neg (by simp [cx.1, cx.2.1]), scanDigits_append (by simp) octal cx.2.2]
    rfl
  · have pos : 0 < n.natAbs := Int.natAbs_pos.mpr zero
    split
    · next heq =>
      obtain ⟨d, ds, hds⟩ := List.exists_cons_of_ne_nil (Nat.toDigits_ne_nil (n := n.natAbs) (b := 10))
      rw [hds] at heq
      simp only [List.cons_append, List.cons.injEq] at heq
      exact absurd (hds.trans (by rw [heq.1])) (head_toDigits pos)
    · next heq =>
      obtain ⟨d, ds, hds⟩ := List.exists_cons_of_ne_nil (Nat.toDigits_ne_nil (n := n.natAbs) (b := 10))
      rw [hds] at heq
      simp only [List.cons_append, List.cons.injEq] at heq
      exact absurd (hds.trans (by rw [heq.1])) (head_toDigits pos)
    · rw [scanDigits_append Nat.toDigits_ne_nil all (isDigit_of_isSpace stop)]
      simp [signed_natAbs]

theorem scanLong_print {s : Input} {n : Int} {rest : List Char} {c : Char} {eof : Bool}
    (start : s.skipSpace = ⟨printInt n ++ c :: rest, eof⟩) (stop : isSpace c = true) :
    scanLong s = (some n, ⟨c :: rest, eof⟩) := scanInt_print start stop

theorem isSpace_of_isHex {c : Char} (h : isHex c = true) : isSpace c = false := by
  cases hc : isSpace c with
  | false => rfl
  | true => rcases isSpace_cases hc with rfl | rfl | rfl | rfl | rfl | rfl <;> revert h <;> decide

theorem isSpace_of_isOctal {c : Char} (h : isOctal c = true) : isSpace c = false := by
  cases hc : isSpace c with
  | false => rfl
  | true => rcases isSpace_cases hc with rfl | rfl | rfl | rfl | rfl | rfl <;> revert h <;> decide

/-- `s'` is `s` after reading `xs`, which has no white space. -/
def Reads (s s' : Input) (xs : List Char) : Prop :=
  s.rest = xs ++ s'.rest ∧ ∀ x ∈ xs, isSpace x = false

theorem Reads.trans {s s' s'' : Input} {xs ys : List Char} (first : Reads s s' xs)
    (second : Reads s' s'' ys) : Reads s s'' (xs ++ ys) := by
  refine ⟨by rw [first.1, second.1, List.append_assoc], fun x hx => ?_⟩
  rcases List.mem_append.mp hx with hx | hx
  · exact first.2 x hx
  · exact second.2 x hx

theorem sign_reads (s : Input) : ∃ xs, Reads s s.sign.2 xs := by
  unfold sign
  split
  · next h => exact ⟨[], by simp [Reads, h]⟩
  · next h => exact ⟨['-'], by simp [Reads, h, isSpace]⟩
  · next h => exact ⟨['+'], by simp [Reads, h, isSpace]⟩
  · exact ⟨[], by simp [Reads]⟩

theorem scanDigits_reads {p : Char → Bool} {value : List Char → Nat} {negative : Bool} {s s' : Input}
    {r : Option Int} (visible : ∀ c, p c = true → isSpace c = false)
    (h : scanDigits p value negative s = (r, s')) :
    ∃ xs, Reads s s' xs ∧ (r.isSome → xs ≠ []) := by
  simp only [scanDigits, Prod.mk.injEq] at h
  obtain ⟨rfl, rfl⟩ := h
  obtain ⟨split, all⟩ := span_split p s
  refine ⟨(s.span p).1, ⟨split, fun x hx => visible x (all x hx)⟩, ?_⟩
  by_cases digits : (s.span p).1 = [] <;> simp [digits]

/-- A scanned integer is a text without white space, and not an empty one. -/
theorem scanInt_consumes {s s' : Input} {n : Int} (h : scanInt s = (some n, s')) :
    ∃ xs, Reads s.skipSpace s' xs ∧ xs ≠ [] := by
  obtain ⟨sgn, hsgn⟩ := sign_reads s.skipSpace
  have finish : ∀ {t : Input} {xs ys : List Char}, Reads s.skipSpace.sign.2 t xs →
      Reads t s' ys → ys ≠ [] → ∃ zs, Reads s.skipSpace s' zs ∧ zs ≠ [] := by
    intro t xs ys first second nonempty
    exact ⟨sgn ++ (xs ++ ys), hsgn.trans (first.trans second), by simp [nonempty]⟩
  have here : Reads s.skipSpace.sign.2 s.skipSpace.sign.2 [] := by simp [Reads]
  simp only [scanInt, scanUnsigned] at h
  split at h
  · next x rest heq =>
    split at h
    · next hex =>
      obtain ⟨ys, reads, nonempty⟩ := scanDigits_reads (fun c => isSpace_of_isHex) h
      have lead : Reads s.skipSpace.sign.2 ⟨rest, s.skipSpace.sign.2.eof⟩ ['0', x] := by
        refine ⟨by simp [heq], ?_⟩
        rcases hex with rfl | rfl <;> simp [isSpace]
      exact finish lead reads (nonempty rfl)
    · obtain ⟨ys, reads, nonempty⟩ := scanDigits_reads (fun c => isSpace_of_isOctal) h
      exact finish here reads (nonempty rfl)
  · obtain ⟨ys, reads, nonempty⟩ := scanDigits_reads (fun c => isSpace_of_isOctal) h
    exact finish here reads (nonempty rfl)
  · obtain ⟨ys, reads, nonempty⟩ := scanDigits_reads (fun c => isSpace_of_isDigit) h
    exact finish here reads (nonempty rfl)

/-- A text read off `w ++ c :: rest`, where `c` is white space, is a prefix of `w`. -/
theorem Reads.prefix_of_word {s s' : Input} {xs w rest : List Char} {c : Char} {eof : Bool}
    (reads : Reads s s' xs) (start : s = ⟨w ++ c :: rest, eof⟩) (blank : isSpace c = true) :
    ∃ zs, w = xs ++ zs ∧ s'.rest = zs ++ c :: rest := by
  obtain ⟨text, visible⟩ := reads
  rw [start] at text
  rcases List.append_eq_append_iff.mp text with ⟨zs, hxs, tail⟩ | ⟨zs, hw, tail⟩
  · cases zs with
    | nil => exact ⟨[], by simpa using hxs.symm, by simpa using tail.symm⟩
    | cons z zs =>
        simp only [List.cons_append, List.cons.injEq] at tail
        have : isSpace c = false := visible c (by simp [hxs, tail.1])
        rw [blank] at this
        cases this
  · exact ⟨zs, hw, tail⟩

/-! ### Reals -/

/-- The fraction digits of a printed real. -/
def fractionDigits (places : Nat) (n : Int) : List Char :=
  List.leftpad places '0' (Nat.toDigits 10 (n.natAbs % 10 ^ places))

theorem isDigit_fractionDigits {places : Nat} {n : Int} {c : Char}
    (h : c ∈ fractionDigits places n) : c.isDigit = true := by
  unfold fractionDigits List.leftpad at h
  rcases List.mem_append.mp h with h | h
  · rw [List.eq_of_mem_replicate h]
    rfl
  · exact isDigit_toDigits h

theorem length_fractionDigits {places : Nat} {n : Int} (pos : 0 < places) :
    (fractionDigits places n).length = places := by
  have small : (Nat.toDigits 10 (n.natAbs % 10 ^ places)).length ≤ places :=
    (Nat.length_toDigits_le_iff (by decide) pos).mpr (Nat.mod_lt _ (Nat.pow_pos (by decide)))
  simp [fractionDigits, small]

/-- The digits of a printed real, read as one number. -/
theorem ofDigitChars_printReal {places : Nat} {n : Int} (pos : 0 < places) :
    Nat.ofDigitChars 10 (Nat.toDigits 10 (n.natAbs / 10 ^ places) ++ fractionDigits places n) 0 =
      n.natAbs := by
  have fraction : Nat.ofDigitChars 10 (fractionDigits places n) 0 = n.natAbs % 10 ^ places := by
    simp [fractionDigits, List.leftpad, Nat.ofDigitChars_append]
  rw [Nat.ofDigitChars_append, Nat.ofDigitChars_ten_toDigits,
    Nat.ofDigitChars_eq_ofDigitChars_zero, length_fractionDigits pos, fraction]
  exact Nat.div_add_mod _ _

/-- What comes after the sign of a printed real is a decimal. -/
theorem scanFinite_digits {ds rest : List Char} {c : Char} {negative eof : Bool} (digits : ds ≠ [])
    (all : ∀ x ∈ ds, x.isDigit = true) (stop : c.toLower ≠ 'x') :
    scanFinite negative ⟨ds ++ c :: rest, eof⟩ =
      scanMantissa Char.isDigit 'e' (decimalValue negative) ⟨ds ++ c :: rest, eof⟩ := by
  unfold scanFinite
  split
  · next x tail heq =>
    have second : x.toLower ≠ 'x' := by
      match ds, digits with
      | [d], _ =>
          simp only [List.singleton_append, List.cons.injEq] at heq
          exact heq.2.1 ▸ stop
      | d :: d' :: ds, _ =>
          simp only [List.cons_append, List.cons.injEq] at heq
          have digit := all d' (by simp)
          rw [heq.2.1] at digit
          intro same
          rw [toLower_of_isDigit digit] at same
          rw [same] at digit
          cases digit
    rw [if_neg second]
  · rfl

theorem scanReal_print {s : Input} {places : Nat} {n : Int} {rest : List Char} {c : Char}
    {eof : Bool} (pos : 0 < places) (start : s.skipSpace = ⟨printReal places n ++ c :: rest, eof⟩)
    (stop : isSpace c = true) : scanReal s = (some (.finite ⟨n, -places⟩), ⟨c :: rest, eof⟩) := by
  have all : ∀ x ∈ Nat.toDigits 10 (n.natAbs / 10 ^ places), x.isDigit = true :=
    fun x hx => isDigit_toDigits hx
  have frac : ∀ x ∈ fractionDigits places n, x.isDigit = true := fun x => isDigit_fractionDigits
  have read := sign_print n ('.' :: (fractionDigits places n ++ c :: rest)) eof
    Nat.toDigits_ne_nil all
  have text : printReal places n ++ c :: rest =
      (if n < 0 then ['-'] else []) ++ Nat.toDigits 10 (n.natAbs / 10 ^ places) ++
        '.' :: (fractionDigits places n ++ c :: rest) := by
    simp [printReal, fractionDigits]
  have exponent : scanExponent 'e' ⟨c :: rest, eof⟩ = (some 0, ⟨c :: rest, eof⟩) := by
    rcases isSpace_cases stop with rfl | rfl | rfl | rfl | rfl | rfl <;> rfl
  have letter : ∀ l : Char, l.isDigit = false →
      (Nat.toDigits 10 (n.natAbs / 10 ^ places) ++ '.' :: (fractionDigits places n ++ c :: rest)).head?.map
        Char.toLower ≠ some l := by
    intro l notDigit
    obtain ⟨d, ds, hds⟩ := List.exists_cons_of_ne_nil
      (Nat.toDigits_ne_nil (n := n.natAbs / 10 ^ places) (b := 10))
    have digit := all d (by simp [hds])
    rw [hds]
    simp only [List.cons_append, List.head?_cons, Option.map_some, ne_eq, Option.some.injEq,
      toLower_of_isDigit digit]
    rintro rfl
    rw [notDigit] at digit
    cases digit
  simp only [scanReal, scanMagnitude, start, text, read]
  rw [if_neg (letter 'i' rfl), if_neg (letter 'n' rfl),
    scanFinite_digits Nat.toDigits_ne_nil all (by decide), scanMantissa]
  rw [span_append all (by decide)]
  simp only [scanFraction]
  rw [span_append frac (isDigit_of_isSpace stop)]
  simp only [exponent, decimalValue, ofDigitChars_printReal pos, length_fractionDigits pos,
    signed_natAbs]
  simp [Nat.toDigits_ne_nil]

theorem toLower_of_isSpace {c : Char} (h : isSpace c = true) : c.toLower = c := by
  rcases isSpace_cases h with rfl | rfl | rfl | rfl | rfl | rfl <;> rfl

theorem scanReal_printInfinity {s : Input} {negative : Bool} {rest : List Char} {c : Char} {eof : Bool}
    (start : s.skipSpace = ⟨printInfinity negative ++ c :: rest, eof⟩) (stop : isSpace c = true) :
    scanReal s = (some (.infinity negative), ⟨c :: rest, eof⟩) := by
  have other : c.toLower ≠ 'i' := by
    rw [toLower_of_isSpace stop]
    rintro rfl
    cases stop
  cases negative <;> simp [scanReal, scanMagnitude, start, printInfinity, sign, scanInfinity, spell, other]

theorem scanReal_printNan {s : Input} {rest : List Char} {c : Char} {eof : Bool}
    (start : s.skipSpace = ⟨printNan ++ c :: rest, eof⟩) (stop : isSpace c = true) :
    scanReal s = (some .nan, ⟨c :: rest, eof⟩) := by
  have other : c ≠ '(' := by
    rintro rfl
    cases stop
  simp [scanReal, scanMagnitude, start, printNan, sign, scanNan, spell, other]

/-! ### Formats -/

theorem Directive.scan_word {width : Option Nat} {s s' : Input} {w : List Char}
    (h : scanWord width s = (some w, s')) :
    (Directive.word width).scan s = (some (some (.word w)), s') :=
  congrArg (fun r : Option (List Char) × Input => (r.1.map fun w => some (Value.word w), r.2)) h

theorem Directive.scan_int {s s' : Input} {n : Int} (h : scanInt s = (some n, s')) :
    Directive.int.scan s = (some (some (.int n)), s') :=
  congrArg (fun r : Option Int × Input => (r.1.map fun n => some (Value.int n), r.2)) h

theorem Directive.scan_long {s s' : Input} {n : Int} (h : scanLong s = (some n, s')) :
    Directive.long.scan s = (some (some (.int n)), s') :=
  congrArg (fun r : Option Int × Input => (r.1.map fun n => some (Value.int n), r.2)) h

theorem Directive.scan_real {s s' : Input} {x : Number} (h : scanReal s = (some x, s')) :
    Directive.real.scan s = (some (some (.real x)), s') :=
  congrArg (fun r : Option Number × Input => (r.1.map fun x => some (Value.real x), r.2)) h

theorem scanf_cons {d : Directive} (ds : List Directive) {s s' : Input} {v : Option Value}
    (h : d.scan s = (some v, s')) :
    scanf (d :: ds) s = (v.toList ++ (scanf ds s').1, (scanf ds s').2) := by
  simp [scanf, h]

theorem scanf_fail {d : Directive} {ds : List Directive} {s s' : Input}
    (h : d.scan s = (none, s')) : scanf (d :: ds) s = ([], s') := by
  simp [scanf, h]

theorem scanf_head {d : Directive} (ds : List Directive) {s : Input} {v : Value}
    (h : (d.scan s).1 = some (some v)) : (scanf (d :: ds) s).1[0]? = some v := by
  have scanned : d.scan s = (some (some v), (d.scan s).2) := Prod.ext h rfl
  rw [scanf_cons ds scanned]
  rfl

/-- The text starts with a character that is not white space. -/
def Visible (text : List Char) : Prop := ∃ c rest, text = c :: rest ∧ isSpace c = false

theorem Visible.append {text : List Char} (h : Visible text) (rest : List Char) :
    Visible (text ++ rest) := by
  obtain ⟨c, r, rfl, hc⟩ := h
  exact ⟨c, r ++ rest, rfl, hc⟩

theorem Visible.ne_nil {text : List Char} (h : Visible text) : text ≠ [] := by
  obtain ⟨c, rest, rfl, -⟩ := h
  exact List.cons_ne_nil c rest

theorem visible_word {w : List Char} (nonempty : w ≠ []) (word : ∀ x ∈ w, isSpace x = false) :
    Visible w := by
  obtain ⟨c, r, rfl⟩ := List.exists_cons_of_ne_nil nonempty
  exact ⟨c, r, rfl, word c List.mem_cons_self⟩

theorem visible_toDigits (n : Nat) : Visible (Nat.toDigits 10 n) :=
  visible_word Nat.toDigits_ne_nil fun _ hx => isSpace_of_isDigit (isDigit_toDigits hx)

theorem visible_printInt (n : Int) : Visible (printInt n) := by
  unfold printInt
  split
  · exact ⟨'-', _, rfl, by decide⟩
  · exact visible_toDigits _

theorem visible_printReal (places : Nat) (n : Int) : Visible (printReal places n) := by
  unfold printReal
  split
  · exact ⟨'-', _, rfl, by decide⟩
  · exact (visible_toDigits _).append _

theorem skipSpace_visible {text : List Char} {eof : Bool} (h : Visible text) :
    skipSpace ⟨text, eof⟩ = ⟨text, eof⟩ := by
  obtain ⟨c, r, rfl, hc⟩ := h
  exact skipSpace_cons hc

theorem skipSpace_space {rest : List Char} {c : Char} {eof : Bool} (h : isSpace c = true) :
    skipSpace ⟨c :: rest, eof⟩ = skipSpace ⟨rest, eof⟩ := by
  simp [skipSpace, span, h]

/-- A conversion whose text is followed by white space and a further field. -/
theorem scanf_field {d : Directive} (ds : List Directive) {v : Value} {s : Input}
    {next : List Char} {c : Char} {eof : Bool}
    (h : d.scan s = (some (some v), ⟨c :: next, eof⟩)) (blank : isSpace c = true)
    (more : Visible next) :
    ∃ s', s'.skipSpace = ⟨next, eof⟩ ∧
      scanf (d :: .space :: ds) s = (v :: (scanf ds s').1, (scanf ds s').2) := by
  refine ⟨⟨next, eof⟩, skipSpace_visible more, ?_⟩
  have skip : Directive.scan .space ⟨c :: next, eof⟩ = (some none, ⟨next, eof⟩) := by
    simp [Directive.scan, skipSpace_space blank, skipSpace_visible more]
  rw [scanf_cons _ h, scanf_cons _ skip]
  rfl

/-- A word that was assigned has no white space, whatever the input was. -/
theorem scanf_word_no_space {ds : List Directive} {s : Input} {w : List Char}
    (h : Value.word w ∈ (scanf ds s).1) : ∀ x ∈ w, isSpace x = false := by
  induction ds generalizing s with
  | nil => cases h
  | cons d ds ih =>
      cases scanned : d.scan s with
      | mk r s' =>
          cases r with
          | none => rw [scanf_fail scanned] at h; cases h
          | some v =>
              rw [scanf_cons ds scanned] at h
              rcases List.mem_append.mp h with h | h
              · obtain rfl : v = some (.word w) := by simpa using h
                cases d with
                | word width =>
                    simp only [Directive.scan, Prod.mk.injEq, Option.map_eq_some_iff] at scanned
                    obtain ⟨⟨w', read, eq⟩, -⟩ := scanned
                    cases eq
                    exact scanWord_no_space (Prod.ext read rfl)
                | _ => simp [Directive.scan] at scanned
              · exact ih h

theorem mem_printReal {places : Nat} {n : Int} {c : Char} (h : c ∈ printReal places n) :
    c = '-' ∨ c = '.' ∨ c.isDigit = true := by
  simp only [printReal, List.append_assoc, List.mem_append, List.mem_cons] at h
  rcases h with h | h | h | h
  · split at h
    · exact Or.inl (List.mem_singleton.mp h)
    · cases h
  · exact Or.inr (Or.inr (isDigit_toDigits h))
  · exact Or.inr (Or.inl h)
  · exact Or.inr (Or.inr (isDigit_fractionDigits h))

theorem printReal_no_space {places : Nat} {n : Int} :
    ∀ x ∈ printReal places n, isSpace x = false := by
  intro x hx
  rcases mem_printReal hx with rfl | rfl | digit
  · rfl
  · rfl
  · exact isSpace_of_isDigit digit

theorem printInt_no_space {n : Int} : ∀ x ∈ printInt n, isSpace x = false := by
  intro x hx
  unfold printInt at hx
  rcases List.mem_append.mp hx with hx | hx
  · split at hx
    · rw [List.mem_singleton.mp hx]; rfl
    · cases hx
  · exact isSpace_of_isDigit (isDigit_toDigits hx)

end Scan
