import Dserve.Lib.Scan

/-!
The words of a text, and how the conversions of `scanf` use them up.

A conversion skips white space and takes characters off the next word, whether it succeeds or
not, so that a text loses at most one word to it (`scanf_consumes`). What it reads of a word does
not depend on the white space and the words behind it (`Local`), so that a sequence of
conversions reads one word each when each of them reads its word whole (`scanf_fields`).
-/

namespace Scan

open Input

/-- The longest parts of a text without white space. -/
def words (text : List Char) : List (List Char) :=
  (text.splitOnP isSpace).filter fun w => !w.isEmpty

/-- A text that begins with white space, or is empty: what is behind a word. -/
def Stops (tail : List Char) : Prop := ∀ c ∈ tail.head?, isSpace c = true

section Words

variable {w text tail xs : List Char} {c : Char}

@[simp] theorem words_nil : words [] = [] := rfl

theorem words_append_space (xs ys : List Char) (blank : isSpace c = true) :
    words (xs ++ c :: ys) = words xs ++ words ys := by
  unfold words
  rw [List.splitOnP_append_cons xs ys blank, List.filter_append]

@[simp] theorem words_space (blank : isSpace c = true) : words (c :: text) = words text :=
  words_append_space [] text blank

theorem words_word (nonempty : w ≠ []) (word : ∀ x ∈ w, isSpace x = false) : words w = [w] := by
  unfold words
  rw [List.splitOnP_eq_singleton word]
  simp [nonempty]

theorem words_field (nonempty : w ≠ []) (word : ∀ x ∈ w, isSpace x = false) (blank : isSpace c = true) :
    words (w ++ c :: text) = w :: words text := by
  rw [words_append_space w text blank, words_word nonempty word, List.singleton_append]

/-- A word is followed by the words of what is behind it. -/
theorem words_append_stops (nonempty : w ≠ []) (word : ∀ x ∈ w, isSpace x = false)
    (stops : Stops tail) : words (w ++ tail) = w :: words tail := by
  cases tail with
  | nil => rw [List.append_nil, words_word nonempty word, words_nil]
  | cons c tail =>
      have blank := stops c rfl
      rw [words_field nonempty word blank, words_space blank]

theorem words_dropWhile (text : List Char) : words (text.dropWhile isSpace) = words text := by
  induction text with
  | nil => rfl
  | cons c text ih =>
      by_cases blank : isSpace c = true
      · rw [List.dropWhile_cons_of_pos blank, ih, words_space blank]
      · rw [List.dropWhile_cons_of_neg blank]

theorem dropWhile_stops (text : List Char) : Stops (text.dropWhile fun c => !isSpace c) := by
  intro c first
  have head := List.head?_dropWhile_not (fun c => !isSpace c) text
  rw [first] at head
  simpa using head

/-- A text that begins with a word. -/
theorem visible_split (visible : Visible text) :
    ∃ w tail, text = w ++ tail ∧ Stops tail ∧ w ≠ [] ∧ ∀ x ∈ w, isSpace x = false := by
  obtain ⟨c, rest, rfl, hc⟩ := visible
  refine ⟨(c :: rest).takeWhile fun c => !isSpace c, (c :: rest).dropWhile fun c => !isSpace c,
    List.takeWhile_append_dropWhile.symm, dropWhile_stops _, ?_, fun x hx => ?_⟩
  · rw [List.takeWhile_cons_of_pos (by simp [hc])]
    exact List.cons_ne_nil _ _
  · simpa using List.mem_takeWhile_imp hx

theorem visible_dropWhile (more : text.dropWhile isSpace ≠ []) : Visible (text.dropWhile isSpace) := by
  obtain ⟨c, rest, start⟩ := List.exists_cons_of_ne_nil more
  refine ⟨c, rest, start, ?_⟩
  have head := List.head?_dropWhile_not isSpace text
  rw [start] at head
  simpa using head

/-- A text without words is white space. -/
theorem words_eq_nil_iff : words text = [] ↔ text.dropWhile isSpace = [] := by
  constructor
  · intro none
    by_contra more
    obtain ⟨w, tail, split, stops, nonempty, word⟩ := visible_split (visible_dropWhile more)
    rw [← words_dropWhile, split, words_append_stops nonempty word stops] at none
    cases none
  · intro blank
    rw [← words_dropWhile, blank, words_nil]

/-- The first word of a text, and what is behind it. -/
theorem words_eq_cons {ws : List (List Char)} (h : words text = w :: ws) :
    ∃ tail, text.dropWhile isSpace = w ++ tail ∧ Stops tail ∧ words tail = ws ∧ w ≠ [] ∧
      ∀ x ∈ w, isSpace x = false := by
  have more : text.dropWhile isSpace ≠ [] := by
    intro blank
    rw [words_eq_nil_iff.mpr blank] at h
    cases h
  obtain ⟨v, tail, split, stops, nonempty, word⟩ := visible_split (visible_dropWhile more)
  rw [← words_dropWhile, split, words_append_stops nonempty word stops] at h
  obtain ⟨rfl, rfl⟩ := List.cons.inj h
  exact ⟨tail, split, stops, rfl, nonempty, word⟩

/-- Texts that are joined by white space. -/
theorem words_intercalate (blank : isSpace c = true) (lines : List (List Char)) :
    words ([c].intercalate lines) = lines.flatMap words := by
  induction lines with
  | nil => rfl
  | cons line lines ih =>
      cases lines with
      | nil => simp
      | cons next lines =>
          rw [List.intercalate_cons_cons, List.append_assoc, List.singleton_append,
            words_append_space _ _ blank, ih, ← List.flatMap_cons]

/-- The words of a text are those of its lines. -/
theorem words_lines (text : List Char) : words text = (text.splitOn '\n').flatMap words := by
  rw [← words_intercalate (c := '\n') rfl, List.intercalate_splitOn]

/-- Characters of a word in front of a text are at most one word more. -/
theorem length_words_append (word : ∀ x ∈ xs, isSpace x = false) (text : List Char) :
    (words (xs ++ text)).length ≤ (words text).length + 1 := by
  have split : text = text.takeWhile (fun c => !isSpace c) ++ text.dropWhile fun c => !isSpace c :=
    List.takeWhile_append_dropWhile.symm
  have front : ∀ x ∈ text.takeWhile fun c => !isSpace c, isSpace x = false := by
    intro x hx
    simpa using List.mem_takeWhile_imp hx
  have stops := dropWhile_stops text
  generalize text.takeWhile (fun c => !isSpace c) = v at split front
  generalize text.dropWhile (fun c => !isSpace c) = tail at split stops
  subst split
  have shorter : (words tail).length ≤ (words (v ++ tail)).length := by
    by_cases empty : v = []
    · rw [empty, List.nil_append]
    · rw [words_append_stops empty front stops]
      exact Nat.le_succ _
  by_cases empty : xs ++ v = []
  · obtain ⟨rfl, rfl⟩ := List.append_eq_nil_iff.mp empty
    exact Nat.le_succ _
  · have whole : ∀ x ∈ xs ++ v, isSpace x = false := by
      intro x hx
      rcases List.mem_append.mp hx with hx | hx
      · exact word x hx
      · exact front x hx
    rw [← List.append_assoc, words_append_stops empty whole stops]
    exact Nat.succ_le_succ shorter

end Words

/-! ### What a conversion takes -/

/-- `s'` is what is left of `s` after some characters that are no white space; the end-of-file
flag is not set before the end. -/
structure Takes (s s' : Input) : Prop where
  reads : ∃ xs, Reads s s' xs
  ended : (s.eof = true → s.rest = []) → s'.eof = true → s'.rest = []

theorem Takes.refl (s : Input) : Takes s s := ⟨⟨[], by simp [Reads]⟩, id⟩

theorem Takes.trans {s s' s'' : Input} (first : Takes s s') (second : Takes s' s'') : Takes s s'' := by
  obtain ⟨xs, reads⟩ := first.reads
  obtain ⟨ys, reads'⟩ := second.reads
  exact ⟨⟨xs ++ ys, reads.trans reads'⟩, fun ok => second.ended (first.ended ok)⟩

/-- The next character is read. -/
theorem Takes.cons {c : Char} {rest : List Char} {eof : Bool} (visible : isSpace c = false) :
    Takes ⟨c :: rest, eof⟩ ⟨rest, eof⟩ := by
  constructor
  · exact ⟨[c], rfl, fun x hx => List.mem_singleton.mp hx ▸ visible⟩
  · intro ok ended
    cases ok ended

section Takes

variable {p : Char → Bool} (visible : ∀ c, p c = true → isSpace c = false)

include visible in
theorem span_takes (s : Input) : Takes s (s.span p).2 := by
  obtain ⟨split, all⟩ := span_split p s
  constructor
  · exact ⟨(s.span p).1, split, fun x hx => visible x (all x hx)⟩
  · intro ok ended
    simp only [span, Bool.or_eq_true, List.isEmpty_iff] at ended ⊢
    rcases ended with ended | ended
    · rw [ok ended]
      rfl
    · exact ended

theorem sign_takes (s : Input) : Takes s s.sign.2 := by
  obtain ⟨rest, eof⟩ := s
  unfold sign
  split
  · next heq =>
    cases heq
    exact ⟨⟨[], by simp [Reads]⟩, fun _ _ => rfl⟩
  · next heq =>
    cases heq
    exact Takes.cons rfl
  · next heq =>
    cases heq
    exact Takes.cons rfl
  · exact Takes.refl _

include visible in
theorem scanDigits_takes {value : List Char → Nat} {negative : Bool} (s : Input) :
    Takes s (scanDigits p value negative s).2 :=
  span_takes visible s

theorem scanUnsigned_takes (negative : Bool) (s : Input) : Takes s (scanUnsigned negative s).2 := by
  obtain ⟨rest, eof⟩ := s
  unfold scanUnsigned
  split
  · next x tail heq =>
    cases heq
    split
    · next hex =>
      have second : isSpace x = false := by rcases hex with rfl | rfl <;> rfl
      exact ((Takes.cons rfl).trans (Takes.cons second)).trans
        (scanDigits_takes (fun c => isSpace_of_isHex) _)
    · exact scanDigits_takes (fun c => isSpace_of_isOctal) _
  · exact scanDigits_takes (fun c => isSpace_of_isOctal) _
  · exact scanDigits_takes (fun c => isSpace_of_isDigit) _

include visible in
theorem scanFraction_takes (s : Input) : Takes s (scanFraction p s).2 := by
  obtain ⟨rest, eof⟩ := s
  unfold scanFraction
  split
  · next heq =>
    cases heq
    exact (Takes.cons rfl).trans (span_takes visible _)
  · exact Takes.refl _

/-- A character whose lower case is visible is visible. -/
theorem isSpace_of_toLower {c l : Char} (visible : isSpace l = false) (same : c.toLower = l) :
    isSpace c = false := by
  by_contra blank
  have blank : isSpace c = true := by simpa using blank
  rw [toLower_of_isSpace blank] at same
  rw [same, visible] at blank
  cases blank

theorem scanExponent_takes {mark : Char} (letter : isSpace mark = false) (s : Input) :
    Takes s (scanExponent mark s).2 := by
  obtain ⟨rest, eof⟩ := s
  unfold scanExponent
  split
  · next c tail heq =>
    cases heq
    split
    · next marked =>
      exact ((Takes.cons (isSpace_of_toLower letter marked)).trans (sign_takes _)).trans
        (scanDigits_takes (fun c => isSpace_of_isDigit) _)
    · exact Takes.refl _
  · exact Takes.refl _

include visible in
theorem scanMantissa_takes {mark : Char} (letter : isSpace mark = false)
    {value : List Char → Nat → Int → Real10} (s : Input) : Takes s (scanMantissa p mark value s).2 := by
  have digits := (span_takes visible s).trans (scanFraction_takes visible _)
  unfold scanMantissa
  simp only
  split
  · exact digits
  · exact digits.trans (scanExponent_takes letter _)

theorem scanFinite_takes (negative : Bool) (s : Input) : Takes s (scanFinite negative s).2 := by
  obtain ⟨rest, eof⟩ := s
  have decimal : ∀ s, Takes s (scanMantissa Char.isDigit 'e' (decimalValue negative) s).2 :=
    scanMantissa_takes (fun c => isSpace_of_isDigit) rfl
  unfold scanFinite
  split
  · next x tail heq =>
    cases heq
    split
    · next hex =>
      exact ((Takes.cons rfl).trans (Takes.cons (isSpace_of_toLower rfl hex))).trans
        (scanMantissa_takes (fun c => isSpace_of_isHex) rfl _)
    · exact decimal _
  · exact decimal _

theorem spell_takes {ws : List Char} (letters : ∀ l ∈ ws, isSpace l = false) (s : Input) :
    Takes s (spell ws s).2 := by
  induction ws generalizing s with
  | nil => exact Takes.refl s
  | cons l ws ih =>
      obtain ⟨rest, eof⟩ := s
      cases rest with
      | nil => exact ⟨⟨[], by simp [spell, Reads]⟩, fun _ _ => rfl⟩
      | cons c rest =>
          simp only [spell]
          split
          · next same =>
            have visible := isSpace_of_toLower (letters l List.mem_cons_self) same
            exact (Takes.cons visible).trans (ih (fun x hx => letters x (List.mem_cons_of_mem _ hx)) _)
          · exact Takes.refl _

theorem scanInfinity_takes (negative : Bool) (s : Input) : Takes s (scanInfinity negative s).2 := by
  have letters : ∀ l ∈ ['i', 'n', 'f'], isSpace l = false := by simp [isSpace]
  have more : ∀ l ∈ ['i', 'n', 'i', 't', 'y'], isSpace l = false := by simp [isSpace]
  have first := spell_takes letters s
  unfold scanInfinity
  split
  · next t spelt =>
    rw [spelt] at first
    exact first
  · next t spelt =>
    rw [spelt] at first
    obtain ⟨rest, eof⟩ := t
    apply first.trans
    split
    · next heq =>
      cases heq
      exact ⟨⟨[], by simp [Reads]⟩, fun _ _ => rfl⟩
    · split
      · exact spell_takes more _
      · exact Takes.refl _

theorem isSpace_of_isNChar {c : Char} (h : isNChar c = true) : isSpace c = false := by
  cases hc : isSpace c with
  | false => rfl
  | true => rcases isSpace_cases hc with rfl | rfl | rfl | rfl | rfl | rfl <;> revert h <;> decide

theorem scanClosing_takes (s : Input) : Takes s (scanClosing s).2 := by
  obtain ⟨rest, eof⟩ := s
  unfold scanClosing
  split
  · next heq =>
    cases heq
    exact Takes.cons rfl
  · exact Takes.refl _

theorem scanNan_takes (s : Input) : Takes s (scanNan s).2 := by
  have letters : ∀ l ∈ ['n', 'a', 'n'], isSpace l = false := by simp [isSpace]
  have first := spell_takes letters s
  unfold scanNan
  split
  · next t spelt =>
    rw [spelt] at first
    exact first
  · next t spelt =>
    rw [spelt] at first
    obtain ⟨rest, eof⟩ := t
    apply first.trans
    split
    · next heq =>
      cases heq
      exact ⟨⟨[], by simp [Reads]⟩, fun _ _ => rfl⟩
    · next c rest heq =>
      cases heq
      split
      · next bracket =>
        subst bracket
        have opened : Takes ⟨'(' :: rest, eof⟩ ⟨rest, eof⟩ := Takes.cons rfl
        exact (opened.trans (span_takes (fun c => isSpace_of_isNChar) _)).trans (scanClosing_takes _)
      · exact Takes.refl _

theorem scanMagnitude_takes (negative : Bool) (s : Input) : Takes s (scanMagnitude negative s).2 := by
  unfold scanMagnitude
  split
  · exact scanInfinity_takes negative s
  · split
    · exact scanNan_takes s
    · exact scanFinite_takes negative s

theorem scanWord_takes (width : Option Nat) (s : Input) : Takes s.skipSpace (scanWord width s).2 := by
  unfold scanWord
  simp only
  split
  · exact Takes.refl _
  · exact span_takes (fun c h => by simpa using h) _
  · next n _ =>
    have prefixed : (s.skipSpace.rest.take n).takeWhile (fun c => !isSpace c) <+: s.skipSpace.rest :=
      (List.takeWhile_prefix _).trans (List.take_prefix _ _)
    constructor
    · refine ⟨_, (List.prefix_iff_eq_append.mp prefixed).symm, fun x hx => ?_⟩
      simpa using List.mem_takeWhile_imp hx
    · intro ok ended
      simp only [Bool.or_eq_true, Bool.and_eq_true, List.isEmpty_iff] at ended
      rcases ended with ended | ended
      · show List.drop _ s.skipSpace.rest = []
        rw [ok ended]
        exact List.drop_nil
      · exact ended.2

end Takes

/-! ### What a format consumes -/

/-- What is left is the end of the text, with at most `k` words less. -/
structure Consumes (k : Nat) (s s' : Input) : Prop where
  suffix : s'.rest <:+ s.rest
  ended : (s.eof = true → s.rest = []) → s'.eof = true → s'.rest = []
  words : (words s.rest).length ≤ (words s'.rest).length + k

theorem Consumes.refl (k : Nat) (s : Input) : Consumes k s s :=
  ⟨List.suffix_refl _, id, Nat.le_add_right _ _⟩

theorem Consumes.trans {k l : Nat} {s s' s'' : Input} (first : Consumes k s s')
    (second : Consumes l s' s'') : Consumes (k + l) s s'' := by
  constructor
  · exact second.suffix.trans first.suffix
  · exact fun ok => second.ended (first.ended ok)
  · have := first.words
    have := second.words
    omega

theorem Consumes.mono {k l : Nat} {s s' : Input} (h : Consumes k s s') (le : k ≤ l) : Consumes l s s' :=
  ⟨h.suffix, h.ended, Nat.le_trans h.words (Nat.add_le_add_left le _)⟩

theorem Takes.consumes {s s' : Input} (takes : Takes s s') : Consumes 1 s s' := by
  obtain ⟨xs, split, word⟩ := takes.reads
  constructor
  · exact ⟨xs, split.symm⟩
  · exact takes.ended
  · rw [split]
    exact length_words_append word _

theorem skipSpace_consumes (s : Input) : Consumes 0 s s.skipSpace := by
  constructor
  · exact List.dropWhile_suffix _
  · intro ok ended
    simp only [skipSpace, span, Bool.or_eq_true, List.isEmpty_iff] at ended ⊢
    rcases ended with ended | ended
    · rw [ok ended]
      rfl
    · exact ended
  · exact Nat.le_of_eq (congrArg List.length (words_dropWhile s.rest).symm)

/-- How many words a directive can use up. -/
def Directive.fields : Directive → Nat
  | .space => 0
  | _ => 1

theorem Directive.scan_consumes (d : Directive) (s : Input) : Consumes d.fields s (d.scan s).2 := by
  have skipped := skipSpace_consumes s
  have number : ∀ {t : Input}, Takes s.skipSpace t → Consumes 1 s t := fun takes =>
    (skipped.trans takes.consumes).mono (Nat.le_refl 1)
  cases d with
  | space => exact skipped
  | word width => exact number (scanWord_takes width s)
  | int => exact number ((sign_takes _).trans (scanUnsigned_takes _ _))
  | long => exact number ((sign_takes _).trans (scanUnsigned_takes _ _))
  | real => exact number ((sign_takes _).trans (scanMagnitude_takes _ _))

theorem scanf_consumes (ds : List Directive) (s : Input) :
    Consumes (ds.map Directive.fields).sum s (scanf ds s).2 := by
  induction ds generalizing s with
  | nil => exact Consumes.refl 0 s
  | cons d ds ih =>
      have first := d.scan_consumes s
      cases scanned : d.scan s with
      | mk r s' =>
          rw [scanned] at first
          cases r with
          | none =>
              rw [scanf_fail scanned]
              exact first.mono (by simp)
          | some v =>
              rw [scanf_cons ds scanned]
              simpa using first.trans (ih s')

/-! ### What is read of a word -/

/-- On a word, `f` does the same whether white space comes behind the word or nothing. -/
def Local {α : Type} (f : Input → α × Input) : Prop :=
  ∀ (w rest : List Char) (c : Char) (e e' : Bool), (∀ x ∈ w, isSpace x = false) → isSpace c = true →
    f ⟨w ++ c :: rest, e⟩ = ((f ⟨w, e'⟩).1, ⟨(f ⟨w, e'⟩).2.rest ++ c :: rest, e⟩)

section Local

variable {α β : Type} {f : Input → α × Input} {p : Char → Bool}

theorem Local.map (h : Local f) (g : α → β) : Local fun s => (g (f s).1, (f s).2) := by
  intro w rest c e e' word blank
  simp only [h w rest c e e' word blank]

theorem Local.pure (a : α) : Local fun s => (a, s) := fun _ _ _ _ _ _ _ => rfl

theorem Local.ite {g : Input → α × Input} (q : Prop) [Decidable q] (hf : Local f) (hg : Local g) :
    Local fun s => if q then f s else g s := by
  by_cases h : q
  · simpa only [if_pos h] using hf
  · simpa only [if_neg h] using hg

/-- One after the other. -/
theorem Local.bind {g : α → Input → β × Input} (hf : Local f) (takes : ∀ s, Takes s (f s).2)
    (hg : ∀ a, Local (g a)) : Local fun s => g (f s).1 (f s).2 := by
  intro w rest c e e' word blank
  obtain ⟨xs, split, -⟩ := (takes ⟨w, e'⟩).reads
  have left : ∀ x ∈ (f ⟨w, e'⟩).2.rest, isSpace x = false := by
    intro x hx
    have member : x ∈ (⟨w, e'⟩ : Input).rest := by
      rw [split]
      exact List.mem_append_right _ hx
    exact word x member
  simp only [hf w rest c e e' word blank]
  exact hg _ _ rest c e (f ⟨w, e'⟩).2.eof left blank

variable (visible : ∀ c, p c = true → isSpace c = false)

include visible in
theorem span_local : Local (span p) := by
  intro w rest c e e' word blank
  have stop : p c = false := by
    by_contra h
    rw [visible c (by simpa using h)] at blank
    cases blank
  have split : w = w.takeWhile p ++ w.dropWhile p := List.takeWhile_append_dropWhile.symm
  have taken : ∀ x ∈ w.takeWhile p, p x = true := fun x hx => List.mem_takeWhile_imp hx
  cases left : w.dropWhile p with
  | nil =>
      rw [left, List.append_nil] at split
      rw [← split] at taken
      rw [span_append taken stop]
      simp [span, left, ← split]
  | cons d ds =>
      have stop' : p d = false := by
        have head := List.head?_dropWhile_not p w
        rw [left] at head
        simpa using head
      have text : w ++ c :: rest = w.takeWhile p ++ d :: (ds ++ c :: rest) := by
        rw [left] at split
        calc w ++ c :: rest = (w.takeWhile p ++ d :: ds) ++ c :: rest := by rw [← split]
          _ = w.takeWhile p ++ d :: (ds ++ c :: rest) := by simp
      rw [text, span_append taken stop']
      simp [span, left]

theorem sign_local : Local sign := by
  intro w rest c e e' word blank
  cases w with
  | nil => rcases isSpace_cases blank with rfl | rfl | rfl | rfl | rfl | rfl <;> rfl
  | cons x w =>
      by_cases minus : x = '-'
      · rw [minus]
        rfl
      · by_cases plus : x = '+'
        · rw [plus]
          rfl
        · simp [sign, minus, plus]

include visible in
theorem scanDigits_local {value : List Char → Nat} {negative : Bool} :
    Local (scanDigits p value negative) :=
  (span_local visible).map fun ds => if ds = [] then none else some (signed negative (value ds))

theorem scanUnsigned_other {negative : Bool} {s : Input} (other : s.rest.head? ≠ some '0') :
    scanUnsigned negative s = scanDigits Char.isDigit (Nat.ofDigitChars 10 · 0) negative s := by
  unfold scanUnsigned
  split
  · next heq => simp [heq] at other
  · next heq => simp [heq] at other
  · rfl

/-- A blank is none of the letters a number can have. -/
theorem ne_of_blank {c l : Char} (blank : isSpace c = true) (letter : isSpace l = false) : c ≠ l := by
  rintro rfl
  rw [blank] at letter
  cases letter

/-- A number whose base depends on whether it begins with `0` and a mark. -/
theorem local_prefixed {g h : Input → α × Input} (mark : Char → Prop) [DecidablePred mark]
    (unmarked : ∀ c, isSpace c = true → ¬ mark c) (hg : Local g) (hh : Local h)
    {k : Input → α × Input} (hk : Local k)
    (zero : ∀ x rest e, f ⟨'0' :: x :: rest, e⟩ =
      if mark x then g ⟨rest, e⟩ else h ⟨'0' :: x :: rest, e⟩)
    (alone : ∀ e, f ⟨['0'], e⟩ = h ⟨['0'], e⟩)
    (other : ∀ s : Input, s.rest.head? ≠ some '0' → f s = k s) : Local f := by
  intro w rest c e e' word blank
  by_cases first : w.head? = some '0'
  · obtain ⟨w, rfl⟩ := List.head?_eq_some_iff.mp first
    cases w with
    | nil =>
        rw [List.singleton_append, zero, if_neg (unmarked c blank), alone]
        exact hh ['0'] rest c e e' word blank
    | cons x w =>
        rw [List.cons_append, List.cons_append, zero, zero]
        by_cases marked : mark x
        · rw [if_pos marked, if_pos marked]
          exact hg w rest c e e' (fun y hy => word y (by simp [hy])) blank
        · rw [if_neg marked, if_neg marked]
          exact hh ('0' :: x :: w) rest c e e' word blank
  · have notZero : c ≠ '0' := ne_of_blank blank rfl
    have behind : (w ++ c :: rest).head? ≠ some '0' := by
      cases w with
      | nil => simpa using notZero
      | cons x w => simpa using first
    rw [other _ behind, other _ first]
    exact hk w rest c e e' word blank

theorem scanUnsigned_local (negative : Bool) : Local (scanUnsigned negative) := by
  have decimal : Local (scanDigits Char.isDigit (Nat.ofDigitChars 10 · 0) negative) :=
    scanDigits_local fun c => isSpace_of_isDigit
  have octal : Local (scanDigits isOctal (Nat.ofDigitChars 8 · 0) negative) :=
    scanDigits_local fun c => isSpace_of_isOctal
  have hexadecimal : Local (scanDigits isHex hexNumber negative) :=
    scanDigits_local fun c => isSpace_of_isHex
  apply local_prefixed (fun x => x = 'x' ∨ x = 'X') _ hexadecimal octal decimal
  · exact fun _ _ _ => rfl
  · exact fun _ => rfl
  · exact fun _ => scanUnsigned_other
  · rintro c blank (h | h)
    · exact ne_of_blank blank rfl h
    · exact ne_of_blank blank rfl h

include visible in
theorem scanFraction_local : Local (scanFraction p) := by
  intro w rest c e e' word blank
  have notPoint : c ≠ '.' := ne_of_blank blank rfl
  cases w with
  | nil => simp [scanFraction, notPoint]
  | cons x w =>
      by_cases point : x = '.'
      · rw [point]
        exact span_local visible w rest c e e' (fun y hy => word y (by simp [hy])) blank
      · simp [scanFraction, point]

theorem scanExponent_local {mark : Char} (letter : isSpace mark = false) : Local (scanExponent mark) := by
  intro w rest c e e' word blank
  cases w with
  | nil =>
      have other : c.toLower ≠ mark := by
        rw [toLower_of_isSpace blank]
        exact ne_of_blank blank letter
      simp [scanExponent, other]
  | cons x w =>
      have digits : Local fun s => scanDigits Char.isDigit (Nat.ofDigitChars 10 · 0) s.sign.1 s.sign.2 :=
        sign_local.bind sign_takes fun _ => scanDigits_local fun c => isSpace_of_isDigit
      by_cases marked : x.toLower = mark
      · simp only [scanExponent, List.cons_append, marked, if_true]
        exact digits w rest c e e' (fun y hy => word y (by simp [hy])) blank
      · simp [scanExponent, marked]

include visible in
theorem scanMantissa_local {mark : Char} (letter : isSpace mark = false)
    {value : List Char → Nat → Int → Real10} : Local (scanMantissa p mark value) := by
  have exponent : ∀ whole fraction : List Char, Local fun s =>
      if whole ++ fraction = [] then (none, s)
      else (((scanExponent mark s).1.map fun e => Number.finite (value (whole ++ fraction)
        fraction.length e)), (scanExponent mark s).2) := by
    intro whole fraction
    exact Local.ite _ (Local.pure none) ((scanExponent_local letter).map _)
  exact (span_local visible).bind (span_takes visible) fun whole =>
    (scanFraction_local visible).bind (scanFraction_takes visible) (exponent whole)

theorem scanFinite_other {negative : Bool} {s : Input} (other : s.rest.head? ≠ some '0') :
    scanFinite negative s = scanMantissa Char.isDigit 'e' (decimalValue negative) s := by
  unfold scanFinite
  split
  · next heq => simp [heq] at other
  · rfl

theorem scanFinite_local (negative : Bool) : Local (scanFinite negative) := by
  have decimal : Local (scanMantissa Char.isDigit 'e' (decimalValue negative)) :=
    scanMantissa_local (fun c => isSpace_of_isDigit) rfl
  have hexadecimal : Local (scanMantissa isHex 'p' (hexadecimalValue negative)) :=
    scanMantissa_local (fun c => isSpace_of_isHex) rfl
  apply local_prefixed (fun x => x.toLower = 'x') _ hexadecimal decimal decimal
  · exact fun _ _ _ => rfl
  · exact fun _ => rfl
  · exact fun _ => scanFinite_other
  · intro c blank
    rw [toLower_of_isSpace blank]
    exact ne_of_blank blank rfl

theorem spell_local {ws : List Char} (letters : ∀ l ∈ ws, isSpace l = false) : Local (spell ws) := by
  induction ws with
  | nil => exact Local.pure true
  | cons l ws ih =>
      intro w rest c e e' word blank
      cases w with
      | nil =>
          have other : c.toLower ≠ l := by
            rw [toLower_of_isSpace blank]
            exact ne_of_blank blank (letters l List.mem_cons_self)
          simp [spell, other]
      | cons x w =>
          by_cases same : x.toLower = l
          · simp only [spell, List.cons_append, same, if_true]
            exact ih (fun y hy => letters y (List.mem_cons_of_mem _ hy)) w rest c e e'
              (fun y hy => word y (by simp [hy])) blank
          · simp [spell, same]

/-- What follows a word that is spelt out. -/
theorem spell_then_local {ws : List Char} (letters : ∀ l ∈ ws, isSpace l = false)
    {g : Input → Option Number × Input} (hg : Local g) :
    Local fun s => match spell ws s with
      | (false, s) => (none, s)
      | (true, s) => g s := by
  have rest : ∀ whole : Bool, Local fun s => if whole = true then g s else (none, s) := fun _ =>
    Local.ite _ hg (Local.pure none)
  have both := (spell_local letters).bind (spell_takes letters) rest
  have same : (fun s => match spell ws s with
      | (false, s) => (none, s)
      | (true, s) => g s) = fun s => if (spell ws s).1 = true then g (spell ws s).2
        else (none, (spell ws s).2) := by
    funext s
    rcases spell ws s with ⟨whole, t⟩
    cases whole <;> rfl
  rw [same]
  exact both

theorem scanInfinity_local (negative : Bool) : Local (scanInfinity negative) := by
  have letters : ∀ l ∈ ['i', 'n', 'f'], isSpace l = false := by simp [isSpace]
  have more : ∀ l ∈ ['i', 'n', 'i', 't', 'y'], isSpace l = false := by simp [isSpace]
  apply spell_then_local letters
  intro w rest c e e' word blank
  cases w with
  | nil =>
      have other : c.toLower ≠ 'i' := by
        rw [toLower_of_isSpace blank]
        exact ne_of_blank blank rfl
      simp [other]
  | cons x w =>
      have longer : Local fun s => ((if (spell ['i', 'n', 'i', 't', 'y'] s).1 = true then
          some (Number.infinity negative) else none), (spell ['i', 'n', 'i', 't', 'y'] s).2) :=
        (spell_local more).map fun whole => if whole = true then some (Number.infinity negative) else none
      by_cases goes : x.toLower = 'i'
      · simp only [List.cons_append, goes, if_true]
        exact longer (x :: w) rest c e e' word blank
      · simp [goes]

theorem scanClosing_local : Local scanClosing := by
  intro w rest c e e' word blank
  have other : c ≠ ')' := ne_of_blank blank rfl
  cases w with
  | nil => simp [scanClosing, other]
  | cons x w =>
      by_cases closes : x = ')'
      · rw [closes]
        rfl
      · simp [scanClosing, closes]

theorem scanNan_local : Local scanNan := by
  have letters : ∀ l ∈ ['n', 'a', 'n'], isSpace l = false := by simp [isSpace]
  apply spell_then_local letters
  intro w rest c e e' word blank
  cases w with
  | nil =>
      have other : c ≠ '(' := ne_of_blank blank rfl
      simp [other]
  | cons x w =>
      by_cases opens : x = '('
      · simp only [List.cons_append, opens, if_true]
        exact ((span_local fun c => isSpace_of_isNChar).bind
          (span_takes fun c => isSpace_of_isNChar) fun _ => scanClosing_local) w rest c e e'
          (fun y hy => word y (by simp [hy])) blank
      · simp [opens]

theorem scanMagnitude_local (negative : Bool) : Local (scanMagnitude negative) := by
  intro w rest c e e' word blank
  cases w with
  | nil =>
      have other : ∀ l : Char, isSpace l = false → (some c).map Char.toLower ≠ some l := by
        intro l letter
        rw [Option.map_some, toLower_of_isSpace blank]
        simpa using ne_of_blank blank letter
      have behind : scanMagnitude negative ⟨c :: rest, e⟩ = scanFinite negative ⟨c :: rest, e⟩ :=
        (if_neg (other 'i' rfl)).trans (if_neg (other 'n' rfl))
      have alone : scanMagnitude negative ⟨[], e'⟩ = scanFinite negative ⟨[], e'⟩ := rfl
      rw [List.nil_append, behind, alone]
      exact scanFinite_local negative [] rest c e e' word blank
  | cons x w =>
      have chosen : Local fun s => if (some x).map Char.toLower = some 'i' then scanInfinity negative s
          else if (some x).map Char.toLower = some 'n' then scanNan s else scanFinite negative s :=
        Local.ite _ (scanInfinity_local negative) (Local.ite _ scanNan_local (scanFinite_local negative))
      exact chosen (x :: w) rest c e e' word blank

/-- What is read of a word does not depend on the end-of-file flag. -/
theorem Local.eof (h : Local f) {w : List Char} (word : ∀ x ∈ w, isSpace x = false) (e e' : Bool) :
    (f ⟨w, e⟩).1 = (f ⟨w, e'⟩).1 ∧ (f ⟨w, e⟩).2.rest = (f ⟨w, e'⟩).2.rest := by
  have blank : isSpace ' ' = true := rfl
  have both := (h w [] ' ' false e word blank).symm.trans (h w [] ' ' false e' word blank)
  simp only [Prod.mk.injEq, Input.mk.injEq, and_true, List.append_cancel_right_eq] at both
  exact both

end Local

/-! ### Whole words -/

/-- The value of a word that a conversion reads whole. -/
def Directive.whole (d : Directive) (w : List Char) : Option Value :=
  match d.scan ⟨w, false⟩ with
  | (some v, s) => if s.rest = [] then v else none
  | _ => none

/-- The values of some words, one for each conversion. -/
def readFields : List Directive → List (List Char) → Option (List Value)
  | [], [] => some []
  | d :: ds, w :: ws => (d.whole w).bind fun v => (readFields ds ws).map (v :: ·)
  | _, _ => none

section Whole

variable {d : Directive} {s : Input} {w tail : List Char} {e : Bool}

/-- A conversion begins with the white space. -/
theorem Directive.scan_skipSpace (field : d ≠ .space) (s : Input) : d.scan s.skipSpace = d.scan s := by
  cases d with
  | space => exact absurd rfl field
  | word width => simp only [Directive.scan, scanWord, skipSpace_idem]
  | int => simp only [Directive.scan, scanInt, skipSpace_idem]
  | long => simp only [Directive.scan, scanLong, scanInt, skipSpace_idem]
  | real => simp only [Directive.scan, scanReal, skipSpace_idem]

/-- A conversion that is `f` behind the white space. -/
theorem local_behind {f g : Input → Option (Option Value) × Input} (loc : Local f)
    (skips : ∀ s, g s = f s.skipSpace) (nonempty : w ≠ []) (word : ∀ x ∈ w, isSpace x = false)
    (stops : Stops tail) :
    ∃ e', g ⟨w ++ tail, e⟩ = ((g ⟨w, false⟩).1, ⟨(g ⟨w, false⟩).2.rest ++ tail, e'⟩) := by
  have visible := visible_word nonempty word
  rw [skips, skips, skipSpace_visible (visible.append tail), skipSpace_visible visible]
  cases tail with
  | nil =>
      obtain ⟨value, rest⟩ := loc.eof word e false
      refine ⟨(f ⟨w, e⟩).2.eof, ?_⟩
      rw [List.append_nil, List.append_nil, ← value, ← rest]
  | cons c tail => exact ⟨e, loc w tail c e false word (stops c rfl)⟩

/-- Of a word `%s` reads as much as the field width allows. -/
theorem scanWord_taken (width : Option Nat) (nonempty : w ≠ []) (word : ∀ x ∈ w, isSpace x = false)
    (stops : Stops tail) :
    ∃ e', scanWord width ⟨w ++ tail, e⟩ =
      (some (w.take (width.getD w.length)), ⟨w.drop (width.getD w.length) ++ tail, e'⟩) := by
  have start : skipSpace ⟨w ++ tail, e⟩ = ⟨w ++ tail, e⟩ :=
    skipSpace_visible ((visible_word nonempty word).append tail)
  obtain ⟨x, w, rfl⟩ := List.exists_cons_of_ne_nil nonempty
  cases width with
  | none =>
      have read : ∃ e', span (fun c => !isSpace c) ⟨x :: w ++ tail, e⟩ = (x :: w, ⟨tail, e'⟩) := by
        cases tail with
        | nil =>
            have whole : (x :: w).takeWhile (fun c => !isSpace c) = x :: w :=
              List.takeWhile_eq_self_iff.mpr fun y hy => by simp [word y hy]
            have empty : (x :: w).dropWhile (fun c => !isSpace c) = [] :=
              List.dropWhile_eq_nil_iff.mpr fun y hy => by simp [word y hy]
            exact ⟨_, by rw [List.append_nil, span, whole, empty]⟩
        | cons c tail =>
            exact ⟨e, span_append (fun y hy => by simp [word y hy]) (by simp [stops c rfl])⟩
      obtain ⟨e', read⟩ := read
      refine ⟨e', ?_⟩
      simp only [scanWord, start]
      simp only [List.cons_append] at read ⊢
      rw [read]
      simp
  | some n =>
      have taken : ((x :: w ++ tail).take n).takeWhile (fun c => !isSpace c) = (x :: w).take n := by
        cases tail with
        | nil =>
            rw [List.append_nil]
            exact List.takeWhile_eq_self_iff.mpr fun y hy => by simp [word y (List.mem_of_mem_take hy)]
        | cons c tail => exact takeWhile_take_word tail n word (stops c rfl)
      have left : (x :: w ++ tail).drop ((x :: w).take n).length = (x :: w).drop n ++ tail := by
        rw [List.length_take, List.drop_append_of_le_length (Nat.min_le_right _ _)]
        congr 1
        rcases Nat.le_total n (x :: w).length with fits | long
        · rw [Nat.min_eq_left fits]
        · rw [Nat.min_eq_right long, List.drop_length, List.drop_of_length_le long]
      simp only [scanWord, start, Option.getD_some]
      simp only [List.cons_append] at taken left ⊢
      rw [taken, left]
      exact ⟨_, rfl⟩

/-- `%s` can only fail at the end of the text. -/
theorem scanWord_none {width : Option Nat} (none : (scanWord width s).1 = none) :
    (scanWord width s).2.eof = true ∧ s.rest.dropWhile isSpace = [] := by
  unfold scanWord at none ⊢
  simp only at none ⊢
  split at none
  · next blank =>
    have ended : s.rest.dropWhile isSpace = [] := blank
    refine ⟨?_, ended⟩
    simp [skipSpace, span, ended]
  · cases none
  · cases none

/-- `%s` with a field width that succeeds reads a character. -/
theorem scanWord_shorter {n : Nat} (pos : 0 < n) (read : (scanWord (some n) s).1 ≠ none) :
    (scanWord (some n) s).2.rest.length < s.rest.length := by
  have more : s.rest.dropWhile isSpace ≠ [] := by
    intro blank
    have start : s.skipSpace.rest = [] := blank
    simp [scanWord, start] at read
  obtain ⟨w, tail, split, stops, nonempty, word⟩ := visible_split (visible_dropWhile more)
  have skipped : s.skipSpace = ⟨w ++ tail, s.skipSpace.eof⟩ := Input.ext split rfl
  obtain ⟨e, taken⟩ := @scanWord_taken w tail s.skipSpace.eof (some n) nonempty word stops
  have same : scanWord (some n) s = scanWord (some n) s.skipSpace := by
    simp only [scanWord, skipSpace_idem]
  have shorter := (List.dropWhile_suffix (l := s.rest) isSpace).length_le
  have positive := List.length_pos_iff.mpr nonempty
  rw [split, List.length_append] at shorter
  rw [same, skipped, taken]
  simp only [Option.getD_some, List.length_append, List.length_drop]
  omega

/-- Of a word with more text behind it a conversion reads what it reads of the word alone. -/
theorem Directive.scan_behind (field : d ≠ .space) (nonempty : w ≠ [])
    (word : ∀ x ∈ w, isSpace x = false) (stops : Stops tail) :
    ∃ e', d.scan ⟨w ++ tail, e⟩ =
      ((d.scan ⟨w, false⟩).1, ⟨(d.scan ⟨w, false⟩).2.rest ++ tail, e'⟩) := by
  cases d with
  | space => exact absurd rfl field
  | word width =>
      obtain ⟨e', read⟩ := @scanWord_taken w tail e width nonempty word stops
      obtain ⟨e'', alone⟩ := @scanWord_taken w [] false width nonempty word (by simp [Stops])
      rw [List.append_nil, List.append_nil] at alone
      refine ⟨e', ?_⟩
      simp only [Directive.scan, read, alone]
  | int =>
      have loc : Local fun s => scanUnsigned s.sign.1 s.sign.2 :=
        sign_local.bind sign_takes scanUnsigned_local
      exact local_behind (loc.map fun r => r.map fun n => some (Value.int n)) (fun _ => rfl) nonempty word
        stops
  | long =>
      have loc : Local fun s => scanUnsigned s.sign.1 s.sign.2 :=
        sign_local.bind sign_takes scanUnsigned_local
      exact local_behind (loc.map fun r => r.map fun n => some (Value.int n)) (fun _ => rfl) nonempty word
        stops
  | real =>
      have loc : Local fun s => scanMagnitude s.sign.1 s.sign.2 :=
        sign_local.bind sign_takes scanMagnitude_local
      exact local_behind (loc.map fun r => r.map fun x => some (Value.real x)) (fun _ => rfl) nonempty word
        stops

/-- A conversion that stops at the white space behind a word reads the word whole. -/
theorem Directive.whole_of_scan {v : Value} {c : Char} (field : d ≠ .space) (nonempty : w ≠ [])
    (word : ∀ x ∈ w, isSpace x = false) (blank : isSpace c = true)
    (read : d.scan ⟨w ++ [c], false⟩ = (some (some v), ⟨[c], false⟩)) : d.whole w = some v := by
  have stops : Stops [c] := by simp [Stops, blank]
  obtain ⟨e, behind⟩ := @Directive.scan_behind d w [c] false field nonempty word stops
  rw [behind] at read
  cases alone : d.scan ⟨w, false⟩ with
  | mk r t =>
      rw [alone] at read
      obtain ⟨rfl, left⟩ := Prod.mk.inj read
      have ended : t.rest = [] := by simpa using congrArg Input.rest left
      simp [Directive.whole, alone, ended]

theorem Directive.whole_word {width : Option Nat} (fits : ∀ n ∈ width, w.length ≤ n) (nonempty : w ≠ [])
    (word : ∀ x ∈ w, isSpace x = false) : Directive.whole (.word width) w = some (.word w) := by
  have all : w.length ≤ width.getD w.length := by
    cases width with
    | none => exact Nat.le_refl _
    | some n => exact fits n rfl
  obtain ⟨e, read⟩ := @scanWord_taken w [] false width nonempty word (by simp [Stops])
  rw [List.append_nil, List.append_nil, List.take_of_length_le all, List.drop_of_length_le all] at read
  simp [Directive.whole, Directive.scan, read]

theorem Directive.whole_int (n : Int) : Directive.int.whole (printInt n) = some (.int n) := by
  have start := @skipSpace_visible _ false ((visible_printInt n).append [' '])
  exact Directive.whole_of_scan (by simp) (visible_printInt n).ne_nil printInt_no_space rfl
    (Directive.scan_int (scanInt_print start rfl))

theorem Directive.whole_long (n : Int) : Directive.long.whole (printInt n) = some (.int n) := by
  have start := @skipSpace_visible _ false ((visible_printInt n).append [' '])
  exact Directive.whole_of_scan (by simp) (visible_printInt n).ne_nil printInt_no_space rfl
    (Directive.scan_long (scanLong_print start rfl))

/-- A conversion that reads the next word whole. -/
theorem Directive.scan_next {v : Value} {ws : List (List Char)} (text : words s.rest = w :: ws)
    (whole : d.whole w = some v) :
    ∃ s', d.scan s = (some (some v), s') ∧ words s'.rest = ws ∧ Stops s'.rest := by
  obtain ⟨tail, start, stops, rfl, nonempty, word⟩ := words_eq_cons text
  have field : d ≠ .space := by
    rintro rfl
    simp [Directive.whole, Directive.scan] at whole
  have skipped : s.skipSpace = ⟨w ++ tail, s.skipSpace.eof⟩ := Input.ext start rfl
  obtain ⟨e, read⟩ := @Directive.scan_behind d w tail s.skipSpace.eof field nonempty word stops
  rw [← skipped, Directive.scan_skipSpace field] at read
  unfold Directive.whole at whole
  split at whole
  · next v' t alone =>
    split at whole
    · next ended =>
      subst whole
      rw [alone, ended] at read
      exact ⟨⟨tail, e⟩, read, rfl, stops⟩
    · cases whole
  · cases whole

theorem length_readFields {ds : List Directive} {ws : List (List Char)} {vs : List Value}
    (read : readFields ds ws = some vs) : ws.length = ds.length := by
  induction ds generalizing ws vs with
  | nil =>
      cases ws with
      | nil => rfl
      | cons w ws => cases read
  | cons d ds ih =>
      cases ws with
      | nil => cases read
      | cons w ws =>
          obtain ⟨v, -, read⟩ := Option.bind_eq_some_iff.mp read
          obtain ⟨vs, rest, -⟩ := Option.map_eq_some_iff.mp read
          exact congrArg Nat.succ (ih rest)

/-- Conversions that each read a word whole, with white space behind each. -/
theorem scanf_fields {ds : List Directive} {ws more : List (List Char)} {vs : List Value}
    (read : readFields ds ws = some vs) (text : words s.rest = ws ++ more) :
    ∃ s', scanf (ds.flatMap fun d => [d, .space]) s = (vs, s') ∧ words s'.rest = more ∧
      (ds ≠ [] → more = [] → s'.eof = true) := by
  induction ds generalizing ws vs s with
  | nil =>
      cases ws with
      | nil =>
          cases read
          exact ⟨s, rfl, text, fun none => absurd rfl none⟩
      | cons w ws => cases read
  | cons d ds ih =>
      cases ws with
      | nil => cases read
      | cons w ws =>
          obtain ⟨v, whole, read⟩ := Option.bind_eq_some_iff.mp read
          obtain ⟨vs, rest, rfl⟩ := Option.map_eq_some_iff.mp read
          obtain ⟨t, scanned, left, -⟩ := Directive.scan_next text whole
          have skipped : words t.skipSpace.rest = ws ++ more := (words_dropWhile t.rest).trans left
          obtain ⟨s', others, behind, ended⟩ := ih rest skipped
          refine ⟨s', ?_, behind, fun _ none => ?_⟩
          · have space : Directive.space.scan t = (some none, t.skipSpace) := rfl
            rw [List.flatMap_cons, List.cons_append, List.singleton_append, scanf_cons _ scanned,
              scanf_cons _ space, others]
            rfl
          · by_cases last : ds = []
            · subst last
              cases others
              have blank : t.rest.dropWhile isSpace = [] :=
                words_eq_nil_iff.mp ((words_dropWhile t.rest).symm.trans (behind.trans none))
              simp [skipSpace, span, blank]
            · exact ended last none

end Whole

end Scan
