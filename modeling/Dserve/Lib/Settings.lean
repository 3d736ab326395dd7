import Dserve.Lib.Scan

/-!
Files of `key=value` lines, read through a buffer.

`search` takes pieces of at most `n` characters off a text, as `fgets` does, and stops at the
first that contains a name anywhere. In a file of settings a piece that is found need not be
the setting's own line: the name may occur in the value of a line before it. `source` is the
first line with the key or with the key in its value; `finds_source` says that `search` finds
it, if what it finds fits the buffer. `Kept` is when the line that is found has the value that
the setting's own line has, and `kept_of_reads` that a setting whose value is read back is
kept.
-/

namespace Settings

open Scan

/-! ### Lines -/

/-- `fgets` into a buffer for `n` characters and the terminator. -/
def fgets : Nat → Input → List Char × Input
  | 0, s => ([], s)
  | n + 1, s =>
      match s.rest with
      | [] => ([], ⟨[], true⟩)
      | c :: rest =>
          if c = '\n' then ([c], ⟨rest, s.eof⟩)
          else
            let (line, s) := fgets n ⟨rest, s.eof⟩
            (c :: line, s)

/-- Pieces are taken until one contains the name, leading white space apart. -/
def search (n : Nat) (name : List Char) : Nat → Input → Option (Option (List Char))
  | fuel, s =>
      if s.eof then some none
      else match fuel with
        | 0 => none
        | fuel + 1 =>
            let (line, s) := fgets n s
            let line := line.dropWhile isSpace
            if name <:+: line then some (some line) else search n name fuel s

/-- What a search of the text finds, with fuel for every character. -/
def Finds (n : Nat) (name text : List Char) (result : Option (List Char)) : Prop :=
  ∀ fuel, text.length < fuel → search n name fuel ⟨text, false⟩ = some result

section

variable {n : Nat} {name l rest v p : List Char} {eof : Bool} {result : Option (List Char)}

theorem fgets_split (n : Nat) (s : Input) : (fgets n s).1 ++ (fgets n s).2.rest = s.rest := by
  induction n generalizing s with
  | zero => rfl
  | succ n ih =>
      obtain ⟨rest, eof⟩ := s
      cases rest with
      | nil => rfl
      | cons c rest =>
          simp only [fgets]
          split
          · rfl
          · exact congrArg (c :: ·) (ih ⟨rest, eof⟩)

theorem fgets_length (n : Nat) (s : Input) : (fgets n s).1.length ≤ n := by
  induction n generalizing s with
  | zero => exact Nat.le_refl 0
  | succ n ih =>
      obtain ⟨rest, eof⟩ := s
      cases rest with
      | nil => exact Nat.zero_le _
      | cons c rest =>
          simp only [fgets]
          split
          · exact Nat.succ_le_succ (Nat.zero_le n)
          · exact Nat.succ_le_succ (ih ⟨rest, eof⟩)

/-- A line that the buffer holds. -/
theorem fgets_short (line : '\n' ∉ l) (short : l.length < n) :
    fgets n ⟨l ++ '\n' :: rest, eof⟩ = (l ++ ['\n'], ⟨rest, eof⟩) := by
  induction l generalizing n with
  | nil =>
      obtain ⟨n, rfl⟩ := Nat.exists_eq_succ_of_ne_zero (Nat.ne_of_gt short)
      rfl
  | cons c l ih =>
      obtain ⟨n, rfl⟩ := Nat.exists_eq_succ_of_ne_zero (Nat.ne_of_gt (Nat.zero_lt_of_lt short))
      have other : c ≠ '\n' := fun same => line (same ▸ List.mem_cons_self)
      simp only [fgets, List.cons_append, if_neg other,
        ih (fun h => line (List.mem_cons_of_mem c h)) (Nat.lt_of_succ_lt_succ short)]

/-- The first piece of a line that it does not hold. -/
theorem fgets_long (line : '\n' ∉ l) (long : n ≤ l.length) :
    fgets n ⟨l ++ rest, eof⟩ = (l.take n, ⟨l.drop n ++ rest, eof⟩) := by
  induction n generalizing l with
  | zero => rfl
  | succ n ih =>
      cases l with
      | nil => cases long
      | cons c l =>
          have other : c ≠ '\n' := fun same => line (same ▸ List.mem_cons_self)
          simp only [fgets, List.cons_append, if_neg other,
            ih (fun h => line (List.mem_cons_of_mem c h)) (Nat.le_of_succ_le_succ long),
            List.take_succ_cons, List.drop_succ_cons]

/-- A name without a newline does not reach past a line. -/
theorem infix_line (clean : '\n' ∉ name) (inside : name <:+: l ++ ['\n']) : name <:+: l := by
  obtain ⟨before, after, eq⟩ := inside
  cases after using List.reverseRecOn with
  | nil =>
      cases name using List.reverseRecOn with
      | nil => exact List.nil_infix
      | append_singleton name c =>
          rw [List.append_nil, ← List.append_assoc] at eq
          have last : c = '\n' := by simpa using (List.append_inj_right' eq rfl)
          exact absurd (by simp [last]) clean
  | append_singleton after c =>
      rw [← List.append_assoc] at eq
      exact ⟨before, after, List.append_inj_left' eq rfl⟩

/-- A line that does not contain the name is passed over, whatever its length. -/
theorem Finds.skip (room : 0 < n) (clean : '\n' ∉ name) (line : '\n' ∉ l)
    (apart : ¬ name <:+: l) (found : Finds n name rest result) :
    Finds n name (l ++ '\n' :: rest) result := by
  intro fuel enough
  induction length : l.length using Nat.strongRecOn generalizing l fuel with
  | ind k ih =>
      subst length
      obtain ⟨fuel, rfl⟩ := Nat.exists_eq_succ_of_ne_zero (Nat.ne_of_gt (Nat.zero_lt_of_lt enough))
      rw [search, if_neg Bool.false_ne_true]
      by_cases short : l.length < n
      · have other : ¬ name <:+: (l ++ ['\n']).dropWhile isSpace := fun inside =>
          apart (infix_line clean (inside.trans (List.dropWhile_suffix _).isInfix))
        simp only [fgets_short line short, if_neg other]
        apply found
        simp only [List.length_append, List.length_cons] at enough
        omega
      · have long : n ≤ l.length := Nat.le_of_not_lt short
        have other : ¬ name <:+: (l.take n).dropWhile isSpace := fun inside =>
          apart (inside.trans ((List.dropWhile_suffix _).isInfix.trans (List.take_prefix n l).isInfix))
        simp only [fgets_long line long, if_neg other]
        apply ih (l.drop n).length _ (fun h => line (List.mem_of_mem_drop h))
          (fun inside => apart (inside.trans (List.drop_suffix n l).isInfix)) fuel _ rfl
        · rw [List.length_drop]
          omega
        · simp only [List.length_append, List.length_drop, List.length_cons] at enough ⊢
          omega

/-- A line with the name in its first piece is found. -/
theorem Finds.hit (visible : Visible l) (room : 0 < n) (line : '\n' ∉ l)
    (inside : name <:+: l.take n) :
    Finds n name (l ++ '\n' :: rest) (some ((l ++ ['\n']).take n)) := by
  intro fuel enough
  obtain ⟨fuel, rfl⟩ := Nat.exists_eq_succ_of_ne_zero (Nat.ne_of_gt (Nat.zero_lt_of_lt enough))
  obtain ⟨n, rfl⟩ := Nat.exists_eq_succ_of_ne_zero (Nat.ne_of_gt room)
  obtain ⟨c, l, rfl, shown⟩ := visible
  have piece : ∃ s, fgets (n + 1) ⟨c :: l ++ '\n' :: rest, false⟩ = ((c :: l ++ ['\n']).take (n + 1), s) := by
    by_cases short : (c :: l).length < n + 1
    · refine ⟨_, (fgets_short line short).trans (congrArg (·, _) (Eq.symm ?_))⟩
      apply List.take_of_length_le
      simp only [List.length_append, List.length_cons, List.length_nil] at short ⊢
      omega
    · refine ⟨_, (fgets_long line (Nat.le_of_not_lt short)).trans (congrArg (·, _) (Eq.symm ?_))⟩
      exact List.take_append_of_le_length (Nat.le_of_not_lt short)
  obtain ⟨s, piece⟩ := piece
  have head : ((c :: l ++ ['\n']).take (n + 1)).dropWhile isSpace = (c :: l ++ ['\n']).take (n + 1) := by
    simp [shown]
  have contains : name <:+: (c :: l ++ ['\n']).take (n + 1) := by
    apply inside.trans
    rw [List.take_append]
    exact (List.prefix_append _ _).isInfix
  rw [search, if_neg Bool.false_ne_true]
  simp only [piece, head, if_pos contains]

/-- The name does not begin inside of `p`, whatever comes after it. -/
def Apart (name p : List Char) : Prop :=
  ∀ i < p.length, ¬ (name <+: p.drop i ∨ p.drop i <+: name)

instance (name p : List Char) : Decidable (Apart name p) := by unfold Apart; infer_instance

theorem Apart.infix_append (apart : Apart name p) (inside : name <:+: p ++ v) : name <:+: v := by
  obtain ⟨before, after, eq⟩ := inside
  rw [List.append_assoc] at eq
  rcases List.append_eq_append_iff.mp eq with ⟨p', rfl, tail⟩ | ⟨before', rfl, tail⟩
  · cases p' with
    | nil =>
        simp only [List.nil_append] at tail
        exact ⟨[], after, by simpa using tail⟩
    | cons c p' =>
        have comparable := List.prefix_or_prefix_of_prefix (List.prefix_append name after)
          (tail ▸ List.prefix_append (c :: p') v)
        refine absurd ?_ (apart before.length (by simp))
        simpa using comparable
  · exact ⟨before', after, by rw [tail, List.append_assoc]⟩

end

/-! ### Settings -/

structure Setting where
  key : List Char
  value : List Char
deriving DecidableEq

/-- The line of a setting, without its newline. -/
def Setting.line (s : Setting) : List Char := s.key ++ '=' :: s.value

/-- The text of a file. -/
def text (settings : List Setting) : List Char := settings.flatMap fun s => s.line ++ ['\n']

/-- The line that a search for the key stops at: the first that has the key, or has it in its
value. -/
def source (settings : List Setting) (key : List Char) : Option Setting :=
  settings.find? fun s => decide (s.key = key ∨ key <:+: s.value)

/-- What the buffer has of the value and the newline behind it. -/
def Setting.text (n : Nat) (s : Setting) : List Char :=
  (s.value ++ ['\n']).take (n - (s.key.length + 1))

/-- The value fits the buffer. -/
def Setting.Fits (n : Nat) (s : Setting) : Prop := s.key.length + 1 + s.value.length ≤ n

instance (n : Nat) (s : Setting) : Decidable (s.Fits n) := by unfold Setting.Fits; infer_instance

/-- What comes behind the first `=`, if that is not the first character. -/
def afterKey (line : List Char) : Option (List Char) :=
  match line.takeWhile (· ≠ '='), line.dropWhile (· ≠ '=') with
  | _ :: _, _ :: value => some value
  | _, _ => none

/-- A key as it is written to a file. -/
structure Key (n : Nat) (key : List Char) : Prop where
  visible : Visible key
  line : '\n' ∉ key
  equals : '=' ∉ key
  fits : key.length < n

/-- The settings of one file: the keys cannot be confused with each other. -/
structure Readable (n : Nat) (settings : List Setting) : Prop where
  keys : ∀ s ∈ settings, Key n s.key
  distinct : (settings.map Setting.key).Nodup
  apart : ∀ s ∈ settings, ∀ t ∈ settings, t.key ≠ s.key → Apart s.key (t.key ++ ['='])
  values : ∀ s ∈ settings, '\n' ∉ s.value

section

variable {n : Nat} {settings before after : List Setting} {s t own : Setting} {key line : List Char}

theorem Readable.tail (readable : Readable n (s :: settings)) : Readable n settings where
  keys t ht := readable.keys t (List.mem_cons_of_mem s ht)
  distinct := (List.nodup_cons.mp readable.distinct).2
  apart t ht u hu := readable.apart t (List.mem_cons_of_mem s ht) u (List.mem_cons_of_mem s hu)
  values t ht := readable.values t (List.mem_cons_of_mem s ht)

theorem Setting.line_clean (key : Key n s.key) (value : '\n' ∉ s.value) : '\n' ∉ s.line := by
  simp only [Setting.line, List.mem_append, List.mem_cons, not_or]
  exact ⟨key.line, by decide, value⟩

theorem source_cons : source (s :: settings) key =
    if s.key = key ∨ key <:+: s.value then some s else source settings key := by
  simp only [source, List.find?_cons]
  split <;> simp_all

theorem mem_of_source (h : source settings key = some s) :
    s ∈ settings ∧ (s.key = key ∨ key <:+: s.value) := by
  refine ⟨List.mem_of_find?_eq_some h, ?_⟩
  simpa using List.find?_some h

/-- The search passes a line without the key. -/
theorem Finds.past {result : Option (List Char)} (readable : Readable n (t :: settings))
    (named : Key n key) (apart : t.key ≠ key → Apart key (t.key ++ ['=']))
    (elsewhere : ¬ (t.key = key ∨ key <:+: t.value)) (found : Finds n key (text settings) result) :
    Finds n key (t.line ++ '\n' :: text settings) result := by
  have room : 0 < n := Nat.zero_lt_of_lt named.fits
  have clean := Setting.line_clean (readable.keys t List.mem_cons_self)
    (readable.values t List.mem_cons_self)
  refine Finds.skip room named.line clean (fun inside => elsewhere (Or.inr ?_)) found
  apply (apart fun same => elsewhere (Or.inl same)).infix_append
  simpa [Setting.line] using inside

/-- The search for a key finds its source, when that is the key's own line or fits. -/
theorem finds_source (readable : Readable n settings) (named : Key n key)
    (apart : ∀ t ∈ settings, t.key ≠ key → Apart key (t.key ++ ['=']))
    (found : source settings key = some s) (fits : s.key = key ∨ s.Fits n) :
    Finds n key (text settings) (some ((s.line ++ ['\n']).take n)) := by
  induction settings with
  | nil => cases found
  | cons t settings ih =>
      have nt := readable.keys t List.mem_cons_self
      have room : 0 < n := Nat.zero_lt_of_lt nt.fits
      have clean := Setting.line_clean nt (readable.values t List.mem_cons_self)
      have shape : text (t :: settings) = t.line ++ '\n' :: text settings := by
        simp [text]
      rw [source_cons] at found
      rw [shape]
      split at found
      · next here =>
        obtain rfl : t = s := Option.some.inj found
        apply Finds.hit (l := t.line) (nt.visible.append _) room clean
        rcases here with same | inside
        · have start : key <+: t.line := ⟨'=' :: t.value, by rw [← same]; rfl⟩
          exact (List.prefix_take_iff.mpr ⟨start, Nat.le_of_lt named.fits⟩).isInfix
        · rcases fits with same | fits
          · have start : key <+: t.line := ⟨'=' :: t.value, by rw [← same]; rfl⟩
            exact (List.prefix_take_iff.mpr ⟨start, Nat.le_of_lt named.fits⟩).isInfix
          · have whole : t.line.take n = t.line := by
              apply List.take_of_length_le
              simp only [Setting.Fits, Setting.line, List.length_append, List.length_cons] at fits ⊢
              omega
            rw [whole]
            apply inside.trans
            have tail : t.value <:+ t.line := ⟨t.key ++ ['='], by simp [Setting.line]⟩
            exact tail.isInfix
      · next elsewhere =>
        exact Finds.past readable named (apart t List.mem_cons_self) elsewhere
          (ih readable.tail (fun u hu => apart u (List.mem_cons_of_mem t hu)) found)

theorem finds_nothing (room : 0 < n) (named : key ≠ []) : Finds n key [] none := by
  intro fuel enough
  obtain ⟨fuel, rfl⟩ := Nat.exists_eq_succ_of_ne_zero (Nat.ne_of_gt (Nat.zero_lt_of_lt enough))
  obtain ⟨n, rfl⟩ := Nat.exists_eq_succ_of_ne_zero (Nat.ne_of_gt room)
  have line : fgets (n + 1) ⟨[], false⟩ = ([], ⟨[], true⟩) := rfl
  have other : ¬ key <:+: List.dropWhile isSpace [] := fun inside =>
    named (List.eq_nil_of_infix_nil inside)
  rw [search, if_neg Bool.false_ne_true]
  simp only [line, if_neg other]
  cases fuel <;> rfl

/-- Without a source, the search for a key finds nothing. -/
theorem finds_none (readable : Readable n settings) (named : Key n key)
    (apart : ∀ t ∈ settings, t.key ≠ key → Apart key (t.key ++ ['=']))
    (found : source settings key = none) : Finds n key (text settings) none := by
  have room : 0 < n := Nat.zero_lt_of_lt named.fits
  induction settings with
  | nil => exact finds_nothing room named.visible.ne_nil
  | cons t settings ih =>
      have shape : text (t :: settings) = t.line ++ '\n' :: text settings := by
        simp [text]
      rw [source_cons] at found
      split at found
      · cases found
      · next elsewhere =>
        rw [shape]
        exact Finds.past readable named (apart t List.mem_cons_self) elsewhere
          (ih readable.tail (fun u hu => apart u (List.mem_cons_of_mem t hu)) found)

/-- The text that `afterKey` leaves of a line that was found. -/
theorem afterKey_line (named : Key n s.key) :
    afterKey ((s.line ++ ['\n']).take n) = some (s.text n) := by
  have stops : ∀ c ∈ s.key, decide (c ≠ '=') = true := by
    intro c hc
    simpa using fun same : c = '=' => named.equals (same ▸ hc)
  have shape : (s.line ++ ['\n']).take n = s.key ++ '=' :: s.text n := by
    have fits := named.fits
    obtain ⟨k, rfl⟩ := Nat.exists_eq_add_of_lt fits
    simp only [Setting.line, Setting.text, List.append_assoc, List.cons_append, List.take_append]
    rw [List.take_of_length_le (Nat.le_of_lt fits)]
    have left : s.key.length + k + 1 - s.key.length = k + 1 := by omega
    have right : s.key.length + k + 1 - (s.key.length + 1) = k := by omega
    rw [left, right, List.take_succ_cons, List.take_append]
  obtain ⟨c, rest, key, -⟩ := named.visible
  rw [shape, afterKey, List.takeWhile_append_of_pos stops, List.dropWhile_append_of_pos stops, key]
  simp

/-! ### Values that are read back -/

/-- A word that `%s` reads whole: it is not empty, has no white space, and `room` characters
hold it. -/
structure Plain (room : Nat) (v : List Char) : Prop where
  nonempty : v ≠ []
  word : ∀ c ∈ v, isSpace c = false
  fits : v.length ≤ room

/-- The word that `%s` reads, when the width is no limit. -/
theorem scanWord_text {width : Nat} {text : List Char} (wide : text.length ≤ width) :
    (scanWord (some width) ⟨text, false⟩).1 =
      if text.dropWhile isSpace = [] then none
      else some ((text.dropWhile isSpace).takeWhile fun c => !isSpace c) := by
  have short : (text.dropWhile isSpace).length ≤ width :=
    Nat.le_trans (List.dropWhile_suffix _).length_le wide
  simp only [scanWord, Input.skipSpace, Input.span]
  cases shown : text.dropWhile isSpace with
  | nil => rfl
  | cons c rest =>
      rw [shown] at short
      simp [List.take_of_length_le short]

/-- `%s` on the first `room` characters of a line gives the value exactly when it is plain. -/
theorem scanWord_iff {room width : Nat} {v : List Char} (wide : room ≤ width) :
    (scanWord (some width) ⟨(v ++ ['\n']).take room, false⟩).1 = some v ↔ Plain room v := by
  have length : ((v ++ ['\n']).take room).length ≤ room := List.length_take_le room _
  rw [scanWord_text (Nat.le_trans length wide)]
  constructor
  · intro read
    split at read
    · cases read
    · next shown =>
      have word := Option.some.inj read
      obtain ⟨c, rest, eq⟩ := List.exists_cons_of_ne_nil shown
      have head : isSpace c = false := by
        have := List.head?_dropWhile_not isSpace ((v ++ ['\n']).take room)
        rw [eq] at this
        simpa using this
      refine ⟨?_, ?_, ?_⟩
      · rw [← word, eq]
        simp [head]
      · intro c hc
        rw [← word] at hc
        simpa using List.mem_takeWhile_imp hc
      · calc v.length = (((v ++ ['\n']).take room).dropWhile isSpace |>.takeWhile fun c => !isSpace c).length :=
              congrArg List.length word.symm
          _ ≤ (((v ++ ['\n']).take room).dropWhile isSpace).length := (List.takeWhile_prefix _).length_le
          _ ≤ ((v ++ ['\n']).take room).length := (List.dropWhile_suffix _).length_le
          _ ≤ room := length
  · intro plain
    have whole : (v ++ ['\n']).take room = v ++ ['\n'].take (room - v.length) := by
      rw [List.take_append, List.take_of_length_le plain.fits]
    obtain ⟨c, rest, eq⟩ := List.exists_cons_of_ne_nil plain.nonempty
    have head : isSpace c = false := plain.word c (eq ▸ List.mem_cons_self)
    have shown : ((v ++ ['\n']).take room).dropWhile isSpace = (v ++ ['\n']).take room := by
      rw [whole, eq]
      simp [head]
    have stop : (['\n'].take (room - v.length)).takeWhile (fun c => !isSpace c) = [] := by
      cases room - v.length with
      | zero => rfl
      | succ k => simp [isSpace]
    rw [shown, if_neg, whole, List.takeWhile_append_of_pos, stop, List.append_nil]
    · intro c hc
      simp [plain.word c hc]
    · rw [whole]
      simp [plain.nonempty]

/-- The line that is found for the setting has its value, and shows it whole. -/
def Kept (n : Nat) (settings : List Setting) (own : Setting) : Prop :=
  ∃ s, source settings own.key = some s ∧ s.value = own.value ∧
    Plain (n - (s.key.length + 1)) own.value

/-- A setting has a source, and it is the setting or lies before it. -/
theorem source_split (settings_eq : settings = before ++ own :: after) :
    ∃ s, source settings own.key = some s ∧ (s ∈ before ∨ s = own) := by
  subst settings_eq
  cases found : source before own.key with
  | some s =>
      refine ⟨s, ?_, Or.inl (mem_of_source found).1⟩
      unfold source at found ⊢
      rw [List.find?_append, found]
      rfl
  | none =>
      refine ⟨own, ?_, Or.inr rfl⟩
      unfold source at found ⊢
      rw [List.find?_append, found, Option.none_or]
      exact List.find?_cons_of_pos (by simp)

/-- A setting whose key is in no value is its own source. -/
theorem source_own (distinct : (settings.map Setting.key).Nodup) (own_mem : own ∈ settings)
    (apart : ∀ s ∈ settings, ¬ own.key <:+: s.value) : source settings own.key = some own := by
  obtain ⟨before, after, eq⟩ := List.append_of_mem own_mem
  obtain ⟨s, found, place⟩ := source_split eq
  obtain ⟨mem, why⟩ := mem_of_source found
  rw [found, List.inj_on_of_nodup_map distinct mem own_mem (why.resolve_right (apart s mem))]

/-- A kept setting that is found for some key shows its value whole. -/
theorem Kept.plain (found : source settings key = some s) (inside : key <:+: s.value)
    (kept : Kept n settings s) : Plain (n - (s.key.length + 1)) s.value := by
  obtain ⟨t, own, same, plain⟩ := kept
  obtain ⟨-, before, after, eq, earlier⟩ := List.find?_eq_some_iff_append.mp found
  obtain ⟨t', own', place⟩ := source_split eq
  obtain rfl : t = t' := Option.some.inj (own.symm.trans own')
  rcases place with place | rfl
  · -- the same value lies further in front
    have := earlier t place
    simp only [same, inside, or_true, decide_true, Bool.not_true, Bool.false_eq_true] at this
  · exact plain

theorem Plain.fits_line {v : List Char} (named : Key n s.key) (same : s.value = v)
    (plain : Plain (n - (s.key.length + 1)) v) : s.Fits n := by
  have key := named.fits
  have value := plain.fits
  unfold Setting.Fits
  rw [same]
  omega

/-- `sscanf(line, "%[^=]=%s", ..)` with a field width. -/
def readWord (width : Nat) (line : List Char) : Option (List Char) :=
  (afterKey line).bind fun text => (scanWord (some width) ⟨text, false⟩).1

/-- The settings of a file where only some values can hold a key. -/
structure Mixed (n : Nat) (settings : List Setting) (isText : Setting → Prop) : Prop where
  readable : Readable n settings
  numbers : ∀ s ∈ settings, ¬ isText s → ∀ t ∈ settings, ¬ t.key <:+: s.value

variable {isText : Setting → Prop}

/-- A search for the key of a setting ends at its source. -/
theorem Mixed.finds (mixed : Mixed n settings isText) (own_mem : own ∈ settings)
    (found : source settings own.key = some s) (fits : s.key = own.key ∨ s.Fits n) :
    Finds n own.key (text settings) (some ((s.line ++ ['\n']).take n)) :=
  finds_source mixed.readable (mixed.readable.keys own own_mem)
    (mixed.readable.apart own own_mem) found fits

/-- A setting that is kept is read back. -/
theorem Kept.reads (mixed : Mixed n settings isText) (width : Nat) (wide : n ≤ width) (own_mem : own ∈ settings)
    (kept : Kept n settings own) : ∃ line, Finds n own.key (text settings) (some line) ∧
      readWord width line = some own.value := by
  obtain ⟨s, found, same, plain⟩ := kept
  have named := mixed.readable.keys s (mem_of_source found).1
  refine ⟨_, mixed.finds own_mem found (Or.inr (plain.fits_line named same)), ?_⟩
  rw [readWord, afterKey_line named, Option.bind_some, Setting.text, same]
  exact (scanWord_iff (Nat.le_trans (Nat.sub_le _ _) wide)).mpr plain

/-- With all texts kept, the search for any key ends at its source. -/
theorem Mixed.finds_kept (mixed : Mixed n settings isText)
    (kept : ∀ s ∈ settings, isText s → Kept n settings s) (own_mem : own ∈ settings) :
    ∃ s, source settings own.key = some s ∧
      Finds n own.key (text settings) (some ((s.line ++ ['\n']).take n)) := by
  obtain ⟨before, after, eq⟩ := List.append_of_mem own_mem
  obtain ⟨s, found, -⟩ := source_split eq
  obtain ⟨mem, why⟩ := mem_of_source found
  refine ⟨s, found, mixed.finds own_mem found ?_⟩
  rcases why with same | inside
  · exact Or.inl same
  · right
    have texts : isText s := by
      by_contra number
      exact mixed.numbers s mem number own own_mem inside
    exact ((kept s mem texts).plain found inside).fits_line (mixed.readable.keys s mem) rfl

/-- Texts that are read back are kept. The induction is over their order in the file: a text
is found on its own line or on the line of one before it, which is kept. -/
theorem Mixed.kept_of_reads (mixed : Mixed n settings isText) (width : Nat) (wide : n ≤ width)
    (reads : ∀ s ∈ settings, isText s → ∀ line, Finds n s.key (text settings) (some line) →
      readWord width line = some s.value) :
    ∀ s ∈ settings, isText s → Kept n settings s := by
  have upTo : ∀ before after, settings = before ++ after →
      ∀ s ∈ before, isText s → Kept n settings s := by
    intro before
    induction before using List.reverseRecOn with
    | nil => simp
    | append_singleton before own ih =>
        intro after eq
        have eq' : settings = before ++ own :: after := by simpa using eq
        have earlier := ih (own :: after) eq'
        intro s hs
        rcases List.mem_append.mp hs with hs | hs
        · exact earlier s hs
        obtain rfl := List.mem_singleton.mp hs
        intro texts
        have own_mem : s ∈ settings := by simp [eq']
        obtain ⟨t, found, place⟩ := source_split eq'
        have named : Key n t.key := mixed.readable.keys t (mem_of_source found).1
        have word : ∀ (t : Setting), Key n t.key →
            readWord width ((t.line ++ ['\n']).take n) = some s.value →
            (scanWord (some width) ⟨t.text n, false⟩).1 = some s.value := by
          intro t named read
          rwa [readWord, afterKey_line named, Option.bind_some] at read
        have narrow (t : Setting) : n - (t.key.length + 1) ≤ width :=
          Nat.le_trans (Nat.sub_le _ _) wide
        rcases place with place | rfl
        · have inside : s.key <:+: t.value := by
            refine (mem_of_source found).2.resolve_left fun same => ?_
            have distinct := mixed.readable.distinct
            rw [eq', List.map_append, List.map_cons] at distinct
            exact (List.disjoint_of_nodup_append distinct) (List.mem_map_of_mem place)
              (by simp [same])
          have texts' : isText t := by
            by_contra number
            exact mixed.numbers t (mem_of_source found).1 number s own_mem inside
          have plain := (earlier t place texts').plain found inside
          have read := word t named (reads s own_mem texts _
            (mixed.finds own_mem found (Or.inr (plain.fits_line named rfl))))
          have same : t.value = s.value := by
            have own := (scanWord_iff (narrow t)).mpr plain
            exact Option.some.inj (own.symm.trans read)
          exact ⟨t, found, same, same ▸ plain⟩
        · have read := word t named (reads t own_mem texts _ (mixed.finds own_mem found (Or.inl rfl)))
          exact ⟨t, found, rfl, (scanWord_iff (narrow t)).mp read⟩
  exact fun s hs => upTo settings [] (List.append_nil settings).symm s hs

end

end Settings
