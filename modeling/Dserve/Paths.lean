import Dserve.Util
import Mathlib.Data.List.TakeDrop

/-!
`get_file_name`: the file that `open_file` appends to and `delete_file` removes.

The name is what follows the last separator of a URL that the client chose. The backwards scan of
`get_name_from_url` stops before the first character and returns nothing when it gets there, and no
one looks at the name. `inside_iff` says which URLs name a file in the destination directory.
-/

namespace Dserve

/-- `get_file_name(entry, MAX_DATA_LEN - 1, dest)`; `snprintf` keeps one byte for its terminator. -/
def getFileName (destdir url : CString) : Option CString :=
  (getNameFromUrl url).map fun name => (destdir ++ '/' :: name).take (MAX_DATA_LEN - 2)

/-- The part after the last `'/'`, the whole when there is none. -/
def lastPart : CString → CString
  | [] => []
  | c :: s => if '/' ∈ s then lastPart s else if c = '/' then s else c :: s

/-- The path names a file in the directory. -/
structure Inside (destdir url path : CString) : Prop where
  path_eq : path = destdir ++ '/' :: lastPart url
  nonempty : lastPart url ≠ []
  flat : '/' ∉ lastPart url
  named : lastPart url ≠ ['.'] ∧ lastPart url ≠ ['.', '.']

section

variable {destdir url before last w : CString} {i : Nat}

/-! ### The last part -/

theorem lastPart_of_no_slash (flat : '/' ∉ url) : lastPart url = url := by
  cases url with
  | nil => rfl
  | cons c s =>
      have rest : '/' ∉ s := fun later => flat (List.mem_cons_of_mem c later)
      have first : c ≠ '/' := fun same => flat (same ▸ List.mem_cons_self)
      rw [lastPart, if_neg rest, if_neg first]

theorem lastPart_append (flat : '/' ∉ last) : lastPart (before ++ '/' :: last) = last := by
  induction before with
  | nil => rw [List.nil_append, lastPart, if_neg flat, if_pos rfl]
  | cons c before ih =>
      rw [List.cons_append, lastPart, if_pos, ih]
      exact List.mem_append_right _ List.mem_cons_self

/-- A URL with a separator, cut at the last one. -/
theorem cut_at_last (separated : '/' ∈ url) :
    ∃ before last, url = before ++ '/' :: last ∧ '/' ∉ last := by
  obtain ⟨last, before, parts, flat⟩ := List.eq_append_cons_of_mem (List.mem_reverse.mpr separated)
  refine ⟨before.reverse, last.reverse, ?_, ?_⟩
  · rw [← List.reverse_reverse url, parts]
    simp
  · rw [List.mem_reverse]
    exact flat

theorem lastPart_flat (url : CString) : '/' ∉ lastPart url := by
  by_cases separated : '/' ∈ url
  · obtain ⟨before, last, rfl, flat⟩ := cut_at_last separated
    rw [lastPart_append flat]
    exact flat
  · rw [lastPart_of_no_slash separated]
    exact separated

/-- What comes after the last separator is the end of the URL. -/
theorem suffix_iff (separated : '/' ∈ url) (flat : '/' ∉ w) :
    '/' :: w <:+ url ↔ lastPart url = w := by
  constructor
  · rintro ⟨before, rfl⟩
    exact lastPart_append flat
  · intro same
    obtain ⟨before, last, rfl, flat'⟩ := cut_at_last separated
    rw [← same, lastPart_append flat']
    exact List.suffix_append _ _

/-! ### The scan -/

/-- Without a separator after the first character the scan falls through. -/
theorem nameLoop_none (flat : '/' ∉ url.tail) : nameLoop url i = none := by
  induction i with
  | zero => rfl
  | succ i ih =>
      rw [nameLoop, if_neg, ih]
      intro found
      rw [← List.getElem?_tail] at found
      exact flat (List.mem_of_getElem? found)

/-- From behind the last separator on the scan finds what follows it. -/
theorem nameLoop_last (start : before ≠ []) (flat : '/' ∉ last) :
    nameLoop (before ++ '/' :: last) (before.length + i) = some last := by
  induction i with
  | zero =>
      obtain ⟨n, length⟩ : ∃ n, before.length = n + 1 :=
        Nat.exists_eq_succ_of_ne_zero (List.length_eq_zero_iff.not.mpr start)
      have here : (before ++ '/' :: last)[n + 1]? = some '/' := by
        rw [← length, List.getElem?_append_right (Nat.le_refl _), Nat.sub_self]
        rfl
      have rest : (before ++ '/' :: last).drop (n + 2) = last := by
        rw [← List.singleton_append, ← List.append_assoc]
        apply List.drop_left'
        rw [List.length_append, length]
        rfl
      rw [Nat.add_zero, length, nameLoop, if_pos here, rest]
  | succ i ih =>
      rw [← Nat.add_assoc, nameLoop, if_neg, ih]
      intro found
      rw [List.getElem?_append_right (by omega)] at found
      have inside : last[i]? = some '/' := by
        rw [← found, Nat.add_assoc, Nat.add_sub_cancel_left]
        rfl
      exact flat (List.mem_of_getElem? inside)

theorem getNameFromUrl_eq :
    getNameFromUrl url = if '/' ∈ url.tail then some (lastPart url) else none := by
  unfold getNameFromUrl
  by_cases separated : '/' ∈ url.tail
  · obtain ⟨before, last, rfl, flat⟩ := cut_at_last (List.mem_of_mem_tail separated)
    have start : before ≠ [] := by
      rintro rfl
      exact flat separated
    rw [if_pos separated, lastPart_append flat, List.length_append]
    exact nameLoop_last start flat
  · rw [if_neg separated]
    exact nameLoop_none separated

end

/-- The file is in the destination directory exactly when the URL has a separator after its first
character, does not end in `/`, `/.` or `/..`, and the path fits the buffer. -/
theorem inside_iff (destdir url : CString) :
    (∃ path, getFileName destdir url = some path ∧ Inside destdir url path) ↔
      '/' ∈ url.tail ∧ (∀ w ∈ [[], ['.'], ['.', '.']], ¬ '/' :: w <:+ url) ∧
        destdir.length + 1 + (lastPart url).length ≤ MAX_DATA_LEN - 2 := by
  unfold getFileName
  rw [getNameFromUrl_eq]
  by_cases separated : '/' ∈ url.tail
  · have found : '/' ∈ url := List.mem_of_mem_tail separated
    have length : (destdir ++ '/' :: lastPart url).length =
        destdir.length + 1 + (lastPart url).length := by
      rw [List.length_append, List.length_cons]
      omega
    rw [if_pos separated, Option.map_some]
    constructor
    · rintro ⟨path, written, path_eq, nonempty, -, dot, dots⟩
      refine ⟨separated, ?_, ?_⟩
      · intro w hw
        simp only [List.mem_cons, List.not_mem_nil, or_false] at hw
        rcases hw with rfl | rfl | rfl
        · rw [suffix_iff found (by decide)]
          exact nonempty
        · rw [suffix_iff found (by decide)]
          exact dot
        · rw [suffix_iff found (by decide)]
          exact dots
      · rw [← length]
        have whole := (Option.some.inj written).trans path_eq
        rw [List.take_eq_self_iff] at whole
        exact whole
    · rintro ⟨-, ends, fits⟩
      refine ⟨destdir ++ '/' :: lastPart url, ?_, rfl, ?_, lastPart_flat url, ?_, ?_⟩
      · rw [← length] at fits
        rw [List.take_of_length_le fits]
      · rw [Ne, ← suffix_iff found (by decide)]
        exact ends _ (by decide)
      · rw [Ne, ← suffix_iff found (by decide)]
        exact ends _ (by decide)
      · rw [Ne, ← suffix_iff found (by decide)]
        exact ends _ (by decide)
  · rw [if_neg separated]
    constructor
    · rintro ⟨path, written, -⟩
      cases written
    · rintro ⟨found, -⟩
      exact absurd found separated

/-- A URL without a separator has no file. -/
theorem no_separator : ¬ ∀ destdir url : CString,
    ∃ path, getFileName destdir url = some path ∧ Inside destdir url path := by
  intro all
  obtain ⟨path, written, -⟩ := all ['d'] ['a']
  exact absurd written (by simp [getFileName, getNameFromUrl, nameLoop])

end Dserve
