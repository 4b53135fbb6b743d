import Mathlib.Data.List.Basic
import Cellular.Rule.Key

/-!
# Squeezing the blanks of a text

Headers and lines of the table section are brought to their shortest layout by
cutting them into words and joining the words again.  Here both are described
character by character: every run of blanks becomes one space, or nothing at
either end of the text and next to a tight character.  Properties of layouts
then go by induction on the text.
-/

namespace Cellular

namespace Text

/-! ## Trimming -/

theorem trimStart_cons_of_isBlank {c : Char} (hc : isBlank c = true)
    (text : List Char) : trimStart (c :: text) = trimStart text := by
  rw [trimStart, List.dropWhile_cons_of_pos hc]
  rfl

theorem trimStart_cons_of_not_isBlank {c : Char} (hc : isBlank c = false)
    (text : List Char) : trimStart (c :: text) = c :: text := by
  rw [trimStart, List.dropWhile_cons_of_neg]
  simp [hc]

theorem trimEnd_cons (c : Char) (text : List Char) :
    trimEnd (c :: text) =
      if isBlank c = true ∧ trimEnd text = [] then [] else c :: trimEnd text := by
  simp only [trimEnd, List.reverse_cons, List.dropWhile_append,
    List.reverse_eq_nil_iff, List.isEmpty_iff]
  by_cases hrest : text.reverse.dropWhile isBlank = []
  · by_cases hc : isBlank c = true
    · simp [hrest, hc]
    · simp [hrest, hc]
  · simp [hrest]

theorem trimEnd_cons_of_not_isBlank {c : Char} (hc : isBlank c = false)
    (text : List Char) : trimEnd (c :: text) = c :: trimEnd text := by
  rw [trimEnd_cons, if_neg]
  simp [hc]

theorem trim_cons_of_isBlank {c : Char} (hc : isBlank c = true)
    (text : List Char) : trim (c :: text) = trim text := by
  rw [trim, trimStart_cons_of_isBlank hc, trim]

theorem trim_cons_of_not_isBlank {c : Char} (hc : isBlank c = false)
    (text : List Char) : trim (c :: text) = c :: trimEnd text := by
  rw [trim, trimStart_cons_of_not_isBlank hc, trimEnd_cons_of_not_isBlank hc]

theorem head?_trimEnd {text : List Char} (h : trimEnd text ≠ []) :
    (trimEnd text).head? = text.head? := by
  cases text with
  | nil => rfl
  | cons c text =>
    rw [trimEnd_cons] at h ⊢
    split
    · rename_i hblank
      rw [if_pos hblank] at h
      exact absurd rfl h
    · rfl

theorem trimStart_eq_self {text : List Char}
    (h : text.head?.any isBlank = false) : trimStart text = text := by
  cases text with
  | nil => rfl
  | cons c text => exact trimStart_cons_of_not_isBlank (by simpa using h) text

theorem head?_trimStart_any (text : List Char) :
    (trimStart text).head?.any isBlank = false := by
  induction text with
  | nil => rfl
  | cons c text ih =>
    cases hc : isBlank c with
    | true => rwa [trimStart_cons_of_isBlank hc]
    | false => rwa [trimStart_cons_of_not_isBlank hc, List.head?_cons, Option.any_some]

theorem trimEnd_trimEnd (text : List Char) :
    trimEnd (trimEnd text) = trimEnd text := by
  induction text with
  | nil => rfl
  | cons c text ih =>
    rw [trimEnd_cons]
    split
    · rfl
    · rename_i hne
      rw [trimEnd_cons, ih, if_neg hne]

theorem head?_trim_any (text : List Char) :
    (trim text).head?.any isBlank = false := by
  by_cases hnil : trim text = []
  · rw [hnil]
    rfl
  · rw [trim] at hnil ⊢
    rw [head?_trimEnd hnil]
    exact head?_trimStart_any text

theorem trim_trim (text : List Char) : trim (trim text) = trim text := by
  rw [trim, trimStart_eq_self (head?_trim_any text), trim, trimEnd_trimEnd]

/-! ## Words -/

theorem words_cons_of_isBlank {c : Char} (hc : isBlank c = true)
    (text : List Char) : words (c :: text) = words text := by
  rw [words, List.splitOnP_cons_eq_if_modifyHead, if_pos hc]
  rfl

theorem words_cons_of_not_isBlank {c : Char} (hc : isBlank c = false)
    (text : List Char) :
    words (c :: text) =
      if text.head?.any (!isBlank ·) then (words text).modifyHead (c :: ·)
      else [c] :: words text := by
  have hsplit : (c :: text).splitOnP isBlank =
      (text.splitOnP isBlank).modifyHead (c :: ·) := by
    rw [List.splitOnP_cons_eq_if_modifyHead, if_neg]
    simp [hc]
  cases text with
  | nil => rw [words, hsplit]; rfl
  | cons d text =>
    rw [words, hsplit, words, List.splitOnP_cons_eq_if_modifyHead]
    by_cases hd : isBlank d = true
    · simp [hd]
    · cases hrest : text.splitOnP isBlank with
      | nil => exact absurd hrest (List.splitOnP_ne_nil _ _)
      | cons word rest => simp [hd]

theorem words_ne_nil {text : List Char} (h : text.head?.any (!isBlank ·) = true) :
    words text ≠ [] := by
  induction text with
  | nil => simp at h
  | cons c text ih =>
    have hc : isBlank c = false := by simpa using h
    rw [words_cons_of_not_isBlank hc]
    split
    · rename_i hstart
      have hne := ih hstart
      cases hwords : words text with
      | nil => exact absurd hwords hne
      | cons word rest => simp
    · simp

/-- What comes before the first blank of a text is its first word. -/
theorem words_append {word rest : List Char} (hne : word ≠ [])
    (hword : ∀ c ∈ word, isBlank c = false)
    (hrest : rest.head?.any (!isBlank ·) = false) :
    words (word ++ rest) = word :: words rest := by
  induction word with
  | nil => exact absurd rfl hne
  | cons c word ih =>
    rw [List.forall_mem_cons] at hword
    rw [List.cons_append, words_cons_of_not_isBlank hword.1]
    cases word with
    | nil => rw [List.nil_append, hrest, if_neg Bool.false_ne_true]
    | cons d word =>
      have hd := hword.2 d List.mem_cons_self
      have hstart : (d :: word ++ rest).head?.any (!isBlank ·) = true := by
        simpa using hd
      rw [hstart, if_pos rfl, ih (List.cons_ne_nil d word) hword.2,
        List.modifyHead_cons]

/-! ## Squeezing -/

/-- What stands between a character and the squeezed text after it. -/
def gap (tight : Char → Bool) (c : Char) (text squeezed : List Char) : List Char :=
  if text.head?.any isBlank && !tight c && squeezed.head?.any (!tight ·) then [' ']
  else []

/-- The text with each run of blanks reduced to one space, or to nothing at
either end of the text and next to a tight character. -/
def squeeze (tight : Char → Bool) : List Char → List Char
  | [] => []
  | c :: text =>
    if isBlank c then squeeze tight text
    else c :: (gap tight c text (squeeze tight text) ++ squeeze tight text)

variable {tight : Char → Bool} {c : Char}

theorem gap_nil (text : List Char) : gap tight c text [] = [] := by
  simp [gap]

theorem gap_of_not_isBlank {text : List Char}
    (h : text.head?.any isBlank = false) (squeezed : List Char) :
    gap tight c text squeezed = [] := by
  simp [gap, h]

theorem eq_space_of_mem_gap {text squeezed : List Char} {d : Char}
    (h : d ∈ gap tight c text squeezed) : d = ' ' := by
  rw [gap] at h
  split at h
  · exact List.mem_singleton.1 h
  · cases h

theorem squeeze_cons_of_isBlank (hc : isBlank c = true) (text : List Char) :
    squeeze tight (c :: text) = squeeze tight text := by
  rw [squeeze, if_pos hc]

theorem squeeze_cons_of_not_isBlank (hc : isBlank c = false) (text : List Char) :
    squeeze tight (c :: text) =
      c :: (gap tight c text (squeeze tight text) ++ squeeze tight text) := by
  rw [squeeze, if_neg]
  simp [hc]

/-- Join words, with a space between two of them unless a tight character stands
there. -/
def joinBy (tight : Char → Bool) : List (List Char) → List Char
  | [] => []
  | [word] => word
  | left :: right :: rest =>
    if left.getLast?.any tight || right.head?.any tight then
      left ++ joinBy tight (right :: rest)
    else
      left ++ ' ' :: joinBy tight (right :: rest)

theorem head?_joinBy_cons {word : List Char} (hword : word ≠ [])
    (rest : List (List Char)) :
    (joinBy tight (word :: rest)).head? = word.head? := by
  obtain ⟨d, word, rfl⟩ := List.exists_cons_of_ne_nil hword
  cases rest with
  | nil => rfl
  | cons right rest =>
    rw [joinBy]
    split <;> rfl

theorem joinBy_cons_cons {word : List Char} (hword : word ≠ [])
    (rest : List (List Char)) :
    joinBy tight ((c :: word) :: rest) = c :: joinBy tight (word :: rest) := by
  have hlast : (c :: word).getLast? = word.getLast? := by
    obtain ⟨d, word, rfl⟩ := List.exists_cons_of_ne_nil hword
    exact List.getLast?_cons_cons
  cases rest with
  | nil => rfl
  | cons right rest =>
    rw [joinBy, joinBy, hlast]
    split <;> rfl

/-- Squeezing a text is cutting it into words and joining these. -/
theorem joinBy_words (tight : Char → Bool) (text : List Char) :
    joinBy tight (words text) = squeeze tight text := by
  induction text with
  | nil => rfl
  | cons c text ih =>
    cases hc : isBlank c with
    | true => rw [words_cons_of_isBlank hc, squeeze_cons_of_isBlank hc, ih]
    | false =>
      rw [words_cons_of_not_isBlank hc, squeeze_cons_of_not_isBlank hc, ← ih]
      cases hstart : text.head?.any (!isBlank ·) with
      | true =>
        -- The character belongs to the word after it.
        have hblank : text.head?.any isBlank = false := by
          cases hhead : text.head? <;> simp_all
        obtain ⟨word, rest, hwords⟩ :=
          List.exists_cons_of_ne_nil (words_ne_nil hstart)
        have hmem : word ∈ words text := hwords ▸ List.mem_cons_self
        have hword : word ≠ [] := ne_nil_of_mem_words hmem
        rw [if_pos rfl, hwords, List.modifyHead_cons, joinBy_cons_cons hword, gap,
          hblank]
        rfl
      | false =>
        -- The character is a word of its own.
        rw [if_neg Bool.false_ne_true]
        cases hwords : words text with
        | nil =>
          simp only [gap, joinBy, List.head?_nil, Option.any_none, Bool.and_false,
            Bool.false_eq_true, if_false, List.append_nil]
        | cons word rest =>
          have hmem : word ∈ words text := hwords ▸ List.mem_cons_self
          have hword : word ≠ [] := ne_nil_of_mem_words hmem
          have hblank : text.head?.any isBlank = true := by
            cases text with
            | nil => cases hwords
            | cons d text => simpa using hstart
          rw [joinBy, gap, hblank, head?_joinBy_cons hword]
          obtain ⟨d, word, rfl⟩ := List.exists_cons_of_ne_nil hword
          cases hc : tight c <;> cases hd : tight d <;> simp [hc, hd]

theorem joinBy_false (texts : List (List Char)) :
    joinBy (fun _ => false) texts = [' '].intercalate texts := by
  induction texts with
  | nil => rfl
  | cons left texts ih =>
    cases texts with
    | nil => simp [joinBy]
    | cons right rest => simp [joinBy, ih, List.intercalate_cons_cons]

theorem singleSpaced_eq_squeeze (text : List Char) :
    singleSpaced text = squeeze (fun _ => false) text := by
  rw [singleSpaced, ← joinBy_false, joinBy_words]

/-! ## What squeezing keeps -/

theorem squash_squeeze (tight : Char → Bool) (text : List Char) :
    squash (squeeze tight text) = squash text := by
  induction text with
  | nil => rfl
  | cons c text ih =>
    cases hc : isBlank c with
    | true =>
      rw [squeeze_cons_of_isBlank hc, ih, squash, squash, List.filter_cons_of_neg]
      simp [hc]
    | false =>
      have hgap : squash (gap tight c text (squeeze tight text)) = [] := by
        rw [gap]
        split <;> rfl
      have hkeep : ∀ rest, squash (c :: rest) = c :: squash rest := by
        intro rest
        rw [squash, squash, List.filter_cons_of_pos]
        simp [hc]
      rw [squeeze_cons_of_not_isBlank hc, hkeep, hkeep]
      rw [squash] at hgap ih
      rw [squash, List.filter_append, hgap, ih]
      rfl

theorem mem_squeeze_iff {text : List Char} (hc : isBlank c = false) :
    c ∈ squeeze tight text ↔ c ∈ text := by
  have hmem : ∀ text : List Char, c ∈ squash text ↔ c ∈ text := by
    intro text
    simp [squash, hc]
  rw [← hmem, squash_squeeze, hmem]

theorem eq_space_of_mem_squeeze {text : List Char}
    (hmem : c ∈ squeeze tight text) (hc : isBlank c = true) : c = ' ' := by
  induction text with
  | nil => cases hmem
  | cons d text ih =>
    cases hd : isBlank d with
    | true => exact ih (squeeze_cons_of_isBlank hd text ▸ hmem)
    | false =>
      rw [squeeze_cons_of_not_isBlank hd, List.mem_cons, List.mem_append] at hmem
      rcases hmem with rfl | hmem | hmem
      · rw [hc] at hd
        cases hd
      · exact eq_space_of_mem_gap hmem
      · exact ih hmem

theorem head?_squeeze (tight : Char → Bool) (text : List Char) :
    (squeeze tight text).head? = (trimStart text).head? := by
  induction text with
  | nil => rfl
  | cons c text ih =>
    cases hc : isBlank c with
    | true => rw [squeeze_cons_of_isBlank hc, ih, trimStart_cons_of_isBlank hc]
    | false =>
      rw [squeeze_cons_of_not_isBlank hc, trimStart_cons_of_not_isBlank hc]
      rfl

theorem squeeze_trimStart (tight : Char → Bool) (text : List Char) :
    squeeze tight (trimStart text) = squeeze tight text := by
  induction text with
  | nil => rfl
  | cons c text ih =>
    cases hc : isBlank c with
    | true => rw [trimStart_cons_of_isBlank hc, ih, squeeze_cons_of_isBlank hc]
    | false => rw [trimStart_cons_of_not_isBlank hc]

theorem squeeze_eq_nil_iff {text : List Char} :
    squeeze tight text = [] ↔ trimEnd text = [] := by
  induction text with
  | nil => exact Iff.rfl
  | cons c text ih =>
    rw [trimEnd_cons]
    cases hc : isBlank c with
    | true =>
      rw [squeeze_cons_of_isBlank hc, ih]
      split <;> simp_all
    | false =>
      rw [squeeze_cons_of_not_isBlank hc]
      simp

theorem squeeze_trimEnd (tight : Char → Bool) (text : List Char) :
    squeeze tight (trimEnd text) = squeeze tight text := by
  induction text with
  | nil => rfl
  | cons c text ih =>
    rw [trimEnd_cons]
    split
    · rename_i hblank
      rw [squeeze_cons_of_isBlank hblank.1, squeeze_eq_nil_iff.2 hblank.2]
      rfl
    · rename_i hne
      cases hc : isBlank c with
      | true =>
        rw [squeeze_cons_of_isBlank hc, squeeze_cons_of_isBlank hc, ih]
      | false =>
        have hgap : gap tight c (trimEnd text) (squeeze tight text) =
            gap tight c text (squeeze tight text) := by
          by_cases hnil : trimEnd text = []
          · rw [squeeze_eq_nil_iff.2 hnil, gap_nil, gap_nil]
          · rw [gap, gap, head?_trimEnd hnil]
        rw [squeeze_cons_of_not_isBlank hc, squeeze_cons_of_not_isBlank hc, ih, hgap]

theorem squeeze_trim (tight : Char → Bool) (text : List Char) :
    squeeze tight (trim text) = squeeze tight text := by
  rw [trim, squeeze_trimEnd, squeeze_trimStart]

theorem trimEnd_squeeze (tight : Char → Bool) (text : List Char) :
    trimEnd (squeeze tight text) = squeeze tight text := by
  induction text with
  | nil => rfl
  | cons c text ih =>
    cases hc : isBlank c with
    | true => rw [squeeze_cons_of_isBlank hc, ih]
    | false =>
      rw [squeeze_cons_of_not_isBlank hc, trimEnd_cons_of_not_isBlank hc]
      congr 1
      by_cases hnil : squeeze tight text = []
      · rw [hnil, gap_nil]
        rfl
      · rw [gap]
        split
        · rw [List.singleton_append, trimEnd_cons, ih, if_neg]
          exact fun h => hnil h.2
        · exact ih

theorem getLast?_squeeze (tight : Char → Bool) (text : List Char) :
    (squeeze tight text).getLast? = (trimEnd text).getLast? := by
  induction text with
  | nil => rfl
  | cons c text ih =>
    rw [trimEnd_cons]
    cases hc : isBlank c with
    | true =>
      rw [squeeze_cons_of_isBlank hc, ih]
      split
      · rename_i hnil
        rw [hnil.2]
      · rename_i hne
        obtain ⟨d, rest, hrest⟩ :=
          List.exists_cons_of_ne_nil fun hnil => hne ⟨rfl, hnil⟩
        rw [hrest, List.getLast?_cons_cons]
    | false =>
      rw [squeeze_cons_of_not_isBlank hc, if_neg (by simp)]
      cases hsqueezed : squeeze tight text with
      | nil => rw [squeeze_eq_nil_iff.1 hsqueezed, gap_nil, List.nil_append]
      | cons d rest =>
        have hne : trimEnd text ≠ [] := by
          intro hnil
          rw [squeeze_eq_nil_iff.2 hnil] at hsqueezed
          cases hsqueezed
        obtain ⟨e, others, hothers⟩ := List.exists_cons_of_ne_nil hne
        rw [hsqueezed, hothers] at ih
        rw [hothers, List.getLast?_cons_cons, ← ih, ← List.cons_append,
          List.getLast?_append_of_ne_nil _ (List.cons_ne_nil d rest)]

/-- A squeezed text has no blanks at its ends. -/
theorem trim_squeeze (tight : Char → Bool) (text : List Char) :
    trim (squeeze tight text) = squeeze tight text := by
  have hstart : trimStart (squeeze tight text) = squeeze tight text := by
    apply trimStart_eq_self
    rw [head?_squeeze]
    exact head?_trimStart_any text
  rw [trim, hstart, trimEnd_squeeze]

/-! ## Squeezing in parts -/

/-- A tight character cuts a text into parts that are squeezed by themselves. -/
theorem squeeze_append_tight {mark : Char} (hblank : isBlank mark = false)
    (htight : tight mark = true) (left right : List Char) :
    squeeze tight (left ++ mark :: right) =
      squeeze tight left ++ mark :: squeeze tight right := by
  induction left with
  | nil =>
    rw [List.nil_append, squeeze_cons_of_not_isBlank hblank, gap, htight]
    simp [squeeze]
  | cons c left ih =>
    rw [List.cons_append]
    cases hc : isBlank c with
    | true => rw [squeeze_cons_of_isBlank hc, squeeze_cons_of_isBlank hc, ih]
    | false =>
      have hgap : gap tight c (left ++ mark :: right)
          (squeeze tight left ++ mark :: squeeze tight right) =
          gap tight c left (squeeze tight left) := by
        cases left with
        | nil => simp [gap, hblank]
        | cons d left =>
          cases hsqueezed : squeeze tight (d :: left) with
          | nil => simp [gap, htight]
          | cons e rest => simp [gap]
      calc
        squeeze tight (c :: (left ++ mark :: right)) =
            c :: (gap tight c (left ++ mark :: right)
              (squeeze tight left ++ mark :: squeeze tight right) ++
                (squeeze tight left ++ mark :: squeeze tight right)) := by
          rw [squeeze_cons_of_not_isBlank hc, ih]
        _ = c :: (gap tight c left (squeeze tight left) ++ squeeze tight left) ++
              mark :: squeeze tight right := by
          rw [hgap, List.cons_append, List.append_assoc]
        _ = squeeze tight (c :: left) ++ mark :: squeeze tight right := by
          rw [squeeze_cons_of_not_isBlank hc]

/-- A word stays as it is, without a space before a tight character and at the
end. -/
theorem squeeze_append_of_tight {word rest : List Char}
    (hword : ∀ c ∈ word, isBlank c = false)
    (hrest : (squeeze tight rest).head?.any (!tight ·) = false) :
    squeeze tight (word ++ rest) = word ++ squeeze tight rest := by
  induction word with
  | nil => rfl
  | cons c word ih =>
    rw [List.forall_mem_cons] at hword
    rw [List.cons_append, squeeze_cons_of_not_isBlank hword.1, ih hword.2]
    have hgap : gap tight c (word ++ rest) (word ++ squeeze tight rest) = [] := by
      cases word with
      | nil =>
        rw [List.nil_append, List.nil_append, gap, hrest, Bool.and_false]
        rfl
      | cons d word =>
        apply gap_of_not_isBlank
        simpa using hword.2 d List.mem_cons_self
    rw [hgap, List.nil_append, List.cons_append]

theorem squeeze_append_of_eq_nil {word rest : List Char}
    (hword : ∀ c ∈ word, isBlank c = false) (hrest : squeeze tight rest = []) :
    squeeze tight (word ++ rest) = word := by
  rw [squeeze_append_of_tight hword (by rw [hrest]; rfl), hrest, List.append_nil]

theorem squeeze_eq_self {word : List Char}
    (hword : ∀ c ∈ word, isBlank c = false) : squeeze tight word = word := by
  have h : squeeze tight (word ++ []) = word := squeeze_append_of_eq_nil hword rfl
  rwa [List.append_nil] at h

/-- A word without tight characters keeps a space after it. -/
theorem squeeze_append_of_isBlank {word rest : List Char} (hne : word ≠ [])
    (hword : ∀ c ∈ word, isBlank c = false ∧ tight c = false)
    (hblank : rest.head?.any isBlank = true)
    (hrest : (squeeze tight rest).head?.any (!tight ·) = true) :
    squeeze tight (word ++ rest) = word ++ ' ' :: squeeze tight rest := by
  induction word with
  | nil => exact absurd rfl hne
  | cons c word ih =>
    rw [List.forall_mem_cons] at hword
    rw [List.cons_append, squeeze_cons_of_not_isBlank hword.1.1]
    cases word with
    | nil =>
      have hgap : gap tight c rest (squeeze tight rest) = [' '] := by
        rw [gap, hblank, hword.1.2, hrest]
        rfl
      rw [List.nil_append, hgap]
      rfl
    | cons d word =>
      have hd := (hword.2 d List.mem_cons_self).1
      rw [ih (List.cons_ne_nil d word) hword.2, List.cons_append,
        gap_of_not_isBlank (by simpa using hd)]
      rfl

/-- A text that is squeezed to a word without tight characters is that word with
blanks around it. -/
theorem trim_eq_of_squeeze_eq {text word : List Char}
    (hword : ∀ c ∈ word, isBlank c = false ∧ tight c = false)
    (h : squeeze tight text = word) : trim text = word := by
  induction text generalizing word with
  | nil => exact h
  | cons c text ih =>
    cases hc : isBlank c with
    | true =>
      rw [trim_cons_of_isBlank hc]
      exact ih hword (squeeze_cons_of_isBlank hc text ▸ h)
    | false =>
      rw [squeeze_cons_of_not_isBlank hc] at h
      subst h
      rw [List.forall_mem_cons] at hword
      have hrest : ∀ d ∈ squeeze tight text, isBlank d = false ∧ tight d = false :=
        fun d hd => hword.2 d (List.mem_append_right _ hd)
      have hgap : gap tight c text (squeeze tight text) = [] := by
        apply List.eq_nil_iff_forall_not_mem.2
        intro d hd
        have hblank := (hword.2 d (List.mem_append_left _ hd)).1
        rw [eq_space_of_mem_gap hd] at hblank
        cases hblank
      rw [hgap, List.nil_append, trim_cons_of_not_isBlank hc]
      congr 1
      cases hstart : text.head?.any isBlank with
      | false =>
        have htrim := ih hrest rfl
        rwa [trim, trimStart_eq_self hstart] at htrim
      | true =>
        -- A space would stand here unless nothing follows.
        have hnil : squeeze tight text = [] := by
          cases hsqueezed : squeeze tight text with
          | nil => rfl
          | cons d rest =>
            have hd := (hrest d (hsqueezed ▸ List.mem_cons_self)).2
            simp [gap, hstart, hword.1.2, hsqueezed, hd] at hgap
        rw [hnil]
        exact squeeze_eq_nil_iff.1 hnil

/-- What a squeezed text starts with, up to a space, the text starts with as
well. -/
theorem exists_append_of_squeeze_eq {text word rest : List Char} (hne : word ≠ [])
    (hstart : text.head?.any isBlank = false)
    (hword : ∀ c ∈ word, isBlank c = false ∧ tight c = false)
    (h : squeeze tight text = word ++ ' ' :: rest) :
    ∃ after, text = word ++ after ∧ after.head?.any isBlank = true ∧
      squeeze tight after = rest := by
  have hspace : isBlank ' ' = true := rfl
  induction word generalizing text with
  | nil => exact absurd rfl hne
  | cons d word ih =>
    rw [List.forall_mem_cons] at hword
    cases text with
    | nil => cases h
    | cons c text =>
      have hc : isBlank c = false := by simpa using hstart
      rw [squeeze_cons_of_not_isBlank hc, List.cons_append, List.cons.injEq] at h
      obtain ⟨rfl, h⟩ := h
      rw [gap] at h
      split at h
      · -- A space follows, so the word ends here.
        rename_i hgap
        simp only [Bool.and_eq_true] at hgap
        cases word with
        | nil =>
          rw [List.nil_append, List.singleton_append, List.cons.injEq] at h
          exact ⟨text, rfl, hgap.1.1, h.2⟩
        | cons e word =>
          rw [List.singleton_append, List.cons_append, List.cons.injEq] at h
          have he := (hword.2 e List.mem_cons_self).1
          rw [← h.1, hspace] at he
          cases he
      · -- No space follows, so the word goes on.
        rename_i hgap
        rw [List.nil_append] at h
        have hhead : (squeeze tight text).head?.any isBlank = false := by
          rw [head?_squeeze]
          exact head?_trimStart_any text
        cases word with
        | nil =>
          rw [h] at hhead
          cases hhead
        | cons e word =>
          have he := (hword.2 e List.mem_cons_self).2
          have hnext : text.head?.any isBlank = false := by
            rw [h] at hgap
            simpa [hword.1.2, he] using hgap
          obtain ⟨after, rfl, hafter⟩ :=
            ih (List.cons_ne_nil e word) hnext hword.2 h
          exact ⟨after, rfl, hafter⟩

end Text

end Cellular
