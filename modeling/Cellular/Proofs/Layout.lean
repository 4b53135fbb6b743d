import Mathlib.Logic.Relation
import Cellular.Proofs.Key

/-!
# Edits of the layout

One rule table can be laid out in many ways.  The edits that change nothing but the
layout are listed here one by one, and two texts have the same key exactly if such
edits, made or undone one after another, lead from one to the other.
-/

namespace Cellular

namespace Text

variable {tight : Char → Bool}

/-- A text of blanks alone. -/
def IsGap (text : List Char) : Prop :=
  ∀ c ∈ text, isBlank c = true

instance (text : List Char) : Decidable (IsGap text) :=
  List.decidableBAll _ text

theorem isGap_nil : IsGap [] :=
  List.forall_mem_nil _

theorem isGap_takeWhile (text : List Char) : IsGap (text.takeWhile isBlank) :=
  fun _ hc => List.mem_takeWhile_imp hc

/-- A text is a gap and what follows it. -/
theorem exists_eq_gap_append (text : List Char) :
    ∃ gap rest, IsGap gap ∧ rest.head?.any isBlank = false ∧ text = gap ++ rest :=
  ⟨_, _, isGap_takeWhile text, head?_trimStart_any text,
    List.takeWhile_append_dropWhile.symm⟩

theorem IsGap.not_mem {gap : List Char} (hgap : IsGap gap) {c : Char}
    (hc : isBlank c = false) : c ∉ gap := by
  intro hmem
  rw [hgap c hmem] at hc
  cases hc

/-! ## Words and gaps -/

theorem words_append_cons_of_isBlank {c : Char} (hc : isBlank c = true)
    (before after : List Char) :
    words (before ++ c :: after) = words before ++ words after := by
  rw [words, List.splitOnP_append_cons before after hc, List.filter_append, ← words, ← words]

theorem words_gap_append {gap : List Char} (hgap : IsGap gap) (text : List Char) :
    words (gap ++ text) = words text := by
  induction gap with
  | nil => rfl
  | cons c gap ih =>
    rw [IsGap, List.forall_mem_cons] at hgap
    rw [List.cons_append, words_cons_of_isBlank hgap.1, ih hgap.2]

theorem words_append_gap_append {gap : List Char} (hgap : IsGap gap) (hne : gap ≠ [])
    (before after : List Char) :
    words (before ++ gap ++ after) = words before ++ words after := by
  obtain ⟨c, gap, rfl⟩ := List.exists_cons_of_ne_nil hne
  rw [IsGap, List.forall_mem_cons] at hgap
  rw [List.append_assoc, List.cons_append, words_append_cons_of_isBlank hgap.1,
    words_gap_append hgap.2]

theorem words_append_gap {gap : List Char} (hgap : IsGap gap) (text : List Char) :
    words (text ++ gap) = words text := by
  by_cases hne : gap = []
  · rw [hne, List.append_nil]
  · calc
      words (text ++ gap) = words (text ++ gap ++ []) := by rw [List.append_nil]
      _ = words text ++ words [] := words_append_gap_append hgap hne text []
      _ = words text := List.append_nil _

/-- Trimming takes a gap off either end. -/
theorem exists_eq_gap_append_trim_append_gap (text : List Char) :
    ∃ left right, IsGap left ∧ IsGap right ∧ text = left ++ trim text ++ right := by
  have hright : IsGap ((trimStart text).reverse.takeWhile isBlank).reverse := by
    intro c hc
    exact isGap_takeWhile _ c (List.mem_reverse.1 hc)
  refine ⟨text.takeWhile isBlank, _, isGap_takeWhile text, hright, ?_⟩
  calc
    text = text.takeWhile isBlank ++ trimStart text := List.takeWhile_append_dropWhile.symm
    _ = text.takeWhile isBlank ++ (trimStart text).reverse.reverse := by rw [List.reverse_reverse]
    _ = text.takeWhile isBlank ++ trim text ++
          ((trimStart text).reverse.takeWhile isBlank).reverse := by
      rw [trim, trimEnd, List.append_assoc, ← List.reverse_append,
        List.takeWhile_append_dropWhile]

theorem words_trim (text : List Char) : words (trim text) = words text := by
  obtain ⟨left, right, hleft, hright, htext⟩ := exists_eq_gap_append_trim_append_gap text
  calc
    words (trim text) = words (left ++ trim text ++ right) := by
      rw [words_append_gap hright, words_gap_append hleft]
    _ = words text := by rw [← htext]

/-- The words after a character that is not blank. -/
theorem filter_modifyHead_words_cons {c : Char} (hc : isBlank c = false) (text : List Char) :
    ((words (c :: text)).modifyHead (·.drop 1)).filter (fun word => !word.isEmpty) =
      words text := by
  have hkeep : (words text).filter (fun word => !word.isEmpty) = words text := by
    rw [List.filter_eq_self]
    intro word hword
    simpa using ne_nil_of_mem_words hword
  rw [words_cons_of_not_isBlank hc]
  split
  · cases hwords : words text with
    | nil => rfl
    | cons word rest =>
      rw [hwords] at hkeep
      exact hkeep
  · exact hkeep

theorem squeeze_eq_of_words_eq {text other : List Char} (h : words other = words text) :
    squeeze tight other = squeeze tight text := by
  rw [← joinBy_words, h, joinBy_words]

end Text

namespace Line

variable {raw other : List Char}

/-- The first character of a line after its leading blanks. -/
def sign? (raw : List Char) : Option Char :=
  (Text.trim raw).head?

/-- The line names a section. -/
def IsHeader (raw : List Char) : Prop :=
  sign? raw = some '@'

/-- The line is blank or a comment. -/
def IsIdle (raw : List Char) : Prop :=
  sign? raw = none ∨ sign? raw = some '#'

/-- The first word of a header after its sign. -/
def title? (header : List Char) : Option (List Char) :=
  (Text.words ((Text.trim header).drop 1)).head?

/-- One edit of the layout of a line. -/
inductive Edit : List Char → List Char → Prop
  /-- Put blanks at the ends. -/
  | pad {left right : List Char} (raw : List Char) (hleft : Text.IsGap left)
      (hright : Text.IsGap right) : Edit raw (left ++ raw ++ right)
  /-- Put other blanks for blanks. -/
  | respace {gap other : List Char} (before after : List Char) (hgap : Text.IsGap gap)
      (hother : Text.IsGap other) (hgapNe : gap ≠ []) (hotherNe : other ≠ []) :
      Edit (before ++ gap ++ after) (before ++ other ++ after)
  /-- Put blanks next to a punctuation mark. -/
  | loosen {mark : Char} {left right : List Char} (before after : List Char)
      (hmark : Rule.isTight mark = true) (hleft : Text.IsGap left)
      (hright : Text.IsGap right) (hplain : ¬ IsHeader (before ++ mark :: after)) :
      Edit (before ++ mark :: after) (before ++ left ++ mark :: (right ++ after))
  /-- Put a comment at the end. -/
  | annotate (raw comment : List Char) (hplain : ¬ IsHeader raw) :
      Edit raw (raw ++ '#' :: comment)

/-! ## Signs -/

theorem sign?_eq_head?_squeeze (tight : Char → Bool) (raw : List Char) :
    sign? raw = (Text.squeeze tight raw).head? := by
  calc
    sign? raw = (Text.trimStart (Text.trim raw)).head? := by
      rw [Text.trimStart_eq_self (Text.head?_trim_any raw), sign?]
    _ = (Text.squeeze tight (Text.trim raw)).head? := (Text.head?_squeeze _ _).symm
    _ = (Text.squeeze tight raw).head? := by rw [Text.squeeze_trim]

theorem sign?_cons_of_isBlank {c : Char} (hc : Text.isBlank c = true) (raw : List Char) :
    sign? (c :: raw) = sign? raw := by
  rw [sign?, sign?, Text.trim_cons_of_isBlank hc]

theorem sign?_cons_of_not_isBlank {c : Char} (hc : Text.isBlank c = false)
    (raw : List Char) : sign? (c :: raw) = some c := by
  rw [sign?, Text.trim_cons_of_not_isBlank hc, List.head?_cons]

theorem sign?_append (before after : List Char) :
    sign? (before ++ after) = (sign? before).or (sign? after) := by
  induction before with
  | nil => rfl
  | cons c before ih =>
    rw [List.cons_append]
    cases hc : Text.isBlank c with
    | true => rw [sign?_cons_of_isBlank hc, sign?_cons_of_isBlank hc, ih]
    | false => rw [sign?_cons_of_not_isBlank hc, sign?_cons_of_not_isBlank hc, Option.some_or]

theorem sign?_gap {gap : List Char} (hgap : Text.IsGap gap) : sign? gap = none := by
  rw [sign?_eq_head?_squeeze (fun _ => false), Text.squeeze_eq_of_words_eq
    (by simpa using Text.words_gap_append hgap [] : Text.words gap = Text.words [])]
  rfl

/-- A comment at the end of a line may make a sign of its own. -/
theorem Edit.sign?_eq_or (h : Edit raw other) :
    sign? other = sign? raw ∨ (sign? raw = none ∧ sign? other = some '#') := by
  have hhash : ∀ comment, sign? ('#' :: comment) = some '#' :=
    sign?_cons_of_not_isBlank rfl
  cases h with
  | pad _ hleft hright => simp [sign?_append, sign?_gap hleft, sign?_gap hright]
  | respace before after hgap hother => simp [sign?_append, sign?_gap hgap, sign?_gap hother]
  | @loosen mark left right before after hmark hleft hright =>
    have hsign := sign?_cons_of_not_isBlank (Text.isBlank_of_isTight hmark)
    simp [sign?_append, sign?_gap hleft, hsign]
  | annotate _ comment =>
    rw [sign?_append, hhash]
    cases sign? raw <;> simp

theorem Edit.isHeader_iff (h : Edit raw other) : IsHeader other ↔ IsHeader raw := by
  rw [IsHeader, IsHeader]
  rcases h.sign?_eq_or with hsign | ⟨hnone, hsign⟩
  · rw [hsign]
  · rw [hsign, hnone]
    decide

theorem Edit.isIdle_iff (h : Edit raw other) : IsIdle other ↔ IsIdle raw := by
  rw [IsIdle, IsIdle]
  rcases h.sign?_eq_or with hsign | ⟨hnone, hsign⟩
  · rw [hsign]
  · rw [hsign, hnone]
    decide

/-! ## Words of headers -/

theorem Edit.words_eq_of_isHeader (h : Edit raw other) (hheader : IsHeader raw) :
    Text.words other = Text.words raw := by
  cases h with
  | pad _ hleft hright =>
    rw [Text.words_append_gap hright, Text.words_gap_append hleft]
  | respace before after hgap hother hgapNe hotherNe =>
    rw [Text.words_append_gap_append hgap hgapNe, Text.words_append_gap_append hother hotherNe]
  | loosen _ _ _ _ _ hplain => exact absurd hheader hplain
  | annotate _ _ hplain => exact absurd hheader hplain

/-- The words of a header tell its title. -/
theorem title?_eq_of_words_eq (hheader : IsHeader raw) (hotherHeader : IsHeader other)
    (h : Text.words other = Text.words raw) : title? other = title? raw := by
  have htail : ∀ {header}, IsHeader header → Text.words ((Text.trim header).drop 1) =
      ((Text.words header).modifyHead (·.drop 1)).filter fun word => !word.isEmpty := by
    intro header hheader
    obtain ⟨text, htext⟩ := List.head?_eq_some_iff.1 hheader
    rw [← Text.words_trim header, htext, Text.filter_modifyHead_words_cons rfl]
    rfl
  rw [title?, title?, htail hheader, htail hotherHeader, h]

theorem Edit.title?_eq (h : Edit raw other) (hheader : IsHeader raw) :
    title? other = title? raw :=
  title?_eq_of_words_eq hheader (h.isHeader_iff.2 hheader) (h.words_eq_of_isHeader hheader)

/-! ## Comments -/

theorem uncommented_append_of_mem {before : List Char} (h : '#' ∈ before)
    (after : List Char) : uncommented (before ++ after) = uncommented before := by
  have hne : (before.takeWhile (· ≠ '#')).length ≠ before.length := by
    intro hlength
    have hself := (List.takeWhile_prefix _).eq_of_length hlength
    simpa using List.takeWhile_eq_self_iff.1 hself _ h
  rw [uncommented, List.takeWhile_append, if_neg hne, uncommented]

theorem uncommented_append_of_not_mem {before : List Char} (h : '#' ∉ before)
    (after : List Char) : uncommented (before ++ after) = before ++ uncommented after := by
  apply List.takeWhile_append_of_pos
  intro c hc
  rw [decide_eq_true_iff]
  exact fun heq => h (heq ▸ hc)

open Rule (squeezed) in
/-- What a key keeps of a line is the same after an edit. -/
theorem Edit.squeezed_uncommented_eq (h : Edit raw other) :
    squeezed (uncommented other) = squeezed (uncommented raw) := by
  have hhash : ∀ {gap}, Text.IsGap gap → '#' ∉ gap := fun hgap => hgap.not_mem rfl
  cases h with
  | @pad left right _ hleft hright =>
    apply Text.squeeze_eq_of_words_eq
    rw [List.append_assoc, uncommented_append_of_not_mem (hhash hleft),
      Text.words_gap_append hleft]
    by_cases hcomment : '#' ∈ raw
    · rw [uncommented_append_of_mem hcomment]
    · rw [uncommented_append_of_not_mem hcomment, Rule.uncommented_eq_self hcomment,
        Rule.uncommented_eq_self (hhash hright), Text.words_append_gap hright]
  | @respace gap other before after hgap hother hgapNe hotherNe =>
    by_cases hcomment : '#' ∈ before
    · simp only [List.append_assoc, uncommented_append_of_mem hcomment]
    · apply Text.squeeze_eq_of_words_eq
      simp only [List.append_assoc, uncommented_append_of_not_mem hcomment,
        uncommented_append_of_not_mem (hhash hgap), uncommented_append_of_not_mem (hhash hother)]
      simp only [← List.append_assoc, Text.words_append_gap_append hgap hgapNe,
        Text.words_append_gap_append hother hotherNe]
  | @loosen mark left right before after hmark hleft hright =>
    by_cases hcomment : '#' ∈ before
    · simp only [List.append_assoc, uncommented_append_of_mem hcomment]
    · have hcut : ∀ rest, uncommented (mark :: rest) = mark :: uncommented rest := by
        have hmarkNe : '#' ∉ [mark] := by
          rintro ⟨⟩
          · cases hmark
          · contradiction
        exact uncommented_append_of_not_mem hmarkNe
      calc
        squeezed (uncommented (before ++ left ++ mark :: (right ++ after))) =
            squeezed (before ++ left ++ mark :: (right ++ uncommented after)) := by
          rw [List.append_assoc, uncommented_append_of_not_mem hcomment,
            uncommented_append_of_not_mem (hhash hleft), hcut,
            uncommented_append_of_not_mem (hhash hright), ← List.append_assoc]
        _ = squeezed (before ++ left) ++ mark :: squeezed (right ++ uncommented after) :=
          Rule.squeezed_append hmark _ _
        _ = squeezed before ++ mark :: squeezed (uncommented after) := by
          rw [squeezed, Text.squeeze_eq_of_words_eq (Text.words_append_gap hleft before),
            squeezed, Text.squeeze_eq_of_words_eq (Text.words_gap_append hright _)]
        _ = squeezed (uncommented (before ++ mark :: after)) := by
          rw [uncommented_append_of_not_mem hcomment, hcut, Rule.squeezed_append hmark]
  | annotate _ comment =>
    by_cases hcomment : '#' ∈ raw
    · rw [uncommented_append_of_mem hcomment]
    · rw [uncommented_append_of_not_mem hcomment, Rule.uncommented_eq_self hcomment]
      exact congrArg squeezed (List.append_nil raw)

/-! ## Edits to the shortest layout -/

theorem isHeader_append_cons_iff {c : Char} (hc : Text.isBlank c = false)
    (before after : List Char) :
    IsHeader (before ++ c :: after) ↔ IsHeader (before ++ [c]) := by
  rw [IsHeader, IsHeader, sign?_append, sign?_append, sign?_cons_of_not_isBlank hc,
    sign?_cons_of_not_isBlank hc]

variable {tight : Char → Bool} {c d : Char}

/-- Blanks next to these marks can be put into the line. -/
def Loosens (tight : Char → Bool) (raw : List Char) : Prop :=
  ∀ mark, tight mark = true → Rule.isTight mark = true ∧ ¬ IsHeader raw

theorem Loosens.imp (h : Loosens tight raw) (hheader : ¬ IsHeader raw → ¬ IsHeader other) :
    Loosens tight other :=
  fun mark hmark => (h mark hmark).imp_right hheader

/-- The gap between two characters is brought to its shortest form. -/
theorem eqvGen_gap {before blanks : List Char} (hblanks : Text.IsGap blanks)
    (hc : Text.isBlank c = false) (hd : Text.isBlank d = false)
    (htight : Loosens tight (before ++ [c])) (rest after : List Char) :
    Relation.EqvGen Edit (before ++ c :: (blanks ++ d :: after))
      (before ++ c :: (Text.gap tight c (blanks ++ d :: rest) (d :: after) ++ d :: after)) := by
  cases blanks with
  | nil =>
    rw [Text.gap_of_not_isBlank (by simpa using hd)]
    exact .refl _
  | cons e blanks =>
    have he : Text.isBlank e = true := hblanks e List.mem_cons_self
    have hgap : Text.gap tight c (e :: blanks ++ d :: rest) (d :: after) =
        if tight c = false ∧ tight d = false then [' '] else [] := by
      simp [Text.gap, he]
    rw [hgap]
    split
    · -- Neither character is a mark that takes the place of the blanks.
      have hspace : Text.IsGap [' '] := by decide
      have hedit := Edit.respace (before ++ [c]) (d :: after) hblanks hspace
        (List.cons_ne_nil _ _) (List.cons_ne_nil _ _)
      simpa using Relation.EqvGen.rel _ _ hedit
    · rename_i hmarks
      apply Relation.EqvGen.symm
      apply Relation.EqvGen.rel
      cases hcTight : tight c with
      | true =>
        obtain ⟨hmark, hplain⟩ := htight c hcTight
        simpa using Edit.loosen before (d :: after) hmark Text.isGap_nil hblanks
          (mt (isHeader_append_cons_iff hc _ _).1 hplain)
      | false =>
        have hdTight : tight d = true := by simpa [hcTight] using hmarks
        obtain ⟨hmark, hplain⟩ := htight d hdTight
        have hstart : ¬ IsHeader (before ++ [c] ++ d :: after) := by
          rw [List.append_assoc, List.singleton_append, isHeader_append_cons_iff hc]
          exact hplain
        simpa using Edit.loosen (before ++ [c]) after hmark hblanks Text.isGap_nil hstart

/-- A line is brought to its shortest form from any of its characters on. -/
theorem eqvGen_append_squeeze {before : List Char} (hc : Text.isBlank c = false)
    (htight : Loosens tight (before ++ [c])) (text : List Char) :
    Relation.EqvGen Edit (before ++ c :: text) (before ++ Text.squeeze tight (c :: text)) := by
  induction hn : text.length using Nat.strong_induction_on generalizing before c text with
  | _ n ih =>
    obtain ⟨blanks, rest, hblanks, hrest, rfl⟩ := Text.exists_eq_gap_append text
    have hskip : ∀ text, Text.squeeze tight (blanks ++ text) = Text.squeeze tight text :=
      fun text => Text.squeeze_eq_of_words_eq (Text.words_gap_append hblanks text)
    rw [Text.squeeze_cons_of_not_isBlank hc, hskip]
    cases rest with
    | nil =>
      have hedit := Edit.pad (before ++ [c]) Text.isGap_nil hblanks
      simpa [Text.squeeze, Text.gap_nil] using (Relation.EqvGen.rel _ _ hedit).symm
    | cons d rest =>
      have hd : Text.isBlank d = false := by simpa using hrest
      have hlength : rest.length < n := by
        rw [List.length_append, List.length_cons] at hn
        omega
      have hsign : ¬ IsHeader (before ++ [c]) → ¬ IsHeader (before ++ c :: blanks ++ [d]) := by
        rw [List.append_assoc]
        exact (isHeader_append_cons_iff hc before (blanks ++ [d])).not.2
      have hlater : Relation.EqvGen Edit (before ++ c :: blanks ++ d :: rest)
          (before ++ c :: blanks ++ Text.squeeze tight (d :: rest)) :=
        ih _ hlength hd (htight.imp hsign) rest rfl
      rw [Text.squeeze_cons_of_not_isBlank hd] at hlater ⊢
      rw [List.append_assoc, List.append_assoc] at hlater
      exact .trans _ _ _ hlater (eqvGen_gap hblanks hc hd htight rest _)

/-- A line is brought to its shortest form.  A header keeps the blanks at its marks. -/
theorem eqvGen_squeeze (htight : Loosens tight raw) :
    Relation.EqvGen Edit raw (Text.squeeze tight raw) := by
  obtain ⟨blanks, rest, hblanks, hrest, rfl⟩ := Text.exists_eq_gap_append raw
  have htrimmed : Relation.EqvGen Edit (blanks ++ rest) rest := by
    have hedit := Edit.pad rest hblanks Text.isGap_nil
    rw [List.append_nil] at hedit
    exact .symm _ _ (.rel _ _ hedit)
  rw [Text.squeeze_eq_of_words_eq (Text.words_gap_append hblanks rest)]
  cases rest with
  | nil => exact htrimmed
  | cons c text =>
    have hc : Text.isBlank c = false := by simpa using hrest
    have hsign : ¬ IsHeader (blanks ++ c :: text) → ¬ IsHeader ([] ++ [c]) := by
      rw [isHeader_append_cons_iff hc, IsHeader, IsHeader, sign?_append, sign?_gap hblanks]
      exact id
    have hsqueezed := eqvGen_append_squeeze hc (htight.imp hsign) text
    exact .trans _ _ _ htrimmed hsqueezed

/-- A comment at the end of a line is left out. -/
theorem eqvGen_uncommented (hheader : ¬ IsHeader raw) :
    Relation.EqvGen Edit raw (uncommented raw) ∧ ¬ IsHeader (uncommented raw) := by
  by_cases hcomment : '#' ∈ raw
  · obtain ⟨before, comment, rfl, hbefore⟩ := List.eq_append_cons_of_mem hcomment
    have hcut : uncommented (before ++ '#' :: comment) = before := by
      rw [uncommented_append_of_not_mem hbefore]
      exact List.append_nil before
    have hplain : ¬ IsHeader before := by
      intro hbefore
      apply hheader
      rw [IsHeader, sign?_append, hbefore, Option.some_or]
    rw [hcut]
    exact ⟨.symm _ _ (.rel _ _ (.annotate before comment hplain)), hplain⟩
  · rw [Rule.uncommented_eq_self hcomment]
    exact ⟨.refl _, hheader⟩

end Line

namespace Rule

open Line (IsHeader IsIdle title?)

variable {raw other : List Char} {raws others : List (List Char)}

/-! ## The lines of a key -/

theorem keyLines_header (hheader : IsHeader raw) (inTable : Bool) (rest : List (List Char)) :
    keyLines inTable (raw :: rest) =
      Text.squeeze (fun _ => false) raw :: keyLines (title? raw = some "TABLE".toList) rest := by
  obtain ⟨text, htext⟩ := List.head?_eq_some_iff.1 hheader
  have hclass : Line.classify raw = .header text := by
    rw [Line.classify, htext]
    rfl
  have htitle : title? raw = (Text.words text).head? := by
    rw [title?, htext]
    rfl
  have hsqueezed : tightenedHeader text = Text.squeeze (fun _ => false) raw := by
    rw [tightenedHeader_eq_squeeze, ← htext, Text.squeeze_trim]
  simp only [keyLines, hclass, hsqueezed, opensTable, htitle]

theorem keyLines_idle (hidle : IsIdle raw) (inTable : Bool) (rest : List (List Char)) :
    keyLines inTable (raw :: rest) = keyLines inTable rest := by
  have hclass : Line.classify raw = .skipped := by
    rcases hidle with hnone | hcomment
    · rw [Line.classify, List.head?_eq_none_iff.1 hnone]
    · obtain ⟨text, htext⟩ := List.head?_eq_some_iff.1 hcomment
      rw [Line.classify, htext]
      rfl
  simp only [keyLines, hclass]

/-- What a key keeps of a line does not depend on the blanks around it. -/
theorem tightened_trim (raw : List Char) :
    tightened (Text.trim raw) = squeezed (Line.uncommented raw) := by
  obtain ⟨left, right, hleft, hright, hraw⟩ := Text.exists_eq_gap_append_trim_append_gap raw
  calc
    tightened (Text.trim raw) = squeezed (Line.uncommented (Text.trim raw)) :=
      tightened_eq_squeezed _
    _ = squeezed (Line.uncommented (left ++ Text.trim raw ++ right)) :=
      (Line.Edit.pad _ hleft hright).squeezed_uncommented_eq.symm
    _ = squeezed (Line.uncommented raw) := by rw [← hraw]

theorem keyLines_content (hheader : ¬ IsHeader raw) (hidle : ¬ IsIdle raw) (inTable : Bool)
    (rest : List (List Char)) :
    keyLines inTable (raw :: rest) =
      if inTable then squeezed (Line.uncommented raw) :: keyLines inTable rest
      else keyLines inTable rest := by
  rw [IsIdle, not_or] at hidle
  obtain ⟨c, hsign⟩ := Option.ne_none_iff_exists'.1 hidle.1
  obtain ⟨text, htext⟩ := List.head?_eq_some_iff.1 hsign
  have hclass : Line.classify raw = .content (Text.trim raw) := by
    rw [htext]
    apply Line.classify_of_trim htext
    · rintro rfl
      exact hidle.2 hsign
    · rintro rfl
      exact hheader hsign
  simp only [keyLines, hclass, tightened_trim]

/-! ## Edits of a table -/

/-- None of these lines is a header. -/
def NoHeader (raws : List (List Char)) : Prop :=
  ∀ raw ∈ raws, ¬ IsHeader raw

theorem noHeader_nil : NoHeader [] :=
  List.forall_mem_nil _

/-- The last header of these lines opens another section than the table. -/
def LeavesTable (above : List (List Char)) : Prop :=
  ∃ earlier header between, above = earlier ++ header :: between ∧ IsHeader header ∧
    title? header ≠ some "TABLE".toList ∧ NoHeader between

/-- One edit of the layout of a rule table, which is given by its lines. -/
inductive Edit : List (List Char) → List (List Char) → Prop
  /-- Put in a line that is blank or a comment. -/
  | insertIdle {raw : List Char} (above below : List (List Char)) (hidle : IsIdle raw) :
      Edit (above ++ below) (above ++ raw :: below)
  /-- Change the layout of a line. -/
  | editLine {raw other : List Char} (above below : List (List Char))
      (hedit : Line.Edit raw other) : Edit (above ++ raw :: below) (above ++ other :: below)
  /-- Put any lines but headers for lines outside the table. -/
  | replaceOutside {raws others above : List (List Char)} (below : List (List Char))
      (habove : LeavesTable above) (hraws : NoHeader raws) (hothers : NoHeader others) :
      Edit (above ++ raws ++ below) (above ++ others ++ below)

/-- Edits of the layout, made or undone, lead from one table to the other. -/
def SameLayout : List (List Char) → List (List Char) → Prop :=
  Relation.EqvGen Edit

/-! ### Edits keep the key -/

/-- Lines of which a key has the same in either section can stand below any lines. -/
theorem keyLines_append_congr (h : ∀ inTable, keyLines inTable others = keyLines inTable raws)
    (inTable : Bool) (above : List (List Char)) :
    keyLines inTable (above ++ others) = keyLines inTable (above ++ raws) := by
  induction above generalizing inTable with
  | nil => exact h inTable
  | cons raw above ih =>
    rw [List.cons_append, List.cons_append, keyLines, keyLines]
    simp only [ih]

theorem keyLines_false_append (hraws : NoHeader raws) (below : List (List Char)) :
    keyLines false (raws ++ below) = keyLines false below := by
  induction raws with
  | nil => rfl
  | cons raw raws ih =>
    rw [NoHeader, List.forall_mem_cons] at hraws
    rw [List.cons_append]
    by_cases hidle : IsIdle raw
    · rw [keyLines_idle hidle, ih hraws.2]
    · rw [keyLines_content hraws.1 hidle, if_neg Bool.false_ne_true, ih hraws.2]

theorem keyLines_editLine (h : Line.Edit raw other) (inTable : Bool) (below : List (List Char)) :
    keyLines inTable (other :: below) = keyLines inTable (raw :: below) := by
  by_cases hheader : IsHeader raw
  · rw [keyLines_header hheader, keyLines_header (h.isHeader_iff.2 hheader),
      Text.squeeze_eq_of_words_eq (h.words_eq_of_isHeader hheader)]
    simp only [h.title?_eq hheader]
  · by_cases hidle : IsIdle raw
    · rw [keyLines_idle hidle, keyLines_idle (h.isIdle_iff.2 hidle)]
    · rw [keyLines_content hheader hidle,
        keyLines_content (mt h.isHeader_iff.1 hheader) (mt h.isIdle_iff.1 hidle),
        h.squeezed_uncommented_eq]

theorem keyLines_replaceOutside {above : List (List Char)} (habove : LeavesTable above)
    (hraws : NoHeader raws) (hothers : NoHeader others) (inTable : Bool)
    (below : List (List Char)) :
    keyLines inTable (above ++ others ++ below) = keyLines inTable (above ++ raws ++ below) := by
  obtain ⟨earlier, header, between, rfl, hheader, htitle, hbetween⟩ := habove
  have hunder : ∀ {lines}, NoHeader lines → ∀ inTable,
      keyLines inTable (header :: (between ++ (lines ++ below))) =
        Text.squeeze (fun _ => false) header :: keyLines false below := by
    intro lines hlines inTable
    rw [keyLines_header hheader, decide_eq_false htitle, keyLines_false_append hbetween,
      keyLines_false_append hlines]
  simp only [List.append_assoc, List.cons_append]
  apply keyLines_append_congr
  intro inTable
  rw [hunder hraws, hunder hothers]

/-- One edit keeps the lines of the key. -/
theorem Edit.keyLines_eq (h : Edit raws others) (inTable : Bool) :
    keyLines inTable others = keyLines inTable raws := by
  cases h with
  | insertIdle above below hidle =>
    exact keyLines_append_congr (fun inTable => keyLines_idle hidle inTable below) inTable above
  | editLine above below hedit =>
    exact keyLines_append_congr (fun inTable => keyLines_editLine hedit inTable below)
      inTable above
  | replaceOutside below habove hraws hothers =>
    exact keyLines_replaceOutside habove hraws hothers inTable below

theorem SameLayout.keyLines_eq (h : SameLayout raws others) (inTable : Bool) :
    keyLines inTable others = keyLines inTable raws := by
  induction h with
  | rel raws others hedit => exact hedit.keyLines_eq inTable
  | refl raws => rfl
  | symm raws others _ ih => exact ih.symm
  | trans raws between others _ _ ih ih' => exact ih'.trans ih

/-! ### Edits lead to the key -/

theorem SameLayout.editLine (h : Relation.EqvGen Line.Edit raw other)
    (above below : List (List Char)) :
    SameLayout (above ++ raw :: below) (above ++ other :: below) := by
  induction h with
  | rel raw other hedit => exact .rel _ _ (.editLine above below hedit)
  | refl raw => exact .refl _
  | symm raw other _ ih => exact .symm _ _ ih
  | trans raw between other _ _ ih ih' => exact .trans _ _ _ ih ih'

/-- A header stays one, with its title. -/
theorem title?_eq_of_eqvGen (h : Relation.EqvGen Line.Edit raw other) :
    (IsHeader other ↔ IsHeader raw) ∧ (IsHeader raw → title? other = title? raw) := by
  induction h with
  | rel raw other hedit => exact ⟨hedit.isHeader_iff, hedit.title?_eq⟩
  | refl raw => exact ⟨Iff.rfl, fun _ => rfl⟩
  | symm raw other _ ih => exact ⟨ih.1.symm, fun hheader => (ih.2 (ih.1.1 hheader)).symm⟩
  | trans raw between other _ _ ih ih' =>
    exact ⟨ih'.1.trans ih.1, fun hheader => (ih'.2 (ih.1.2 hheader)).trans (ih.2 hheader)⟩

/-- A table is brought to the lines of its key, from any of its lines on. -/
theorem sameLayout_append_keyLines {above : List (List Char)} {inTable : Bool}
    (habove : inTable = false → LeavesTable above) (raws : List (List Char)) :
    SameLayout (above ++ raws) (above ++ keyLines inTable raws) := by
  induction raws generalizing above inTable with
  | nil => exact .refl _
  | cons raw rest ih =>
    -- A line that the key keeps joins the lines above.
    have hkeep : ∀ {kept opened}, Relation.EqvGen Line.Edit raw kept →
        (opened = false → LeavesTable (above ++ [kept])) →
        SameLayout (above ++ raw :: rest) (above ++ kept :: keyLines opened rest) := by
      intro kept opened hedits hkept
      have hrest := ih hkept
      rw [List.append_assoc, List.append_assoc] at hrest
      exact .trans _ _ _ (SameLayout.editLine hedits above rest) hrest
    by_cases hheader : IsHeader raw
    · rw [keyLines_header hheader]
      have hedits : Relation.EqvGen Line.Edit raw (Text.squeeze (fun _ => false) raw) :=
        Line.eqvGen_squeeze fun _ hmark => absurd hmark Bool.false_ne_true
      refine hkeep hedits fun htitle => ?_
      obtain ⟨hheaderIff, htitleEq⟩ := title?_eq_of_eqvGen hedits
      refine ⟨above, _, [], rfl, hheaderIff.2 hheader, ?_, noHeader_nil⟩
      rw [htitleEq hheader]
      exact of_decide_eq_false htitle
    · by_cases hidle : IsIdle raw
      · rw [keyLines_idle hidle]
        exact .trans _ _ _ (.symm _ _ (.rel _ _ (.insertIdle above rest hidle))) (ih habove)
      · rw [keyLines_content hheader hidle]
        cases inTable with
        | true =>
          obtain ⟨hcut, hplain⟩ := Line.eqvGen_uncommented hheader
          exact hkeep (.trans _ _ _ hcut (Line.eqvGen_squeeze fun _ hmark => ⟨hmark, hplain⟩))
            fun h => absurd h (by decide)
        | false =>
          have hedit : Edit (above ++ [] ++ rest) (above ++ [raw] ++ rest) :=
            .replaceOutside rest (habove rfl) noHeader_nil (by simpa [NoHeader] using hheader)
          rw [List.append_nil, List.append_assoc] at hedit
          exact .trans _ _ _ (.symm _ _ (.rel _ _ hedit)) (ih habove)

theorem key_eq_of_sameLayout {text other : String}
    (h : SameLayout (Line.rawLines text.toList) (Line.rawLines other.toList)) :
    key other = key text := by
  rw [key, key, h.keyLines_eq]

/-- A key is one of the layouts of its text. -/
theorem sameLayout_key (text : String) :
    SameLayout (Line.rawLines text.toList) (Line.rawLines (key text).toList) := by
  have hlines : SameLayout ([] ++ Line.rawLines text.toList)
      ([] ++ keyLines true (Line.rawLines text.toList)) :=
    sameLayout_append_keyLines (fun h => absurd h (by decide)) _
  rw [List.nil_append, List.nil_append] at hlines
  rw [key, String.toList_ofList]
  by_cases hnil : keyLines true (Line.rawLines text.toList) = []
  · -- The empty text still has a line.
    rw [hnil] at hlines ⊢
    exact .trans _ _ _ hlines (.rel _ _ (.insertIdle [] [] (.inl rfl)))
  · have hread := List.splitOn_intercalate '\n' newline_not_mem_keyLines hnil
    rwa [← hread] at hlines

/-- Two texts have the same key exactly if edits of the layout lead from one to the
other. -/
theorem key_eq_iff_sameLayout (text other : String) :
    key other = key text ↔
      SameLayout (Line.rawLines text.toList) (Line.rawLines other.toList) := by
  constructor
  · intro hkey
    have hother := sameLayout_key other
    rw [hkey] at hother
    exact .trans _ _ _ (sameLayout_key text) (.symm _ _ hother)
  · exact key_eq_of_sameLayout

end Rule

end Cellular
