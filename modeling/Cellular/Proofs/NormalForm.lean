import Cellular.Proofs.Cache
import Cellular.Proofs.Layout

/-!
# Keys are in normal form

What a text looks like that is its own key can be told without taking keys: it has no
idle lines, headers and the lines of the table are all that is left, and blanks stand
only as single spaces where they mean something.  Every key is of this form, and a text
of this form is its own key; so taking keys is a projection.  A cache keeps its tables
under texts of this form, and a text of this form has its table under itself.
-/

namespace Cellular

namespace Text

variable {tight : Char → Bool} {c : Char} {text before after : List Char}

/-- A character next to which a space means something. -/
def KeepsSpace (tight : Char → Bool) (c : Char) : Prop :=
  isBlank c = false ∧ tight c = false

/-- Every blank of the text is a space between two characters that keep it. -/
def IsSqueezed (tight : Char → Bool) (text : List Char) : Prop :=
  ∀ before c after, text = before ++ c :: after → isBlank c = true →
    c = ' ' ∧ (∃ left, before.getLast? = some left ∧ KeepsSpace tight left) ∧
      ∃ right, after.head? = some right ∧ KeepsSpace tight right

theorem isSqueezed_nil : IsSqueezed tight [] := by
  intro before c after h
  cases before <;> cases h

theorem IsSqueezed.head_not_blank (h : IsSqueezed tight (c :: text)) : isBlank c = false := by
  rw [← Bool.not_eq_true]
  intro hc
  obtain ⟨-, ⟨_, hleft, -⟩, -⟩ := h [] c text rfl hc
  cases hleft

/-- A part that begins with a character of its own is squeezed as well. -/
theorem IsSqueezed.of_append (before : List Char) (h : IsSqueezed tight (before ++ c :: text))
    (hc : isBlank c = false) : IsSqueezed tight (c :: text) := by
  intro front d after heq hd
  cases front with
  | nil =>
    rw [List.nil_append, List.cons.injEq] at heq
    rw [heq.1, hd] at hc
    cases hc
  | cons e front =>
    obtain ⟨hspace, hleft, hright⟩ :=
      h (before ++ e :: front) d after (by rw [heq, List.append_assoc]) hd
    rw [List.getLast?_append_of_ne_nil _ (List.cons_ne_nil e front)] at hleft
    exact ⟨hspace, hleft, hright⟩

/-- Squeezing leaves a squeezed text as it is. -/
theorem squeeze_of_isSqueezed : ∀ {text : List Char}, IsSqueezed tight text →
    squeeze tight text = text
  | [], _ => rfl
  | [c], h => by
    rw [squeeze_cons_of_not_isBlank h.head_not_blank, squeeze, gap_nil, List.append_nil]
  | c :: d :: text, h => by
    have hc := h.head_not_blank
    rw [squeeze_cons_of_not_isBlank hc]
    cases hd : isBlank d with
    | false =>
      rw [gap_of_not_isBlank (by simpa using hd), List.nil_append,
        squeeze_of_isSqueezed (IsSqueezed.of_append [c] h hd)]
    | true =>
      -- The blank is a space, and the text goes on after it.
      obtain ⟨rfl, ⟨left, hleft, -, hkeeps⟩, right, hright, hblank, htight⟩ :=
        h [c] d text rfl hd
      rw [List.getLast?_singleton, Option.some.injEq] at hleft
      subst hleft
      obtain ⟨rest, rfl⟩ := List.head?_eq_some_iff.1 hright
      have hrest : squeeze tight (right :: rest) = right :: rest :=
        squeeze_of_isSqueezed (IsSqueezed.of_append [c, ' '] h hblank)
      rw [squeeze_cons_of_isBlank hd, hrest, gap, List.head?_cons, List.head?_cons,
        Option.any_some, Option.any_some, hd, hkeeps, htight]
      rfl

theorem isSqueezed_cons (hc : isBlank c = false) (h : IsSqueezed tight text) :
    IsSqueezed tight (c :: text) := by
  intro before d after heq hd
  cases before with
  | nil =>
    rw [List.nil_append, List.cons.injEq] at heq
    rw [heq.1, hd] at hc
    cases hc
  | cons e before =>
    rw [List.cons_append, List.cons.injEq] at heq
    obtain ⟨hspace, ⟨left, hleft, hkeeps⟩, hright⟩ := h before d after heq.2 hd
    exact ⟨hspace, ⟨left, by rw [List.getLast?_cons, hleft]; rfl, hkeeps⟩, hright⟩

theorem isSqueezed_cons_space (hc : KeepsSpace tight c)
    (hnext : ∃ right, text.head? = some right ∧ KeepsSpace tight right)
    (h : IsSqueezed tight text) : IsSqueezed tight (c :: ' ' :: text) := by
  intro before d after heq hd
  rcases before with _ | ⟨e, _ | ⟨space, before⟩⟩
  · rw [List.nil_append, List.cons.injEq] at heq
    rw [← heq.1, hc.1] at hd
    cases hd
  · simp only [List.cons_append, List.nil_append, List.cons.injEq] at heq
    obtain ⟨rfl, rfl, rfl⟩ := heq
    exact ⟨rfl, ⟨c, rfl, hc⟩, hnext⟩
  · simp only [List.cons_append, List.cons.injEq] at heq
    obtain ⟨hspace, ⟨left, hleft, hkeeps⟩, hright⟩ := h before d after heq.2.2 hd
    refine ⟨hspace, ⟨left, ?_, hkeeps⟩, hright⟩
    rw [List.getLast?_cons_cons, List.getLast?_cons, hleft]
    rfl

/-- A squeezed text keeps blanks only where they mean something. -/
theorem isSqueezed_squeeze (tight : Char → Bool) (text : List Char) :
    IsSqueezed tight (squeeze tight text) := by
  induction text with
  | nil => exact isSqueezed_nil
  | cons c text ih =>
    cases hc : isBlank c with
    | true =>
      rw [squeeze_cons_of_isBlank hc]
      exact ih
    | false =>
      rw [squeeze_cons_of_not_isBlank hc, gap]
      split
      · rename_i hgap
        simp only [Bool.and_eq_true, Bool.not_eq_true'] at hgap
        obtain ⟨⟨-, htight⟩, hnext⟩ := hgap
        have hstart : (squeeze tight text).head?.any isBlank = false := by
          rw [head?_squeeze]
          exact head?_trimStart_any text
        rw [List.singleton_append]
        refine isSqueezed_cons_space ⟨hc, htight⟩ ?_ ih
        cases hhead : (squeeze tight text).head? with
        | none =>
          rw [hhead] at hnext
          cases hnext
        | some right =>
          rw [hhead] at hnext hstart
          exact ⟨right, rfl, hstart, by simpa using hnext⟩
      · exact isSqueezed_cons hc ih

theorem squeeze_squeeze (tight : Char → Bool) (text : List Char) :
    squeeze tight (squeeze tight text) = squeeze tight text :=
  squeeze_of_isSqueezed (isSqueezed_squeeze tight text)

end Text

namespace Line

variable {raw : List Char}

theorem sign?_squeeze (tight : Char → Bool) (raw : List Char) :
    sign? (Text.squeeze tight raw) = sign? raw := by
  rw [sign?_eq_head?_squeeze tight, Text.squeeze_squeeze, ← sign?_eq_head?_squeeze]

/-- A line that is not idle has its sign before any comment. -/
theorem sign?_uncommented (hidle : ¬ IsIdle raw) : sign? (uncommented raw) = sign? raw := by
  rw [IsIdle, not_or] at hidle
  have hsplit : raw = uncommented raw ++ raw.dropWhile (· ≠ '#') :=
    List.takeWhile_append_dropWhile.symm
  have hcomment : sign? (raw.dropWhile (· ≠ '#')) = none ∨
      sign? (raw.dropWhile (· ≠ '#')) = some '#' := by
    have hstop := List.head?_dropWhile_not (· ≠ '#') raw
    cases hdrop : raw.dropWhile (· ≠ '#') with
    | nil => exact .inl rfl
    | cons c rest =>
      rw [hdrop, List.head?_cons] at hstop
      have hc : c = '#' := by simpa using hstop
      rw [hc, sign?_cons_of_not_isBlank rfl]
      exact .inr rfl
  have hsign : sign? raw =
      (sign? (uncommented raw)).or (sign? (raw.dropWhile (· ≠ '#'))) := by
    rw [← sign?_append, ← hsplit]
  cases hcut : sign? (uncommented raw) with
  | none =>
    rw [hcut, Option.none_or] at hsign
    rw [hsign] at hidle
    exact absurd hcomment (not_or.2 hidle)
  | some c => rw [hsign, hcut, Option.some_or]

end Line

namespace Rule

open Line (IsHeader IsIdle title?)

variable {inTable : Bool} {raws : List (List Char)} {text : String}

/-- Lines in normal form, the first of them in the table section or not: headers with
single spaces, and in the table section lines without comments that have no space to
spare. -/
inductive AreNormal : Bool → List (List Char) → Prop
  | nil (inTable : Bool) : AreNormal inTable []
  | header {inTable : Bool} {raw : List Char} {rest : List (List Char)} (hheader : IsHeader raw)
      (hsqueezed : Text.IsSqueezed (fun _ => false) raw)
      (hrest : AreNormal (title? raw = some "TABLE".toList) rest) :
      AreNormal inTable (raw :: rest)
  | content {raw : List Char} {rest : List (List Char)} (hheader : ¬ IsHeader raw)
      (hidle : ¬ IsIdle raw) (hcomment : '#' ∉ raw)
      (hsqueezed : Text.IsSqueezed isTight raw) (hrest : AreNormal true rest) :
      AreNormal true (raw :: rest)

/-- A text in normal form: the empty text, or one whose lines are. -/
def IsNormal (text : String) : Prop :=
  text = "" ∨ AreNormal true (Line.rawLines text.toList)

/-- The lines of a key are in normal form. -/
theorem areNormal_keyLines (inTable : Bool) (raws : List (List Char)) :
    AreNormal inTable (keyLines inTable raws) := by
  induction raws generalizing inTable with
  | nil => exact .nil inTable
  | cons raw rest ih =>
    by_cases hheader : IsHeader raw
    · have hedits : Relation.EqvGen Line.Edit raw (Text.squeeze (fun _ => false) raw) :=
        Line.eqvGen_squeeze fun _ hmark => absurd hmark Bool.false_ne_true
      obtain ⟨hheaderIff, htitle⟩ := title?_eq_of_eqvGen hedits
      rw [keyLines_header hheader, ← htitle hheader]
      exact .header (hheaderIff.2 hheader) (Text.isSqueezed_squeeze _ _) (ih _)
    · by_cases hidle : IsIdle raw
      · rw [keyLines_idle hidle]
        exact ih inTable
      · rw [keyLines_content hheader hidle]
        cases inTable with
        | false => exact ih false
        | true =>
          have hsign : Line.sign? (squeezed (Line.uncommented raw)) = Line.sign? raw :=
            (Line.sign?_squeeze _ _).trans (Line.sign?_uncommented hidle)
          refine .content ?_ ?_ ?_ (Text.isSqueezed_squeeze _ _) (ih true)
          · rwa [IsHeader, hsign]
          · rwa [IsIdle, hsign]
          · rw [squeezed, Text.mem_squeeze_iff rfl]
            exact not_mem_uncommented raw

/-- Of lines in normal form, a key keeps all as they are. -/
theorem AreNormal.keyLines_eq (h : AreNormal inTable raws) : keyLines inTable raws = raws := by
  induction h with
  | nil => rfl
  | header hheader hsqueezed hrest ih =>
    rw [keyLines_header hheader, Text.squeeze_of_isSqueezed hsqueezed, ih]
  | content hheader hidle hcomment hsqueezed hrest ih =>
    rw [keyLines_content hheader hidle, if_pos rfl, uncommented_eq_self hcomment, squeezed,
      Text.squeeze_of_isSqueezed hsqueezed, ih]

theorem isNormal_key (text : String) : IsNormal (key text) := by
  rw [IsNormal, key]
  by_cases hnil : keyLines true (Line.rawLines text.toList) = []
  · rw [hnil]
    exact .inl rfl
  · have hlines : Line.rawLines (['\n'].intercalate (keyLines true (Line.rawLines text.toList))) =
        keyLines true (Line.rawLines text.toList) :=
      List.splitOn_intercalate '\n' newline_not_mem_keyLines hnil
    rw [String.toList_ofList, hlines]
    exact .inr (areNormal_keyLines _ _)

theorem IsNormal.key_eq (h : IsNormal text) : key text = text := by
  rcases h with rfl | h
  · rfl
  · rw [key, h.keyLines_eq, Line.rawLines, List.intercalate_splitOn, String.ofList_toList]

/-- The texts in normal form are those that are their own keys. -/
theorem key_eq_self_iff : key text = text ↔ IsNormal text :=
  ⟨fun h => h ▸ isNormal_key text, IsNormal.key_eq⟩

/-- A key is its own key. -/
theorem key_key (text : String) : key (key text) = key text :=
  (isNormal_key text).key_eq

end Rule

namespace TableCache

variable {cache next : TableCache} {text : String} {built : CachedTable}

/-- A table that is asked for and not refused is kept under the key of the text. -/
theorem get?_key_of_getOrBuild (h : cache.getOrBuild text = (.ok built, next)) :
    next.tables.get? (Rule.key text) = some built := by
  rw [getOrBuild] at h
  split at h
  · rename_i found hfound
    cases h
    exact hfound
  · cases hbuild : Rule.buildText text cache.settings with
    | error e =>
      rw [hbuild] at h
      cases h
    | ok table =>
      rw [hbuild] at h
      cases h
      rw [InsertionMap.get?_insert, if_pos rfl]

/-- Tables are kept under texts in normal form. -/
theorem isNormal_of_mem_keys {settings : Settings} {capacity : Option ℕ}
    {requests : List Request} {kept : String}
    (h : kept ∈ ((new settings capacity).run requests).tables.keys) : Rule.IsNormal kept := by
  cases hget : ((new settings capacity).run requests).tables.get? kept with
  | none => exact absurd h (InsertionMap.get?_eq_none_iff.1 hget)
  | some built =>
    obtain ⟨source, -, rfl, -⟩ := accounted_run (accounted_new settings capacity) requests _ _ hget
    exact Rule.isNormal_key source

end TableCache

namespace Rule

/-- **Taking keys is a projection.**  The key of a text is in normal form, and is its own
key; the texts that are their own keys are those in normal form.  So a cache does not
tell a text from its key, a table that is asked for with the key is kept under the key
itself, and whatever a cache has been asked for, it keeps its tables under texts in
normal form only. -/
theorem key_is_projection (text : String) :
    key (key text) = key text ∧
    IsNormal (key text) ∧
    (key text = text ↔ IsNormal text) ∧
    (∀ cache : TableCache, cache.get? (key text) = cache.get? text ∧
      cache.contains (key text) = cache.contains text ∧
      cache.invalidate (key text) = cache.invalidate text) ∧
    (∀ (cache next : TableCache) (built : CachedTable),
      cache.getOrBuild (key text) = (.ok built, next) →
        next.tables.get? (key text) = some built) ∧
    ∀ (settings : Settings) (capacity : Option ℕ) (requests : List TableCache.Request),
      ∀ kept ∈ ((TableCache.new settings capacity).run requests).tables.keys,
        IsNormal kept ∧ key kept = kept := by
  refine ⟨key_key text, isNormal_key text, key_eq_self_iff, fun cache => ?_,
    fun cache next built hbuilt => ?_, fun settings capacity requests kept hkept => ?_⟩
  · simp only [TableCache.get?, TableCache.contains, TableCache.invalidate, key_key, and_self]
  · have hkept := TableCache.get?_key_of_getOrBuild hbuilt
    rwa [key_key] at hkept
  · have hnormal := TableCache.isNormal_of_mem_keys hkept
    exact ⟨hnormal, hnormal.key_eq⟩

end Rule

end Cellular
