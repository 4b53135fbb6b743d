import Mathlib.Data.Nat.Init
import Cellular.Proofs.Squeeze
import Cellular.Rule.Reader

/-!
# The forms of squeezed lines

Squeezing a line of a table keeps its form.  A declaration of a proper name, a
parameter and a transition stay what they are, with squeezed parts.
-/

namespace Cellular

namespace Text

/-- The code points of the characters of names. -/
theorem toNat_of_isNameChar {c : Char} (h : isNameChar c = true) :
    (48 ≤ c.toNat ∧ c.toNat ≤ 57) ∨ (65 ≤ c.toNat ∧ c.toNat ≤ 90) ∨
      c.toNat = 95 ∨ (97 ≤ c.toNat ∧ c.toNat ≤ 122) := by
  delta isNameChar Char.isAlphanum Char.isAlpha Char.isUpper Char.isLower Char.isDigit at h
  simp only [Bool.or_eq_true, Bool.and_eq_true, decide_eq_true_eq, beq_iff_eq,
    UInt32.le_iff_toNat_le, ge_iff_le] at h
  rcases h with ((h | h) | h) | rfl
  · exact Or.inr (Or.inl h)
  · exact Or.inr (Or.inr (Or.inr h))
  · exact Or.inl h
  · exact Or.inr (Or.inr (Or.inl rfl))

/-- The characters of names are neither blank nor tight. -/
theorem plain_of_isNameChar {c : Char} (h : isNameChar c = true) :
    isBlank c = false ∧ Rule.isTight c = false := by
  have hcode := toNat_of_isNameChar h
  constructor
  · simp only [isBlank, blankRanges, List.any_cons, List.any_nil, Bool.or_false,
      Bool.or_eq_false_iff, Bool.and_eq_false_iff, decide_eq_false_iff_not]
    omega
  · rw [← Bool.not_eq_true]
    intro htight
    simp only [Rule.isTight, Bool.or_eq_true, beq_iff_eq] at htight
    rcases htight with (((rfl | rfl) | rfl) | rfl) | rfl <;> cases h

theorem isBlank_of_isTight {c : Char} (h : Rule.isTight c = true) :
    isBlank c = false := by
  simp only [Rule.isTight, Bool.or_eq_true, beq_iff_eq] at h
  rcases h with (((rfl | rfl) | rfl) | rfl) | rfl <;> rfl

theorem plain_of_isIdentifier {name : List Char} (h : isIdentifier name = true) :
    ∀ c ∈ name, isBlank c = false ∧ Rule.isTight c = false := by
  simp only [isIdentifier, Bool.and_eq_true, List.all_eq_true] at h
  exact fun c hc => plain_of_isNameChar (h.1.2 c hc)

theorem ne_nil_of_isIdentifier {name : List Char} (h : isIdentifier name = true) :
    name ≠ [] := by
  rintro rfl
  cases h

theorem plain_of_isDigit {c : Char} (h : c.isDigit = true) :
    isBlank c = false ∧ Rule.isTight c = false := by
  apply plain_of_isNameChar
  rw [isNameChar, Char.isAlphanum, h, Bool.or_true, Bool.true_or]

end Text

namespace Rule

/-- A line of the table section with only the spaces that mean something. -/
abbrev squeezed (text : List Char) : List Char :=
  Text.squeeze isTight text

theorem squeezed_trim (text : List Char) :
    squeezed (Text.trim text) = squeezed text :=
  Text.squeeze_trim isTight text

/-- Squeezing only trims a text without blanks inside. -/
theorem squeezed_eq_trim {text : List Char}
    (h : ∀ c ∈ Text.trim text, Text.isBlank c = false) : squeezed text = Text.trim text := by
  calc
    squeezed text = squeezed (Text.trim text) := (squeezed_trim text).symm
    _ = Text.trim text := Text.squeeze_eq_self h

theorem trim_squeezed (text : List Char) :
    Text.trim (squeezed text) = squeezed text :=
  Text.trim_squeeze isTight text

theorem joinWords_eq_joinBy (texts : List (List Char)) :
    joinWords texts = Text.joinBy isTight texts := by
  induction texts with
  | nil => rfl
  | cons left texts ih =>
    cases texts with
    | nil => rfl
    | cons right rest =>
      rw [joinWords, Text.joinBy, ih]
      rfl

theorem tightened_eq_squeezed (text : List Char) :
    tightened text = squeezed (Line.uncommented text) := by
  rw [tightened, joinWords_eq_joinBy, Text.joinBy_words]

theorem tightenedHeader_eq_squeeze (text : List Char) :
    tightenedHeader text = Text.squeeze (fun _ => false) ('@' :: text) :=
  Text.singleSpaced_eq_squeeze _

theorem squeezed_append {mark : Char} (hmark : isTight mark = true)
    (left right : List Char) :
    squeezed (left ++ mark :: right) = squeezed left ++ mark :: squeezed right :=
  Text.squeeze_append_tight (Text.isBlank_of_isTight hmark) hmark left right

theorem mem_squeezed_iff {mark : Char} (hmark : isTight mark = true)
    {text : List Char} : mark ∈ squeezed text ↔ mark ∈ text :=
  Text.mem_squeeze_iff (Text.isBlank_of_isTight hmark)

theorem count_squeezed {mark : Char} (hmark : isTight mark = true)
    (text : List Char) : (squeezed text).count mark = text.count mark := by
  have hsquash : ∀ text : List Char,
      (Text.squash text).count mark = text.count mark := by
    intro text
    apply List.count_filter
    simp [Text.isBlank_of_isTight hmark]
  rw [← hsquash, Text.squash_squeeze, hsquash]

/-- Cutting at a tight character and squeezing can be done in either order. -/
theorem splitOn_squeezed {mark : Char} (hmark : isTight mark = true)
    (text : List Char) :
    (squeezed text).splitOn mark = (text.splitOn mark).map squeezed := by
  induction hn : text.length using Nat.strong_induction_on generalizing text with
  | _ n ih =>
    by_cases hmem : mark ∈ text
    · obtain ⟨left, right, rfl, hleft⟩ := List.eq_append_cons_of_mem hmem
      have hsqueezed : mark ∉ squeezed left := by rwa [mem_squeezed_iff hmark]
      have hlength : right.length < n := by
        rw [List.length_append, List.length_cons] at hn
        omega
      calc
        (squeezed (left ++ mark :: right)).splitOn mark =
            squeezed left :: (squeezed right).splitOn mark := by
          rw [squeezed_append hmark, List.splitOn_append_cons_self_of_not_mem hsqueezed]
        _ = squeezed left :: (right.splitOn mark).map squeezed := by
          rw [ih _ hlength right rfl]
        _ = ((left ++ mark :: right).splitOn mark).map squeezed := by
          rw [List.splitOn_append_cons_self_of_not_mem hleft, List.map_cons]
    · have hsqueezed : mark ∉ squeezed text := by rwa [mem_squeezed_iff hmark]
      rw [List.splitOn_eq_singleton hsqueezed, List.splitOn_eq_singleton hmem]
      rfl

end Rule

namespace TableLine

open Rule (isTight squeezed)

theorem cutAt_append {mark : Char} {left : List Char} (hleft : mark ∉ left)
    (right : List Char) : cutAt mark (left ++ mark :: right) = (left, right) := by
  have hkeep : ∀ c ∈ left, decide (c ≠ mark) = true := by
    intro c hc
    rw [decide_eq_true_iff]
    exact fun heq => hleft (heq ▸ hc)
  rw [cutAt, List.takeWhile_append_of_pos hkeep, List.dropWhile_append_of_pos hkeep]
  simp

theorem cutAt_squeezed {mark : Char} (hmark : isTight mark = true)
    {text : List Char} (hmem : mark ∈ text) :
    cutAt mark (squeezed text) =
      (squeezed (cutAt mark text).1, squeezed (cutAt mark text).2) := by
  obtain ⟨left, right, rfl, hleft⟩ := List.eq_append_cons_of_mem hmem
  have hsqueezed : mark ∉ squeezed left := by rwa [Rule.mem_squeezed_iff hmark]
  rw [Rule.squeezed_append hmark, cutAt_append hsqueezed, cutAt_append hleft]

/-! ## Declarations -/

theorem isIdentifier_keyword : Text.isIdentifier "var".toList = true := rfl

theorem declarationBody?_eq_some_iff {text body : List Char} :
    declarationBody? text = some body ↔
      ∃ c, text = "var".toList ++ c :: body ∧ Text.isBlank c = true ∧ '=' ∈ body := by
  constructor
  · intro h
    rw [declarationBody?.eq_def] at h
    split at h
    · rename_i c rest
      split at h
      · rename_i hbody
        cases h
        simp only [Bool.and_eq_true, List.contains_iff_mem] at hbody
        exact ⟨c, rfl, hbody⟩
      · cases h
    · cases h
  · rintro ⟨c, rfl, hc, hmem⟩
    have hcontains : body.contains '=' = true := List.contains_iff_mem.2 hmem
    have hif : (if Text.isBlank c && body.contains '=' then some body else none) =
        some body := by rw [hc, hcontains]; rfl
    exact hif

/-- Squeezing makes no declarations. -/
theorem declarationBody?_squeezed_eq_none {text : List Char}
    (hstart : text.head?.any Text.isBlank = false)
    (h : declarationBody? text = none) :
    declarationBody? (squeezed text) = none := by
  rw [← Option.not_isSome_iff_eq_none]
  intro hsome
  obtain ⟨body, hbody⟩ := Option.isSome_iff_exists.1 hsome
  obtain ⟨c, htext, hc, hmem⟩ := declarationBody?_eq_some_iff.1 hbody
  have hmemSqueezed : c ∈ squeezed text := by
    rw [htext]
    simp
  rw [Text.eq_space_of_mem_squeeze hmemSqueezed hc] at htext
  obtain ⟨after, rfl, hafter, hrest⟩ :=
    Text.exists_append_of_squeeze_eq (Text.ne_nil_of_isIdentifier isIdentifier_keyword)
      hstart (Text.plain_of_isIdentifier isIdentifier_keyword) htext
  rw [← hrest] at hmem
  have hequals : '=' ∈ after := (Rule.mem_squeezed_iff rfl).1 hmem
  cases after with
  | nil => cases hequals
  | cons d after =>
    have hd : Text.isBlank d = true := by simpa using hafter
    have hne : '=' ≠ d := by
      rintro rfl
      cases hd
    have hdeclaration : declarationBody? ("var".toList ++ d :: after) = some after :=
      declarationBody?_eq_some_iff.2
        ⟨d, rfl, hd, (List.mem_cons.1 hequals).resolve_left hne⟩
    rw [hdeclaration] at h
    cases h

/-! ## The forms of a line -/

section Forms

variable {text : List Char}

theorem ofContent_of_declarationBody {body : List Char}
    (h : declarationBody? text = some body) :
    ofContent text =
      .declaration (Text.trim (cutAt '=' body).1) (Text.trim (cutAt '=' body).2) := by
  rw [ofContent, h]

theorem ofContent_of_no_declarationBody (h : declarationBody? text = none) :
    ofContent text =
      if text.count ':' = 1 then
        .parameter (Text.trim (cutAt ':' text).1) (Text.trim (cutAt ':' text).2)
      else if isTransitionShaped text then
        .transition ((text.splitOn ',').map Text.squash)
      else .unrecognized := by
  rw [ofContent, h]

theorem ofContent_eq_declaration_iff {name valueSet : List Char} :
    ofContent text = .declaration name valueSet ↔
      ∃ body, declarationBody? text = some body ∧
        name = Text.trim (cutAt '=' body).1 ∧
        valueSet = Text.trim (cutAt '=' body).2 := by
  cases hbody : declarationBody? text with
  | none =>
    rw [ofContent_of_no_declarationBody hbody]
    split
    · simp
    · split <;> simp
  | some body =>
    rw [ofContent_of_declarationBody hbody]
    simp [eq_comm]

theorem ofContent_eq_parameter_iff {key value : List Char} :
    ofContent text = .parameter key value ↔
      declarationBody? text = none ∧ text.count ':' = 1 ∧
        key = Text.trim (cutAt ':' text).1 ∧ value = Text.trim (cutAt ':' text).2 := by
  cases hbody : declarationBody? text with
  | some body =>
    rw [ofContent_of_declarationBody hbody]
    simp
  | none =>
    rw [ofContent_of_no_declarationBody hbody]
    split
    · rename_i hcount
      simp [hcount, eq_comm]
    · rename_i hcount
      split <;> simp [hcount]

theorem ofContent_eq_transition_iff {tokens : List (List Char)} :
    ofContent text = .transition tokens ↔
      declarationBody? text = none ∧ text.count ':' ≠ 1 ∧
        isTransitionShaped text = true ∧
        tokens = (text.splitOn ',').map Text.squash := by
  cases hbody : declarationBody? text with
  | some body =>
    rw [ofContent_of_declarationBody hbody]
    simp
  | none =>
    rw [ofContent_of_no_declarationBody hbody]
    split
    · rename_i hcount
      simp [hcount]
    · rename_i hcount
      split
      · rename_i hshaped
        simp [hcount, hshaped, eq_comm]
      · rename_i hshaped
        simp [hshaped]

end Forms

/-! ## What squeezing does to them -/

/-- What follows the keyword is set off by one space, unless it starts with a
mark. -/
theorem squeezed_keyword_append {c : Char} (hc : Text.isBlank c = true)
    (body : List Char) :
    squeezed ("var".toList ++ c :: body) =
      if (squeezed body).head?.any (!isTight ·) then
        "var".toList ++ ' ' :: squeezed body
      else "var".toList ++ squeezed body := by
  have hplain := Text.plain_of_isIdentifier isIdentifier_keyword
  have hbody : squeezed (c :: body) = squeezed body :=
    Text.squeeze_cons_of_isBlank hc body
  have hblank : (c :: body).head?.any Text.isBlank = true := by
    simpa using hc
  split
  · rename_i hhead
    rw [← hbody] at hhead ⊢
    exact Text.squeeze_append_of_isBlank
      (Text.ne_nil_of_isIdentifier isIdentifier_keyword) hplain hblank hhead
  · rename_i hhead
    rw [Bool.not_eq_true, ← hbody] at hhead
    rw [← hbody]
    exact Text.squeeze_append_of_tight (fun d hd => (hplain d hd).1) hhead

theorem head?_any_not_isTight {squeezedBody : List Char} (hmem : '=' ∈ squeezedBody) :
    squeezedBody.head?.any (!isTight ·) = !squeezedBody.head?.any isTight := by
  obtain ⟨d, rest, rfl⟩ := List.exists_cons_of_ne_nil (List.ne_nil_of_mem hmem)
  rfl

theorem ofContent_squeezed_of_declarationBody {text body : List Char}
    (h : declarationBody? text = some body)
    (hmark : (squeezed body).head?.any isTight = false) :
    ofContent (squeezed text) =
      .declaration (squeezed (cutAt '=' body).1) (squeezed (cutAt '=' body).2) := by
  obtain ⟨c, rfl, hc, hmem⟩ := declarationBody?_eq_some_iff.1 h
  have hequals : '=' ∈ squeezed body := (Rule.mem_squeezed_iff rfl).2 hmem
  have hhead : (squeezed body).head?.any (!isTight ·) = true := by
    rw [head?_any_not_isTight hequals, hmark]
    rfl
  have hdeclaration :
      declarationBody? ("var".toList ++ ' ' :: squeezed body) = some (squeezed body) :=
    declarationBody?_eq_some_iff.2 ⟨' ', rfl, rfl, hequals⟩
  rw [squeezed_keyword_append hc, if_pos hhead, ofContent_of_declarationBody hdeclaration,
    cutAt_squeezed rfl hmem, Rule.trim_squeezed, Rule.trim_squeezed]

/-- A proper name does not start with a mark. -/
theorem head?_squeezed_of_isIdentifier {body : List Char} (hmem : '=' ∈ body)
    (hname : Text.isIdentifier (Text.trim (cutAt '=' body).1) = true) :
    squeezed (cutAt '=' body).1 = Text.trim (cutAt '=' body).1 ∧
      (squeezed body).head?.any isTight = false := by
  obtain ⟨left, right, rfl, hleft⟩ := List.eq_append_cons_of_mem hmem
  rw [cutAt_append hleft] at hname ⊢
  have hplain := Text.plain_of_isIdentifier hname
  have hsqueezed : squeezed left = Text.trim left :=
    Rule.squeezed_eq_trim fun d hd => (hplain d hd).1
  obtain ⟨d, rest, hcons⟩ :=
    List.exists_cons_of_ne_nil (Text.ne_nil_of_isIdentifier hname)
  have hd := (hplain d (hcons ▸ List.mem_cons_self)).2
  refine ⟨hsqueezed, ?_⟩
  rw [Rule.squeezed_append rfl, hsqueezed, hcons]
  exact hd

theorem ofContent_squeezed_of_declaration {text name valueSet : List Char}
    (h : ofContent text = .declaration name valueSet)
    (hname : Text.isIdentifier name = true) :
    ofContent (squeezed text) = .declaration name (squeezed valueSet) := by
  obtain ⟨body, hbody, rfl, rfl⟩ := ofContent_eq_declaration_iff.1 h
  obtain ⟨c, -, -, hmem⟩ := declarationBody?_eq_some_iff.1 hbody
  obtain ⟨hsqueezed, hmark⟩ := head?_squeezed_of_isIdentifier hmem hname
  rw [ofContent_squeezed_of_declarationBody hbody hmark, hsqueezed, Rule.squeezed_trim]

theorem isTransitionShaped_squeezed (text : List Char) :
    isTransitionShaped (squeezed text) = isTransitionShaped text := by
  have hblank : ∀ c, Text.isBlank c = true → isTransitionChar c = true := by
    intro c hc
    rw [isTransitionChar, hc, Bool.or_true]
  have hall : (squeezed text).all isTransitionChar = text.all isTransitionChar := by
    rw [Bool.eq_iff_iff, List.all_eq_true, List.all_eq_true]
    constructor
    · intro h c hc
      cases hcBlank : Text.isBlank c with
      | true => exact hblank c hcBlank
      | false => exact h c ((Text.mem_squeeze_iff hcBlank).2 hc)
    · intro h c hc
      cases hcBlank : Text.isBlank c with
      | true => exact hblank c hcBlank
      | false => exact h c ((Text.mem_squeeze_iff hcBlank).1 hc)
  have hcontains : (squeezed text).contains ',' = text.contains ',' := by
    rw [Bool.eq_iff_iff, List.contains_iff_mem, List.contains_iff_mem,
      Rule.mem_squeezed_iff rfl]
  rw [isTransitionShaped, isTransitionShaped, hall, hcontains]

theorem ofContent_squeezed_of_parameter {text key value : List Char}
    (hstart : text.head?.any Text.isBlank = false)
    (h : ofContent text = .parameter key value) :
    ofContent (squeezed text) = .parameter (squeezed key) (squeezed value) := by
  obtain ⟨hbody, hcount, rfl, rfl⟩ := ofContent_eq_parameter_iff.1 h
  have hmem : ':' ∈ text := by
    apply List.count_pos_iff.1
    rw [hcount]
    exact Nat.one_pos
  rw [ofContent_eq_parameter_iff, Rule.count_squeezed rfl, cutAt_squeezed rfl hmem,
    Rule.trim_squeezed, Rule.trim_squeezed, Rule.squeezed_trim, Rule.squeezed_trim]
  exact ⟨declarationBody?_squeezed_eq_none hstart hbody, hcount, rfl, rfl⟩

theorem ofContent_squeezed_of_transition {text : List Char}
    {tokens : List (List Char)} (hstart : text.head?.any Text.isBlank = false)
    (h : ofContent text = .transition tokens) :
    ofContent (squeezed text) = .transition tokens := by
  obtain ⟨hbody, hcount, hshaped, rfl⟩ := ofContent_eq_transition_iff.1 h
  have htokens : (text.splitOn ',').map Text.squash =
      ((squeezed text).splitOn ',').map Text.squash := by
    rw [Rule.splitOn_squeezed rfl, List.map_map]
    congr 1
    funext part
    exact (Text.squash_squeeze isTight part).symm
  rw [ofContent_eq_transition_iff, Rule.count_squeezed rfl, isTransitionShaped_squeezed]
  exact ⟨declarationBody?_squeezed_eq_none hstart hbody, hcount, hshaped, htokens⟩

end TableLine

end Cellular
