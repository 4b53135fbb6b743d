import Mathlib.Algebra.Group.Nat.Even
import Cellular.Proofs.Apgcode

/-!
# The language of codes

A text is a code if it is a nonempty sequence of tokens.  As a `y` takes the next
character with it, whatever that is, the tokens of a text depend on all that stands
before them; whether there are tokens at all does not.  A text is a code exactly if its
bytes are digits and small letters and the `y` at its end come in pairs, and any other
text is refused at its first other byte or, if there is none, at its end.
-/

namespace Cellular

namespace Apgcode

/-! ## Bytes -/

/-- The byte is a digit or a small letter. -/
def IsCodeByte (b : UInt8) : Prop :=
  48 ≤ b.toNat ∧ b.toNat ≤ 57 ∨ 97 ≤ b.toNat ∧ b.toNat ≤ 122

instance (b : UInt8) : Decidable (IsCodeByte b) :=
  inferInstanceAs (Decidable (_ ∨ _))

/-- The byte of a `y`. -/
def runByte : UInt8 := 121

/-- The number of `y` at the end of some bytes. -/
def endRun (bytes : List UInt8) : ℕ :=
  (bytes.reverse.takeWhile fun b => b = runByte).length

/-- The place of the first byte that is no digit and no small letter; if there is no such
byte, the number of all bytes. -/
def faultPlace (bytes : List UInt8) : ℕ :=
  (bytes.findIdx? fun b => ¬ IsCodeByte b).getD bytes.length

/-- Some bytes are digits and small letters, and the `y` at their end come in pairs. -/
def IsSpelling (bytes : List UInt8) : Prop :=
  (∀ b ∈ bytes, IsCodeByte b) ∧ Even (endRun bytes)

instance (bytes : List UInt8) : Decidable (IsSpelling bytes) :=
  inferInstanceAs (Decidable (_ ∧ _))

/-- The bytes of some characters. -/
def bytesOf (text : List Char) : List UInt8 :=
  text.flatMap String.utf8EncodeChar

theorem endRun_cons (b : UInt8) (bytes : List UInt8) :
    endRun (b :: bytes) =
      if endRun bytes = bytes.length then
        if b = runByte then bytes.length + 1 else bytes.length
      else endRun bytes := by
  rw [endRun, List.reverse_cons, List.takeWhile_append, List.length_reverse, ← endRun]
  split
  · by_cases hb : b = runByte <;> simp [hb]
  · rfl

theorem endRun_le_length (bytes : List UInt8) : endRun bytes ≤ bytes.length := by
  have hle := (List.takeWhile_sublist (fun b => b = runByte) (l := bytes.reverse)).length_le
  rwa [List.length_reverse] at hle

/-- A byte that is no `y` leaves the run at the end as it is. -/
theorem endRun_cons_of_ne {b : UInt8} (hb : b ≠ runByte) (bytes : List UInt8) :
    endRun (b :: bytes) = endRun bytes := by
  rw [endRun_cons, if_neg hb]
  split
  · rename_i hall
    exact hall.symm
  · rfl

/-- A `y` and the byte after it leave the parity of the run at the end as it is. -/
theorem even_endRun_cons_cons (b : UInt8) (bytes : List UInt8) :
    Even (endRun (runByte :: b :: bytes)) ↔ Even (endRun bytes) := by
  have hle := endRun_le_length bytes
  by_cases hb : b = runByte
  · rw [endRun_cons, endRun_cons, if_pos hb, if_pos rfl, List.length_cons]
    by_cases hall : endRun bytes = bytes.length
    · rw [if_pos hall, if_pos rfl, hall, Nat.even_add_one, Nat.even_add_one, not_not]
    · rw [if_neg hall, if_neg (by omega)]
  · rw [endRun_cons, endRun_cons_of_ne hb, List.length_cons, if_neg (by omega)]

theorem isSpelling_cons {b : UInt8} (hcode : IsCodeByte b) (hrun : b ≠ runByte)
    (bytes : List UInt8) : IsSpelling (b :: bytes) ↔ IsSpelling bytes := by
  rw [IsSpelling, List.forall_mem_cons, endRun_cons_of_ne hrun, and_iff_right hcode,
    IsSpelling]

theorem isSpelling_run {b : UInt8} (hcode : IsCodeByte b) (bytes : List UInt8) :
    IsSpelling (runByte :: b :: bytes) ↔ IsSpelling bytes := by
  have hrun : IsCodeByte runByte := by decide
  rw [IsSpelling, List.forall_mem_cons, List.forall_mem_cons, even_endRun_cons_cons,
    and_iff_right hrun, and_iff_right hcode, IsSpelling]

theorem faultPlace_append {bytes : List UInt8} (hbytes : ∀ b ∈ bytes, IsCodeByte b)
    (rest : List UInt8) : faultPlace (bytes ++ rest) = bytes.length + faultPlace rest := by
  have hnone : bytes.findIdx? (fun b => ¬ IsCodeByte b) = none := by
    simpa using hbytes
  rw [faultPlace, List.findIdx?_append, hnone, Option.none_or, faultPlace]
  cases rest.findIdx? fun b => ¬ IsCodeByte b with
  | none => simp
  | some i => simp [Nat.add_comm]

theorem faultPlace_cons_of_not {b : UInt8} (hb : ¬ IsCodeByte b) (rest : List UInt8) :
    faultPlace (b :: rest) = 0 := by
  simp [faultPlace, List.findIdx?_cons, hb]

/-! ## Characters -/

/-- The character is a digit or a small letter. -/
def IsCodeChar (c : Char) : Prop :=
  48 ≤ c.toNat ∧ c.toNat ≤ 57 ∨ 97 ≤ c.toNat ∧ c.toNat ≤ 122

instance (c : Char) : Decidable (IsCodeChar c) :=
  inferInstanceAs (Decidable (_ ∨ _))

/-- A digit or a small letter is one byte. -/
theorem exists_byte_of_isCodeChar {c : Char} (hc : IsCodeChar c) :
    ∃ b, String.utf8EncodeChar c = [b] ∧ IsCodeByte b ∧ (b = runByte ↔ c = 'y') := by
  have hsmall : c.toNat ≤ 122 := by
    rw [IsCodeChar] at hc
    omega
  have hnat : (UInt8.ofNat c.toNat).toNat = c.toNat := by
    rw [UInt8.toNat_ofNat']
    omega
  refine ⟨UInt8.ofNat c.toNat, ?_, ?_, ?_⟩
  · have hle : c.val.toNat ≤ 127 := Nat.le_trans hsmall (by decide)
    rw [String.utf8EncodeChar, if_pos hle]
    rfl
  · rwa [IsCodeByte, hnat]
  · rw [← UInt8.toNat_inj, hnat, ← Char.toNat_inj]
    rfl

/-- Any other character begins with another byte. -/
theorem exists_byte_of_not_isCodeChar {c : Char} (hc : ¬ IsCodeChar c) :
    ∃ b rest, String.utf8EncodeChar c = b :: rest ∧ ¬ IsCodeByte b := by
  -- The first byte of a longer encoding is 192 or more.
  have hlead : ∀ n : ℕ, ¬ IsCodeByte (UInt8.ofNat (n + 192)) ∨ 64 ≤ n := by
    intro n
    rw [IsCodeByte, UInt8.toNat_ofNat']
    omega
  simp only [String.utf8EncodeChar]
  split
  · refine ⟨_, _, rfl, ?_⟩
    have hnat : (UInt8.ofNat c.val.toNat).toNat = c.toNat := by
      rw [UInt8.toNat_ofNat', Char.toNat]
      omega
    rwa [IsCodeByte, hnat]
  · split
    · exact ⟨_, _, rfl, (hlead _).resolve_right (by omega)⟩
    · split
      · exact ⟨_, _, rfl, (hlead (_ % 16 + 32)).resolve_right (by omega)⟩
      · exact ⟨_, _, rfl, (hlead (_ % 8 + 48)).resolve_right (by omega)⟩

theorem codeDigitValue?_eq_none_iff {c : Char} :
    codeDigitValue? c = none ↔ ¬ IsCodeChar c := by
  rw [codeDigitValue?, IsCodeChar]
  split
  · simp_all
  · split <;> simp_all

theorem isCodeChar_of_codeDigitValue? {c : Char} {value : Fin 36}
    (hvalue : codeDigitValue? c = some value) : IsCodeChar c := by
  refine Decidable.byContradiction fun hc => ?_
  rw [codeDigitValue?_eq_none_iff.2 hc] at hvalue
  cases hvalue

theorem codeDigit_of_codeDigitValue? {c : Char} {value : Fin 36}
    (hvalue : codeDigitValue? c = some value) : codeDigit value = c := by
  rw [← Char.toNat_inj]
  rw [codeDigitValue?] at hvalue
  split at hvalue
  · rename_i hdigit
    cases hvalue
    have hlt : c.toNat - 48 < 10 := by omega
    have heq : 48 + (c.toNat - 48) = c.toNat := by omega
    rw [codeDigit, if_pos hlt, heq, Char.ofNat_toNat]
  · split at hvalue
    · rename_i hletter
      cases hvalue
      have hlt : ¬ c.toNat - 87 < 10 := by omega
      have heq : 87 + (c.toNat - 87) = c.toNat := by omega
      rw [codeDigit, if_neg hlt, heq, Char.ofNat_toNat]
    · cases hvalue

/-- A digit or a small letter other than `y` is a token by itself. -/
theorem exists_token_of_isCodeChar {c : Char} (hc : IsCodeChar c) (hrun : c ≠ 'y') :
    ∃ token, CodeToken.ofChar? c = some token ∧ token.write = [c] := by
  rw [CodeToken.ofChar?]
  split
  · rename_i hw
    exact ⟨_, rfl, by rw [hw, CodeToken.write]⟩
  · split
    · rename_i hx
      exact ⟨_, rfl, by rw [hx, CodeToken.write]⟩
    · split
      · rename_i hz
        exact ⟨_, rfl, by rw [hz, CodeToken.write]⟩
      · rename_i hw hx hz
        cases hvalue : codeDigitValue? c with
        | none => exact absurd hc (codeDigitValue?_eq_none_iff.1 hvalue)
        | some value =>
          have hdigit := codeDigit_of_codeDigitValue? hvalue
          have hlt : value.val < 32 := by
            refine Nat.lt_of_not_le fun hle => ?_
            have hcases : value = 32 ∨ value = 33 ∨ value = 34 ∨ value = 35 := by omega
            rcases hcases with rfl | rfl | rfl | rfl
            · exact hw hdigit.symm
            · exact hx hdigit.symm
            · exact hrun hdigit.symm
            · exact hz hdigit.symm
          simp only [dif_pos hlt]
          exact ⟨_, rfl, by rw [CodeToken.write, hdigit]⟩

theorem ofChar?_of_not_isCodeChar {c : Char} (hc : ¬ IsCodeChar c) :
    CodeToken.ofChar? c = none := by
  have hnone := codeDigitValue?_eq_none_iff.2 hc
  have hne : ∀ {d : Char}, IsCodeChar d → c ≠ d := by
    rintro d hd rfl
    exact hc hd
  rw [CodeToken.ofChar?, if_neg (hne (by decide)), if_neg (hne (by decide)),
    if_neg (hne (by decide)), hnone]

/-! ## Reading -/

/-- Reading some characters from a position on gives the tokens that they spell if they
spell any, and else the position of the first character out of place. -/
def ReadsAs (start : ℕ) (text : List Char) (outcome : Except CodeError (List CodeToken)) :
    Prop :=
  (IsSpelling (bytesOf text) ∧
    ∃ tokens, outcome = .ok tokens ∧ tokens.flatMap CodeToken.write = text) ∨
  (¬ IsSpelling (bytesOf text) ∧
    ∃ fault, outcome = .error ⟨start + faultPlace (bytesOf text), fault⟩)

/-- What is read after a token is read with the token before it. -/
theorem ReadsAs.cons {start : ℕ} {token : CodeToken} {word rest : List Char}
    {outcome : Except CodeError (List CodeToken)} (hwrite : token.write = word)
    (hcode : ∀ b ∈ bytesOf word, IsCodeByte b) (hlength : (bytesOf word).length = word.length)
    (hspelling : IsSpelling (bytesOf word ++ bytesOf rest) ↔ IsSpelling (bytesOf rest))
    (hrest : ReadsAs (start + word.length) rest outcome) :
    ReadsAs start (word ++ rest) (outcome.map (token :: ·)) := by
  have hbytes : bytesOf (word ++ rest) = bytesOf word ++ bytesOf rest := List.flatMap_append
  rw [ReadsAs, hbytes, hspelling, faultPlace_append hcode, hlength, ← Nat.add_assoc]
  rcases hrest with ⟨hrest, tokens, rfl, htokens⟩ | ⟨hrest, fault, rfl⟩
  · exact Or.inl ⟨hrest, token :: tokens, rfl, by rw [List.flatMap_cons, htokens, hwrite]⟩
  · exact Or.inr ⟨hrest, fault, rfl⟩

theorem not_isSpelling_of_mem {b : UInt8} {bytes : List UInt8} (hb : b ∈ bytes)
    (hcode : ¬ IsCodeByte b) : ¬ IsSpelling bytes :=
  fun hspelling => hcode (hspelling.1 b hb)

private theorem ne_run_of_first {c : Char} {rest : List Char}
    (hlast : c = 'y' → rest = [] → False)
    (hnext : ∀ d others, c = 'y' → rest = d :: others → False) : c ≠ 'y' := by
  intro hc
  cases rest with
  | nil => exact hlast hc rfl
  | cons d others => exact hnext d others hc rfl

theorem readsAs_readTokens (start : ℕ) (text : List Char) :
    ReadsAs start text (readTokens start text) := by
  induction start, text using readTokens.induct with
  | case1 start => exact Or.inl ⟨⟨by simp [bytesOf], by simp [bytesOf, endRun]⟩, [], rfl, rfl⟩
  | case2 start =>
    have hodd : ¬ Even (endRun (bytesOf ['y'])) := by decide
    exact Or.inr ⟨fun hspelling => hodd hspelling.2, _, rfl⟩
  | case3 start c rest hnone =>
    obtain ⟨b, others, hbytes, hb⟩ :=
      exists_byte_of_not_isCodeChar (codeDigitValue?_eq_none_iff.1 hnone)
    have hall : bytesOf ('y' :: c :: rest) = [runByte] ++ b :: (others ++ bytesOf rest) := by
      rw [bytesOf, List.flatMap_cons, List.flatMap_cons, hbytes]
      rfl
    have hrun : ∀ b ∈ [runByte], IsCodeByte b := List.forall_mem_singleton.2 (by decide)
    rw [readTokens, hnone, ReadsAs, hall, faultPlace_append hrun, faultPlace_cons_of_not hb]
    exact Or.inr ⟨not_isSpelling_of_mem (by simp) hb, _, rfl⟩
  | case4 start c rest more hmore ih =>
    have hc : IsCodeChar c := isCodeChar_of_codeDigitValue? hmore
    obtain ⟨b, hbytes, hb, -⟩ := exists_byte_of_isCodeChar hc
    have hword : bytesOf ['y', c] = [runByte, b] := by
      rw [bytesOf, List.flatMap_cons, List.flatMap_cons, hbytes]
      rfl
    have hwrite : CodeToken.write (.blankRun more) = ['y', c] := by
      rw [CodeToken.write, codeDigit_of_codeDigitValue? hmore]
    rw [readTokens, hmore]
    refine ReadsAs.cons hwrite ?_ (by rw [hword]; rfl) ?_ ih
    · rw [hword]
      have hrun : IsCodeByte runByte := by decide
      simp [hrun, hb]
    · rw [hword]
      exact isSpelling_run hb _
  | case5 start c rest hlast hnext hnone =>
    have hrun : c ≠ 'y' := ne_run_of_first hlast hnext
    have hc : ¬ IsCodeChar c := by
      intro hc
      obtain ⟨token, htoken, -⟩ := exists_token_of_isCodeChar hc hrun
      rw [hnone] at htoken
      cases htoken
    obtain ⟨b, others, hbytes, hb⟩ := exists_byte_of_not_isCodeChar hc
    have hall : bytesOf (c :: rest) = b :: (others ++ bytesOf rest) := by
      rw [bytesOf, List.flatMap_cons, hbytes]
      rfl
    rw [readTokens.eq_4 _ _ _ hlast hnext, hnone, ReadsAs, hall, faultPlace_cons_of_not hb]
    exact Or.inr ⟨not_isSpelling_of_mem (by simp) hb, _, rfl⟩
  | case6 start c rest hlast hnext token htoken ih =>
    have hrun : c ≠ 'y' := ne_run_of_first hlast hnext
    have hc : IsCodeChar c := by
      refine Decidable.byContradiction fun hc => ?_
      rw [ofChar?_of_not_isCodeChar hc] at htoken
      cases htoken
    obtain ⟨_, hfirst, hwrite⟩ := exists_token_of_isCodeChar hc hrun
    rw [htoken, Option.some.injEq] at hfirst
    subst hfirst
    obtain ⟨b, hbytes, hb, hbrun⟩ := exists_byte_of_isCodeChar hc
    have hword : bytesOf [c] = [b] := by
      rw [bytesOf, List.flatMap_cons, hbytes]
      rfl
    rw [readTokens.eq_4 _ _ _ hlast hnext, htoken]
    refine ReadsAs.cons hwrite ?_ (by rw [hword]; rfl) ?_ ih
    · rw [hword]
      simp [hb]
    · rw [hword]
      exact isSpelling_cons hb (mt hbrun.1 hrun) _

/-! ## Texts -/

/-- The bytes of a text. -/
def utf8 (text : String) : List UInt8 :=
  text.toUTF8.data.toList

theorem utf8_eq_bytesOf (text : String) : utf8 text = bytesOf text.toList := by
  rw [utf8, String.toUTF8_eq_toByteArray, ← String.utf8Encode_toList, List.utf8Encode,
    List.data_toByteArray, List.toList_toArray, bytesOf]

/-- The text is not empty, its bytes are digits and small letters, and the `y` at its end
come in pairs. -/
def IsCode (text : String) : Prop :=
  text ≠ "" ∧ IsSpelling (utf8 text)

instance (text : String) : Decidable (IsCode text) :=
  inferInstanceAs (Decidable (_ ∧ _))

theorem toList_eq_nil_iff {text : String} : text.toList = [] ↔ text = "" := by
  rw [← String.toList_inj]
  rfl

/-- A text is read as a code that it spells, or refused where its first fault is. -/
theorem parse_cases (text : String) :
    (IsCode text ∧ ∃ code, parse text = .ok code ∧ code.text = text.toList) ∨
      (¬ IsCode text ∧ ∃ fault, parse text = .error ⟨faultPlace (utf8 text), fault⟩) := by
  have hreads := readsAs_readTokens 0 text.toList
  rw [ReadsAs, ← utf8_eq_bytesOf, Nat.zero_add] at hreads
  rw [parse, ofText]
  rcases hreads with ⟨hspelling, tokens, hread, hwrite⟩ | ⟨hspelling, fault, hread⟩
  · rw [hread]
    by_cases hnil : tokens = []
    · subst hnil
      have hempty : text = "" := toList_eq_nil_iff.1 hwrite.symm
      refine Or.inr ⟨fun hcode => hcode.1 hempty, .emptyText, ?_⟩
      rw [hempty]
      rfl
    · refine Or.inl ⟨⟨fun hempty => ?_, hspelling⟩, ⟨tokens, hnil⟩, ?_, hwrite⟩
      · rw [hempty] at hread
        cases hread
        exact hnil rfl
      · simp [hnil]
  · rw [hread]
    exact Or.inr ⟨fun hcode => hspelling hcode.2, fault, rfl⟩

/-- A token leads to no more than 39 further columns or one further band for each of its
characters. -/
theorem bounds_of_mem_cellsFrom {band x : ℕ} {tokens : List CodeToken} {c : Coord}
    (hc : c ∈ cellsFrom band x tokens) :
    (0 ≤ c.x ∧ c.x < x + 39 * (tokens.flatMap CodeToken.write).length) ∧
      0 ≤ c.y ∧ c.y < 5 * (band + (tokens.flatMap CodeToken.write).length : ℕ) := by
  induction tokens generalizing band x with
  | nil => cases hc
  | cons token rest ih =>
    rw [List.flatMap_cons, List.length_append]
    cases token with
    | column bits =>
      rw [cellsFrom, List.mem_append] at hc
      rcases hc with hc | hc
      · obtain ⟨hx, h, hh, -, hy⟩ := mem_columnCells_iff.1 hc
        simp only [bandRow, bandHeight] at hy hh
        simp only [CodeToken.write, List.length_singleton]
        omega
      · have hrest := ih hc
        simp only [CodeToken.write, List.length_singleton]
        omega
    | blankRun more =>
      have hrest := ih hc
      simp only [CodeToken.write, List.length_cons, List.length_nil]
      omega
    | blankPair | blankTriple | endBand =>
      have hrest := ih hc
      simp only [CodeToken.write, List.length_singleton]
      omega

/-- **The codes are the nonempty texts of digits and small letters that end in an even
number of `y`.**  Such a text is read as a code that keeps it, and it describes the
pattern of that code, which has no cell on the left of the first column or above the
first row, and none further away than so short a text can say.  Any other text is refused by
the reader and by the decoder for the same reason, at its first byte that is no digit and
no small letter, and at its end if it has no such byte. -/
theorem parse_reads_exactly_codes (text : String) :
    (IsCode text → ∃ code, parse text = .ok code ∧ decode text = .ok code.toGrid ∧
      String.ofList code.text = text ∧
      ∀ c ∈ code.toGrid.coords, (0 ≤ c.x ∧ c.x < 39 * text.length) ∧
        0 ≤ c.y ∧ c.y < 5 * text.length) ∧
    (¬ IsCode text → ∃ e, parse text = .error e ∧ decode text = .error e ∧
      e.position = faultPlace (utf8 text)) := by
  rcases parse_cases text with ⟨hcode, code, hparse, htext⟩ | ⟨hcode, fault, hparse⟩
  · refine ⟨fun _ => ⟨code, hparse, ?_, ?_, fun c hc => ?_⟩, fun hnot => absurd hcode hnot⟩
    · rw [decode, hparse]
      rfl
    · rw [htext, String.ofList_toList]
    · have hcell := bounds_of_mem_cellsFrom (Grid.mem_coords_ofCoords_iff.1 hc)
      have hlength : (code.tokens.flatMap CodeToken.write).length = text.length :=
        (congrArg List.length htext).trans String.length_toList
      rw [hlength] at hcell
      omega
  · refine ⟨fun h => absurd h hcode, fun _ => ⟨_, hparse, ?_, rfl⟩⟩
    rw [decode, hparse]
    rfl

-- Each `y` but an unpaired one at the end is followed by its count, be it a `y` itself.
example : IsCode "yz1yy" ∧ ¬ IsCode "1yyy" ∧ faultPlace (utf8 "1yyy") = 4 ∧
    faultPlace (utf8 "1yé") = 2 := by
  decide +kernel

end Apgcode

end Cellular
