import Cellular.Proofs.KeyLine

/-!
# Reading a key

The key of a rule table that is read without fault is read as the same rule, up
to the parts of the rule that a key leaves out.  The two readings go side by
side, from line to line: a line that the key leaves out changes nothing that is
compared.
-/

namespace Cellular

namespace Line

theorem classify_of_trim {raw text : List Char} {c : Char}
    (htrim : Text.trim raw = c :: text) (hcomment : c ≠ '#') (hheader : c ≠ '@') :
    classify raw = .content (c :: text) := by
  rw [classify, htrim]
  split
  · rename_i heq
    cases heq
  · rename_i heq
    cases heq
    exact absurd rfl hcomment
  · rename_i heq
    cases heq
    exact absurd rfl hheader
  · rfl

theorem exists_of_classify_content {raw text : List Char}
    (h : classify raw = .content text) :
    ∃ c rest, text = c :: rest ∧ Text.isBlank c = false ∧ c ≠ '#' ∧ c ≠ '@' := by
  have hhead := Text.head?_trim_any raw
  rw [classify] at h
  split at h
  · cases h
  · cases h
  · cases h
  · rename_i hnil hcomment hheader
    cases h
    cases htrim : Text.trim raw with
    | nil => exact absurd htrim hnil
    | cons c rest =>
      rw [htrim] at hhead
      refine ⟨c, rest, rfl, by simpa using hhead, ?_, ?_⟩
      · rintro rfl
        exact hcomment rest htrim
      · rintro rfl
        exact hheader rest htrim

theorem headerName_append {name rest : List Char}
    (hname : ∀ c ∈ name, Text.isBlank c = false)
    (hrest : rest.head?.any (!Text.isBlank ·) = false) :
    headerName (name ++ rest) = name := by
  have hkeep : ∀ c ∈ name, (!Text.isBlank c) = true := fun c hc => by rw [hname c hc]; rfl
  rw [headerName, List.takeWhile_append_of_pos hkeep]
  cases rest with
  | nil => simp
  | cons c rest =>
    rw [List.takeWhile_cons_of_neg, List.append_nil]
    simpa using hrest

theorem headerArgument_append {name rest : List Char}
    (hname : ∀ c ∈ name, Text.isBlank c = false)
    (hrest : rest.head?.any (!Text.isBlank ·) = false) :
    headerArgument (name ++ rest) = Text.trim rest := by
  have hkeep : ∀ c ∈ name, (!Text.isBlank c) = true := fun c hc => by rw [hname c hc]; rfl
  rw [headerArgument, List.dropWhile_append_of_pos hkeep]
  cases rest with
  | nil => simp
  | cons c rest =>
    rw [List.dropWhile_cons_of_neg]
    simpa using hrest

/-- A header is its name, followed by nothing or by a blank. -/
theorem exists_header_split (text : List Char) :
    ∃ rest, text = headerName text ++ rest ∧
      (∀ c ∈ headerName text, Text.isBlank c = false) ∧
      rest.head?.any (!Text.isBlank ·) = false := by
  refine ⟨text.dropWhile fun c => !Text.isBlank c, ?_, ?_, ?_⟩
  · exact List.takeWhile_append_dropWhile.symm
  · intro c hc
    simpa using List.mem_takeWhile_imp hc
  · have hstop := List.head?_dropWhile_not (fun c => !Text.isBlank c) text
    cases hhead : (text.dropWhile fun c => !Text.isBlank c).head? with
    | none => rfl
    | some c =>
      rw [hhead] at hstop
      exact hstop

end Line

namespace Rule

variable {r s : Rule}

/-! ## Headers -/

theorem opensTable_eq {text : List Char} (hname : Line.headerName text ≠ []) :
    opensTable text = decide (String.ofList (Line.headerName text) = "TABLE") := by
  obtain ⟨rest, htext, hplain, hrest⟩ := Line.exists_header_split text
  have hwords : (Text.words text).head? = some (Line.headerName text) := by
    conv_lhs => rw [htext, Text.words_append hname hplain hrest]
    rfl
  have htable : Line.headerName text = "TABLE".toList ↔
      String.ofList (Line.headerName text) = "TABLE" := by
    rw [← String.toList_inj, @String.toList_ofList (Line.headerName text)]
  simp only [opensTable, hwords, Option.some.injEq, htable]

/-- What follows the name in the shortest layout of a header. -/
theorem exists_tightenedHeader_eq {name rest : List Char}
    (hname : ∀ c ∈ name, Text.isBlank c = false)
    (hrest : rest.head?.any (!Text.isBlank ·) = false) :
    ∃ tail, tightenedHeader (name ++ rest) = '@' :: (name ++ tail) ∧
      tail.head?.any (!Text.isBlank ·) = false ∧
      Text.trim tail = Text.singleSpaced (Text.trim rest) := by
  have hsign : ∀ c ∈ '@' :: name, Text.isBlank c = false := by
    rw [List.forall_mem_cons]
    exact ⟨rfl, hname⟩
  rw [tightenedHeader_eq_squeeze, ← List.cons_append, Text.singleSpaced_eq_squeeze,
    Text.squeeze_trim]
  cases hsqueezed : Text.squeeze (fun _ => false) rest with
  | nil =>
    refine ⟨[], ?_, rfl, rfl⟩
    rw [Text.squeeze_append_of_eq_nil hsign hsqueezed, List.append_nil]
  | cons c squeezedRest =>
    have hblank : rest.head?.any Text.isBlank = true := by
      cases rest with
      | nil => cases hsqueezed
      | cons d rest => simpa using hrest
    have hhead : (Text.squeeze (fun _ => false) rest).head?.any
        (fun c => !(fun _ => false) c) = true := by
      rw [hsqueezed]
      rfl
    refine ⟨' ' :: Text.squeeze (fun _ => false) rest, ?_, rfl, ?_⟩
    · exact Text.squeeze_append_of_isBlank (List.cons_ne_nil _ _)
        (fun d hd => ⟨hsign d hd, rfl⟩) hblank hhead
    · rw [Text.trim_cons_of_isBlank rfl, Text.trim_squeeze, hsqueezed]

/-- A header in its shortest layout has the same name, and the same argument up
to its blanks. -/
theorem exists_header (text : List Char) :
    ∃ header, Line.classify (tightenedHeader text) = .header header ∧
      Line.headerName header = Line.headerName text ∧
      Line.headerArgument header = Text.singleSpaced (Line.headerArgument text) := by
  obtain ⟨rest, htext, hname, hrest⟩ := Line.exists_header_split text
  obtain ⟨tail, htightened, htail, htrim⟩ := exists_tightenedHeader_eq hname hrest
  have hargument : Line.headerArgument text = Text.trim rest := by
    calc
      Line.headerArgument text =
          Line.headerArgument (Line.headerName text ++ rest) := by rw [← htext]
      _ = Text.trim rest := Line.headerArgument_append hname hrest
  rw [← htext] at htightened
  refine ⟨Line.headerName text ++ tail, ?_, ?_, ?_⟩
  · have hkept : Text.trim (tightenedHeader text) = tightenedHeader text := by
      rw [tightenedHeader_eq_squeeze, Text.trim_squeeze]
    rw [Line.classify, hkept, htightened]
    rfl
  · exact Line.headerName_append hname htail
  · rw [Line.headerArgument_append hname htail, htrim, hargument]

/-- The sections by their names. -/
theorem openSection_eq (header : List Char) :
    r.openSection header =
      if String.ofList (Line.headerName header) = "" then .error .unnamedSection
      else if String.ofList (Line.headerName header) = "RULE" then
        if (Line.headerArgument header).isEmpty then .ok (.description, r)
        else .ok (.description,
          { r with name := some (String.ofList (Line.headerArgument header)) })
      else if String.ofList (Line.headerName header) = "TABLE" then .ok (.table, r)
      else .ok (.ignored, r) := by
  simp only [openSection]
  split
  · rename_i hname
    rw [hname]
    rfl
  · rename_i hname
    rw [hname]
    rfl
  · rename_i hname
    rw [hname]
    rfl
  · rename_i hempty hrule htable
    rw [if_neg hempty, if_neg hrule, if_neg htable]

theorem isEmpty_singleSpaced_trim (text : List Char) :
    (Text.singleSpaced (Text.trim text)).isEmpty = (Text.trim text).isEmpty := by
  rw [Bool.eq_iff_iff, List.isEmpty_iff, List.isEmpty_iff, Text.singleSpaced_eq_squeeze,
    Text.squeeze_eq_nil_iff, Text.trim, Text.trimEnd_trimEnd]

theorem openSection_tightened (hsame : SameReading s r) {text : List Char}
    {current : Section} {next : Rule} (h : r.openSection text = .ok (current, next)) :
    ∃ header moved, Line.classify (tightenedHeader text) = .header header ∧
      s.openSection header = .ok (current, moved) ∧ SameReading moved next := by
  obtain ⟨header, hclass, hname, hargument⟩ := exists_header text
  have hempty : (Text.singleSpaced (Line.headerArgument text)).isEmpty =
      (Line.headerArgument text).isEmpty :=
    isEmpty_singleSpaced_trim _
  refine ⟨header, ?_⟩
  rw [openSection_eq] at h
  simp only [openSection_eq, hname, hargument, hempty, hclass, true_and]
  split at h
  · cases h
  · rename_i hnonempty
    rw [if_neg hnonempty]
    split at h
    · rename_i hrule
      rw [if_pos hrule]
      split at h
      · rename_i hunnamed
        cases h
        rw [if_pos hunnamed]
        exact ⟨s, rfl, hsame⟩
      · rename_i hnamed
        cases h
        rw [if_neg hnamed]
        refine ⟨_, rfl, core_eq_iff.2 (core_eq_iff.1 hsame.core_eq), ?_⟩
        rw [Option.map_some, collapsed, String.toList_ofList]
    · rename_i hrule
      rw [if_neg hrule]
      split at h
      · rename_i htable
        cases h
        rw [if_pos htable]
        exact ⟨s, rfl, hsame⟩
      · rename_i htable
        cases h
        rw [if_neg htable]
        exact ⟨s, rfl, hsame⟩

/-- Opening a section leaves all of a rule but its name. -/
theorem exists_name_of_openSection {text : List Char} {opened : Section}
    (h : r.openSection text = .ok (opened, next)) :
    (opened = .table ↔ Line.headerName text = "TABLE".toList) ∧
      ∃ name, next = { r with name } := by
  have htable : Line.headerName text = "TABLE".toList ↔
      String.ofList (Line.headerName text) = "TABLE" := by
    rw [← String.ofList_inj, String.ofList_toList]
  rw [openSection_eq] at h
  rw [htable]
  split at h
  · cases h
  · split at h
    · rename_i hrule
      rw [hrule]
      split at h <;> cases h <;> exact ⟨by decide, _, rfl⟩
    · split at h
      · rename_i hname
        cases h
        exact ⟨by simp [hname], _, rfl⟩
      · rename_i hname
        cases h
        exact ⟨by simp [hname], _, rfl⟩

/-- A key looks for the table section where reading does. -/
theorem opensTable_of_openSection {text : List Char} {current : Section}
    {next : Rule} (h : r.openSection text = .ok (current, next)) :
    opensTable text = decide (current = .table) := by
  rw [openSection_eq] at h
  split at h
  · cases h
  · rename_i hnonempty
    have hname : Line.headerName text ≠ [] := by
      intro hnil
      exact hnonempty (by rw [hnil])
    rw [opensTable_eq hname]
    split at h
    · rename_i hrule
      rw [hrule]
      split at h <;> cases h <;> rfl
    · split at h
      · rename_i htable
        cases h
        rw [htable]
        rfl
      · rename_i htable
        cases h
        rw [decide_eq_false htable]
        rfl

/-! ## Texts -/

theorem classify_tightened {raw text : List Char}
    (h : Line.classify raw = .content text) :
    Line.classify (tightened text) = .content (tightened text) ∧
      (Text.trimEnd (Line.uncommented text)).head?.any Text.isBlank = false := by
  obtain ⟨c, rest, rfl, hblank, hcomment, hheader⟩ := Line.exists_of_classify_content h
  have huncommented : Line.uncommented (c :: rest) = c :: Line.uncommented rest := by
    rw [Line.uncommented, List.takeWhile_cons_of_pos]
    · rfl
    · simpa using hcomment
  constructor
  · have htrim : Text.trim (tightened (c :: rest)) = tightened (c :: rest) := by
      rw [tightened_eq_squeezed, trim_squeezed]
    rw [tightened_eq_squeezed, huncommented, squeezed,
      Text.squeeze_cons_of_not_isBlank hblank] at htrim ⊢
    exact Line.classify_of_trim htrim hcomment hheader
  · rw [huncommented, Text.trimEnd_cons_of_not_isBlank hblank]
    exact hblank

theorem hasProperNames_default : ({} : Rule).HasProperNames := by
  intro label hlabel
  cases hlabel

/-- What a line of the table says is read into the rule; no other line changes more
than the name and the description. -/
theorem readLine_cases {line : ℕ} {raw : List Char} {current opened : Section} {next : Rule}
    (h : readLine line raw current r = .ok (opened, next)) :
    (∃ name description, next = { r with name, description }) ∨
      ∃ text, r.readTableLine line text = .ok next := by
  rw [readLine] at h
  split at h
  · cases h
    exact .inl ⟨_, _, rfl⟩
  · obtain ⟨-, name, rfl⟩ := exists_name_of_openSection h
    exact .inl ⟨name, _, rfl⟩
  · split at h
    · split at h
      · cases h
      · rename_i hread
        cases h
        exact .inr ⟨_, hread⟩
    · cases h
      exact .inl ⟨_, _, rfl⟩
    · cases h
      exact .inl ⟨_, _, rfl⟩

theorem hasProperNames_of_readLine (hnames : r.HasProperNames) {line : ℕ}
    {raw : List Char} {current opened : Section} {next : Rule}
    (h : readLine line raw current r = .ok (opened, next)) : next.HasProperNames := by
  rcases readLine_cases h with ⟨name, description, rfl⟩ | ⟨text, hread⟩
  · exact hnames
  · exact hasProperNames_of_readTableLine hnames hread

/-- One line, beside what the key has of it: the key goes on in the same section
with the same rule. -/
theorem readLine_keyLines (hsame : SameReading s r) (hnames : r.HasProperNames)
    {line : ℕ} (other : ℕ) {raw : List Char} {current opened : Section} {next : Rule}
    (h : readLine line raw current r = .ok (opened, next)) :
    ∃ moved later, SameReading moved next ∧ ∀ rest,
      readLines other (keyLines (current = .table) (raw :: rest)) current s =
        readLines later (keyLines (opened = .table) rest) opened moved := by
  rw [readLine] at h
  cases hclass : Line.classify raw with
  | skipped =>
    rw [hclass] at h
    cases h
    refine ⟨s, other, hsame, fun rest => ?_⟩
    simp only [keyLines, hclass]
  | header text =>
    rw [hclass] at h
    obtain ⟨header, moved, hheader, hmoved, hnext⟩ := openSection_tightened hsame h
    refine ⟨moved, other + 1, hnext, fun rest => ?_⟩
    simp only [keyLines, hclass, opensTable_of_openSection h, readLines, readLine,
      hheader, hmoved]
  | content text =>
    rw [hclass] at h
    cases current with
    | table =>
      cases hread : r.readTableLine line text with
      | error fault =>
        simp only [hread] at h
        cases h
      | ok read =>
        simp only [hread] at h
        cases h
        obtain ⟨hcontent, hstart⟩ := classify_tightened hclass
        obtain ⟨moved, hmoved, hnext⟩ :=
          readTableLine_tightened hsame hnames other hstart hread
        refine ⟨moved, other + 1, hnext, fun rest => ?_⟩
        simp only [keyLines, hclass, decide_true, if_true, readLines, readLine, hcontent,
          hmoved]
    | description =>
      cases h
      -- What describes the rule is not in the key.
      refine ⟨s, other, ⟨hsame.core_eq, hsame.name_eq⟩, fun rest => ?_⟩
      simp [keyLines, hclass]
    | ignored =>
      cases h
      refine ⟨s, other, hsame, fun rest => ?_⟩
      simp [keyLines, hclass]

/-- The two readings, side by side from any line on. -/
theorem readLines_keyLines {line : ℕ} (other : ℕ) {raws : List (List Char)}
    {current : Section} {final : Rule} (hsame : SameReading s r)
    (hnames : r.HasProperNames) (h : readLines line raws current r = .ok final) :
    ∃ moved, readLines other (keyLines (current = .table) raws) current s = .ok moved ∧
      SameReading moved final := by
  induction raws generalizing line other current r s with
  | nil =>
    cases h
    exact ⟨s, rfl, hsame⟩
  | cons raw rest ih =>
    rw [readLines] at h
    cases hread : readLine line raw current r with
    | error fault =>
      rw [hread] at h
      cases h
    | ok result =>
      obtain ⟨opened, next⟩ := result
      rw [hread] at h
      obtain ⟨moved, later, hnext, hstep⟩ := readLine_keyLines hsame hnames other hread
      rw [hstep]
      exact ih later hnext (hasProperNames_of_readLine hnames hread) h

theorem newline_not_mem_keyLines {inTable : Bool} {raws : List (List Char)} :
    ∀ keyLine ∈ keyLines inTable raws, '\n' ∉ keyLine := by
  have hsqueezed : ∀ (tight : Char → Bool) (text : List Char),
      '\n' ∉ Text.squeeze tight text := by
    intro tight text hmem
    have hspace := Text.eq_space_of_mem_squeeze hmem rfl
    exact absurd hspace (by decide)
  induction raws generalizing inTable with
  | nil =>
    intro keyLine hmem
    cases hmem
  | cons raw rest ih =>
    intro keyLine hmem
    rw [keyLines] at hmem
    split at hmem
    · exact ih keyLine hmem
    · rcases List.mem_cons.1 hmem with rfl | hmem
      · rw [tightenedHeader_eq_squeeze]
        exact hsqueezed _ _
      · exact ih keyLine hmem
    · split at hmem
      · rcases List.mem_cons.1 hmem with rfl | hmem
        · rw [tightened_eq_squeezed]
          exact hsqueezed _ _
        · exact ih keyLine hmem
      · exact ih keyLine hmem

/-- The lines of a key are read back from it. -/
theorem readLines_rawLines_key (text : String) (line : ℕ) (current : Section) :
    readLines line (Line.rawLines (key text).toList) current r =
      readLines line (keyLines true (Line.rawLines text.toList)) current r := by
  rw [key, String.toList_ofList, Line.rawLines]
  cases hlines : keyLines true (Line.rawLines text.toList) with
  | nil => rfl
  | cons first rest =>
    rw [← hlines, List.splitOn_intercalate '\n' newline_not_mem_keyLines]
    rw [hlines]
    exact List.cons_ne_nil first rest

/-- The key of a rule table is read as the rule of the table. -/
theorem read_key {text : String} {rule : Rule} (h : read text = .ok rule) :
    ∃ moved, read (key text) = .ok moved ∧ SameReading moved rule := by
  rw [read, readLines_rawLines_key]
  exact readLines_keyLines 1 ⟨rfl, rfl⟩ hasProperNames_default h

/-- Texts with one key are read as the same rule, up to the spacing of its
name. -/
theorem core_eq_of_key_eq {text other : String} {rule otherRule : Rule}
    (hread : read text = .ok rule) (hother : read other = .ok otherRule)
    (hkey : key other = key text) :
    otherRule.core = rule.core ∧
      otherRule.name.map collapsed = rule.name.map collapsed := by
  obtain ⟨moved, hmoved, hsame⟩ := read_key hread
  obtain ⟨otherMoved, hotherMoved, hotherSame⟩ := read_key hother
  rw [hkey, hmoved, Except.ok.injEq] at hotherMoved
  subst hotherMoved
  exact ⟨hotherSame.core_eq.symm.trans hsame.core_eq,
    hotherSame.name_eq.symm.trans hsame.name_eq⟩

end Rule

end Cellular
