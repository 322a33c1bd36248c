import ErlangMacros.Proofs.Lexer.Meaning

/-!
# Quoted values are read back

A value in quotes is a single token with this value (`readsAs_quoteString`, `readsAs_quoteAtom`): each of its characters
is written as a piece that stands for the character.  Surrogates can stand in a value, but not in a text that is read: if
there is one, lexing breaks off there (`breaksOffBehind_quoteString`, `breaksOffBehind_quoteAtom`).

Tokens that are written with single spaces in between are read as they were (`Lexer.tokenize_spaced`), since no lexeme
goes on behind a blank.  So the string that spells tokens says what they are.
-/

namespace ErlangMacros

/-- The text is read as a single token of the given kind, which has the given value. -/
def ReadsAs (text : Text) (kind : Kind) (value : Text) : Prop :=
  ∀ filename, (Lexing.ofText text filename).ending = .finished ∧
    ∃ t, (Lexing.ofText text filename).tokens = [t] ∧ t.lexeme = (kind, text) ∧ t.value? = some (.ok value)

/-- A lexeme is read as a token with the value that it has anywhere. -/
theorem readsAs_of_isLexeme {t : Token} {value : Text} (h : Scan.IsLexeme t.kind t.text.toList)
    (hvalue : t.value? = some (.ok value)) : ReadsAs t.text t.kind value := by
  intro filename
  obtain ⟨hending, hlexemes⟩ := (lexes_alone_iff t filename).2 h
  obtain ⟨u, htokens, hlexeme⟩ := List.map_eq_singleton_iff.1 hlexemes
  exact ⟨hending, u, htokens, hlexeme, (Token.value?_congr hlexeme).trans hvalue⟩

/-- Lexing of the text breaks off behind `front`, at a surrogate, and there is no token before it. -/
def BreaksOffBehind (text : Text) (front : List CodePoint) : Prop :=
  ∀ filename, (Lexing.ofText text filename).tokens = [] ∧
    (Lexing.ofText text filename).ending = .failed ⟨.unencodable, coordinates filename front⟩

/-- A text breaks off at a surrogate that stands behind an opening quote and pieces. -/
theorem breaksOffBehind_of_pieces {text : Text} {quote : CodePoint} {unclosed : LexCause} {ps : List Scan.Piece}
    {n : Fin 0x800} {behind : List CodePoint} {found : Nat → Option (Kind × Nat)} (hps : Scan.ArePieces quote ps)
    (hquote : Text.isBlank quote = false ∧ quote ≠ '%' ∧ quote ≠ '\\' ∧ quote.isChar = true)
    (htext : text.toList = quote :: (Scan.piecesText ps ++ .surrogate n :: behind))
    (hlexeme : Scan.lexeme text.toList = (Scan.quoted quote unclosed text.toList).map found) :
    BreaksOffBehind text (quote :: Scan.piecesText ps) := by
  obtain ⟨hblank, hmark, hbackslash, hchar⟩ := hquote
  intro filename
  have hskip : (Lexer.ofText text filename).skipGap = Lexer.ofText text filename := by
    refine Lexer.skipGap_eq_self (StartsNoGap.gap_eq ?_)
    rw [Lexer.ofText, htext]
    rintro c ⟨⟩
    exact ⟨hblank, hmark⟩
  have hfault : Scan.lexeme text.toList = .error (.unencodable (quote :: Scan.piecesText ps).length) := by
    rw [hlexeme, htext, Scan.quoted_of_surrogate hps hbackslash hchar]
    rfl
  have hnext := Lexer.next_of_fault (l := Lexer.ofText text filename) (by rw [hskip]; simp [Lexer.ofText, htext])
    (by rw [hskip]; exact hfault)
  have hfront : text.toList.take (quote :: Scan.piecesText ps).length = quote :: Scan.piecesText ps := by
    rw [htext, ← List.cons_append, List.take_left]
  have hposition : ((Lexer.ofText text filename).advance (quote :: Scan.piecesText ps).length).position =
      coordinates filename (quote :: Scan.piecesText ps) := by
    rw [← Mark.position_advance filename (List.forall_mem_cons.2 ⟨hchar, hps.isChar⟩)]
    change (({} : Mark).advance (text.toList.take _)).position filename = _
    rw [hfront]
  rw [Lexing.ofText, Lexer.tokenize_failed hnext, hskip, ← hposition]
  exact ⟨rfl, rfl⟩

/-! ### Values -/

theorem readsAs_quoteString {value : Text} (h : value.isEncodable = true) : ReadsAs (quoteString value) .string value :=
  readsAs_of_isLexeme (t := { kind := .string, text := quoteString value }) (isLexeme_quoteString h)
    (value?_of_quoteString rfl rfl)

theorem readsAs_quoteAtom {value : Text} (h : value.isEncodable = true) : ReadsAs (quoteAtom value) .atom value :=
  readsAs_of_isLexeme (t := { kind := .atom, text := quoteAtom value }) (isLexeme_quoteAtom h)
    (value?_of_quoteAtom rfl rfl)

section Surrogate

variable {value : Text} {front behind : List CodePoint} {n : Fin 0x800}

theorem breaksOffBehind_quoteString (hvalue : value.toList = front ++ .surrogate n :: behind)
    (hfront : ∀ c ∈ front, c.isChar = true) :
    BreaksOffBehind (quoteString value) (.char '"' :: front.flatMap inString) := by
  have hpieces : Scan.piecesText (front.map Scan.stringPiece) = front.flatMap inString := by
    rw [Scan.piecesText, List.flatMap_map]
    simp only [Scan.text_stringPiece]
  have htext : (quoteString value).toList =
      .char '"' :: (front.flatMap inString ++ .surrogate n :: (behind.flatMap inString ++ [.char '"'])) := by
    rw [toList_quoteString, hvalue, List.flatMap_append, List.flatMap_cons]
    simp [inString]
  have hlexeme : Scan.lexeme (quoteString value).toList =
      (Scan.quoted '"' .unterminatedString (quoteString value).toList).map fun n => some (.string, n) := by
    rw [htext]
    rfl
  rw [← hpieces] at htext ⊢
  exact breaksOffBehind_of_pieces (Scan.arePieces_stringPiece hfront) (by decide) htext hlexeme

theorem breaksOffBehind_quoteAtom (hvalue : value.toList = front ++ .surrogate n :: behind)
    (hfront : ∀ c ∈ front, c.isChar = true) :
    BreaksOffBehind (quoteAtom value) (.char '\'' :: front.flatMap inAtom) := by
  have hbare : isBareAtom value.toList = false := by
    rw [Bool.eq_false_iff]
    intro hbare
    cases (Scan.isLexeme_bareAtom hbare).isChar (.surrogate n) (by simp [hvalue])
  have hpieces : Scan.piecesText (front.map Scan.atomPiece) = front.flatMap inAtom := by
    rw [Scan.piecesText, List.flatMap_map]
    simp only [Scan.text_atomPiece]
  have htext : (quoteAtom value).toList =
      .char '\'' :: (front.flatMap inAtom ++ .surrogate n :: (behind.flatMap inAtom ++ [.char '\''])) := by
    rw [toList_quoteAtom hbare, hvalue, List.flatMap_append, List.flatMap_cons]
    simp [inAtom]
  have hlexeme : Scan.lexeme (quoteAtom value).toList =
      (Scan.quoted '\'' .unterminatedAtom (quoteAtom value).toList).map fun n => some (.atom, n) := by
    rw [htext]
    rfl
  rw [← hpieces] at htext ⊢
  exact breaksOffBehind_of_pieces (Scan.arePieces_atomPiece hfront) (by decide) htext hlexeme

end Surrogate

/-- A value that holds no surrogate is written as a string and as an atom that are read back as this value.  If a value
holds a surrogate, nothing is read back from what is written: lexing breaks off at the first surrogate. -/
theorem quoted_values_are_read_back (value : Text) :
    let front := value.toList.takeWhile CodePoint.isChar
    if value.isEncodable then ReadsAs (quoteString value) .string value ∧ ReadsAs (quoteAtom value) .atom value
    else
      BreaksOffBehind (quoteString value) (.char '"' :: front.flatMap inString) ∧
        BreaksOffBehind (quoteAtom value) (.char '\'' :: front.flatMap inAtom) := by
  intro front
  split
  · next hvalue => exact ⟨readsAs_quoteString hvalue, readsAs_quoteAtom hvalue⟩
  · next hvalue =>
    have hany : value.toList.any (!·.isChar) = true := by simpa [Text.isEncodable] using hvalue
    obtain ⟨c, behind, hsplit, hc⟩ := Scan.exists_of_any_not_isChar hany
    obtain ⟨n, rfl⟩ := CodePoint.isChar_eq_false_iff.1 hc
    have hfront : ∀ c ∈ front, c.isChar = true := fun c hc => List.mem_takeWhile_imp hc
    exact ⟨breaksOffBehind_quoteString hsplit hfront, breaksOffBehind_quoteAtom hsplit hfront⟩

/-- A surrogate alone is read back neither as a string nor as an atom. -/
theorem surrogate_is_not_read_back :
    let value : Text := .ofList [.surrogate 0]
    ¬ ReadsAs (quoteString value) .string value ∧ ¬ ReadsAs (quoteAtom value) .atom value := by
  refine ⟨fun h => absurd (h none).1 ?_, fun h => absurd (h none).1 ?_⟩ <;> decide +kernel

/-! ### Tokens -/

private theorem toList_spacedTexts_cons (t : Token) (ts : List Token) :
    (spacedTexts (t :: ts)).toList = t.text.toList ++ ts.flatMap fun u => .char ' ' :: u.text.toList := by
  induction ts generalizing t with
  | nil => simp [spacedTexts]
  | cons u us ih =>
    have hcons : spacedTexts (t :: u :: us) = t.text ++ " " ++ spacedTexts (u :: us) := Text.intercalate_cons_cons ..
    rw [hcons, Text.toList_append, Text.toList_append, ih, List.flatMap_cons, List.append_assoc]
    rfl

/-- Lexemes with single spaces in between are read as they were. -/
theorem Lexer.tokenize_spaced {l : Lexer} {gap : List CodePoint} {t : Token} {ts : List Token}
    (hlexemes : ∀ u ∈ t :: ts, Scan.IsLexeme u.kind u.text.toList) (hspaced : l.spaced = false)
    (hl : l.rest = gap ++ (t.text.toList ++ ts.flatMap fun u => .char ' ' :: u.text.toList))
    (hgap : ∀ c ∈ gap, Text.isBlank c = true) :
    l.tokenize.ending = .finished ∧ l.tokenize.tokens.map Token.lexeme = (t :: ts).map Token.lexeme := by
  induction ts generalizing l gap t with
  | nil =>
    have hlexeme := hlexemes t (List.mem_cons_self ..)
    obtain ⟨t', l', hcons, hsame, -, hrest, -⟩ :=
      exists_tokenize_of_printed hlexeme (hlexeme.not_runsOn (by simp)) hspaced hl hgap
    obtain ⟨htokens, hending⟩ := l'.tokenize_blank (by rw [hrest]; exact List.forall_mem_nil _)
    rw [hcons]
    refine ⟨hending, ?_⟩
    change (t' :: l'.tokenize.tokens).map Token.lexeme = _
    rw [htokens, List.map_singleton, List.map_singleton, hsame]
  | cons u us ih =>
    obtain ⟨hlexeme, hrest⟩ := List.forall_mem_cons.1 hlexemes
    have hno : ¬ Scan.RunsOn t.text.toList ((u :: us).flatMap fun u => .char ' ' :: u.text.toList) := by
      refine hlexeme.not_runsOn ?_
      rintro c ⟨⟩
      decide
    obtain ⟨t', l', hcons, hsame, -, hl', hspaced'⟩ := exists_tokenize_of_printed hlexeme hno hspaced hl hgap
    have hblank : ∀ c ∈ [CodePoint.char ' '], Text.isBlank c = true := List.forall_mem_singleton.2 (by decide)
    obtain ⟨hending, htokens⟩ := ih hrest hspaced' hl' hblank
    rw [hcons]
    refine ⟨hending, ?_⟩
    change (t' :: l'.tokenize.tokens).map Token.lexeme = _
    rw [List.map_cons, htokens, hsame]
    rfl

/-- Lexemes with single spaces in between are the tokens of the text that they make. -/
theorem lexing_spacedTexts {ts : List Token} (h : ∀ t ∈ ts, Scan.IsLexeme t.kind t.text.toList)
    (filename : Option Text) :
    (Lexing.ofText (spacedTexts ts) filename).ending = .finished ∧
      (Lexing.ofText (spacedTexts ts) filename).tokens.map Token.lexeme = ts.map Token.lexeme := by
  cases ts with
  | nil =>
    obtain ⟨htokens, hending⟩ := (Lexer.ofText "" filename).tokenize_blank (by simp [Lexer.ofText])
    exact ⟨hending, congrArg (List.map Token.lexeme) htokens⟩
  | cons t ts =>
    have hl : (Lexer.ofText (spacedTexts (t :: ts)) filename).rest =
        [] ++ (t.text.toList ++ ts.flatMap fun u => .char ' ' :: u.text.toList) := toList_spacedTexts_cons t ts
    exact Lexer.tokenize_spaced h rfl hl (List.forall_mem_nil _)

private theorem isEncodable_spacedTexts {ts : List Token} (h : ∀ t ∈ ts, ∀ c ∈ t.text.toList, c.isChar = true) :
    (spacedTexts ts).isEncodable = true := by
  rw [Text.isEncodable, List.all_eq_true]
  cases ts with
  | nil => exact List.forall_mem_nil _
  | cons t ts =>
    obtain ⟨ht, hts⟩ := List.forall_mem_cons.1 h
    rw [toList_spacedTexts_cons]
    refine List.forall_mem_append.2 ⟨ht, fun c hc => ?_⟩
    obtain ⟨u, hu, hc⟩ := List.mem_flatMap.1 hc
    exact (List.forall_mem_cons.2 ⟨rfl, hts u hu⟩ : ∀ c ∈ CodePoint.char ' ' :: u.text.toList, c.isChar = true) c hc

/-- The string that spells tokens of texts is a single string literal, whose value are the texts of the tokens with
single spaces in between.  This value is read as the tokens that were spelled. -/
theorem stringified_tokens_are_read_back {tokens : List Token}
    (hlexed : ∀ t ∈ tokens, t.text ≠ "" ∧ ∃ text filename, (Lexing.ofText text filename).Gives t) (marker : Token) :
    let value := Text.intercalate " " (tokens.map (·.text))
    ReadsAs (stringify tokens marker).text .string value ∧
      ∀ filename, (Lexing.ofText value filename).ending = .finished ∧
        (Lexing.ofText value filename).tokens.map Token.lexeme = tokens.map Token.lexeme := by
  intro value
  have hlexemes : ∀ t ∈ tokens, Scan.IsLexeme t.kind t.text.toList := by
    intro t ht
    obtain ⟨hne, text, filename, hgives⟩ := hlexed t ht
    exact hgives.isLexeme fun hnil => hne (Text.toList_eq_nil_iff.1 hnil)
  have hvalue : value.isEncodable = true := isEncodable_spacedTexts fun t ht => (hlexemes t ht).isChar
  exact ⟨readsAs_quoteString hvalue, lexing_spacedTexts hlexemes⟩

/-- Tokens that would run on into each other without a space, and texts with quotes, escapes, a line break and what
looks like a comment. -/
theorem stringified_tokens_are_read_back_nested :
    let text : Text := "a.1 $\\\"'%\\''\"\n\\x41\""
    let tokens := (Lexing.ofText text).tokens
    let value : Text := "a . 1 $\\\" '%\\'' \"\n\\x41\""
    (∀ t ∈ tokens, t.text ≠ "" ∧ ∃ text filename, (Lexing.ofText text filename).Gives t) ∧
      ReadsAs (stringify tokens { kind := .operator, text := "??" }).text .string value ∧
      ∀ filename, (Lexing.ofText value filename).ending = .finished ∧
        (Lexing.ofText value filename).tokens.map Token.lexeme = tokens.map Token.lexeme := by
  intro text tokens value
  have hne : ∀ t ∈ tokens, t.text ≠ "" := by decide +kernel
  have hlexed : ∀ t ∈ tokens, t.text ≠ "" ∧ ∃ text filename, (Lexing.ofText text filename).Gives t :=
    fun t ht => ⟨hne t ht, text, none, .inl ht⟩
  have hvalue : Text.intercalate " " (tokens.map (·.text)) = value := by decide +kernel
  have hread := stringified_tokens_are_read_back hlexed { kind := .operator, text := "??" }
  rw [hvalue] at hread
  exact ⟨hlexed, hread⟩

end ErlangMacros
