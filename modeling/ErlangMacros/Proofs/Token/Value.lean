import ErlangMacros.Proofs.Text.Integer

/-!
# Lexemes have values

What the lexer accepts between quotes can be read.  Every piece stands for a code point by itself, whose number it gives
(`Piece.code`): an escape sequence that is scanned has a code, and as much text belongs to it as was scanned
(`denote_of_isEscape`).  So the pieces of a quoted lexeme say what it stands for (`unescape_piecesText`), and every
lexeme has a value (`value_of_isLexeme`).  A value that is written in quotes is read as it was, also if it holds a
surrogate (`value?_of_quoteString`, `value?_of_quoteAtom`).
-/

namespace ErlangMacros

/-! ### What a piece stands for -/

namespace Escape

/-- The control characters that are written with a letter, and their codes. -/
def letterCodes : List (CodePoint × Nat) :=
  [('b', 8), ('d', 127), ('e', 27), ('f', 12), ('n', 10), ('r', 13), ('s', 32), ('t', 9), ('v', 11)]

/-- The number that digits write in a base. -/
def positional (base : Nat) (digits : List CodePoint) : Nat :=
  digits.foldl (fun n c => n * base + (Text.digitValue? c).getD 0) 0

/-- The code of the sequence of a backslash and `body`.  A character without a code of its own is escaped to stand for
itself. -/
def code : List CodePoint → Nat
  | .char 'x' :: .char '{' :: digits => positional 16 digits.dropLast
  | .char 'x' :: digits => positional 16 digits
  | .char '^' :: c :: _ => c.toNat % 32
  | c :: digits => if isOctal c then positional 8 (c :: digits) else (letterCodes.lookup c).getD c.toNat
  | [] => 0

end Escape

/-- The number of the code point that a piece stands for. -/
def Scan.Piece.code : Piece → Nat
  | plain c => c.toNat
  | escaped body => Escape.code body

/-! ### Digits -/

namespace Text

/-- A hexadecimal digit is a letter or a decimal digit that is worth less than 16. -/
theorem weight_lt_of_isHex {c : CodePoint} (h : Escape.isHex c = true) : c.isAlphanum = true ∧ weight c < 16 := by
  have hascii : c.toNat < 128 := by
    simp only [Escape.isHex, CodePoint.isDigit, Bool.or_eq_true, Bool.and_eq_true, decide_eq_true_eq,
      Char.reduceToNat] at h
    omega
  exact forall_ascii (P := fun c => Escape.isHex c = true → c.isAlphanum = true ∧ weight c < 16) (by decide +kernel)
    hascii h

/-- Hexadecimal digits write their positional value. -/
theorem writes_positional {cs : List CodePoint} (hne : cs ≠ []) (h : ∀ c ∈ cs, Escape.isHex c = true) :
    Writes 16 cs (Escape.positional 16 cs) := by
  refine ⟨hne, fun c hc => (weight_lt_of_isHex (h c hc)).2, ?_⟩
  rw [ofDigits_eq_foldl, Escape.positional]
  refine List.foldl_ext _ _ _ fun n c hc => ?_
  rw [digitValue?_eq_weight (weight_lt_of_isHex (h c hc)).1, Option.getD_some]

private theorem digitsValue?_eq_positional {cs : List CodePoint} (hne : cs ≠ []) (h : ∀ c ∈ cs, Escape.isHex c = true) :
    digitsValue? 16 false 0 cs = some (Escape.positional 16 cs) :=
  (digitsValue?_eq_some_iff fun c hc => (weight_lt_of_isHex (h c hc)).1).2 (writes_positional hne h)

/-- Hexadecimal digits are an integer, the one that was checked when they were scanned. -/
theorem integer?_isHex {cs : List CodePoint} (hne : cs ≠ []) (h : ∀ c ∈ cs, Escape.isHex c = true) :
    integer? 16 cs = some (Escape.positional 16 cs : Int) :=
  (integer?_eq_some_iff fun c hc => (weight_lt_of_isHex (h c hc)).1).2
    ⟨_, rfl, .digits (by decide) (by decide) (writes_positional hne h)⟩

end Text

/-! ### Escape sequences -/

namespace Escape

/-- A number up to the last code is the one of a code point. -/
theorem codePoint_natCast {n : Nat} (h : n ≤ lastCode) : codePoint (some (n : Int)) = .ok (.ofNat n) := by
  have hlast : lastCode = 0x10FFFF := rfl
  unfold codePoint
  dsimp only
  rw [if_neg (by simp only [Bool.or_eq_true, decide_eq_true_eq]; omega),
    if_neg (by simp only [Bool.or_eq_true, decide_eq_true_eq]; omega), Int.toNat_natCast]

private theorem hexValue_eq_positional {cs : List CodePoint} (hne : cs ≠ []) (h : ∀ c ∈ cs, isHex c = true) :
    Scan.hexValue cs = positional 16 cs := by
  rw [Scan.hexValue, Text.digitsValue?_eq_positional hne h, Option.getD_some]

/-- Two hexadecimal digits are no more than 255. -/
theorem positional_le {a b : CodePoint} (ha : isHex a = true) (hb : isHex b = true) : positional 16 [a, b] ≤ lastCode := by
  obtain ⟨haplain, ha16⟩ := Text.weight_lt_of_isHex ha
  obtain ⟨hbplain, hb16⟩ := Text.weight_lt_of_isHex hb
  have hlast : lastCode = 0x10FFFF := rfl
  simp only [positional, List.foldl_cons, List.foldl_nil, Text.digitValue?_eq_weight haplain,
    Text.digitValue?_eq_weight hbplain, Option.getD_some]
  omega

private theorem toNat_lt_of_isOctal {c : CodePoint} (h : isOctal c = true) : c.toNat < 128 := by
  simp only [isOctal, Bool.and_eq_true, decide_eq_true_eq] at h
  exact Nat.lt_of_le_of_lt h.2 (by decide)

private theorem octalValue_eq_positional {cs : List CodePoint} (h : ∀ c ∈ cs, isOctal c = true) :
    octalValue cs = positional 8 cs := by
  have hdigit : ∀ c, isOctal c = true → c.toNat - '0'.toNat = (Text.digitValue? c).getD 0 := fun c hc =>
    Text.forall_ascii (P := fun c => isOctal c = true → c.toNat - '0'.toNat = (Text.digitValue? c).getD 0)
      (by decide +kernel) (toNat_lt_of_isOctal hc) hc
  refine List.foldl_ext _ _ _ fun n c hc => ?_
  rw [hdigit c (h c hc), Nat.mul_comm]

/-- Up to three octal digits are a code. -/
theorem octalValue_le {cs : List CodePoint} (h : ∀ c ∈ cs, isOctal c = true) (hlength : cs.length ≤ 3) :
    octalValue cs ≤ 0x10FFFF := by
  have hdigit : ∀ c ∈ cs, c.toNat - '0'.toNat < 8 := by
    intro c hc
    have hoctal := h c hc
    simp only [isOctal, Bool.and_eq_true, decide_eq_true_eq, Char.reduceToNat] at hoctal ⊢
    omega
  have hlt : octalValue cs < 8 ^ cs.length := by
    clear h hlength
    induction cs using List.reverseRecOn with
    | nil => decide
    | append_singleton cs c ih =>
      obtain ⟨hcs, hc⟩ := List.forall_mem_append.1 hdigit
      have hbefore := ih hcs
      have hlast := hc c (List.mem_singleton_self c)
      rw [octalValue, List.foldl_append, List.length_append, List.length_singleton, Nat.pow_succ]
      rw [octalValue] at hbefore
      simp only [List.foldl_cons, List.foldl_nil]
      omega
  calc octalValue cs ≤ 8 ^ cs.length := Nat.le_of_lt hlt
    _ ≤ 8 ^ 3 := Nat.pow_le_pow_right (by decide) hlength
    _ ≤ 0x10FFFF := by decide

private theorem lookup_letterCodes (e : CodePoint) : letterCodes.lookup e = (letter? e).map CodePoint.toNat := by
  unfold letter?
  split
  case h_10 => exact List.lookup_eq_none_iff.2 (by simp_all [letterCodes])
  all_goals rfl

private theorem denote_braced (code : List CodePoint) :
    denote 'x' (.char '{' :: code) =
      let digits := code.takeWhile (· ≠ CodePoint.char '}')
      if digits.length = code.length then .error .unclosed
      else (codePoint (Text.integer? 16 digits)).map fun c => (c, digits.length + 2) :=
  rfl

private theorem denote_hex {rest : List CodePoint} (h : ∀ code, rest ≠ .char '{' :: code) :
    denote 'x' rest = (codePoint (Text.integer? 16 (rest.take 2))).map fun c => (c, 2) := by
  have hx : letter? 'x' = none := rfl
  unfold denote
  rw [hx]
  dsimp only
  rw [if_pos rfl]
  split
  · next code => exact absurd rfl (h code)
  · rfl

private theorem denote_octal {e : CodePoint} (h : isOctal e = true) (rest : List CodePoint) :
    denote e rest =
      .ok (.ofNat (octalValue (((e :: rest).takeWhile isOctal).take 3)),
        (((e :: rest).takeWhile isOctal).take 3).length - 1) := by
  have hplain : letter? e = none ∧ e ≠ 'x' :=
    Text.forall_ascii (P := fun c => isOctal c = true → letter? c = none ∧ c ≠ 'x') (by decide +kernel)
      (toNat_lt_of_isOctal h) h
  unfold denote
  rw [hplain.1]
  dsimp only
  rw [if_neg hplain.2, if_pos h]

/-- The code of a sequence that starts neither with a base mark nor with a caret. -/
theorem code_cons {c : CodePoint} (cs : List CodePoint) (hx : c ≠ 'x') (hcaret : c ≠ '^') :
    code (c :: cs) = if isOctal c then positional 8 (c :: cs) else (letterCodes.lookup c).getD c.toNat := by
  unfold code
  split <;> simp_all

/-- An escape sequence that is scanned stands for the code point with its code. -/
theorem denote_of_isEscape {body rest : List CodePoint} (h : Scan.IsEscape body rest) :
    ∃ e body' c, body = e :: body' ∧ denote e (body' ++ rest) = .ok (c, body'.length) ∧ c.toNat = code body := by
  cases h with
  | @braced digits _ hne hhex hrange =>
    have hcode : code (.char 'x' :: .char '{' :: (digits ++ [.char '}'])) = positional 16 digits := by simp [code]
    rw [hexValue_eq_positional hne hhex] at hrange
    refine ⟨'x', .char '{' :: (digits ++ [.char '}']), .ofNat (positional 16 digits), rfl, ?_, ?_⟩
    · rw [List.cons_append, denote_braced, Scan.takeWhile_brace rest hhex]
      dsimp only
      rw [if_neg (by simp), Text.integer?_isHex hne hhex, codePoint_natCast hrange]
      simp [Except.map]
    · rw [hcode, CodePoint.toNat_ofNat hrange]
  | @hex a b _ ha hb =>
    have hbrace : a ≠ '{' := (Scan.ne_of_isHex ha).1
    have hcode : code ['x', a, b] = positional 16 [a, b] := by simp [code, hbrace]
    refine ⟨'x', [a, b], .ofNat (positional 16 [a, b]), rfl, ?_, ?_⟩
    · rw [List.cons_append, List.cons_append, List.nil_append, denote_hex fun _ heq => hbrace (List.cons.inj heq).1]
      change (codePoint (Text.integer? 16 [a, b])).map _ = _
      rw [Text.integer?_isHex (by simp) (by simp [ha, hb]), codePoint_natCast (positional_le ha hb)]
      rfl
    · rw [hcode, CodePoint.toNat_ofNat (positional_le ha hb)]
  | @control c =>
    exact ⟨'^', [c], .ofNat (c.toNat % 32), rfl, rfl, CodePoint.toNat_ofNat (by omega)⟩
  | @octal digits _ hne hoctal hlength hstops =>
    have hcount := Scan.escape_of_isEscape (.octal hne hoctal hlength hstops)
    obtain ⟨e, ds, rfl⟩ := List.exists_cons_of_ne_nil hne
    have he : isOctal e = true := hoctal e (List.mem_cons_self ..)
    obtain ⟨hx, hcaret⟩ := Scan.ne_of_isOctal he
    rw [List.cons_append, Scan.escape_cons _ hx hcaret, if_pos he] at hcount
    have hlength' := Except.ok.inj hcount
    have hdigits : ((e :: (ds ++ rest)).takeWhile isOctal).take 3 = e :: ds := by
      have hprefix := (List.take_prefix 3 _).trans (List.takeWhile_prefix (l := e :: (ds ++ rest)) isOctal)
      rw [List.prefix_iff_eq_take.1 hprefix, hlength', ← List.cons_append, List.take_left]
    refine ⟨e, ds, .ofNat (octalValue (e :: ds)), rfl, ?_, ?_⟩
    · rw [denote_octal he, hdigits, List.length_cons, Nat.add_sub_cancel]
    · rw [code_cons _ hx hcaret, if_pos he, ← octalValue_eq_positional hoctal,
        CodePoint.toNat_ofNat (octalValue_le hoctal hlength)]
  | @plain e _ hx hcaret hoctal =>
    refine ⟨e, [], (letter? e).getD e, rfl, ?_, ?_⟩
    · unfold denote
      split
      · next c hletter => simp [hletter]
      · next hletter => simp [hletter, hx, hcaret, hoctal]
    · rw [code_cons _ hx hcaret, hoctal, lookup_letterCodes]
      cases letter? e <;> rfl

end Escape

private theorem unescape_cons {c : CodePoint} (hc : c ≠ '\\') (cs : List CodePoint) :
    unescape (c :: cs) = (unescape cs).map (c :: ·) := by
  cases cs with
  | nil => rw [unescape, unescape]; rfl
  | cons e rest => rw [unescape, if_neg hc]

private theorem unescape_escaped {e c : CodePoint} {rest : List CodePoint} (body : List CodePoint)
    (h : Escape.denote e (body ++ rest) = .ok (c, body.length)) :
    unescape (.char '\\' :: e :: (body ++ rest)) = (unescape rest).map (c :: ·) := by
  rw [unescape, if_pos rfl, h]
  dsimp only
  rw [List.drop_left]

/-- Pieces between quotes stand for the code points that they stand for by themselves. -/
theorem unescape_piecesText {quote : CodePoint} {ps : List Scan.Piece} (hps : Scan.ArePieces quote ps) :
    ∃ cs, unescape (Scan.piecesText ps) = .ok cs ∧ cs.map CodePoint.toNat = ps.map Scan.Piece.code := by
  induction hps with
  | nil => exact ⟨[], by rw [Scan.piecesText, List.flatMap_nil, unescape], rfl⟩
  | @plain c ps _ hbackslash _ _ ih =>
    obtain ⟨cs, hcs, hcodes⟩ := ih
    have htext : Scan.piecesText (.plain c :: ps) = c :: Scan.piecesText ps := rfl
    refine ⟨c :: cs, ?_, congrArg (c.toNat :: ·) hcodes⟩
    rw [htext, unescape_cons hbackslash, hcs]
    rfl
  | @escaped body ps hescape _ ih =>
    obtain ⟨cs, hcs, hcodes⟩ := ih
    have hbody : Scan.IsEscape body (Scan.piecesText ps) := by
      refine hescape.of_head ?_
      cases Scan.piecesText ps <;> simp
    obtain ⟨e, body', c, rfl, hdenote, hcode⟩ := Escape.denote_of_isEscape hbody
    have htext : Scan.piecesText (.escaped (e :: body') :: ps) = .char '\\' :: e :: (body' ++ Scan.piecesText ps) := rfl
    refine ⟨c :: cs, ?_, ?_⟩
    · rw [htext, unescape_escaped body' hdenote, hcs]
      rfl
    · rw [List.map_cons, hcode, hcodes]
      rfl

/-- A backslash and a character that stands for another one by itself. -/
theorem unescape_letter {e c : CodePoint} (rest : List CodePoint) (h : ∀ rest, Escape.denote e rest = .ok (c, 0)) :
    unescape (.char '\\' :: e :: rest) = (unescape rest).map (c :: ·) :=
  unescape_escaped [] (h rest)

/-- What is written for a value in a string stands for this value. -/
theorem unescape_inString (cs : List CodePoint) : unescape (cs.flatMap inString) = .ok cs := by
  induction cs with
  | nil => rw [List.flatMap_nil, unescape]
  | cons c cs ih =>
    rw [List.flatMap_cons, inString]
    split
    · next hc => rw [List.cons_append, List.singleton_append, unescape_letter _ fun _ => rfl, ih, hc]; rfl
    split
    · next hc => rw [List.cons_append, List.singleton_append, unescape_letter _ fun _ => rfl, ih, hc]; rfl
    split
    · next hc => rw [List.cons_append, List.singleton_append, unescape_letter _ fun _ => rfl, ih, hc]; rfl
    · next hbackslash _ _ => rw [List.singleton_append, unescape_cons hbackslash, ih]; rfl

private theorem unescape_inAtom (cs : List CodePoint) : unescape (cs.flatMap inAtom) = .ok cs := by
  induction cs with
  | nil => rw [List.flatMap_nil, unescape]
  | cons c cs ih =>
    rw [List.flatMap_cons, inAtom]
    split
    · next hc => rw [List.cons_append, List.singleton_append, unescape_letter _ fun _ => rfl, ih, hc]; rfl
    split
    · next hc => rw [List.cons_append, List.singleton_append, unescape_letter _ fun _ => rfl, ih, hc]; rfl
    · next hbackslash _ => rw [List.singleton_append, unescape_cons hbackslash, ih]; rfl

/-! ### Lexemes -/

namespace Scan

theorem kind_number (cs : List CodePoint) : (number cs).1 = .integer ∨ (number cs).1 = .float := by
  unfold number
  dsimp only
  split
  · exact .inl rfl
  split
  · exact .inr rfl
  · exact .inl rfl

/-- What is found as quoted is pieces between quotes. -/
theorem exists_pieces_of_quoted {quote : CodePoint} {unclosed : LexCause} {cs : List CodePoint}
    (h : quoted quote unclosed cs = .ok cs.length) (hhead : cs.head? = some quote) :
    ∃ ps, ArePieces quote ps ∧ cs = quote :: (piecesText ps ++ [quote]) := by
  obtain ⟨c, ps, rest, -, hps, rfl, hlength⟩ := arePieces_of_quoted h
  obtain rfl : rest = [] := by
    rw [List.length_cons, List.length_append, List.length_cons] at hlength
    exact List.length_eq_zero_iff.1 (by omega)
  cases hhead
  exact ⟨ps, hps, rfl⟩

/-- A string is found by the scan for quoted text. -/
theorem quoted_of_lexeme_string {cs : List CodePoint} {n : Nat} (h : lexeme cs = .ok (some (.string, n))) :
    cs.head? = some (.char '"') ∧ quoted '"' .unterminatedString cs = .ok n := by
  unfold lexeme scanFor at h
  split at h
  · have hkind := congrArg Prod.fst (Option.some.inj (Except.ok.inj h))
    rcases kind_number cs with hnumber | hnumber <;> rw [hnumber] at hkind <;> cases hkind
  split at h
  · rcases hcharacter : character cs with f | n <;> rw [hcharacter] at h <;> cases h
  split at h
  · next hhead =>
    rcases hquoted : quoted '"' .unterminatedString cs with f | n <;> rw [hquoted] at h <;> cases h
    exact ⟨hhead, rfl⟩
  split at h
  · rcases hquoted : quoted '\'' .unterminatedAtom cs with f | n <;> rw [hquoted] at h <;> cases h
  split at h
  · cases h
  split at h
  · cases h
  · obtain ⟨s, hs, hkind, -⟩ := exists_of_symbol? (Except.ok.inj h)
    have hno := isSymbol_of_mem_symbols s hs
    rw [hkind] at hno
    cases hno

private theorem exists_pieces_of_isLexeme_string {cs : List CodePoint} (h : IsLexeme .string cs) :
    ∃ ps, ArePieces '"' ps ∧ cs = .char '"' :: (piecesText ps ++ [.char '"']) := by
  obtain ⟨hhead, hquoted⟩ := quoted_of_lexeme_string h.2
  exact exists_pieces_of_quoted hquoted hhead

theorem exists_pieces_of_isLexeme_atom {cs : List CodePoint} (h : IsLexeme .atom cs)
    (hhead : cs.head? = some (.char '\'')) :
    ∃ ps, ArePieces '\'' ps ∧ cs = .char '\'' :: (piecesText ps ++ [.char '\'']) := by
  have hfound := h.2
  rw [lexeme, hhead] at hfound
  change (quoted '\'' .unterminatedAtom cs).map _ = _ at hfound
  rcases hquoted : quoted '\'' .unterminatedAtom cs with f | n <;> rw [hquoted] at hfound <;> cases hfound
  exact exists_pieces_of_quoted hquoted hhead

end Scan

namespace Token

/-- The quotes that a token stands in, if it does. -/
def quote? (t : Token) : Option CodePoint :=
  match t.kind with
  | .string => some (.char '"')
  | .atom => if t.text.toList.head? = some (.char '\'') then some (.char '\'') else none
  | _ => none

variable {t : Token} {quote : CodePoint}

theorem ne_backslash_of_quote? (h : t.quote? = some quote) : quote ≠ '\\' := by
  unfold quote? at h
  split at h
  · cases h
    decide
  · split at h <;> cases h
    decide
  · cases h

theorem value?_eq_some (h : t.kind = .atom ∨ t.kind = .string) : t.value? = some t.value := by
  rcases h with h | h <;> simp [value, value?, h]

/-- A token without quotes stands for its text. -/
theorem value_of_quote?_none (h : t.quote? = none) : t.value = .ok t.text := by
  unfold quote? at h
  split at h
  · cases h
  · next hkind =>
    split at h
    · cases h
    · next hhead => simp [value, value?, hkind, hhead]
  · next hstring hatom =>
    unfold value value?
    split <;> simp_all

/-- The text between quotes is what its pieces write. -/
theorem quotedBody_eq {cs : List CodePoint} (h : t.text.toList = quote :: (cs ++ [quote])) : t.quotedBody = cs := by
  simp [quotedBody, h]

/-- A token in quotes stands for what the text between them stands for. -/
theorem value?_of_quote? (h : t.quote? = some quote) : t.value? = some ((unescape t.quotedBody).map Text.ofList) := by
  unfold quote? at h
  split at h
  · next hkind => simp [value?, hkind]
  · next hkind =>
    split at h
    · next hhead => simp [value?, hkind, hhead]
    · cases h
  · cases h

/-- A token in quotes that is found in a text is not empty. -/
theorem toList_ne_nil_of_quote? {cs : List CodePoint} (hquote : t.quote? = some quote)
    (found : Scan.lexeme cs = .ok (some (t.kind, t.text.toList.length))) : t.text.toList ≠ [] := by
  intro hnil
  unfold quote? at hquote
  split at hquote
  · next hkind =>
    rw [hkind, hnil] at found
    obtain ⟨_, _, _, -, -, -, hlength⟩ := Scan.arePieces_of_quoted (Scan.quoted_of_lexeme_string found).2
    cases hlength
  · rw [hnil] at hquote
    cases hquote
  · cases hquote

/-- A lexeme in quotes is made of pieces, and stands for what these stand for. -/
theorem exists_pieces (h : Scan.IsLexeme t.kind t.text.toList) (hquote : t.quote? = some quote) :
    ∃ ps value, Scan.ArePieces quote ps ∧ t.text.toList = quote :: (Scan.piecesText ps ++ [quote]) ∧
      t.value? = some (.ok value) ∧ value.toList.map CodePoint.toNat = ps.map Scan.Piece.code := by
  obtain ⟨ps, hps, htext⟩ : ∃ ps, Scan.ArePieces quote ps ∧ t.text.toList = quote :: (Scan.piecesText ps ++ [quote]) := by
    unfold quote? at hquote
    split at hquote
    · next hkind =>
      cases hquote
      exact Scan.exists_pieces_of_isLexeme_string (hkind ▸ h)
    · next hkind =>
      split at hquote <;> cases hquote
      next hhead => exact Scan.exists_pieces_of_isLexeme_atom (hkind ▸ h) hhead
    · cases hquote
  obtain ⟨cs, hcs, hcodes⟩ := unescape_piecesText hps
  refine ⟨ps, .ofList cs, hps, htext, ?_, hcodes⟩
  rw [value?_of_quote? hquote, quotedBody_eq htext, hcs]
  rfl

end Token

/-- Every lexeme has a value. -/
theorem value_of_isLexeme {t : Token} (h : Scan.IsLexeme t.kind t.text.toList) : ∃ value, t.value = .ok value := by
  rcases hquote : t.quote? with _ | quote
  · exact ⟨_, Token.value_of_quote?_none hquote⟩
  · obtain ⟨ps, value, -, -, hvalue, -⟩ := Token.exists_pieces h hquote
    exact ⟨value, by rw [Token.value, hvalue]; rfl⟩

/-! ### Values in quotes -/

theorem value?_of_quoteString {t : Token} {value : Text} (hkind : t.kind = .string) (htext : t.text = quoteString value) :
    t.value? = some (.ok value) := by
  have hquote : t.quote? = some (.char '"') := by simp [Token.quote?, hkind]
  have hbody : t.quotedBody = value.toList.flatMap inString :=
    Token.quotedBody_eq (by rw [htext, toList_quoteString])
  rw [Token.value?_of_quote? hquote, hbody, unescape_inString]
  rfl

theorem value?_of_quoteAtom {t : Token} {value : Text} (hkind : t.kind = .atom) (htext : t.text = quoteAtom value) :
    t.value? = some (.ok value) := by
  by_cases hbare : isBareAtom value.toList = true
  · have htext : t.text = value := by rw [htext, quoteAtom, if_pos hbare]
    have hquote : t.quote? = none := by
      unfold Token.quote?
      rw [hkind, htext]
      refine if_neg fun hhead => ?_
      obtain ⟨cs, hcs⟩ := List.head?_eq_some_iff.1 hhead
      rw [hcs] at hbare
      cases hbare
    rw [Token.value?_eq_some (.inl hkind), Token.value_of_quote?_none hquote, htext]
  · have htext := (congrArg Text.toList htext).trans (toList_quoteAtom (Bool.eq_false_of_not_eq_true hbare))
    have hquote : t.quote? = some (.char '\'') := by simp [Token.quote?, hkind, htext]
    rw [Token.value?_of_quote? hquote, Token.quotedBody_eq htext, unescape_inAtom]
    rfl

/-- A value in quotes that holds a surrogate is read all the same. -/
theorem value_of_isBroken {t : Token} (h : t.IsBroken) : ∃ value, t.value = .ok value := by
  obtain ⟨value, -, ⟨hkind, htext⟩ | ⟨hkind, htext⟩⟩ := h
  · exact ⟨value, by rw [Token.value, value?_of_quoteString hkind htext]; rfl⟩
  · exact ⟨value, by rw [Token.value, value?_of_quoteAtom hkind htext]; rfl⟩

end ErlangMacros
