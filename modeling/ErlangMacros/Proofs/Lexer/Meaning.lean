import ErlangMacros.Proofs.Inclusion.Content
import ErlangMacros.Proofs.Lexer.Relexing
import ErlangMacros.Proofs.Token.Value

/-!
# What the tokens of a text stand for

Every token of a text stands at its place as the lexeme that is found there (`Layout.exists_of_mem`), unless it is the
empty token that a text gives for ever.  The scan for a token in quotes has split the text between them into pieces, and
the token stands for what these pieces stand for, one by one (`value_of_scanned`).  These are code points, which an
escape sequence may name even if they are surrogates.
-/

namespace ErlangMacros

/-- A token of a text is the lexeme that is found where the token stands. -/
theorem Layout.exists_of_mem {filename : Option Text} {before cs before' rest : List CodePoint} {t : Token}
    {ts : List Token} (h : Layout filename before cs ts before' rest) (ht : t ∈ ts) :
    ∃ front behind, before ++ cs = front ++ (t.text.toList ++ behind) ∧ t.position = coordinates filename front ∧
      Scan.lexeme (t.text.toList ++ behind) = .ok (some (t.kind, t.text.toList.length)) := by
  induction h with
  | nil => cases ht
  | @cons before gap cs before' rest u us _ _ hposition found _ ih =>
    rcases List.mem_cons.1 ht with rfl | ht
    · exact ⟨before ++ gap, cs, (List.append_assoc ..).symm, hposition, found⟩
    · obtain ⟨front, behind, hsplit, hrest⟩ := ih ht
      refine ⟨front, behind, ?_, hrest⟩
      rw [← hsplit, List.append_assoc, List.append_assoc]

namespace Lexer

variable {l : Lexer} {t : Token}

/-- A token that comes for ever is empty, and is laid out behind the others. -/
theorem layout_of_repeating {before : List CodePoint} (hl : l.StandsBehind before) (h : l.tokenize.ending = .repeating t) :
    t.text = "" ∧ ∃ before' rest, Layout l.filename before l.rest (l.tokenize.tokens ++ [t]) before' rest := by
  induction l using tokenize.induct generalizing before with
  | case1 l l' _ hnext =>
    rw [tokenize_finished hnext] at h
    cases h
  | case2 l e l' _ hnext =>
    rw [tokenize_failed hnext] at h
    cases h
  | case3 l u l' _ hnext hmoved _ ih =>
    have hcons := tokenize_token hnext
    rw [if_pos hmoved] at hcons
    rw [hcons] at h ⊢
    have hreads := l.reads_next
    rw [hnext] at hreads
    cases hreads with
    | @token kind n hunbroken found =>
      obtain ⟨hempty, before', rest, htail⟩ := ih (hl.behind (Scan.isChar_of_lexeme found)) h
      exact ⟨hempty, before', rest, hl.layout hunbroken found htail⟩
  | case4 l u l' _ hnext hstill =>
    rw [tokenize_token hnext, if_neg hstill] at h ⊢
    have hreads := l.reads_next
    rw [hnext] at hreads
    cases h
    cases hreads with
    | @token kind n hunbroken found =>
      -- a lexeme with characters would have moved the lexer
      obtain rfl : n = 0 := Nat.eq_zero_of_not_pos fun hn => hstill (offset_lt_of_lexeme found hn)
      exact ⟨rfl, _, _, hl.layout hunbroken found (.nil _ _)⟩

end Lexer

namespace Lexing

variable {text : Text} {filename : Option Text} {t : Token}

/-- A token of a text is the lexeme that is found where it stands. -/
theorem Gives.exists_found (h : (ofText text filename).Gives t) :
    ∃ front behind, text.toList = front ++ (t.text.toList ++ behind) ∧ t.position = coordinates filename front ∧
      Scan.lexeme (t.text.toList ++ behind) = .ok (some (t.kind, t.text.toList.length)) := by
  have hbehind : (Lexer.ofText text filename).StandsBehind [] := ⟨List.forall_mem_nil _, rfl, rfl⟩
  rcases h with h | h
  · obtain ⟨before, rest, hlayout, -⟩ := Lexer.tokenize_layout hbehind
    exact hlayout.exists_of_mem h
  · obtain ⟨-, before, rest, hlayout⟩ := Lexer.layout_of_repeating hbehind h
    exact hlayout.exists_of_mem (List.mem_append_right _ (List.mem_singleton_self t))

/-- The tokens of a text are lexemes, but for an empty one. -/
theorem Gives.isLexeme (h : (ofText text filename).Gives t) (hne : t.text.toList ≠ []) :
    Scan.IsLexeme t.kind t.text.toList := by
  obtain ⟨front, behind, -, -, found⟩ := h.exists_found
  exact ((Scan.lexeme_append_eq_iff hne).1 found).1

end Lexing

/-- Atoms and strings of a text have values.  The value of one in quotes is made of what the pieces stand for into which
the text behind its opening quote was split when it was scanned: its code points have the numbers that the pieces give. -/
theorem value_of_scanned {text : Text} {filename : Option Text} {t : Token}
    (ht : (Lexing.ofText text filename).Gives t) (hkind : t.kind = .atom ∨ t.kind = .string) :
    ∃ value, t.value? = some (.ok value) ∧
      ∀ quote, t.quote? = some quote →
        ∃ front ps behind, text.toList = front ++ quote :: (Scan.piecesText ps ++ quote :: behind) ∧
          t.position = coordinates filename front ∧ t.text.toList = quote :: (Scan.piecesText ps ++ [quote]) ∧
          (∀ unclosed, Scan.pieces quote unclosed (Scan.piecesText ps ++ quote :: behind) = .ok ps) ∧
          value.toList.map CodePoint.toNat = ps.map Scan.Piece.code := by
  rcases hquote : t.quote? with _ | quote
  · refine ⟨t.text, ?_, nofun⟩
    rw [Token.value?_eq_some hkind, Token.value_of_quote?_none hquote]
  · obtain ⟨front, behind, htext, hposition, found⟩ := ht.exists_found
    have hlexeme := ht.isLexeme (Token.toList_ne_nil_of_quote? hquote found)
    obtain ⟨ps, value, hps, hpieces, hvalue, hcodes⟩ := Token.exists_pieces hlexeme hquote
    refine ⟨value, hvalue, ?_⟩
    rintro _ ⟨⟩
    rw [hpieces, List.cons_append, List.append_assoc] at htext
    exact ⟨front, ps, behind, htext, hposition, hpieces,
      fun _ => Scan.pieces_of_arePieces hps (Token.ne_backslash_of_quote? hquote) behind, hcodes⟩

/-- A control sequence takes the quote behind it, a code of octal digits ends after three of them, and a code in braces
may be the one of a surrogate. -/
theorem value_of_scanned_atom :
    let text : Text := "a '\\^'\\1018\\x\x7bD83b\x7d\\\\' b"
    let atom : Token := ⟨.atom, "'\\^'\\1018\\x\x7bD83b\x7d\\\\'", ⟨none, 2, 1, 3⟩, true⟩
    (Lexing.ofText text).Gives atom ∧
      ∃ value, atom.value? = some (.ok value) ∧
        ∀ quote, atom.quote? = some quote →
          ∃ front ps behind, text.toList = front ++ quote :: (Scan.piecesText ps ++ quote :: behind) ∧
            atom.position = coordinates none front ∧ atom.text.toList = quote :: (Scan.piecesText ps ++ [quote]) ∧
            (∀ unclosed, Scan.pieces quote unclosed (Scan.piecesText ps ++ quote :: behind) = .ok ps) ∧
            value.toList.map CodePoint.toNat = ps.map Scan.Piece.code := by
  intro text atom
  have hatom : (Lexing.ofText text).Gives atom := .inl (by decide +kernel)
  exact ⟨hatom, value_of_scanned hatom (.inl rfl)⟩

/-- A backslash behind a caret is no start of another sequence, and a surrogate is a value. -/
example :
    (Lexing.ofText "\"\\^\\\\^\\s\\s\\^\"\\xd8\\x\x7bdfFF\x7d\"").tokens.map Token.value? =
      [some (.ok ("\x1c\x1cs \x02\xd8" ++ .ofList [.surrogate 0x7FF]))] := by
  decide +kernel

end ErlangMacros
