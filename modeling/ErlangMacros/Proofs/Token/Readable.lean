import ErlangMacros.Proofs.Lexer.Meaning

/-!
# The tokens of texts can be read

Every token that a text gives is a lexeme, but for the empty one that a text without an end gives for ever.  So it has a
value, and if it is a symbol, its text says of which kind (`Token.IsReadable.lexeme_symbol`).  The tokens that a run makes
are readable as well, also those that hold a surrogate.
-/

namespace ErlangMacros

/-- Every symbol is the lexeme that is found at its front. -/
theorem Scan.lexeme_of_mem_symbols : ∀ s ∈ symbols, lexeme s.2.toList = .ok (some (s.1, s.2.toList.length)) := by
  decide +kernel

namespace Token

variable {t : Token}

/-- The token can be made by a run, or it is the empty token that a text without an end gives for ever. -/
def IsReadable (t : Token) : Prop :=
  t.IsSpelled ∨ t.text = ""

theorem IsReadable.value (h : t.IsReadable) : ∃ value, t.value = .ok value := by
  rcases h with (h | ⟨hkind, -⟩ | h) | hempty
  · exact value_of_isLexeme h
  · exact ⟨t.text, by simp [Token.value, value?, hkind]⟩
  · exact value_of_isBroken h
  · refine ⟨"", ?_⟩
    unfold Token.value value?
    cases t.kind <;> simp [quotedBody, hempty, unescape, Except.map]

theorem IsReadable.nameValue (h : t.IsReadable) : ∃ name, t.nameValue = .ok name := by
  unfold Token.nameValue
  split
  · exact h.value
  · exact ⟨_, rfl⟩

/-- The text of a symbol says of which kind it is. -/
theorem IsReadable.lexeme_symbol {s : Kind × Text} (h : t.IsReadable) (hs : s ∈ Scan.symbols)
    (hsymbol : t.isSymbol s.2 = true) : t.lexeme = s := by
  obtain ⟨hkind, htext⟩ : t.kind.isSymbol = true ∧ t.text = s.2 := by simpa [isSymbol] using hsymbol
  have hfound := Scan.lexeme_of_mem_symbols s hs
  rcases h with (⟨-, h⟩ | ⟨hinteger, -⟩ | ⟨_, -, ⟨hstring, -⟩ | ⟨hatom, -⟩⟩) | hempty
  · rw [htext, hfound] at h
    obtain ⟨hsame, -⟩ := Prod.mk.inj (Option.some.inj (Except.ok.inj h))
    exact Prod.ext hsame.symm htext
  · rw [hinteger] at hkind
    cases hkind
  · rw [hstring] at hkind
    cases hkind
  · rw [hatom] at hkind
    cases hkind
  · -- no symbol is empty
    have hne : ∀ s ∈ Scan.symbols, s.2 ≠ "" := by decide +kernel
    exact absurd (htext.symm.trans hempty) (hne s hs)

/-- A hyphen is an operator. -/
theorem IsReadable.lexeme_hyphen (h : t.IsReadable) (hhyphen : t.isSymbol "-" = true) : t.lexeme = ⟨.operator, "-"⟩ :=
  h.lexeme_symbol (by decide) hhyphen

end Token

/-- A text gives readable tokens only. -/
theorem Lexing.Gives.isReadable {text : Text} {filename : Option Text} {t : Token}
    (h : (Lexing.ofText text filename).Gives t) : t.IsReadable := by
  by_cases hempty : t.text = ""
  · exact .inr hempty
  · exact .inl (.inl (h.isLexeme (by simpa using hempty)))

theorem Lexing.isReadable_of_mem {text : Text} {filename : Option Text} {t : Token}
    (h : t ∈ (Lexing.ofText text filename).tokens) : t.IsReadable :=
  Gives.isReadable (.inl h)

end ErlangMacros
