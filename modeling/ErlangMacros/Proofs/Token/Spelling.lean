import Mathlib
import ErlangMacros.Proofs.Lexer.Munch
import ErlangMacros.Token.Spelling

/-!
# The tokens that are made

A run makes tokens that stand in no text: values in quotes and line numbers.  Values in quotes are lexemes, whatever
characters they hold (`isLexeme_quoteString`, `isLexeme_quoteAtom`), and so are natural numbers.  Negative numbers are
the only numbers that are not (`not_isLexeme_of_isNegative`).  A value that holds a surrogate is written with the
surrogate, and this is no lexeme either (`not_isLexeme_of_isBroken`).
-/

namespace ErlangMacros

namespace Scan

/-! ### Quoted values -/

/-- The piece that stands for a character in a string. -/
def stringPiece (c : CodePoint) : Piece :=
  if c = '\\' then .escaped ['\\']
  else if c = '"' then .escaped ['"']
  else if c = '\n' then .escaped ['n']
  else .plain c

/-- The piece that stands for a character in a quoted atom. -/
def atomPiece (c : CodePoint) : Piece :=
  if c = '\\' then .escaped ['\\'] else if c = '\'' then .escaped ['\''] else .plain c

theorem text_stringPiece (c : CodePoint) : (stringPiece c).text = inString c := by
  unfold stringPiece inString
  split
  · rfl
  split
  · rfl
  split <;> rfl

theorem text_atomPiece (c : CodePoint) : (atomPiece c).text = inAtom c := by
  unfold atomPiece inAtom
  split
  · rfl
  split <;> rfl

theorem arePieces_stringPiece {cs : List CodePoint} (h : ∀ c ∈ cs, c.isChar = true) :
    ArePieces '"' (cs.map stringPiece) := by
  induction cs with
  | nil => exact .nil
  | cons c cs ih =>
    obtain ⟨hc, hcs⟩ := List.forall_mem_cons.1 h
    rw [List.map_cons, stringPiece]
    split
    · exact .escaped (.plain (by decide) (by decide) (by decide) rfl) (ih hcs)
    split
    · exact .escaped (.plain (by decide) (by decide) (by decide) rfl) (ih hcs)
    split
    · exact .escaped (.plain (by decide) (by decide) (by decide) rfl) (ih hcs)
    · exact .plain (by assumption) (by assumption) hc (ih hcs)

theorem arePieces_atomPiece {cs : List CodePoint} (h : ∀ c ∈ cs, c.isChar = true) :
    ArePieces '\'' (cs.map atomPiece) := by
  induction cs with
  | nil => exact .nil
  | cons c cs ih =>
    obtain ⟨hc, hcs⟩ := List.forall_mem_cons.1 h
    rw [List.map_cons, atomPiece]
    split
    · exact .escaped (.plain (by decide) (by decide) (by decide) rfl) (ih hcs)
    split
    · exact .escaped (.plain (by decide) (by decide) (by decide) rfl) (ih hcs)
    · exact .plain (by assumption) (by assumption) hc (ih hcs)

/-- Pieces between double quotes are a string. -/
theorem isLexeme_string {ps : List Piece} (hps : ArePieces '"' ps) :
    IsLexeme .string (.char '"' :: (piecesText ps ++ [.char '"'])) := by
  refine ⟨List.cons_ne_nil _ _, ?_⟩
  change (quoted '"' .unterminatedString (.char '"' :: (piecesText ps ++ [.char '"']))).map _ = _
  rw [quoted_of_arePieces hps (by decide) rfl]
  simp [Except.map]

/-- Pieces between single quotes are an atom. -/
theorem isLexeme_atom {ps : List Piece} (hps : ArePieces '\'' ps) :
    IsLexeme .atom (.char '\'' :: (piecesText ps ++ [.char '\''])) := by
  refine ⟨List.cons_ne_nil _ _, ?_⟩
  change (quoted '\'' .unterminatedAtom (.char '\'' :: (piecesText ps ++ [.char '\'']))).map _ = _
  rw [quoted_of_arePieces hps (by decide) rfl]
  simp [Except.map]

/-! ### Names and numbers without quotes -/

theorem toNat_lt_of_isAlphanum {c : CodePoint} (h : c.isAlphanum = true) : c.toNat < 128 := by
  simp only [CodePoint.isAlphanum, CodePoint.isUpper, CodePoint.isLower, CodePoint.isDigit, Bool.or_eq_true,
    Bool.and_eq_true, decide_eq_true_eq, Char.reduceToNat] at h
  omega

private theorem isNameChar_of_isBareAtomChar {c : CodePoint} (h : isBareAtomChar c = true) : isNameChar c = true := by
  simp only [isBareAtomChar, Bool.or_eq_true, decide_eq_true_eq] at h
  rcases h with (h | rfl) | rfl
  · rw [isNameChar, Text.isAlphanumeric_of_ascii (toNat_lt_of_isAlphanum h), h]
    rfl
  · decide
  · decide

/-- A small letter starts a name. -/
theorem scanFor_isLower {c : CodePoint} (h : c.isLower = true) (cs : List CodePoint) :
    scanFor (some c) cs = .ok (some (.atom, name cs)) := by
  have hclass : Text.isDigit c = false ∧ c ≠ '$' ∧ c ≠ '"' ∧ c ≠ '\'' ∧ Text.isLower c = true :=
    Text.forall_ascii
      (P := fun c => c.isLower = true →
        Text.isDigit c = false ∧ c ≠ '$' ∧ c ≠ '"' ∧ c ≠ '\'' ∧ Text.isLower c = true)
      (by decide +kernel) (toNat_lt_of_isAlphanum (by simp [CodePoint.isAlphanum, h])) h
  obtain ⟨hdigit, hdollar, hdouble, hsingle, hlower⟩ := hclass
  simp [scanFor, hdigit, hdollar, hdouble, hsingle, hlower]

theorem isLexeme_bareAtom {cs : List CodePoint} (h : isBareAtom cs = true) : IsLexeme .atom cs := by
  cases cs with
  | nil => cases h
  | cons c cs =>
    obtain ⟨hlower, hcs⟩ := Bool.and_eq_true_iff.1 h
    have hall : ∀ d ∈ c :: cs, isNameChar d = true := by
      refine List.forall_mem_cons.2 ⟨isNameChar_of_isBareAtomChar ?_, fun d hd => ?_⟩
      · simp [isBareAtomChar, CodePoint.isAlphanum, hlower]
      · exact isNameChar_of_isBareAtomChar (List.all_eq_true.1 hcs d hd)
    refine ⟨List.cons_ne_nil _ _, ?_⟩
    change scanFor (some c) (c :: cs) = _
    rw [scanFor_isLower hlower, name, List.takeWhile_eq_self_iff.2 hall]

private theorem isDigit_of_isDigit {c : CodePoint} (h : c.isDigit = true) : Text.isDigit c = true := by
  rw [Text.isDigit_of_ascii (toNat_lt_of_isAlphanum (by simp [CodePoint.isAlphanum, h])), h]

private theorem digits_eq_length {cs : List CodePoint} (h : ∀ c ∈ cs, c.isDigit = true) (started : Bool) :
    digits started cs = cs.length := by
  induction cs generalizing started with
  | nil => rfl
  | cons c cs ih =>
    obtain ⟨hc, hcs⟩ := List.forall_mem_cons.1 h
    rw [digits, if_pos (isDigit_of_isDigit hc), ih hcs, List.length_cons]

/-- Digits alone are an integer. -/
theorem isLexeme_digits {cs : List CodePoint} (hne : cs ≠ []) (h : ∀ c ∈ cs, c.isDigit = true) : IsLexeme .integer cs := by
  have hnumber : number cs = (.integer, cs.length) := by
    simp [number, digits_eq_length h, basedDigits, fraction]
  obtain ⟨c, ds, rfl⟩ := List.exists_cons_of_ne_nil hne
  have hc : Text.isDigit c = true := isDigit_of_isDigit (h c (List.mem_cons_self ..))
  refine ⟨hne, ?_⟩
  change scanFor (some c) (c :: ds) = _
  rw [scanFor, Option.any_some, if_pos hc, hnumber]

theorem isSymbol_of_mem_symbols : ∀ s ∈ symbols, s.1.isSymbol = true := by
  decide +kernel

/-- A minus sign starts no number. -/
theorem not_isLexeme_minus (cs : List CodePoint) : ¬ IsLexeme .integer (.char '-' :: cs) := by
  rintro ⟨-, h⟩
  have hsymbol : symbol? (.char '-' :: cs) = some (.integer, (.char '-' :: cs).length) := Except.ok.inj h
  obtain ⟨s, hs, hkind, -⟩ := exists_of_symbol? hsymbol
  have hno := isSymbol_of_mem_symbols s hs
  rw [hkind] at hno
  cases hno

end Scan

/-! ### Texts -/

theorem isLexeme_quoteString {value : Text} (h : value.isEncodable = true) :
    Scan.IsLexeme .string (quoteString value).toList := by
  have hpieces := Scan.isLexeme_string (Scan.arePieces_stringPiece (List.all_eq_true.1 h))
  rw [Scan.piecesText, List.flatMap_map] at hpieces
  simp only [Scan.text_stringPiece] at hpieces
  rw [toList_quoteString]
  exact hpieces

theorem isLexeme_quoteAtom {value : Text} (h : value.isEncodable = true) :
    Scan.IsLexeme .atom (quoteAtom value).toList := by
  by_cases hbare : isBareAtom value.toList = true
  · rw [quoteAtom, if_pos hbare]
    exact Scan.isLexeme_bareAtom hbare
  · have hpieces := Scan.isLexeme_atom (Scan.arePieces_atomPiece (List.all_eq_true.1 h))
    rw [Scan.piecesText, List.flatMap_map] at hpieces
    simp only [Scan.text_atomPiece] at hpieces
    rw [toList_quoteAtom (Bool.eq_false_of_not_eq_true hbare)]
    exact hpieces

theorem isLexeme_integer {n : Int} (hn : 0 ≤ n) : Scan.IsLexeme .integer (Text.ofInt n).toList := by
  obtain ⟨m, rfl⟩ := Int.eq_ofNat_of_zero_le hn
  have hdigits : (toString (m : Int)).toList = Nat.toDigits 10 m := String.toList_ofList
  rw [Text.ofInt, Text.toList_ofString, hdigits]
  refine Scan.isLexeme_digits (by simp [Nat.toDigits_ne_nil]) (List.forall_mem_map.2 fun c hc => ?_)
  have hc := Nat.isDigit_of_mem_toDigits (by decide) (by decide) hc
  simp only [Char.isDigit, ge_iff_le, UInt32.le_iff_toNat_le] at hc
  exact hc

/-! ### Tokens that are no lexemes -/

namespace Token

/-- The token is a negative number. -/
def IsNegative (t : Token) : Prop :=
  t.kind = .integer ∧ ∃ n : Int, n < 0 ∧ t.text = .ofInt n

/-- The token is a value in quotes that holds a surrogate. -/
def IsBroken (t : Token) : Prop :=
  ∃ value : Text, value.isEncodable = false ∧
    (t.kind = .string ∧ t.text = quoteString value ∨ t.kind = .atom ∧ t.text = quoteAtom value)

/-- The token is a lexeme, a negative number or a value that holds a surrogate. -/
def IsSpelled (t : Token) : Prop :=
  Scan.IsLexeme t.kind t.text.toList ∨ t.IsNegative ∨ t.IsBroken

end Token

theorem not_isLexeme_of_isNegative {t : Token} (h : t.IsNegative) : ¬ Scan.IsLexeme t.kind t.text.toList := by
  obtain ⟨hkind, n, hn, htext⟩ := h
  obtain ⟨m, rfl⟩ := Int.eq_negSucc_of_lt_zero hn
  have hminus : (toString (Int.negSucc m)).toList = '-' :: (Nat.repr (m + 1)).toList := by
    change ("-" ++ Nat.repr (m + 1)).toList = _
    rw [String.toList_append]
    rfl
  rw [hkind, htext, Text.ofInt, Text.toList_ofString, hminus]
  exact Scan.not_isLexeme_minus _

/-- Surrogates are written as they are. -/
theorem mem_quoteString {value : Text} {n : Fin 0x800} (h : .surrogate n ∈ value.toList) :
    .surrogate n ∈ (quoteString value).toList := by
  rw [toList_quoteString]
  exact List.mem_cons_of_mem _ (List.mem_append_left _ (List.mem_flatMap.2 ⟨_, h, by simp [inString]⟩))

private theorem mem_quoteAtom {value : Text} {n : Fin 0x800} (h : .surrogate n ∈ value.toList) :
    .surrogate n ∈ (quoteAtom value).toList := by
  by_cases hbare : isBareAtom value.toList = true
  · rwa [quoteAtom, if_pos hbare]
  · rw [toList_quoteAtom (Bool.eq_false_of_not_eq_true hbare)]
    exact List.mem_cons_of_mem _ (List.mem_append_left _ (List.mem_flatMap.2 ⟨_, h, by simp [inAtom]⟩))

private theorem exists_surrogate_of_isBroken {t : Token} (h : t.IsBroken) : ∃ n, .surrogate n ∈ t.text.toList := by
  obtain ⟨value, hvalue, htext⟩ := h
  obtain ⟨c, hc, hsurrogate⟩ := List.all_eq_false.1 hvalue
  obtain ⟨n, rfl⟩ := CodePoint.isChar_eq_false_iff.1 (Bool.eq_false_of_not_eq_true hsurrogate)
  refine ⟨n, ?_⟩
  rcases htext with ⟨-, htext⟩ | ⟨-, htext⟩ <;> rw [htext]
  · exact mem_quoteString hc
  · exact mem_quoteAtom hc

theorem not_isLexeme_of_isBroken {t : Token} (h : t.IsBroken) : ¬ Scan.IsLexeme t.kind t.text.toList := by
  obtain ⟨n, hn⟩ := exists_surrogate_of_isBroken h
  intro hlexeme
  cases hlexeme.isChar _ hn

/-- A string that is made of a value is a lexeme unless the value holds a surrogate. -/
theorem quoteString_spelling {t : Token} {value : Text} (hkind : t.kind = .string) (htext : t.text = quoteString value) :
    Scan.IsLexeme t.kind t.text.toList ∨ t.IsBroken := by
  rcases hvalue : value.isEncodable
  · exact .inr ⟨value, hvalue, .inl ⟨hkind, htext⟩⟩
  · rw [hkind, htext]
    exact .inl (isLexeme_quoteString hvalue)

theorem quoteAtom_spelling {t : Token} {value : Text} (hkind : t.kind = .atom) (htext : t.text = quoteAtom value) :
    Scan.IsLexeme t.kind t.text.toList ∨ t.IsBroken := by
  rcases hvalue : value.isEncodable
  · exact .inr ⟨value, hvalue, .inr ⟨hkind, htext⟩⟩
  · rw [hkind, htext]
    exact .inl (isLexeme_quoteAtom hvalue)

end ErlangMacros
