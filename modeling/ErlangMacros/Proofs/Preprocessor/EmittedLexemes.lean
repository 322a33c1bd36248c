import ErlangMacros.Proofs.Preprocessor.Inclusion
import ErlangMacros.Proofs.Preprocessor.Lexemes

/-!
# Each emitted token is a lexeme

A token that a run emits is lexed alone as the one token that it is.  That holds of what stands in ASCII texts, of the
default bodies of definition texts, of the tokens of predefined macros, and of strings that spell arguments.

There are two exceptions (`emitted_lexes_alone_iff`).  A directive may set a line that is so small that the macro for the
line reports a negative number, and this is emitted as one integer, which is no lexeme.  And the file or the module may be
called by a name that holds a surrogate, which an escape sequence can name; the name is emitted in quotes with the
surrogate, and lexing breaks off there.
-/

namespace ErlangMacros

/-- The text has only ASCII characters. -/
def IsAscii (text : Text) : Prop :=
  ∀ c ∈ text.toList, c.toNat < 128

instance (text : Text) : Decidable (IsAscii text) :=
  decidable_of_iff (text.toList.all fun c => c.toNat < 128) (by simp [IsAscii])

theorem IsAscii.isLexeme_of_gives {text : Text} {filename : Option Text} {t : Token} (h : IsAscii text)
    (ht : (Lexing.ofText text filename).Gives t) : Scan.IsLexeme t.kind t.text.toList :=
  Preprocessor.isLexeme_of_gives (Lexer.repeats_eq_false_of_ascii h) ht

namespace Preprocessor

/-- The files that are entered in the first steps of a run have ASCII texts. -/
def EntersAscii (w : World) (n : Nat) (p : Preprocessor) : Prop :=
  ∀ m < n, ∀ q, stateAfter w m p = some q → ∀ path text,
    .entering (some path) ∈ (step w q).events → w.readText path = .ok text → IsAscii text

/-- One of the first steps of a run makes a token from a call of the macro for the line in a source that reports a
negative line there. -/
def MakesNegative (w : World) (n : Nat) (p : Preprocessor) (t : Token) : Prop :=
  ∃ m < n, ∃ q source site, stateAfter w m p = some q ∧ q.Predefines .line source site t ∧
    source.logicalLine site.callSite.line < 0

variable {w : World} {p p' : Preprocessor} {n m : Nat} {t : Token}

private theorem MakesNegative.isNegative (h : MakesNegative w n p t) : t.IsNegative := by
  obtain ⟨m, -, q, source, site, -, hcalls, hline⟩ := h
  obtain ⟨-, -, -, -, -, htoken⟩ := hcalls
  cases htoken
  exact ⟨rfl, _, hline, rfl⟩

/-- A token of a predefined macro that a step makes is a lexeme, unless it holds a surrogate or reports a negative
line. -/
theorem Predefines.isLexeme_or_makesNegative {pre : Predefined} {source : Source} {site : Expansion.Site}
    (h : p'.Predefines pre source site t) (hm : m < n) (hreach : stateAfter w m p = some p') :
    (Scan.IsLexeme t.kind t.text.toList ∨ t.IsBroken) ∨ MakesNegative w n p t := by
  obtain ⟨-, -, -, -, -, htoken⟩ := id h
  rcases predefinedToken_spelling htoken with hspelled | ⟨rfl, hline, -⟩
  · exact .inl hspelled
  · exact .inr ⟨m, hm, p', _, _, hreach, h, hline⟩

/-- In a run over ASCII texts, all tokens that wait are lexemes, hold a surrogate or report a negative line. -/
theorem bears_of_ascii {text : Text} {filename : Option Text} {options : Options} {finder : Finder}
    {es : List Event} (hstart : start (.ofText text filename) options finder = (.ok p, es)) (htext : IsAscii text)
    (hreach : stateAfter w n p = some p') (hfiles : EntersAscii w n p) :
    p'.Bears fun u => (Scan.IsLexeme u.kind u.text.toList ∨ u.IsBroken) ∨ MakesNegative w n p u := by
  have hbears : p.Bears fun u => (Scan.IsLexeme u.kind u.text.toList ∨ u.IsBroken) ∨ MakesNegative w n p u := by
    refine bears_start hstart (fun u hu => .inl (.inl (htext.isLexeme_of_gives hu))) ?_
    exact fun _ _ m hm u hu => .inl (.inl (isLexeme_of_ofDefinition hm u hu))
  refine hbears.stateAfter (fun arg marker => .inl (stringify_spelling arg marker)) (isSound_start hstart) hreach ?_ ?_
  · intro m hm q hq _ _ _ u hpredefines
    exact hpredefines.isLexeme_or_makesNegative hm hq
  · intro m hm q hq path text' hentering hread u hu
    have hascii := hfiles m hm q hq path text' hentering hread
    exact .inl (.inl (hascii.isLexeme_of_gives hu))

/-- A run over ASCII texts, whatever the options are, emits tokens that are lexed alone as the one token that they are,
with the same kind and text, if and only if they do not come from a call of the macro for the line in a source that
reports a negative line there, and are not values in quotes that hold a surrogate. -/
theorem emitted_lexes_alone_iff {w : World} {text : Text} {filename : Option Text} {options : Options}
    {finder : Finder} {p₀ p : Preprocessor} {es : List Event} {n : Nat} {t : Token}
    (hstart : start (.ofText text filename) options finder = (.ok p₀, es)) (htext : IsAscii text)
    (hreach : stateAfter w n p₀ = some p) (hfiles : EntersAscii w n p₀) (hemit : (step w p).outcome = .emit t)
    (filename' : Option Text) :
    let alone := Lexing.ofText t.text filename'
    alone.ending = .finished ∧ alone.tokens.map Token.lexeme = [t.lexeme] ↔
      ¬ MakesNegative w n p₀ t ∧ ¬ t.IsBroken := by
  intro alone
  refine (lexes_alone_iff t filename').trans
    ⟨fun hlexeme => ⟨fun hmakes => ?_, fun hbroken => ?_⟩, fun ⟨hno, hunbroken⟩ => ?_⟩
  · exact not_isLexeme_of_isNegative hmakes.isNegative hlexeme
  · exact not_isLexeme_of_isBroken hbroken hlexeme
  · have hbears := bears_of_ascii hstart htext hreach hfiles
    have hemitted := hbears.emitted (fun arg marker => .inl (stringify_spelling arg marker)) hemit
    exact (hemitted.resolve_right hno).resolve_right hunbroken

/-- A macro of an included file spells its argument, and the line behind a directive is reported as zero. -/
theorem emitted_lexes_alone_iff_zero :
    let text : Text := "-include(\"f\").\n-file(\"a\\\"\",0).\n?S(b\"c\")?FILE?LINE"
    let file : String := "-define(S(X),??X)."
    let path : Path := ⟨.root, ["f"]⟩
    let w : World := { workingDirectory := ⟨.root, []⟩, files := ⟨[(path.parts, .file file.toUTF8)], []⟩ }
    let p₀ := initial (.ofText text) {} (.fixed [("f", some path)])
    start (.ofText text) {} (.fixed [("f", some path)]) = (.ok p₀, []) ∧ IsAscii text ∧ EntersAscii w 8 p₀ ∧
      ∃ p t, stateAfter w 8 p₀ = some p ∧ (step w p).outcome = .emit t ∧ t.lexeme = ⟨.integer, "0"⟩ ∧
        (Lexing.ofText t.text).tokens.map Token.lexeme = [⟨.integer, "0"⟩] ∧ ¬ MakesNegative w 8 p₀ t ∧
        ¬ t.IsBroken := by
  intro text file path w p₀
  have hstart : start (.ofText text) {} (.fixed [("f", some path)]) = (.ok p₀, []) := rfl
  have htext : IsAscii text := by decide +kernel
  have hfiles : EntersAscii w 8 p₀ := by
    intro m _ q _ name text' _ hread
    obtain ⟨place, bytes, s, hmem, hs, rfl⟩ := World.mem_entries_of_readText hread
    obtain ⟨-, rfl⟩ : place = path.parts ∧ bytes = file.toUTF8 := by simpa [w] using hmem
    rw [fromUTF8?_toUTF8] at hs
    cases hs
    decide +kernel
  have hemits : (stateAfter w 8 p₀).map (fun p => (step w p).outcome) =
      some (.emit ⟨.integer, "0", ⟨none, 44, 3, 14⟩, false⟩) := by
    decide +kernel
  obtain ⟨p, hreach, hemit⟩ := Option.map_eq_some_iff.1 hemits
  refine ⟨hstart, htext, hfiles, p, _, hreach, hemit, rfl, by decide +kernel, ?_⟩
  exact (emitted_lexes_alone_iff hstart htext hreach hfiles hemit none).1 ⟨by decide +kernel, by decide +kernel⟩

-- a surrogate in the name that a directive gives to the file is emitted as it is
example :
    let text : Text := "-file(\"\\x\x7bD800\x7d\",5).\n?FILE"
    let p := initial (.ofText text) {} (.fixed [])
    let ts := (p.run { workingDirectory := ⟨.root, []⟩ } 10).tokens
    IsAscii text ∧ ts.map Token.lexeme = [⟨.string, .ofList ['"', .surrogate 0, '"']⟩] ∧
      ts.map (fun t => (Lexing.ofText t.text).tokens) = [[]] := by
  decide +kernel

/-- A directive sets line zero for the line behind it, and the macro for the line is called on its own line.  The number
that is emitted is read again as a minus sign and a number. -/
theorem negative_line_is_no_lexeme :
    let text : Text := "-file(\"a\",0).?LINE"
    let w : World := { workingDirectory := ⟨.root, []⟩ }
    let p := initial (.ofText text) {} (.fixed [])
    start (.ofText text) {} (.fixed []) = (.ok p, []) ∧ (p.run w 10).ending = .stop ∧
      (p.run w 10).tokens.map Token.lexeme = [⟨.integer, "-1"⟩] ∧
      (Lexing.ofText "-1").tokens.map Token.lexeme = [⟨.operator, "-"⟩, ⟨.integer, "1"⟩] := by
  decide +kernel

end Preprocessor

end ErlangMacros
