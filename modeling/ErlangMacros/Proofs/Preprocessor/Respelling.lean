import ErlangMacros.Proofs.Preprocessor.Lexemes

/-!
# Printing what a run emits

The tokens that a run emits are printed with the white space that stood before each of them in its own text.  But an
expansion brings tokens together that stood apart, and a token may run on into the one that is printed behind it
(`respelled_call_runs_on`).  What is printed gives the same tokens again if and only if that happens nowhere, no line is
reported as a negative number and no name holds a surrogate (`relexes_output_iff`).
-/

namespace ErlangMacros

/-- Each token is a lexeme and does not run on, wherever it stands in the list. -/
theorem separates_iff {ts : List Token} :
    Separates ts ↔ ∀ before t after, ts = before ++ t :: after →
      Scan.IsLexeme t.kind t.text.toList ∧ ¬ Scan.RunsOn t.text.toList (printedAfter t after) := by
  induction ts with
  | nil => simp [Separates]
  | cons u us ih =>
    constructor
    · rintro ⟨hlexeme, hno, hus⟩ before t after heq
      cases before with
      | nil =>
        cases heq
        exact ⟨hlexeme, hno⟩
      | cons b before => exact ih.1 hus before t after (List.cons.inj heq).2
    · intro h
      obtain ⟨hlexeme, hno⟩ := h [] u us rfl
      exact ⟨hlexeme, hno, ih.2 fun before t after heq => h (u :: before) t after (congrArg (u :: ·) heq)⟩

namespace Preprocessor

/-- The tokens that a run emits up to its end are lexemes, negative numbers or values in quotes that hold a surrogate.
They are read again as they were printed if and only if none of them is a negative number, holds a surrogate or runs on
into what is printed behind it. -/
theorem relexes_output_iff {w : World} {text : Text} {filename : Option Text} {options : Options} {finder : Finder}
    {p : Preprocessor} {es : List Event} {fuel : Nat}
    (hstart : start (.ofText text filename) options finder = (.ok p, es)) (hstop : (p.run w fuel).ending = .stop)
    (filename' : Option Text) :
    let ts := (p.run w fuel).tokens
    let again := Lexing.ofText (respell ts) filename'
    (∀ t ∈ ts, Scan.IsLexeme t.kind t.text.toList ∨ t.IsNegative ∨ t.IsBroken) ∧
      (again.ending = .finished ∧ again.tokens.map Token.lexeme = ts.map Token.lexeme ↔
        ∀ before t after, ts = before ++ t :: after →
          ¬ t.IsNegative ∧ ¬ t.IsBroken ∧ ¬ Scan.RunsOn t.text.toList (printedAfter t after)) := by
  intro ts again
  have hsound := isSound_start hstart
  obtain ⟨q, hemits, hending, -⟩ := exists_emits_of_run hsound.done_eq (by rw [hstop]; trivial)
  have hfinite := isFinite_of_finish (Outcome.eq_finish (hending.trans (congrArg some hstop)))
  -- the end is reached only if all sources come to theirs, also the input
  have hinput : (Lexing.ofText text filename).ending.repeats = false := by
    have hsources := isFinite_of_emits hemits hfinite
    obtain ⟨macros, -, rfl⟩ := start_eq hstart
    exact hsources _ (List.mem_cons_self ..)
  have hspelled : ∀ t ∈ ts, t.IsSpelled := isSpelled_of_emits hemits (isSpelled_start hstart hinput) hsound hfinite
  refine ⟨hspelled, (relexes_iff ts filename').trans (separates_iff.trans ?_)⟩
  refine forall_congr' fun before => forall_congr' fun t => forall_congr' fun after => imp_congr_right fun heq => ?_
  rw [← and_assoc]
  refine and_congr_left fun _ => ⟨fun hlexeme => ⟨fun hnegative => ?_, fun hbroken => ?_⟩, fun ⟨hnegative, hbroken⟩ => ?_⟩
  · exact not_isLexeme_of_isNegative hnegative hlexeme
  · exact not_isLexeme_of_isBroken hbroken hlexeme
  · exact (hspelled t (heq ▸ List.mem_append_right _ (List.mem_cons_self ..))).resolve_right
      (not_or.2 ⟨hnegative, hbroken⟩)

/-- An argument that is spelled stands right before its own tokens, and the file that is reported right before the
line. -/
theorem relexes_output_iff_spelled :
    let text := "-define(A(X),??X X).\n-file(\"a\\\"b\",7).\n?A(b\"c\"),?FILE?LINE."
    let w : World := { workingDirectory := ⟨.root, []⟩ }
    let p := initial (.ofText text) {} (.fixed [])
    let ts := (p.run w 40).tokens
    start (.ofText text) {} (.fixed []) = (.ok p, []) ∧ (p.run w 40).ending = .stop ∧
      respell ts = "\"b \\\"c\\\"\"b\"c\",\"a\\\"b\"7.\n" ∧
      ∀ before t after, ts = before ++ t :: after →
        ¬ t.IsNegative ∧ ¬ t.IsBroken ∧ ¬ Scan.RunsOn t.text.toList (printedAfter t after) := by
  intro text w p ts
  have hstart : start (.ofText text) {} (.fixed []) = (.ok p, []) := by decide +kernel
  have hstop : (p.run w 40).ending = .stop := by decide +kernel
  exact ⟨hstart, hstop, by decide +kernel,
    (relexes_output_iff hstart hstop none).2.1 ⟨by decide +kernel, by decide +kernel⟩⟩

/-- A call right behind a name: the number that it stands for becomes a part of the name. -/
theorem respelled_call_runs_on :
    let text := "-define(A,1).\nx?A"
    let w : World := { workingDirectory := ⟨.root, []⟩ }
    let p := initial (.ofText text) {} (.fixed [])
    let ts := (p.run w 20).tokens
    start (.ofText text) {} (.fixed []) = (.ok p, []) ∧ (p.run w 20).ending = .stop ∧
      ts.map Token.lexeme = [⟨.atom, "x"⟩, ⟨.integer, "1"⟩] ∧ respell ts = "x1\n" ∧
      (Lexing.ofText (respell ts)).ending = .finished ∧
      (Lexing.ofText (respell ts)).tokens.map Token.lexeme = [⟨.atom, "x1"⟩] := by
  decide +kernel

/-- A directive names a file by a surrogate.  The name is printed with it, and what is printed cannot be read. -/
example :
    let text : Text := "-file(\"\\x\x7bD800\x7d\",5).\n?FILE"
    let w : World := { workingDirectory := ⟨.root, []⟩ }
    let ts := ((initial (.ofText text) {} (.fixed [])).run w 20).tokens
    ts.map Token.lexeme = [⟨.string, .ofList ['"', .surrogate 0, '"']⟩] ∧
      (Lexing.ofText (respell ts)).ending = .failed ⟨.unencodable, ⟨none, 1, 1, 2⟩⟩ := by
  decide +kernel

end Preprocessor

end ErlangMacros
