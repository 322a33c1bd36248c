import ErlangMacros.Proofs.Preprocessor.Reachable

/-!
# Expanding a call in a run

`Expansion.rewrite` says what a call becomes in the flat list of what waits to be read.  Here this is carried over to
the steps of a run: in every state that a run can reach, expanding the call after a question mark replaces the call in
that list, records it if it stands in a source, and changes nothing else (`expand_rewrites`).
-/

namespace ErlangMacros

namespace Preprocessor

open Expansion

/-- What a call makes of the state when `r` is read on from.  A call that stands in a source is recorded. -/
def afterCall (p : Preprocessor) (r : Reader) : Except Failure MacroCall → Outcome × Preprocessor
  | .ok call => (.proceed, { p with reader := r, calls := if p.reader.depth = 0 then call :: p.calls else p.calls })
  | .error f => (.fail f, { p with reader := r })

theorem expand_settle (p : Preprocessor) (question : Token) :
    ∃ r, r.flat = (settle p.context (.ofReader p.reader question)
          (resolve p.context (.ofReader p.reader question) p.reader)).pending ∧
      ((p.expand question).outcome, (p.expand question).state) =
        p.afterCall r (settle p.context (.ofReader p.reader question)
          (resolve p.context (.ofReader p.reader question) p.reader)).result := by
  unfold expand
  dsimp only
  rcases resolve p.context (.ofReader p.reader question) p.reader with ⟨f | call, r⟩
  · exact ⟨r, rfl, rfl⟩
  · unfold settle
    dsimp only
    rcases push p.context (.ofReader p.reader question) call r with f | r'
    · exact ⟨r, rfl, rfl⟩
    · refine ⟨r', rfl, ?_⟩
      simp only [afterCall, Step.changed, Reader.fromSource, decide_eq_true_eq]
      rfl

/-- Where a call stands: its question mark was read from a source, and then the call site is that of the mark; or it
was read from an expansion, and then the call site is that of the expansion. -/
theorem callSite_ofReader {r r' : Reader} {question : Token} (hr : r.IsPlaced) (h : r.read = (.token question, r')) :
    r'.depth = 0 ∧ (Site.ofReader r' question).callSite = question.position ∨
      1 ≤ r'.depth ∧ r'.callSite = some (Site.ofReader r' question).callSite := by
  rcases (hr.of_read h).2 with ⟨hdepth, hsite⟩ | ⟨hdepth, hsite⟩
  · exact .inl ⟨hdepth, by simp [Site.ofReader, hsite]⟩
  · obtain ⟨c, hc⟩ := Option.isSome_iff_exists.1 hsite
    exact .inr ⟨hdepth, by simp [Site.ofReader, hc]⟩

/-- Expanding the call after a question mark, in any state of a run and with any macro table, is a rewriting step on
what waits to be read.  The expansion is one level deeper than the question mark.  It has the call site of the
question mark, or its position if the mark stands in a source. -/
theorem expand_rewrites {w : World} {stream : Lexing} {options : Options} {finder : Finder} {p₀ p : Preprocessor}
    {es : List Event} {n : Nat} {question : Token} {r : Reader} {macros : MacroTable}
    (hstart : start stream options finder = (.ok p₀, es)) (hreach : stateAfter w n p₀ = some p)
    (hread : p.reader.read = (.token question, r)) (hi : r.inclusion.IsErrorFree) (hm : macros.IsProper) :
    ∃ callSite, (r.depth = 0 ∧ callSite = question.position ∨ 1 ≤ r.depth ∧ r.callSite = some callSite) ∧
      let q := { p with reader := r, macros }
      let rewriting := rewrite q.context r.read.2.inclusion.current ⟨question, r.depth + 1, callSite⟩ r.flat
      ∃ r', r'.flat = rewriting.pending ∧
        ((q.expand question).outcome, (q.expand question).state) = q.afterCall r' rewriting.result := by
  have hplaced : p.reader.IsPlaced := (isSound_stateAfter (isSound_start hstart) hreach).isPlaced
  refine ⟨(Site.ofReader r question).callSite, callSite_ofReader hplaced hread, ?_⟩
  have hrewrite := settle_resolve { p.context with macros } (.ofReader r question) hm
    (hplaced.isNested.of_read hread).1 hi
  obtain ⟨r', hflat, hstate⟩ := expand_settle { p with reader := r, macros } question
  exact ⟨r', hrewrite ▸ hflat, hrewrite ▸ hstate⟩

/-- No variant of the macro takes one argument, so the variant without arguments is put before the argument list. -/
theorem expand_rewrites_fallback :
    let question : Token := { kind := .punctuator, text := "?", position := { offset := 7, line := 2 } }
    let name : Token := { kind := .var, text := "F" }
    let opening : Token := { kind := .punctuator, text := "(" }
    let argument : Token := { kind := .atom, text := "x" }
    let closing : Token := { kind := .punctuator, text := ")" }
    let body : Token := { kind := .atom, text := "b" }
    let tokens := [question, name, opening, argument, closing]
    let macros : MacroTable := ⟨[⟨"F", none, [body], {}⟩, ⟨"F", some ["A", "B"], [], {}⟩]⟩
    let p := initial { tokens } {} (.fixed [])
    let r := p.reader.read.2
    start { tokens } {} (.fixed []) = (.ok p, []) ∧ p.reader.read = (.token question, r) ∧
      r.inclusion.IsErrorFree ∧ macros.IsProper ∧
      ∃ r', r'.flat = [⟨body, 1, some question.position⟩, ⟨opening, 0, none⟩, ⟨argument, 0, none⟩, ⟨closing, 0, none⟩] ∧
        ((expand { p with reader := r, macros } question).outcome,
          (expand { p with reader := r, macros } question).state) =
          (.proceed, { p with reader := r', macros, calls := [⟨question, name, none⟩] }) := by
  intro question name opening argument closing body tokens macros p r
  have hstart : start { tokens } {} (.fixed []) = (.ok p, []) := rfl
  have hread : p.reader.read = (.token question, r) := rfl
  have hi : r.inclusion.IsErrorFree := by
    simp [r, p, Inclusion.IsErrorFree, Inclusion.Ends, Inclusion.sources, initial, Reader.read, Reader.popFrames,
      Inclusion.read, Inclusion.readThrough, Source.next, Source.pull, tokens]
  have hm : macros.IsProper := by
    unfold MacroTable.IsProper
    decide
  have hreach : stateAfter { workingDirectory := {} } 0 p = some p := rfl
  refine ⟨hstart, hread, hi, hm, ?_⟩
  obtain ⟨callSite, hsite, r', hflat, hstate⟩ := expand_rewrites hstart hreach hread hi hm
  have hsite : callSite = question.position := by
    rcases hsite with ⟨-, h⟩ | ⟨h, -⟩
    · exact h
    · cases h
  subst hsite
  exact ⟨r', hflat, hstate⟩

end Preprocessor

end ErlangMacros
