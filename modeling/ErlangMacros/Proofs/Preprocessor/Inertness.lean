import ErlangMacros.Proofs.Preprocessor.LookAhead
import ErlangMacros.Proofs.Preprocessor.Selection
import ErlangMacros.Proofs.Preprocessor.Stacks

/-!
# Suppressed forms are inert

In a state of a run in which tokens are suppressed, the forms that come next are passed over, whatever they contain, and
nothing is left of them but the place in their source (`emits_inert`).  So it makes no difference to the output which forms
stand there, as long as the run has not looked at them before: then a run with other forms there comes to the same state
before them (`exists_emits_exchanged`).

A run may look at forms before it is told to suppress them.  The arguments of a call are read up to their end, and put
back if they do not fit; and whether they come to an end can depend on tokens that are suppressed later on
(`removed_form_was_looked_at`).
-/

namespace ErlangMacros

namespace Preprocessor

open Token (loose symbol operator atom var)

variable {w : World} {p p₀ : Preprocessor} {options : Options} {finder : Finder} {es : List Event} {n : Nat}
  {stream : Lexing} {before x y rest : List Token}

/-- The form starts as a conditional does, well formed or not. -/
def startsConditional : List Token → Bool
  | hyphen :: keyword :: _ =>
    hyphen.isSymbol "-" && keyword.kind = .atom &&
      [("ifdef" : Text), "ifndef", "else", "endif"].contains keyword.text
  | _ => false

/-- The tokens are whole forms without any conditional. -/
structure IsInert (x : List Token) : Prop where
  isComplete : IsComplete x
  plain : ∀ form ∈ forms x, startsConditional form = false

instance (x : List Token) : Decidable (IsInert x) :=
  decidable_of_iff (IsComplete x ∧ ∀ form ∈ forms x, startsConditional form = false)
    ⟨fun h => ⟨h.1, h.2⟩, fun h => ⟨h.1, h.2⟩⟩

private theorem isConditional_of_not_starts {form : List Token} (h : startsConditional form = false) :
    (isDirective form && isConditional form) = false := by
  rw [Bool.eq_false_iff]
  intro hconditional
  obtain ⟨hdirective, hkeyword⟩ := Bool.and_eq_true_iff.1 hconditional
  match form, hdirective with
  | hyphen :: keyword :: _, hdirective =>
    simp only [isDirective, startsDirective, Bool.and_eq_true, decide_eq_true_eq] at hdirective
    obtain ⟨hhyphen, hatom, -⟩ := hdirective
    obtain ⟨k, hk, hconditional⟩ : ∃ k, Keyword.ofText? keyword.text = some k ∧ k.isConditional = true := by
      simpa [isConditional, Option.any_eq_true] using hkeyword
    have htext : [("ifdef" : Text), "ifndef", "else", "endif"].contains keyword.text = true := by
      rw [← Keyword.text_of_ofText? hk]
      cases k with
      | ifdef | ifndef | otherwise | endif => decide
      | define | undef | includeFile | includeLib | error | warning | file => cases hconditional
    rw [startsConditional, hhyphen, hatom, htext] at h
    cases h

/-- While tokens are suppressed, inert forms change nothing but the place in their source. -/
theorem emits_inert (hactive : p.conditions.active = false) (hr : p.reader.IsOutside) (hstart : p.formStart = true)
    (h : p.reader.inclusion.current.remaining = x ++ rest) (hx : IsInert x) :
    ∃ r, p.reader.Passes rest r ∧ Emits w p [] { p with reader := r } := by
  rw [← flatten_forms x] at h
  exact emits_skip_forms hactive hr hstart h (isForm_of_mem_forms hx.isComplete) fun form hform =>
    isConditional_of_not_starts (hx.plain form hform)

/-- A run over an input with other tokens at its end comes to the same state, if none of these has been pulled. -/
theorem exists_emits_exchanged {us : List Token} (hstart : start { tokens := before ++ x } options finder = (.ok p₀, es))
    (hemits : Emits w p₀ us p) (hx : x ≠ []) (houter : p.reader.inclusion.outer = [])
    (htokens : p.reader.inclusion.current.stream.tokens = x) (y : List Token) :
    ∃ p₀' r, start { tokens := before ++ y } options finder = (.ok p₀', es) ∧
      Emits w p₀' us { p with reader := r } ∧ p.reader.Exchanges x y r := by
  obtain ⟨r₀, hstart', hr₀⟩ := start_exchanged hstart y 0
  have hspares : p.reader.Spares x := by
    rw [Reader.Spares, Inclusion.sources, houter]
    exact ⟨by rw [htokens], fun hnil => absurd (htokens.symm.trans hnil) hx⟩
  obtain ⟨r, hemits', hr⟩ := hemits.matching Reader.isMatching_exchanges hr₀ hspares
  exact ⟨_, r, hstart', hemits', hr⟩

private theorem isConsistent_stateAfter (hstart : start stream options finder = (.ok p₀, es))
    (hreach : stateAfter w n p₀ = some p) : p.conditions.IsConsistent := by
  refine stateAfter_induction (P := fun q => q.conditions.IsConsistent) ?_ hreach fun q hq => isConsistent_step hq
  obtain ⟨macros, -, rfl⟩ := start_eq hstart
  exact Conditional.Stack.isConsistent_empty

/-- In a state at the start of a form in which some condition does not hold, the run reads over all forms that are no
conditionals.  It emits nothing, does not fail, and changes nothing but the place in their source.  If these forms stand
in the input and none of their tokens has been pulled, the output does not depend on them. -/
theorem suppressed_forms_are_inert (hstart : start stream options finder = (.ok p₀, es))
    (hreach : stateAfter w n p₀ = some p) (hform : p.formStart = true)
    (hfalse : ∃ f ∈ p.conditions.frames, f.condition = false)
    (hremaining : p.reader.inclusion.current.remaining = x ++ rest) (hx : IsInert x) :
    (∃ r, p.reader.Passes rest r ∧ Emits w p [] { p with reader := r }) ∧
      ∀ before y, stream = { tokens := before ++ x ++ rest } → p.reader.inclusion.outer = [] →
        p.reader.inclusion.current.pending = [] → x ≠ [] → IsInert y →
        Refines w options finder (before ++ x ++ rest) (before ++ y ++ rest) ∧
          Refines w options finder (before ++ y ++ rest) (before ++ x ++ rest) := by
  have hactive : p.conditions.active = false := (isConsistent_stateAfter hstart hreach).active_eq_false_iff.2 hfalse
  have hr : p.reader.IsOutside := isSilenced_stateAfter hstart hreach hactive
  obtain ⟨r, hpasses, hskip⟩ := emits_inert (w := w) hactive hr hform hremaining hx
  refine ⟨⟨r, hpasses, hskip⟩, ?_⟩
  rintro before y rfl houter hpending hne hy
  -- the other run comes to the same state, before the other forms
  have htokens : p.reader.inclusion.current.stream.tokens = x ++ rest := by
    rw [← hremaining, Source.remaining, hpending, List.nil_append]
  obtain ⟨us, hemits⟩ := exists_emits_of_stateAfter hreach
  rw [List.append_assoc] at hstart
  obtain ⟨p₀', q, hstart', hemits', hq⟩ :=
    exists_emits_exchanged hstart hemits (List.append_ne_nil_of_left_ne_nil hne rest) houter htokens (y ++ rest)
  obtain ⟨hending, houter', hcurrent⟩ := hq.current_eq houter htokens
  -- from there both runs go over their forms
  have hq_outside : q.IsOutside :=
    ⟨hq.frames_eq.trans hr.frames_eq, hq.depth_eq.trans hr.depth_eq, hq.callSite_eq.trans hr.callSite_eq⟩
  have hq_remaining : q.inclusion.current.remaining = y ++ rest := by
    rw [hcurrent, Source.remaining, hpending, List.nil_append]
  obtain ⟨r', hpasses', hskip'⟩ :=
    emits_inert (w := w) (p := { p with reader := q }) hactive hq_outside hform hq_remaining hy
  have hlabel : q.inclusion.current.label = p.reader.inclusion.current.label := by
    rw [hcurrent]
    rfl
  have hending' : q.inclusion.current.stream.ending = p.reader.inclusion.current.stream.ending := by
    rw [hcurrent]
  have houter_eq : q.inclusion.outer = p.reader.inclusion.outer := houter'.trans houter.symm
  have hextends : r.Extends [] r' := hpasses.extends hpasses' hlabel hending' houter_eq hq.limit_eq
  have hextends' : r'.Extends [] r :=
    hpasses'.extends hpasses hlabel.symm hending'.symm houter_eq.symm hq.limit_eq.symm
  have hway := hemits.trans hskip
  have hway' := hemits'.trans hskip'
  rw [List.append_assoc, List.append_assoc]
  constructor
  · exact refines_of_emits hstart hstart' hway hway' (.mk hextends (List.append_nil _).symm)
  · exact refines_of_emits hstart' hstart hway' hway (.mk hextends' (List.append_nil _).symm)

/-- Under a conditional that does not hold stand a definition without a name and a call that is never closed.  A file
that does not exist may be included there just as well. -/
theorem suppressed_forms_are_inert_malformed :
    let hyphen := operator "-"
    let before := opening false (var "U")
    let x := [hyphen, atom "define", symbol "."] ++
      [operator "?", var "M", symbol "(", symbol "."]
    let y := [hyphen, atom "include", symbol "(", loose .string "\"a\"", symbol ")",
      symbol "."]
    let rest := bare .endif ++ [atom "z", symbol "."]
    let w : World := { workingDirectory := ⟨.root, []⟩ }
    let p₀ := initial { tokens := before ++ x ++ rest } {} (.fixed [])
    let p := (step w p₀).state
    start { tokens := before ++ x ++ rest } {} (.fixed []) = (.ok p₀, []) ∧ stateAfter w 1 p₀ = some p ∧
      p.formStart = true ∧ (∃ f ∈ p.conditions.frames, f.condition = false) ∧
      p.reader.inclusion.current.remaining = x ++ rest ∧ IsInert x ∧ IsInert y ∧
      (∃ r, p.reader.Passes rest r ∧ Emits w p [] { p with reader := r }) ∧
      Refines w {} (.fixed []) (before ++ x ++ rest) (before ++ y ++ rest) ∧
      Refines w {} (.fixed []) (before ++ y ++ rest) (before ++ x ++ rest) := by
  intro hyphen before x y rest w p₀ p
  have hstart : start { tokens := before ++ x ++ rest } {} (.fixed []) = (.ok p₀, []) := rfl
  have hreach : stateAfter w 1 p₀ = some p := by decide +kernel
  have hform : p.formStart = true := by decide +kernel
  have hfalse : ∃ f ∈ p.conditions.frames, f.condition = false := by decide +kernel
  have hremaining : p.reader.inclusion.current.remaining = x ++ rest := by decide +kernel
  have hx : IsInert x := by decide +kernel
  have hy : IsInert y := by decide +kernel
  obtain ⟨hskip, hinputs⟩ := suppressed_forms_are_inert hstart hreach hform hfalse hremaining hx
  refine ⟨hstart, hreach, hform, hfalse, hremaining, hx, hy, hskip, ?_⟩
  exact hinputs before y rfl (by decide +kernel) (by decide +kernel) (List.cons_ne_nil _ _) hy

/-- A call of `F` looks for its arguments up to a parenthesis that is suppressed later on, and takes none since they do
not fit.  Without that form it finds no end of the arguments, and fails. -/
theorem removed_form_was_looked_at :
    let define (rest : List Token) :=
      [operator "-", atom "define", symbol "(",
        var "F"] ++ rest ++ [symbol ")", symbol "."]
    let before :=
      define [symbol ",", atom "x"] ++
      define [symbol "(", var "A", symbol ",", var "B", symbol ")",
        symbol ",", atom "y"] ++
      [operator "?", var "F", symbol "(", symbol "."] ++
      opening false (var "U")
    let x := [symbol ")", symbol "."]
    let rest := bare .endif
    let w : World := { workingDirectory := ⟨.root, []⟩ }
    let p₀ := initial { tokens := before ++ x ++ rest } {} (.fixed [])
    let p₀' := initial { tokens := before ++ rest } {} (.fixed [])
    start { tokens := before ++ x ++ rest } {} (.fixed []) = (.ok p₀, []) ∧
      start { tokens := before ++ rest } {} (.fixed []) = (.ok p₀', []) ∧
      (∃ p, stateAfter w 7 p₀ = some p ∧ p.formStart = true ∧ (∃ f ∈ p.conditions.frames, f.condition = false) ∧
        p.reader.inclusion.current.remaining = x ++ rest) ∧ IsInert x ∧
      (p₀.run w 9).ending = .stop ∧ (p₀.run w 9).tokens.map (·.text) = ["x", "(", "."] ∧
      (p₀'.run w 9).ending = .failed (argumentsFailure .inputEnds {}) ∧ (p₀'.run w 9).tokens = [] := by
  intro define before x rest w p₀ p₀'
  have hreach : (stateAfter w 7 p₀).any (fun p => p.formStart && p.conditions.frames.any (!·.condition) &&
      p.reader.inclusion.current.remaining = x ++ rest) = true := by decide +kernel
  obtain ⟨p, hp, hreached⟩ := (Option.any_eq_true _ _).1 hreach
  refine ⟨rfl, rfl, ⟨p, hp, by simpa [and_assoc] using hreached⟩, ?_, ?_, ?_, ?_, ?_⟩
  all_goals decide +kernel

end Preprocessor

end ErlangMacros
