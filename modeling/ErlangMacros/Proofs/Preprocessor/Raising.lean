import ErlangMacros.Proofs.Preprocessor.Step

/-!
# Errors that the input asks for

An error directive raises an error with a message of its own (`Failure.isRaised`).  Reading tokens, collecting a directive
and expanding a call may fail too, but never with such an error.
-/

namespace ErlangMacros

/-- The input asks for the error. -/
def Failure.isRaised : Failure → Bool
  | .error ⟨.user _, _⟩ => true
  | _ => false

/-- The input does not ask for the error of a source. -/
theorem Failure.isRaised_ofLex (e : LexError) : (ofLex e).isRaised = false := by
  unfold ofLex
  split <;> rfl

section Calls

variable {ctx : Expansion.Context} {site : Expansion.Site} {name : Text} {nameToken : Token} {r r' : Reader}
  {f : Failure}

private theorem isRaised_moreArguments {question : Token} {l : ArgumentList}
    (h : Reader.moreArguments question l r = (.error f, r')) : f.isRaised = false := by
  fun_induction Reader.moreArguments question l r generalizing r' with
  | case2 =>
    cases h
    exact Failure.isRaised_ofLex _
  | case1 | case3 | case4 =>
    cases h
    rfl
  | case5 => cases h
  | case6 l r hr t r₁ hread l' hstep hsize rest r₂ hrest ih =>
    cases rest with
    | error f' =>
      cases h
      exact ih hrest
    | ok a => cases h

private theorem isRaised_arguments {question : Token} (h : r.arguments question = (.error f, r')) :
    f.isRaised = false := by
  unfold Reader.arguments at h
  split at h
  · cases h
    exact Failure.isRaised_ofLex _
  · cases h
    rfl
  · next t r₁ _ =>
    rcases hrest : Reader.moreArguments question {} r₁ with ⟨f' | a, r₂⟩ <;> rw [hrest] at h <;> cases h
    exact isRaised_moreArguments hrest

private theorem isRaised_readArguments {arities : List Arity}
    (h : Expansion.readArguments site arities r = (.error f, r')) : f.isRaised = false := by
  unfold Expansion.readArguments at h
  split at h
  · cases h
    exact Failure.isRaised_ofLex _
  · cases h
  · split at h
    · split at h
      · cases h
      · next hargs =>
        cases h
        exact isRaised_arguments hargs
    · cases h

private theorem isRaised_lookedUp {args : Option (List (List Token))}
    (h : Expansion.lookedUp ctx site name nameToken args r = (.error f, r')) : f.isRaised = false := by
  unfold Expansion.lookedUp at h
  split at h
  · cases h
  · next hlookup =>
    cases h
    unfold MacroTable.lookup at hlookup
    split at hlookup
    · cases hlookup
    · split at hlookup <;> cases hlookup <;> rfl

private theorem isRaised_choose {arguments : Option Reader.Arguments}
    (h : Expansion.choose ctx site name nameToken arguments r = (.error f, r')) : f.isRaised = false := by
  cases arguments with
  | none => exact isRaised_lookedUp h
  | some a =>
    rw [Expansion.choose_some] at h
    split at h
    · exact isRaised_lookedUp h
    · exact isRaised_lookedUp h

private theorem isRaised_predefinedToken {source : Source} {p : Predefined}
    (h : Expansion.predefinedToken ctx source site p = .error f) : f.isRaised = false := by
  unfold Expansion.predefinedToken at h
  dsimp only at h
  split at h
  · cases h
  · split at h <;> cases h
    rfl
  · cases h
  · split at h <;> cases h
    rfl
  · split at h <;> cases h
    rfl

private theorem isRaised_resolve (h : Expansion.resolve ctx site r = (.error f, r')) : f.isRaised = false := by
  unfold Expansion.resolve at h
  split at h
  · cases h
    exact Failure.isRaised_ofLex _
  · cases h
    rfl
  · split at h
    · split at h
      · unfold Expansion.resolveName at h
        split at h
        · split at h
          · cases h
          · next htoken =>
            cases h
            exact isRaised_predefinedToken htoken
        · dsimp only at h
          split at h
          · cases h
            rfl
          · split at h
            · exact isRaised_choose h
            · next hargs =>
              cases h
              exact isRaised_readArguments hargs
      · cases h
        rfl
    · cases h
      rfl

private theorem isRaised_push {call : Expansion.Call} (h : Expansion.push ctx site call r = .error f) :
    f.isRaised = false := by
  unfold Expansion.push at h
  split at h
  · cases h
    rfl
  · split at h <;> cases h
    rfl

end Calls

namespace Preprocessor

private theorem isRaised_collectRest {keyword : Text} {last : Token} {r r' : Reader} {f : Failure}
    (h : collectRest keyword last r = (.error f, r')) : f.isRaised = false := by
  fun_induction collectRest keyword last r generalizing r' with
  | case2 =>
    cases h
    exact Failure.isRaised_ofLex _
  | case1 | case3 =>
    cases h
    rfl
  | case4 => cases h
  | case5 last r hr t r₁ hread ht hlt rest r₂ hrest ih =>
    cases rest with
    | error f' =>
      cases h
      exact ih hrest
    | ok ts => cases h

theorem isRaised_collect {r r' : Reader} {hyphen : Token} {f : Failure} (h : collect r hyphen = (.error f, r')) :
    f.isRaised = false := by
  unfold collect at h
  split at h
  · cases h
    exact Failure.isRaised_ofLex _
  · cases h
  · split at h
    · split at h
      · cases h
      · next hrest =>
        cases h
        exact isRaised_collectRest hrest
    · cases h

/-- An error that the input asks for does not come from a token that starts no directive. -/
theorem isRaised_ordinary {p : Preprocessor} {t : Token} {f : Failure} (h : (p.ordinary t).outcome = .fail f) :
    f.isRaised = false := by
  unfold ordinary at h
  dsimp only at h
  split at h
  · cases h
  · split at h
    · unfold expand at h
      dsimp only at h
      split at h
      · next hresolve =>
        cases h
        exact isRaised_resolve (Prod.ext hresolve rfl)
      · split at h
        · next hpush =>
          cases h
          exact isRaised_push hpush
        · cases h
    · unfold emit at h
      dsimp only at h
      split at h
      · cases h
      · split at h
        · split at h
          · split at h
            · split at h
              · cases h
              · cases h
                rfl
            · cases h
          · cases h
        · split at h <;> cases h

end Preprocessor

end ErlangMacros
