import ErlangMacros.Proofs.Directive.Failure
import ErlangMacros.Proofs.Preprocessor.Reachable

/-!
# Steps answer

Two faults stand for an answer that never comes: the input goes on for ever, or the steps do not suffice.  A step over
finite sources never fails with one of them (`isDefinite_step`): when it fails, it reports what is wrong.  Most failures
are reported as errors of the input (`Failure.IsReported`), whatever the tokens are, unless a source goes on for ever or
is broken off at a surrogate (`Failure.IsReportedOver`).
-/

namespace ErlangMacros

/-- The fault does not stand for an answer that never comes. -/
def Fault.IsDefinite (f : Fault) : Prop :=
  f ≠ .endless ∧ f ≠ .outOfFuel

/-- The failure is reported in finite time. -/
def Failure.IsDefinite : Failure → Prop
  | .error _ => True
  | .fault f => f.IsDefinite

/-- The failure is reported as an error of the input. -/
def Failure.IsReported : Failure → Prop
  | .error _ => True
  | .fault _ => False

theorem Failure.IsReported.isDefinite {f : Failure} (h : f.IsReported) : f.IsDefinite := by
  cases f with
  | error e => trivial
  | fault f => exact h.elim

/-- The failure is reported as an error of the input, or says that the input goes on for ever or is broken off, as a
source is. -/
inductive Failure.IsReportedOver (r : Reader) : Failure → Prop where
  | error (e : Error) : IsReportedOver r (.error e)
  | endless (endless : ¬ r.inclusion.IsFinite) : IsReportedOver r (.fault .endless)
  | broken (broken : ¬ r.inclusion.IsUnbroken) : IsReportedOver r (.fault .unencodable)

namespace Failure.IsReportedOver

variable {r r' : Reader} {f : Failure}

theorem mono (h : f.IsReportedOver r')
    (hi : ∀ {P : Ending → Prop}, P .finished → r.inclusion.Ends P → r'.inclusion.Ends P) : f.IsReportedOver r := by
  cases h with
  | error e => exact .error e
  | endless hendless => exact .endless fun hr => hendless (hi rfl hr)
  | broken hbroken => exact .broken fun hr => hbroken (hi rfl hr)

theorem isDefinite (h : f.IsReportedOver r) (hi : r.inclusion.IsFinite) : f.IsDefinite := by
  cases h with
  | error e => trivial
  | endless hendless => exact absurd hi hendless
  | broken hbroken => exact ⟨nofun, nofun⟩

/-- The error of a source. -/
theorem ofLex {e : LexError} (h : ∃ s ∈ r.inclusion.sources, s.stream.ending = .failed e) :
    (Failure.ofLex e).IsReportedOver r := by
  unfold Failure.ofLex
  split
  · next hcause =>
    refine .broken fun hr => ?_
    obtain ⟨s, hs, he⟩ := h
    have hunbroken := hr s hs
    rw [he, Ending.breaksOff, hcause] at hunbroken
    cases hunbroken
  · exact .error _

end Failure.IsReportedOver

theorem Failure.IsReported.over {f : Failure} (h : f.IsReported) (r : Reader) : f.IsReportedOver r := by
  cases f with
  | error e => exact .error e
  | fault f => exact h.elim

theorem Parser.IsOuter.isDefinite {f : Failure} (h : IsOuter f) : f.IsDefinite := by
  rcases h with ⟨e, rfl⟩ | (⟨e, rfl⟩ | ⟨e, rfl⟩) | ⟨text, rfl⟩
  · exact trivial
  · exact ⟨nofun, nofun⟩
  · exact ⟨nofun, nofun⟩
  · exact ⟨nofun, nofun⟩

/-! ### Files -/

section

variable {w : World} {f : Fault}

private theorem isDefinite_readText {path : Text} (h : w.readText path = .error f) : f.IsDefinite := by
  unfold World.readText at h
  split at h
  · cases h
    exact ⟨nofun, nofun⟩
  split at h
  · cases h
    exact ⟨nofun, nofun⟩
  split at h
  · cases h
    exact ⟨nofun, nofun⟩
  split at h
  · cases h
    exact ⟨nofun, nofun⟩
  split at h
  · cases h
    exact ⟨nofun, nofun⟩
  · split at h <;> cases h
    exact ⟨nofun, nofun⟩

private theorem isDefinite_find? {path : Path} (h : w.find? path = .error f) : f.IsDefinite := by
  unfold World.find? at h
  split at h
  · cases h
  · split at h <;> cases h
    · exact ⟨nofun, nofun⟩
    · exact ⟨nofun, nofun⟩

private theorem isDefinite_firstFile {paths : List Path} (h : firstFile w paths = .error f) : f.IsDefinite := by
  induction paths with
  | nil => cases h
  | cons path paths ih =>
    unfold firstFile at h
    split at h
    · next hfile =>
      cases h
      unfold World.isFile at hfile
      rcases hfind : w.find? path with f' | found <;> rw [hfind] at hfile <;> cases hfile
      exact isDefinite_find? hfind
    · cases h
    · exact ih h

private theorem isDefinite_applicationDirectories {root : Path} {app : Text}
    (h : SearchPaths.applicationDirectories w root app = .error f) : f.IsDefinite := by
  unfold SearchPaths.applicationDirectories at h
  split at h
  · next hpattern =>
    cases h
    unfold SearchPaths.versionPattern at hpattern
    dsimp only at hpattern
    split at hpattern
    · cases hpattern
      exact ⟨nofun, nofun⟩
    · split at hpattern <;> cases hpattern
      exact ⟨nofun, nofun⟩
  · next hfind _ =>
    cases h
    exact isDefinite_find? hfind
  · cases h
  · cases h

private theorem isDefinite_searchApplications {app : Text} {rest : List Text} {roots : List Path}
    (h : SearchPaths.searchApplications w app rest roots = .error f) : f.IsDefinite := by
  induction roots with
  | nil => cases h
  | cons root roots ih =>
    unfold SearchPaths.searchApplications at h
    split at h
    · next hdirectories =>
      cases h
      exact isDefinite_applicationDirectories hdirectories
    · split at h
      · next hfirst =>
        cases h
        exact isDefinite_firstFile hfirst
      · cases h
      · exact ih h

private theorem isDefinite_search {s : SearchPaths} {name : Text} {directory : Path}
    (h : s.search w name directory = .error f) : f.IsDefinite := by
  unfold SearchPaths.search at h
  split at h
  · exact isDefinite_firstFile h
  · cases h
    exact ⟨nofun, nofun⟩

private theorem isDefinite_findInclude {s : SearchPaths} {name : Text} {directory : Option Path}
    (h : (s.findInclude w name directory).1 = .error f) : f.IsDefinite := by
  rw [SearchPaths.fst_findInclude] at h
  split at h
  · split at h
    · cases h
    · exact isDefinite_search h
  · cases h

private theorem isDefinite_find {finder : Finder} {library : Bool} {name : Text} {directory : Option Path}
    (h : (finder.find w library name directory).1 = .error f) : f.IsDefinite := by
  cases finder with
  | fixed table => cases h
  | search s =>
    rw [Finder.fst_find_search] at h
    split at h
    · unfold SearchPaths.libraryAnswer at h
      split at h
      · split at h
        · split at h
          · exact isDefinite_searchApplications h
          · cases h
        · cases h
          exact ⟨nofun, nofun⟩
      · exact isDefinite_findInclude h
    · exact isDefinite_findInclude h

end

/-! ### Calls -/

section

variable {r r' : Reader} {f : Failure}

private theorem isReportedOver_moreArguments {question : Token} {l : ArgumentList}
    (h : Reader.moreArguments question l r = (.error f, r')) : f.IsReportedOver r := by
  fun_induction Reader.moreArguments question l r generalizing r' with
  | case1 l r hr =>
    cases h
    exact .endless fun hi => by simp [Reader.not_repeats hi] at hr
  | case2 l r hr e r₁ hread =>
    cases h
    exact .ofLex (Reader.ending_of_read_failed hread)
  | case3 l r hr r₁ hread =>
    cases h
    exact .error _
  | case4 l r hr t r₁ hread e hstep =>
    cases h
    exact .error _
  | case5 l r hr t r₁ hread args hstep => cases h
  | case6 l r hr t r₁ hread l' hstep hsize rest r₂ hrest ih =>
    cases rest with
    | error f' =>
      cases h
      exact (ih hrest).mono fun hP hi => Reader.ends_of_read hread hi hP
    | ok a => cases h

private theorem isReportedOver_arguments {question : Token} (h : r.arguments question = (.error f, r')) :
    f.IsReportedOver r := by
  unfold Reader.arguments at h
  split at h
  · next hread =>
    cases h
    exact .ofLex (Reader.ending_of_read_failed hread)
  · cases h
    exact .error _
  · next t r₁ hread =>
    rcases hrest : Reader.moreArguments question {} r₁ with ⟨f' | a, r₂⟩ <;> rw [hrest] at h <;> cases h
    exact (isReportedOver_moreArguments hrest).mono fun hP hi => Reader.ends_of_read hread hi hP

private theorem isReportedOver_readArguments {site : Expansion.Site} {arities : List Arity}
    (h : Expansion.readArguments site arities r = (.error f, r')) : f.IsReportedOver r := by
  have hi' : ∀ {P : Ending → Prop}, P .finished → r.inclusion.Ends P → r.peek.2.inclusion.Ends P :=
    fun hP hi => Reader.ends_peek hi hP
  unfold Expansion.readArguments at h
  rcases hpeek : r.peek with ⟨t | _ | e, r₁⟩ <;> rw [hpeek] at h hi' <;> dsimp only at h
  · split at h
    · rcases hargs : r₁.arguments site.question with ⟨f' | a, r₂⟩ <;> rw [hargs] at h <;> cases h
      exact (isReportedOver_arguments hargs).mono hi'
    · cases h
  · cases h
  · cases h
    exact .ofLex (Reader.ending_of_peek_failed hpeek)

private theorem isReported_lookedUp {ctx : Expansion.Context} {site : Expansion.Site} {name : Text} {nameToken : Token}
    {args : Option (List (List Token))} (h : Expansion.lookedUp ctx site name nameToken args r = (.error f, r')) :
    f.IsReported := by
  unfold Expansion.lookedUp at h
  split at h <;> cases h
  exact trivial

private theorem isReported_choose {ctx : Expansion.Context} {site : Expansion.Site} {name : Text} {nameToken : Token}
    {arguments : Option Reader.Arguments} (h : Expansion.choose ctx site name nameToken arguments r = (.error f, r')) :
    f.IsReported := by
  cases arguments with
  | none => exact isReported_lookedUp h
  | some a =>
    rw [Expansion.choose_some] at h
    split at h
    · exact isReported_lookedUp h
    · exact isReported_lookedUp h

private theorem isReported_predefinedToken {ctx : Expansion.Context} {source : Source} {site : Expansion.Site}
    {p : Predefined} (h : Expansion.predefinedToken ctx source site p = .error f) : f.IsReported := by
  unfold Expansion.predefinedToken at h
  dsimp only at h
  split at h
  · cases h
  · split at h <;> cases h
    exact trivial
  · cases h
  · split at h <;> cases h
    exact trivial
  · split at h <;> cases h
    exact trivial

theorem isReportedOver_resolveName {ctx : Expansion.Context} {site : Expansion.Site} {name : Text}
    {nameToken : Token} (h : Expansion.resolveName ctx site name nameToken r = (.error f, r')) :
    f.IsReportedOver r := by
  unfold Expansion.resolveName at h
  split at h
  · split at h
    · cases h
    · next htoken =>
      cases h
      exact (isReported_predefinedToken htoken).over r
  · dsimp only at h
    split at h
    · cases h
      exact .error _
    · split at h
      · exact (isReported_choose h).over r
      · next hargs =>
        cases h
        exact isReportedOver_readArguments hargs

private theorem isDefinite_resolve {ctx : Expansion.Context} {site : Expansion.Site}
    (h : Expansion.resolve ctx site r = (.error f, r')) (hi : r.inclusion.IsFinite) : f.IsDefinite := by
  have hi' : r.read.2.inclusion.IsFinite := Reader.ends_read hi rfl true
  unfold Expansion.resolve at h
  rcases hread : r.read with ⟨t | _ | e, r₁⟩ <;> rw [hread] at h hi' <;> dsimp only at h
  · split at h
    · split at h
      · exact (isReportedOver_resolveName h).isDefinite hi'
      · cases h
        exact ⟨nofun, nofun⟩
    · cases h
      exact trivial
  · cases h
    exact trivial
  · cases h
    exact (Failure.IsReportedOver.ofLex (Reader.ending_of_read_failed hread)).isDefinite hi

private theorem isDefinite_push {ctx : Expansion.Context} {site : Expansion.Site} {call : Expansion.Call}
    (h : Expansion.push ctx site call r = .error f) : f.IsDefinite := by
  unfold Expansion.push at h
  split at h
  · next htokens =>
    cases h
    unfold Expansion.Meaning.tokens at htokens
    split at htokens
    · cases htokens
    · unfold Macro.replace at htokens
      split at htokens
      · cases htokens
      · split at htokens <;> cases htokens
        exact ⟨nofun, nofun⟩
      · cases htokens
        exact ⟨nofun, nofun⟩
  · split at h <;> cases h
    exact trivial

end

namespace Preprocessor

/-! ### Steps -/

/-- If the outcome is a failure, it is reported in finite time. -/
def Outcome.IsDefinite : Outcome → Prop
  | .fail f => f.IsDefinite
  | _ => True

/-- If the outcome is a failure, it is reported as an error of the input. -/
def Outcome.IsReported : Outcome → Prop
  | .fail f => f.IsReported
  | _ => True

theorem Outcome.IsReported.isDefinite {o : Outcome} (h : o.IsReported) : o.IsDefinite := by
  cases o with
  | fail f => exact Failure.IsReported.isDefinite h
  | emit | proceed | finish => trivial

variable {w : World} {p : Preprocessor}

private theorem isDefinite_emit (t : Token) (atFormStart : Bool) : (p.emit t atFormStart).outcome.IsDefinite := by
  unfold emit
  split
  · exact trivial
  · split
    · dsimp only
      split
      · split
        · split
          · exact trivial
          · exact ⟨nofun, nofun⟩
        · exact trivial
      · exact trivial
    · split <;> exact trivial

private theorem isDefinite_expand (hi : p.reader.inclusion.IsFinite) (question : Token) :
    (p.expand question).outcome.IsDefinite := by
  unfold expand
  dsimp only
  split
  · next hresolve => exact isDefinite_resolve (Prod.ext hresolve rfl) hi
  · split
    · next hpush => exact isDefinite_push hpush
    · exact trivial

private theorem isReportedOver_collectRest {keyword : Text} {last : Token} {r r' : Reader} {f : Failure}
    (h : collectRest keyword last r = (.error f, r')) : f.IsReportedOver r := by
  fun_induction collectRest keyword last r generalizing r' with
  | case1 last r hr =>
    cases h
    exact .endless fun hi => by simp [Reader.not_repeats hi] at hr
  | case2 last r hr e r₁ hread =>
    cases h
    exact .ofLex (Reader.ending_of_read_failed hread)
  | case3 last r hr r₁ hread =>
    cases h
    exact .error _
  | case4 last r hr t r₁ hread ht => cases h
  | case5 last r hr t r₁ hread ht hlt rest r₂ hrest ih =>
    cases rest with
    | error f' =>
      cases h
      exact (ih hrest).mono fun hP hi => Reader.ends_of_read hread hi hP
    | ok ts => cases h

theorem isReportedOver_collect {hyphen : Token} {r r' : Reader} {f : Failure}
    (h : collect r hyphen = (.error f, r')) : f.IsReportedOver r := by
  have hi' : ∀ {P : Ending → Prop}, P .finished → r.inclusion.Ends P → r.peek.2.inclusion.Ends P :=
    fun hP hi => Reader.ends_peek hi hP
  unfold collect at h
  rcases hpeek : r.peek with ⟨t | _ | e, r₁⟩ <;> rw [hpeek] at h hi' <;> dsimp only at h
  · split at h
    · split at h
      · cases h
      · next hrest =>
        cases h
        exact (isReportedOver_collectRest hrest).mono hi'
    · cases h
  · cases h
  · cases h
    exact .ofLex (Reader.ending_of_peek_failed hpeek)

private theorem isDefinite_withName {k : Text → Step} (t : Token) (h : ∀ name, (k name).outcome.IsDefinite) :
    (p.withName t k).outcome.IsDefinite := by
  unfold withName
  split
  · exact h _
  · exact ⟨nofun, nofun⟩

theorem isReported_undef (name : Text) (position : Position) : (p.evalUndef name position).outcome.IsReported := by
  unfold evalUndef
  split
  · exact trivial
  · exact trivial

theorem isReported_conditional (stack : Except Error Conditional.Stack) :
    (p.evalConditional stack).outcome.IsReported := by
  unfold evalConditional
  split
  · exact trivial
  · exact trivial

private theorem isDefinite_enter (path : Path) (position : Position) :
    (p.enter w path position).outcome.IsDefinite := by
  unfold enter
  split
  · exact trivial
  · next hread => exact isDefinite_readText hread
  · dsimp only
    split
    · exact trivial
    · exact trivial

private theorem isDefinite_include (library : Bool) (path : Token) (position : Position) :
    (p.evalInclude w library path position).outcome.IsDefinite := by
  unfold evalInclude
  split
  · exact ⟨nofun, nofun⟩
  · dsimp only
    split
    · next hfind => exact isDefinite_find hfind
    · exact trivial
    · exact isDefinite_enter _ _

private theorem isDefinite_evaluate (d : Directive) : (evaluate w p d).outcome.IsDefinite := by
  unfold evaluate
  dsimp only
  split
  · unfold evalDefine
    split
    · exact ⟨nofun, nofun⟩
    · split
      · exact trivial
      · exact trivial
  · exact isDefinite_withName _ fun name => (isReported_undef name _).isDefinite
  · exact isDefinite_withName _ fun name => (isReported_conditional _).isDefinite
  · exact isDefinite_withName _ fun name => (isReported_conditional _).isDefinite
  · exact (isReported_conditional _).isDefinite
  · exact (isReported_conditional _).isDefinite
  · exact isDefinite_include _ _ _
  · exact isDefinite_include _ _ _
  · exact trivial
  · exact trivial
  · unfold evalFile
    split
    · exact trivial
    · exact ⟨nofun, nofun⟩
    · exact ⟨nofun, nofun⟩

private theorem isDefinite_directive (tokens : List Token) : (directive w p tokens).outcome.IsDefinite := by
  unfold directive
  dsimp only
  split
  · split
    · exact isDefinite_evaluate _
    · next hparse => exact (parse_failure hparse).isDefinite
  · unfold skip
    split <;> exact trivial

private theorem isDefinite_ordinary (hi : p.reader.inclusion.IsFinite) (t : Token) :
    (p.ordinary t).outcome.IsDefinite := by
  unfold ordinary
  dsimp only
  split
  · exact trivial
  · split
    · exact isDefinite_expand (p := { p with formStart := t.isSymbol "." }) hi t
    · exact isDefinite_emit t _

private theorem isDefinite_take (hi : p.reader.inclusion.IsFinite) (t : Token) : (take w p t).outcome.IsDefinite := by
  unfold take
  split
  · split
    · next hcollect => exact (isReportedOver_collect hcollect).isDefinite hi
    · next r hcollect =>
      refine isDefinite_ordinary ?_ t
      rw [snd_collect_none hcollect]
      exact Reader.ends_peek hi rfl
    · exact isDefinite_directive _
  · exact isDefinite_ordinary hi t

/-- A step over finite sources answers. -/
theorem isDefinite_step (w : World) (hi : p.reader.inclusion.IsFinite) : (step w p).outcome.IsDefinite := by
  have hi' : p.reader.read.2.inclusion.IsFinite := Reader.ends_read hi rfl true
  unfold step
  dsimp only
  split
  · next hread => exact (Failure.IsReportedOver.ofLex (Reader.ending_of_read_failed (Prod.ext hread rfl))).isDefinite hi
  · split
    · exact trivial
    · exact trivial
  · exact isDefinite_take hi' _

end Preprocessor

end ErlangMacros
