import ErlangMacros.Proofs.Directive.Tokens
import ErlangMacros.Proofs.Preprocessor.History
import ErlangMacros.Proofs.Preprocessor.Raising
import ErlangMacros.Proofs.Reader.Passage
import ErlangMacros.Proofs.Reader.Supply

/-!
# Directives come from sources

A step takes a directive if it reads a hyphen straight from a source at the start of a form, and the keyword and the rest
of a directive follow (`nextDirective?`).  Only such a step does what directives do (`nextDirective?_of_acts`).  Then no
expansion waits, so all tokens of the directive are read from sources.

Tokens that were read from sources may have been put back.  Along a run the sources still supply what the texts that were
opened have left, the last one first, each without some of its first tokens (`Supplied`).  So the tokens of a directive
stand one after the other in what is left of these texts.
-/

namespace ErlangMacros

open Lexing

/-- What a step that takes no directive makes of what waits to be read. -/
inductive Reader.ReadsOn (r : Reader) : Reader → Prop where
  | token {t : Token} {r₁ : Reader} (read : r.read = (.token t, r₁)) : ReadsOn r r₁
  /-- A hyphen starts no directive. -/
  | looked {t : Token} {r₁ : Reader} (read : r.read = (.token t, r₁)) : ReadsOn r r₁.peek.2
  | expanded {question name : Token} {r₁ r₂ r₃ : Reader} {f : ExpansionFrame} (read : r.read = (.token question, r₁))
      (readName : r₁.read = (.token name, r₂)) (applies : r₂.Applies r₃) : ReadsOn r (r₃.push f)

private theorem Reader.Applies.drains {r r' : Reader} (h : r.Applies r') (hr : r.IsNested) : r.Drains r' := by
  cases h with
  | bare => exact .of_eq rfl
  | looked => exact .of_eq r.supply_peek
  | applied htakes => exact (Drains.of_eq r.supply_peek).trans ⟨_, htakes.supply_eq hr.peek⟩
  | putBack htakes => exact .of_eq ((htakes.supply_unread hr.peek).trans r.supply_peek)

private theorem Reader.ReadsOn.drains {r r' : Reader} (h : r.ReadsOn r') (hr : r.IsNested) : r.Drains r' := by
  cases h with
  | token hread => exact drains_of_read hread hr
  | looked hread => exact (drains_of_read hread hr).trans (.of_eq (supply_peek _))
  | expanded hread hname happlies =>
    have hr₁ := (hr.of_read hread).1
    exact (drains_of_read hread hr).trans
      ((drains_of_read hname hr₁).trans (happlies.drains (hr₁.of_read hname).1))

/-- Outside of all expansions every token is read straight from a source. -/
theorem Reader.IsOutside.places_takes {r r' : Reader} {cs : List Consumed} (hr : r.IsOutside) (h : Takes r cs r') :
    ∀ c ∈ cs, c.depth = 0 ∧ c.callSite = none := by
  induction h with
  | nil r => simp
  | cons hread _ ih =>
    have hr' := hr.read hread
    exact List.forall_mem_cons.2 ⟨⟨hr'.depth_eq, hr'.callSite_eq⟩, ih hr'⟩

namespace Preprocessor

open Token (symbol operator atom var)

variable {w : World} {stream : Lexing} {options : Options} {finder : Finder} {p p₀ : Preprocessor} {es : List Event}
  {n : Nat} {t : Token} {r r' : Reader} {tokens : List Token} {h : History}

/-! ### Steps that take a directive -/

/-- The tokens of the directive that the next step takes. -/
def nextDirective? (p : Preprocessor) : Option (List Token) :=
  match p.reader.read with
  | (.token t, r) =>
    if p.formStart && r.fromSource && t.isSymbol "-" then
      match (collect r t).1 with
      | .ok tokens => tokens
      | .error _ => none
    else none
  | _ => none

/-- The next step takes the directive that a hyphen starts. -/
structure Collecting (p : Preprocessor) (hyphen : Token) (r : Reader) (tokens : List Token) (r' : Reader) : Prop where
  read : p.reader.read = (.token hyphen, r)
  starts : (p.formStart && r.fromSource && hyphen.isSymbol "-") = true
  collect : collect r hyphen = (.ok (some tokens), r')

theorem collecting_of_nextDirective? (h : p.nextDirective? = some tokens) :
    ∃ hyphen r r', Collecting p hyphen r tokens r' := by
  unfold nextDirective? at h
  rcases hread : p.reader.read with ⟨t | _ | e, r⟩ <;> rw [hread] at h <;> dsimp only at h
  · split at h
    · next hstarts =>
      split at h
      · next hcollect =>
        cases h
        exact ⟨t, r, _, hread, hstarts, Prod.ext hcollect rfl⟩
      · cases h
    · cases h
  · cases h
  · cases h

theorem Collecting.step_eq {hyphen : Token} (h : Collecting p hyphen r tokens r') :
    step w p = (directive w { p with reader := r' } tokens).after (leaving p.reader r) := by
  rw [step_token h.read, take, if_pos h.starts, h.collect]

theorem Collecting.depth_eq {hyphen : Token} (h : Collecting p hyphen r tokens r') : r.depth = 0 := by
  have hstarts := h.starts
  simp only [Bool.and_eq_true, Reader.fromSource, decide_eq_true_eq] at hstarts
  exact hstarts.1.2

/-- Something happens that directives make happen. -/
def Acts (p : Preprocessor) (s : Step) : Prop :=
  s.state.macros ≠ p.macros ∨ s.state.conditions ≠ p.conditions ∨ s.state.directives ≠ p.directives ∨
    s.state.warnings ≠ p.warnings ∨ (∃ filename, .entering filename ∈ s.events) ∨
    ∃ f, s.outcome = .fail f ∧ f.isRaised = true

/-- Nothing happens that directives make happen. -/
structure IsIdle (p : Preprocessor) (s : Step) : Prop where
  macros_eq : s.state.macros = p.macros
  conditions_eq : s.state.conditions = p.conditions
  directives_eq : s.state.directives = p.directives
  warnings_eq : s.state.warnings = p.warnings
  quiet : ∀ filename, .entering filename ∉ s.events
  isRaised_eq : ∀ f, s.outcome = .fail f → f.isRaised = false

private theorem IsIdle.not_acts {s : Step} (h : IsIdle p s) : ¬ Acts p s := by
  rintro (hne | hne | hne | hne | ⟨filename, hmem⟩ | ⟨f, hf, hraised⟩)
  · exact hne h.macros_eq
  · exact hne h.conditions_eq
  · exact hne h.directives_eq
  · exact hne h.warnings_eq
  · exact h.quiet filename hmem
  · rw [h.isRaised_eq f hf] at hraised
    cases hraised

theorem entering_notMem_leaving (r r' : Reader) (filename : Option Text) : .entering filename ∉ leaving r r' := by
  simp [leaving]

theorem IsIdle.after {s : Step} {told : List Event} (h : IsIdle p s) (htold : ∀ filename, .entering filename ∉ told) :
    IsIdle p (s.after told) where
  macros_eq := h.macros_eq
  conditions_eq := h.conditions_eq
  directives_eq := h.directives_eq
  warnings_eq := h.warnings_eq
  quiet := fun filename hmem => (List.mem_append.1 hmem).elim (htold filename) (h.quiet filename)
  isRaised_eq := h.isRaised_eq

private theorem entering_notMem_emit (p : Preprocessor) (t : Token) (atFormStart : Bool) (filename : Option Text) :
    .entering filename ∉ (p.emit t atFormStart).events := by
  unfold emit
  split
  · simp
  · split
    · dsimp only
      split
      · split
        · split <;> simp [Step.failed]
        · simp
      · simp
    · split <;> simp

/-- Expanding a call changes only the reader and the calls that are recorded. -/
theorem state_expand (p : Preprocessor) (question : Token) :
    ∃ reader calls, (p.expand question).state = { p with reader, calls } := by
  unfold expand
  dsimp only
  split
  · exact ⟨_, _, rfl⟩
  · split <;> exact ⟨_, _, rfl⟩

private theorem entering_notMem_expand (p : Preprocessor) (question : Token) (filename : Option Text) :
    .entering filename ∉ (p.expand question).events := by
  have hleaving : ∀ r, .entering filename ∉ leaving p.reader r := fun r => entering_notMem_leaving p.reader r filename
  unfold expand
  dsimp only
  split
  · simp [Step.after, Step.failed, hleaving]
  · next call _ =>
    rcases call with ⟨name, nameToken, token | ⟨m, args⟩⟩
    · split <;> simp [Step.after, Step.failed, Step.changed, hleaving]
    · split <;> simp [Step.after, Step.failed, Step.changed, hleaving]

/-- A token that starts no directive does nothing that directives do. -/
theorem isIdle_ordinary (p : Preprocessor) (t : Token) : IsIdle p (p.ordinary t) := by
  have hraised : ∀ f, (p.ordinary t).outcome = .fail f → f.isRaised = false := fun f => isRaised_ordinary
  unfold ordinary at hraised ⊢
  dsimp only at hraised ⊢
  split
  · refine ⟨rfl, rfl, rfl, rfl, by simp [Step.changed], ?_⟩
    rintro _ ⟨⟩
  · next hactive =>
    rw [if_neg hactive] at hraised
    split
    · next ht =>
      rw [if_pos ht] at hraised
      obtain ⟨reader, calls, hstate⟩ := state_expand { p with formStart := t.isSymbol "." } t
      exact ⟨by rw [hstate], by rw [hstate], by rw [hstate], by rw [hstate], entering_notMem_expand _ t, hraised⟩
    · next ht =>
      rw [if_neg ht] at hraised
      obtain ⟨moduleName, watched, hstate⟩ := state_emit { p with formStart := t.isSymbol "." } t p.formStart
      exact ⟨by rw [hstate], by rw [hstate], by rw [hstate], by rw [hstate], entering_notMem_emit _ t _, hraised⟩

private theorem IsIdle.of_reader {s : Step} (h : IsIdle { p with reader := r } s) : IsIdle p s :=
  ⟨h.macros_eq, h.conditions_eq, h.directives_eq, h.warnings_eq, h.quiet, h.isRaised_eq⟩

/-- A step that takes no directive does nothing that directives do. -/
theorem isIdle_step (hnone : p.nextDirective? = none) : IsIdle p (step w p) := by
  have hleaving : ∀ r filename, .entering filename ∉ leaving p.reader r := entering_notMem_leaving p.reader
  rcases hread : p.reader.read with ⟨t | _ | e, r⟩
  · rw [step_token hread]
    refine IsIdle.after ?_ (hleaving r)
    unfold take
    split
    · next hstarts =>
      simp only [nextDirective?, hread, hstarts, if_true] at hnone
      rcases hcollect : collect r t with ⟨f | _ | tokens, r'⟩ <;> rw [hcollect] at hnone
      · refine ⟨rfl, rfl, rfl, rfl, by simp [Step.failed], ?_⟩
        rintro _ ⟨⟩
        exact isRaised_collect hcollect
      · exact (isIdle_ordinary { p with reader := r' } t).of_reader
      · cases hnone
    · exact (isIdle_ordinary { p with reader := r } t).of_reader
  · unfold step Conditional.Stack.finish
    rw [hread]
    dsimp only
    split
    · refine ⟨rfl, rfl, rfl, rfl, hleaving r, ?_⟩
      rintro _ ⟨⟩
    · next e hfinish =>
      refine IsIdle.after ⟨rfl, rfl, rfl, rfl, by simp [Step.failed], ?_⟩ (hleaving r)
      rintro _ ⟨⟩
      split at hfinish <;> cases hfinish
      rfl
  · unfold step
    rw [hread]
    refine IsIdle.after ⟨rfl, rfl, rfl, rfl, by simp [Step.failed], ?_⟩ (hleaving r)
    rintro _ ⟨⟩
    exact Failure.isRaised_ofLex _

/-- Only a step that takes a directive does what directives do. -/
theorem nextDirective?_of_acts (h : Acts p (step w p)) : p.nextDirective?.isSome := by
  by_contra hnone
  exact (isIdle_step (by simpa using hnone)).not_acts h

private theorem readsOn_ordinary (hread : r.read = (.token t, p.reader))
    (hcontinues : (p.ordinary t).outcome.continues) : r.ReadsOn (p.ordinary t).state.reader := by
  by_cases ht : t.isSymbol "?" = true
  · unfold ordinary at hcontinues ⊢
    dsimp only at hcontinues ⊢
    by_cases hactive : (!p.conditions.active) = true
    · rw [if_pos hactive]
      exact .token hread
    · rw [if_neg hactive, if_pos ht] at hcontinues ⊢
      obtain ⟨name, r₁, r₂, f, hname, happlies, -, -, -, hstate⟩ := expands_expand hcontinues
      rw [hstate]
      exact .expanded hread hname happlies
  · rw [reader_ordinary ht]
    exact .token hread

theorem readsOn_step (hnone : p.nextDirective? = none) (hcontinues : (step w p).outcome.continues) :
    p.reader.ReadsOn (step w p).state.reader := by
  rcases hread : p.reader.read with ⟨t | _ | e, r⟩
  · rw [step_token hread] at hcontinues ⊢
    unfold take at hcontinues ⊢
    dsimp only at hcontinues ⊢
    by_cases hstarts : (p.formStart && r.fromSource && t.isSymbol "-") = true
    · rw [if_pos hstarts] at hcontinues ⊢
      simp only [nextDirective?, hread, hstarts, if_true] at hnone
      rcases hcollect : collect r t with ⟨f | _ | tokens, r'⟩ <;> rw [hcollect] at hcontinues hnone
      · cases hcontinues
      · -- the hyphen is an ordinary token then, and no question mark
        have ht : ¬ t.isSymbol "?" = true := by
          rw [Token.isSymbol_eq_false (Bool.and_eq_true_iff.1 hstarts).2 (by decide)]
          exact Bool.false_ne_true
        rw [snd_collect_none hcollect]
        dsimp only [Step.after]
        rw [reader_ordinary ht]
        exact .looked hread
      · cases hnone
    · rw [if_neg hstarts] at hcontinues ⊢
      exact readsOn_ordinary (p := { p with reader := r }) hread hcontinues
  · unfold step at hcontinues
    rw [hread] at hcontinues
    dsimp only at hcontinues
    split at hcontinues <;> cases hcontinues
  · unfold step at hcontinues
    rw [hread] at hcontinues
    cases hcontinues

/-! ### Files that are opened -/

/-- What a step opens: nothing, or a file that can be read. -/
inductive Opens (w : World) (r : Reader) : Step → Prop where
  | nothing {s : Step} (quiet : ∀ filename, .entering filename ∉ s.events)
      (rests_eq : s.state.reader.inclusion.sources.map Source.rest = r.inclusion.sources.map Source.rest) :
      Opens w r s
  | file {s : Step} {told : List Event} {path text : Text} {position : Position}
      (events_eq : s.events = told ++ [.entering (some path)]) (quiet : ∀ filename, .entering filename ∉ told)
      (read : w.readText path = .ok text)
      (sources_eq : s.state.reader.inclusion.sources =
        .ofText text (some path) (some position) :: r.inclusion.sources) : Opens w r s

private theorem opens_failed (h : p.reader = r) (f : Failure) : Opens w r (.failed p f) :=
  .nothing (by simp [Step.failed]) (by rw [← h]; rfl)

theorem Opens.after {s : Step} {told : List Event} (h : Opens w r s) (htold : ∀ filename, .entering filename ∉ told) :
    Opens w r (s.after told) := by
  cases h with
  | nothing hquiet hrests =>
    exact .nothing (fun filename hmem => (List.mem_append.1 hmem).elim (htold filename) (hquiet filename)) hrests
  | file hevents hquiet hread hsources =>
    refine .file ((congrArg (told ++ ·) hevents).trans (List.append_assoc ..).symm) ?_ hread hsources
    exact fun filename hmem => (List.mem_append.1 hmem).elim (htold filename) (hquiet filename)

private theorem opens_withName {k : Text → Step} (t : Token) (h : ∀ name, Opens w p.reader (k name)) :
    Opens w p.reader (p.withName t k) := by
  unfold withName
  split
  · exact h _
  · exact opens_failed rfl _

private theorem opens_conditional (p : Preprocessor) (stack : Except Error Conditional.Stack) :
    Opens w p.reader (p.evalConditional stack) := by
  unfold evalConditional
  split
  · exact .nothing (by simp [Step.changed]) rfl
  · exact opens_failed rfl _

private theorem opens_enter (h : p.reader = r) (path : Path) (position : Position) :
    Opens w r (p.enter w path position) := by
  subst h
  unfold enter
  split
  · exact opens_failed rfl _
  · exact opens_failed rfl _
  · next text htext =>
    dsimp only
    split
    · next i hpush =>
      rw [(Inclusion.push_eq_ok hpush).2]
      exact .file (List.nil_append _).symm (by simp) htext rfl
    · exact opens_failed rfl _

private theorem opens_include (p : Preprocessor) (library : Bool) (path : Token) (position : Position) :
    Opens w p.reader (p.evalInclude w library path position) := by
  have hevents : ∀ name filename, .entering filename ∉ p.finder.events name := by
    intro name filename
    unfold Finder.events pathEvents
    split
    · split
      · simp
      · split <;> simp
    · simp
  unfold evalInclude
  split
  · exact opens_failed rfl _
  · dsimp only
    split
    · exact Opens.after (opens_failed (by rfl) _) (hevents _)
    · exact Opens.after (opens_failed (by rfl) _) (hevents _)
    · exact Opens.after (opens_enter (by rfl) _ position) (hevents _)

private theorem opens_evaluate (h : p.reader = r) (d : Directive) : Opens w r (evaluate w p d) := by
  subst h
  unfold evaluate
  dsimp only
  split
  · unfold evalDefine
    split
    · exact opens_failed rfl _
    · split
      · exact .nothing (by simp [Step.changed]) rfl
      · exact opens_failed rfl _
  · refine opens_withName _ fun name => ?_
    unfold evalUndef
    split
    · exact .nothing (by simp [Step.changed]) rfl
    · exact opens_failed rfl _
  · exact opens_withName _ fun name => opens_conditional p _
  · exact opens_withName _ fun name => opens_conditional p _
  · exact opens_conditional p _
  · exact opens_conditional p _
  · exact opens_include p _ _ _
  · exact opens_include p _ _ _
  · exact opens_failed rfl _
  · exact .nothing (by simp [Step.changed]) rfl
  · unfold evalFile
    split
    · exact .nothing (by simp [Step.changed]) rfl
    · exact opens_failed rfl _
    · exact opens_failed rfl _

/-- A directive opens nothing, or the file that it includes. -/
theorem opens_directive (p : Preprocessor) (tokens : List Token) : Opens w p.reader (directive w p tokens) := by
  unfold directive
  dsimp only
  split
  · split
    · exact opens_evaluate (by rfl) _
    · exact opens_failed (by rfl) _
  · unfold skip
    split
    · exact .nothing (by simp [Step.changed]) rfl
    · exact .nothing (by simp [Step.changed]) rfl

/-- The text of a file that was entered. -/
def entered? (w : World) : Event → Option Lexing
  | .entering (some path) =>
    match w.readText path with
    | .ok text => some (.ofText text (some path))
    | .error _ => none
  | _ => none

/-- The texts that were opened, the last one first and the input last. -/
def opened (w : World) (stream : Lexing) (told : List Event) : List Lexing :=
  (told.filterMap (entered? w)).reverse ++ [stream]

theorem opened_append (told es : List Event) :
    opened w stream (told ++ es) = (es.filterMap (entered? w)).reverse ++ opened w stream told := by
  simp [opened]

theorem filterMap_entered? {es : List Event} (h : ∀ filename, .entering filename ∉ es) :
    es.filterMap (entered? w) = [] := by
  refine List.filterMap_eq_nil_iff.2 fun e he => ?_
  cases e with
  | entering filename => exact absurd he (h filename)
  | _ => rfl

theorem Opens.opened_eq {s : Step} (h : Opens w r s) (stream : Lexing) (told : List Event) :
    (opened w stream (told ++ s.events) = opened w stream told ∧
        s.state.reader.inclusion.sources.map Source.rest = r.inclusion.sources.map Source.rest) ∨
      ∃ l : Lexing, ∃ source : Source, opened w stream (told ++ s.events) = l :: opened w stream told ∧
        source.rest = l ∧ s.state.reader.inclusion.sources = source :: r.inclusion.sources := by
  rw [opened_append]
  cases h with
  | nothing hquiet hrests => exact .inl ⟨by rw [filterMap_entered? hquiet, List.reverse_nil, List.nil_append], hrests⟩
  | @file told' path text position hevents hquiet hread hsources =>
    refine .inr ⟨.ofText text (some path), _, ?_, rfl, hsources⟩
    rw [hevents, List.filterMap_append, filterMap_entered? hquiet]
    simp [entered?, hread]

/-! ### Reading a directive -/

/-- Collecting a directive reads from sources only, whether or not it comes to its end. -/
theorem isOutside_collectRest (hr : r.IsOutside) (keyword : Text) (last : Token) :
    (collectRest keyword last r).2.IsOutside := by
  fun_induction collectRest keyword last r with
  | case1 => exact hr
  | case2 last r _ e r' hread => exact hr.read hread
  | case3 last r _ r' hread => exact hr.read hread
  | case4 last r _ t r' hread => exact hr.read hread
  | case5 last r _ t r₁ hread _ _ rest r₂ hrest ih =>
    have hrest' := ih (hr.read hread)
    rwa [hrest] at hrest'

private theorem isOutside_collect (hr : r.IsOutside) (hyphen : Token) : (collect r hyphen).2.IsOutside := by
  have hpeek := hr.peek
  unfold collect
  split
  · next h => rwa [h] at hpeek
  · next h => rwa [h] at hpeek
  · next t r' h =>
    rw [h] at hpeek
    split
    · have hrest := isOutside_collectRest hpeek t.text hyphen
      split
      · next h => rwa [h] at hrest
      · next h => rwa [h] at hrest
    · exact hpeek

theorem Collecting.isOutside {hyphen : Token} (h : Collecting p hyphen r tokens r') (hnested : p.reader.IsNested) :
    r.IsOutside :=
  Reader.isOutside_of_read hnested h.read h.depth_eq

/-- All tokens of a directive are read straight from sources. -/
theorem Collecting.exists_takes {hyphen : Token} (h : Collecting p hyphen r tokens r') (hnested : p.reader.IsNested) :
    ∃ cs, Reader.Takes r.peek.2 cs r' ∧ tokens = hyphen :: cs.map Consumed.token ∧
      ∀ c ∈ cs, c.depth = 0 ∧ c.callSite = none := by
  obtain ⟨cs, htakes, -, htokens⟩ := takes_collect_some h.collect
  exact ⟨cs, htakes, htokens, (h.isOutside hnested).peek.places_takes htakes⟩

/-- The tokens of a directive are the next ones that the sources supply. -/
theorem Collecting.supply_eq {hyphen : Token} (h : Collecting p hyphen r tokens r') (hnested : p.reader.IsNested) :
    p.reader.supply = tokens.map some ++ₛ r'.supply := by
  obtain ⟨cs, htakes, rfl, hcs⟩ := h.exists_takes hnested
  have hrest := htakes.supply_eq ((hnested.of_read h.read).1.peek)
  have hfirst := ((Reader.Takes.nil r).cons h.read).supply_eq hnested
  rw [Reader.sourced_cons_of_eq h.depth_eq] at hfirst
  rw [hfirst, ← r.supply_peek, hrest, Reader.sourced_eq fun c hc => (hcs c hc).1]
  rfl

/-! ### What the sources supply along a run -/

/-- The sources supply what is left of the texts that were opened. -/
def Supplied (w : World) (stream : Lexing) (told : List Event) (r : Reader) : Prop :=
  ∃ rests, AreRests rests (opened w stream told) ∧ r.supply = supply rests

private theorem Supplied.of_drains {told : List Event} (hr : Supplied w stream told r) (h : r.Drains r') :
    Supplied w stream told r' := by
  obtain ⟨rests, hrests, hr⟩ := hr
  obtain ⟨ts, hts⟩ := h
  obtain ⟨rests', hrests', hr'⟩ := exists_rests (hr.symm.trans hts)
  exact ⟨rests', hrests'.trans hrests, hr'.symm⟩

/-- A step takes tokens from the front of what the sources supply, and puts the text of a file before it. -/
theorem Supplied.step {told : List Event} (hp : Supplied w stream told p.reader) (hnested : p.reader.IsNested)
    (hcontinues : (step w p).outcome.continues) :
    Supplied w stream (told ++ (step w p).events) (step w p).state.reader := by
  rcases hdirective : p.nextDirective? with _ | tokens
  · obtain ⟨rests, hrests, hsupply⟩ := hp.of_drains ((readsOn_step hdirective hcontinues).drains hnested)
    refine ⟨rests, ?_, hsupply⟩
    rwa [opened_append, filterMap_entered? (isIdle_step hdirective).quiet]
  · obtain ⟨hyphen, r, r', hcollecting⟩ := collecting_of_nextDirective? hdirective
    have hr' := hp.of_drains ⟨tokens, hcollecting.supply_eq hnested⟩
    rw [hcollecting.step_eq]
    have hopens := (opens_directive (w := w) { p with reader := r' } tokens).after (entering_notMem_leaving p.reader r)
    obtain ⟨rests, hrests, hsupply⟩ := hr'
    rcases hopens.opened_eq stream told with ⟨hopened, hrest⟩ | ⟨l, source, hopened, hl, hsources⟩
    · refine ⟨rests, hopened ▸ hrests, ?_⟩
      rw [← hsupply, Reader.supply, hrest, Reader.supply]
    · refine ⟨l :: rests, ?_, ?_⟩
      · rw [hopened]
        exact .cons ⟨0, rfl⟩ hrests
      · rw [Reader.supply, hsources, List.map_cons, hl]
        exact supply_cons_congr hsupply

/-- In every state of a run the sources supply what is left of the texts that were opened. -/
theorem supplied_of_start (hstart : start stream options finder = (.ok p₀, es)) (hreach : stateAfter w n p₀ = some p) :
    Supplied w stream (historyAfter w n {} p₀).told p.reader := by
  have hinput : Supplied w stream [] p₀.reader := by
    obtain ⟨macros, -, rfl⟩ := start_eq hstart
    exact ⟨[stream], .refl _, rfl⟩
  exact (historyAfter_of_start (P := fun h q => Supplied w stream h.told q.reader) hstart hinput hreach
    fun h q hq _ hsupplied hcontinues => hsupplied.step hq.isPlaced.isNested hcontinues).2.2

/-- In every state of a run a hyphen that is read straight from a source is followed by sources only, as far as a directive
is collected.  If that is complete, its tokens are the next ones that the texts which were opened have left.  And nothing
else does what directives do: define or undefine macros, change the conditionals, warn, include files or raise errors. -/
theorem directives_come_from_sources (hstart : start stream options finder = (.ok p₀, es))
    (hreach : stateAfter w n p₀ = some p) :
    (∀ hyphen r, p.reader.read = (.token hyphen, r) → r.depth = 0 → r.IsOutside ∧ (collect r hyphen).2.IsOutside) ∧
      (∀ tokens, p.nextDirective? = some tokens →
        (∃ hyphen r r' cs, p.reader.read = (.token hyphen, r) ∧ r.depth = 0 ∧ Reader.Takes r.peek.2 cs r' ∧
          tokens = hyphen :: cs.map Consumed.token ∧ (∀ c ∈ cs, c.depth = 0 ∧ c.callSite = none) ∧
          step w p = (directive w { p with reader := r' } tokens).after (leaving p.reader r)) ∧
        ∃ rests, AreRests rests (opened w stream (historyAfter w n {} p₀).told) ∧ p.reader.supply = supply rests ∧
          Begins rests tokens) ∧
      (Acts p (step w p) → p.nextDirective?.isSome) := by
  have hnested := (isSound_stateAfter (isSound_start hstart) hreach).isPlaced.isNested
  obtain ⟨rests, hrests, hsupply⟩ := supplied_of_start hstart hreach
  refine ⟨fun hyphen r hread hdepth => ?_, fun tokens htokens => ?_, nextDirective?_of_acts⟩
  · have hr := Reader.isOutside_of_read hnested hread hdepth
    exact ⟨hr, isOutside_collect hr hyphen⟩
  · obtain ⟨hyphen, r, r', hcollecting⟩ := collecting_of_nextDirective? htokens
    obtain ⟨cs, htakes, heq, hcs⟩ := hcollecting.exists_takes hnested
    refine ⟨⟨hyphen, r, r', cs, hcollecting.read, hcollecting.depth_eq, htakes, heq, hcs, hcollecting.step_eq⟩,
      rests, hrests, hsupply, r'.supply, ?_⟩
    rw [← hsupply, hcollecting.supply_eq hnested]

/-- `-define(F, x). -define(F(A, B), y). ?F(. -undef(F). )`: no variant of the macro takes one argument, so the tokens of
the last directive have been put back before they are read again. -/
theorem directives_come_from_sources_put_back :
    let form (keyword : Text) (rest : List Token) :=
      [operator "-", atom keyword, symbol "(", var "F"] ++ rest ++ [symbol ")", symbol "."]
    let tokens :=
      form "define" [symbol ",", atom "x"] ++
      form "define" [symbol "(", var "A", symbol ",", var "B", symbol ")", symbol ",", atom "y"] ++
      [operator "?", var "F", symbol "(", symbol "."] ++ form "undef" [] ++ [symbol ")"]
    let w : World := { workingDirectory := ⟨.root, []⟩ }
    let p₀ := initial { tokens } {} (.fixed [])
    start { tokens } {} (.fixed []) = (.ok p₀, []) ∧
      ∃ p, stateAfter w 6 p₀ = some p ∧ p.nextDirective? = some (form "undef" []) ∧ Acts p (step w p) ∧
        (∃ hyphen r r' cs, p.reader.read = (.token hyphen, r) ∧ r.depth = 0 ∧ Reader.Takes r.peek.2 cs r' ∧
          form "undef" [] = hyphen :: cs.map Consumed.token ∧ ∀ c ∈ cs, c.depth = 0 ∧ c.callSite = none) ∧
        ∃ rest, AreRests [rest] [{ tokens }] ∧ Begins [rest] (form "undef" []) := by
  intro form tokens w p₀
  have hstart : start { tokens } {} (.fixed []) = (.ok p₀, []) := rfl
  have hnext : (stateAfter w 6 p₀).map nextDirective? = some (some (form "undef" [])) := by decide +kernel
  have hmacros : (stateAfter w 6 p₀).all (fun p => decide ((step w p).state.macros ≠ p.macros)) = true := by
    decide +kernel
  have hopened : opened w { tokens } (historyAfter w 6 {} p₀).told = [{ tokens }] := by decide +kernel
  obtain ⟨p, hreach, hundef⟩ := Option.map_eq_some_iff.1 hnext
  rw [hreach, Option.all_some, decide_eq_true_eq] at hmacros
  obtain ⟨-, hdirective, -⟩ := directives_come_from_sources hstart hreach
  obtain ⟨⟨hyphen, r, r', cs, hread, hdepth, htakes, htokens, hcs, -⟩, rests, hrests, -, hbegins⟩ := hdirective _ hundef
  rw [hopened] at hrests
  obtain ⟨rest, rfl⟩ := List.length_eq_one_iff.1 hrests.length_eq
  exact ⟨hstart, p, hreach, hundef, .inl hmacros, ⟨hyphen, r, r', cs, hread, hdepth, htakes, htokens, hcs⟩, rest, hrests,
    hbegins⟩

end Preprocessor

end ErlangMacros
