import Mathlib.Data.List.Infix
import ErlangMacros.Proofs.Conditional.Activity
import ErlangMacros.Proofs.Preprocessor.Reachable

/-!
# The kinds of steps

A step after which the run goes on drops a token that is suppressed, emits a token, expands a call or takes a
directive.  `Move` lists these kinds with the whole state after the step, `Directed` what a directive can do, and
`move_step` says that there is nothing else.  In the other direction `step_ordinary` says what a step does with a token
that starts no directive.
-/

namespace ErlangMacros

namespace Reader

variable {r r' : Reader} {cs : List Consumed}

/-- The first of the tokens that wait is read. -/
theorem read_of_flat_cons {c : Consumed} {rest : List Consumed} (h : r.flat = c :: rest)
    (hi : r.inclusion.IsErrorFree) :
    ∃ r', r.read = (.token c.token, r') ∧ r'.depth = c.depth ∧ r'.callSite = c.callSite ∧ r'.flat = rest := by
  rcases hread : r.read with ⟨t | _ | e, r'⟩
  · rw [flat_read hread hi.isFinite] at h
    cases h
    exact ⟨r', rfl, rfl, rfl, rfl⟩
  · rw [(flat_of_read_finished hread).1] at h
    cases h
  · exact absurd hi (not_isErrorFree_of_read_failed hread)

theorem read_of_flat_nil (h : r.flat = []) (hi : r.inclusion.IsErrorFree) : r.read.1 = .finished := by
  rcases hread : r.read with ⟨t | _ | e, r'⟩
  · rw [flat_read hread hi.isFinite] at h
    cases h
  · rfl
  · exact absurd hi (not_isErrorFree_of_read_failed hread)

/-- A token that comes straight from a source is the first one that the sources have left, and no expansion waits. -/
theorem remaining_of_read_source {t : Token} (h : r.read = (.token t, r')) (hd : r'.depth = 0) (hr : r.IsNested)
    (hi : r.inclusion.IsFinite) : r.remaining = t :: r'.remaining ∧ r'.frames = [] ∧ r'.callSite = none := by
  rcases read_token h hi with ⟨-, -, f, hf, hdepth⟩ | ⟨-, hframes, -, hsite, hleveled⟩
  · have := hr f hf
    omega
  · refine ⟨?_, hframes, hsite⟩
    rw [remaining_eq, remaining_eq, hleveled, List.map_cons]

/-- Looking at the next token does not change where the last one came from. -/
theorem place_peek (r : Reader) : r.peek.2.depth = r.depth ∧ r.peek.2.callSite = r.callSite := by
  unfold peek
  split <;> exact ⟨rfl, rfl⟩

theorem remaining_peek (hi : r.inclusion.IsFinite) : r.peek.2.remaining = r.remaining := by
  rw [remaining_eq, remaining_eq, leveled_peek hi]

/-- Reading takes tokens from the front of what the sources have left. -/
theorem remaining_suffix_of_read {t : Token} (h : r.read = (.token t, r')) (hi : r.inclusion.IsFinite) :
    r'.remaining <:+ r.remaining := by
  rcases read_token h hi with ⟨-, hinclusion, -⟩ | ⟨-, -, -, -, hleveled⟩
  · rw [remaining, remaining, hinclusion]
  · rw [remaining_eq, remaining_eq, hleveled, List.map_cons]
    exact List.suffix_cons _ _

theorem Takes.remaining_suffix (h : Takes r cs r') (hi : r.inclusion.IsFinite) : r'.remaining <:+ r.remaining := by
  induction h with
  | nil r => exact List.suffix_rfl
  | cons hread _ ih => exact (ih (ends_of_read hread hi rfl)).trans (remaining_suffix_of_read hread hi)

/-- The arguments of a call are taken from the front of what the sources have left, or put back there. -/
theorem Applies.remaining_suffix (h : Applies r r') (hr : r.IsNested) (hi : r.inclusion.IsFinite) :
    r'.remaining <:+ r.remaining := by
  have hi' : r.peek.2.inclusion.IsFinite := ends_peek hi rfl
  rw [← remaining_peek hi]
  cases h with
  | bare => rw [remaining_peek hi]
  | looked => exact List.suffix_rfl
  | applied htakes => exact htakes.remaining_suffix hi'
  | putBack htakes => rw [(htakes.expanded_unread hr.peek hi').2]

/-- What is read for a call ends as the sources do. -/
theorem Applies.ends {P : Ending → Prop} (h : Applies r r') (hi : r.inclusion.Ends P) (hP : P .finished) :
    r'.inclusion.Ends P := by
  have hi' : r.peek.2.inclusion.Ends P := ends_peek hi hP
  cases h with
  | bare => exact hi
  | looked => exact hi'
  | applied htakes => exact htakes.ends hi' hP
  | @putBack r' cs htakes =>
    have hr' := htakes.ends hi' hP
    clear htakes
    induction cs with
    | nil => exact hr'
    | cons c cs ih => exact ends_putBack ih c

end Reader

namespace Preprocessor

variable {w : World} {p : Preprocessor}

/-! ### Tokens that start no directive -/

/-- The two tokens are the hyphen and the keyword of a directive. -/
def startsDirective (hyphen keyword : Token) : Bool :=
  hyphen.isSymbol "-" && (keyword.kind = .atom && (Keyword.ofText? keyword.text).isSome)

/-- Nothing is collected if the keyword of a directive does not follow. -/
theorem fst_collect_eq_none {r : Reader} {hyphen : Token} (hi : r.inclusion.IsErrorFree)
    (h : ∀ c ∈ r.flat.head?, startsDirective hyphen c.token = false) (hhyphen : hyphen.isSymbol "-" = true) :
    (collect r hyphen).1 = .ok none := by
  unfold collect
  rcases hpeek : r.peek with ⟨t | _ | e, r'⟩
  · obtain ⟨c, hc, rfl⟩ := Option.map_eq_some_iff.1 (Reader.flat_of_peek_token hpeek hi.isFinite)
    have hno := h c hc
    rw [startsDirective, hhyphen, Bool.true_and] at hno
    simp only [hno, Bool.false_eq_true, if_false]
  · rfl
  · exact absurd hi (Reader.not_isErrorFree_of_peek_failed hpeek)

/-- A token that starts no directive is an ordinary one. -/
theorem take_ordinary {t : Token}
    (h : (p.formStart && p.reader.fromSource && t.isSymbol "-") = true → (collect p.reader t).1 = .ok none) :
    ∃ r, (r = p.reader ∨ r = p.reader.peek.2) ∧ take w p t = ordinary { p with reader := r } t := by
  unfold take
  split
  · next hstart =>
    rcases hcollect : collect p.reader t with ⟨f | _ | tokens, r⟩ <;> have hnone := h hstart <;> rw [hcollect] at hnone
    · cases hnone
    · exact ⟨r, .inr (snd_collect_none hcollect), rfl⟩
    · cases hnone
  · exact ⟨p.reader, .inl rfl, rfl⟩

theorem step_token {t : Token} {r : Reader} (h : p.reader.read = (.token t, r)) :
    step w p = (take w { p with reader := r } t).after (leaving p.reader r) := by
  simp only [step, h]

/-- A step over a token that starts no directive. -/
theorem step_ordinary {t : Token} {r : Reader} (h : p.reader.read = (.token t, r))
    (hcollect : (p.formStart && r.fromSource && t.isSymbol "-") = true → (collect r t).1 = .ok none) :
    ∃ r', (r' = r ∨ r' = r.peek.2) ∧
      step w p = (ordinary { p with reader := r' } t).after (leaving p.reader r) := by
  obtain ⟨r', hr', htake⟩ := take_ordinary (w := w) (p := { p with reader := r }) hcollect
  exact ⟨r', hr', by rw [step_token h, htake]⟩

/-- A step over a question mark that is not suppressed expands the call. -/
theorem step_question {question : Token} {r : Reader} (h : p.reader.read = (.token question, r))
    (hquestion : question.isSymbol "?" = true) (hactive : p.conditions.active = true) :
    step w p =
      (expand { p with reader := r, formStart := question.isSymbol "." } question).after (leaving p.reader r) := by
  have hhyphen : question.isSymbol "-" = false := Token.isSymbol_eq_false hquestion (by decide)
  simp only [step_token h, take, ordinary, hhyphen, Bool.and_false, hactive, Bool.not_true, Bool.false_eq_true,
    if_false, hquestion, if_true]

/-- Emitting a token changes only what is known of the module attribute. -/
theorem state_emit (p : Preprocessor) (t : Token) (atFormStart : Bool) :
    ∃ moduleName watched, (p.emit t atFormStart).state = { p with moduleName, watched } := by
  unfold emit
  split
  · exact ⟨_, _, rfl⟩
  · split
    · dsimp only
      split
      · split
        · split <;> exact ⟨_, _, rfl⟩
        · exact ⟨_, _, rfl⟩
      · exact ⟨_, _, rfl⟩
    · split <;> exact ⟨_, _, rfl⟩

private theorem moduleAttribute?_eq_some {tokens : List Token} {name : Token}
    (h : moduleAttribute? tokens = some name) : tokens.getLast? = some name ∧ name.kind = .atom := by
  unfold moduleAttribute? at h
  split at h
  · split at h
    · next hcond =>
      cases h
      simp only [Bool.and_eq_true, decide_eq_true_eq] at hcond
      exact ⟨rfl, hcond.2⟩
    · cases h
  · cases h

/-- A token is emitted unless it is to name the module and has no value. -/
theorem outcome_emit {t : Token} (atFormStart : Bool)
    (h : p.moduleFixed = true ∨ (t.kind = .atom → ∃ value, t.value = .ok value)) :
    (p.emit t atFormStart).outcome = .emit t := by
  unfold emit
  split
  · rfl
  · next hfixed =>
    split
    · next seen _ =>
      dsimp only
      split
      · split
        · next name hname =>
          obtain ⟨hlast, hkind⟩ := moduleAttribute?_eq_some hname
          rw [List.getLast?_concat] at hlast
          cases hlast
          obtain ⟨value, hvalue⟩ := (h.resolve_left hfixed) hkind
          rw [hvalue]
        · rfl
      · rfl
    · split <;> rfl

/-- A token is emitted, or the step fails. -/
theorem outcome_emit_cases (p : Preprocessor) (t : Token) (atFormStart : Bool) :
    (p.emit t atFormStart).outcome = .emit t ∨ ∃ f, (p.emit t atFormStart).outcome = .fail f := by
  unfold emit
  split
  · exact .inl rfl
  · split
    · dsimp only
      split
      · split
        · split
          · exact .inl rfl
          · exact .inr ⟨_, rfl⟩
        · exact .inl rfl
      · exact .inl rfl
    · split <;> exact .inl rfl

/-! ### Directives -/

/-- The action is about the open sources. -/
def IsAboutSources : Action → Prop
  | .includeFile _ | .includeLib _ | .file _ _ => True
  | _ => False

/-- What taking a directive can be, if the run goes on after it. -/
inductive Directed (w : World) (p : Preprocessor) (tokens : List Token) : Step → Prop where
  | skipped {s : Step} (outcome : s.outcome = .proceed) (state : s.state = { p with formStart := true }) :
      Directed w p tokens s
  | changed {d : Directive} {macros : MacroTable} {conditions : Conditional.Stack} {warnings : List Diagnostic}
      {s : Step} (parse : Directive.parse tokens = .ok d) (action : ¬ IsAboutSources d.action)
      (macros_eq : ∀ m ∈ macros.macros, m ∈ p.macros.macros ∨ ∃ name params, d.action = .define name params m.body)
      (outcome : s.outcome = .proceed)
      (state : s.state =
        { p with formStart := true, directives := d :: p.directives, macros, conditions, warnings })
      (changes : p.conditions.Changes conditions) : Directed w p tokens s
  | included {d : Directive} {path : Token} {file : Path} {text : Text} {inclusion : Inclusion} {finder : Finder}
      {s : Step} (parse : Directive.parse tokens = .ok d)
      (action : d.action = .includeFile path ∨ d.action = .includeLib path)
      (text_eq : w.readText file.toString = .ok text)
      (push : p.reader.inclusion.push (.ofText text (some file.toString) (some d.position)) = .ok inclusion)
      (told : .entering (some file.toString) ∈ s.events) (outcome : s.outcome = .proceed)
      (state : s.state =
        { p with formStart := true, directives := d :: p.directives, finder,
                 reader := { p.reader with inclusion } }) :
      Directed w p tokens s
  | reported {d : Directive} {name line : Token} {filename : Text} {n : Int} {s : Step}
      (parse : Directive.parse tokens = .ok d) (action : d.action = .file name line)
      (value : name.value = .ok filename) (integer : integerValue? line.text = some n)
      (outcome : s.outcome = .proceed)
      (state : s.state =
        { p with
          formStart := true, directives := d :: p.directives,
          reader :=
            { p.reader with inclusion :=
              { p.reader.inclusion with current := p.reader.inclusion.current.setFile filename n d.lastLine } } }) :
      Directed w p tokens s

private theorem directed_include {d : Directive} {path : Token} {library : Bool} {tokens : List Token}
    (hparse : Directive.parse tokens = .ok d) (haction : d.action = .includeFile path ∨ d.action = .includeLib path)
    (h : (evalInclude { p with formStart := true, directives := d :: p.directives } w library path
      d.position).outcome.continues) :
    Directed w p tokens
      (evalInclude { p with formStart := true, directives := d :: p.directives } w library path d.position) := by
  unfold evalInclude at h ⊢
  rcases hvalue : path.value with e | name <;> rw [hvalue] at h
  · cases h
  · dsimp only at h ⊢
    rcases hfound : (p.finder.find w library name (p.reader.inclusion.current.filename.map Path.directoryOf)).1
      with e | _ | file <;> rw [hfound] at h
    · cases h
    · cases h
    · unfold enter at h ⊢
      dsimp only [Step.after] at h ⊢
      rcases htext : w.readText file.toString with e | text <;> rw [htext] at h
      · cases e <;> cases h
      · dsimp only at h ⊢
        rcases hpush : p.reader.inclusion.push (.ofText text (some file.toString) (some d.position))
          with e | inclusion <;> rw [hpush] at h
        · cases h
        · exact .included hparse haction htext hpush (by simp [Step.changed]) rfl rfl

private theorem directed_evaluate {d : Directive} {tokens : List Token} (hparse : Directive.parse tokens = .ok d)
    (h : (evaluate w { p with formStart := true, directives := d :: p.directives } d).outcome.continues) :
    Directed w p tokens (evaluate w { p with formStart := true, directives := d :: p.directives } d) := by
  have hsame : ∀ m ∈ p.macros.macros, m ∈ p.macros.macros ∨ ∃ name params, d.action = .define name params m.body :=
    fun m hm => .inl hm
  unfold evaluate at h ⊢
  dsimp only at h ⊢
  rcases haction : d.action with ⟨name, params, body⟩ | name | name | name | _ | _ | path | path | message | message |
    ⟨name, line⟩ <;> rw [haction] at h <;> dsimp only at h ⊢
  case define =>
    unfold evalDefine at h ⊢
    rcases hmake : Macro.make name params body with e | m <;> rw [hmake] at h
    · cases h
    · dsimp only at h ⊢
      rcases hdefine : p.macros.define m with e | macros <;> rw [hdefine] at h
      · cases h
      · refine .changed hparse (by simp [haction, IsAboutSources]) (fun m' hm' => ?_) rfl rfl .same
        rcases MacroTable.mem_of_mem_define hdefine hm' with rfl | hm'
        · rw [haction, Macro.body_of_make hmake]
          exact .inr ⟨name, params, rfl⟩
        · exact .inl hm'
  case undef =>
    unfold withName at h ⊢
    rcases hname : name.nameValue with e | n <;> rw [hname] at h
    · cases h
    · dsimp only [evalUndef] at h ⊢
      rcases hundef : p.macros.undef n (some d.position) with e | macros <;> rw [hundef] at h
      · cases h
      · exact .changed hparse (by simp [haction, IsAboutSources])
          (fun m hm => .inl (MacroTable.mem_of_mem_undef hundef hm)) rfl rfl .same
  case ifdef | ifndef =>
    unfold withName at h ⊢
    rcases hname : name.nameValue with e | n <;> rw [hname] at h
    · cases h
    · exact .changed hparse (by simp [haction, IsAboutSources]) hsame rfl rfl (.opened _ _)
  case otherwise =>
    unfold evalConditional at h ⊢
    rcases hflip : p.conditions.flip (some d.position) with e | conditions <;> rw [hflip] at h
    · cases h
    · exact .changed hparse (by simp [haction, IsAboutSources]) hsame rfl rfl (.turned hflip)
  case endif =>
    unfold evalConditional at h ⊢
    rcases hclose : p.conditions.close (some d.position) with e | conditions <;> rw [hclose] at h
    · cases h
    · exact .changed hparse (by simp [haction, IsAboutSources]) hsame rfl rfl (.closed hclose)
  case includeFile => exact directed_include hparse (.inl haction) h
  case includeLib => exact directed_include hparse (.inr haction) h
  case error => cases h
  case warning => exact .changed hparse (by simp [haction, IsAboutSources]) hsame rfl rfl .same
  case file =>
    unfold evalFile at h ⊢
    rcases hvalue : name.value with e | filename <;> rw [hvalue] at h
    · cases h
    · rcases hinteger : integerValue? line.text with _ | n <;> rw [hinteger] at h
      · cases h
      · exact .reported hparse haction hvalue hinteger rfl rfl

/-- Every directive after which the run goes on is of one of these kinds. -/
theorem directed_directive {tokens : List Token} (h : (directive w p tokens).outcome.continues) :
    Directed w p tokens (directive w p tokens) := by
  unfold directive at h ⊢
  dsimp only at h ⊢
  split at h
  · next hactive =>
    rw [if_pos hactive]
    rcases hparse : Directive.parse tokens with f | d <;> rw [hparse] at h
    · cases h
    · exact directed_evaluate hparse h
  · next hactive =>
    rw [if_neg hactive]
    unfold skip
    split <;> exact .skipped rfl rfl

theorem Directed.after {tokens : List Token} {s : Step} (h : Directed w p tokens s) (told : List Event) :
    Directed w p tokens (s.after told) := by
  cases h with
  | skipped houtcome hstate => exact .skipped houtcome hstate
  | changed hparse haction hmacros houtcome hstate hchanges =>
    exact .changed hparse haction hmacros houtcome hstate hchanges
  | included hparse haction htext hpush htold houtcome hstate =>
    exact .included hparse haction htext hpush (List.mem_append_right _ htold) houtcome hstate
  | reported hparse haction hvalue hinteger houtcome hstate =>
    exact .reported hparse haction hvalue hinteger houtcome hstate

/-! ### All steps -/

/-- What a step after which the run goes on can be. -/
inductive Move (w : World) (p : Preprocessor) : Step → Prop where
  | suppressed {t : Token} {r r' : Reader} {s : Step} (read : p.reader.read = (.token t, r))
      (looked : r' = r ∨ r' = r.peek.2) (outcome : s.outcome = .proceed)
      (state : s.state = { p with reader := r', formStart := t.isSymbol "." }) : Move w p s
  | emitted {t : Token} {r r' : Reader} {moduleName : Option Text} {watched : Option (List Token)} {s : Step}
      (read : p.reader.read = (.token t, r)) (looked : r' = r ∨ r' = r.peek.2) (plain : t.isSymbol "?" = false)
      (outcome : s.outcome = .emit t)
      (state : s.state = { p with reader := r', formStart := t.isSymbol ".", moduleName, watched }) : Move w p s
  | expanded {question : Token} {r r₁ r₂ : Reader} {call : Expansion.Call} {s : Step}
      (read : p.reader.read = (.token question, r)) (isQuestion : question.isSymbol "?" = true)
      (resolve : Expansion.resolve p.context (.ofReader r question) r = (.ok call, r₁))
      (push : Expansion.push p.context (.ofReader r question) call r₁ = .ok r₂) (outcome : s.outcome = .proceed)
      (state : s.state =
        { p with reader := r₂, formStart := question.isSymbol ".",
                 calls := if r.fromSource then ⟨question, call.nameToken, call.args⟩ :: p.calls else p.calls })
      (active : p.conditions.active = true) : Move w p s
  | directive {hyphen : Token} {r r₁ : Reader} {tokens : List Token} {s : Step}
      (read : p.reader.read = (.token hyphen, r)) (fromSource : r.depth = 0)
      (collect : collect r hyphen = (.ok (some tokens), r₁)) (directed : Directed w { p with reader := r₁ } tokens s)
      (isHyphen : hyphen.isSymbol "-" = true) : Move w p s

/-- A call that is expanded, with what was resolved and pushed for it. -/
theorem expand_continues {question : Token} (h : (p.expand question).outcome.continues) :
    ∃ call r₁ r₂, Expansion.resolve p.context (.ofReader p.reader question) p.reader = (.ok call, r₁) ∧
      Expansion.push p.context (.ofReader p.reader question) call r₁ = .ok r₂ ∧
      (p.expand question).outcome = .proceed ∧
      (p.expand question).state =
        { p with reader := r₂,
                 calls := if p.reader.fromSource then ⟨question, call.nameToken, call.args⟩ :: p.calls
                   else p.calls } := by
  unfold expand at h ⊢
  dsimp only at h ⊢
  split at h
  · cases h
  · next call hresolve =>
    split at h
    · cases h
    · next r₂ hpush => exact ⟨call, _, r₂, Prod.ext hresolve rfl, hpush, rfl, rfl⟩

private theorem move_ordinary {t : Token} {r r' : Reader} {told : List Event} (hread : p.reader.read = (.token t, r))
    (hlooked : r' = r ∨ r' = r.peek.2) (hquestion : t.isSymbol "?" = true → r' = r)
    (h : (ordinary { p with reader := r' } t).outcome.continues) :
    Move w p ((ordinary { p with reader := r' } t).after told) := by
  unfold ordinary at h ⊢
  dsimp only at h ⊢
  by_cases hactive : (!p.conditions.active) = true
  · rw [if_pos hactive] at h ⊢
    exact .suppressed hread hlooked rfl rfl
  · rw [if_neg hactive] at h ⊢
    by_cases ht : t.isSymbol "?" = true
    · rw [if_pos ht] at h ⊢
      cases hquestion ht
      obtain ⟨call, r₁, r₂, hresolve, hpush, houtcome, hstate⟩ := expand_continues h
      exact .expanded hread ht hresolve hpush houtcome hstate (by simpa using hactive)
    · rw [if_neg ht] at h ⊢
      obtain ⟨moduleName, watched, hstate⟩ :=
        state_emit { p with reader := r', formStart := t.isSymbol "." } t p.formStart
      rcases outcome_emit_cases { p with reader := r', formStart := t.isSymbol "." } t p.formStart with
        hemit | ⟨f, hfail⟩
      · exact .emitted hread hlooked (by simpa using ht) hemit hstate
      · rw [hfail] at h
        cases h

/-- Every step after which the run goes on is of one of these kinds. -/
theorem move_step (h : (step w p).outcome.continues) : Move w p (step w p) := by
  rcases hread : p.reader.read with ⟨t | _ | e, r⟩
  · rw [step_token hread] at h ⊢
    unfold take at h ⊢
    dsimp only at h ⊢
    by_cases hstart : (p.formStart && r.fromSource && t.isSymbol "-") = true
    · rw [if_pos hstart] at h ⊢
      obtain ⟨⟨-, hsource⟩, hhyphen⟩ : (p.formStart = true ∧ r.fromSource = true) ∧ t.isSymbol "-" = true := by
        simpa using hstart
      rcases hcollect : collect r t with ⟨f | _ | tokens, r'⟩ <;> rw [hcollect] at h
      · cases h
      · -- the hyphen is an ordinary token then, and no question mark
        have ht : ¬ t.isSymbol "?" = true := by
          rw [Token.isSymbol_eq_false hhyphen (by decide)]
          exact Bool.false_ne_true
        exact move_ordinary hread (.inr (snd_collect_none hcollect)) (fun hq => absurd hq ht) h
      · exact .directive hread (by simpa [Reader.fromSource] using hsource) hcollect ((directed_directive h).after _)
          hhyphen
    · rw [if_neg hstart] at h ⊢
      exact move_ordinary hread (.inl rfl) (fun _ => rfl) h
  · unfold step at h
    rw [hread] at h
    dsimp only at h
    split at h <;> cases h
  · unfold step at h
    rw [hread] at h
    cases h

/-! ### Conditionals in a run -/

theorem isConsistent_step (hp : p.conditions.IsConsistent) (h : (step w p).outcome.continues) :
    (step w p).state.conditions.IsConsistent := by
  cases move_step h with
  | suppressed _ _ _ hstate | emitted _ _ _ _ hstate | expanded _ _ _ _ _ hstate =>
    rw [hstate]
    exact hp
  | directive _ _ _ hdirected =>
    cases hdirected with
    | skipped _ hstate | included _ _ _ _ _ _ hstate | reported _ _ _ _ _ hstate =>
      rw [hstate]
      exact hp
    | changed _ _ _ _ hstate hchanges =>
      rw [hstate]
      exact hp.of_changes hchanges

end Preprocessor

end ErlangMacros
