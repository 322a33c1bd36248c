import ErlangMacros.Proofs.Preprocessor.Move
import ErlangMacros.Proofs.Reader.Completion

/-!
# Running with more input behind and more conditionals open

`Embeds behind below p p'` says that `p'` is the state `p` with the tokens `behind` after its input and the conditionals
`below` around those that are open in `p`; the directives that were executed may differ.

With nothing behind and nothing below every step does the same in both states, also one that fails or ends the run.
Otherwise a step does the same if the run of `p` goes on after it, its input is complete and it opens no file
(`Embeds.step`).
-/

namespace ErlangMacros

variable {behind : List Token} {r r' r₁ : Reader}

theorem eq_nil_of_error {α : Type} {P : Prop} {f : Failure}
    (h : behind = [] ∨ P ∧ ∃ a : α, (.error f : Except Failure α) = .ok a) : behind = [] :=
  Reader.eq_nil_of_error (h.imp_right And.right)

namespace Expansion

variable {ctx : Context} {site : Site} {name : Text} {nameToken : Token}

/-- What a predefined macro stands for depends only on the label of the source. -/
theorem predefinedToken_congr {source source' : Source} (h : source'.label = source.label) (p : Predefined) :
    predefinedToken ctx source' site p = predefinedToken ctx source site p := by
  have hfilename : source'.logicalFilename = source.logicalFilename := congrArg Source.Label.logicalFilename h
  have hoffset : source'.lineOffset = source.lineOffset := congrArg Source.Label.lineOffset h
  simp only [predefinedToken, Source.logicalLine, hfilename, hoffset]

private theorem extends_readArguments {arities : List Arity} {result : Except Failure (Option Reader.Arguments)}
    (h : r.Extends behind r') (hread : readArguments site arities r = (result, r₁))
    (hmode : behind = [] ∨ r.Completes ∧ ∃ a, result = .ok a) :
    ∃ r₁', readArguments site arities r' = (result, r₁') ∧ r₁.Extends behind r₁' := by
  have hpull : behind = [] ∨ ∃ t, r.peek.1 = .token t := hmode.imp_right fun hcomplete => hcomplete.1.peek.2
  unfold readArguments at hread ⊢
  rcases hpeek : r.peek with ⟨pull, r₂⟩
  rw [hpeek] at hread hpull
  obtain ⟨r₂', hpeek', h₂⟩ := h.peek hpeek hpull
  rw [hpeek']
  rcases pull with t | _ | e <;> dsimp only at hread ⊢
  · by_cases hopen : (t.isSymbol "(" && decide (arities ≠ [none])) = true
    · rw [if_pos hopen] at hread ⊢
      rcases harguments : r₂.arguments site.question with ⟨f | a, r₃⟩ <;> rw [harguments] at hread <;> cases hread
      · obtain rfl : behind = [] := eq_nil_of_error hmode
        obtain ⟨r₃', harguments', h₃⟩ := h₂.arguments harguments (.inl rfl)
        exact ⟨r₃', by rw [harguments'], h₃⟩
      · obtain ⟨r₃', harguments', h₃⟩ := h₂.arguments harguments (.inr ⟨a, rfl⟩)
        exact ⟨r₃', by rw [harguments'], h₃⟩
    · rw [if_neg hopen] at hread ⊢
      cases hread
      exact ⟨r₂', rfl, h₂⟩
  · cases hread
    exact ⟨r₂', rfl, h₂⟩
  · cases hread
    exact ⟨r₂', rfl, h₂⟩

private theorem extends_lookedUp {args : Option (List (List Token))} {result : Except Failure Call}
    (h : r.Extends behind r') (hlookedUp : lookedUp ctx site name nameToken args r = (result, r₁)) :
    ∃ r₁', lookedUp ctx site name nameToken args r' = (result, r₁') ∧ r₁.Extends behind r₁' := by
  unfold lookedUp at hlookedUp ⊢
  rcases hlookup : ctx.macros.lookup name (args.map fun as => (as.length : Int)) (some site.question.position)
    with e | m <;> simp only [hlookup] at hlookedUp ⊢ <;> cases hlookedUp <;> exact ⟨r', rfl, h⟩

private theorem extends_choose {arguments : Option Reader.Arguments} {result : Except Failure Call}
    (h : r.Extends behind r') (hchoose : choose ctx site name nameToken arguments r = (result, r₁)) :
    ∃ r₁', choose ctx site name nameToken arguments r' = (result, r₁') ∧ r₁.Extends behind r₁' := by
  cases arguments with
  | none => exact extends_lookedUp h hchoose
  | some a =>
    rw [choose_some] at hchoose ⊢
    split at hchoose
    · next hback =>
      rw [if_pos hback]
      exact extends_lookedUp (h.unread _) hchoose
    · next hback =>
      rw [if_neg hback]
      exact extends_lookedUp h hchoose

private theorem extends_resolveName {result : Except Failure Call} (h : r.Extends behind r')
    (hresolve : resolveName ctx site name nameToken r = (result, r₁))
    (hmode : behind = [] ∨ r.Completes ∧ ∃ call, result = .ok call) :
    ∃ r₁', resolveName ctx site name nameToken r' = (result, r₁') ∧ r₁.Extends behind r₁' := by
  unfold resolveName at hresolve ⊢
  rcases hname : Predefined.ofName? name with _ | p <;> rw [hname] at hresolve <;> dsimp only at hresolve ⊢
  · by_cases hempty : (ctx.macros.arities name).isEmpty = true
    · rw [if_pos hempty] at hresolve ⊢
      cases hresolve
      exact ⟨r', rfl, h⟩
    · rw [if_neg hempty] at hresolve ⊢
      rcases harguments : readArguments site (ctx.macros.arities name) r with ⟨f | a, r₂⟩ <;>
        rw [harguments] at hresolve <;> dsimp only at hresolve
      · cases hresolve
        obtain rfl : behind = [] := eq_nil_of_error hmode
        obtain ⟨r₂', harguments', h₂⟩ := extends_readArguments h harguments (.inl rfl)
        exact ⟨r₂', by rw [harguments'], h₂⟩
      · obtain ⟨r₂', harguments', h₂⟩ :=
          extends_readArguments h harguments (hmode.imp_right fun hcomplete => ⟨hcomplete.1, a, rfl⟩)
        rw [harguments']
        exact extends_choose h₂ hresolve
  · rw [predefinedToken_congr h.inclusion.current.label_eq]
    rcases htoken : predefinedToken ctx r.inclusion.current site p with f | t <;> rw [htoken] at hresolve <;>
      cases hresolve <;> exact ⟨r', rfl, h⟩

private theorem extends_resolve {result : Except Failure Call} (h : r.Extends behind r')
    (hresolve : resolve ctx site r = (result, r₁)) (hmode : behind = [] ∨ r.Completes ∧ ∃ call, result = .ok call) :
    ∃ r₁', resolve ctx site r' = (result, r₁') ∧ r₁.Extends behind r₁' := by
  unfold resolve at hresolve ⊢
  rcases hread : r.read with ⟨t | _ | e, r₂⟩ <;> rw [hread] at hresolve <;> dsimp only at hresolve
  · obtain ⟨r₂', hread', h₂⟩ := h.read hread (.inr ⟨t, rfl⟩)
    rw [hread']
    dsimp only
    by_cases hkind : (decide (t.kind = .atom) || decide (t.kind = .var)) = true
    · rw [if_pos hkind] at hresolve ⊢
      -- a name is no full stop, so that the input stays complete
      have hcomplete : behind = [] ∨ r₂.Completes ∧ ∃ call, result = .ok call := by
        refine hmode.imp_right fun ⟨hcomplete, hok⟩ => ⟨(hcomplete.read hread).resolve_right fun ⟨hstop, _⟩ => ?_, hok⟩
        simp only [Bool.or_eq_true, decide_eq_true_eq] at hkind
        rcases hkind with hkind | hkind <;> simp [Token.isSymbol, hkind, Kind.isSymbol] at hstop
      rcases hvalue : t.value with e | value <;> rw [hvalue] at hresolve
      · cases hresolve
        exact ⟨r₂', rfl, h₂⟩
      · exact extends_resolveName h₂ hresolve hcomplete
    · rw [if_neg hkind] at hresolve ⊢
      cases hresolve
      exact ⟨r₂', rfl, h₂⟩
  · cases hresolve
    obtain rfl : behind = [] := eq_nil_of_error hmode
    obtain ⟨r₂', hread', h₂⟩ := h.read hread (.inl rfl)
    exact ⟨r₂', by rw [hread'], h₂⟩
  · cases hresolve
    obtain rfl : behind = [] := eq_nil_of_error hmode
    obtain ⟨r₂', hread', h₂⟩ := h.read hread (.inl rfl)
    exact ⟨r₂', by rw [hread'], h₂⟩

/-- Expansions are pushed alike. -/
theorem extends_push (h : r.Extends behind r') (call : Call) :
    (∃ f, push ctx site call r = .error f ∧ push ctx site call r' = .error f) ∨
      ∃ r₁ r₁', push ctx site call r = .ok r₁ ∧ push ctx site call r' = .ok r₁' ∧ r₁.Extends behind r₁' := by
  unfold push
  rcases call.meaning.tokens with f | tokens
  · exact .inl ⟨_, rfl, rfl⟩
  · dsimp only
    split
    · exact .inl ⟨_, rfl, rfl⟩
    · exact .inr ⟨_, _, rfl, rfl, h.push _⟩

end Expansion

/-! ### Conditionals -/

/-- Conditionals around others do not count, if their conditions hold. -/
theorem Conditional.Stack.active_append {s s' : Conditional.Stack} {below : List Conditional.Frame}
    (h : s'.frames = s.frames ++ below) (hbelow : (⟨below⟩ : Conditional.Stack).active = true) :
    s'.active = s.active := by
  unfold active at hbelow ⊢
  rw [h]
  cases s.frames with
  | nil => exact hbelow
  | cons f fs => rfl

/-- The innermost conditional is turned or closed alike, if it is not one of those around. -/
theorem Conditional.Stack.flip_append {s s' : Conditional.Stack} {below : List Conditional.Frame}
    (h : s'.frames = s.frames ++ below) (hopen : below = [] ∨ s.frames ≠ []) (position : Option Position) :
    (∃ e, s.flip position = .error e ∧ s'.flip position = .error e) ∨
      ∃ s₁ s₁', s.flip position = .ok s₁ ∧ s'.flip position = .ok s₁' ∧ s₁'.frames = s₁.frames ++ below := by
  unfold flip
  rw [h]
  cases hs : s.frames with
  | nil =>
    obtain rfl : below = [] := hopen.resolve_right fun hne => hne hs
    exact .inl ⟨_, rfl, rfl⟩
  | cons f fs =>
    dsimp only [List.cons_append]
    split
    · exact .inl ⟨_, rfl, rfl⟩
    · exact .inr ⟨_, _, rfl, rfl, rfl⟩

private theorem Conditional.Stack.close_append {s s' : Conditional.Stack} {below : List Conditional.Frame}
    (h : s'.frames = s.frames ++ below) (hopen : below = [] ∨ s.frames ≠ []) (position : Option Position) :
    (∃ e, s.close position = .error e ∧ s'.close position = .error e) ∨
      ∃ s₁ s₁', s.close position = .ok s₁ ∧ s'.close position = .ok s₁' ∧ s₁'.frames = s₁.frames ++ below := by
  unfold close
  rw [h]
  cases hs : s.frames with
  | nil =>
    obtain rfl : below = [] := hopen.resolve_right fun hne => hne hs
    exact .inl ⟨_, rfl, rfl⟩
  | cons f fs => exact .inr ⟨_, _, rfl, rfl, rfl⟩

namespace Preprocessor

/-! ### Reading directives -/

private theorem extends_collectRest {keyword : Text} {last : Token} {result : Except Failure (List Token)}
    (h : r.Extends behind r') (hcollect : collectRest keyword last r = (result, r₁))
    (hmode : behind = [] ∨ ∃ tokens, result = .ok tokens) :
    ∃ r₁', collectRest keyword last r' = (result, r₁') ∧ r₁.Extends behind r₁' := by
  fun_induction collectRest keyword last r generalizing r' result r₁ with
  | case1 last r hr =>
    cases hcollect
    exact ⟨r', by rw [collectRest_eq, h.repeats_eq, if_pos hr], h⟩
  | case2 last r hr e r₂ hread =>
    cases hcollect
    obtain rfl : behind = [] := Reader.eq_nil_of_error hmode
    obtain ⟨r₂', hread', h₂⟩ := h.read hread (.inl rfl)
    exact ⟨r₂', by rw [collectRest_eq, h.repeats_eq, if_neg hr, hread'], h₂⟩
  | case3 last r hr r₂ hread =>
    cases hcollect
    obtain rfl : behind = [] := Reader.eq_nil_of_error hmode
    obtain ⟨r₂', hread', h₂⟩ := h.read hread (.inl rfl)
    exact ⟨r₂', by rw [collectRest_eq, h.repeats_eq, if_neg hr, hread'], h₂⟩
  | case4 last r hr t r₂ hread hstop =>
    cases hcollect
    obtain ⟨r₂', hread', h₂⟩ := h.read hread (.inr ⟨t, rfl⟩)
    exact ⟨r₂', by simp only [collectRest_eq keyword last r', h.repeats_eq, if_neg hr, hread', if_pos hstop], h₂⟩
  | case5 last r hr t r₂ hread hstop hsize rest r₃ hrest ih =>
    cases hcollect
    obtain ⟨r₂', hread', h₂⟩ := h.read hread (.inr ⟨t, rfl⟩)
    have hok : behind = [] ∨ ∃ tokens, rest = .ok tokens := by
      refine hmode.imp_right fun hresult => ?_
      obtain ⟨tokens, htokens⟩ := hresult
      cases rest with
      | error f => cases htokens
      | ok tokens => exact ⟨tokens, rfl⟩
    obtain ⟨r₃', hrest', h₃⟩ := ih h₂ hrest hok
    refine ⟨r₃', ?_, h₃⟩
    simp only [collectRest_eq keyword last r', h.repeats_eq, if_neg hr, hread', if_neg hstop, hrest']

private theorem extends_collect {hyphen : Token} {result : Except Failure (Option (List Token))}
    (h : r.Extends behind r')
    (hcollect : collect r hyphen = (result, r₁)) (hmode : behind = [] ∨ r.Completes ∧ ∃ tokens, result = .ok tokens) :
    ∃ r₁', collect r' hyphen = (result, r₁') ∧ r₁.Extends behind r₁' := by
  have hpull : behind = [] ∨ ∃ t, r.peek.1 = .token t := hmode.imp_right fun hcomplete => hcomplete.1.peek.2
  unfold collect at hcollect ⊢
  rcases hpeek : r.peek with ⟨pull, r₂⟩
  rw [hpeek] at hcollect hpull
  obtain ⟨r₂', hpeek', h₂⟩ := h.peek hpeek hpull
  rw [hpeek']
  rcases pull with t | _ | e <;> dsimp only at hcollect ⊢
  · by_cases hkeyword : (decide (t.kind = .atom) && (Keyword.ofText? t.text).isSome) = true
    · rw [if_pos hkeyword] at hcollect ⊢
      rcases hrest : collectRest t.text hyphen r₂ with ⟨f | rest, r₃⟩ <;> rw [hrest] at hcollect <;> cases hcollect
      · obtain rfl : behind = [] := eq_nil_of_error hmode
        obtain ⟨r₃', hrest', h₃⟩ := extends_collectRest h₂ hrest (.inl rfl)
        exact ⟨r₃', by rw [hrest'], h₃⟩
      · obtain ⟨r₃', hrest', h₃⟩ := extends_collectRest h₂ hrest (.inr ⟨rest, rfl⟩)
        exact ⟨r₃', by rw [hrest'], h₃⟩
    · rw [if_neg hkeyword] at hcollect ⊢
      cases hcollect
      exact ⟨r₂', rfl, h₂⟩
  · cases hcollect
    exact ⟨r₂', rfl, h₂⟩
  · cases hcollect
    exact ⟨r₂', rfl, h₂⟩

/-! ### States -/

/-- The second state is the first with more tokens behind its input and more conditionals around those that are open.
The directives that were executed may differ. -/
inductive Embeds (behind : List Token) (below : List Conditional.Frame) (p : Preprocessor) : Preprocessor → Prop where
  | mk {reader : Reader} {conditions : Conditional.Stack} {directives : List Directive}
      (reader_extends : p.reader.Extends behind reader) (frames_eq : conditions.frames = p.conditions.frames ++ below) :
      Embeds behind below p { p with reader, conditions, directives }

namespace Embeds

variable {below : List Conditional.Frame} {p p' : Preprocessor}

theorem reader_extends (h : p.Embeds behind below p') : p.reader.Extends behind p'.reader := by
  obtain ⟨hreader, -⟩ := h
  exact hreader

theorem conditions_eq (h : p.Embeds behind below p') : p'.conditions.frames = p.conditions.frames ++ below := by
  obtain ⟨-, hframes⟩ := h
  exact hframes

theorem macros_eq (h : p.Embeds behind below p') : p'.macros = p.macros := by
  cases h
  rfl

/-- The states with other readers. -/
theorem withReader (h : p.Embeds behind below p') (h₁ : r₁.Extends behind r') :
    Embeds behind below { p with reader := r₁ } { p' with reader := r' } := by
  obtain ⟨-, hframes⟩ := h
  exact .mk h₁ hframes

end Embeds

/-- The second step comes to the same as the first, in the second state. -/
structure Step.Embeds (behind : List Token) (below : List Conditional.Frame) (s s' : Step) : Prop where
  outcome_eq : s'.outcome = s.outcome
  state : s.state.Embeds behind below s'.state

variable {w : World} {below : List Conditional.Frame} {p p' : Preprocessor} {t : Token}

theorem Step.Embeds.after {s s' : Step} (h : s.Embeds behind below s') (told told' : List Event) :
    (s.after told).Embeds behind below (s'.after told') :=
  ⟨h.outcome_eq, h.state⟩

theorem Embeds.emit (h : p.Embeds behind below p') (t : Token) (atFormStart : Bool) :
    (p.emit t atFormStart).Embeds behind below (p'.emit t atFormStart) := by
  obtain ⟨hreader, hframes⟩ := h
  unfold Preprocessor.emit
  dsimp only
  split
  · exact ⟨rfl, .mk hreader hframes⟩
  · split
    · split
      · split
        · split <;> exact ⟨rfl, .mk hreader hframes⟩
        · exact ⟨rfl, .mk hreader hframes⟩
      · exact ⟨rfl, .mk hreader hframes⟩
    · split <;> exact ⟨rfl, .mk hreader hframes⟩

theorem Embeds.expand (h : p.Embeds behind below p') (question : Token)
    (hmode : behind = [] ∨ p.reader.Completes ∧ (p.expand question).outcome.continues) :
    (p.expand question).Embeds behind below (p'.expand question) := by
  obtain @⟨reader, conditions, directives, hreader, hframes⟩ := h
  have hsite : Expansion.Site.ofReader reader question = Expansion.Site.ofReader p.reader question := by
    rw [Expansion.Site.ofReader, Expansion.Site.ofReader, hreader.depth_eq, hreader.callSite_eq]
  unfold Preprocessor.expand at hmode ⊢
  dsimp only at hmode ⊢
  rw [show context { p with reader, conditions, directives } = p.context from rfl, hsite, hreader.fromSource_eq]
  rcases hresolve : Expansion.resolve p.context (.ofReader p.reader question) p.reader with ⟨f | call, r₁⟩ <;>
    rw [hresolve] at hmode <;> dsimp only at hmode ⊢
  · obtain rfl : behind = [] := hmode.resolve_right nofun
    obtain ⟨r₁', hresolve', h₁⟩ := Expansion.extends_resolve hreader hresolve (.inl rfl)
    rw [hresolve']
    exact ⟨rfl, .mk h₁ hframes⟩
  · obtain ⟨r₁', hresolve', h₁⟩ :=
      Expansion.extends_resolve hreader hresolve (hmode.imp_right fun hcomplete => ⟨hcomplete.1, call, rfl⟩)
    rw [hresolve']
    dsimp only
    rcases Expansion.extends_push h₁ call with ⟨f, hpush, hpush'⟩ | ⟨r₂, r₂', hpush, hpush', h₂⟩ <;>
      rw [hpush, hpush']
    · exact ⟨rfl, .mk h₁ hframes⟩
    · exact ⟨rfl, .mk h₂ hframes⟩

/-! ### Directives -/

theorem Embeds.withName (h : p.Embeds behind below p') (name : Token) {k k' : Text → Step}
    (hk : ∀ n, (k n).Embeds behind below (k' n)) : (p.withName name k).Embeds behind below (p'.withName name k') := by
  unfold Preprocessor.withName
  rcases name.nameValue with e | n
  · exact ⟨rfl, h⟩
  · exact hk n

theorem Embeds.evalDefine (h : p.Embeds behind below p') (name : Token) (params : Option (List Token))
    (body : List Token) : (p.evalDefine name params body).Embeds behind below (p'.evalDefine name params body) := by
  obtain ⟨hreader, hframes⟩ := h
  unfold Preprocessor.evalDefine
  dsimp only
  split
  · exact ⟨rfl, .mk hreader hframes⟩
  · split <;> exact ⟨rfl, .mk hreader hframes⟩

theorem Embeds.evalUndef (h : p.Embeds behind below p') (name : Text) (position : Position) :
    (p.evalUndef name position).Embeds behind below (p'.evalUndef name position) := by
  obtain ⟨hreader, hframes⟩ := h
  unfold Preprocessor.evalUndef
  dsimp only
  split <;> exact ⟨rfl, .mk hreader hframes⟩

theorem Embeds.evalFile (h : p.Embeds behind below p') (d : Directive) (name line : Token) :
    (p.evalFile d name line).Embeds behind below (p'.evalFile d name line) := by
  obtain ⟨hreader, hframes⟩ := h
  unfold Preprocessor.evalFile
  dsimp only
  split
  · refine ⟨rfl, .mk ⟨hreader.frames_eq, ?_, hreader.depth_eq, hreader.callSite_eq⟩ hframes⟩
    exact ⟨hreader.inclusion.limit_eq, hreader.inclusion.current.setFile _ _ _, hreader.inclusion.outer,
      hreader.inclusion.alone⟩
  · exact ⟨rfl, .mk hreader hframes⟩
  · exact ⟨rfl, .mk hreader hframes⟩

/-- A change of the conditionals that are open does the same to more of them, or fails in the same way. -/
theorem Embeds.evalConditional (h : p.Embeds behind below p') {stack stack' : Except Error Conditional.Stack}
    (hstack : (∃ e, stack = .error e ∧ stack' = .error e) ∨
      ∃ s s', stack = .ok s ∧ stack' = .ok s' ∧ s'.frames = s.frames ++ below) :
    (p.evalConditional stack).Embeds behind below (p'.evalConditional stack') := by
  obtain ⟨hreader, hframes⟩ := h
  rcases hstack with ⟨e, rfl, rfl⟩ | ⟨s, s', rfl, rfl, hs⟩
  · exact ⟨rfl, .mk hreader hframes⟩
  · exact ⟨rfl, .mk hreader hs⟩

/-- Files are opened alike, if nothing stands behind. -/
theorem Embeds.enter (h : p.Embeds [] below p') (path : Path) (position : Position) :
    (p.enter w path position).Embeds [] below (p'.enter w path position) := by
  obtain ⟨hreader, hframes⟩ := h
  unfold Preprocessor.enter
  rcases w.readText path.toString with f | text
  · cases f <;> exact ⟨rfl, .mk hreader hframes⟩
  · dsimp only
    rcases hreader.inclusion.push (.ofText text (some path.toString) (some position)) with
      ⟨e, hpush, hpush'⟩ | ⟨i, i', hpush, hpush', hi⟩ <;> rw [hpush, hpush']
    · exact ⟨rfl, .mk hreader hframes⟩
    · exact ⟨rfl, .mk ⟨hreader.frames_eq, hi, hreader.depth_eq, hreader.callSite_eq⟩ hframes⟩

theorem Embeds.evalInclude (h : p.Embeds [] below p') (library : Bool) (path : Token) (position : Position) :
    (p.evalInclude w library path position).Embeds [] below (p'.evalInclude w library path position) := by
  obtain @⟨reader, conditions, directives, hreader, hframes⟩ := h
  have hfilename : reader.inclusion.current.filename = p.reader.inclusion.current.filename :=
    congrArg Source.Label.filename hreader.inclusion.current.label_eq
  unfold Preprocessor.evalInclude
  rcases path.value with e | name
  · exact ⟨rfl, .mk hreader hframes⟩
  · dsimp only
    rw [hfilename]
    rcases (p.finder.find w library name (p.reader.inclusion.current.filename.map Path.directoryOf)).1
      with f | _ | file
    · exact ⟨rfl, .mk hreader hframes⟩
    · exact ⟨rfl, .mk hreader hframes⟩
    · refine (Embeds.enter (p := { p with finder := _ }) ?_ file position).after _ _
      exact .mk hreader hframes

/-- After a file has been opened, one is open. -/
theorem outer_evalInclude_ne_nil {library : Bool} {path : Token} {position : Position}
    (h : (p.evalInclude w library path position).outcome.continues) :
    (p.evalInclude w library path position).state.reader.inclusion.outer ≠ [] := by
  unfold Preprocessor.evalInclude at h ⊢
  rcases hvalue : path.value with e | name <;> rw [hvalue] at h
  · cases h
  · dsimp only at h ⊢
    rcases hfound : (p.finder.find w library name (p.reader.inclusion.current.filename.map Path.directoryOf)).1
      with f | _ | file <;> rw [hfound] at h
    · cases h
    · cases h
    · obtain ⟨text, i, -, hpush, hreader⟩ := reader_enter h
      dsimp only [Step.after]
      rw [hreader, (Inclusion.push_eq_ok hpush).2]
      exact List.cons_ne_nil _ _

theorem Embeds.evaluate (h : p.Embeds behind below p') (hbelow : (⟨below⟩ : Conditional.Stack).active = true)
    (d : Directive) (hmode : behind = [] ∧ below = [] ∨
      (evaluate w p d).outcome.continues ∧ (evaluate w p d).state.reader.inclusion.outer = []) :
    (evaluate w p d).Embeds behind below (evaluate w p' d) := by
  have hframes := h.conditions_eq
  have hpush (condition : Bool) (position : Option Position) :
      (p'.conditions.push condition position).frames = (p.conditions.push condition position).frames ++ below := by
    simp only [Conditional.Stack.push, Conditional.Stack.active_append hframes hbelow, hframes, List.cons_append]
  unfold Preprocessor.evaluate at hmode ⊢
  dsimp only at hmode ⊢
  rcases haction : d.action with ⟨name, params, body⟩ | name | name | name | _ | _ | path | path | message | message |
    ⟨name, line⟩ <;> rw [haction] at hmode <;> dsimp only at hmode ⊢
  case define => exact h.evalDefine name params body
  case undef => exact h.withName name fun n => h.evalUndef n d.position
  case ifdef =>
    refine h.withName name fun n => h.evalConditional (.inr ⟨_, _, rfl, rfl, ?_⟩)
    rw [h.macros_eq]
    exact hpush _ _
  case ifndef =>
    refine h.withName name fun n => h.evalConditional (.inr ⟨_, _, rfl, rfl, ?_⟩)
    rw [h.macros_eq]
    exact hpush _ _
  case otherwise =>
    refine h.evalConditional (Conditional.Stack.flip_append hframes ?_ _)
    refine hmode.imp And.right fun ⟨hcontinues, _⟩ hnil => ?_
    simp [Preprocessor.evalConditional, Conditional.Stack.flip, hnil, Step.failed, Outcome.continues] at hcontinues
  case endif =>
    refine h.evalConditional (Conditional.Stack.close_append hframes ?_ _)
    refine hmode.imp And.right fun ⟨hcontinues, _⟩ hnil => ?_
    simp [Preprocessor.evalConditional, Conditional.Stack.close, hnil, Step.failed, Outcome.continues] at hcontinues
  case includeFile =>
    obtain ⟨rfl, -⟩ := hmode.resolve_right fun ⟨hcontinues, houter⟩ => outer_evalInclude_ne_nil hcontinues houter
    exact h.evalInclude false path d.position
  case includeLib =>
    obtain ⟨rfl, -⟩ := hmode.resolve_right fun ⟨hcontinues, houter⟩ => outer_evalInclude_ne_nil hcontinues houter
    exact h.evalInclude true path d.position
  case error => exact ⟨rfl, h⟩
  case warning =>
    obtain ⟨hreader, hframes⟩ := h
    exact ⟨rfl, .mk hreader hframes⟩
  case file => exact h.evalFile d name line

theorem Embeds.directive (h : p.Embeds behind below p') (hbelow : (⟨below⟩ : Conditional.Stack).active = true)
    (tokens : List Token) (hmode : behind = [] ∧ below = [] ∨
      (directive w p tokens).outcome.continues ∧ (directive w p tokens).state.reader.inclusion.outer = []) :
    (directive w p tokens).Embeds behind below (directive w p' tokens) := by
  obtain @⟨reader, conditions, directives, hreader, hframes⟩ := h
  unfold Preprocessor.directive at hmode ⊢
  dsimp only at hmode ⊢
  rw [Conditional.Stack.active_append hframes hbelow]
  by_cases hactive : (p.conditions.active || isConditional tokens) = true
  · rw [if_pos hactive] at hmode ⊢
    rw [if_pos hactive]
    rcases hparse : Directive.parse tokens with f | d <;> rw [hparse] at hmode
    · exact ⟨rfl, .mk hreader hframes⟩
    · refine Embeds.evaluate ?_ hbelow d hmode
      exact .mk hreader hframes
  · rw [if_neg hactive, if_neg hactive]
    unfold skip
    split <;> exact ⟨rfl, .mk hreader hframes⟩

/-! ### Steps -/

/-- The run goes on only after a token has been read. -/
theorem continues_step {pull : Pull} (hread : p.reader.read = (pull, r₁)) (hpull : ∀ t, pull ≠ .token t) :
    (Preprocessor.step w p).outcome.continues = false := by
  rcases pull with t | _ | e
  · exact absurd rfl (hpull t)
  · simp only [Preprocessor.step, hread]
    split <;> rfl
  · simp only [Preprocessor.step, hread]
    rfl

theorem Embeds.ordinary (h : p.Embeds behind below p') (hbelow : (⟨below⟩ : Conditional.Stack).active = true)
    (t : Token)
    (hmode : behind = [] ∨ (p.ordinary t).outcome.continues ∧ (t.isSymbol "?" = true → p.reader.Completes)) :
    (p.ordinary t).Embeds behind below (p'.ordinary t) := by
  obtain @⟨reader, conditions, directives, hreader, hframes⟩ := h
  unfold Preprocessor.ordinary at hmode ⊢
  dsimp only at hmode ⊢
  rw [Conditional.Stack.active_append hframes hbelow]
  by_cases hactive : (!p.conditions.active) = true
  · rw [if_pos hactive, if_pos hactive]
    exact ⟨rfl, .mk hreader hframes⟩
  · rw [if_neg hactive] at hmode ⊢
    rw [if_neg hactive]
    by_cases hquestion : t.isSymbol "?" = true
    · rw [if_pos hquestion] at hmode ⊢
      rw [if_pos hquestion]
      refine Embeds.expand ?_ t (hmode.imp_right fun ⟨hcontinues, hcomplete⟩ => ⟨hcomplete hquestion, hcontinues⟩)
      exact .mk hreader hframes
    · rw [if_neg hquestion, if_neg hquestion]
      refine Embeds.emit ?_ t p.formStart
      exact .mk hreader hframes

theorem Embeds.take (h : p.Embeds behind below p') (hbelow : (⟨below⟩ : Conditional.Stack).active = true) (t : Token)
    (hmode : behind = [] ∧ below = [] ∨
      (take w p t).outcome.continues ∧ (take w p t).state.reader.inclusion.outer = [] ∧
        (t.isSymbol "." = false → p.reader.Completes)) :
    (take w p t).Embeds behind below (take w p' t) := by
  obtain @⟨reader, conditions, directives, hreader, hframes⟩ := h
  have hstate {r₁ r₁' : Reader} (h₁ : r₁.Extends behind r₁') :
      Embeds behind below { p with reader := r₁ } { p with reader := r₁', conditions, directives } := .mk h₁ hframes
  unfold Preprocessor.take at hmode ⊢
  dsimp only at hmode ⊢
  rw [hreader.fromSource_eq]
  by_cases hstart : (p.formStart && p.reader.fromSource && t.isSymbol "-") = true
  · rw [if_pos hstart] at hmode ⊢
    rw [if_pos hstart]
    have hhyphen : t.isSymbol "-" = true := (Bool.and_eq_true_iff.1 hstart).2
    have hcomplete : behind = [] ∨ p.reader.Completes :=
      hmode.imp And.left fun hmode => hmode.2.2 (Token.isSymbol_eq_false hhyphen (by decide))
    rcases hcollect : collect p.reader t with ⟨f | _ | tokens, r₁⟩ <;> rw [hcollect] at hmode <;> dsimp only at hmode ⊢
    · obtain ⟨rfl, -⟩ := hmode.resolve_right nofun
      obtain ⟨r₁', hcollect', h₁⟩ := extends_collect hreader hcollect (.inl rfl)
      rw [hcollect']
      exact ⟨rfl, hstate h₁⟩
    · obtain ⟨r₁', hcollect', h₁⟩ := extends_collect hreader hcollect (hcomplete.imp_right fun hr => ⟨hr, _, rfl⟩)
      rw [hcollect']
      refine (hstate h₁).ordinary hbelow t (hmode.imp And.left fun hmode => ⟨hmode.1, fun hquestion => ?_⟩)
      rw [Token.isSymbol_eq_false hhyphen (by decide)] at hquestion
      cases hquestion
    · obtain ⟨r₁', hcollect', h₁⟩ := extends_collect hreader hcollect (hcomplete.imp_right fun hr => ⟨hr, _, rfl⟩)
      rw [hcollect']
      exact (hstate h₁).directive hbelow tokens (hmode.imp_right fun hmode => ⟨hmode.1, hmode.2.1⟩)
  · rw [if_neg hstart] at hmode ⊢
    rw [if_neg hstart]
    refine (hstate hreader).ordinary hbelow t (hmode.imp And.left fun hmode => ⟨hmode.1, fun hquestion => ?_⟩)
    exact hmode.2.2 (Token.isSymbol_eq_false hquestion (by decide))

/-- A step does the same, if nothing stands behind and no conditional is around, or if the run goes on after it, with
complete input and no file open. -/
theorem Embeds.step (h : p.Embeds behind below p') (hbelow : (⟨below⟩ : Conditional.Stack).active = true)
    (hmode : behind = [] ∧ below = [] ∨
      (step w p).outcome.continues ∧ (step w p).state.reader.inclusion.outer = [] ∧ p.reader.Completes) :
    (step w p).Embeds behind below (step w p') := by
  -- a step that reads no token ends the run, so that nothing may stand behind
  have hlast {pull : Pull} {r₁ : Reader} (hread : p.reader.read = (pull, r₁)) (hpull : ∀ t, pull ≠ .token t) :
      behind = [] ∧ below = [] := by
    rcases hmode with hnone | ⟨hcontinues, -⟩
    · exact hnone
    · rw [continues_step hread hpull] at hcontinues
      cases hcontinues
  rcases hread : p.reader.read with ⟨t | _ | e, r₁⟩
  · obtain ⟨r₁', hread', h₁⟩ := h.reader_extends.read hread (.inr ⟨t, rfl⟩)
    rw [step_token hread] at hmode ⊢
    rw [step_token hread']
    refine ((h.withReader h₁).take hbelow t (hmode.imp_right fun hmore => ?_)).after _ _
    obtain ⟨hcontinues, houter, hcomplete⟩ := hmore
    refine ⟨hcontinues, houter, fun hplain => (hcomplete.read hread).resolve_right fun hdrained => ?_⟩
    rw [hdrained.1] at hplain
    cases hplain
  · obtain ⟨rfl, rfl⟩ := hlast hread (by rintro t ⟨⟩)
    obtain ⟨r₁', hread', h₁⟩ := h.reader_extends.read hread (.inl rfl)
    have hfinish : p'.conditions.finish = p.conditions.finish := by
      rw [Conditional.Stack.finish, h.conditions_eq, List.append_nil]
      rfl
    simp only [Preprocessor.step, hread, hread']
    rw [hfinish]
    split <;> exact ⟨rfl, h.withReader h₁⟩
  · obtain ⟨rfl, rfl⟩ := hlast hread (by rintro t ⟨⟩)
    obtain ⟨r₁', hread', h₁⟩ := h.reader_extends.read hread (.inl rfl)
    simp only [Preprocessor.step, hread, hread']
    exact ⟨rfl, h.withReader h₁⟩

end Preprocessor

end ErlangMacros
