import ErlangMacros.Preprocessor.Run
import ErlangMacros.Proofs.Finder.Memory
import ErlangMacros.Proofs.Macro.Rewriting
import ErlangMacros.Proofs.Token.Lexeme

/-!
# What a step does to the reader

A step of a run reads one token and then takes a directive, a call or nothing more.  `Reader.Advance` lists what that
can do to what waits to be read, with one constructor for each kind of step, and `advance_step` says that every step
which does not end the run is of one of these kinds.  What holds throughout a run follows from it, case by case.
-/

namespace ErlangMacros

namespace Reader

/-- What is read after the name of a macro. -/
inductive Applies (r : Reader) : Reader → Prop where
  | bare : Applies r r
  /-- What follows is looked at, but not read. -/
  | looked : Applies r r.peek.2
  | applied {r' : Reader} {cs : List Consumed} (arguments : Takes r.peek.2 cs r')
      (closes : ∃ c ∈ cs.getLast?, c.token.isSymbol ")" = true) : Applies r r'
  /-- The arguments fit no variant of the macro. -/
  | putBack {r' : Reader} {cs : List Consumed} (arguments : Takes r.peek.2 cs r') : Applies r (r'.unread cs)

/-- The tokens of a directive are read, all from one source. -/
structure Collects (r r' : Reader) where
  {hyphen : Token}
  {first : Reader}
  {rest : List Consumed}
  read : r.read = (.token hyphen, first)
  fromSource : first.depth = 0
  takes : Takes first.peek.2 rest r'
  size_eq : r'.inclusion.size = first.inclusion.size

/-- A directive changes what waits to be read only by opening a file that was found.  The names and lines that the
current source reports may change. -/
inductive Evaluates (w : World) (finder : Finder) (r : Reader) : Reader → Prop where
  | same : Evaluates w finder r r
  | file (name : Text) (line directiveLine : Int) :
      Evaluates w finder r
        { r with inclusion :=
            { r.inclusion with current := r.inclusion.current.setFile name line directiveLine } }
  | included {library : Bool} {name text : Text} {directory : Option Path} {path : Path} {position : Position}
      {i : Inclusion} (found : (finder.find w library name directory).1 = .ok (some path))
      (text_eq : w.readText path.toString = .ok text)
      (push : r.inclusion.push (.ofText text (some path.toString) (some position)) = .ok i) :
      Evaluates w finder r { r with inclusion := i }

/-- What a step can make of what waits to be read; `limit` bounds the depth of expansions. -/
inductive Advance (w : World) (finder : Finder) (limit : DepthLimit) (r : Reader) : Reader → Prop where
  | token {t : Token} {r₁ : Reader} (read : r.read = (.token t, r₁)) : Advance w finder limit r r₁
  /-- A hyphen starts no directive. -/
  | looked {t : Token} {r₁ : Reader} (read : r.read = (.token t, r₁)) : Advance w finder limit r r₁.peek.2
  | directive {r₁ r₂ : Reader} (collects : Collects r r₁) (evaluates : Evaluates w finder r₁ r₂) :
      Advance w finder limit r r₂
  | expanded {question name : Token} {r₁ r₂ r₃ : Reader} {f : ExpansionFrame}
      (read : r.read = (.token question, r₁)) (readName : r₁.read = (.token name, r₂)) (applies : r₂.Applies r₃)
      (depth_eq : f.depth = r₁.depth + 1) (callSite_eq : f.callSite = some (r₁.callSite.getD question.position))
      (depth_le : f.depth ≤ limit.value) : Advance w finder limit r (r₃.push f)

end Reader

namespace Expansion

variable {ctx : Context} {site : Site} {name : Text} {nameToken : Token} {r r' : Reader} {call : Call}

theorem snd_lookedUp (args : Option (List (List Token))) (r : Reader) :
    (lookedUp ctx site name nameToken args r).2 = r := by
  unfold lookedUp
  split <;> rfl

/-- Choosing a variant reads nothing.  It may put the arguments back. -/
theorem snd_choose (ctx : Context) (site : Site) (name : Text) (nameToken : Token)
    (arguments : Option Reader.Arguments) (r : Reader) :
    (choose ctx site name nameToken arguments r).2 = r ∨
      ∃ a, arguments = some a ∧ (choose ctx site name nameToken arguments r).2 = r.unread a.consumed := by
  cases arguments with
  | none => exact .inl (snd_lookedUp none r)
  | some a =>
    rw [choose_some]
    split
    · exact .inr ⟨a, rfl, snd_lookedUp none _⟩
    · exact .inl (snd_lookedUp (some a.args) r)

theorem takes_readArguments {arities : List Arity} {arguments : Option Reader.Arguments}
    (h : readArguments site arities r = (.ok arguments, r')) :
    (arguments = none ∧ r' = r.peek.2) ∨
      ∃ a, arguments = some a ∧ Reader.Takes r.peek.2 a.consumed r' ∧
        ∃ c ∈ a.consumed.getLast?, c.token.isSymbol ")" = true := by
  unfold readArguments at h
  rcases hpeek : r.peek with ⟨t | _ | e, r₁⟩ <;> rw [hpeek] at h <;> dsimp only at h
  · split at h
    · rcases hargs : r₁.arguments site.question with ⟨f | a, r₂⟩ <;> rw [hargs] at h
      · simp at h
      · obtain ⟨rfl, rfl⟩ : some a = arguments ∧ r₂ = r' := by simpa using h
        exact .inr ⟨a, rfl, Reader.takes_arguments hargs, Reader.getLast?_arguments hargs⟩
    · obtain ⟨rfl, rfl⟩ : none = arguments ∧ r₁ = r' := by simpa using h
      exact .inl ⟨rfl, rfl⟩
  · obtain ⟨rfl, rfl⟩ : none = arguments ∧ r₁ = r' := by simpa using h
    exact .inl ⟨rfl, rfl⟩
  · simp at h

/-- What is read after the name of a macro. -/
theorem applies_resolveName (h : resolveName ctx site name nameToken r = (.ok call, r')) : r.Applies r' := by
  unfold resolveName at h
  split at h
  · split at h
    · obtain ⟨-, rfl⟩ := Prod.mk.inj h
      exact .bare
    · simp at h
  · dsimp only at h
    split at h
    · simp at h
    · rcases hargs : readArguments site (ctx.macros.arities name) r with ⟨f | arguments, r₁⟩ <;> rw [hargs] at h
      · simp at h
      · have hchoose : r' = r₁ ∨ ∃ a, arguments = some a ∧ r' = r₁.unread a.consumed := by
          have := snd_choose ctx site name nameToken arguments r₁
          rwa [show choose ctx site name nameToken arguments r₁ = (.ok call, r') from h] at this
        rcases takes_readArguments hargs with ⟨rfl, rfl⟩ | ⟨a, rfl, htakes, hcloses⟩
        · rcases hchoose with rfl | ⟨b, hb, -⟩
          · exact .looked
          · cases hb
        · rcases hchoose with rfl | ⟨b, hb, rfl⟩
          · exact .applied htakes hcloses
          · cases hb
            exact .putBack htakes

/-- What is read for a call. -/
theorem applies_resolve (h : resolve ctx site r = (.ok call, r')) :
    ∃ t r₁, r.read = (.token t, r₁) ∧ r₁.Applies r' := by
  unfold resolve at h
  rcases hread : r.read with ⟨t | _ | e, r₁⟩ <;> rw [hread] at h <;> dsimp only at h
  · split at h
    · split at h
      · exact ⟨t, r₁, rfl, applies_resolveName h⟩
      · simp at h
    · simp at h
  · simp at h
  · simp at h

/-- What is pushed for a call: the tokens that replace it, at the depth and the site of the call. -/
theorem push_eq (h : push ctx site call r = .ok r') :
    ∃ tokens, call.meaning.tokens = .ok tokens ∧ site.depth ≤ ctx.limit.value ∧
      r' = r.push ⟨tokens, some call.name, site.depth, some site.callSite⟩ := by
  unfold push at h
  split at h
  · simp at h
  · next tokens htokens =>
    split at h
    · simp at h
    · next hdepth =>
      cases h
      exact ⟨tokens, htokens, Int.not_lt.1 hdepth, rfl⟩

end Expansion

namespace Preprocessor

/-- The run goes on after a step. -/
def Outcome.continues : Outcome → Bool
  | .emit _ => true
  | .proceed => true
  | .finish => false
  | .fail _ => false

/-- What every step keeps, whatever it comes to. -/
structure Keeps (w : World) (p p' : Preprocessor) : Prop where
  limit_eq : p'.limit = p.limit
  done_eq : p'.done = p.done
  resolvesNothing : p.finder.ResolvesNothing w → p'.finder.ResolvesNothing w
  isProper : p.macros.IsProper → p'.macros.IsProper

variable {w : World}

theorem Keeps.of_eq {p p' : Preprocessor} (hlimit : p'.limit = p.limit) (hdone : p'.done = p.done)
    (hfinder : p'.finder = p.finder) (hmacros : p'.macros = p.macros) : Keeps w p p' :=
  ⟨hlimit, hdone, fun h => hfinder ▸ h, fun h => hmacros ▸ h⟩

theorem Keeps.refl (p : Preprocessor) : Keeps w p p :=
  .of_eq rfl rfl rfl rfl

theorem Keeps.trans {p p' p'' : Preprocessor} (h : Keeps w p p') (h' : Keeps w p' p'') : Keeps w p p'' :=
  ⟨h'.limit_eq.trans h.limit_eq, h'.done_eq.trans h.done_eq, h'.resolvesNothing ∘ h.resolvesNothing,
    h'.isProper ∘ h.isProper⟩

/-! ### Emitting and expanding -/

private theorem keeps_emit (p : Preprocessor) (t : Token) (atFormStart : Bool) :
    Keeps w p (p.emit t atFormStart).state := by
  unfold emit
  split
  · exact .refl p
  · split
    · dsimp only
      split
      · split
        · split <;> exact .of_eq rfl rfl rfl rfl
        · exact .of_eq rfl rfl rfl rfl
      · exact .of_eq rfl rfl rfl rfl
    · split <;> exact .of_eq rfl rfl rfl rfl

private theorem reader_emit (p : Preprocessor) (t : Token) (atFormStart : Bool) :
    (p.emit t atFormStart).state.reader = p.reader := by
  unfold emit
  split
  · rfl
  · split
    · dsimp only
      split
      · split
        · split <;> rfl
        · rfl
      · rfl
    · split <;> rfl

private theorem keeps_expand (p : Preprocessor) (question : Token) : Keeps w p (p.expand question).state := by
  unfold expand
  dsimp only
  split
  · exact .of_eq rfl rfl rfl rfl
  · split <;> exact .of_eq rfl rfl rfl rfl

/-- A call that is expanded. -/
theorem expands_expand {p : Preprocessor} {question : Token} (h : (p.expand question).outcome.continues) :
    ∃ name r₁ r₂ f, p.reader.read = (.token name, r₁) ∧ r₁.Applies r₂ ∧ f.depth = p.reader.depth + 1 ∧
      f.callSite = some (p.reader.callSite.getD question.position) ∧ f.depth ≤ p.limit.value ∧
      (p.expand question).state.reader = r₂.push f := by
  unfold expand at h ⊢
  dsimp only at h ⊢
  split at h
  · cases h
  · next call hresolve =>
    split at h
    · cases h
    · next r hpush =>
      obtain ⟨t, r₁, hread, happlies⟩ := Expansion.applies_resolve (Prod.ext hresolve rfl)
      obtain ⟨tokens, -, hle, rfl⟩ := Expansion.push_eq hpush
      exact ⟨t, r₁, _, _, hread, happlies, rfl, rfl, hle, rfl⟩

/-! ### Directives -/

theorem collectRest_eq (keyword : Text) (last : Token) (r : Reader) :
    collectRest keyword last r =
      if r.repeats false then (.error (.fault .endless), r)
      else
        match r.read false with
        | (.failed e, r') => (.error (.ofLex e), r')
        | (.finished, r') => (.error (.diagnose (.missingStop keyword) (some last.position)), r')
        | (.token t, r') =>
          if t.isSymbol "." then (.ok [t], r')
          else ((collectRest keyword t r').1.map (t :: ·), (collectRest keyword t r').2) := by
  rw [collectRest]
  split
  · rfl
  · split <;> simp only [*]

/-- The rest of a directive is read from one source. -/
theorem takes_collectRest {keyword : Text} {last : Token} {r r' : Reader} {tokens : List Token}
    (h : collectRest keyword last r = (.ok tokens, r')) :
    ∃ cs, Reader.Takes r cs r' ∧ r'.inclusion.size = r.inclusion.size ∧ tokens = cs.map Consumed.token := by
  fun_induction collectRest keyword last r generalizing tokens with
  | case1 => simp at h
  | case2 => simp at h
  | case3 => simp at h
  | case4 last r hr t r₁ hread ht =>
    cases h
    exact ⟨_, .cons (Reader.read_of_read_false hread) (.nil _), Reader.size_of_read_false hread, rfl⟩
  | case5 last r hr t r₁ hread ht hlt rest r₂ hrest ih =>
    obtain ⟨hmap, rfl⟩ := Prod.mk.inj h
    cases rest with
    | error f => cases hmap
    | ok ts =>
      cases hmap
      obtain ⟨cs, htakes, hsize, rfl⟩ := ih hrest
      exact ⟨_, .cons (Reader.read_of_read_false hread) htakes, hsize.trans (Reader.size_of_read_false hread), rfl⟩

theorem snd_collect_none {r r' : Reader} {hyphen : Token} (h : collect r hyphen = (.ok none, r')) :
    r' = r.peek.2 := by
  unfold collect at h
  rcases hpeek : r.peek with ⟨t | _ | e, r₁⟩ <;> rw [hpeek] at h <;> dsimp only at h
  · split at h
    · split at h <;> simp at h
    · exact (Prod.mk.inj h).2.symm
  · exact (Prod.mk.inj h).2.symm
  · simp at h

theorem ne_nil_of_collectRest {keyword : Text} {last : Token} {r r' : Reader} {tokens : List Token}
    (h : collectRest keyword last r = (.ok tokens, r')) : tokens ≠ [] := by
  rw [collectRest_eq] at h
  split at h
  · cases h
  split at h
  · cases h
  · cases h
  split at h
  · cases h
    nofun
  · next t r₁ _ _ =>
    rcases hrest : (collectRest keyword t r₁).1 with f | ts <;> rw [hrest] at h <;> cases h
    nofun

/-- A directive has a keyword, and its rest is read from where the keyword was looked at. -/
theorem exists_of_collect_some {r r' : Reader} {hyphen : Token} {tokens : List Token}
    (h : collect r hyphen = (.ok (some tokens), r')) :
    ∃ t r₁ rest, r.peek = (.token t, r₁) ∧ t.kind = .atom ∧ (Keyword.ofText? t.text).isSome = true ∧
      collectRest t.text hyphen r₁ = (.ok rest, r') ∧ tokens = hyphen :: rest := by
  unfold collect at h
  rcases hpeek : r.peek with ⟨t | _ | e, r₁⟩ <;> rw [hpeek] at h <;> dsimp only at h
  · split at h
    · next hkeyword =>
      obtain ⟨hatom, hkeyword⟩ := Bool.and_eq_true_iff.1 hkeyword
      rcases hrest : collectRest t.text hyphen r₁ with ⟨f | rest, r₂⟩ <;> rw [hrest] at h <;> cases h
      exact ⟨t, r₁, rest, rfl, of_decide_eq_true hatom, hkeyword, hrest, rfl⟩
    · cases h
  · cases h
  · cases h

theorem takes_collect_some {r r' : Reader} {hyphen : Token} {tokens : List Token}
    (h : collect r hyphen = (.ok (some tokens), r')) :
    ∃ cs, Reader.Takes r.peek.2 cs r' ∧ r'.inclusion.size = r.inclusion.size ∧
      tokens = hyphen :: cs.map Consumed.token := by
  obtain ⟨t, r₁, rest, hpeek, -, -, hrest, rfl⟩ := exists_of_collect_some h
  obtain ⟨cs, htakes, hsize, rfl⟩ := takes_collectRest hrest
  rw [← r.size_inclusion_peek, hpeek]
  exact ⟨cs, htakes, hsize, rfl⟩

/-- What evaluating a directive keeps, and what it makes of the reader if it does not fail.  It does not end the run. -/
structure Evaluated (w : World) (p : Preprocessor) (s : Step) : Prop where
  keeps : Keeps w p s.state
  outcome_ne : s.outcome ≠ .finish
  evaluates : s.outcome.continues → p.reader.Evaluates w p.finder s.state.reader

private theorem evaluated_failed (p : Preprocessor) (f : Failure) : Evaluated w p (.failed p f) :=
  ⟨.refl p, nofun, nofun⟩

private theorem evaluated_withName {p : Preprocessor} {k : Text → Step} (t : Token)
    (h : ∀ name, Evaluated w p (k name)) : Evaluated w p (p.withName t k) := by
  unfold withName
  split
  · exact h _
  · exact evaluated_failed p _

private theorem evaluated_define (p : Preprocessor) (name : Token) (params : Option (List Token)) (body : List Token) :
    Evaluated w p (p.evalDefine name params body) := by
  unfold evalDefine
  split
  · exact evaluated_failed p _
  · split
    · next hdefine => exact ⟨⟨rfl, rfl, id, fun hm => hm.define hdefine⟩, nofun, fun _ => .same⟩
    · exact evaluated_failed p _

private theorem evaluated_undef (p : Preprocessor) (name : Text) (position : Position) :
    Evaluated w p (p.evalUndef name position) := by
  unfold evalUndef
  split
  · next hundef => exact ⟨⟨rfl, rfl, id, fun hm => hm.undef hundef⟩, nofun, fun _ => .same⟩
  · exact evaluated_failed p _

private theorem evaluated_conditional (p : Preprocessor) (stack : Except Error Conditional.Stack) :
    Evaluated w p (p.evalConditional stack) := by
  unfold evalConditional
  split
  · exact ⟨.of_eq rfl rfl rfl rfl, nofun, fun _ => .same⟩
  · exact evaluated_failed p _

private theorem evaluated_file (p : Preprocessor) (d : Directive) (name line : Token) :
    Evaluated w p (p.evalFile d name line) := by
  unfold evalFile
  split
  · exact ⟨.of_eq rfl rfl rfl rfl, nofun, fun _ => .file _ _ _⟩
  · exact evaluated_failed p _
  · exact evaluated_failed p _

/-- A file is entered that was found and can be read. -/
theorem reader_enter {p : Preprocessor} {path : Path} {position : Position}
    (h : (p.enter w path position).outcome.continues) :
    ∃ text i, w.readText path.toString = .ok text ∧
      p.reader.inclusion.push (.ofText text (some path.toString) (some position)) = .ok i ∧
      (p.enter w path position).state.reader = { p.reader with inclusion := i } := by
  unfold enter at h ⊢
  split at h
  · cases h
  · cases h
  · next text htext =>
    dsimp only at h ⊢
    split at h
    · next i hpush => exact ⟨text, i, htext, hpush, rfl⟩
    · cases h

private theorem keeps_enter (p : Preprocessor) (path : Path) (position : Position) :
    Keeps w p (p.enter w path position).state ∧ (p.enter w path position).outcome ≠ .finish := by
  unfold enter
  split
  · exact ⟨.refl p, nofun⟩
  · exact ⟨.refl p, nofun⟩
  · dsimp only
    split <;> exact ⟨.of_eq rfl rfl rfl rfl, nofun⟩

private theorem evaluated_include (p : Preprocessor) (library : Bool) (path : Token) (position : Position) :
    Evaluated w p (p.evalInclude w library path position) := by
  unfold evalInclude
  split
  · exact evaluated_failed p _
  · next name _ =>
    set directory := p.reader.inclusion.current.filename.map Path.directoryOf
    have hfind : Keeps w p { p with finder := (p.finder.find w library name directory).2 } :=
      ⟨rfl, rfl, fun h => h.find library name directory, id⟩
    dsimp only
    split
    · exact ⟨hfind, nofun, nofun⟩
    · exact ⟨hfind, nofun, nofun⟩
    · next file hfound =>
      obtain ⟨hkeeps, houtcome⟩ := keeps_enter (w := w) { p with finder := _ } file position
      refine ⟨hfind.trans hkeeps, houtcome, fun h => ?_⟩
      obtain ⟨text, i, htext, hpush, hreader⟩ := reader_enter h
      exact hreader ▸ .included hfound htext hpush

private theorem evaluated_evaluate (p : Preprocessor) (d : Directive) : Evaluated w p (evaluate w p d) := by
  unfold evaluate
  dsimp only
  split
  · exact evaluated_define p _ _ _
  · exact evaluated_withName _ fun name => evaluated_undef p name _
  · exact evaluated_withName _ fun name => evaluated_conditional p _
  · exact evaluated_withName _ fun name => evaluated_conditional p _
  · exact evaluated_conditional p _
  · exact evaluated_conditional p _
  · exact evaluated_include p _ _ _
  · exact evaluated_include p _ _ _
  · exact evaluated_failed p _
  · exact ⟨.of_eq rfl rfl rfl rfl, nofun, fun _ => .same⟩
  · exact evaluated_file p _ _ _

theorem evaluated_directive (p : Preprocessor) (tokens : List Token) : Evaluated w p (directive w p tokens) := by
  unfold directive
  dsimp only
  split
  · split
    · next d _ =>
      have hparsed : Keeps w p { p with formStart := true, directives := d :: p.directives } :=
        .of_eq rfl rfl rfl rfl
      have hd := evaluated_evaluate (w := w) { p with formStart := true, directives := d :: p.directives } d
      exact ⟨hparsed.trans hd.keeps, hd.outcome_ne, hd.evaluates⟩
    · exact ⟨.of_eq rfl rfl rfl rfl, nofun, nofun⟩
  · unfold skip
    split <;> exact ⟨.of_eq rfl rfl rfl rfl, nofun, fun _ => .same⟩

/-! ### Steps -/

private theorem keeps_ordinary (p : Preprocessor) (t : Token) : Keeps w p (p.ordinary t).state := by
  have hstart : Keeps w p { p with formStart := t.isSymbol "." } := .of_eq rfl rfl rfl rfl
  unfold ordinary
  dsimp only
  split
  · exact hstart
  · split
    · exact hstart.trans (keeps_expand _ t)
    · exact hstart.trans (keeps_emit _ t _)

private theorem keeps_take (p : Preprocessor) (t : Token) : Keeps w p (take w p t).state := by
  have hreader : ∀ r, Keeps w p { p with reader := r } := fun r => .of_eq rfl rfl rfl rfl
  unfold take
  split
  · split
    · exact hreader _
    · exact (hreader _).trans (keeps_ordinary _ t)
    · exact (hreader _).trans (evaluated_directive _ _).keeps
  · exact keeps_ordinary p t

/-- What every step keeps. -/
theorem keeps_step (w : World) (p : Preprocessor) : Keeps w p (step w p).state := by
  have hreader : ∀ r, Keeps w p { p with reader := r } := fun r => .of_eq rfl rfl rfl rfl
  unfold step
  dsimp only
  split
  · exact hreader _
  · split <;> exact hreader _
  · exact (hreader _).trans (keeps_take _ _)

/-- Only a question mark makes an ordinary token more than itself. -/
theorem reader_ordinary {p : Preprocessor} {t : Token} (ht : ¬ t.isSymbol "?") :
    (p.ordinary t).state.reader = p.reader := by
  unfold ordinary
  dsimp only
  split
  · rfl
  · exact reader_emit _ t _

private theorem advance_ordinary {p : Preprocessor} {t : Token} {r : Reader} (hread : r.read = (.token t, p.reader))
    (h : (p.ordinary t).outcome.continues) : r.Advance w p.finder p.limit (p.ordinary t).state.reader := by
  by_cases ht : t.isSymbol "?"
  · unfold ordinary at h ⊢
    dsimp only at h ⊢
    by_cases hactive : (!p.conditions.active) = true
    · rw [if_pos hactive]
      exact .token hread
    · rw [if_neg hactive, if_pos ht] at h ⊢
      obtain ⟨name, r₁, r₂, f, hname, happlies, hdepth, hsite, hle, hstate⟩ := expands_expand h
      rw [hstate]
      exact .expanded hread hname happlies hdepth hsite hle
  · rw [reader_ordinary ht]
    exact .token hread

private theorem advance_take {p : Preprocessor} {t : Token} {r : Reader} (hread : r.read = (.token t, p.reader))
    (h : (take w p t).outcome.continues) : r.Advance w p.finder p.limit (take w p t).state.reader := by
  unfold take at h ⊢
  by_cases hstart : (p.formStart && p.reader.fromSource && t.isSymbol "-") = true
  · rw [if_pos hstart] at h ⊢
    obtain ⟨⟨-, hsource⟩, hhyphen⟩ : (p.formStart = true ∧ p.reader.fromSource = true) ∧ t.isSymbol "-" = true := by
      simpa using hstart
    rcases hcollect : collect p.reader t with ⟨f | _ | tokens, r'⟩ <;> rw [hcollect] at h
    · cases h
    · -- the hyphen is an ordinary token then, and no question mark
      have ht : ¬ t.isSymbol "?" := by
        simp only [Token.isSymbol, Bool.and_eq_true, decide_eq_true_eq] at hhyphen ⊢
        simp [hhyphen.2]
      rw [reader_ordinary ht, snd_collect_none hcollect]
      exact .looked hread
    · obtain ⟨cs, htakes, hsize, -⟩ := takes_collect_some hcollect
      have hdepth : p.reader.depth = 0 := by simpa [Reader.fromSource] using hsource
      exact .directive ⟨hread, hdepth, htakes, hsize⟩ ((evaluated_directive _ tokens).evaluates h)
  · rw [if_neg hstart] at h ⊢
    exact advance_ordinary hread h

/-- A step after which the run goes on reads on. -/
theorem advance_step {p : Preprocessor} (h : (step w p).outcome.continues) :
    p.reader.Advance w p.finder p.limit (step w p).state.reader := by
  unfold step at h ⊢
  rcases hread : p.reader.read with ⟨t | _ | e, r⟩ <;> rw [hread] at h <;> dsimp only at h ⊢
  · exact advance_take hread h
  · split at h <;> cases h
  · cases h

end Preprocessor

end ErlangMacros
