import ErlangMacros.Proofs.Preprocessor.Extension
import ErlangMacros.Proofs.Preprocessor.Trace
import ErlangMacros.Proofs.Reader.Matching

/-!
# Runs with readers that match

A step of a run uses its reader only through operations that matching readers cannot tell apart.  So two states that
differ in their readers only, and match in these, go the same way and emit the same (`Emits.matching`), as long as the
first one stays within the set of readers for which the operations are known to agree.  Then the same tokens are taken and
the end is the same (`pulls_matching`).
-/

namespace ErlangMacros

open Reader (AgreesAt IsMatching IsReadMatching)

variable {R : Reader → Reader → Prop} {V : Reader → Prop}

namespace Expansion

variable {ctx : Context} {site : Site} {name : Text} {nameToken : Token}

private theorem agrees_readArguments (h : IsReadMatching R V) (site : Site) (arities : List Arity) (r : Reader) :
    AgreesAt R V (readArguments site arities) r := by
  refine .pull (fun t r₁ =>
      if t.isSymbol "(" && arities ≠ [none] then
        ((r₁.arguments site.question).1.map some, (r₁.arguments site.question).2)
      else (.ok none, r₁))
    (.ok none) (fun e => .error (.ofLex e)) (h.peek r) (fun r' _ => ?_) fun t r₁ _ => ?_
  · unfold readArguments
    rcases r'.peek with ⟨t | _ | e, r₁⟩
    · dsimp only [Reader.afterPull]
      split
      · rcases r₁.arguments site.question with ⟨f | a, r₂⟩ <;> rfl
      · rfl
    · rfl
    · rfl
  · split
    · exact (h.arguments site.question r₁).map (Except.map some)
    · exact .pure _ r₁

private theorem agrees_lookedUp (args : Option (List (List Token))) (r : Reader) :
    AgreesAt R V (lookedUp ctx site name nameToken args) r := by
  refine .const fun r' => ?_
  unfold lookedUp
  split <;> rfl

private theorem agrees_choose (h : IsReadMatching R V) (arguments : Option Reader.Arguments) (r : Reader) :
    AgreesAt R V (choose ctx site name nameToken arguments) r := by
  cases arguments with
  | none => exact agrees_lookedUp none r
  | some a =>
    unfold choose
    dsimp only
    split
    · exact (h.unread a.consumed r).bind (k := fun _ => lookedUp ctx site name nameToken none) (agrees_lookedUp none _)
    · exact agrees_lookedUp (some a.args) r

private theorem agrees_resolveName (h : IsReadMatching R V) (r : Reader) :
    AgreesAt R V (resolveName ctx site name nameToken) r := by
  unfold resolveName
  rcases Predefined.ofName? name with _ | p
  · dsimp only
    split
    · exact .pure _ r
    · refine .handle (choose ctx site name nameToken) .error
        (agrees_readArguments h site (ctx.macros.arities name) r) (fun r' _ => ?_) fun arguments r₁ _ => ?_
      · rcases readArguments site (ctx.macros.arities name) r' with ⟨f | arguments, r₁⟩ <;> rfl
      · exact agrees_choose h arguments r₁
  · -- what a predefined macro stands for depends only on the label of the source
    refine .of_eq (.ask (g := fun r => predefinedToken ctx r.inclusion.current site p)
      (k := fun t r => (t.map fun t => (⟨name, nameToken, .predefined t⟩ : Call), r))
      (fun r' hr => predefinedToken_congr (h.label_eq hr) p) (.pure _ r)) fun r' _ => ?_
    dsimp only
    rcases predefinedToken ctx r'.inclusion.current site p with f | t <;> rfl

/-- What a call means whose name has been read. -/
def resolveToken (ctx : Context) (site : Site) (t : Token) (r : Reader) : Except Failure Call × Reader :=
  if t.kind = .atom || t.kind = .var then
    match t.value with
    | .ok name => resolveName ctx site name t r
    | .error e => (.error (.fault (.escape e)), r)
  else (.error (.diagnose .missingMacroName (some t.position)), r)

theorem agrees_resolve (h : IsReadMatching R V) (ctx : Context) (site : Site) (r : Reader) :
    AgreesAt R V (resolve ctx site) r := by
  refine .pull (resolveToken ctx site) (.error (.diagnose .missingMacroName (some site.question.position)))
    (fun e => .error (.ofLex e)) (h.read true r) (fun r' _ => ?_) fun t r₁ _ => ?_
  · unfold resolve
    rcases r'.read with ⟨t | _ | e, r₁⟩ <;> rfl
  · unfold resolveToken
    split
    · rcases t.value with e | name
      · exact .pure _ r₁
      · exact agrees_resolveName h r₁
    · exact .pure _ r₁

/-- The expansion of a call, unless it is nested too deep. -/
def frame (ctx : Context) (site : Site) (call : Call) : Except Failure ExpansionFrame :=
  match call.meaning.tokens with
  | .error f => .error (.fault f)
  | .ok tokens =>
    if ctx.limit.value < site.depth then
      .error (.diagnose (.expansionTooDeep call.name ctx.limit site.callSite) (some site.question.position))
    else .ok ⟨tokens, some call.name, site.depth, some site.callSite⟩

theorem push_eq_frame (call : Call) (r : Reader) :
    push ctx site call r = (frame ctx site call).map fun f => r.push f := by
  unfold push frame
  rcases call.meaning.tokens with f | tokens
  · rfl
  · dsimp only
    split <;> rfl

end Expansion

namespace Preprocessor

variable {w : World} {p p' : Preprocessor}

/-! ### Reading directives -/

private theorem agrees_collectRest (h : IsReadMatching R V) (keyword : Text) (last : Token) (r : Reader) :
    AgreesAt R V (collectRest keyword last) r := by
  induction hsize : r.size using Nat.strong_induction_on generalizing last r with
  | _ size ih =>
    subst hsize
    have hsame : ∀ r', r' = r ∨ R r r' → r'.repeats false = r.repeats false := by
      rintro r' (rfl | hr')
      · rfl
      · exact h.repeats_eq false hr'
    by_cases hrepeats : r.repeats false = true
    · refine .of_eq (.pure (.error (.fault .endless)) r) fun r' hr' => ?_
      rw [collectRest_eq, hsame r' hr', if_pos hrepeats]
    · refine .pull (fun t r₁ =>
          if t.isSymbol "." then (.ok [t], r₁)
          else ((collectRest keyword t r₁).1.map (t :: ·), (collectRest keyword t r₁).2))
        (.error (.diagnose (.missingStop keyword) (some last.position))) (fun e => .error (.ofLex e)) (h.read false r)
        (fun r' hr' => ?_) fun t r₁ hread => ?_
      · rw [collectRest_eq, hsame r' hr', if_neg hrepeats]
        rcases r'.read false with ⟨t | _ | e, r₁⟩ <;> rfl
      · split
        · exact .pure _ r₁
        · exact (ih r₁.size (Reader.size_read hread (by simpa using hrepeats)) t r₁ rfl).map _

theorem agrees_collect (h : IsReadMatching R V) (hyphen : Token) (r : Reader) :
    AgreesAt R V (fun r => collect r hyphen) r := by
  refine .pull (fun t r₁ =>
      if t.kind = .atom && (Keyword.ofText? t.text).isSome then
        ((collectRest t.text hyphen r₁).1.map fun rest => some (hyphen :: rest), (collectRest t.text hyphen r₁).2)
      else (.ok none, r₁))
    (.ok none) (fun e => .error (.ofLex e)) (h.peek r) (fun r' _ => ?_) fun t r₁ _ => ?_
  · unfold collect
    rcases r'.peek with ⟨t | _ | e, r₁⟩
    · dsimp only [Reader.afterPull]
      split
      · rcases collectRest t.text hyphen r₁ with ⟨f | rest, r₂⟩ <;> rfl
      · rfl
    · rfl
    · rfl
  · split
    · exact (agrees_collectRest h t.text hyphen r₁).map _
    · exact .pure _ r₁

/-! ### Steps -/

/-- The state but for its reader. -/
def rest (p : Preprocessor) : Reader → Preprocessor :=
  fun reader => { p with reader }

/-- A step as a computation with the reader, which gives what the step comes to and the rest of the state. -/
def Step.parted (s : Step) : (Outcome × (Reader → Preprocessor)) × Reader :=
  ((s.outcome, s.state.rest), s.state.reader)

/-- What comes of a call whose meaning is known.  `outermost` says that its question mark was read from a source. -/
def expandCall (p : Preprocessor) (site : Expansion.Site) (outermost : Bool) (c : Expansion.Call) (r : Reader) :
    (Outcome × (Reader → Preprocessor)) × Reader :=
  match Expansion.frame p.context site c with
  | .error f => ((.fail f, p.rest), r)
  | .ok f =>
    let calls := if outermost then ⟨site.question, c.nameToken, c.args⟩ :: p.calls else p.calls
    ((.proceed, rest { p with calls }), r.push f)

private theorem agrees_expand (h : IsMatching R V) (p : Preprocessor) (question : Token) (r : Reader) :
    AgreesAt R V (fun r => (expand { p with reader := r } question).parted) r := by
  -- where the question mark was read is the same
  have hplace : ∀ r', r' = r ∨ R r r' →
      Expansion.Site.ofReader r' question = .ofReader r question ∧ r'.fromSource = r.fromSource := by
    rintro r' (rfl | hr)
    · exact ⟨rfl, rfl⟩
    · obtain ⟨hdepth, hsite⟩ := h.place_eq hr
      simp only [Expansion.Site.ofReader, Reader.fromSource, hdepth, hsite, and_self]
  refine .handle (p.expandCall (.ofReader r question) r.fromSource) (fun f => (.fail f, p.rest))
    (Expansion.agrees_resolve h.toIsReadMatching p.context (.ofReader r question) r) (fun r' hr' => ?_) fun c r₁ _ => ?_
  · obtain ⟨hsite, hsource⟩ := hplace r' hr'
    simp only [expand, Expansion.push_eq_frame, hsite, hsource]
    have hcontext : context { p with reader := r' } = p.context := rfl
    rw [hcontext]
    rcases Expansion.resolve p.context (.ofReader r question) r' with ⟨f | c, r₁⟩
    · rfl
    · simp only [Reader.afterResult, expandCall]
      rcases Expansion.frame p.context (.ofReader r question) c with f | f <;> rfl
  · unfold expandCall
    rcases Expansion.frame p.context (.ofReader r question) c with f | f <;> dsimp only
    · exact .pure _ r₁
    · exact (h.push f r₁).map fun _ => _

/-- A conditional, a definition or a message does not touch the reader. -/
theorem agrees_withName {F : Reader → Text → Step} (p : Preprocessor) (t : Token) (r : Reader)
    (hF : ∀ name, AgreesAt R V (fun r => (F r name).parted) r) :
    AgreesAt R V (fun r => (withName { p with reader := r } t (F r)).parted) r := by
  unfold withName
  rcases t.nameValue with e | name
  · exact .const fun _ => rfl
  · exact hF name

private theorem agrees_conditional (p : Preprocessor) (stack : Except Error Conditional.Stack) (r : Reader) :
    AgreesAt R V (fun r => (evalConditional { p with reader := r } stack).parted) r := by
  cases stack <;> exact .const fun _ => rfl

private theorem agrees_define (p : Preprocessor) (name : Token) (params : Option (List Token)) (body : List Token)
    (r : Reader) : AgreesAt R V (fun r => (evalDefine { p with reader := r } name params body).parted) r := by
  unfold evalDefine
  rcases Macro.make name params body with e | m
  · exact .const fun _ => rfl
  · dsimp only
    rcases p.macros.define m with e | macros <;> exact .const fun _ => rfl

private theorem agrees_undef (p : Preprocessor) (name : Text) (position : Position) (r : Reader) :
    AgreesAt R V (fun r => (evalUndef { p with reader := r } name position).parted) r := by
  unfold evalUndef
  dsimp only
  rcases p.macros.undef name (some position) with e | macros <;> exact .const fun _ => rfl

private theorem agrees_file (h : IsMatching R V) (p : Preprocessor) (d : Directive) (name line : Token) (r : Reader) :
    AgreesAt R V (fun r => (evalFile { p with reader := r } d name line).parted) r := by
  unfold evalFile
  rcases name.value with e | filename
  · exact .const fun _ => rfl
  · rcases integerValue? line.text with _ | n
    · exact .const fun _ => rfl
    · exact (h.report filename n d.lastLine r).map fun _ => (Outcome.proceed, p.rest)

theorem agrees_enter (h : IsMatching R V) (w : World) (p : Preprocessor) (path : Path) (position : Position)
    (r : Reader) : AgreesAt R V (fun r => (enter { p with reader := r } w path position).parted) r := by
  unfold enter
  rcases w.readText path.toString with e | text
  · cases e <;> exact .const fun _ => rfl
  · refine .handle (fun _ r₁ => ((.proceed, p.rest), r₁)) (fun e => (.fail (.error e), p.rest))
      (h.enter (.ofText text (some path.toString) (some position)) r) (fun r' _ => ?_) fun _ r₁ _ => .pure _ r₁
    unfold Reader.enter
    dsimp only
    rcases r'.inclusion.push (.ofText text (some path.toString) (some position)) with e | i <;> rfl

private theorem agrees_include (h : IsMatching R V) (w : World) (p : Preprocessor) (library : Bool) (path : Token)
    (position : Position) (r : Reader) :
    AgreesAt R V (fun r => (evalInclude { p with reader := r } w library path position).parted) r := by
  unfold evalInclude
  rcases path.value with e | name
  · exact .const fun _ => rfl
  · -- the file is looked for from the same directory
    have hfilename : ∀ r', r' = r ∨ R r r' → r'.inclusion.current.filename = r.inclusion.current.filename := by
      rintro r' (rfl | hr)
      · rfl
      · exact congrArg Source.Label.filename (h.label_eq hr)
    rcases hfind : p.finder.find w library name (r.inclusion.current.filename.map Path.directoryOf) with
      ⟨f | _ | file, finder⟩
    · refine .of_eq (.pure (Outcome.fail (.fault f), rest { p with finder }) r) fun r' hr' => ?_
      simp only [hfilename r' hr', hfind]
      rfl
    · refine .of_eq (.pure (Outcome.fail (.diagnose (.includeNotFound name) (some position)), rest { p with finder }) r)
        fun r' hr' => ?_
      simp only [hfilename r' hr', hfind]
      rfl
    · refine .of_eq (agrees_enter h w { p with finder } file position r) fun r' hr' => ?_
      simp only [hfilename r' hr', hfind]
      rfl

/-- Directives are evaluated alike. -/
theorem agrees_evaluate (h : IsMatching R V) (w : World) (p : Preprocessor) (d : Directive) (r : Reader) :
    AgreesAt R V (fun r => (evaluate w { p with reader := r } d).parted) r := by
  unfold evaluate
  rcases d.action with ⟨name, params, body⟩ | name | name | name | _ | _ | path | path | message | message |
    ⟨name, line⟩
  case define => exact agrees_define p name params body r
  case undef => exact agrees_withName p name r fun n => agrees_undef p n d.position r
  case ifdef =>
    exact agrees_withName p name r fun n =>
      agrees_conditional p (.ok (p.conditions.push (p.macros.isDefined n) (some d.position))) r
  case ifndef =>
    exact agrees_withName p name r fun n =>
      agrees_conditional p (.ok (p.conditions.push (!p.macros.isDefined n) (some d.position))) r
  case otherwise => exact agrees_conditional p (p.conditions.flip (some d.position)) r
  case endif => exact agrees_conditional p (p.conditions.close (some d.position)) r
  case includeFile => exact agrees_include h w p false path d.position r
  case includeLib => exact agrees_include h w p true path d.position r
  case error => exact .const fun _ => rfl
  case warning => exact .const fun _ => rfl
  case file => exact agrees_file h p d name line r

private theorem agrees_directive (h : IsMatching R V) (w : World) (p : Preprocessor) (tokens : List Token)
    (r : Reader) : AgreesAt R V (fun r => (directive w { p with reader := r } tokens).parted) r := by
  unfold directive
  dsimp only
  split
  · rcases Directive.parse tokens with f | d
    · exact .const fun _ => rfl
    · exact agrees_evaluate h w { p with formStart := true, directives := d :: p.directives } d r
  · unfold skip
    split <;> exact .const fun _ => rfl

private theorem agrees_emit (p : Preprocessor) (t : Token) (atFormStart : Bool) (r : Reader) :
    AgreesAt R V (fun r => (emit { p with reader := r } t atFormStart).parted) r := by
  unfold emit
  dsimp only
  split
  · exact .const fun _ => rfl
  · split
    · split
      · split
        · split <;> exact .const fun _ => rfl
        · exact .const fun _ => rfl
      · exact .const fun _ => rfl
    · split <;> exact .const fun _ => rfl

/-- A token that starts no directive is taken alike. -/
theorem agrees_ordinary (h : IsMatching R V) (p : Preprocessor) (t : Token) (r : Reader) :
    AgreesAt R V (fun r => (ordinary { p with reader := r } t).parted) r := by
  unfold ordinary
  dsimp only
  split
  · exact .const fun _ => rfl
  · split
    · exact agrees_expand h { p with formStart := t.isSymbol "." } t r
    · exact agrees_emit { p with formStart := t.isSymbol "." } t p.formStart r

/-- What comes of a hyphen at the start of a form, with what was collected behind it. -/
def takeCollected (w : World) (p : Preprocessor) (hyphen : Token) (collected : Option (List Token)) (r : Reader) :
    (Outcome × (Reader → Preprocessor)) × Reader :=
  match collected with
  | none => (ordinary { p with reader := r } hyphen).parted
  | some tokens => (directive w { p with reader := r } tokens).parted

private theorem agrees_take (h : IsMatching R V) (w : World) (p : Preprocessor) (t : Token) (r : Reader) :
    AgreesAt R V (fun r => (take w { p with reader := r } t).parted) r := by
  have hsource : ∀ r', r' = r ∨ R r r' → r'.fromSource = r.fromSource := by
    rintro r' (rfl | hr)
    · rfl
    · simp only [Reader.fromSource, (h.place_eq hr).1]
  by_cases hstart : (p.formStart && r.fromSource && t.isSymbol "-") = true
  · refine .handle (takeCollected w p t) (fun f => (.fail f, p.rest)) (agrees_collect h.toIsReadMatching t r)
      (fun r' hr' => ?_) fun collected r₁ _ => ?_
    · simp only [take, hsource r' hr', hstart, if_true]
      rcases collect r' t with ⟨f | _ | tokens, r₁⟩ <;> rfl
    · cases collected with
      | none => exact agrees_ordinary h p t r₁
      | some tokens => exact agrees_directive h w p tokens r₁
  · refine .of_eq (agrees_ordinary h p t r) fun r' hr' => ?_
    simp only [take, hsource r' hr', hstart, Bool.false_eq_true, if_false]

/-- What comes of the end of all sources. -/
def finished (p : Preprocessor) : Outcome × (Reader → Preprocessor) :=
  match p.conditions.finish with
  | .ok () => (.finish, p.rest)
  | .error e => (.fail (.error e), p.rest)

/-- A step does the same with readers that match. -/
theorem agrees_step (h : IsMatching R V) (w : World) (p : Preprocessor) (r : Reader) :
    AgreesAt R V (fun r => (step w { p with reader := r }).parted) r := by
  refine .pull (fun t r₁ => (take w { p with reader := r₁ } t).parted) p.finished
    (fun e => (.fail (.ofLex e), p.rest)) (h.read true r) (fun r' _ => ?_) fun t r₁ _ => agrees_take h w p t r₁
  unfold step
  dsimp only
  rcases r'.read with ⟨t | _ | e, r₁⟩
  · rfl
  · unfold Reader.afterPull finished
    rcases p.conditions.finish with e | _ <;> rfl
  · rfl

/-! ### Runs -/

private theorem step_matching {r' : Reader} (h : IsMatching R V) (hr : R p.reader r') (hV : V (step w p).state.reader) :
    (step w { p with reader := r' }).outcome = (step w p).outcome ∧
      ∃ r₁, (step w { p with reader := r' }).state = { (step w p).state with reader := r₁ } ∧
        R (step w p).state.reader r₁ := by
  obtain ⟨hparted, hreader⟩ := (agrees_step h w p p.reader).same r' hr hV
  obtain ⟨houtcome, hstate⟩ := Prod.mk.inj hparted
  exact ⟨houtcome, _, congrFun hstate _, hreader⟩

theorem Emits.back {us : List Token} (h : IsMatching R V) (hemits : Emits w p us p') (hV : V p'.reader) :
    V p.reader := by
  induction hemits with
  | refl => exact hV
  | @emit p _ _ _ _ _ ih => exact (agrees_step h w p p.reader).back (ih hV)
  | @proceed p _ _ _ _ ih => exact (agrees_step h w p p.reader).back (ih hV)

/-- Two states that differ in their readers only, and match in these, go the same way. -/
theorem Emits.matching {us : List Token} {r' : Reader} (h : IsMatching R V) (hemits : Emits w p us p')
    (hr : R p.reader r') (hV : V p'.reader) :
    ∃ r₁, Emits w { p with reader := r' } us { p' with reader := r₁ } ∧ R p'.reader r₁ := by
  induction hemits generalizing r' with
  | refl p => exact ⟨r', .refl _, hr⟩
  | emit hemit hrest ih =>
    obtain ⟨houtcome, r₁, hstate, hr₁⟩ := step_matching h hr (hrest.back h hV)
    obtain ⟨r₂, hemits, hr₂⟩ := ih hr₁ hV
    refine ⟨r₂, .emit (houtcome.trans hemit) ?_, hr₂⟩
    rw [hstate]
    exact hemits
  | proceed hproceed hrest ih =>
    obtain ⟨houtcome, r₁, hstate, hr₁⟩ := step_matching h hr (hrest.back h hV)
    obtain ⟨r₂, hemits, hr₂⟩ := ih hr₁ hV
    refine ⟨r₂, .proceed (houtcome.trans hproceed) ?_, hr₂⟩
    rw [hstate]
    exact hemits

/-- The second state differs from the first in its reader only, which matches or has been cleared like the other. -/
def DiffersBy (R : Reader → Reader → Prop) (p p' : Preprocessor) : Prop :=
  ∃ r, p' = { p with reader := r } ∧ (R p.reader r ∨ r = p.reader)

/-- The next token is the same, and after it the readers match again. -/
theorem next_matching {r' : Reader} {count : Nat} (fuel : Nat) (h : IsMatching R V)
    (hclear : ∀ {r r'}, R r r' → r'.clear = r.clear) (hr : R p.reader r')
    (hV : Within w (count + 1) (fun q => V (step w q).state.reader) p) :
    (next w fuel { p with reader := r' }).answer = (next w fuel p).answer ∧
      DiffersBy R (next w fuel p).state (next w fuel { p with reader := r' }).state ∧
      ∀ t, (next w fuel p).answer = .token t →
        (∃ r₁, (next w fuel { p with reader := r' }).state = { (next w fuel p).state with reader := r₁ } ∧
          R (next w fuel p).state.reader r₁) ∧
        Within w count (fun q => V (step w q).state.reader) (next w fuel p).state := by
  induction fuel generalizing p r' with
  | zero =>
    unfold next
    dsimp only
    by_cases hdone : p.done = true
    · rw [if_pos hdone, if_pos hdone]
      exact ⟨rfl, ⟨r', rfl, .inl hr⟩, fun t ht => by cases ht⟩
    · rw [if_neg hdone, if_neg hdone]
      exact ⟨rfl, ⟨r', rfl, .inl hr⟩, fun t ht => by cases ht⟩
  | succ fuel ih =>
    unfold next
    dsimp only
    by_cases hdone : p.done = true
    · rw [if_pos hdone, if_pos hdone]
      exact ⟨rfl, ⟨r', rfl, .inl hr⟩, fun t ht => by cases ht⟩
    · rw [if_neg hdone, if_neg hdone]
      obtain ⟨houtcome, r₁, hstate, hr₁⟩ := step_matching h hr hV.head
      have hclose : ({ (step w p).state with reader := r₁ } : Preprocessor).close = (step w p).state.close := by
        simp only [close, hclear hr₁]
      rw [houtcome, hstate]
      rcases hresult : (step w p).outcome with t | _ | _ | f
      · exact ⟨rfl, ⟨r₁, rfl, .inl hr₁⟩, fun t _ => ⟨⟨r₁, rfl, hr₁⟩, hV.emit hresult⟩⟩
      · exact ih hr₁ (hV.proceed hresult)
      · dsimp only
        rw [hclose]
        exact ⟨rfl, ⟨_, rfl, .inr rfl⟩, fun t ht => by cases ht⟩
      · dsimp only
        rw [hclose]
        exact ⟨rfl, ⟨_, rfl, .inr rfl⟩, fun t ht => by cases ht⟩

/-- The same tokens are taken, and the end is the same. -/
theorem pulls_matching {r' : Reader} {count fuel : Nat} (h : IsMatching R V)
    (hclear : ∀ {r r'}, R r r' → r'.clear = r.clear) (hr : R p.reader r')
    (hV : Within w count (fun q => V (step w q).state.reader) p) :
    (pulls w fuel count { p with reader := r' }).tokens = (pulls w fuel count p).tokens ∧
      (pulls w fuel count { p with reader := r' }).ending = (pulls w fuel count p).ending ∧
      DiffersBy R (pulls w fuel count p).state (pulls w fuel count { p with reader := r' }).state := by
  induction count generalizing p r' with
  | zero => exact ⟨rfl, rfl, r', rfl, .inl hr⟩
  | succ count ih =>
    obtain ⟨hanswer, hdiffers, htoken⟩ := next_matching fuel h hclear hr hV
    rw [pulls_succ, pulls_succ]
    unfold Next.resume
    rw [hanswer]
    rcases hresult : (next w fuel p).answer with t | _ | f | _
    · obtain ⟨⟨r₁, hstate, hr₁⟩, hrest⟩ := htoken t hresult
      obtain ⟨htokens, hending, hlater⟩ := ih hr₁ hrest
      dsimp only
      rw [hstate]
      exact ⟨congrArg (t :: ·) htokens, hending, hlater⟩
    · exact ⟨rfl, rfl, hdiffers⟩
    · exact ⟨rfl, rfl, hdiffers⟩
    · exact ⟨rfl, rfl, hdiffers⟩

end Preprocessor

end ErlangMacros
