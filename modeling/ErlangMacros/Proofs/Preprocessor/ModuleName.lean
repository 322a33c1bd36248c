import ErlangMacros.Proofs.Preprocessor.Interpretation

/-!
# Which module attribute names the module

The preprocessor finds the name of the module in the tokens that it emits.  It watches the three tokens behind a hyphen
that starts a form, whether they belong to that form or not, and starts over with the first form behind them.  So an
attribute of less than four tokens hides the start of the next form.  `noticed` keeps the forms whose start is seen, and
the last module attribute among these names the module (`run_names_noticed_module`).

`ModuleWatch` is the part of the state that this is about.  First the tokens of a run are followed in it
(`Reads.emits_watching`), and then the forms (`takeAll_forms`).
-/

namespace ErlangMacros

namespace Preprocessor

/-! ### Module attributes among forms -/

/-- The form starts with a hyphen. -/
def isAttribute (form : List Token) : Bool :=
  form.head?.any (·.isSymbol "-")

/-- The module name that the tokens behind a hyphen give. -/
def namedBy (tokens : List Token) : Option Text :=
  (moduleAttribute? tokens).bind (·.value.toOption)

/-- The module name that a form gives: the value of the atom behind `-module(`. -/
def moduleOf? : List Token → Option Text
  | hyphen :: keyword :: paren :: name :: _ =>
    if hyphen.isSymbol "-" then namedBy [keyword, paren, name] else none
  | _ => none

/-- The module name in the last module attribute. -/
def lastModule? (forms : List (List Token)) : Option Text :=
  (forms.filterMap moduleOf?).getLast?

/-- The forms whose start is seen.  Behind the hyphen of such a form three tokens are watched, of which `left` are left, and
the forms that start among these are overlooked. -/
def noticed (left : Nat) : List (List Token) → List (List Token)
  | [] => []
  | form :: forms =>
    if 0 < left then noticed (left - form.length) forms
    else form :: noticed (if isAttribute form then 4 - form.length else 0) forms

private theorem lastModule?_cons (form : List Token) (forms : List (List Token)) :
    lastModule? (form :: forms) = (lastModule? forms).or (moduleOf? form) := by
  unfold lastModule?
  rcases hname : moduleOf? form with _ | name
  · rw [List.filterMap_cons_none hname, Option.or_none]
  · rw [List.filterMap_cons_some hname, List.getLast?_cons]
    cases (forms.filterMap moduleOf?).getLast? <;> rfl

/-- If no attribute is short, no form is overlooked. -/
theorem noticed_eq_self {forms : List (List Token)}
    (h : ∀ form ∈ forms, isAttribute form = true → 4 ≤ form.length) : noticed 0 forms = forms := by
  induction forms with
  | nil => rfl
  | cons form forms ih =>
    obtain ⟨hform, hforms⟩ := List.forall_mem_cons.1 h
    have hleft : (if isAttribute form then 4 - form.length else 0) = 0 := by
      split
      · next hattribute => exact Nat.sub_eq_zero_of_le (hform hattribute)
      · rfl
    rw [noticed, if_neg (Nat.lt_irrefl 0), hleft, ih hforms]

private theorem namedBy_stop {tokens : List Token} (h : ∃ t ∈ tokens, t.isSymbol "." = true) :
    namedBy tokens = none := by
  rw [namedBy, moduleAttribute?_stop h]
  rfl

/-! ### Watching tokens -/

/-- The name of the module so far, and the tokens that are watched. -/
structure ModuleWatch where
  moduleName : Option Text
  watched : Option (List Token)

/-- The part of a state that is about the module name. -/
def moduleWatch (p : Preprocessor) : ModuleWatch :=
  ⟨p.moduleName, p.watched⟩

namespace ModuleWatch

/-- Watch a token. -/
def take (m : ModuleWatch) (atFormStart : Bool) (t : Token) : ModuleWatch :=
  match m.watched with
  | some seen =>
    if (seen ++ [t]).length = 3 then ⟨(namedBy (seen ++ [t])).or m.moduleName, none⟩
    else { m with watched := some (seen ++ [t]) }
  | none => if atFormStart && t.isSymbol "-" then { m with watched := some [] } else m

/-- Watch tokens in order. -/
def takeAll : ModuleWatch → Bool → List Token → ModuleWatch
  | m, _, [] => m
  | m, atFormStart, t :: ts => takeAll (m.take atFormStart t) (t.isSymbol ".") ts

variable {m : ModuleWatch} {name : Option Text} {t : Token} {ts us seen form : List Token} {left : Nat}

private theorem takeAll_append_cons (m : ModuleWatch) (b : Bool) (us : List Token) (t : Token) (ts : List Token) :
    takeAll m b (us ++ t :: ts) = takeAll (takeAll m b (us ++ [t])) (t.isSymbol ".") ts := by
  induction us generalizing m b with
  | nil => rfl
  | cons u us ih => exact ih _ _

/-- Behind a form the watch goes on at the start of the next one. -/
theorem takeAll_append_form (m : ModuleWatch) (b : Bool) (hform : IsForm form) (ts : List Token) :
    takeAll m b (form ++ ts) = takeAll (takeAll m b form) true ts := by
  obtain ⟨init, stop, rfl, hstop, -⟩ := hform
  rw [List.append_assoc, List.singleton_append, takeAll_append_cons, hstop]

/-- Inside of a form nothing starts to be watched. -/
theorem takeAll_idle (h : Token.StopsLast (t :: ts)) : takeAll ⟨name, none⟩ (t.isSymbol ".") ts = ⟨name, none⟩ := by
  induction ts generalizing t with
  | nil => rfl
  | cons u ts ih =>
    rw [h.head (List.cons_ne_nil u ts)]
    exact ih h.tail

/-- Three tokens are watched in all. -/
theorem takeAll_watching (b : Bool) (hseen : seen.length < 3) (hus : Token.StopsLast us) :
    takeAll ⟨name, some seen⟩ b us =
      if (seen ++ us).length < 3 then ⟨name, some (seen ++ us)⟩
      else ⟨(namedBy ((seen ++ us).take 3)).or name, none⟩ := by
  induction us generalizing seen b with
  | nil => rw [List.append_nil, if_pos hseen, takeAll]
  | cons t us ih =>
    have hmore : seen ++ t :: us = seen ++ [t] ++ us := by simp
    rw [takeAll, take, hmore]
    dsimp only
    by_cases hthird : (seen ++ [t]).length = 3
    · have hlong : ¬ (seen ++ [t] ++ us).length < 3 := by
        rw [List.length_append]
        omega
      rw [if_pos hthird, if_neg hlong, takeAll_idle hus, List.take_left' hthird]
    · have hshort : (seen ++ [t]).length < 3 := by
        rw [List.length_append, List.length_singleton] at hthird ⊢
        omega
      rw [if_neg hthird, ih _ hshort hus.tail]

/-! ### Watching forms -/

/-- At the start of a form nothing is watched, or else `left` tokens are left to be watched for a form that has ended. -/
inductive Awaits : Nat → ModuleWatch → Prop where
  | idle (name : Option Text) : Awaits 0 ⟨name, none⟩
  | watching (name : Option Text) {left : Nat} {seen : List Token} (length_lt : seen.length < 3)
      (length_add : seen.length + left = 3) (stops : ∃ t ∈ seen, t.isSymbol "." = true) :
      Awaits left ⟨name, some seen⟩

/-- A form that starts among the tokens that are watched is overlooked. -/
theorem takeAll_overlooked (h : Awaits left m) (hleft : 0 < left) (hform : Token.StopsLast form) :
    (takeAll m true form).moduleName = m.moduleName ∧ Awaits (left - form.length) (takeAll m true form) := by
  cases h with
  | idle name => omega
  | @watching name left seen hlength hadd hstops =>
    rw [takeAll_watching true hlength hform]
    have htotal : (seen ++ form).length = seen.length + form.length := List.length_append
    obtain ⟨t, ht, hstop⟩ := hstops
    split
    · next hshort =>
      exact ⟨rfl, .watching name hshort (by omega) ⟨t, List.mem_append_left _ ht, hstop⟩⟩
    · next hlong =>
      -- the full stop among the tokens keeps them from being a module attribute
      have hmem : t ∈ (seen ++ form).take 3 := by
        rw [List.take_append, List.take_of_length_le (by omega)]
        exact List.mem_append_left _ ht
      have hzero : left - form.length = 0 := by omega
      rw [namedBy_stop ⟨t, hmem, hstop⟩, Option.none_or, hzero]
      exact ⟨rfl, .idle name⟩

private theorem moduleOf?_cons (hhyphen : t.isSymbol "-" = true) (ts : List Token) :
    moduleOf? (t :: ts) = if ts.length < 3 then none else namedBy (ts.take 3) := by
  rcases ts with _ | ⟨_, _ | ⟨_, _ | ⟨_, us⟩⟩⟩
  · rfl
  · rfl
  · rfl
  · rw [moduleOf?, if_pos hhyphen, if_neg (by simp)]
    rfl

private theorem moduleOf?_eq_none (h : isAttribute form = false) : moduleOf? form = none := by
  unfold moduleOf?
  split
  · next hyphen _ _ _ _ =>
    have hhyphen : hyphen.isSymbol "-" = false := h
    rw [if_neg (by rw [hhyphen]; exact Bool.false_ne_true)]
  · rfl

/-- A form whose start is seen names the module, if it is a module attribute.  If it is a short attribute, some tokens are
left to be watched. -/
theorem takeAll_noticed (name : Option Text) (hform : Token.StopsLast form) :
    (takeAll ⟨name, none⟩ true form).moduleName = (moduleOf? form).or name ∧
      (IsForm form → Awaits (if isAttribute form then 4 - form.length else 0) (takeAll ⟨name, none⟩ true form)) := by
  cases form with
  | nil => exact ⟨rfl, fun _ => .idle name⟩
  | cons t us =>
    by_cases hhyphen : t.isSymbol "-" = true
    · have hplain : t.isSymbol "." = false := Token.isSymbol_eq_false hhyphen (by decide)
      have hattribute : isAttribute (t :: us) = true := hhyphen
      have htake : take ⟨name, none⟩ true t = ⟨name, some []⟩ := by simp [take, hhyphen]
      rw [takeAll, htake, takeAll_watching _ (by decide) hform.tail, List.nil_append, moduleOf?_cons hhyphen,
        if_pos hattribute]
      by_cases hshort : us.length < 3
      · rw [if_pos hshort, if_pos hshort]
        refine ⟨rfl, fun hwhole => .watching name hshort (by rw [List.length_cons]; omega) ?_⟩
        obtain ⟨init, stop, hsplit, hstop, -⟩ := hwhole
        have hmem : stop ∈ t :: us := by rw [hsplit]; simp
        refine ⟨stop, (List.mem_cons.1 hmem).resolve_left ?_, hstop⟩
        rintro rfl
        rw [hstop] at hplain
        cases hplain
      · have hzero : 4 - (t :: us).length = 0 := by
          rw [List.length_cons]
          omega
        rw [if_neg hshort, if_neg hshort, hzero]
        exact ⟨rfl, fun _ => .idle _⟩
    · have hattribute : isAttribute (t :: us) = false := by simpa [isAttribute] using hhyphen
      have htake : take ⟨name, none⟩ true t = ⟨name, none⟩ := by simp [take, hhyphen]
      rw [takeAll, htake, takeAll_idle hform, moduleOf?_eq_none hattribute, hattribute]
      exact ⟨rfl, fun _ => .idle name⟩

/-- The last module attribute that is noticed names the module. -/
theorem takeAll_forms (h : Awaits left m) (ts : List Token) :
    (takeAll m true ts).moduleName = (lastModule? (noticed left (forms ts))).or m.moduleName := by
  induction ts using forms_induction generalizing left m with
  | nil => rfl
  | form form rest hform hforms ih =>
    have hlast : Token.StopsLast form := by
      obtain ⟨init, stop, rfl, -, hinit⟩ := hform
      rwa [Token.StopsLast, List.dropLast_concat]
    rw [hforms, takeAll_append_form m true hform, noticed]
    by_cases hleft : 0 < left
    · obtain ⟨hname, hawaits⟩ := takeAll_overlooked h hleft hlast
      rw [if_pos hleft, ih hawaits, hname]
    · cases h with
      | idle name =>
        obtain ⟨hname, hawaits⟩ := takeAll_noticed name hlast
        rw [if_neg hleft, ih (hawaits hform), hname, lastModule?_cons, Option.or_assoc]
      | watching => omega
  | last ts _ hplain hforms =>
    have hlast : Token.StopsLast ts := fun t ht => hplain t (List.mem_of_mem_dropLast ht)
    rw [hforms, noticed]
    by_cases hleft : 0 < left
    · rw [if_pos hleft, (takeAll_overlooked h hleft hlast).1]
      rfl
    · cases h with
      | idle name =>
        rw [if_neg hleft, (takeAll_noticed name hlast).1, lastModule?_cons]
        rfl
      | watching => omega

end ModuleWatch

/-! ### Runs -/

variable {w : World} {p : Preprocessor} {env : Environment} {t : Token} {ts before : List Token}

/-- A token that is emitted is watched. -/
theorem moduleWatch_emit (hfixed : p.moduleFixed = false) {b : Bool} (h : (p.emit t b).outcome = .emit t) :
    (p.emit t b).state.moduleWatch = p.moduleWatch.take b t := by
  unfold emit at h ⊢
  rw [if_neg (by rw [hfixed]; exact Bool.false_ne_true)] at h ⊢
  unfold moduleWatch ModuleWatch.take
  rcases hwatched : p.watched with _ | seen
  · dsimp only
    split
    · rfl
    · rw [hwatched]
  · rw [hwatched] at h
    dsimp only at h ⊢
    split
    · next hlength =>
      rw [if_pos hlength] at h
      rcases hmodule : moduleAttribute? (seen ++ [t]) with _ | name
      · simp only [namedBy, hmodule, Option.bind_none, Option.none_or]
      · rw [hmodule] at h
        dsimp only at h
        rcases hvalue : name.value with e | moduleName
        · rw [hvalue] at h
          cases h
        · simp only [namedBy, hmodule, hvalue, Option.bind_some, Except.toOption, Option.some_or]
    · rfl

/-- The tokens of forms that are no directives are emitted and watched in order. -/
theorem Reads.emits_watching (h : Reads env false before ts p) (hactive : env.isActive = true)
    (hbefore : ∀ t ∈ before, t.isSymbol "." = false) (hquestion : ∀ t ∈ ts, t.isSymbol "?" = false)
    (hdirective : ∀ form ∈ forms (before ++ ts), isDirective form = false)
    (hname : ∀ form ∈ forms (before ++ ts), misnamesModule form = false) :
    ∃ before' q, Emits w p ts q ∧ Reads env false before' [] q ∧
      q.moduleWatch = p.moduleWatch.takeAll before.isEmpty ts := by
  induction ts generalizing p before with
  | nil => exact ⟨before, p, .refl p, h, rfl⟩
  | cons t ts ih =>
    obtain ⟨ht, hquestion⟩ := List.forall_mem_cons.1 hquestion
    have hno : before = [] → isDirective (t :: ts) = false := by
      rintro rfl
      exact isDirective_eq_false_of_forms hdirective
    obtain ⟨more, rest, hforms⟩ := exists_forms_append t ts hbefore
    have hfirst : misnamesModule (before ++ t :: more) = false := hname _ (by rw [hforms]; exact List.mem_cons_self)
    obtain ⟨houtcome, hstate⟩ := h.step_emit (w := w) hactive ht hno (.inr hfirst)
    obtain ⟨r, told, -, hstep⟩ := h.step_eq_emit (w := w) hactive ht hno
    have hwatch : (step w p).state.moduleWatch = p.moduleWatch.take before.isEmpty t := by
      rw [hstep] at houtcome ⊢
      exact moduleWatch_emit (p := { p with reader := r, formStart := t.isSymbol "." }) h.moduleFixed_eq houtcome
    by_cases hstop : t.isSymbol "." = true
    · -- the next form starts
      rw [if_pos hstop] at hstate
      rw [forms_append_stop ts hbefore hstop] at hdirective hname
      obtain ⟨before', q, hemits, hq, hlast⟩ := ih hstate (List.forall_mem_nil _) hquestion
        (List.forall_mem_cons.1 hdirective).2 (List.forall_mem_cons.1 hname).2
      refine ⟨before', q, .emit houtcome hemits, hq, ?_⟩
      rw [hlast, hwatch, ModuleWatch.takeAll, hstop]
      rfl
    · rw [if_neg hstop] at hstate
      have hbefore' : ∀ u ∈ before ++ [t], u.isSymbol "." = false :=
        List.forall_mem_append.2 ⟨hbefore, by simpa using hstop⟩
      have hsame : before ++ t :: ts = before ++ [t] ++ ts := by simp
      rw [hsame] at hdirective hname
      obtain ⟨before', q, hemits, hq, hlast⟩ := ih hstate hbefore' hquestion hdirective hname
      refine ⟨before', q, .emit houtcome hemits, hq, ?_⟩
      have hinside : (before ++ [t]).isEmpty = false := by simp
      rw [hlast, hwatch, ModuleWatch.takeAll, hinside, Bool.eq_false_iff.2 hstop]

private theorem moduleName_step_end (h : p.reader.AwaitsInput []) : (step w p).state.moduleName = p.moduleName := by
  obtain ⟨r, hread, -⟩ := h.read_end true
  simp only [step, hread]
  split <;> rfl

/-- Without macro calls and directives all tokens are emitted.  If the module name is not given, then afterwards it is
the one in the last module attribute that is noticed, and there is none if no module attribute is noticed.  Every form
is noticed if there are at least four tokens in each one that starts with a hyphen. -/
theorem run_names_noticed_module {tokens : List Token} {options : Options} {finder : Finder} {es : List Event}
    (hstart : start { tokens } options finder = (.ok p, es)) (hmodule : options.moduleName = none)
    (hquestion : ∀ t ∈ tokens, t.isSymbol "?" = false) (hdirective : ∀ form ∈ forms tokens, isDirective form = false)
    (hname : ∀ form ∈ forms tokens, misnamesModule form = false) :
    (∃ last : Preprocessor, last.moduleName = lastModule? (noticed 0 (forms tokens)) ∧
        ∃ bound es', ∀ fuel ≥ bound, p.run w fuel = ⟨tokens, .stop, last, es'⟩) ∧
      ((∀ form ∈ forms tokens, isAttribute form = true → 4 ≤ form.length) →
        lastModule? (noticed 0 (forms tokens)) = lastModule? (forms tokens)) := by
  refine ⟨?_, fun hlong => by rw [noticed_eq_self hlong]⟩
  have hdone : p.done = false := (isSound_start hstart).done_eq
  have hreads : Reads { macros := p.macros, filename := options.filename } false [] tokens p ∧
      p.moduleWatch = ⟨none, none⟩ := by
    obtain ⟨macros, -, rfl⟩ := start_eq hstart
    refine ⟨⟨⟨⟨rfl, rfl, rfl⟩, rfl, rfl, rfl⟩, rfl, Conditional.Stack.isConsistent_empty, rfl, ?_, .inr nofun⟩, ?_⟩
    · show options.moduleName.isSome = false
      rw [hmodule]
      rfl
    · show (⟨options.moduleName, none⟩ : ModuleWatch) = _
      rw [hmodule]
  obtain ⟨hreads, hwatch⟩ := hreads
  obtain ⟨before', q, hemits, hq, hlast⟩ := hreads.emits_watching (w := w) rfl (List.forall_mem_nil _) hquestion hdirective
    hname
  obtain ⟨hending, -⟩ := step_end (w := w) hq.reader
  rw [hq.environment_eq] at hending
  refine ⟨(step w q).state.close, ?_, hemits.run_eq hending (RunEnd.isDefinite_of_step hq.reader.isErrorFree hending) hdone⟩
  calc (step w q).state.moduleName = q.moduleWatch.moduleName := moduleName_step_end hq.reader
    _ = (ModuleWatch.takeAll ⟨none, none⟩ true tokens).moduleName := by rw [hlast, hwatch]; rfl
    _ = lastModule? (noticed 0 (forms tokens)) := by rw [ModuleWatch.takeAll_forms (.idle none), Option.or_none]

/-- Three tokens are watched behind the hyphen of the second form, up to the start of the fourth one, which is
overlooked. -/
theorem run_names_noticed_module_earlier :
    let tokens := (Lexing.ofText "-module(a). -. . -module(c).").tokens
    let w : World := { workingDirectory := ⟨.root, []⟩ }
    let p := initial { tokens } {} (.fixed [])
    (∀ t ∈ tokens, t.isSymbol "?" = false) ∧ (∀ form ∈ forms tokens, isDirective form = false) ∧
      (∀ form ∈ forms tokens, misnamesModule form = false) ∧ lastModule? (forms tokens) = some "c" ∧
      ∃ last : Preprocessor, last.moduleName = some "a" ∧
        ∃ bound es, ∀ fuel ≥ bound, p.run w fuel = ⟨tokens, .stop, last, es⟩ := by
  intro tokens w p
  have hstart : start { tokens } {} (.fixed []) = (.ok p, []) := rfl
  have hquestion : ∀ t ∈ tokens, t.isSymbol "?" = false := by decide +kernel
  have hdirective : ∀ form ∈ forms tokens, isDirective form = false := by decide +kernel
  have hname : ∀ form ∈ forms tokens, misnamesModule form = false := by decide +kernel
  have hnoticed : lastModule? (noticed 0 (forms tokens)) = some "a" := by decide +kernel
  obtain ⟨last, hlast, hrun⟩ := (run_names_noticed_module (w := w) hstart rfl hquestion hdirective hname).1
  exact ⟨hquestion, hdirective, hname, by decide +kernel, last, hlast.trans hnoticed, hrun⟩

/-- An attribute of three tokens hides the module attribute behind it. -/
theorem short_attribute_hides_module :
    let stream := Lexing.ofText "-a. -module(m)."
    let w : World := { workingDirectory := ⟨.root, []⟩ }
    let p := initial stream {} (.fixed [])
    start stream {} (.fixed []) = (.ok p, []) ∧ lastModule? (forms stream.tokens) = some "m" ∧
      (∀ t ∈ stream.tokens, t.isSymbol "?" = false) ∧ (∀ form ∈ forms stream.tokens, isDirective form = false) ∧
      (p.run w 10).ending = .stop ∧ (p.run w 10).tokens = stream.tokens ∧ (p.run w 10).state.moduleName = none := by
  decide +kernel

end Preprocessor

end ErlangMacros
