import ErlangMacros.Proofs.Preprocessor.Completion
import ErlangMacros.Proofs.Reader.Passage

/-!
# Forms

Tokens fall into forms, each of which ends with a full stop (`forms`), and what holds of tokens can be shown form by form
(`forms_induction`).  Outside of all expansions the preprocessor takes a form that is a directive in one step
(`step_form_directive`), and any other form token by token.  While tokens are suppressed, a form that is no conditional
changes nothing but the place in its source (`emits_skip_form`).
-/

namespace ErlangMacros

namespace Preprocessor

/-! ### Splitting into forms -/

/-- Tokens split into forms. -/
def forms : List Token → List (List Token)
  | [] => []
  | t :: ts =>
    if t.isSymbol "." then [t] :: forms ts
    else
      match forms ts with
      | [] => [[t]]
      | f :: fs => (t :: f) :: fs

/-- The tokens are one form: they end with their only full stop. -/
def IsForm (form : List Token) : Prop :=
  ∃ init stop, form = init ++ [stop] ∧ stop.isSymbol "." = true ∧ ∀ t ∈ init, t.isSymbol "." = false

/-- The tokens are whole forms. -/
def IsComplete (ts : List Token) : Prop :=
  ∀ t ∈ ts.getLast?, t.isSymbol "." = true

instance (ts : List Token) : Decidable (IsComplete ts) :=
  inferInstanceAs (Decidable (∀ t ∈ ts.getLast?, t.isSymbol "." = true))

/-- A form is a directive by its first two tokens. -/
def isDirective : List Token → Bool
  | hyphen :: keyword :: _ => startsDirective hyphen keyword
  | _ => false

/-- Tokens start with a form, unless there is no full stop among them. -/
theorem forms_cases (ts : List Token) :
    ts = [] ∨ (∃ form rest, IsForm form ∧ ts = form ++ rest ∧ forms ts = form :: forms rest) ∨
      ts ≠ [] ∧ (∀ t ∈ ts, t.isSymbol "." = false) ∧ forms ts = [ts] := by
  induction ts with
  | nil => exact .inl rfl
  | cons t ts ih =>
    by_cases hstop : t.isSymbol "." = true
    · refine .inr (.inl ⟨[t], ts, ⟨[], t, rfl, hstop, List.forall_mem_nil _⟩, rfl, ?_⟩)
      rw [forms, if_pos hstop]
    · have ht : t.isSymbol "." = false := by simpa using hstop
      rw [forms, if_neg hstop]
      rcases ih with rfl | ⟨form, rest, ⟨init, stop, rfl, hlast, hinit⟩, rfl, hforms⟩ | ⟨-, hplain, hforms⟩
      · exact .inr (.inr ⟨List.cons_ne_nil _ _, by simpa using ht, rfl⟩)
      · rw [hforms]
        exact .inr (.inl ⟨t :: (init ++ [stop]), rest,
          ⟨t :: init, stop, rfl, hlast, List.forall_mem_cons.2 ⟨ht, hinit⟩⟩, rfl, rfl⟩)
      · rw [hforms]
        exact .inr (.inr ⟨List.cons_ne_nil _ _, List.forall_mem_cons.2 ⟨ht, hplain⟩, rfl⟩)

theorem IsForm.length_lt {form : List Token} (h : IsForm form) (ts : List Token) : ts.length < (form ++ ts).length := by
  obtain ⟨init, stop, rfl, -⟩ := h
  rw [List.length_append, List.length_append, List.length_singleton]
  omega

/-- Induction on tokens by their forms: the first form is taken away, until there is no full stop left. -/
@[elab_as_elim]
theorem forms_induction {P : List Token → Prop} (nil : P [])
    (form : ∀ form rest, IsForm form → forms (form ++ rest) = form :: forms rest → P rest → P (form ++ rest))
    (last : ∀ ts, ts ≠ [] → (∀ t ∈ ts, t.isSymbol "." = false) → forms ts = [ts] → P ts) (ts : List Token) : P ts := by
  induction hlength : ts.length using Nat.strong_induction_on generalizing ts with
  | _ length ih =>
    subst hlength
    rcases forms_cases ts with rfl | ⟨form₁, rest, hform, rfl, hforms⟩ | ⟨hne, hplain, hforms⟩
    · exact nil
    · exact form form₁ rest hform hforms (ih rest.length (hform.length_lt rest) rest rfl)
    · exact last ts hne hplain hforms

theorem flatten_forms (ts : List Token) : (forms ts).flatten = ts := by
  induction ts using forms_induction with
  | nil => rfl
  | form form rest _ hforms ih => rw [hforms, List.flatten_cons, ih]
  | last ts _ _ hforms => rw [hforms, List.flatten_singleton]

/-- Tokens are in the first form up to its full stop. -/
theorem forms_append_stop {before : List Token} {stop : Token} (ts : List Token)
    (hbefore : ∀ t ∈ before, t.isSymbol "." = false) (hstop : stop.isSymbol "." = true) :
    forms (before ++ stop :: ts) = (before ++ [stop]) :: forms ts := by
  induction before with
  | nil => rw [List.nil_append, forms, if_pos hstop, List.nil_append]
  | cons t before ih =>
    obtain ⟨ht, hbefore⟩ := List.forall_mem_cons.1 hbefore
    rw [List.cons_append, forms, ih hbefore, if_neg (by rw [ht]; exact Bool.false_ne_true)]
    rfl

/-- The first form starts with the tokens before the full stop. -/
theorem exists_forms_append {before : List Token} (t : Token) (ts : List Token)
    (hbefore : ∀ t ∈ before, t.isSymbol "." = false) :
    ∃ more rest, forms (before ++ t :: ts) = (before ++ t :: more) :: rest := by
  induction before with
  | nil =>
    rw [List.nil_append, forms]
    split
    · exact ⟨_, _, rfl⟩
    · split
      · exact ⟨_, _, rfl⟩
      · exact ⟨_, _, rfl⟩
  | cons u before ih =>
    obtain ⟨hu, hbefore⟩ := List.forall_mem_cons.1 hbefore
    obtain ⟨more, rest, hforms⟩ := ih hbefore
    refine ⟨more, rest, ?_⟩
    rw [List.cons_append, forms, hforms, if_neg (by rw [hu]; exact Bool.false_ne_true)]
    rfl

/-- Whole forms are split into forms. -/
theorem isForm_of_mem_forms {ts : List Token} (h : IsComplete ts) : ∀ form ∈ forms ts, IsForm form := by
  induction ts using forms_induction with
  | nil => exact List.forall_mem_nil _
  | form form rest hform hforms ih =>
    have hrest : IsComplete rest := fun t ht => h t (by rw [List.getLast?_append, ht]; rfl)
    rw [hforms]
    exact List.forall_mem_cons.2 ⟨hform, ih hrest⟩
  | last ts hne hplain _ =>
    -- the last token would be a full stop
    have hlast := h (ts.getLast hne) (List.getLast?_eq_some_getLast hne)
    rw [hplain _ (List.getLast_mem hne)] at hlast
    cases hlast

variable {w : World} {p : Preprocessor} {t stop : Token} {ts init form : List Token}

/-! ### Tokens of the current source -/

/-- A token of the current source that starts no directive is taken by itself. -/
theorem step_current (hr : p.reader.IsOutside) (h : p.reader.inclusion.current.remaining = t :: ts)
    (hno : p.formStart = true → t.isSymbol "-" = true → isDirective (t :: ts) = false ∧
      (ts ≠ [] ∨ p.reader.inclusion.outer = [] ∧ p.reader.inclusion.current.stream.ending = .finished)) :
    ∃ r told, p.reader.Passes ts r ∧ step w p = (ordinary { p with reader := r } t).after told := by
  obtain ⟨r, hread, hpasses⟩ := hr.read_current h true
  by_cases hhyphen : (p.formStart && r.fromSource && t.isSymbol "-") = true
  · simp only [Bool.and_eq_true] at hhyphen
    obtain ⟨⟨hstart, -⟩, hhyphen⟩ := hhyphen
    obtain ⟨hkeyword, hmore⟩ := hno hstart hhyphen
    obtain ⟨r', hcollect, hpasses'⟩ : ∃ r', collect r t = (.ok none, r') ∧ r.Passes ts r' := by
      cases ts with
      | nil =>
        obtain ⟨houter, hending⟩ := hmore.resolve_left fun h => h rfl
        obtain ⟨r', hpeek, hpasses'⟩ := hpasses.isOutside.peek_end hpasses.remaining_eq
          (hpasses.current.ending_eq.trans hending) (hpasses.outer_eq.trans houter)
        exact ⟨r', by simp only [collect, hpeek], hpasses'⟩
      | cons u us =>
        obtain ⟨r', hpeek, hpasses'⟩ := hpasses.isOutside.peek_current hpasses.remaining_eq
        rw [isDirective, startsDirective, hhyphen, Bool.true_and] at hkeyword
        exact ⟨r', by simp only [collect, hpeek, hkeyword, Bool.false_eq_true, if_false], hpasses'⟩
    refine ⟨r', _, hpasses.trans hpasses', (step_token hread).trans (congrArg _ ?_)⟩
    simp only [take, hstart, hhyphen, hpasses.isOutside.fromSource_eq, Bool.and_self, if_true, hcollect]
  · refine ⟨r, _, hpasses, (step_token hread).trans (congrArg _ ?_)⟩
    rw [take, if_neg hhyphen]

/-- A directive is read up to its full stop. -/
theorem collectRest_current (keyword : Text) (last : Token) {r : Reader} (hr : r.IsOutside)
    (h : r.inclusion.current.remaining = init ++ stop :: ts) (hstop : stop.isSymbol "." = true)
    (hinit : ∀ t ∈ init, t.isSymbol "." = false) :
    ∃ r', collectRest keyword last r = (.ok (init ++ [stop]), r') ∧ r.Passes ts r' := by
  induction init generalizing r last with
  | nil =>
    obtain ⟨r', hread, hpasses⟩ := hr.read_current h false
    refine ⟨r', ?_, hpasses⟩
    simp only [collectRest_eq keyword last r, Reader.repeats_eq_false h, Bool.false_eq_true, if_false, hread, hstop,
      if_true, List.nil_append]
  | cons t init ih =>
    obtain ⟨ht, hinit⟩ := List.forall_mem_cons.1 hinit
    obtain ⟨r₁, hread, hpasses⟩ := hr.read_current h false
    obtain ⟨r', hrest, hpasses'⟩ := ih t hpasses.isOutside hpasses.remaining_eq hinit
    refine ⟨r', ?_, hpasses.trans hpasses'⟩
    simp only [collectRest_eq keyword last r, Reader.repeats_eq_false h, Bool.false_eq_true, if_false, hread, ht, hrest,
      Except.map, List.cons_append]

/-- A directive without a full stop is read to the end of the input. -/
theorem collectRest_end (keyword : Text) (last : Token) {r : Reader} (h : r.AwaitsInput init)
    (hinit : ∀ t ∈ init, t.isSymbol "." = false) :
    ∃ r', collectRest keyword last r =
      (.error (.diagnose (.missingStop keyword) (some (init.getLast?.getD last).position)), r') ∧ r.Passes [] r' := by
  induction init generalizing r last with
  | nil =>
    obtain ⟨r', hread, hpasses⟩ := h.read_end false
    refine ⟨r', ?_, hpasses⟩
    simp only [collectRest_eq keyword last r, h.repeats_eq, Bool.false_eq_true, if_false, hread, List.getLast?_nil,
      Option.getD_none]
  | cons t init ih =>
    obtain ⟨ht, hinit⟩ := List.forall_mem_cons.1 hinit
    obtain ⟨r₁, hread, hpasses⟩ := h.isOutside.read_current h.remaining_eq false
    obtain ⟨r', hrest, hpasses'⟩ := ih t (h.passes hpasses) hinit
    refine ⟨r', ?_, hpasses.trans hpasses'⟩
    simp only [collectRest_eq keyword last r, h.repeats_eq, Bool.false_eq_true, if_false, hread, ht, hrest,
      Except.map, List.getLast?_cons, Option.getD_some]

/-- A form that is a directive is taken in one step. -/
theorem step_form_directive (hr : p.reader.IsOutside) (hstart : p.formStart = true)
    (h : p.reader.inclusion.current.remaining = form ++ ts) (hform : IsForm form) (hdirective : isDirective form = true) :
    ∃ r told, p.reader.Passes ts r ∧ step w p = (directive w { p with reader := r } form).after told := by
  obtain ⟨init, stop, rfl, hstop, hinit⟩ := hform
  match init, hdirective with
  | [keyword], hdirective =>
    -- the full stop is no keyword
    simp only [isDirective, List.cons_append, List.nil_append, startsDirective, Bool.and_eq_true,
      decide_eq_true_eq] at hdirective
    simp [Token.isSymbol, hdirective.2.1, Kind.isSymbol] at hstop
  | hyphen :: keyword :: init, hdirective =>
    simp only [isDirective, List.cons_append, startsDirective, Bool.and_eq_true, decide_eq_true_eq] at hdirective
    rw [List.append_assoc] at h
    obtain ⟨r, hread, hpasses⟩ := hr.read_current h true
    obtain ⟨r₁, hpeek, hpasses₁⟩ := hpasses.isOutside.peek_current hpasses.remaining_eq
    have hremaining : r₁.inclusion.current.remaining = (keyword :: init) ++ stop :: ts := hpasses₁.remaining_eq
    obtain ⟨r₂, hrest, hpasses₂⟩ := collectRest_current keyword.text hyphen hpasses₁.isOutside hremaining hstop
      (List.forall_mem_cons.1 hinit).2
    have hcollect : collect r hyphen = (.ok (some (hyphen :: keyword :: init ++ [stop])), r₂) := by
      simp only [collect, hpeek, hdirective.2, decide_true, Bool.and_self, if_true, hrest, List.cons_append]
    refine ⟨r₂, _, (hpasses.trans hpasses₁).trans hpasses₂, (step_token hread).trans (congrArg _ ?_)⟩
    simp only [take, hstart, hpasses.isOutside.fromSource_eq, hdirective.1, Bool.and_self, if_true, hcollect]

/-- A directive that lacks its full stop fails. -/
theorem step_unterminated (h : p.reader.AwaitsInput form) (hstart : p.formStart = true)
    (hdirective : isDirective form = true) (hform : ∀ t ∈ form, t.isSymbol "." = false) :
    ∃ r told, p.reader.Passes [] r ∧ step w p = (Step.failed { p with reader := r }
      (.diagnose (.missingStop ((form[1]?.map (·.text)).getD "")) (form.getLast?.map (·.position)))).after told := by
  match form, hdirective with
  | hyphen :: keyword :: init, hdirective =>
    simp only [isDirective, startsDirective, Bool.and_eq_true, decide_eq_true_eq] at hdirective
    obtain ⟨r, hread, hpasses⟩ := h.isOutside.read_current h.remaining_eq true
    obtain ⟨r₁, hpeek, hpasses₁⟩ := hpasses.isOutside.peek_current hpasses.remaining_eq
    obtain ⟨r₂, hrest, hpasses₂⟩ := collectRest_end keyword.text hyphen ((h.passes hpasses).passes hpasses₁)
      (List.forall_mem_cons.1 hform).2
    have hcollect : collect r hyphen = (.error (.diagnose (.missingStop keyword.text)
        (some ((keyword :: init).getLast?.getD hyphen).position)), r₂) := by
      simp only [collect, hpeek, hdirective.2, decide_true, Bool.and_self, if_true, hrest]
    refine ⟨r₂, _, (hpasses.trans hpasses₁).trans hpasses₂, (step_token hread).trans (congrArg _ ?_)⟩
    simp only [take, hstart, hpasses.isOutside.fromSource_eq, hdirective.1, Bool.and_self, if_true, hcollect,
      List.getLast?_cons]
    rfl

/-! ### Forms that are suppressed -/

/-- A suppressed token that starts no directive is dropped. -/
theorem step_drop (hactive : p.conditions.active = false) (hr : p.reader.IsOutside)
    (h : p.reader.inclusion.current.remaining = t :: ts)
    (hno : p.formStart = true → t.isSymbol "-" = true → isDirective (t :: ts) = false ∧
      (ts ≠ [] ∨ p.reader.inclusion.outer = [] ∧ p.reader.inclusion.current.stream.ending = .finished)) :
    ∃ r, p.reader.Passes ts r ∧ (step w p).outcome = .proceed ∧
      (step w p).state = { p with reader := r, formStart := t.isSymbol "." } := by
  obtain ⟨r, told, hpasses, hstep⟩ := step_current (w := w) hr h hno
  refine ⟨r, hpasses, ?_⟩
  rw [hstep]
  simp only [ordinary, hactive, Bool.not_false, if_true]
  exact ⟨rfl, rfl⟩

/-- Suppressed tokens before the end of a form are dropped. -/
theorem emits_drop (hactive : p.conditions.active = false) (hr : p.reader.IsOutside)
    (h : p.reader.inclusion.current.remaining = init ++ ts) (hinit : ∀ t ∈ init, t.isSymbol "." = false)
    (hno : p.formStart = true → isDirective (init ++ ts) = false)
    (hmore : ts ≠ [] ∨ p.reader.inclusion.outer = [] ∧ p.reader.inclusion.current.stream.ending = .finished) :
    ∃ r, p.reader.Passes ts r ∧ Emits w p [] { p with reader := r, formStart := p.formStart && init.isEmpty } := by
  induction init generalizing p with
  | nil =>
    refine ⟨p.reader, hr.passes h, ?_⟩
    rw [List.isEmpty_nil, Bool.and_true]
    exact .refl p
  | cons t init ih =>
    obtain ⟨ht, hinit⟩ := List.forall_mem_cons.1 hinit
    obtain ⟨r, hpasses, hproceed, hstate⟩ := step_drop (w := w) hactive hr h fun hstart _ =>
      ⟨hno hstart, hmore.imp_left fun hne => List.append_ne_nil_of_right_ne_nil init hne⟩
    rw [ht] at hstate
    have hmore' : ts ≠ [] ∨ r.inclusion.outer = [] ∧ r.inclusion.current.stream.ending = .finished := by
      rwa [hpasses.outer_eq, hpasses.current.ending_eq]
    obtain ⟨r', hpasses', hemits⟩ := ih (p := { p with reader := r, formStart := false }) hactive hpasses.isOutside
      hpasses.remaining_eq hinit nofun hmore'
    refine ⟨r', hpasses.trans hpasses', .proceed hproceed ?_⟩
    rw [hstate, List.isEmpty_cons, Bool.and_false]
    exact hemits

/-- Whether tokens start with a directive can be seen from their first form. -/
theorem IsForm.isDirective_append (hform : IsForm form) (ts : List Token) :
    isDirective (form ++ ts) = isDirective form := by
  obtain ⟨init, stop, rfl, hstop, -⟩ := hform
  match init with
  | [] =>
    cases ts with
    | nil => rfl
    | cons u us => simp [isDirective, startsDirective, Token.isSymbol_eq_false hstop (show (("." : Text) ≠ "-") by decide)]
  | [_] => rfl
  | _ :: _ :: _ => rfl

theorem isDirective_eq_false_of_forms (h : ∀ form ∈ forms ts, isDirective form = false) : isDirective ts = false := by
  rcases forms_cases ts with rfl | ⟨form, rest, hform, rfl, hforms⟩ | ⟨-, -, hforms⟩
  · rfl
  · rw [hform.isDirective_append]
    exact h form (by rw [hforms]; exact List.mem_cons_self)
  · exact h ts (by rw [hforms]; exact List.mem_cons_self)

/-- A suppressed form that is no directive is dropped. -/
theorem emits_drop_form (hactive : p.conditions.active = false) (hr : p.reader.IsOutside)
    (h : p.reader.inclusion.current.remaining = form ++ ts) (hform : IsForm form) (hno : isDirective form = false) :
    ∃ r, p.reader.Passes ts r ∧ Emits w p [] { p with reader := r, formStart := true } := by
  rw [← hform.isDirective_append ts] at hno
  obtain ⟨init, stop, rfl, hstop, hinit⟩ := hform
  rw [List.append_assoc] at h hno
  obtain ⟨r, hpasses, hemits⟩ := emits_drop (w := w) hactive hr h hinit (fun _ => hno) (.inl (List.cons_ne_nil _ _))
  have hstart : stop.isSymbol "-" = false := Token.isSymbol_eq_false hstop (by decide)
  obtain ⟨r', hpasses', hproceed, hstate⟩ := step_drop (w := w)
    (p := { p with reader := r, formStart := p.formStart && init.isEmpty }) hactive hpasses.isOutside
    hpasses.remaining_eq fun _ hhyphen => absurd hhyphen (by rw [hstart]; exact Bool.false_ne_true)
  rw [hstop] at hstate
  have hlast := Emits.silent hproceed
  rw [hstate] at hlast
  exact ⟨r', hpasses.trans hpasses', hemits.trans hlast⟩

/-- A suppressed form that is no conditional changes nothing but the place in its source. -/
theorem emits_skip_form (hactive : p.conditions.active = false) (hr : p.reader.IsOutside) (hstart : p.formStart = true)
    (h : p.reader.inclusion.current.remaining = form ++ ts) (hform : IsForm form)
    (hconditional : (isDirective form && isConditional form) = false) :
    ∃ r, p.reader.Passes ts r ∧ Emits w p [] { p with reader := r, formStart := true } := by
  by_cases hdirective : isDirective form = true
  · obtain ⟨r, told, hpasses, hstep⟩ := step_form_directive (w := w) hr hstart h hform hdirective
    rw [hdirective, Bool.true_and] at hconditional
    have hskip : (step w p).outcome = .proceed ∧ (step w p).state = { p with reader := r, formStart := true } := by
      rw [hstep]
      simp only [directive, hactive, hconditional, Bool.or_self, Bool.false_eq_true, if_false, Preprocessor.skip]
      split <;> exact ⟨rfl, rfl⟩
    exact ⟨r, hpasses, hskip.2 ▸ .silent hskip.1⟩
  · exact emits_drop_form hactive hr h hform (Bool.eq_false_iff.2 hdirective)

/-- Suppressed forms among which there is no conditional change nothing but the place in their source. -/
theorem emits_skip_forms {forms : List (List Token)} (hactive : p.conditions.active = false) (hr : p.reader.IsOutside)
    (hstart : p.formStart = true) (h : p.reader.inclusion.current.remaining = forms.flatten ++ ts)
    (hforms : ∀ form ∈ forms, IsForm form)
    (hconditional : ∀ form ∈ forms, (isDirective form && isConditional form) = false) :
    ∃ r, p.reader.Passes ts r ∧ Emits w p [] { p with reader := r } := by
  induction forms generalizing p with
  | nil => exact ⟨p.reader, hr.passes h, .refl p⟩
  | cons form forms ih =>
    obtain ⟨hform, hforms⟩ := List.forall_mem_cons.1 hforms
    obtain ⟨hfirst, hconditional⟩ := List.forall_mem_cons.1 hconditional
    rw [List.flatten_cons, List.append_assoc] at h
    obtain ⟨r, hpasses, hemits⟩ := emits_skip_form (w := w) hactive hr hstart h hform hfirst
    obtain ⟨r', hpasses', hemits'⟩ := ih (p := { p with reader := r, formStart := true }) hactive hpasses.isOutside rfl
      hpasses.remaining_eq hforms hconditional
    refine ⟨r', hpasses.trans hpasses', ?_⟩
    have hway := hemits.trans hemits'
    rwa [← hstart] at hway

end Preprocessor

end ErlangMacros
