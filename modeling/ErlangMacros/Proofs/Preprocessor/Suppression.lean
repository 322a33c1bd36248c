import ErlangMacros.Proofs.Directive.Conditional
import ErlangMacros.Proofs.Preprocessor.Forms

/-!
# Forms that are suppressed

While tokens are suppressed, forms are dropped one by one, whatever they contain, and only conditionals are evaluated.  If
these are well formed and properly nested (`Nests`), nothing is left of the forms and of their conditionals
(`Stands.skip`).
-/

namespace ErlangMacros

namespace Preprocessor

/-! ### The nesting of forms -/

/-- What a form makes of the conditionals that are open, each given by whether its other branch has been turned to;
`none` if the form is a conditional that is malformed or does not fit. -/
def nest (turned : List Bool) (form : List Token) : Option (List Bool) :=
  if isDirective form && isConditional form then
    match Directive.parse form with
    | .error _ => none
    | .ok d =>
      match d.action, turned with
      | .ifdef name, _ => if name.nameValue.isOk then some (false :: turned) else none
      | .ifndef name, _ => if name.nameValue.isOk then some (false :: turned) else none
      | .otherwise, false :: turned => some (true :: turned)
      | .endif, _ :: turned => some turned
      | _, _ => none
  else some turned

/-- The conditionals among the forms are well formed and properly nested. -/
def Nests (ts : List Token) : Prop :=
  (forms ts).foldlM nest [] = some []

instance (ts : List Token) : Decidable (Nests ts) :=
  inferInstanceAs (Decidable (_ = _))

/-! ### States before tokens behind -/

/-- The input of a run has been read, and the state is that at its end, but that it stands before tokens behind, and
with other conditionals open. -/
inductive Stands (q : Preprocessor) (ts : List Token) (c : Conditional.Stack) (formStart : Bool) :
    Preprocessor → Prop where
  | mk {reader : Reader} {directives : List Directive} (reader_extends : q.reader.Extends ts reader) :
      Stands q ts c formStart { q with reader, conditions := c, directives, formStart }

variable {w : World} {q s : Preprocessor} {t stop : Token} {ts init form : List Token} {c : Conditional.Stack}
  {formStart : Bool}

theorem Stands.formStart_eq (h : Stands q ts c formStart s) : s.formStart = formStart := by
  obtain ⟨-⟩ := h
  rfl

theorem Stands.conditions_eq (h : Stands q ts c formStart s) : s.conditions = c := by
  obtain ⟨-⟩ := h
  rfl

theorem Stands.isOutside (hq : q.reader.IsDrained) (h : Stands q ts c formStart s) : s.reader.IsOutside := by
  obtain ⟨hreader⟩ := h
  exact ⟨hreader.frames_eq.trans hq.frames_eq, hreader.depth_eq.trans hq.depth_eq,
    hreader.callSite_eq.trans hq.callSite_eq⟩

theorem Stands.remaining_eq (hq : q.reader.IsDrained) (h : Stands q ts c formStart s) :
    s.reader.inclusion.current.remaining = ts := by
  obtain ⟨hreader⟩ := h
  exact hreader.inclusion.current.remaining_eq.trans (by rw [hq.remaining_eq, List.nil_append])

/-- Reading on, the state stands before what is left. -/
theorem Stands.passes {us : List Token} {r : Reader} {b : Bool} (hq : q.reader.IsDrained)
    (h : Stands q ts c formStart s) (hr : s.reader.Passes us r) :
    Stands q us c b { s with reader := r, formStart := b } := by
  obtain ⟨hreader⟩ := h
  have hcurrent := hreader.inclusion.current
  refine .mk ⟨hr.isOutside.frames_eq.trans hq.frames_eq.symm, ⟨hr.limit_eq.trans hreader.inclusion.limit_eq,
    ⟨?_, ?_, ?_, ?_⟩, hr.outer_eq ▸ hreader.inclusion.outer, .inr hq.outer_eq⟩,
    hr.isOutside.depth_eq.trans hq.depth_eq.symm,
    hr.isOutside.callSite_eq.trans hq.callSite_eq.symm⟩
  · exact hr.current.label_eq.trans hcurrent.label_eq
  · rw [hr.remaining_eq, hq.remaining_eq, List.nil_append]
  · exact hr.current.ending_eq.trans hcurrent.ending_eq
  · exact .inr hq.ending_eq

/-! ### Directives behind -/

theorem evaluate_opens {p : Preprocessor} {d : Directive} {negated : Bool} {name : Token} {n : Text}
    (h : d.action = .opens negated name) (hname : name.nameValue = .ok n) :
    evaluate w p d =
      .changed { p with conditions := p.conditions.push (p.macros.isDefined n != negated) (some d.position) } := by
  cases negated <;> simp [evaluate, h, Action.opens, withName, hname, evalConditional]

/-- A conditional behind is evaluated in one step. -/
theorem Stands.step_conditional {d : Directive} {c' : Conditional.Stack} (hq : q.reader.IsDrained)
    (h : Stands q (form ++ ts) c true s) (hform : IsForm form) (hdirective : isDirective form = true)
    (hconditional : isConditional form = true) (hparse : Directive.parse form = .ok d)
    (hevaluate : ∀ p : Preprocessor, p.conditions = c → p.macros = q.macros →
      evaluate w p d = .changed { p with conditions := c' }) :
    (step w s).outcome = .proceed ∧ Stands q ts c' true (step w s).state := by
  obtain ⟨r, told, hr, hstep⟩ :=
    step_form_directive (w := w) (h.isOutside hq) h.formStart_eq (h.remaining_eq hq) hform hdirective
  have hs := h.passes (b := true) hq hr
  obtain ⟨-⟩ := h
  obtain ⟨hreader⟩ := hs
  rw [hstep]
  simp only [directive, hconditional, Bool.or_true, if_true, hparse, hevaluate, Step.after, Step.changed]
  exact ⟨trivial, .mk hreader⟩

/-! ### Skipping -/

/-- Conditionals inside one that is suppressed. -/
def AreSuppressed (turned : List Bool) (frames : List Conditional.Frame) : Prop :=
  List.Forall₂ (fun b f => f.elseSeen = b ∧ f.parentActive = false) turned frames

theorem AreSuppressed.active_eq {turned : List Bool} {frames : List Conditional.Frame}
    (h : AreSuppressed turned frames) (hc : c.active = false) :
    (⟨frames ++ c.frames⟩ : Conditional.Stack).active = false := by
  cases h with
  | nil => exact hc
  | cons hf _ => simp [Conditional.Stack.active, Conditional.Frame.active, hf.2]

/-- A suppressed conditional that fits is evaluated. -/
theorem Stands.skip_conditional {turned turned' : List Bool} {frames : List Conditional.Frame}
    (hq : q.reader.IsDrained) (hc : c.active = false) (h : Stands q (form ++ ts) ⟨frames ++ c.frames⟩ true s)
    (hframes : AreSuppressed turned frames) (hform : IsForm form) (hdirective : isDirective form = true)
    (hconditional : isConditional form = true) (hnest : nest turned form = some turned') :
    ∃ frames' s', AreSuppressed turned' frames' ∧ Emits w s [] s' ∧ Stands q ts ⟨frames' ++ c.frames⟩ true s' := by
  have hactive := hframes.active_eq hc
  rw [nest, hdirective, hconditional, Bool.and_self, if_pos rfl] at hnest
  rcases hparse : Directive.parse form with f | d <;> rw [hparse] at hnest
  · cases hnest
  suffices ∃ frames', AreSuppressed turned' frames' ∧ ∀ p : Preprocessor, p.conditions = ⟨frames ++ c.frames⟩ →
      p.macros = q.macros → evaluate w p d = .changed { p with conditions := ⟨frames' ++ c.frames⟩ } by
    obtain ⟨frames', hframes', hevaluate⟩ := this
    obtain ⟨hproceed, hs⟩ := h.step_conditional hq hform hdirective hconditional hparse hevaluate
    exact ⟨frames', _, hframes', .silent hproceed, hs⟩
  -- a conditional that is opened inside is suppressed as well
  have hopens (negated : Bool) {name : Token} (haction : d.action = .opens negated name)
      (hname : (if name.nameValue.isOk then some (false :: turned) else none) = some turned') :
      ∃ frames', AreSuppressed turned' frames' ∧ ∀ p : Preprocessor, p.conditions = ⟨frames ++ c.frames⟩ →
        p.macros = q.macros → evaluate w p d = .changed { p with conditions := ⟨frames' ++ c.frames⟩ } := by
    rcases hn : name.nameValue with e | n <;> rw [hn] at hname <;> cases hname
    refine ⟨⟨q.macros.isDefined n != negated, false, some d.position, false⟩ :: frames, .cons ⟨rfl, rfl⟩ hframes,
      fun p hp hmacros => ?_⟩
    rw [evaluate_opens haction hn, hp, hmacros, Conditional.Stack.push, hactive]
    rfl
  dsimp only at hnest
  split at hnest
  · next haction => exact hopens false haction hnest
  · next haction => exact hopens true haction hnest
  · next haction =>
    cases hnest
    cases hframes with
    | @cons _ f _ frames hf hframes =>
      refine ⟨{ f with elseSeen := true, condition := !f.condition } :: frames, .cons ⟨rfl, hf.2⟩ hframes,
        fun p hp _ => ?_⟩
      simp [evaluate, haction, hp, Conditional.Stack.flip, hf.1, evalConditional]
  · next haction =>
    cases hnest
    cases hframes with
    | @cons _ f _ frames hf hframes =>
      refine ⟨frames, hframes, fun p hp _ => ?_⟩
      simp [evaluate, haction, hp, Conditional.Stack.close, evalConditional]
  · cases hnest

/-- A suppressed form changes nothing but the conditionals inside. -/
theorem Stands.skip_form {turned turned' : List Bool} {frames : List Conditional.Frame} (hq : q.reader.IsDrained)
    (hc : c.active = false) (h : Stands q (form ++ ts) ⟨frames ++ c.frames⟩ true s)
    (hframes : AreSuppressed turned frames) (hform : IsForm form) (hnest : nest turned form = some turned') :
    ∃ frames' s', AreSuppressed turned' frames' ∧ Emits w s [] s' ∧ Stands q ts ⟨frames' ++ c.frames⟩ true s' := by
  by_cases hconditional : (isDirective form && isConditional form) = true
  · obtain ⟨hdirective, hconditional⟩ := Bool.and_eq_true_iff.1 hconditional
    exact h.skip_conditional hq hc hframes hform hdirective hconditional hnest
  · rw [nest, if_neg hconditional] at hnest
    cases hnest
    have hactive : s.conditions.active = false := h.conditions_eq ▸ hframes.active_eq hc
    obtain ⟨r, hr, hemits⟩ := emits_skip_form (w := w) hactive (h.isOutside hq) h.formStart_eq (h.remaining_eq hq) hform
      (Bool.eq_false_iff.2 hconditional)
    exact ⟨frames, _, hframes, hemits, h.passes hq hr⟩

/-- Suppressed forms change nothing but the conditionals inside. -/
theorem Stands.skip_forms {forms : List (List Token)} {turned turned' : List Bool} {frames : List Conditional.Frame}
    (hq : q.reader.IsDrained) (hc : c.active = false)
    (h : Stands q (forms.flatten ++ ts) ⟨frames ++ c.frames⟩ true s) (hframes : AreSuppressed turned frames)
    (hforms : ∀ form ∈ forms, IsForm form) (hnest : forms.foldlM nest turned = some turned') :
    ∃ frames' s', AreSuppressed turned' frames' ∧ Emits w s [] s' ∧ Stands q ts ⟨frames' ++ c.frames⟩ true s' := by
  induction forms generalizing s turned frames with
  | nil =>
    cases hnest
    exact ⟨frames, s, hframes, .refl s, h⟩
  | cons form forms ih =>
    obtain ⟨hform, hforms⟩ := List.forall_mem_cons.1 hforms
    obtain ⟨turned₁, hfirst, hrest⟩ := Option.bind_eq_some_iff.1 hnest
    rw [List.flatten_cons, List.append_assoc] at h
    obtain ⟨frames₁, s₁, hframes₁, hemits, hs₁⟩ := h.skip_form (w := w) hq hc hframes hform hfirst
    obtain ⟨frames', s', hframes', hemits', hs'⟩ := ih hs₁ hframes₁ hforms hrest
    exact ⟨frames', s', hframes', hemits.trans hemits', hs'⟩

/-- Suppressed forms whose conditionals are properly nested leave nothing behind. -/
theorem Stands.skip {ys : List Token} (hq : q.reader.IsDrained) (hc : c.active = false)
    (h : Stands q (ys ++ ts) c true s) (hys : IsComplete ys) (hnests : Nests ys) :
    ∃ s', Emits w s [] s' ∧ Stands q ts c true s' := by
  have h₀ : Stands q ((forms ys).flatten ++ ts) ⟨[] ++ c.frames⟩ true s := by
    rw [flatten_forms]
    exact h
  obtain ⟨frames, s', hframes, hemits, hs'⟩ := h₀.skip_forms (w := w) hq hc .nil (isForm_of_mem_forms hys) hnests
  cases hframes
  exact ⟨s', hemits, hs'⟩

end Preprocessor

end ErlangMacros
