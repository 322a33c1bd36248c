import ErlangMacros.Proofs.Preprocessor.Fuel

/-!
# What a run emits on its way

`Emits w p ts p'` says that the steps from `p` lead to `p'` and emit the tokens `ts`.  Such a way is put together from
parts, and when it has come to a step that ends the run, it gives the tokens and the end of every run with enough fuel
(`Emits.run_eq`).  Conversely a run that answers has gone such a way (`exists_emits_of_run`).

`Within w count A p` says that all steps that are taken for the first tokens start from states with the property `A`.  What
such steps keep holds after these tokens (`pulls_induction`).
-/

namespace ErlangMacros

namespace Preprocessor

/-- The steps from one state lead to another, and emit tokens on the way. -/
inductive Emits (w : World) : Preprocessor → List Token → Preprocessor → Prop where
  | refl (p : Preprocessor) : Emits w p [] p
  | emit {p p' : Preprocessor} {t : Token} {ts : List Token} (outcome : (step w p).outcome = .emit t)
      (rest : Emits w (step w p).state ts p') : Emits w p (t :: ts) p'
  | proceed {p p' : Preprocessor} {ts : List Token} (outcome : (step w p).outcome = .proceed)
      (rest : Emits w (step w p).state ts p') : Emits w p ts p'

/-- How a step ends the run, if it does. -/
def Outcome.ending? : Outcome → Option RunEnd
  | .emit _ => none
  | .proceed => none
  | .finish => some .stop
  | .fail f => some (.failed f)

theorem Outcome.eq_finish {o : Outcome} (h : o.ending? = some .stop) : o = .finish := by
  cases o with
  | finish => rfl
  | emit | proceed | fail => cases h

variable {w : World} {p p' p'' : Preprocessor} {ts us : List Token}

namespace Emits

theorem trans (h : Emits w p ts p') (h' : Emits w p' us p'') : Emits w p (ts ++ us) p'' := by
  induction h with
  | refl => exact h'
  | emit hemit _ ih => exact .emit hemit (ih h')
  | proceed hproceed _ ih => exact .proceed hproceed (ih h')

theorem silent (h : (step w p).outcome = .proceed) : Emits w p [] (step w p).state :=
  .proceed h (.refl _)

theorem single {t : Token} (h : (step w p).outcome = .emit t) : Emits w p [t] (step w p).state :=
  .emit h (.refl _)

theorem done_eq (h : Emits w p ts p') : p'.done = p.done := by
  induction h with
  | refl => rfl
  | emit _ _ ih => exact ih.trans (keeps_step w _).done_eq
  | proceed _ _ ih => exact ih.trans (keeps_step w _).done_eq

/-- The first tokens of a way are emitted on it. -/
theorem init (h : Emits w p (ts ++ us) p') : ∃ q, Emits w p ts q := by
  generalize hvs : ts ++ us = vs at h
  induction h generalizing ts with
  | refl p =>
    cases (List.append_eq_nil_iff.1 hvs).1
    exact ⟨p, .refl p⟩
  | @emit p _ t _ hemit _ ih =>
    rcases ts with _ | ⟨u, ts⟩
    · exact ⟨p, .refl p⟩
    · obtain ⟨rfl, hrest⟩ := List.cons_eq_cons.1 hvs
      obtain ⟨q, hq⟩ := ih hrest
      exact ⟨q, .emit hemit hq⟩
  | proceed hproceed _ ih =>
    obtain ⟨q, hq⟩ := ih hvs
    exact ⟨q, .proceed hproceed hq⟩

/-- Of two ways from one state, one goes on from the end of the other. -/
theorem linear (h : Emits w p ts p') (h' : Emits w p us p'') :
    (∃ vs, us = ts ++ vs ∧ Emits w p' vs p'') ∨ ∃ vs, ts = us ++ vs ∧ Emits w p'' vs p' := by
  induction h generalizing us with
  | refl => exact .inl ⟨us, rfl, h'⟩
  | @emit p _ t ts hemit hrest ih =>
    cases h' with
    | refl => exact .inr ⟨t :: ts, rfl, .emit hemit hrest⟩
    | emit hemit' hrest' =>
      cases hemit.symm.trans hemit'
      exact (ih hrest').imp (fun ⟨vs, hvs, hway⟩ => ⟨vs, congrArg (t :: ·) hvs, hway⟩)
        fun ⟨vs, hvs, hway⟩ => ⟨vs, congrArg (t :: ·) hvs, hway⟩
    | proceed hproceed => cases hemit.symm.trans hproceed
  | @proceed p _ ts hproceed hrest ih =>
    cases h' with
    | refl => exact .inr ⟨ts, rfl, .proceed hproceed hrest⟩
    | emit hemit => cases hproceed.symm.trans hemit
    | proceed _ hrest' => exact ih hrest'

/-- A way leads on to the step that ends the run. -/
theorem toEnd {e : RunEnd} (h : Emits w p ts p') (h' : Emits w p us p'') (he : (step w p'').outcome.ending? = some e) :
    ∃ vs, us = ts ++ vs ∧ Emits w p' vs p'' := by
  rcases h.linear h' with hway | ⟨vs, rfl, hway⟩
  · exact hway
  · cases hway with
    | refl => exact ⟨[], by simp, .refl _⟩
    | emit hemit =>
      rw [hemit] at he
      cases he
    | proceed hproceed =>
      rw [hproceed] at he
      cases he

/-- A run ends in one way only. -/
theorem ending_unique {e e' : RunEnd} (h : Emits w p ts p') (he : (step w p').outcome.ending? = some e)
    (h' : Emits w p us p'') (he' : (step w p'').outcome.ending? = some e') : e' = e := by
  obtain ⟨vs, -, hway⟩ := h.toEnd h' he'
  cases hway with
  | refl =>
    rw [he] at he'
    cases he'
    rfl
  | emit hemit =>
    rw [hemit] at he
    cases he
  | proceed hproceed =>
    rw [hproceed] at he
    cases he

/-- A way from `p` takes a number of steps, after which the run goes on from its end. -/
theorem outcomeWithin_eq (h : Emits w p ts p') :
    ∃ n es, ∀ m, outcomeWithin w (n + m) p = (outcomeWithin w m p').map (·.after ts es) := by
  induction h with
  | refl p =>
    refine ⟨0, [], fun m => ?_⟩
    rw [Nat.zero_add]
    simp [Run.after]
  | @emit p p' t ts hemit _ ih =>
    obtain ⟨n, es, hn⟩ := ih
    refine ⟨n + 1, (step w p).events ++ es, fun m => ?_⟩
    rw [Nat.add_right_comm, outcomeWithin]
    simp only [hemit, hn, Option.map_map, Function.comp_def, Run.after, List.append_assoc, List.cons_append,
      List.nil_append]
  | @proceed p p' ts hproceed _ ih =>
    obtain ⟨n, es, hn⟩ := ih
    refine ⟨n + 1, (step w p).events ++ es, fun m => ?_⟩
    rw [Nat.add_right_comm, outcomeWithin]
    simp only [hproceed, hn, Option.map_map, Function.comp_def, Run.after, List.append_assoc, List.nil_append]

/-- A way to a step that ends the run gives what comes of the run. -/
theorem run_eq {e : RunEnd} (h : Emits w p ts p') (he : (step w p').outcome.ending? = some e) (hd : e.IsDefinite)
    (hdone : p.done = false) :
    ∃ bound es, ∀ fuel ≥ bound, p.run w fuel = ⟨ts, e, (step w p').state.close, es⟩ := by
  obtain ⟨n, es, hn⟩ := h.outcomeWithin_eq
  have hlast : outcomeWithin w 1 p' = some ⟨[], e, (step w p').state.close, (step w p').events⟩ := by
    unfold outcomeWithin
    dsimp only
    rcases houtcome : (step w p').outcome with t | _ | _ | f <;> rw [houtcome] at he <;> cases he <;> rfl
  refine ⟨n + 1, es ++ (step w p').events, fun fuel hfuel => ?_⟩
  refine run_eq_of_outcomeWithin ?_ hdone hd hfuel
  rw [hn, hlast]
  simp [Run.after]

end Emits

/-- Steps after which the run goes on are a way to the state they lead to. -/
theorem exists_emits_of_stateAfter {n : Nat} (h : stateAfter w n p = some p') : ∃ ts, Emits w p ts p' := by
  induction n generalizing p with
  | zero =>
    cases h
    exact ⟨[], .refl _⟩
  | succ n ih =>
    unfold stateAfter at h
    split at h
    · next hcontinues =>
      obtain ⟨ts, hrest⟩ := ih h
      rcases houtcome : (step w p).outcome with t | _ | _ | f <;> rw [houtcome] at hcontinues
      · exact ⟨t :: ts, .emit houtcome hrest⟩
      · exact ⟨ts, .proceed houtcome hrest⟩
      · cases hcontinues
      · cases hcontinues
    · cases h

/-! ### The steps for the first tokens -/

/-- All steps that are taken for the first `count` tokens start from states with a property. -/
def Within (w : World) (count : Nat) (A : Preprocessor → Prop) (p : Preprocessor) : Prop :=
  ∀ ts q, Emits w p ts q → ts.length < count → A q

namespace Within

variable {A : Preprocessor → Prop} {count : Nat}

theorem head (h : Within w (count + 1) A p) : A p :=
  h [] p (.refl p) (Nat.succ_pos count)

theorem proceed (h : Within w count A p) (hproceed : (step w p).outcome = .proceed) :
    Within w count A (step w p).state :=
  fun ts q hemits hlt => h ts q (.proceed hproceed hemits) hlt

theorem emit {t : Token} (h : Within w (count + 1) A p) (hemit : (step w p).outcome = .emit t) :
    Within w count A (step w p).state :=
  fun ts q hemits hlt => h (t :: ts) q (.emit hemit hemits) (Nat.succ_lt_succ hlt)

end Within

/-- Go through the steps for the first tokens, at most `n` of them, and check the states that they start from. -/
def checkWithin (w : World) (A : Preprocessor → Bool) : Nat → Nat → Preprocessor → Bool
  | _, 0, _ => true
  | 0, _ + 1, _ => false
  | n + 1, count + 1, p =>
    A p &&
      match (step w p).outcome with
      | .emit _ => checkWithin w A n count (step w p).state
      | .proceed => checkWithin w A n (count + 1) (step w p).state
      | .finish => true
      | .fail _ => true

theorem within_of_checkWithin {A : Preprocessor → Bool} {n count : Nat} (h : checkWithin w A n count p = true) :
    Within w count (fun q => A q = true) p := by
  intro ts q hemits hlt
  induction hemits generalizing n count with
  | refl p =>
    rcases count with _ | count
    · exact absurd hlt (Nat.not_lt_zero _)
    · rcases n with _ | n
      · cases h
      · exact (Bool.and_eq_true_iff.1 h).1
  | @emit p _ t ts hemit _ ih =>
    rcases count with _ | count
    · exact absurd hlt (Nat.not_lt_zero _)
    · rcases n with _ | n
      · cases h
      · have hrest := (Bool.and_eq_true_iff.1 h).2
        rw [hemit] at hrest
        exact ih hrest (Nat.lt_of_succ_lt_succ hlt)
  | @proceed p _ ts hproceed _ ih =>
    rcases count with _ | count
    · exact absurd hlt (Nat.not_lt_zero _)
    · rcases n with _ | n
      · cases h
      · have hrest := (Bool.and_eq_true_iff.1 h).2
        rw [hproceed] at hrest
        exact ih hrest hlt

/-! ### Runs that answer -/

/-- An answer is the end of a way without tokens, or of one with a single token. -/
theorem emits_next (hp : p.done = false) (fuel : Nat) :
    match (next w fuel p).answer with
    | .token t => Emits w p [t] (next w fuel p).state
    | .stop => ∃ q, Emits w p [] q ∧ (step w q).outcome = .finish ∧ (next w fuel p).state = (step w q).state.close
    | .failed f => ∃ q, Emits w p [] q ∧ (step w q).outcome = .fail f ∧ (next w fuel p).state = (step w q).state.close
    | .outOfFuel => True := by
  induction fuel generalizing p with
  | zero => simp [next, hp]
  | succ fuel ih =>
    have hdone : (step w p).state.done = false := (keeps_step w p).done_eq.trans hp
    have hrest := ih hdone
    unfold next
    dsimp only
    rw [hp]
    rcases houtcome : (step w p).outcome with t | _ | _ | f
    · exact .single houtcome
    · dsimp only [Bool.false_eq_true, if_false]
      rcases hanswer : (next w fuel (step w p).state).answer with t | _ | f | _ <;> rw [hanswer] at hrest
      · exact .proceed houtcome hrest
      · obtain ⟨q, hq, hfinish⟩ := hrest
        exact ⟨q, .proceed houtcome hq, hfinish⟩
      · obtain ⟨q, hq, hfail⟩ := hrest
        exact ⟨q, .proceed houtcome hq, hfail⟩
      · exact trivial
    · exact ⟨p, .refl p, houtcome, rfl⟩
    · exact ⟨p, .refl p, houtcome, rfl⟩

private theorem emits_pulls (hp : p.done = false) (fuel count : Nat) (hd : (pulls w fuel count p).ending.IsDefinite) :
    ∃ q, Emits w p (pulls w fuel count p).tokens q ∧
      (step w q).outcome.ending? = some (pulls w fuel count p).ending ∧
      (pulls w fuel count p).state = (step w q).state.close := by
  induction count generalizing p with
  | zero => exact hd.elim
  | succ count ih =>
    have hnext := emits_next hp (w := w) fuel
    rw [pulls_succ] at hd ⊢
    unfold Next.resume at hd ⊢
    rcases hanswer : (next w fuel p).answer with t | _ | f | _ <;> rw [hanswer] at hd hnext <;> dsimp only at hd ⊢
    · obtain ⟨q, hq, hend, hstate⟩ := ih (hnext.done_eq.trans hp) hd
      exact ⟨q, hnext.trans hq, hend, hstate⟩
    · obtain ⟨q, hq, hfinish, hstate⟩ := hnext
      exact ⟨q, hq, by rw [hfinish]; rfl, hstate⟩
    · obtain ⟨q, hq, hfail, hstate⟩ := hnext
      exact ⟨q, hq, by rw [hfail]; rfl, hstate⟩
    · exact (hd.2 rfl).elim

/-- What the steps for a token keep holds after it. -/
theorem next_induction {P A : Preprocessor → Prop} {count fuel : Nat} {t : Token} (hp : P p)
    (hA : Within w (count + 1) A p) (hstep : ∀ q, P q → A q → (step w q).outcome.continues → P (step w q).state)
    (h : (next w fuel p).answer = .token t) : P (next w fuel p).state ∧ Within w count A (next w fuel p).state := by
  induction fuel generalizing p with
  | zero =>
    unfold next at h
    split at h <;> cases h
  | succ fuel ih =>
    unfold next at h ⊢
    rcases hdone : p.done with _ | _ <;> rw [hdone] at h
    · have hkeeps := hstep p hp hA.head
      dsimp only at h ⊢
      rcases houtcome : (step w p).outcome with u | _ | _ | f <;> rw [houtcome] at h hkeeps
      · exact ⟨hkeeps rfl, hA.emit houtcome⟩
      · exact ih (hkeeps rfl) (hA.proceed houtcome) h
      · cases h
      · cases h
    · cases h

/-- What the steps for the first tokens keep holds after these tokens. -/
theorem pulls_induction {P A : Preprocessor → Prop} {count fuel : Nat} (hp : P p) (hA : Within w count A p)
    (hstep : ∀ q, P q → A q → (step w q).outcome.continues → P (step w q).state)
    (h : (pulls w fuel count p).ending = .limit) : P (pulls w fuel count p).state := by
  induction count generalizing p with
  | zero => exact hp
  | succ count ih =>
    rw [pulls_succ] at h ⊢
    unfold Next.resume at h ⊢
    rcases hanswer : (next w fuel p).answer with t | _ | f | _ <;> rw [hanswer] at h
    · obtain ⟨hnext, hrest⟩ := next_induction hp hA hstep hanswer
      exact ih hnext hrest h
    · cases h
    · cases h
    · cases h

/-- A run that answers has gone a way to a step that ends it. -/
theorem exists_emits_of_run {fuel : Nat} (hp : p.done = false) (hd : (p.run w fuel).ending.IsDefinite) :
    ∃ q, Emits w p (p.run w fuel).tokens q ∧ (step w q).outcome.ending? = some (p.run w fuel).ending ∧
      (p.run w fuel).state = (step w q).state.close := by
  have hrun := run_eq_pulls hd
  rw [hrun] at hd ⊢
  exact emits_pulls hp fuel fuel hd

end Preprocessor

end ErlangMacros
