import ErlangMacros.Proofs.Preprocessor.Failure

/-!
# Steps and fuel

A run is asked for its tokens one by one, each time with a number of steps as fuel.  `outcomeWithin` takes the same
steps in one go.  If the steps of a run come to an end, every run with at least that fuel gives the same tokens and
the same end (`run_eq_of_outcomeWithin`); if they do not, no fuel suffices (`ending_run_of_isEndless`).  So a run that
tells what came of it does so with more fuel too (`run_of_le`).
-/

namespace ErlangMacros

namespace Preprocessor

/-- The end of a run tells what came of it. -/
def RunEnd.IsDefinite : RunEnd → Prop
  | .limit => False
  | .stop => True
  | .failed f => f.IsDefinite

/-- A run with more tokens and more told before. -/
def Run.after (r : Run) (tokens : List Token) (events : List Event) : Run :=
  { r with tokens := tokens ++ r.tokens, events := events ++ r.events }

/-- What comes of a run within a number of steps, if it ends within them. -/
def outcomeWithin (w : World) : Nat → Preprocessor → Option Run
  | 0, _ => none
  | n + 1, p =>
    let s := step w p
    match s.outcome with
    | .emit t => (outcomeWithin w n s.state).map (·.after [t] s.events)
    | .proceed => (outcomeWithin w n s.state).map (·.after [] s.events)
    | .finish => some ⟨[], .stop, s.state.close, s.events⟩
    | .fail f => some ⟨[], .failed f, s.state.close, s.events⟩

variable {w : World} {p : Preprocessor} {n : Nat} {r : Run}

/-- A run ends when it does not go on. -/
theorem isSome_outcomeWithin : (outcomeWithin w n p).isSome ↔ stateAfter w n p = none := by
  induction n generalizing p with
  | zero => simp [outcomeWithin, stateAfter]
  | succ n ih =>
    unfold outcomeWithin stateAfter
    dsimp only
    rcases (step w p).outcome with t | _ | _ | f
    · simpa [Outcome.continues] using ih
    · simpa [Outcome.continues] using ih
    · simp [Outcome.continues]
    · simp [Outcome.continues]

/-- Over finite sources a run that ends tells what came of it. -/
theorem isDefinite_outcomeWithin (hp : p.ReadsFinitely w) (h : outcomeWithin w n p = some r) : r.ending.IsDefinite := by
  induction n generalizing p r with
  | zero => cases h
  | succ n ih =>
    have hdefinite := isDefinite_step w hp.isFinite
    have hnext := hp.step
    unfold outcomeWithin at h
    dsimp only at h
    rcases houtcome : (step w p).outcome with t | _ | _ | f <;> rw [houtcome] at h hdefinite hnext
    · obtain ⟨r', hr', rfl⟩ := Option.map_eq_some_iff.1 h
      have hending : r'.ending.IsDefinite := ih (hnext rfl) hr'
      exact hending
    · obtain ⟨r', hr', rfl⟩ := Option.map_eq_some_iff.1 h
      have hending : r'.ending.IsDefinite := ih (hnext rfl) hr'
      exact hending
    · cases h
      exact trivial
    · cases h
      exact hdefinite

/-! ### Asking for tokens -/

/-- Go on with an answer as `pulls` does. -/
def Next.resume (w : World) (fuel count : Nat) (n : Next) : Run :=
  match n.answer with
  | .token t => (pulls w fuel count n.state).after [t] n.events
  | .stop => ⟨[], .stop, n.state, n.events⟩
  | .failed f => ⟨[], .failed f, n.state, n.events⟩
  | .outOfFuel => ⟨[], .failed (.fault .outOfFuel), n.state, n.events⟩

theorem pulls_succ (w : World) (fuel count : Nat) (p : Preprocessor) :
    pulls w fuel (count + 1) p = (next w fuel p).resume w fuel count := by
  unfold pulls Next.resume
  rfl

private theorem resume_after (w : World) (fuel count : Nat) (n : Next) (es : List Event) :
    Next.resume w fuel count { n with events := es ++ n.events } = (n.resume w fuel count).after [] es := by
  rcases n with ⟨t | _ | f | _, q, es'⟩
  · simp [Next.resume, Run.after]
  · rfl
  · rfl
  · rfl

/-- If the steps come to an end, the answers that are asked for make up what comes of the run. -/
theorem resume_next_of_outcomeWithin {k fuel count : Nat} (h : outcomeWithin w n p = some r) (hp : p.done = false)
    (hk : n ≤ k) (hfuel : n ≤ fuel) (hcount : n ≤ count + 1) : (next w k p).resume w fuel count = r := by
  induction n generalizing p r k count with
  | zero => cases h
  | succ n ih =>
    obtain ⟨k, rfl⟩ : ∃ k', k = k' + 1 := ⟨k - 1, by omega⟩
    have hdone : (step w p).state.done = false := (keeps_step w p).done_eq.trans hp
    unfold outcomeWithin at h
    unfold next
    dsimp only at h ⊢
    rw [hp]
    rcases houtcome : (step w p).outcome with t | _ | _ | f <;> rw [houtcome] at h
    · obtain ⟨r', hr', rfl⟩ := Option.map_eq_some_iff.1 h
      -- the steps that are left are at least one, so another token is asked for
      obtain ⟨count, rfl⟩ : ∃ count', count = count' + 1 := by
        rcases n with _ | n
        · cases hr'
        · exact ⟨count - 1, by omega⟩
      have hrest : pulls w fuel (count + 1) (step w p).state = r' := by
        rw [pulls_succ]
        exact ih hr' hdone (by omega) (by omega) (by omega)
      simp [Next.resume, hrest]
    · obtain ⟨r', hr', rfl⟩ := Option.map_eq_some_iff.1 h
      have hrest := ih hr' hdone (by omega : n ≤ k) (by omega) (by omega : n ≤ count + 1)
      exact (resume_after w fuel count _ _).trans (by rw [hrest])
    · cases h
      rfl
    · cases h
      rfl

/-- A run that ends within a number of steps is the same with any fuel from there on. -/
theorem run_eq_of_outcomeWithin {fuel : Nat} (h : outcomeWithin w n p = some r) (hp : p.done = false)
    (hr : r.ending.IsDefinite) (hfuel : n ≤ fuel) : p.run w fuel = r := by
  obtain ⟨count, rfl⟩ : ∃ count, fuel = count + 1 := by
    rcases n with _ | n
    · cases h
    · exact ⟨fuel - 1, by omega⟩
  have hpulls : pulls w (count + 1) (count + 1) p = r := by
    rw [pulls_succ]
    exact resume_next_of_outcomeWithin h hp hfuel hfuel hfuel
  unfold run
  dsimp only
  rw [hpulls]
  split
  · next hlimit =>
    rw [hlimit] at hr
    exact hr.elim
  · rfl

/-! ### More fuel -/

/-- An answer is the same with more fuel. -/
theorem next_of_le {fuel fuel' : Nat} (h : (next w fuel p).answer ≠ .outOfFuel) (hle : fuel ≤ fuel') :
    next w fuel' p = next w fuel p := by
  induction fuel generalizing p fuel' with
  | zero =>
    rcases hdone : p.done with _ | _
    · simp [next, hdone] at h
    · cases fuel' <;> simp [next, hdone]
  | succ fuel ih =>
    obtain ⟨fuel', rfl⟩ : ∃ k, fuel' = k + 1 := ⟨fuel' - 1, by omega⟩
    rcases hdone : p.done with _ | _
    · unfold next at h ⊢
      rw [hdone] at h ⊢
      dsimp only at h ⊢
      rcases houtcome : (step w p).outcome with t | _ | _ | f
      · rfl
      · rw [houtcome] at h
        have hrest : next w fuel' (step w p).state = next w fuel (step w p).state := ih h (by omega)
        rw [hrest]
      · rfl
      · rfl
    · simp [next, hdone]

private theorem pulls_of_fuel_le {fuel fuel' count : Nat}
    (h : (pulls w fuel count p).ending ≠ .failed (.fault .outOfFuel))
    (hle : fuel ≤ fuel') : pulls w fuel' count p = pulls w fuel count p := by
  induction count generalizing p with
  | zero => rfl
  | succ count ih =>
    rw [pulls_succ] at h
    rw [pulls_succ, pulls_succ, next_of_le (fun hanswer => h (by rw [Next.resume, hanswer])) hle]
    unfold Next.resume at h ⊢
    rcases hanswer : (next w fuel p).answer with t | _ | f | _
    · rw [hanswer] at h
      dsimp only
      rw [ih h]
    · rfl
    · rfl
    · rfl

/-- After the end no more tokens come. -/
theorem pulls_of_count_le {fuel count count' : Nat} (h : (pulls w fuel count p).ending ≠ .limit) (hle : count ≤ count') :
    pulls w fuel count' p = pulls w fuel count p := by
  induction count generalizing p count' with
  | zero => exact absurd rfl h
  | succ count ih =>
    obtain ⟨count', rfl⟩ : ∃ k, count' = k + 1 := ⟨count' - 1, by omega⟩
    rw [pulls_succ] at h ⊢
    rw [pulls_succ]
    unfold Next.resume at h ⊢
    rcases hanswer : (next w fuel p).answer with t | _ | f | _
    · rw [hanswer] at h
      dsimp only
      rw [ih h (by omega)]
    · rfl
    · rfl
    · rfl

theorem run_eq_pulls {fuel : Nat} (h : (p.run w fuel).ending.IsDefinite) : p.run w fuel = pulls w fuel fuel p := by
  unfold run at h ⊢
  dsimp only at h ⊢
  split at h
  · exact (h.2 rfl).elim
  · rfl

/-- A run that tells what came of it does so with more fuel too. -/
theorem run_of_le {fuel fuel' : Nat} (h : (p.run w fuel).ending.IsDefinite) (hle : fuel ≤ fuel') :
    p.run w fuel' = p.run w fuel := by
  have hrun := run_eq_pulls h
  rw [hrun] at h ⊢
  have hlimit : (pulls w fuel fuel p).ending ≠ .limit := by
    intro hending
    rw [hending] at h
    exact h
  have hfuel : (pulls w fuel fuel p).ending ≠ .failed (.fault .outOfFuel) := by
    intro hending
    rw [hending] at h
    exact h.2 rfl
  have hpulls : pulls w fuel' fuel' p = pulls w fuel fuel p := by
    rw [pulls_of_count_le (by rwa [pulls_of_fuel_le hfuel hle]) hle, pulls_of_fuel_le hfuel hle]
  unfold run
  dsimp only
  rw [hpulls]
  split
  · next hending => exact absurd hending hlimit
  · rfl

/-! ### Runs that go on for ever -/

/-- The run never ends. -/
def IsEndless (w : World) (p : Preprocessor) : Prop :=
  ∀ n, stateAfter w n p ≠ none

theorem IsEndless.continues (h : p.IsEndless w) : (step w p).outcome.continues := by
  have hone := h 1
  unfold stateAfter at hone
  by_contra hc
  exact hone (if_neg hc)

theorem IsEndless.step (h : p.IsEndless w) : (step w p).state.IsEndless w := by
  intro n
  have hn := h (n + 1)
  unfold stateAfter at hn
  rwa [if_pos h.continues] at hn

/-- A run never ends if it always comes back to states of a kind. -/
theorem isEndless_of_loop {P : Preprocessor → Prop} (hp : P p)
    (hloop : ∀ q, P q → ∃ n q', stateAfter w (n + 1) q = some q' ∧ P q') : p.IsEndless w := by
  intro n
  induction n using Nat.strongRecOn generalizing p with
  | ind n ih =>
    intro hn
    obtain ⟨k, q, hq, hPq⟩ := hloop p hp
    by_cases hle : n ≤ k + 1
    · rw [stateAfter_eq_none_of_le hn hle] at hq
      cases hq
    · -- a round takes a step at least, so fewer steps are left after it
      obtain ⟨m, rfl⟩ := Nat.exists_eq_add_of_lt (Nat.lt_of_not_le hle)
      rw [Nat.add_assoc, stateAfter_add, hq, Option.bind_some] at hn
      exact ih (m + 1) (by omega) hPq hn

/-- Without an end a token comes, or the fuel does not suffice. -/
theorem next_of_isEndless (h : p.IsEndless w) (hp : p.done = false) (fuel : Nat) :
    (∃ t, (next w fuel p).answer = .token t ∧ (next w fuel p).state.IsEndless w ∧
      (next w fuel p).state.done = false) ∨
    (next w fuel p).answer = .outOfFuel := by
  induction fuel generalizing p with
  | zero => exact .inr (by simp [next, hp])
  | succ fuel ih =>
    have hdone : (step w p).state.done = false := (keeps_step w p).done_eq.trans hp
    have hcontinues := h.continues
    have hnext := ih h.step hdone
    unfold next
    dsimp only
    rw [hp]
    rcases houtcome : (step w p).outcome with t | _ | _ | f <;> rw [houtcome] at hcontinues
    · exact .inl ⟨t, rfl, h.step, hdone⟩
    · exact hnext
    · cases hcontinues
    · cases hcontinues

private theorem ending_pulls_of_isEndless (h : p.IsEndless w) (hp : p.done = false) (fuel count : Nat) :
    (pulls w fuel count p).ending = .limit ∨ (pulls w fuel count p).ending = .failed (.fault .outOfFuel) := by
  induction count generalizing p with
  | zero => exact .inl rfl
  | succ count ih =>
    rw [pulls_succ]
    unfold Next.resume
    rcases next_of_isEndless h hp fuel with ⟨t, hanswer, hendless, hdone⟩ | hanswer <;> rw [hanswer]
    · exact ih hendless hdone
    · exact .inr rfl

/-- For a run that never ends no fuel suffices. -/
theorem ending_run_of_isEndless (h : p.IsEndless w) (hp : p.done = false) (fuel : Nat) :
    (p.run w fuel).ending = .failed (.fault .outOfFuel) := by
  unfold run
  dsimp only
  rcases ending_pulls_of_isEndless h hp fuel fuel with hending | hending <;> rw [hending]
  exact hending

theorem not_isEndless_of_isDefinite {fuel : Nat} (h : (p.run w fuel).ending.IsDefinite) (hp : p.done = false) :
    ¬ p.IsEndless w := by
  intro hendless
  rw [ending_run_of_isEndless hendless hp fuel] at h
  exact h.2 rfl

end Preprocessor

end ErlangMacros
