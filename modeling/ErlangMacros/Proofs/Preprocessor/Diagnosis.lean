import ErlangMacros.Proofs.Preprocessor.Faults
import ErlangMacros.Proofs.Preprocessor.Termination

/-!
# Failures are errors of the input

A step over finite texts that opens no file fails with an error of the input, unless a text is broken off at a surrogate
(`isReported_step`).  A run that opens no file reads only its text, and so comes to an end.  Hence whenever it is asked for
a token it answers with one, with the end or with an error of the input, or the text holds a surrogate
(`answers_are_reported`).
-/

namespace ErlangMacros

namespace Preprocessor

open Expansion

variable {w : World} {p q : Preprocessor}

/-! ### Steps -/

/-- A step over finite texts that opens no file fails only with an error of the input, or because a text is broken
off. -/
theorem isReported_step (hp : p.IsSpelled) (hi : p.reader.inclusion.IsFinite)
    (hno : ∀ d ∈ (step w p).state.directives, d.action.isInclude = false) :
    (step w p).outcome.IsReported ∨
      (step w p).outcome = .fail (.fault .unencodable) ∧ ¬ p.reader.inclusion.IsUnbroken := by
  rcases houtcome : (step w p).outcome with t | _ | _ | f
  · exact .inl trivial
  · exact .inl trivial
  · exact .inl trivial
  rcases fails_step hp.isReadable houtcome with hreported | ⟨library, name, filename, g, -, hasks, -⟩
  · cases hreported with
    | error e => exact .inl trivial
    | endless hendless => exact absurd hi hendless
    | broken hbroken => exact .inr ⟨rfl, hbroken⟩
  · obtain ⟨d, hd, hinclude⟩ := executes_of_asks hasks w
    rw [hno d hd] at hinclude
    cases hinclude

/-- A step that opens no file reads as if there were none. -/
theorem advance_step_of_includes_nothing (hcontinues : (step w p).outcome.continues)
    (hno : ∀ d ∈ (step w p).state.directives, d.action.isInclude = false) :
    p.reader.Advance w (.fixed []) p.limit (step w p).state.reader := by
  cases move_step hcontinues with
  | suppressed hread hlooked _ hstate | emitted hread hlooked _ _ hstate =>
    rw [hstate]
    rcases hlooked with rfl | rfl
    · exact .token hread
    · exact .looked hread
  | expanded hread _ hresolve hpush _ hstate =>
    obtain ⟨name, r', hname, happlies⟩ := applies_resolve hresolve
    obtain ⟨tokens, -, hle, rfl⟩ := push_eq hpush
    rw [hstate]
    exact .expanded hread hname happlies rfl rfl hle
  | @directive hyphen r r₁ tokens _ hread hsource hcollect hdirected =>
    obtain ⟨cs, htakes, hsize, -⟩ := takes_collect_some hcollect
    have hcollects : p.reader.Collects r₁ := ⟨hread, hsource, htakes, hsize⟩
    cases hdirected with
    | skipped _ hstate | changed _ _ _ _ hstate =>
      rw [hstate]
      exact .directive hcollects .same
    | @included d _ _ _ _ _ _ _ haction _ _ _ _ hstate =>
      have hfalse : d.action.isInclude = false := hno d (by rw [hstate]; exact List.mem_cons_self ..)
      rcases haction with haction | haction <;> rw [haction] at hfalse <;> cases hfalse
    | reported _ _ _ _ _ hstate =>
      rw [hstate]
      exact .directive hcollects (.file _ _ _)

/-! ### Runs that open no file -/

/-- The run executes no directive that opens a file. -/
def IncludesNothing (w : World) (p : Preprocessor) : Prop :=
  ∀ n q, stateAfter w n p = some q → ∀ d ∈ (step w q).state.directives, d.action.isInclude = false

private theorem includesNothing_of_stateAfter_eq_none {n : Nat} (hn : stateAfter w n p = none)
    (h : ∀ m < n, ∀ q ∈ stateAfter w m p, ∀ d ∈ (step w q).state.directives, d.action.isInclude = false) :
    p.IncludesNothing w := by
  intro m q hq
  refine h m (Nat.lt_of_not_le fun hle => ?_) q hq
  rw [stateAfter_eq_none_of_le hn hle] at hq
  cases hq

/-- What holds in all states of a run over one text that opens no file. -/
structure ReadsOneText (w : World) (ending : Ending) (p : Preprocessor) : Prop where
  isSound : p.IsSound
  isSpelled : p.IsSpelled
  ends : p.reader.inclusion.Ends fun e => e = ending ∨ e = .finished
  size_le : p.reader.inclusion.size ≤ 1
  includesNothing : p.IncludesNothing w

variable {ending : Ending}

theorem ReadsOneText.isFinite (hp : p.ReadsOneText w ending) (hending : ending.repeats = false) :
    p.reader.inclusion.IsFinite := by
  intro s hs
  rcases hp.ends s hs with h | h <;> rw [h]
  · exact hending
  · rfl

theorem ReadsOneText.breaksOff (hp : p.ReadsOneText w ending) (hbroken : ¬ p.reader.inclusion.IsUnbroken) :
    ending.breaksOff = true := by
  by_contra hunbroken
  refine hbroken fun s hs => ?_
  rcases hp.ends s hs with h | h <;> rw [h]
  · exact Bool.eq_false_of_not_eq_true hunbroken
  · rfl

theorem ReadsOneText.step (hp : p.ReadsOneText w ending) (hcontinues : (step w p).outcome.continues) :
    (step w p).state.ReadsOneText w ending := by
  have hno := hp.includesNothing 0 p rfl
  have hadvance := advance_step_of_includes_nothing hcontinues hno
  have hfinder : (Finder.fixed []).ResolvesNothing w := by
    intro library name directory path h
    cases h
  refine ⟨hp.isSound.step hcontinues, hp.isSpelled.step hp.isSound hcontinues fun path text hincluded => ?_,
    (Reader.isClosed_ends (.inr rfl) (.inl hfinder)).advance hp.ends hadvance,
    (Reader.isClosed_size hfinder).advance hp.size_le hadvance, fun n q hq => hp.includesNothing (n + 1) q ?_⟩
  · obtain ⟨d, hd, hinclude⟩ := hincluded.executed
    rw [hno d (List.mem_of_mem_head? hd)] at hinclude
    cases hinclude
  · rwa [stateAfter, if_pos hcontinues]

private theorem stateAfter_eq_none_of_some {n m : Nat} (h : stateAfter w m p = some q) (hn : stateAfter w n p = none) :
    stateAfter w n q = none := by
  have hlater := stateAfter_eq_none_of_le hn (Nat.le_add_left n m)
  rwa [stateAfter_add, h, Option.bind_some] at hlater

theorem ReadsOneText.stateAfter {n : Nat} (hp : p.ReadsOneText w ending) (h : stateAfter w n p = some q) :
    q.ReadsOneText w ending :=
  stateAfter_induction hp h fun _ hq hcontinues => hq.step hcontinues

/-- A token, the end, or an error of the input. -/
def Answer.IsReported : Answer → Prop
  | .token _ => True
  | .stop => True
  | .failed f => f.IsReported
  | .outOfFuel => False

/-- With as much fuel as the run takes steps, an answer is a token after which the run goes on, or the last one. -/
theorem next_of_stateAfter_eq_none {n fuel : Nat} (hp : p.ReadsOneText w ending) (hending : ending.repeats = false)
    (hn : Preprocessor.stateAfter w n p = none) (hfuel : n ≤ fuel) :
    ((next w fuel p).answer.IsReported ∨
        (next w fuel p).answer = .failed (.fault .unencodable) ∧ ending.breaksOff = true) ∧
      ((next w fuel p).state.done = true ∨ ∃ m, Preprocessor.stateAfter w m p = some (next w fuel p).state) := by
  -- a step that proceeds takes one of the fuel and leaves one step less to take
  induction fuel generalizing p n with
  | zero =>
    obtain rfl : n = 0 := by omega
    cases hn
  | succ fuel ih =>
    obtain ⟨n, rfl⟩ : ∃ n', n = n' + 1 := by
      cases n with
      | zero => cases hn
      | succ n => exact ⟨n, rfl⟩
    have hreported := isReported_step hp.isSpelled (hp.isFinite hending) (hp.includesNothing 0 p rfl)
    unfold next
    rw [hp.isSound.done_eq]
    dsimp only
    rcases houtcome : (Preprocessor.step w p).outcome with t | _ | _ | f <;> rw [houtcome] at hreported
    · refine ⟨.inl trivial, .inr ⟨1, ?_⟩⟩
      rw [Preprocessor.stateAfter, houtcome]
      rfl
    · have hcontinues : (Preprocessor.step w p).outcome.continues := by
        rw [houtcome]
        rfl
      rw [Preprocessor.stateAfter, if_pos hcontinues] at hn
      obtain ⟨hanswer, hstate⟩ := ih (hp.step hcontinues) hn (by omega)
      refine ⟨hanswer, hstate.imp_right fun hlater => ?_⟩
      obtain ⟨m, hm⟩ := hlater
      refine ⟨m + 1, ?_⟩
      rw [Preprocessor.stateAfter, if_pos hcontinues]
      exact hm
    · exact ⟨.inl trivial, .inl rfl⟩
    · refine ⟨hreported.imp_right fun hbroken => ?_, .inl rfl⟩
      cases hbroken.1
      exact ⟨rfl, hp.breaksOff hbroken.2⟩

private theorem next_of_done (hp : p.done = true) (fuel : Nat) : next w fuel p = ⟨.stop, p, []⟩ := by
  cases fuel <;> simp [next, hp]

private theorem state_pulls_of_done (hp : p.done = true) (fuel count : Nat) : (pulls w fuel count p).state = p := by
  cases count with
  | zero => rfl
  | succ count =>
    rw [pulls_succ, next_of_done hp]
    rfl

/-- Whatever has been asked for, the run is over or has taken some steps. -/
theorem state_pulls {n fuel : Nat} (hp : p.ReadsOneText w ending) (hending : ending.repeats = false)
    (hn : Preprocessor.stateAfter w n p = none) (hfuel : n ≤ fuel) (count : Nat) :
    (pulls w fuel count p).state.done = true ∨
      ∃ m, Preprocessor.stateAfter w m p = some (pulls w fuel count p).state := by
  induction count generalizing p with
  | zero => exact .inr ⟨0, rfl⟩
  | succ count ih =>
    obtain ⟨-, hstate⟩ := next_of_stateAfter_eq_none hp hending hn hfuel
    rw [pulls_succ]
    unfold Next.resume
    split
    -- only after a token the run is asked again, and then no more than `n` steps are left
    · rcases hstate with hdone | ⟨m, hm⟩
      · refine .inl ?_
        change (pulls w fuel count (next w fuel p).state).state.done = true
        rw [state_pulls_of_done hdone]
        exact hdone
      · rcases ih (hp.stateAfter hm) (stateAfter_eq_none_of_some hm hn) with hdone | ⟨k, hk⟩
        · exact .inl hdone
        · exact .inr ⟨m + k, stateAfter_trans hm hk⟩
    · exact hstate
    · exact hstate
    · exact hstate

/-- A run over a text whose lexing makes progress, in which no file is opened: with all fuel that suffices, each time it
is asked for a token it gives one, or comes to the end, or reports an error of the input.  There is one exception: it
fails otherwise if it has read up to the first surrogate of the text, where lexing breaks off. -/
theorem answers_are_reported {text : Text} {filename : Option Text} {options : Options} {finder : Finder}
    {es : List Event} (hstart : start (.ofText text filename) options finder = (.ok p, es))
    (hlexing : (Lexing.ofText text filename).ending.repeats = false) (hincludes : p.IncludesNothing w) :
    ∃ bound, ∀ fuel ≥ bound, ∀ count,
      let answer := (next w fuel (pulls w fuel count p).state).answer
      answer.IsReported ∨
        answer = .failed (.fault .unencodable) ∧
          ∃ front n behind, text.toList = front ++ .surrogate n :: behind ∧ (∀ c ∈ front, c.isChar = true) ∧
            (Lexing.ofText text filename).ending = .failed ⟨.unencodable, coordinates filename front⟩ := by
  have hp : p.ReadsOneText w (Lexing.ofText text filename).ending := by
    have hspelled := isSpelled_start hstart hlexing
    refine ⟨isSound_start hstart, hspelled, ?_, ?_, hincludes⟩
    · obtain ⟨macros, -, rfl⟩ := start_eq hstart
      exact List.forall_mem_singleton.2 (.inl rfl)
    · obtain ⟨macros, -, rfl⟩ := start_eq hstart
      exact Nat.le_refl 1
  obtain ⟨bound, hbound⟩ := exists_stateAfter_eq_none_of_isFinite hp.isSound
    (fun n q hq => (hp.stateAfter hq).isFinite hlexing) fun n q hq => .inl (hp.stateAfter hq).size_le
  refine ⟨bound, fun fuel hfuel count => ?_⟩
  rcases state_pulls hp hlexing hbound hfuel count with hdone | ⟨m, hm⟩
  · rw [next_of_done hdone]
    exact .inl trivial
  · have hlater := stateAfter_eq_none_of_some hm hbound
    obtain ⟨hanswer, -⟩ := next_of_stateAfter_eq_none (hp.stateAfter hm) hlexing hlater hfuel
    rcases hanswer with hreported | ⟨hfailed, hbreaks⟩
    · exact .inl hreported
    · exact .inr ⟨hfailed, Lexing.surrogate_of_breaksOff hbreaks⟩

/-- Escape sequences in a file name, in an argument that is spelled and in a message that is reported.  There is no
surrogate in the text, so that all answers are reported. -/
theorem answers_are_reported_escapes :
    let text : Text := "-define(F(X), ??X).\n-file(\"\\x\x7b41\x7d\", 7).\n?F('\\101') ?LINE.\n-error(\"\\^A\")."
    let w : World := { workingDirectory := ⟨.root, []⟩ }
    let p := initial (.ofText text) {} (.fixed [])
    start (.ofText text) {} (.fixed []) = (.ok p, []) ∧ (Lexing.ofText text).ending.repeats = false ∧
      p.IncludesNothing w ∧
      ∃ bound, ∀ fuel ≥ bound, ∀ count, (next w fuel (pulls w fuel count p).state).answer.IsReported := by
  intro text w p
  have hstart : start (.ofText text) {} (.fixed []) = (.ok p, []) := by decide +kernel
  have hlexing : (Lexing.ofText text).ending.repeats = false := by decide +kernel
  have hincludes : p.IncludesNothing w := by
    have hend : stateAfter w 8 p = none := by decide +kernel
    exact includesNothing_of_stateAfter_eq_none hend (by decide +kernel)
  obtain ⟨bound, hbound⟩ := answers_are_reported hstart hlexing hincludes
  refine ⟨hstart, hlexing, hincludes, bound, fun fuel hfuel count => (hbound fuel hfuel count).resolve_right ?_⟩
  rintro ⟨-, front, n, behind, htext, -⟩
  have hchars : ∀ c ∈ text.toList, c.isChar = true := by decide +kernel
  cases hchars (.surrogate n) (by simp [htext])

/-- A comment that holds a surrogate.  The run fails, and this is no error of the input. -/
theorem answer_to_surrogate_is_fault :
    let text : Text := .ofList ['%', .surrogate 0]
    let w : World := { workingDirectory := ⟨.root, []⟩ }
    let p := initial (.ofText text) {} (.fixed [])
    start (.ofText text) {} (.fixed []) = (.ok p, []) ∧ (Lexing.ofText text).ending.repeats = false ∧
      (step w p).state.directives = [] ∧ (next w 1 p).answer = .failed (.fault .unencodable) := by
  decide +kernel

end Preprocessor

end ErlangMacros
