import ErlangMacros.Proofs.Inclusion.Label
import ErlangMacros.Proofs.Preprocessor.Calls
import ErlangMacros.Proofs.Preprocessor.Move

/-!
# The history of a run

The state of a run forgets how it was reached.  A `History` keeps what was told, the last question mark that was read
straight from a source, and for every open source the last directive that changed what it reports.

The key fact is that all expansions that wait belong to this last question mark: they have its position as their call
site, and since it was read no source has been entered (`historyAfter_of_start`).  So a question mark that is read belongs
to it too, or is the next such question mark itself (`Traces.exists_call`).
-/

namespace ErlangMacros

namespace Preprocessor

/-- A question mark that was read straight from a source, the reader after that and, for each open source from the
inside out, the directive that set what it reports. -/
structure OutermostCall where
  question : Token
  reader : Reader
  reports : List (Option Directive)
deriving DecidableEq

/-- The directive that was executed on the way from one state to the next. -/
def executed? (p p' : Preprocessor) : Option Directive :=
  if p.directives.length < p'.directives.length then p'.directives.head? else none

/-- The directives that set what the open sources report, from the inside out.  A source that is entered starts with
none, one that is left takes its own along. -/
def reportsAfter (p p' : Preprocessor) (reports : List (Option Directive)) : List (Option Directive) :=
  let kept (size : Nat) := reports.drop (p.reader.inclusion.size - size)
  match executed? p p' with
  | none => kept p'.reader.inclusion.size
  | some d =>
    match d.action with
    | .file _ _ => some d :: (kept p'.reader.inclusion.size).tail
    | .includeFile _ | .includeLib _ => none :: kept (p'.reader.inclusion.size - 1)
    | _ => kept p'.reader.inclusion.size

/-- What is known of the steps of a run. -/
structure History where
  told : List Event := []
  /-- The last question mark that was read straight from a source. -/
  call : Option OutermostCall := none
  /-- The last directive that set what a source reports, for each open source from the inside out. -/
  reports : List (Option Directive) := [none]
deriving DecidableEq

/-- The question mark that the next step reads straight from a source. -/
def History.outermost? (h : History) (p : Preprocessor) : Option OutermostCall :=
  match p.reader.read with
  | (.token t, r) =>
    if r.fromSource && t.isSymbol "?" then
      some ⟨t, r, h.reports.drop (p.reader.inclusion.size - r.inclusion.size)⟩
    else none
  | _ => none

/-- The history after the next step. -/
def History.after (w : World) (h : History) (p : Preprocessor) : History where
  told := h.told ++ (step w p).events
  call := (h.outermost? p).or h.call
  reports := reportsAfter p (step w p).state h.reports

/-- The history after a number of steps. -/
def historyAfter (w : World) : Nat → History → Preprocessor → History
  | 0, h, _ => h
  | n + 1, h, p => historyAfter w n (h.after w p) (step w p).state

variable {w : World} {p p' : Preprocessor} {n : Nat} {h : History}

theorem historyAfter_succ (hreach : stateAfter w n p = some p') :
    historyAfter w (n + 1) h p = (historyAfter w n h p).after w p' := by
  induction n generalizing p h with
  | zero =>
    cases hreach
    rfl
  | succ n ih =>
    unfold stateAfter at hreach
    split at hreach
    · exact ih hreach
    · cases hreach

/-- What every step keeps holds in all states of a run, each with its history. -/
theorem historyAfter_induction {P : History → Preprocessor → Prop} (hp : P h p) (hreach : stateAfter w n p = some p')
    (hstep : ∀ h q, P h q → (step w q).outcome.continues → P (h.after w q) (step w q).state) :
    P (historyAfter w n h p) p' := by
  induction n generalizing p h with
  | zero =>
    cases hreach
    exact hp
  | succ n ih =>
    unfold stateAfter at hreach
    split at hreach
    · next hcontinues => exact ih (hstep h p hp hcontinues) hreach
    · cases hreach

/-! ### Expansions belong to the last outermost call -/

/-- The expansions that wait belong to a call, and no source has been entered since. -/
structure Belongs (c : OutermostCall) (r : Reader) : Prop where
  places : r.Places fun _ callSite => callSite = some c.question.position
  labels : r.inclusion.labels <:+ c.reader.inclusion.labels

/-- The expansions that wait belong to a call, if there are any. -/
def Traces (call : Option OutermostCall) (r : Reader) : Prop :=
  r.frames = [] ∨ ∃ c, call = some c ∧ Belongs c r

theorem isReadClosed_belongs (c : OutermostCall) :
    Reader.IsReadClosed (Belongs c) fun x => x.depth = 0 ∨ x.callSite = some c.question.position where
  read := by
    intro r r' t hr hread
    obtain ⟨hplaces, hplace⟩ := hr.places.of_read hread
    exact ⟨⟨hplaces, (Reader.labels_of_read hread).trans hr.labels⟩, hplace.imp And.left id⟩
  peek := by
    intro r hr
    exact ⟨hr.places.peek, r.labels_peek ▸ hr.labels⟩
  putBack := by
    intro r x hr hx
    exact ⟨hr.places.putBack fun hne => hx.resolve_left hne, r.labels_putBack x ▸ hr.labels⟩

theorem Traces.peek {call : Option OutermostCall} {r : Reader} (hr : Traces call r) : Traces call r.peek.2 := by
  rcases hr with hframes | ⟨c, hc, hbelongs⟩
  · exact .inl (r.frames_peek.trans hframes)
  · exact .inr ⟨c, hc, (isReadClosed_belongs c).peek hbelongs⟩

/-- A token comes from a source, and then no expansion waits, or from an expansion of the last outermost call. -/
theorem Traces.of_read {call : Option OutermostCall} {r r' : Reader} {t : Token} (hr : Traces call r)
    (hnested : r.IsNested) (hread : r.read = (.token t, r')) :
    (r'.depth = 0 ∧ r'.callSite = none ∧ r'.frames = []) ∨
      (1 ≤ r'.depth ∧ ∃ c, call = some c ∧ r'.callSite = some c.question.position ∧ Belongs c r') := by
  rcases Reader.read_cases hread with ⟨f, fs, hpop, rfl⟩ | ⟨-, i, -, rfl⟩
  · have hf : f ∈ r.frames := (Reader.mem_of_popFrames hpop).1
    rcases hr with hframes | ⟨c, hc, hbelongs⟩
    · rw [hframes] at hf
      cases hf
    · exact .inr ⟨hnested f hf, c, hc, hbelongs.places f hf, ((isReadClosed_belongs c).read hbelongs hread).1⟩
  · exact .inl ⟨rfl, rfl, rfl⟩

/-- A question mark that is read belongs to the last outermost call, or is the next one. -/
theorem Traces.exists_call {question : Token} {r : Reader} (hp : Traces h.call p.reader)
    (hnested : p.reader.IsNested) (hread : p.reader.read = (.token question, r))
    (hquestion : question.isSymbol "?" = true) :
    ∃ c, (h.outermost? p).or h.call = some c ∧
      (Expansion.Site.ofReader r question).callSite = c.question.position ∧ Belongs c r := by
  rcases hp.of_read hnested hread with ⟨hdepth, hsite, hframes⟩ | ⟨hdepth, c, hc, hsite, hbelongs⟩
  · refine ⟨⟨question, r, h.reports.drop (p.reader.inclusion.size - r.inclusion.size)⟩, ?_,
      by simp [Expansion.Site.ofReader, hsite], ?_⟩
    · simp [History.outermost?, hread, Reader.fromSource, hdepth, hquestion]
    · exact ⟨fun f hf => by simp [hframes] at hf, List.suffix_rfl⟩
  · refine ⟨c, ?_, by simp [Expansion.Site.ofReader, hsite], hbelongs⟩
    have hno : r.depth ≠ 0 := by omega
    simp [History.outermost?, hread, Reader.fromSource, hno, hc]

/-- No expansion waits while a directive is read. -/
theorem frames_collect {hyphen : Token} {r r₁ : Reader} {tokens : List Token} (hnested : p.reader.IsNested)
    (hread : p.reader.read = (.token hyphen, r)) (hsource : r.depth = 0)
    (hcollect : collect r hyphen = (.ok (some tokens), r₁)) : r₁.frames = [] := by
  have hframes : r.frames = [] := by
    rcases Reader.read_cases hread with ⟨f, fs, hpop, rfl⟩ | ⟨-, i, -, rfl⟩
    · have hdepth := hnested f (Reader.mem_of_popFrames hpop).1
      dsimp only at hsource
      omega
    · rfl
  obtain ⟨cs, htakes, -⟩ := takes_collect_some hcollect
  have hnone : r₁.Places fun _ _ => False := by
    refine htakes.places fun f hf => ?_
    rw [r.frames_peek, hframes] at hf
    cases hf
  exact List.eq_nil_iff_forall_not_mem.2 hnone

theorem Traces.step (hp : Traces h.call p.reader) (hnested : p.reader.IsNested)
    (hcontinues : (step w p).outcome.continues) : Traces (h.after w p).call (step w p).state.reader := by
  -- a token that is not expanded is taken away, and looking at the next one changes nothing
  have hordinary {t : Token} {r : Reader} (hread : p.reader.read = (.token t, r)) : Traces (h.after w p).call r := by
    rcases hp.of_read hnested hread with ⟨-, -, hframes⟩ | ⟨hdepth, c, hc, -, hbelongs⟩
    · exact .inl hframes
    · have hno : r.depth ≠ 0 := by omega
      refine .inr ⟨c, ?_, hbelongs⟩
      simp [History.after, History.outermost?, hread, Reader.fromSource, hno, hc]
  cases move_step hcontinues with
  | suppressed hread hlooked _ hstate =>
    rw [hstate]
    rcases hlooked with rfl | rfl
    · exact hordinary hread
    · exact (hordinary hread).peek
  | emitted hread hlooked _ _ hstate =>
    rw [hstate]
    rcases hlooked with rfl | rfl
    · exact hordinary hread
    · exact (hordinary hread).peek
  | expanded hread hquestion hresolve hpush _ hstate =>
    obtain ⟨c, hc, hsite, hbelongs⟩ := hp.exists_call hnested hread hquestion
    obtain ⟨name, r', hname, happlies⟩ := Expansion.applies_resolve hresolve
    have hbelongs' := (isReadClosed_belongs c).applies ((isReadClosed_belongs c).read hbelongs hname).1 happlies
    obtain ⟨tokens, -, -, rfl⟩ := Expansion.push_eq hpush
    rw [hstate]
    exact .inr ⟨c, hc, ⟨List.forall_mem_cons.2 ⟨congrArg some hsite, hbelongs'.places⟩, hbelongs'.labels⟩⟩
  | @directive _ r r₁ _ _ hread hsource hcollect hdirected =>
    have hframes₁ := frames_collect hnested hread hsource hcollect
    refine .inl ?_
    cases hdirected with
    | skipped _ hstate | changed _ _ _ _ hstate | included _ _ _ _ _ _ hstate | reported _ _ _ _ _ hstate =>
      rw [hstate]
      exact hframes₁

/-- In every state of a run the expansions that wait belong to the last outermost call.  What every step keeps in such
states holds too, if it holds at the start. -/
theorem historyAfter_of_start {stream : Lexing} {options : Options} {finder : Finder} {es : List Event}
    {P : History → Preprocessor → Prop} (hstart : start stream options finder = (.ok p, es)) (hp : P {} p)
    (hreach : stateAfter w n p = some p')
    (hstep : ∀ h q, q.IsSound → Traces h.call q.reader → P h q → (step w q).outcome.continues →
      P (h.after w q) (step w q).state) :
    p'.IsSound ∧ Traces (historyAfter w n {} p).call p'.reader ∧ P (historyAfter w n {} p) p' := by
  have hframes : p.reader.frames = [] := by
    obtain ⟨macros, -, rfl⟩ := start_eq hstart
    rfl
  refine historyAfter_induction (P := fun h q => q.IsSound ∧ Traces h.call q.reader ∧ P h q)
    ⟨isSound_start hstart, .inl hframes, hp⟩ hreach ?_
  rintro h q ⟨hq, htraces, hholds⟩ hcontinues
  exact ⟨hq.step hcontinues, htraces.step hq.isPlaced.isNested hcontinues, hstep h q hq htraces hholds hcontinues⟩

end Preprocessor

end ErlangMacros
