import ErlangMacros.Proofs.Lexer.Relexing
import ErlangMacros.Proofs.Preprocessor.Completion
import ErlangMacros.Proofs.Preprocessor.Provenance
import ErlangMacros.Proofs.Preprocessor.Trace
import ErlangMacros.Proofs.Token.Spelling

/-!
# The tokens of a run are lexemes

What holds of all tokens that a run is given and of all tokens that it makes, holds of all tokens that wait in it and of
those in the bodies of macros (`Bears.step`).  A text whose lexing comes to an end gives lexemes, and the tokens that are
made are lexemes too, but for lines that are reported as negative numbers and for names that hold a surrogate
(`IsSpelled`).

A text whose lexing does not come to an end is never left.  So a run that stops has read no such text
(`isFinite_of_finish`), and has emitted nothing else (`isSpelled_of_emits`).
-/

namespace ErlangMacros

/-! ### Texts that are never left -/

namespace Source

private theorem repeats_next (s : Source) : s.next.2.stream.ending.repeats = s.stream.ending.repeats := by
  unfold next pull
  split
  · rfl
  split
  · rfl
  split
  · rfl
  · next hending => rw [hending]; rfl
  · rfl

private theorem repeats_peek (s : Source) : s.peek.2.stream.ending.repeats = s.stream.ending.repeats := by
  have h := s.repeats_next
  unfold peek
  rcases hn : s.next with ⟨t | _ | e, s'⟩ <;> rw [hn] at h <;> exact h

private theorem repeats_of_next_finished {s s' : Source} (h : s.next = (.finished, s')) :
    s.stream.ending.repeats = false := by
  have hexhausted : s.isExhausted = true := s.next_fst_eq_finished_iff.1 (by rw [h])
  simp only [isExhausted, Bool.and_eq_true, decide_eq_true_eq] at hexhausted
  rw [hexhausted.2]
  rfl

end Source

namespace Inclusion

/-- A source that is left has come to its end. -/
theorem isFinite_of_readThrough {current : Source} {outer : List Source}
    (h : ∀ s ∈ (readThrough current outer).2.1 :: (readThrough current outer).2.2, s.stream.ending.repeats = false) :
    ∀ s ∈ current :: outer, s.stream.ending.repeats = false := by
  induction outer generalizing current with
  | nil =>
    obtain ⟨hcurrent, -⟩ := List.forall_mem_cons.1 h
    exact List.forall_mem_singleton.2 (current.repeats_next ▸ hcurrent)
  | cons o outer ih =>
    unfold readThrough at h
    split at h
    · next hn => exact List.forall_mem_cons.2 ⟨Source.repeats_of_next_finished hn, ih h⟩
    · next hn =>
      obtain ⟨hcurrent, houter⟩ := List.forall_mem_cons.1 h
      have hsame := current.repeats_next
      rw [hn] at hsame
      exact List.forall_mem_cons.2 ⟨hsame ▸ hcurrent, houter⟩

private theorem isFinite_of_readThrough_finished {current : Source} {outer : List Source}
    (h : (readThrough current outer).1 = .finished) : ∀ s ∈ current :: outer, s.stream.ending.repeats = false := by
  induction outer generalizing current with
  | nil =>
    have hn : current.next = (.finished, current.next.2) := Prod.ext h rfl
    exact List.forall_mem_singleton.2 (Source.repeats_of_next_finished hn)
  | cons o outer ih =>
    unfold readThrough at h
    split at h
    · next hn => exact List.forall_mem_cons.2 ⟨Source.repeats_of_next_finished hn, ih h⟩
    · next hne _ => exact absurd h hne

private theorem isFinite_of_peekThrough {ss : List Source}
    (h : ∀ s ∈ (peekThrough ss).2, s.stream.ending.repeats = false) : ∀ s ∈ ss, s.stream.ending.repeats = false := by
  induction ss with
  | nil => exact h
  | cons s outer ih =>
    have hsame := s.repeats_peek
    unfold peekThrough at h
    split at h
    · next hp =>
      rw [hp] at hsame
      obtain ⟨hs, houter⟩ := List.forall_mem_cons.1 h
      exact List.forall_mem_cons.2 ⟨hsame ▸ hs, ih houter⟩
    · next hp =>
      rw [hp] at hsame
      obtain ⟨hs, houter⟩ := List.forall_mem_cons.1 h
      exact List.forall_mem_cons.2 ⟨hsame ▸ hs, houter⟩

end Inclusion

namespace Reader

/-- A source that gives one token for ever stays open. -/
theorem isClosed_not_isFinite (w : World) (finder : Finder) :
    IsClosed w finder (fun r => ¬ r.inclusion.IsFinite) fun _ => True where
  read := by
    intro r r' t hr hread
    refine ⟨fun hfinite => hr ?_, trivial⟩
    rcases read_cases hread with ⟨f, fs, -, rfl⟩ | ⟨-, i, hi, rfl⟩
    · exact hfinite
    · unfold Inclusion.read at hi
      obtain ⟨-, rfl⟩ := Prod.mk.inj hi
      exact Inclusion.isFinite_of_readThrough hfinite
  peek := by
    intro r hr hfinite
    refine hr ?_
    rcases r.inclusion_peek with h | h <;> rw [h] at hfinite
    · exact hfinite
    · rw [Inclusion.IsFinite, Inclusion.Ends, r.inclusion.peek_eq.2.1] at hfinite
      exact Inclusion.isFinite_of_peekThrough hfinite
  putBack := by
    intro r c hr _ hfinite
    refine hr ?_
    unfold putBack at hfinite
    split at hfinite
    · exact List.forall_mem_cons.2 (List.forall_mem_cons.1 hfinite)
    · split at hfinite
      · split at hfinite <;> exact hfinite
      · exact hfinite
  push := fun hr' _ _ _ => hr'
  evaluates := by
    intro r r' hr h hfinite
    refine hr ?_
    cases h with
    | same => exact hfinite
    | file => exact List.forall_mem_cons.2 (List.forall_mem_cons.1 hfinite)
    | included _ _ hpush =>
      rw [(Inclusion.push_eq_ok hpush).2] at hfinite
      exact (List.forall_mem_cons.1 hfinite).2

end Reader

/-- The action opens a file. -/
def Action.isInclude : Action → Bool
  | .includeFile _ | .includeLib _ => true
  | _ => false

namespace Preprocessor

variable {w : World} {p q : Preprocessor} {ts : List Token}

private theorem isFinite_of_step (h : (step w p).outcome.continues)
    (hfinite : (step w p).state.reader.inclusion.IsFinite) : p.reader.inclusion.IsFinite :=
  by_contra fun hp => (Reader.isClosed_not_isFinite w p.finder).advance hp (advance_step h) hfinite

theorem isFinite_of_emits (h : Emits w p ts q) (hq : q.reader.inclusion.IsFinite) : p.reader.inclusion.IsFinite := by
  induction h with
  | refl => exact hq
  | emit hemit _ ih => exact isFinite_of_step (by rw [hemit]; rfl) (ih hq)
  | proceed hproceed _ ih => exact isFinite_of_step (by rw [hproceed]; rfl) (ih hq)

/-- A run stops only when all sources have come to their ends. -/
theorem isFinite_of_finish (h : (step w p).outcome = .finish) : p.reader.inclusion.IsFinite := by
  rcases hread : p.reader.read with ⟨t | _ | e, r⟩
  · exact absurd h (outcome_step_ne_finish hread)
  · unfold Reader.read at hread
    split at hread
    · cases hread
    · exact Inclusion.isFinite_of_readThrough_finished (Prod.mk.inj hread).1
  · simp only [step, hread] at h
    cases h

/-! ### Tokens -/

/-- The tokens of predefined macros are lexemes, but for the line where a source reports a negative one, and for the name
of a file or of the module if it holds a surrogate. -/
theorem predefinedToken_spelling {ctx : Expansion.Context} {source : Source} {site : Expansion.Site} {pre : Predefined}
    {t : Token} (h : Expansion.predefinedToken ctx source site pre = .ok t) :
    (Scan.IsLexeme t.kind t.text.toList ∨ t.IsBroken) ∨
      (pre = .line ∧ source.logicalLine site.callSite.line < 0 ∧ t.IsNegative) := by
  unfold Expansion.predefinedToken at h
  dsimp only at h
  split at h
  · cases h
    rcases Int.lt_or_le (source.logicalLine site.callSite.line) 0 with hline | hline
    · exact .inr ⟨rfl, hline, rfl, _, hline, rfl⟩
    · exact .inl (.inl (isLexeme_integer hline))
  · split at h <;> cases h
    exact .inl (quoteString_spelling rfl rfl)
  · cases h
    have hbeam : Scan.IsLexeme .atom (quoteAtom "BEAM").toList := isLexeme_quoteAtom rfl
    exact .inl (.inl hbeam)
  · split at h <;> cases h
    exact .inl (quoteString_spelling rfl rfl)
  · split at h <;> cases h
    exact .inl (quoteAtom_spelling rfl rfl)

theorem isSpelled_predefinedToken {ctx : Expansion.Context} {source : Source} {site : Expansion.Site} {pre : Predefined}
    {t : Token} (h : Expansion.predefinedToken ctx source site pre = .ok t) : t.IsSpelled := by
  rcases predefinedToken_spelling h with (hlexeme | hbroken) | ⟨-, -, hnegative⟩
  · exact .inl hlexeme
  · exact .inr (.inr hbroken)
  · exact .inr (.inl hnegative)

/-- A string that spells tokens is a lexeme unless one of them holds a surrogate. -/
theorem stringify_spelling (arg : List Token) (marker : Token) :
    Scan.IsLexeme (stringify arg marker).kind (stringify arg marker).text.toList ∨ (stringify arg marker).IsBroken :=
  quoteString_spelling rfl rfl

theorem isSpelled_stringify (arg : List Token) (marker : Token) : (stringify arg marker).IsSpelled :=
  (stringify_spelling arg marker).imp_right .inr

theorem isLexeme_of_gives {text : Text} {filename : Option Text} {t : Token}
    (h : (Lexing.ofText text filename).ending.repeats = false) (ht : (Lexing.ofText text filename).Gives t) :
    Scan.IsLexeme t.kind t.text.toList := by
  rcases ht with ht | ht
  · exact Lexer.isLexeme_of_mem_tokenize h t ht
  · rw [ht] at h
    cases h

/-- A definition text is lexed to its end. -/
theorem ending_of_ofDefinition {text : Text} {m : Macro} (h : Macro.ofDefinition text = .ok m) :
    (Lexing.ofText text).ending = .finished := by
  unfold Macro.ofDefinition at h
  dsimp only at h
  split at h
  · split at h <;> cases h
  · cases h
  · assumption

theorem isLexeme_of_ofDefinition {text : Text} {m : Macro} (h : Macro.ofDefinition text = .ok m) :
    ∀ t ∈ m.body, Scan.IsLexeme t.kind t.text.toList := by
  intro t ht
  rcases Macro.ofDefinition_yields h with hsubset | ⟨name, -, hbody⟩
  · exact isLexeme_of_gives (by rw [ending_of_ofDefinition h]; rfl) (.inl (hsubset ht))
  · rw [hbody] at ht
    cases List.mem_singleton.1 ht
    have htrue : Scan.IsLexeme .atom (quoteAtom "true").toList := isLexeme_quoteAtom rfl
    exact htrue

/-! ### States -/

/-- The last directive has included the text of a file, which is read now. -/
structure HasIncluded (w : World) (p : Preprocessor) (path text : Text) : Prop where
  executed : ∃ d ∈ p.directives.head?, d.action.isInclude = true
  text_eq : w.readText path = .ok text
  stream_eq : p.reader.inclusion.current.stream = .ofText text (some path)

/-- The next step replaces a call of a predefined macro by a token, which is made from the source that is current when
the name of the macro has been read. -/
inductive Predefines (p : Preprocessor) : Predefined → Source → Expansion.Site → Token → Prop where
  | intro {question name t : Token} {r r' : Reader} {pre : Predefined} (active : p.conditions.active = true)
      (read : p.reader.read = (.token question, r)) (isQuestion : question.isSymbol "?" = true)
      (readName : r.read = (.token name, r')) (called : name.calledName? = some pre.name)
      (token : Expansion.predefinedToken p.context r'.inclusion.current (.ofReader r question) pre = .ok t) :
      Predefines p pre r'.inclusion.current (.ofReader r question) t

/-- All tokens that wait and those in the bodies of macros have a property. -/
structure Bears (Q : Token → Prop) (p : Preprocessor) : Prop where
  carries : Carries Q [] none p.reader
  bodies : ∀ m ∈ p.macros.macros, ∀ t ∈ m.body, Q t

theorem bears_start {Q : Token → Prop} {stream : Lexing} {options : Options} {finder : Finder} {es : List Event}
    (hstart : start stream options finder = (.ok p, es)) (hinput : ∀ t, stream.Gives t → Q t)
    (hdefines : ∀ text ∈ options.defines, ∀ m, Macro.ofDefinition text = .ok m → ∀ t ∈ m.body, Q t) : p.Bears Q := by
  unfold start at hstart
  rcases hall : defineAll {} options.defines with ⟨f | macros, es'⟩ <;> rw [hall] at hstart
  · cases (Prod.mk.inj hstart).1
  · cases hstart
    refine ⟨⟨List.forall_mem_nil _, fun s hs t ht => ?_, List.forall_mem_nil _⟩,
      bodies_of_defineAll hall hdefines (by simp)⟩
    cases List.mem_singleton.1 hs
    rcases ht with ht | ht
    · cases ht
    · exact hinput t ht

section Bears

variable {Q : Token → Prop} (hspells : ∀ arg marker, Q (stringify arg marker))
include hspells

theorem of_provenance {t : Token} (h : Provenance Q [] none t) : Q t := by
  induction h with
  | given h => exact h
  | default h =>
    obtain ⟨text, hmem, -⟩ := h
    cases hmem
  | predefined _ hcall => cases hcall
  | spelled => exact hspells _ _

theorem Bears.read (hp : p.Bears Q) {t : Token} {r : Reader} (hread : p.reader.read = (.token t, r)) :
    Carries Q [] none r ∧ Q t := by
  obtain ⟨hcarries, htoken⟩ := (isReadClosed_carries _ _ _).read hp.carries hread
  exact ⟨hcarries, of_provenance hspells htoken.provenance⟩

/-- The tokens of an expansion, if the call is not one of a predefined macro with a token that lacks the property. -/
theorem Bears.expanded (hp : p.Bears Q) {question : Token} {r r₁ : Reader} {c : Expansion.Call}
    {tokens : List Token} (hmade : ∀ pre source site t, p.Predefines pre source site t → Q t)
    (hactive : p.conditions.active = true) (hread : p.reader.read = (.token question, r))
    (hquestion : question.isSymbol "?" = true)
    (hresolve : Expansion.resolve p.context (.ofReader r question) r = (.ok c, r₁))
    (htokens : c.meaning.tokens = .ok tokens) : ∀ t ∈ tokens, Q t := by
  have hclosed := isReadClosed_carries Q [] none
  obtain ⟨name, r', hname, ⟨pre, token, hmeaning, hcalled, htoken⟩ | ⟨m, args, hmeaning, hm, -, hargs⟩⟩ :=
    resolve_meaning hresolve
  · rw [hmeaning] at htokens
    cases htokens
    exact List.forall_mem_singleton.2 (hmade _ _ _ _ (.intro hactive hread hquestion hname hcalled htoken))
  · rw [hmeaning] at htokens
    have harguments : ∀ as ∈ args, ∀ arg ∈ as, ∀ t ∈ arg, Provenance Q [] none t := by
      intro as has arg harg t ht
      obtain ⟨cs, r₂, htakes, hsubset⟩ := hargs as has
      obtain ⟨x, hx, rfl⟩ := List.mem_map.1 (hsubset arg harg t ht)
      have hcarries := (hclosed.read (hp.read hspells hread).1 hname).1
      exact ((hclosed.takes (hclosed.peek hcarries) htakes).2 x hx).provenance
    have hreplaced := provenance_replace htokens harguments fun t ht => .inl (hp.bodies m hm t ht)
    exact fun t ht => of_provenance hspells (hreplaced t ht)

/-- The tokens of a directive. -/
theorem of_collect {hyphen : Token} {r r₁ : Reader} {tokens : List Token} (hr : Carries Q [] none r)
    (hhyphen : Q hyphen) (hcollect : collect r hyphen = (.ok (some tokens), r₁)) :
    Carries Q [] none r₁ ∧ ∀ t ∈ tokens, Q t := by
  have hclosed := isReadClosed_carries Q [] none
  obtain ⟨cs, htakes, -, rfl⟩ := takes_collect_some hcollect
  obtain ⟨hcarries₁, hcs⟩ := hclosed.takes (hclosed.peek hr) htakes
  refine ⟨hcarries₁, List.forall_mem_cons.2 ⟨hhyphen, fun t ht => ?_⟩⟩
  obtain ⟨x, hx, rfl⟩ := List.mem_map.1 ht
  exact of_provenance hspells (hcs x hx).provenance

/-- A step keeps a property of all tokens, if the tokens that it makes have it and those of a file that it includes. -/
theorem Bears.step (hp : p.Bears Q) (hsound : p.IsSound) (hcontinues : (step w p).outcome.continues)
    (hmade : ∀ pre source site t, p.Predefines pre source site t → Q t)
    (hfile : ∀ path text, .entering (some path) ∈ (step w p).events → HasIncluded w (step w p).state path text →
      ∀ t, (Lexing.ofText text (some path)).Gives t → Q t) : (step w p).state.Bears Q := by
  have hclosed := isReadClosed_carries Q [] none
  have hordinary {t : Token} {r r' : Reader} (hread : p.reader.read = (.token t, r))
      (hlooked : r' = r ∨ r' = r.peek.2) : Carries Q [] none r' := by
    rcases hlooked with rfl | rfl
    · exact (hp.read hspells hread).1
    · exact carries_peek (hp.read hspells hread).1
  cases move_step hcontinues with
  | suppressed hread hlooked _ hstate =>
    rw [hstate]
    exact ⟨hordinary hread hlooked, hp.bodies⟩
  | emitted hread hlooked _ _ hstate =>
    rw [hstate]
    exact ⟨hordinary hread hlooked, hp.bodies⟩
  | expanded hread hmark hresolve hpush _ hstate hactive =>
    obtain ⟨name, r', hname, happlies⟩ := Expansion.applies_resolve hresolve
    have hcarries := hclosed.applies (hclosed.read (hp.read hspells hread).1 hname).1 happlies
    have hplaced := (hsound.step hcontinues).isPlaced.isNested
    obtain ⟨tokens, htokens, -, rfl⟩ := Expansion.push_eq hpush
    rw [hstate] at hplaced ⊢
    refine ⟨⟨hplaced, hcarries.sources, List.forall_mem_cons.2 ⟨fun t ht => ?_, hcarries.frames⟩⟩, hp.bodies⟩
    exact .given (hp.expanded hspells hmade hactive hread hmark hresolve htokens t ht)
  | directive hread hsource hcollect hdirected =>
    obtain ⟨hcarries, hhyphen⟩ := hp.read hspells hread
    obtain ⟨hcarries, htokens⟩ := of_collect hspells hcarries hhyphen hcollect
    cases hdirected with
    | skipped _ hstate =>
      rw [hstate]
      exact ⟨hcarries, hp.bodies⟩
    | changed hparse _ hmacros _ hstate =>
      rw [hstate]
      refine ⟨hcarries, fun m hm t ht => ?_⟩
      -- a body that was not in the table before is a part of the directive
      rcases hmacros m hm with hm | ⟨name, params, haction⟩
      · exact hp.bodies m hm t ht
      · obtain ⟨_, _, _, _, hmade⟩ := Directive.parse_yields hparse
        exact htokens t (hmade.body_subset haction ht)
    | @included d path file text _ _ _ _ haction htext hpush htold _ hstate =>
      have hinclude : d.action.isInclude = true := by
        rcases haction with haction | haction <;> rw [haction] <;> rfl
      have hincluded : HasIncluded w (Preprocessor.step w p).state file.toString text := by
        refine ⟨⟨d, ?_, hinclude⟩, htext, ?_⟩
        · rw [hstate]
          rfl
        · rw [hstate, (Inclusion.push_eq_ok hpush).2]
          rfl
      rw [hstate]
      refine ⟨⟨hcarries.nested, hcarries.sources.push (fun t ht => ?_) hpush, hcarries.frames⟩, hp.bodies⟩
      rcases ht with ht | ht
      · cases ht
      · exact hfile _ _ htold hincluded t ht
    | reported _ _ _ _ _ hstate =>
      rw [hstate]
      exact ⟨⟨hcarries.nested, hcarries.sources.setFile _ _ _, hcarries.frames⟩, hp.bodies⟩

theorem Bears.emitted (hp : p.Bears Q) {t : Token} (h : (Preprocessor.step w p).outcome = .emit t) : Q t := by
  have hcontinues : (Preprocessor.step w p).outcome.continues := by
    rw [h]
    rfl
  cases move_step hcontinues with
  | suppressed _ _ houtcome | expanded _ _ _ _ houtcome =>
    rw [h] at houtcome
    cases houtcome
  | emitted hread _ _ houtcome =>
    rw [h] at houtcome
    cases houtcome
    exact (hp.read hspells hread).2
  | directive _ _ _ hdirected =>
    cases hdirected with
    | skipped houtcome | changed _ _ _ houtcome | included _ _ _ _ _ houtcome | reported _ _ _ _ houtcome =>
      rw [h] at houtcome
      cases houtcome

/-- What holds of all tokens that a run is given and makes in its first steps, holds of those that wait then. -/
theorem Bears.stateAfter {n : Nat} (hp : p.Bears Q) (hsound : p.IsSound) (h : stateAfter w n p = some q)
    (hmade : ∀ m < n, ∀ p', Preprocessor.stateAfter w m p = some p' →
      ∀ pre source site t, p'.Predefines pre source site t → Q t)
    (hfile : ∀ m < n, ∀ p', Preprocessor.stateAfter w m p = some p' →
      ∀ path text, .entering (some path) ∈ (Preprocessor.step w p').events → w.readText path = .ok text →
        ∀ t, (Lexing.ofText text (some path)).Gives t → Q t) : q.Bears Q := by
  induction n generalizing p with
  | zero =>
    cases h
    exact hp
  | succ n ih =>
    unfold Preprocessor.stateAfter at h
    split at h
    · next hcontinues =>
      have hlater {m : Nat} {p' : Preprocessor}
          (hreach : Preprocessor.stateAfter w m (Preprocessor.step w p).state = some p') :
          Preprocessor.stateAfter w (m + 1) p = some p' := by
        rwa [Preprocessor.stateAfter, if_pos hcontinues]
      refine ih (hp.step hspells hsound hcontinues (hmade 0 (Nat.succ_pos n) p rfl) ?_) (hsound.step hcontinues) h
        (fun m hm p' hreach => hmade (m + 1) (Nat.succ_lt_succ hm) p' (hlater hreach))
        fun m hm p' hreach => hfile (m + 1) (Nat.succ_lt_succ hm) p' (hlater hreach)
      exact fun path text hentering hincluded => hfile 0 (Nat.succ_pos n) p rfl path text hentering hincluded.text_eq
    · cases h

end Bears

/-- All tokens that wait and those in the bodies of macros are lexemes, negative numbers or values with a surrogate. -/
abbrev IsSpelled (p : Preprocessor) : Prop :=
  p.Bears Token.IsSpelled

/-- A step keeps all tokens spelled as lexemes, unless it includes a file that is never left. -/
theorem IsSpelled.step (hp : p.IsSpelled) (hsound : p.IsSound) (hcontinues : (step w p).outcome.continues)
    (hfile : ∀ path text, HasIncluded w (step w p).state path text →
      (Lexing.ofText text (some path)).ending.repeats = false) : (step w p).state.IsSpelled := by
  refine Bears.step isSpelled_stringify hp hsound hcontinues ?_ fun path text _ hincluded t ht =>
    .inl (isLexeme_of_gives (hfile path text hincluded) ht)
  rintro _ _ _ _ ⟨-, -, -, -, -, htoken⟩
  exact isSpelled_predefinedToken htoken

theorem isSpelled_start {text : Text} {filename : Option Text} {options : Options} {finder : Finder}
    {es : List Event} (hstart : start (.ofText text filename) options finder = (.ok p, es))
    (h : (Lexing.ofText text filename).ending.repeats = false) : p.IsSpelled :=
  bears_start hstart (fun _ ht => .inl (isLexeme_of_gives h ht)) fun _ _ _ hm t ht =>
    .inl (isLexeme_of_ofDefinition hm t ht)

/-! ### Runs -/

/-- What is emitted on the way to a state in which all sources come to their ends. -/
theorem isSpelled_of_emits (h : Emits w p ts q) (hp : p.IsSpelled) (hsound : p.IsSound)
    (hq : q.reader.inclusion.IsFinite) : ∀ t ∈ ts, t.IsSpelled := by
  have hstep {p : Preprocessor} (hp : p.IsSpelled) (hsound : p.IsSound)
      (hcontinues : (Preprocessor.step w p).outcome.continues)
      (hfinite : (Preprocessor.step w p).state.reader.inclusion.IsFinite) :
      (Preprocessor.step w p).state.IsSpelled := by
    refine hp.step hsound hcontinues fun path text hincluded => ?_
    rw [← hincluded.stream_eq]
    exact hfinite _ (List.mem_cons_self ..)
  induction h with
  | refl => nofun
  | @emit p _ _ _ hemit hrest ih =>
    have hcontinues : (Preprocessor.step w p).outcome.continues := by
      rw [hemit]
      rfl
    exact List.forall_mem_cons.2 ⟨Bears.emitted isSpelled_stringify hp hemit,
      ih (hstep hp hsound hcontinues (isFinite_of_emits hrest hq)) (hsound.step hcontinues) hq⟩
  | @proceed p _ _ hproceed hrest ih =>
    have hcontinues : (Preprocessor.step w p).outcome.continues := by
      rw [hproceed]
      rfl
    exact ih (hstep hp hsound hcontinues (isFinite_of_emits hrest hq)) (hsound.step hcontinues) hq

end Preprocessor

end ErlangMacros
