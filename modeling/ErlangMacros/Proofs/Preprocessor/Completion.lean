import Mathlib.Data.List.Chain
import ErlangMacros.Proofs.Directive.Tokens
import ErlangMacros.Proofs.Preprocessor.Extension
import ErlangMacros.Proofs.Preprocessor.Trace

/-!
# Running over input that is complete

If the input ends with a full stop and opens no file, then so does what is left of it after every step, until the full
stop has been read (`Completes.step`).  So a run over such input to its end goes the same way if more input stands behind
and more conditionals are open around it, and comes to the point where the input behind begins
(`Embeds.emits_of_completes`).
-/

namespace ErlangMacros

namespace Reader

variable {r r' : Reader}

theorem Completes.isErrorFree (h : r.Completes) : r.inclusion.IsErrorFree := by
  intro s hs
  rw [Inclusion.sources, h.outer_eq] at hs
  cases List.mem_singleton.1 hs
  exact h.ending_eq

/-- While no file is open, what is left is what is left of the input. -/
theorem remaining_alone (h : r.inclusion.outer = []) : r.remaining = r.inclusion.current.remaining := by
  simp [remaining, Inclusion.sources, h]

/-- The arguments of a call end with a parenthesis, so that the input stays complete. -/
theorem Completes.applies (h : r.Completes) (hr : r.IsNested) (happlies : Applies r r') : r'.Completes := by
  cases happlies with
  | bare => exact h
  | looked => exact h.peek.1
  | applied htakes hcloses =>
    refine (h.peek.1.takes htakes).resolve_right fun ⟨⟨c, hc, hstop⟩, _⟩ => ?_
    obtain ⟨c', hc', hclose⟩ := hcloses
    cases hc.symm.trans hc'
    rw [Token.isSymbol_eq_false hclose (by decide)] at hstop
    cases hstop
  | @putBack r' cs htakes =>
    have hfinite : r.peek.2.inclusion.IsFinite := ends_peek h.isErrorFree.isFinite rfl
    have houter : (r'.unread cs).inclusion.outer = [] := by
      have hlabels := (isReadClosed_labels r.inclusion.labels).applies List.suffix_rfl (.putBack htakes)
      have hlength := hlabels.length_le
      simp only [Inclusion.length_labels, Inclusion.size, h.outer_eq, List.length_nil] at hlength
      exact List.length_eq_zero_iff.1 (by omega)
    have hends : (r'.unread cs).inclusion.Ends (· = .finished) := Applies.ends (.putBack htakes) h.isErrorFree rfl
    refine ⟨houter, hends _ (List.mem_cons_self ..), ?_⟩
    rw [← remaining_alone houter, (htakes.expanded_unread hr.peek hfinite).2, remaining_peek h.isErrorFree.isFinite,
      remaining_alone h.outer_eq]
    exact h.stop

end Reader

/-- The name of a call is no symbol. -/
theorem Expansion.isSymbol_name_of_resolve {ctx : Context} {site : Site} {r r' r₁ : Reader} {name : Token} {call : Call}
    (hresolve : resolve ctx site r = (.ok call, r₁)) (hname : r.read = (.token name, r')) :
    name.isSymbol "." = false := by
  unfold resolve at hresolve
  rw [hname] at hresolve
  dsimp only at hresolve
  split at hresolve
  · next hkind =>
    simp only [Bool.or_eq_true, decide_eq_true_eq] at hkind
    rcases hkind with hkind | hkind <;> simp [Token.isSymbol, hkind, Kind.isSymbol]
  · cases hresolve

namespace Preprocessor

variable {w : World} {p p' q : Preprocessor}

/-- The two tokens begin a directive that opens a file. -/
def startsInclude (hyphen keyword : Token) : Bool :=
  hyphen.isSymbol "-" && (keyword.kind = .atom && (keyword.text = "include" || keyword.text = "include_lib"))

/-- The input that is left ends with a full stop and opens no file. -/
structure Completes (p : Preprocessor) : Prop where
  sound : p.IsSound
  reader : p.reader.Completes
  includes : p.reader.remaining.IsChain fun t u => startsInclude t u = false

/-- The input has been read to the end of a form. -/
structure IsDrained (p : Preprocessor) : Prop where
  reader : p.reader.IsDrained
  formStart_eq : p.formStart = true

/-- A directive that opens a file has the keyword for it. -/
theorem text_of_include {path : Token} {tokens : List Token} {d : Directive} (hparse : Directive.parse tokens = .ok d)
    (haction : d.action = .includeFile path ∨ d.action = .includeLib path) :
    ∃ keyword : Token, keyword ∈ tokens[1]? ∧ (keyword.text = "include" ∨ keyword.text = "include_lib") := by
  obtain ⟨keyword, hkeyword, k, hk, hmade⟩ := Directive.parse_yields hparse
  refine ⟨keyword, hkeyword, ?_⟩
  rw [← Keyword.text_of_ofText? hk, ← hmade.keyword_eq]
  exact haction.imp (fun h => by rw [h]; rfl) fun h => by rw [h]; rfl

/-- Input that opens no file has no directive that does. -/
theorem not_includes {r r₁ : Reader} {hyphen path : Token} {tokens : List Token} {d : Directive}
    (hp : p.reader.remaining.IsChain fun t u => startsInclude t u = false) (hnested : p.reader.IsNested)
    (hi : p.reader.inclusion.IsErrorFree) (hread : p.reader.read = (.token hyphen, r)) (hsource : r.depth = 0)
    (hhyphen : hyphen.isSymbol "-" = true) (hcollect : collect r hyphen = (.ok (some tokens), r₁))
    (hparse : Directive.parse tokens = .ok d) : ¬ (d.action = .includeFile path ∨ d.action = .includeLib path) := by
  intro haction
  obtain ⟨keyword, hkeyword, hinclude⟩ := text_of_include hparse haction
  obtain ⟨cs, htakes, -, rfl⟩ := takes_collect_some hcollect
  obtain ⟨hremaining, hframes, -⟩ := Reader.remaining_of_read_source hread hsource hnested hi.isFinite
  have hi' : r.inclusion.IsErrorFree := Reader.ends_of_read hread hi rfl
  -- the keyword is the first token of what is left
  obtain ⟨t, r', -, hpeek, hatom, -⟩ := exists_of_collect_some hcollect
  have hhead := Reader.flat_of_peek_token hpeek hi'.isFinite
  have hflat : r.flat = cs ++ r₁.flat := by
    rw [← Reader.flat_peek hi'.isFinite]
    exact htakes.flat_eq (Reader.ends_peek hi'.isFinite rfl)
  obtain _ | ⟨c, cs⟩ := cs
  · cases hkeyword
  · obtain rfl : c.token = keyword := by simpa using hkeyword
    obtain rfl : c.token = t := by simpa [hflat] using hhead
    obtain ⟨rest, hrest⟩ : ∃ rest, r.remaining = c.token :: rest := by
      have htokens : r.remaining = r.flat.map Consumed.token := by
        simp [Reader.flat, Reader.expanded, hframes, Function.comp_def]
      rw [htokens, hflat]
      exact ⟨_, rfl⟩
    rw [hremaining, hrest, List.isChain_cons_cons] at hp
    have hno := hp.1
    rcases hinclude with htext | htext <;> simp [startsInclude, hhyphen, hatom, htext] at hno

theorem Completes.step (hp : p.Completes) (hcontinues : (step w p).outcome.continues) :
    (step w p).state.Completes ∨ (step w p).state.IsDrained := by
  have hsound := hp.sound.step hcontinues
  have hnested := hp.sound.isPlaced.isNested
  have hfinite := hp.reader.isErrorFree.isFinite
  -- a token that starts neither a call nor a directive is taken away, and perhaps the next one looked at
  have hordinary {t : Token} {r r' : Reader} (hread : p.reader.read = (.token t, r)) (hlooked : r' = r ∨ r' = r.peek.2)
      (hreader : (Preprocessor.step w p).state.reader = r')
      (hstart : (Preprocessor.step w p).state.formStart = t.isSymbol ".") :
      (Preprocessor.step w p).state.Completes ∨ (Preprocessor.step w p).state.IsDrained := by
    have hsuffix : r'.remaining <:+ p.reader.remaining := by
      have hr := Reader.remaining_suffix_of_read hread hfinite
      rcases hlooked with rfl | rfl
      · exact hr
      · rwa [Reader.remaining_peek (Reader.ends_of_read hread hfinite rfl)]
    rcases hp.reader.read hread with hr | ⟨hstop, hr⟩
    · refine .inl ⟨hsound, ?_, by rw [hreader]; exact hp.includes.suffix hsuffix⟩
      rw [hreader]
      rcases hlooked with rfl | rfl
      · exact hr
      · exact hr.peek.1
    · refine .inr ⟨?_, hstart.trans hstop⟩
      rw [hreader]
      rcases hlooked with rfl | rfl
      · exact hr
      · exact hr.peek
  cases move_step hcontinues with
  | suppressed hread hlooked _ hstate => exact hordinary hread hlooked (by rw [hstate]) (by rw [hstate])
  | emitted hread hlooked _ _ hstate => exact hordinary hread hlooked (by rw [hstate]) (by rw [hstate])
  | @expanded question r r₁ r₂ _ _ hread hquestion hresolve hpush _ hstate =>
    obtain ⟨name, r', hname, happlies⟩ := Expansion.applies_resolve hresolve
    obtain ⟨tokens, -, -, rfl⟩ := Expansion.push_eq hpush
    have hr : r.Completes := (hp.reader.read hread).resolve_right fun ⟨hstop, _⟩ => by
      rw [Token.isSymbol_eq_false hquestion (by decide)] at hstop
      cases hstop
    have hr' : r'.Completes := (hr.read hname).resolve_right fun ⟨hstop, _⟩ => by
      rw [Expansion.isSymbol_name_of_resolve hresolve hname] at hstop
      cases hstop
    have hnested' : r'.IsNested := ((hnested.of_read hread).1.of_read hname).1
    have hsuffix : r₁.remaining <:+ p.reader.remaining :=
      (happlies.remaining_suffix hnested' hr'.isErrorFree.isFinite).trans
        ((Reader.remaining_suffix_of_read hname hr.isErrorFree.isFinite).trans
          (Reader.remaining_suffix_of_read hread hfinite))
    have hr₁ : r₁.Completes := hr'.applies hnested' happlies
    rw [hstate] at hsound ⊢
    exact .inl ⟨hsound, ⟨hr₁.outer_eq, hr₁.ending_eq, hr₁.stop⟩, hp.includes.suffix hsuffix⟩
  | @directive _ r r₁ _ _ hread hsource hcollect hdirected hhyphen =>
    have hr : r.Completes := (hp.reader.read hread).resolve_right fun ⟨hstop, _⟩ => by
      rw [Token.isSymbol_eq_false hhyphen (by decide)] at hstop
      cases hstop
    obtain ⟨cs, htakes, -⟩ := takes_collect_some hcollect
    have hsuffix : r₁.remaining <:+ p.reader.remaining := by
      refine (htakes.remaining_suffix (Reader.ends_peek hr.isErrorFree.isFinite rfl)).trans ?_
      rw [Reader.remaining_peek hr.isErrorFree.isFinite]
      exact Reader.remaining_suffix_of_read hread hfinite
    have hr₁ : r₁.Completes ∨ r₁.IsDrained := (hr.peek.1.takes htakes).imp_right And.right
    cases hdirected with
    | skipped _ hstate | changed _ _ _ _ hstate =>
      rw [hstate] at hsound ⊢
      exact hr₁.imp (fun hr₁ => ⟨hsound, hr₁, hp.includes.suffix hsuffix⟩) fun hr₁ => ⟨hr₁, rfl⟩
    | included hparse haction =>
      exact absurd haction
        (not_includes hp.includes hnested hp.reader.isErrorFree hread hsource hhyphen hcollect hparse)
    | reported _ _ _ _ _ hstate =>
      rw [hstate] at hsound ⊢
      refine hr₁.imp
        (fun hr₁ => ⟨hsound, ⟨hr₁.outer_eq, hr₁.ending_eq, hr₁.stop⟩, hp.includes.suffix hsuffix⟩) fun hr₁ => ?_
      exact ⟨⟨hr₁.frames_eq, hr₁.outer_eq, hr₁.remaining_eq, hr₁.ending_eq, hr₁.depth_eq, hr₁.callSite_eq⟩, rfl⟩

/-! ### Runs to the end of complete input -/

variable {behind : List Token} {below : List Conditional.Frame} {ts : List Token}

private theorem outcome_ordinary_ne_finish (p : Preprocessor) (t : Token) : (p.ordinary t).outcome ≠ .finish := by
  unfold ordinary
  dsimp only
  split
  · nofun
  · split
    · unfold expand
      dsimp only
      split
      · nofun
      · split <;> nofun
    · rcases outcome_emit_cases { p with formStart := t.isSymbol "." } t p.formStart with h | ⟨f, h⟩ <;> rw [h] <;> nofun

/-- The run does not end while a token is read. -/
theorem outcome_step_ne_finish {t : Token} {r : Reader} (hread : p.reader.read = (.token t, r)) :
    (Preprocessor.step w p).outcome ≠ .finish := by
  rw [step_token hread]
  dsimp only [Step.after, take]
  split
  · split
    · nofun
    · exact outcome_ordinary_ne_finish _ t
    · exact (evaluated_directive _ _).outcome_ne
  · exact outcome_ordinary_ne_finish _ t

private theorem IsDrained.not_continues (hp : p.IsDrained) : (Preprocessor.step w p).outcome.continues = false := by
  have hread : p.reader.read = (.finished, p.reader.read.2) := Prod.ext hp.reader.fst_read rfl
  exact continues_step hread nofun

/-- A step over complete input does the same with more input behind and more conditionals around it. -/
theorem Embeds.step_of_completes (h : p.Embeds behind below p') (hp : p.Completes ∨ p.IsDrained)
    (hbelow : (⟨below⟩ : Conditional.Stack).active = true) (hcontinues : (Preprocessor.step w p).outcome.continues) :
    ((Preprocessor.step w p).state.Completes ∨ (Preprocessor.step w p).state.IsDrained) ∧
      (Preprocessor.step w p).Embeds behind below (Preprocessor.step w p') := by
  have hp : p.Completes := hp.resolve_right fun hdrained => by
    rw [hdrained.not_continues] at hcontinues
    cases hcontinues
  have hstate := hp.step hcontinues
  have houter : (Preprocessor.step w p).state.reader.inclusion.outer = [] :=
    hstate.elim (fun h => h.reader.outer_eq) fun h => h.reader.outer_eq
  exact ⟨hstate, h.step hbelow (.inr ⟨hcontinues, houter, hp.reader⟩)⟩

/-- A run over complete input goes the same way with more input behind and more conditionals around it, up to the point
where the input behind begins. -/
theorem Embeds.emits_of_completes (hp : p.Completes ∨ p.IsDrained) (h : p.Embeds behind below p')
    (hbelow : (⟨below⟩ : Conditional.Stack).active = true) (hemits : Emits w p ts q)
    (hfinish : (Preprocessor.step w q).outcome = .finish) :
    ∃ q', Emits w p' ts q' ∧ q.Embeds behind below q' ∧ q.IsDrained := by
  induction hemits generalizing p' with
  | refl p =>
    rcases hp with hp | hp
    · obtain ⟨t, r, hread⟩ := hp.reader.exists_read
      exact absurd hfinish (outcome_step_ne_finish hread)
    · exact ⟨p', .refl p', h, hp⟩
  | @emit p q t ts hemit _ ih =>
    obtain ⟨hwhole, hstep⟩ := h.step_of_completes hp hbelow (w := w) (by rw [hemit]; rfl)
    obtain ⟨q', hrest, hq⟩ := ih hwhole hstep.state hfinish
    exact ⟨q', .emit (hstep.outcome_eq.trans hemit) hrest, hq⟩
  | @proceed p q ts hproceed _ ih =>
    obtain ⟨hwhole, hstep⟩ := h.step_of_completes hp hbelow (w := w) (by rw [hproceed]; rfl)
    obtain ⟨q', hrest, hq⟩ := ih hwhole hstep.state hfinish
    exact ⟨q', .proceed (hstep.outcome_eq.trans hproceed) hrest, hq⟩

/-- With nothing behind and nothing around it, a run goes the same way to any point. -/
theorem Embeds.emits (h : p.Embeds [] [] p') (hemits : Emits w p ts q) :
    ∃ q', Emits w p' ts q' ∧ q.Embeds [] [] q' := by
  induction hemits generalizing p' with
  | refl p => exact ⟨p', .refl p', h⟩
  | @emit p q t ts hemit _ ih =>
    have hstep := h.step (w := w) rfl (.inl ⟨rfl, rfl⟩)
    obtain ⟨q', hrest, hq⟩ := ih hstep.state
    exact ⟨q', .emit (hstep.outcome_eq.trans hemit) hrest, hq⟩
  | @proceed p q ts hproceed _ ih =>
    have hstep := h.step (w := w) rfl (.inl ⟨rfl, rfl⟩)
    obtain ⟨q', hrest, hq⟩ := ih hstep.state
    exact ⟨q', .proceed (hstep.outcome_eq.trans hproceed) hrest, hq⟩

end Preprocessor

end ErlangMacros
