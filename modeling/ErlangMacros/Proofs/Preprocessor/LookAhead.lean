import ErlangMacros.Proofs.Preprocessor.Matching
import ErlangMacros.Proofs.Preprocessor.Move
import ErlangMacros.Proofs.Reader.Exchange
import ErlangMacros.Proofs.Reader.LookAhead
import ErlangMacros.Proofs.Token.Lexeme

/-!
# What a run has looked at

The tokens that are taken from a run depend on what it has pulled from its input, and on nothing behind that.  And a run
pulls no more than it needs: it looks one token ahead, unless the arguments of a call are put back because no variant of
the macro takes them (`look_ahead_is_bounded`).
-/

namespace ErlangMacros

/-! ### Exchanged input -/

namespace Inclusion

variable {ys zs : List Token}

private theorem ExchangesLast.emptied_eq {ss ss' : List Source} (h : ExchangesLast ys zs ss ss') :
    ss'.getLast?.map Source.emptied = ss.getLast?.map Source.emptied := by
  induction h with
  | input hs =>
    cases hs
    rfl
  | @file s ss ss' hrest ih =>
    have hne : ss' ≠ [] := List.length_pos_iff.1 (hrest.length_eq ▸ List.length_pos_iff.2 hrest.ne_nil)
    rwa [List.getLast?_cons_of_ne_nil hrest.ne_nil, List.getLast?_cons_of_ne_nil hne]

end Inclusion

/-- When everything is dropped, nothing is left of what was exchanged. -/
theorem Reader.Exchanges.clear_eq {ys zs : List Token} {r r' : Reader} (h : Exchanges ys zs r r') :
    r'.clear = r.clear := by
  have hlast := h.sources.emptied_eq
  rw [Inclusion.sources, Inclusion.sources, List.getLast?_cons, List.getLast?_cons, Option.map_some, Option.map_some]
    at hlast
  simp only [clear, Inclusion.clear, Option.some.inj hlast, h.limit_eq, h.depth_eq, h.callSite_eq]

/-! ### Calls that fall back -/

/-- Arguments follow the name of a macro that no variant takes, and they are put back in favour of the variant without
arguments. -/
def Expansion.nameFallsBack (ctx : Context) (site : Site) (name : Text) (r : Reader) : Bool :=
  (Predefined.ofName? name).isNone &&
    match readArguments site (ctx.macros.arities name) r with
    | (.ok (some a), _) =>
      (ctx.macros.get? name (some a.args.length)).isNone && (ctx.macros.arities name).contains none
    | _ => false

/-- The call that follows a question mark falls back to the variant without arguments. -/
def Expansion.fallsBack (ctx : Context) (site : Site) (r : Reader) : Bool :=
  match r.read with
  | (.token t, r') => t.calledName?.any (nameFallsBack ctx site · r')
  | _ => false

/-- The next step expands a call that falls back. -/
def Preprocessor.fallsBack (p : Preprocessor) : Bool :=
  p.conditions.active &&
    match p.reader.read with
    | (.token t, r) => t.isSymbol "?" && Expansion.fallsBack p.context (.ofReader r t) r
    | _ => false

namespace Reader

variable {r r' : Reader} {t : Token} {i : Inclusion}

/-- A token that comes straight from a source leaves no expansion and no token that waits. -/
theorem IsTight.read_source (h : r.IsTight) (hnested : r.IsNested) (hread : r.read = (.token t, r'))
    (hsource : r'.depth = 0) : r'.IsClear ∧ r'.frames = [] := by
  refine (h.read hread).2 ?_
  rcases read_cases hread with ⟨f, fs, hpop, rfl⟩ | ⟨hpop, -⟩
  · have hdepth := hnested f (mem_of_popFrames hpop).1
    rw [show f.depth = 0 from hsource] at hdepth
    exact absurd hdepth (by decide)
  · exact hpop

/-- A file is opened above sources in which no token waits. -/
theorem IsClear.enter (h : r.IsClear) {text : Text} {name : Option Text} {position : Option Position}
    (hpush : r.inclusion.push (.ofText text name position) = .ok i) : ({ r with inclusion := i } : Reader).IsTight := by
  rw [(Inclusion.push_eq_ok hpush).2]
  exact .first (Nat.zero_le 1) h

theorem IsTight.resolveName {ctx : Expansion.Context} {site : Expansion.Site} {name : Text} {nameToken : Token}
    {call : Expansion.Call} (h : r.IsTight) (hback : Expansion.nameFallsBack ctx site name r = false)
    (hresolve : Expansion.resolveName ctx site name nameToken r = (.ok call, r')) : r'.IsTight := by
  unfold Expansion.nameFallsBack at hback
  unfold Expansion.resolveName at hresolve
  dsimp only at hresolve
  rcases hpredefined : Predefined.ofName? name with _ | pre <;> rw [hpredefined] at hback hresolve
  · dsimp only at hresolve
    rw [Option.isNone_none, Bool.true_and] at hback
    split at hresolve
    · cases hresolve
    · rcases hargs : Expansion.readArguments site (ctx.macros.arities name) r with ⟨f | arguments, r₁⟩ <;>
        rw [hargs] at hback hresolve
      · cases hresolve
      · have hchosen : (Expansion.choose ctx site name nameToken arguments r₁).2 = r₁ := by
          rcases arguments with _ | a
          · exact Expansion.snd_lookedUp none r₁
          · dsimp only at hback
            rw [Expansion.choose_some, hback]
            exact Expansion.snd_lookedUp (some a.args) r₁
        obtain rfl : r₁ = r' := hchosen.symm.trans (congrArg Prod.snd hresolve)
        rcases Expansion.takes_readArguments hargs with ⟨-, rfl⟩ | ⟨a, -, htakes, -⟩
        · exact h.peek
        · exact h.peek.takes htakes
  · dsimp only at hresolve
    split at hresolve <;> cases hresolve
    exact h

/-- A call that does not fall back puts nothing back. -/
theorem IsTight.resolve {ctx : Expansion.Context} {site : Expansion.Site} {call : Expansion.Call} (h : r.IsTight)
    (hback : Expansion.fallsBack ctx site r = false) (hresolve : Expansion.resolve ctx site r = (.ok call, r')) :
    r'.IsTight := by
  unfold Expansion.fallsBack at hback
  unfold Expansion.resolve at hresolve
  rcases hread : r.read with ⟨t | _ | e, r₁⟩ <;> rw [hread] at hback hresolve <;> dsimp only at hback hresolve
  · split at hresolve
    · next hkind =>
      rcases hvalue : t.value with e | name <;> rw [hvalue] at hresolve
      · cases hresolve
      · rw [Token.calledName?_eq hkind hvalue, Option.any_some] at hback
        exact (h.read hread).1.resolveName hback hresolve
    · cases hresolve
  · cases hresolve
  · cases hresolve

end Reader

namespace Preprocessor

open Token (symbol operator atom var)

/-! ### Steps and runs -/

variable {w : World} {p : Preprocessor} {xs ys : List Token} {stream : Lexing} {options : Options} {finder : Finder}
  {es : List Event} {count : Nat}

/-- A step that does not fall back keeps at most one token waiting. -/
theorem isTight_step (hnested : p.reader.IsNested) (hp : p.reader.IsTight) (hback : p.fallsBack = false)
    (h : (step w p).outcome.continues) : (step w p).state.reader.IsTight := by
  cases move_step h with
  | suppressed hread hlooked _ hstate | emitted hread hlooked _ _ hstate =>
    rw [hstate]
    rcases hlooked with rfl | rfl
    · exact (hp.read hread).1
    · exact (hp.read hread).1.peek
  | expanded hread hquestion hresolve hpush _ hstate hactive =>
    unfold fallsBack at hback
    rw [hactive, hread, Bool.true_and] at hback
    dsimp only at hback
    rw [hquestion, Bool.true_and] at hback
    obtain ⟨tokens, -, -, rfl⟩ := Expansion.push_eq hpush
    have htight := (hp.read hread).1.resolve hback hresolve
    rw [hstate]
    exact htight
  | directive hread hsource hcollect hdirected =>
    -- the tokens of a directive come from a source, and after the last one no token waits there
    obtain ⟨hclear, hframes⟩ := hp.read_source hnested hread hsource
    obtain ⟨cs, htakes, -, htokens⟩ := takes_collect_some hcollect
    obtain ⟨t, r₁, rest, -, -, -, hrest, hrest_eq⟩ := exists_of_collect_some hcollect
    have hne : cs ≠ [] := by
      rintro rfl
      exact ne_nil_of_collectRest hrest (List.cons_eq_cons.1 (hrest_eq.symm.trans htokens)).2
    have hclear₁ := hclear.isTight.peek.takes_source ((Reader.frames_peek _).trans hframes) htakes hne
    cases hdirected with
    | skipped _ hstate | changed _ _ _ _ hstate =>
      rw [hstate]
      exact hclear₁.isTight
    | included _ _ _ hpush _ _ hstate =>
      rw [hstate]
      exact hclear₁.enter hpush
    | reported _ _ _ _ _ hstate =>
      rw [hstate]
      exact Inclusion.IsTight.setFile hclear₁.isTight _ _ _

/-- A run starts alike with other tokens at the end of its input. -/
theorem start_exchanged {reach : Nat} (h : start { tokens := xs ++ ys, reach } options finder = (.ok p, es))
    (zs : List Token) (reach' : Nat) :
    ∃ r, start { tokens := xs ++ zs, reach := reach' } options finder = (.ok { p with reader := r }, es) ∧
      p.reader.Exchanges ys zs r := by
  unfold start at h ⊢
  rcases hall : defineAll {} options.defines with ⟨f | macros, es'⟩ <;> rw [hall] at h
  · cases (Prod.mk.inj h).1
  · cases h
    exact ⟨_, rfl, rfl, .input (.mk reach' rfl rfl), rfl, rfl, rfl⟩

/-- Which tokens are taken from a run, how they end and what is known afterwards depends only on the tokens that have been
pulled from the input: those behind can be exchanged, and so can how far the input reaches, which marks its end.  As long
as no call falls back to the variant without arguments, at most one token of all sources together has been pulled and
waits to be read after a token was taken. -/
theorem look_ahead_is_bounded (hstart : start stream options finder = (.ok p, es)) :
    (∀ xs ys reach, stream = { tokens := xs ++ ys, reach } →
      Within w count (fun q => (step w q).state.reader.Spares ys) p →
      ∀ zs reach', ∃ p', start { tokens := xs ++ zs, reach := reach' } options finder = (.ok p', es) ∧
        ∀ fuel, (pulls w fuel count p').tokens = (pulls w fuel count p).tokens ∧
          (pulls w fuel count p').ending = (pulls w fuel count p).ending ∧
          ∃ r, (pulls w fuel count p').state = { (pulls w fuel count p).state with reader := r } ∧
            r.frames = (pulls w fuel count p).state.reader.frames) ∧
      (Within w count (fun q => q.fallsBack = false) p → ∀ fuel, (pulls w fuel count p).ending = .limit →
        ((pulls w fuel count p).state.reader.inclusion.sources.flatMap (·.pending)).length ≤ 1) := by
  constructor
  · rintro xs ys reach rfl hspares zs reach'
    obtain ⟨r', hstart', hr'⟩ := start_exchanged hstart zs reach'
    refine ⟨_, hstart', fun fuel => ?_⟩
    obtain ⟨htokens, hending, r, hstate, hr⟩ :=
      pulls_matching (w := w) Reader.isMatching_exchanges Reader.Exchanges.clear_eq hr' hspares
    refine ⟨htokens, hending, r, hstate, ?_⟩
    rcases hr with hr | rfl
    · exact hr.frames_eq
    · rfl
  · intro hback fuel hlimit
    have hinitial : p.reader.IsTight := by
      obtain ⟨macros, -, rfl⟩ := start_eq hstart
      exact .first (Nat.zero_le 1) (by simp [initial])
    have htight : IsSound (pulls w fuel count p).state ∧ (pulls w fuel count p).state.reader.IsTight :=
      pulls_induction (P := fun q => q.IsSound ∧ q.reader.IsTight) ⟨isSound_start hstart, hinitial⟩ hback
        (fun q hq hcalls hcontinues =>
          ⟨hq.1.step hcontinues, isTight_step hq.1.isPlaced.isNested hq.2 hcalls hcontinues⟩) hlimit
    exact htight.2.length_le

/-- A call without arguments looks at the token behind it, whatever comes then. -/
theorem look_ahead_is_bounded_call :
    let xs := [operator "-", atom "define", symbol "(", var "M", symbol ",", atom "m", symbol ")", symbol ".",
      operator "?", var "M", atom "z"]
    let ys := [operator "?"]
    let w : World := { workingDirectory := ⟨.root, []⟩ }
    let p := initial { tokens := xs ++ ys } {} (.fixed [])
    start { tokens := xs ++ ys } {} (.fixed []) = (.ok p, []) ∧
      Within w 1 (fun q => (step w q).state.reader.Spares ys) p ∧ Within w 1 (fun q => q.fallsBack = false) p ∧
      (pulls w 9 1 p).ending = .limit ∧ (pulls w 9 1 p).tokens.map Token.text = ["m"] ∧
      (∀ zs, ∃ p', start { tokens := xs ++ zs } {} (.fixed []) = (.ok p', []) ∧
        (pulls w 9 1 p').tokens = (pulls w 9 1 p).tokens) ∧
      ((pulls w 9 1 p).state.reader.inclusion.sources.flatMap (·.pending)).length ≤ 1 := by
  intro xs ys w p
  have hspares : Within w 1 (fun q => (step w q).state.reader.Spares ys) p := fun ts q hemits hlt =>
    of_decide_eq_true <|
      within_of_checkWithin (A := fun q => decide ((step w q).state.reader.Spares ys)) (n := 9) (by decide +kernel) ts q
        hemits hlt
  have hback : Within w 1 (fun q => q.fallsBack = false) p := fun ts q hemits hlt =>
    of_decide_eq_true <|
      within_of_checkWithin (A := fun q => decide (q.fallsBack = false)) (n := 9) (by decide +kernel) ts q hemits hlt
  have hstart : start { tokens := xs ++ ys } {} (.fixed []) = (.ok p, []) := rfl
  have hlimit : (pulls w 9 1 p).ending = .limit := by decide +kernel
  have hwaiting := (look_ahead_is_bounded hstart).2 hback 9 hlimit
  refine ⟨hstart, hspares, hback, hlimit, by decide +kernel, fun zs => ?_, hwaiting⟩
  obtain ⟨p', hstart', hpulls⟩ := (look_ahead_is_bounded hstart).1 xs ys 0 rfl hspares zs 0
  exact ⟨p', hstart', (hpulls 9).1⟩

end Preprocessor

end ErlangMacros
