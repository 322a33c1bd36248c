import Mathlib.Data.List.Chain
import ErlangMacros.Proofs.Macro.Flattening
import ErlangMacros.Proofs.Preprocessor.Calls
import ErlangMacros.Proofs.Preprocessor.Move
import ErlangMacros.Proofs.Preprocessor.Trace

/-!
# Runs over macros without parameters

A run scans its input and the expansions that come up token by token.  If no macro has parameters, it emits the
flattening of the input, or the part of it before the first call that is nested too deep (`run_flattens`).

`Performs cs f` says this of a part `cs` of what waits to be read.  Such parts are put together from left to right
(`Performs.append`), and a call performs what the body of its macro does one level deeper (`performs_call`).  So the
levels that are left for a token at depth `d` are the limit less `d` (`performs_flatten`).
-/

namespace ErlangMacros

namespace MacroTable

/-- There is only one flattening. -/
theorem Flattens.unique {t : MacroTable} {ts out out' : List Token} (h : t.Flattens ts out)
    (h' : t.Flattens ts out') : out' = out := by
  induction h generalizing out' with
  | nil =>
    cases h'
    rfl
  | token hplain _ ih =>
    cases h' with
    | token _ hrest => rw [ih hrest]
    | call hq => simp [hq] at hplain
  | call hq hu hget _ _ ihbody ihrest =>
    cases h' with
    | token hplain => simp [hq] at hplain
    | call _ hu' hget' hbody hrest =>
      rw [hu] at hu'
      cases hu'
      rw [hget] at hget'
      cases hget'
      rw [ihbody hbody, ihrest hrest]

end MacroTable

namespace Preprocessor

open Expansion
open Token (symbol operator atom var)

variable {w : World} {t : MacroTable} {limit : DepthLimit} {fixed : Bool} {p : Preprocessor}

/-- The state of a run over macros without parameters, in which no directive and no conditional comes up. -/
structure Scans (t : MacroTable) (limit : DepthLimit) (fixed : Bool) (p : Preprocessor) : Prop where
  macros_eq : p.macros = t
  limit_eq : p.limit = limit
  moduleFixed_eq : p.moduleFixed = fixed
  conditions_eq : p.conditions = {}
  isPlaced : p.reader.IsPlaced
  isErrorFree : p.reader.inclusion.IsErrorFree
  isChain : p.reader.remaining.IsChain fun a b => startsDirective a b = false

/-- From every state in which the tokens `cs` are the next, a run emits the tokens of `f`.  Then it goes on with what
comes after `cs`, or fails because a call is nested too deep.  Either the module has its name already or the atoms of
`f` have values. -/
def Performs (w : World) (t : MacroTable) (limit : DepthLimit) (fixed : Bool) (cs : List Consumed) (f : Flattening) :
    Prop :=
  ∀ p rest, Scans t limit fixed p → p.reader.flat = cs ++ rest →
    (fixed = true ∨ ∀ a ∈ f.tokens, a.kind = .atom → ∃ value, a.value = .ok value) →
    ∃ p', Emits w p f.tokens p' ∧
      match f.cut with
      | none => Scans t limit fixed p' ∧ p'.reader.flat = rest
      | some name => ∃ site position,
          (step w p').outcome = .fail (.diagnose (.expansionTooDeep name limit site) (some position))

private theorem performs_nil : Performs w t limit fixed [] {} :=
  fun p _ hp hflat _ => ⟨p, .refl p, hp, hflat⟩

/-- What is performed by two parts, one after the other. -/
theorem Performs.append {cs ds : List Consumed} {f g : Flattening} (hf : Performs w t limit fixed cs f)
    (hg : Performs w t limit fixed ds g) : Performs w t limit fixed (cs ++ ds) (f.append g) := by
  intro p rest hp hflat hvalues
  rw [List.append_assoc] at hflat
  rcases hcut : f.cut with _ | name
  · rw [Flattening.append_of_cut_none hcut] at hvalues ⊢
    simp only [List.mem_append, or_imp, forall_and] at hvalues
    obtain ⟨p', hemits, hscans⟩ := hf p _ hp hflat (hvalues.imp_right And.left)
    rw [hcut] at hscans
    obtain ⟨p'', hemits', hend⟩ := hg p' rest hscans.1 hscans.2 (hvalues.imp_right And.right)
    exact ⟨p'', hemits.trans hemits', hend⟩
  · rw [Flattening.append_of_cut_some hcut] at hvalues ⊢
    obtain ⟨p', hemits, hend⟩ := hf p _ hp hflat hvalues
    rw [hcut] at hend ⊢
    exact ⟨p', hemits, hend⟩

/-- The next token is taken as an ordinary one, since no directive starts. -/
theorem Scans.step_eq {c : Consumed} {rest : List Consumed} (hp : Scans t limit fixed p)
    (hflat : p.reader.flat = c :: rest) :
    ∃ r told, Scans t limit fixed { p with reader := r } ∧ r.flat = rest ∧
      r.depth = c.depth ∧ r.callSite = c.callSite ∧
      step w p = (ordinary { p with reader := r } c.token).after told := by
  obtain ⟨r, hread, hdepth, hsite, hrest⟩ := Reader.read_of_flat_cons hflat hp.isErrorFree
  have hi : r.inclusion.IsErrorFree := Reader.ends_of_read hread hp.isErrorFree rfl
  have hplaced : r.IsPlaced := (hp.isPlaced.of_read hread).1
  have hchain : r.remaining.IsChain fun a b => startsDirective a b = false :=
    hp.isChain.suffix (Reader.remaining_suffix_of_read hread hp.isErrorFree.isFinite)
  -- a hyphen from a source is followed by the next token of the sources
  have hcollect : (p.formStart && r.fromSource && c.token.isSymbol "-") = true → (collect r c.token).1 = .ok none := by
    intro hstart
    obtain ⟨⟨-, hsource⟩, hhyphen⟩ :
        (p.formStart = true ∧ r.fromSource = true) ∧ c.token.isSymbol "-" = true := by simpa using hstart
    obtain ⟨hremaining, hframes, -⟩ := Reader.remaining_of_read_source hread
      (by simpa [Reader.fromSource] using hsource) hp.isPlaced.isNested hp.isErrorFree.isFinite
    refine fst_collect_eq_none hi (fun c' hc' => ?_) hhyphen
    have hbefore := hp.isChain
    rw [Reader.flat, Reader.expanded, hframes, List.flatMap_nil, List.nil_append, List.head?_map] at hc'
    obtain ⟨t', ht', rfl⟩ := Option.map_eq_some_iff.1 hc'
    rw [hremaining] at hbefore
    exact hbefore.rel_head? ht'
  obtain ⟨r', hr', hstep⟩ := step_ordinary (w := w) hread hcollect
  rcases hr' with rfl | rfl
  · exact ⟨r', _, { hp with isPlaced := hplaced, isErrorFree := hi, isChain := hchain }, hrest, hdepth, hsite, hstep⟩
  · have hscans : Scans t limit fixed { p with reader := r.peek.2 } :=
      { hp with
        isPlaced := hplaced.peek
        isErrorFree := Reader.ends_peek hi rfl
        isChain := by rwa [Reader.remaining_peek hi.isFinite] }
    obtain ⟨hpeekDepth, hpeekSite⟩ := Reader.place_peek r
    exact ⟨r.peek.2, _, hscans, by rw [Reader.flat_peek hi.isFinite, hrest], hpeekDepth.trans hdepth,
      hpeekSite.trans hsite, hstep⟩

/-- A token that is no question mark is emitted. -/
theorem performs_token {c : Consumed} (hc : c.token.isSymbol "?" = false) :
    Performs w t limit fixed [c] { tokens := [c.token] } := by
  intro p rest hp hflat hvalues
  obtain ⟨r, told, hscans, hrest, -, -, hstep⟩ := hp.step_eq (w := w) hflat
  have hordinary : ordinary { p with reader := r } c.token =
      emit { p with reader := r, formStart := c.token.isSymbol "." } c.token p.formStart := by
    simp [ordinary, hp.conditions_eq, Conditional.Stack.active, hc]
  have houtcome : (step w p).outcome = .emit c.token := by
    rw [hstep, hordinary]
    exact outcome_emit _ (hvalues.imp hp.moduleFixed_eq.trans fun h => h c.token (List.mem_singleton_self _))
  obtain ⟨moduleName, watched, hstate⟩ :=
    state_emit { p with reader := r, formStart := c.token.isSymbol "." } c.token p.formStart
  refine ⟨_, .single houtcome, ?_⟩
  have hstate : (step w p).state = { p with reader := r, formStart := c.token.isSymbol ".", moduleName, watched } := by
    rw [hstep, hordinary, ← hstate]
    rfl
  rw [hstate]
  exact ⟨{ hscans with }, hrest⟩

/-- A call of a macro without parameters is replaced by the body, if the limit allows that. -/
theorem rewrite_call (ht : t.IsArgumentless) {u : Consumed} {name : Text} (hu : u.token.calledName? = some name)
    (hname : t.contains name = true) (moduleName : Option Text) (source : Source) (site : Site)
    (rest : List Consumed) :
    rewrite ⟨t, moduleName, limit⟩ source site (u :: rest) =
      insert ⟨t, moduleName, limit⟩ site name ⟨site.question, u.token, none⟩ (t.body name) rest := by
  obtain ⟨hkind, hvalue⟩ := Token.calledName?_eq_some hu
  obtain ⟨m, hm, hget, rfl, hbody⟩ := MacroTable.exists_get?_of_contains ht hname
  have hpredefined : Predefined.ofName? m.name = none := by
    simpa [MacroTable.isPredefined] using ht.isPredefined_eq m hm
  have harities : t.arities m.name ≠ [] :=
    List.ne_nil_of_mem (MacroTable.mem_arities_iff.2 (Option.isSome_of_eq_some hget))
  have htakes : takesArguments ⟨t, moduleName, limit⟩ m.name = false := by
    rw [takesArguments, List.any_eq_false]
    intro arity harity
    obtain ⟨m', hm', rfl⟩ := List.mem_map.1 harity
    simp [Macro.arity, ht.params_eq m' (List.mem_of_mem_filter hm')]
  rw [rewrite, if_pos hkind, hvalue]
  dsimp only
  rw [rewriteName, hpredefined]
  dsimp only
  rw [if_neg harities, htakes, Bool.and_false, if_neg Bool.false_ne_true, rewriteBare, hget, hbody]

/-- After a call has been expanded the run scans on. -/
theorem Scans.expand (hp : Scans t limit fixed p) {question : Token} (h : (p.expand question).outcome.continues)
    (hplaced : (p.expand question).state.reader.IsPlaced) : Scans t limit fixed (p.expand question).state := by
  obtain ⟨call, r₁, r₂, hresolve, hpush, -, hstate⟩ := expand_continues h
  obtain ⟨name, r, hread, happlies⟩ := applies_resolve hresolve
  obtain ⟨tokens, -, -, rfl⟩ := push_eq hpush
  have hi : r.inclusion.IsErrorFree := Reader.ends_of_read hread hp.isErrorFree rfl
  have hr : r.IsPlaced := (hp.isPlaced.of_read hread).1
  have hsuffix : r₁.remaining <:+ p.reader.remaining :=
    (happlies.remaining_suffix hr.isNested hi.isFinite).trans
      (Reader.remaining_suffix_of_read hread hp.isErrorFree.isFinite)
  rw [hstate] at hplaced ⊢
  exact { hp with
    isPlaced := hplaced
    isErrorFree := happlies.ends hi rfl
    isChain := hp.isChain.suffix hsuffix }

/-- A call is replaced by the body of its macro, one level deeper, if the limit allows that. -/
theorem Scans.step_call (ht : t.IsArgumentless) {q u : Consumed} {name : Text} {rest : List Consumed}
    (hp : Scans t limit fixed p) (hflat : p.reader.flat = q :: u :: rest) (hq : q.token.isSymbol "?" = true)
    (hu : u.token.calledName? = some name) (hname : t.contains name = true) :
    ∃ site, if limit.value < q.depth + 1 then
        (step w p).outcome = .fail (.diagnose (.expansionTooDeep name limit site) (some q.token.position))
      else (step w p).outcome = .proceed ∧ Scans t limit fixed (step w p).state ∧
        (step w p).state.reader.flat = (t.body name).map (fun a => ⟨a, q.depth + 1, some site⟩) ++ rest := by
  obtain ⟨r, told, hscans, hrest, hdepth, -, hstep⟩ := hp.step_eq (w := w) hflat
  let p₁ := { p with reader := r, formStart := q.token.isSymbol "." }
  have hscans : Scans t limit fixed p₁ := { hscans with }
  have hexpand : step w p = (p₁.expand q.token).after told := by
    rw [hstep, ordinary]
    simp only [hp.conditions_eq, Conditional.Stack.active, List.head?_nil, Option.all_none, Bool.not_true, hq,
      Bool.false_eq_true, if_false, if_true, p₁]
  -- what waits is rewritten as the macro asks for
  have hcontext : p₁.context = ⟨t, p.moduleName, limit⟩ := by
    simp only [context, hp.macros_eq, hp.limit_eq, p₁]
  let site := Site.ofReader r q.token
  have hsite : site.depth = q.depth + 1 := by simp [site, Site.ofReader, hdepth]
  obtain ⟨r', hflat', hresult⟩ := expand_settle p₁ q.token
  rw [settle_resolve _ _ (by rw [hcontext]; exact ht.isProper) hscans.isPlaced.isNested hscans.isErrorFree,
    show p₁.reader.flat = u :: rest from hrest, hcontext, rewrite_call ht hu hname] at hflat' hresult
  obtain ⟨houtcome, hstate⟩ := Prod.mk.inj hresult
  refine ⟨site.callSite, ?_⟩
  rw [← hsite]
  split
  · next hdeep =>
    rw [hexpand]
    refine houtcome.trans ?_
    rw [Expansion.insert, if_pos hdeep]
    rfl
  · next hdeep =>
    rw [Expansion.insert, if_neg hdeep] at houtcome hstate hflat'
    have hproceed : (step w p).outcome = .proceed := by
      rw [hexpand]
      exact houtcome
    have hplaced : (step w p).state.reader.IsPlaced :=
      (Reader.isClosed_isPlaced w p.finder).advance hp.isPlaced (advance_step (by rw [hproceed]; rfl))
    rw [hexpand] at hplaced ⊢
    refine ⟨houtcome, hscans.expand (by rw [houtcome]; rfl) hplaced, ?_⟩
    rw [show ((p₁.expand q.token).after told).state.reader = r' from congrArg reader hstate, hflat']

/-- A call performs what the body of its macro does, one level deeper. -/
theorem performs_call (ht : t.IsArgumentless) {q u : Consumed} {name : Text} {f : Flattening}
    (hq : q.token.isSymbol "?" = true) (hu : u.token.calledName? = some name) (hname : t.contains name = true)
    (hdeep : limit.value < q.depth + 1 → f = { cut := some name })
    (hbody : q.depth + 1 ≤ limit.value →
      ∀ site, Performs w t limit fixed ((t.body name).map fun a => ⟨a, q.depth + 1, some site⟩) f) :
    Performs w t limit fixed [q, u] f := by
  intro p rest hp hflat hvalues
  obtain ⟨site, hcall⟩ := hp.step_call (w := w) ht hflat hq hu hname
  split at hcall
  · next h =>
    cases hdeep h
    exact ⟨p, .refl p, site, _, hcall⟩
  · next h =>
    obtain ⟨hproceed, hscans, hflat'⟩ := hcall
    obtain ⟨p', hemits, hend⟩ := hbody (by omega) site _ rest hscans hflat' hvalues
    exact ⟨p', .proceed hproceed hemits, hend⟩

/-- Tokens perform what their calls are replaced by, if every call does. -/
theorem performs_replaceCalls {meaning : Text → Flattening} {depth : Int} {site : Option Position}
    (hcalls : ∀ q u name, q.isSymbol "?" = true → u.calledName? = some name → t.contains name = true →
      Performs w t limit fixed [⟨q, depth, site⟩, ⟨u, depth, site⟩] (meaning name))
    {ts : List Token} (hts : t.CallsMacros ts) :
    Performs w t limit fixed (ts.map fun a => ⟨a, depth, site⟩) (MacroTable.replaceCalls meaning ts) := by
  induction hts using MacroTable.CallsMacros.induction with
  | nil => exact performs_nil
  | token _ hq ih =>
    rw [MacroTable.replaceCalls_token meaning hq]
    exact (performs_token hq).append ih
  | call _ hq hu hname ih =>
    rw [MacroTable.replaceCalls_call meaning hq hu]
    exact (hcalls _ _ _ hq hu hname).append ih

/-- Tokens at a depth perform their flattening down to the levels that the limit leaves. -/
theorem performs_flatten (ht : t.IsArgumentless) {n : Nat} {depth : Int} (hn : (limit.value - depth).toNat = n)
    (site : Option Position) {ts : List Token} (hts : t.CallsMacros ts) :
    Performs w t limit fixed (ts.map fun a => ⟨a, depth, site⟩) (t.flatten n ts) := by
  induction n generalizing depth site ts with
  | zero =>
    refine performs_replaceCalls (fun q u name hq hu hname => ?_) hts
    exact performs_call ht hq hu hname (fun _ => rfl) fun h => by dsimp only at h; omega
  | succ n ih =>
    refine performs_replaceCalls (fun q u name hq hu hname => ?_) hts
    refine performs_call ht hq hu hname (fun h => by dsimp only at h; omega) fun _ site' => ?_
    obtain ⟨m, hm, -, -, hbody⟩ := MacroTable.exists_get?_of_contains ht hname
    exact ih (by dsimp only; omega) _ (hbody ▸ ht.callsMacros m hm)

/-- At the end of the input a run without open conditionals stops. -/
theorem Scans.step_finish (hp : Scans t limit fixed p) (hflat : p.reader.flat = []) :
    (step w p).outcome = .finish := by
  have hread := Reader.read_of_flat_nil hflat hp.isErrorFree
  unfold step
  dsimp only
  rw [hread, hp.conditions_eq]
  rfl

/-- Let no macro have parameters or call anything but macros, and let the input start no directive and call only
macros.  Then a run stops if no macro that is called is higher than the limit, and what it emits is the one flattening
of the input.  Otherwise it fails at the first call that is nested deeper than the limit, having emitted the part of
the flattening before it.  The name of the module has to be given, or the atoms among these tokens to have values: an
atom with a malformed escape cannot name the module. -/
theorem run_flattens {w : World} {tokens : List Token} {options : Options} {finder : Finder} {macros : MacroTable}
    (hmacros : macros.IsArgumentless) (hcalls : macros.CallsMacros tokens)
    (hdirectives : tokens.IsChain fun a b => startsDirective a b = false)
    (hvalues : options.moduleName.isSome = true ∨
      ∀ a ∈ (macros.flatten options.limit.value.toNat tokens).tokens, a.kind = .atom → ∃ value, a.value = .ok value) :
    let p := { initial { tokens } options finder with macros }
    let n := options.limit.value.toNat
    (∀ name, macros.height name = 1 + ⨆ callee ∈ MacroTable.calledNames (macros.body name), macros.height callee) ∧
    ((∀ name ∈ MacroTable.calledNames tokens, macros.height name ≤ n) →
      ∃ out, (∀ ts, macros.Flattens tokens ts ↔ ts = out) ∧
        ∃ bound, ∀ fuel ≥ bound, (p.run w fuel).tokens = out ∧ (p.run w fuel).ending = .stop) ∧
    (¬ (∀ name ∈ MacroTable.calledNames tokens, macros.height name ≤ n) →
      ∃ name site position, (macros.flatten n tokens).cut = some name ∧
        ∃ bound, ∀ fuel ≥ bound, (p.run w fuel).tokens = (macros.flatten n tokens).tokens ∧
          (p.run w fuel).ending =
            .failed (.diagnose (.expansionTooDeep name options.limit site) (some position))) := by
  intro p n
  have hscans : Scans macros options.limit options.moduleName.isSome p :=
    { macros_eq := rfl
      limit_eq := rfl
      moduleFixed_eq := rfl
      conditions_eq := rfl
      isPlaced := fun f hf => by cases hf
      isErrorFree := fun s hs => by
        cases List.mem_singleton.1 hs
        rfl
      isChain := by simpa [p, initial, Reader.remaining, Inclusion.sources, Source.remaining] using hdirectives }
  have hflat : p.reader.flat = tokens.map (fun a => ⟨a, 0, none⟩) ++ [] := by
    simp [p, initial, Reader.flat, Reader.expanded, Reader.remaining, Inclusion.sources, Source.remaining]
  have hperforms : Performs w macros options.limit options.moduleName.isSome (tokens.map fun a => ⟨a, 0, none⟩)
      (macros.flatten n tokens) := performs_flatten hmacros (by simp [n]) none hcalls
  obtain ⟨q, hemits, hend⟩ := hperforms p [] hscans hflat hvalues
  refine ⟨macros.height_eq, fun hheights => ?_, fun hheights => ?_⟩
  · rw [MacroTable.forall_height_le_iff] at hheights
    have hflattens := MacroTable.flattens_flatten hmacros hcalls hheights
    rw [hheights] at hend
    have hstop : (step w q).outcome.ending? = some .stop := by
      rw [hend.1.step_finish hend.2]
      rfl
    obtain ⟨bound, es, hrun⟩ := hemits.run_eq hstop trivial rfl
    refine ⟨_, fun ts => ⟨hflattens.unique, fun h => h ▸ hflattens⟩, bound, fun fuel hfuel => ?_⟩
    rw [hrun fuel hfuel]
    exact ⟨rfl, rfl⟩
  · rw [MacroTable.forall_height_le_iff] at hheights
    obtain ⟨name, hname⟩ := Option.ne_none_iff_exists'.1 hheights
    rw [hname] at hend
    obtain ⟨site, position, hfail⟩ := hend
    have hfailed := congrArg Outcome.ending? hfail
    obtain ⟨bound, es, hrun⟩ := hemits.run_eq hfailed trivial rfl
    refine ⟨name, site, position, hname, bound, fun fuel hfuel => ?_⟩
    rw [hrun fuel hfuel]
    exact ⟨rfl, rfl⟩

/-- Two levels are enough for a macro that calls another one, but not for a macro that calls itself. -/
theorem run_flattens_cyclic :
    let question := operator "?"
    let macros : MacroTable :=
      ⟨[⟨"A", none, [question, var "B"], {}⟩, ⟨"B", none, [atom "y"], {}⟩, ⟨"C", none, [question, var "C"], {}⟩]⟩
    let tokens := [atom "x", question, var "A"]
    let cyclic := tokens ++ [question, var "C"]
    let options : Options := { limit := .ofInt 2 }
    let w : World := { workingDirectory := ⟨.root, []⟩ }
    let p (tokens : List Token) := { initial { tokens } options (.fixed []) with macros }
    macros.IsArgumentless ∧ macros.CallsMacros cyclic ∧
      cyclic.IsChain (fun a b => startsDirective a b = false) ∧
      (∃ bound, ∀ fuel ≥ bound,
        ((p tokens).run w fuel).tokens = [atom "x", atom "y"] ∧ ((p tokens).run w fuel).ending = .stop) ∧
      ∃ site position bound, ∀ fuel ≥ bound,
        ((p cyclic).run w fuel).tokens = [atom "x", atom "y"] ∧
        ((p cyclic).run w fuel).ending =
          .failed (.diagnose (.expansionTooDeep "C" (.ofInt 2) site) (some position)) := by
  intro question macros tokens cyclic options w p
  have hmacros : macros.IsArgumentless :=
    { isProper := by unfold MacroTable.IsProper; decide
      params_eq := by decide
      isPredefined_eq := by decide
      callsMacros := by decide }
  have hvalues : ∀ a ∈ [atom "x", atom "y"], a.kind = .atom → ∃ value, a.value = .ok value := by
    simp only [List.forall_mem_cons]
    exact ⟨fun _ => ⟨"x", by decide⟩, fun _ => ⟨"y", by decide⟩, by simp⟩
  have hflat : macros.flatten options.limit.value.toNat tokens = ⟨[atom "x", atom "y"], none⟩ := by decide
  have hcyclic : macros.flatten options.limit.value.toNat cyclic = ⟨[atom "x", atom "y"], some "C"⟩ := by decide
  refine ⟨hmacros, by decide, by decide, ?_, ?_⟩
  · obtain ⟨-, hstops, -⟩ := @run_flattens w tokens options (.fixed []) macros hmacros (by decide) (by decide)
      (.inr (by rw [hflat]; exact hvalues))
    obtain ⟨out, hout, hrun⟩ := hstops (MacroTable.forall_height_le_iff.2 (by rw [hflat]))
    have hflattens := MacroTable.flattens_flatten hmacros (by decide : macros.CallsMacros tokens) (by rw [hflat])
    rw [hflat] at hflattens
    cases (hout _).1 hflattens
    exact hrun
  · obtain ⟨-, -, hfails⟩ := @run_flattens w cyclic options (.fixed []) macros hmacros (by decide) (by decide)
      (.inr (by rw [hcyclic]; exact hvalues))
    obtain ⟨name, site, position, hcut, bound, hrun⟩ := hfails (by rw [MacroTable.forall_height_le_iff, hcyclic]; nofun)
    rw [hcyclic] at hcut hrun
    cases hcut
    exact ⟨site, position, bound, hrun⟩

/-- An atom with a malformed escape stops a run in which nothing is called, if it is to name the module. -/
theorem run_fails_at_malformed_name :
    let hyphen := operator "-"
    let start := [hyphen, atom "module", symbol "("]
    let tokens := start ++ [atom "'\\xzz'", symbol ")", symbol "."]
    let w : World := { workingDirectory := ⟨.root, []⟩ }
    let p := initial { tokens } {} (.fixed [])
    p.macros.IsArgumentless ∧ p.macros.CallsMacros tokens ∧
      tokens.IsChain (fun a b => startsDirective a b = false) ∧ MacroTable.calledNames tokens = [] ∧
      p.macros.Flattens tokens tokens ∧
      (p.run w 10).tokens = start ∧ (p.run w 10).ending = .failed (.fault (.escape .notANumber)) := by
  intro hyphen start tokens w p
  have hmacros : p.macros.IsArgumentless :=
    { isProper := MacroTable.isProper_empty
      params_eq := by decide
      isPredefined_eq := by decide
      callsMacros := by decide }
  refine ⟨hmacros, by decide, by decide, by decide, ?_, ?_⟩
  · exact MacroTable.flattens_flatten hmacros (by decide) (by decide : (p.macros.flatten 0 tokens).cut = none)
  · decide +kernel

end Preprocessor

end ErlangMacros
