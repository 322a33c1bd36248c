import ErlangMacros.Proofs.Directive.Tokens
import ErlangMacros.Proofs.Inclusion.Content
import ErlangMacros.Proofs.Preprocessor.History
import ErlangMacros.Proofs.Token.Lexeme

/-!
# Where tokens come from

The tokens that come into a run are those of the input, of the files that were entered, and of the definition texts
(`Given`).  Every token that the run emits is one of them, the atom that a definition text without a body stands for,
the token of a predefined macro, or a string that spells an argument (`Provenance`).  So it has the position of a token
that came in (`Provenance.position_eq`).

Along a run this holds of all tokens that wait in expansions, the sources hold only tokens that come in, and so do the
bodies of macros (`Holds`).
-/

namespace ErlangMacros

namespace Preprocessor

open Expansion
open Token (placed)

/-! ### The sources of tokens -/

/-- The tokens that come into a run: those of the input, of the definition texts and of the files that were entered. -/
inductive Given (w : World) (stream : Lexing) (options : Options) (told : List Event) : Token → Prop where
  | input {t : Token} (gives : stream.Gives t) : Given w stream options told t
  | definition {text : Text} {t : Token} (mem : text ∈ options.defines) (gives : (Lexing.ofText text).Gives t) :
      Given w stream options told t
  | file {path text : Text} {t : Token} (entered : .entering (some path) ∈ told)
      (read : w.readText path = .ok text) (gives : (Lexing.ofText text (some path)).Gives t) :
      Given w stream options told t

/-- The atom `true` at the name of a macro, which is the body if a definition text has none. -/
def IsDefault (defines : List Text) (t : Token) : Prop :=
  ∃ text ∈ defines, ∃ m, Macro.ofDefinition text = .ok m ∧ m.body = [t] ∧
    ∃ name ∈ (Lexing.ofText text).tokens, t = { kind := .atom, text := "true", position := name.position }

/-- Where a token comes from, if `given` are the tokens that come in and `call` is the last outermost call. -/
inductive Provenance (given : Token → Prop) (defines : List Text) (call : Option OutermostCall) : Token → Prop where
  | given {t : Token} (isGiven : given t) : Provenance given defines call t
  | default {t : Token} (isDefault : IsDefault defines t) : Provenance given defines call t
  /-- The token of a predefined macro stands at the outermost call. -/
  | predefined {ctx : Context} {source : Source} {site : Site} {p : Predefined} {t : Token} {c : OutermostCall}
      (token : predefinedToken ctx source site p = .ok t) (call_eq : call = some c)
      (site_eq : site.callSite = c.question.position) : Provenance given defines call t
  /-- A string that spells an argument stands at the argument, or at the marker if the argument is empty. -/
  | spelled {arg : List Token} {marker : Token} (isMarker : marker.isSymbol "??" = true) (isGiven : given marker)
      (args : ∀ t ∈ arg, Provenance given defines call t) : Provenance given defines call (stringify arg marker)

variable {given given' : Token → Prop} {defines : List Text} {call : Option OutermostCall}

theorem Given.mono {w : World} {stream : Lexing} {options : Options} {told told' : List Event} {t : Token}
    (h : Given w stream options told t) (htold : told ⊆ told') : Given w stream options told' t := by
  cases h with
  | input hgives => exact .input hgives
  | definition hmem hgives => exact .definition hmem hgives
  | file hentered hread hgives => exact .file (htold hentered) hread hgives

theorem Provenance.mono {t : Token} (h : Provenance given defines call t) (hgiven : ∀ t, given t → given' t) :
    Provenance given' defines call t := by
  induction h with
  | given ht => exact .given (hgiven _ ht)
  | default ht => exact .default ht
  | predefined htoken hcall hsite => exact .predefined htoken hcall hsite
  | spelled hmarker ht _ ih => exact .spelled hmarker (hgiven _ ht) ih

private theorem position_predefinedToken {ctx : Context} {source : Source} {site : Site} {p : Predefined} {t : Token}
    (h : predefinedToken ctx source site p = .ok t) : t.position = site.callSite := by
  unfold predefinedToken at h
  dsimp only at h
  split at h
  · cases h
    rfl
  · split at h <;> cases h
    rfl
  · cases h
    rfl
  · split at h <;> cases h
    rfl
  · split at h <;> cases h
    rfl

/-- Every token stands where one of those stands that come in. -/
theorem Provenance.position_eq {t : Token} (h : Provenance given defines call t)
    (hdefault : ∀ t, IsDefault defines t → ∃ u, given u ∧ u.position = t.position)
    (hcall : ∀ c ∈ call, given c.question) : ∃ u, given u ∧ u.position = t.position := by
  induction h with
  | @given t ht => exact ⟨t, ht, rfl⟩
  | default ht => exact hdefault _ ht
  | predefined htoken hc hsite =>
    refine ⟨_, hcall _ hc, ?_⟩
    rw [position_predefinedToken htoken, hsite]
  | @spelled arg marker _ ht _ ih =>
    cases arg with
    | nil => exact ⟨marker, ht, rfl⟩
    | cons a arg => exact ih a (List.mem_cons_self ..)

/-! ### Expansions -/

/-- Arguments that are substituted into a body keep where their tokens come from. -/
theorem provenance_substitute {params : List Text} {args : List (List Token)} {body : List Token}
    (hargs : ∀ arg ∈ args, ∀ t ∈ arg, Provenance given defines call t)
    (hbody : ∀ t ∈ body, given t ∨ IsDefault defines t) :
    ∀ t ∈ Macro.substitute params args body, Provenance given defines call t := by
  have hargument {u : Token} {arg : List Token} (h : Macro.argument? params args u = some arg) :
      ∀ t ∈ arg, Provenance given defines call t := by
    refine hargs arg ?_
    unfold Macro.argument? at h
    split at h
    · obtain ⟨i, -, hi⟩ := Option.bind_eq_some_iff.1 h
      exact List.mem_of_getElem? hi
    · cases h
  have htoken {u : Token} (hu : given u ∨ IsDefault defines u) :
      ∀ t ∈ (Macro.argument? params args u).getD [u], Provenance given defines call t := by
    rcases harg : Macro.argument? params args u with _ | arg
    · simpa using hu.elim .given .default
    · exact hargument harg
  fun_induction Macro.substitute params args body with
  | case1 => simp
  | case2 t => exact htoken (hbody t (by simp))
  | case3 t u rest arg harg hmarker ih =>
    have hgiven : given t := by
      rcases hbody t (by simp) with ht | ⟨_, _, _, _, _, _, _, ht⟩
      · exact ht
      · simp [ht, Token.isSymbol, Kind.isSymbol] at hmarker
    refine List.forall_mem_cons.2 ⟨.spelled hmarker hgiven (hargument harg), ih fun t' ht' => hbody t' ?_⟩
    simp [ht']
  | case4 t u rest hne ih =>
    intro t' ht'
    rcases List.mem_append.1 ht' with ht' | ht'
    · exact htoken (hbody t (by simp)) t' ht'
    · exact ih (fun t'' ht'' => hbody t'' (List.mem_cons_of_mem _ ht'')) t' ht'

theorem provenance_replace {m : Macro} {args : Option (List (List Token))} {tokens : List Token}
    (h : m.replace args = .ok tokens)
    (hargs : ∀ as ∈ args, ∀ arg ∈ as, ∀ t ∈ arg, Provenance given defines call t)
    (hbody : ∀ t ∈ m.body, given t ∨ IsDefault defines t) : ∀ t ∈ tokens, Provenance given defines call t := by
  unfold Macro.replace at h
  split at h
  · cases h
    exact fun t ht => (hbody t ht).elim .given .default
  · split at h
    · cases h
      exact provenance_substitute (hargs _ rfl) hbody
    · cases h
  · cases h

private theorem mem_consumed_of_readArguments {site : Site} {arities : List Arity} {r r' : Reader}
    {a : Reader.Arguments} (h : readArguments site arities r = (.ok (some a), r')) :
    ∀ arg ∈ a.args, ∀ u ∈ arg, u ∈ a.consumed.map Consumed.token := by
  unfold readArguments at h
  rcases hpeek : r.peek with ⟨t | _ | e, r₁⟩ <;> rw [hpeek] at h <;> dsimp only at h
  · split at h
    · rcases hargs : r₁.arguments site.question with ⟨f | b, r₂⟩ <;> rw [hargs] at h <;> cases h
      exact fun arg harg u hu => Reader.mem_consumed_of_arguments hargs harg hu
    · cases h
  · cases h
  · cases h

private theorem lookedUp_eq_ok {ctx : Context} {site : Site} {name : Text} {nameToken : Token}
    {args : Option (List (List Token))} {r r' : Reader} {c : Call}
    (h : lookedUp ctx site name nameToken args r = (.ok c, r')) :
    ∃ m ∈ ctx.macros.macros, m.arity = args.map (fun as => (as.length : Int)) ∧ c.meaning = .definition m args := by
  unfold lookedUp at h
  split at h
  · next m hlookup =>
    cases h
    unfold MacroTable.lookup at hlookup
    split at hlookup
    · next hget =>
      cases hlookup
      obtain ⟨hm, -, harity⟩ := MacroTable.key_of_get? hget
      exact ⟨m, hm, harity, rfl⟩
    · split at hlookup <;> cases hlookup
  · cases h

/-- What a call means: a predefined macro, or a macro of the table with as many arguments as it takes, which were read. -/
theorem resolve_meaning {ctx : Context} {site : Site} {r r' : Reader} {c : Call}
    (h : resolve ctx site r = (.ok c, r')) :
    ∃ t r₁, r.read = (.token t, r₁) ∧
      ((∃ p token, c.meaning = .predefined token ∧ t.calledName? = some p.name ∧
          predefinedToken ctx r₁.inclusion.current site p = .ok token) ∨
        ∃ m args, c.meaning = .definition m args ∧ m ∈ ctx.macros.macros ∧
          m.arity = args.map (fun as => (as.length : Int)) ∧
          ∀ as ∈ args, ∃ cs r₂, Reader.Takes r₁.peek.2 cs r₂ ∧
            ∀ arg ∈ as, ∀ u ∈ arg, u ∈ cs.map Consumed.token) := by
  unfold resolve at h
  rcases hread : r.read with ⟨t | _ | e, r₁⟩ <;> rw [hread] at h <;> dsimp only at h
  · refine ⟨t, r₁, rfl, ?_⟩
    split at h
    · next hkind =>
      rcases hvalue : t.value with e | name <;> rw [hvalue] at h
      · cases h
      · dsimp only at h
        unfold resolveName at h
        rcases hpre : Predefined.ofName? name with _ | p <;> rw [hpre] at h <;> dsimp only at h
        · split at h
          · cases h
          · rcases hargs : readArguments site (ctx.macros.arities name) r₁ with ⟨f | _ | a, r₂⟩ <;> rw [hargs] at h
            · cases h
            · obtain ⟨m, hm, harity, hmeaning⟩ := lookedUp_eq_ok h
              exact .inr ⟨m, none, hmeaning, hm, harity, by simp⟩
            · dsimp only at h
              rw [choose_some] at h
              split at h
              · obtain ⟨m, hm, harity, hmeaning⟩ := lookedUp_eq_ok h
                exact .inr ⟨m, none, hmeaning, hm, harity, by simp⟩
              · obtain ⟨m, hm, harity, hmeaning⟩ := lookedUp_eq_ok h
                refine .inr ⟨m, some a.args, hmeaning, hm, harity, ?_⟩
                intro as has
                cases has
                rcases takes_readArguments hargs with ⟨hnone, -⟩ | ⟨b, hb, htakes, -⟩
                · cases hnone
                · cases hb
                  exact ⟨a.consumed, r₂, htakes, mem_consumed_of_readArguments hargs⟩
        · rcases htoken : predefinedToken ctx r₁.inclusion.current site p with f | token <;> rw [htoken] at h <;>
            cases h
          rw [Predefined.name_of_ofName? hpre] at hvalue
          exact .inl ⟨p, token, rfl, Token.calledName?_eq hkind hvalue, htoken⟩
    · cases h
  · cases h
  · cases h

/-! ### Runs -/

/-- The tokens that wait in sources and expansions come from where they should. -/
structure Carries (given : Token → Prop) (defines : List Text) (call : Option OutermostCall) (r : Reader) :
    Prop where
  nested : r.IsNested
  sources : r.inclusion.Holds given
  frames : ∀ f ∈ r.frames, ∀ t ∈ f.tokens, Provenance given defines call t

/-- A token that was read ahead comes in, or was read from an expansion. -/
def CarriesToken (given : Token → Prop) (defines : List Text) (call : Option OutermostCall) (c : Consumed) : Prop :=
  c.depth = 0 ∧ given c.token ∨ 1 ≤ c.depth ∧ Provenance given defines call c.token

theorem CarriesToken.provenance {c : Consumed} (h : CarriesToken given defines call c) :
    Provenance given defines call c.token :=
  h.elim (fun h => .given h.2) And.right

theorem carries_peek {r : Reader} (hr : Carries given defines call r) : Carries given defines call r.peek.2 := by
  refine ⟨hr.nested.peek, ?_, by rw [r.frames_peek]; exact hr.frames⟩
  rcases r.inclusion_peek with h | h <;> rw [h]
  · exact hr.sources
  · exact hr.sources.peek

private theorem carries_putBack {r : Reader} {c : Consumed} (hr : Carries given defines call r)
    (hc : CarriesToken given defines call c) : Carries given defines call (r.putBack c) := by
  rcases hc with ⟨hdepth, ht⟩ | ⟨hdepth, ht⟩
  · rw [Reader.putBack, if_pos hdepth]
    exact ⟨hr.nested, hr.sources.putBack ht, hr.frames⟩
  · have hne : c.depth ≠ 0 := by omega
    refine ⟨hr.nested.putBack fun _ => hdepth, by rw [(Reader.expanded_putBack hne).2]; exact hr.sources, ?_⟩
    have hframes := hr.frames
    rw [Reader.putBack, if_neg hne]
    split
    · next f fs hfs =>
      rw [hfs] at hframes
      split
      · obtain ⟨hf, hfs⟩ := List.forall_mem_cons.1 hframes
        exact List.forall_mem_cons.2 ⟨List.forall_mem_cons.2 ⟨ht, hf⟩, hfs⟩
      · exact List.forall_mem_cons.2 ⟨by simpa using ht, by rwa [hfs]⟩
    · exact List.forall_mem_cons.2 ⟨by simpa using ht, hframes⟩

theorem isReadClosed_carries (given : Token → Prop) (defines : List Text) (call : Option OutermostCall) :
    Reader.IsReadClosed (Carries given defines call) (CarriesToken given defines call) where
  read := by
    intro r r' t hr hread
    have hnested := (hr.nested.of_read hread).1
    rcases Reader.read_cases hread with ⟨f, fs, hpop, rfl⟩ | ⟨-, i, hi, rfl⟩
    · obtain ⟨hf, ht, hfs⟩ := Reader.mem_of_popFrames hpop
      refine ⟨⟨hnested, hr.sources, fun g hg u hu => ?_⟩, .inr ⟨hr.nested f hf, hr.frames f hf t ht⟩⟩
      obtain ⟨g', hg', hsubset⟩ := hfs g hg
      exact hr.frames g' hg' u (hsubset hu)
    · obtain ⟨hi', ht⟩ := hr.sources.read hi
      exact ⟨⟨hnested, hi', by simp⟩, .inl ⟨rfl, ht⟩⟩
  peek := carries_peek
  putBack := carries_putBack

/-- In a state with a history, all tokens that wait and those in the bodies of macros come from where they should. -/
structure Holds (w : World) (stream : Lexing) (options : Options) (h : History) (p : Preprocessor) : Prop where
  carries : Carries (Given w stream options h.told) options.defines h.call p.reader
  bodies : ∀ m ∈ p.macros.macros, ∀ t ∈ m.body, Given w stream options h.told t ∨ IsDefault options.defines t
  question : ∀ c ∈ h.call, Given w stream options h.told c.question

variable {w : World} {stream : Lexing} {options : Options} {h : History} {p : Preprocessor}

theorem Carries.mono {r : Reader} (hr : Carries given defines call r) (hgiven : ∀ t, given t → given' t) :
    Carries given' defines call r :=
  ⟨hr.nested, fun s hs t ht => hgiven t (hr.sources s hs t ht), fun f hf t ht => (hr.frames f hf t ht).mono hgiven⟩

/-- What is read in a step comes from where it should, with the last outermost call after the step. -/
theorem Holds.read (hp : Holds w stream options h p) {t : Token} {r : Reader}
    (hread : p.reader.read = (.token t, r)) :
    Carries (Given w stream options h.told) options.defines ((h.outermost? p).or h.call) r ∧
      CarriesToken (Given w stream options h.told) options.defines ((h.outermost? p).or h.call) (r.consumed t) ∧
      ∀ c ∈ (h.outermost? p).or h.call, Given w stream options h.told c.question := by
  have hnested := (hp.carries.nested.of_read hread).1
  rcases Reader.read_cases hread with ⟨f, fs, hpop, rfl⟩ | ⟨-, i, hi, rfl⟩
  · -- a token of an expansion starts no outermost call
    have hdepth : 1 ≤ f.depth := hp.carries.nested f (Reader.mem_of_popFrames hpop).1
    have hno : f.depth ≠ 0 := by omega
    have hnone : h.outermost? p = none := by simp [History.outermost?, hread, Reader.fromSource, hno]
    rw [hnone, Option.none_or]
    obtain ⟨hcarries, htoken⟩ := (isReadClosed_carries _ _ _).read hp.carries hread
    exact ⟨hcarries, htoken, hp.question⟩
  · obtain ⟨hsources, ht⟩ := hp.carries.sources.read hi
    refine ⟨⟨hnested, hsources, by simp⟩, .inl ⟨rfl, ht⟩, ?_⟩
    intro c hc
    rcases Option.or_eq_some_iff.1 hc with hc | ⟨-, hc⟩
    · unfold History.outermost? at hc
      rw [hread] at hc
      dsimp only at hc
      split at hc <;> cases hc
      exact ht
    · exact hp.question c hc

/-- The tokens of an expansion come from where they should. -/
theorem Holds.expanded (hp : Holds w stream options h p) (htraces : Traces h.call p.reader) {question : Token}
    {r r₁ : Reader} {c : Call} {tokens : List Token} (hread : p.reader.read = (.token question, r))
    (hquestion : question.isSymbol "?" = true) (hresolve : resolve p.context (.ofReader r question) r = (.ok c, r₁))
    (htokens : c.meaning.tokens = .ok tokens) :
    ∀ t ∈ tokens, Provenance (Given w stream options h.told) options.defines ((h.outermost? p).or h.call) t := by
  obtain ⟨hcarries, -, -⟩ := hp.read hread
  have hclosed := isReadClosed_carries (Given w stream options h.told) options.defines ((h.outermost? p).or h.call)
  obtain ⟨name, r', hname, ⟨pre, token, hmeaning, -, htoken⟩ | ⟨m, args, hmeaning, hm, -, hargs⟩⟩ :=
    resolve_meaning hresolve
  · obtain ⟨outermost, hcall, hsite, -⟩ := htraces.exists_call hp.carries.nested hread hquestion
    rw [hmeaning] at htokens
    cases htokens
    simpa using Provenance.predefined htoken hcall hsite
  · rw [hmeaning] at htokens
    refine provenance_replace htokens (fun as has arg harg t ht => ?_) (hp.bodies m hm)
    obtain ⟨cs, r₂, htakes, hsubset⟩ := hargs as has
    obtain ⟨x, hx, rfl⟩ := List.mem_map.1 (hsubset arg harg t ht)
    exact ((hclosed.takes (hclosed.peek (hclosed.read hcarries hname).1) htakes).2 x hx).provenance

/-- The tokens of a directive come in. -/
theorem Holds.collected (hp : Holds w stream options h p) {hyphen : Token} {r r₁ : Reader} {tokens : List Token}
    (hread : p.reader.read = (.token hyphen, r)) (hsource : r.depth = 0)
    (hcollect : collect r hyphen = (.ok (some tokens), r₁)) :
    Carries (Given w stream options h.told) options.defines ((h.outermost? p).or h.call) r₁ ∧
      ∀ t ∈ tokens, Given w stream options h.told t := by
  obtain ⟨hcarries, htoken, -⟩ := hp.read hread
  have hclosed := isReadClosed_carries (Given w stream options h.told) options.defines ((h.outermost? p).or h.call)
  obtain ⟨cs, htakes, -, rfl⟩ := takes_collect_some hcollect
  obtain ⟨hcarries₁, hcs⟩ := hclosed.takes (hclosed.peek hcarries) htakes
  -- no expansion waits while a directive is read, so all its tokens are read from sources
  have hnone : r.Places fun _ _ => False := by
    rcases Reader.read_cases hread with ⟨f, fs, hpop, rfl⟩ | ⟨-, i, -, rfl⟩
    · have hdepth := hp.carries.nested f (Reader.mem_of_popFrames hpop).1
      dsimp only at hsource
      omega
    · exact fun f hf => by cases hf
  have hdepths := ((Reader.isReadClosed_places _).takes hnone.peek htakes).2
  refine ⟨hcarries₁, List.forall_mem_cons.2 ⟨?_, fun t ht => ?_⟩⟩
  · rcases htoken with ⟨-, ht⟩ | ⟨hdepth, -⟩
    · exact ht
    · change 1 ≤ r.depth at hdepth
      omega
  · obtain ⟨x, hx, rfl⟩ := List.mem_map.1 ht
    rcases hcs x hx with ⟨-, ht⟩ | ⟨hdepth, -⟩
    · exact ht
    · rcases hdepths x hx with hzero | hfalse
      · omega
      · exact hfalse.elim

theorem Holds.step (hp : Holds w stream options h p) (htraces : Traces h.call p.reader) (hsound : p.IsSound)
    (hcontinues : (step w p).outcome.continues) : Holds w stream options (h.after w p) (step w p).state := by
  have hgiven : ∀ t, Given w stream options h.told t → Given w stream options (h.after w p).told t :=
    fun t ht => ht.mono (List.subset_append_left _ _)
  have hbodies : ∀ m ∈ p.macros.macros, ∀ t ∈ m.body,
      Given w stream options (h.after w p).told t ∨ IsDefault options.defines t :=
    fun m hm t ht => (hp.bodies m hm t ht).imp_left (hgiven t)
  have hordinary {t : Token} {r r' : Reader} (hread : p.reader.read = (.token t, r)) (hlooked : r' = r ∨ r' = r.peek.2) :
      Carries (Given w stream options (h.after w p).told) options.defines (h.after w p).call r' := by
    have hcarries := (hp.read hread).1.mono hgiven
    rcases hlooked with rfl | rfl
    · exact hcarries
    · exact carries_peek hcarries
  have hquestion {t : Token} {r : Reader} (hread : p.reader.read = (.token t, r)) :
      ∀ c ∈ (h.after w p).call, Given w stream options (h.after w p).told c.question :=
    fun c hc => hgiven _ ((hp.read hread).2.2 c hc)
  cases move_step hcontinues with
  | suppressed hread hlooked _ hstate =>
    rw [hstate]
    exact ⟨hordinary hread hlooked, hbodies, hquestion hread⟩
  | emitted hread hlooked _ _ hstate =>
    rw [hstate]
    exact ⟨hordinary hread hlooked, hbodies, hquestion hread⟩
  | expanded hread hmark hresolve hpush _ hstate =>
    have hclosed := isReadClosed_carries (Given w stream options (h.after w p).told) options.defines (h.after w p).call
    obtain ⟨name, r', hname, happlies⟩ := applies_resolve hresolve
    have hcarries := hclosed.applies (hclosed.read (hordinary hread (.inl rfl)) hname).1 happlies
    have hplaced := (hsound.step hcontinues).isPlaced.isNested
    obtain ⟨tokens, htokens, -, rfl⟩ := push_eq hpush
    rw [hstate] at hplaced ⊢
    refine ⟨⟨hplaced, hcarries.sources, List.forall_mem_cons.2 ⟨fun t ht => ?_, hcarries.frames⟩⟩, hbodies,
      hquestion hread⟩
    exact (hp.expanded htraces hread hmark hresolve htokens t ht).mono hgiven
  | @directive hyphen r r₁ tokens _ hread hsource hcollect hdirected =>
    obtain ⟨hcarries, htokens⟩ := hp.collected hread hsource hcollect
    have hcarries := hcarries.mono hgiven
    cases hdirected with
    | skipped _ hstate =>
      rw [hstate]
      exact ⟨hcarries, hbodies, hquestion hread⟩
    | changed hparse _ hmacros _ hstate =>
      rw [hstate]
      refine ⟨hcarries, fun m hm t ht => ?_, hquestion hread⟩
      rcases hmacros m hm with hm | ⟨name, params, haction⟩
      · exact hbodies m hm t ht
      · obtain ⟨_, _, _, _, hmade⟩ := Directive.parse_yields hparse
        exact .inl (hgiven t (htokens t (hmade.body_subset haction ht)))
    | included _ _ htext hpush htold _ hstate =>
      rw [hstate]
      refine ⟨⟨hcarries.nested, hcarries.sources.push (fun t ht => ?_) hpush, hcarries.frames⟩, hbodies,
        hquestion hread⟩
      rcases ht with ht | ht
      · cases ht
      · exact .file (List.mem_append_right _ htold) htext ht
    | reported _ _ _ _ _ hstate =>
      rw [hstate]
      exact ⟨⟨hcarries.nested, hcarries.sources.setFile _ _ _, hcarries.frames⟩, hbodies, hquestion hread⟩

/-- What holds of the tokens in the bodies of all macros that definition texts define, holds when they are defined. -/
theorem bodies_of_defineAll {Q : Token → Prop} {macros macros' : MacroTable} {texts : List Text} {es : List Event}
    (h : defineAll macros texts = (.ok macros', es))
    (htexts : ∀ text ∈ texts, ∀ m, Macro.ofDefinition text = .ok m → ∀ t ∈ m.body, Q t)
    (hmacros : ∀ m ∈ macros.macros, ∀ t ∈ m.body, Q t) : ∀ m ∈ macros'.macros, ∀ t ∈ m.body, Q t := by
  induction texts generalizing macros es with
  | nil =>
    cases h
    exact hmacros
  | cons text texts ih =>
    obtain ⟨htext, htexts⟩ := List.forall_mem_cons.1 htexts
    unfold defineAll at h
    split at h
    · cases (Prod.mk.inj h).1
    · next m hm =>
      split at h
      · cases (Prod.mk.inj h).1
      · next hdefine =>
        refine ih (Prod.ext (Prod.mk.inj h).1 rfl) htexts fun m' hm' t ht => ?_
        rcases MacroTable.mem_of_mem_define hdefine hm' with rfl | hm'
        · exact htext m' hm t ht
        · exact hmacros m' hm' t ht

end Preprocessor

end ErlangMacros
