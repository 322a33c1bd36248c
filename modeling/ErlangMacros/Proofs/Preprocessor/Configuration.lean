import ErlangMacros.Proofs.Preprocessor.Matching
import ErlangMacros.Proofs.Preprocessor.Stacks

/-!
# What a run takes from its configuration

A run is given a finder and a limit on nesting.  It asks the finder for files, and it compares the limit with the depth
of calls and with the number of open files; nothing else depends on them.  So a run with another finder that gives the
same answers, and with a limit under which the run does not fail either, takes the same steps (`resembles_step`) and
gives the same tokens (`resembles_pulls`).

In particular a higher limit changes nothing in a run that a lower one does not end (`raised_limit_changes_nothing`).
-/

namespace ErlangMacros

/-- The failure is that calls or files are nested too deep. -/
def Failure.isTooDeep : Failure → Bool
  | .error ⟨.expansionTooDeep .., _⟩ => true
  | .error ⟨.includeTooDeep .., _⟩ => true
  | _ => false

/-- Finders that are related give the same answers, for all sources with file names in `N`, and stay related. -/
structure Finder.IsMatching (w : World) (N : Option Text → Prop) (F : Finder → Finder → Prop) : Prop where
  find : ∀ {f f'} library name filename, F f f' → N filename →
    (f'.find w library name (filename.map Path.directoryOf)).1 =
        (f.find w library name (filename.map Path.directoryOf)).1 ∧
      F (f.find w library name (filename.map Path.directoryOf)).2
        (f'.find w library name (filename.map Path.directoryOf)).2
  events_eq : ∀ {f f'} name, F f f' → f'.events name = f.events name

private theorem Finder.isMatching_eq (w : World) (N : Option Text → Prop) : IsMatching w N Eq where
  find := by
    rintro f _ library name filename rfl -
    exact ⟨rfl, rfl⟩
  events_eq := by
    rintro f _ name rfl
    rfl

namespace Reader

/-- The reader with another limit on open files. -/
def limited (limit : DepthLimit) (r : Reader) : Reader :=
  { r with inclusion := { r.inclusion with limit } }

/-- Reading ahead does not depend on the limit. -/
theorem isReadMatching_limited (limit : DepthLimit) :
    IsReadMatching (fun r r' => r' = r.limited limit) fun _ => True where
  place_eq := by
    rintro r _ rfl
    exact ⟨rfl, rfl⟩
  label_eq := by
    rintro r _ rfl
    rfl
  repeats_eq := by
    rintro r _ leave rfl
    rfl
  read := by
    refine fun leave r => ⟨fun _ => trivial, ?_⟩
    rintro _ rfl -
    unfold read
    rcases hpop : popFrames r.frames with _ | ⟨t, f, fs⟩
    · simp only [limited, hpop]
      cases leave <;> exact ⟨rfl, rfl⟩
    · simp only [limited, hpop, and_self]
  peek := by
    refine fun r => ⟨fun _ => trivial, ?_⟩
    rintro _ rfl -
    unfold peek
    rcases hpop : popFrames r.frames with _ | ⟨t, f, fs⟩
    · simp only [limited, hpop, Inclusion.peek]
      rcases r.inclusion.current.peek with ⟨t | _ | e, s⟩ <;> exact ⟨rfl, rfl⟩
    · simp only [limited, hpop, and_self]
  putBack := by
    refine fun c r => ⟨fun _ => trivial, ?_⟩
    rintro _ rfl -
    refine ⟨rfl, ?_⟩
    unfold putBack
    split
    · rfl
    · simp only [limited]
      split
      · split <;> rfl
      · rfl

/-- The reader has the given limit, and all its sources have names in `N`. -/
def IsSetUp (N : Option Text → Prop) (limit : DepthLimit) (r : Reader) : Prop :=
  r.inclusion.limit = limit ∧
    Inclusion.IsBased (fun s => N s.filename) (fun s => N s.filename) r.inclusion.sources

theorem IsSetUp.current {N : Option Text → Prop} {limit : DepthLimit} {r : Reader} (h : r.IsSetUp N limit) :
    N r.inclusion.current.filename :=
  h.2.head.elim id id

theorem isClosed_isSetUp (w : World) (finder : Finder) {N : Option Text → Prop} (hN : ∀ name, N (some name))
    (limit : DepthLimit) : IsClosed w finder (IsSetUp N limit) fun _ => True := by
  have hstable : Source.IsStable fun s => N s.filename :=
    { next := fun s h => by rwa [show s.next.2.filename = s.filename from congrArg Source.Label.filename s.label_next]
      putBack := fun _ _ h => h
      setFile := fun _ _ _ _ h => h }
  have hlimit := isClosed_limit w finder limit
  have hnamed := isClosed_isBased w finder hstable hstable fun _ name _ => hN name
  exact
    { read := fun hr h => ⟨⟨(hlimit.read hr.1 h).1, (hnamed.read hr.2 h).1⟩, trivial⟩
      peek := fun hr => ⟨hlimit.peek hr.1, hnamed.peek hr.2⟩
      putBack := fun hr hc => ⟨hlimit.putBack hr.1 hc, hnamed.putBack hr.2 hc⟩
      push := fun hr hc hdepth hsite => ⟨hlimit.push hr.1 hc hdepth hsite, hnamed.push hr.2 hc hdepth hsite⟩
      evaluates := fun hr h => ⟨hlimit.evaluates hr.1 h, hnamed.evaluates hr.2 h⟩ }

end Reader

namespace Preprocessor

open Token (placed)

variable {w : World} {N : Option Text → Prop} {F : Finder → Finder → Prop} {limit : DepthLimit}
  {p : Preprocessor} {finder : Finder}

/-- The state with another finder and another limit. -/
def configured (finder : Finder) (limit : DepthLimit) (p : Preprocessor) : Preprocessor :=
  { p with finder, limit, reader := p.reader.limited limit }

/-- A limit can take the place of another where the failures `fails` may arise: it is the same, or it is higher and
none of them says that something is nested too deep. -/
def Admits (limit limit' : DepthLimit) (fails : Failure → Prop) : Prop :=
  limit' = limit ∨ limit.value ≤ limit'.value ∧ ∀ f, fails f → f.isTooDeep = false

theorem Admits.mono {limit' : DepthLimit} {fails fails' : Failure → Prop} (h : Admits limit limit' fails)
    (hle : ∀ f, fails' f → fails f) : Admits limit limit' fails' :=
  h.imp_right fun ⟨hlimit, hdeep⟩ => ⟨hlimit, fun f hf => hdeep f (hle f hf)⟩

/-- The second step comes to the same, and leaves a state that differs in its finder and its limit only. -/
def Step.Resembles (F : Finder → Finder → Prop) (limit : DepthLimit) (s s' : Step) : Prop :=
  ∃ finder, F s.state.finder finder ∧ s' = { s with state := s.state.configured finder limit }

theorem Step.Resembles.after {s s' : Step} (h : Resembles F limit s s') (es : List Event) :
    Resembles F limit (s.after es) (s'.after es) := by
  obtain ⟨finder, hfinder, rfl⟩ := h
  exact ⟨finder, hfinder, rfl⟩

/-! ### Steps -/

private theorem resolve_limited (limit : DepthLimit) (ctx : Expansion.Context) (site : Expansion.Site) (r : Reader) :
    Expansion.resolve { ctx with limit } site (r.limited limit) =
      ((Expansion.resolve ctx site r).1, (Expansion.resolve ctx site r).2.limited limit) := by
  have hcontext : Expansion.resolve { ctx with limit } site = Expansion.resolve ctx site := rfl
  obtain ⟨hresult, hreader⟩ :=
    (Expansion.agrees_resolve (Reader.isReadMatching_limited limit) ctx site r).same _ rfl trivial
  rw [hcontext]
  exact Prod.ext hresult hreader

private theorem frame_limited {ctx : Expansion.Context} {site : Expansion.Site} {c : Expansion.Call}
    (h : Admits ctx.limit limit (Expansion.frame ctx site c = .error ·)) :
    Expansion.frame { ctx with limit } site c = Expansion.frame ctx site c := by
  rcases h with rfl | ⟨hle, hdeep⟩
  · rfl
  · unfold Expansion.frame at hdeep ⊢
    rcases htokens : c.meaning.tokens with f | tokens
    · rfl
    · simp only [htokens] at hdeep ⊢
      by_cases hlimit : ctx.limit.value < site.depth
      · rw [if_pos hlimit] at hdeep
        cases hdeep _ rfl
      · rw [if_neg hlimit, if_neg (by omega)]

private theorem resembles_expand {question : Token} (hfinder : F p.finder finder)
    (hlimit : Admits p.limit limit ((p.expand question).outcome = .fail ·)) :
    (p.expand question).Resembles F limit ((p.configured finder limit).expand question) := by
  have hresolve := resolve_limited limit p.context (.ofReader p.reader question) p.reader
  have hcontext : (p.configured finder limit).context = { p.context with limit } := rfl
  have hsite : Expansion.Site.ofReader (p.configured finder limit).reader question = .ofReader p.reader question := rfl
  unfold expand at hlimit ⊢
  rw [hcontext, hsite]
  rcases hresolved : Expansion.resolve p.context (.ofReader p.reader question) p.reader with ⟨f | c, r⟩
  all_goals
    rw [hresolved] at hresolve
    simp only [hresolved] at hlimit ⊢
    simp only [show (p.configured finder limit).reader = p.reader.limited limit from rfl, hresolve]
  · exact ⟨finder, hfinder, rfl⟩
  · simp only [Expansion.push_eq_frame] at hlimit ⊢
    have hframe : Expansion.frame { p.context with limit } (.ofReader p.reader question) c =
        Expansion.frame p.context (.ofReader p.reader question) c := by
      refine frame_limited (hlimit.mono fun f hf => ?_)
      rw [hf]
      rfl
    rw [hframe]
    rcases Expansion.frame p.context (.ofReader p.reader question) c with f | f <;> exact ⟨finder, hfinder, rfl⟩

private theorem resembles_emit (t : Token) (atFormStart : Bool) (hfinder : F p.finder finder) :
    (p.emit t atFormStart).Resembles F limit ((p.configured finder limit).emit t atFormStart) := by
  have hsame : (p.configured finder limit).moduleFixed = p.moduleFixed ∧
      (p.configured finder limit).watched = p.watched := ⟨rfl, rfl⟩
  unfold emit
  rw [hsame.1, hsame.2]
  by_cases hfixed : p.moduleFixed = true
  · rw [if_pos hfixed, if_pos hfixed]
    exact ⟨finder, hfinder, rfl⟩
  · rw [if_neg hfixed, if_neg hfixed]
    rcases p.watched with _ | seen <;> dsimp only
    · by_cases hhyphen : (atFormStart && t.isSymbol "-") = true
      · rw [if_pos hhyphen, if_pos hhyphen]
        exact ⟨finder, hfinder, rfl⟩
      · rw [if_neg hhyphen, if_neg hhyphen]
        exact ⟨finder, hfinder, rfl⟩
    · by_cases hlength : (seen ++ [t]).length = 3
      · rw [if_pos hlength, if_pos hlength]
        rcases moduleAttribute? (seen ++ [t]) with _ | name <;> dsimp only
        · exact ⟨finder, hfinder, rfl⟩
        · rcases name.value with e | moduleName <;> exact ⟨finder, hfinder, rfl⟩
      · rw [if_neg hlength, if_neg hlength]
        exact ⟨finder, hfinder, rfl⟩

private theorem resembles_ordinary {t : Token} (hfinder : F p.finder finder)
    (hlimit : Admits p.limit limit ((p.ordinary t).outcome = .fail ·)) :
    (p.ordinary t).Resembles F limit ((p.configured finder limit).ordinary t) := by
  unfold ordinary at hlimit ⊢
  simp only [show (p.configured finder limit).conditions = p.conditions from rfl]
  by_cases hactive : p.conditions.active = true
  · simp only [hactive, Bool.not_true, Bool.false_eq_true, if_false] at hlimit ⊢
    split
    · next hquestion =>
      rw [if_pos hquestion] at hlimit
      exact resembles_expand (p := { p with formStart := t.isSymbol "." }) hfinder hlimit
    · exact resembles_emit (p := { p with formStart := t.isSymbol "." }) t p.formStart hfinder
  · simp only [hactive, Bool.not_false, if_true]
    exact ⟨finder, hfinder, rfl⟩

/-! ### Directives -/

private theorem push_limited {i : Inclusion} (s : Source)
    (h : Admits i.limit limit fun f => ∃ e, i.push s = .error e ∧ f = .error e) :
    ({ i with limit } : Inclusion).push s = (i.push s).map fun i => { i with limit } := by
  rcases h with rfl | ⟨hle, hdeep⟩
  · unfold Inclusion.push
    split <;> rfl
  · unfold Inclusion.push at hdeep ⊢
    by_cases hlimit : i.limit.value < i.size
    · rw [if_pos hlimit] at hdeep
      cases hdeep _ ⟨_, rfl, rfl⟩
    · have hsize : ¬ limit.value < ({ i with limit } : Inclusion).size := by
        change ¬ limit.value < i.size
        omega
      rw [if_neg hlimit, if_neg hsize]
      rfl

private theorem resembles_enter {file : Path} {position : Position} (hfinder : F p.finder finder)
    (hsame : p.reader.inclusion.limit = p.limit)
    (hlimit : Admits p.limit limit ((p.enter w file position).outcome = .fail ·)) :
    (p.enter w file position).Resembles F limit ((p.configured finder limit).enter w file position) := by
  unfold enter at hlimit ⊢
  rcases htext : w.readText file.toString with e | text
  · cases e <;> exact ⟨finder, hfinder, rfl⟩
  · simp only [htext] at hlimit ⊢
    have hdeep : Admits p.reader.inclusion.limit limit fun f =>
        ∃ e, p.reader.inclusion.push (.ofText text (some file.toString) (some position)) = .error e ∧ f = .error e := by
      rw [hsame]
      refine hlimit.mono ?_
      rintro _ ⟨e, he, rfl⟩
      rw [he]
      rfl
    have hpush := push_limited (.ofText text (some file.toString) (some position)) hdeep
    simp only [show (p.configured finder limit).reader.inclusion = { p.reader.inclusion with limit } from rfl, hpush]
    rcases p.reader.inclusion.push (.ofText text (some file.toString) (some position)) with e | i <;>
      exact ⟨finder, hfinder, rfl⟩

private theorem resembles_include {library : Bool} {path : Token} {position : Position} (h : Finder.IsMatching w N F)
    (hfinder : F p.finder finder) (hp : p.reader.IsSetUp N p.limit)
    (hlimit : Admits p.limit limit ((p.evalInclude w library path position).outcome = .fail ·)) :
    (p.evalInclude w library path position).Resembles F limit
      ((p.configured finder limit).evalInclude w library path position) := by
  unfold evalInclude at hlimit ⊢
  rcases hvalue : path.value with e | name
  · exact ⟨finder, hfinder, rfl⟩
  · obtain ⟨hanswer, hafter⟩ := h.find library name p.reader.inclusion.current.filename hfinder hp.current
    have hevents := h.events_eq name hfinder
    simp only [hvalue] at hlimit ⊢
    simp only [show (p.configured finder limit).finder = finder from rfl, hevents,
      show (p.configured finder limit).reader.inclusion.current = p.reader.inclusion.current from rfl]
    rcases hfind : p.finder.find w library name (p.reader.inclusion.current.filename.map Path.directoryOf) with
      ⟨found, after⟩
    rcases hfind' : finder.find w library name (p.reader.inclusion.current.filename.map Path.directoryOf) with
      ⟨found', after'⟩
    rw [hfind, hfind'] at hanswer hafter
    obtain rfl : found' = found := hanswer
    simp only [hfind] at hlimit ⊢
    rcases found' with f | _ | file
    · exact ⟨after', hafter, rfl⟩
    · exact ⟨after', hafter, rfl⟩
    · exact (resembles_enter (p := { p with finder := after }) hafter hp.1 hlimit).after _

private theorem resembles_evaluate {d : Directive} (h : Finder.IsMatching w N F) (hfinder : F p.finder finder)
    (hp : p.reader.IsSetUp N p.limit)
    (hlimit : Admits p.limit limit ((evaluate w p d).outcome = .fail ·)) :
    (evaluate w p d).Resembles F limit (evaluate w (p.configured finder limit) d) := by
  unfold evaluate at hlimit ⊢
  rcases haction : d.action with ⟨name, params, body⟩ | name | name | name | _ | _ | path | path | message | message |
    ⟨name, line⟩
  all_goals simp only [haction] at hlimit ⊢
  case define =>
    simp only [evalDefine, configured]
    rcases Macro.make name params body with e | m
    · exact ⟨finder, hfinder, rfl⟩
    · dsimp only
      rcases p.macros.define m with e | macros <;> exact ⟨finder, hfinder, rfl⟩
  case undef =>
    simp only [withName, evalUndef, configured]
    rcases name.nameValue with e | n
    · exact ⟨finder, hfinder, rfl⟩
    · dsimp only
      rcases p.macros.undef n (some d.position) with e | macros <;> exact ⟨finder, hfinder, rfl⟩
  case ifdef | ifndef =>
    simp only [withName]
    rcases name.nameValue with e | n <;> exact ⟨finder, hfinder, rfl⟩
  case otherwise =>
    simp only [evalConditional, configured]
    rcases p.conditions.flip (some d.position) with e | conditions <;> exact ⟨finder, hfinder, rfl⟩
  case endif =>
    simp only [evalConditional, configured]
    rcases p.conditions.close (some d.position) with e | conditions <;> exact ⟨finder, hfinder, rfl⟩
  case includeFile => exact resembles_include h hfinder hp hlimit
  case includeLib => exact resembles_include h hfinder hp hlimit
  case error => exact ⟨finder, hfinder, rfl⟩
  case warning => exact ⟨finder, hfinder, rfl⟩
  case file =>
    simp only [evalFile]
    rcases name.value with e | filename
    · exact ⟨finder, hfinder, rfl⟩
    · rcases integerValue? line.text with _ | n <;> exact ⟨finder, hfinder, rfl⟩

private theorem resembles_directive {tokens : List Token} (h : Finder.IsMatching w N F) (hfinder : F p.finder finder)
    (hp : p.reader.IsSetUp N p.limit)
    (hlimit : Admits p.limit limit ((directive w p tokens).outcome = .fail ·)) :
    (directive w p tokens).Resembles F limit (directive w (p.configured finder limit) tokens) := by
  unfold directive at hlimit ⊢
  simp only [show (p.configured finder limit).conditions = p.conditions from rfl]
  split
  · next hexecuted =>
    simp only [hexecuted, if_true] at hlimit
    rcases hparse : Directive.parse tokens with f | d
    · exact ⟨finder, hfinder, rfl⟩
    · simp only [hparse] at hlimit
      exact resembles_evaluate (p := { p with formStart := true, directives := d :: p.directives }) h hfinder hp hlimit
  · unfold skip
    split <;> exact ⟨finder, hfinder, rfl⟩

private theorem resembles_take {t : Token} (h : Finder.IsMatching w N F) (hN : ∀ name, N (some name))
    (hfinder : F p.finder finder) (hp : p.reader.IsSetUp N p.limit)
    (hlimit : Admits p.limit limit ((take w p t).outcome = .fail ·)) :
    (take w p t).Resembles F limit (take w (p.configured finder limit) t) := by
  have hclosed := Reader.isClosed_isSetUp w p.finder hN p.limit
  have hstart : ((p.configured finder limit).formStart && (p.configured finder limit).reader.fromSource &&
      t.isSymbol "-") = (p.formStart && p.reader.fromSource && t.isSymbol "-") := rfl
  obtain ⟨hresult, hreader⟩ :=
    (agrees_collect (Reader.isReadMatching_limited limit) t p.reader).same _ rfl trivial
  unfold take at hlimit ⊢
  rw [hstart]
  by_cases hhyphen : (p.formStart && p.reader.fromSource && t.isSymbol "-") = true
  · rw [if_pos hhyphen] at hlimit ⊢
    rw [if_pos hhyphen]
    rcases hcollect : collect p.reader t with ⟨collected, r⟩
    rw [hcollect] at hresult hreader
    rw [show collect (p.configured finder limit).reader t = (collected, r.limited limit) from
      Prod.ext hresult hreader]
    simp only [hcollect] at hlimit
    rcases collected with f | _ | tokens
    · exact ⟨finder, hfinder, rfl⟩
    · exact resembles_ordinary (p := { p with reader := r }) hfinder hlimit
    · obtain ⟨cs, htakes, -⟩ := takes_collect_some hcollect
      exact resembles_directive (p := { p with reader := r }) h hfinder (hclosed.takes (hclosed.peek hp) htakes).1 hlimit
  · rw [if_neg hhyphen] at hlimit ⊢
    rw [if_neg hhyphen]
    exact resembles_ordinary hfinder hlimit

/-- A step comes to the same. -/
theorem resembles_step (h : Finder.IsMatching w N F) (hN : ∀ name, N (some name)) (hfinder : F p.finder finder)
    (hp : p.reader.IsSetUp N p.limit) (hlimit : Admits p.limit limit ((step w p).outcome = .fail ·)) :
    (step w p).Resembles F limit (step w (p.configured finder limit)) := by
  obtain ⟨hresult, hreader⟩ := ((Reader.isReadMatching_limited limit).read true p.reader).same _ rfl trivial
  unfold step at hlimit ⊢
  rcases hread : p.reader.read with ⟨pull, r⟩
  rw [hread] at hresult hreader
  rw [show (p.configured finder limit).reader.read = (pull, r.limited limit) from Prod.ext hresult hreader]
  simp only [hread] at hlimit
  dsimp only
  rcases pull with t | _ | e
  · have hr := ((Reader.isClosed_isSetUp w p.finder hN p.limit).read hp hread).1
    exact (resembles_take (p := { p with reader := r }) h hN hfinder hr hlimit).after _
  · dsimp only
    rw [show (p.configured finder limit).conditions = p.conditions from rfl]
    rcases p.conditions.finish with e | _ <;> exact ⟨finder, hfinder, rfl⟩
  · exact ⟨finder, hfinder, rfl⟩

/-! ### Runs -/

/-- The second answer is the same, in a state that differs in its finder and its limit only. -/
def Next.Resembles (F : Finder → Finder → Prop) (limit : DepthLimit) (n n' : Next) : Prop :=
  ∃ finder, F n.state.finder finder ∧ n' = { n with state := n.state.configured finder limit }

/-- The second run takes the same tokens, and leaves a state that differs in its finder and its limit only. -/
def Run.Resembles (F : Finder → Finder → Prop) (limit : DepthLimit) (r r' : Run) : Prop :=
  ∃ finder, F r.state.finder finder ∧ r' = { r with state := r.state.configured finder limit }

private theorem isSetUp_step (hN : ∀ name, N (some name)) (hp : p.reader.IsSetUp N p.limit)
    (h : (step w p).outcome.continues) : (step w p).state.reader.IsSetUp N (step w p).state.limit := by
  rw [(keeps_step w p).limit_eq]
  exact (Reader.isClosed_isSetUp w p.finder hN p.limit).advance hp (advance_step h)

/-- The next token is the same, and after it the run goes on alike. -/
theorem resembles_next {fuel : Nat} (h : Finder.IsMatching w N F) (hN : ∀ name, N (some name))
    (hfinder : F p.finder finder) (hp : p.reader.IsSetUp N p.limit)
    (hlimit : Admits p.limit limit ((next w fuel p).answer = .failed ·)) :
    (next w fuel p).Resembles F limit (next w fuel (p.configured finder limit)) ∧
      ∀ t, (next w fuel p).answer = .token t →
        (next w fuel p).state.reader.IsSetUp N (next w fuel p).state.limit ∧ (next w fuel p).state.limit = p.limit := by
  induction fuel generalizing p finder with
  | zero =>
    unfold next
    rw [show (p.configured finder limit).done = p.done from rfl]
    cases p.done <;> exact ⟨⟨finder, hfinder, rfl⟩, fun t ht => by cases ht⟩
  | succ fuel ih =>
    unfold next at hlimit ⊢
    rw [show (p.configured finder limit).done = p.done from rfl]
    rcases hdone : p.done with _ | _
    · rw [hdone] at hlimit
      have hnext := isSetUp_step (w := w) hN hp
      have hkeeps := (keeps_step w p).limit_eq
      dsimp only [Bool.false_eq_true, if_false] at hlimit ⊢
      obtain ⟨after, hafter, hstep⟩ : (step w p).Resembles F limit (step w (p.configured finder limit)) := by
        refine resembles_step h hN hfinder hp (hlimit.mono fun f hf => ?_)
        rw [hf]
        rfl
      rw [hstep]
      rcases houtcome : (step w p).outcome with t | _ | _ | f <;> rw [houtcome] at hlimit hnext
      · exact ⟨⟨after, hafter, rfl⟩, fun _ _ => ⟨hnext rfl, hkeeps⟩⟩
      · dsimp only at hlimit ⊢
        rw [← hkeeps] at hlimit
        obtain ⟨⟨final, hfinal, hrest⟩, htoken⟩ := ih hafter (hnext rfl) hlimit
        rw [hrest]
        refine ⟨⟨final, hfinal, rfl⟩, fun t ht => ?_⟩
        obtain ⟨hsetup, heq⟩ := htoken t ht
        exact ⟨hsetup, heq.trans hkeeps⟩
      · exact ⟨⟨after, hafter, rfl⟩, fun t ht => by cases ht⟩
      · exact ⟨⟨after, hafter, rfl⟩, fun t ht => by cases ht⟩
    · exact ⟨⟨finder, hfinder, rfl⟩, fun t ht => by cases ht⟩

/-- The same tokens are taken, and the end is the same. -/
theorem resembles_pulls {fuel count : Nat} (h : Finder.IsMatching w N F) (hN : ∀ name, N (some name))
    (hfinder : F p.finder finder) (hp : p.reader.IsSetUp N p.limit)
    (hlimit : Admits p.limit limit ((pulls w fuel count p).ending = .failed ·)) :
    (pulls w fuel count p).Resembles F limit (pulls w fuel count (p.configured finder limit)) := by
  induction count generalizing p finder with
  | zero => exact ⟨finder, hfinder, rfl⟩
  | succ count ih =>
    rw [pulls_succ] at hlimit ⊢
    rw [pulls_succ]
    obtain ⟨⟨after, hafter, hnext⟩, htoken⟩ :
        (next w fuel p).Resembles F limit (next w fuel (p.configured finder limit)) ∧ _ := by
      refine resembles_next h hN hfinder hp (hlimit.mono fun f hf => ?_)
      unfold Next.resume
      rw [hf]
    rw [hnext]
    unfold Next.resume at hlimit ⊢
    rcases hanswer : (next w fuel p).answer with t | _ | f | _
    · obtain ⟨hsetup, heq⟩ := htoken t hanswer
      rw [hanswer, ← heq] at hlimit
      obtain ⟨final, hfinal, hrest⟩ := ih hafter hsetup hlimit
      dsimp only
      rw [hrest]
      exact ⟨final, hfinal, rfl⟩
    · exact ⟨after, hafter, rfl⟩
    · exact ⟨after, hafter, rfl⟩
    · exact ⟨after, hafter, rfl⟩

theorem resembles_run (fuel : Nat) (h : Finder.IsMatching w N F) (hN : ∀ name, N (some name))
    (hfinder : F p.finder finder) (hp : p.reader.IsSetUp N p.limit)
    (hlimit : Admits p.limit limit ((pulls w fuel fuel p).ending = .failed ·)) :
    (p.run w fuel).Resembles F limit ((p.configured finder limit).run w fuel) := by
  obtain ⟨after, hafter, hpulls⟩ := resembles_pulls h hN hfinder hp hlimit
  unfold run
  rw [hpulls]
  generalize pulls w fuel fuel p = r at hafter ⊢
  rcases r with ⟨tokens, _ | _ | f, state, events⟩ <;> exact ⟨after, hafter, rfl⟩

/-- A run starts alike with another finder and another limit. -/
theorem start_configured (stream : Lexing) (options : Options) (finder finder' : Finder) (limit : DepthLimit) :
    start stream { options with limit } finder' =
      ((start stream options finder).1.map (configured finder' limit), (start stream options finder).2) := by
  unfold start
  rcases defineAll {} options.defines with ⟨f | macros, es⟩ <;> rfl

theorem isSetUp_start {stream : Lexing} {options : Options} {es : List Event} (hname : N options.filename)
    (hstart : start stream options finder = (.ok p, es)) : p.reader.IsSetUp N p.limit := by
  obtain ⟨macros, -, rfl⟩ := start_eq hstart
  exact ⟨rfl, .input hname⟩

/-- The state with another limit. -/
def limited (limit : DepthLimit) (p : Preprocessor) : Preprocessor :=
  p.configured p.finder limit

/-- A higher limit changes nothing but itself: a run starts as before or fails to, and as long as nothing is nested too
deep for the lower limit, the same tokens are taken, the end is the same, and so is the state after it. -/
theorem raised_limit_changes_nothing (stream : Lexing) (options : Options) (finder : Finder)
    (hle : options.limit.value ≤ limit.value) :
    start stream { options with limit } finder =
        ((start stream options finder).1.map (limited limit), (start stream options finder).2) ∧
      ∀ p, (start stream options finder).1 = .ok p → ∀ w fuel count,
        (∀ f, (pulls w fuel count p).ending = .failed f → f.isTooDeep = false) →
          pulls w fuel count (p.limited limit) =
            { pulls w fuel count p with state := (pulls w fuel count p).state.limited limit } := by
  constructor
  · unfold start
    rcases defineAll {} options.defines with ⟨f | macros, es⟩ <;> rfl
  · intro p hp w fuel count hdeep
    have hstart : start stream options finder = (.ok p, (start stream options finder).2) := Prod.ext hp rfl
    have hlimit : p.limit = options.limit := by
      obtain ⟨macros, -, rfl⟩ := start_eq hstart
      rfl
    obtain ⟨_, rfl, hpulls⟩ := resembles_pulls (Finder.isMatching_eq w fun _ => True) (fun _ => trivial)
      (rfl : p.finder = _) (isSetUp_start trivial hstart) (.inr ⟨hlimit ▸ hle, hdeep⟩)
    exact hpulls

/-- `A` stands for a call of `B`, so two calls are nested, and the limit two is just high enough. -/
theorem raised_limit_changes_nothing_nested :
    let define (name : Text) (offset : Nat) (body : List Token) :=
      [placed .operator "-" offset, placed .atom "define" offset, placed .punctuator "(" offset, placed .var name offset,
        placed .punctuator "," offset] ++ body ++ [placed .punctuator ")" offset, placed .punctuator "." offset]
    let tokens := define "A" 0 [placed .operator "?" 0, placed .var "B" 0] ++ define "B" 1 [placed .atom "b" 1] ++
      [placed .operator "?" 2, placed .var "A" 2]
    let options : Options := { limit := .ofInt 2 }
    let w : World := { workingDirectory := ⟨.root, []⟩ }
    let p := initial { tokens } options (.fixed [])
    start { tokens } { options with limit := .ofInt 200 } (.fixed []) = (.ok (p.limited (.ofInt 200)), []) ∧
      (pulls w 9 1 p).ending = .limit ∧ (pulls w 9 1 p).tokens.map (·.text) = ["b"] ∧
      (pulls w 9 1 (p.limited (.ofInt 1))).ending ≠ .limit ∧
      pulls w 9 1 (p.limited (.ofInt 200)) =
        { pulls w 9 1 p with state := (pulls w 9 1 p).state.limited (.ofInt 200) } := by
  intro define tokens options w p
  have hlimit : options.limit.value ≤ (DepthLimit.ofInt 200).value := by decide +kernel
  obtain ⟨hstart, hpulls⟩ := raised_limit_changes_nothing { tokens } options (.fixed []) hlimit
  have hending : (pulls w 9 1 p).ending = .limit := by decide +kernel
  refine ⟨hstart, hending, by decide +kernel, by decide +kernel, hpulls p rfl w 9 1 fun f hf => ?_⟩
  rw [hending] at hf
  cases hf

end Preprocessor

end ErlangMacros
