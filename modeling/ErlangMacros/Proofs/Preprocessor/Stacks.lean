import ErlangMacros.Proofs.Preprocessor.History
import ErlangMacros.Proofs.Reader.Passage

/-!
# The stacks of a run

Two stacks wait to be read in every state of a run: the expansions, and below them the open sources.  This module says
how they are built.

Expansions lie on each other by depth, and none is deeper than the limit (`Reader.IsLayered`).  Reading ahead keeps that,
since tokens are put back at the depth they were read at, and in the opposite order.  Below all files lies the input,
of which only tokens have been taken (`Inclusion.IsBased`).  While tokens are suppressed there are no expansions at all
(`Reader.IsOutside`).
-/

namespace ErlangMacros

namespace Reader

variable {r r' : Reader} {t : Token} {cs : List Consumed} {bound depth : Int}

/-! ### Expansions by depth -/

/-- The depths of expansions do not grow from the innermost one on, and start below a bound. -/
def AreLayered : Int → List ExpansionFrame → Prop
  | _, [] => True
  | bound, f :: fs => f.depth ≤ bound ∧ AreLayered f.depth fs

/-- The expansions lie on each other by depth, up to a bound. -/
def IsLayered (bound : Int) (r : Reader) : Prop :=
  AreLayered bound r.frames

theorem AreLayered.mono {fs : List ExpansionFrame} (h : AreLayered depth fs) (hle : depth ≤ bound) :
    AreLayered bound fs := by
  cases fs with
  | nil => trivial
  | cons f fs => exact ⟨Int.le_trans h.1 hle, h.2⟩

theorem AreLayered.depth_le {fs : List ExpansionFrame} (h : AreLayered bound fs) : ∀ f ∈ fs, f.depth ≤ bound := by
  induction fs generalizing bound with
  | nil => simp
  | cons g fs ih =>
    intro f hf
    rcases List.mem_cons.1 hf with rfl | hf
    · exact h.1
    · exact Int.le_trans (ih h.2 f hf) h.1

private theorem AreLayered.pairwise {fs : List ExpansionFrame} (h : AreLayered bound fs) :
    fs.Pairwise fun above below => below.depth ≤ above.depth := by
  induction fs generalizing bound with
  | nil => exact .nil
  | cons f fs ih => exact .cons h.2.depth_le (ih h.2)

theorem AreLayered.popFrames {fs fs' : List ExpansionFrame} {f : ExpansionFrame} (h : AreLayered bound fs)
    (hpop : Reader.popFrames fs = some (t, f, fs')) : AreLayered f.depth fs' ∧ f.depth ≤ bound := by
  induction fs generalizing bound with
  | nil => simp [Reader.popFrames] at hpop
  | cons g fs ih =>
    unfold Reader.popFrames at hpop
    split at hpop
    · cases hpop
      exact ⟨⟨Int.le_refl _, h.2⟩, h.1⟩
    · obtain ⟨hfs', hle⟩ := ih h.2 hpop
      exact ⟨hfs', Int.le_trans hle h.1⟩

/-- No expansion that is left is deeper than the token that was read. -/
theorem IsLayered.read (hr : r.IsLayered bound) (hbound : 0 ≤ bound) (h : r.read = (.token t, r')) :
    r'.IsLayered r'.depth ∧ r'.depth ≤ bound := by
  rcases read_cases h with ⟨f, fs, hpop, rfl⟩ | ⟨-, i, -, rfl⟩
  · exact AreLayered.popFrames hr hpop
  · exact ⟨trivial, hbound⟩

theorem IsLayered.peek (hr : r.IsLayered bound) : r.peek.2.IsLayered bound := by
  unfold IsLayered
  rw [r.frames_peek]
  exact hr

theorem IsLayered.putBack {c : Consumed} (hr : r.IsLayered c.depth) : (r.putBack c).IsLayered c.depth := by
  unfold Reader.putBack
  split
  · exact hr
  · unfold IsLayered at hr
    rcases hframes : r.frames with _ | ⟨f, fs⟩
    · exact ⟨Int.le_refl _, by rw [hframes]; trivial⟩
    · dsimp only
      split
      · -- the token joins those that were put back before
        rw [hframes] at hr
        exact hr
      · exact ⟨Int.le_refl _, hr⟩

/-- Tokens that are taken can be put back. -/
theorem Takes.isLayered (h : Takes r cs r') (hr : r.IsLayered bound) (hnested : r.IsNested) (hbound : 0 ≤ bound) :
    r'.IsLayered bound ∧ (r'.unread cs).IsLayered bound := by
  induction h generalizing bound with
  | nil r => exact ⟨hr, hr⟩
  | @cons r r₁ r₂ t cs hread _ ih =>
    obtain ⟨hr₁, hle⟩ := hr.read hbound hread
    obtain ⟨hnested₁, hplace⟩ := Places.of_read hnested hread
    have hdepth : 0 ≤ r₁.depth := by omega
    obtain ⟨hr₂, hunread⟩ := ih hr₁ hnested₁ hdepth
    have hback := IsLayered.putBack (c := r₁.consumed t) hunread
    exact ⟨AreLayered.mono hr₂ hle, AreLayered.mono hback hle⟩

private theorem Applies.isLayered (h : Applies r r') (hr : r.IsLayered bound) (hnested : r.IsNested)
    (hbound : 0 ≤ bound) : r'.IsLayered bound := by
  cases h with
  | bare => exact hr
  | looked => exact hr.peek
  | applied htakes => exact (htakes.isLayered hr.peek hnested.peek hbound).1
  | putBack htakes => exact (htakes.isLayered hr.peek hnested.peek hbound).2

/-- No step puts an expansion below one that is less deep, or deeper than the limit. -/
theorem Advance.isLayered {w : World} {finder : Finder} {limit : DepthLimit} (h : Advance w finder limit r r')
    (hr : r.IsLayered limit.value) (hnested : r.IsNested) (hlimit : 0 ≤ limit.value) : r'.IsLayered limit.value := by
  have hread {t : Token} {r₁ : Reader} (hread : r.read = (.token t, r₁)) : r₁.IsLayered limit.value := by
    obtain ⟨hr₁, hle⟩ := hr.read hlimit hread
    exact AreLayered.mono hr₁ hle
  cases h with
  | token h => exact hread h
  | looked h => exact (hread h).peek
  | @directive r₁ _ hcollects hevaluates =>
    have hnested₁ : hcollects.first.IsNested := (Places.of_read hnested hcollects.read).1
    have hr₁ : r₁.IsLayered limit.value :=
      (hcollects.takes.isLayered (hread hcollects.read).peek hnested₁.peek hlimit).1
    cases hevaluates with
    | same => exact hr₁
    | file => exact hr₁
    | included => exact hr₁
  | @expanded _ _ r₁ r₂ r₃ f h hname happlies hdepth _ hle =>
    -- all that is read for a call is at most as deep as its question mark, and the expansion is one deeper
    obtain ⟨hr₁, -⟩ := hr.read hlimit h
    obtain ⟨hnested₁, hplace⟩ := Places.of_read hnested h
    have hquestion : 0 ≤ r₁.depth := by omega
    obtain ⟨hr₂, hname_le⟩ := hr₁.read hquestion hname
    have hr₃ : r₃.IsLayered r₁.depth :=
      happlies.isLayered (AreLayered.mono hr₂ hname_le) (Places.of_read hnested₁ hname).1 hquestion
    refine ⟨hle, ?_⟩
    exact AreLayered.mono hr₃ (by omega)

end Reader

/-! ### The input below all files -/

/-- A property of a source that reading ahead and `-file` directives do not break. -/
structure Source.IsStable (P : Source → Prop) : Prop where
  next : ∀ s, P s → P s.next.2
  putBack : ∀ s t, P s → P (s.putBack t)
  setFile : ∀ s filename line directiveLine, P s → P (s.setFile filename line directiveLine)

theorem Source.IsStable.peek {P : Source → Prop} (hP : IsStable P) {s : Source} (h : P s) : P s.peek.2 := by
  have hnext := hP.next s h
  unfold Source.peek
  rcases hs : s.next with ⟨t | _ | e, s'⟩ <;> rw [hs] at hnext
  · exact hP.putBack s' t hnext
  · exact hnext
  · exact hnext

/-- The source of the input, of which some tokens may have been taken. -/
structure Source.IsInput (stream : Lexing) (filename : Option Text) (s : Source) : Prop where
  filename_eq : s.filename = filename
  includedFrom_eq : s.includedFrom = none
  tokens_suffix : s.stream.tokens <:+ stream.tokens
  ending_eq : s.stream.ending = stream.ending ∨ s.stream.ending = .finished

private theorem Source.isStable_isInput (stream : Lexing) (filename : Option Text) :
    Source.IsStable (IsInput stream filename) where
  next := by
    intro s h
    unfold Source.next pull
    split
    · exact ⟨h.filename_eq, h.includedFrom_eq, h.tokens_suffix, h.ending_eq⟩
    · split
      · next htokens =>
        refine ⟨h.filename_eq, h.includedFrom_eq, List.IsSuffix.trans ?_ h.tokens_suffix, h.ending_eq⟩
        rw [htokens]
        exact List.suffix_cons _ _
      · split
        · exact ⟨h.filename_eq, h.includedFrom_eq, h.tokens_suffix, h.ending_eq⟩
        · exact ⟨h.filename_eq, h.includedFrom_eq, h.tokens_suffix, .inr rfl⟩
        · exact h
  putBack := fun _ _ h => ⟨h.filename_eq, h.includedFrom_eq, h.tokens_suffix, h.ending_eq⟩
  setFile := fun _ _ _ _ h => ⟨h.filename_eq, h.includedFrom_eq, h.tokens_suffix, h.ending_eq⟩

/-- The source of a file that a directive included. -/
def Source.IsFile (s : Source) : Prop :=
  s.includedFrom.isSome

private theorem Source.isStable_isFile : Source.IsStable IsFile where
  next := by
    intro s h
    unfold Source.next pull
    split
    · exact h
    · split
      · exact h
      · split <;> exact h
  putBack := fun _ _ h => h
  setFile := fun _ _ _ _ h => h

namespace Inclusion

variable {P Q : Source → Prop}

/-- Sources from the inside out: files, and below them all the input. -/
inductive IsBased (P Q : Source → Prop) : List Source → Prop where
  | input {s : Source} (input : P s) : IsBased P Q [s]
  | file {s : Source} {ss : List Source} (file : Q s) (rest : IsBased P Q ss) : IsBased P Q (s :: ss)

private theorem IsBased.exists_eq {ss : List Source} (h : IsBased P Q ss) :
    ∃ files input, ss = files ++ [input] ∧ P input ∧ ∀ file ∈ files, Q file := by
  induction h with
  | @input s hs => exact ⟨[], s, rfl, hs, by simp⟩
  | @file s ss hs _ ih =>
    obtain ⟨files, input, rfl, hinput, hfiles⟩ := ih
    exact ⟨s :: files, input, rfl, hinput, List.forall_mem_cons.2 ⟨hs, hfiles⟩⟩

theorem IsBased.head {s : Source} {outer : List Source} (h : IsBased P Q (s :: outer)) : P s ∨ Q s := by
  cases h with
  | input hs => exact .inl hs
  | file hs _ => exact .inr hs

/-- The innermost source may change, as long as it stays what it is. -/
theorem IsBased.cons {s s' : Source} {outer : List Source} (h : IsBased P Q (s :: outer)) (hP : P s → P s')
    (hQ : Q s → Q s') : IsBased P Q (s' :: outer) := by
  cases h with
  | input hs => exact .input (hP hs)
  | file hs hrest => exact .file (hQ hs) hrest

theorem IsBased.readThrough {current : Source} {outer : List Source} (h : IsBased P Q (current :: outer))
    (hP : Source.IsStable P) (hQ : Source.IsStable Q) :
    IsBased P Q ((Inclusion.readThrough current outer).2.1 :: (Inclusion.readThrough current outer).2.2) := by
  have hnext := h.cons (hP.next current) (hQ.next current)
  induction outer generalizing current with
  | nil => exact hnext
  | cons s outer ih =>
    unfold Inclusion.readThrough
    split
    · -- the source is exhausted and left
      cases h with
      | file _ hrest => exact ih hrest (hrest.cons (hP.next s) (hQ.next s))
    · next hcurrent =>
      rw [hcurrent] at hnext
      exact hnext

theorem IsBased.peekThrough {ss : List Source} (h : IsBased P Q ss) (hP : Source.IsStable P) (hQ : Source.IsStable Q) :
    IsBased P Q (Inclusion.peekThrough ss).2 := by
  induction h with
  | @input s hs =>
    have hpeek := hP.peek hs
    unfold Inclusion.peekThrough
    split <;> next hs' => rw [hs'] at hpeek; exact .input hpeek
  | @file s ss hs hrest ih =>
    have hpeek := hQ.peek hs
    unfold Inclusion.peekThrough
    split
    · next hs' =>
      rw [hs'] at hpeek
      exact .file hpeek ih
    · next hs' =>
      rw [hs'] at hpeek
      exact .file hpeek hrest

end Inclusion

namespace Reader

/-- Whatever is read, below all files lies the input. -/
theorem isClosed_isBased (w : World) (finder : Finder) {P Q : Source → Prop} (hP : Source.IsStable P)
    (hQ : Source.IsStable Q) (hfile : ∀ text filename position, Q (.ofText text (some filename) (some position))) :
    IsClosed w finder (fun r => Inclusion.IsBased P Q r.inclusion.sources) fun _ => True where
  read := by
    intro r r' t hr hread
    refine ⟨?_, trivial⟩
    rcases read_cases hread with ⟨f, fs, -, rfl⟩ | ⟨-, i, hi, rfl⟩
    · exact hr
    · obtain ⟨-, rfl⟩ := Prod.mk.inj hi
      exact hr.readThrough hP hQ
  peek := by
    intro r hr
    rcases r.inclusion_peek with h | h <;> rw [h]
    · exact hr
    · rw [r.inclusion.peek_eq.2.1]
      exact hr.peekThrough hP hQ
  putBack := by
    intro r c hr _
    by_cases hc : c.depth = 0
    · unfold putBack
      rw [if_pos hc]
      exact hr.cons (hP.putBack _ _) (hQ.putBack _ _)
    · rw [(expanded_putBack hc).2]
      exact hr
  push := fun hr' _ _ _ => hr'
  evaluates := by
    intro r r' hr h
    cases h with
    | same => exact hr
    | file => exact hr.cons (hP.setFile _ _ _ _) (hQ.setFile _ _ _ _)
    | included _ _ hpush =>
      rw [(Inclusion.push_eq_ok hpush).2]
      exact .file (hfile _ _ _) hr

/-- No more files are open than the limit allows. -/
theorem isClosed_size_le (w : World) (finder : Finder) (limit : DepthLimit) :
    IsClosed w finder (fun r => r.inclusion.limit = limit ∧ (r.inclusion.size : Int) ≤ limit.value + 1)
      fun _ => True where
  read := by
    intro r r' t hr hread
    have hlimit := ((isClosed_limit w finder limit).read hr.1 hread).1
    have hsize : r'.inclusion.size ≤ r.inclusion.size := by
      have := r.size_inclusion_read_le true
      rwa [hread] at this
    exact ⟨⟨hlimit, by omega⟩, trivial⟩
  peek := by
    intro r hr
    refine ⟨(isClosed_limit w finder limit).peek hr.1, ?_⟩
    rw [r.size_inclusion_peek]
    exact hr.2
  putBack := by
    intro r c hr _
    refine ⟨(r.putBack_eq c).2.2.trans hr.1, ?_⟩
    rw [(r.putBack_eq c).2.1]
    exact hr.2
  push := fun hr' _ _ _ => hr'
  evaluates := by
    intro r r' hr h
    refine ⟨(isClosed_limit w finder limit).evaluates hr.1 h, ?_⟩
    cases h with
    | same => exact hr.2
    | file => exact hr.2
    | included _ _ hpush =>
      obtain ⟨hsize, rfl⟩ := Inclusion.push_eq_ok hpush
      rw [hr.1] at hsize
      show ((r.inclusion.size + 1 : Nat) : Int) ≤ limit.value + 1
      omega

end Reader

namespace Preprocessor

open Token (placed)

variable {w : World} {p p' : Preprocessor} {stream : Lexing} {options : Options} {finder : Finder} {es : List Event}
  {n : Nat}

/-! ### Every state of a run -/

/-- While tokens are suppressed no expansion waits. -/
def IsSilenced (p : Preprocessor) : Prop :=
  p.conditions.active = false → p.reader.IsOutside

theorem IsSilenced.step (hp : p.IsSilenced) (hnested : p.reader.IsNested) (h : (step w p).outcome.continues) :
    (step w p).state.IsSilenced := by
  -- a token is read outside of expansions if the one before was, and looking ahead changes nothing
  have hordinary {t : Token} {r r' : Reader} (hread : p.reader.read = (.token t, r)) (hlooked : r' = r ∨ r' = r.peek.2)
      (hactive : p.conditions.active = false) : r'.IsOutside := by
    have hr : r.IsOutside := (hp hactive).read hread
    rcases hlooked with rfl | rfl
    · exact hr
    · exact hr.peek
  cases move_step h with
  | suppressed hread hlooked _ hstate =>
    rw [hstate]
    exact hordinary hread hlooked
  | emitted hread hlooked _ _ hstate =>
    rw [hstate]
    exact hordinary hread hlooked
  | expanded _ _ _ _ _ hstate hactive =>
    rw [hstate]
    intro hinactive
    exact absurd hactive (by rw [hinactive]; exact Bool.false_ne_true)
  | @directive _ r r₁ _ _ hread hsource hcollect hdirected =>
    obtain ⟨cs, htakes, -⟩ := takes_collect_some hcollect
    have hr₁ : r₁.IsOutside := (Reader.isOutside_of_read hnested hread hsource).peek.takes htakes
    intro _
    cases hdirected with
    | skipped _ hstate | changed _ _ _ _ hstate | included _ _ _ _ _ _ hstate | reported _ _ _ _ _ hstate =>
      rw [hstate]
      exact ⟨hr₁.frames_eq, hr₁.depth_eq, hr₁.callSite_eq⟩

theorem isSilenced_stateAfter (hstart : start stream options finder = (.ok p, es))
    (hreach : stateAfter w n p = some p') : p'.IsSilenced := by
  have hp : p.IsSilenced := by
    obtain ⟨macros, -, rfl⟩ := start_eq hstart
    exact fun _ => ⟨rfl, rfl, rfl⟩
  refine (stateAfter_induction (P := fun q => q.IsSound ∧ q.IsSilenced) ⟨isSound_start hstart, hp⟩ hreach ?_).2
  rintro q ⟨hsound, hq⟩ hcontinues
  exact ⟨hsound.step hcontinues, hq.step hsound.isPlaced.isNested hcontinues⟩

/-- What holds of the stacks of a run with the options. -/
structure IsStacked (stream : Lexing) (options : Options) (p : Preprocessor) : Prop where
  limit_eq : p.limit = options.limit
  isLayered : p.reader.IsLayered options.limit.value
  isBased : Inclusion.IsBased (Source.IsInput stream options.filename) Source.IsFile p.reader.inclusion.sources
  size_le : p.reader.inclusion.limit = options.limit ∧ (p.reader.inclusion.size : Int) ≤ options.limit.value + 1

theorem IsStacked.step (hp : p.IsStacked stream options) (hnested : p.reader.IsNested) (hlimit : 1 ≤ options.limit.value)
    (h : (step w p).outcome.continues) : (step w p).state.IsStacked stream options := by
  have hadvance := advance_step h
  rw [hp.limit_eq] at hadvance
  exact ⟨(keeps_step w p).limit_eq.trans hp.limit_eq, hadvance.isLayered hp.isLayered hnested (by omega),
    (Reader.isClosed_isBased w p.finder (Source.isStable_isInput _ _) Source.isStable_isFile fun _ _ _ => rfl).advance
      hp.isBased hadvance,
    (Reader.isClosed_size_le w p.finder options.limit).advance hp.size_le hadvance⟩

private theorem isStacked_start (hstart : start stream options finder = (.ok p, es))
    (hlimit : 1 ≤ options.limit.value) : p.IsStacked stream options := by
  obtain ⟨macros, -, rfl⟩ := start_eq hstart
  refine ⟨rfl, trivial, .input ⟨rfl, rfl, List.suffix_rfl, .inl rfl⟩, rfl, ?_⟩
  show ((1 : Nat) : Int) ≤ options.limit.value + 1
  omega

/-- In every state of a run at least the input and at most as many files as the limit says are open, with the input
below all files.  The expansions that wait have depths from one up to the limit, which do not grow towards the bottom.
They have one call site, the position of the last question mark that was read straight from a source.  While tokens are
suppressed there are none. -/
theorem stacks_of_run (hlimit : 1 ≤ options.limit.value) (hstart : start stream options finder = (.ok p, es))
    (hreach : stateAfter w n p = some p') :
    (1 ≤ p'.reader.inclusion.size ∧ (p'.reader.inclusion.size : Int) ≤ options.limit.value + 1) ∧
      (∃ files input, p'.reader.inclusion.sources = files ++ [input] ∧ input.IsInput stream options.filename ∧
        ∀ file ∈ files, file.IsFile) ∧
      (∀ f ∈ p'.reader.frames, 1 ≤ f.depth ∧ f.depth ≤ options.limit.value) ∧
      (p'.reader.frames.Pairwise fun above below => below.depth ≤ above.depth) ∧
      (∀ f ∈ p'.reader.frames, ∃ c, (historyAfter w n {} p).call = some c ∧
        f.callSite = some c.question.position) ∧
      (p'.conditions.active = false → p'.reader.frames = []) := by
  obtain ⟨hsound, htraces, hstacked⟩ :=
    historyAfter_of_start (P := fun _ q => q.IsStacked stream options) hstart (isStacked_start hstart hlimit) hreach
      fun _ q hq _ hstacked hcontinues => hstacked.step hq.isPlaced.isNested hlimit hcontinues
  refine ⟨⟨Nat.succ_pos _, hstacked.size_le.2⟩, hstacked.isBased.exists_eq, ?_, hstacked.isLayered.pairwise, ?_, ?_⟩
  · intro f hf
    exact ⟨hsound.isPlaced.isNested f hf, hstacked.isLayered.depth_le f hf⟩
  · intro f hf
    rcases htraces with hnone | ⟨c, hc, hbelongs⟩
    · rw [hnone] at hf
      cases hf
    · exact ⟨c, hc, hbelongs.places f hf⟩
  · intro hinactive
    exact (isSilenced_stateAfter hstart hreach hinactive).frames_eq

/-- The body of `H` calls `F` with arguments that do not fit, and that are put back on what is left of the body, below
the expansion of `F`.  So expansions at three places wait, as deep as the limit allows, and all of them belong to the
call of `H` in the input. -/
theorem stacks_of_run_fallback :
    let define (name : Text) (offset : Nat) (rest : List (Kind × Text)) : List Token :=
      let start : List (Kind × Text) := [(.operator, "-"), (.atom, "define"), (.punctuator, "("), (.var, name)]
      let stop : List (Kind × Text) := [(.punctuator, ")"), (.punctuator, ".")]
      (start ++ rest ++ stop).map fun lexeme => placed lexeme.1 lexeme.2 offset
    let tokens :=
      define "F" 0 [(.punctuator, ","), (.atom, "x")] ++
      define "F" 1 [(.punctuator, "("), (.var, "A"), (.punctuator, ","), (.var, "B"), (.punctuator, ")"),
        (.punctuator, ",")] ++
      define "H" 2 [(.punctuator, ","), (.operator, "?"), (.var, "F"), (.punctuator, "("), (.punctuator, ")"),
        (.atom, "z")] ++
      [placed .operator "?" 3, placed .var "H" 3]
    let options : Options := { limit := .ofInt 2 }
    let w : World := { workingDirectory := ⟨.root, []⟩ }
    let p₀ := initial { tokens } options (.fixed [])
    start { tokens } options (.fixed []) = (.ok p₀, []) ∧
      ∃ p, stateAfter w 5 p₀ = some p ∧ p.reader.frames.map (·.depth) = [2, 1, 1] ∧
        (∀ f ∈ p.reader.frames, 1 ≤ f.depth ∧ f.depth ≤ 2) ∧
        (p.reader.frames.Pairwise fun above below => below.depth ≤ above.depth) ∧
        (historyAfter w 5 {} p₀).call.map (·.question) = some (placed .operator "?" 3) ∧
        ∀ f ∈ p.reader.frames, ∃ c, (historyAfter w 5 {} p₀).call = some c ∧
          f.callSite = some c.question.position := by
  intro define tokens options w p₀
  have hstart : start { tokens } options (.fixed []) = (.ok p₀, []) := rfl
  have hdepths : (stateAfter w 5 p₀).map (fun p => p.reader.frames.map (·.depth)) = some [2, 1, 1] := by
    decide +kernel
  obtain ⟨p, hreach, hframes⟩ := Option.map_eq_some_iff.1 hdepths
  have hlimit : 1 ≤ options.limit.value := by decide +kernel
  obtain ⟨-, -, hdepth, horder, hsites, -⟩ := stacks_of_run hlimit hstart hreach
  exact ⟨hstart, p, hreach, hframes, hdepth, horder, by decide +kernel, hsites⟩

end Preprocessor

end ErlangMacros
