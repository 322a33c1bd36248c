import Mathlib.Data.List.Forall2
import ErlangMacros.Proofs.Macro.Flattening
import ErlangMacros.Proofs.Preprocessor.History

/-!
# What the macros for the line and the file report

A source reports its own name and lines until a directive sets others, and then what the last one set
(`Source.Label.ReportsBy`).  A directive is about the source that it is read from, and about no other (`Reports.step`).

The macros for the line and the file take what they report from the source that is current when their name has been
read.  That is the source of the last outermost call, or one around it if its file has been left since.
-/

namespace ErlangMacros

/-- A source reports what a directive set, or its own name and lines if there was none. -/
def Source.Label.ReportsBy (l : Source.Label) : Option Directive → Prop
  | none => l.logicalFilename = l.filename ∧ l.lineOffset = 0
  | some d =>
    ∃ name line filename n, d.action = .file name line ∧ name.value = .ok filename ∧
      integerValue? line.text = some n ∧ l.logicalFilename = some filename ∧ l.lineOffset = n - (d.lastLine + 1)

namespace Preprocessor

open Source.Label (ReportsBy)
open Token (onLine)

variable {w : World} {p p' : Preprocessor} {h : History} {t : Token} {r r₂ : Reader}

/-- What belongs to sources belongs to those that are still open, if the others are dropped. -/
theorem forall₂_drop_of_suffix {reports : List (Option Directive)} {i i' : Inclusion}
    (hreports : List.Forall₂ ReportsBy i.labels reports) (hlabels : i'.labels <:+ i.labels) :
    List.Forall₂ ReportsBy i'.labels (reports.drop (i.size - i'.size)) := by
  obtain ⟨left, hleft⟩ := hlabels
  have hsize : i.size - i'.size = left.length := by
    rw [← i.length_labels, ← i'.length_labels, ← hleft, List.length_append, Nat.add_sub_cancel]
  have hdrop := List.forall₂_drop left.length hreports
  rwa [← hleft, List.drop_left, ← hsize] at hdrop

private theorem size_le_of_suffix {i i' : Inclusion} (hlabels : i'.labels <:+ i.labels) : i'.size ≤ i.size := by
  rw [← i.length_labels, ← i'.length_labels]
  exact hlabels.length_le

/-- Every open source reports what the last directive in it set, now and at the last outermost call.  While expansions
wait, the sources are those of the call, but for those that have been left. -/
structure Reports (h : History) (p : Preprocessor) : Prop where
  now : List.Forall₂ ReportsBy p.reader.inclusion.labels h.reports
  call : ∀ c ∈ h.call, List.Forall₂ ReportsBy c.reader.inclusion.labels c.reports
  kept : p.reader.frames = [] ∨ ∀ c ∈ h.call, h.reports <:+ c.reports

/-- The next outermost call, if the next step reads its question mark. -/
theorem outermost?_eq_some {c : OutermostCall} (hread : p.reader.read = (.token t, r))
    (hc : h.outermost? p = some c) :
    c = ⟨t, r, h.reports.drop (p.reader.inclusion.size - r.inclusion.size)⟩ := by
  unfold History.outermost? at hc
  rw [hread] at hc
  dsimp only at hc
  split at hc <;> cases hc
  rfl

private theorem Reports.call_after (hp : Reports h p) (hread : p.reader.read = (.token t, r)) :
    ∀ c ∈ (h.after w p).call, List.Forall₂ ReportsBy c.reader.inclusion.labels c.reports := by
  intro c hc
  rcases Option.or_eq_some_iff.1 hc with hc | ⟨-, hc⟩
  · cases outermost?_eq_some hread hc
    exact forall₂_drop_of_suffix hp.now (Reader.labels_of_read hread)
  · exact hp.call c hc

/-- After a token has been read no expansion waits and it is no question mark, or the sources that are still open are
those of the last outermost call, but for those that have been left. -/
theorem Reports.drop_suffix (hp : Reports h p) (hread : p.reader.read = (.token t, r))
    (hlabels : r₂.inclusion.labels <:+ r.inclusion.labels) :
    (r.frames = [] ∧ t.isSymbol "?" = false) ∨
      ∀ c ∈ (h.outermost? p).or h.call,
        h.reports.drop (p.reader.inclusion.size - r₂.inclusion.size) <:+ c.reports := by
  rcases hout : h.outermost? p with _ | c
  · rcases hp.kept with hframes | hkept
    · rcases Reader.read_cases hread with ⟨f, fs, hpop, -⟩ | ⟨-, i, -, rfl⟩
      · have hf := (Reader.mem_of_popFrames hpop).1
        rw [hframes] at hf
        cases hf
      · exact .inl ⟨rfl, by simpa [History.outermost?, hread, Reader.fromSource] using hout⟩
    · exact .inr fun c hc => (List.drop_suffix _ _).trans (hkept c hc)
  · refine .inr fun c' hc' => ?_
    cases hc'
    cases outermost?_eq_some hread hout
    exact List.drop_suffix_drop_left _ (Nat.sub_le_sub_left (size_le_of_suffix hlabels) _)

/-- A step that executes no directive about sources only leaves some of them. -/
theorem reportsAfter_eq_drop {reports : List (Option Directive)}
    (hexecuted : ∀ d ∈ executed? p p', ¬ IsAboutSources d.action) :
    reportsAfter p p' reports = reports.drop (p.reader.inclusion.size - p'.reader.inclusion.size) := by
  unfold reportsAfter
  rcases hd : executed? p p' with _ | d
  · rfl
  · have hno := hexecuted d hd
    dsimp only
    rcases haction : d.action <;> simp [haction, IsAboutSources] at hno ⊢

private theorem executed?_eq_none (hdirectives : p'.directives = p.directives) : executed? p p' = none := by
  simp [executed?, hdirectives]

private theorem executed?_eq_some {d : Directive} (hdirectives : p'.directives = d :: p.directives) :
    executed? p p' = some d := by
  simp [executed?, hdirectives]

private theorem reportsAfter_included {d : Directive} {path : Token} {reports : List (Option Directive)}
    (hdirectives : p'.directives = d :: p.directives)
    (haction : d.action = .includeFile path ∨ d.action = .includeLib path) :
    reportsAfter p p' reports =
      none :: reports.drop (p.reader.inclusion.size - (p'.reader.inclusion.size - 1)) := by
  unfold reportsAfter
  rw [executed?_eq_some hdirectives]
  rcases haction with haction | haction <;> simp only [haction]

private theorem reportsAfter_reported {d : Directive} {name line : Token} {reports : List (Option Directive)}
    (hdirectives : p'.directives = d :: p.directives) (haction : d.action = .file name line) :
    reportsAfter p p' reports =
      some d :: (reports.drop (p.reader.inclusion.size - p'.reader.inclusion.size)).tail := by
  unfold reportsAfter
  rw [executed?_eq_some hdirectives]
  simp only [haction]

/-- A step that reads on and executes no directive about sources. -/
theorem Reports.of_drop (hp : Reports h p) (hread : p.reader.read = (.token t, r))
    (hlabels : (step w p).state.reader.inclusion.labels <:+ r.inclusion.labels)
    (hexecuted : ∀ d ∈ executed? p (step w p).state, ¬ IsAboutSources d.action)
    (hframes : r.frames = [] → t.isSymbol "?" = false → (step w p).state.reader.frames = []) :
    Reports (h.after w p) (step w p).state where
  now := by
    rw [History.after, reportsAfter_eq_drop hexecuted]
    exact forall₂_drop_of_suffix hp.now (hlabels.trans (Reader.labels_of_read hread))
  call := hp.call_after hread
  kept := by
    rcases hp.drop_suffix hread hlabels with ⟨hnone, hplain⟩ | hdrop
    · exact .inl (hframes hnone hplain)
    · rw [History.after, reportsAfter_eq_drop hexecuted]
      exact .inr hdrop

private theorem labels_push {i i' : Inclusion} {s : Source} (hpush : i.push s = .ok i') :
    i'.labels = s.label :: i.labels := by
  unfold Inclusion.push at hpush
  split at hpush <;> cases hpush
  rfl

/-- Every step keeps what is known of the reports. -/
theorem Reports.step (hp : Reports h p) (hnested : p.reader.IsNested) (hcontinues : (step w p).outcome.continues) :
    Reports (h.after w p) (step w p).state := by
  have hordinary {t : Token} {r r' : Reader} (hread : p.reader.read = (.token t, r)) (hlooked : r' = r ∨ r' = r.peek.2)
      (hreader : (Preprocessor.step w p).state.reader = r')
      (hdirectives : (Preprocessor.step w p).state.directives = p.directives) :
      Reports (h.after w p) (Preprocessor.step w p).state := by
    refine hp.of_drop hread ?_ (by simp [executed?_eq_none hdirectives]) ?_ <;> rw [hreader] <;>
      rcases hlooked with rfl | rfl
    · exact List.suffix_rfl
    · rw [r.labels_peek]
    · exact fun hframes _ => hframes
    · exact fun hframes _ => r.frames_peek.trans hframes
  cases move_step hcontinues with
  | suppressed hread hlooked _ hstate => exact hordinary hread hlooked (by rw [hstate]) (by rw [hstate])
  | emitted hread hlooked _ _ hstate => exact hordinary hread hlooked (by rw [hstate]) (by rw [hstate])
  | @expanded question r r₁ r₂ _ _ hread hquestion hresolve hpush _ hstate =>
    obtain ⟨name, r', hname, happlies⟩ := Expansion.applies_resolve hresolve
    obtain ⟨tokens, -, -, rfl⟩ := Expansion.push_eq hpush
    have hclosed := Reader.isReadClosed_labels r.inclusion.labels
    have hlabels : r₁.inclusion.labels <:+ r.inclusion.labels :=
      hclosed.applies (hclosed.read List.suffix_rfl hname).1 happlies
    refine hp.of_drop hread ?_ (by simp [hstate, executed?]) ?_ <;> rw [hstate]
    · exact hlabels
    · intro _ hplain
      rw [hquestion] at hplain
      cases hplain
  | @directive _ r r₁ _ _ hread hsource hcollect hdirected =>
    have hframes := frames_collect hnested hread hsource hcollect
    obtain ⟨cs, htakes, -⟩ := takes_collect_some hcollect
    have hlabels : r₁.inclusion.labels <:+ r.inclusion.labels :=
      ((Reader.isReadClosed_labels r.inclusion.labels).takes (by rw [r.labels_peek]) htakes).1
    have hnow := forall₂_drop_of_suffix hp.now (hlabels.trans (Reader.labels_of_read hread))
    have hcall : ∀ c ∈ (h.after w p).call, List.Forall₂ ReportsBy c.reader.inclusion.labels c.reports :=
      hp.call_after hread
    cases hdirected with
    | skipped _ hstate =>
      refine hp.of_drop hread ?_ (by simp [hstate, executed?]) ?_ <;> rw [hstate]
      · exact hlabels
      · exact fun _ _ => hframes
    | changed _ haction _ _ hstate =>
      refine hp.of_drop hread ?_ (by simpa [hstate, executed?] using haction) ?_ <;> rw [hstate]
      · exact hlabels
      · exact fun _ _ => hframes
    | included _ haction _ hpush _ _ hstate =>
      refine ⟨?_, hcall, .inl (by rw [hstate]; exact hframes)⟩
      have hsize : (Preprocessor.step w p).state.reader.inclusion.size - 1 = r₁.inclusion.size := by
        rw [hstate, ← Inclusion.length_labels, labels_push hpush, List.length_cons, Inclusion.length_labels,
          Nat.add_sub_cancel]
      rw [History.after, reportsAfter_included (by rw [hstate]) haction, hsize, hstate, labels_push hpush]
      exact .cons ⟨rfl, rfl⟩ hnow
    | reported _ haction hvalue hinteger _ hstate =>
      refine ⟨?_, hcall, .inl (by rw [hstate]; exact hframes)⟩
      have hsize : (Preprocessor.step w p).state.reader.inclusion.size = r₁.inclusion.size := by
        rw [hstate]
        rfl
      rw [History.after, reportsAfter_reported (by rw [hstate]) haction, hsize, hstate]
      generalize h.reports.drop (p.reader.inclusion.size - r₁.inclusion.size) = reports at hnow
      cases hnow with
      | cons _ houter => exact .cons ⟨_, _, _, _, haction, hvalue, hinteger, rfl, rfl⟩ houter

private theorem reports_start {stream : Lexing} {options : Options} {finder : Finder} {es : List Event}
    (hstart : start stream options finder = (.ok p, es)) : Reports {} p := by
  obtain ⟨macros, -, rfl⟩ := start_eq hstart
  exact ⟨.cons ⟨rfl, rfl⟩ .nil, by simp, .inl rfl⟩

/-- If some sources have been left, the current one is found behind them, with the directive that set what it reports. -/
theorem getElem?_of_suffix {i i' : Inclusion} {reports reports' : List (Option Directive)}
    (hreports : List.Forall₂ ReportsBy i.labels reports) (hreports' : List.Forall₂ ReportsBy i'.labels reports')
    (hlabels : i'.labels <:+ i.labels) (hkept : reports' <:+ reports) :
    ∃ left report, i.size = i'.size + left ∧ i.labels[left]? = some i'.current.label ∧
      reports[left]? = some report ∧ i'.current.label.ReportsBy report := by
  obtain ⟨left, hleft⟩ := hlabels
  obtain ⟨left', rfl⟩ := hkept
  have hlength := hreports.length_eq
  have hlength' := hreports'.length_eq
  rw [← hleft, List.length_append, List.length_append] at hlength
  have hsame : left.length = left'.length := by omega
  have hsize : i.size = i'.size + left.length := by
    rw [← i.length_labels, ← hleft, List.length_append, i'.length_labels, Nat.add_comm]
  have hlabel : i.labels[left.length]? = some i'.current.label := by
    rw [← hleft]
    simp [Inclusion.labels, Inclusion.sources]
  obtain _ | ⟨hreport, -⟩ := hreports'
  exact ⟨left.length, _, hsize, hlabel, by simp [hsame], hreport⟩

/-! ### The macros for the line and the file -/

/-- A call of a predefined macro reads its name, and then looks at the source that is current. -/
theorem resolve_predefined {ctx : Expansion.Context} {site : Expansion.Site} {r r' r₁ : Reader} {name : Token}
    {pre : Predefined} {call : Expansion.Call} (hname : r.read = (.token name, r'))
    (hcalled : name.calledName? = some pre.name) (h : Expansion.resolve ctx site r = (.ok call, r₁)) :
    r₁ = r' ∧ ∃ t, Expansion.predefinedToken ctx r'.inclusion.current site pre = .ok t ∧
      call.meaning = .predefined t := by
  obtain ⟨hkind, hvalue⟩ := Token.calledName?_eq_some hcalled
  have hpre : Predefined.ofName? pre.name = some pre := by cases pre <;> rfl
  simp only [Expansion.resolve, hname, hkind, if_true, hvalue, Expansion.resolveName, hpre] at h
  split at h
  · next t ht =>
    cases h
    exact ⟨rfl, t, ht, rfl⟩
  · cases h

/-- A step that expands a call of a predefined macro. -/
theorem step_predefined {question name : Token} {r' : Reader} {pre : Predefined}
    (hactive : p.conditions.active = true) (hread : p.reader.read = (.token question, r))
    (hquestion : question.isSymbol "?" = true) (hname : r.read = (.token name, r'))
    (hcalled : name.calledName? = some pre.name) (hcontinues : (step w p).outcome.continues) :
    ∃ t f, Expansion.predefinedToken p.context r'.inclusion.current (.ofReader r question) pre = .ok t ∧
      f.tokens = [t] ∧ f.depth = r.depth + 1 ∧ (step w p).outcome = .proceed ∧
      (step w p).state.reader = r'.push f ∧ (step w p).state.conditions = p.conditions := by
  rw [step_question hread hquestion hactive] at hcontinues ⊢
  obtain ⟨call, r₁, r₂, hresolve, hpush, houtcome, hstate⟩ := expand_continues hcontinues
  obtain ⟨rfl, t, htoken, hmeaning⟩ := resolve_predefined hname hcalled hresolve
  obtain ⟨tokens, htokens, -, rfl⟩ := Expansion.push_eq hpush
  rw [hmeaning] at htokens
  cases htokens
  exact ⟨t, _, htoken, rfl, rfl, houtcome, congrArg reader hstate, (congrArg conditions hstate :)⟩

/-- The line is an integer, and the file a string. -/
theorem predefinedToken_line_or_file {ctx : Expansion.Context} {source : Source} {site : Expansion.Site}
    {pre : Predefined} (hpre : pre = .line ∨ pre = .file)
    (htoken : Expansion.predefinedToken ctx source site pre = .ok t) :
    t.position = site.callSite ∧ (t.kind = .integer ∨ t.kind = .string) ∧
      (pre = .line → t.kind = .integer ∧ t.text = toString (site.callSite.line + source.label.lineOffset)) ∧
      (pre = .file → t.kind = .string ∧
        ∃ filename, source.label.logicalFilename = some filename ∧ t.text = quoteString filename) := by
  rcases hpre with rfl | rfl
  · cases htoken
    exact ⟨rfl, .inl rfl, fun _ => ⟨rfl, rfl⟩, nofun⟩
  · simp only [Expansion.predefinedToken] at htoken
    split at htoken <;> cases htoken
    next filename hfilename => exact ⟨rfl, .inr rfl, nofun, fun _ => ⟨rfl, filename, hfilename, rfl⟩⟩

/-- A single integer or string of an expansion is emitted next. -/
theorem outcome_step_push {f : ExpansionFrame} (hreader : p.reader = r.push f) (htokens : f.tokens = [t])
    (hdepth : 1 ≤ f.depth) (hactive : p.conditions.active = true) (hkind : t.kind = .integer ∨ t.kind = .string) :
    (step w p).outcome = .emit t := by
  have hread : p.reader.read =
      (.token t, { r with frames := { f with tokens := [] } :: r.frames, depth := f.depth, callSite := f.callSite }) := by
    simp only [hreader, Reader.read, Reader.push, Reader.popFrames, htokens]
  have hsource : f.depth ≠ 0 := by omega
  have hquestion : t.isSymbol "?" = false := by
    rcases hkind with hkind | hkind <;> simp [Token.isSymbol, hkind, Kind.isSymbol]
  rw [step_token hread]
  simp only [take, Reader.fromSource, hsource, decide_false, Bool.and_false, Bool.false_and, Bool.false_eq_true,
    if_false, ordinary, hactive, Bool.not_true, hquestion]
  refine outcome_emit _ (.inr fun hatom => ?_)
  rcases hkind with hkind | hkind <;> rw [hkind] at hatom <;> cases hatom

/-- The macros for the line and the file report the line of the outermost call and the file as the source does that is
current when their name has been read.  If no source has been left since the question mark of the outermost call was
read, this is its source.  Otherwise it is one around it.  The source reports what the last directive in it set before
the call, whatever directives in other sources set. -/
theorem line_and_file_report_current_source {w : World} {stream : Lexing} {options : Options} {finder : Finder}
    {p₀ p : Preprocessor} {es : List Event} {n : Nat} {question name : Token} {r r' : Reader} {pre : Predefined}
    (hstart : start stream options finder = (.ok p₀, es)) (hreach : stateAfter w n p₀ = some p)
    (hactive : p.conditions.active = true) (hread : p.reader.read = (.token question, r))
    (hquestion : question.isSymbol "?" = true) (hname : r.read = (.token name, r'))
    (hpre : pre = .line ∨ pre = .file) (hcalled : name.calledName? = some pre.name)
    (hcontinues : (step w p).outcome.continues) :
    ∃ c left l report t, (historyAfter w (n + 1) {} p₀).call = some c ∧
      c.reader.inclusion.size = r'.inclusion.size + left ∧
      c.reader.inclusion.labels[left]? = some l ∧ c.reports[left]? = some report ∧ l.ReportsBy report ∧
      (step w p).outcome = .proceed ∧ (step w (step w p).state).outcome = .emit t ∧
      t.position = c.question.position ∧
      (pre = .line → t.kind = .integer ∧ t.text = toString (c.question.position.line + l.lineOffset)) ∧
      (pre = .file → t.kind = .string ∧
        ∃ filename, l.logicalFilename = some filename ∧ t.text = quoteString filename) := by
  obtain ⟨hsound, htraces, hreports⟩ := historyAfter_of_start (P := Reports) hstart (reports_start hstart) hreach
    fun h q hq _ hreports hcontinues => hreports.step hq.isPlaced.isNested hcontinues
  obtain ⟨c, hc, hsite, hbelongs⟩ := htraces.exists_call hsound.isPlaced.isNested hread hquestion
  obtain ⟨t, f, htoken, htokens, hdepth, houtcome, hreader, hconditions⟩ :=
    step_predefined hactive hread hquestion hname hcalled hcontinues
  have hafter := hreports.step hsound.isPlaced.isNested hcontinues
  have hlabels := ((isReadClosed_belongs c).read hbelongs hname).1.labels
  have hcall : ((historyAfter w n {} p₀).after w p).call = some c := hc
  have hkept : ((historyAfter w n {} p₀).after w p).reports <:+ c.reports := by
    refine hafter.kept.resolve_left ?_ c hcall
    rw [hreader]
    exact List.cons_ne_nil _ _
  have hnow : List.Forall₂ ReportsBy r'.inclusion.labels ((historyAfter w n {} p₀).after w p).reports := by
    have hnow := hafter.now
    rwa [hreader] at hnow
  obtain ⟨left, report, hsize, hlabel, hreport, hby⟩ := getElem?_of_suffix (hafter.call c hcall) hnow hlabels hkept
  obtain ⟨hposition, hkind, hline, hfile⟩ := predefinedToken_line_or_file hpre htoken
  have hemit : (step w (step w p).state).outcome = .emit t := by
    refine outcome_step_push hreader htokens ?_ (by rwa [hconditions]) hkind
    have := (hsound.isPlaced.isNested.of_read hread).2
    omega
  rw [historyAfter_succ hreach]
  rw [hsite] at hposition hline
  exact ⟨c, left, _, report, t, hcall, hsize, hlabel, hreport, hby, houtcome, hemit, hposition, hline, hfile⟩

/-- A macro that calls the macro for the line is itself called two lines after a directive that sets line 10. -/
theorem line_reported_after_directive :
    let tokens : List Token :=
      [onLine .operator "-" 1, onLine .atom "define" 1, onLine .punctuator "(" 1, onLine .var "L" 1,
        onLine .punctuator "," 1, onLine .operator "?" 1, onLine .var "LINE" 1, onLine .punctuator ")" 1,
        onLine .punctuator "." 1,
        onLine .operator "-" 2, onLine .atom "file" 2, onLine .punctuator "(" 2, onLine .string "\"z\"" 2,
        onLine .punctuator "," 2, onLine .integer "10" 2, onLine .punctuator ")" 2, onLine .punctuator "." 2,
        onLine .operator "?" 4, onLine .var "L" 4]
    let w : World := { workingDirectory := ⟨.root, []⟩ }
    let p₀ := initial { tokens } {} (.fixed [])
    let p := (stateAfter w 3 p₀).getD p₀
    (step w (step w p).state).outcome = .emit (onLine .integer "11" 4) ∧
      ∃ (c : OutermostCall) (left : Nat) (l : Source.Label) (report : Option Directive),
        (historyAfter w 4 {} p₀).call = some c ∧ c.reader.inclusion.labels[left]? = some l ∧
        c.reports[left]? = some report ∧ l.ReportsBy report ∧
        ("11" : Text) = toString (c.question.position.line + l.lineOffset) := by
  intro tokens w p₀ p
  have hemit : (step w (step w p).state).outcome = .emit (onLine .integer "11" 4) := by decide +kernel
  have hstart : start { tokens } {} (.fixed []) = (.ok p₀, []) := rfl
  have hreach : stateAfter w 3 p₀ = some p := by decide +kernel
  have hread : p.reader.read = (.token (onLine .operator "?" 1), p.reader.read.2) := by decide +kernel
  have hname : p.reader.read.2.read = (.token (onLine .var "LINE" 1), p.reader.read.2.read.2) := by decide +kernel
  obtain ⟨c, left, l, report, t, hcall, -, hlabel, hreport, hby, -, hemit', -, hline, -⟩ :=
    line_and_file_report_current_source hstart hreach (by decide +kernel) hread rfl hname (.inl rfl) (by decide +kernel)
      (by decide +kernel)
  rw [hemit] at hemit'
  cases hemit'
  exact ⟨hemit, c, left, l, report, hcall, hlabel, hreport, hby, (hline rfl).2⟩

/-- The question mark of a call is read from an included file, and its arguments end in the input, where a directive has
set another file and line.  The macros in the body then report these, not the included file and its line. -/
theorem line_and_file_of_left_source :
    let tokens : List Token :=
      [onLine .operator "-" 1, onLine .atom "define" 1, onLine .punctuator "(" 1, onLine .var "F" 1,
        onLine .punctuator "(" 1, onLine .var "X" 1, onLine .punctuator ")" 1, onLine .punctuator "," 1,
        onLine .operator "?" 1, onLine .var "FILE" 1, onLine .operator "?" 1, onLine .var "LINE" 1,
        onLine .punctuator ")" 1, onLine .punctuator "." 1,
        onLine .operator "-" 2, onLine .atom "file" 2, onLine .punctuator "(" 2, onLine .string "\"z\"" 2,
        onLine .punctuator "," 2, onLine .integer "100" 2, onLine .punctuator ")" 2, onLine .punctuator "." 2,
        onLine .operator "-" 3, onLine .atom "include" 3, onLine .punctuator "(" 3, onLine .string "\"a\"" 3,
        onLine .punctuator ")" 3, onLine .punctuator "." 3, onLine .integer "1" 4, onLine .punctuator ")" 4]
    let path : Path := ⟨.root, ["a"]⟩
    let w : World := { workingDirectory := ⟨.root, []⟩, files := ⟨[(path.parts, .file "?F(".toUTF8)], []⟩ }
    let p₀ := initial { tokens } {} (.fixed [("a", some path)])
    let call := (historyAfter w 4 {} p₀).call
    let position : Position := ⟨some "/a", 0, 1, 1⟩
    call.map (fun c => (c.question, c.reader.inclusion.current.label)) =
        some (⟨.operator, "?", position, false⟩, ⟨some "/a", some "/a", 0⟩) ∧
      (historyAfter w 7 {} p₀).call = call ∧
      (stateAfter w 5 p₀).map (fun p => (step w p).outcome) = some (.emit ⟨.string, "\"z\"", position, false⟩) ∧
      (stateAfter w 7 p₀).map (fun p => (step w p).outcome) = some (.emit ⟨.integer, "98", position, false⟩) := by
  decide +kernel

end Preprocessor

end ErlangMacros
