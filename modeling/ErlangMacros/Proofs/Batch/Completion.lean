import ErlangMacros.Proofs.Batch.Independence
import ErlangMacros.Proofs.Preprocessor.Faults

/-!
# When a batch comes to its end

A file that cannot be opened, or whose text is an error of the input, has a failure as its result, and the batch goes on
(`IsResult`).  Other files stop the whole batch (`Stops`): one that is no text, and one that includes such a file or
searches for one in vain; one that goes on for ever; and any file if the settings name one already, or give a definition
that goes on for ever or holds a surrogate.  A batch comes to its results exactly if it has no file of this kind
(`returns_iff_no_file_stops`).
-/

namespace ErlangMacros

namespace Preprocessor

variable {w : World} {includePaths codePaths : List Path} {p q : Preprocessor} {ts : List Token}

/-- What holds in all states of a run over a file with a search that remembers only what it would find. -/
structure IsOrderly (w : World) (includePaths codePaths : List Path) (p : Preprocessor) : Prop where
  isSound : p.IsSound
  isReadable : p.IsReadable
  isUnbroken : p.reader.inclusion.IsUnbroken
  isSetUp : p.reader.IsSetUp (fun filename => filename.isSome) p.limit
  isFaithful : p.finder.IsFaithful w includePaths codePaths

private theorem isOrderly_start {text path : Text} {options : Options} {finder : Finder} {es : List Event}
    (hstart : start (.ofText text (some path)) options finder = (.ok p, es)) (hname : options.filename = some path)
    (htext : text.isEncodable = true) (hfinder : finder.IsFaithful w includePaths codePaths) :
    p.IsOrderly w includePaths codePaths := by
  refine ⟨isSound_start hstart, isReadable_start hstart, ?_, isSetUp_start (by rw [hname]; rfl) hstart, ?_⟩
  · obtain ⟨macros, -, rfl⟩ := start_eq hstart
    exact List.forall_mem_singleton.2 (Lexing.breaksOff_eq_false htext _)
  · obtain ⟨macros, -, rfl⟩ := start_eq hstart
    exact hfinder

theorem IsOrderly.step (hp : p.IsOrderly w includePaths codePaths) (hcontinues : (step w p).outcome.continues) :
    (step w p).state.IsOrderly w includePaths codePaths := by
  -- a step resembles itself, which says that it leaves a faithful finder
  obtain ⟨finder, ⟨hfaithful, -⟩, -⟩ := resembles_step (Finder.isMatching_isFaithful w includePaths codePaths)
    (fun _ => rfl) ⟨hp.isFaithful, hp.isFaithful⟩ hp.isSetUp (.inl rfl)
  refine ⟨hp.isSound.step hcontinues, hp.isReadable.step hp.isSound hcontinues, ?_, ?_, hfaithful⟩
  · have hfiles : ∀ path text, w.readText path = .ok text →
        (Lexing.ofText text (some path)).ending.breaksOff = false :=
      fun path text htext => Lexing.breaksOff_eq_false (World.isEncodable_of_readText htext) _
    exact (Reader.isClosed_ends (P := (·.breaksOff = false)) rfl (.inr hfiles)).advance hp.isUnbroken
      (advance_step hcontinues)
  · rw [(keeps_step w p).limit_eq]
    exact (Reader.isClosed_isSetUp w p.finder (fun _ => rfl) p.limit).advance hp.isSetUp (advance_step hcontinues)

theorem IsOrderly.emits (hp : p.IsOrderly w includePaths codePaths) (h : Emits w p ts q) :
    q.IsOrderly w includePaths codePaths := by
  induction h with
  | refl => exact hp
  | emit hemit _ ih => exact ih (hp.step (by rw [hemit]; rfl))
  | proceed hproceed _ ih => exact ih (hp.step (by rw [hproceed]; rfl))

/-- Files are asked for in files. -/
theorem IsOrderly.exists_filename (hp : p.IsOrderly w includePaths codePaths) {library : Bool} {name : Text}
    {filename : Option Text} (h : p.Asks library name filename) : ∃ path, filename = some path := by
  obtain ⟨hread, -, hcollect⟩ := h
  have hclosed := Reader.isClosed_isSetUp w p.finder (N := fun filename => filename.isSome) (fun _ => rfl) p.limit
  obtain ⟨cs, htakes, -, -⟩ := takes_collect_some hcollect
  have hr := (hclosed.takes (hclosed.peek (hclosed.read hp.isSetUp hread).1) htakes).1
  exact Option.isSome_iff_exists.1 hr.current

end Preprocessor

/-- Faithful finders of the same paths are at fault alike. -/
theorem Finder.Faults.of_isFaithful {w : World} {includePaths codePaths : List Path} {finder finder' : Finder}
    {library : Bool} {name filename : Text} {f : Fault} (h : finder.Faults w library name (some filename) f)
    (hfinder : finder.IsFaithful w includePaths codePaths) (hfinder' : finder'.IsFaithful w includePaths codePaths) :
    finder'.Faults w library name (some filename) f := by
  obtain ⟨hanswer, -⟩ := hfinder.find hfinder' library name filename
  cases h with
  | search hfind => exact .search (hanswer.trans hfind)
  | file hfind hillegible => exact .file (hanswer.trans hfind) hillegible

namespace Batch

variable {w : World} {settings : Settings} {finder : Finder} {includePaths codePaths : List Path} {path : Text}
  {fuel : Nat} {r : FileResult}

/-- The file is read and its settings are accepted, so that a run over its text is started. -/
inductive Tries (w : World) (settings : Settings) (finder : Finder) (path : Text) :
    Except Failure Preprocessor → Prop where
  | intro {text : Text} {options : Options} {started : Except Failure Preprocessor}
      (text_eq : w.readText path = .ok text)
      (options_eq : { settings with includePaths := .null, codePaths := .null }.checkFor path = .ok options)
      (start_eq : (Preprocessor.start (.ofText text (some path)) options finder).1 = started) :
      Tries w settings finder path started

/-- The result of a run that has emitted tokens on its way to its last step. -/
def reached (path : Text) (tokens : List Token) (p : Preprocessor) (failure : Option Failure) : FileResult :=
  { filename := path, tokens, warnings := p.warnings.reverse, moduleName := p.moduleName, failure }

/-- What becomes of a file without stopping the batch. -/
inductive IsResult (w : World) (settings : Settings) (finder : Finder) (path : Text) : FileResult → Prop where
  | unopened {e : FileError} (text_eq : w.readText path = .error (.file e path)) :
      IsResult w settings finder path { filename := path, failure := some (.fault (.file e path)) }
  | refused {e : Error} (tries : Tries w settings finder path (.error (.error e))) :
      IsResult w settings finder path { filename := path, failure := some (.error e) }
  | finished {p q : Preprocessor} {tokens : List Token} (tries : Tries w settings finder path (.ok p))
      (emits : Preprocessor.Emits w p tokens q) (outcome : (Preprocessor.step w q).outcome = .finish) :
      IsResult w settings finder path (reached path tokens (Preprocessor.step w q).state none)
  | failed {p q : Preprocessor} {tokens : List Token} {e : Error} (tries : Tries w settings finder path (.ok p))
      (emits : Preprocessor.Emits w p tokens q) (outcome : (Preprocessor.step w q).outcome = .fail (.error e)) :
      IsResult w settings finder path (reached path tokens (Preprocessor.step w q).state (some (.error e)))

/-- How a file stops the whole batch. -/
inductive Stops (w : World) (settings : Settings) (finder : Finder) (path : Text) : Prop where
  | illegible {f : Fault} (illegible : w.Illegible path f)
  /-- The settings are not accepted for a file, as when they name one. -/
  | unsettled {text : Text} {f : Fault} (text_eq : w.readText path = .ok text)
      (options_eq : { settings with includePaths := .null, codePaths := .null }.checkFor path = .error f)
  /-- The text of a definition goes on for ever, or is broken off at a surrogate. -/
  | undefinable {f : Fault} (isOfDefinition : f.IsOfDefinition)
      (tries : Tries w settings finder path (.error (.fault f)))
  | endless {p : Preprocessor} (tries : Tries w settings finder path (.ok p))
      (endless : ∀ fuel, ¬ (p.run w fuel).ending.IsDefinite)
  /-- A file is asked for that cannot be searched for or is no text. -/
  | includes {p q : Preprocessor} {tokens : List Token} {library : Bool} {name filename : Text} {f : Fault}
      (tries : Tries w settings finder path (.ok p)) (emits : Preprocessor.Emits w p tokens q)
      (asks : q.Asks library name (some filename)) (faults : finder.Faults w library name (some filename) f)

private theorem Tries.isOrderly {p : Preprocessor} (h : Tries w settings finder path (.ok p))
    (hfinder : finder.IsFaithful w includePaths codePaths) : p.IsOrderly w includePaths codePaths := by
  obtain ⟨htext, hoptions, hstart⟩ := h
  exact Preprocessor.isOrderly_start (Prod.ext hstart rfl) (Settings.filename_of_checkFor hoptions)
    (World.isEncodable_of_readText htext) hfinder

/-! ### One file -/

/-- What becomes of a file when the run over it is started. -/
def resultOf (w : World) (fuel : Nat) (path : Text) : Except Failure Preprocessor → Except Fault FileResult
  | .error (.error e) => .ok { filename := path, failure := some (.error e) }
  | .error (.fault f) => .error f
  | .ok p => (finished path (p.run w fuel) []).result

private theorem Tries.result_eq {started : Except Failure Preprocessor} (h : Tries w settings finder path started)
    (fuel : Nat) : (processFile w fuel settings finder path).result = resultOf w fuel path started := by
  obtain @⟨text, options, started, htext, hoptions, rfl⟩ := h
  unfold processFile
  rw [htext]
  dsimp only
  rw [hoptions]
  dsimp only
  rcases (Preprocessor.start (.ofText text (some path)) options finder).1 with (e | f) | p
  · rfl
  · rfl
  · dsimp only
    unfold finished resultOf
    rcases hending : (p.run w fuel).ending with _ | _ | (e | f) <;> simp only [finished, hending]

/-- A file is tried, or what becomes of it is clear before. -/
theorem tries_or (w : World) (settings : Settings) (finder : Finder) (path : Text) :
    (∃ e, w.readText path = .error (.file e path)) ∨ (∃ f, w.Illegible path f) ∨
      (∃ text f, w.readText path = .ok text ∧
        { settings with includePaths := .null, codePaths := .null }.checkFor path = .error f) ∨
      ∃ started, Tries w settings finder path started := by
  rcases htext : w.readText path with f | text
  · rcases World.illegible_of_readText htext with ⟨e, rfl⟩ | hillegible
    · exact .inl ⟨e, rfl⟩
    · exact .inr (.inl ⟨f, hillegible⟩)
  · rcases hoptions : { settings with includePaths := .null, codePaths := .null }.checkFor path with f | options
    · exact .inr (.inr (.inl ⟨text, f, rfl, hoptions⟩))
    · exact .inr (.inr (.inr ⟨_, .intro htext hoptions rfl⟩))

/-- A result of a run tells of its way to the last step. -/
theorem isResult_of_finished {p : Preprocessor} (htries : Tries w settings finder path (.ok p)) (hdone : p.done = false)
    (h : (finished path (p.run w fuel) []).result = .ok r) : IsResult w settings finder path r := by
  obtain ⟨q, hemits, hend, hstate⟩ := Preprocessor.exists_emits_of_run hdone (isDefinite_of_finished h)
  unfold finished at h
  rw [hstate] at h
  rcases hending : (p.run w fuel).ending with _ | _ | (e | f) <;> rw [hending] at h hend
  · rcases houtcome : (Preprocessor.step w q).outcome with t | _ | _ | f <;> rw [houtcome] at hend <;> cases hend
  · cases h
    exact .finished htries hemits (Preprocessor.Outcome.eq_finish hend)
  · cases h
    refine .failed htries hemits ?_
    rcases houtcome : (Preprocessor.step w q).outcome with t | _ | _ | f <;> rw [houtcome] at hend <;> cases hend
    rfl
  · cases h

private theorem result_of_illegible {f : Fault} (h : w.Illegible path f) :
    (processFile w fuel settings finder path).result = .error f := by
  unfold processFile
  cases h with
  | notText hread | invalidPath hread | unencodable hread => rw [hread]

private theorem isResult_of_processFile (hfaithful : finder.IsFaithful w includePaths codePaths)
    (h : (processFile w fuel settings finder path).result = .ok r) : IsResult w settings finder path r := by
  rcases tries_or w settings finder path with
    ⟨e, htext⟩ | ⟨f, hillegible⟩ | ⟨text, f, htext, hoptions⟩ | ⟨started, htries⟩
  · simp only [processFile, htext] at h
    cases h
    exact .unopened htext
  · rw [result_of_illegible hillegible] at h
    cases h
  · simp only [processFile, htext, hoptions] at h
    cases h
  · rw [htries.result_eq] at h
    rcases started with (e | f) | p
    · cases h
      exact .refused htries
    · cases h
    · exact isResult_of_finished htries (htries.isOrderly hfaithful).isSound.done_eq h

/-- A file with a result does not stop the batch. -/
theorem not_stops_of_processFile (hfaithful : finder.IsFaithful w includePaths codePaths)
    (h : (processFile w fuel settings finder path).result = .ok r) : ¬ Stops w settings finder path := by
  intro hstops
  cases hstops with
  | illegible hillegible =>
    rw [result_of_illegible hillegible] at h
    cases h
  | unsettled htext hoptions =>
    simp only [processFile, htext, hoptions] at h
    cases h
  | undefinable _ htries =>
    rw [htries.result_eq] at h
    cases h
  | endless htries hendless =>
    rw [htries.result_eq] at h
    exact hendless fuel (isDefinite_of_finished h)
  | @includes p q tokens library name filename f htries hemits hasks hfaults =>
    have horderly := htries.isOrderly hfaithful
    have hfaults := hfaults.of_isFaithful hfaithful (horderly.emits hemits).isFaithful
    have hend : (Preprocessor.step w q).outcome.ending? = some (.failed (.fault f)) := by
      rw [Preprocessor.outcome_of_asks hasks hfaults]
      rfl
    rw [htries.result_eq] at h
    obtain ⟨q', hemits', hend', -⟩ :=
      Preprocessor.exists_emits_of_run horderly.isSound.done_eq (isDefinite_of_finished h)
    have hending := hemits.ending_unique hend hemits' hend'
    simp only [resultOf, finished, hending] at h
    cases h

/-- A run that tells what came of it has a result, or asks for a file in vain. -/
theorem exists_result_of_isDefinite {p : Preprocessor} (hfaithful : finder.IsFaithful w includePaths codePaths)
    (htries : Tries w settings finder path (.ok p)) (hd : (p.run w fuel).ending.IsDefinite) :
    (∃ r, (finished path (p.run w fuel) []).result = .ok r) ∨ Stops w settings finder path := by
  have horderly := htries.isOrderly hfaithful
  obtain ⟨q, hemits, hend, -⟩ := Preprocessor.exists_emits_of_run horderly.isSound.done_eq hd
  have hq := horderly.emits hemits
  unfold finished
  rcases hending : (p.run w fuel).ending with _ | _ | (e | f) <;> rw [hending] at hd hend
  · exact hd.elim
  · exact .inl ⟨_, rfl⟩
  · exact .inl ⟨_, rfl⟩
  · have houtcome : (Preprocessor.step w q).outcome = .fail (.fault f) := by
      rcases houtcome : (Preprocessor.step w q).outcome with t | _ | _ | f' <;> rw [houtcome] at hend <;> cases hend
      rfl
    -- a fault that is told of in finite time is that of a file
    rcases Preprocessor.fails_step hq.isReadable houtcome with
      hreported | ⟨library, name, filename, g, hg, hasks, hfaults⟩
    · cases hreported with
      | endless => exact absurd rfl hd.1
      | broken hbroken => exact absurd hq.isUnbroken hbroken
    · cases hg
      obtain ⟨filename, rfl⟩ := hq.exists_filename hasks
      exact .inr (.includes htries hemits hasks (hfaults.of_isFaithful hq.isFaithful hfaithful))

/-- A file that does not stop the batch has a result. -/
theorem exists_result_of_not_stops (hfaithful : finder.IsFaithful w includePaths codePaths)
    (h : ¬ Stops w settings finder path) : ∃ fuel r, (processFile w fuel settings finder path).result = .ok r := by
  rcases tries_or w settings finder path with
    ⟨e, htext⟩ | ⟨f, hillegible⟩ | ⟨text, f, htext, hoptions⟩ | ⟨started, htries⟩
  · exact ⟨0, _, by simp only [processFile, htext]; rfl⟩
  · exact absurd (.illegible hillegible) h
  · exact absurd (.unsettled htext hoptions) h
  · rcases started with (e | f) | p
    · exact ⟨0, _, htries.result_eq 0⟩
    · obtain ⟨-, -, hstart⟩ := id htries
      exact absurd (.undefinable (Preprocessor.fault_of_start (Prod.ext hstart rfl)) htries) h
    · by_cases hdefinite : ∃ fuel, (p.run w fuel).ending.IsDefinite
      · obtain ⟨fuel, hd⟩ := hdefinite
        obtain ⟨r, hr⟩ := (exists_result_of_isDefinite hfaithful htries hd).resolve_right h
        exact ⟨fuel, r, (htries.result_eq fuel).trans hr⟩
      · exact absurd (.endless htries (not_exists.1 hdefinite)) h

/-! ### All files -/

/-- If each file has a result with some fuel, all have results with the same fuel. -/
theorem exists_results {paths : List Text}
    (h : ∀ path ∈ paths, ∃ fuel r, (processFile w fuel settings finder path).result = .ok r) :
    ∃ fuel rs, List.Forall₂ (fun path r => (processFile w fuel settings finder path).result = .ok r) paths rs := by
  induction paths with
  | nil => exact ⟨0, [], .nil⟩
  | cons path paths ih =>
    obtain ⟨⟨fuel, r, hr⟩, hpaths⟩ := List.forall_mem_cons.1 h
    obtain ⟨fuel', rs, hrs⟩ := ih hpaths
    exact ⟨max fuel fuel', r :: rs, .cons (result_processFile_of_le hr (le_max_left _ _))
      (hrs.imp fun _ _ hresult => result_processFile_of_le hresult (le_max_right _ _))⟩

/-- A batch comes to an end exactly if none of its files stops it.  Then it has one result for each file, in their
order, and each one is what becomes of its file: it cannot be opened, it is refused for an error in a definition, or it
is read to its end or to an error, which keeps the tokens before. -/
theorem returns_iff_no_file_stops (hfinder : settings.finder = .ok finder) (w : World) (paths : List Text) :
    ((∃ fuel rs, (preprocess w fuel settings paths).1 = .ok rs) ↔ ∀ path ∈ paths, ¬ Stops w settings finder path) ∧
      ∀ fuel rs, (preprocess w fuel settings paths).1 = .ok rs →
        List.Forall₂ (IsResult w settings finder) paths rs := by
  obtain ⟨includePaths, codePaths, rfl⟩ := Settings.exists_of_finder hfinder
  have hfaithful := Finder.isFaithful_ofPaths w includePaths codePaths
  -- one finder, which remembers nothing, does for all files
  have hreturns (fuel : Nat) (rs : List FileResult) : (preprocess w fuel settings paths).1 = .ok rs ↔
      List.Forall₂ (fun path r => (processFile w fuel settings (.ofPaths includePaths codePaths) path).result = .ok r)
        paths rs := by
    rw [preprocess, hfinder, ← mapM_eq_ok_iff, ← fst_processFiles hfaithful hfaithful]
  refine ⟨⟨?_, fun hstops => ?_⟩, fun fuel rs h => ?_⟩
  · rintro ⟨fuel, rs, h⟩
    have hresults := ((hreturns fuel rs).1 h).imp fun path r hresult =>
      And.intro (not_stops_of_processFile hfaithful hresult) hresult
    exact ((List.forall₂_and_left _ _).1 hresults).1
  · obtain ⟨fuel, rs, hresults⟩ :=
      exists_results fun path hpath => exists_result_of_not_stops hfaithful (hstops path hpath)
    exact ⟨fuel, rs, (hreturns fuel rs).2 hresults⟩
  · exact ((hreturns fuel rs).1 h).imp fun path r hresult => isResult_of_processFile hfaithful hresult

/-- A file that is missing and one with an error have results, and the file after them has one too.  With a file that is
no text none of them has. -/
theorem returns_iff_no_file_stops_partial :
    let files : FileTree :=
      { entries := [(["bad.erl"], .file ⟨#[97, 255]⟩), (["good.erl"], .file "b.".toUTF8),
          (["partial.erl"], .file "a. -error(\"stop\"). b.".toUTF8)] }
    let w : World := { files, workingDirectory := ⟨.root, []⟩ }
    let finder : Finder := .ofPaths [] []
    let paths : List Text := ["/missing.erl", "/partial.erl", "/good.erl"]
    let shown : List (List Text × Bool) := [([], false), (["a", "."], false), (["b", "."], true)]
    Settings.finder {} = .ok finder ∧
      (∃ rs, (preprocess w 20 {} paths).1 = .ok rs ∧
        rs.map (fun r => (r.tokens.map (·.text), r.ok)) = shown ∧
        List.Forall₂ (IsResult w {} finder) paths rs) ∧
      (∀ path ∈ paths, ¬ Stops w {} finder path) ∧
      ¬ ∃ fuel rs, (preprocess w fuel {} (paths ++ [("/bad.erl" : Text)])).1 = .ok rs := by
  intro files w finder paths shown
  have hfinder : Settings.finder {} = .ok finder := rfl
  have hresults : (preprocess w 20 {} paths).1.toOption.map (fun rs => rs.map fun r => (r.tokens.map (·.text), r.ok)) =
      some shown := by
    decide +kernel
  obtain ⟨rs, hrs, hshown⟩ := Option.map_eq_some_iff.1 hresults
  have hreturns : (preprocess w 20 {} paths).1 = .ok rs := by
    rcases hresult : (preprocess w 20 {} paths).1 with f | rs' <;> rw [hresult] at hrs <;> cases hrs
    rfl
  have hstops : Stops w {} finder "/bad.erl" := .illegible (.notText (by decide +kernel))
  refine ⟨hfinder, ⟨rs, hreturns, hshown, (returns_iff_no_file_stops hfinder w paths).2 20 rs hreturns⟩,
    (returns_iff_no_file_stops hfinder w paths).1.1 ⟨20, rs, hreturns⟩, fun h => ?_⟩
  exact (returns_iff_no_file_stops hfinder w (paths ++ [("/bad.erl" : Text)])).1.1 h "/bad.erl" (by simp) hstops

/-- A file that is no text stops the batch before the file behind it, which alone has a result. -/
theorem batch_stops_at_undecodable_file :
    let files : FileTree := ⟨[(["bad.erl"], .file ⟨#[97, 255]⟩), (["good.erl"], .file "a.".toUTF8)], []⟩
    let w : World := { files, workingDirectory := ⟨.root, []⟩ }
    (∀ fuel, (preprocess w fuel {} ["/bad.erl", "/good.erl"]).1 = .error (.notText "/bad.erl")) ∧
      (preprocess w 9 {} ["/good.erl"]).1.toOption.map (fun rs => rs.map fun r => (r.tokens.map (·.text), r.ok)) =
        some [([("a" : Text), "."], true)] := by
  intro files w
  have hread : w.readText "/bad.erl" = .error (.notText "/bad.erl") := by decide +kernel
  refine ⟨fun fuel => ?_, by decide +kernel⟩
  have hresult : (processFile w fuel {} (.ofPaths [] []) "/bad.erl").result = .error (.notText "/bad.erl") :=
    result_of_illegible (.notText hread)
  have hfinder : Settings.finder {} = .ok (.ofPaths [] []) := rfl
  unfold preprocess
  rw [hfinder]
  dsimp only
  unfold processFiles
  dsimp only
  rw [hresult]

end Batch

end ErlangMacros
