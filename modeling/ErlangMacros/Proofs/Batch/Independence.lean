import Mathlib.Data.List.Forall2
import ErlangMacros.Batch
import ErlangMacros.Proofs.Preprocessor.Configuration

/-!
# Files of a batch do not depend on each other

The files of a batch share the search for include files, which remembers what it found for the files before.  What it
remembers is what a new search would find, so every file comes to what it comes to alone: a batch is `mapM` of what
becomes of each file with a search that remembers nothing (`fst_processFiles`).
-/

namespace ErlangMacros

/-- The path that a file is read from is its name. -/
theorem Settings.filename_of_checkFor {s : Settings} {path : Text} {options : Options}
    (h : s.checkFor path = .ok options) : options.filename = some path := by
  unfold checkFor at h
  split at h
  · cases h
  · simp only [check, Option.getD_some, Setting.optionalText, bind, Except.bind, pure, Except.pure] at h
    repeat' split at h
    all_goals cases h
    all_goals rfl

theorem Settings.exists_of_finder {s : Settings} {finder : Finder} (h : s.finder = .ok finder) :
    ∃ includePaths codePaths, finder = .ofPaths includePaths codePaths := by
  simp only [Settings.finder, bind, Except.bind, pure, Except.pure] at h
  repeat' split at h
  all_goals cases h
  exact ⟨_, _, rfl⟩

/-- Faithful finders of the same paths give the same answers for sources that have file names. -/
theorem Finder.isMatching_isFaithful (w : World) (includePaths codePaths : List Path) :
    IsMatching w (fun filename => filename.isSome)
      fun f f' => f.IsFaithful w includePaths codePaths ∧ f'.IsFaithful w includePaths codePaths where
  find := by
    rintro f f' library name filename ⟨hf, hf'⟩ hname
    obtain ⟨filename, rfl⟩ := Option.isSome_iff_exists.1 hname
    obtain ⟨hanswer, hafter⟩ := hf.find hf' library name filename
    exact ⟨hanswer, hafter, (hf'.find hf library name filename).2⟩
  events_eq := by
    rintro (s | table) (s' | table') name ⟨hf, hf'⟩
    · rfl
    · exact hf'.elim
    · exact hf.elim
    · exact hf.elim

namespace Batch

variable {w : World} {includePaths codePaths : List Path} {fuel fuel' : Nat} {settings : Settings}
  {finder finder' : Finder} {path : Text} {paths : List Text} {r : FileResult} {rs : List FileResult}

/-- What becomes of a file does not depend on what the finder remembers. -/
theorem result_processFile (h : finder.IsFaithful w includePaths codePaths)
    (h' : finder'.IsFaithful w includePaths codePaths) (fuel : Nat) (settings : Settings) (path : Text) :
    (processFile w fuel settings finder' path).result = (processFile w fuel settings finder path).result ∧
      (processFile w fuel settings finder' path).finder.IsFaithful w includePaths codePaths := by
  unfold processFile
  rcases w.readText path with e | text
  · cases e <;> exact ⟨rfl, h'⟩
  · dsimp only
    rcases hcheck : { settings with includePaths := .null, codePaths := .null }.checkFor path with f | options
    · simp only [hcheck]
      exact ⟨trivial, h'⟩
    · have hstart' := Preprocessor.start_configured (.ofText text (some path)) options finder finder' options.limit
      simp only [hcheck, hstart']
      rcases hstart : Preprocessor.start (.ofText text (some path)) options finder with ⟨(f | e) | p, es⟩
      · exact ⟨rfl, h'⟩
      · exact ⟨rfl, h'⟩
      · have hnamed : options.filename.isSome := by rw [Settings.filename_of_checkFor hcheck]; rfl
        have hp : p.limit = options.limit ∧ p.finder = finder := by
          obtain ⟨macros, -, rfl⟩ := Preprocessor.start_eq hstart
          exact ⟨rfl, rfl⟩
        obtain ⟨after, ⟨-, hafter⟩, hrun⟩ := Preprocessor.resembles_run fuel
          (Finder.isMatching_isFaithful w includePaths codePaths) (fun _ => rfl) ⟨hp.2.symm ▸ h, h'⟩
          (Preprocessor.isSetUp_start hnamed hstart) (.inl hp.1.symm)
        simp only [Except.map, hrun]
        generalize p.run w fuel = r
        rcases r with ⟨tokens, _ | _ | (e | f), state, events⟩ <;> exact ⟨rfl, hafter⟩

/-- A batch is made of what becomes of each file with one and the same finder. -/
theorem fst_processFiles (h : finder.IsFaithful w includePaths codePaths)
    (h' : finder'.IsFaithful w includePaths codePaths) (fuel : Nat) (settings : Settings) (paths : List Text) :
    (processFiles w fuel settings finder' paths).1 =
      paths.mapM fun path => (processFile w fuel settings finder path).result := by
  induction paths generalizing finder' with
  | nil => rfl
  | cons path paths ih =>
    obtain ⟨hresult, hafter⟩ := result_processFile h h' fuel settings path
    rw [List.mapM_cons, ← hresult]
    unfold processFiles
    dsimp only
    rcases (processFile w fuel settings finder' path).result with f | r
    · rfl
    · dsimp only
      rw [ih hafter]
      rcases paths.mapM fun path => (processFile w fuel settings finder path).result with f | rs <;> rfl

/-- Something is made of a list if something is made of each element. -/
theorem mapM_eq_ok_iff {α β ε : Type} {f : α → Except ε β} {as : List α} {bs : List β} :
    as.mapM f = .ok bs ↔ List.Forall₂ (fun a b => f a = .ok b) as bs := by
  induction as generalizing bs with
  | nil =>
    rw [List.mapM_nil, List.forall₂_nil_left_iff]
    exact ⟨fun h => by cases h; rfl, fun h => by rw [h]; rfl⟩
  | cons a as ih =>
    rw [List.mapM_cons, List.forall₂_cons_left_iff]
    constructor
    · intro h
      rcases ha : f a with e | b
      · rw [ha] at h
        cases h
      · rw [ha] at h
        rcases has : as.mapM f with e | bs'
        · rw [has] at h
          cases h
        · rw [has] at h
          cases h
          exact ⟨b, bs', rfl, ih.1 has, rfl⟩
    · rintro ⟨b, bs', ha, has, rfl⟩
      rw [ha, ih.2 has]
      rfl

/-- There is a result only of a run that tells what came of it. -/
theorem isDefinite_of_finished {p : Preprocessor} {es : List Event}
    (h : (finished path (p.run w fuel) es).result = .ok r) : (p.run w fuel).ending.IsDefinite := by
  have hlimit : (p.run w fuel).ending ≠ .limit := by
    unfold Preprocessor.run
    dsimp only
    split
    · rintro ⟨⟩
    · assumption
  unfold finished at h
  rcases hending : (p.run w fuel).ending with _ | _ | (e | f)
  · exact absurd hending hlimit
  · exact trivial
  · exact trivial
  · simp only [hending] at h
    cases h

/-- More fuel does not change a result. -/
theorem result_processFile_of_le (h : (processFile w fuel settings finder path).result = .ok r) (hle : fuel ≤ fuel') :
    (processFile w fuel' settings finder path).result = .ok r := by
  unfold processFile at h ⊢
  rcases hread : w.readText path with e | text <;> simp only [hread] at h ⊢
  · cases e <;> exact h
  · split
    · next hcheck => simpa only [hcheck] using h
    · next options hcheck =>
      simp only [hcheck] at h
      rcases hstart : Preprocessor.start (.ofText text (some path)) options finder with ⟨(e | f) | p, es⟩ <;>
        simp only [hstart] at h ⊢
      · exact h
      · exact h
      · rw [Preprocessor.run_of_le (isDefinite_of_finished h) hle]
        exact h

/-- What becomes of a file in a batch becomes of it alone, whatever the other files are, and in whatever order they
come. -/
theorem result_of_file_alone (h : (preprocess w fuel settings paths).1 = .ok rs) :
    List.Forall₂ (fun path r => ∀ fuel' ≥ fuel, (preprocess w fuel' settings [path]).1 = .ok [r]) paths rs := by
  unfold preprocess at h ⊢
  rcases hfinder : settings.finder with f | finder
  · rw [hfinder] at h
    cases h
  · obtain ⟨includePaths, codePaths, rfl⟩ := Settings.exists_of_finder hfinder
    have hfaithful := Finder.isFaithful_ofPaths w includePaths codePaths
    rw [hfinder] at h
    dsimp only at h ⊢
    rw [fst_processFiles hfaithful hfaithful, mapM_eq_ok_iff] at h
    refine h.imp fun path r hresult fuel' hle => ?_
    rw [fst_processFiles hfaithful hfaithful, mapM_eq_ok_iff]
    exact .cons (result_processFile_of_le hresult hle) .nil

/-- Both files include one header, which is searched for only once. -/
theorem result_of_file_alone_shared_header :
    let first := "-include(\"h.hrl\").\n?X."
    let second := "-include(\"h.hrl\").\n?X y."
    let files : FileTree :=
      { entries := [(["a.erl"], .file first.toUTF8), (["b.erl"], .file second.toUTF8),
          (["h.hrl"], .file "-define(X, 1).".toUTF8)] }
    let w : World := { files, workingDirectory := ⟨.root, []⟩ }
    let texts : List (List Text) := [["1", "."], ["1", "y", "."]]
    ∃ rs, (preprocess w 20 {} ["/a.erl", "/b.erl"]).1 = .ok rs ∧
      rs.map (fun r => r.tokens.map (·.text)) = texts ∧
      List.Forall₂ (fun path r => ∀ fuel ≥ 20, (preprocess w fuel {} [path]).1 = .ok [r]) ["/a.erl", "/b.erl"] rs := by
  intro first second files w texts
  have htexts : (preprocess w 20 {} ["/a.erl", "/b.erl"]).1.toOption.map
      (fun rs => rs.map fun r => r.tokens.map (·.text)) = some texts := by
    decide +kernel
  obtain ⟨rs, hrs, htokens⟩ := Option.map_eq_some_iff.1 htexts
  have hreturns : (preprocess w 20 {} ["/a.erl", "/b.erl"]).1 = .ok rs := by
    rcases hresult : (preprocess w 20 {} ["/a.erl", "/b.erl"]).1 with f | rs' <;> rw [hresult] at hrs <;> cases hrs
    rfl
  exact ⟨rs, hreturns, htokens, result_of_file_alone hreturns⟩

end Batch

end ErlangMacros
