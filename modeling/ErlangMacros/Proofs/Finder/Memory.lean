import ErlangMacros.Finder
import ErlangMacros.Proofs.Path.Writing

/-!
# What a search remembers

A search remembers what it found, so it changes the finder.  A finder that resolves no name still resolves none after
it (`ResolvesNothing.find`).  What is remembered for a directory is what a new search would find there
(`IsFaithful.findInclude`), so searches that have remembered different things give the same answers.
-/

namespace ErlangMacros

namespace SearchPaths

variable {s : SearchPaths} {w : World}

/-- A search changes nothing, or adds what it found under its name. -/
theorem snd_findInclude_cases (s : SearchPaths) (w : World) (name : Text) (directory : Option Path) :
    (s.findInclude w name directory).2 = s ∨
    ∃ start result, (s.findInclude w name directory).1 = .ok result ∧
      (s.findInclude w name directory).2 = { s with found := ((name, start), result) :: s.found } := by
  unfold findInclude
  split
  · dsimp only
    split
    · exact .inl rfl
    · split
      · exact .inr ⟨_, _, rfl, rfl⟩
      · exact .inl rfl
  · exact .inl rfl

/-- What was found is found again; what was not searched for is searched. -/
theorem fst_findInclude (s : SearchPaths) (w : World) (name : Text) (directory : Option Path) :
    (s.findInclude w name directory).1 =
      if isUsablePath name then
        match s.found.lookup (name, (startDirectory w directory).toString) with
        | some known => .ok known
        | none => s.search w name (startDirectory w directory)
      else .ok none := by
  unfold findInclude
  split
  · dsimp only
    rcases s.found.lookup (name, (startDirectory w directory).toString) with _ | known
    · rcases s.search w name (startDirectory w directory) with f | result <;> rfl
    · rfl
  · rfl

/-- To remember that a name was not found changes no answer but those for the name. -/
theorem fst_findInclude_cons_none (known start name : Text) (directory : Option Path) :
    (SearchPaths.findInclude { s with found := ((known, start), none) :: s.found } w name directory).1 =
        (s.findInclude w name directory).1 ∨
      name = known ∧
        (SearchPaths.findInclude { s with found := ((known, start), none) :: s.found } w name directory).1 =
          .ok none := by
  rw [fst_findInclude, fst_findInclude]
  split
  · by_cases hkey : (name, (startDirectory w directory).toString) = (known, start)
    · refine .inr ⟨congrArg Prod.fst hkey, ?_⟩
      rw [hkey, List.lookup_cons_self]
    · refine .inl ?_
      rw [List.lookup_cons, beq_false_of_ne hkey]
      rfl
  · exact .inl rfl

/-- What is found for a library name, given what is found for it as an include file. -/
def libraryAnswer (w : World) (codePaths : List Path) (name : Text) :
    Except Fault (Option Path) → Except Fault (Option Path)
  | .ok none =>
    if World.isSubstitutable name then
      match (w.substitute name).components with
      | app :: part :: rest => searchApplications w app (part :: rest) codePaths
      | _ => .ok none
    else .error .unencodable
  | answer => answer

private theorem findLibrary_eq (s : SearchPaths) (w : World) (name : Text) (directory : Option Path) :
    s.findLibrary w name directory =
      (libraryAnswer w s.codePaths name (s.findInclude w name directory).1, (s.findInclude w name directory).2) := by
  unfold findLibrary libraryAnswer
  rcases s.findInclude w name directory with ⟨_ | _ | path, s'⟩
  · rfl
  · dsimp only
    split
    · rcases (w.substitute name).components with _ | ⟨app, _ | ⟨part, rest⟩⟩ <;> rfl
    · rfl
  · rfl

/-- What is remembered for a directory is what a search from there finds. -/
def IsFaithful (w : World) (s : SearchPaths) : Prop :=
  ∀ name directory known, directory.IsPlain → s.found.lookup (name, directory.toString) = some known →
    s.search w name directory = .ok known

/-- A faithful memory does not show in the answers. -/
theorem IsFaithful.fst_findInclude (h : s.IsFaithful w) (name : Text) {directory : Option Path}
    (hplain : (startDirectory w directory).IsPlain) :
    (s.findInclude w name directory).1 =
      if isUsablePath name then s.search w name (startDirectory w directory) else .ok none := by
  rw [SearchPaths.fst_findInclude]
  split
  · rcases hknown : s.found.lookup (name, (startDirectory w directory).toString) with _ | known
    · rfl
    · exact (h name _ known hplain hknown).symm
  · rfl

/-- Memory stays faithful: two plain directories are written alike only if they are the same. -/
theorem IsFaithful.findInclude (h : s.IsFaithful w) (name : Text) {directory : Option Path}
    (hplain : (startDirectory w directory).IsPlain) : (s.findInclude w name directory).2.IsFaithful w := by
  unfold SearchPaths.findInclude
  split
  · dsimp only
    split
    · exact h
    · split
      · next result hresult =>
        intro name' directory' known hplain' hknown
        by_cases hkey : (name', directory'.toString) = (name, (startDirectory w directory).toString)
        · obtain ⟨rfl, hdirectory⟩ := Prod.mk.inj hkey
          dsimp only at hknown
          rw [hkey, List.lookup_cons_self] at hknown
          cases hknown
          rw [hplain'.eq_of_toString_eq hplain hdirectory]
          exact hresult
        · dsimp only at hknown
          rw [List.lookup_cons, beq_false_of_ne hkey] at hknown
          exact h name' directory' known hplain' hknown
      · exact h
  · exact h

private theorem paths_findInclude (s : SearchPaths) (w : World) (name : Text) (directory : Option Path) :
    (s.findInclude w name directory).2.includePaths = s.includePaths ∧
      (s.findInclude w name directory).2.codePaths = s.codePaths := by
  rcases s.snd_findInclude_cases w name directory with hsame | ⟨start, result, -, hadded⟩
  · rw [hsame]
    exact ⟨rfl, rfl⟩
  · rw [hadded]
    exact ⟨rfl, rfl⟩

end SearchPaths

namespace Finder

/-- The finder searches the given paths, and what it remembers is what a search finds. -/
def IsFaithful (w : World) (includePaths codePaths : List Path) : Finder → Prop
  | search s => s.includePaths = includePaths ∧ s.codePaths = codePaths ∧ s.IsFaithful w
  | fixed _ => False

/-- No include file and no library file is found. -/
def ResolvesNothing (f : Finder) (w : World) : Prop :=
  ∀ library name directory path, (f.find w library name directory).1 ≠ .ok (some path)

/-- What a search finds. -/
theorem fst_find_search (s : SearchPaths) (w : World) (library : Bool) (name : Text) (directory : Option Path) :
    ((search s).find w library name directory).1 =
      if library then SearchPaths.libraryAnswer w s.codePaths name (s.findInclude w name directory).1
      else (s.findInclude w name directory).1 := by
  cases library with
  | false => rfl
  | true => simp only [find, if_true, SearchPaths.findLibrary_eq]

private theorem snd_find_search (s : SearchPaths) (w : World) (library : Bool) (name : Text) (directory : Option Path) :
    ((search s).find w library name directory).2 = search (s.findInclude w name directory).2 := by
  cases library with
  | false => rfl
  | true => simp only [find, if_true, SearchPaths.findLibrary_eq]

theorem isFaithful_ofPaths (w : World) (includePaths codePaths : List Text) :
    (ofPaths includePaths codePaths).IsFaithful w (includePaths.map Path.ofString) (codePaths.map Path.ofString) :=
  ⟨rfl, rfl, fun _ _ _ _ hknown => by cases hknown⟩

/-- A search leaves a faithful finder faithful. -/
theorem IsFaithful.snd_find {w : World} {includePaths codePaths : List Path} {f : Finder}
    (h : f.IsFaithful w includePaths codePaths) (library : Bool) (name : Text) {directory : Option Path}
    (hplain : (SearchPaths.startDirectory w directory).IsPlain) :
    (f.find w library name directory).2.IsFaithful w includePaths codePaths := by
  rcases f with s | table
  · obtain ⟨rfl, rfl, hs⟩ := h
    obtain ⟨hinclude, hcode⟩ := s.paths_findInclude w name directory
    rw [snd_find_search]
    exact ⟨hinclude, hcode, hs.findInclude name hplain⟩
  · exact h.elim

/-- Faithful finders of the same paths give the same answers, and stay faithful. -/
theorem IsFaithful.find {w : World} {includePaths codePaths : List Path} {f f' : Finder}
    (h : f.IsFaithful w includePaths codePaths) (h' : f'.IsFaithful w includePaths codePaths) (library : Bool)
    (name filename : Text) :
    (f'.find w library name (some (Path.directoryOf filename))).1 =
        (f.find w library name (some (Path.directoryOf filename))).1 ∧
      (f.find w library name (some (Path.directoryOf filename))).2.IsFaithful w includePaths codePaths := by
  have hplain : (SearchPaths.startDirectory w (some (Path.directoryOf filename))).IsPlain := Path.isPlain_ofString _
  refine ⟨?_, h.snd_find library name hplain⟩
  rcases f with s | table
  · rcases f' with s' | table'
    · obtain ⟨rfl, rfl, hs⟩ := h
      obtain ⟨hinclude, hcode, hs'⟩ := h'
      rw [fst_find_search, fst_find_search, hs.fst_findInclude name hplain, hs'.fst_findInclude name hplain, hcode,
        SearchPaths.search, SearchPaths.search, SearchPaths.candidates, SearchPaths.candidates, hinclude]
    · exact h'.elim
  · exact h.elim

private theorem resolvesNothing_search_iff {s : SearchPaths} {w : World} :
    (search s).ResolvesNothing w ↔ ∀ name directory path,
      (s.findInclude w name directory).1 ≠ .ok (some path) ∧
      SearchPaths.libraryAnswer w s.codePaths name (s.findInclude w name directory).1 ≠ .ok (some path) := by
  simp only [ResolvesNothing, fst_find_search]
  constructor
  · intro h name directory path
    exact ⟨h false name directory path, h true name directory path⟩
  · intro h library name directory path
    cases library with
    | false => exact (h name directory path).1
    | true => exact (h name directory path).2

theorem ResolvesNothing.findInclude {s : SearchPaths} {w : World} (h : (search s).ResolvesNothing w) (name : Text)
    (directory : Option Path) : (search (s.findInclude w name directory).2).ResolvesNothing w := by
  rcases s.snd_findInclude_cases w name directory with hsame | ⟨start, result, hresult, hadded⟩
  · rwa [hsame]
  · rw [resolvesNothing_search_iff] at h ⊢
    have hnone : result = none := by
      rcases result with _ | path
      · rfl
      · exact absurd hresult (h name directory path).1
    subst hnone
    rw [hadded]
    intro name' directory' path
    rcases SearchPaths.fst_findInclude_cons_none name start name' directory' with hanswer | ⟨rfl, hanswer⟩
    · rw [hanswer]
      exact h name' directory' path
    · -- the name was searched for before, and its library was not found then
      rw [hanswer, ← hresult]
      exact h name' directory path

/-- A finder that resolves nothing does so for ever. -/
theorem ResolvesNothing.find {f : Finder} {w : World} (h : f.ResolvesNothing w) (library : Bool) (name : Text)
    (directory : Option Path) : (f.find w library name directory).2.ResolvesNothing w := by
  cases f with
  | fixed table => exact h
  | search s =>
    rw [snd_find_search]
    exact h.findInclude name directory

end Finder

end ErlangMacros
