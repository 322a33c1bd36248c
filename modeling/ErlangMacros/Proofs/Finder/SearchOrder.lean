import Mathlib.Data.List.Forall2
import ErlangMacros.Proofs.Finder.Memory
import ErlangMacros.Proofs.Path.Pattern

/-!
# The order of search

A search goes through a list of probes and ends at the first one that finds a file or is at fault (`Ends`).  For an
include file, the probes are the directory that the search starts from and the include paths in order.  For a library
file they are, in each code path, the directory of the application and then those of its versions in order.  Whatever
a finder was asked before, it answers as these probes do (`answers_follow_probes`): what it remembers is what it would
find.

A library name that is anchored cannot be searched for in the code paths, nor can one whose application holds two stars
side by side.  No name can be searched for that starts with a variable whose own name has no bytes.
-/

namespace ErlangMacros

namespace Path

/-- The text is a part of a path for itself. -/
def IsPart (part : Text) : Prop :=
  part ≠ "" ∧ part ≠ "." ∧ .char '/' ∉ part.toList

/-- A part by itself is a relative path. -/
theorem ofString_part {part : Text} (h : IsPart part) : ofString part = ⟨.relative, [part]⟩ := by
  have hplain : (⟨.relative, [part]⟩ : Path).IsPlain := List.forall_mem_singleton.2 h
  have hread := ofString_toString hplain
  simpa [toString, Anchor.text, h.1] using hread

/-- What starts with a part is relative. -/
theorem anchor_ofString_part {part : Text} (h : IsPart part) (text : Text) :
    (ofString (part ++ text)).anchor = .relative := by
  obtain ⟨c, cs, hcs⟩ := List.exists_cons_of_ne_nil (mt Text.toList_eq_nil_iff.1 h.1)
  have hc : c ≠ '/' := by
    rintro rfl
    exact h.2.2 (hcs ▸ List.mem_cons_self)
  simp [ofString, anchorOf, hcs, hc]

private theorem componentsLE_append (cs as bs : List Text) :
    componentsLE (cs ++ as) (cs ++ bs) = componentsLE as bs := by
  induction cs with
  | nil => rfl
  | cons c cs ih => rw [List.cons_append, List.cons_append, componentsLE, if_pos rfl, ih]

/-- The entries of a directory are in the order of their names. -/
theorem le_child (p : Path) (a b : Text) : le (p.child a) (p.child b) = decide (a ≤ b) := by
  have hcomponents (name : Text) : (p.child name).components = p.components ++ [name] := by
    unfold components child
    split <;> rfl
  rw [le, hcomponents, hcomponents, componentsLE_append, componentsLE]
  split
  · next heq => simp [heq, componentsLE, Text.le_iff_lt_or_eq]
  · next hne => simp [Text.le_iff_lt_or_eq, hne]

private theorem child_join (p : Path) (name : Text) (rest : List Text) :
    (p.child name).join ⟨.relative, rest⟩ = p.join ⟨.relative, name :: rest⟩ := by
  simp [child, join]

end Path

/-- No part of a path vanishes when its variable is replaced. -/
theorem World.isPlain_substitute (w : World) (name : Text) : (w.substitute name).IsPlain := by
  have hname := Path.isPlain_ofString name
  unfold World.substitute
  dsimp only
  repeat' split
  · next rest hcomponents _ _ _ _ value _ =>
    have hrest : ∀ part ∈ rest, part ∈ (Path.ofString name).parts := by
      intro part hpart
      unfold Path.components at hcomponents
      split at hcomponents
      · rw [hcomponents]
        exact List.mem_cons_of_mem _ hpart
      · cases hcomponents
        exact hpart
    intro part hpart
    rcases List.mem_append.1 hpart with hpart | hpart
    · exact Path.isPlain_ofString value part hpart
    · exact hname part (hrest part hpart)
  · exact hname
  · exact hname
  · exact hname

/-- A step of a search. -/
inductive Probe where
  /-- A file is looked for at a path. -/
  | file (path : Path)
  /-- The entries of a directory are asked for. -/
  | entries (path : Path)

namespace Probe

/-- The search goes on behind the probe. -/
def Passes (w : World) : Probe → Prop
  | file path => w.isFile path = .ok false
  | entries path => ∃ found, w.find? path = .ok found

/-- The search fails at the probe. -/
def Fails (w : World) (f : Fault) : Probe → Prop
  | file path => w.isFile path = .error f
  | entries path => w.find? path = .error f

end Probe

namespace SearchPaths

variable {w : World} {probes probes' : List Probe} {answer : Except Fault (Option Path)}

/-- The first file that the probes find, or the first fault. -/
inductive Ends (w : World) : List Probe → Except Fault (Option Path) → Prop where
  | missing {probes : List Probe} (passes : ∀ p ∈ probes, p.Passes w) : Ends w probes (.ok none)
  | found {before after : List Probe} {path : Path} (passes : ∀ p ∈ before, p.Passes w)
      (isFile : w.isFile path = .ok true) : Ends w (before ++ .file path :: after) (.ok (some path))
  | fault {before after : List Probe} {p : Probe} {f : Fault} (passes : ∀ p ∈ before, p.Passes w)
      (fails : p.Fails w f) : Ends w (before ++ p :: after) (.error f)

theorem Ends.passes (h : Ends w probes (.ok none)) : ∀ p ∈ probes, p.Passes w := by
  cases h with
  | missing passes => exact passes

/-- A search that has found nothing goes on. -/
theorem Ends.append_left (h : Ends w probes' answer) (hprobes : ∀ p ∈ probes, p.Passes w) :
    Ends w (probes ++ probes') answer := by
  cases h with
  | missing passes => exact .missing (List.forall_mem_append.2 ⟨hprobes, passes⟩)
  | found passes isFile =>
    rw [← List.append_assoc]
    exact .found (List.forall_mem_append.2 ⟨hprobes, passes⟩) isFile
  | fault passes fails =>
    rw [← List.append_assoc]
    exact .fault (List.forall_mem_append.2 ⟨hprobes, passes⟩) fails

theorem Ends.cons {p : Probe} (h : Ends w probes answer) (hp : p.Passes w) : Ends w (p :: probes) answer :=
  h.append_left (List.forall_mem_singleton.2 hp)

private theorem ends_of_fails (p : Probe) {f : Fault} (h : p.Fails w f) (probes : List Probe) :
    Ends w (p :: probes) (.error f) :=
  @Ends.fault w [] probes p f (List.forall_mem_nil _) h

/-- A search that has ended does not go on. -/
theorem Ends.append_right (h : Ends w probes answer) (hanswer : answer ≠ .ok none) (probes' : List Probe) :
    Ends w (probes ++ probes') answer := by
  cases h with
  | missing passes => exact absurd rfl hanswer
  | found passes isFile =>
    rw [List.append_assoc, List.cons_append]
    exact .found passes isFile
  | fault passes fails =>
    rw [List.append_assoc, List.cons_append]
    exact .fault passes fails

private theorem ends_firstFile (w : World) (paths : List Path) : Ends w (paths.map .file) (firstFile w paths) := by
  induction paths with
  | nil => exact .missing (List.forall_mem_nil _)
  | cons path paths ih =>
    rw [firstFile, List.map_cons]
    rcases hfile : w.isFile path with f | b
    · exact ends_of_fails (.file path) hfile _
    · cases b with
      | false => exact ih.cons hfile
      | true => exact @Ends.found w [] _ path (List.forall_mem_nil _) hfile

/-- The versions of an application among the entries of a code path, in order. -/
def versions (w : World) (isVersion : Text → Bool) (root : Path) : List Text :=
  match w.find? root with
  | .ok (some (place, .directory)) => ((w.files.children place).filter isVersion).mergeSort (· ≤ ·)
  | _ => []

/-- Where a file of an application may be in a code path. -/
def applicationPaths (w : World) (isVersion : Text → Bool) (app : Text) (rest : List Text) (root : Path) :
    List Path :=
  (app :: versions w isVersion root).map fun name => root.join ⟨.relative, name :: rest⟩

/-- How a file of an application is looked for in a code path. -/
def applicationProbes (w : World) (isVersion : Text → Bool) (app : Text) (rest : List Text) (root : Path) :
    List Probe :=
  .entries root :: (applicationPaths w isVersion app rest root).map .file

/-- The versions of a part can be asked for unless it holds two stars side by side. -/
theorem versionPattern_part {app : Text} (h : Path.IsPart app) :
    versionPattern app =
      if Pattern.hasDoubleStar app.toList then .error .invalidPattern else .ok (app ++ "-*") := by
  have htext : (app ++ "-*").toList = app.toList ++ [.char '-', .char '*'] := by simp
  unfold versionPattern
  dsimp only
  rw [if_neg (not_not.2 (Path.anchor_ofString_part h _)), htext, Pattern.hasDoubleStar_versions]

private theorem applicationDirectories_fault {app : Text} (hpattern : versionPattern app = .ok (app ++ "-*"))
    {root : Path} {f : Fault} (hroot : w.find? root = .error f) : applicationDirectories w root app = .error f := by
  rw [applicationDirectories, hpattern, hroot]

private theorem applicationDirectories_eq {app : Text} (h : Path.IsPart app)
    (hpattern : versionPattern app = .ok (app ++ "-*")) {root : Path} {entries : Option (List Text × Node)}
    (hroot : w.find? root = .ok entries) :
    applicationDirectories w root app =
      .ok ((app :: versions w (matchesPattern (app ++ "-*")) root).map root.child) := by
  have happ : root.join (.ofString app) = root.child app := by
    rw [Path.ofString_part h]
    rfl
  rw [applicationDirectories, versions, hpattern, hroot, happ]
  rcases entries with _ | ⟨place, _ | content⟩
  · rfl
  · have hsorted : (((w.files.children place).filter (matchesPattern (app ++ "-*"))).mergeSort (· ≤ ·)).map root.child =
        (((w.files.children place).filter (matchesPattern (app ++ "-*"))).map root.child).mergeSort Path.le :=
      List.map_mergeSort fun a _ b _ => (Path.le_child root a b).symm
    rw [List.map_cons, hsorted]
  · rfl

/-- A file of an application is looked for in the code paths in order. -/
theorem ends_searchApplications {app : Text} (h : Path.IsPart app)
    (hpattern : versionPattern app = .ok (app ++ "-*")) (w : World) (rest : List Text) (roots : List Path) :
    ∃ found, Ends w (roots.flatMap (applicationProbes w (matchesPattern (app ++ "-*")) app rest)) found ∧
      searchApplications w app rest roots = found.map (Option.map w.workingDirectory.absolute) := by
  induction roots with
  | nil => exact ⟨.ok none, .missing (List.forall_mem_nil _), rfl⟩
  | cons root roots ih =>
    rw [List.flatMap_cons, searchApplications]
    rcases hroot : w.find? root with f | entries
    · rw [applicationDirectories_fault hpattern hroot]
      exact ⟨.error f, (ends_of_fails (.entries root) hroot _).append_right (by simp) _, rfl⟩
    · have hpaths : ((app :: versions w (matchesPattern (app ++ "-*")) root).map root.child).map
            (fun d => d.join ⟨.relative, rest⟩) =
          applicationPaths w (matchesPattern (app ++ "-*")) app rest root := by
        simp only [applicationPaths, List.map_map, Function.comp_def, Path.child_join]
      have hends : Ends w (applicationProbes w (matchesPattern (app ++ "-*")) app rest root)
          (firstFile w (applicationPaths w (matchesPattern (app ++ "-*")) app rest root)) :=
        (ends_firstFile w _).cons ⟨entries, hroot⟩
      rw [applicationDirectories_eq h hpattern hroot]
      dsimp only
      rw [hpaths]
      rcases hfirst : firstFile w (applicationPaths w (matchesPattern (app ++ "-*")) app rest root) with f | _ | path
      · rw [hfirst] at hends
        exact ⟨.error f, hends.append_right (by simp) _, rfl⟩
      · rw [hfirst] at hends
        obtain ⟨found, hfound, hsearch⟩ := ih
        exact ⟨found, hfound.append_left hends.passes, hsearch⟩
      · rw [hfirst] at hends
        exact ⟨.ok (some path), hends.append_right (by simp) _, rfl⟩

/-- A code path cannot be searched if the versions cannot be asked for. -/
theorem searchApplications_fault {app : Text} {f : Fault} (h : versionPattern app = .error f) (w : World)
    (rest : List Text) {roots : List Path} (hroots : roots ≠ []) : searchApplications w app rest roots = .error f := by
  obtain ⟨root, roots, rfl⟩ := List.exists_cons_of_ne_nil hroots
  rw [searchApplications, applicationDirectories, h]

/-- What is found for the path of a library file, if no include file is found. -/
inductive IsLibraryAnswer (w : World) (codePaths : List Path) (target : Path) : Except Fault (Option Path) → Prop where
  | short (length_lt : target.components.length < 2) : IsLibraryAnswer w codePaths target (.ok none)
  | nowhere (codePaths_eq : codePaths = []) : IsLibraryAnswer w codePaths target (.ok none)
  /-- The versions of an application with a plain name continue it with a hyphen. -/
  | plain {app : Text} {rest : List Text} {found : Except Fault (Option Path)}
      (target_eq : target = ⟨.relative, app :: rest⟩) (rest_ne : rest ≠ [])
      (plain : ∀ c ∈ app.toList, Pattern.isSpecial c = false)
      (ends : Ends w (codePaths.flatMap
        (applicationProbes w (fun entry => (app ++ "-").toList.isPrefixOf entry.toList) app rest)) found) :
      IsLibraryAnswer w codePaths target (found.map (Option.map w.workingDirectory.absolute))
  /-- The name of an application with special characters is a pattern for its versions. -/
  | special {app : Text} {rest : List Text} {found : Except Fault (Option Path)}
      (target_eq : target = ⟨.relative, app :: rest⟩) (rest_ne : rest ≠ [])
      (special : ∃ c ∈ app.toList, Pattern.isSpecial c = true) (stars : ¬ [.char '*', .char '*'] <:+: app.toList)
      (ends : Ends w (codePaths.flatMap (applicationProbes w (matchesPattern (app ++ "-*")) app rest)) found) :
      IsLibraryAnswer w codePaths target (found.map (Option.map w.workingDirectory.absolute))
  | stars {app : Text} {rest : List Text} (target_eq : target = ⟨.relative, app :: rest⟩) (rest_ne : rest ≠ [])
      (stars : [.char '*', .char '*'] <:+: app.toList) (codePaths_ne : codePaths ≠ []) :
      IsLibraryAnswer w codePaths target (.error .invalidPattern)
  | anchored (anchor_ne : target.anchor ≠ .relative) (parts_ne : target.parts ≠ []) (codePaths_ne : codePaths ≠ []) :
      IsLibraryAnswer w codePaths target (.error .absolutePattern)

/-- The applications of a relative path are searched as its first part tells. -/
theorem isLibraryAnswer_relative {app : Text} {rest : List Text} (happ : Path.IsPart app) (hrest : rest ≠ [])
    (w : World) (codePaths : List Path) :
    IsLibraryAnswer w codePaths ⟨.relative, app :: rest⟩ (searchApplications w app rest codePaths) := by
  have hpattern := versionPattern_part happ
  by_cases hstars : [.char '*', .char '*'] <:+: app.toList
  · rw [if_pos ((Pattern.hasDoubleStar_iff _).2 hstars)] at hpattern
    by_cases hroots : codePaths = []
    · rw [hroots]
      exact .nowhere rfl
    · rw [searchApplications_fault hpattern w rest hroots]
      exact .stars rfl hrest hstars hroots
  · rw [if_neg (mt (Pattern.hasDoubleStar_iff _).1 hstars)] at hpattern
    obtain ⟨found, hends, hsearch⟩ := ends_searchApplications happ hpattern w rest codePaths
    rw [hsearch]
    by_cases hplain : ∀ c ∈ app.toList, Pattern.isSpecial c = false
    · rw [funext (matchesPattern_versions hplain)] at hends
      exact .plain rfl hrest hplain hends
    · simp only [not_forall, Bool.not_eq_false, exists_prop] at hplain
      exact .special rfl hrest hplain hstars hends

private theorem isLibraryAnswer_libraryAnswer (w : World) (codePaths : List Path) {name : Text}
    (hname : World.isSubstitutable name = true) :
    IsLibraryAnswer w codePaths (w.substitute name) (libraryAnswer w codePaths name (.ok none)) := by
  have hplain := w.isPlain_substitute name
  unfold libraryAnswer
  simp only [hname, if_true]
  generalize w.substitute name = target at hplain
  rcases target with ⟨anchor, parts⟩
  by_cases hanchor : anchor = .relative
  · subst hanchor
    rcases parts with _ | ⟨app, _ | ⟨part, rest⟩⟩
    · exact .short (by decide)
    · exact .short (by simp [Path.components])
    · exact isLibraryAnswer_relative (hplain app List.mem_cons_self) (List.cons_ne_nil part rest) w codePaths
  · have hpattern : versionPattern anchor.text = .error .absolutePattern := by
      cases anchor with
      | relative => exact absurd rfl hanchor
      | root | doubleRoot => decide
    rw [Path.components, if_neg hanchor]
    rcases parts with _ | ⟨part, rest⟩
    · exact .short (by simp [Path.components, hanchor])
    · by_cases hroots : codePaths = []
      · rw [hroots]
        exact .nowhere rfl
      · dsimp only
        rw [searchApplications_fault hpattern w _ hroots]
        exact .anchored hanchor (List.cons_ne_nil part rest) hroots

end SearchPaths

/-- A question to a finder. -/
structure Lookup where
  library : Bool
  name : Text
  directory : Option Text := none

namespace Lookup

variable {w : World} {includePaths codePaths : List Path}

/-- The directory that a search starts from. -/
def start (q : Lookup) (w : World) : Path :=
  SearchPaths.startDirectory w (q.directory.map Path.ofString)

/-- How an include file is looked for. -/
def includeProbes (q : Lookup) (w : World) (includePaths : List Path) : List Probe :=
  (q.start w :: includePaths).map fun d => .file (w.workingDirectory.absolute (d.join (w.substitute q.name)))

/-- The path starts with a variable whose name holds a surrogate that stands for no byte. -/
def IsUnaskable (q : Lookup) : Prop :=
  ∃ name : List CodePoint, (Path.ofString q.name).components.head? = some (.ofList (.char '$' :: name)) ∧
    ∃ c ∈ name, FileTree.codeSize? c = none

/-- What is found for an include file. -/
inductive IsIncludeAnswer (w : World) (includePaths : List Path) (q : Lookup) : Except Fault (Option Path) → Prop where
  | unusable (unusable : q.name = "" ∨ .char '\x00' ∈ q.name.toList) : IsIncludeAnswer w includePaths q (.ok none)
  | unaskable (name_ne : q.name ≠ "") (null : .char '\x00' ∉ q.name.toList) (unaskable : q.IsUnaskable) :
      IsIncludeAnswer w includePaths q (.error .unencodable)
  | searched {answer : Except Fault (Option Path)} (name_ne : q.name ≠ "") (null : .char '\x00' ∉ q.name.toList)
      (askable : ¬ q.IsUnaskable)
      (ends : SearchPaths.Ends w (q.includeProbes w includePaths) answer) : IsIncludeAnswer w includePaths q answer

/-- What is found for a question. -/
inductive IsAnswer (w : World) (includePaths codePaths : List Path) (q : Lookup) :
    Except Fault (Option Path) → Prop where
  | includeFile {answer : Except Fault (Option Path)} (library_eq : q.library = false)
      (answers : q.IsIncludeAnswer w includePaths answer) : IsAnswer w includePaths codePaths q answer
  | included {answer : Except Fault (Option Path)} (library_eq : q.library = true)
      (answers : q.IsIncludeAnswer w includePaths answer) (answer_ne : answer ≠ .ok none) :
      IsAnswer w includePaths codePaths q answer
  | unaskable (library_eq : q.library = true) (missing : q.IsIncludeAnswer w includePaths (.ok none))
      (unaskable : q.IsUnaskable) : IsAnswer w includePaths codePaths q (.error .unencodable)
  | libraryFile {answer : Except Fault (Option Path)} (library_eq : q.library = true)
      (missing : q.IsIncludeAnswer w includePaths (.ok none)) (askable : ¬ q.IsUnaskable)
      (answers : SearchPaths.IsLibraryAnswer w codePaths (w.substitute q.name) answer) :
      IsAnswer w includePaths codePaths q answer

private theorem isUsablePath_iff (name : Text) : isUsablePath name = true ↔ name ≠ "" ∧ .char '\x00' ∉ name.toList := by
  simp [isUsablePath, World.hasNull]

private theorem isSubstitutable_iff (q : Lookup) : World.isSubstitutable q.name = true ↔ ¬ q.IsUnaskable := by
  unfold World.isSubstitutable IsUnaskable
  rcases (Path.ofString q.name).components.head? with _ | ⟨⟨cs⟩⟩
  · simp
  rw [Option.map_some]
  split
  · next name hname =>
    cases hname
    simp [World.isEncodable, Option.isSome_iff_ne_none]
  · next hno =>
    simp only [true_iff, not_exists, not_and]
    rintro name hname
    cases hname
    exact absurd rfl (hno name)

/-- A faithful search answers as its probes do. -/
theorem isIncludeAnswer_of_isFaithful {s : SearchPaths} (h : s.IsFaithful w) (q : Lookup)
    (hplain : (q.start w).IsPlain) :
    q.IsIncludeAnswer w s.includePaths (s.findInclude w q.name (q.directory.map Path.ofString)).1 := by
  rw [h.fst_findInclude q.name hplain]
  by_cases husable : isUsablePath q.name = true
  · rw [if_pos husable]
    obtain ⟨hne, hnull⟩ := (isUsablePath_iff q.name).1 husable
    rw [SearchPaths.search]
    by_cases hname : World.isSubstitutable q.name = true
    swap
    · rw [if_neg hname]
      exact .unaskable hne hnull (not_not.1 (mt (isSubstitutable_iff q).2 hname))
    rw [if_pos hname]
    have hends := SearchPaths.ends_firstFile w (s.candidates w q.name (q.start w))
    rw [SearchPaths.candidates, List.map_map] at hends
    exact .searched hne hnull ((isSubstitutable_iff q).1 hname) hends
  · rw [if_neg husable]
    refine .unusable ?_
    have hnot := mt (isUsablePath_iff q.name).2 husable
    tauto

end Lookup

namespace Finder

variable {w : World} {includePaths codePaths : List Path} {f : Finder}

/-- The answers to questions that are put one after the other. -/
def answers (w : World) : Finder → List Lookup → List (Except Fault (Option Path))
  | _, [] => []
  | f, q :: qs =>
    let asked := f.find w q.library q.name (q.directory.map Path.ofString)
    asked.1 :: answers w asked.2 qs

private theorem IsFaithful.isAnswer (h : f.IsFaithful w includePaths codePaths) (q : Lookup)
    (hplain : (q.start w).IsPlain) :
    q.IsAnswer w includePaths codePaths (f.find w q.library q.name (q.directory.map Path.ofString)).1 := by
  rcases f with s | table
  · obtain ⟨rfl, rfl, hs⟩ := h
    have hinclude := Lookup.isIncludeAnswer_of_isFaithful hs q hplain
    rw [fst_find_search]
    rcases hlibrary : q.library with _ | _
    · exact .includeFile hlibrary hinclude
    · rw [if_pos rfl]
      rcases hfound : (s.findInclude w q.name (q.directory.map Path.ofString)).1 with fault | _ | path
      · rw [hfound] at hinclude
        have hanswer : Except.error fault ≠ (.ok none : Except Fault (Option Path)) := by simp
        exact .included hlibrary hinclude hanswer
      · rw [hfound] at hinclude
        by_cases hname : World.isSubstitutable q.name = true
        · exact .libraryFile hlibrary hinclude ((Lookup.isSubstitutable_iff q).1 hname)
            (SearchPaths.isLibraryAnswer_libraryAnswer w s.codePaths hname)
        · rw [SearchPaths.libraryAnswer, if_neg hname]
          exact .unaskable hlibrary hinclude (not_not.1 (mt (Lookup.isSubstitutable_iff q).2 hname))
      · rw [hfound] at hinclude
        have hanswer : Except.ok (some path) ≠ (.ok none : Except Fault (Option Path)) := by simp
        exact .included hlibrary hinclude hanswer
  · exact h.elim

theorem IsFaithful.answers (h : f.IsFaithful w includePaths codePaths) (hw : w.workingDirectory.IsPlain)
    (qs : List Lookup) : List.Forall₂ (Lookup.IsAnswer w includePaths codePaths) qs (f.answers w qs) := by
  induction qs generalizing f with
  | nil => exact .nil
  | cons q qs ih =>
    have hplain : (q.start w).IsPlain := by
      rcases hdirectory : q.directory with _ | directory
      · simpa [Lookup.start, SearchPaths.startDirectory, hdirectory] using hw
      · simpa [Lookup.start, SearchPaths.startDirectory, hdirectory] using Path.isPlain_ofString directory
    exact .cons (h.isAnswer q hplain) (ih (h.snd_find q.library q.name hplain))

/-- Whatever a finder was asked before, it answers as its probes do. -/
theorem answers_follow_probes (files : FileTree) (environment : List (Text × Text)) (directory : Text)
    (includePaths codePaths : List Text) (qs : List Lookup) :
    let w : World := { files, workingDirectory := .ofString directory, environment }
    List.Forall₂ (Lookup.IsAnswer w (includePaths.map Path.ofString) (codePaths.map Path.ofString)) qs
      ((ofPaths includePaths codePaths).answers w qs) :=
  (isFaithful_ofPaths _ includePaths codePaths).answers (Path.isPlain_ofString directory) qs

/-- An anchored library name is at fault where there are code paths. -/
theorem anchored_library_is_at_fault :
    let files := ({} : FileTree).write ["w", "lib", "app", "f.hrl"] .empty
    (ofPaths [] ["lib"]).answers { files, workingDirectory := .ofString "/w" } [⟨true, "/w/nope/f.hrl", none⟩] =
      [.error .absolutePattern] := by
  rfl

end Finder

end ErlangMacros
