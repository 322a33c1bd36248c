import Mathlib
import ErlangMacros.Proofs.Lexer.Layout
import ErlangMacros.Proofs.Preprocessor.Termination

/-!
# Inclusion and termination

The limit on nested files keeps files from including each other without end, as long as tokens stay in the source
they come from.  A call whose arguments are put back can break this: if they were read through the end of a file, they
are put back into the source around it, at a level where the limit does not count the file any more.  In no other way
does a source grow that has tokens left (`Reader.Advance.putBack_of_grows`), and a run ends exactly if sources grow
finitely often (`run_ends_iff_growth_ends`).  They can grow for ever with a single file that includes itself
(`run_endless`).
-/

namespace ErlangMacros

private theorem FileTree.node?_of_walk {t : FileTree} {here place : List Text} {names : List Text} {n : Node}
    (h : t.walk here names = .ok (place, n)) : t.node? place = some n := by
  induction names generalizing here with
  | nil =>
    unfold walk at h
    split at h
    · next hnode =>
      cases h
      exact hnode
    · cases h
  | cons name rest ih =>
    unfold walk at h
    split at h
    · cases h
    · cases h
    · split at h
      · cases h
      · split at h
        · exact ih h
        · split at h
          · exact ih h
          · split at h
            · cases h
            · exact ih h

theorem fromUTF8?_toUTF8 (s : String) : String.fromUTF8? s.toUTF8 = some s := by
  have hvalid : s.toUTF8.IsValidUTF8 := s.isValidUTF8
  rw [String.fromUTF8?, dif_pos hvalid]
  rfl

/-- What is located stands in the file tree. -/
theorem World.mem_entries_of_locate {w : World} {path : Text} {place : List Text} {content : ByteArray}
    (h : w.locate path = .ok (place, .file content)) : (place, .file content) ∈ w.files.entries := by
  have hnode : w.files.node? place = some (.file content) := by
    unfold locate at h
    split at h
    · cases h
    · split at h
      · cases h
      · exact FileTree.node?_of_walk h
  unfold FileTree.node? at hnode
  split at hnode
  · cases hnode
  · obtain ⟨l₁, l₂, hentries, -⟩ := List.lookup_eq_some_iff.1 hnode
    simp [hentries]

/-- What can be read is the text of a file. -/
theorem World.mem_entries_of_readText {w : World} {path text : Text} (h : w.readText path = .ok text) :
    ∃ place content s, (place, .file content) ∈ w.files.entries ∧ String.fromUTF8? content = some s ∧
      text = Text.ofList ((normalizeNewlines s.toList).map .char) := by
  unfold readText at h
  split at h
  · cases h
  split at h
  · cases h
  split at h
  · cases h
  · next place node hlocate =>
    split at h
    · cases h
    split at h
    · cases h
    · next content =>
      split at h
      · next s hs =>
        cases h
        exact ⟨place, content, s, mem_entries_of_locate hlocate, hs, rfl⟩
      · cases h

theorem World.readText_of_locate {w : World} {path : Text} {text : String} {place : List Text}
    (hencodable : isEncodable path = true) (hnull : hasNull path = false)
    (hlocate : w.locate path = .ok (place, .file text.toUTF8)) (hdenied : w.files.isDenied place = false) :
    w.readText path = .ok (Text.ofList ((normalizeNewlines text.toList).map .char)) := by
  unfold readText
  rw [if_neg (by simp [hencodable]), if_neg (by simp [hnull]), hlocate]
  dsimp only
  rw [if_neg (by simp [hdenied]), fromUTF8?_toUTF8]

namespace Reader

variable {w : World} {finder : Finder} {limit : DepthLimit} {r r' : Reader}

/-- The file that a directive includes is deeper than all sources that have tokens left. -/
theorem Collects.not_grows {r₁ : Reader} (h : Collects r r₁) (hevaluates : Evaluates w finder r₁ r')
    (hr : r.IsNested) (hi : r.inclusion.IsFinite) : ¬ r.inclusion.Grows r'.inclusion := by
  rintro ⟨level, hlevel, hlt⟩
  have hfirst := (Takes.nil h.first).cons h.read
  have hf := hfirst.isFinite hi
  have hsuffix : r₁.inclusion.levels <:+ r.inclusion.levels := by
    have hrest := h.takes.levels_suffix (hfirst.places hr).peek (ends_peek hf rfl)
    rw [levels_peek hf] at hrest
    exact hrest.trans (hfirst.levels_suffix hr hi)
  obtain ⟨count, hlevels, -⟩ := hevaluates.levels_eq
  have hle := level_le_of_read h.read h.fromSource hr hi hlevel
  rw [← h.size_eq] at hle
  -- the tokens of the file are at a level where nothing was left
  have hnew : (List.replicate count (r₁.inclusion.size + 1)).count level = 0 := by
    rw [List.count_eq_zero]
    intro hmem
    have := List.eq_of_mem_replicate hmem
    omega
  rw [hlevels, List.count_append, hnew, Nat.zero_add] at hlt
  exact Nat.not_lt.2 (hsuffix.sublist.count_le level) hlt

/-- A step makes a source grow only by putting back the arguments of a call that were read through the end of a
file. -/
theorem Advance.putBack_of_grows (h : Advance w finder limit r r') (hr : r.IsNested) (hi : r.inclusion.IsFinite)
    (hg : r.inclusion.Grows r'.inclusion) :
    ∃ question name r₁ r₂ r₃ cs f, r.read = (.token question, r₁) ∧ r₁.read = (.token name, r₂) ∧
      Takes r₂.peek.2 cs r₃ ∧ r₃.inclusion.size < r₂.inclusion.size ∧ r' = (r₃.unread cs).push f := by
  cases h with
  | token hread =>
    have htakes := (Takes.nil r').cons hread
    exact absurd hg (Inclusion.not_grows_of_suffix (htakes.levels_suffix hr hi))
  | @looked _ r₁ hread =>
    have htakes := (Takes.nil r₁).cons hread
    refine absurd hg (Inclusion.not_grows_of_suffix ?_)
    rw [levels_peek (htakes.isFinite hi)]
    exact htakes.levels_suffix hr hi
  | directive hcollects hevaluates => exact absurd hg (hcollects.not_grows hevaluates hr hi)
  | @expanded question name r₁ r₂ r₃ f hread hname happlies =>
    have htakes := ((Takes.nil r₂).cons hname).cons hread
    have hf := htakes.isFinite hi
    have hn := (htakes.places hr).peek
    -- if the levels are those after the name, or fewer, no source has grown
    have hsame : ¬ r₃.inclusion.levels <:+ r₂.peek.2.inclusion.levels := by
      intro hsuffix
      rw [levels_peek hf] at hsuffix
      exact Inclusion.not_grows_of_suffix (hsuffix.trans (htakes.levels_suffix hr hi)) hg
    cases happlies with
    | bare => exact absurd (by rw [levels_peek hf]) hsame
    | looked => exact absurd List.suffix_rfl hsame
    | applied harguments => exact absurd (harguments.levels_suffix hn (ends_peek hf rfl)) hsame
    | @putBack r₃ cs harguments =>
      refine ⟨question, name, r₁, r₂, r₃, cs, f, hread, hname, harguments, ?_, rfl⟩
      by_contra hsize
      rw [Nat.not_lt, ← r₂.size_inclusion_peek] at hsize
      rw [harguments.levels_unread_of_size_le hn (ends_peek hf rfl) hsize] at hsame
      exact hsame List.suffix_rfl

end Reader

namespace Preprocessor

/-- If all files are finite, a run over finitely many tokens ends exactly if sources grow in finitely many of its
steps. -/
theorem run_ends_iff_growth_ends {w : World} {tokens : List Token} {options : Options} {finder : Finder}
    {p : Preprocessor} {es : List Event} (hstart : start { tokens } options finder = (.ok p, es))
    (hw : w.LexesFinitely) :
    (∃ bound, ∃ r : Run, r.ending.IsDefinite ∧ ∀ fuel ≥ bound, p.run w fuel = r) ↔
      ∃ n, ∀ m ≥ n, ∀ q, stateAfter w m p = some q → ¬ q.GrowsNext w := by
  have hs := isSound_start hstart
  have hf := readsFinitely_start hstart (.inr hw)
  constructor
  · rintro ⟨bound, r, hr, hrun⟩
    rw [← hrun bound (Nat.le_refl _)] at hr
    obtain ⟨n, hn⟩ : ∃ n, stateAfter w n p = none := by
      simpa [IsEndless] using not_isEndless_of_isDefinite hr hs.done_eq
    refine ⟨n, fun m hm q hq => ?_⟩
    rw [stateAfter_eq_none_of_le hn hm] at hq
    cases hq
  · rintro ⟨n, hn⟩
    rcases hq : stateAfter w n p with _ | q
    · exact ⟨n, exists_run_eq hs hf hq⟩
    · -- no source grows from `q` on
      have hqf : q.ReadsFinitely w := stateAfter_induction hf hq fun q hq hcontinues => hq.step hcontinues
      obtain ⟨m, hm⟩ := exists_stateAfter_eq_none (isSound_stateAfter hs hq) hqf fun m q' hq' =>
        .inr (hn (n + m) (Nat.le_add_right n m) q' (stateAfter_trans hq hq'))
      refine ⟨n + m, exists_run_eq hs hf ?_⟩
      rw [stateAfter_add, hq, Option.bind_some, hm]

/-- A step that takes a directive. -/
theorem stateAfter_directive {w : World} {p q : Preprocessor} {hyphen : Token} {tokens : List Token} {d : Directive}
    {r₁ r₂ : Reader} {es : List Event} (hread : p.reader.read = (.token hyphen, r₁))
    (hstart : (p.formStart && r₁.fromSource && hyphen.isSymbol "-") = true)
    (hcollect : collect r₁ hyphen = (.ok (some tokens), r₂)) (hactive : p.conditions.active = true)
    (hparse : Directive.parse tokens = .ok d)
    (hevaluate : evaluate w { p with reader := r₂, formStart := true, directives := d :: p.directives } d =
      .changed q es) :
    stateAfter w 1 p = some q := by
  have hstep : (step w p).outcome = .proceed ∧ (step w p).state = q := by
    simp only [step, hread, take, hstart, if_true, hcollect, directive, hactive, Bool.true_or, hparse, hevaluate]
    exact ⟨rfl, rfl⟩
  rw [stateAfter, hstep.1, hstep.2]
  rfl

theorem evaluate_includeFile {w : World} {p : Preprocessor} {path : Token} {d : Directive} {name text : Text}
    {file : Path} {i : Inclusion} {found : Finder} (haction : d.action = .includeFile path)
    (hname : path.value = .ok name)
    (hfind : p.finder.find w false name (p.reader.inclusion.current.filename.map Path.directoryOf) =
      (.ok (some file), found))
    (htext : w.readText file.toString = .ok text)
    (hpush : p.reader.inclusion.push (.ofText text (some file.toString) (some d.position)) = .ok i) :
    ∃ es, evaluate w p d = .changed { p with reader := { p.reader with inclusion := i }, finder := found } es := by
  simp only [evaluate, haction, evalInclude, hname, hfind, enter, htext, hpush]
  exact ⟨_, rfl⟩

/-! ### A run that never ends

The file `a` holds `?F(. -include("a").` and the macro `F` has a variant without parameters and one with two.  The
arguments of the call reach up to the parenthesis after the place where the file is included, and are put back there.
So the file is included again, from the input and not from itself.
-/

namespace PutBackLoop

open Token (loose)

def content : String := "?F(. -include(\"a\")."

def text : Text := content

def path : Path := ⟨.root, ["a"]⟩

def world : World :=
  { files := ⟨[(path.parts, .file content.toUTF8)], []⟩, workingDirectory := ⟨.root, []⟩ }

def finder : Finder := .fixed [("a", some path)]

/-- A token of the file. -/
def fileToken (filename : Option Text) (kind : Kind) (text : Text) (offset : Nat) (spaced : Bool := false) :
    Token :=
  .placed kind text offset spaced filename

def fileTokens (filename : Option Text) : List Token :=
  [fileToken filename .operator "?" 0, fileToken filename .var "F" 1, fileToken filename .punctuator "(" 2,
    fileToken filename .punctuator "." 3, fileToken filename .operator "-" 5 true,
    fileToken filename .atom "include" 6, fileToken filename .punctuator "(" 13,
    fileToken filename .string "\"a\"" 14, fileToken filename .punctuator ")" 17,
    fileToken filename .punctuator "." 18]

/-- The lexer after `n` characters of the file. -/
def lexerAt (filename : Option Text) (n : Nat) : Lexer :=
  { filename, rest := text.toList.drop n, mark := { offset := n, column := n + 1 } }

private theorem tokenize_lexerAt {filename : Option Text} {t : Token} {n m : Nat} {ts : List Token}
    (hrest : (lexerAt filename m).tokenize = { tokens := ts, reach := 19 })
    (hnext : (lexerAt filename n).next = (.token t, lexerAt filename m)) (hlt : n < m) :
    (lexerAt filename n).tokenize = { tokens := t :: ts, reach := 19 } := by
  have hmoved : (lexerAt filename n).mark.offset < (lexerAt filename m).mark.offset := hlt
  rw [Lexer.tokenize_token hnext, if_pos hmoved, hrest]
  rfl

/-- The tokens of the file, whatever name it is read under. -/
theorem lexing_text (filename : Option Text) :
    Lexing.ofText text filename = { tokens := fileTokens filename, reach := 19 } := by
  have hend : (lexerAt filename 19).next = (.finished, lexerAt filename 19) := rfl
  have h : (lexerAt filename 19).tokenize = { tokens := [], reach := 19 } := Lexer.tokenize_finished hend
  have h : (lexerAt filename 18).tokenize = _ := tokenize_lexerAt h rfl (by decide)
  have h : (lexerAt filename 17).tokenize = _ := tokenize_lexerAt h rfl (by decide)
  have h : (lexerAt filename 14).tokenize = _ := tokenize_lexerAt h (by cbv) (by decide)
  have h : (lexerAt filename 13).tokenize = _ := tokenize_lexerAt h rfl (by decide)
  have h : (lexerAt filename 6).tokenize = _ := tokenize_lexerAt h rfl (by decide)
  have h : (lexerAt filename 4).tokenize = _ := tokenize_lexerAt h rfl (by decide)
  have h : (lexerAt filename 3).tokenize = _ := tokenize_lexerAt h rfl (by decide)
  have h : (lexerAt filename 2).tokenize = _ := tokenize_lexerAt h rfl (by decide)
  have h : (lexerAt filename 1).tokenize = _ := tokenize_lexerAt h rfl (by decide)
  have h : (lexerAt filename 0).tokenize = _ := tokenize_lexerAt h rfl (by decide)
  exact h

private theorem lexesFinitely_world : world.LexesFinitely := by
  intro name read hread
  obtain ⟨place, bytes, s, hmem, hs, rfl⟩ := World.mem_entries_of_readText hread
  obtain ⟨-, rfl⟩ : place = path.parts ∧ bytes = content.toUTF8 := by simpa [world] using hmem
  rw [fromUTF8?_toUTF8] at hs
  cases hs
  have hplain : Text.ofList ((normalizeNewlines content.toList).map .char) = text := rfl
  rw [hplain, lexing_text]
  rfl

theorem readText_world : world.readText path.toString = .ok text := by
  have hlocate : world.locate path.toString = .ok (path.parts, .file content.toUTF8) := rfl
  exact (World.readText_of_locate rfl rfl hlocate rfl).trans rfl

/-! The states of the run.  `directives` and `calls` grow; everything else comes again. -/

/-- The input `-define(F, x). -define(F(A, B), y). -include("a"). )`. -/
def input : List Token :=
  [loose .operator "-", loose .atom "define", loose .punctuator "(", loose .var "F",
    loose .punctuator ",", loose .atom "x", loose .punctuator ")", loose .punctuator ".",
    loose .operator "-", loose .atom "define", loose .punctuator "(", loose .var "F",
    loose .punctuator "(", loose .var "A", loose .punctuator ",", loose .var "B",
    loose .punctuator ")", loose .punctuator ",", loose .atom "y", loose .punctuator ")",
    loose .punctuator ".",
    loose .operator "-", loose .atom "include", loose .punctuator "(", loose .string "\"a\"",
    loose .punctuator ")", loose .punctuator ".", loose .punctuator ")"]

def macros : MacroTable :=
  ⟨[⟨"F", none, [loose .atom "x"], {}⟩, ⟨"F", some ["A", "B"], [loose .atom "y"], {}⟩]⟩

def limit : DepthLimit := .ofInt 3

def state (directives : List Directive) (calls : List MacroCall) (inclusion : Inclusion) : Preprocessor :=
  { filename := none, limit, finder, macros, reader := { inclusion }, moduleName := none, moduleFixed := false,
    directives, calls }

/-- The input alone is open, and tokens were put back before its last one. -/
def waiting (tokens : List Token) : Inclusion :=
  { current := { pending := tokens ++ [loose .punctuator ")"], stream := { tokens := [] }, reach := 1 }, limit }

/-- The directive that includes the file comes next. -/
def before (directives : List Directive) (calls : List MacroCall) : Preprocessor :=
  state directives calls (waiting ((fileTokens (some "/a")).drop 4))

/-- The file has been entered from a place in the input. -/
def inside (directives : List Directive) (calls : List MacroCall) (place : Position) (outer : Source) : Preprocessor :=
  state directives calls
    { current := { filename := some "/a", includedFrom := some place,
                   stream := { tokens := fileTokens (some "/a"), reach := 19 } }
      outer := [outer], limit }

/-- The call is expanded, and three tokens are emitted. -/
theorem stateAfter_inside (directives : List Directive) (calls : List MacroCall) (place : Position) :
    ∃ calls', stateAfter world 4 (inside directives calls place (waiting []).current) =
      some (before directives calls') := by
  refine ⟨⟨fileToken (some "/a") .operator "?" 0, fileToken (some "/a") .var "F" 1, none⟩ :: calls, ?_⟩
  cbv

/-- The file is included, from tokens that stood in the file. -/
theorem stateAfter_before (directives : List Directive) (calls : List MacroCall) :
    ∃ directives' place, stateAfter world 1 (before directives calls) =
      some (inside directives' calls place (waiting []).current) := by
  let tokens := (fileTokens (some "/a")).drop 4
  let hyphen := fileToken (some "/a") .operator "-" 5 true
  let d : Directive := ⟨tokens, .includeFile (fileToken (some "/a") .string "\"a\"" 14)⟩
  let atHyphen : Reader := { inclusion := waiting (tokens.drop 1) }
  let atEnd : Reader := { inclusion := waiting [] }
  have hread : (before directives calls).reader.read = (.token hyphen, atHyphen) := rfl
  have hcollect : collect atHyphen hyphen = (.ok (some tokens), atEnd) := by cbv
  have hparse : Directive.parse tokens = .ok d := by cbv
  have hname : (fileToken (some "/a") .string "\"a\"" 14).value = .ok "a" := by cbv
  obtain ⟨es, hevaluate⟩ := evaluate_includeFile (p := state (d :: directives) calls (waiting [])) (d := d) rfl hname
    rfl readText_world rfl
  refine ⟨d :: directives, d.position, (stateAfter_directive hread rfl hcollect rfl hparse hevaluate).trans ?_⟩
  rw [Source.ofText, lexing_text]
  rfl

/-- The rest of the input after a number of its tokens. -/
def inputAfter (n : Nat) : Source :=
  { stream := { tokens := input.drop n }, reach := 1 }

/-- The directive that defines the macro without parameters. -/
def first : Directive :=
  ⟨input.take 8, .define (loose .var "F") none [loose .atom "x"]⟩

/-- The directive that defines the macro with two parameters. -/
def second : Directive :=
  ⟨(input.drop 8).take 13,
    .define (loose .var "F") (some [loose .var "A", loose .var "B"]) [loose .atom "y"]⟩

/-- The directive that includes the file. -/
def third : Directive :=
  ⟨(input.drop 21).take 6, .includeFile (loose .string "\"a\"")⟩

/-- The first macro is defined. -/
def halfDefined : Preprocessor :=
  { state [first] [] { current := inputAfter 8, limit } with
    macros := ⟨[⟨"F", none, [loose .atom "x"], {}⟩]⟩ }

private theorem stateAfter_first :
    stateAfter world 1 (initial { tokens := input } { limit } finder) = some halfDefined := by
  let atEnd : Reader := { inclusion := { current := inputAfter 8, limit } }
  have hcollect : collect { inclusion := { current := inputAfter 1, limit } } (loose .operator "-") =
      (.ok (some first.tokens), atEnd) := by cbv
  have hparse : Directive.parse first.tokens = .ok first := by cbv
  exact stateAfter_directive rfl rfl hcollect rfl hparse rfl

private theorem stateAfter_second :
    stateAfter world 1 halfDefined = some (state [second, first] [] { current := inputAfter 21, limit }) := by
  let atEnd : Reader := { inclusion := { current := inputAfter 21, limit } }
  have hcollect : collect { inclusion := { current := inputAfter 9, limit } } (loose .operator "-") =
      (.ok (some second.tokens), atEnd) := by cbv
  have hparse : Directive.parse second.tokens = .ok second := by cbv
  exact stateAfter_directive rfl rfl hcollect rfl hparse rfl

/-- The file is included for the first time. -/
theorem stateAfter_third :
    stateAfter world 1 (state [second, first] [] { current := inputAfter 21, limit }) =
      some (inside [third, second, first] [] {} (inputAfter 27)) := by
  let atHyphen : Reader := { inclusion := { current := inputAfter 22, limit } }
  let atEnd : Reader := { inclusion := { current := inputAfter 27, limit } }
  have hread : (state [second, first] [] { current := inputAfter 21, limit }).reader.read =
      (.token (loose .operator "-"), atHyphen) := rfl
  have hcollect : collect atHyphen (loose .operator "-") = (.ok (some third.tokens), atEnd) := by cbv
  have hparse : Directive.parse third.tokens = .ok third := by cbv
  have hname : (loose .string "\"a\"").value = .ok "a" := by cbv
  obtain ⟨es, hevaluate⟩ :=
    evaluate_includeFile (p := state [third, second, first] [] { current := inputAfter 27, limit }) (d := third) rfl
      hname rfl readText_world rfl
  refine (stateAfter_directive hread rfl hcollect rfl hparse hevaluate).trans ?_
  rw [Source.ofText, lexing_text]
  rfl

/-- The call at the beginning of the file is expanded, and three tokens are emitted. -/
theorem stateAfter_call :
    stateAfter world 4 (inside [third, second, first] [] {} (inputAfter 27)) =
      some (before [third, second, first]
        [⟨fileToken (some "/a") .operator "?" 0, fileToken (some "/a") .var "F" 1, none⟩]) := by cbv

private theorem stateAfter_initial :
    ∃ directives calls, stateAfter world 7 (initial { tokens := input } { limit } finder) =
      some (before directives calls) :=
  ⟨_, _, stateAfter_trans (stateAfter_trans stateAfter_first stateAfter_second)
    (stateAfter_trans stateAfter_third stateAfter_call)⟩

private theorem isEndless_initial : (initial { tokens := input } { limit } finder).IsEndless world := by
  -- the lists of directives and calls grow from round to round, so the states are only of a kind
  let P (q : Preprocessor) : Prop :=
    q = initial { tokens := input } { limit } finder ∨ ∃ directives calls, q = before directives calls
  refine isEndless_of_loop (P := P) (.inl rfl) ?_
  rintro q (rfl | ⟨directives, calls, rfl⟩)
  · obtain ⟨directives, calls, h⟩ := stateAfter_initial
    exact ⟨6, _, h, .inr ⟨directives, calls, rfl⟩⟩
  · obtain ⟨directives', place, hbefore⟩ := stateAfter_before directives calls
    obtain ⟨calls', hinside⟩ := stateAfter_inside directives' calls place
    have hround := stateAfter_trans hbefore hinside
    exact ⟨4, _, hround, .inr ⟨directives', calls', rfl⟩⟩

end PutBackLoop

/-- All files are finite and the limit is positive, but the run goes on for ever. -/
theorem run_endless :
    PutBackLoop.world.LexesFinitely ∧ 1 ≤ PutBackLoop.limit.value ∧
      ∃ p, start { tokens := PutBackLoop.input } { limit := PutBackLoop.limit } PutBackLoop.finder = (.ok p, []) ∧
        ∀ fuel, (p.run PutBackLoop.world fuel).ending = .failed (.fault .outOfFuel) :=
  ⟨PutBackLoop.lexesFinitely_world, by decide, _, rfl,
    fun fuel => ending_run_of_isEndless PutBackLoop.isEndless_initial rfl fuel⟩

/-- In this run sources grow again and again. -/
theorem run_ends_iff_growth_ends_endless :
    let p := initial { tokens := PutBackLoop.input } { limit := PutBackLoop.limit } PutBackLoop.finder
    start { tokens := PutBackLoop.input } { limit := PutBackLoop.limit } PutBackLoop.finder = (.ok p, []) ∧
      PutBackLoop.world.LexesFinitely ∧
      ∀ n, ∃ m ≥ n, ∃ q, stateAfter PutBackLoop.world m p = some q ∧ q.GrowsNext PutBackLoop.world := by
  intro p
  have hstart : start { tokens := PutBackLoop.input } { limit := PutBackLoop.limit } PutBackLoop.finder = (.ok p, []) :=
    rfl
  refine ⟨hstart, PutBackLoop.lexesFinitely_world, ?_⟩
  by_contra hgrowth
  obtain ⟨bound, r, hr, hrun⟩ :=
    (run_ends_iff_growth_ends hstart PutBackLoop.lexesFinitely_world).2 (by simpa using hgrowth)
  rw [← hrun bound (Nat.le_refl _)] at hr
  exact not_isEndless_of_isDefinite hr rfl PutBackLoop.isEndless_initial

end Preprocessor

end ErlangMacros
