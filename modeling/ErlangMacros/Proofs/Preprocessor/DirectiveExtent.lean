import Mathlib
import ErlangMacros.Proofs.Inclusion.Content
import ErlangMacros.Proofs.Preprocessor.Diagnosis
import ErlangMacros.Proofs.Preprocessor.Directives
import ErlangMacros.Proofs.Preprocessor.Inclusion
import ErlangMacros.Proofs.Reader.Straying

/-!
# How far directives extend

A directive is collected from one source, from its hyphen up to a full stop (`Collecting.supplies_eq`).  If that source
holds what is left of one text, the tokens of the directive stand next to each other in the text.  Every step keeps that
every open source does (`Aligned`), unless tokens stray when the arguments of a call are put back (`PutsBackAstray`).
Then a directive may start in an included file and end in the text that includes it (`directive_of_two_texts`).
-/

namespace ErlangMacros

open Lexing

namespace Lexing

variable {l : Lexing} {ls : List Lexing} {t stop : Token} {ts : List Token}

/-- The text has a full stop left. -/
def HasStop (l : Lexing) : Prop :=
  ∃ ts stop, Begins [l] (ts ++ [stop]) ∧ stop.isSymbol "." = true

/-- Tokens up to the first full stop come all from the first text exactly if it has a full stop left. -/
theorem begins_singleton_iff_hasStop (h : Begins (l :: ls) (ts ++ [stop])) (hts : ∀ t ∈ ts, t.isSymbol "." = false)
    (hstop : stop.isSymbol "." = true) : Begins [l] (ts ++ [stop]) ↔ l.HasStop := by
  refine ⟨fun hbegins => ⟨ts, stop, hbegins, hstop⟩, ?_⟩
  rintro ⟨us, stop', hbegins, hstop'⟩
  by_cases hl : l.ending.repeats = true
  · obtain ⟨s, hs⟩ := h
    exact ⟨s, by rw [supply_cons_of_repeats hl [] ls, hs]⟩
  · rw [Bool.not_eq_true] at hl
    rw [begins_singleton_iff hl] at hbegins ⊢
    obtain ⟨s, hs⟩ := h
    rw [supply_cons_of_ends hl] at hs
    rcases prefix_or_prefix hs with hprefix | hprefix
    · -- if the text ends before the full stop, it holds none
      rcases List.prefix_concat_iff.1 hprefix with heq | hprefix
      · rw [heq]
      · have hmem : stop' ∈ ts := (hbegins.trans hprefix).subset (by simp)
        rw [hts stop' hmem] at hstop'
        cases hstop'
    · exact hprefix

/-- The first token comes from the first text that has one. -/
theorem exists_first {s : Stream' (Option Token)} (h : supply ls = Stream'.cons (some t) s) :
    ∃ before l after, ls = before ++ l :: after ∧ (∀ b ∈ before, b.tokens = [] ∧ b.ending.repeats = false) ∧
      Begins [l] [t] ∧ supply (l :: after) = supply ls := by
  induction ls with
  | nil =>
    rw [supply, Stream'.const_eq] at h
    cases (Stream'.cons_injective2 h).1
  | cons l ls ih =>
    by_cases hl : l.tokens = [] ∧ l.ending.repeats = false
    · rw [supply_cons_end hl.1 hl.2] at h
      obtain ⟨before, l', after, rfl, hbefore, hl', hsupply⟩ := ih h
      refine ⟨l :: before, l', after, rfl, List.forall_mem_cons.2 ⟨hl, hbefore⟩, hl', ?_⟩
      rw [supply_cons_end hl.1 hl.2, hsupply]
    · refine ⟨[], l, ls, rfl, by simp, ?_, rfl⟩
      rcases htokens : l.tokens with _ | ⟨u, us⟩
      · have hrepeats : l.ending.repeats = true := by simpa [htokens] using hl
        exact ⟨s, by rw [supply_cons_of_repeats hrepeats [] ls, h]; rfl⟩
      · rw [supply_cons_token htokens] at h
        cases (Stream'.cons_injective2 h).1
        exact ⟨_, (supply_cons_token htokens).trans rfl⟩

/-- A token that comes first is one of the text. -/
theorem gives_of_supply {s : Stream' (Option Token)} (h : supply [l] = Stream'.cons (some t) s) : l.Gives t := by
  rcases htokens : l.tokens with _ | ⟨u, us⟩
  · by_cases hl : l.ending.repeats = true
    · obtain ⟨u, hu⟩ := Ending.exists_eq_repeating hl
      rw [supply_cons_repeating htokens hu, Stream'.const_eq] at h
      cases (Stream'.cons_injective2 h).1
      exact .inr hu
    · rw [supply_cons_end htokens (by simpa using hl), supply, Stream'.const_eq] at h
      cases (Stream'.cons_injective2 h).1
  · rw [supply_cons_token htokens] at h
    cases (Stream'.cons_injective2 h).1
    exact .inl (by simp [htokens])

private theorem Gives.of_dropped {k : Nat} (h : (l.dropped k).Gives t) : l.Gives t :=
  h.imp_left List.mem_of_mem_drop

theorem Begins.gives (h : Begins [l] ts) (ht : t ∈ ts) : l.Gives t := by
  induction ts generalizing l with
  | nil => cases ht
  | cons u us ih =>
    obtain ⟨s, hs⟩ := h
    rcases List.mem_cons.1 ht with rfl | ht
    · exact gives_of_supply hs
    · obtain ⟨rests, hrests, hrest⟩ := exists_rests_tail hs
      cases hrests with
      | cons hdropped hnil =>
        cases hnil
        obtain ⟨k, rfl⟩ := hdropped
        exact (ih ⟨s, hrest⟩ ht).of_dropped

end Lexing

/-- All tokens of a text have the name of its file. -/
theorem Lexer.filename_of_gives {l : Lexer} {t : Token} (h : l.tokenize.Gives t) :
    t.position.filename = l.filename := by
  induction l using tokenize.induct with
  | case1 l l' _ hnext =>
    rw [tokenize_finished hnext] at h
    rcases h with h | h <;> cases h
  | case2 l e l' _ hnext =>
    rw [tokenize_failed hnext] at h
    rcases h with h | h <;> cases h
  | case3 l u l' _ hnext hlt _ ih =>
    have hreads := l.reads_next
    rw [hnext] at hreads
    rw [tokenize_token hnext, if_pos hlt] at h
    cases hreads with
    | token =>
      rcases h with h | h
      · rcases List.mem_cons.1 h with rfl | h
        · rfl
        · exact ih (.inl h)
      · exact ih (.inr h)
  | case4 l u l' _ hnext hlt =>
    have hreads := l.reads_next
    rw [hnext] at hreads
    rw [tokenize_token hnext, if_neg hlt] at h
    cases hreads with
    | token =>
      rcases h with h | h <;> cases h
      rfl

namespace Preprocessor

variable {w : World} {stream : Lexing} {options : Options} {finder : Finder} {p p₀ : Preprocessor} {es : List Event}
  {n : Nat} {t hyphen : Token} {r r' : Reader} {tokens : List Token} {d : Directive} {ls : List Lexing}

/-! ### The tokens of a directive -/

/-- A directive ends with the first full stop. -/
theorem exists_stop_of_collectRest {keyword : Text} {last : Token}
    (h : collectRest keyword last r = (.ok tokens, r')) :
    ∃ body stop, tokens = body ++ [stop] ∧ stop.isSymbol "." = true ∧ ∀ t ∈ body, t.isSymbol "." = false := by
  fun_induction collectRest keyword last r generalizing tokens with
  | case1 => simp at h
  | case2 => simp at h
  | case3 => simp at h
  | case4 last r hr t r₁ hread ht =>
    cases h
    exact ⟨[], t, rfl, ht, by simp⟩
  | case5 last r hr t r₁ hread ht hlt rest r₂ hrest ih =>
    obtain ⟨hmap, rfl⟩ := Prod.mk.inj h
    cases rest with
    | error f => cases hmap
    | ok ts =>
      cases hmap
      obtain ⟨body, stop, rfl, hstop, hbody⟩ := ih hrest
      exact ⟨t :: body, stop, rfl, hstop, List.forall_mem_cons.2 ⟨by simpa using ht, hbody⟩⟩

theorem Collecting.exists_stop (h : Collecting p hyphen r tokens r') :
    ∃ body stop, tokens = hyphen :: body ++ [stop] ∧ hyphen.isSymbol "-" = true ∧ stop.isSymbol "." = true ∧
      ∀ t ∈ hyphen :: body, t.isSymbol "." = false := by
  have hhyphen := (Bool.and_eq_true_iff.1 h.starts).2
  have hcollect := h.collect
  unfold Preprocessor.collect at hcollect
  rcases hpeek : r.peek with ⟨t | _ | e, r₁⟩ <;> rw [hpeek] at hcollect <;> dsimp only at hcollect
  · split at hcollect
    · split at hcollect
      · next hrest =>
        cases hcollect
        obtain ⟨body, stop, rfl, hstop, hbody⟩ := exists_stop_of_collectRest hrest
        have hno : hyphen.isSymbol "." = false := Token.isSymbol_eq_false hhyphen (by decide)
        exact ⟨body, stop, rfl, hhyphen, hstop, List.forall_mem_cons.2 ⟨hno, hbody⟩⟩
      · cases hcollect
    · cases hcollect
  · cases hcollect
  · cases hcollect

/-- All tokens of a directive come from one source. -/
theorem Collecting.supplies_eq (h : Collecting p hyphen r tokens r') (hnested : p.reader.IsNested) :
    ∃ s below, r'.supplies = s :: below ∧ (tokens.map some ++ₛ s) :: below <:+ p.reader.supplies := by
  obtain ⟨cs, htakes, hsize, rfl⟩ := takes_collect_some h.collect
  have hr := (hnested.of_read h.read).1
  have hstray : ¬ Reader.Strays r.peek.2 cs r' := by
    intro hstray
    have hlt := hstray.size_lt
    rw [r.size_inclusion_peek, hsize] at hlt
    exact Nat.lt_irrefl _ hlt
  obtain ⟨s, below, hr', hsuffix⟩ := htakes.supplies_eq hr.peek hstray
  refine ⟨s, below, hr', ?_⟩
  -- the source of the hyphen has not been left
  have hlength : (s :: below).length = r.supplies.length := by
    rw [← hr', Reader.length_supplies, hsize, Reader.length_supplies]
  rw [r.supplies_peek] at hsuffix
  have hsame := hsuffix.eq_of_length hlength
  rcases Reader.supplies_read h.read with ⟨-, f, hf, hdepth⟩ | ⟨-, s₁, below₁, hr₁, hsuffix₁⟩
  · have := hnested f hf
    have := h.depth_eq
    omega
  · rw [hr₁] at hsame
    obtain ⟨rfl, rfl⟩ := List.cons.inj hsame
    have hcs := (h.isOutside hnested).peek.places_takes htakes
    rwa [Reader.sourced_eq fun c hc => (hcs c hc).1] at hsuffix₁

/-- A directive that is executed was the next one. -/
theorem nextDirective?_of_executed (h : (step w p).state.directives = d :: p.directives) :
    p.nextDirective? = some d.tokens := by
  have hne : (step w p).state.directives ≠ p.directives := by
    rw [h]
    exact List.cons_ne_self _ _
  obtain ⟨tokens, htokens⟩ := Option.isSome_iff_exists.1 (nextDirective?_of_acts (.inr (.inr (.inl hne))))
  obtain ⟨hyphen, r, r', hcollecting⟩ := collecting_of_nextDirective? htokens
  rw [htokens]
  rw [hcollecting.step_eq] at h hne
  dsimp only [Step.after] at h hne
  unfold directive at h hne
  dsimp only at h hne
  split at h
  · next hactive =>
    rw [if_pos hactive] at hne
    split at h
    · next hparse =>
      rw [directives_evaluate] at h
      cases h
      obtain ⟨_, _, _, _, hmade⟩ := Directive.parse_yields hparse
      rw [hmade.tokens_eq]
    · next hparse =>
      rw [hparse] at hne
      exact absurd rfl hne
  · next hactive =>
    rw [if_neg hactive] at hne
    unfold skip at hne
    split at hne <;> exact absurd rfl hne

/-! ### Sources that hold what is left of one text -/

/-- Every open source supplies what is left of one of the texts. -/
def Aligned (ls : List Lexing) (r : Reader) : Prop :=
  ∀ s ∈ r.supplies, ∃ l ∈ ls, ∃ k, s = supply [l.dropped k]

private theorem Aligned.of_recedes (h : Aligned ls r) (hrecedes : r.Recedes r') : Aligned ls r' := by
  obtain ⟨ts, s, below, hr', hsuffix⟩ := hrecedes
  rw [Aligned, hr']
  refine List.forall_mem_cons.2 ⟨?_, fun s' hs' => h s' (hsuffix.subset (List.mem_cons_of_mem _ hs'))⟩
  obtain ⟨l, hl, k, hk⟩ := h _ (hsuffix.subset List.mem_cons_self)
  obtain ⟨rests, hrests, hs⟩ := exists_rests hk.symm
  cases hrests with
  | cons hrest hnil =>
    cases hnil
    obtain ⟨k', rfl⟩ := hrest
    exact ⟨l, hl, k + k', by rw [← hs, dropped_dropped]⟩

theorem Aligned.mono {ls' : List Lexing} (h : Aligned ls r) (hsubset : ls ⊆ ls') : Aligned ls' r := by
  intro s hs
  obtain ⟨l, hl, hk⟩ := h s hs
  exact ⟨l, hsubset hl, hk⟩

/-- The next step puts back the arguments of a call, and some of their tokens stray. -/
def PutsBackAstray (w : World) (p : Preprocessor) : Prop :=
  ∃ question name r₁ r₂ cs r₃ f, p.reader.read = (.token question, r₁) ∧ r₁.read = (.token name, r₂) ∧
    Reader.Takes r₂.peek.2 cs r₃ ∧ Reader.Strays r₂.peek.2 cs r₃ ∧ (step w p).state.reader = (r₃.unread cs).push f

/-- Tokens stray only if a file is left. -/
theorem PutsBackAstray.size_lt (h : PutsBackAstray w p) :
    (step w p).state.reader.inclusion.size < p.reader.inclusion.size := by
  obtain ⟨question, name, r₁, r₂, cs, r₃, f, hread, hname, -, hstrays, hreader⟩ := h
  have hsize : ((r₃.unread cs).push f).inclusion.size = r₃.inclusion.size := (r₃.levels_unread cs).2
  have hlt := hstrays.size_lt
  have hle := (((Reader.Takes.nil r₂).cons hname).cons hread).size_le
  rw [r₂.size_inclusion_peek] at hlt
  rw [hreader, hsize]
  omega

private theorem recedes_step (hnone : p.nextDirective? = none) (hnested : p.reader.IsNested)
    (hcontinues : (step w p).outcome.continues) (hastray : ¬ PutsBackAstray w p) :
    p.reader.Recedes (step w p).state.reader := by
  have hreads := readsOn_step hnone hcontinues
  generalize hreader : (step w p).state.reader = r' at hreads ⊢
  cases hreads with
  | token hread => exact Reader.recedes_of_read hread
  | looked hread => exact (Reader.recedes_of_read hread).trans (.of_eq (Reader.supplies_peek _))
  | @expanded question name r₁ r₂ r₃ f hread hname happlies =>
    have hnested₂ := ((hnested.of_read hread).1.of_read hname).1
    have hpeek : r₂.Recedes r₂.peek.2 := .of_eq r₂.supplies_peek
    have hcall : r₂.Recedes r₃ := by
      cases happlies with
      | bare => exact .of_eq rfl
      | looked => exact hpeek
      | applied htakes => exact hpeek.trans htakes.recedes
      | @putBack r₃ cs htakes =>
        refine hpeek.trans (htakes.recedes_unread hnested₂.peek fun hstrays => ?_)
        exact hastray ⟨question, name, r₁, r₂, cs, r₃, f, hread, hname, htakes, hstrays, hreader⟩
    exact ((Reader.recedes_of_read hread).trans (Reader.recedes_of_read hname)).trans hcall

/-- A step in which no tokens stray keeps what is left of the texts apart. -/
theorem Aligned.step {told : List Event} (h : Aligned (opened w stream told) p.reader) (hnested : p.reader.IsNested)
    (hcontinues : (step w p).outcome.continues) (hastray : ¬ PutsBackAstray w p) :
    Aligned (opened w stream (told ++ (step w p).events)) (step w p).state.reader := by
  rcases hdirective : p.nextDirective? with _ | tokens
  · rw [opened_append, filterMap_entered? (isIdle_step hdirective).quiet]
    exact h.of_recedes (recedes_step hdirective hnested hcontinues hastray)
  · obtain ⟨hyphen, r, r', hcollecting⟩ := collecting_of_nextDirective? hdirective
    obtain ⟨s, below, hr', hsuffix⟩ := hcollecting.supplies_eq hnested
    have haligned : Aligned (opened w stream told) r' := h.of_recedes ⟨tokens, s, below, hr', hsuffix⟩
    rw [hcollecting.step_eq]
    have hopens := (opens_directive (w := w) { p with reader := r' } tokens).after (entering_notMem_leaving p.reader r)
    rcases hopens.opened_eq stream told with ⟨hopened, hrest⟩ | ⟨l, source, hopened, hl, hsources⟩
    · have hsame := congrArg (List.map fun l => supply [l]) hrest
      rw [List.map_map, List.map_map] at hsame
      rw [hopened, Aligned, Reader.supplies]
      exact hsame ▸ haligned
    · rw [hopened, Aligned, Reader.supplies, hsources]
      refine List.forall_mem_cons.2 ⟨⟨l, List.mem_cons_self, 0, congrArg (fun l => supply [l]) hl⟩, ?_⟩
      exact haligned.mono (List.subset_cons_self _ _)

/-- As long as no tokens stray, every open source supplies what is left of one text. -/
theorem aligned_of_start (hstart : start stream options finder = (.ok p₀, es)) (hreach : stateAfter w n p₀ = some p)
    (hastray : ∀ k < n, ∀ q, stateAfter w k p₀ = some q → ¬ PutsBackAstray w q) :
    Aligned (opened w stream (historyAfter w n {} p₀).told) p.reader := by
  induction n generalizing p with
  | zero =>
    cases hreach
    obtain ⟨macros, -, rfl⟩ := start_eq hstart
    exact List.forall_mem_singleton.2 ⟨stream, List.mem_singleton_self _, 0, rfl⟩
  | succ n ih =>
    rw [stateAfter_add] at hreach
    obtain ⟨q, hq, hstep⟩ := Option.bind_eq_some_iff.1 hreach
    have haligned := ih hq fun k hk => hastray k (Nat.lt_succ_of_lt hk)
    unfold stateAfter at hstep
    split at hstep
    · next hcontinues =>
      cases hstep
      rw [historyAfter_succ hq]
      have hnested := (isSound_stateAfter (isSound_start hstart) hq).isPlaced.isNested
      exact haligned.step hnested hcontinues (hastray n (Nat.lt_succ_self n) q hq)
    · cases hstep

/-- The tokens of a directive that is executed, from its hyphen to a full stop, come from one open source, together with
what was put back there.  They are the next tokens that the texts which were opened have left, and they all belong to the
text of the hyphen exactly if that has a full stop left.  If no tokens have strayed before, they stand next to each other
in one text. -/
theorem executed_directive_extent (hstart : start stream options finder = (.ok p₀, es))
    (hreach : stateAfter w n p₀ = some p) (hexecuted : (step w p).state.directives = d :: p.directives) :
    ∃ hyphen body stop, d.tokens = hyphen :: body ++ [stop] ∧ hyphen.isSymbol "-" = true ∧ stop.isSymbol "." = true ∧
      (∀ t ∈ body, t.isSymbol "." = false) ∧
      (∃ s ∈ p.reader.inclusion.sources, Begins [s.rest] d.tokens) ∧
      (∃ before rest after, AreRests (before ++ rest :: after) (opened w stream (historyAfter w n {} p₀).told) ∧
        p.reader.supply = supply (before ++ rest :: after) ∧ (∀ l ∈ before, l.tokens = [] ∧ l.ending.repeats = false) ∧
        Begins [rest] [hyphen] ∧ Begins (rest :: after) d.tokens ∧ (Begins [rest] d.tokens ↔ rest.HasStop)) ∧
      ((∀ k < n, ∀ q, stateAfter w k p₀ = some q → ¬ PutsBackAstray w q) →
        ∃ l ∈ opened w stream (historyAfter w n {} p₀).told, ∃ k, Begins [l.dropped k] d.tokens) := by
  have hnested := (isSound_stateAfter (isSound_start hstart) hreach).isPlaced.isNested
  obtain ⟨hyphen, r, r', hcollecting⟩ := collecting_of_nextDirective? (nextDirective?_of_executed hexecuted)
  obtain ⟨body, stop, htokens, hhyphen, hstop, hbody⟩ := hcollecting.exists_stop
  obtain ⟨s, below, -, hsuffix⟩ := hcollecting.supplies_eq hnested
  have hmem : d.tokens.map some ++ₛ s ∈ p.reader.supplies := hsuffix.subset List.mem_cons_self
  refine ⟨hyphen, body, stop, htokens, hhyphen, hstop, (List.forall_mem_cons.1 hbody).2, ?_, ?_, fun hastray => ?_⟩
  · obtain ⟨source, hsource, hs⟩ := List.mem_map.1 hmem
    exact ⟨source, hsource, s, hs⟩
  · obtain ⟨rests, hrests, hsupply⟩ := supplied_of_start hstart hreach
    have hbegins := hsupply.symm.trans (hcollecting.supply_eq hnested)
    have hfirst : supply rests = Stream'.cons (some hyphen) ((body ++ [stop]).map some ++ₛ r'.supply) := by
      rw [hbegins, htokens]
      rfl
    obtain ⟨before, rest, after, rfl, hbefore, hrest, hsame⟩ := exists_first hfirst
    rw [← hsame] at hbegins
    refine ⟨before, rest, after, hrests, hsupply, hbefore, hrest, ⟨_, hbegins⟩, ?_⟩
    rw [htokens] at hbegins ⊢
    exact begins_singleton_iff_hasStop ⟨_, hbegins⟩ hbody hstop
  · obtain ⟨l, hl, k, hk⟩ := aligned_of_start hstart hreach hastray _ hmem
    exact ⟨l, hl, k, s, hk.symm⟩

/-! ### A directive that starts in a file and ends behind it

The file `a` holds `-ifndef(Y). ?F(. -endif` and the macro `F` has a variant without parameters and one with two.  The
arguments of the call reach up to the parenthesis of the input, and are put back there.  So the last directive of the
file goes on with the full stop before that parenthesis.
-/

namespace SplitDirective

open PutBackLoop (path state)
open Token (loose)

def content : String := "-ifndef(Y). ?F(. -endif"

def text : Text := content

def world : World :=
  { files := ⟨[(path.parts, .file content.toUTF8)], []⟩, workingDirectory := ⟨.root, []⟩ }

/-- The input `-define(F, x). -define(F(A, B), y). -include("a"). . )`. -/
def input : List Token :=
  PutBackLoop.input.take 27 ++ [loose .punctuator ".", loose .punctuator ")"]

/-- A token of the file. -/
def token (kind : Kind) (text : Text) (offset : Nat) (spaced : Bool := false) : Token :=
  PutBackLoop.fileToken (some "/a") kind text offset spaced

def fileTokens : List Token :=
  [token .operator "-" 0, token .atom "ifndef" 1, token .punctuator "(" 7, token .var "Y" 8, token .punctuator ")" 9,
    token .punctuator "." 10, token .operator "?" 12 true, token .var "F" 13, token .punctuator "(" 14,
    token .punctuator "." 15, token .operator "-" 17 true, token .atom "endif" 18]

theorem lexing_text : Lexing.ofText text (some "/a") = { tokens := fileTokens, reach := 23 } := by
  decide +kernel

theorem readText_world : world.readText path.toString = .ok text := by
  have hlocate : world.locate path.toString = .ok (path.parts, .file content.toUTF8) := rfl
  exact (World.readText_of_locate rfl rfl hlocate rfl).trans rfl

/-- The rest of the input after a number of its tokens. -/
def inputAfter (n : Nat) : Source :=
  { stream := { tokens := input.drop n }, reach := 1 }

/-- The directives that define the macro, the last one first. -/
def definitions : List Directive :=
  [⟨(input.drop 8).take 13,
      .define (loose .var "F") (some [loose .var "A", loose .var "B"]) [loose .atom "y"]⟩,
    ⟨input.take 8, .define (loose .var "F") none [loose .atom "x"]⟩]

def includeDirective : Directive :=
  ⟨(input.drop 21).take 6, .includeFile (loose .string "\"a\"")⟩

/-- Nothing has been read. -/
def outset : Preprocessor :=
  initial { tokens := input } { limit := PutBackLoop.limit } PutBackLoop.finder

/-- The macros have been defined. -/
def defined : Preprocessor :=
  state definitions [] { current := inputAfter 21, limit := PutBackLoop.limit }

/-- The file has been entered. -/
def inside : Preprocessor :=
  state (includeDirective :: definitions) []
    { current := { filename := some "/a", includedFrom := some {}, stream := { tokens := fileTokens, reach := 23 } }
      outer := [inputAfter 27], limit := PutBackLoop.limit }

private theorem stateAfter_outset : stateAfter world 3 outset = some inside := by
  let atHyphen : Reader := { inclusion := { current := inputAfter 22, limit := PutBackLoop.limit } }
  let atEnd : Reader := { inclusion := { current := inputAfter 27, limit := PutBackLoop.limit } }
  have hdefined : stateAfter world 2 outset = some defined := by decide +kernel
  have hincluded : stateAfter world 1 defined = some inside := by
    have hread : defined.reader.read = (.token (loose .operator "-"), atHyphen) := rfl
    have hcollect : collect atHyphen (loose .operator "-") = (.ok (some includeDirective.tokens), atEnd) := by cbv
    have hparse : Directive.parse includeDirective.tokens = .ok includeDirective := by cbv
    have hname : (loose .string "\"a\"").value = .ok "a" := by cbv
    obtain ⟨es, hevaluate⟩ := evaluate_includeFile (d := includeDirective)
      (p := state (includeDirective :: definitions) [] atEnd.inclusion) rfl hname rfl readText_world rfl
    refine (stateAfter_directive hread rfl hcollect rfl hparse hevaluate).trans ?_
    rw [Source.ofText, show path.toString = "/a" from rfl, lexing_text]
    rfl
  exact stateAfter_trans hdefined hincluded

end SplitDirective

section

open SplitDirective (world input token fileTokens outset inside)

/-- The first directive of the file lies within it.  Up to there no tokens have strayed, since only the input was open. -/
theorem executed_directive_extent_included :
    let d : Directive := ⟨fileTokens.take 6, .ifndef (token .var "Y" 8)⟩
    start { tokens := input } { limit := PutBackLoop.limit } PutBackLoop.finder = (.ok outset, []) ∧
      stateAfter world 3 outset = some inside ∧ (step world inside).state.directives = d :: inside.directives ∧
      (∀ k < 3, ∀ q, stateAfter world k outset = some q → ¬ PutsBackAstray world q) ∧
      ∃ l ∈ opened world { tokens := input } (historyAfter world 3 {} outset).told, ∃ k, Begins [l.dropped k] d.tokens := by
  intro d
  have hstart : start { tokens := input } { limit := PutBackLoop.limit } PutBackLoop.finder = (.ok outset, []) := rfl
  have hreach : stateAfter world 3 outset = some inside := SplitDirective.stateAfter_outset
  have hexecuted : (step world inside).state.directives = d :: inside.directives := by decide +kernel
  have hastray : ∀ k < 3, ∀ q, stateAfter world k outset = some q → ¬ PutsBackAstray world q := by
    intro k hk q hq hastray
    have hsize : (stateAfter world k outset).all (fun q => decide (q.reader.inclusion.size = 1)) = true := by
      interval_cases k <;> decide +kernel
    rw [hq, Option.all_some, decide_eq_true_eq] at hsize
    have hlt := hastray.size_lt
    rw [hsize] at hlt
    exact Nat.not_lt_zero _ (Nat.lt_of_succ_lt_succ hlt)
  obtain ⟨-, -, -, -, -, -, -, -, -, hone⟩ := executed_directive_extent hstart hreach hexecuted
  exact ⟨hstart, hreach, hexecuted, hastray, hone hastray⟩

/-- The last directive of the file closes the conditional, but its tokens stand next to each other neither in the input
nor in any file. -/
theorem directive_of_two_texts :
    start { tokens := input } { limit := PutBackLoop.limit } PutBackLoop.finder = (.ok outset, []) ∧
      ∃ p d, stateAfter world 8 outset = some p ∧ (step world p).state.directives = d :: p.directives ∧
        p.conditions.frames.length = 1 ∧ (step world p).state.conditions.frames = [] ∧
        (∀ k, ¬ Begins [dropped { tokens := input } k] d.tokens) ∧
        ∀ path text k, world.readText path = .ok text →
          ¬ Begins [(Lexing.ofText text (some path)).dropped k] d.tokens := by
  let hyphen := token .operator "-" 17 true
  let stop := Token.symbol "."
  let d : Directive := ⟨[hyphen, token .atom "endif" 18, stop], .endif⟩
  have hsplit : (stateAfter world 5 inside).any (fun p =>
      (step world p).state.directives = d :: p.directives ∧ p.conditions.frames.length = 1 ∧
        (step world p).state.conditions.frames = []) = true := by decide +kernel
  rcases hreach : stateAfter world 5 inside with _ | p <;> rw [hreach] at hsplit
  · cases hsplit
  · obtain ⟨hexecuted, hopen, hclosed⟩ := of_decide_eq_true hsplit
    refine ⟨rfl, p, d, stateAfter_trans SplitDirective.stateAfter_outset hreach, hexecuted, hopen, hclosed, ?_, ?_⟩
    · -- the hyphen is no token of the input
      intro k hbegins
      rcases (hbegins.gives (t := hyphen) (by simp [d])).of_dropped with hmem | hrepeats
      · exact absurd hmem (by decide +kernel)
      · cases hrepeats
    · -- the full stop is in no file
      intro path text k _ hbegins
      have hname := Lexer.filename_of_gives (hbegins.gives (t := stop) (by simp [d])).of_dropped
      cases hname

end

end Preprocessor

end ErlangMacros
