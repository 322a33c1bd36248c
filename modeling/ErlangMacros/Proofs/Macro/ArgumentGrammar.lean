import ErlangMacros.Proofs.Lexer.Meaning
import ErlangMacros.Proofs.Macro.Arguments

/-!
# The grammar of argument lists

`IsArgumentList args ts` says that the tokens `ts` are an argument list with the arguments `args`: a parenthesis, the
arguments with commas in between, and the closing parenthesis.  An argument has a token at least, its brackets are
closed by brackets of their kind, and no comma stands in it outside brackets (`IsArgument`).

The tokens that complete an argument list are those of the grammar (`completes_iff`).  One direction takes the tokens
of an argument by induction on how its brackets nest.  The other one is by induction on the steps, and says what is
still to come when a part has been read: every bracket that is open has to be closed (`Closes`), and behind the argument
the list goes on (`Behind`).

`arguments_are_read_exactly` is the main result: an argument list is read from the reader exactly if the next tokens
are one.
-/

namespace ErlangMacros

namespace ArgumentList

/-- Every bracket is closed by one of its kind.  With `commas`, commas may stand outside the brackets. -/
inductive Balanced : Bool → List Token → Prop where
  | nil {commas : Bool} : Balanced commas []
  | plain {commas : Bool} {t : Token} {ts : List Token} (plain : IsPlain t)
      (comma : t.isSymbol "," = true → commas = true) (rest : Balanced commas ts) : Balanced commas (t :: ts)
  | nest {commas : Bool} {b : Text × Text} {opener closer : Token} {inner ts : List Token} (mem : b ∈ brackets)
      (opens : opener.isSymbol b.1 = true) (inside : Balanced true inner) (closes : closer.isSymbol b.2 = true)
      (rest : Balanced commas ts) : Balanced commas (opener :: (inner ++ closer :: ts))

/-- The tokens can be an argument. -/
def IsArgument (ts : List Token) : Prop :=
  ts ≠ [] ∧ Balanced false ts

/-- The rest of an argument list behind one of its arguments, with the arguments that it has. -/
inductive Behind : List (List Token) → List Token → Prop where
  | close {closer : Token} (closes : closer.isSymbol ")" = true) : Behind [] [closer]
  | comma {comma : Token} {arg : List Token} {args : List (List Token)} {ts : List Token}
      (separates : comma.isSymbol "," = true) (argument : IsArgument arg) (rest : Behind args ts) :
      Behind (arg :: args) (comma :: (arg ++ ts))

/-- The tokens are an argument list with these arguments. -/
inductive IsArgumentList : List (List Token) → List Token → Prop where
  | empty {opener closer : Token} (opens : opener.isSymbol "(" = true) (closes : closer.isSymbol ")" = true) :
      IsArgumentList [] [opener, closer]
  | filled {opener : Token} {arg : List Token} {args : List (List Token)} {ts : List Token}
      (opens : opener.isSymbol "(" = true) (argument : IsArgument arg) (rest : Behind args ts) :
      IsArgumentList (arg :: args) (opener :: (arg ++ ts))

variable {l l' : ArgumentList} {t opener : Token} {ts rest : List Token} {args : List (List Token)}

/-! ### Argument lists are completed -/

/-- The tokens of an argument, or of a part of it, become part of the argument that is being read. -/
theorem Balanced.completes {commas : Bool} (h : Balanced commas ts) (hl : commas = true → l.closers ≠ [])
    (hrest : Completes { l with current := ts.reverse ++ l.current } rest args) : l.Completes (ts ++ rest) args := by
  induction h generalizing l rest with
  | nil => exact hrest
  | @plain _ t ts hplain hcomma _ ih =>
    refine .more (step_plain hplain fun ht => hl (hcomma ht)) (ih hl ?_)
    simpa [add] using hrest
  | @nest _ b opener closer inner ts hb hopens _ hcloses _ ihinside ihrest =>
    rw [List.cons_append, List.append_assoc]
    refine .more (step_opener hb hopens) (ihinside (fun _ => List.cons_ne_nil _ _) ?_)
    -- behind the inner tokens the closing bracket is the one that is awaited
    refine .more (step_closer_of_awaited hb hcloses rfl) (ihrest hl ?_)
    simpa [add] using hrest

theorem Behind.completes (h : Behind args ts) (hl : l.closers = []) (hcurrent : l.current ≠ []) :
    l.Completes ts (l.completed.reverse ++ args) := by
  induction h generalizing l with
  | close hcloses =>
    rw [List.append_nil]
    exact .last (step_complete_iff.2 ⟨hcloses, hl, finish_eq_complete_iff.2 (.inr ⟨hcurrent, rfl⟩)⟩)
  | @comma comma arg args ts hseparates hargument _ ih =>
    have hstep : l.step comma = .more { l with args := l.completed, current := [] } := by
      rw [step_comma hseparates hl, if_neg (by simpa using hcurrent)]
    refine .more hstep (hargument.2.completes (by simp) ?_)
    have hcompletes := ih (l := { args := l.completed, current := arg.reverse, closers := l.closers }) hl
      (by simpa using hargument.1)
    simpa [completed] using hcompletes

/-! ### Tokens that complete an argument list -/

/-- The rest of an argument in which these brackets are still to be closed. -/
inductive Closes : List Text → List Token → Prop where
  | done {ts : List Token} (balanced : Balanced false ts) : Closes [] ts
  | close {text : Text} {texts : List Text} {closer : Token} {inner ts : List Token} (inside : Balanced true inner)
      (closes : closer.isSymbol text = true) (rest : Closes texts ts) : Closes (text :: texts) (inner ++ closer :: ts)

private theorem Closes.cons_plain {texts : List Text} (h : Closes texts ts) (ht : IsPlain t)
    (hcomma : t.isSymbol "," = true → texts ≠ []) : Closes texts (t :: ts) := by
  cases h with
  | done hbalanced => exact .done (.plain ht (fun h => absurd rfl (hcomma h)) hbalanced)
  | close hinside hcloses hrest => exact .close (.plain ht (fun _ => rfl) hinside) hcloses hrest

private theorem Closes.cons_opener {texts : List Text} {b : Text × Text} (h : Closes (b.2 :: texts) ts)
    (hb : b ∈ brackets) (ht : t.isSymbol b.1 = true) : Closes texts (t :: ts) := by
  cases h with
  | close hinside hcloses hrest =>
    cases hrest with
    | done hbalanced => exact .done (.nest hb ht hinside hcloses hbalanced)
    | close hinside' hcloses' hrest' =>
      -- the bracket is closed before the next one that is still open
      have hclose := Closes.close (.nest hb ht hinside hcloses hinside') hcloses' hrest'
      simpa using hclose

/-- A token that is taken completes an argument, or becomes part of one. -/
theorem closes_of_step_more (h : l.step t = .more l') :
    (t.isSymbol "," = true ∧ l.closers = [] ∧ l.current ≠ [] ∧ l' = { l with args := l.completed, current := [] }) ∨
      (l'.args = l.args ∧ l'.current = t :: l.current ∧ ∀ ts, Closes l'.closers ts → Closes l.closers (t :: ts)) := by
  rcases step_more h with hcomma | ⟨b, hb, ht, rfl⟩ | ⟨text, texts, ht, hl, rfl⟩ | ⟨ht, hcomma, rfl⟩
  · exact .inl hcomma
  · exact .inr ⟨rfl, rfl, fun ts hts => hts.cons_opener hb ht⟩
  · exact .inr ⟨rfl, rfl, fun ts hts => hl ▸ .close .nil ht hts⟩
  · exact .inr ⟨rfl, rfl, fun ts hts => hts.cons_plain ht hcomma⟩

/-- An argument list of which a part has been read is empty, or the argument that is being read is completed and the
list goes on behind it. -/
theorem Completes.closes (h : l.Completes ts args) :
    (l.closers = [] ∧ l.current = [] ∧ l.args = [] ∧ args = [] ∧ ∃ closer, closer.isSymbol ")" = true ∧ ts = [closer]) ∨
      ∃ tail rest later, Closes l.closers tail ∧ l.current.reverse ++ tail ≠ [] ∧ Behind later rest ∧
        ts = tail ++ rest ∧ args = l.args.reverse ++ (l.current.reverse ++ tail) :: later := by
  induction h with
  | @last l t args hstep =>
    obtain ⟨ht, hl, hfinish⟩ := step_complete_iff.1 hstep
    rcases finish_eq_complete_iff.1 hfinish with ⟨hcurrent, hargs, rfl⟩ | ⟨hcurrent, rfl⟩
    · exact .inl ⟨hl, hcurrent, hargs, rfl, t, ht, rfl⟩
    · exact .inr ⟨[], [t], [], hl ▸ .done .nil, by simpa using hcurrent, .close ht, rfl, by simp [completed]⟩
  | @more l l' t ts args hstep _ ih =>
    rcases closes_of_step_more hstep with ⟨ht, hl, hcurrent, rfl⟩ | ⟨hargs, hcurrent, hcloses⟩
    · -- nothing is missing in the argument before the comma, and the list is not empty
      rcases ih with ⟨-, -, hnone, -⟩ | ⟨tail, rest, later, htail, hne, hbehind, rfl, rfl⟩
      · exact absurd hnone (List.cons_ne_nil _ _)
      · have hargument : IsArgument tail := by
          refine ⟨by simpa using hne, ?_⟩
          rw [hl] at htail
          cases htail with
          | done hbalanced => exact hbalanced
        exact .inr ⟨[], t :: (tail ++ rest), tail :: later, hl ▸ .done .nil, by simpa using hcurrent,
          .comma ht hargument hbehind, rfl, by simp [completed]⟩
    · rcases ih with ⟨-, hnone, -⟩ | ⟨tail, rest, later, htail, hne, hbehind, rfl, rfl⟩
      · simp [hcurrent] at hnone
      · exact .inr ⟨t :: tail, rest, later, hcloses tail htail, by simp, hbehind, rfl, by simp [hargs, hcurrent]⟩

/-- The tokens that complete an argument list are those of the grammar. -/
theorem completes_iff (ho : opener.isSymbol "(" = true) :
    Completes {} ts args ↔ IsArgumentList args (opener :: ts) := by
  constructor
  · intro h
    rcases h.closes with ⟨-, -, -, rfl, closer, hcloser, rfl⟩ | ⟨arg, rest, later, harg, hne, hbehind, rfl, rfl⟩
    · exact .empty ho hcloser
    · cases harg with
      | done hbalanced => exact .filled ho ⟨hne, hbalanced⟩ hbehind
  · intro h
    cases h with
    | empty _ hcloses =>
      exact .last (step_complete_iff.2 ⟨hcloses, rfl, rfl⟩)
    | @filled _ arg later rest _ hargument hbehind =>
      refine hargument.2.completes (by simp) ?_
      have hcompletes := hbehind.completes (l := { current := arg.reverse }) rfl (by simpa using hargument.1)
      simpa [completed] using hcompletes

theorem Behind.texts (h : Behind args ts) (arg : List Token) :
    (arg ++ ts).map Token.text = [("," : Text)].intercalate ((arg :: args).map (·.map Token.text)) ++ [(")" : Text)] := by
  induction h generalizing arg with
  | close hcloses => simp [(Token.isSymbol_iff.1 hcloses).2]
  | @comma comma arg' args ts hseparates _ _ ih =>
    rw [List.map_append, List.map_cons, ih arg', (Token.isSymbol_iff.1 hseparates).2]
    simp [List.intercalate_cons_cons]

/-- An argument list is spelled as its arguments with commas in between, in parentheses. -/
theorem IsArgumentList.texts (h : IsArgumentList args ts) :
    ts.map Token.text = ("(" : Text) :: ([("," : Text)].intercalate (args.map (·.map Token.text)) ++ [(")" : Text)]) := by
  cases h with
  | empty hopens hcloses => simp [(Token.isSymbol_iff.1 hopens).2, (Token.isSymbol_iff.1 hcloses).2]
  | filled hopens _ hbehind => rw [List.map_cons, hbehind.texts, (Token.isSymbol_iff.1 hopens).2]

end ArgumentList

/-! ### Reading argument lists -/

/-- The tokens of a text can end so.  A list of tokens ends like the empty text. -/
def Ending.IsOfText (e : Ending) : Prop :=
  ∃ text filename, e = (Lexing.ofText text filename).ending

private theorem Ending.isOfText_finished : Ending.finished.IsOfText :=
  ⟨"", none, ((Lexer.ofText "" none).tokenize_blank (List.forall_mem_nil _)).2.symm⟩

theorem Ending.IsOfText.text_eq {t : Token} (h : (Ending.repeating t).IsOfText) : t.text = "" := by
  obtain ⟨text, filename, h⟩ := h
  have hbehind : (Lexer.ofText text filename).StandsBehind [] := ⟨List.forall_mem_nil _, rfl, rfl⟩
  exact (Lexer.layout_of_repeating hbehind h.symm).1

namespace Reader

open ArgumentList
open Token (symbol operator atom)

variable {question : Token} {l : ArgumentList} {r r' : Reader} {cs : List Consumed} {args : List (List Token)}

/-- Tokens that complete an argument list do not come from a source that gives an empty token for ever. -/
theorem Takes.repeats_eq_false (h : Takes r cs r') (hends : r.inclusion.Ends Ending.IsOfText)
    (hcompletes : l.Completes (cs.map Consumed.token) args) : r.repeats = false := by
  rw [← Bool.not_eq_true]
  intro hrepeats
  obtain ⟨t, ht, hclose⟩ := hcompletes.getLast?
  obtain ⟨c, hc, rfl⟩ := List.mem_map.1 (List.mem_of_mem_getLast? ht)
  have hempty := (h.ending_of_repeats hends Ending.isOfText_finished hrepeats c hc).text_eq
  rw [(Token.isSymbol_iff.1 hclose).2] at hempty
  simp at hempty

/-- If the next tokens complete an argument list, it is read with them. -/
theorem moreArguments_of_completes (question : Token) (h : Takes r cs r') (hends : r.inclusion.Ends Ending.IsOfText)
    (hcompletes : l.Completes (cs.map Consumed.token) args) :
    moreArguments question l r = (.ok ⟨args, cs⟩, r') := by
  induction h generalizing l with
  | nil r => cases hcompletes
  | @cons r r₁ r₂ t cs hread htakes ih =>
    have hrepeats := (Takes.cons hread htakes).repeats_eq_false hends hcompletes
    rw [moreArguments_eq, hrepeats, hread]
    rw [List.map_cons] at hcompletes
    generalize hts : cs.map Consumed.token = ts at hcompletes
    cases hcompletes with
    | last hstep =>
      obtain rfl : cs = [] := List.map_eq_nil_iff.1 hts
      cases htakes
      simp only [consumed] at hstep
      simp [hstep]
    | more hstep hrest =>
      subst hts
      have hrest' := ih (ends_of_read hread hends Ending.isOfText_finished) hrest
      simp only [consumed] at hstep
      simp [hstep, hrest', Except.map, Arguments.after]

/-- What becomes of an argument list that is not read: it is malformed, or the source fails before it is complete. -/
theorem failure_of_moreArguments {f : Failure} (hi : r.inclusion.IsFinite)
    (h : moreArguments question l r = (.error f, r')) :
    (∃ e position, f = argumentsFailure e position) ∨
      ∃ e cs r₁, f = .ofLex e ∧ Takes r cs r₁ ∧ r₁.read = (.failed e, r') := by
  fun_induction moreArguments question l r generalizing f r' with
  | case1 l r hr => simp [not_repeats hi] at hr
  | case2 l r hr e r₁ hread =>
    cases h
    exact .inr ⟨e, [], r, rfl, .nil r, hread⟩
  | case3 l r hr r₁ hread =>
    cases h
    exact .inl ⟨_, _, rfl⟩
  | case4 l r hr t r₁ hread e hstep =>
    cases h
    exact .inl ⟨_, _, rfl⟩
  | case5 l r hr t r₁ hread args hstep => simp at h
  | case6 l r hr t r₁ hread l' hstep hsize rest r₂ hrest ih =>
    obtain ⟨ha, rfl⟩ := Prod.mk.inj h
    cases rest with
    | ok a => simp [Except.map] at ha
    | error f' =>
      obtain rfl : f' = f := by simpa [Except.map] using ha
      rcases ih (ends_of_read hread hi rfl) hrest with hmalformed | ⟨e, cs, r₃, hf, htakes, hfailed⟩
      · exact .inl hmalformed
      · exact .inr ⟨e, _, r₃, hf, .cons hread htakes, hfailed⟩

private theorem failure_of_arguments {opener : Token} {r₁ : Reader} {f : Failure} (hi : r.inclusion.IsFinite)
    (hread : r.read = (.token opener, r₁)) (h : r.arguments question = (.error f, r')) :
    (∃ e position, f = argumentsFailure e position) ∨
      ∃ e cs r₁, f = .ofLex e ∧ Takes r cs r₁ ∧ r₁.read = (.failed e, r') := by
  rcases hrest : moreArguments question {} r₁ with ⟨f' | a, r₂⟩
  · obtain ⟨rfl, rfl⟩ : f' = f ∧ r₂ = r' := by simpa [arguments, hread, hrest, Except.map] using h
    rcases failure_of_moreArguments (ends_of_read hread hi rfl) hrest with hmalformed | ⟨e, cs, r₃, hf, htakes, hfailed⟩
    · exact .inl hmalformed
    · exact .inr ⟨e, _, r₃, hf, .cons hread htakes, hfailed⟩
  · simp [arguments, hread, hrest, Except.map] at h

/-- An argument list is read exactly if the next tokens are one. -/
theorem arguments_eq_ok_iff (question : Token) {opener : Token} {r₁ : Reader}
    (hends : r.inclusion.Ends Ending.IsOfText) (hread : r.read = (.token opener, r₁))
    (hopener : opener.isSymbol "(" = true) (a : Arguments) (r' : Reader) :
    r.arguments question = (.ok a, r') ↔
      Takes r a.consumed r' ∧ IsArgumentList a.args (a.consumed.map Consumed.token) := by
  obtain ⟨args, consumed⟩ := a
  constructor
  · intro h
    obtain ⟨htakes, c, cs, rfl, hcompletes⟩ := completes_arguments h
    refine ⟨htakes, ?_⟩
    cases htakes with
    | cons hread' _ =>
      obtain ⟨⟨⟩, rfl⟩ := Prod.mk.inj (hread.symm.trans hread')
      exact (completes_iff hopener).1 hcompletes
  · rintro ⟨htakes, hlist⟩
    cases htakes with
    | nil => cases hlist
    | @cons _ _ _ t cs hread' htakes =>
      obtain ⟨⟨⟩, rfl⟩ := Prod.mk.inj (hread.symm.trans hread')
      have hends₁ := ends_of_read hread hends Ending.isOfText_finished
      have hrest := moreArguments_of_completes question htakes hends₁ ((completes_iff hopener).2 hlist)
      simp [arguments, hread, hrest, Except.map, Arguments.after]

/-- From an opening parenthesis on, arguments are read exactly if the next tokens are an argument list.  There is no
more than one such list; it is what was read, each token at its depth and call site, and is spelled by the arguments
with commas in between.  If there is none and the tokens end, the arguments are malformed, unless a source fails. -/
theorem arguments_are_read_exactly (question : Token) {opener : Token} {r₁ : Reader}
    (hends : r.inclusion.Ends Ending.IsOfText) (hread : r.read = (.token opener, r₁))
    (hopener : opener.isSymbol "(" = true) :
    (∀ a r', r.arguments question = (.ok a, r') ↔
      Takes r a.consumed r' ∧ IsArgumentList a.args (a.consumed.map Consumed.token)) ∧
    (∀ args cs r' args' cs' r'', Takes r cs r' → IsArgumentList args (cs.map Consumed.token) →
      Takes r cs' r'' → IsArgumentList args' (cs'.map Consumed.token) → (args', cs', r'') = (args, cs, r')) ∧
    (∀ a r', r.arguments question = (.ok a, r') →
      (a.consumed.map Consumed.token).map Token.text =
        ("(" : Text) :: ([("," : Text)].intercalate (a.args.map (·.map Token.text)) ++ [(")" : Text)])) ∧
    (r.inclusion.IsFinite → (¬ ∃ args cs r', Takes r cs r' ∧ IsArgumentList args (cs.map Consumed.token)) →
      (∃ e position, (r.arguments question).1 = .error (argumentsFailure e position)) ∨
        ∃ e cs r', (r.arguments question).1 = .error (.ofLex e) ∧ Takes r cs r' ∧ r'.read.1 = .failed e) := by
  have hiff := arguments_eq_ok_iff question hends hread hopener
  refine ⟨hiff, ?_, ?_, ?_⟩
  · intro args cs r' args' cs' r'' htakes hlist htakes' hlist'
    have h := (hiff ⟨args, cs⟩ r').2 ⟨htakes, hlist⟩
    have h' := (hiff ⟨args', cs'⟩ r'').2 ⟨htakes', hlist'⟩
    cases h'.symm.trans h
    rfl
  · intro a r' h
    exact ((hiff a r').1 h).2.texts
  · intro hi hnone
    rcases h : r.arguments question with ⟨f | a, r'⟩
    · rcases failure_of_arguments hi hread h with ⟨e, position, rfl⟩ | ⟨e, cs, r₂, rfl, htakes, hfailed⟩
      · exact .inl ⟨e, position, rfl⟩
      · exact .inr ⟨e, cs, r₂, rfl, htakes, by rw [hfailed]⟩
    · exact absurd ⟨a.args, a.consumed, r', (hiff a r').1 h⟩ hnone

/-- Arguments that begin in an expansion and are closed in the source behind it. -/
theorem arguments_are_read_exactly_nested :
    let question := operator "?"
    let source := Source.ofTokens
      [symbol "[", atom "b", symbol ",", symbol "\x7b", symbol "\x7d", symbol "]", symbol ")", symbol ")"] none
    let r : Reader :=
      { frames := [⟨[symbol "(", atom "a", symbol ","], some "F", 1, none⟩]
        inclusion := { current := source, limit := .ofInt 200 } }
    r.inclusion.Ends Ending.IsOfText ∧ r.read.1 = .token (symbol "(") ∧
      ∃ a r', r.arguments question = (.ok a, r') ∧ Takes r a.consumed r' ∧
        IsArgumentList a.args (a.consumed.map Consumed.token) ∧
        a.args = [[atom "a"], [symbol "[", atom "b", symbol ",", symbol "\x7b", symbol "\x7d", symbol "]"]] ∧
        a.consumed.map Consumed.depth = [1, 1, 1, 0, 0, 0, 0, 0, 0, 0] := by
  intro question source r
  have hends : r.inclusion.Ends Ending.IsOfText := List.forall_mem_singleton.2 Ending.isOfText_finished
  have hresult : (r.arguments question).1.toOption.any (fun a =>
      a.args = [[atom "a"], [symbol "[", atom "b", symbol ",", symbol "\x7b", symbol "\x7d", symbol "]"]] &&
        a.consumed.map Consumed.depth = [1, 1, 1, 0, 0, 0, 0, 0, 0, 0]) = true := by
    decide +kernel
  rcases h : r.arguments question with ⟨f | a, r'⟩
  · rw [h] at hresult
    cases hresult
  · rw [h] at hresult
    obtain ⟨htakes, hlist⟩ := ((arguments_are_read_exactly question hends rfl rfl).1 a r').1 h
    refine ⟨hends, rfl, a, r', rfl, htakes, hlist, ?_⟩
    simpa [Except.toOption] using hresult

end Reader

end ErlangMacros
