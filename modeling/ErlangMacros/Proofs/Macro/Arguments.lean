import Mathlib.Data.List.Basic
import ErlangMacros.Macro.Call
import ErlangMacros.Proofs.Reader.Flat

/-!
# Argument lists in the flat list

Reading an argument list from the reader is taking it from the flat list of what waits to be read:
`ArgumentList.parse` takes the tokens one by one from a list, and `arguments_eq_parse` says that the reader does the
same, wherever the tokens come from.  The tokens that are reported as read are those that were read
(`takes_arguments`), so that putting them back restores the list.

`step_more` and `step_complete_iff` say what one more token can make of an argument list.  The tokens that complete a list
(`ArgumentList.Completes`) are those that are read for it (`completes_arguments`).
-/

namespace ErlangMacros

theorem Token.isSymbol_iff {t : Token} {text : Text} :
    t.isSymbol text = true ↔ t.kind.isSymbol = true ∧ t.text = text := by
  simp [Token.isSymbol]

namespace ArgumentList

/-- Take the rest of an argument list from a list of tokens: what becomes of it, and the tokens that are left. -/
def parseRest (question : Token) (l : ArgumentList) : List Consumed → Except Failure Reader.Arguments × List Consumed
  | [] => (.error (argumentsFailure .inputEnds question.position), [])
  | c :: rest =>
    match l.step c.token with
    | .malformed e => (.error (argumentsFailure e c.token.position), rest)
    | .complete args => (.ok ⟨args, [c]⟩, rest)
    | .more l' =>
      let (result, rest') := parseRest question l' rest
      (result.map (·.after c), rest')

/-- Take an argument list from a list of tokens, from its opening parenthesis on. -/
def parse (question : Token) : List Consumed → Except Failure Reader.Arguments × List Consumed
  | [] => (.error (argumentsFailure .inputEnds question.position), [])
  | c :: rest =>
    let (result, rest') := parseRest question {} rest
    (result.map (·.after c), rest')

/-! ### Tokens that complete an argument list -/

/-- The opening brackets, each with the closing one. -/
def brackets : List (Text × Text) :=
  [("(", ")"), ("[", "]"), ("\x7b", "\x7d"), ("<<", ">>")]

/-- The token is no bracket. -/
def IsPlain (t : Token) : Prop :=
  ∀ b ∈ brackets, t.isSymbol b.1 = false ∧ t.isSymbol b.2 = false

variable {l l' : ArgumentList} {t u : Token} {ts : List Token} {args : List (List Token)} {b : Text × Text}

theorem step_comma (ht : t.isSymbol "," = true) (hl : l.closers = []) :
    l.step t =
      if l.current.isEmpty then .malformed (.missingBefore ",")
      else .more { l with args := l.completed, current := [] } := by
  simp [step, ht, hl]

theorem step_opener (hb : b ∈ brackets) (ht : t.isSymbol b.1 = true) :
    l.step t = .more (add { l with closers := b.2 :: l.closers } t) := by
  have hopeners : ∀ b ∈ brackets, b.1 ≠ "," ∧ closerOf? b.1 = some b.2 := by decide
  obtain ⟨hsymbol, htext⟩ := Token.isSymbol_iff.1 ht
  simp [step, Token.isSymbol, hsymbol, htext, hopeners b hb]

private theorem step_closer (hb : b ∈ brackets) (ht : t.isSymbol b.2 = true) : l.step t = l.closeBracket t := by
  have hclosers : ∀ b ∈ brackets, b.2 ≠ "," ∧ closerOf? b.2 = none ∧ isCloser b.2 = true := by decide
  obtain ⟨hsymbol, htext⟩ := Token.isSymbol_iff.1 ht
  simp [step, Token.isSymbol, hsymbol, htext, hclosers b hb]

theorem step_closer_of_awaited {closers : List Text} (hb : b ∈ brackets) (ht : t.isSymbol b.2 = true)
    (hl : l.closers = b.2 :: closers) : l.step t = .more (add { l with closers } t) := by
  rw [step_closer hb ht, closeBracket, hl]
  exact if_pos (Token.isSymbol_iff.1 ht).2

theorem step_plain (ht : IsPlain t) (hl : t.isSymbol "," = true → l.closers ≠ []) : l.step t = .more (l.add t) := by
  cases hsymbol : t.kind.isSymbol with
  | false => simp [step, Token.isSymbol, hsymbol]
  | true =>
    have hnone : closerOf? t.text = none ∧ isCloser t.text = false := by
      simp_all [IsPlain, brackets, Token.isSymbol, closerOf?, isCloser]
    have hcomma : (t.isSymbol "," && l.closers.isEmpty) = false := by simpa using hl
    simp [step, hcomma, hsymbol, hnone]

/-- A token opens a bracket, closes one, or is no bracket. -/
theorem opener_or_closer_or_plain (t : Token) :
    (∃ b ∈ brackets, t.isSymbol b.1 = true) ∨ (∃ b ∈ brackets, t.isSymbol b.2 = true) ∨ IsPlain t := by
  by_cases hopener : ∃ b ∈ brackets, t.isSymbol b.1 = true
  · exact .inl hopener
  by_cases hcloser : ∃ b ∈ brackets, t.isSymbol b.2 = true
  · exact .inr (.inl hcloser)
  push Not at hopener hcloser
  exact .inr (.inr fun b hb => ⟨by simpa using hopener b hb, by simpa using hcloser b hb⟩)

/-- A token that is taken completes an argument, opens or closes a bracket, or is just part of an argument. -/
theorem step_more (h : l.step t = .more l') :
    (t.isSymbol "," = true ∧ l.closers = [] ∧ l.current ≠ [] ∧ l' = { l with args := l.completed, current := [] }) ∨
      (∃ b ∈ brackets, t.isSymbol b.1 = true ∧ l' = add { l with closers := b.2 :: l.closers } t) ∨
      (∃ closer closers, t.isSymbol closer = true ∧ l.closers = closer :: closers ∧ l' = add { l with closers } t) ∨
      (IsPlain t ∧ (t.isSymbol "," = true → l.closers ≠ []) ∧ l' = l.add t) := by
  rcases opener_or_closer_or_plain t with ⟨b, hb, ht⟩ | ⟨b, hb, ht⟩ | ht
  · rw [step_opener hb ht] at h
    cases h
    exact .inr (.inl ⟨b, hb, ht, rfl⟩)
  · rw [step_closer hb ht] at h
    unfold closeBracket finish at h
    split at h
    · split_ifs at h
    · next closer closers hl =>
      split_ifs at h with hcloser
      cases h
      exact .inr (.inr (.inl ⟨closer, closers, Token.isSymbol_iff.2 ⟨(Token.isSymbol_iff.1 ht).1, hcloser⟩, hl, rfl⟩))
  · by_cases hcomma : t.isSymbol "," = true ∧ l.closers = []
    · rw [step_comma hcomma.1 hcomma.2] at h
      split_ifs at h with hcurrent
      cases h
      exact .inl ⟨hcomma.1, hcomma.2, by simpa using hcurrent, rfl⟩
    · rw [step_plain ht (by simpa using hcomma)] at h
      cases h
      exact .inr (.inr (.inr ⟨ht, by simpa using hcomma, rfl⟩))

theorem finish_eq_complete_iff :
    l.finish = .complete args ↔
      l.current = [] ∧ l.args = [] ∧ args = [] ∨ l.current ≠ [] ∧ args = l.completed.reverse := by
  unfold finish
  grind

/-- The token that completes an argument list is its closing parenthesis. -/
theorem step_complete_iff :
    l.step t = .complete args ↔ t.isSymbol ")" = true ∧ l.closers = [] ∧ l.finish = .complete args := by
  constructor
  · intro h
    rcases opener_or_closer_or_plain t with ⟨b, hb, ht⟩ | ⟨b, hb, ht⟩ | ht
    · simp [step_opener hb ht] at h
    · rw [step_closer hb ht] at h
      unfold closeBracket at h
      split at h
      · next hl =>
        split_ifs at h with hclose
        exact ⟨Token.isSymbol_iff.2 ⟨(Token.isSymbol_iff.1 ht).1, hclose⟩, hl, h⟩
      · split_ifs at h
    · by_cases hcomma : t.isSymbol "," = true ∧ l.closers = []
      · rw [step_comma hcomma.1 hcomma.2] at h
        split_ifs at h
      · simp [step_plain ht (by simpa using hcomma)] at h
  · rintro ⟨ht, hl, h⟩
    rw [step_closer (b := ("(", ")")) (by simp [brackets]) ht, closeBracket, hl]
    simp [(Token.isSymbol_iff.1 ht).2, h]

/-- Tokens that complete an argument list of which a part has been read, the last of them and none before. -/
inductive Completes : ArgumentList → List Token → List (List Token) → Prop where
  | last {l : ArgumentList} {t : Token} {args : List (List Token)} (step : l.step t = .complete args) :
      Completes l [t] args
  | more {l l' : ArgumentList} {t : Token} {ts : List Token} {args : List (List Token)} (step : l.step t = .more l')
      (rest : Completes l' ts args) : Completes l (t :: ts) args

theorem Completes.getLast? (h : l.Completes ts args) : ∃ t ∈ ts.getLast?, t.isSymbol ")" = true := by
  induction h with
  | last hstep => exact ⟨_, rfl, (step_complete_iff.1 hstep).1⟩
  | more _ _ ih =>
    obtain ⟨t, ht, hclose⟩ := ih
    exact ⟨t, List.mem_getLast?_cons ht, hclose⟩

/-- The token is part of an argument. -/
def Holds (l : ArgumentList) (t : Token) : Prop :=
  t ∈ l.current ∨ ∃ arg ∈ l.args, t ∈ arg

private theorem holds_add (h : (l.add t).Holds u) : u = t ∨ l.Holds u := by
  rcases h with h | h
  · exact (List.mem_cons.1 h).imp_right .inl
  · exact .inr (.inr h)

private theorem holds_of_mem_completed {arg : List Token} (harg : arg ∈ l.completed) (hu : u ∈ arg) : l.Holds u := by
  rcases List.mem_cons.1 harg with rfl | harg
  · exact .inl (List.mem_reverse.1 hu)
  · exact .inr ⟨arg, harg, hu⟩

/-- A token that is taken becomes part of an argument, or none does. -/
theorem holds_of_step_more (h : l.step t = .more l') (hu : l'.Holds u) : u = t ∨ l.Holds u := by
  rcases step_more h with ⟨-, -, -, rfl⟩ | ⟨b, -, -, rfl⟩ | ⟨closer, closers, -, -, rfl⟩ | ⟨-, -, rfl⟩
  · rcases hu with hu | ⟨arg, harg, hu⟩
    · cases hu
    · exact .inr (holds_of_mem_completed harg hu)
  · exact holds_add hu
  · exact holds_add hu
  · exact holds_add hu

/-- Complete arguments have no tokens but those that were taken. -/
theorem Completes.mem_of_mem {arg : List Token} (h : l.Completes ts args) (harg : arg ∈ args) (hu : u ∈ arg) :
    l.Holds u ∨ u ∈ ts := by
  induction h with
  | last hstep =>
    rcases finish_eq_complete_iff.1 (step_complete_iff.1 hstep).2.2 with ⟨-, -, rfl⟩ | ⟨-, rfl⟩
    · cases harg
    · exact .inl (holds_of_mem_completed (List.mem_reverse.1 harg) hu)
  | more hstep _ ih =>
    rcases ih harg with hheld | hmem
    · rcases holds_of_step_more hstep hheld with rfl | hheld
      · exact .inr (List.mem_cons_self ..)
      · exact .inl hheld
    · exact .inr (List.mem_cons_of_mem _ hmem)

end ArgumentList

namespace Reader

theorem moreArguments_eq (question : Token) (l : ArgumentList) (r : Reader) :
    moreArguments question l r =
      if r.repeats then (.error (.fault .endless), r)
      else
        match r.read with
        | (.failed e, r') => (.error (.ofLex e), r')
        | (.finished, r') => (.error (argumentsFailure .inputEnds question.position), r')
        | (.token t, r') =>
          match l.step t with
          | .malformed e => (.error (argumentsFailure e t.position), r')
          | .complete args => (.ok ⟨args, [r'.consumed t]⟩, r')
          | .more l' =>
            ((moreArguments question l' r').1.map (·.after (r'.consumed t)), (moreArguments question l' r').2) := by
  rw [moreArguments]
  split
  · rfl
  · split
    · next hread => simp only [hread]
    · next hread => simp only [hread]
    · next t r' hread => cases hstep : l.step t <;> simp only [hread, hstep]

/-- The tokens that are reported as read were read in this order, and complete the arguments. -/
theorem takes_moreArguments {question : Token} {l : ArgumentList} {r r' : Reader} {a : Arguments}
    (h : moreArguments question l r = (.ok a, r')) :
    Takes r a.consumed r' ∧ l.Completes (a.consumed.map Consumed.token) a.args := by
  fun_induction moreArguments question l r generalizing a r' with
  | case1 l r hr => simp at h
  | case2 l r hr e r₁ hread => simp at h
  | case3 l r hr r₁ hread => simp at h
  | case4 l r hr t r₁ hread e hstep => simp at h
  | case5 l r hr t r₁ hread args hstep =>
    obtain ⟨rfl, rfl⟩ : _ = a ∧ r₁ = r' := by simpa using h
    exact ⟨.cons hread (.nil _), .last hstep⟩
  | case6 l r hr t r₁ hread l' hstep hsize rest r₂ hrest ih =>
    obtain ⟨ha, rfl⟩ := Prod.mk.inj h
    cases rest with
    | error f => simp [Except.map] at ha
    | ok b =>
      obtain rfl : b.after (r₁.consumed t) = a := by simpa [Except.map] using ha
      obtain ⟨htakes, hcompletes⟩ := ih hrest
      exact ⟨.cons hread htakes, .more hstep hcompletes⟩

/-- Arguments are completed by the tokens behind the first one that was read. -/
theorem completes_arguments {question : Token} {r r' : Reader} {a : Arguments}
    (h : r.arguments question = (.ok a, r')) :
    Takes r a.consumed r' ∧
      ∃ c cs, a.consumed = c :: cs ∧ ArgumentList.Completes {} (cs.map Consumed.token) a.args := by
  unfold arguments at h
  split at h
  · simp at h
  · simp at h
  · next t r₁ hread =>
    rcases hrest : moreArguments question {} r₁ with ⟨_ | b, r₂⟩ <;> rw [hrest] at h
    · simp [Except.map] at h
    · obtain ⟨rfl, rfl⟩ : b.after (r₁.consumed t) = a ∧ r₂ = r' := by simpa [Except.map] using h
      obtain ⟨htakes, hcompletes⟩ := takes_moreArguments hrest
      exact ⟨.cons hread htakes, _, _, rfl, hcompletes⟩

theorem takes_arguments {question : Token} {r r' : Reader} {a : Arguments}
    (h : r.arguments question = (.ok a, r')) : Takes r a.consumed r' :=
  (completes_arguments h).1

/-- The tokens that are read for arguments end with the closing parenthesis. -/
theorem getLast?_arguments {question : Token} {r r' : Reader} {a : Arguments}
    (h : r.arguments question = (.ok a, r')) : ∃ c ∈ a.consumed.getLast?, c.token.isSymbol ")" = true := by
  obtain ⟨-, c, cs, hconsumed, hcompletes⟩ := completes_arguments h
  obtain ⟨t, ht, hclose⟩ := hcompletes.getLast?
  rw [List.getLast?_map] at ht
  obtain ⟨d, hd, rfl⟩ := Option.map_eq_some_iff.1 ht
  rw [hconsumed]
  exact ⟨d, List.mem_getLast?_cons hd, hclose⟩

/-- The arguments are made of the tokens that were read for them. -/
theorem mem_consumed_of_arguments {question : Token} {r r' : Reader} {a : Arguments}
    (h : r.arguments question = (.ok a, r')) {arg : List Token} (harg : arg ∈ a.args) {u : Token} (hu : u ∈ arg) :
    u ∈ a.consumed.map Consumed.token := by
  obtain ⟨-, c, cs, hconsumed, hcompletes⟩ := completes_arguments h
  rw [hconsumed]
  rcases hcompletes.mem_of_mem harg hu with (hheld | ⟨arg, harg, -⟩) | hmem
  · cases hheld
  · cases harg
  · exact List.mem_cons_of_mem _ hmem

/-- The rest of an argument list is taken from what waits to be read. -/
theorem moreArguments_eq_parseRest (question : Token) (l : ArgumentList) {r : Reader}
    (hi : r.inclusion.IsErrorFree) :
    ((moreArguments question l r).1, (moreArguments question l r).2.flat) = l.parseRest question r.flat := by
  fun_induction moreArguments question l r with
  | case1 l r hr =>
    rw [not_repeats hi.isFinite] at hr
    cases hr
  | case2 l r hr e r₁ hread => exact absurd hi (not_isErrorFree_of_read_failed hread)
  | case3 l r hr r₁ hread =>
    obtain ⟨hflat, hflat', -⟩ := flat_of_read_finished hread
    rw [hflat, hflat']
    rfl
  | case4 l r hr t r₁ hread e hstep =>
    have ht : (r₁.consumed t).token = t := rfl
    rw [flat_read hread hi.isFinite, ArgumentList.parseRest, ht, hstep]
  | case5 l r hr t r₁ hread args hstep =>
    have ht : (r₁.consumed t).token = t := rfl
    rw [flat_read hread hi.isFinite, ArgumentList.parseRest, ht, hstep]
  | case6 l r hr t r₁ hread l' hstep hsize rest r₂ hrest ih =>
    have ht : (r₁.consumed t).token = t := rfl
    have hi₁ := ends_of_read hread hi rfl
    have := ih hi₁
    rw [hrest] at this
    rw [flat_read hread hi.isFinite, ArgumentList.parseRest, ht, hstep]
    dsimp only
    rw [← this]

/-- An argument list is taken from what waits to be read. -/
theorem arguments_eq_parse (question : Token) {r : Reader} (hi : r.inclusion.IsErrorFree) :
    ((r.arguments question).1, (r.arguments question).2.flat) = ArgumentList.parse question r.flat := by
  unfold arguments
  rcases hread : r.read with ⟨t | _ | e, r₁⟩
  · have hi₁ := ends_of_read hread hi rfl
    have hrest := moreArguments_eq_parseRest question {} hi₁
    rw [flat_read hread hi.isFinite, ArgumentList.parse, ← hrest]
  · obtain ⟨hflat, hflat', -⟩ := flat_of_read_finished hread
    rw [hflat, ArgumentList.parse, ← hflat']
  · exact absurd hi (not_isErrorFree_of_read_failed hread)

end Reader

end ErlangMacros
