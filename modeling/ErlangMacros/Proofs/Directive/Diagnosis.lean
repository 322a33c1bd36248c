import ErlangMacros.Proofs.Directive.Conditional
import ErlangMacros.Proofs.Directive.Failure

/-!
# Invalid directives are reported

A directive whose tokens have values, and whose first two tokens are a hyphen and a keyword, can only fail to be parsed
by being rejected, and this is reported as an error of the input (`parse_error`).
-/

namespace ErlangMacros

namespace Parser

theorem bind_eq_error {α β : Type} {p : Parser α} {k : α → Parser β} {c c' : Cursor} {f : Failure}
    (h : (p >>= k) c = .error f c') : p c = .error f c' ∨ ∃ a c₁, p c = .ok a c₁ ∧ k a c₁ = .error f c' := by
  change EStateM.bind p k c = _ at h
  unfold EStateM.bind at h
  split at h
  · next a c₁ hp => exact .inr ⟨a, c₁, hp, h⟩
  · next hp =>
    cases h
    exact .inl hp

private theorem termMessage_of_value {ts : List Token} (h : ∀ t ∈ ts, ∃ value, t.value = .ok value) :
    ∃ message, termMessage ts = .ok message := by
  unfold termMessage
  split
  · next t =>
    split
    · exact h t (List.mem_cons_self ..)
    · exact ⟨_, rfl⟩
  · exact ⟨_, rfl⟩

/-- A message is read if its tokens have values. -/
theorem isRejected_messageDirective {text : Text} {action : Text → Action} {c c' : Cursor} {f : Failure}
    (hvalues : ∀ t ∈ c.tokens, ∃ value, t.value = .ok value) (h : messageDirective text action c = .error f c') :
    IsRejected f := by
  unfold messageDirective at h
  rcases bind_eq_error h with h | ⟨_, c₁, hkeyword, h⟩
  · exact failsWith_keyword _ _ _ _ h
  obtain ⟨hc₁, -⟩ := yields_keyword _ _ _ _ rfl hkeyword
  rcases bind_eq_error h with h | ⟨_, c₂, hpunctuator, h⟩
  · exact failsWith_punctuator _ _ _ _ h
  obtain ⟨hc₂, -⟩ := yields_punctuator _ _ _ _ hc₁ hpunctuator
  rcases bind_eq_error h with h | ⟨term, c₃, hterm, h⟩
  · exact failsWith_untilClose _ _ _ _ _ h
  obtain ⟨-, hsubset⟩ := yields_untilClose _ _ _ _ _ hc₂ hterm
  obtain ⟨message, hmessage⟩ := termMessage_of_value fun t ht => hvalues t (hsubset ht)
  rw [hmessage] at h
  exact failsWith_node _ _ _ _ h

theorem isRejected_ofKeyword {k : Keyword} {c c' : Cursor} {f : Failure}
    (hvalues : ∀ t ∈ c.tokens, ∃ value, t.value = .ok value) (h : ofKeyword k c = .error f c') : IsRejected f := by
  rcases failsWith_ofKeyword k with hk | ⟨text, action, hk⟩
  · exact hk _ _ _ h
  · rw [hk] at h
    exact isRejected_messageDirective hvalues h

end Parser

/-- A directive with a keyword whose tokens have values is parsed, or an error is reported. -/
theorem parse_error {hyphen word : Token} {ts : List Token} {f : Failure} (hhyphen : hyphen.lexeme = ⟨.operator, "-"⟩)
    (hword : (Keyword.ofText? word.text).isSome = true)
    (hvalues : ∀ t ∈ hyphen :: word :: ts, ∃ value, t.value = .ok value)
    (h : Directive.parse (hyphen :: word :: ts) = .error f) : ∃ e, f = .error e := by
  obtain ⟨k, hk⟩ := Option.isSome_iff_exists.1 hword
  unfold Directive.parse at h
  split at h
  · cases h
  · next c hdirective =>
    cases h
    rw [Parser.directive_eq_diagnosed ts hhyphen hk] at hdirective
    unfold Parser.diagnosed at hdirective
    split at hdirective
    · cases hdirective
      exact ⟨_, rfl⟩
    · next hno =>
      obtain ⟨e, rfl⟩ := Parser.isRejected_ofKeyword hvalues hdirective
      exact absurd hdirective (hno e c)

end ErlangMacros
