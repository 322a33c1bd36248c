import ErlangMacros.Proofs.Lexer.Munch
import Mathlib.Data.List.Induction

/-!
# The layout of a text

A text is laid out as tokens with gaps before them: nothing is lost, a gap consists of blanks and comments, a token is
spaced if the gap before it is not empty, and it stands where the text before it ends (`Layout`).  `coordinates` counts
the bytes, lines and columns of that text from scratch.

`tokenize_layout` says that the tokens of a lexer are laid out in its text.  If the text ends well, what is left after
the last token is a gap; if it ends with an error, the error stands at or behind the end of the last token.  A surrogate
that breaks off lexing stands right at the place of the error.
-/

namespace ErlangMacros

/-! ### Coordinates -/

/-- The place behind a text: its bytes, lines and the columns of its last line are counted. -/
def coordinates (filename : Option Text) (cs : List CodePoint) : Position where
  filename
  offset := (Text.ofList cs).utf8ByteSize
  line := 1 + cs.count (.char '\n')
  column := 1 + (cs.reverse.takeWhile (· ≠ CodePoint.char '\n')).length

theorem Mark.advance_eq {cs : List CodePoint} (h : ∀ c ∈ cs, c.isChar = true) :
    ({} : Mark).advance cs =
      ⟨(Text.ofList cs).utf8ByteSize, 1 + cs.count (.char '\n'),
        1 + (cs.reverse.takeWhile (· ≠ CodePoint.char '\n')).length⟩ := by
  induction cs using List.reverseRecOn with
  | nil => rfl
  | append_singleton cs c ih =>
    obtain ⟨hcs, hc⟩ := List.forall_mem_append.1 h
    obtain ⟨d, rfl⟩ := CodePoint.isChar_iff.1 (hc c (List.mem_singleton_self c))
    have hsize : (Text.ofList (cs ++ [.char d])).utf8ByteSize = (Text.ofList cs).utf8ByteSize + d.utf8Size := by
      simp only [Text.utf8ByteSize, Text.string, Text.chars_append, Text.chars_char, Text.chars_nil]
      rw [String.ofList_append, String.utf8ByteSize_append, ← String.singleton_eq_ofList, String.utf8ByteSize_singleton]
    rw [advance_append, ih hcs, advance_char, advance_nil, step, hsize, List.count_append, List.reverse_append]
    by_cases hd : d = '\n'
    · simp [hd, Nat.add_assoc]
    · simp [hd, Nat.add_assoc]

theorem Mark.position_advance (filename : Option Text) {cs : List CodePoint} (h : ∀ c ∈ cs, c.isChar = true) :
    (({} : Mark).advance cs).position filename = coordinates filename cs := by
  rw [advance_eq h]
  simp [position, coordinates]

/-! ### Gaps -/

/-- Blanks, and comments up to the end of their lines, before the rest of a text. -/
inductive IsGap : List CodePoint → List CodePoint → Prop where
  | nil (after : List CodePoint) : IsGap [] after
  | blank {c : CodePoint} {gap after : List CodePoint} (isBlank : Text.isBlank c = true) (rest : IsGap gap after) :
      IsGap (c :: gap) after
  | comment {body gap after : List CodePoint} (oneLine : ∀ c ∈ body, c ≠ '\n') (isChar : ∀ c ∈ body, c.isChar = true)
      (ends : ∀ c ∈ (gap ++ after).head?, c = '\n') (rest : IsGap gap after) : IsGap (.char '%' :: (body ++ gap)) after

/-- A gap consists of characters. -/
theorem IsGap.isChar {gap after : List CodePoint} (h : IsGap gap after) : ∀ c ∈ gap, c.isChar = true := by
  induction h with
  | nil => exact List.forall_mem_nil _
  | blank hblank _ ih => exact List.forall_mem_cons.2 ⟨Text.isChar_of_isBlank hblank, ih⟩
  | comment _ hbody _ _ ih => exact List.forall_mem_cons.2 ⟨rfl, List.forall_mem_append.2 ⟨hbody, ih⟩⟩

private theorem IsGap.comment_cons {c : CodePoint} {gap after : List CodePoint} (h : IsGap (.char '%' :: gap) after)
    (hc : c ≠ '\n') (hchar : c.isChar = true) : IsGap (.char '%' :: c :: gap) after := by
  generalize hgap : .char '%' :: gap = cs at h
  cases h with
  | nil => cases hgap
  | blank hblank =>
    cases hgap
    exact absurd hblank (by decide)
  | @comment body gap' _ hline hbody hends hrest =>
    cases hgap
    change IsGap (.char '%' :: ((c :: body) ++ gap')) after
    exact .comment (List.forall_mem_cons.2 ⟨hc, hline⟩) (List.forall_mem_cons.2 ⟨hchar, hbody⟩) hends hrest

/-- The gap at the front of a text is one, and so is the rest of a comment with the gap behind it, unless a comment is
broken off. -/
theorem isGap_take_gap (cs : List CodePoint) :
    (Scan.breaksOff false cs = false → IsGap (cs.take (Scan.gap false cs)) (cs.drop (Scan.gap false cs))) ∧
      (Scan.breaksOff true cs = false →
        IsGap (.char '%' :: cs.take (Scan.gap true cs)) (cs.drop (Scan.gap true cs))) := by
  induction cs with
  | nil =>
    refine ⟨fun _ => .nil _, fun _ => .comment (List.forall_mem_nil _) (List.forall_mem_nil _) ?_ (.nil _)⟩
    rintro c ⟨⟩
  | cons c cs ih =>
    obtain ⟨hblank, hcomment⟩ := ih
    rw [Scan.gap, Scan.gap, Scan.breaksOff, Scan.breaksOff, if_neg Bool.false_ne_true, if_neg Bool.false_ne_true,
      if_pos rfl, if_pos rfl]
    constructor
    · intro hunbroken
      split at hunbroken
      · next hc =>
        rw [if_pos hc]
        exact .blank hc (hblank hunbroken)
      · next hc =>
        rw [if_neg hc]
        split at hunbroken
        · next hc =>
          rw [if_pos hc, hc]
          exact hcomment hunbroken
        · next hc =>
          rw [if_neg hc]
          exact .nil _
    · intro hunbroken
      split at hunbroken
      · next hchar =>
        rw [if_pos hchar]
        by_cases hc : c = '\n'
        · subst hc
          refine .comment (List.forall_mem_nil _) (List.forall_mem_nil _) ?_
            (.blank (c := '\n') (by decide) (hblank (by simpa using hunbroken)))
          rintro d ⟨⟩
          rfl
        · rw [decide_eq_true hc] at hunbroken ⊢
          exact (hcomment hunbroken).comment_cons hc hchar
      · cases hunbroken

/-- What is skipped as a gap are characters, whether a comment is broken off or not. -/
theorem isChar_take_gap (comment : Bool) (cs : List CodePoint) :
    ∀ c ∈ cs.take (Scan.gap comment cs), c.isChar = true := by
  induction cs generalizing comment with
  | nil => simp
  | cons c cs ih =>
    unfold Scan.gap
    split
    · split
      · next hchar => exact List.forall_mem_cons.2 ⟨hchar, ih _⟩
      · exact List.forall_mem_nil _
    split
    · next hblank => exact List.forall_mem_cons.2 ⟨Text.isChar_of_isBlank hblank, ih false⟩
    split
    · next hc => exact List.forall_mem_cons.2 ⟨by rw [hc]; rfl, ih true⟩
    · exact List.forall_mem_nil _

/-- A comment is broken off by a surrogate right behind what is skipped. -/
theorem exists_surrogate_of_breaksOff {comment : Bool} {cs : List CodePoint} (h : Scan.breaksOff comment cs = true) :
    ∃ n after, cs.drop (Scan.gap comment cs) = .surrogate n :: after := by
  induction cs generalizing comment with
  | nil => cases h
  | cons c cs ih =>
    unfold Scan.breaksOff at h
    unfold Scan.gap
    split at h
    · next hcomment =>
      rw [if_pos hcomment]
      split at h
      · next hchar =>
        rw [if_pos hchar]
        exact ih h
      · next hchar =>
        rw [if_neg hchar]
        obtain ⟨n, rfl⟩ := CodePoint.isChar_eq_false_iff.1 (by simpa using hchar)
        exact ⟨n, cs, rfl⟩
    · next hcomment =>
      rw [if_neg hcomment]
      split at h
      · next hblank =>
        rw [if_pos hblank]
        exact ih h
      · next hblank =>
        rw [if_neg hblank]
        split at h
        · next hc =>
          rw [if_pos hc]
          exact ih h
        · cases h

/-! ### Layouts -/

/-- Tokens are read from a text, of which `before` has been read and `cs` has not: each one is the lexeme that is found
behind a gap.  Then `before'` has been read, and `rest` has not. -/
inductive Layout (filename : Option Text) :
    List CodePoint → List CodePoint → List Token → List CodePoint → List CodePoint → Prop where
  | nil (before cs : List CodePoint) : Layout filename before cs [] before cs
  | cons {before gap cs before' rest : List CodePoint} {t : Token} {ts : List Token}
      (isGap : IsGap gap (t.text.toList ++ cs)) (spaced_iff : t.spaced = true ↔ gap ≠ [])
      (position_eq : t.position = coordinates filename (before ++ gap))
      (found : Scan.lexeme (t.text.toList ++ cs) = .ok (some (t.kind, t.text.toList.length)))
      (tail : Layout filename (before ++ gap ++ t.text.toList) cs ts before' rest) :
      Layout filename before (gap ++ (t.text.toList ++ cs)) (t :: ts) before' rest

private theorem Layout.append_eq {filename : Option Text} {before cs before' rest : List CodePoint} {ts : List Token}
    (h : Layout filename before cs ts before' rest) : before ++ cs = before' ++ rest := by
  induction h with
  | nil => rfl
  | cons _ _ _ _ _ ih => rw [← ih, List.append_assoc, List.append_assoc]

/-- How a text ends of which `before` has been read and `rest` has not. -/
inductive EndsAt (filename : Option Text) (before rest : List CodePoint) : Ending → Prop where
  | finished (isGap : IsGap rest []) : EndsAt filename before rest .finished
  | failed {e : LexError} {between : List CodePoint} (isPrefix : between <+: rest)
      (isChar : ∀ c ∈ before ++ between, c.isChar = true)
      (position_eq : e.position = coordinates filename (before ++ between))
      (surrogate : e.cause = .unencodable → ∃ n after, rest = between ++ .surrogate n :: after) :
      EndsAt filename before rest (.failed e)
  | repeating (t : Token) : EndsAt filename before rest (.repeating t)

namespace Lexer

variable {l : Lexer}

/-- What comes of reading, if the gap before the token has been skipped. -/
inductive Reads (l : Lexer) : Pull → Lexer → Prop where
  | broken (breaks : Scan.breaksOff false l.rest = true) :
      Reads l (.failed ⟨.unencodable, l.breakOff.position⟩) l.breakOff
  | finished (unbroken : Scan.breaksOff false l.rest = false) (rest_eq : l.skipGap.rest = []) :
      Reads l .finished l.skipGap
  | token {kind : Kind} {n : Nat} (unbroken : Scan.breaksOff false l.rest = false)
      (found : Scan.lexeme l.skipGap.rest = .ok (some (kind, n))) :
      Reads l (.token (l.skipGap.take kind n).1) { l.skipGap.advance n with spaced := false }
  | illegal {c : CodePoint} : Reads l (.failed ⟨.illegalCharacter c, l.skipGap.position⟩) l.skipGap
  | failed {f : Scan.Fault} (found : Scan.lexeme l.skipGap.rest = .error f) :
      Reads l (.failed (l.skipGap.fail f).1) (l.skipGap.fail f).2

/-- If no comment is broken off, the next token is read behind the gap. -/
theorem next_of_unbroken (h : Scan.breaksOff false l.rest = false) : l.next = l.skipGap.pull := by
  rw [next, whitespace, h, if_neg Bool.false_ne_true]

theorem reads_next (l : Lexer) : Reads l l.next.1 l.next.2 := by
  rcases hbreaks : Scan.breaksOff false l.rest with _ | _
  · rw [next_of_unbroken hbreaks, pull]
    split
    · next hrest => exact .finished hbreaks hrest
    · rw [token?_eq]
      rcases hlexeme : Scan.lexeme l.skipGap.rest with f | _ | ⟨kind, n⟩
      · exact .failed hlexeme
      · exact .illegal
      · exact .token hbreaks hlexeme
  · rw [next, whitespace, hbreaks, if_pos rfl]
    exact .broken hbreaks

theorem tokenize_finished {l' : Lexer} (h : l.next = (.finished, l')) :
    l.tokenize = { tokens := [], reach := l'.mark.offset } := by
  rw [tokenize]
  split <;> simp_all

theorem tokenize_failed {l' : Lexer} {e : LexError} (h : l.next = (.failed e, l')) :
    l.tokenize = { tokens := [], ending := .failed e, reach := l'.mark.offset } := by
  rw [tokenize]
  split <;> simp_all

theorem tokenize_token {l' : Lexer} {t : Token} (h : l.next = (.token t, l')) :
    l.tokenize =
      if l.mark.offset < l'.mark.offset then l'.tokenize.cons t
      else { tokens := [], ending := .repeating t, reach := l'.mark.offset } := by
  rw [tokenize]
  split <;> simp_all

/-- The lexer stands behind the characters `before`, and nothing has been skipped since the last token. -/
structure StandsBehind (l : Lexer) (before : List CodePoint) : Prop where
  isChar : ∀ c ∈ before, c.isChar = true
  mark_eq : l.mark = ({} : Mark).advance before
  spaced_eq : l.spaced = false

/-- The characters between the text that has been read and a place behind the gap. -/
theorem StandsBehind.isChar_append {before : List CodePoint} (h : l.StandsBehind before) {n : Nat}
    (hn : ∀ c ∈ l.skipGap.rest.take n, c.isChar = true) :
    ∀ c ∈ before ++ (l.rest.take (Scan.gap false l.rest) ++ l.skipGap.rest.take n), c.isChar = true :=
  List.forall_mem_append.2 ⟨h.isChar, List.forall_mem_append.2 ⟨isChar_take_gap false l.rest, hn⟩⟩

theorem StandsBehind.position_eq {before : List CodePoint} (h : l.StandsBehind before) {n : Nat}
    (hn : ∀ c ∈ l.skipGap.rest.take n, c.isChar = true) :
    (l.skipGap.advance n).position =
      coordinates l.filename (before ++ (l.rest.take (Scan.gap false l.rest) ++ l.skipGap.rest.take n)) := by
  rw [← Mark.position_advance _ (h.isChar_append hn), Mark.advance_append, Mark.advance_append, ← h.mark_eq]
  rfl

/-- Behind a token the lexer has read the gap before it, too. -/
theorem StandsBehind.behind {before : List CodePoint} (h : l.StandsBehind before) {n : Nat}
    (hn : ∀ c ∈ l.skipGap.rest.take n, c.isChar = true) :
    StandsBehind { l.skipGap.advance n with spaced := false }
      (before ++ l.rest.take (Scan.gap false l.rest) ++ l.skipGap.rest.take n) := by
  refine ⟨?_, ?_, rfl⟩
  · rw [List.append_assoc]
    exact h.isChar_append hn
  · rw [Mark.advance_append, Mark.advance_append, ← h.mark_eq]
    rfl

/-- A token is laid out behind the gap before it. -/
theorem StandsBehind.layout {before before' rest : List CodePoint} {kind : Kind} {n : Nat} {ts : List Token}
    (h : l.StandsBehind before) (hunbroken : Scan.breaksOff false l.rest = false)
    (found : Scan.lexeme l.skipGap.rest = .ok (some (kind, n)))
    (htail : Layout l.filename (before ++ l.rest.take (Scan.gap false l.rest) ++ l.skipGap.rest.take n)
      (l.skipGap.rest.drop n) ts before' rest) :
    Layout l.filename before l.rest ((l.skipGap.take kind n).1 :: ts) before' rest := by
  have htext : (l.skipGap.take kind n).1.text.toList = l.skipGap.rest.take n := rfl
  have hsplit : l.rest.take (Scan.gap false l.rest) ++
      ((l.skipGap.take kind n).1.text.toList ++ l.skipGap.rest.drop n) = l.rest := by
    rw [htext, List.take_append_drop]
    exact List.take_append_drop _ _
  rw [← hsplit]
  refine .cons ?_ ?_ ?_ ?_ ?_
  · rw [htext, List.take_append_drop]
    exact (isGap_take_gap l.rest).1 hunbroken
  · have hspaced : (l.skipGap.take kind n).1.spaced = (l.spaced || decide (0 < Scan.gap false l.rest)) := rfl
    rw [hspaced, h.spaced_eq, Bool.false_or, decide_eq_true_eq, Ne, List.take_eq_nil_iff, not_or, Nat.pos_iff_ne_zero]
    refine ⟨fun hpos => ⟨hpos, fun hnil => hpos (by rw [hnil]; rfl)⟩, And.left⟩
  · have hposition := h.position_eq (n := 0) (List.forall_mem_nil _)
    rw [List.take_zero, List.append_nil] at hposition
    exact hposition
  · rw [htext, List.take_append_drop, found, List.length_take_of_le (Scan.le_length_of_lexeme found)]
    rfl
  · rw [htext]
    exact htail

/-- An error stands in the text behind the gap. -/
theorem StandsBehind.endsAt {before : List CodePoint} {e : LexError} {l' : Lexer} (h : l.StandsBehind before)
    (hnext : l.next = (.failed e, l')) : EndsAt l.filename before l.rest (.failed e) := by
  have hreads := l.reads_next
  rw [hnext] at hreads
  obtain ⟨n, hposition, hn, hsurrogate⟩ : ∃ n, e.position = (l.skipGap.advance n).position ∧
      (∀ c ∈ l.skipGap.rest.take n, c.isChar = true) ∧
      (e.cause = .unencodable → ∃ s after, l.skipGap.rest.drop n = .surrogate s :: after) := by
    cases hreads with
    | broken hbreaks => exact ⟨0, rfl, List.forall_mem_nil _, fun _ => exists_surrogate_of_breaksOff hbreaks⟩
    | illegal =>
      refine ⟨0, rfl, List.forall_mem_nil _, fun hcause => ?_⟩
      cases hcause
    | @failed f found =>
      have hstands := Scan.standsIn_of_lexeme found
      refine ⟨f.place.getD 0, rfl, hstands.isChar, fun hcause => ?_⟩
      obtain ⟨p, s, hplace, hsurrogate⟩ := hstands.surrogate hcause
      rw [hplace, Option.getD_some]
      exact ⟨s, _, List.drop_eq_getElem?_toList_append.trans (by rw [hsurrogate]; rfl)⟩
  rw [h.position_eq hn] at hposition
  have hsplit : l.rest.take (Scan.gap false l.rest) ++ l.skipGap.rest.take n ++ l.skipGap.rest.drop n = l.rest := by
    rw [List.append_assoc, List.take_append_drop]
    exact List.take_append_drop _ _
  refine .failed ⟨_, hsplit⟩ (h.isChar_append hn) hposition fun hcause => ?_
  obtain ⟨s, after, hafter⟩ := hsurrogate hcause
  exact ⟨s, after, by rw [← hafter, hsplit]⟩

/-- The tokens of a lexer are laid out in its text. -/
theorem tokenize_layout {before : List CodePoint} (h : l.StandsBehind before) :
    ∃ before' rest, Layout l.filename before l.rest l.tokenize.tokens before' rest ∧
      EndsAt l.filename before' rest l.tokenize.ending := by
  induction l using tokenize.induct generalizing before with
  | case1 l l' _ hnext =>
    rw [tokenize_finished hnext]
    have hreads := l.reads_next
    rw [hnext] at hreads
    cases hreads with
    | finished hunbroken hrest =>
      have hgap := (isGap_take_gap l.rest).1 hunbroken
      have hdrop : l.rest.drop (Scan.gap false l.rest) = [] := hrest
      rw [hdrop, List.take_of_length_le (List.drop_eq_nil_iff.1 hdrop)] at hgap
      exact ⟨before, l.rest, .nil _ _, .finished hgap⟩
  | case2 l e l' _ hnext =>
    rw [tokenize_failed hnext]
    exact ⟨before, l.rest, .nil _ _, h.endsAt hnext⟩
  | case3 l t l' _ hnext hmoved _ ih =>
    rw [tokenize_token hnext, if_pos hmoved]
    have hreads := l.reads_next
    rw [hnext] at hreads
    cases hreads with
    | @token kind n hunbroken found =>
      obtain ⟨before', rest, hlayout, hends⟩ := ih (h.behind (Scan.isChar_of_lexeme found))
      exact ⟨before', rest, h.layout hunbroken found hlayout, hends⟩
  | case4 l t l' _ hnext hstill =>
    rw [tokenize_token hnext, if_neg hstill]
    exact ⟨before, l.rest, .nil _ _, .repeating t⟩

end Lexer

/-- Nothing of a text is lost: it is laid out as its tokens with gaps before them, each token at its coordinates.  If
the text ends well, a gap is left after the last token.  If it ends with an error, the error stands at or behind the end
of the last token. -/
theorem lexing_layout (text : Text) (filename : Option Text) :
    ∃ before rest, text.toList = before ++ rest ∧
      Layout filename [] text.toList (Lexing.ofText text filename).tokens before rest ∧
      EndsAt filename before rest (Lexing.ofText text filename).ending := by
  have hbehind : (Lexer.ofText text filename).StandsBehind [] := ⟨List.forall_mem_nil _, rfl, rfl⟩
  obtain ⟨before, rest, hlayout, hends⟩ := Lexer.tokenize_layout hbehind
  exact ⟨before, rest, hlayout.append_eq, hlayout, hends⟩

/-- A comment, a line break inside a string and characters of two bytes before a character that starts no token. -/
example :
    Lexing.ofText "é % x\n\"\n\" ä~" = {
      tokens := [⟨.atom, "é", ⟨none, 0, 1, 1⟩, false⟩, ⟨.string, "\"\n\"", ⟨none, 7, 2, 1⟩, true⟩,
        ⟨.atom, "ä", ⟨none, 11, 3, 3⟩, true⟩]
      ending := .failed ⟨.illegalCharacter '~', ⟨none, 13, 3, 4⟩⟩
      reach := 13 } := by
  decide +kernel

end ErlangMacros
