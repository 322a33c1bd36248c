import ErlangMacros.Proofs.Lexer.Joining
import ErlangMacros.Proofs.Lexer.Progress

/-!
# Lexing line by line

No lexeme runs on over a line end, and no gap hides what stands behind one.  So a text that ends well gives the same
tokens if a line end and more text stand behind it (`Yields.followedBy`), and then the lexer stands where it would stand
at the start of that text, but further on and with a gap behind it (`pulls_line`).

Where a text starts does not count for what is read from it, only for the positions (`pulls_shift`).
-/

namespace ErlangMacros

/-! ### Lexemes and gaps before a line end -/

namespace Scan

variable {kind : Kind} {n : Nat} {c : CodePoint} {cs rest : List CodePoint}

/-- A lexeme that does not run on into a text does not run on over a blank behind it. -/
theorem IsLexeme.not_runsOn_append (h : IsLexeme kind cs) (hno : ¬ RunsOn cs rest) (hc : Text.isBlank c = true)
    (ds : List CodePoint) : ¬ RunsOn cs (rest ++ c :: ds) := by
  rintro ⟨es, hes, hbegins, kind', hlonger⟩
  have hblank := h.isBlank_of_append hlonger
  have hinside : es <+: rest := by
    rcases List.prefix_or_prefix_of_prefix hbegins (List.prefix_append rest (c :: ds)) with hinside | ⟨more, rfl⟩
    · exact hinside
    · -- what goes on behind the rest starts with the blank
      cases more with
      | nil => simp
      | cons d more =>
        obtain ⟨rfl, -⟩ := List.cons_prefix_cons.1 ((List.prefix_append_right_inj _).1 hbegins)
        have hd := hblank d (by simp)
        rw [hc] at hd
        cases hd
  exact hno ⟨es, hes, hinside, kind', hlonger⟩

private theorem lexeme_append_blank (h : lexeme cs = .ok (some (kind, n))) (hc : Text.isBlank c = true)
    (ds : List CodePoint) : lexeme (cs ++ c :: ds) = .ok (some (kind, n)) := by
  rcases Nat.eq_zero_or_pos n with rfl | hn
  · -- an empty lexeme is told by the first character
    cases cs with
    | nil => cases h
    | cons d cs =>
      by_cases hd : Text.isNameless d = true
      · rw [lexeme_of_isNameless cs hd] at h
        rw [List.cons_append, lexeme_of_isNameless _ hd, h]
      · exact absurd (pos_of_lexeme (Bool.eq_false_iff.2 hd) h) (Nat.lt_irrefl 0)
  · obtain ⟨hle, hlexeme⟩ := isLexeme_of_lexeme h hn
    have hlength : (cs.take n).length = n := List.length_take_of_le hle
    have hfound : lexeme (cs.take n ++ cs.drop n) = .ok (some (kind, (cs.take n).length)) := by
      rw [List.take_append_drop, hlength, h]
    have hno := ((lexeme_append_eq_iff hlexeme.1).1 hfound).2
    have hagain := (lexeme_append_eq_iff hlexeme.1).2 ⟨hlexeme, hlexeme.not_runsOn_append hno hc ds⟩
    rwa [← List.append_assoc, List.take_append_drop, hlength] at hagain

/-- A character belongs to a gap whatever stands behind it, or the gap ends before it. -/
private theorem gap_cons_cases (comment : Bool) (c : CodePoint) :
    (∃ inside, ∀ cs, gap comment (c :: cs) = gap inside cs + 1 ∧ breaksOff comment (c :: cs) = breaksOff inside cs) ∨
      ∀ cs, gap comment (c :: cs) = 0 := by
  cases comment with
  | false =>
    by_cases hblank : Text.isBlank c = true
    · exact .inl ⟨false, fun cs => by simp [gap, breaksOff, hblank]⟩
    · by_cases hmark : c = '%'
      · subst hmark
        exact .inl ⟨true, fun cs => by simp [gap, breaksOff, hblank]⟩
      · exact .inr fun cs => by simp [gap, hblank, hmark]
  | true =>
    by_cases hchar : c.isChar = true
    · exact .inl ⟨c ≠ '\n', fun cs => by simp [gap, breaksOff, hchar]⟩
    · exact .inr fun cs => by simp [gap, hchar]

/-- A gap before something else is skipped as before. -/
theorem gap_append {comment : Bool} (h : gap comment cs < cs.length) (ds : List CodePoint) :
    gap comment (cs ++ ds) = gap comment cs := by
  induction cs generalizing comment with
  | nil => exact absurd h (Nat.not_lt_zero _)
  | cons c cs ih =>
    rcases gap_cons_cases comment c with ⟨inside, hpass⟩ | hstop
    · rw [(hpass cs).1] at h
      rw [List.cons_append, (hpass _).1, (hpass _).1, ih (Nat.lt_of_succ_lt_succ h)]
    · rw [List.cons_append, hstop, hstop]

/-- A gap up to the end of a text, a line end and the gap behind it are one gap.  A comment is broken off in it only
behind the line end. -/
theorem gap_line {comment : Bool} (h : cs.length ≤ gap comment cs) (ds : List CodePoint) :
    gap comment (cs ++ .char '\n' :: ds) = cs.length + 1 + gap false ds ∧
      breaksOff comment (cs ++ .char '\n' :: ds) = breaksOff false ds := by
  induction cs generalizing comment with
  | nil =>
    have hblank : Text.isBlank '\n' = true := by decide
    have hchar : CodePoint.isChar '\n' = true := rfl
    cases comment <;> simp [gap, breaksOff, hblank, hchar, Nat.add_comm]
  | cons c cs ih =>
    rcases gap_cons_cases comment c with ⟨inside, hpass⟩ | hstop
    · rw [(hpass cs).1] at h
      obtain ⟨hgap, hbreaks⟩ := ih (Nat.le_of_succ_le_succ h)
      rw [List.cons_append, (hpass _).1, (hpass _).2, hgap, List.length_cons]
      exact ⟨by omega, hbreaks⟩
    · rw [hstop] at h
      exact absurd h (Nat.not_succ_le_zero _)

end Scan

namespace Lexer

variable {l m : Lexer} {t : Token} {ts : List Token} {c : CodePoint}

/-! ### More text behind a line end -/

/-- The lexer with more text behind. -/
def followedBy (l : Lexer) (cs : List CodePoint) : Lexer :=
  { l with rest := l.rest ++ cs }

private theorem skipGap_followedBy (h : l.skipGap.rest ≠ []) (cs : List CodePoint) :
    (l.followedBy cs).skipGap = l.skipGap.followedBy cs := by
  have hlt : Scan.gap false l.rest < l.rest.length := by
    refine Nat.lt_of_not_le fun hle => h ?_
    exact List.drop_eq_nil_iff.2 hle
  have hgap := Scan.gap_append hlt cs
  simp only [skipGap, advance, followedBy, hgap, List.drop_append_of_le_length (Nat.le_of_lt hlt),
    List.take_append_of_le_length (Nat.le_of_lt hlt)]

private theorem next_followedBy (h : l.next = (.token t, m)) (hc : Text.isBlank c = true) (cs : List CodePoint) :
    (l.followedBy (c :: cs)).next = (.token t, m.followedBy (c :: cs)) := by
  have hreads := l.reads_next
  rw [h] at hreads
  cases hreads with
  | @token kind n _ found =>
    have hne : l.skipGap.rest ≠ [] := by
      intro hnil
      rw [hnil] at found
      cases found
    have hle := Scan.le_length_of_lexeme found
    have hskip := skipGap_followedBy hne (c :: cs)
    have found' : Scan.lexeme (l.followedBy (c :: cs)).skipGap.rest = .ok (some (kind, n)) := by
      rw [hskip]
      exact Scan.lexeme_append_blank found hc cs
    rw [next_of_lexeme found', hskip]
    simp only [followedBy, take, advance, position, List.drop_append_of_le_length hle, List.take_append_of_le_length hle]

/-- The tokens before a blank are read as before. -/
theorem Yields.followedBy (h : l.Yields ts m) (hc : Text.isBlank c = true) (cs : List CodePoint) :
    (l.followedBy (c :: cs)).Yields ts (m.followedBy (c :: cs)) := by
  induction h with
  | nil => exact .nil _
  | cons hnext _ ih => exact .cons (next_followedBy hnext hc cs) ih

private theorem exists_yields_of_pulls {n : Nat} (h : l.pulls n = (ts, some .finished)) :
    ∃ m, l.Yields ts m ∧ m.skipGap.rest = [] := by
  induction n generalizing l ts with
  | zero => cases h
  | succ n ih =>
    have hreads := l.reads_next
    rw [pulls] at h
    rcases hnext : l.next with ⟨t | _ | e, m⟩ <;> rw [hnext] at h hreads
    · dsimp only at h
      obtain ⟨rfl, hend⟩ := Prod.mk.inj h
      obtain ⟨m', hyields, hnil⟩ := ih (l := m) (Prod.ext rfl hend)
      exact ⟨m', .cons hnext hyields, hnil⟩
    · cases h
      cases hreads with
      | finished _ hnil => exact ⟨l, .nil l, hnil⟩
    · cases h

/-- A text that comes to its end is made of characters. -/
theorem Yields.isChar {before : List CodePoint} (h : l.Yields ts m) (hl : l.StandsBehind before)
    (hnil : m.skipGap.rest = []) : ∀ c ∈ l.rest, c.isChar = true := by
  induction h generalizing before with
  | nil => exact isChar_of_finished (next_of_nil hnil)
  | cons hnext _ ih =>
    obtain ⟨between, hm, hrest, -⟩ := hl.next hnext
    rw [hrest]
    exact List.forall_mem_append.2 ⟨(List.forall_mem_append.1 hm.isChar).2, ih hm hnil⟩

/-! ### Where the text starts -/

private theorem next_of_breaksOff (h : Scan.breaksOff false l.rest = true) :
    l.next = (.failed ⟨.unencodable, l.breakOff.position⟩, l.breakOff) := by
  rw [next, whitespace, if_pos h]

/-- Pulling goes on in the same way behind the same gap. -/
theorem pulls_congr (h : l.skipGap = m.skipGap)
    (hbreaks : Scan.breaksOff false l.rest = Scan.breaksOff false m.rest) (n : Nat) : l.pulls n = m.pulls n := by
  cases n with
  | zero => rfl
  | succ n =>
    rw [pulls, pulls]
    by_cases hbroken : Scan.breaksOff false m.rest = true
    · have hposition : l.breakOff.position = m.breakOff.position := by
        change l.skipGap.position = m.skipGap.position
        rw [h]
      rw [next_of_breaksOff (hbreaks.trans hbroken), next_of_breaksOff hbroken, hposition]
    · rw [Bool.not_eq_true] at hbroken
      rw [next_of_unbroken (hbreaks.trans hbroken), next_of_unbroken hbroken, h]

/-- Lexers before the same text read alike. -/
theorem next_alike {P : Pull × Lexer → Pull × Lexer → Prop} (hrest : m.rest = l.rest)
    (broken : P (.failed ⟨.unencodable, l.breakOff.position⟩, l.breakOff)
      (.failed ⟨.unencodable, m.breakOff.position⟩, m.breakOff))
    (finished : P (.finished, l.skipGap) (.finished, m.skipGap))
    (token : ∀ kind n, P (.token (l.skipGap.take kind n).1, { l.skipGap.advance n with spaced := false })
      (.token (m.skipGap.take kind n).1, { m.skipGap.advance n with spaced := false }))
    (illegal : ∀ c, P (.failed ⟨.illegalCharacter c, l.skipGap.position⟩, l.skipGap)
      (.failed ⟨.illegalCharacter c, m.skipGap.position⟩, m.skipGap))
    (failed : ∀ f, P (.failed (l.skipGap.fail f).1, (l.skipGap.fail f).2)
      (.failed (m.skipGap.fail f).1, (m.skipGap.fail f).2)) : P l.next m.next := by
  have hbehind : m.skipGap.rest = l.skipGap.rest := by
    change m.rest.drop _ = l.rest.drop _
    rw [hrest]
  by_cases hbroken : Scan.breaksOff false l.rest = true
  · rw [next_of_breaksOff hbroken, next_of_breaksOff (hrest ▸ hbroken)]
    exact broken
  rw [Bool.not_eq_true] at hbroken
  rcases hchars : l.skipGap.rest with _ | ⟨c, cs⟩
  · rw [next_of_nil hchars, next_of_nil (hbehind.trans hchars)]
    exact finished
  · have hc : c ∈ l.skipGap.rest.head? := by
      rw [hchars]
      rfl
    have hne : l.skipGap.rest ≠ [] := by simp [hchars]
    rcases hlexeme : Scan.lexeme l.skipGap.rest with f | _ | ⟨kind, n⟩
    · rw [next_of_fault hne hlexeme, next_of_fault (hbehind ▸ hne) (hbehind ▸ hlexeme)]
      exact failed f
    · rw [next_of_illegal hbroken hc hlexeme, next_of_illegal (hrest ▸ hbroken) (hbehind ▸ hc) (hbehind ▸ hlexeme)]
      exact illegal c
    · rw [next_of_lexeme hlexeme, next_of_lexeme (hbehind ▸ hlexeme)]
      exact token kind n

/-- The lexer at the start of a line behind the text that is left. -/
def atLine (l : Lexer) (cs : List CodePoint) : Lexer where
  filename := l.filename
  rest := cs
  mark := l.mark.advance (l.rest ++ [.char '\n'])
  spaced := true

theorem pulls_line (h : l.skipGap.rest = []) (cs : List CodePoint) (n : Nat) :
    (l.followedBy (.char '\n' :: cs)).pulls n = (l.atLine cs).pulls n := by
  obtain ⟨hgap, hbreaks⟩ := Scan.gap_line (List.drop_eq_nil_iff.1 h) cs
  refine pulls_congr ?_ hbreaks n
  have hsplit : l.rest ++ .char '\n' :: cs = (l.rest ++ [.char '\n']) ++ cs := by simp
  have hlength : l.rest.length + 1 = (l.rest ++ [CodePoint.char '\n']).length := by simp
  rw [hsplit, hlength] at hgap
  simp only [skipGap, advance, followedBy, atLine, hsplit, hgap, List.take_length_add_append,
    List.drop_length_add_append, Mark.advance_append]
  simp

end Lexer

/-- A mark further on, by bytes and lines. -/
def Mark.shift (bytes lines : Nat) (m : Mark) : Mark :=
  { m with offset := m.offset + bytes, line := m.line + lines }

/-- A position further on, by bytes and lines. -/
def Position.shift (bytes lines : Nat) (p : Position) : Position :=
  { p with offset := p.offset + bytes, line := p.line + lines }

/-- A token further on. -/
def Token.shift (bytes lines : Nat) (t : Token) : Token :=
  { t with position := t.position.shift bytes lines }

/-- A token with a gap before it. -/
def Token.afterGap (t : Token) : Token :=
  { t with spaced := true }

/-- What is pulled behind a gap. -/
def Pull.afterGap : Pull → Pull
  | token t => token t.afterGap
  | finished => finished
  | failed e => failed e

/-- What is pulled further on. -/
def Pull.shift (bytes lines : Nat) : Pull → Pull
  | token t => token (t.shift bytes lines)
  | finished => finished
  | failed e => failed { e with position := e.position.shift bytes lines }

/-- A lexer further on. -/
def Lexer.shift (bytes lines : Nat) (l : Lexer) : Lexer :=
  { l with mark := l.mark.shift bytes lines }

section Shift

variable (bytes lines : Nat)

private theorem Mark.advance_shift (m : Mark) (cs : List CodePoint) :
    (m.shift bytes lines).advance cs = (m.advance cs).shift bytes lines := by
  induction cs generalizing m with
  | nil => rfl
  | cons c cs ih =>
    cases c with
    | char c =>
      have hstep : (m.shift bytes lines).step c = (m.step c).shift bytes lines := by
        by_cases hc : c = '\n' <;> simp [step, shift, hc, Nat.add_right_comm]
      rw [advance_char, advance_char, hstep, ih]
    | surrogate n => exact ih m

private theorem Mark.position_shift (m : Mark) (filename : Option Text) :
    (m.shift bytes lines).position filename = (m.position filename).shift bytes lines := by
  simp [position, shift, Position.shift]

namespace Lexer

private theorem advance_shift (l : Lexer) (n : Nat) :
    (l.shift bytes lines).advance n = (l.advance n).shift bytes lines := by
  simp only [advance, shift, Mark.advance_shift]

private theorem position_shift (l : Lexer) : (l.shift bytes lines).position = l.position.shift bytes lines :=
  Mark.position_shift bytes lines l.mark l.filename

private theorem skipGap_shift (l : Lexer) : (l.shift bytes lines).skipGap = l.skipGap.shift bytes lines := by
  simp only [skipGap, advance_shift]
  rfl

/-- What is read does not depend on where the text starts. -/
theorem next_shift (l : Lexer) :
    (l.shift bytes lines).next = (l.next.1.shift bytes lines, l.next.2.shift bytes lines) := by
  have hskip := skipGap_shift bytes lines l
  have hbreak : (l.shift bytes lines).breakOff = l.breakOff.shift bytes lines := by
    simp only [breakOff, advance_shift]
    rfl
  refine next_alike (P := fun p q => q = (p.1.shift bytes lines, p.2.shift bytes lines)) rfl ?_ ?_ ?_ ?_ ?_
  · rw [hbreak, position_shift]
    rfl
  · rw [hskip]
    rfl
  · intro kind n
    simp only [hskip, take, advance_shift, position_shift, Pull.shift, Token.shift]
    rfl
  · intro c
    simp only [hskip, position_shift, Pull.shift]
  · intro f
    simp only [hskip, fail, advance_shift, position_shift, Pull.shift]

theorem pulls_shift (l : Lexer) (n : Nat) :
    (l.shift bytes lines).pulls n =
      ((l.pulls n).1.map (Token.shift bytes lines), (l.pulls n).2.map (Pull.shift bytes lines)) := by
  induction n generalizing l with
  | zero => rfl
  | succ n ih =>
    rw [pulls, pulls, next_shift]
    rcases l.next with ⟨t | _ | e, m⟩
    · simp only [Pull.shift, ih, List.map_cons]
    · rfl
    · rfl

end Lexer

end Shift

namespace Lexer

/-- A gap before a text counts for the next token only. -/
theorem next_afterGap (l : Lexer) : { l with spaced := true }.next.1 = l.next.1.afterGap ∧
    ∀ t, l.next.1 = .token t → { l with spaced := true }.next.2 = l.next.2 := by
  have hskip : { l with spaced := true }.skipGap = { l.skipGap with spaced := true } := by simp [skipGap, advance]
  refine next_alike (P := fun p q => q.1 = p.1.afterGap ∧ ∀ t, p.1 = .token t → q.2 = p.2) rfl ?_ ?_ ?_ ?_ ?_
  · exact ⟨rfl, fun t h => by cases h⟩
  · exact ⟨rfl, fun t h => by cases h⟩
  · intro kind n
    rw [hskip]
    exact ⟨rfl, fun _ _ => rfl⟩
  · intro c
    rw [hskip]
    exact ⟨rfl, fun t h => by cases h⟩
  · intro f
    rw [hskip]
    exact ⟨rfl, fun t h => by cases h⟩

private theorem pulls_afterGap (l : Lexer) (n : Nat) :
    { l with spaced := true }.pulls n = ((l.pulls n).1.modifyHead Token.afterGap, (l.pulls n).2) := by
  cases n with
  | zero => rfl
  | succ n =>
    obtain ⟨hpull, hbehind⟩ := l.next_afterGap
    rw [pulls, pulls]
    generalize { l with spaced := true }.next = gapped at hpull hbehind ⊢
    generalize l.next = plain at hpull hbehind ⊢
    obtain ⟨pull, m'⟩ := gapped
    rcases plain with ⟨t | _ | e, m⟩ <;> cases hpull
    · cases hbehind t rfl
      rfl
    · rfl
    · rfl

/-- Behind a whole text and a line end the lexer stands like one at the start of a text, but further on. -/
theorem atLine_ofText {a : Text} {filename : Option Text} (h : (ofText a filename).Yields ts m)
    (hnil : m.skipGap.rest = []) (b : Text) :
    m.atLine b.toList =
      { (ofText b filename).shift (a.utf8ByteSize + 1) (a.toList.count (.char '\n') + 1) with spaced := true } := by
  obtain ⟨n, hrest, hmark⟩ := h.follows
  have hwhole : m.mark.advance (m.rest ++ [.char '\n']) = ({} : Mark).advance (a.toList ++ [.char '\n']) := by
    rw [hmark, hrest, ← Mark.advance_append, ← List.append_assoc, List.take_append_drop]
    rfl
  have hchar : ∀ c ∈ a.toList ++ [.char '\n'], c.isChar = true :=
    List.forall_mem_append.2 ⟨h.isChar ⟨List.forall_mem_nil _, rfl, rfl⟩ hnil, List.forall_mem_singleton.2 rfl⟩
  have hsize : (Text.ofList (a.toList ++ [.char '\n'])).utf8ByteSize = a.utf8ByteSize + 1 := by
    simp only [Text.utf8ByteSize, Text.string, Text.chars_append, String.ofList_append, String.utf8ByteSize_append]
    rfl
  unfold atLine
  rw [hwhole, Mark.advance_eq hchar, hsize, h.filename_eq]
  simp [ofText, shift, Mark.shift, Nat.add_comm]

end Lexer

/-- Lexing goes line by line.  If a text ends well, and a line end and another text stand behind it, its tokens come
first, and then those of the other text, further on by the bytes and the line ends before them.  The first of these is
spaced.  What comes behind them, be it the end or an error, is what comes in the other text. -/
theorem lexing_lines {a : Text} {filename : Option Text} {k : Nat} {ts : List Token}
    (h : (Lexer.ofText a filename).pulls k = (ts, some .finished)) (b : Text) (n : Nat) :
    let bytes := a.utf8ByteSize + 1
    let lines := a.toList.count (.char '\n') + 1
    let other := (Lexer.ofText b filename).pulls n
    (Lexer.ofText (a ++ "\n" ++ b) filename).pulls (ts.length + n) =
      (ts ++ (other.1.map (Token.shift bytes lines)).modifyHead Token.afterGap, other.2.map (Pull.shift bytes lines)) := by
  obtain ⟨m, hyields, hnil⟩ := Lexer.exists_yields_of_pulls h
  have hjoined : Lexer.ofText (a ++ "\n" ++ b) filename =
      (Lexer.ofText a filename).followedBy (.char '\n' :: b.toList) := by
    simp [Lexer.ofText, Lexer.followedBy]
  intro bytes lines other
  rw [hjoined, (hyields.followedBy (by decide) b.toList).pulls_eq, Lexer.pulls_line hnil,
    Lexer.atLine_ofText hyields hnil b, Lexer.pulls_afterGap, Lexer.pulls_shift]

/-- The first text ends inside a comment, with a number that has a point behind it, and an error is in the second one. -/
theorem lexing_lines_comment :
    let a : Text := "é 1.% c"
    let b : Text := "\n5e \"\\xz\""
    let ts : List Token := [⟨.atom, "é", ⟨none, 0, 1, 1⟩, false⟩, ⟨.integer, "1", ⟨none, 3, 1, 3⟩, true⟩,
      ⟨.punctuator, ".", ⟨none, 4, 1, 4⟩, false⟩]
    let us : List Token := [⟨.integer, "5", ⟨none, 10, 3, 1⟩, true⟩, ⟨.atom, "e", ⟨none, 11, 3, 2⟩, false⟩]
    (Lexer.ofText a).pulls 4 = (ts, some .finished) ∧
      (Lexer.ofText (a ++ "\n" ++ b)).pulls (3 + 3) =
        (ts ++ us, some (.failed ⟨.missingHexDigits, ⟨none, 14, 3, 5⟩⟩)) := by
  intro a b ts us
  have ha : (Lexer.ofText a).pulls 4 = (ts, some .finished) := by decide +kernel
  have hb : (((Lexer.ofText b).pulls 3).1.map (Token.shift 9 1)).modifyHead Token.afterGap = us := by decide +kernel
  have hend : ((Lexer.ofText b).pulls 3).2.map (Pull.shift 9 1) =
      some (.failed ⟨.missingHexDigits, ⟨none, 14, 3, 5⟩⟩) := by
    decide +kernel
  have hbytes : a.utf8ByteSize + 1 = 9 := by decide +kernel
  have hcount : a.toList.count (.char '\n') + 1 = 1 := by decide +kernel
  have hlines := lexing_lines ha b 3
  dsimp only at hlines
  rw [hbytes, hcount, hb, hend] at hlines
  exact ⟨ha, hlines⟩

end ErlangMacros
