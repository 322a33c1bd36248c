import ErlangMacros.Proofs.Lexer.Layout
import ErlangMacros.Proofs.Token.Lexeme
import ErlangMacros.Token.Spelling

/-!
# Reading printed tokens again

Tokens are printed by `respell` with at most one blank before each of them.  They are read again as they are if and only
if each one is a lexeme of its kind that does not run on into what is printed behind it (`relexes_iff`), and then they
are printed again as they were.  A token that is read alone has nothing to run on into, so it only has to be a lexeme
(`lexes_alone_iff`).

The tokens of a text that ends well are such (`Layout.separates`).  A longer lexeme at the place of one of them would
have no blanks where it goes on, so that it would stand in the text as well.
-/

namespace ErlangMacros

/-! ### Gaps before a lexeme -/

namespace Scan

/-- A comment goes on to the end of its line. -/
theorem gap_comment {body : List CodePoint} (cs : List CodePoint) (h : ∀ c ∈ body, c ≠ '\n')
    (hbody : ∀ c ∈ body, c.isChar = true) :
    gap true (body ++ cs) = body.length + gap true cs ∧ breaksOff true (body ++ cs) = breaksOff true cs := by
  induction body with
  | nil => simp
  | cons c body ih =>
    obtain ⟨hc, hline⟩ := List.forall_mem_cons.1 h
    obtain ⟨hchar, hbody⟩ := List.forall_mem_cons.1 hbody
    obtain ⟨hgap, hbreaks⟩ := ih hline hbody
    rw [List.cons_append, gap, breaksOff, if_pos rfl, if_pos rfl, if_pos hchar, if_pos hchar, decide_eq_true hc, hgap,
      hbreaks, List.length_cons]
    exact ⟨by omega, rfl⟩

/-- At the end of its line a comment is followed by a gap. -/
theorem gap_of_newline {cs : List CodePoint} (h : ∀ c ∈ cs.head?, c = '\n') :
    gap true cs = gap false cs ∧ breaksOff true cs = breaksOff false cs := by
  cases cs with
  | nil => exact ⟨rfl, rfl⟩
  | cons c cs =>
    obtain rfl : c = '\n' := h c rfl
    exact ⟨rfl, rfl⟩

end Scan

/-- A text goes on with neither a blank nor a comment. -/
def StartsNoGap (cs : List CodePoint) : Prop :=
  ∀ c ∈ cs.head?, Text.isBlank c = false ∧ c ≠ '%'

theorem StartsNoGap.gap_eq {cs : List CodePoint} (h : StartsNoGap cs) : Scan.gap false cs = 0 := by
  cases cs with
  | nil => rfl
  | cons c cs =>
    obtain ⟨hblank, hmark⟩ := h c rfl
    simp [Scan.gap, hblank, hmark]

private theorem StartsNoGap.breaksOff_eq {cs : List CodePoint} (h : StartsNoGap cs) :
    Scan.breaksOff false cs = false := by
  cases cs with
  | nil => rfl
  | cons c cs =>
    obtain ⟨hblank, hmark⟩ := h c rfl
    simp [Scan.breaksOff, hblank, hmark]

/-- Behind a gap that has been skipped no other one starts. -/
theorem startsNoGap_drop_gap (comment : Bool) (cs : List CodePoint) : StartsNoGap (cs.drop (Scan.gap comment cs)) := by
  induction cs generalizing comment with
  | nil => simp [StartsNoGap]
  | cons c cs ih =>
    rw [Scan.gap]
    split
    · split
      · exact ih _
      · next hchar =>
        -- a surrogate is neither a blank nor does it start a comment
        obtain ⟨n, rfl⟩ := CodePoint.isChar_eq_false_iff.1 (by simpa using hchar)
        rintro d ⟨⟩
        refine ⟨?_, by simp⟩
        rw [Bool.eq_false_iff]
        intro hblank
        cases Text.isChar_of_isBlank hblank
    split
    · exact ih _
    split
    · exact ih _
    · next hblank hmark =>
      intro d hd
      cases hd
      exact ⟨by simpa using hblank, hmark⟩

/-- A gap is skipped as a whole. -/
theorem IsGap.gap_eq {gap after : List CodePoint} (h : IsGap gap after) (hafter : StartsNoGap after) :
    Scan.gap false (gap ++ after) = gap.length ∧ Scan.breaksOff false (gap ++ after) = false := by
  induction h with
  | nil => exact ⟨hafter.gap_eq, hafter.breaksOff_eq⟩
  | @blank c gap _ hc _ ih =>
    obtain ⟨hgap, hbreaks⟩ := ih hafter
    rw [List.cons_append, Scan.gap, Scan.breaksOff, if_neg Bool.false_ne_true, if_neg Bool.false_ne_true, if_pos hc,
      if_pos hc, hgap, hbreaks, List.length_cons]
    exact ⟨rfl, rfl⟩
  | @comment body gap _ hline hbody hends _ ih =>
    obtain ⟨hgap, hbreaks⟩ := ih hafter
    obtain ⟨hcomment, hunbroken⟩ := Scan.gap_comment (gap ++ _) hline hbody
    obtain ⟨hnewline, hsame⟩ := Scan.gap_of_newline hends
    have hmark : Text.isBlank '%' = false := by decide
    rw [List.cons_append, List.append_assoc, Scan.gap, Scan.breaksOff, if_neg Bool.false_ne_true,
      if_neg Bool.false_ne_true, hmark, if_neg Bool.false_ne_true, if_neg Bool.false_ne_true, if_pos rfl, if_pos rfl,
      hcomment, hunbroken, hnewline, hsame, hgap, hbreaks, List.length_cons, List.length_append]
    exact ⟨rfl, rfl⟩

theorem Scan.IsLexeme.startsNoGap {kind : Kind} {cs : List CodePoint} (h : IsLexeme kind cs) (ds : List CodePoint) :
    StartsNoGap (cs ++ ds) := by
  obtain ⟨c, rest, rfl, hc⟩ := h.head
  intro d hd
  cases hd
  exact hc

namespace Lexer

variable {l : Lexer} {kind : Kind} {n : Nat}

/-! ### Reading a lexeme -/

/-- A comment is not broken off if something else than a surrogate stands behind what is skipped. -/
theorem unbroken_of_head? (h : ∀ s, l.skipGap.rest.head? ≠ some (.surrogate s)) :
    Scan.breaksOff false l.rest = false := by
  rw [Bool.eq_false_iff]
  intro hbreaks
  obtain ⟨s, after, hrest⟩ := exists_surrogate_of_breaksOff hbreaks
  refine h s ?_
  change (l.rest.drop (Scan.gap false l.rest)).head? = _
  rw [hrest, List.head?_cons]

/-- A comment is not broken off before a lexeme. -/
theorem unbroken_of_lexeme (h : Scan.lexeme l.skipGap.rest ≠ .ok none) : Scan.breaksOff false l.rest = false := by
  refine unbroken_of_head? fun s hs => h ?_
  obtain ⟨cs, hrest⟩ := List.head?_eq_some_iff.1 hs
  rw [hrest, Scan.lexeme_surrogate]

theorem next_of_nil (h : l.skipGap.rest = []) : l.next = (.finished, l.skipGap) := by
  rw [next_of_unbroken (unbroken_of_head? (by simp [h])), pull, h]

theorem next_of_lexeme (found : Scan.lexeme l.skipGap.rest = .ok (some (kind, n))) :
    l.next = (.token (l.skipGap.take kind n).1, { l.skipGap.advance n with spaced := false }) := by
  rw [next_of_unbroken (unbroken_of_lexeme (by simp [found])), pull]
  split
  · next hrest =>
    rw [hrest] at found
    cases found
  · rw [token?_eq, found]

theorem next_of_illegal {c : CodePoint} (hunbroken : Scan.breaksOff false l.rest = false)
    (hc : c ∈ l.skipGap.rest.head?) (h : Scan.lexeme l.skipGap.rest = .ok none) :
    l.next = (.failed ⟨.illegalCharacter c, l.skipGap.position⟩, l.skipGap) := by
  obtain ⟨cs, hrest⟩ := List.head?_eq_some_iff.1 hc
  have hnone : l.skipGap.token? = (.ok none, l.skipGap) := by rw [token?_eq, h]
  rw [next_of_unbroken hunbroken, pull, hnone, hrest]

theorem next_of_fault {f : Scan.Fault} (hne : l.skipGap.rest ≠ []) (h : Scan.lexeme l.skipGap.rest = .error f) :
    l.next = (.failed (l.skipGap.fail f).1, (l.skipGap.fail f).2) := by
  obtain ⟨c, cs, hrest⟩ := List.exists_cons_of_ne_nil hne
  have herror : l.skipGap.token? = (.error (l.skipGap.fail f).1, (l.skipGap.fail f).2) := by rw [token?_eq, h]
  rw [next_of_unbroken (unbroken_of_lexeme (by simp [h])), pull, herror, hrest]

theorem offset_lt_of_lexeme (found : Scan.lexeme l.skipGap.rest = .ok (some (kind, n)))
    (hn : 0 < n) : l.mark.offset < (l.skipGap.advance n).mark.offset := by
  have hne : l.skipGap.rest.take n ≠ [] := by
    have hle := Scan.le_length_of_lexeme found
    exact List.ne_nil_of_length_pos (by rw [List.length_take]; omega)
  obtain ⟨c, cs, hcs⟩ := List.exists_cons_of_ne_nil hne
  have hc : c.isChar = true := Scan.isChar_of_lexeme found c (hcs ▸ List.mem_cons_self)
  have hgap : l.mark.offset ≤ l.skipGap.mark.offset := Mark.offset_le_advance _ _
  refine Nat.lt_of_le_of_lt hgap ?_
  change l.skipGap.mark.offset < (l.skipGap.mark.advance (l.skipGap.rest.take n)).offset
  rw [hcs]
  exact Mark.offset_lt_advance _ hc

theorem tokenize_of_lexeme (found : Scan.lexeme l.skipGap.rest = .ok (some (kind, n))) (hn : 0 < n) :
    l.tokenize = (tokenize { l.skipGap.advance n with spaced := false }).cons (l.skipGap.take kind n).1 := by
  rw [tokenize_token (next_of_lexeme found), if_pos (offset_lt_of_lexeme found hn)]

theorem skipGap_eq_self (h : Scan.gap false l.rest = 0) : l.skipGap = l := by
  simp [skipGap, advance, h]

/-- A lexeme that is empty comes again for ever. -/
theorem repeats_of_lexeme (found : Scan.lexeme l.skipGap.rest = .ok (some (kind, 0))) :
    l.tokenize.ending.repeats = true := by
  have hstill {l : Lexer} (hgap : Scan.gap false l.rest = 0) (found : Scan.lexeme l.rest = .ok (some (kind, 0))) :
      l.tokenize.ending.repeats = true := by
    have hskip : l.skipGap = l := skipGap_eq_self hgap
    have found' : Scan.lexeme l.skipGap.rest = .ok (some (kind, 0)) := by rwa [hskip]
    rw [tokenize_token (next_of_lexeme found'), if_neg (by simp [hskip, advance])]
    rfl
  rw [tokenize_token (next_of_lexeme found)]
  split
  · exact hstill (startsNoGap_drop_gap false l.rest).gap_eq found
  · rfl

/-- The tokens of a text that does not go on for ever are lexemes. -/
theorem isLexeme_of_mem_tokenize (h : l.tokenize.ending.repeats = false) :
    ∀ t ∈ l.tokenize.tokens, Scan.IsLexeme t.kind t.text.toList := by
  induction l using tokenize.induct with
  | case1 l l' _ hnext =>
    rw [tokenize_finished hnext]
    exact List.forall_mem_nil _
  | case2 l e l' _ hnext =>
    rw [tokenize_failed hnext]
    exact List.forall_mem_nil _
  | case3 l t l' _ hnext hmoved _ ih =>
    have hreads := l.reads_next
    rw [hnext] at hreads
    have hcons := tokenize_token hnext
    rw [if_pos hmoved] at hcons
    rw [hcons] at h
    cases hreads with
    | @token kind n _ found =>
      have hn : 0 < n := by
        refine Nat.pos_of_ne_zero fun hzero => ?_
        subst hzero
        have hrepeats := repeats_of_lexeme found
        rw [hcons] at hrepeats
        exact Bool.false_ne_true (h.symm.trans hrepeats)
      rw [hcons]
      refine List.forall_mem_cons.2 ⟨?_, ih h⟩
      have htext : (l.skipGap.take kind n).1.text.toList = l.skipGap.rest.take n := rfl
      rw [htext]
      exact (Scan.isLexeme_of_lexeme found hn).2
  | case4 l t l' _ hnext hstill =>
    rw [tokenize_token hnext, if_neg hstill]
    exact List.forall_mem_nil _

/-- The lexing of an ASCII text comes to an end. -/
theorem repeats_eq_false_of_ascii (h : ∀ c ∈ l.rest, c.toNat < 128) : l.tokenize.ending.repeats = false := by
  induction l using tokenize.induct with
  | case1 l l' _ hnext =>
    rw [tokenize_finished hnext]
    rfl
  | case2 l e l' _ hnext =>
    rw [tokenize_failed hnext]
    rfl
  | case3 l t l' _ hnext hmoved _ ih =>
    have hreads := l.reads_next
    rw [hnext] at hreads
    rw [tokenize_token hnext, if_pos hmoved]
    cases hreads with
    | token =>
      refine ih fun c hc => h c ?_
      exact List.mem_of_mem_drop (List.mem_of_mem_drop hc)
  | case4 l t l' _ hnext hstill =>
    have hreads := l.reads_next
    rw [hnext] at hreads
    cases hreads with
    | @token kind n _ found =>
      refine absurd (offset_lt_of_lexeme found ?_) hstill
      obtain ⟨c, cs, hrest⟩ : ∃ c cs, l.skipGap.rest = c :: cs := by
        refine List.exists_cons_of_ne_nil fun hnil => ?_
        rw [hnil] at found
        cases found
      have hc : c ∈ l.skipGap.rest := by
        rw [hrest]
        exact List.mem_cons_self ..
      rw [hrest] at found
      exact Scan.pos_of_lexeme (Text.isNameless_of_ascii (h c (List.mem_of_mem_drop hc))) found

end Lexer

/-! ### Printed tokens -/

/-- What is printed behind a token. -/
def printedAfter (previous : Token) : List Token → List CodePoint
  | [] => ['\n']
  | t :: ts => (separator previous t).toList ++ (t.text.toList ++ printedAfter t ts)

private theorem toList_join_piecesAfter (previous : Token) (ts : List Token) :
    (Text.join (piecesAfter previous ts)).toList = printedAfter previous ts := by
  induction ts generalizing previous with
  | nil => simp [piecesAfter, printedAfter]
  | cons t ts ih => simp [piecesAfter, printedAfter, ← ih]

private theorem toList_respell_cons (t : Token) (ts : List Token) :
    (respell (t :: ts)).toList = t.text.toList ++ printedAfter t ts := by
  simp [respell, ← toList_join_piecesAfter]

/-- Each token is a lexeme of its kind and does not run on into what is printed behind it. -/
def Separates : List Token → Prop
  | [] => True
  | t :: ts => Scan.IsLexeme t.kind t.text.toList ∧ ¬ Scan.RunsOn t.text.toList (printedAfter t ts) ∧ Separates ts

private theorem isBlank_of_mem_separator (previous t : Token) :
    ∀ c ∈ (separator previous t).toList, Text.isBlank c = true := by
  refine List.all_eq_true.1 ?_
  unfold separator
  split
  · decide
  split
  · decide
  · decide

theorem isGap_of_isBlank {gap : List CodePoint} (h : ∀ c ∈ gap, Text.isBlank c = true) (after : List CodePoint) :
    IsGap gap after := by
  induction gap with
  | nil => exact .nil after
  | cons c gap ih =>
    obtain ⟨hc, hgap⟩ := List.forall_mem_cons.1 h
    exact .blank hc (ih hgap)

namespace Lexer

variable {l : Lexer} {gap cs : List CodePoint} {t : Token} {ts : List Token}

/-- Behind a gap the lexer finds what stands there. -/
theorem rest_skipGap (hl : l.rest = gap ++ cs) (hgap : ∀ c ∈ gap, Text.isBlank c = true) (hcs : StartsNoGap cs) :
    l.skipGap.rest = cs ∧ l.skipGap.spaced = (l.spaced || decide (gap ≠ [])) := by
  have hlength : Scan.gap false l.rest = gap.length := by
    rw [hl]
    exact ((isGap_of_isBlank hgap cs).gap_eq hcs).1
  constructor
  · change l.rest.drop (Scan.gap false l.rest) = cs
    rw [hlength, hl, List.drop_left]
  · change (l.spaced || decide (0 < Scan.gap false l.rest)) = _
    rw [hlength]
    congr 2
    rw [List.length_pos_iff]

theorem tokenize_blank (h : ∀ c ∈ l.rest, Text.isBlank c = true) :
    l.tokenize.tokens = [] ∧ l.tokenize.ending = .finished := by
  have hrest : l.skipGap.rest = [] := (rest_skipGap (List.append_nil _).symm h nofun).1
  rw [tokenize_finished (next_of_nil hrest)]
  exact ⟨rfl, rfl⟩

/-- A token that does not run on is read as it was printed. -/
theorem exists_tokenize_of_printed (hlexeme : Scan.IsLexeme t.kind t.text.toList) (hno : ¬ Scan.RunsOn t.text.toList cs)
    (hspaced : l.spaced = false) (hl : l.rest = gap ++ (t.text.toList ++ cs))
    (hgap : ∀ c ∈ gap, Text.isBlank c = true) :
    ∃ (t' : Token) (l' : Lexer), l.tokenize = l'.tokenize.cons t' ∧ t'.lexeme = t.lexeme ∧
      t'.spaced = decide (gap ≠ []) ∧ l'.rest = cs ∧ l'.spaced = false := by
  obtain ⟨hrest, hmark⟩ := rest_skipGap hl hgap (hlexeme.startsNoGap cs)
  have found : Scan.lexeme l.skipGap.rest = .ok (some (t.kind, t.text.toList.length)) := by
    rw [hrest]
    exact (Scan.lexeme_append_eq_iff hlexeme.1).2 ⟨hlexeme, hno⟩
  refine ⟨_, _, tokenize_of_lexeme found (List.length_pos_iff.2 hlexeme.1), ?_, ?_, ?_, rfl⟩
  · change (t.kind, Text.ofList (l.skipGap.rest.take t.text.toList.length)) = (t.kind, t.text)
    rw [hrest, List.take_left, Text.ofList_toList]
  · change l.skipGap.spaced = _
    rw [hmark, hspaced, Bool.false_or]
  · change l.skipGap.rest.drop t.text.toList.length = cs
    rw [hrest, List.drop_left]

/-- Tokens that do not run on are read as they were printed, and are printed again as they were. -/
theorem tokenize_printed (hsep : Separates (t :: ts)) (hspaced : l.spaced = false)
    (hl : l.rest = gap ++ (t.text.toList ++ printedAfter t ts)) (hgap : ∀ c ∈ gap, Text.isBlank c = true) :
    l.tokenize.ending = .finished ∧ ∃ t' ts', l.tokenize.tokens = t' :: ts' ∧ t'.lexeme = t.lexeme ∧
      t'.spaced = decide (gap ≠ []) ∧ ts'.map Token.lexeme = ts.map Token.lexeme ∧
      printedAfter t' ts' = printedAfter t ts := by
  induction ts generalizing l gap t with
  | nil =>
    obtain ⟨t', l', hcons, hlexeme, hmark, hrest, -⟩ := exists_tokenize_of_printed hsep.1 hsep.2.1 hspaced hl hgap
    have hblank : ∀ c ∈ l'.rest, Text.isBlank c = true := by
      rw [hrest, printedAfter]
      exact List.forall_mem_singleton.2 (by decide)
    obtain ⟨htokens, hending⟩ := tokenize_blank hblank
    rw [hcons]
    exact ⟨hending, t', [], congrArg (t' :: ·) htokens, hlexeme, hmark, rfl, rfl⟩
  | cons u us ih =>
    obtain ⟨t', l', hcons, hlexeme, hmark, hrest, hspaced'⟩ :=
      exists_tokenize_of_printed hsep.1 hsep.2.1 hspaced hl hgap
    obtain ⟨hending, u', us', htokens, hlexeme', hmark', hlexemes, hprinted⟩ :=
      ih hsep.2.2 hspaced' hrest (isBlank_of_mem_separator t u)
    rw [hcons]
    refine ⟨hending, t', u' :: us', congrArg (t' :: ·) htokens, hlexeme, hmark, ?_, ?_⟩
    · rw [List.map_cons, List.map_cons, hlexeme', hlexemes]
    · have hseparator : separator t' u' = separator t u := by
        unfold separator at hmark' ⊢
        rw [Token.isSymbol_congr hlexeme]
        split
        · rfl
        · next hstop =>
          rw [if_neg hstop] at hmark'
          have hsame : u'.spaced = u.spaced := by
            rw [hmark']
            cases u.spaced <;> decide
          rw [hsame]
      have htext : u'.text = u.text := congrArg Prod.snd hlexeme'
      rw [printedAfter, printedAfter, hseparator, htext, hprinted]

/-- A token that is read as it was printed does not run on. -/
theorem isLexeme_of_tokenize {lexemes : List (Kind × Text)} (hl : l.rest = gap ++ (t.text.toList ++ cs))
    (hgap : ∀ c ∈ gap, Text.isBlank c = true) (hending : l.tokenize.ending = .finished)
    (hlexemes : l.tokenize.tokens.map Token.lexeme = t.lexeme :: lexemes) :
    (Scan.IsLexeme t.kind t.text.toList ∧ ¬ Scan.RunsOn t.text.toList cs) ∧
      ∃ l' : Lexer, l'.rest = cs ∧ l'.tokenize.ending = .finished ∧ l'.tokenize.tokens.map Token.lexeme = lexemes := by
  have hall := isLexeme_of_mem_tokenize (l := l) (by rw [hending]; rfl)
  have hreads := l.reads_next
  rcases hnext : l.next with ⟨t' | _ | e, l'⟩
  · rw [tokenize_token hnext] at hending hlexemes hall
    rw [hnext] at hreads
    split at hlexemes
    · next hmoved =>
      rw [if_pos hmoved] at hending hall
      obtain ⟨hhead, htail⟩ := List.cons_eq_cons.1 hlexemes
      obtain ⟨hkind, htext⟩ := Prod.mk.inj hhead
      have hlexeme : Scan.IsLexeme t.kind t.text.toList := by
        rw [← hkind, ← htext]
        exact hall t' (List.mem_cons_self ..)
      obtain ⟨hrest, -⟩ := rest_skipGap hl hgap (hlexeme.startsNoGap cs)
      cases hreads with
      | @token kind n _ found =>
        rw [hrest] at found
        -- the token is as long as the one that was printed
        have htake : (t.text.toList ++ cs).take n = t.text.toList := by
          rw [← hrest, ← htext]
          rfl
        obtain rfl : n = t.text.toList.length := by
          rw [← List.length_take_of_le (Scan.le_length_of_lexeme found), htake]
        obtain rfl : kind = t.kind := hkind
        refine ⟨(Scan.lexeme_append_eq_iff hlexeme.1).1 found, _, ?_, hending, htail⟩
        change l.skipGap.rest.drop t.text.toList.length = cs
        rw [hrest, List.drop_left]
    · cases hlexemes
  · rw [tokenize_finished hnext] at hlexemes
    cases hlexemes
  · rw [tokenize_failed hnext] at hlexemes
    cases hlexemes

/-- Only tokens that do not run on are read as they were printed. -/
theorem separates_of_tokenize (hl : l.rest = gap ++ (t.text.toList ++ printedAfter t ts))
    (hgap : ∀ c ∈ gap, Text.isBlank c = true) (hending : l.tokenize.ending = .finished)
    (hlexemes : l.tokenize.tokens.map Token.lexeme = (t :: ts).map Token.lexeme) : Separates (t :: ts) := by
  induction ts generalizing l gap t with
  | nil =>
    obtain ⟨⟨hlexeme, hno⟩, -⟩ := isLexeme_of_tokenize hl hgap hending hlexemes
    exact ⟨hlexeme, hno, trivial⟩
  | cons u us ih =>
    obtain ⟨⟨hlexeme, hno⟩, l', hrest, hending', hlexemes'⟩ := isLexeme_of_tokenize hl hgap hending hlexemes
    exact ⟨hlexeme, hno, ih hrest (isBlank_of_mem_separator t u) hending' hlexemes'⟩

end Lexer

/-- Tokens that do not run on are read as they were printed, and are printed again as they were. -/
theorem relex_of_separates {ts : List Token} (h : Separates ts) (filename : Option Text) :
    (Lexing.ofText (respell ts) filename).ending = .finished ∧
      (Lexing.ofText (respell ts) filename).tokens.map Token.lexeme = ts.map Token.lexeme ∧
      respell (Lexing.ofText (respell ts) filename).tokens = respell ts := by
  cases ts with
  | nil =>
    obtain ⟨htokens, hending⟩ := (Lexer.ofText "" filename).tokenize_blank (by simp [Lexer.ofText])
    have hlexing : (Lexing.ofText (respell []) filename).tokens = [] := htokens
    rw [hlexing]
    exact ⟨hending, rfl, rfl⟩
  | cons t ts =>
    have hl : (Lexer.ofText (respell (t :: ts)) filename).rest = [] ++ (t.text.toList ++ printedAfter t ts) :=
      toList_respell_cons t ts
    obtain ⟨hending, t', ts', htokens, hlexeme, -, hlexemes, hprinted⟩ := Lexer.tokenize_printed h rfl hl nofun
    have hlexing : (Lexing.ofText (respell (t :: ts)) filename).tokens = t' :: ts' := htokens
    have htext : t'.text = t.text := congrArg Prod.snd hlexeme
    rw [hlexing]
    refine ⟨hending, by rw [List.map_cons, List.map_cons, hlexeme, hlexemes], Text.toList_inj.1 ?_⟩
    rw [toList_respell_cons, toList_respell_cons, htext, hprinted]

/-- Tokens are read as they were printed if and only if each one is a lexeme and does not run on into what is printed
behind it. -/
theorem relexes_iff (ts : List Token) (filename : Option Text) :
    (Lexing.ofText (respell ts) filename).ending = .finished ∧
      (Lexing.ofText (respell ts) filename).tokens.map Token.lexeme = ts.map Token.lexeme ↔ Separates ts := by
  constructor
  · rintro ⟨hending, hlexemes⟩
    cases ts with
    | nil => exact trivial
    | cons t ts =>
      have hl : (Lexer.ofText (respell (t :: ts)) filename).rest = [] ++ (t.text.toList ++ printedAfter t ts) :=
        toList_respell_cons t ts
      exact Lexer.separates_of_tokenize hl nofun hending hlexemes
  · intro h
    obtain ⟨hending, hlexemes, -⟩ := relex_of_separates h filename
    exact ⟨hending, hlexemes⟩

/-- A token is read alone as it was if and only if it is a lexeme of its kind. -/
theorem lexes_alone_iff (t : Token) (filename : Option Text) :
    (Lexing.ofText t.text filename).ending = .finished ∧
      (Lexing.ofText t.text filename).tokens.map Token.lexeme = [t.lexeme] ↔ Scan.IsLexeme t.kind t.text.toList := by
  have hl : (Lexer.ofText t.text filename).rest = [] ++ (t.text.toList ++ []) := (List.append_nil _).symm
  constructor
  · rintro ⟨hending, hlexemes⟩
    exact (Lexer.isLexeme_of_tokenize hl (List.forall_mem_nil _) hending hlexemes).1.1
  · intro hlexeme
    have hno : ¬ Scan.RunsOn t.text.toList [] := by
      rintro ⟨es, hes, hprefix, -⟩
      exact hes (List.prefix_nil.1 hprefix)
    obtain ⟨t', l', hcons, hsame, -, hrest, -⟩ :=
      Lexer.exists_tokenize_of_printed hlexeme hno rfl hl (List.forall_mem_nil _)
    obtain ⟨htokens, hending⟩ := l'.tokenize_blank (by rw [hrest]; exact List.forall_mem_nil _)
    have hlexing : Lexing.ofText t.text filename = l'.tokenize.cons t' := hcons
    rw [hlexing]
    refine ⟨hending, ?_⟩
    change (t' :: l'.tokenize.tokens).map Token.lexeme = _
    rw [htokens, List.map_singleton, hsame]

/-! ### The tokens of a text -/

/-- A part of what is printed behind a token has stood behind it before, if there is no blank in it. -/
theorem Layout.prefix_of_printed {filename : Option Text} {before cs before' rest es : List CodePoint} {t : Token}
    {ts : List Token} (h : Layout filename before cs ts before' rest) (hes : es <+: printedAfter t ts)
    (hblank : ∀ c ∈ es, Text.isBlank c = false) : es <+: cs := by
  induction h generalizing es t with
  | nil before cs =>
    rcases List.prefix_cons_iff.1 hes with rfl | ⟨es, rfl, -⟩
    · exact List.nil_prefix
    · exact absurd (hblank '\n' (List.mem_cons_self ..)) (by decide)
  | @cons before gap cs before' rest u us hgap hspaced _ _ _ ih =>
    rw [printedAfter] at hes
    rcases hseparator : (separator t u).toList with _ | ⟨c, _⟩
    · -- without a separator there was no gap either
      have hnone : gap = [] := by
        by_contra hne
        unfold separator at hseparator
        rw [hspaced.2 hne] at hseparator
        split at hseparator <;> cases hseparator
      rw [hseparator, List.nil_append] at hes
      rw [hnone, List.nil_append]
      rcases List.prefix_or_prefix_of_prefix hes (List.prefix_append _ _) with hinside | ⟨es, rfl⟩
      · exact hinside.trans (List.prefix_append _ _)
      · have hmore := (List.prefix_append_right_inj _).1 hes
        exact (List.prefix_append_right_inj _).2 (ih hmore fun c hc => hblank c (List.mem_append_right _ hc))
    · rw [hseparator] at hes
      rcases List.prefix_cons_iff.1 hes with rfl | ⟨es, rfl, -⟩
      · exact List.nil_prefix
      · have hc := isBlank_of_mem_separator t u c (by rw [hseparator]; exact List.mem_cons_self ..)
        rw [hblank c (List.mem_cons_self ..)] at hc
        cases hc

theorem Layout.separates {filename : Option Text} {before cs before' rest : List CodePoint} {ts : List Token}
    (h : Layout filename before cs ts before' rest) (hne : ∀ t ∈ ts, t.text.toList ≠ []) : Separates ts := by
  induction h with
  | nil => exact trivial
  | @cons _ _ cs _ _ t ts _ _ _ found htail ih =>
    obtain ⟨ht, hts⟩ := List.forall_mem_cons.1 hne
    obtain ⟨hlexeme, hno⟩ := (Scan.lexeme_append_eq_iff ht).1 found
    refine ⟨hlexeme, ?_, ih hts⟩
    rintro ⟨es, hes, hprinted, kind, hlonger⟩
    -- the longer lexeme has no blanks where it goes on, so that it stands in the text
    have hblank := hlexeme.isBlank_of_append hlonger
    exact hno ⟨es, hes, htail.prefix_of_printed hprinted hblank, kind, hlonger⟩

private theorem separates_lexing {text : Text} {filename : Option Text}
    (h : (Lexing.ofText text filename).ending.repeats = false) : Separates (Lexing.ofText text filename).tokens := by
  have hbehind : (Lexer.ofText text filename).StandsBehind [] := ⟨List.forall_mem_nil _, rfl, rfl⟩
  obtain ⟨before, rest, hlayout, -⟩ := Lexer.tokenize_layout hbehind
  exact hlayout.separates fun t ht => (Lexer.isLexeme_of_mem_tokenize h t ht).1

/-- The tokens of a text that ends well are printed as a text with the same tokens, which is printed as it is. -/
theorem relex_respell {text : Text} {filename : Option Text}
    (h : (Lexing.ofText text filename).ending = .finished) (filename' : Option Text) :
    let ts := (Lexing.ofText text filename).tokens
    let again := Lexing.ofText (respell ts) filename'
    again.ending = .finished ∧ again.tokens.map Token.lexeme = ts.map Token.lexeme ∧
      respell again.tokens = respell ts :=
  relex_of_separates (separates_lexing (by rw [h]; rfl)) filename'

/-- Full stops before digits, an octal escape before a digit and a comment. -/
theorem relex_respell_dots :
    let text := "a.1. 2.3.$\\178% e\n=:= =\n:=..."
    let ts := (Lexing.ofText text).tokens
    (Lexing.ofText text).ending = .finished ∧ respell ts = "a.\n1.\n2.3.\n$\\178 =:= = :=...\n" ∧
      (Lexing.ofText (respell ts)).ending = .finished ∧
      (Lexing.ofText (respell ts)).tokens.map Token.lexeme = ts.map Token.lexeme ∧
      respell (Lexing.ofText (respell ts)).tokens = respell ts := by
  intro text ts
  have hending : (Lexing.ofText text).ending = .finished := by decide +kernel
  exact ⟨hending, by decide +kernel, relex_respell hending none⟩

end ErlangMacros
