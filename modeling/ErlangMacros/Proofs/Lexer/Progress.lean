import ErlangMacros.Proofs.Lexer.Relexing

/-!
# Lexing moves forward

A token is empty if and only if it starts at a letter that does not stand in names (`Lexer.IsStuck`).  Any other token
has characters, and reading it makes the rest of the text shorter (`pull_of_not_isStuck`), so a text has no more tokens
than characters (`exists_pulls_of_not_isStuck`).  A lexer before such a letter gives the same empty token for ever
(`pulls_of_isNameless`).

A lexer does not get past a surrogate, since it moves by the bytes of characters.  A text with a surrogate ends with an
error there or before, and where the surrogate stands inside a token or a comment, this is no error of the text.
-/

namespace ErlangMacros

namespace Lexer

variable {l l' : Lexer} {t : Token} {ts : List Token}

/-- Pulling from a lexer gives tokens, and leaves another lexer behind them. -/
inductive Yields : Lexer → List Token → Lexer → Prop where
  | nil (l : Lexer) : Yields l [] l
  | cons {l m l' : Lexer} {t : Token} {ts : List Token} (next_eq : l.next = (.token t, m)) (tail : Yields m ts l') :
      Yields l (t :: ts) l'

/-- What is pulled behind tokens is pulled from the lexer that they leave. -/
theorem Yields.pulls_eq {m : Lexer} (h : l.Yields ts m) (n : Nat) :
    l.pulls (ts.length + n) = (ts ++ (m.pulls n).1, (m.pulls n).2) := by
  induction h with
  | nil => simp
  | @cons l _ _ t ts hnext _ ih =>
    rw [List.length_cons, Nat.add_right_comm, pulls, hnext]
    dsimp only
    rw [ih, List.cons_append]

theorem Yields.follows {m : Lexer} (h : l.Yields ts m) : m.Follows l := by
  induction h with
  | nil => exact Follows.refl _
  | @cons l _ _ _ _ hnext _ ih =>
    have hfollows := l.follows_next
    rw [hnext] at hfollows
    exact ih.trans hfollows

theorem Yields.filename_eq {m : Lexer} (h : l.Yields ts m) : m.filename = l.filename := by
  induction h with
  | nil => rfl
  | @cons l _ _ _ _ hnext _ ih =>
    have hreads := l.reads_next
    rw [hnext] at hreads
    cases hreads with
    | token => exact ih

/-- The next token starts at a letter that does not stand in names. -/
def IsStuck (l : Lexer) : Prop :=
  ∃ c ∈ l.skipGap.rest.head?, Text.isNameless c = true

private theorem IsStuck.exists_mem (h : l.IsStuck) : ∃ c ∈ l.rest, Text.isNameless c = true := by
  obtain ⟨c, hc, hnameless⟩ := h
  exact ⟨c, List.mem_of_mem_drop (List.mem_of_mem_head? hc), hnameless⟩

/-- A token that starts elsewhere is not empty, and less of the text is left behind it. -/
theorem pull_of_not_isStuck (h : l.next = (.token t, l')) (hfree : ¬ l.IsStuck) :
    t.text ≠ "" ∧ l'.rest.length < l.rest.length := by
  have hreads := l.reads_next
  rw [h] at hreads
  cases hreads with
  | @token kind n _ found =>
    have hlength := Scan.le_length_of_lexeme found
    have hpos : 0 < n := by
      rcases hrest : l.skipGap.rest with _ | ⟨c, cs⟩
      · rw [hrest] at found
        cases found
      · rw [hrest] at found
        refine Scan.pos_of_lexeme ?_ found
        rw [Bool.eq_false_iff]
        intro hc
        exact hfree ⟨c, by rw [hrest]; rfl, hc⟩
    constructor
    · intro hempty
      have htext : Text.ofList (l.skipGap.rest.take n) = "" := hempty
      have hsize : (l.skipGap.rest.take n).length = 0 := congrArg Text.length htext
      rw [List.length_take] at hsize
      omega
    · have hgap : l.skipGap.rest.length ≤ l.rest.length := by
        change (l.rest.drop _).length ≤ _
        rw [List.length_drop]
        omega
      change (l.skipGap.rest.drop n).length < l.rest.length
      rw [List.length_drop]
      omega

/-- A token is read behind characters. -/
theorem StandsBehind.next {before : List CodePoint} (h : l.StandsBehind before) (hnext : l.next = (.token t, l')) :
    ∃ between, (l'.StandsBehind (before ++ between)) ∧ l.rest = between ++ l'.rest ∧ l'.filename = l.filename := by
  have hreads := l.reads_next
  rw [hnext] at hreads
  cases hreads with
  | @token kind n _ found =>
    refine ⟨l.rest.take (Scan.gap false l.rest) ++ l.skipGap.rest.take n, ?_, ?_, rfl⟩
    · rw [← List.append_assoc]
      exact h.behind (Scan.isChar_of_lexeme found)
    · change l.rest = l.rest.take _ ++ l.skipGap.rest.take n ++ l.skipGap.rest.drop n
      rw [List.append_assoc, List.take_append_drop]
      exact (List.take_append_drop _ _).symm

/-- What is left when a lexer comes to its end are characters. -/
theorem isChar_of_finished (hnext : l.next = (.finished, l')) : ∀ c ∈ l.rest, c.isChar = true := by
  have hreads := l.reads_next
  rw [hnext] at hreads
  cases hreads with
  | finished _ hrest =>
    have hdrop : l.rest.drop (Scan.gap false l.rest) = [] := hrest
    have hgap := isChar_take_gap false l.rest
    rwa [List.take_of_length_le (List.drop_eq_nil_iff.1 hdrop)] at hgap

/-- Tokens come from a text until it ends, which it does only if it is made of characters, or until there is an error in
it, or until a surrogate is met inside a token or a comment. -/
inductive Ends (filename : Option Text) (cs : List CodePoint) : Option Pull → Prop where
  | finished (isChar : ∀ c ∈ cs, c.isChar = true) : Ends filename cs (some .finished)
  | failed {e : LexError} (isError : e.cause ≠ .unencodable) : Ends filename cs (some (.failed e))
  | broken {e : LexError} {front behind : List CodePoint} {n : Fin 0x800} (cause_eq : e.cause = .unencodable)
      (split : cs = front ++ .surrogate n :: behind) (isChar : ∀ c ∈ front, c.isChar = true)
      (position_eq : e.position = coordinates filename front) : Ends filename cs (some (.failed e))

private theorem StandsBehind.ends_failed {before : List CodePoint} {e : LexError} (h : l.StandsBehind before)
    (hnext : l.next = (.failed e, l')) : Ends l.filename (before ++ l.rest) (some (.failed e)) := by
  by_cases hcause : e.cause = .unencodable
  · cases h.endsAt hnext with
    | @failed _ between _ hchar hposition hsurrogate =>
      obtain ⟨n, after, hrest⟩ := hsurrogate hcause
      exact .broken hcause (by rw [hrest, List.append_assoc]) hchar hposition
  · exact .failed hcause

/-- If no token starts at a letter that does not stand in names, pulling comes to an end, and there are no more tokens
than characters. -/
theorem exists_pulls_of_not_isStuck {before : List CodePoint} (hl : l.StandsBehind before)
    (hfree : ∀ ts m, l.Yields ts m → ¬ m.IsStuck) {n : Nat} (hn : l.rest.length < n) :
    ∃ (ts : List Token) (last : Option Pull), ts.length ≤ l.rest.length ∧ l.pulls n = (ts, last) ∧
      Ends l.filename (before ++ l.rest) last := by
  induction n generalizing l before with
  | zero => omega
  | succ n ih =>
    rw [pulls]
    rcases hnext : l.next with ⟨t | _ | e, m⟩
    · obtain ⟨-, hshorter⟩ := pull_of_not_isStuck hnext (hfree [] l (.nil l))
      obtain ⟨between, hm, hrest, hfilename⟩ := hl.next hnext
      obtain ⟨ts, last, hlength, hpulls, hends⟩ :=
        ih hm (fun ts m' h => hfree (t :: ts) m' (.cons hnext h)) (by omega)
      refine ⟨t :: ts, last, by rw [List.length_cons]; omega, by simp only [hpulls], ?_⟩
      rw [hrest, ← List.append_assoc, ← hfilename]
      exact hends
    · exact ⟨[], _, Nat.zero_le _, rfl, .finished (List.forall_mem_append.2 ⟨hl.isChar, isChar_of_finished hnext⟩)⟩
    · exact ⟨[], _, Nat.zero_le _, rfl, hl.ends_failed hnext⟩

/-- The empty token that a lexer gives before a letter that does not stand in names. -/
def emptyToken (l : Lexer) (c : CodePoint) : Token :=
  ⟨if Text.isLower c then .atom else .var, "", l.skipGap.position, l.skipGap.spaced⟩

private theorem next_of_isNameless {c : CodePoint} (hc : c ∈ l.skipGap.rest.head?) (h : Text.isNameless c = true) :
    l.next = (.token (l.emptyToken c), { l.skipGap with spaced := false }) := by
  have found : Scan.lexeme l.skipGap.rest = .ok (some (if Text.isLower c then .atom else .var, 0)) := by
    obtain ⟨cs, hrest⟩ := List.head?_eq_some_iff.1 hc
    rw [hrest]
    exact Scan.lexeme_of_isNameless cs h
  exact next_of_lexeme found

private theorem skipGap_settled (l : Lexer) :
    { l.skipGap with spaced := false }.skipGap = { l.skipGap with spaced := false } :=
  skipGap_eq_self (startsNoGap_drop_gap false l.rest).gap_eq

/-- A lexer before a letter that does not stand in names gives an empty token for ever.  The first one may be spaced. -/
theorem pulls_of_isNameless {c : CodePoint} (hc : c ∈ l.skipGap.rest.head?) (h : Text.isNameless c = true) (n : Nat) :
    l.pulls (n + 1) = (l.emptyToken c :: List.replicate n { l.emptyToken c with spaced := false }, none) := by
  induction n generalizing l with
  | zero => simp only [pulls, next_of_isNameless hc h, List.replicate_zero]
  | succ n ih =>
    have hsettled := l.skipGap_settled
    have hagain : emptyToken { l.skipGap with spaced := false } c = { l.emptyToken c with spaced := false } := by
      rw [emptyToken, hsettled]
      rfl
    rw [pulls, next_of_isNameless hc h]
    dsimp only
    rw [ih (by rw [hsettled]; exact hc), hagain, List.replicate_succ]

end Lexer

/-- Lexing moves forward, unless a token starts at a letter of one of the cases that is not alphanumeric.  A token that
starts elsewhere is not empty, and less of the text is left behind it.  If every token does, pulling comes to an end
after no more tokens than characters: to the end of the text, to an error in it, or to the first surrogate of the text,
inside a token or a comment.  A token that starts at such a letter is an empty atom or variable, and so is every one that
is pulled later, at the same place. -/
theorem lexing_progress (text : Text) (filename : Option Text) :
    (∀ ts l t l', (Lexer.ofText text filename).Yields ts l → l.next = (.token t, l') → ¬ l.IsStuck →
        t.text ≠ "" ∧ l'.rest.length < l.rest.length) ∧
      ((∀ ts l, (Lexer.ofText text filename).Yields ts l → ¬ l.IsStuck) → ∀ n, text.length < n →
        ∃ (ts : List Token) (last : Option Pull), ts.length ≤ text.length ∧
          (Lexer.ofText text filename).pulls n = (ts, last) ∧ Lexer.Ends filename text.toList last) ∧
      ∀ ts l c, (Lexer.ofText text filename).Yields ts l → c ∈ l.skipGap.rest.head? → Text.isNameless c = true →
        ∀ n, (Lexer.ofText text filename).pulls (ts.length + (n + 1)) =
          (ts ++ l.emptyToken c :: List.replicate n { l.emptyToken c with spaced := false }, none) := by
  refine ⟨fun ts l t l' _ hnext hfree => Lexer.pull_of_not_isStuck hnext hfree, fun hfree n hn => ?_, ?_⟩
  · have hbehind : (Lexer.ofText text filename).StandsBehind [] := ⟨List.forall_mem_nil _, rfl, rfl⟩
    exact Lexer.exists_pulls_of_not_isStuck hbehind hfree hn
  · intro ts l c hyields hc hnameless n
    rw [hyields.pulls_eq, Lexer.pulls_of_isNameless hc hnameless]

/-- A circled letter behind a word and a blank, and a text in which there is none. -/
theorem lexing_progress_circled :
    let word : Token := ⟨.atom, "f", ⟨none, 0, 1, 1⟩, false⟩
    let circled (spaced : Bool) : Token := ⟨.atom, "", ⟨none, 2, 1, 3⟩, spaced⟩
    Text.isNameless 'ⓐ' = true ∧ word.text ≠ "" ∧
      (∀ n, (Lexer.ofText "f ⓐ").pulls (1 + (n + 1)) = (word :: circled true :: List.replicate n (circled false), none)) ∧
      ∃ (ts : List Token) (last : Option Pull), ts.length ≤ 5 ∧ (Lexer.ofText "f $\\x").pulls 6 = (ts, last) ∧
        Lexer.Ends none ("f $\\x" : Text).toList last := by
  intro word circled
  let behind : Lexer := { rest := [' ', 'ⓐ'], mark := ⟨1, 1, 2⟩ }
  have hnameless : Text.isNameless 'ⓐ' = true := by decide +kernel
  have hnext : (Lexer.ofText "f ⓐ").next = (.token word, behind) := by decide +kernel
  have hyields : (Lexer.ofText "f ⓐ").Yields [word] behind := .cons hnext (.nil _)
  have hhead : (Lexer.ofText "f ⓐ").skipGap.rest.head? = some (.char 'f') := by decide +kernel
  have hfree : ¬ (Lexer.ofText "f ⓐ").IsStuck := by
    rintro ⟨c, hc, h⟩
    rw [hhead] at hc
    cases hc
    exact absurd h (by decide +kernel)
  have hplain : ("f $\\x" : Text).toList.all (fun c => !Text.isNameless c) = true := by decide +kernel
  have hends : ∀ ts l, (Lexer.ofText "f $\\x").Yields ts l → ¬ l.IsStuck := by
    intro ts l h hstuck
    obtain ⟨c, hc, hcased⟩ := hstuck.exists_mem
    obtain ⟨n, hrest, -⟩ := h.follows
    rw [hrest] at hc
    have hno := List.all_eq_true.1 hplain c (List.mem_of_mem_drop hc)
    rw [hcased] at hno
    cases hno
  obtain ⟨hpull, -, hempty⟩ := lexing_progress "f ⓐ" none
  refine ⟨hnameless, (hpull [] _ word behind (.nil _) hnext hfree).1, fun n => ?_, ?_⟩
  · exact hempty [word] behind 'ⓐ' hyields (by decide +kernel) hnameless n
  · exact (lexing_progress "f $\\x" none).2.1 hends 6 (by decide)

/-- A surrogate in a comment, behind a token.  Pulling ends neither with the end of the text nor with an error in it,
though no token starts at a letter that does not stand in names. -/
theorem lexing_breaks_off_at_surrogate :
    let text : Text := .ofList ['x', '%', .surrogate 0]
    (∀ c ∈ text.toList, Text.isNameless c = false) ∧
      (Lexer.ofText text).pulls 4 =
        ([⟨.atom, "x", ⟨none, 0, 1, 1⟩, false⟩], some (.failed ⟨.unencodable, ⟨none, 2, 1, 3⟩⟩)) := by
  decide +kernel

end ErlangMacros
