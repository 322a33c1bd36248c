import ErlangMacros.Lexer.Scan

/-!
# The lexer

A lexer holds the text that is still to be read and the mark of its first character.  `Lexer.next` skips blanks and
comments and reads one token.  `Lexer.tokenize` reads them all, and says how the text ends: at its end, at an
error, or at a character where every further token is empty.
-/

namespace ErlangMacros

/-- A text that is being read. -/
structure Lexer where
  filename : Option Text := none
  rest : List CodePoint
  mark : Mark := {}
  /-- Blanks or comments have been skipped since the last token. -/
  spaced : Bool := false
deriving DecidableEq

/-- What reading one token gives. -/
inductive Pull where
  | token (t : Token)
  | finished
  | failed (e : LexError)
deriving DecidableEq

namespace Lexer

/-- A lexer at the start of a text. -/
def ofText (text : Text) (filename : Option Text := none) : Lexer :=
  { filename, rest := text.toList }

/-- The position of the next character. -/
def position (l : Lexer) : Position :=
  l.mark.position l.filename

/-- The whole text has been read. -/
def atEnd (l : Lexer) : Bool :=
  l.rest.isEmpty

/-- Read `n` characters, or as many as there are. -/
def advance (l : Lexer) (n : Nat) : Lexer :=
  { l with rest := l.rest.drop n, mark := l.mark.advance (l.rest.take n) }

/-- Read `n` code points by hand.  If there is a surrogate among them, none is taken, but the mark has moved up to the
surrogate. -/
def read (l : Lexer) (n : Nat) : Except LexError Unit × Lexer :=
  let span := l.rest.take n
  if span.all CodePoint.isChar then (.ok (), l.advance n)
  else
    let l' := { l with mark := l.mark.advance (span.takeWhile CodePoint.isChar) }
    (.error ⟨.unencodable, l'.position⟩, l')

/-- The number of characters up to the place `n` characters further on.  A place before the start of the text counts
from its end; `length` is the number of characters of the whole text. -/
def spanTo (l : Lexer) (length : Nat) (n : Int) : Nat :=
  if 0 ≤ n then n.toNat
  else if (length : Int) - l.rest.length + n < 0 then (length + n).toNat
  else 0

/-- Skip blanks and comments. -/
def skipGap (l : Lexer) : Lexer :=
  let n := Scan.gap false l.rest
  { l.advance n with spaced := l.spaced || 0 < n }

/-- Skip blanks and comments up to a surrogate that breaks off a comment.  That comment has not been skipped. -/
def breakOff (l : Lexer) : Lexer :=
  { l.advance (Scan.gap false l.rest) with spaced := l.spaced || !Scan.startsBroken l.rest }

/-- Skip blanks and comments, unless one of the comments is broken off. -/
def whitespace (l : Lexer) : Except LexError Unit × Lexer :=
  if Scan.breaksOff false l.rest then (.error ⟨.unencodable, l.breakOff.position⟩, l.breakOff)
  else (.ok (), l.skipGap)

/-- Read a token of the given kind and length. -/
def take (l : Lexer) (kind : Kind) (n : Nat) : Token × Lexer :=
  (⟨kind, Text.ofList (l.rest.take n), l.position, l.spaced⟩, l.advance n)

/-- Report a fault of the lexeme at the front of the text. -/
def fail (l : Lexer) (f : Scan.Fault) : LexError × Lexer :=
  (⟨f.cause, (l.advance (f.place.getD 0)).position⟩, l.advance f.reach)

/-- Read a token whose length a scan has found. -/
def accept (l : Lexer) (kind : Kind) : Except Scan.Fault Nat → Except LexError Token × Lexer
  | .ok n => let (t, l') := l.take kind n; (.ok t, l')
  | .error f => let (e, l') := l.fail f; (.error e, l')

/-- Read an integer or a float. -/
def number (l : Lexer) : Token × Lexer :=
  let (kind, n) := Scan.number l.rest
  l.take kind n

/-- Read a variable. -/
def variableName (l : Lexer) : Token × Lexer :=
  l.take .var (Scan.name l.rest)

/-- Read an atom, which is quoted if the text starts with a quote. -/
def atom (l : Lexer) : Except LexError Token × Lexer :=
  if l.rest.head? = some (.char '\'') then l.accept .atom (Scan.quoted '\'' .unterminatedAtom l.rest)
  else l.accept .atom (.ok (Scan.name l.rest))

/-- Read a string. -/
def string (l : Lexer) : Except LexError Token × Lexer :=
  l.accept .string (Scan.quoted '"' .unterminatedString l.rest)

/-- Read a character literal. -/
def character (l : Lexer) : Except LexError Token × Lexer :=
  l.accept .character (Scan.character l.rest)

/-- Read an operator or a punctuator, if there is one. -/
def symbol? (l : Lexer) : Option Token × Lexer :=
  match Scan.symbol? l.rest with
  | some (kind, n) => let (t, l') := l.take kind n; (some t, l')
  | none => (none, l)

/-- A token has been read, so that nothing was skipped since. -/
def settle (r : Except LexError Token × Lexer) : Except LexError (Option Token) × Lexer :=
  match r with
  | (.ok t, l) => (.ok (some t), { l with spaced := false })
  | (.error e, l) => (.error e, l)

/-- Read the token that starts at the next character; `none` if no token starts there.  The character decides what
kind of token it is. -/
def token? (l : Lexer) : Except LexError (Option Token) × Lexer :=
  let c := l.rest.head?
  if c.any Text.isDigit then let (t, l') := l.number; settle (.ok t, l')
  else if c = some (.char '$') then settle l.character
  else if c = some (.char '"') then settle l.string
  else if c = some (.char '\'') || c.any Text.isLower then settle l.atom
  else if c = some (.char '_') || c.any Text.isUpper then let (t, l') := l.variableName; settle (.ok t, l')
  else
    match l.symbol? with
    | (some t, l') => settle (.ok t, l')
    | (none, l') => (.ok none, l')

/-- Read the token that has to start at the next character, unless the text ends there. -/
def pull (l : Lexer) : Pull × Lexer :=
  match l.rest with
  | [] => (.finished, l)
  | c :: _ =>
    match l.token? with
    | (.ok (some t), l') => (.token t, l')
    | (.ok none, l') => (.failed ⟨.illegalCharacter c, l'.position⟩, l')
    | (.error e, l') => (.failed e, l')

/-- Skip blanks and comments, and read the next token. -/
def next (l : Lexer) : Pull × Lexer :=
  match l.whitespace with
  | (.error e, l') => (.failed e, l')
  | (.ok (), l') => l'.pull

/-! ### Reading moves forward -/

/-- The lexer `l'` comes from `l` by reading some characters. -/
def Follows (l' l : Lexer) : Prop :=
  ∃ n, l'.rest = l.rest.drop n ∧ l'.mark = l.mark.advance (l.rest.take n)

theorem Follows.trans {l l' l'' : Lexer} (h : l''.Follows l') (h' : l'.Follows l) : l''.Follows l := by
  obtain ⟨m, hrest, hmark⟩ := h
  obtain ⟨n, hrest', hmark'⟩ := h'
  refine ⟨n + m, ?_, ?_⟩
  · rw [hrest, hrest', List.drop_drop]
  · rw [hmark, hmark', hrest', List.take_add, Mark.advance_append]

theorem Follows.refl (l : Lexer) : l.Follows l :=
  ⟨0, by simp, by simp⟩

theorem follows_advance (l : Lexer) (n : Nat) : (l.advance n).Follows l :=
  ⟨n, rfl, rfl⟩

theorem follows_skipGap (l : Lexer) : l.skipGap.Follows l :=
  ⟨Scan.gap false l.rest, rfl, rfl⟩

theorem follows_accept (l : Lexer) (kind : Kind) (r : Except Scan.Fault Nat) : (l.accept kind r).2.Follows l := by
  cases r with
  | ok n => exact l.follows_advance n
  | error f => exact l.follows_advance f.reach

theorem follows_atom (l : Lexer) : l.atom.2.Follows l := by
  unfold atom
  split <;> exact l.follows_accept _ _

theorem follows_symbol? (l : Lexer) : l.symbol?.2.Follows l := by
  unfold symbol?
  split
  · exact l.follows_advance _
  · exact Follows.refl l

theorem follows_settle {l : Lexer} {r : Except LexError Token × Lexer} (h : r.2.Follows l) :
    (settle r).2.Follows l := by
  unfold settle
  split <;> exact h

theorem follows_token? (l : Lexer) : l.token?.2.Follows l := by
  unfold token?
  dsimp only
  split
  · exact follows_settle (l.follows_advance _)
  split
  · exact follows_settle (l.follows_accept _ _)
  split
  · exact follows_settle (l.follows_accept _ _)
  split
  · exact follows_settle l.follows_atom
  split
  · exact follows_settle (l.follows_advance _)
  have h := l.follows_symbol?
  split
  · next heq => exact follows_settle (by rw [heq] at h; exact h)
  · next heq => rw [heq] at h; exact h

theorem follows_breakOff (l : Lexer) : l.breakOff.Follows l :=
  ⟨Scan.gap false l.rest, rfl, rfl⟩

theorem whitespace_eq_ok {l l' : Lexer} (h : l.whitespace = (.ok (), l')) : l' = l.skipGap := by
  unfold whitespace at h
  split at h
  · cases h
  · cases h
    rfl

theorem follows_pull (l : Lexer) : l.pull.2.Follows l := by
  have h := l.follows_token?
  unfold pull
  split
  · exact Follows.refl _
  · split <;> next heq => rw [heq] at h; exact h

theorem follows_next (l : Lexer) : l.next.2.Follows l := by
  unfold next
  split
  · next heq =>
    unfold whitespace at heq
    split at heq <;> cases heq
    exact l.follows_breakOff
  · next l' heq =>
    exact l'.follows_pull.trans (whitespace_eq_ok heq ▸ l.follows_skipGap)

/-- A lexer whose offset has moved has less to read. -/
theorem Follows.length_lt {l l' : Lexer} (h : l'.Follows l) (ho : l.mark.offset < l'.mark.offset) :
    l'.rest.length < l.rest.length := by
  obtain ⟨n, hrest, hmark⟩ := h
  by_cases hn : l.rest.take n = []
  · rw [hmark, hn, Mark.advance_nil] at ho
    omega
  · have hlen : 0 < (l.rest.take n).length := List.length_pos_iff.2 hn
    rw [List.length_take] at hlen
    rw [hrest, List.length_drop]
    omega

end Lexer

/-- How the tokens of a text end. -/
inductive Ending where
  | finished
  | failed (e : LexError)
  /-- The lexer stands still and gives the same empty token for ever. -/
  | repeating (t : Token)
deriving DecidableEq

/-- The tokens never end. -/
def Ending.repeats : Ending → Bool
  | repeating _ => true
  | _ => false

/-- The tokens of a text, how they end, and the byte offset that is reached then. -/
structure Lexing where
  tokens : List Token
  ending : Ending := .finished
  reach : Nat := 0
deriving DecidableEq

namespace Lexing

/-- A text that starts with one more token. -/
def cons (t : Token) (l : Lexing) : Lexing :=
  { l with tokens := t :: l.tokens }

end Lexing

/-- Read all tokens.  A token that does not move the lexer is empty and comes again for ever. -/
def Lexer.tokenize (l : Lexer) : Lexing :=
  match l.next, l.follows_next with
  | (.finished, l'), _ => { tokens := [], reach := l'.mark.offset }
  | (.failed e, l'), _ => { tokens := [], ending := .failed e, reach := l'.mark.offset }
  | (.token t, l'), hf =>
    if h : l.mark.offset < l'.mark.offset then
      have := hf.length_lt h
      l'.tokenize.cons t
    else { tokens := [], ending := .repeating t, reach := l'.mark.offset }
termination_by l.rest.length

/-- The tokens of a text. -/
def Lexing.ofText (text : Text) (filename : Option Text := none) : Lexing :=
  (Lexer.ofText text filename).tokenize

/-- The first `n` tokens that pulling from a lexer gives, and how pulling ended: `none` if `n` tokens came. -/
def Lexer.pulls : Nat → Lexer → List Token × Option Pull
  | 0, _ => ([], none)
  | n + 1, l =>
    match l.next with
    | (.token t, l') => let (ts, e) := pulls n l'; (t :: ts, e)
    | (p, _) => ([], some p)

end ErlangMacros
