import ErlangMacros.Lexer

/-!
# Token sources

A source supplies the tokens of one file or of the input.  Tokens that were read ahead can be put back, and come
first when the source is read again.
-/

namespace ErlangMacros

/-- The tokens of one file or of the input. -/
structure Source where
  filename : Option Text := none
  /-- The directive that included the file. -/
  includedFrom : Option Position := none
  /-- The file name that the source reports. -/
  logicalFilename : Option Text := filename
  /-- What is added to a line number to get the line that the source reports. -/
  lineOffset : Int := 0
  /-- Tokens that were put back. -/
  pending : List Token := []
  /-- Tokens that have not been pulled. -/
  stream : Lexing
  /-- The byte offset up to which the text has been pulled. -/
  reach : Nat := 0
deriving DecidableEq

namespace Source

/-- The source of a text in a file. -/
def ofText (text : Text) (filename : Option Text) (includedFrom : Option Position := none) : Source :=
  { filename, includedFrom, stream := .ofText text filename }

/-- The source of a list of tokens. -/
def ofTokens (tokens : List Token) (filename : Option Text) (includedFrom : Option Position := none) : Source :=
  { filename, includedFrom, stream := { tokens } }

/-- Pull the next token of the stream.  After an error a stream is at its end. -/
def pull (s : Source) : Pull × Source :=
  match s.stream.tokens with
  | t :: ts => (.token t, { s with stream := { s.stream with tokens := ts }, reach := t.stop })
  | [] =>
    match s.stream.ending with
    | .finished => (.finished, { s with reach := s.stream.reach })
    | .failed e => (.failed e, { s with stream := { s.stream with ending := .finished }, reach := s.stream.reach })
    | .repeating t => (.token t, s)

/-- Read the next token. -/
def next (s : Source) : Pull × Source :=
  match s.pending with
  | t :: ts => (.token t, { s with pending := ts })
  | [] => s.pull

/-- Put a token back. -/
def putBack (s : Source) (t : Token) : Source :=
  { s with pending := t :: s.pending }

/-- Look at the next token. -/
def peek (s : Source) : Pull × Source :=
  match s.next with
  | (.token t, s') => (.token t, s'.putBack t)
  | r => r

/-- Report the line after `directiveLine` as `line` of `filename`. -/
def setFile (s : Source) (filename : Text) (line directiveLine : Int) : Source :=
  { s with logicalFilename := some filename, lineOffset := line - (directiveLine + 1) }

/-- The line that the source reports for a line of its text. -/
def logicalLine (s : Source) (line : Int) : Int :=
  line + s.lineOffset

/-- The source after all its tokens have been dropped. -/
def emptied (s : Source) : Source :=
  { filename := s.filename, stream := { tokens := [], reach := s.reach }, reach := s.reach }

/-- The number of tokens left. -/
def size (s : Source) : Nat :=
  s.pending.length + s.stream.tokens.length

/-- Everything has been read. -/
def isExhausted (s : Source) : Bool :=
  s.pending.isEmpty && s.stream.tokens.isEmpty && s.stream.ending = .finished

/-- Only the token that the lexer gives for ever is left. -/
def repeats (s : Source) : Bool :=
  s.pending.isEmpty && s.stream.tokens.isEmpty && s.stream.ending.repeats

/-- Reading takes a token away, unless it is one that comes for ever. -/
theorem size_next {s s' : Source} {t : Token} (h : s.next = (.token t, s')) (hr : s.repeats = false) :
    s'.size < s.size := by
  unfold next at h
  split at h
  · next hp =>
    obtain ⟨-, rfl⟩ := Prod.mk.inj h
    simp [size, hp]
  · next hp =>
    unfold pull at h
    split at h
    · next ht =>
      obtain ⟨-, rfl⟩ := Prod.mk.inj h
      simp [size, hp, ht]
    · next ht =>
      split at h
      · simp at h
      · simp at h
      · next he => simp [repeats, hp, ht, he, Ending.repeats] at hr

/-- A source gives no more tokens exactly if everything has been read. -/
theorem next_fst_eq_finished_iff (s : Source) : s.next.1 = .finished ↔ s.isExhausted = true := by
  unfold next pull isExhausted
  split
  · next hp => simp [hp]
  · next hp =>
    split
    · next ht => simp [hp, ht]
    · next ht => cases he : s.stream.ending <;> simp [hp, ht]

/-- A source with its name. -/
def shown (s : Source) : Text :=
  "TokenSource(filename=" ++ Text.shownOption s.filename ++ ")"

end Source

end ErlangMacros
