import ErlangMacros.Text.Shown

/-!
# Positions

Where a token stands in its source.  `Mark` counts while a text is read, and `Position` is what a token carries.
-/

namespace ErlangMacros

/-- A place in a source: the byte offset counts from zero, line and column from one.  The lexer's coordinates are
never negative, but a token made by hand may carry any. -/
structure Position where
  filename : Option Text := none
  offset : Int := 0
  line : Int := 1
  column : Int := 1
deriving DecidableEq, Inhabited

namespace Position

/-- A position as messages give it, such as `m.erl:3:7`. -/
def toString (p : Position) : Text :=
  let file := p.filename.getD "<input>"
  file ++ ":" ++ Text.ofInt p.line ++ ":" ++ Text.ofInt p.column

/-- A position with all its fields. -/
def shown (p : Position) : Text :=
  "Position(filename=" ++ Text.shownOption p.filename ++ ", offset=" ++ Text.ofInt p.offset ++
    ", line=" ++ Text.ofInt p.line ++ ", column=" ++ Text.ofInt p.column ++ ")"

/-- A message with the position it belongs to, if there is one. -/
def label (p : Option Position) (message : Text) : Text :=
  match p with
  | some p => p.toString ++ ": " ++ message
  | none => message

end Position

/-- How far reading a text has come: bytes read, and the line and column of the next character. -/
structure Mark where
  offset : Nat := 0
  line : Nat := 1
  column : Nat := 1
deriving DecidableEq, Inhabited

namespace Mark

/-- Read one character. -/
def step (m : Mark) (c : Char) : Mark :=
  if c = '\n' then ⟨m.offset + c.utf8Size, m.line + 1, 1⟩ else ⟨m.offset + c.utf8Size, m.line, m.column + 1⟩

/-- Read the characters of `cs`.  Surrogates are no characters and have no bytes; no lexer reads over one. -/
def advance (m : Mark) (cs : List CodePoint) : Mark :=
  (Text.chars cs).foldl step m

/-- The position of a mark in a file. -/
def position (m : Mark) (filename : Option Text) : Position :=
  ⟨filename, m.offset, m.line, m.column⟩

@[simp]
theorem advance_nil (m : Mark) : m.advance [] = m := rfl

@[simp]
theorem advance_char (m : Mark) (c : Char) (cs : List CodePoint) : m.advance (.char c :: cs) = (m.step c).advance cs :=
  rfl

@[simp]
theorem advance_surrogate (m : Mark) (n : Fin 0x800) (cs : List CodePoint) :
    m.advance (.surrogate n :: cs) = m.advance cs := rfl

theorem advance_append (m : Mark) (cs ds : List CodePoint) : m.advance (cs ++ ds) = (m.advance cs).advance ds := by
  unfold advance
  rw [Text.chars_append, List.foldl_append]

theorem offset_step (m : Mark) (c : Char) : (m.step c).offset = m.offset + c.utf8Size := by
  unfold step
  split <;> rfl

theorem offset_le_advance (m : Mark) (cs : List CodePoint) : m.offset ≤ (m.advance cs).offset := by
  induction cs generalizing m with
  | nil => exact Nat.le_refl _
  | cons c cs ih =>
    cases c with
    | char c =>
      rw [advance_char]
      have := ih (m.step c)
      rw [offset_step] at this
      omega
    | surrogate n => exact ih m

/-- Reading a character moves the offset. -/
theorem offset_lt_advance {c : CodePoint} {cs : List CodePoint} (m : Mark) (h : c.isChar = true) :
    m.offset < (m.advance (c :: cs)).offset := by
  obtain ⟨d, rfl⟩ := CodePoint.isChar_iff.1 h
  rw [advance_char]
  have := offset_le_advance (m.step d) cs
  rw [offset_step] at this
  have := d.utf8Size_pos
  omega

end Mark

end ErlangMacros
