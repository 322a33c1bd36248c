import ErlangMacros.Token

/-!
# Spelling values and tokens

Values are written as literals by `quoteString` and `quoteAtom`, and a list of tokens is written as source text by
`respell`.  `stringify` makes a string literal of the spelling of tokens.
-/

namespace ErlangMacros

/-- Write `cs` wherever the text has `c`. -/
def Text.replace (t : Text) (c : CodePoint) (cs : List CodePoint) : Text :=
  .ofList (t.toList.flatMap fun d => if d = c then cs else [d])

/-- The text of a string literal with the given value. -/
def quoteString (value : Text) : Text :=
  let escaped := ((value.replace '\\' ['\\', '\\']).replace '"' ['\\', '"']).replace '\n' ['\\', 'n']
  "\"" ++ escaped ++ "\""

/-- Characters of an atom that needs no quotes. -/
def isBareAtomChar (c : CodePoint) : Bool :=
  c.isAlphanum || c = '_' || c = '@'

/-- Values that can be written as an atom without quotes. -/
def isBareAtom : List CodePoint → Bool
  | [] => false
  | c :: cs => c.isLower && cs.all isBareAtomChar

/-- The text of an atom with the given value, in quotes if they are needed. -/
def quoteAtom (value : Text) : Text :=
  if isBareAtom value.toList then value
  else
    let escaped := (value.replace '\\' ['\\', '\\']).replace '\'' ['\\', '\'']
    "'" ++ escaped ++ "'"

/-- A code point as it is written inside the quotes of a string. -/
def inString (c : CodePoint) : List CodePoint :=
  if c = '\\' then ['\\', '\\'] else if c = '"' then ['\\', '"'] else if c = '\n' then ['\\', 'n'] else [c]

/-- A code point as it is written inside the quotes of an atom. -/
def inAtom (c : CodePoint) : List CodePoint :=
  if c = '\\' then ['\\', '\\'] else if c = '\'' then ['\\', '\''] else [c]

/-- No replacement touches what an earlier one has written, so that the code points are written one by one. -/
theorem toList_quoteString (value : Text) :
    (quoteString value).toList = .char '"' :: (value.toList.flatMap inString ++ [.char '"']) := by
  have hescaped : (((value.replace '\\' ['\\', '\\']).replace '"' ['\\', '"']).replace '\n' ['\\', 'n']).toList =
      value.toList.flatMap inString := by
    simp only [Text.replace, List.flatMap_assoc]
    refine congrArg (value.toList.flatMap ·) (funext fun c => ?_)
    unfold inString
    by_cases hslash : c = '\\'
    · simp [hslash]
    by_cases hquote : c = '"'
    · simp [hquote]
    by_cases hline : c = '\n'
    · simp [hline]
    · simp [hslash, hquote, hline]
  rw [quoteString]
  simp only [Text.toList_append, hescaped]
  rfl

theorem toList_quoteAtom {value : Text} (h : isBareAtom value.toList = false) :
    (quoteAtom value).toList = .char '\'' :: (value.toList.flatMap inAtom ++ [.char '\'']) := by
  have hescaped : ((value.replace '\\' ['\\', '\\']).replace '\'' ['\\', '\'']).toList =
      value.toList.flatMap inAtom := by
    simp only [Text.replace, List.flatMap_assoc]
    refine congrArg (value.toList.flatMap ·) (funext fun c => ?_)
    unfold inAtom
    by_cases hslash : c = '\\'
    · simp [hslash]
    by_cases hquote : c = '\''
    · simp [hquote]
    · simp [hslash, hquote]
  rw [quoteAtom, h]
  simp only [Bool.false_eq_true, if_false, Text.toList_append, hescaped]
  rfl

/-- A string that spells `tokens`.  It stands at the first of them, or at `marker` if there are none. -/
def stringify (tokens : List Token) (marker : Token) : Token :=
  { kind := .string
    text := quoteString (spacedTexts tokens)
    position := (tokens.head?.getD marker).position
    spaced := marker.spaced }

/-- What separates a token from the one before it: every form has a line of its own, and inside a form blanks are
kept as one space. -/
def separator (previous token : Token) : Text :=
  if previous.isSymbol "." then "\n" else if token.spaced then " " else ""

/-- The pieces of source text for tokens that follow `previous`. -/
def piecesAfter (previous : Token) : List Token → List Text
  | [] => ["\n"]
  | t :: ts => separator previous t :: t.text :: piecesAfter t ts

/-- Source text for tokens, with one form per line. -/
def respell : List Token → Text
  | [] => ""
  | t :: ts => Text.join (t.text :: piecesAfter t ts)

end ErlangMacros
