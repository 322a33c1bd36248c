import ErlangMacros.Position

/-!
# Lexing errors
-/

namespace ErlangMacros

/-- Why a text cannot be split into tokens. -/
inductive LexCause where
  | unterminatedEscape
  | invalidHexEscape (digits : Text)
  | escapeOutOfRange (digits : Text)
  | missingHexDigits
  | unterminatedString
  | unterminatedAtom
  | missingCharacter
  | illegalCharacter (c : CodePoint)
  /-- A surrogate stands where a character is to be read.  This is no error of the text, but ends its lexing. -/
  | unencodable
deriving DecidableEq

namespace LexCause

/-- An escape sequence with its code in braces, as it is written. -/
private def braced (digits : Text) : Text :=
  "\\x\x7b" ++ digits ++ "\x7d"

/-- The text of the error. -/
def message : LexCause → Text
  | unterminatedEscape => "Unterminated escape sequence."
  | invalidHexEscape digits => "Invalid hexadecimal escape '" ++ braced digits ++ "'."
  | escapeOutOfRange digits => "Character code '" ++ braced digits ++ "' is out of range."
  | missingHexDigits => "Expected two hexadecimal digits after '\\x'."
  | unterminatedString => "Unterminated string."
  | unterminatedAtom => "Unterminated quoted atom."
  | missingCharacter => "Expected character after '$'."
  | illegalCharacter c => "Illegal character " ++ Text.shown c.toText ++ "."
  | unencodable => "surrogates not allowed"

end LexCause

/-- A lexing error and the place it is found at. -/
structure LexError where
  cause : LexCause
  position : Position
deriving DecidableEq

/-- The error as it is reported. -/
def LexError.message (e : LexError) : Text :=
  Position.label (some e.position) e.cause.message

end ErlangMacros
