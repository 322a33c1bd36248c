import ErlangMacros.Text

/-!
# Directive keywords
-/

namespace ErlangMacros

/-- The keywords that make an attribute a directive. -/
inductive Keyword where
  | define
  | undef
  | ifdef
  | ifndef
  | otherwise
  | endif
  | includeFile
  | includeLib
  | error
  | warning
  | file
deriving DecidableEq

namespace Keyword

/-- The keyword as it is written. -/
def text : Keyword → Text
  | define => "define"
  | undef => "undef"
  | ifdef => "ifdef"
  | ifndef => "ifndef"
  | otherwise => "else"
  | endif => "endif"
  | includeFile => "include"
  | includeLib => "include_lib"
  | error => "error"
  | warning => "warning"
  | file => "file"

/-- All keywords. -/
def all : List Keyword :=
  [define, undef, ifdef, ifndef, otherwise, endif, includeFile, includeLib, error, warning, file]

/-- The keyword that is written `text`. -/
def ofText? (text : Text) : Option Keyword :=
  all.find? (·.text = text)

/-- Keywords that open, flip or close a conditional. -/
def isConditional : Keyword → Bool
  | ifdef | ifndef | otherwise | endif => true
  | _ => false

theorem ofText?_text (k : Keyword) : ofText? k.text = some k := by
  cases k <;> decide

theorem text_of_ofText? {text : Text} {k : Keyword} (h : ofText? text = some k) : k.text = text := by
  simpa using List.find?_some h

theorem text_inj {k k' : Keyword} : k.text = k'.text ↔ k = k' := by
  constructor
  · intro h
    have hsame := ofText?_text k
    rw [h, ofText?_text] at hsame
    exact (Option.some.inj hsame).symm
  · exact congrArg text

end Keyword

end ErlangMacros
