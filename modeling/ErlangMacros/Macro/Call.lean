import ErlangMacros.Macro
import ErlangMacros.Reader

/-!
# Arguments of macro calls

Arguments stand between parentheses and are separated by commas.  A comma inside nested brackets belongs to an
argument.  `ArgumentList.step` takes the tokens after the opening parenthesis one by one.
-/

namespace ErlangMacros

/-- A macro call; `args` is `none` for a call without arguments. -/
structure MacroCall where
  question : Token
  name : Token
  args : Option (List (List Token)) := none
deriving DecidableEq

namespace MacroCall

/-- A call stands where its question mark stands. -/
def position (c : MacroCall) : Position :=
  c.question.position

/-- The call as it is spelled. -/
def spelled (c : MacroCall) : Text :=
  match c.args with
  | none => "?" ++ c.name.text
  | some args => "?" ++ c.name.text ++ "(" ++ Text.intercalate ", " (args.map spacedTexts) ++ ")"

end MacroCall

/-- The closing bracket that an opening bracket asks for. -/
def closerOf? (text : Text) : Option Text :=
  if text = "(" then some ")"
  else if text = "[" then some "]"
  else if text = "\x7b" then some "\x7d"
  else if text = "<<" then some ">>"
  else none

/-- Closing brackets. -/
def isCloser (text : Text) : Bool :=
  text = ")" || text = "]" || text = "\x7d" || text = ">>"

/-- An argument list of which a part has been read. -/
structure ArgumentList where
  /-- The arguments that are complete, the last one first. -/
  args : List (List Token) := []
  /-- The tokens of the argument that is being read, the last one first. -/
  current : List Token := []
  /-- The closing brackets that are awaited inside the list, innermost first. -/
  closers : List Text := []
deriving DecidableEq

namespace ArgumentList

/-- What one more token makes of an argument list. -/
inductive Progress where
  | more (l : ArgumentList)
  | complete (args : List (List Token))
  | malformed (e : ArgumentsError)
deriving DecidableEq

/-- Add a token to the argument that is being read. -/
def add (l : ArgumentList) (t : Token) : ArgumentList :=
  { l with current := t :: l.current }

/-- Complete the argument that is being read. -/
def completed (l : ArgumentList) : List (List Token) :=
  l.current.reverse :: l.args

/-- The parenthesis that closes the list. -/
def finish (l : ArgumentList) : Progress :=
  if l.current.isEmpty then
    if l.args.isEmpty then .complete [] else .malformed (.missingBefore ")")
  else .complete l.completed.reverse

/-- A closing bracket. -/
def closeBracket (l : ArgumentList) (t : Token) : Progress :=
  match l.closers with
  | [] => if t.text = ")" then l.finish else .malformed (.unbalanced ")" t.text)
  | closer :: closers =>
    if t.text = closer then .more (add { l with closers } t) else .malformed (.unbalanced closer t.text)

/-- Take one more token. -/
def step (l : ArgumentList) (t : Token) : Progress :=
  if t.isSymbol "," && l.closers.isEmpty then
    if l.current.isEmpty then .malformed (.missingBefore ",")
    else .more { l with args := l.completed, current := [] }
  else if t.kind.isSymbol then
    match closerOf? t.text with
    | some closer => .more (add { l with closers := closer :: l.closers } t)
    | none => if isCloser t.text then l.closeBracket t else .more (l.add t)
  else .more (l.add t)

end ArgumentList

/-- A failure of a source: an error of the input, unless a surrogate breaks off its lexing. -/
def Failure.ofLex (e : LexError) : Failure :=
  if e.cause = .unencodable then .fault .unencodable else .diagnose (.lexing e.cause) (some e.position)

/-- Where malformed arguments are reported: at the token that makes them so, or at the call if the input ends. -/
def argumentsFailure (e : ArgumentsError) (position : Position) : Failure :=
  .diagnose (.malformedArguments e) (some position)

namespace Reader

/-- The arguments that were read, and every token that was read for them. -/
structure Arguments where
  args : List (List Token)
  consumed : List Consumed
deriving DecidableEq

/-- The arguments with one more token read before. -/
def Arguments.after (c : Consumed) (a : Arguments) : Arguments :=
  { a with consumed := c :: a.consumed }

/-- Read the rest of an argument list.  The list is never closed if one token comes for ever. -/
def moreArguments (question : Token) (l : ArgumentList) (r : Reader) : Except Failure Arguments × Reader :=
  if hr : r.repeats then (.error (.fault .endless), r)
  else
    match h : r.read with
    | (.failed e, r') => (.error (.ofLex e), r')
    | (.finished, r') => (.error (argumentsFailure .inputEnds question.position), r')
    | (.token t, r') =>
      match l.step t with
      | .malformed e => (.error (argumentsFailure e t.position), r')
      | .complete args => (.ok ⟨args, [r'.consumed t]⟩, r')
      | .more l' =>
        have := size_read h (by simpa using hr)
        let (rest, r'') := moreArguments question l' r'
        (rest.map (·.after (r'.consumed t)), r'')
termination_by r.size

/-- Read an argument list from its opening parenthesis on. -/
def arguments (r : Reader) (question : Token) : Except Failure Arguments × Reader :=
  match r.read with
  | (.failed e, r') => (.error (.ofLex e), r')
  | (.finished, r') => (.error (argumentsFailure .inputEnds question.position), r')
  | (.token t, r') =>
    let (rest, r'') := moreArguments question {} r'
    (rest.map (·.after (r'.consumed t)), r'')

end Reader

end ErlangMacros
