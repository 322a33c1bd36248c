import ErlangMacros.Text.Integer

/-!
# The value of integer literals

An integer literal is decimal, or it names its base: `16#ff`.  Underscores between digits do not count.
-/

namespace ErlangMacros

/-- The base and the digits of a literal that names its base. -/
def splitBase? (cs : List CodePoint) : Option (List CodePoint × List CodePoint) :=
  if cs.contains '#' then
    some (cs.takeWhile (· ≠ CodePoint.char '#'), (cs.dropWhile (· ≠ CodePoint.char '#')).drop 1)
  else none

/-- The value of an integer literal, `none` if its digits do not fit its base. -/
def integerValue? (text : Text) : Option Int :=
  let cs := text.toList.filter (· ≠ CodePoint.char '_')
  match splitBase? cs with
  | some (base, digits) =>
    (Text.integer? 10 base).bind fun b => if 0 ≤ b then Text.integer? b.toNat digits else none
  | none => Text.integer? 10 cs

end ErlangMacros
