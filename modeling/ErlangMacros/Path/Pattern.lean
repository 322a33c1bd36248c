import ErlangMacros.Text

/-!
# Patterns for names

In a pattern `*` stands for any text, `?` for any character, and brackets for one character of a set.  A set may
hold ranges, and `!` at its front negates it.  A name is matched with the pieces of a pattern from the last one on,
in a row that tells which ends of the name the pieces so far match, so the time is the product of both lengths.
-/

namespace ErlangMacros

namespace Pattern

/-- A piece of a pattern. -/
inductive Piece where
  | star
  /-- One character, which is in one of the ranges, or in none of them if `negated`. -/
  | one (negated : Bool) (ranges : List (CodePoint × CodePoint))
deriving DecidableEq

/-- Any character. -/
def Piece.any : Piece :=
  one true []

/-- The character itself. -/
def Piece.literal (c : CodePoint) : Piece :=
  one false [(c, c)]

/-- An item of a set. -/
inductive Item where
  | single (c : CodePoint)
  | range (first last : CodePoint)
deriving DecidableEq

/-- The items of a set.  A hyphen between two characters makes a range, any other stands for itself. -/
def items : List CodePoint → List Item
  | a :: .char '-' :: b :: rest => .range a b :: items rest
  | a :: rest => .single a :: items rest
  | [] => []

/-- A range whose ends are in the wrong order counts as not written. -/
def Item.isWritten : Item → Bool
  | single _ => true
  | range first last => first ≤ last

/-- The first and the last character of an item. -/
def Item.bounds : Item → CodePoint × CodePoint
  | single c => (c, c)
  | range first last => (first, last)

/-- The length of the set that follows an opening bracket, without the closing one; `none` if it is not closed.  A
closing bracket at the front of a set belongs to it. -/
def setLength? (cs : List CodePoint) : Option Nat :=
  let negation := if cs.head? = some (.char '!') then 1 else 0
  let front := if (cs.drop negation).head? = some (.char ']') then negation + 1 else negation
  let body := (cs.drop front).takeWhile (· ≠ CodePoint.char ']')
  if front + body.length < cs.length then some (front + body.length) else none

/-- The piece for items.  A `!` at their front negates the others; if it starts a range, the hyphen and the end of
that range count as single characters. -/
def Piece.ofItems : List Item → Piece
  | .single (.char '!') :: rest => one true (rest.map Item.bounds)
  | .range (.char '!') last :: rest => one true (('-', '-') :: (last, last) :: rest.map Item.bounds)
  | written => one false (written.map Item.bounds)

/-- The piece for a set. -/
def Piece.ofSet : List CodePoint → Piece
  | .char '!' :: cs => one true (((items cs).filter Item.isWritten).map Item.bounds)
  | cs => ofItems ((items cs).filter Item.isWritten)

/-- The pieces of a pattern. -/
def pieces (cs : List CodePoint) : List Piece :=
  match cs with
  | [] => []
  | c :: rest =>
    if c = '*' then .star :: pieces rest
    else if c = '?' then .any :: pieces rest
    else if c = '[' then
      match setLength? rest with
      | some n => .ofSet (rest.take n) :: pieces (rest.drop (n + 1))
      | none => .literal c :: pieces rest
    else .literal c :: pieces rest
termination_by cs.length
decreasing_by all_goals simp +arith

/-- The character is one that the ranges allow. -/
def inSet (negated : Bool) (ranges : List (CodePoint × CodePoint)) (c : CodePoint) : Bool :=
  (ranges.any fun r => r.1.toNat ≤ c.toNat && c.toNat ≤ r.2.toNat) != negated

/-- For every end of a text, the longest first, whether it is empty. -/
def emptyEnds : List CodePoint → List Bool
  | [] => [true]
  | _ :: cs => false :: emptyEnds cs

/-- The row in front of which a star is put: an end matches if it or a shorter one did. -/
def starEnds : List Bool → List Bool
  | [] => []
  | b :: row =>
    let shorter := starEnds row
    (b || shorter.headD false) :: shorter

/-- The row in front of which one character is put: an end matches if the character does and what is behind it
did. -/
def oneEnds (test : CodePoint → Bool) : List CodePoint → List Bool → List Bool
  | c :: cs, _ :: behind :: row => (test c && behind) :: oneEnds test cs (behind :: row)
  | _, _ => [false]

/-- For every end of a text, the longest first, whether the pieces match it. -/
def matchedEnds (cs : List CodePoint) : List Piece → List Bool
  | [] => emptyEnds cs
  | .star :: ps => starEnds (matchedEnds cs ps)
  | .one negated ranges :: ps => oneEnds (inSet negated ranges) cs (matchedEnds cs ps)

/-- The pieces match the whole text. -/
def matchPieces (ps : List Piece) (cs : List CodePoint) : Bool :=
  (matchedEnds cs ps).headD false

theorem matchedEnds_ne_nil (cs : List CodePoint) (ps : List Piece) : matchedEnds cs ps ≠ [] := by
  induction ps with
  | nil => cases cs <;> simp [matchedEnds, emptyEnds]
  | cons p ps ih =>
    obtain ⟨b, row, h⟩ := List.exists_cons_of_ne_nil ih
    cases p with
    | star => simp [matchedEnds, h, starEnds]
    | one negated ranges => cases cs <;> cases row <;> simp [matchedEnds, h, oneEnds]

/-- The first entry of a row is for the whole text, and the others are the row of the text without its first
character. -/
theorem matchedEnds_cons (c : CodePoint) (cs : List CodePoint) (ps : List Piece) :
    matchedEnds (c :: cs) ps = matchPieces ps (c :: cs) :: matchedEnds cs ps := by
  unfold matchPieces
  induction ps with
  | nil => rfl
  | cons p ps ih =>
    obtain ⟨b, row, h⟩ := List.exists_cons_of_ne_nil (matchedEnds_ne_nil cs ps)
    cases p with
    | star =>
      simp only [matchedEnds]
      rw [ih]
      rfl
    | one negated ranges =>
      simp only [matchedEnds]
      rw [ih, h]
      rfl

/-- A star matches nothing, or one more character than it does behind that. -/
theorem matchPieces_star_cons (ps : List Piece) (c : CodePoint) (cs : List CodePoint) :
    matchPieces (.star :: ps) (c :: cs) = (matchPieces ps (c :: cs) || matchPieces (.star :: ps) cs) := by
  rw [matchPieces, matchedEnds, matchedEnds_cons]
  rfl

/-- A piece for one character matches that character, and the pieces behind it the rest. -/
theorem matchPieces_one_cons (negated : Bool) (ranges : List (CodePoint × CodePoint)) (ps : List Piece) (c : CodePoint)
    (cs : List CodePoint) :
    matchPieces (.one negated ranges :: ps) (c :: cs) = (inSet negated ranges c && matchPieces ps cs) := by
  obtain ⟨b, row, h⟩ := List.exists_cons_of_ne_nil (matchedEnds_ne_nil cs ps)
  have hp : matchPieces ps cs = b := by rw [matchPieces, h]; rfl
  rw [hp, matchPieces, matchedEnds, matchedEnds_cons, h]
  rfl

/-- Two stars stand side by side. -/
def hasDoubleStar : List CodePoint → Bool
  | .char '*' :: .char '*' :: _ => true
  | _ :: cs => hasDoubleStar cs
  | [] => false

end Pattern

/-- The name matches the pattern. -/
def matchesPattern (pattern name : Text) : Bool :=
  Pattern.matchPieces (Pattern.pieces pattern.toList) name.toList

end ErlangMacros
