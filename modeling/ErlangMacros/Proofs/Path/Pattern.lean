import ErlangMacros.Path.Pattern

/-!
# Patterns for the versions of a name

A text without special characters matches itself only, so the pattern for the versions of a plain name matches exactly
the names that continue it with a hyphen (`matchesPattern_versions`).  Two stars stand side by side in the pattern only
if they do so in the name.
-/

namespace ErlangMacros

namespace Pattern

/-- The character stands for more than itself in a pattern. -/
def isSpecial (c : CodePoint) : Bool :=
  c = '*' || c = '?' || c = '['

private theorem inSet_literal (c d : CodePoint) : inSet false [(c, c)] d = (c == d) := by
  rw [Bool.eq_iff_iff, beq_iff_eq, ← CodePoint.toNat_inj]
  simp only [inSet, List.any_cons, List.any_nil, Bool.or_false, Bool.bne_false, Bool.and_eq_true, decide_eq_true_eq]
  omega

/-- Characters that are not special stand for themselves. -/
theorem pieces_append {cs : List CodePoint} (h : ∀ c ∈ cs, isSpecial c = false) (rest : List CodePoint) :
    pieces (cs ++ rest) = cs.map Piece.literal ++ pieces rest := by
  induction cs with
  | nil => rfl
  | cons c cs ih =>
    obtain ⟨hc, hcs⟩ := List.forall_mem_cons.1 h
    simp only [isSpecial, Bool.or_eq_false_iff, decide_eq_false_iff_not] at hc
    obtain ⟨⟨hstar, hany⟩, hset⟩ := hc
    rw [List.cons_append, pieces, if_neg hstar, if_neg hany, if_neg hset, ih hcs]
    rfl

private theorem matchPieces_literal_append (cs : List CodePoint) (ps : List Piece) (name : List CodePoint) :
    matchPieces (cs.map Piece.literal ++ ps) name = (cs.isPrefixOf name && matchPieces ps (name.drop cs.length)) := by
  induction cs generalizing name with
  | nil => simp
  | cons c cs ih =>
    cases name with
    | nil => rfl
    | cons d name =>
      rw [List.map_cons, List.cons_append, Piece.literal, matchPieces_one_cons, inSet_literal, ih, List.isPrefixOf,
        Bool.and_assoc]
      rfl

/-- A star at the end matches whatever is left. -/
theorem matchPieces_star (cs : List CodePoint) : matchPieces [.star] cs = true := by
  induction cs with
  | nil => rfl
  | cons c cs ih => rw [matchPieces_star_cons, ih, Bool.or_true]

/-- Two stars stand side by side somewhere in the text. -/
theorem hasDoubleStar_iff (cs : List CodePoint) : hasDoubleStar cs = true ↔ [.char '*', .char '*'] <:+: cs := by
  induction cs using hasDoubleStar.induct with
  | case1 cs => exact iff_of_true rfl ⟨[], cs, rfl⟩
  | case2 c cs hne ih =>
    have hstart : ¬ [.char '*', .char '*'] <+: c :: cs := by
      rintro ⟨rest, hrest⟩
      cases hrest
      exact hne rest rfl rfl
    rw [hasDoubleStar, ih, List.infix_cons_iff, or_iff_right hstart]
    exact hne
  | case3 => exact iff_of_false Bool.false_ne_true (by simp)

theorem hasDoubleStar_versions (cs : List CodePoint) : hasDoubleStar (cs ++ [.char '-', .char '*']) = hasDoubleStar cs := by
  induction cs using hasDoubleStar.induct with
  | case1 cs => rfl
  | case2 c cs hne ih =>
    rw [List.cons_append, hasDoubleStar, hasDoubleStar, ih]
    · exact hne
    · rintro rest rfl hrest
      cases cs with
      | nil => cases hrest
      | cons d cs =>
        cases hrest
        exact hne cs rfl rfl
  | case3 => rfl

end Pattern

/-- The versions of a plain name continue it with a hyphen. -/
theorem matchesPattern_versions {name : Text} (h : ∀ c ∈ name.toList, Pattern.isSpecial c = false)
    (entry : Text) :
    matchesPattern (name ++ "-*") entry = (name ++ "-").toList.isPrefixOf entry.toList := by
  have hplain : ∀ c ∈ (name ++ "-").toList, Pattern.isSpecial c = false := by
    simpa [or_imp, forall_and] using ⟨h, by decide⟩
  have hsplit : (name ++ "-*").toList = (name ++ "-").toList ++ [.char '*'] := by simp
  have hstar : Pattern.pieces ['*'] = [.star] := by simp [Pattern.pieces]
  rw [matchesPattern, hsplit, Pattern.pieces_append hplain, Pattern.matchPieces_literal_append, hstar,
    Pattern.matchPieces_star, Bool.and_true]

end ErlangMacros
