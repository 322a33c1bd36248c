import ErlangMacros.Path

/-!
# Reading and writing paths

A path that was read is plain: none of its parts is empty, is a single dot or holds a slash.  A plain path is read back
from what is written for it (`ofString_toString`), so plain paths are written alike only if they are the same
(`IsPlain.eq_of_toString_eq`).
-/

namespace ErlangMacros

namespace Path

/-- No part of the path vanishes or falls apart when it is read again. -/
def IsPlain (p : Path) : Prop :=
  ∀ part ∈ p.parts, part ≠ "" ∧ part ≠ "." ∧ .char '/' ∉ part.toList

/-- No slash is in a piece between slashes. -/
theorem not_mem_of_mem_splitSlashes {piece cs : List CodePoint} {part : Text} (hpiece : .char '/' ∉ piece)
    (h : part ∈ splitSlashes piece cs) : .char '/' ∉ part.toList := by
  induction cs generalizing piece with
  | nil =>
    rw [splitSlashes, List.mem_singleton] at h
    simpa [h] using hpiece
  | cons c cs ih =>
    unfold splitSlashes at h
    split at h
    · rcases List.mem_cons.1 h with rfl | h
      · simpa using hpiece
      · exact ih (by simp) h
    · next hc => exact ih (by simp [Ne.symm hc, hpiece]) h

theorem isPlain_ofString (text : Text) : (ofString text).IsPlain := by
  intro part hpart
  obtain ⟨hmem, hkept⟩ := List.mem_filter.1 hpart
  obtain ⟨hempty, hdot⟩ : part ≠ "" ∧ part ≠ "." := by simpa using hkept
  exact ⟨hempty, hdot, not_mem_of_mem_splitSlashes (by simp) hmem⟩

private theorem splitSlashes_append {cs : List CodePoint} (h : .char '/' ∉ cs) (piece rest : List CodePoint) :
    splitSlashes piece (cs ++ rest) = splitSlashes (cs.reverse ++ piece) rest := by
  induction cs generalizing piece with
  | nil => rfl
  | cons c cs ih =>
    obtain ⟨hc, hcs⟩ : '/' ≠ c ∧ .char '/' ∉ cs := by simpa using h
    rw [List.cons_append, splitSlashes, if_neg (Ne.symm hc), ih hcs]
    simp

/-- Parts without slashes are the pieces of what is written for them. -/
theorem splitSlashes_intercalate {parts : List Text} (hne : parts ≠ []) (h : ∀ part ∈ parts, .char '/' ∉ part.toList) :
    splitSlashes [] (Text.intercalate "/" parts).toList = parts := by
  induction parts with
  | nil => exact absurd rfl hne
  | cons part parts ih =>
    obtain ⟨hpart, hparts⟩ := List.forall_mem_cons.1 h
    rcases parts with _ | ⟨next, parts⟩
    · have hone := splitSlashes_append hpart [] []
      simpa [splitSlashes] using hone
    · have hfirst := splitSlashes_append hpart [] (.char '/' :: (Text.intercalate "/" (next :: parts)).toList)
      rw [splitSlashes, if_pos rfl, ih (by simp) hparts] at hfirst
      simpa using hfirst

/-- What is written for parts does not start with a slash. -/
theorem head?_intercalate {parts : List Text} (h : ∀ part ∈ parts, part ≠ "" ∧ part ≠ "." ∧ .char '/' ∉ part.toList) :
    (Text.intercalate "/" parts).toList.head? ≠ some (.char '/') := by
  rcases parts with _ | ⟨part, parts⟩
  · simp
  · obtain ⟨hempty, -, hslash⟩ := h part List.mem_cons_self
    obtain ⟨c, cs, hcs⟩ := List.exists_cons_of_ne_nil (mt Text.toList_eq_nil_iff.1 hempty)
    have hc : c ≠ '/' := by
      rintro rfl
      simp [hcs] at hslash
    rcases parts with _ | ⟨next, parts⟩ <;> simp [hcs, hc]

private theorem takeWhile_anchor {a : Anchor} {cs : List CodePoint} (h : cs.head? ≠ some (.char '/')) :
    (a.text.toList ++ cs).takeWhile (· = CodePoint.char '/') = a.text.toList := by
  have hcs : cs.takeWhile (· = CodePoint.char '/') = [] := by
    rcases cs with _ | ⟨c, cs⟩
    · rfl
    · rw [List.takeWhile_cons, if_neg (by simpa using h)]
  cases a <;> simp [Anchor.text, hcs]

/-- The slashes in front give no parts. -/
theorem filter_splitSlashes_anchor (a : Anchor) (cs : List CodePoint) :
    (splitSlashes [] (a.text.toList ++ cs)).filter (fun part : Text => part ≠ "" && part ≠ ".") =
      (splitSlashes [] cs).filter fun part : Text => part ≠ "" && part ≠ "." := by
  cases a <;> simp [Anchor.text, splitSlashes]

/-- A plain path is read back from what is written for it. -/
theorem ofString_toString {p : Path} (h : p.IsPlain) : ofString p.toString = p := by
  rcases p with ⟨a, parts⟩
  unfold toString
  dsimp only
  split
  · -- only the empty path is written as a dot
    next hempty =>
    obtain ⟨ha, hparts⟩ : a.text = "" ∧ Text.intercalate "/" parts = "" := by simpa using hempty
    have hrelative : a = .relative := by
      cases a with
      | relative => rfl
      | root | doubleRoot => exact absurd ha (by decide)
    have hnil : parts = [] := by
      refine Decidable.byContradiction fun hne => ?_
      have hpieces := splitSlashes_intercalate hne fun part hpart => (h part hpart).2.2
      rw [hparts] at hpieces
      exact (h "" (hpieces ▸ List.mem_singleton_self _)).1 rfl
    subst hrelative hnil
    decide
  · have hanchor : anchorOf (a.text.toList ++ (Text.intercalate "/" parts).toList) = a := by
      unfold anchorOf
      rw [takeWhile_anchor (head?_intercalate h)]
      cases a <;> rfl
    unfold ofString
    rw [Text.toList_append, hanchor, filter_splitSlashes_anchor]
    rcases parts with _ | ⟨part, parts⟩
    · rfl
    · rw [splitSlashes_intercalate (by simp) fun part hpart => (h part hpart).2.2, List.filter_eq_self.2]
      intro part hpart
      simpa using ⟨(h part hpart).1, (h part hpart).2.1⟩

/-- Plain paths are written alike only if they are the same. -/
theorem IsPlain.eq_of_toString_eq {p q : Path} (hp : p.IsPlain) (hq : q.IsPlain) (h : p.toString = q.toString) :
    p = q := by
  rw [← ofString_toString hp, h, ofString_toString hq]

end Path

end ErlangMacros
