import ErlangMacros.Lexer.Scan
import Mathlib.Data.List.TakeWhile

/-!
# Scans and the text behind

A scan finds the length of a lexeme at the front of a text.  More text behind never makes the lexeme shorter, and the
lexeme is found again if the text is cut right behind it (`IsScan`).  The scans of names and numbers are such, and so is
a scan that goes on where another one stopped, if the other one would not have gone on there (`IsScan.seq`).
-/

namespace ErlangMacros

/-! ### Characters -/

namespace Text

private theorem inRanges_eq_false {ranges ranges' : List (Nat × Nat)} {n : Nat}
    (hdisjoint : (ranges.all fun r => ranges'.all fun r' => r.2 < r'.1 || r'.2 < r.1) = true)
    (h : inRanges ranges n = true) : inRanges ranges' n = false := by
  rw [Bool.eq_false_iff]
  intro h'
  obtain ⟨r, hr, hlow, hhigh⟩ := inRanges_iff.1 h
  obtain ⟨r', hr', hlow', hhigh'⟩ := inRanges_iff.1 h'
  have hapart := List.all_eq_true.1 (List.all_eq_true.1 hdisjoint r hr) r' hr'
  simp only [Bool.or_eq_true, decide_eq_true_eq] at hapart
  omega

/-- Every range is inside one of `ranges`.  Both lists are in order, so what was passed for one range is not looked at for
the next. -/
def areInside : List (Nat × Nat) → List (Nat × Nat) → Bool
  | [], _ => true
  | r :: rs, ranges =>
    let left := ranges.dropWhile (·.2 < r.1)
    left.head?.any (fun r' => r'.1 ≤ r.1 && r.2 ≤ r'.2) && areInside rs left

private theorem exists_of_areInside {rs ranges : List (Nat × Nat)} (h : areInside rs ranges = true) {r : Nat × Nat}
    (hr : r ∈ rs) : ∃ r' ∈ ranges, r'.1 ≤ r.1 ∧ r.2 ≤ r'.2 := by
  induction rs generalizing ranges with
  | nil => cases hr
  | cons s rs ih =>
    simp only [areInside, Bool.and_eq_true] at h
    have hsuffix := List.dropWhile_suffix (fun r' : Nat × Nat => decide (r'.2 < s.1)) (l := ranges)
    rcases List.mem_cons.1 hr with rfl | hr
    · obtain ⟨r', hhead, haround⟩ := (Option.any_eq_true _ _).1 h.1
      simp only [Bool.and_eq_true, decide_eq_true_eq] at haround
      exact ⟨r', hsuffix.subset (List.mem_of_head? hhead), haround⟩
    · obtain ⟨r', hr', haround⟩ := ih h.2 hr
      exact ⟨r', hsuffix.subset hr', haround⟩

private theorem inRanges_of_areInside {rs ranges : List (Nat × Nat)} {n : Nat} (hinside : areInside rs ranges = true)
    (h : inRanges rs n = true) : inRanges ranges n = true := by
  obtain ⟨r, hr, hlow, hhigh⟩ := inRanges_iff.1 h
  obtain ⟨r', hr', haround⟩ := exists_of_areInside hinside hr
  exact inRanges_iff.2 ⟨r', hr', by omega, by omega⟩

theorem forall_ascii {P : CodePoint → Prop} (h : ∀ n < 128, P (Char.ofNat n)) {c : CodePoint} (hc : c.toNat < 128) :
    P c := by
  obtain ⟨d, rfl⟩ := CodePoint.isChar_iff.1 (CodePoint.isChar_of_lt hc)
  rw [← Char.ofNat_toNat d]
  exact h d.toNat hc

/-! In ASCII the classes are the usual ones. -/

theorem isDigit_of_ascii {c : CodePoint} (hc : c.toNat < 128) : isDigit c = c.isDigit :=
  if_pos hc

theorem isAlphanumeric_of_ascii {c : CodePoint} (hc : c.toNat < 128) : isAlphanumeric c = c.isAlphanum :=
  if_pos hc

private theorem isLower_of_ascii {c : CodePoint} (hc : c.toNat < 128) : isLower c = c.isLower :=
  if_pos hc

private theorem isUpper_of_ascii {c : CodePoint} (hc : c.toNat < 128) : isUpper c = c.isUpper :=
  if_pos hc

private theorem isBlank_of_isAlphanumeric {c : CodePoint} (h : isAlphanumeric c = true) : isBlank c = false := by
  by_cases hc : c.toNat < 128
  · exact forall_ascii (P := fun c => isAlphanumeric c = true → isBlank c = false) (by decide +kernel) hc h
  · rw [isAlphanumeric, if_neg hc] at h
    rw [isBlank, if_neg hc]
    exact inRanges_eq_false (by decide +kernel) h

theorem isBlank_of_isDigit {c : CodePoint} (h : isDigit c = true) : isBlank c = false := by
  by_cases hc : c.toNat < 128
  · exact forall_ascii (P := fun c => isDigit c = true → isBlank c = false) (by decide +kernel) hc h
  · rw [isDigit, if_neg hc] at h
    rw [isBlank, if_neg hc]
    exact inRanges_eq_false (by decide +kernel) h

theorem isAlphanumeric_of_isDigit {c : CodePoint} (h : isDigit c = true) : isAlphanumeric c = true := by
  by_cases hc : c.toNat < 128
  · rw [isDigit_of_ascii hc] at h
    rw [isAlphanumeric_of_ascii hc, CodePoint.isAlphanum, h, Bool.or_true]
  · rw [isDigit, if_neg hc] at h
    rw [isAlphanumeric, if_neg hc]
    exact inRanges_of_areInside (by decide +kernel) h

/-- A letter of one of the cases that does not stand in names, such as a circled one. -/
def isNameless (c : CodePoint) : Bool :=
  (isLower c || isUpper c) && !isAlphanumeric c

theorem isNameless_of_ascii {c : CodePoint} (hc : c.toNat < 128) : isNameless c = false := by
  rw [isNameless, isLower_of_ascii hc, isUpper_of_ascii hc, isAlphanumeric_of_ascii hc, CodePoint.isAlphanum]
  cases c.isLower <;> cases c.isUpper <;> rfl

/-! A surrogate belongs to no class. -/

private theorem isChar_of_inRanges {ranges : List (Nat × Nat)} {c : CodePoint}
    (hdisjoint : (ranges.all fun r => r.2 < 0xD800 || 0xDFFF < r.1) = true) (h : inRanges ranges c.toNat = true) :
    c.isChar = true := by
  cases c with
  | char c => rfl
  | surrogate n =>
    obtain ⟨r, hr, hlow, hhigh⟩ := inRanges_iff.1 h
    have hapart := List.all_eq_true.1 hdisjoint r hr
    simp only [Bool.or_eq_true, decide_eq_true_eq, CodePoint.toNat] at hapart hlow hhigh
    omega

private theorem isChar_of_inAlternating {ranges : List (Nat × Nat)} {c : CodePoint}
    (hdisjoint : (ranges.all fun r => r.2 < 0xD800 || 0xDFFF < r.1) = true)
    (h : inAlternating ranges c.toNat = true) : c.isChar = true := by
  refine isChar_of_inRanges hdisjoint (inRanges_iff.2 ?_)
  obtain ⟨r, hr, hinside⟩ := List.any_eq_true.1 h
  simp only [Bool.and_eq_true, decide_eq_true_eq] at hinside
  exact ⟨r, hr, hinside.1⟩

theorem isChar_of_isBlank {c : CodePoint} (h : isBlank c = true) : c.isChar = true := by
  by_cases hc : c.toNat < 128
  · exact CodePoint.isChar_of_lt hc
  · rw [isBlank, if_neg hc] at h
    exact isChar_of_inRanges (by decide) h

private theorem isChar_of_isAlphanumeric {c : CodePoint} (h : isAlphanumeric c = true) : c.isChar = true := by
  by_cases hc : c.toNat < 128
  · exact CodePoint.isChar_of_lt hc
  · rw [isAlphanumeric, if_neg hc] at h
    exact isChar_of_inRanges (by decide +kernel) h

theorem isChar_of_isLower {c : CodePoint} (h : isLower c = true) : c.isChar = true := by
  by_cases hc : c.toNat < 128
  · exact CodePoint.isChar_of_lt hc
  · rw [isLower, if_neg hc, Bool.or_eq_true] at h
    exact h.elim (isChar_of_inRanges (by decide +kernel)) (isChar_of_inAlternating (by decide +kernel))

theorem isChar_of_isUpper {c : CodePoint} (h : isUpper c = true) : c.isChar = true := by
  by_cases hc : c.toNat < 128
  · exact CodePoint.isChar_of_lt hc
  · rw [isUpper, if_neg hc, Bool.or_eq_true] at h
    exact h.elim (isChar_of_inRanges (by decide +kernel)) (isChar_of_inAlternating (by decide +kernel))

end Text

namespace Scan

/-- A character that is not blank. -/
def IsSolid (c : CodePoint) : Prop :=
  Text.isBlank c = false ∧ c.isChar = true

private theorem isSolid_of_isAlphanumeric {c : CodePoint} (h : Text.isAlphanumeric c = true) : IsSolid c :=
  ⟨Text.isBlank_of_isAlphanumeric h, Text.isChar_of_isAlphanumeric h⟩

theorem isSolid_of_isDigit {c : CodePoint} (h : Text.isDigit c = true) : IsSolid c :=
  isSolid_of_isAlphanumeric (Text.isAlphanumeric_of_isDigit h)

theorem isSolid_of_isNameChar {c : CodePoint} (h : isNameChar c = true) : IsSolid c := by
  simp only [isNameChar, Bool.or_eq_true, decide_eq_true_eq] at h
  rcases h with (h | rfl) | rfl
  · exact isSolid_of_isAlphanumeric h
  · exact ⟨by decide, rfl⟩
  · exact ⟨by decide, rfl⟩

theorem isSolid_of_isOctal {c : CodePoint} (h : Escape.isOctal c = true) : IsSolid c := by
  have hc : c.toNat < 128 := by
    have hcode := h
    simp only [Escape.isOctal, Bool.and_eq_true, decide_eq_true_eq, Char.reduceToNat] at hcode
    omega
  refine ⟨?_, CodePoint.isChar_of_lt hc⟩
  exact Text.forall_ascii (P := fun c => Escape.isOctal c = true → Text.isBlank c = false) (by decide +kernel) hc h

/-! ### Scans -/

/-- A scan finds the front of a text again, whatever stands behind, or more of it. -/
structure IsScan (f : List CodePoint → Nat) : Prop where
  le_length : ∀ cs, f cs ≤ cs.length
  le_append : ∀ cs ds, f cs ≤ f (cs ++ ds)
  le_take : ∀ cs, f cs ≤ f (cs.take (f cs))

/-- A character of a kind and what is found behind it, if there is something. -/
def marked (p : CodePoint → Bool) (f : List CodePoint → Nat) : List CodePoint → Nat
  | [] => 0
  | c :: cs => if p c && 0 < f cs then f cs + 1 else 0

namespace IsScan

variable {f g : List CodePoint → Nat} {cs : List CodePoint} {m : Nat}

private theorem take_le (hf : IsScan f) (cs : List CodePoint) (m : Nat) : f (cs.take m) ≤ f cs := by
  have happend := hf.le_append (cs.take m) (cs.drop m)
  rwa [List.take_append_drop] at happend

/-- What is found does not depend on the text behind it. -/
theorem take_eq (hf : IsScan f) (h : f cs ≤ m) : f (cs.take m) = f cs := by
  refine Nat.le_antisymm (hf.take_le cs m) ?_
  have hcut : (cs.take m).take (f cs) = cs.take (f cs) := by rw [List.take_take, Nat.min_eq_left h]
  calc f cs ≤ f (cs.take (f cs)) := hf.le_take cs
    _ = f ((cs.take m).take (f cs)) := by rw [hcut]
    _ ≤ f (cs.take m) := hf.take_le _ _

/-- One scan after the other, if the first one stops where the second one finds something. -/
theorem seq (hf : IsScan f) (hg : IsScan g) (hstop : ∀ cs ds, 0 < g (cs.drop (f cs)) → f (cs ++ ds) = f cs) :
    IsScan fun cs => f cs + g (cs.drop (f cs)) where
  le_length cs := by
    have hfirst := hf.le_length cs
    have hsecond := hg.le_length (cs.drop (f cs))
    rw [List.length_drop] at hsecond
    omega
  le_append cs ds := by
    have hfirst := hf.le_append cs ds
    rcases Nat.eq_zero_or_pos (g (cs.drop (f cs))) with hzero | hpos
    · omega
    · have hsecond := hg.le_append (cs.drop (f cs)) ds
      rw [hstop cs ds hpos, List.drop_append_of_le_length (hf.le_length cs)]
      omega
  le_take cs := by
    have hfirst : f (cs.take (f cs + g (cs.drop (f cs)))) = f cs := hf.take_eq (Nat.le_add_right _ _)
    have hsecond := hg.le_take (cs.drop (f cs))
    rw [hfirst, List.drop_take, Nat.add_sub_cancel_left]
    omega

/-- A scan behind a character of a kind, if it finds something there. -/
theorem mark (hf : IsScan f) (p : CodePoint → Bool) : IsScan (marked p f) where
  le_length
    | [] => Nat.le_refl _
    | c :: cs => by
      have := hf.le_length cs
      rw [marked, List.length_cons]
      split <;> omega
  le_append
    | [], _ => Nat.zero_le _
    | c :: cs, ds => by
      have := hf.le_append cs ds
      rw [marked, List.cons_append, marked]
      split
      · next hc =>
        rw [Bool.and_eq_true, decide_eq_true_eq] at hc
        have hpos : 0 < f (cs ++ ds) := by omega
        rw [if_pos (by simp [hc, hpos])]
        omega
      · exact Nat.zero_le _
  le_take
    | [] => Nat.le_refl _
    | c :: cs => by
      have := hf.le_take cs
      rw [marked]
      split
      · next hc =>
        rw [Bool.and_eq_true, decide_eq_true_eq] at hc
        have hpos : 0 < f (cs.take (f cs)) := by omega
        rw [List.take_succ_cons, marked, if_pos (by simp [hc, hpos])]
        omega
      · exact Nat.zero_le _

/-- A scan that is only made before a character of a kind, if it then finds something. -/
theorem head (hf : IsScan f) {p : CodePoint → Bool} (hpos : ∀ c cs, p c = true → 0 < f (c :: cs)) :
    IsScan fun cs => if cs.head?.any p then f cs else 0 where
  le_length cs := by
    split
    · exact hf.le_length cs
    · exact Nat.zero_le _
  le_append cs ds := by
    split
    · next hp =>
      cases cs with
      | nil => cases hp
      | cons c cs =>
        rw [if_pos (by exact hp)]
        exact hf.le_append _ _
    · exact Nat.zero_le _
  le_take cs := by
    split
    · next hp =>
      cases cs with
      | nil => cases hp
      | cons c cs =>
        obtain ⟨n, hn⟩ := Nat.exists_eq_add_one.2 (hpos c cs hp)
        have := hf.le_take (c :: cs)
        rw [hn, List.take_succ_cons] at this ⊢
        rwa [if_pos (by exact hp)]
    · exact Nat.zero_le _

/-- The second scan is only made if the first one finds nothing, not even with more text behind. -/
theorem orElse (hf : IsScan f) (hg : IsScan g) (hno : ∀ cs ds, 0 < g cs → f (cs ++ ds) = 0) :
    IsScan fun cs => if 0 < f cs then f cs else g cs where
  le_length cs := by
    split
    · exact hf.le_length cs
    · exact hg.le_length cs
  le_append cs ds := by
    have hfirst := hf.le_append cs ds
    have hsecond := hg.le_append cs ds
    split
    · rw [if_pos (by omega)]
      exact hfirst
    · rcases Nat.eq_zero_or_pos (g cs) with hzero | hpos
      · omega
      · rw [hno cs ds hpos, if_neg (by omega)]
        exact hsecond
  le_take cs := by
    split
    · have := hf.le_take cs
      rw [if_pos (by omega)]
      exact this
    · have hnone := hf.take_le cs (g cs)
      rw [if_neg (by omega)]
      exact hg.le_take cs

end IsScan

theorem drop_length_takeWhile (p : CodePoint → Bool) (cs : List CodePoint) :
    cs.drop (cs.takeWhile p).length = cs.dropWhile p := by
  have hsplit := congrArg (List.drop (cs.takeWhile p).length) (List.takeWhile_append_dropWhile (p := p) (l := cs))
  rwa [List.drop_left, eq_comm] at hsplit

theorem isScan_takeWhile (p : CodePoint → Bool) : IsScan fun cs => (cs.takeWhile p).length where
  le_length _ := (List.takeWhile_sublist p).length_le
  le_append cs ds := by
    rw [List.takeWhile_append]
    split
    · next hall => simp [hall]
    · exact Nat.le_refl _
  le_take cs := by rw [← List.prefix_iff_eq_take.1 (List.takeWhile_prefix p), List.takeWhile_takeWhile]; simp

/-- A scan finds only characters of a kind. -/
def Finds (P : CodePoint → Prop) (f : List CodePoint → Nat) : Prop :=
  ∀ cs : List CodePoint, ∀ c ∈ cs.take (f cs), P c

namespace Finds

variable {P : CodePoint → Prop} {f g : List CodePoint → Nat}

theorem seq (hf : Finds P f) (hg : Finds P g) : Finds P fun cs => f cs + g (cs.drop (f cs)) := by
  intro cs c hc
  rw [List.take_add, List.mem_append] at hc
  exact hc.elim (hf cs c) (hg _ c)

theorem mark (hf : Finds P f) {p : CodePoint → Bool} (hp : ∀ c, p c = true → P c) : Finds P (marked p f)
  | [], c, hc => by simp at hc
  | d :: cs, c, hc => by
    rw [marked] at hc
    split at hc
    · next hd =>
      rw [List.take_succ_cons, List.mem_cons] at hc
      rcases hc with rfl | hc
      · exact hp c (Bool.and_eq_true_iff.1 hd).1
      · exact hf cs c hc
    · simp at hc

theorem ite (hf : Finds P f) (hg : Finds P g) (b : List CodePoint → Prop) [DecidablePred b] :
    Finds P fun cs => if b cs then f cs else g cs := by
  intro cs c hc
  dsimp only at hc
  split at hc
  · exact hf cs c hc
  · exact hg cs c hc

theorem zero : Finds P fun _ => 0 := by
  intro cs c hc
  simp at hc

end Finds

theorem finds_takeWhile {P : CodePoint → Prop} {p : CodePoint → Bool} (hp : ∀ c, p c = true → P c) :
    Finds P fun cs => (cs.takeWhile p).length := by
  intro cs c hc
  rw [← List.prefix_iff_eq_take.1 (List.takeWhile_prefix p)] at hc
  exact hp c (List.mem_takeWhile_imp hc)

/-! ### Numbers -/

private theorem startsWithDigit_append {cs : List CodePoint} (ds : List CodePoint) (h : startsWithDigit cs = true) :
    startsWithDigit (cs ++ ds) = true := by
  cases cs with
  | nil => cases h
  | cons c cs => exact h

theorem startsWithDigit_take {cs : List CodePoint} {n : Nat} (hn : 0 < n) (h : startsWithDigit cs = true) :
    startsWithDigit (cs.take n) = true := by
  cases cs with
  | nil => cases h
  | cons c cs =>
    obtain ⟨n, rfl⟩ := Nat.exists_eq_add_one.2 hn
    exact h

theorem digits_pos {cs : List CodePoint} (started : Bool) (h : startsWithDigit cs = true) : 0 < digits started cs := by
  cases cs with
  | nil => cases h
  | cons c cs =>
    have hc : Text.isDigit c = true := h
    rw [digits, if_pos hc]
    exact Nat.succ_pos _

/-- A run of digits consists of digits and underscores. -/
theorem finds_digits (started : Bool) : Finds (fun c => Text.isDigit c = true ∨ c = '_') (digits started) := by
  intro cs
  induction cs generalizing started with
  | nil => simp
  | cons d cs ih =>
    intro c hc
    have hrest := ih true
    rw [digits] at hc
    split at hc
    · next hd =>
      rw [List.take_succ_cons, List.mem_cons] at hc
      rcases hc with rfl | hc
      · exact .inl hd
      · exact hrest c hc
    · split at hc
      · next hmark =>
        simp only [Bool.and_eq_true, decide_eq_true_eq] at hmark
        rw [List.take_succ_cons, List.mem_cons, hmark.1.1] at hc
        rcases hc with rfl | hc
        · exact .inr rfl
        · exact hrest c hc
      · simp at hc

theorem isScan_digits (started : Bool) : IsScan (digits started) where
  le_length cs := by
    induction cs generalizing started with
    | nil => exact Nat.le_refl _
    | cons c cs ih =>
      have := ih true
      rw [digits, List.length_cons]
      split
      · omega
      · split <;> omega
  le_append cs ds := by
    induction cs generalizing started with
    | nil => exact Nat.zero_le _
    | cons c cs ih =>
      have := ih true
      rw [digits, List.cons_append, digits]
      split
      · omega
      · split
        · next hmark =>
          simp only [Bool.and_eq_true] at hmark
          rw [if_pos (by simp [hmark, startsWithDigit_append])]
          omega
        · exact Nat.zero_le _
  le_take cs := by
    induction cs generalizing started with
    | nil => exact Nat.zero_le _
    | cons c cs ih =>
      have := ih true
      rw [digits]
      split
      · next hc =>
        rw [List.take_succ_cons, digits, if_pos hc]
        omega
      · next hc =>
        split
        · next hmark =>
          simp only [Bool.and_eq_true] at hmark
          have hstart := startsWithDigit_take (digits_pos true hmark.1.2) hmark.1.2
          rw [List.take_succ_cons, digits, if_neg hc, if_pos (by simp [hmark, hstart])]
          omega
        · exact Nat.zero_le _

/-- Digits stop before a character that is neither a digit nor an underscore. -/
theorem digits_append_of_stop {started : Bool} {cs : List CodePoint} (ds : List CodePoint) {c : CodePoint}
    (h : (cs.drop (digits started cs)).head? = some c) (hc : c ≠ '_') :
    digits started (cs ++ ds) = digits started cs := by
  induction cs generalizing started with
  | nil => cases h
  | cons d cs ih =>
    rw [digits] at h ⊢
    rw [List.cons_append, digits]
    split at h
    · next hd =>
      rw [if_pos hd, if_pos hd, ih h]
    · next hd =>
      rw [if_neg hd, if_neg hd]
      split at h
      · next hmark =>
        simp only [Bool.and_eq_true] at hmark
        rw [if_pos (by simp [hmark, startsWithDigit_append]), if_pos (by simp [hmark]), ih h]
      · next hmark =>
        obtain rfl : d = c := by simpa using h
        rw [if_neg (by simp [hc]), if_neg hmark]

theorem digits_pos_iff {cs : List CodePoint} : 0 < digits false cs ↔ startsWithDigit cs = true := by
  refine ⟨fun h => ?_, digits_pos false⟩
  cases cs with
  | nil => cases h
  | cons c cs =>
    rw [digits] at h
    split at h
    · assumption
    · simp at h

private theorem digits_eq_zero {c : CodePoint} (cs : List CodePoint) (h : Text.isDigit c = false) :
    digits false (c :: cs) = 0 := by
  simp [digits, h]

theorem basedDigits_eq : basedDigits = marked (· = CodePoint.char '#') fun cs =>
    if cs.head?.any Text.isAlphanumeric then (cs.takeWhile isBasedDigit).length else 0 := by
  funext cs
  match cs with
  | [] => rfl
  | c :: cs =>
    by_cases hc : c = '#'
    · subst hc
      cases cs with
      | nil => rfl
      | cons d cs => by_cases hd : Text.isAlphanumeric d = true <;> simp [basedDigits, marked, isBasedDigit, hd]
    · simp [basedDigits, marked, hc]

private theorem isScan_basedDigits : IsScan basedDigits := by
  rw [basedDigits_eq]
  exact ((isScan_takeWhile isBasedDigit).head fun c cs hc => by simp [isBasedDigit, hc]).mark _

theorem exponent_eq : exponent = marked (fun c => c = 'e' || c = 'E') fun cs =>
    if 0 < digits false cs then digits false cs
    else marked (fun c => c = '+' || c = '-') (digits false) cs := by
  funext cs
  match cs with
  | [] => rfl
  | e :: cs =>
    by_cases he : (e = 'e' || e = 'E') = true
    · cases cs with
      | nil => simp [exponent, marked, digits]
      | cons s ds =>
        by_cases hs : Text.isDigit s = true
        · have hpos : 0 < digits false (s :: ds) := digits_pos_iff.2 hs
          simp [exponent, marked, he, hs, hpos]
        · rw [Bool.not_eq_true] at hs
          by_cases hsign : (s = '+' || s = '-') = true <;> by_cases hds : 0 < digits false ds <;>
            simp [exponent, marked, he, hs, digits_eq_zero, hsign, hds, ← digits_pos_iff]
    · simp [exponent, marked, he]

theorem isScan_exponent : IsScan exponent := by
  rw [exponent_eq]
  refine ((isScan_digits false).orElse ((isScan_digits false).mark _) fun cs ds h => ?_).mark _
  cases cs with
  | nil => cases h
  | cons c cs =>
    rw [marked] at h
    split at h
    · next hc =>
      simp only [Bool.and_eq_true, Bool.or_eq_true, decide_eq_true_eq] at hc
      exact digits_eq_zero _ (by rcases hc.1 with rfl | rfl <;> decide)
    · cases h

theorem fraction_eq : fraction = marked (· = CodePoint.char '.') fun cs =>
    if cs.head?.any Text.isDigit then digits false cs + exponent (cs.drop (digits false cs)) else 0 := by
  funext cs
  match cs with
  | [] => rfl
  | c :: cs =>
    by_cases hc : c = '.'
    · subst hc
      by_cases hd : startsWithDigit cs = true
      · have hpos := digits_pos false hd
        rw [startsWithDigit] at hd
        have hne : digits false cs ≠ 0 := by omega
        simp [fraction, marked, startsWithDigit, hd, hne]
      · rw [startsWithDigit] at hd
        simp [fraction, marked, startsWithDigit, hd]
    · simp [fraction, marked, hc]

/-- What a scan behind a mark finds starts with the mark. -/
theorem head_of_marked_pos {p : CodePoint → Bool} {f : List CodePoint → Nat} {cs : List CodePoint} (h : 0 < marked p f cs) :
    ∃ c ∈ cs.head?, p c = true := by
  cases cs with
  | nil => cases h
  | cons c cs =>
    rw [marked] at h
    split at h
    · next hc => exact ⟨c, rfl, (Bool.and_eq_true_iff.1 hc).1⟩
    · cases h

/-- Digits stop where something is found behind a mark that is no part of them. -/
theorem digits_append_of_marked {p : CodePoint → Bool} {f : List CodePoint → Nat} {cs : List CodePoint}
    (ds : List CodePoint) (hp : p '_' = false) (h : 0 < marked p f (cs.drop (digits false cs))) :
    digits false (cs ++ ds) = digits false cs := by
  obtain ⟨c, hc, hmark⟩ := head_of_marked_pos h
  refine digits_append_of_stop ds hc ?_
  rintro rfl
  rw [hp] at hmark
  cases hmark

private theorem isScan_fraction : IsScan fraction := by
  rw [fraction_eq]
  refine (((isScan_digits false).seq isScan_exponent fun cs ds h => ?_).head fun c cs hc => ?_).mark _
  · rw [exponent_eq] at h
    exact digits_append_of_marked ds (by decide) h
  · have hpos : 0 < digits false (c :: cs) := digits_pos_iff.2 hc
    omega

/-- The length of what follows the first digits of a number. -/
def afterDigits (cs : List CodePoint) : Nat :=
  if 0 < basedDigits cs then basedDigits cs else fraction cs

/-- What is a fraction, and starts with a point, is no part of a based integer. -/
theorem basedDigits_append_of_fraction_pos {cs : List CodePoint} (ds : List CodePoint) (h : 0 < fraction cs) :
    basedDigits (cs ++ ds) = 0 := by
  rw [fraction_eq] at h
  obtain ⟨c, hc, hmark⟩ := head_of_marked_pos h
  cases cs with
  | nil => cases hc
  | cons d cs =>
    obtain rfl : d = c := by simpa using hc
    obtain rfl : d = '.' := by simpa using hmark
    simp [basedDigits_eq, marked]

theorem isScan_afterDigits : IsScan afterDigits :=
  isScan_basedDigits.orElse isScan_fraction fun _ ds h => basedDigits_append_of_fraction_pos ds h

/-- The kind of a number is told by what follows its first digits. -/
theorem number_eq (cs : List CodePoint) :
    number cs =
      (if 0 < basedDigits (cs.drop (digits false cs)) then .integer
        else if 0 < fraction (cs.drop (digits false cs)) then .float else .integer,
        digits false cs + afterDigits (cs.drop (digits false cs))) := by
  rw [number, afterDigits]
  split
  · rfl
  · split <;> simp_all

theorem number_pos {cs : List CodePoint} (h : startsWithDigit cs = true) : 0 < (number cs).2 := by
  rw [number_eq]
  exact Nat.add_pos_left (digits_pos false h) _

theorem isScan_number : IsScan fun cs => (number cs).2 := by
  have hscan := (isScan_digits false).seq isScan_afterDigits fun cs ds h => ?_
  · simpa only [number_eq] using hscan
  · unfold afterDigits at h
    split at h
    · rw [basedDigits_eq] at h
      exact digits_append_of_marked ds (by decide) h
    · rw [fraction_eq] at h
      exact digits_append_of_marked ds (by decide) h

private theorem findsSolid_digits (started : Bool) : Finds IsSolid (digits started) := by
  intro cs c hc
  rcases finds_digits started cs c hc with hdigit | rfl
  · exact isSolid_of_isDigit hdigit
  · exact ⟨by decide, rfl⟩

/-- A number consists of characters that are not blank. -/
theorem findsSolid_number : Finds IsSolid fun cs => (number cs).2 := by
  have hbased : Finds IsSolid basedDigits := by
    rw [basedDigits_eq]
    refine ((finds_takeWhile fun c hc => ?_).ite .zero _).mark fun c hc => ?_
    · simp only [isBasedDigit, Bool.or_eq_true, decide_eq_true_eq] at hc
      rcases hc with hc | rfl
      · exact isSolid_of_isAlphanumeric hc
      · exact ⟨by decide, rfl⟩
    · obtain rfl : c = '#' := by simpa using hc
      exact ⟨by decide, rfl⟩
  have hexponent : Finds IsSolid exponent := by
    rw [exponent_eq]
    refine ((findsSolid_digits false).ite ((findsSolid_digits false).mark fun c hc => ?_) _).mark fun c hc => ?_
    · simp only [Bool.or_eq_true, decide_eq_true_eq] at hc
      rcases hc with rfl | rfl <;> exact ⟨by decide, rfl⟩
    · simp only [Bool.or_eq_true, decide_eq_true_eq] at hc
      rcases hc with rfl | rfl <;> exact ⟨by decide, rfl⟩
  have hfraction : Finds IsSolid fraction := by
    rw [fraction_eq]
    refine (((findsSolid_digits false).seq hexponent).ite .zero _).mark fun c hc => ?_
    obtain rfl : c = '.' := by simpa using hc
    exact ⟨by decide, rfl⟩
  have hafter : Finds IsSolid afterDigits := hbased.ite hfraction _
  simpa only [number_eq] using (findsSolid_digits false).seq hafter

/-- A number is found again, and of the same kind. -/
theorem number_take {cs : List CodePoint} {m : Nat} (h : (number cs).2 ≤ m) : number (cs.take m) = number cs := by
  rw [number_eq] at h
  have hdigits : digits false (cs.take m) = digits false cs := (isScan_digits false).take_eq (by dsimp only at h; omega)
  rw [number_eq, number_eq, hdigits, List.drop_take]
  generalize cs.drop (digits false cs) = rest at h ⊢
  have hafter : afterDigits rest ≤ m - digits false cs := by
    dsimp only at h
    omega
  rw [isScan_afterDigits.take_eq hafter]
  unfold afterDigits at hafter
  split at hafter
  · next hbased => rw [isScan_basedDigits.take_eq hafter, if_pos hbased, if_pos hbased]
  · next hbased =>
    have hnone := isScan_basedDigits.take_le rest (m - digits false cs)
    rw [isScan_fraction.take_eq hafter, if_neg hbased, if_neg (by omega)]

end Scan

end ErlangMacros
