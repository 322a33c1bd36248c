import ErlangMacros.Proofs.Lexer.Munch
import Mathlib.Computability.Language

/-!
# The languages of numbers and symbols

Numbers are a regular language (`Scan.numbers`), and symbols a finite one (`Scan.symbolTexts`).  A scan has a language too:
the texts that it finds as a whole (`Scan.language`).  Languages of scans are put together as the scans are
(`language_marked`, `language_orElse`, `IsScan.language_seq`), and repetitions come from Arden's lemma.  So the language of
the scan for numbers is the one of numbers (`mem_numbers_iff`), and the scan finds the longest of them at the front of a
text, since more text behind never makes it find less (`isLongest_number`).

The lexer reads the longest number and the longest symbol (`Lexer.number_and_symbol_are_longest`).
-/

namespace ErlangMacros

open Computability

namespace Scan

/-! ### Numbers and symbols -/

/-- The texts of one character of a kind. -/
def oneOf (p : CodePoint → Bool) : Language CodePoint :=
  {cs | ∃ c, p c = true ∧ cs = [c]}

/-- One digit and then digits, each with or without an underscore before it. -/
def digitRuns : Language CodePoint :=
  oneOf Text.isDigit * ((1 + oneOf (· = CodePoint.char '_')) * oneOf Text.isDigit)∗

/-- Digits that name a base, a number sign, and letters and digits, with underscores behind the first one. -/
def basedIntegers : Language CodePoint :=
  digitRuns * oneOf (· = CodePoint.char '#') * oneOf Text.isAlphanumeric *
    (oneOf Text.isAlphanumeric + oneOf (· = CodePoint.char '_'))∗

/-- Digits on both sides of a point, and maybe an exponent, which may have a sign. -/
def floats : Language CodePoint :=
  digitRuns * oneOf (· = CodePoint.char '.') * digitRuns *
    (1 + oneOf (fun c => c = 'e' || c = 'E') * (1 + oneOf (fun c => c = '+' || c = '-')) * digitRuns)

/-- How a number is written. -/
def numbers : Language CodePoint :=
  digitRuns + basedIntegers + floats

/-- How an operator or a punctuator is written. -/
def symbolTexts : Language CodePoint :=
  {cs | ∃ s ∈ operators ++ punctuators, s.toList = cs}

/-- Of the texts of a language, `ds` is the longest one that `cs` starts with. -/
structure IsLongest (L : Language CodePoint) (cs ds : List CodePoint) : Prop where
  mem : ds ∈ L
  begins : ds <+: cs
  length_le : ∀ es ∈ L, es <+: cs → es.length ≤ ds.length

variable {p q : CodePoint → Bool} {L : Language CodePoint} {f g : List CodePoint → Nat} {c : CodePoint}
  {cs ds : List CodePoint}

private theorem mem_oneOf : cs ∈ oneOf p ↔ ∃ c, p c = true ∧ cs = [c] :=
  Iff.rfl

@[simp]
theorem nil_notMem_oneOf_mul : [] ∉ oneOf p * L := by
  simp [Language.mem_mul, mem_oneOf]

@[simp]
theorem cons_mem_oneOf_mul : c :: cs ∈ oneOf p * L ↔ p c = true ∧ cs ∈ L := by
  rw [Language.mem_mul]
  constructor
  · rintro ⟨_, ⟨d, hd, rfl⟩, b, hb, heq⟩
    cases heq
    exact ⟨hd, hb⟩
  · rintro ⟨hc, hcs⟩
    exact ⟨[c], ⟨c, hc, rfl⟩, cs, hcs, rfl⟩

private theorem oneOf_or : oneOf (fun c => p c || q c) = oneOf p + oneOf q := by
  refine Language.ext fun cs => ?_
  simp only [Language.mem_add, mem_oneOf, Bool.or_eq_true, or_and_right, exists_or]

/-! ### The language of a scan -/

/-- The texts that a scan finds as a whole. -/
def language (f : List CodePoint → Nat) : Language CodePoint :=
  {cs | cs ≠ [] ∧ f cs = cs.length}

private theorem mem_language : cs ∈ language f ↔ cs ≠ [] ∧ f cs = cs.length :=
  Iff.rfl

private theorem pos_of_mem_language (h : cs ∈ language f) : 0 < f cs := by
  rw [h.2]
  exact List.length_pos_iff.2 h.1

theorem language_marked (p : CodePoint → Bool) (f : List CodePoint → Nat) :
    language (marked p f) = oneOf p * language f := by
  refine Language.ext fun cs => ?_
  cases cs with
  | nil => simp [mem_language]
  | cons c cs =>
    rw [cons_mem_oneOf_mul, mem_language, mem_language, marked, ← List.length_pos_iff, ← List.length_pos_iff,
      List.length_cons]
    split
    · next hfound =>
      rw [Bool.and_eq_true, decide_eq_true_eq] at hfound
      rw [hfound.1, eq_self, true_and]
      omega
    · next hnot =>
      rw [Bool.and_eq_true, decide_eq_true_eq] at hnot
      refine ⟨fun h => by omega, fun h => absurd ⟨h.1, ?_⟩ hnot⟩
      omega

/-- One scan or, where it finds nothing, another one. -/
theorem language_orElse (hno : ∀ cs, 0 < g cs → f cs = 0) :
    language (fun cs => if 0 < f cs then f cs else g cs) = language f + language g := by
  refine Language.ext fun cs => ?_
  have hnone := hno cs
  rw [Language.mem_add, mem_language, mem_language, mem_language, ← and_or_left, ← List.length_pos_iff]
  refine and_congr_right fun hpos => ?_
  split <;> omega

namespace IsScan

private theorem mem_one_add_language (hf : IsScan f) : cs ∈ 1 + language f ↔ f cs = cs.length := by
  rw [Language.mem_add, Language.mem_one, mem_language]
  constructor
  · rintro (rfl | h)
    · exact Nat.le_zero.1 (hf.le_length [])
    · exact h.2
  · intro h
    by_cases hcs : cs = []
    · exact .inl hcs
    · exact .inr ⟨hcs, h⟩

/-- A text of one language and then one of another, if the first scan does not go on where the second one
finds something. -/
theorem mem_mul_iff (hf : IsScan f) (hstop : ∀ cs ds, 0 < g ds → f (cs ++ ds) = f cs) :
    cs ∈ language f * language g ↔
      0 < f cs ∧ 0 < g (cs.drop (f cs)) ∧ f cs + g (cs.drop (f cs)) = cs.length := by
  rw [Language.mem_mul]
  constructor
  · rintro ⟨front, hfront, back, hback, rfl⟩
    have hfound : f (front ++ back) = front.length := (hstop front back (pos_of_mem_language hback)).trans hfront.2
    rw [hfound, List.drop_left, hback.2, List.length_append]
    exact ⟨List.length_pos_iff.2 hfront.1, List.length_pos_iff.2 hback.1, rfl⟩
  · rintro ⟨hfpos, hgpos, hsum⟩
    have hfront : (cs.take (f cs)).length = f cs := List.length_take_of_le (hf.le_length cs)
    have hback : g (cs.drop (f cs)) = (cs.drop (f cs)).length := by
      rw [List.length_drop]
      omega
    refine ⟨cs.take (f cs), ⟨?_, ?_⟩, cs.drop (f cs), ⟨?_, hback⟩, List.take_append_drop _ _⟩
    · exact List.ne_nil_of_length_pos (by omega)
    · rw [hf.take_eq (Nat.le_refl _), hfront]
    · exact List.ne_nil_of_length_pos (by omega)

/-- One scan and, where it finds something, another one behind it. -/
theorem language_seq (hf : IsScan f) (hg : IsScan g) (hstop : ∀ cs ds, 0 < g ds → f (cs ++ ds) = f cs) :
    language (fun cs => if 0 < f cs then f cs + g (cs.drop (f cs)) else 0) = language f * (1 + language g) := by
  refine Language.ext fun cs => ?_
  have hlength := hg.le_length (cs.drop (f cs))
  rw [List.length_drop] at hlength
  rw [mul_add, mul_one, Language.mem_add, hf.mem_mul_iff hstop, mem_language, mem_language, ← List.length_pos_iff]
  split <;> omega

end IsScan

/-! ### Runs -/

/-- A scan finds repetitions if it finds one text and then goes on as before. -/
theorem language_kstar (hL : [] ∉ L) (hunfold : 1 + language f = L * (1 + language f) + 1) : 1 + language f = L∗ := by
  rw [(Language.self_eq_mul_add_iff hL).1 hunfold, mul_one]

private theorem language_takeWhile (p : CodePoint → Bool) :
    1 + language (fun cs => (cs.takeWhile p).length) = (oneOf p)∗ := by
  refine language_kstar (by simp [mem_oneOf]) (Language.ext fun cs => ?_)
  rw [(isScan_takeWhile p).mem_one_add_language, Language.mem_add, Language.mem_one]
  cases cs with
  | nil => simp
  | cons c cs =>
    rw [cons_mem_oneOf_mul, (isScan_takeWhile p).mem_one_add_language]
    by_cases hc : p c = true <;> simp [hc]

/-- A digit and then a run of digits, which may go on with an underscore now. -/
theorem mem_digit_mul_iff (started : Bool) :
    cs ∈ oneOf Text.isDigit * (1 + language (digits true)) ↔
      startsWithDigit cs = true ∧ digits started cs = cs.length := by
  cases cs with
  | nil => simp [startsWithDigit]
  | cons c cs =>
    rw [cons_mem_oneOf_mul, (isScan_digits true).mem_one_add_language]
    refine and_congr_right fun hc => ?_
    rw [digits, if_pos hc, List.length_cons, Nat.add_right_cancel_iff]

/-- Behind a digit, a run goes on with digits, each with or without an underscore before it. -/
theorem language_digits_true :
    1 + language (digits true) = ((1 + oneOf (· = CodePoint.char '_')) * oneOf Text.isDigit)∗ := by
  refine language_kstar ?_ (Language.ext fun cs => ?_)
  · rw [add_mul, one_mul, Language.mem_add]
    rintro (⟨c, -, hnil⟩ | hnil)
    · cases hnil
    · exact nil_notMem_oneOf_mul hnil
  -- what is left is empty, or starts with a digit, or with an underscore that has a digit behind it
  rw [(isScan_digits true).mem_one_add_language, Language.mem_add, Language.mem_one, mul_assoc,
    add_mul 1 (oneOf _), one_mul, Language.mem_add]
  cases cs with
  | nil => simp [digits]
  | cons c cs =>
    rw [cons_mem_oneOf_mul, cons_mem_oneOf_mul, mem_digit_mul_iff true, (isScan_digits true).mem_one_add_language, digits,
      List.length_cons, or_iff_left (List.cons_ne_nil c cs)]
    by_cases hc : Text.isDigit c = true
    · rw [if_pos hc]
      simp +contextual [hc]
    · rw [if_neg hc, or_iff_right fun h => hc h.1]
      by_cases hmark : c = '_' <;> by_cases hstart : startsWithDigit cs = true <;> simp [hmark, hstart]

private theorem language_digits : language (digits false) = digitRuns := by
  refine Language.ext fun cs => ?_
  rw [digitRuns, ← language_digits_true, mem_digit_mul_iff false, mem_language]
  refine and_congr_left fun hall => ?_
  rw [← digits_pos_iff, hall, List.length_pos_iff]

/-- A run of digits does not go on at a character that is no part of it. -/
theorem digits_append_cons (started : Bool) (cs ds : List CodePoint) (hdigit : Text.isDigit c = false) (hmark : c ≠ '_') :
    digits started (cs ++ c :: ds) = digits started cs := by
  induction cs generalizing started with
  | nil => simp [digits, hdigit, hmark]
  | cons d cs ih =>
    have hstart : startsWithDigit (cs ++ c :: ds) = startsWithDigit cs := by
      cases cs with
      | nil => simp [startsWithDigit, hdigit]
      | cons => rfl
    rw [List.cons_append, digits, digits, hstart, ih true]

/-- Characters that are no part of a run of digits. -/
def EndsDigits (p : CodePoint → Bool) : Prop :=
  ∀ c, p c = true → Text.isDigit c = false ∧ c ≠ '_'

private theorem EndsDigits.digits_append (hp : EndsDigits p) (cs : List CodePoint) (h : 0 < marked p f ds) :
    digits false (cs ++ ds) = digits false cs := by
  obtain ⟨c, hc, hmark⟩ := head_of_marked_pos h
  obtain ⟨rest, rfl⟩ := List.head?_eq_some_iff.1 hc
  exact digits_append_cons false cs rest (hp c hmark).1 (hp c hmark).2

private theorem endsDigits_eq (hdigit : Text.isDigit c = false) (hmark : c ≠ '_') : EndsDigits (· = c) := by
  intro d hd
  obtain rfl : d = c := by simpa using hd
  exact ⟨hdigit, hmark⟩

theorem EndsDigits.or (hp : EndsDigits p) (hq : EndsDigits q) : EndsDigits fun c => p c || q c :=
  fun c hc => (Bool.or_eq_true_iff.1 hc).elim (hp c) (hq c)

/-! ### The parts of a number -/

private theorem language_basedDigits :
    language basedDigits =
      oneOf (· = CodePoint.char '#') *
        (oneOf Text.isAlphanumeric * (oneOf Text.isAlphanumeric + oneOf (· = CodePoint.char '_'))∗) := by
  have hbased : oneOf isBasedDigit = oneOf Text.isAlphanumeric + oneOf (· = CodePoint.char '_') := oneOf_or
  rw [basedDigits_eq, language_marked, ← hbased, ← language_takeWhile]
  congr 1
  refine Language.ext fun cs => ?_
  cases cs with
  | nil => simp [mem_language]
  | cons c cs =>
    rw [cons_mem_oneOf_mul, (isScan_takeWhile isBasedDigit).mem_one_add_language]
    by_cases hc : Text.isAlphanumeric c = true <;> simp [mem_language, isBasedDigit, hc]

private theorem language_exponent :
    language exponent =
      oneOf (fun c => c = 'e' || c = 'E') * ((1 + oneOf (fun c => c = '+' || c = '-')) * digitRuns) := by
  have hsigns : EndsDigits fun c => c = '+' || c = '-' :=
    (endsDigits_eq (by decide) (by decide)).or (endsDigits_eq (by decide) (by decide))
  have hno : ∀ cs, 0 < marked (fun c => c = '+' || c = '-') (digits false) cs → digits false cs = 0 :=
    fun cs h => hsigns.digits_append [] h
  rw [exponent_eq, language_marked, language_orElse hno, language_marked, language_digits, add_mul, one_mul]

private theorem language_fraction :
    language fraction = oneOf (· = CodePoint.char '.') * (digitRuns * (1 + language exponent)) := by
  have hexponents : EndsDigits fun c => c = 'e' || c = 'E' :=
    (endsDigits_eq (by decide) (by decide)).or (endsDigits_eq (by decide) (by decide))
  have hstop : ∀ cs ds, 0 < exponent ds → digits false (cs ++ ds) = digits false cs := by
    intro cs ds h
    rw [exponent_eq] at h
    exact hexponents.digits_append cs h
  rw [fraction_eq, language_marked, ← language_digits, ← (isScan_digits false).language_seq isScan_exponent hstop]
  simp only [digits_pos_iff, startsWithDigit]

private theorem language_afterDigits : language afterDigits = language basedDigits + language fraction :=
  language_orElse fun cs h => by simpa using basedDigits_append_of_fraction_pos [] h

private theorem digits_append_of_fraction (cs ds : List CodePoint) (h : 0 < fraction ds) :
    digits false (cs ++ ds) = digits false cs := by
  rw [fraction_eq] at h
  exact (endsDigits_eq (by decide) (by decide)).digits_append cs h

/-- Digits do not go on into what follows the first digits of a number. -/
theorem digits_append_of_afterDigits (cs ds : List CodePoint) (h : 0 < afterDigits ds) :
    digits false (cs ++ ds) = digits false cs := by
  unfold afterDigits at h
  split at h
  · rw [basedDigits_eq] at h
    exact (endsDigits_eq (by decide) (by decide)).digits_append cs h
  · exact digits_append_of_fraction cs ds h

private theorem floats_eq : floats = digitRuns * language fraction := by
  rw [language_fraction, language_exponent, floats]
  simp only [mul_assoc]

private theorem numbers_eq : numbers = digitRuns * (1 + language afterDigits) := by
  have hbased : basedIntegers = digitRuns * language basedDigits := by
    rw [language_basedDigits, basedIntegers]
    simp only [mul_assoc]
  rw [numbers, hbased, floats_eq, language_afterDigits, mul_add, mul_add, mul_one, add_assoc]

/-! ### Longest texts -/

/-- Numbers are what the scan for numbers finds. -/
theorem mem_numbers_iff : cs ∈ numbers ↔ startsWithDigit cs = true ∧ (number cs).2 = cs.length := by
  rw [numbers_eq, ← language_digits,
    ← (isScan_digits false).language_seq isScan_afterDigits digits_append_of_afterDigits, mem_language, number_eq,
    ← digits_pos_iff, ← List.length_pos_iff]
  split <;> omega

private theorem mem_floats_iff :
    cs ∈ floats ↔ startsWithDigit cs = true ∧ 0 < fraction (cs.drop (digits false cs)) ∧
      digits false cs + fraction (cs.drop (digits false cs)) = cs.length := by
  rw [floats_eq, ← language_digits, (isScan_digits false).mem_mul_iff digits_append_of_fraction, digits_pos_iff]

/-- A number is taken for a float if and only if it is written as one. -/
theorem number_eq_float_iff (h : cs ∈ numbers) : (number cs).1 = .float ↔ cs ∈ floats := by
  obtain ⟨hstart, hlength⟩ := mem_numbers_iff.1 h
  rw [number_eq, afterDigits] at hlength
  rw [number_eq, mem_floats_iff]
  constructor
  · intro hkind
    dsimp only at hkind hlength
    split at hkind
    · cases hkind
    · next hbased =>
      rw [if_neg hbased] at hlength
      split at hkind
      · next hfraction => exact ⟨hstart, hfraction, hlength⟩
      · cases hkind
  · rintro ⟨-, hfraction, -⟩
    have hbased := basedDigits_append_of_fraction_pos [] hfraction
    rw [List.append_nil] at hbased
    dsimp only
    rw [if_neg (by omega), if_pos hfraction]

private theorem number_eq_integer_iff (cs : List CodePoint) : (number cs).1 = .integer ↔ (number cs).1 ≠ .float := by
  unfold number
  dsimp only
  split
  · simp
  · split <;> simp

theorem isLongest_number (hstart : startsWithDigit cs = true) : IsLongest numbers cs (cs.take (number cs).2) := by
  have hsize : (cs.take (number cs).2).length = (number cs).2 := List.length_take_of_le (isScan_number.le_length cs)
  refine ⟨mem_numbers_iff.2 ⟨startsWithDigit_take (number_pos hstart) hstart, ?_⟩, List.take_prefix _ _, ?_⟩
  · rw [number_take (Nat.le_refl _), hsize]
  · -- a number at the front is found alone, so at least as much is found with the rest behind it
    rintro es hes ⟨rest, rfl⟩
    rw [hsize, ← (mem_numbers_iff.1 hes).2]
    exact isScan_number.le_append es rest

private theorem mem_symbols_iff {kind : Kind} {s : Text} :
    (kind, s) ∈ symbols ↔ kind = .operator ∧ s ∈ operators ∨ kind = .punctuator ∧ s ∈ punctuators := by
  simp [symbols, and_comm, eq_comm]

private theorem mem_symbolTexts_iff : ds ∈ symbolTexts ↔ ∃ s ∈ symbols, s.2.toList = ds := by
  constructor
  · rintro ⟨s, hs, rfl⟩
    rcases List.mem_append.1 hs with hs | hs
    · exact ⟨(.operator, s), mem_symbols_iff.2 (.inl ⟨rfl, hs⟩), rfl⟩
    · exact ⟨(.punctuator, s), mem_symbols_iff.2 (.inr ⟨rfl, hs⟩), rfl⟩
  · rintro ⟨⟨kind, s⟩, hs, rfl⟩
    rcases mem_symbols_iff.1 hs with ⟨-, hs⟩ | ⟨-, hs⟩
    · exact ⟨s, List.mem_append_left _ hs, rfl⟩
    · exact ⟨s, List.mem_append_right _ hs, rfl⟩

private theorem symbol?_eq_none_iff : symbol? cs = none ↔ ∀ ds ∈ symbolTexts, ¬ ds <+: cs := by
  rw [symbol?_eq, Option.map_eq_none_iff, List.find?_eq_none]
  constructor
  · rintro hnone ds hds hbegins
    obtain ⟨s, hs, rfl⟩ := mem_symbolTexts_iff.1 hds
    exact hnone s hs (List.isPrefixOf_iff_prefix.2 hbegins)
  · intro hnone s hs hstarts
    exact hnone s.2.toList (mem_symbolTexts_iff.2 ⟨s, hs, rfl⟩) (List.isPrefixOf_iff_prefix.1 hstarts)

private theorem exists_isLongest_of_symbol? {kind : Kind} {n : Nat} (h : symbol? cs = some (kind, n)) :
    ∃ s, (kind, s) ∈ symbols ∧ s.length = n ∧ IsLongest symbolTexts cs s.toList := by
  obtain ⟨⟨kind, s⟩, hs, rfl, rfl, hbegins, hlongest⟩ := exists_of_symbol? h
  refine ⟨s, hs, Text.length_toList.symm, mem_symbolTexts_iff.2 ⟨_, hs, rfl⟩, hbegins, fun es hes hes' => ?_⟩
  obtain ⟨s', hs', rfl⟩ := mem_symbolTexts_iff.1 hes
  exact hlongest s' hs' hes'

end Scan

/-- At a digit, the lexer reads the longest number that the text starts with, and takes it for a float if and only if it
is written as one.  At every text it reads the longest symbol that the text starts with, and it reads nothing if and only
if there is none. -/
theorem Lexer.number_and_symbol_are_longest (l : Lexer) :
    (Scan.startsWithDigit l.rest = true →
      ∃ kind ds, Scan.IsLongest Scan.numbers l.rest ds ∧
        l.number = (⟨kind, Text.ofList ds, l.position, l.spaced⟩, l.advance ds.length) ∧
        (kind = .float ↔ ds ∈ Scan.floats) ∧ (kind = .integer ↔ ds ∉ Scan.floats)) ∧
      (l.symbol? = (none, l) ↔ ∀ ds ∈ Scan.symbolTexts, ¬ ds <+: l.rest) ∧
      ((∃ ds ∈ Scan.symbolTexts, ds <+: l.rest) →
        ∃ kind s, Scan.IsLongest Scan.symbolTexts l.rest s.toList ∧
          l.symbol? = (some ⟨kind, s, l.position, l.spaced⟩, l.advance s.length) ∧
          (kind = .operator ∧ s ∈ Scan.operators ∨ kind = .punctuator ∧ s ∈ Scan.punctuators)) := by
  refine ⟨fun hstart => ?_, ?_, fun hsome => ?_⟩
  · have hlongest := Scan.isLongest_number hstart
    have hkind := Scan.number_eq_float_iff hlongest.mem
    rw [Scan.number_take (Nat.le_refl _)] at hkind
    refine ⟨(Scan.number l.rest).1, _, hlongest, ?_, hkind, ?_⟩
    · rw [List.length_take_of_le (Scan.isScan_number.le_length l.rest)]
      rfl
    · rw [Scan.number_eq_integer_iff, ne_eq, hkind]
  · rw [← Scan.symbol?_eq_none_iff, symbol?]
    rcases Scan.symbol? l.rest with _ | ⟨kind, n⟩ <;> simp
  · rcases hfound : Scan.symbol? l.rest with _ | ⟨kind, n⟩
    · obtain ⟨ds, hds, hbegins⟩ := hsome
      exact absurd hbegins (Scan.symbol?_eq_none_iff.1 hfound ds hds)
    · obtain ⟨s, hs, rfl, hlongest⟩ := Scan.exists_isLongest_of_symbol? hfound
      have htext : l.rest.take s.length = s.toList := by
        rw [← Text.length_toList]
        exact (List.prefix_iff_eq_take.1 hlongest.begins).symm
      refine ⟨kind, s, hlongest, ?_, Scan.mem_symbols_iff.1 hs⟩
      rw [symbol?, hfound]
      dsimp only [take]
      rw [htext, Text.ofList_toList]

/-- A float behind which stands what starts like an exponent but is none, and the longer of two operators. -/
theorem Lexer.number_and_symbol_are_longest_exponent :
    let digits := Lexer.ofText "1_0.2_3e+_4"
    let equals := Lexer.ofText "=:=="
    Scan.startsWithDigit digits.rest = true ∧
      Scan.IsLongest Scan.numbers digits.rest ("1_0.2_3" : Text).toList ∧ ("1_0.2_3" : Text).toList ∈ Scan.floats ∧
      (∃ ds ∈ Scan.symbolTexts, ds <+: equals.rest) ∧
      Scan.IsLongest Scan.symbolTexts equals.rest ("=:=" : Text).toList := by
  intro digits equals
  have hstart : Scan.startsWithDigit digits.rest = true := by decide +kernel
  have hsome : ∃ ds ∈ Scan.symbolTexts, ds <+: equals.rest :=
    ⟨['='], ⟨"=", by decide +kernel, by decide +kernel⟩, by decide +kernel⟩
  have hnumber : digits.number.1 = ⟨.float, "1_0.2_3", ⟨none, 0, 1, 1⟩, false⟩ := by decide +kernel
  have hsymbol : equals.symbol?.1 = some ⟨.operator, "=:=", ⟨none, 0, 1, 1⟩, false⟩ := by decide +kernel
  obtain ⟨kind, ds, hnumbers, htoken, hfloat, -⟩ := (number_and_symbol_are_longest digits).1 hstart
  rw [htoken] at hnumber
  obtain rfl : kind = .float := congrArg Token.kind hnumber
  obtain rfl : ds = ("1_0.2_3" : Text).toList := congrArg (fun t => t.text.toList) hnumber
  obtain ⟨kind, s, hsymbols, htoken, -⟩ := (number_and_symbol_are_longest equals).2.2 hsome
  rw [htoken] at hsymbol
  obtain rfl : s = "=:=" := congrArg Token.text (Option.some.inj hsymbol)
  exact ⟨hstart, hnumbers, hfloat.1 rfl, hsome, hsymbols⟩

end ErlangMacros
