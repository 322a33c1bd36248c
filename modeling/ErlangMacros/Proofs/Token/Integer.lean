import ErlangMacros.Proofs.Directive.Acceptance
import ErlangMacros.Proofs.Lexer.Meaning
import ErlangMacros.Token.Integer

/-!
# The value of integers

An integer of a text is decimal digits, or decimal digits that name a base and, behind a number sign, letters and digits
in it (`Scan.IsIntegerText`).  Underscores do not count.  Decimal digits alone always have a value.  Behind a base, letters
and digits have the value that they are read as in it (`Text.ReadsAs`), so there are values in base 0 and behind marks too,
and a directive that sets the reported line accepts exactly the integers with a value (`integer_values`).
-/

namespace ErlangMacros

namespace Scan

/-- How an integer is written. -/
inductive IsIntegerText : List CodePoint → Prop where
  | plain {front : List CodePoint} (starts : startsWithDigit front = true)
      (digits : ∀ c ∈ front, Text.isDigit c = true ∨ c = '_') : IsIntegerText front
  | based {front back : List CodePoint} {d : CodePoint} (starts : startsWithDigit front = true)
      (digits : ∀ c ∈ front, Text.isDigit c = true ∨ c = '_') (alphanumeric : Text.isAlphanumeric d = true)
      (basedDigits : ∀ c ∈ d :: back, isBasedDigit c = true) : IsIntegerText (front ++ .char '#' :: d :: back)

/-- An integer is found by the scan for numbers. -/
theorem number_of_lexeme_integer {cs : List CodePoint} {n : Nat} (h : lexeme cs = .ok (some (.integer, n))) :
    startsWithDigit cs = true ∧ number cs = (.integer, n) := by
  unfold lexeme scanFor at h
  split at h
  · next hdigit => exact ⟨hdigit, Option.some.inj (Except.ok.inj h)⟩
  split at h
  · rcases hcharacter : character cs with f | n <;> rw [hcharacter] at h <;> cases h
  split at h
  · rcases hquoted : quoted '"' .unterminatedString cs with f | n <;> rw [hquoted] at h <;> cases h
  split at h
  · rcases hquoted : quoted '\'' .unterminatedAtom cs with f | n <;> rw [hquoted] at h <;> cases h
  split at h
  · cases h
  split at h
  · cases h
  · obtain ⟨s, hs, hkind, -⟩ := exists_of_symbol? (Except.ok.inj h)
    have hno := isSymbol_of_mem_symbols s hs
    rw [hkind] at hno
    cases hno

/-- What follows the digits of a base is one letter or digit, and more of them or underscores. -/
theorem exists_of_basedDigits {cs : List CodePoint} (hpos : 0 < basedDigits cs) (hall : basedDigits cs = cs.length) :
    ∃ d back, cs = .char '#' :: d :: back ∧ Text.isAlphanumeric d = true ∧ ∀ c ∈ d :: back, isBasedDigit c = true := by
  unfold basedDigits at hpos
  split at hpos
  · next d back =>
    split at hpos
    · next hd =>
      rw [basedDigits, if_pos hd, List.length_cons, Nat.add_right_cancel_iff] at hall
      exact ⟨d, back, rfl, hd, List.takeWhile_eq_self_iff.1 ((List.takeWhile_prefix _).eq_of_length hall)⟩
    · cases hpos
  · cases hpos

private theorem isIntegerText_of_number {cs : List CodePoint} (hstart : startsWithDigit cs = true)
    (h : number cs = (.integer, cs.length)) : IsIntegerText cs := by
  have hfront : startsWithDigit (cs.take (digits false cs)) = true :=
    startsWithDigit_take (digits_pos false hstart) hstart
  have hdigits := finds_digits false cs
  unfold number at h
  dsimp only at h
  split at h
  · next hpos =>
    have hall : basedDigits (cs.drop (digits false cs)) = (cs.drop (digits false cs)).length := by
      have hlength : digits false cs + basedDigits (cs.drop (digits false cs)) = cs.length := congrArg Prod.snd h
      rw [List.length_drop]
      omega
    obtain ⟨d, back, hback, hd, hbased⟩ := exists_of_basedDigits hpos hall
    rw [← List.take_append_drop (digits false cs) cs, hback]
    exact .based hfront hdigits hd hbased
  · split at h
    · cases h
    · have hlength : digits false cs = cs.length := congrArg Prod.snd h
      rw [hlength, List.take_length] at hfront hdigits
      exact .plain hfront hdigits

end Scan

private theorem Lexing.Gives.isIntegerText {text : Text} {filename : Option Text} {t : Token}
    (h : (ofText text filename).Gives t) (hkind : t.kind = .integer) : Scan.IsIntegerText t.text.toList := by
  obtain ⟨front, behind, -, -, found⟩ := h.exists_found
  rw [hkind] at found
  have hne : t.text.toList ≠ [] := by
    intro hnil
    obtain ⟨hstart, hnumber⟩ := Scan.number_of_lexeme_integer found
    have hpos := Scan.digits_pos false hstart
    rw [Scan.number_eq, hnil] at hnumber
    have hzero : Scan.digits false ([] ++ behind) + _ = 0 := congrArg Prod.snd hnumber
    rw [hnil] at hpos
    omega
  have hlexeme := h.isLexeme hne
  rw [hkind] at hlexeme
  obtain ⟨hstart, hnumber⟩ := Scan.number_of_lexeme_integer hlexeme.2
  exact Scan.isIntegerText_of_number hstart hnumber

/-! ### Values -/

/-- The characters of an integer that count. -/
def countedChars (text : Text) : List CodePoint :=
  text.toList.filter (· ≠ CodePoint.char '_')

namespace Text

private theorem weight_lt_of_isDigit {c : CodePoint} (h : c.isDigit = true) :
    c.isAlphanum = true ∧ weight c < 10 ∧ c ≠ '#' := by
  have halphanum : c.isAlphanum = true := by simp [CodePoint.isAlphanum, h]
  exact ⟨halphanum, forall_ascii (P := fun c => c.isDigit = true → weight c < 10 ∧ c ≠ '#') (by decide +kernel)
    (Scan.toNat_lt_of_isAlphanum halphanum) h⟩

/-- Decimal digits write a number, and are read as it. -/
theorem exists_writes_decimal {cs : List CodePoint} (hne : cs ≠ []) (h : ∀ c ∈ cs, c.isDigit = true) :
    ∃ n : Nat, Writes 10 cs n ∧ integer? 10 cs = some (n : Int) := by
  have hwrites : Writes 10 cs (Nat.ofDigits 10 (cs.reverse.map weight)) :=
    ⟨hne, fun c hc => (weight_lt_of_isDigit (h c hc)).2.1, rfl⟩
  refine ⟨_, hwrites, ?_⟩
  exact (integer?_eq_some_iff fun c hc => (weight_lt_of_isDigit (h c hc)).1).2
    ⟨_, rfl, .digits (by decide) (by decide) hwrites⟩

end Text

/-- What counts of a run of digits is decimal digits. -/
theorem counted_digits {cs : List CodePoint} (hstart : Scan.startsWithDigit cs = true)
    (h : ∀ c ∈ cs, Text.isDigit c = true ∨ c = '_') (hascii : ∀ c ∈ cs, c.toNat < 128) :
    cs.filter (· ≠ CodePoint.char '_') ≠ [] ∧ ∀ c ∈ cs.filter (· ≠ CodePoint.char '_'), c.isDigit = true := by
  constructor
  · obtain ⟨c, hc, hdigit⟩ := (Option.any_eq_true _ _).1 hstart
    have hmem : c ∈ cs := List.mem_of_head? hc
    have hmark : c ≠ '_' := by
      rintro rfl
      exact absurd hdigit (by decide)
    exact List.ne_nil_of_mem (List.mem_filter.2 ⟨hmem, by simpa using hmark⟩)
  · intro c hc
    obtain ⟨hmem, hmark⟩ := List.mem_filter.1 hc
    rw [← Text.isDigit_of_ascii (hascii c hmem)]
    exact (h c hmem).resolve_right (by simpa using hmark)

/-- What counts of the digits behind a base is letters and digits. -/
theorem counted_basedDigits {cs : List CodePoint} (h : ∀ c ∈ cs, Scan.isBasedDigit c = true)
    (hascii : ∀ c ∈ cs, c.toNat < 128) : ∀ c ∈ cs.filter (· ≠ CodePoint.char '_'), c.isAlphanum = true := by
  intro c hc
  obtain ⟨hmem, hmark⟩ := List.mem_filter.1 hc
  have hbased := h c hmem
  simp only [Scan.isBasedDigit, Bool.or_eq_true, decide_eq_true_eq] at hbased
  rw [← Text.isAlphanumeric_of_ascii (hascii c hmem)]
  exact hbased.resolve_right (by simpa using hmark)

private theorem splitBase?_eq {base : List CodePoint} (h : .char '#' ∉ base) (ds : List CodePoint) :
    splitBase? (base ++ .char '#' :: ds) = some (base, ds) := by
  have hbase : ∀ c ∈ base, decide (c ≠ '#') = true := by
    intro c hc
    simpa using ne_of_mem_of_not_mem hc h
  rw [splitBase?, if_pos (by simp), List.takeWhile_append_of_pos hbase, List.dropWhile_append_of_pos hbase]
  simp

private theorem integerValue?_plain {text : Text} (h : .char '#' ∉ countedChars text) :
    integerValue? text = Text.integer? 10 (countedChars text) := by
  have hsplit : splitBase? (countedChars text) = none := by simp [splitBase?, h]
  unfold integerValue?
  dsimp only
  rw [← countedChars, hsplit]

private theorem integerValue?_based {text : Text} {base ds : List CodePoint} {b : Nat}
    (htext : countedChars text = base ++ .char '#' :: ds) (hbase : .char '#' ∉ base)
    (hb : Text.integer? 10 base = some (b : Int)) :
    integerValue? text = Text.integer? b ds := by
  unfold integerValue?
  dsimp only
  rw [← countedChars, htext, splitBase?_eq hbase]
  dsimp only
  rw [hb, Option.bind_some, if_pos (Int.natCast_nonneg b), Int.toNat_natCast]

/-! ### Reported lines -/

namespace Directive

/-- The lexemes of a directive that sets the reported file name and line. -/
def fileLexemes (path line : Text) : List (Kind × Text) :=
  [⟨.operator, "-"⟩, ⟨.atom, "file"⟩, ⟨.punctuator, "("⟩, (.string, path), ⟨.punctuator, ","⟩, (.integer, line),
    ⟨.punctuator, ")"⟩, ⟨.punctuator, "."⟩]

/-- A line is accepted if and only if it has a value. -/
theorem exists_parse_file_iff {ts : List Token} {path line : Text} (hreadable : ∀ t ∈ ts, t.IsReadable)
    (hts : ts.map Token.lexeme = fileLexemes path line) :
    (∃ d, parse ts = .ok d) ↔ ∃ value, integerValue? line = some value := by
  simp only [fileLexemes, List.map_eq_cons_iff, List.map_eq_nil_iff] at hts
  obtain ⟨hyphen, _, rfl, hhyphen, word, _, rfl, hword, opening, _, rfl, hopening, name, _, rfl, hname, comma, _, rfl,
    hcomma, number, _, rfl, hnumber, closing, _, rfl, hclosing, stop, _, rfl, hstop, rfl⟩ := hts
  obtain ⟨hkind, htext⟩ := Prod.mk.inj hword
  obtain ⟨hline, rfl⟩ := Prod.mk.inj hnumber
  have hopens : opening.isSymbol "(" = true := Token.isSymbol_of_lexeme hopening rfl
  have hcloses : closing.isSymbol ")" = true := Token.isSymbol_of_lexeme hclosing rfl
  have hlast : ∀ t ∈ [opening, name, comma, number, closing, stop].dropLast, t.isSymbol "." = false := by
    simp [Token.isSymbol, Kind.isSymbol, hline, (Prod.mk.inj hopening).2, (Prod.mk.inj hname).1, (Prod.mk.inj hcomma).2,
      (Prod.mk.inj hclosing).2]
  have hstops := stopsLast_of_dropLast (Token.isSymbol_of_lexeme hhyphen rfl) hkind hlast
  simp only [parse_eq_ok_iff_written hreadable hstops hhyphen hkind (k := .file) htext]
  constructor
  · rintro ⟨⟨tokens, action⟩, -, hkeyword, hwritten⟩
    cases hwritten with
    | file _ _ _ hvalue henclosed =>
      cases henclosed
      exact Option.isSome_iff_exists.1 hvalue
    | _ => cases hkeyword
  · intro hvalue
    exact ⟨⟨_, .file name number⟩, rfl, rfl, .file (Prod.mk.inj hname).1 (Token.isSymbol_of_lexeme hcomma rfl) hline
      (Option.isSome_iff_exists.2 hvalue) (.mk hopens hcloses (Token.isSymbol_of_lexeme hstop rfl))⟩

end Directive

/-! ### Literals -/

/-- What counts of an integer in ASCII: decimal digits, or a base in decimal digits and letters and digits behind it. -/
theorem Scan.IsIntegerText.counted {text : Text} (h : IsIntegerText text.toList)
    (hascii : ∀ c ∈ text.toList, c.toNat < 128) :
    ∃ front, front ≠ [] ∧ (∀ c ∈ front, c.isDigit = true) ∧
      (countedChars text = front ∨
        ∃ back, countedChars text = front ++ .char '#' :: back ∧ ∀ c ∈ back, c.isAlphanum = true) := by
  unfold countedChars
  generalize text.toList = cs at h hascii
  cases h with
  | plain hstart hdigits =>
    obtain ⟨hne, hfront⟩ := counted_digits hstart hdigits hascii
    exact ⟨_, hne, hfront, .inl rfl⟩
  | @based front back d hstart hdigits hd hbased =>
    obtain ⟨hasciiFront, hasciiBack⟩ := List.forall_mem_append.1 hascii
    obtain ⟨hne, hfront⟩ := counted_digits hstart hdigits hasciiFront
    refine ⟨_, hne, hfront, .inr ⟨(d :: back).filter (· ≠ CodePoint.char '_'), ?_, ?_⟩⟩
    · rw [List.filter_append, List.filter_cons_of_pos (by decide)]
    · exact counted_basedDigits hbased (List.forall_mem_cons.1 hasciiBack).2

/-- The value of every integer in ASCII that a text gives.  Decimal digits alone have the value that they write.  Behind a
base, the value is what the letters and digits are read as in it, and there is no other.  A directive that sets the
reported line accepts an integer if and only if it has a value. -/
theorem integer_values {text : Text} {filename : Option Text} {t : Token}
    (ht : (Lexing.ofText text filename).Gives t) (hkind : t.kind = .integer)
    (hascii : ∀ c ∈ t.text.toList, c.toNat < 128) :
    (.char '#' ∉ t.text.toList →
      ∃ n : Nat, Text.Writes 10 (countedChars t.text) n ∧ integerValue? t.text = some (n : Int)) ∧
    (∀ base ds, countedChars t.text = base ++ .char '#' :: ds →
      ∃ b, Text.Writes 10 base b ∧
        ∀ value, integerValue? t.text = some value ↔ ∃ n : Nat, value = n ∧ Text.ReadsAs b ds n) ∧
    (∀ ts path, (∀ u ∈ ts, ∃ text filename, (Lexing.ofText text filename).Gives u) →
      ts.map Token.lexeme = Directive.fileLexemes path t.text →
      ((∃ d, Directive.parse ts = .ok d) ↔ ∃ value, integerValue? t.text = some value)) := by
  obtain ⟨front, hne, hfront, hcounted⟩ := (ht.isIntegerText hkind).counted hascii
  obtain ⟨n, hwrites, hn⟩ := Text.exists_writes_decimal hne hfront
  have hsign : .char '#' ∉ front := fun hmem => (Text.weight_lt_of_isDigit (hfront '#' hmem)).2.2 rfl
  refine ⟨fun hplain => ?_, fun base ds hbased => ?_, fun ts path hlexed hts => ?_⟩
  · rcases hcounted with hcounted | ⟨back, hcounted, -⟩
    · refine ⟨n, hcounted ▸ hwrites, ?_⟩
      rw [integerValue?_plain (hcounted ▸ hsign), hcounted, hn]
    · have hmem : .char '#' ∈ countedChars t.text := by simp [hcounted]
      exact absurd (List.mem_filter.1 hmem).1 hplain
  · rcases hcounted with hcounted | ⟨back, hcounted, hback⟩
    · rw [← hcounted, hbased] at hsign
      exact absurd (List.mem_append_right _ List.mem_cons_self) hsign
    · have hsign' : .char '#' ∉ back := fun hmem => absurd (hback '#' hmem) (by decide)
      obtain ⟨rfl, -, rfl⟩ := (List.append_cons_inj_of_notMem hsign hsign').1 (hcounted.symm.trans hbased)
      refine ⟨n, hwrites, fun value => ?_⟩
      rw [integerValue?_based hbased hsign hn, Text.integer?_eq_some_iff hback]
  · refine Directive.exists_parse_file_iff (fun u hu => ?_) hts
    obtain ⟨text, filename, hgives⟩ := hlexed u hu
    exact hgives.isReadable

/-- Letters of both cases are digits in base 36, and underscores do not count in the base either. -/
theorem integer_values_letters :
    let lexing := Lexing.ofText "-file(\"a\",3_6#z_0Z)."
    let t : Token := ⟨.integer, "3_6#z_0Z", ⟨none, 10, 1, 11⟩, false⟩
    lexing.Gives t ∧ lexing.tokens.map Token.lexeme = Directive.fileLexemes "\"a\"" t.text ∧
      (∃ b, Text.Writes 10 ['3', '6'] b ∧
        ∀ value, integerValue? t.text = some value ↔ ∃ n : Nat, value = n ∧ Text.ReadsAs b ['z', '0', 'Z'] n) ∧
      ((∃ d, Directive.parse lexing.tokens = .ok d) ↔ ∃ value, integerValue? t.text = some value) := by
  intro lexing t
  have ht : lexing.Gives t := .inl (by decide +kernel)
  have hlexemes : lexing.tokens.map Token.lexeme = Directive.fileLexemes "\"a\"" t.text := by decide +kernel
  have hascii : ∀ c ∈ t.text.toList, c.toNat < 128 := by simp [t]
  obtain ⟨-, hbased, hfile⟩ := integer_values ht rfl hascii
  exact ⟨ht, hlexemes, hbased ['3', '6'] ['z', '0', 'Z'] (by decide +kernel),
    hfile lexing.tokens "\"a\"" (fun u hu => ⟨_, none, .inl hu⟩) hlexemes⟩

/-- Integers in base 0, and with a mark behind their base, have values. -/
theorem integers_outside_their_base_have_values :
    (Lexing.ofText "0#12 16#0x1f").tokens.map (fun t => (t.kind, integerValue? t.text)) =
      [(.integer, some 12), (.integer, some 31)] := by
  decide +kernel

end ErlangMacros
