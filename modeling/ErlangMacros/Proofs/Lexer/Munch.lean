import ErlangMacros.Lexer
import ErlangMacros.Proofs.Lexer.Quoted

/-!
# The longest lexeme

The first character of a text decides which scan finds the lexeme at its front (`Scan.lexeme`), and the lexer takes
what is found (`Lexer.token?_eq`).

A lexeme is a text that is found as a whole (`IsLexeme`).  What is found at the front of a text is a lexeme
(`isLexeme_of_lexeme`), and it is the longest one there: at a text that starts with a lexeme, this lexeme is found or a
longer one, which has no blanks where it goes on (`lexeme_append`).  So a lexeme is found at the front of a text if and
only if it does not run on into what stands behind it (`lexeme_append_eq_iff`).  There are no surrogates in a lexeme
(`IsLexeme.isChar`).
-/

namespace ErlangMacros

namespace Scan

/-! ### The lexeme at the front of a text -/

/-- The scan for a lexeme that starts with the given character. -/
def scanFor (c : Option CodePoint) (cs : List CodePoint) : Except Fault (Option (Kind × Nat)) :=
  if c.any Text.isDigit then .ok (some (number cs))
  else if c = some (.char '$') then (character cs).map fun n => some (.character, n)
  else if c = some (.char '"') then (quoted '"' .unterminatedString cs).map fun n => some (.string, n)
  else if c = some (.char '\'') then (quoted '\'' .unterminatedAtom cs).map fun n => some (.atom, n)
  else if c.any Text.isLower then .ok (some (.atom, name cs))
  else if c = some (.char '_') || c.any Text.isUpper then .ok (some (.var, name cs))
  else .ok (symbol? cs)

/-- What a scan finds as a lexeme are characters.  It is found again alone, and with more text behind it is found or a
longer one, which has no blanks where it goes on. -/
structure Munches (scan : List CodePoint → Except Fault (Option (Kind × Nat))) : Prop where
  isChar : ∀ {cs kind n}, scan cs = .ok (some (kind, n)) → ∀ c ∈ cs.take n, c.isChar = true
  take : ∀ {cs kind n}, scan cs = .ok (some (kind, n)) → n ≤ cs.length ∧ scan (cs.take n) = .ok (some (kind, n))
  append : ∀ {cs kind} (ds), scan cs = .ok (some (kind, cs.length)) → cs ≠ [] →
    ∃ kind' n, scan (cs ++ ds) = .ok (some (kind', cs.length + n)) ∧ ∀ c ∈ ds.take n, Text.isBlank c = false

private theorem munches_of_isScan {f : List CodePoint → Kind × Nat} (hf : IsScan fun cs => (f cs).2)
    (hagain : ∀ cs, f (cs.take (f cs).2) = f cs) (hsolid : Finds IsSolid fun cs => (f cs).2) :
    Munches fun cs => .ok (some (f cs)) where
  isChar := by
    intro cs kind n h c hc
    obtain hfound : f cs = (kind, n) := by simpa using h
    obtain rfl : (f cs).2 = n := by rw [hfound]
    exact (hsolid cs c hc).2
  take := by
    intro cs kind n h
    obtain hfound : f cs = (kind, n) := by simpa using h
    have hlength := hf.le_length cs
    have hsame := hagain cs
    rw [hfound] at hlength hsame
    exact ⟨hlength, by rw [hsame]⟩
  append := by
    intro cs kind ds h _
    obtain hfound : f cs = (kind, cs.length) := by simpa using h
    have hle := hf.le_append cs ds
    rw [hfound] at hle
    obtain ⟨n, hn⟩ := Nat.exists_eq_add_of_le hle
    refine ⟨(f (cs ++ ds)).1, n, by rw [← hn], fun c hc => (hsolid (cs ++ ds) c ?_).1⟩
    have htake : (cs ++ ds).take (f (cs ++ ds)).2 = cs ++ ds.take n := by rw [hn, List.take_length_add_append]
    exact htake ▸ List.mem_append_right cs hc

private theorem munches_number : Munches fun cs => .ok (some (number cs)) :=
  munches_of_isScan isScan_number (fun _ => number_take (Nat.le_refl _)) findsSolid_number

private theorem munches_name (kind : Kind) : Munches fun cs => .ok (some (kind, name cs)) := by
  have hscan : IsScan name := isScan_takeWhile isNameChar
  have hsolid : Finds IsSolid name := finds_takeWhile fun c hc => isSolid_of_isNameChar hc
  exact munches_of_isScan hscan (fun cs => by rw [hscan.take_eq (Nat.le_refl _)]) hsolid

private theorem take_quoted (c : CodePoint) (ps : List Piece) (quote : CodePoint) (rest : List CodePoint) :
    (c :: (piecesText ps ++ quote :: rest)).take ((piecesText ps).length + 2) = c :: (piecesText ps ++ [quote]) := by
  rw [List.take_succ_cons, List.take_length_add_append]
  rfl

private theorem munches_quoted {quote : CodePoint} (hquote : quote ≠ '\\') (hchar : quote.isChar = true)
    (unclosed : LexCause)
    (kind : Kind) : Munches fun cs => (quoted quote unclosed cs).map fun n => some (kind, n) where
  isChar := by
    intro cs kind' n h
    rcases hquoted : quoted quote unclosed cs with f | m <;> rw [hquoted] at h <;> cases h
    obtain ⟨c, ps, rest, hc, hps, rfl, rfl⟩ := arePieces_of_quoted hquoted
    rw [take_quoted]
    have hpieces := List.forall_mem_append.2 ⟨hps.isChar, List.forall_mem_singleton.2 hchar⟩
    exact List.forall_mem_cons.2 ⟨hc, hpieces⟩
  take := by
    intro cs kind' n h
    rcases hquoted : quoted quote unclosed cs with f | m <;> rw [hquoted] at h <;> cases h
    obtain ⟨c, ps, rest, hc, hps, rfl, rfl⟩ := arePieces_of_quoted hquoted
    refine ⟨by simp, ?_⟩
    rw [take_quoted, quoted_of_arePieces hps hquote hc]
    rfl
  append := by
    intro cs kind' ds h _
    rcases hquoted : quoted quote unclosed cs with f | m <;> rw [hquoted] at h <;> cases h
    obtain ⟨c, ps, rest, hc, hps, rfl, hlength⟩ := arePieces_of_quoted hquoted
    refine ⟨kind, 0, ?_, by simp⟩
    rw [List.cons_append, List.append_assoc, List.cons_append, quoted_of_arePieces hps hquote hc, Nat.add_zero, hlength]
    rfl

private theorem munches_character : Munches fun cs => (character cs).map fun n => some (.character, n) where
  isChar := by
    intro cs kind n h
    rcases hcharacter : character cs with f | m <;> rw [hcharacter] at h <;> cases h
    rcases character_cases hcharacter with
      ⟨dollar, c, rest, rfl, hdollar, -, hchar, rfl⟩ | ⟨dollar, rest, m, rfl, hdollar, hescape, rfl⟩
    · simp [hdollar, hchar]
    · obtain ⟨body, rest, rfl, rfl, hbody⟩ := isEscape_of_escape hescape
      rw [List.take_succ_cons, List.take_succ_cons, List.take_left]
      exact List.forall_mem_cons.2 ⟨hdollar, List.forall_mem_cons.2 ⟨rfl, hbody.isChar⟩⟩
  take := by
    intro cs kind n h
    rcases hcharacter : character cs with f | m <;> rw [hcharacter] at h <;> cases h
    rcases character_cases hcharacter with
      ⟨dollar, c, rest, rfl, hdollar, hc, hchar, rfl⟩ | ⟨dollar, rest, m, rfl, hdollar, hescape, rfl⟩
    · refine ⟨by simp, ?_⟩
      rw [List.take_succ_cons, List.take_succ_cons, character_plain _ hdollar hc hchar]
      rfl
    · obtain ⟨body, rest, rfl, rfl, -⟩ := isEscape_of_escape hescape
      refine ⟨by simp, ?_⟩
      rw [List.take_succ_cons, List.take_succ_cons, character_escaped hdollar (escape_take hescape (Nat.le_refl _))]
      rfl
  append := by
    intro cs kind ds h _
    rcases hcharacter : character cs with f | m <;> rw [hcharacter] at h <;> cases h
    rcases character_cases hcharacter with
      ⟨dollar, c, rest, rfl, hdollar, hc, hchar, hlength⟩ | ⟨dollar, rest, m, rfl, hdollar, hescape, hlength⟩
    · refine ⟨.character, 0, ?_, by simp⟩
      rw [List.cons_append, List.cons_append, character_plain _ hdollar hc hchar, hlength]
      rfl
    · obtain rfl : m = rest.length := by simpa using hlength.symm
      obtain ⟨n, hmore, hoctal⟩ := escape_append_cases ds hescape
      refine ⟨.character, n, ?_, fun c hc => (isSolid_of_isOctal (hoctal c hc)).1⟩
      rw [List.cons_append, List.cons_append, character_escaped hdollar hmore]
      simp [Except.map, Nat.add_right_comm]

/-- The operators and punctuators, with their kinds. -/
def symbols : List (Kind × Text) :=
  operators.map (.operator, ·) ++ punctuators.map (.punctuator, ·)

theorem symbol?_eq (cs : List CodePoint) :
    symbol? cs = (symbols.find? fun s => startsWith cs s.2).map fun s => (s.1, s.2.length) := by
  unfold symbol? symbols
  rw [List.find?_append, List.find?_map, List.find?_map]
  simp only [Function.comp_def]
  rcases operators.find? (startsWith cs) with _ | op
  · cases punctuators.find? (startsWith cs) <;> rfl
  · rfl

/-- A symbol does not start with one that is looked for before it. -/
theorem symbols_pairwise : symbols.Pairwise fun s s' => s.2.toList.isPrefixOf s'.2.toList = false := by
  decide +kernel

private theorem symbol?_toList : ∀ s ∈ symbols, symbol? s.2.toList = some (s.1, s.2.length) := by
  decide +kernel

private theorem isSolid_of_mem_symbols : ∀ s ∈ symbols, ∀ c ∈ s.2.toList, IsSolid c ∧ c ≠ '%' := by
  have hall : (symbols.all fun s => s.2.toList.all fun c => !Text.isBlank c && c.isChar && c != '%') = true := by
    decide +kernel
  intro s hs c hc
  simpa [IsSolid] using List.all_eq_true.1 (List.all_eq_true.1 hall s hs) c hc

/-- A symbol that is found is at the front of the text. -/
theorem exists_of_symbol? {cs : List CodePoint} {kind : Kind} {n : Nat} (h : symbol? cs = some (kind, n)) :
    ∃ s ∈ symbols, s.1 = kind ∧ s.2.toList.length = n ∧ s.2.toList <+: cs ∧
      ∀ s' ∈ symbols, s'.2.toList <+: cs → s'.2.toList.length ≤ n := by
  rw [symbol?_eq, Option.map_eq_some_iff] at h
  obtain ⟨s, hfind, hs⟩ := h
  obtain ⟨hstarts, before, after, hsymbols, hbefore⟩ := List.find?_eq_some_iff_append.1 hfind
  obtain ⟨rfl, rfl⟩ := Prod.mk.inj hs
  have hbegins : s.2.toList <+: cs := List.isPrefixOf_iff_prefix.1 hstarts
  refine ⟨s, List.mem_of_find?_eq_some hfind, rfl, Text.length_toList, hbegins, fun s' hs' hbegins' => ?_⟩
  have hmem : s' = s ∨ s' ∈ after := by
    rw [hsymbols, List.mem_append, List.mem_cons] at hs'
    refine hs'.resolve_left fun hs' => ?_
    have hno := hbefore s' hs'
    rw [startsWith, List.isPrefixOf_iff_prefix.2 hbegins'] at hno
    cases hno
  rcases hmem with rfl | hmem
  · rw [Text.length_toList]
  · -- a longer symbol behind would start with the one that was found
    have hpairwise := symbols_pairwise
    rw [hsymbols, List.pairwise_append, List.pairwise_cons] at hpairwise
    have hno := hpairwise.2.1.1 s' hmem
    refine Nat.le_of_not_lt fun hlt => ?_
    rw [List.isPrefixOf_iff_prefix.2 (List.prefix_of_prefix_length_le hbegins hbegins' ?_)] at hno
    · cases hno
    · rw [Text.length_toList]
      omega

private theorem munches_symbol : Munches fun cs => .ok (symbol? cs) where
  isChar := by
    intro cs kind n h c hc
    obtain ⟨s, hs, -, rfl, hbegins, -⟩ := exists_of_symbol? (Except.ok.inj h)
    rw [← List.prefix_iff_eq_take.1 hbegins] at hc
    exact (isSolid_of_mem_symbols s hs c hc).1.2
  take := by
    intro cs kind n h
    obtain ⟨s, hs, rfl, rfl, hbegins, -⟩ := exists_of_symbol? (Except.ok.inj h)
    refine ⟨hbegins.length_le, ?_⟩
    rw [← List.prefix_iff_eq_take.1 hbegins, symbol?_toList s hs, Text.length_toList]
  append := by
    intro cs kind ds h _
    obtain ⟨s, hs, -, hlength, hbegins, -⟩ := exists_of_symbol? (Except.ok.inj h)
    obtain rfl : s.2.toList = cs := hbegins.eq_of_length hlength
    rcases hfound : symbol? (s.2.toList ++ ds) with _ | ⟨kind', n⟩
    · rw [symbol?_eq, Option.map_eq_none_iff, List.find?_eq_none] at hfound
      exact absurd (List.isPrefixOf_iff_prefix.2 (List.prefix_append _ _)) (hfound s hs)
    · obtain ⟨s', hs', -, rfl, hbegins', hlongest⟩ := exists_of_symbol? hfound
      obtain ⟨n, hn⟩ := Nat.exists_eq_add_of_le (hlongest s hs (List.prefix_append _ _))
      refine ⟨kind', n, by rw [hn], fun c hc => (isSolid_of_mem_symbols s' hs' c ?_).1.1⟩
      rw [List.prefix_iff_eq_take.1 hbegins', hn, List.take_length_add_append]
      exact List.mem_append_right _ hc

private theorem munches_scanFor (c : Option CodePoint) : Munches (scanFor c) := by
  unfold scanFor
  split
  · exact munches_number
  split
  · exact munches_character
  split
  · exact munches_quoted (by decide) rfl _ _
  split
  · exact munches_quoted (by decide) rfl _ _
  split
  · exact munches_name _
  split
  · exact munches_name _
  · exact munches_symbol

/-- The kind and length of the lexeme at the front of a text; `none` if no lexeme starts there. -/
def lexeme (cs : List CodePoint) : Except Fault (Option (Kind × Nat)) :=
  scanFor cs.head? cs

/-- The text is a lexeme of the given kind. -/
def IsLexeme (kind : Kind) (cs : List CodePoint) : Prop :=
  cs ≠ [] ∧ lexeme cs = .ok (some (kind, cs.length))

/-- The text is the beginning of a lexeme that goes on behind it. -/
def RunsOn (cs ds : List CodePoint) : Prop :=
  ∃ es, es ≠ [] ∧ es <+: ds ∧ ∃ kind, IsLexeme kind (cs ++ es)

variable {kind : Kind} {cs ds : List CodePoint} {n : Nat}

theorem le_length_of_lexeme (h : lexeme cs = .ok (some (kind, n))) : n ≤ cs.length :=
  ((munches_scanFor cs.head?).take h).1

theorem isChar_of_lexeme (h : lexeme cs = .ok (some (kind, n))) : ∀ c ∈ cs.take n, c.isChar = true :=
  (munches_scanFor cs.head?).isChar h

/-- A lexeme consists of characters. -/
theorem IsLexeme.isChar (h : IsLexeme kind cs) : ∀ c ∈ cs, c.isChar = true := by
  have hchars := isChar_of_lexeme h.2
  rwa [List.take_length] at hchars

/-- No lexeme starts with a surrogate. -/
theorem lexeme_surrogate (s : Fin 0x800) (cs : List CodePoint) : lexeme (.surrogate s :: cs) = .ok none := by
  have hfalse {p : CodePoint → Bool} (hp : ∀ c, p c = true → c.isChar = true) : p (.surrogate s) = false := by
    rw [Bool.eq_false_iff]
    intro h
    cases hp _ h
  have hsymbol : symbol? (.surrogate s :: cs) = none := by
    rw [symbol?_eq, Option.map_eq_none_iff, List.find?_eq_none]
    intro symbol hmem hstarts
    obtain ⟨rest, hrest⟩ := List.isPrefixOf_iff_prefix.1 hstarts
    rcases hlist : symbol.2.toList with _ | ⟨c, ds⟩
    · exact (by decide +kernel : ∀ s ∈ symbols, s.2.toList ≠ []) symbol hmem hlist
    · rw [hlist] at hrest
      cases hrest
      cases (isSolid_of_mem_symbols symbol hmem _ (hlist ▸ List.mem_cons_self)).1.2
  unfold lexeme scanFor
  simp [hfalse fun c hc => (isSolid_of_isDigit hc).2, hfalse fun c => Text.isChar_of_isLower,
    hfalse fun c => Text.isChar_of_isUpper, hsymbol]

/-- A fault at the front of a text is one of the text. -/
theorem standsIn_of_lexeme {f : Fault} (h : lexeme cs = .error f) : f.StandsIn cs := by
  unfold lexeme scanFor at h
  split at h
  · cases h
  split at h
  · rcases hcharacter : character cs with g | m <;> rw [hcharacter] at h <;> cases h
    exact standsIn_of_character hcharacter
  split at h
  · rcases hquoted : quoted '"' .unterminatedString cs with g | m <;> rw [hquoted] at h <;> cases h
    exact standsIn_of_quoted (by simp) hquoted
  split at h
  · rcases hquoted : quoted '\'' .unterminatedAtom cs with g | m <;> rw [hquoted] at h <;> cases h
    exact standsIn_of_quoted (by simp) hquoted
  split at h
  · cases h
  split at h <;> cases h

/-- What is found at the front of a text is a lexeme. -/
theorem isLexeme_of_lexeme (h : lexeme cs = .ok (some (kind, n))) (hn : 0 < n) :
    n ≤ cs.length ∧ IsLexeme kind (cs.take n) := by
  obtain ⟨hlength, htake⟩ := (munches_scanFor cs.head?).take h
  have hsize : (cs.take n).length = n := List.length_take_of_le hlength
  refine ⟨hlength, List.ne_nil_of_length_pos (by omega), ?_⟩
  rw [lexeme, List.head?_take, if_neg (by omega), hsize]
  exact htake

/-- A name is empty if it starts with a letter that does not stand in names. -/
theorem lexeme_of_isNameless {c : CodePoint} (cs : List CodePoint) (h : Text.isNameless c = true) :
    lexeme (c :: cs) = .ok (some (if Text.isLower c then .atom else .var, 0)) := by
  obtain ⟨hcased, hother⟩ : (Text.isLower c || Text.isUpper c) = true ∧ Text.isAlphanumeric c = false := by
    simpa [Text.isNameless] using h
  have hascii {d : CodePoint} (hd : d.toNat < 128) : c ≠ d := by
    rintro rfl
    rw [Text.isNameless_of_ascii hd] at h
    cases h
  have hdigit : Text.isDigit c = false := by
    rw [Bool.eq_false_iff]
    intro hdigit
    rw [Text.isAlphanumeric_of_isDigit hdigit] at hother
    cases hother
  have hname : name (c :: cs) = 0 := by
    simp [name, isNameChar, hother, hascii (d := '_') (by decide), hascii (d := '@') (by decide)]
  unfold lexeme scanFor
  rw [List.head?_cons, Option.any_some, Option.any_some, Option.any_some, hdigit, hname]
  simp only [Bool.false_eq_true, if_false, Option.some.injEq, hascii (d := '$') (by decide),
    hascii (d := '"') (by decide), hascii (d := '\'') (by decide), hascii (d := '_') (by decide), decide_false,
    Bool.false_or]
  by_cases hlower : Text.isLower c = true
  · rw [if_pos hlower, if_pos hlower]
  · have hupper : Text.isUpper c = true := by simpa [hlower] using hcased
    rw [if_neg hlower, if_neg hlower, if_pos hupper]

/-- No other lexeme is empty. -/
theorem pos_of_lexeme {c : CodePoint} (hc : Text.isNameless c = false) (h : lexeme (c :: cs) = .ok (some (kind, n))) :
    0 < n := by
  have hname (hstart : (Text.isLower c || c = '_' || Text.isUpper c) = true) : 0 < name (c :: cs) := by
    have hchar : isNameChar c = true := by
      by_cases hmark : c = '_'
      · simp [isNameChar, hmark]
      · have hcased : (Text.isLower c || Text.isUpper c) = true := by simpa [hmark] using hstart
        simp only [Text.isNameless, hcased, Bool.true_and, Bool.not_eq_false'] at hc
        simp [isNameChar, hc]
    rw [name, List.takeWhile_cons_of_pos hchar, List.length_cons]
    exact Nat.succ_pos _
  unfold lexeme scanFor at h
  rw [List.head?_cons] at h
  split at h
  · next hdigit =>
    obtain rfl : (number (c :: cs)).2 = n := congrArg Prod.snd (Option.some.inj (Except.ok.inj h))
    exact number_pos hdigit
  split at h
  · rcases hcharacter : character (c :: cs) with f | m <;> rw [hcharacter] at h <;> cases h
    rcases character_cases hcharacter with ⟨_, _, _, -, -, -, -, rfl⟩ | ⟨_, _, m, -, -, -, rfl⟩ <;> omega
  split at h
  · rcases hquoted : quoted '"' .unterminatedString (c :: cs) with f | m <;> rw [hquoted] at h <;> cases h
    obtain ⟨_, _, _, -, -, -, rfl⟩ := arePieces_of_quoted hquoted
    omega
  split at h
  · rcases hquoted : quoted '\'' .unterminatedAtom (c :: cs) with f | m <;> rw [hquoted] at h <;> cases h
    obtain ⟨_, _, _, -, -, -, rfl⟩ := arePieces_of_quoted hquoted
    omega
  split at h
  · next hlower =>
    cases h
    exact hname (by simpa using .inl (.inl hlower))
  split at h
  · next hupper =>
    cases h
    exact hname (by simpa [or_assoc] using .inr (by simpa using hupper))
  · obtain ⟨s, hs, -, rfl, -⟩ := exists_of_symbol? (Except.ok.inj h)
    exact (by decide +kernel : ∀ s ∈ symbols, 0 < s.2.toList.length) s hs

/-- More text behind a lexeme can only make it longer, and then goes on without a blank. -/
theorem IsLexeme.append (h : IsLexeme kind cs) (ds : List CodePoint) :
    ∃ kind' n, lexeme (cs ++ ds) = .ok (some (kind', cs.length + n)) ∧ ∀ c ∈ ds.take n, Text.isBlank c = false := by
  have hhead : (cs ++ ds).head? = cs.head? := by
    cases cs with
    | nil => exact absurd rfl h.1
    | cons c cs => rfl
  rw [lexeme, hhead]
  exact (munches_scanFor cs.head?).append ds h.2 h.1

/-- A lexeme that goes on behind another one has no blanks there. -/
theorem IsLexeme.isBlank_of_append {kind' : Kind} {es : List CodePoint} (h : IsLexeme kind cs)
    (hlonger : IsLexeme kind' (cs ++ es)) : ∀ c ∈ es, Text.isBlank c = false := by
  obtain ⟨kind'', n, hfound, hblank⟩ := h.append es
  have hlength : (cs ++ es).length = cs.length + n :=
    congrArg Prod.snd (Option.some.inj (Except.ok.inj (hlonger.2.symm.trans hfound)))
  obtain rfl : n = es.length := by
    rw [List.length_append] at hlength
    omega
  rwa [List.take_length] at hblank

/-- A lexeme does not run on into a blank. -/
theorem IsLexeme.not_runsOn (h : IsLexeme kind cs) (hds : ∀ c ∈ ds.head?, Text.isBlank c = true) : ¬ RunsOn cs ds := by
  rintro ⟨es, hes, ⟨rest, rfl⟩, kind', hlonger⟩
  obtain ⟨c, es, rfl⟩ := List.exists_cons_of_ne_nil hes
  have hc := h.isBlank_of_append hlonger c (List.mem_cons_self ..)
  rw [hds c rfl] at hc
  cases hc

/-- A lexeme is found at the front of a text unless it runs on into what stands behind it. -/
theorem lexeme_append_eq_iff (hcs : cs ≠ []) :
    lexeme (cs ++ ds) = .ok (some (kind, cs.length)) ↔ IsLexeme kind cs ∧ ¬ RunsOn cs ds := by
  have hpos : 0 < cs.length := List.length_pos_iff.2 hcs
  constructor
  · intro h
    have hcut := (isLexeme_of_lexeme h hpos).2
    rw [List.take_left] at hcut
    refine ⟨hcut, ?_⟩
    rintro ⟨es, hes, ⟨rest, rfl⟩, kind', hlonger⟩
    obtain ⟨kind'', n, hfound, -⟩ := hlonger.append rest
    rw [List.append_assoc, h] at hfound
    have hlength : cs.length = (cs ++ es).length + n := congrArg Prod.snd (Option.some.inj (Except.ok.inj hfound))
    have hespos := List.length_pos_iff.2 hes
    rw [List.length_append] at hlength
    omega
  · rintro ⟨h, hno⟩
    obtain ⟨kind', n, hfound, -⟩ := h.append ds
    obtain ⟨hlength, hcut⟩ := isLexeme_of_lexeme hfound (by omega)
    rw [List.take_length_add_append] at hcut
    rw [List.length_append] at hlength
    rcases Nat.eq_zero_or_pos n with rfl | hn
    · rw [List.take_zero, List.append_nil] at hcut
      have hsame := h.2.symm.trans hcut.2
      cases hsame
      exact hfound
    · refine absurd ⟨ds.take n, ?_, List.take_prefix n ds, kind', hcut⟩ hno
      exact List.ne_nil_of_length_pos (by rw [List.length_take]; omega)

/-- A lexeme starts neither with a blank nor with a comment. -/
theorem IsLexeme.head (h : IsLexeme kind cs) : ∃ c rest, cs = c :: rest ∧ Text.isBlank c = false ∧ c ≠ '%' := by
  obtain ⟨hne, hlexeme⟩ := h
  obtain ⟨c, rest, rfl⟩ := List.exists_cons_of_ne_nil hne
  refine ⟨c, rest, rfl, ?_⟩
  have hname (h : name (c :: rest) = (c :: rest).length) : Text.isBlank c = false ∧ c ≠ '%' := by
    have hc : isNameChar c = true := by
      by_contra hc
      simp [name, hc] at h
    refine ⟨(isSolid_of_isNameChar hc).1, ?_⟩
    rintro rfl
    exact absurd hc (by decide)
  unfold lexeme scanFor at hlexeme
  rw [List.head?_cons] at hlexeme
  split at hlexeme
  · next hdigit =>
    refine ⟨Text.isBlank_of_isDigit hdigit, ?_⟩
    rintro rfl
    exact absurd hdigit (by decide)
  split at hlexeme
  · next hc =>
    cases hc
    decide
  split at hlexeme
  · next hc =>
    cases hc
    decide
  split at hlexeme
  · next hc =>
    cases hc
    decide
  split at hlexeme
  · exact hname (congrArg Prod.snd (Option.some.inj (Except.ok.inj hlexeme)))
  split at hlexeme
  · exact hname (congrArg Prod.snd (Option.some.inj (Except.ok.inj hlexeme)))
  · obtain ⟨s, hs, -, hlength, hbegins, -⟩ := exists_of_symbol? (Except.ok.inj hlexeme)
    have hc : c ∈ s.2.toList := by
      rw [hbegins.eq_of_length hlength]
      exact List.mem_cons_self ..
    exact (isSolid_of_mem_symbols s hs c hc).imp_left And.left

end Scan

namespace Lexer

/-- The lexer takes the lexeme at the front of the text. -/
theorem token?_eq (l : Lexer) :
    l.token? =
      match Scan.lexeme l.rest with
      | .ok (some (kind, n)) => (.ok (some (l.take kind n).1), { l.advance n with spaced := false })
      | .ok none => (.ok none, l)
      | .error f => (.error (l.fail f).1, (l.fail f).2) := by
  have haccept (kind : Kind) (r : Except Scan.Fault Nat) :
      settle (l.accept kind r) =
        match r.map fun n => some (kind, n) with
        | .ok (some (kind, n)) => (.ok (some (l.take kind n).1), { l.advance n with spaced := false })
        | .ok none => (.ok none, l)
        | .error f => (.error (l.fail f).1, (l.fail f).2) := by
    cases r <;> rfl
  unfold token? Scan.lexeme Scan.scanFor
  dsimp only
  split
  · rfl
  split
  · exact haccept _ _
  split
  · exact haccept _ _
  by_cases hquote : l.rest.head? = some (.char '\'')
  · rw [if_pos (by simp [hquote]), if_pos hquote, atom, if_pos hquote]
    exact haccept _ _
  · rw [if_neg hquote, atom, if_neg hquote]
    simp only [hquote, decide_false, Bool.false_or]
    split
    · exact haccept _ _
    split
    · rfl
    · unfold symbol?
      rcases Scan.symbol? l.rest with _ | ⟨kind, n⟩ <;> rfl

end Lexer

end ErlangMacros
