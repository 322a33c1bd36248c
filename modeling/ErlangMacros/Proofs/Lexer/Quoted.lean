import ErlangMacros.Proofs.Lexer.Scan

/-!
# Quoted lexemes and the text behind

An escape sequence has one of five forms, and the text behind counts for it by its first character only
(`IsEscape.of_head`): only octal digits can make a sequence longer (`escape_append_cases`).  A quoted lexeme is a list
of pieces between quotes (`ArePieces`), and ends with its closing quote, whatever stands behind.

Pieces consist of characters.  A fault stands behind characters only, and at a surrogate if that is what cannot be read
(`Fault.StandsIn`).
-/

namespace ErlangMacros

namespace Scan

/-! ### Escape sequences -/

/-- What follows a backslash as an escape sequence, before the rest of a text. -/
inductive IsEscape : List CodePoint → List CodePoint → Prop where
  | braced {code rest : List CodePoint} (ne_nil : code ≠ []) (isHex : ∀ c ∈ code, Escape.isHex c = true)
      (inRange : hexValue code ≤ Escape.lastCode) : IsEscape (.char 'x' :: .char '{' :: (code ++ [.char '}'])) rest
  | hex {a b : CodePoint} {rest : List CodePoint} (isHex : Escape.isHex a = true) (isHex' : Escape.isHex b = true) :
      IsEscape ['x', a, b] rest
  | control {c : CodePoint} {rest : List CodePoint} (isChar : c.isChar = true) : IsEscape ['^', c] rest
  | octal {digits rest : List CodePoint} (ne_nil : digits ≠ []) (isOctal : ∀ c ∈ digits, Escape.isOctal c = true)
      (length_le : digits.length ≤ 3) (stops : digits.length = 3 ∨ ∀ c ∈ rest.head?, Escape.isOctal c = false) :
      IsEscape digits rest
  | plain {c : CodePoint} {rest : List CodePoint} (ne_x : c ≠ 'x') (ne_caret : c ≠ '^')
      (notOctal : Escape.isOctal c = false) (isChar : c.isChar = true) : IsEscape [c] rest

/-- The octal digits of an escape sequence. -/
theorem isEscape_octal {cs : List CodePoint} (h : cs.head?.any Escape.isOctal = true) :
    IsEscape ((cs.takeWhile Escape.isOctal).take 3) (cs.drop ((cs.takeWhile Escape.isOctal).take 3).length) := by
  refine .octal ?_ ?_ (List.length_take_le _ _) ?_
  · cases cs with
    | nil => cases h
    | cons c cs =>
      have hc : Escape.isOctal c = true := h
      simp [hc]
  · exact fun c hc => List.mem_takeWhile_imp (List.mem_of_mem_take hc)
  · by_cases hlength : 3 ≤ (cs.takeWhile Escape.isOctal).length
    · exact .inl (by rw [List.length_take, Nat.min_eq_left hlength])
    · rw [List.take_of_length_le (by omega)]
      refine .inr fun c hc => ?_
      rw [drop_length_takeWhile] at hc
      have hstop := List.head?_dropWhile_not Escape.isOctal cs
      rw [Option.mem_def.1 hc] at hstop
      exact hstop

theorem escape_cons {c : CodePoint} (cs : List CodePoint) (hx : c ≠ 'x') (hcaret : c ≠ '^') :
    escape (c :: cs) =
      if Escape.isOctal c then .ok (((c :: cs).takeWhile Escape.isOctal).take 3).length
      else if c.isChar then .ok 1
      else .error (.unencodable 1) := by
  unfold escape
  split <;> simp_all

theorem ne_of_isOctal {c : CodePoint} (h : Escape.isOctal c = true) : c ≠ 'x' ∧ c ≠ '^' := by
  constructor <;> rintro rfl <;> exact absurd h (by decide)

theorem ne_of_isHex {c : CodePoint} (h : Escape.isHex c = true) : c ≠ '{' ∧ c ≠ '}' := by
  constructor <;> rintro rfl <;> exact absurd h (by decide)

/-- Octal digits are counted, up to three of them. -/
theorem escape_octal {digits : List CodePoint} (rest : List CodePoint) (hne : digits ≠ [])
    (hoctal : ∀ c ∈ digits, Escape.isOctal c = true) :
    escape (digits ++ rest) = .ok (min 3 (digits.length + (rest.takeWhile Escape.isOctal).length)) := by
  obtain ⟨d, ds, rfl⟩ := List.exists_cons_of_ne_nil hne
  have hd := hoctal d (List.mem_cons_self ..)
  obtain ⟨hx, hcaret⟩ := ne_of_isOctal hd
  rw [List.cons_append, escape_cons _ hx hcaret, if_pos hd, ← List.cons_append,
    List.takeWhile_append_of_pos (by simpa using hoctal), List.length_take, List.length_append]

private theorem isChar_of_isHex {c : CodePoint} (h : Escape.isHex c = true) : c.isChar = true := by
  refine CodePoint.isChar_of_lt ?_
  simp only [Escape.isHex, CodePoint.isDigit, Bool.or_eq_true, Bool.and_eq_true, decide_eq_true_eq,
    Char.reduceToNat] at h
  omega

/-- A code in braces ends with the first closing brace. -/
theorem takeWhile_brace {code : List CodePoint} (rest : List CodePoint) (h : ∀ c ∈ code, Escape.isHex c = true) :
    (code ++ [CodePoint.char '}'] ++ rest).takeWhile (· ≠ CodePoint.char '}') = code := by
  rw [List.append_assoc, List.takeWhile_append_of_pos (by simpa using fun c hc => (ne_of_isHex (h c hc)).2)]
  simp

/-- A text with more than a code goes on with the closing brace. -/
theorem exists_brace {cs : List CodePoint} (h : (cs.takeWhile (· ≠ CodePoint.char '}')).length ≠ cs.length) :
    ∃ rest, cs = cs.takeWhile (· ≠ CodePoint.char '}') ++ .char '}' :: rest := by
  have hsplit := List.takeWhile_append_dropWhile (p := (· ≠ CodePoint.char '}')) (l := cs)
  have hstop := List.head?_dropWhile_not (· ≠ CodePoint.char '}') cs
  rcases hdrop : cs.dropWhile (· ≠ CodePoint.char '}') with _ | ⟨c, rest⟩ <;> rw [hdrop] at hsplit hstop
  · rw [List.append_nil] at hsplit
    exact absurd (congrArg List.length hsplit) h
  · obtain rfl : c = '}' := by simpa using hstop
    exact ⟨rest, hsplit.symm⟩

private theorem isEscape_braced {cs : List CodePoint} {n : Nat} (h : escape (.char 'x' :: .char '{' :: cs) = .ok n) :
    ∃ body rest, .char 'x' :: .char '{' :: cs = body ++ rest ∧ body.length = n ∧ IsEscape body rest := by
  simp only [escape] at h
  split at h
  · cases h
  split at h
  · cases h
  next hclosed =>
  split at h
  · cases h
  next hhex =>
  split at h
  · cases h
  next hrange =>
  cases h
  obtain ⟨rest, hrest⟩ := exists_brace hclosed
  generalize cs.takeWhile (· ≠ CodePoint.char '}') = code at hhex hrange hrest ⊢
  simp only [Bool.or_eq_true, List.isEmpty_iff, Bool.not_eq_true', not_or, Bool.not_eq_false,
    List.all_eq_true] at hhex
  refine ⟨.char 'x' :: .char '{' :: (code ++ [.char '}']), rest, ?_, by simp, .braced hhex.1 hhex.2 (by omega)⟩
  rw [hrest, List.cons_append, List.cons_append, List.append_assoc]
  rfl

theorem isEscape_of_escape {cs : List CodePoint} {n : Nat} (h : escape cs = .ok n) :
    ∃ body rest, cs = body ++ rest ∧ body.length = n ∧ IsEscape body rest := by
  unfold escape at h
  split at h
  · cases h
  · exact isEscape_braced h
  · next cs hbrace =>
    split at h
    · next hhex =>
      cases h
      match cs, hhex with
      | a :: b :: cs, hhex =>
        simp only [List.take_succ_cons, List.take_zero, List.all_cons, List.all_nil, Bool.and_eq_true] at hhex
        exact ⟨['x', a, b], cs, rfl, rfl, .hex hhex.2.1 hhex.2.2.1⟩
    · cases h
  · cases h
  · next c cs =>
    split at h
    · next hc =>
      cases h
      exact ⟨['^', c], cs, rfl, rfl, .control hc⟩
    · cases h
  · next c cs _ hx hcaret hcaret' =>
    split at h
    · next hoctal =>
      cases h
      have hstart := (List.take_prefix 3 _).trans (List.takeWhile_prefix (l := c :: cs) Escape.isOctal)
      exact ⟨_, _, (List.prefix_iff_eq_append.1 hstart).symm, rfl, isEscape_octal hoctal⟩
    · next hoctal =>
      split at h
      · next hc =>
        cases h
        refine ⟨[c], cs, rfl, rfl, .plain hx ?_ (by simpa using hoctal) hc⟩
        rintro rfl
        cases cs with
        | nil => exact hcaret rfl rfl
        | cons d cs => exact hcaret' d cs rfl rfl
      · cases h

theorem escape_of_isEscape {body rest : List CodePoint} (h : IsEscape body rest) :
    escape (body ++ rest) = .ok body.length := by
  cases h with
  | @braced code _ hne hhex hrange =>
    have hcode := takeWhile_brace rest hhex
    have hall : code.all Escape.isHex = true := List.all_eq_true.2 hhex
    have hchars : code.any (!·.isChar) = false := by simpa using fun c hc => isChar_of_isHex (hhex c hc)
    simp only [List.cons_append, escape, hcode, hchars]
    rw [if_neg Bool.false_ne_true, if_neg (by simp), if_neg (by simp [hne, hall]), if_neg (by omega)]
    simp
  | @hex a b _ ha hb =>
    have hcons : ∀ ds, a :: b :: rest ≠ .char '{' :: ds := fun ds hds => (ne_of_isHex ha).1 (List.cons.inj hds).1
    simp [escape.eq_3 _ hcons, ha, hb]
  | control hc => simp [escape, hc]
  | @octal digits _ hne hoctal hlength hstops =>
    rw [escape_octal rest hne hoctal]
    rcases hstops with hthree | hstops
    · rw [hthree, Nat.min_eq_left (by omega)]
    · have hrest : rest.takeWhile Escape.isOctal = [] := by
        cases rest with
        | nil => rfl
        | cons c rest => simp [hstops c rfl]
      rw [hrest, List.length_nil, Nat.add_zero, Nat.min_eq_right hlength]
  | plain hx hcaret hoctal hc => simp [escape_cons _ hx hcaret, hoctal, hc]

/-- An escape sequence consists of characters. -/
theorem IsEscape.isChar {body rest : List CodePoint} (h : IsEscape body rest) : ∀ c ∈ body, c.isChar = true := by
  cases h with
  | braced hne hhex hrange =>
    refine List.forall_mem_cons.2 ⟨rfl, List.forall_mem_cons.2 ⟨rfl, List.forall_mem_append.2 ⟨fun c hc => ?_, ?_⟩⟩⟩
    · exact isChar_of_isHex (hhex c hc)
    · exact List.forall_mem_singleton.2 rfl
  | hex ha hb => simp [isChar_of_isHex ha, isChar_of_isHex hb]
  | control hc => simp [hc]
  | octal hne hoctal hlength hstops => exact fun c hc => (isSolid_of_isOctal (hoctal c hc)).2
  | plain hx hcaret hoctal hc => exact List.forall_mem_singleton.2 hc

/-- The rest of a text counts for an escape sequence by its first character only, and only if this is an octal
digit. -/
theorem IsEscape.of_head {body rest rest' : List CodePoint} (h : IsEscape body rest)
    (hhead : ∀ c ∈ rest'.head?, c ∈ rest.head? ∨ Escape.isOctal c = false) : IsEscape body rest' := by
  cases h with
  | braced hne hhex hrange => exact .braced hne hhex hrange
  | hex ha hb => exact .hex ha hb
  | control hc => exact .control hc
  | octal hne hoctal hlength hstops =>
    exact .octal hne hoctal hlength (hstops.imp_right fun h c hc => (hhead c hc).elim (h c) id)
  | plain hx hcaret hoctal hc => exact .plain hx hcaret hoctal hc

theorem escape_take {cs : List CodePoint} {n m : Nat} (h : escape cs = .ok n) (hm : n ≤ m) :
    escape (cs.take m) = .ok n := by
  obtain ⟨body, rest, rfl, rfl, hescape⟩ := isEscape_of_escape h
  rw [List.take_append, List.take_of_length_le hm]
  refine escape_of_isEscape (hescape.of_head fun c hc => .inl ?_)
  rw [List.head?_take] at hc
  split at hc
  · cases hc
  · exact hc

/-- Only octal digits make an escape sequence longer. -/
theorem IsEscape.all_or_octal {body rest : List CodePoint} (h : IsEscape body rest) :
    (∀ rest', IsEscape body rest') ∨ body ≠ [] ∧ (∀ c ∈ body, Escape.isOctal c = true) ∧ body.length ≤ 3 := by
  cases h with
  | braced hne hhex hrange => exact .inl fun _ => .braced hne hhex hrange
  | hex ha hb => exact .inl fun _ => .hex ha hb
  | control hc => exact .inl fun _ => .control hc
  | octal hne hoctal hlength _ => exact .inr ⟨hne, hoctal, hlength⟩
  | plain hx hcaret hoctal hc => exact .inl fun _ => .plain hx hcaret hoctal hc

/-- An escape sequence with more text behind. -/
theorem escape_append_cases {cs : List CodePoint} (ds : List CodePoint) (h : escape cs = .ok cs.length) :
    ∃ m, escape (cs ++ ds) = .ok (cs.length + m) ∧ ∀ c ∈ ds.take m, Escape.isOctal c = true := by
  obtain ⟨body, rest, rfl, hlength, hescape⟩ := isEscape_of_escape h
  obtain rfl : rest = [] := by simpa using hlength.symm
  rw [List.append_nil]
  rcases hescape.all_or_octal with hall | ⟨hne, hoctal, hthree⟩
  · exact ⟨0, escape_of_isEscape (hall ds), by simp⟩
  · refine ⟨min 3 (body.length + (ds.takeWhile Escape.isOctal).length) - body.length, ?_, fun c hc => ?_⟩
    · rw [escape_octal ds hne hoctal]
      congr 1
      omega
    · refine List.mem_takeWhile_imp (l := ds) ?_
      rw [List.prefix_iff_eq_take.1 (List.takeWhile_prefix (l := ds) Escape.isOctal)]
      exact List.take_subset_take_left ds (by omega) hc

/-! ### Quoted lexemes -/

/-- The text of pieces. -/
def piecesText (ps : List Piece) : List CodePoint :=
  ps.flatMap Piece.text

/-- Pieces that stand before a closing quote. -/
inductive ArePieces (quote : CodePoint) : List Piece → Prop where
  | nil : ArePieces quote []
  | plain {c : CodePoint} {ps : List Piece} (ne_quote : c ≠ quote) (ne_backslash : c ≠ '\\') (isChar : c.isChar = true)
      (rest : ArePieces quote ps) : ArePieces quote (.plain c :: ps)
  | escaped {body : List CodePoint} {ps : List Piece} (isEscape : IsEscape body (piecesText ps ++ [quote]))
      (rest : ArePieces quote ps) : ArePieces quote (.escaped body :: ps)

variable {quote : CodePoint} {unclosed : LexCause} {cs : List CodePoint} {ps : List Piece}

private theorem arePieces_of_pieces (h : pieces quote unclosed cs = .ok ps) :
    ArePieces quote ps ∧ ∃ rest, cs = piecesText ps ++ quote :: rest := by
  fun_induction pieces quote unclosed cs generalizing ps with
  | case1 => cases h
  | case2 rest =>
    cases h
    exact ⟨.nil, rest, rfl⟩
  | case3 => cases h
  | case4 => cases h
  | case5 rest n hescape ps' hps' hquote ih =>
    cases h
    obtain ⟨hps, rest', hrest⟩ := ih hps'
    obtain ⟨body, rest'', rfl, rfl, hbody⟩ := isEscape_of_escape hescape
    rw [List.drop_left] at hrest
    subst hrest
    rw [List.take_left]
    refine ⟨.escaped (hbody.of_head ?_) hps, rest', ?_⟩
    · cases piecesText ps' <;> simp
    · simp [piecesText, Piece.text]
  | case6 => cases h
  | case7 c rest hquote hbackslash hc ps' hps' ih =>
    cases h
    obtain ⟨hps, rest', rfl⟩ := ih hps'
    exact ⟨.plain hquote hbackslash hc hps, rest', rfl⟩
  | case8 => cases h

private theorem Fault.shift_shift (f : Fault) (m n : Nat) : (f.shift m).shift n = f.shift (m + n) := by
  simp [Fault.shift, Function.comp_def, Nat.add_assoc]

/-- Pieces are found again before everything that does not make the last of them longer. -/
theorem pieces_append (hps : ArePieces quote ps) (hquote : quote ≠ '\\') {rest : List CodePoint}
    (hrest : ∀ c ∈ rest.head?, c = quote ∨ Escape.isOctal c = false) :
    pieces quote unclosed (piecesText ps ++ rest) =
      ((pieces quote unclosed rest).mapError (Fault.shift (piecesText ps).length)).map (ps ++ ·) := by
  induction hps with
  | nil =>
    change pieces quote unclosed rest = _
    rcases pieces quote unclosed rest with f | qs
    · simp [Except.mapError, Except.map, Fault.shift, piecesText]
    · rfl
  | @plain c ps hne hbackslash hc _ ih =>
    have htext : piecesText (.plain c :: ps) ++ rest = c :: (piecesText ps ++ rest) := rfl
    rw [htext, pieces, if_neg hne, if_neg hbackslash, if_pos hc, ih]
    rcases pieces quote unclosed rest with f | qs
    · exact congrArg Except.error (f.shift_shift _ 1)
    · rfl
  | @escaped body ps hescape _ ih =>
    have htext : piecesText (.escaped body :: ps) ++ rest = .char '\\' :: (body ++ (piecesText ps ++ rest)) := by
      simp [piecesText, Piece.text]
    have hbody : escape (body ++ (piecesText ps ++ rest)) = .ok body.length := by
      refine escape_of_isEscape (hescape.of_head ?_)
      cases piecesText ps with
      | nil => exact fun c hc => (hrest c hc).imp_left fun heq => by rw [heq]; rfl
      | cons => exact fun _ hc => .inl hc
    rw [htext, pieces, if_neg hquote.symm, if_pos rfl, hbody]
    dsimp only
    rw [List.drop_left, ih, List.take_left]
    have hlength : (piecesText (.escaped body :: ps)).length = (piecesText ps).length + (body.length + 1) := by
      have hcons : piecesText (.escaped body :: ps) = .char '\\' :: body ++ piecesText ps := rfl
      rw [hcons, List.length_append, List.length_cons]
      omega
    rw [hlength]
    rcases pieces quote unclosed rest with f | qs
    · exact congrArg Except.error (f.shift_shift _ _)
    · rfl

theorem pieces_of_arePieces (hps : ArePieces quote ps) (hquote : quote ≠ '\\') (rest : List CodePoint) :
    pieces quote unclosed (piecesText ps ++ quote :: rest) = .ok ps := by
  rw [pieces_append hps hquote (by simp), pieces, if_pos rfl]
  simp [Except.mapError, Except.map]

/-- Pieces are not found where a surrogate stands in their place. -/
theorem pieces_of_surrogate (hps : ArePieces quote ps) (hquote : quote ≠ '\\') (hchar : quote.isChar = true)
    (n : Fin 0x800) (rest : List CodePoint) :
    pieces quote unclosed (piecesText ps ++ .surrogate n :: rest) = .error (.unencodable (piecesText ps).length) := by
  have hne : .surrogate n ≠ quote := by
    rintro rfl
    cases hchar
  have hoctal : Escape.isOctal (.surrogate n) = false := by
    rw [Bool.eq_false_iff]
    intro h
    cases (isSolid_of_isOctal h).2
  rw [pieces_append hps hquote (by simp [hoctal]), pieces, if_neg hne, if_neg (by simp), if_neg (by simp)]
  simp [Except.mapError, Except.map, Fault.shift, Fault.unencodable]

/-- Pieces consist of characters. -/
theorem ArePieces.isChar (h : ArePieces quote ps) : ∀ c ∈ piecesText ps, c.isChar = true := by
  induction h with
  | nil => exact List.forall_mem_nil _
  | plain _ _ hc _ ih => exact List.forall_mem_cons.2 ⟨hc, ih⟩
  | escaped hescape _ ih =>
    refine List.forall_mem_append.2 ⟨?_, ih⟩
    exact List.forall_mem_cons.2 ⟨rfl, hescape.isChar⟩

private theorem foldl_length (ps : List Piece) (n : Nat) :
    ps.foldl (fun n p => n + p.length) n = n + (piecesText ps).length := by
  induction ps generalizing n with
  | nil => rfl
  | cons p ps ih =>
    have htext : piecesText (p :: ps) = p.text ++ piecesText ps := rfl
    rw [List.foldl_cons, ih, htext, List.length_append, Piece.length]
    omega

theorem arePieces_of_quoted {n : Nat} (h : quoted quote unclosed cs = .ok n) :
    ∃ c ps rest, c.isChar = true ∧ ArePieces quote ps ∧ cs = c :: (piecesText ps ++ quote :: rest) ∧
      n = (piecesText ps).length + 2 := by
  unfold quoted at h
  split at h
  · next hfirst =>
    rcases hpieces : pieces quote unclosed (cs.drop 1) with f | ps <;> rw [hpieces] at h <;> cases h
    obtain ⟨hps, rest, hrest⟩ := arePieces_of_pieces hpieces
    cases cs with
    | nil => simp at hrest
    | cons c cs => exact ⟨c, ps, rest, hfirst, hps, congrArg (c :: ·) hrest, by rw [foldl_length]; omega⟩
  · cases h

theorem quoted_of_arePieces (hps : ArePieces quote ps) (hquote : quote ≠ '\\') {c : CodePoint} (hc : c.isChar = true)
    (rest : List CodePoint) :
    quoted quote unclosed (c :: (piecesText ps ++ quote :: rest)) = .ok ((piecesText ps).length + 2) := by
  rw [quoted, if_pos (by exact hc), List.drop_one, List.tail_cons, pieces_of_arePieces hps hquote]
  dsimp only
  rw [foldl_length]
  congr 1
  omega

/-! ### Character literals -/

/-- A quoted lexeme breaks off at a surrogate. -/
theorem quoted_of_surrogate (hps : ArePieces quote ps) (hquote : quote ≠ '\\') (hchar : quote.isChar = true)
    (n : Fin 0x800) (rest : List CodePoint) :
    quoted quote unclosed (quote :: (piecesText ps ++ .surrogate n :: rest)) =
      .error (.unencodable (quote :: piecesText ps).length) := by
  rw [quoted, if_pos (by exact hchar), List.drop_one, List.tail_cons, pieces_of_surrogate hps hquote hchar]
  rfl

theorem character_plain {dollar c : CodePoint} (rest : List CodePoint) (hdollar : dollar.isChar = true) (hc : c ≠ '\\')
    (hchar : c.isChar = true) : character (dollar :: c :: rest) = .ok 2 := by
  simp [character, hdollar, hc, hchar]

theorem character_escaped {dollar : CodePoint} {rest : List CodePoint} {n : Nat} (hdollar : dollar.isChar = true)
    (h : escape rest = .ok n) : character (dollar :: .char '\\' :: rest) = .ok (n + 2) := by
  simp [character, hdollar, h]

theorem character_cases {cs : List CodePoint} {n : Nat} (h : character cs = .ok n) :
    (∃ dollar c rest, cs = dollar :: c :: rest ∧ dollar.isChar = true ∧ c ≠ '\\' ∧ c.isChar = true ∧ n = 2) ∨
      ∃ dollar rest m, cs = dollar :: .char '\\' :: rest ∧ dollar.isChar = true ∧ escape rest = .ok m ∧ n = m + 2 := by
  unfold character at h
  split at h
  · next hdollar =>
    match cs with
    | [] => cases h
    | [dollar] => cases h
    | dollar :: c :: rest =>
      have hdollar : dollar.isChar = true := hdollar
      simp only [List.drop_one, List.tail_cons] at h
      split at h
      · next hc =>
        rcases hescape : escape rest with f | m <;> rw [hescape] at h <;> cases h
        exact .inr ⟨dollar, rest, m, by rw [hc], hdollar, hescape, rfl⟩
      · next hc =>
        split at h
        · next hchar =>
          cases h
          exact .inl ⟨dollar, c, rest, rfl, hdollar, hc, hchar, rfl⟩
        · cases h
  · cases h

/-! ### Faults -/

/-- The fault is one of the text: only characters stand before its place.  If a surrogate cannot be read, it stands at
the place. -/
structure Fault.StandsIn (f : Fault) (cs : List CodePoint) : Prop where
  isChar : ∀ c ∈ cs.take (f.place.getD 0), c.isChar = true
  surrogate : f.cause = .unencodable → ∃ p n, f.place = some p ∧ cs[p]? = some (.surrogate n)

private theorem Fault.standsIn_of_place {f : Fault} (cs : List CodePoint) (hcause : f.cause ≠ .unencodable)
    (hplace : f.place.getD 0 = 0) : f.StandsIn cs := by
  refine ⟨?_, fun h => absurd h hcause⟩
  rw [hplace, List.take_zero]
  exact List.forall_mem_nil _

/-- The surrogate that cannot be read stands behind characters. -/
theorem Fault.standsIn_unencodable (before : List CodePoint) {after : List CodePoint} {c : CodePoint}
    (hbefore : ∀ c ∈ before, c.isChar = true) (hc : c.isChar = false) :
    (Fault.unencodable before.length).StandsIn (before ++ c :: after) := by
  refine ⟨?_, fun _ => ?_⟩
  · simpa [Fault.unencodable] using hbefore
  · obtain ⟨n, rfl⟩ := CodePoint.isChar_eq_false_iff.1 hc
    exact ⟨before.length, n, rfl, by simp⟩

/-- A fault behind characters is one of the whole text. -/
theorem Fault.StandsIn.shift {f : Fault} {cs : List CodePoint} (h : f.StandsIn cs) (before : List CodePoint)
    (hbefore : ∀ c ∈ before, c.isChar = true) : (f.shift before.length).StandsIn (before ++ cs) := by
  constructor
  · rcases hplace : f.place with _ | p
    · simp [Fault.shift, hplace]
    · have hchars := h.isChar
      rw [hplace, Option.getD_some] at hchars
      simp only [Fault.shift, hplace, Option.map_some, Option.getD_some]
      rw [Nat.add_comm, List.take_length_add_append]
      exact List.forall_mem_append.2 ⟨hbefore, hchars⟩
  · intro hcause
    obtain ⟨p, n, hplace, hsurrogate⟩ := h.surrogate hcause
    refine ⟨p + before.length, n, by simp [Fault.shift, hplace], ?_⟩
    rw [List.getElem?_append_right (Nat.le_add_left _ _), Nat.add_sub_cancel, hsurrogate]

/-- Characters stand before the first surrogate. -/
theorem exists_of_any_not_isChar {cs : List CodePoint} (h : cs.any (!·.isChar) = true) :
    ∃ c after, cs = cs.takeWhile CodePoint.isChar ++ c :: after ∧ c.isChar = false := by
  obtain ⟨d, hd, hsurrogate⟩ := List.any_eq_true.1 h
  have hsplit := List.takeWhile_append_dropWhile (p := CodePoint.isChar) (l := cs)
  have hstop := List.head?_dropWhile_not CodePoint.isChar cs
  rcases hdrop : cs.dropWhile CodePoint.isChar with _ | ⟨c, after⟩ <;> rw [hdrop] at hsplit hstop
  · rw [List.dropWhile_eq_nil_iff.1 hdrop d hd] at hsurrogate
    cases hsurrogate
  · exact ⟨c, after, hsplit.symm, by simpa using hstop⟩

private theorem standsIn_of_escape_braced {cs : List CodePoint} {f : Fault}
    (h : escape (.char 'x' :: .char '{' :: cs) = .error f) :
    f.StandsIn (.char '\\' :: .char 'x' :: .char '{' :: cs) := by
  simp only [escape] at h
  split at h
  · next hany =>
    cases h
    have hsplit := List.takeWhile_append_dropWhile (p := (· ≠ CodePoint.char '}')) (l := cs)
    generalize cs.takeWhile (· ≠ CodePoint.char '}') = code at hany hsplit
    obtain ⟨c, after, hcode, hc⟩ := exists_of_any_not_isChar hany
    rw [hcode, List.append_assoc] at hsplit
    rw [← hsplit]
    exact Fault.standsIn_unencodable ('\\' :: 'x' :: '{' :: code.takeWhile CodePoint.isChar)
      (by simpa using fun c hc => List.mem_takeWhile_imp hc) hc
  split at h
  · cases h
    exact Fault.standsIn_of_place _ (by simp) rfl
  split at h
  · cases h
    exact Fault.standsIn_of_place _ (by simp) rfl
  split at h
  · cases h
    exact Fault.standsIn_of_place _ (by simp) rfl
  · cases h

private theorem standsIn_of_escape {cs : List CodePoint} {f : Fault} (h : escape cs = .error f) :
    f.StandsIn (.char '\\' :: cs) := by
  unfold escape at h
  split at h
  · cases h
    exact Fault.standsIn_of_place _ (by simp) rfl
  · exact standsIn_of_escape_braced h
  · split at h
    · cases h
    · cases h
      exact Fault.standsIn_of_place _ (by simp) rfl
  · cases h
    exact Fault.standsIn_of_place _ (by simp) rfl
  · next c cs =>
    split at h
    · cases h
    · next hc =>
      cases h
      exact Fault.standsIn_unencodable ['\\', '^'] (by simp) (by simpa using hc)
  · next c cs _ _ _ _ =>
    split at h
    · cases h
    split at h
    · cases h
    · next hc =>
      cases h
      exact Fault.standsIn_unencodable ['\\'] (by simp) (by simpa using hc)

private theorem standsIn_of_pieces {f : Fault} (hunclosed : unclosed ≠ .unencodable)
    (h : pieces quote unclosed cs = .error f) : f.StandsIn cs := by
  fun_induction pieces quote unclosed cs generalizing f with
  | case1 =>
    cases h
    exact Fault.standsIn_of_place _ hunclosed rfl
  | case2 => cases h
  | case3 rest g hescape =>
    cases h
    exact standsIn_of_escape hescape
  | case4 rest n hescape g hrest _ ih =>
    cases h
    obtain ⟨body, rest', rfl, rfl, hbody⟩ := isEscape_of_escape hescape
    rw [List.drop_left] at hrest ih
    exact (ih hrest).shift (.char '\\' :: body) (List.forall_mem_cons.2 ⟨rfl, hbody.isChar⟩)
  | case5 => cases h
  | case6 c rest _ _ hc g hrest ih =>
    cases h
    exact (ih hrest).shift [c] (List.forall_mem_singleton.2 hc)
  | case7 => cases h
  | case8 c rest _ _ hc =>
    cases h
    exact Fault.standsIn_unencodable [] (List.forall_mem_nil _) (by simpa using hc)

theorem standsIn_of_quoted {f : Fault} (hunclosed : unclosed ≠ .unencodable)
    (h : quoted quote unclosed cs = .error f) : f.StandsIn cs := by
  unfold quoted at h
  split at h
  · next hfirst =>
    rcases hpieces : pieces quote unclosed (cs.drop 1) with g | ps <;> rw [hpieces] at h <;> cases h
    have hstands := standsIn_of_pieces hunclosed hpieces
    cases cs with
    | nil =>
      rw [List.drop_nil, pieces] at hpieces
      cases hpieces
      exact Fault.standsIn_of_place _ hunclosed rfl
    | cons c cs => exact hstands.shift [c] (List.forall_mem_singleton.2 hfirst)
  · next hfirst =>
    cases h
    cases cs with
    | nil => exact absurd rfl hfirst
    | cons c cs => exact Fault.standsIn_unencodable [] (List.forall_mem_nil _) (by simpa using hfirst)

theorem standsIn_of_character {f : Fault} (h : character cs = .error f) : f.StandsIn cs := by
  unfold character at h
  split at h
  · next hdollar =>
    split at h
    · cases h
      exact Fault.standsIn_of_place _ (by simp) rfl
    · next c rest hrest =>
      obtain ⟨dollar, rfl⟩ : ∃ dollar, cs = dollar :: c :: rest := by
        cases cs with
        | nil => cases hrest
        | cons dollar cs => exact ⟨dollar, congrArg (dollar :: ·) hrest⟩
      have hdollar : dollar.isChar = true := hdollar
      split at h
      · next hc =>
        rcases hescape : escape rest with g | n <;> rw [hescape] at h <;> cases h
        rw [hc]
        exact (standsIn_of_escape hescape).shift [dollar] (List.forall_mem_singleton.2 hdollar)
      split at h
      · cases h
      · next hc =>
        cases h
        exact Fault.standsIn_unencodable [dollar] (List.forall_mem_singleton.2 hdollar)
          (by simpa using hc)
  · next hdollar =>
    cases h
    cases cs with
    | nil => exact absurd rfl hdollar
    | cons c cs =>
      exact Fault.standsIn_unencodable [] (List.forall_mem_nil _) (by simpa using hdollar)

end Scan

end ErlangMacros
