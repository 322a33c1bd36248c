import ErlangMacros.Proofs.Directive.Conditional
import ErlangMacros.Proofs.Token.Readable

/-!
# The language of a parser

A parser reads some tokens from the place of its cursor on.  Whether it reads them depends on these tokens and on the ones
behind them, at which it may look, but not on those before.  `Parser.Reads` says that a parser succeeds on a language and
on nothing else, and languages are put together as the parsers are (`Reads.bind`, `reads_choice`).  Over tokens of texts a
symbol is known from its text (`reads_punctuator`).
-/

namespace ErlangMacros

namespace Parser

variable {α β : Type} {ts : List Token}

/-! ### What a parser reads -/

/-- The tokens that a parser reads, what it makes of them, and the tokens behind them. -/
abbrev Language (α : Type) := List Token → α → List Token → Prop

/-- Over the tokens `ts`, wherever the cursor stands in them, a parser succeeds exactly on its language, and leaves the
cursor behind what it has read. -/
def Reads (ts : List Token) (L : Language α) (p : Parser α) : Prop :=
  ∀ before after, before ++ after = ts → ∀ a c,
    p ⟨ts, before.length⟩ = .ok a c ↔
      ∃ used rest, after = used ++ rest ∧ L used a rest ∧ c = ⟨ts, (before ++ used).length⟩

/-- One language and then another one. -/
def Language.andThen (L : Language α) (M : α → Language β) : Language β :=
  fun used b rest => ∃ front back a, used = front ++ back ∧ L front a (back ++ rest) ∧ M a back b rest

variable {L : Language α} {M : α → Language β}

private theorem bind_eq_ok_iff {p : Parser α} {k : α → Parser β} {c c' : Cursor} {b : β} :
    (p >>= k) c = .ok b c' ↔ ∃ a c₁, p c = .ok a c₁ ∧ k a c₁ = .ok b c' := by
  constructor
  · exact bind_eq_ok
  · rintro ⟨a, c₁, hp, hk⟩
    rw [bind_of_eq_ok hp, hk]

theorem Reads.bind {p : Parser α} {k : α → Parser β} (hp : Reads ts L p) (hk : ∀ a, Reads ts (M a) (k a)) :
    Reads ts (L.andThen M) (p >>= k) := by
  intro before after hts b c
  rw [bind_eq_ok_iff]
  constructor
  · rintro ⟨a, c₁, hfirst, hsecond⟩
    obtain ⟨front, rest₁, rfl, hfront, rfl⟩ := (hp before after hts a c₁).1 hfirst
    have hts' : before ++ front ++ rest₁ = ts := by rw [List.append_assoc, hts]
    obtain ⟨back, rest, rfl, hback, rfl⟩ := (hk a (before ++ front) rest₁ hts' b c).1 hsecond
    exact ⟨front ++ back, rest, by rw [List.append_assoc], ⟨front, back, a, rfl, hfront, hback⟩,
      by rw [List.append_assoc]⟩
  · rintro ⟨used, rest, rfl, ⟨front, back, a, rfl, hfront, hback⟩, rfl⟩
    rw [List.append_assoc] at hts
    have hts' : before ++ front ++ (back ++ rest) = ts := by rw [List.append_assoc, hts]
    refine ⟨a, ⟨ts, (before ++ front).length⟩, ?_, ?_⟩
    · exact (hp before _ hts a _).2 ⟨front, back ++ rest, rfl, hfront, rfl⟩
    · exact (hk a (before ++ front) _ hts' b _).2 ⟨back, rest, rfl, hback, by rw [List.append_assoc]⟩

/-- A language can be described in another way on the tokens at hand. -/
theorem Reads.congr {L' : Language α} {p : Parser α} (hp : Reads ts L p)
    (h : ∀ before used a rest, before ++ (used ++ rest) = ts → (L used a rest ↔ L' used a rest)) : Reads ts L' p := by
  intro before after hts a c
  rw [hp before after hts a c]
  constructor
  · rintro ⟨used, rest, rfl, hL, hc⟩
    exact ⟨used, rest, rfl, (h before used a rest hts).1 hL, hc⟩
  · rintro ⟨used, rest, rfl, hL, hc⟩
    exact ⟨used, rest, rfl, (h before used a rest hts).2 hL, hc⟩

theorem Reads.pure (a : α) : Reads ts (fun used b _ => used = [] ∧ b = a) (pure a : Parser α) := by
  intro before after hts b c
  constructor
  · intro h
    cases h
    exact ⟨[], after, rfl, ⟨rfl, rfl⟩, by rw [List.append_nil]⟩
  · rintro ⟨_, rest, -, ⟨rfl, rfl⟩, rfl⟩
    rw [List.append_nil]
    rfl

/-- A parser that never succeeds reads nothing. -/
theorem Reads.never {p : Parser α} (hp : ∀ c a c', p c ≠ .ok a c') : Reads ts (fun _ _ _ => False) p := by
  intro before after hts a c
  constructor
  · intro h
    exact absurd h (hp _ _ _)
  · rintro ⟨_, _, -, hno, -⟩
    exact hno.elim

theorem Reads.reject (e : ParseError) : Reads ts (fun _ _ _ => False) (reject e : Parser α) :=
  Reads.never (by rintro c a c' ⟨⟩)

theorem Reads.map {p : Parser α} (hp : Reads ts L p) (g : α → β) :
    Reads ts (fun used b rest => ∃ a, L used a rest ∧ b = g a) (g <$> p) := by
  intro before after hts b c
  have hmap : (g <$> p) ⟨ts, before.length⟩ = .ok b c ↔ ∃ a, p ⟨ts, before.length⟩ = .ok a c ∧ b = g a := by
    change EStateM.map g p _ = _ ↔ _
    unfold EStateM.map
    rcases p ⟨ts, before.length⟩ with ⟨a, c'⟩ | ⟨f, c'⟩
    · simp [eq_comm, and_comm]
    · simp
  rw [hmap]
  constructor
  · rintro ⟨a, ha, rfl⟩
    obtain ⟨used, rest, rfl, hL, rfl⟩ := (hp before after hts a c).1 ha
    exact ⟨used, rest, rfl, ⟨a, hL, rfl⟩, rfl⟩
  · rintro ⟨used, rest, rfl, ⟨a, hL, rfl⟩, rfl⟩
    exact ⟨a, (hp before _ hts a _).2 ⟨used, rest, rfl, hL, rfl⟩, rfl⟩

theorem Reads.ite {b : Prop} [Decidable b] {L' : Language α} {p q : Parser α} (hp : Reads ts L p) (hq : Reads ts L' q) :
    Reads ts (fun used a rest => b ∧ L used a rest ∨ ¬ b ∧ L' used a rest) (if b then p else q) := by
  by_cases hb : b
  · rw [if_pos hb]
    exact hp.congr fun _ _ _ _ _ => by simp [hb]
  · rw [if_neg hb]
    exact hq.congr fun _ _ _ _ _ => by simp [hb]

/-- A parser that goes on only if a condition does not hold. -/
theorem Reads.guard {b : Prop} [Decidable b] {p q : Parser α} (hp : ∀ c a c', p c ≠ .ok a c')
    (hq : ¬ b → Reads ts L q) : Reads ts (fun used a rest => ¬ b ∧ L used a rest) (if b then p else q) := by
  by_cases hb : b
  · rw [if_pos hb]
    exact (Reads.never hp).congr fun _ _ _ _ _ => by simp [hb]
  · rw [if_neg hb]
    exact (hq hb).congr fun _ _ _ _ _ => by simp [hb]

/-- What a parser reads is unambiguous. -/
theorem Reads.unique {L : Language α} {p : Parser α} (hp : Reads ts L p) (before : List Token)
    {used used' rest rest' : List Token} {a a' : α}
    (hts : before ++ (used ++ rest) = ts) (hL : L used a rest) (hts' : before ++ (used' ++ rest') = ts)
    (hL' : L used' a' rest') : used = used' ∧ a = a' ∧ rest = rest' := by
  have hread := (hp before _ hts a _).2 ⟨used, rest, rfl, hL, rfl⟩
  have hread' := (hp before _ hts' a' _).2 ⟨used', rest', rfl, hL', rfl⟩
  obtain ⟨ha, hc⟩ := EStateM.Result.ok.inj (hread.symm.trans hread')
  have hlength : (before ++ used).length = (before ++ used').length := Int.natCast_inj.1 (congrArg Cursor.pos hc)
  rw [List.length_append, List.length_append] at hlength
  have hsame : used ++ rest = used' ++ rest' := List.append_cancel_left (hts.trans hts'.symm)
  obtain ⟨hused, hrest⟩ := List.append_inj hsame (by omega)
  exact ⟨hused, ha, hrest⟩

/-! ### Single tokens -/

theorem token?_behind {before after : List Token} (hts : before ++ after = ts) :
    Cursor.token? ⟨ts, before.length⟩ = after.head? := by
  rw [Cursor.token?, Cursor.tokenAt?_natCast, ← hts, List.getElem?_append_right (Nat.le_refl _), Nat.sub_self,
    List.head?_eq_getElem?]

theorem reads_current : Reads ts (fun used t rest => used = [] ∧ rest.head? = some t) current := by
  intro before after hts t c
  constructor
  · intro h
    obtain ⟨ht, rfl⟩ := current_eq_ok h
    rw [token?_behind hts] at ht
    exact ⟨[], after, rfl, ⟨rfl, ht⟩, by rw [List.append_nil]⟩
  · rintro ⟨_, rest, rfl, ⟨rfl, ht⟩, rfl⟩
    rw [List.append_nil]
    exact current_of_token? ((token?_behind hts).trans ht)

private theorem advance_behind (before : List Token) (t : Token) :
    advance ⟨ts, before.length⟩ = .ok () ⟨ts, (before ++ [t]).length⟩ := by
  rw [List.length_append, List.length_singleton, Int.natCast_add]
  rfl

/-- A parser that goes on behind the next token if this is of a kind, and otherwise goes on at it. -/
theorem reads_choice {P : Token → Prop} [DecidablePred P] {L M : Token → Language α} {p q : Token → Parser α}
    (hp : ∀ t, P t → Reads ts (L t) (p t)) (hq : ∀ t, Reads ts (M t) (q t)) :
    Reads ts
      (fun used a rest => (∃ t back, used = t :: back ∧ P t ∧ L t back a rest) ∨
        ∃ t ∈ (used ++ rest).head?, ¬ P t ∧ M t used a rest)
      (do
        let t ← current
        if P t then
          advance
          p t
        else q t) := by
  intro before after hts a c
  rw [bind_eq_ok_iff]
  constructor
  · rintro ⟨t, c₁, hcurrent, hnext⟩
    obtain ⟨ht, rfl⟩ := current_eq_ok hcurrent
    rw [token?_behind hts] at ht
    by_cases hP : P t
    · rw [if_pos hP, bind_of_eq_ok (advance_behind before t)] at hnext
      obtain ⟨back, rfl⟩ := List.head?_eq_some_iff.1 ht
      obtain ⟨used, rest, rfl, hL, rfl⟩ := (hp t hP (before ++ [t]) back (by rw [← hts]; simp) a c).1 hnext
      exact ⟨t :: used, rest, rfl, .inl ⟨t, used, rfl, hP, hL⟩, by simp⟩
    · rw [if_neg hP] at hnext
      obtain ⟨used, rest, rfl, hM, rfl⟩ := (hq t before after hts a c).1 hnext
      exact ⟨used, rest, rfl, .inr ⟨t, ht, hP, hM⟩, rfl⟩
  · rintro ⟨used, rest, rfl, ⟨t, back, rfl, hP, hL⟩ | ⟨t, ht, hP, hM⟩, rfl⟩
    · refine ⟨t, _, current_of_token? (token?_behind hts), ?_⟩
      rw [if_pos hP, bind_of_eq_ok (advance_behind before t)]
      exact (hp t hP (before ++ [t]) (back ++ rest) (by rw [← hts]; simp) a _).2 ⟨back, rest, rfl, hL, by simp⟩
    · refine ⟨t, _, current_of_token? ((token?_behind hts).trans ht), ?_⟩
      rw [if_neg hP]
      exact (hq t before _ hts a _).2 ⟨used, rest, rfl, hM, rfl⟩

/-- The language of the single tokens of a kind. -/
def single (P : Token → Prop) : Language Token :=
  fun used t _ => used = [t] ∧ P t

/-- Match a token of a kind. -/
theorem reads_single {P : Token → Prop} [DecidablePred P] {e : Token → ParseError} :
    Reads ts (single P) (do
      let t ← current
      if P t then
        advance
        return t
      else reject (e t)) := by
  refine (reads_choice (fun t _ => Reads.pure t) fun t => Reads.reject _).congr fun before used t rest _ => ?_
  constructor
  · rintro (⟨t', back, rfl, ht, rfl, rfl⟩ | ⟨_, -, -, hno⟩)
    · exact ⟨rfl, ht⟩
    · exact hno.elim
  · rintro ⟨rfl, ht⟩
    exact .inl ⟨t, [], rfl, ht, rfl, rfl⟩

theorem reads_ofClass (classes : List TokenClass) :
    Reads ts (single fun t => classes.any (·.contains t) = true) (ofClass classes) :=
  reads_single

theorem Reads.congr_single {P Q : Token → Prop} {p : Parser Token} (hp : Reads ts (single P) p) (h : ∀ t, P t ↔ Q t) :
    Reads ts (single Q) p :=
  hp.congr fun _ _ t _ _ => and_congr_right fun _ => h t

theorem reads_ofKind (kind : Kind) : Reads ts (single fun t => t.kind = kind) (ofClass [.of kind]) :=
  (reads_ofClass _).congr_single fun t => by simp [TokenClass.contains]

theorem reads_exactly (wanted : TokenClass) (text : Text) :
    Reads ts (single fun t => (wanted.contains t && t.text = text) = true) (exactly wanted text) :=
  reads_single

/-- The language of a single token that is not kept. -/
def skipped (P : Token → Prop) : Language Unit :=
  fun used _ _ => ∃ t, used = [t] ∧ P t

theorem Reads.skip {P : Token → Prop} {p : Parser Token} (hp : Reads ts (single P) p) :
    Reads ts (skipped P) (do let _ ← p) := by
  refine (hp.bind fun t => Reads.pure ()).congr fun before used _ rest _ => ?_
  constructor
  · rintro ⟨_, _, t, rfl, ⟨rfl, ht⟩, rfl, -⟩
    exact ⟨t, rfl, ht⟩
  · rintro ⟨t, rfl, ht⟩
    exact ⟨[t], [], t, rfl, ⟨rfl, ht⟩, rfl, rfl⟩

private theorem Reads.congr_skipped {P Q : Token → Prop} {p : Parser Unit} (hp : Reads ts (skipped P) p)
    (h : ∀ t ∈ ts, P t ↔ Q t) : Reads ts (skipped Q) p := by
  refine hp.congr fun before used _ rest hts => exists_congr fun t => and_congr_right ?_
  rintro rfl
  exact h t (by rw [← hts]; simp)

/-- Match an atom that is spelled `text`. -/
theorem reads_keyword (text : Text) : Reads ts (skipped fun t => t.lexeme = (.atom, text)) (keyword text) :=
  (reads_exactly _ _).skip.congr_skipped fun t _ => by simp [TokenClass.contains, Token.lexeme]

/-- Match a punctuator.  Among the tokens of texts it is known from its text. -/
theorem reads_punctuator {text : Text} (hreadable : ∀ t ∈ ts, t.IsReadable) (htext : text ∈ Scan.punctuators) :
    Reads ts (skipped fun t => t.isSymbol text = true) (punctuator text) := by
  refine (reads_exactly _ _).skip.congr_skipped fun t ht => ?_
  have hsymbol : (Kind.punctuator, text) ∈ Scan.symbols := List.mem_append_right _ (List.mem_map_of_mem htext)
  constructor
  · intro h
    obtain ⟨hkind, htext'⟩ : t.kind = .punctuator ∧ t.text = text := by simpa [TokenClass.contains] using h
    simp [Token.isSymbol, Kind.isSymbol, hkind, htext']
  · intro h
    obtain ⟨hkind, htext'⟩ := Prod.mk.inj ((hreadable t ht).lexeme_symbol hsymbol h)
    simp [TokenClass.contains, hkind, htext']

/-! ### The rest of the tokens -/

theorem reads_rest (g : List Token → α) :
    Reads ts (fun used a rest => used = [] ∧ a = g rest) (do return g (← get).rest) := by
  intro before after hts a c
  have hrest : Cursor.rest ⟨ts, before.length⟩ = after := by
    rw [Cursor.rest, Cursor.offset_natCast, ← hts, List.drop_left]
  change EStateM.Result.ok (g (Cursor.rest ⟨ts, before.length⟩)) (⟨ts, before.length⟩ : Cursor) = .ok a c ↔ _
  rw [hrest]
  constructor
  · rintro ⟨⟩
    exact ⟨[], after, rfl, ⟨rfl, rfl⟩, by rw [List.append_nil]⟩
  · rintro ⟨_, rest, rfl, ⟨rfl, rfl⟩, rfl⟩
    rw [List.append_nil, List.nil_append]

/-- A parser that goes one way at the end of the tokens, and another way before it. -/
theorem reads_atEnd {L M : Language α} {p q : Parser α} (hp : Reads ts L p) (hq : Reads ts M q) :
    Reads ts (fun used a rest => used ++ rest = [] ∧ L used a rest ∨ used ++ rest ≠ [] ∧ M used a rest)
      (do if (← get).atEnd then p else q) := by
  intro before after hts a c
  have hend : Cursor.atEnd ⟨ts, before.length⟩ = true ↔ after = [] := by
    rw [Cursor.atEnd, decide_eq_true_iff, Int.natCast_inj, ← hts, List.length_append, left_eq_add, List.length_eq_zero_iff]
  change (if Cursor.atEnd ⟨ts, before.length⟩ = true then p else q) ⟨ts, before.length⟩ = .ok a c ↔ _
  refine (Reads.ite hp hq before after hts a c).trans ?_
  rw [hend]
  constructor
  · rintro ⟨used, rest, rfl, hL, rfl⟩
    exact ⟨used, rest, rfl, hL, rfl⟩
  · rintro ⟨used, rest, rfl, hL, rfl⟩
    exact ⟨used, rest, rfl, hL, rfl⟩

/-! ### The end of a directive -/

/-- Match the end of a directive. -/
theorem reads_close (hreadable : ∀ t ∈ ts, t.IsReadable) :
    Reads ts (fun used _ _ => ∃ closing stop, used = [closing, stop] ∧ closing.isSymbol ")" = true ∧
      stop.isSymbol "." = true) close := by
  have hclosing : Reads ts (skipped fun t => t.isSymbol ")" = true) (punctuator ")") :=
    reads_punctuator hreadable (by decide)
  have hstop : Reads ts (skipped fun t => t.isSymbol "." = true) (punctuator ".") :=
    reads_punctuator hreadable (by decide)
  refine (hclosing.bind fun _ => hstop).congr fun before used _ rest _ => ?_
  constructor
  · rintro ⟨_, _, _, rfl, ⟨closing, rfl, hclosing⟩, stop, rfl, hstop⟩
    exact ⟨closing, stop, rfl, hclosing, hstop⟩
  · rintro ⟨closing, stop, rfl, hclosing, hstop⟩
    exact ⟨[closing], [stop], (), rfl, ⟨closing, rfl, hclosing⟩, stop, rfl, hstop⟩

private theorem exists_append_pair (h : 2 ≤ ts.length) : ∃ front a b, ts = front ++ [a, b] := by
  obtain ⟨a, b, hpair⟩ := List.length_eq_two.1 (by rw [List.length_drop]; omega : (ts.drop (ts.length - 2)).length = 2)
  exact ⟨ts.take (ts.length - 2), a, b, by rw [← hpair, List.take_append_drop]⟩

/-- Match the tokens up to the last two, which have to be the end of a directive. -/
theorem reads_untilClose (hreadable : ∀ t ∈ ts, t.IsReadable) (least : Nat) (e : ParseError) :
    Reads ts (fun used body rest => rest = [] ∧ least ≤ body.length ∧ ∃ closing stop, used = body ++ [closing, stop] ∧
      closing.isSymbol ")" = true ∧ stop.isSymbol "." = true) (untilClose least e) := by
  intro before after hts body c
  have hget : (get : Parser Cursor) ⟨ts, before.length⟩ = .ok ⟨ts, before.length⟩ ⟨ts, before.length⟩ := rfl
  have htotal : ts.length = before.length + after.length := by rw [← hts, List.length_append]
  unfold untilClose
  rw [bind_of_eq_ok hget]
  dsimp only
  by_cases hlength : least + 2 ≤ after.length
  · obtain ⟨front, closing, stop, rfl⟩ := exists_append_pair (by omega : 2 ≤ after.length)
    rw [List.length_append, List.length_cons, List.length_singleton] at htotal hlength
    have hlast : ((ts.length : Int) - 2) = ((before ++ front).length : Int) := by
      rw [htotal, List.length_append]
      omega
    have hts' : before ++ front ++ [closing, stop] = ts := by rw [List.append_assoc, hts]
    have hfound : Cursor.tokenAt? ⟨ts, before.length⟩ (before ++ front).length = some closing := token?_behind hts'
    have hbody : (ts.take (before ++ front).length).drop before.length = front := by
      rw [← hts', List.take_left, List.drop_left]
    rw [hlast, hfound]
    by_cases hclosing : closing.isSymbol ")" = true
    · -- the cursor is set to the end, which is then read
      have hlong : least ≤ front.length := by omega
      have hseek : seek ((before ++ front).length : Int) ⟨ts, before.length⟩ = .ok () ⟨ts, (before ++ front).length⟩ := rfl
      have hend := (reads_close hreadable).bind fun _ => Reads.pure front
      rw [if_neg (by simp [isSymbol?, hclosing, hlong]), bind_of_eq_ok hseek, Cursor.offset_natCast, Cursor.offset_natCast,
        hbody, hend (before ++ front) [closing, stop] hts' body c]
      constructor
      · rintro ⟨_, rest, hsplit, ⟨_, _, _, rfl, ⟨closing', stop', rfl, hclosing', hstop'⟩, rfl, rfl⟩, rfl⟩
        obtain ⟨rfl, rfl, rfl⟩ : closing = closing' ∧ stop = stop' ∧ rest = [] := by simpa using hsplit
        exact ⟨body ++ [closing, stop], [], by simp, ⟨rfl, by omega, closing, stop, rfl, hclosing', hstop'⟩, by simp⟩
      · rintro ⟨_, _, hsplit, ⟨rfl, -, closing', stop', rfl, hclosing', hstop'⟩, rfl⟩
        rw [List.append_nil] at hsplit
        obtain ⟨rfl, hpair⟩ := List.append_inj' hsplit rfl
        cases hpair
        exact ⟨[closing, stop], [], rfl, ⟨[closing, stop], [], (), rfl, ⟨closing, stop, rfl, hclosing', hstop'⟩, rfl, rfl⟩,
          by simp⟩
    · rw [if_pos (by simp [isSymbol?, hclosing])]
      constructor
      · rintro ⟨⟩
      · rintro ⟨_, _, hsplit, ⟨rfl, -, closing', stop', rfl, hclosing', -⟩, rfl⟩
        rw [List.append_nil] at hsplit
        obtain ⟨-, hpair⟩ := List.append_inj' hsplit rfl
        cases hpair
        exact absurd hclosing' hclosing
  · have hshort : ((ts.length : Int) - 2) < before.length + least := by omega
    rw [if_pos (by simp [hshort])]
    constructor
    · rintro ⟨⟩
    · rintro ⟨_, _, rfl, ⟨rfl, hleast, closing, stop, rfl, -⟩, rfl⟩
      simp at hlength
      omega

end Parser

end ErlangMacros
