import ErlangMacros.Proofs.Lexer.Relexing
import ErlangMacros.Proofs.Token.Value

/-!
# Joining texts

The lexemes of a text do not depend on where it stands.  `Lexes cs ls rest` says that the lexemes `ls` are read from the
front of the text `cs`, and that `rest` is left.  A text that ends well is read like this in one way only
(`lexes_of_finished`, `Lexes.follow`).

If a text is put behind another one, the lexemes of that one are read as before, unless the last of them runs on into what
stands behind it (`Lexes.append`).  This is said of lexemes for which the next character decides whether they run on
(`IsSteady`), such as names and most symbols.
-/

namespace ErlangMacros

/-! ### Lexemes of a text -/

/-- Lexemes are read from the front of a text, each behind a gap, and the rest is left. -/
inductive Lexes : List CodePoint → List (Kind × Text) → List CodePoint → Prop where
  | nil (cs : List CodePoint) : Lexes cs [] cs
  | cons {gap cs rest : List CodePoint} {kind : Kind} {text : Text} {ls : List (Kind × Text)}
      (isGap : IsGap gap (text.toList ++ cs)) (ne_nil : text.toList ≠ [])
      (found : Scan.lexeme (text.toList ++ cs) = .ok (some (kind, text.toList.length))) (tail : Lexes cs ls rest) :
      Lexes (gap ++ (text.toList ++ cs)) ((kind, text) :: ls) rest

variable {cs mid rest : List CodePoint} {ls ls' : List (Kind × Text)}

theorem Lexes.trans (h : Lexes cs ls mid) (h' : Lexes mid ls' rest) : Lexes cs (ls ++ ls') rest := by
  induction h with
  | nil => exact h'
  | cons hgap hne found _ ih => exact .cons hgap hne found (ih h')

theorem Lexes.single {gap : List CodePoint} {kind : Kind} {text : Text} (hgap : IsGap gap (text.toList ++ cs))
    (hlexeme : Scan.IsLexeme kind text.toList) (hno : ¬ Scan.RunsOn text.toList cs) :
    Lexes (gap ++ (text.toList ++ cs)) [(kind, text)] cs :=
  .cons hgap hlexeme.1 ((Scan.lexeme_append_eq_iff hlexeme.1).2 ⟨hlexeme, hno⟩) (.nil cs)

theorem Lexes.suffix (h : Lexes cs ls rest) : rest <:+ cs := by
  induction h with
  | nil => exact List.suffix_rfl
  | cons _ _ _ _ ih => exact ih.trans ((List.suffix_append _ _).trans (List.suffix_append _ _))

theorem Lexes.isLexeme (h : Lexes cs ls rest) :
    ∀ s ∈ ls, Scan.IsLexeme s.1 s.2.toList := by
  induction h with
  | nil => simp
  | cons _ hne found _ ih => exact List.forall_mem_cons.2 ⟨((Scan.lexeme_append_eq_iff hne).1 found).1, ih⟩

theorem Layout.lexes {filename : Option Text} {before before' : List CodePoint} {ts : List Token}
    (h : Layout filename before cs ts before' rest) (hne : ∀ t ∈ ts, t.text.toList ≠ []) :
    Lexes cs (ts.map Token.lexeme) rest := by
  induction h with
  | nil => exact .nil _
  | cons hgap _ _ found _ ih =>
    obtain ⟨ht, hts⟩ := List.forall_mem_cons.1 hne
    exact .cons hgap ht found (ih hts)

/-- The tokens of a text that ends well are read as lexemes, and a gap is left. -/
theorem lexes_of_finished {text : Text} {filename : Option Text}
    (h : (Lexing.ofText text filename).ending = .finished) :
    ∃ rest, Lexes text.toList ((Lexing.ofText text filename).tokens.map Token.lexeme) rest ∧ IsGap rest [] := by
  obtain ⟨before, rest, -, hlayout, hends⟩ := lexing_layout text filename
  rw [h] at hends
  cases hends with
  | finished hgap =>
    refine ⟨rest, hlayout.lexes fun t ht => ?_, hgap⟩
    exact (Lexer.isLexeme_of_mem_tokenize (l := .ofText text filename) (by rw [← Lexing.ofText, h]; rfl) t ht).1

theorem Scan.startsNoGap_of_lexeme {kind : Kind} {text cs : List CodePoint} (hne : text ≠ [])
    (found : lexeme (text ++ cs) = .ok (some (kind, text.length))) : StartsNoGap (text ++ cs) :=
  ((lexeme_append_eq_iff hne).1 found).1.startsNoGap cs

/-- A lexer behind which a text is left gives the lexemes of this text. -/
theorem Lexes.tokenize (h : Lexes cs ls rest) (hrest : IsGap rest []) {l : Lexer} (hl : l.rest = cs) :
    l.tokenize.ending = .finished ∧ l.tokenize.tokens.map Token.lexeme = ls := by
  induction h generalizing l with
  | nil cs =>
    have hgap : Scan.gap false l.rest = l.rest.length := by
      have hlength := (hrest.gap_eq nofun).1
      rwa [List.append_nil, ← hl] at hlength
    have hskip : l.skipGap.rest = [] := by
      change l.rest.drop (Scan.gap false l.rest) = []
      rw [hgap, List.drop_length]
    rw [Lexer.tokenize_finished (Lexer.next_of_nil hskip)]
    exact ⟨rfl, rfl⟩
  | @cons gap cs rest kind text ls hgap hne found _ ih =>
    have hlength : Scan.gap false l.rest = gap.length := by
      rw [hl]
      exact (hgap.gap_eq (Scan.startsNoGap_of_lexeme hne found)).1
    have hskip : l.skipGap.rest = text.toList ++ cs := by
      change l.rest.drop (Scan.gap false l.rest) = _
      rw [hlength, hl, List.drop_left]
    rw [← hskip] at found
    rw [Lexer.tokenize_of_lexeme found (List.length_pos_iff.2 hne)]
    have hbehind : (l.skipGap.advance text.toList.length).rest = cs := by
      change l.skipGap.rest.drop text.toList.length = cs
      rw [hskip, List.drop_left]
    obtain ⟨hending, hlexemes⟩ := ih hrest (l := { l.skipGap.advance text.toList.length with spaced := false }) hbehind
    refine ⟨hending, ?_⟩
    change (kind, Text.ofList (l.skipGap.rest.take text.toList.length)) :: _ = _
    rw [hskip, List.take_left, Text.ofList_toList]
    exact congrArg _ hlexemes

/-- A text starts with one gap. -/
theorem IsGap.append_inj {gap gap' after after' : List CodePoint} (h : IsGap gap after) (hafter : StartsNoGap after)
    (h' : IsGap gap' after') (hafter' : StartsNoGap after') (heq : gap ++ after = gap' ++ after') :
    gap = gap' ∧ after = after' := by
  refine List.append_inj heq ?_
  rw [← (h.gap_eq hafter).1, heq, (h'.gap_eq hafter').1]

/-- A text that ends well is read in one way. -/
theorem Lexes.follow (h : Lexes cs ls mid) (h' : Lexes cs ls' rest) (hrest : IsGap rest []) :
    ∃ more, ls' = ls ++ more ∧ Lexes mid more rest := by
  induction h generalizing ls' with
  | nil => exact ⟨ls', rfl, h'⟩
  | @cons gap cs _ kind text ls hgap hne found _ ih =>
    have hstarts := Scan.startsNoGap_of_lexeme hne found
    generalize htext : gap ++ (text.toList ++ cs) = whole at h'
    cases h' with
    | nil =>
      -- the text would be only a gap
      obtain ⟨-, hnil⟩ := hgap.append_inj hstarts hrest nofun (by rw [htext, List.append_nil])
      exact absurd (List.append_eq_nil_iff.1 hnil).1 hne
    | @cons gap' cs' _ kind' text' ls' hgap' hne' found' htail =>
      obtain ⟨-, hsame⟩ := hgap.append_inj hstarts hgap' (Scan.startsNoGap_of_lexeme hne' found') htext
      rw [hsame, found'] at found
      obtain ⟨rfl, hlength⟩ := Prod.mk.inj (Option.some.inj (Except.ok.inj found))
      obtain ⟨htext', rfl⟩ := List.append_inj hsame hlength.symm
      obtain rfl := Text.toList_inj.1 htext'
      obtain ⟨more, rfl, hmore⟩ := ih htail
      exact ⟨more, rfl, hmore⟩

/-! ### Texts behind -/

namespace Scan

variable {text ds ds' : List CodePoint} {kind : Kind}

theorem RunsOn.mono (h : RunsOn text ds) (hds' : ds <+: ds') : RunsOn text ds' := by
  obtain ⟨es, hes, hds, hlonger⟩ := h
  exact ⟨es, hes, hds.trans hds', hlonger⟩

theorem RunsOn.ne_nil (h : RunsOn text ds) : ds ≠ [] := by
  obtain ⟨es, hes, hds, -⟩ := h
  rintro rfl
  exact hes (List.prefix_nil.1 hds)

/-- Whether the lexeme runs on into a text is decided by the first character of this text. -/
def IsSteady (text : List CodePoint) : Prop :=
  ∀ ds, RunsOn text ds → RunsOn text (ds.take 1)

end Scan

/-- Whether blanks and comments are a gap before a text is decided by the first character of this text. -/
theorem IsGap.of_head? {gap after after' : List CodePoint} (h : IsGap gap after) (hhead : after'.head? = after.head?) :
    IsGap gap after' := by
  induction h with
  | nil => exact .nil _
  | blank hc _ ih => exact .blank hc (ih hhead)
  | @comment body gap after hline hchar hends _ ih =>
    refine .comment hline hchar ?_ (ih hhead)
    rwa [List.head?_append, hhead, ← List.head?_append]

/-- A gap without comments is blank. -/
theorem IsGap.isBlank_of_not_mem {gap after : List CodePoint} (h : IsGap gap after) (hno : .char '%' ∉ gap) :
    ∀ c ∈ gap, Text.isBlank c = true := by
  induction h with
  | nil => simp
  | blank hc _ ih => exact List.forall_mem_cons.2 ⟨hc, ih fun h => hno (List.mem_cons_of_mem _ h)⟩
  | comment => simp at hno

/-- A gap in which no comment is open is one before every text. -/
theorem IsGap.of_closed {gap : List CodePoint} {c : CodePoint} (h : IsGap gap [c]) (hc : c ≠ '\n')
    (after : List CodePoint) : IsGap gap after := by
  generalize hafter : [c] = after' at h
  induction h with
  | nil => exact .nil _
  | blank hblank _ ih => exact .blank hblank (ih hafter)
  | @comment body gap after' hline hchar hends _ ih =>
    subst hafter
    refine .comment hline hchar ?_ (ih rfl)
    cases gap with
    | nil => exact absurd (hends c rfl) hc
    | cons d gap => exact hends

/-- Lexemes are read as before if the last one does not run on into the text that is put behind. -/
theorem Lexes.append (h : Lexes cs ls rest) (hsteady : ∀ s ∈ ls, Scan.IsSteady s.2.toList) {after : List CodePoint}
    (hlast : ∀ s ∈ ls.getLast?, ¬ Scan.RunsOn s.2.toList (after.take 1)) : Lexes (cs ++ after) ls (rest ++ after) := by
  induction h with
  | nil => exact .nil _
  | @cons gap cs rest kind text ls hgap hne found htail ih =>
    obtain ⟨hfirst, hsteady⟩ := List.forall_mem_cons.1 hsteady
    obtain ⟨hlexeme, hno⟩ := (Scan.lexeme_append_eq_iff hne).1 found
    have hno' : ¬ Scan.RunsOn text.toList (cs ++ after) := by
      intro hruns
      have hruns := hfirst _ hruns
      cases cs with
      | nil =>
        -- the lexeme is the last one
        cases ls with
        | nil => exact hlast _ rfl hruns
        | cons s ls =>
          generalize hnil : ([] : List CodePoint) = empty at htail
          cases htail with
          | cons _ hne' => simp [hne'] at hnil
      | cons c cs => exact hno (hruns.mono (by simp))
    have hrest := ih hsteady fun s hs => hlast s (by rw [List.getLast?_cons, hs]; rfl)
    have hgap' : IsGap gap (text.toList ++ (cs ++ after)) := by
      refine hgap.of_head? ?_
      rw [List.head?_append_of_ne_nil _ hne, List.head?_append_of_ne_nil _ hne]
    rw [List.append_assoc, List.append_assoc]
    exact .cons hgap' hne ((Scan.lexeme_append_eq_iff hne).2 ⟨hlexeme, hno'⟩) hrest

namespace Scan

variable {text ds : List CodePoint} {kind : Kind}

/-! ### Names and symbols -/

/-- A name is in quotes, or a run of characters. -/
theorem IsLexeme.name_cases (h : IsLexeme kind text) (hkind : kind = .atom ∨ kind = .var) :
    (∃ ps, ArePieces '\'' ps ∧ text = .char '\'' :: (piecesText ps ++ [.char '\''])) ∨
      ∀ cs, scanFor text.head? cs = .ok (some (kind, name cs)) := by
  have hfound := h.2
  unfold lexeme scanFor at hfound
  split at hfound
  · have hsame := congrArg Prod.fst (Option.some.inj (Except.ok.inj hfound))
    rcases kind_number text with hnumber | hnumber <;> rw [hnumber] at hsame <;> subst hsame <;> simp at hkind
  split at hfound
  · rcases hscan : character text with f | n <;> rw [hscan] at hfound <;> cases hfound
    simp at hkind
  split at hfound
  · rcases hscan : quoted '"' .unterminatedString text with f | n <;> rw [hscan] at hfound <;> cases hfound
    simp at hkind
  split at hfound
  · next hquote =>
    rcases hscan : quoted '\'' .unterminatedAtom text with f | n <;> rw [hscan] at hfound <;> cases hfound
    exact .inl (exists_pieces_of_isLexeme_atom h hquote)
  split at hfound
  · obtain rfl : Kind.atom = kind := congrArg Prod.fst (Option.some.inj (Except.ok.inj hfound))
    refine .inr fun cs => ?_
    simp [scanFor, *]
  split at hfound
  · obtain rfl : Kind.var = kind := congrArg Prod.fst (Option.some.inj (Except.ok.inj hfound))
    refine .inr fun cs => ?_
    simp only [scanFor, *, Bool.false_eq_true, if_true, if_false]
  · obtain ⟨s, hs, rfl, -⟩ := exists_of_symbol? (Except.ok.inj hfound)
    have hsymbol := isSymbol_of_mem_symbols s hs
    rcases hkind with hkind | hkind <;> rw [hkind] at hsymbol <;> cases hsymbol

private theorem name_eq_length_iff {cs : List CodePoint} : name cs = cs.length ↔ ∀ c ∈ cs, isNameChar c = true := by
  rw [← List.takeWhile_eq_self_iff]
  exact ⟨(List.takeWhile_prefix _).eq_of_length, congrArg List.length⟩

/-- A name runs on into characters of names only, and does so if the next character is one. -/
theorem IsLexeme.runsOn_name (h : IsLexeme kind text) (hkind : kind = .atom ∨ kind = .var) :
    IsSteady text ∧ ∀ ds, RunsOn text ds → ∃ c ∈ ds.head?, isNameChar c = true := by
  rcases h.name_cases hkind with ⟨ps, hps, rfl⟩ | hscan
  · -- the closing quote ends the lexeme
    have hno (ds : List CodePoint) : ¬ RunsOn (.char '\'' :: (piecesText ps ++ [.char '\''])) ds := by
      refine ((lexeme_append_eq_iff h.1).1 (?_ : lexeme _ = .ok (some (.atom, _)))).2
      rw [List.cons_append, List.append_assoc]
      change (quoted '\'' .unterminatedAtom _).map _ = _
      rw [List.singleton_append, quoted_of_arePieces hps (by decide) rfl]
      simp [Except.map]
    exact ⟨fun ds hruns => absurd hruns (hno ds), fun ds hruns => absurd hruns (hno ds)⟩
  · have hname {es : List CodePoint} : (∃ kind', IsLexeme kind' (text ++ es)) ↔ ∀ c ∈ text ++ es, isNameChar c = true := by
      have hfound : lexeme (text ++ es) = .ok (some (kind, name (text ++ es))) := by
        rw [lexeme, List.head?_append_of_ne_nil _ h.1, hscan]
      rw [← name_eq_length_iff]
      constructor
      · rintro ⟨kind', hlonger⟩
        exact congrArg Prod.snd (Option.some.inj (Except.ok.inj (hfound.symm.trans hlonger.2)))
      · intro hlength
        exact ⟨kind, by simp [h.1], by rw [hfound, hlength]⟩
    constructor
    · rintro ds ⟨es, hes, ⟨rest, rfl⟩, hlonger⟩
      obtain ⟨c, es, rfl⟩ := List.exists_cons_of_ne_nil hes
      refine ⟨[c], List.cons_ne_nil _ _, by simp, hname.2 fun d hd => hname.1 hlonger d ?_⟩
      rw [List.mem_append, List.mem_singleton] at hd
      rw [List.mem_append, List.mem_cons]
      exact hd.imp_right .inl
    · rintro ds ⟨es, hes, ⟨rest, rfl⟩, hlonger⟩
      obtain ⟨c, es, rfl⟩ := List.exists_cons_of_ne_nil hes
      exact ⟨c, rfl, hname.1 hlonger c (by simp)⟩

/-- A symbol runs on into what makes it a longer symbol. -/
theorem exists_symbol_of_runsOn {s : Kind × Text} (hs : s ∈ symbols) (h : RunsOn s.2.toList ds) :
    ∃ s' ∈ symbols, ∃ es, es <+: ds ∧ RunsOn s.2.toList es ∧ s'.2.toList = s.2.toList ++ es := by
  obtain ⟨es, hes, hds, kind, hne', hfound⟩ := h
  have hruns : RunsOn s.2.toList es := ⟨es, hes, List.prefix_rfl, kind, hne', hfound⟩
  have hscan : ∀ s ∈ symbols, ∀ cs, scanFor s.2.toList.head? cs = .ok (symbol? cs) := by
    have hall : (symbols.all fun s => !s.2.toList.head?.any Text.isDigit && s.2.toList.head? != some (.char '$') &&
        s.2.toList.head? != some (.char '"') && s.2.toList.head? != some (.char '\'') &&
        !s.2.toList.head?.any Text.isLower && s.2.toList.head? != some (.char '_') &&
        !s.2.toList.head?.any Text.isUpper && !s.2.toList.isEmpty) = true := by
      decide +kernel
    intro s hs cs
    have hstart := List.all_eq_true.1 hall s hs
    simp only [Bool.and_eq_true, Bool.not_eq_true', bne_iff_ne] at hstart
    simp [scanFor, hstart]
  have hne : ∀ s ∈ symbols, s.2.toList ≠ [] := by decide +kernel
  rw [lexeme, List.head?_append_of_ne_nil _ (hne s hs), hscan s hs] at hfound
  obtain ⟨s', hs', -, hlength, hbegins, -⟩ := exists_of_symbol? (Except.ok.inj hfound)
  exact ⟨s', hs', es, hds, hruns, hbegins.eq_of_length hlength⟩

/-- No symbol starts with another one among these. -/
theorem not_runsOn_symbol {s : Kind × Text} (hs : s ∈ symbols)
    (hshort : ∀ s' ∈ symbols, s.2.toList <+: s'.2.toList → s' = s) : ¬ RunsOn s.2.toList ds := by
  intro hruns
  obtain ⟨s', hs', es, -, hes, heq⟩ := exists_symbol_of_runsOn hs hruns
  rw [hshort s' hs' ⟨es, heq.symm⟩, List.self_eq_append_right] at heq
  exact hes.ne_nil heq

/-- A symbol that can only become longer by one character. -/
theorem isSteady_symbol {s : Kind × Text} (hs : s ∈ symbols)
    (hshort : ∀ s' ∈ symbols, s.2.toList <+: s'.2.toList → s'.2.toList.length ≤ s.2.toList.length + 1) :
    IsSteady s.2.toList := by
  intro ds hruns
  obtain ⟨s', hs', es, hds, hes, heq⟩ := exists_symbol_of_runsOn hs hruns
  have hlength := hshort s' hs' ⟨es, heq.symm⟩
  rw [heq, List.length_append] at hlength
  exact hes.mono (List.prefix_take_iff.2 ⟨hds, by omega⟩)

end Scan

end ErlangMacros
