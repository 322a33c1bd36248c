import ErlangMacros.Token

/-!
# Lexemes

The lexeme of a token is its kind with its text.  Where the token stands does not count for what it is, nor for its
value.  Behind a question mark, the value of an atom or a variable is the name of the macro that is called
(`calledName?`).  The tokens of a form have no full stop but at their end (`StopsLast`).

Tokens of no text are for inputs that are given as tokens.
-/

namespace ErlangMacros

namespace Token

/-- The kind and the text of a token, wherever it stands. -/
def lexeme (t : Token) : Kind × Text :=
  (t.kind, t.text)

/-! ### Tokens of no text -/

/-- A token that stands nowhere in particular. -/
def loose (kind : Kind) (text : Text) : Token :=
  { kind, text }

def symbol : Text → Token := loose .punctuator

def operator : Text → Token := loose .operator

def atom : Text → Token := loose .atom

def var : Text → Token := loose .var

/-- A token on the first line of a file, behind ASCII characters only. -/
def placed (kind : Kind) (text : Text) (offset : Nat) (spaced : Bool := false) (filename : Option Text := none) :
    Token :=
  ⟨kind, text, ⟨filename, offset, 1, offset + 1⟩, spaced⟩

/-- A token of which only the line is known. -/
def onLine (kind : Kind) (text : Text) (line : Int) : Token :=
  ⟨kind, text, ⟨none, 0, line, 1⟩, false⟩

/-! ### Lexemes -/

variable {t u : Token}

/-- A symbol has one text. -/
theorem isSymbol_eq_false {text text' : Text} (h : t.isSymbol text = true) (hne : text ≠ text') :
    t.isSymbol text' = false := by
  simp only [isSymbol, Bool.and_eq_true, decide_eq_true_eq] at h
  simp [isSymbol, h.2, hne]

theorem isSymbol_congr (h : t.lexeme = u.lexeme) (text : Text) : t.isSymbol text = u.isSymbol text := by
  obtain ⟨hkind, htext⟩ := Prod.mk.inj h
  rw [isSymbol, isSymbol, hkind, htext]

theorem isSymbol_of_lexeme {kind : Kind} {text : Text} (h : t.lexeme = (kind, text)) (hkind : kind.isSymbol = true) :
    t.isSymbol text = true := by
  obtain ⟨rfl, rfl⟩ := Prod.mk.inj h
  simp [isSymbol, hkind]

theorem value?_congr (h : t.lexeme = u.lexeme) : t.value? = u.value? := by
  obtain ⟨hkind, htext⟩ := Prod.mk.inj h
  rw [value?, value?, quotedBody, quotedBody, hkind, htext]

theorem nameValue_congr (h : t.lexeme = u.lexeme) : t.nameValue = u.nameValue := by
  obtain ⟨hkind, htext⟩ := Prod.mk.inj h
  rw [nameValue, nameValue, value, value, value?_congr h, hkind, htext]

theorem map_text_of_map_lexeme {ts us : List Token} (h : us.map lexeme = ts.map lexeme) :
    us.map (·.text) = ts.map (·.text) := by
  have htexts := congrArg (List.map Prod.snd) h
  rwa [List.map_map, List.map_map] at htexts

/-- The name that an atom or a variable calls after a question mark. -/
def calledName? (t : Token) : Option Text :=
  if t.kind = .atom || t.kind = .var then t.value.toOption else none

theorem calledName?_eq_some {name : Text} (h : t.calledName? = some name) :
    (decide (t.kind = .atom) || decide (t.kind = .var)) = true ∧ t.value = .ok name := by
  unfold calledName? at h
  split at h
  · next hkind =>
    refine ⟨hkind, ?_⟩
    rcases hvalue : t.value with e | value <;> rw [hvalue] at h
    · cases h
    · cases h
      rfl
  · cases h

theorem calledName?_eq {name : Text} (hkind : (decide (t.kind = .atom) || decide (t.kind = .var)) = true)
    (hvalue : t.value = .ok name) : t.calledName? = some name := by
  rw [calledName?, if_pos hkind, hvalue]
  rfl

/-! ### Full stops -/

/-- Only the last of the tokens may be a full stop. -/
def StopsLast (ts : List Token) : Prop :=
  ∀ t ∈ ts.dropLast, t.isSymbol "." = false

variable {ts : List Token}

theorem StopsLast.tail (h : StopsLast (t :: ts)) : StopsLast ts := by
  intro u hu
  cases ts with
  | nil => cases hu
  | cons v ts => exact h u (by rw [List.dropLast_cons_cons]; exact List.mem_cons_of_mem t hu)

theorem StopsLast.head (h : StopsLast (t :: ts)) (hne : ts ≠ []) : t.isSymbol "." = false :=
  h t (by rw [List.dropLast_cons_of_ne_nil hne]; exact List.mem_cons_self)

/-- Nothing stands behind a full stop. -/
theorem StopsLast.eq_nil (h : StopsLast ts) {stop : Token} (hstop : stop.isSymbol "." = true) (front rest : List Token)
    (hts : front ++ stop :: rest = ts) : rest = [] := by
  cases rest with
  | nil => rfl
  | cons u us =>
    have hmem : stop ∈ ts.dropLast := by
      rw [← hts, List.dropLast_append_cons, List.dropLast_cons_cons]
      exact List.mem_append_right _ List.mem_cons_self
    have hno := h stop hmem
    rw [hstop] at hno
    cases hno

end Token

end ErlangMacros
