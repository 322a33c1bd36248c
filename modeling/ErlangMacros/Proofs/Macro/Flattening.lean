import Mathlib
import ErlangMacros.Proofs.Macro.Table
import ErlangMacros.Proofs.Token.Lexeme

/-!
# Flattening calls without arguments

If no macro of a table has parameters, a list of tokens has a meaning that does not depend on how calls are expanded:
every call is replaced by the body of its macro, in which the calls are replaced in the same way
(`MacroTable.Flattens`).  Calls may be nested without end.  `MacroTable.flatten` replaces calls only down to a number
of levels and stops at the first call that is nested deeper.  It never has to stop exactly if the macros that are
called are no higher than that number (`cut_flatten_eq_none_iff`, `height_le_iff`), and what it gives then is the whole
flattening (`flattens_flatten`).
-/

namespace ErlangMacros

/-- The tokens of a flattening up to the first call that is nested too deep, and the name of that call. -/
structure Flattening where
  tokens : List Token := []
  cut : Option Text := none
deriving DecidableEq

namespace Flattening

/-- Go on with `g`, unless a call was nested too deep before. -/
def append (f g : Flattening) : Flattening :=
  match f.cut with
  | some _ => f
  | none => ⟨f.tokens ++ g.tokens, g.cut⟩

theorem append_of_cut_none {f : Flattening} (h : f.cut = none) (g : Flattening) :
    f.append g = ⟨f.tokens ++ g.tokens, g.cut⟩ := by
  simp [append, h]

theorem append_of_cut_some {f : Flattening} {name : Text} (h : f.cut = some name) (g : Flattening) :
    f.append g = f := by
  simp [append, h]

private theorem cut_append_eq_none_iff {f g : Flattening} : (f.append g).cut = none ↔ f.cut = none ∧ g.cut = none := by
  unfold append
  split
  · next h => simp [h]
  · next h => simp [h]

end Flattening

namespace MacroTable

variable {t : MacroTable} {name : Text}

/-- The body of the variant without parameters. -/
def body (t : MacroTable) (name : Text) : List Token :=
  ((t.get? name none).map Macro.body).getD []

/-- The names of the macros that are called in a list of tokens. -/
def calledNames : List Token → List Text
  | [] => []
  | [_] => []
  | q :: u :: rest =>
    match q.isSymbol "?", u.calledName? with
    | true, some name => name :: calledNames rest
    | _, _ => calledNames (u :: rest)

/-- Replace the calls in a list of tokens by what their names mean. -/
def replaceCalls (meaning : Text → Flattening) : List Token → Flattening
  | [] => {}
  | [q] => { tokens := [q] }
  | q :: u :: rest =>
    match q.isSymbol "?", u.calledName? with
    | true, some name => (meaning name).append (replaceCalls meaning rest)
    | _, _ => Flattening.append { tokens := [q] } (replaceCalls meaning (u :: rest))

/-- Replace calls, and the calls in their bodies, down to a number of levels. -/
def flatten (t : MacroTable) : Nat → List Token → Flattening
  | 0 => replaceCalls fun name => { cut := some name }
  | n + 1 => replaceCalls fun name => t.flatten n (t.body name)

/-- Every question mark stands directly before the name of a macro of the table. -/
def CallsMacros (t : MacroTable) : List Token → Prop
  | [] => True
  | q :: rest =>
    (q.isSymbol "?" → ∃ u ∈ rest.head?, ∃ name ∈ u.calledName?, t.contains name = true) ∧ t.CallsMacros rest

instance decidableCallsMacros (t : MacroTable) : DecidablePred t.CallsMacros
  | [] => inferInstanceAs (Decidable True)
  | _ :: rest =>
    have := t.decidableCallsMacros rest
    inferInstanceAs (Decidable (_ ∧ _))

/-- No macro has parameters or is called like a predefined one, and the macros call only each other. -/
structure IsArgumentless (t : MacroTable) : Prop where
  isProper : t.IsProper
  params_eq : ∀ m ∈ t.macros, m.params = none
  isPredefined_eq : ∀ m ∈ t.macros, isPredefined m.name = false
  callsMacros : ∀ m ∈ t.macros, t.CallsMacros m.body

/-- The second list comes from the first by replacing calls until none is left. -/
inductive Flattens (t : MacroTable) : List Token → List Token → Prop where
  | nil : Flattens t [] []
  | token {q : Token} {rest out : List Token} (plain : q.isSymbol "?" = false) (restFlattens : Flattens t rest out) :
      Flattens t (q :: rest) (q :: out)
  | call {q u : Token} {name : Text} {m : Macro} {rest expansion out : List Token}
      (question : q.isSymbol "?" = true) (called : u.calledName? = some name) (found : t.get? name none = some m)
      (bodyFlattens : Flattens t m.body expansion) (restFlattens : Flattens t rest out) :
      Flattens t (q :: u :: rest) (expansion ++ out)

/-! ### Heights -/

/-- Calls of the macro are nested at most a number of levels deep. -/
def NestsWithin (t : MacroTable) : Nat → Text → Prop
  | 0, _ => False
  | n + 1, name => ∀ callee ∈ calledNames (t.body name), t.NestsWithin n callee

/-- How deep calls of the macro are nested, which may be without end. -/
noncomputable def height (t : MacroTable) (name : Text) : ℕ∞ :=
  ⨅ (n : ℕ) (_ : t.NestsWithin n name), (n : ℕ∞)

theorem NestsWithin.mono {n m : Nat} (h : t.NestsWithin n name) (hle : n ≤ m) : t.NestsWithin m name := by
  induction n generalizing m name with
  | zero => exact h.elim
  | succ n ih =>
    obtain ⟨m, rfl⟩ : ∃ k, m = k + 1 := ⟨m - 1, by omega⟩
    intro callee hcallee
    exact ih (h callee hcallee) (by omega)

theorem height_le_iff {n : Nat} : t.height name ≤ n ↔ t.NestsWithin n name := by
  constructor
  · intro h
    -- a number below the next one is reached by some number of levels
    have hlt : t.height name < (n + 1 : ℕ) := lt_of_le_of_lt h (by exact_mod_cast Nat.lt_succ_self n)
    obtain ⟨k, hk⟩ := iInf_lt_iff.1 hlt
    obtain ⟨hnests, hk⟩ := iInf_lt_iff.1 hk
    have hk : k < n + 1 := by exact_mod_cast hk
    exact hnests.mono (by omega)
  · intro h
    exact iInf₂_le n h

/-- A macro is one higher than the highest macro that it calls. -/
theorem height_eq (t : MacroTable) (name : Text) :
    t.height name = 1 + ⨆ callee ∈ calledNames (t.body name), t.height callee := by
  have hle : ∀ n : ℕ, t.height name ≤ n ↔ 1 + ⨆ callee ∈ calledNames (t.body name), t.height callee ≤ (n : ℕ∞) := by
    intro n
    rw [height_le_iff]
    cases n with
    | zero =>
      refine ⟨False.elim, fun h => ?_⟩
      have hone : (1 : ℕ∞) ≤ 0 := le_trans le_self_add h
      simp at hone
    | succ n =>
      rw [add_comm 1, Nat.cast_add, Nat.cast_one, ENat.add_le_add_iff_right ENat.one_ne_top, iSup₂_le_iff]
      exact forall₂_congr fun callee _ => height_le_iff.symm
  apply le_antisymm
  · by_cases htop : (1 + ⨆ callee ∈ calledNames (t.body name), t.height callee) = ⊤
    · rw [htop]
      exact le_top
    · obtain ⟨n, hn⟩ := ENat.ne_top_iff_exists.1 htop
      rw [← hn]
      exact (hle n).2 hn.ge
  · by_cases htop : t.height name = ⊤
    · rw [htop]
      exact le_top
    · obtain ⟨n, hn⟩ := ENat.ne_top_iff_exists.1 htop
      rw [← hn]
      exact (hle n).1 hn.ge

/-! ### Flattening down to a number of levels -/

private theorem cut_replaceCalls_eq_none_iff {meaning : Text → Flattening} {ts : List Token} :
    (replaceCalls meaning ts).cut = none ↔ ∀ name ∈ calledNames ts, (meaning name).cut = none := by
  induction ts using calledNames.induct with
  | case1 => simp [replaceCalls, calledNames]
  | case2 => simp [replaceCalls, calledNames]
  | case3 q u rest name hu hq ih =>
    simp only [replaceCalls, calledNames, hq, hu, Flattening.cut_append_eq_none_iff, List.forall_mem_cons, ih]
  | case4 q u rest hne ih =>
    rw [replaceCalls, calledNames]
    split
    · next hq hu => exact (hne _ hq hu).elim
    · rw [Flattening.cut_append_eq_none_iff, ih]
      simp

/-- Flattening stops nowhere exactly if no call is nested too deep. -/
theorem cut_flatten_eq_none_iff {n : Nat} {ts : List Token} :
    (t.flatten n ts).cut = none ↔ ∀ name ∈ calledNames ts, t.NestsWithin n name := by
  induction n generalizing ts with
  | zero =>
    rw [flatten, cut_replaceCalls_eq_none_iff]
    simp [NestsWithin]
  | succ n ih =>
    rw [flatten, cut_replaceCalls_eq_none_iff]
    exact forall₂_congr fun name _ => ih

theorem forall_height_le_iff {n : Nat} {ts : List Token} :
    (∀ name ∈ calledNames ts, t.height name ≤ n) ↔ (t.flatten n ts).cut = none := by
  rw [cut_flatten_eq_none_iff]
  exact forall₂_congr fun name _ => height_le_iff

theorem exists_get?_of_contains (ht : t.IsArgumentless) (h : t.contains name = true) :
    ∃ m ∈ t.macros, t.get? name none = some m ∧ m.name = name ∧ t.body name = m.body := by
  obtain ⟨m, hm, hname⟩ := List.any_eq_true.1 h
  have hname : m.name = name := by simpa using hname
  have harity : m.arity = none := by simp [Macro.arity, ht.params_eq m hm]
  have hsome : (t.get? name none).isSome := by
    rw [get?, List.find?_isSome]
    exact ⟨m, hm, by simp [hname, harity]⟩
  obtain ⟨m', hm'⟩ := Option.isSome_iff_exists.1 hsome
  obtain ⟨hmem, hname', -⟩ := key_of_get? hm'
  exact ⟨m', hmem, hm', hname', by simp [body, hm']⟩

theorem replaceCalls_token (meaning : Text → Flattening) {q : Token} (hq : q.isSymbol "?" = false)
    (rest : List Token) :
    replaceCalls meaning (q :: rest) = Flattening.append { tokens := [q] } (replaceCalls meaning rest) := by
  cases rest with
  | nil => simp [replaceCalls, Flattening.append]
  | cons u rest => simp only [replaceCalls, hq]

theorem replaceCalls_call (meaning : Text → Flattening) {q u : Token} (hq : q.isSymbol "?" = true)
    (hu : u.calledName? = some name) (rest : List Token) :
    replaceCalls meaning (q :: u :: rest) = (meaning name).append (replaceCalls meaning rest) := by
  simp only [replaceCalls, hq, hu]

/-- A list in which only macros are called is made of single tokens and calls. -/
@[elab_as_elim]
theorem CallsMacros.induction {motive : (ts : List Token) → t.CallsMacros ts → Prop} (nil : motive [] trivial)
    (token : ∀ {q rest} (h : t.CallsMacros (q :: rest)), q.isSymbol "?" = false → motive rest h.2 →
      motive (q :: rest) h)
    (call : ∀ {q u name rest} (h : t.CallsMacros (q :: u :: rest)), q.isSymbol "?" = true →
      u.calledName? = some name → t.contains name = true → motive rest h.2.2 → motive (q :: u :: rest) h)
    {ts : List Token} (h : t.CallsMacros ts) : motive ts h := by
  induction ts using calledNames.induct with
  | case1 => exact nil
  | case2 q =>
    refine token h ?_ nil
    by_contra hq
    obtain ⟨u, hu, -⟩ := h.1 (by simpa using hq)
    cases hu
  | case3 q u rest name hu hq ih =>
    obtain ⟨u', hu', name', hname', hcontains⟩ := h.1 hq
    cases hu'
    rw [hu] at hname'
    cases hname'
    exact call h hq hu hcontains (ih h.2.2)
  | case4 q u rest hne ih =>
    refine token h ?_ (ih h.2)
    by_contra hq
    obtain ⟨u', hu', name', hname', -⟩ := h.1 (by simpa using hq)
    cases hu'
    exact hne name' (by simpa using hq) hname'

/-- What a list of calls is replaced by is its flattening, if that holds for the bodies. -/
theorem flattens_replaceCalls (ht : t.IsArgumentless) {meaning : Text → Flattening}
    (hmeaning : ∀ name, (meaning name).cut = none → t.CallsMacros (t.body name) →
      t.Flattens (t.body name) (meaning name).tokens)
    {ts : List Token} (hts : t.CallsMacros ts) (hcut : (replaceCalls meaning ts).cut = none) :
    t.Flattens ts (replaceCalls meaning ts).tokens := by
  induction hts using CallsMacros.induction with
  | nil => exact .nil
  | token _ hq ih =>
    rw [replaceCalls_token meaning hq, Flattening.append_of_cut_none rfl] at hcut ⊢
    exact .token hq (ih hcut)
  | call _ hq hu hname ih =>
    obtain ⟨m, hm, hget, -, hbody⟩ := exists_get?_of_contains ht hname
    rw [replaceCalls_call meaning hq hu] at hcut ⊢
    obtain ⟨hcall, hrest⟩ := Flattening.cut_append_eq_none_iff.1 hcut
    rw [Flattening.append_of_cut_none hcall]
    have hflattens := hmeaning _ hcall (hbody ▸ ht.callsMacros m hm)
    exact .call hq hu hget (hbody ▸ hflattens) (ih hrest)

/-- If flattening stops nowhere, it gives the whole flattening. -/
theorem flattens_flatten (ht : t.IsArgumentless) {n : Nat} {ts : List Token} (hts : t.CallsMacros ts)
    (hcut : (t.flatten n ts).cut = none) : t.Flattens ts (t.flatten n ts).tokens := by
  induction n generalizing ts with
  | zero => exact flattens_replaceCalls ht (fun name h => by cases h) hts hcut
  | succ n ih => exact flattens_replaceCalls ht (fun name h hbody => ih hbody h) hts hcut

end MacroTable

end ErlangMacros
