import ErlangMacros.Proofs.Macro.Table
import ErlangMacros.Proofs.Token.Lexeme

/-!
# Substituting arguments

The body of a macro falls into parts (`Macro.parts`): parameters, parameters that are to be spelled as a string because
`??` stands before them, and all other tokens.  How it falls into parts does not depend on the arguments.  A call is
replaced by the parts one after the other, each filled with its own argument (`substitute_eq_fill`), so that arguments
are put in all at once and are not looked at again.

Parts know parameters only by their place in the parameter list, so that the names of the parameters do not matter
(`parts_rename`).  Two bodies that are put together fall into the parts of the one and those of the other
(`parts_append`), unless a `??` at the end of the first comes to stand before a parameter at the start of the second.
-/

namespace ErlangMacros

namespace Macro

open Token (loose operator var)

/-! ### The parts of a body -/

/-- A part of a body.  Parameters are given by their index. -/
inductive Part where
  | plain (t : Token)
  | param (index : Nat)
  /-- A parameter behind `??`. -/
  | spelled (marker : Token) (index : Nat)
deriving DecidableEq

/-- The tokens that a part is replaced by. -/
def Part.fill (args : List (List Token)) : Part → List Token
  | plain t => [t]
  | param index => args.getD index []
  | spelled marker index => [stringify (args.getD index []) marker]

/-- The index of the parameter that a token of a body names. -/
def slot? (params : List Text) (t : Token) : Option Nat :=
  if t.kind = .var then params.idxOf? t.text else none

/-- The part that a token is, if no `??` stands before it. -/
def partOf (params : List Text) (t : Token) : Part :=
  match slot? params t with
  | some index => .param index
  | none => .plain t

/-- The parts of a body. -/
def parts (params : List Text) : List Token → List Part
  | [] => []
  | [t] => [partOf params t]
  | t :: u :: rest =>
    match t.isSymbol "??", slot? params u with
    | true, some index => .spelled t index :: parts params rest
    | _, _ => partOf params t :: parts params (u :: rest)

variable {params : List Text} {args : List (List Token)} {t u : Token} {body before after rest : List Token}

/-- A symbol names no parameter. -/
theorem not_param_of_isSymbol {text : Text} (h : t.isSymbol text = true) : ¬ (t.kind = .var ∧ t.text ∈ params) := by
  rintro ⟨hkind, -⟩
  simp [Token.isSymbol, hkind, Kind.isSymbol] at h

private theorem slot?_eq_none (h : ¬ (t.kind = .var ∧ t.text ∈ params)) : slot? params t = none := by
  unfold slot?
  split
  · next hkind => exact List.idxOf?_eq_none_iff.2 fun hmem => h ⟨hkind, hmem⟩
  · rfl

private theorem isSome_slot?_iff : (slot? params t).isSome = true ↔ t.kind = .var ∧ t.text ∈ params := by
  constructor
  · intro hsome
    by_contra hno
    rw [slot?_eq_none hno] at hsome
    cases hsome
  · rintro ⟨hkind, hmem⟩
    rw [slot?, if_pos hkind, List.isSome_idxOf?]
    exact hmem

private theorem parts_spelled {index : Nat} (ht : t.isSymbol "??" = true) (hu : slot? params u = some index)
    (rest : List Token) : parts params (t :: u :: rest) = .spelled t index :: parts params rest := by
  rw [parts, ht, hu]

/-- A token that is not taken together with the next one is a part of its own. -/
theorem parts_cons (h : ∀ u ∈ rest.head?, ¬ (t.isSymbol "??" = true ∧ (slot? params u).isSome = true)) :
    parts params (t :: rest) = partOf params t :: parts params rest := by
  cases rest with
  | nil => rfl
  | cons u rest =>
    have hu := h u rfl
    rw [parts]
    split
    · next ht hslot => exact absurd ⟨ht, by rw [hslot]; rfl⟩ hu
    · rfl

/-! ### Filling in the arguments -/

/-- A parameter has an argument, if there are as many arguments as parameters. -/
theorem argument?_eq (hargs : args.length = params.length) (t : Token) :
    argument? params args t = (slot? params t).map fun index => args.getD index [] := by
  unfold argument? slot?
  split
  · rcases hindex : params.idxOf? t.text with _ | index
    · rfl
    · obtain ⟨hlt, -⟩ := List.idxOf?_eq_some_iff.1 hindex
      have hlt' : index < args.length := by omega
      simp [List.getElem?_eq_getElem hlt']
  · rfl

private theorem getD_argument?_eq (hargs : args.length = params.length) (t : Token) :
    (argument? params args t).getD [t] = (partOf params t).fill args := by
  rw [argument?_eq hargs, partOf]
  cases slot? params t <;> rfl

/-- Arguments are substituted by filling each part with its own argument. -/
theorem substitute_eq_fill (hargs : args.length = params.length) (body : List Token) :
    substitute params args body = (parts params body).flatMap (Part.fill args) := by
  fun_induction parts params body with
  | case1 => rfl
  | case2 t =>
    rw [substitute, getD_argument?_eq hargs, List.flatMap_singleton]
  | case3 t u rest index hu ht ih =>
    have harg : argument? params args u = some (args.getD index []) := by
      rw [argument?_eq hargs, hu, Option.map_some]
    rw [substitute, ht, harg, List.flatMap_cons, ih]
    rfl
  | case4 t u rest hno ih =>
    rw [substitute, List.flatMap_cons, ← getD_argument?_eq hargs, ih]
    split
    · next ht harg =>
      -- the next token would be a parameter
      rw [argument?_eq hargs] at harg
      obtain ⟨index, hindex, -⟩ := Option.map_eq_some_iff.1 harg
      exact absurd hindex (hno index ht)
    · rfl

/-- A macro with parameters is replaced by its parts with the arguments filled in. -/
theorem replace_eq_fill {m : Macro} (hparams : m.params = some params) (hargs : args.length = params.length) :
    m.replace (some args) = .ok ((parts params m.body).flatMap (Part.fill args)) := by
  unfold replace
  rw [hparams]
  dsimp only
  rw [if_pos hargs, substitute_eq_fill hargs]

/-! ### Other names for the parameters -/

/-- A token of a body under other names for the parameters. -/
def renameToken (params : List Text) (σ : Text → Text) (t : Token) : Token :=
  if t.kind = .var ∧ t.text ∈ params then { t with text := σ t.text } else t

/-- A macro under other names for its parameters. -/
def rename (m : Macro) (σ : Text → Text) : Macro :=
  { m with
    params := m.params.map (·.map σ)
    body := m.body.map (renameToken (m.params.getD []) σ) }

variable {σ : Text → Text}

/-- The renaming keeps parameters apart, and gives none of them the name of another variable of the body. -/
structure Keeps (params : List Text) (body : List Token) (σ : Text → Text) : Prop where
  injective : ∀ x ∈ params, ∀ y ∈ params, σ x = σ y → x = y
  fresh : ∀ x ∈ params, ∀ t ∈ body, t.kind = .var → t.text ∉ params → t.text ≠ σ x

private theorem idxOf?_map_of_injective (h : ∀ x ∈ params, ∀ y ∈ params, σ x = σ y → x = y) {name : Text}
    (hname : name ∈ params) : (params.map σ).idxOf? (σ name) = params.idxOf? name := by
  -- only what is left of the list changes, so the two facts about `name` are kept apart from it
  have hsame : ∀ x ∈ params, σ x = σ name → x = name := fun x hx => h x hx name hname
  clear h hname
  induction params with
  | nil => rfl
  | cons x xs ih =>
    obtain ⟨hx, hxs⟩ := List.forall_mem_cons.1 hsame
    rw [List.map_cons, List.idxOf?_cons, List.idxOf?_cons, ih hxs]
    by_cases heq : x = name
    · simp [heq]
    · have hne : σ x ≠ σ name := fun hσ => heq (hx hσ)
      simp [heq, hne]

private theorem renameToken_of_not_param (h : ¬ (t.kind = .var ∧ t.text ∈ params)) : renameToken params σ t = t := by
  rw [renameToken, if_neg h]

private theorem isSymbol_renameToken (text : Text) : (renameToken params σ t).isSymbol text = t.isSymbol text := by
  unfold renameToken
  split
  · next hparam => simp [Token.isSymbol, Kind.isSymbol, hparam.1]
  · rfl

/-- Under its other name a token names the same parameter. -/
theorem slot?_rename (h : Keeps params body σ) (ht : t ∈ body) :
    slot? (params.map σ) (renameToken params σ t) = slot? params t := by
  by_cases hparam : t.kind = .var ∧ t.text ∈ params
  · rw [renameToken, if_pos hparam, slot?, slot?, if_pos hparam.1, if_pos hparam.1]
    exact idxOf?_map_of_injective h.injective hparam.2
  · rw [renameToken_of_not_param hparam, slot?_eq_none hparam]
    apply slot?_eq_none
    rintro ⟨hkind, hmem⟩
    obtain ⟨x, hx, hσ⟩ := List.mem_map.1 hmem
    have hno : t.text ∉ params := fun hmem => hparam ⟨hkind, hmem⟩
    exact h.fresh x hx t ht hkind hno hσ.symm

private theorem partOf_rename (h : Keeps params body σ) (ht : t ∈ body) :
    partOf (params.map σ) (renameToken params σ t) = partOf params t := by
  unfold partOf
  rw [slot?_rename h ht]
  rcases hslot : slot? params t with _ | index
  · have hno : ¬ (t.kind = .var ∧ t.text ∈ params) := by
      rw [← isSome_slot?_iff, hslot]
      exact Bool.false_ne_true
    rw [renameToken_of_not_param hno]
  · rfl

theorem Keeps.mono (h : Keeps params body σ) (hsubset : ∀ t ∈ rest, t ∈ body) : Keeps params rest σ where
  injective := h.injective
  fresh := fun x hx t ht => h.fresh x hx t (hsubset t ht)

/-- Other names for the parameters do not change the parts of a body. -/
theorem parts_rename (h : Keeps params body σ) :
    parts (params.map σ) (body.map (renameToken params σ)) = parts params body := by
  fun_induction parts params body with
  | case1 => rfl
  | case2 t => rw [List.map_singleton, parts, partOf_rename h List.mem_cons_self]
  | case3 t u rest index hu ht ih =>
    have hslot : slot? (params.map σ) (renameToken params σ u) = some index := by
      rw [slot?_rename h (by simp), hu]
    have hrest := ih (h.mono fun x hx => by simp [hx])
    have hmarker : renameToken params σ t = t := renameToken_of_not_param (not_param_of_isSymbol ht)
    rw [List.map_cons, List.map_cons, hmarker, parts_spelled ht hslot, hrest]
  | case4 t u rest hno ih =>
    have hrest := ih (h.mono fun x hx => by simp [hx])
    rw [List.map_cons, parts_cons, partOf_rename h List.mem_cons_self, hrest]
    intro u' hu'
    cases hu'
    rw [isSymbol_renameToken, slot?_rename h (by simp)]
    rintro ⟨ht, hsome⟩
    obtain ⟨index, hindex⟩ := Option.isSome_iff_exists.1 hsome
    exact hno index ht hindex

/-! ### Bodies that are put together -/

/-- A `??` at the end of one body comes to stand before a parameter at the start of another one. -/
def Joins (params : List Text) (before after : List Token) : Prop :=
  isSymbol? before.getLast? "??" = true ∧ ∃ u ∈ after.head?, u.kind = .var ∧ u.text ∈ params

/-- The parts of two bodies are those of the one and those of the other. -/
theorem parts_append (h : ¬ Joins params before after) :
    parts params (before ++ after) = parts params before ++ parts params after := by
  fun_induction parts params before with
  | case1 => rfl
  | case2 t =>
    rw [List.singleton_append, List.singleton_append]
    apply parts_cons
    rintro u hu ⟨ht, hparam⟩
    exact h ⟨ht, u, hu, isSome_slot?_iff.1 hparam⟩
  | case3 t u rest index hu ht ih =>
    have hrest : ¬ Joins params rest after := by
      rintro ⟨hlast, hafter⟩
      cases rest with
      | nil => cases hlast
      | cons v rest => exact h ⟨hlast, hafter⟩
    rw [List.cons_append, List.cons_append, parts_spelled ht hu, ih hrest, List.cons_append]
  | case4 t u rest hno ih =>
    have hrest : ¬ Joins params (u :: rest) after := h
    rw [List.cons_append, parts_cons, ih hrest, List.cons_append]
    intro u' hu'
    cases hu'
    rintro ⟨ht, hsome⟩
    obtain ⟨index, hindex⟩ := Option.isSome_iff_exists.1 hsome
    exact hno index ht hindex

/-- A `??` that comes to stand before a parameter makes a string of what would have been its argument. -/
theorem fill_ne_of_joins (h : Joins params before after) (args : List (List Token)) :
    (parts params (before ++ after)).flatMap (Part.fill args) ≠
      (parts params before).flatMap (Part.fill args) ++ (parts params after).flatMap (Part.fill args) := by
  obtain ⟨hlast, u, hu, hparam⟩ := h
  obtain ⟨marker, hmarker, hsymbol⟩ := (Option.any_eq_true _ _).1 hlast
  obtain ⟨init, rfl⟩ := List.getLast?_eq_some_iff.1 hmarker
  obtain ⟨rest, rfl⟩ := List.head?_eq_some_iff.1 hu
  obtain ⟨index, hindex⟩ := Option.isSome_iff_exists.1 (isSome_slot?_iff.2 hparam)
  have hplain : slot? params marker = none := slot?_eq_none (not_param_of_isSymbol hsymbol)
  have hstart (more : List Token) : ¬ Joins params init (marker :: more) := by
    rintro ⟨-, v, hv, hparam'⟩
    cases hv
    exact not_param_of_isSymbol hsymbol hparam'
  have hjoined : parts params (init ++ [marker] ++ u :: rest) =
      parts params init ++ .spelled marker index :: parts params rest := by
    rw [List.append_assoc, List.singleton_append, parts_append (hstart _), parts_spelled hsymbol hindex]
  have hbefore : parts params (init ++ [marker]) = parts params init ++ [.plain marker] := by
    rw [parts_append (hstart []), parts, partOf, hplain]
  rw [hjoined, hbefore]
  intro hfill
  simp only [List.flatMap_append, List.flatMap_cons, List.flatMap_nil, List.append_nil, List.append_assoc,
    List.append_cancel_left_eq, Part.fill, List.singleton_append] at hfill
  -- the string is no symbol
  obtain ⟨hhead, -⟩ := List.cons_eq_cons.1 hfill
  rw [← hhead] at hsymbol
  cases hsymbol

/-! ### The laws of substitution -/

/-- A call with the right number of arguments is replaced by the parts of the body, each filled with its own argument,
whatever the arguments are.  Other names for the parameters do not change this.  What a body becomes that is put together
from two is what the one becomes and then what the other becomes, unless a `??` comes to stand before a parameter. -/
theorem replace_is_simultaneous {m : Macro} {params : List Text} {args : List (List Token)}
    (hparams : m.params = some params) (hargs : args.length = params.length) :
    m.replace (some args) = .ok ((parts params m.body).flatMap (Part.fill args)) ∧
      (∀ σ : Text → Text, Keeps params m.body σ → (m.rename σ).replace (some args) = m.replace (some args)) ∧
      ∀ before after : List Token, ∃ tokens tokens',
        replace { m with body := before } (some args) = .ok tokens ∧
          replace { m with body := after } (some args) = .ok tokens' ∧
          (replace { m with body := before ++ after } (some args) = .ok (tokens ++ tokens') ↔
            ¬ Joins params before after) := by
  have hfill (body : List Token) :
      replace { m with body } (some args) = .ok ((parts params body).flatMap (Part.fill args)) :=
    replace_eq_fill (m := { m with body }) hparams hargs
  refine ⟨hfill m.body, ?_, ?_⟩
  · intro σ hσ
    have hrenamed : (m.rename σ).params = some (params.map σ) := by rw [rename, hparams, Option.map_some]
    have hbody : (m.rename σ).body = m.body.map (renameToken params σ) := by rw [rename, hparams, Option.getD_some]
    rw [replace_eq_fill hrenamed (by rw [List.length_map, hargs]), hbody, parts_rename hσ]
    exact (hfill m.body).symm
  · intro before after
    refine ⟨_, _, hfill before, hfill after, ?_⟩
    rw [hfill (before ++ after), Except.ok.injEq]
    constructor
    · intro hsame hjoins
      exact fill_ne_of_joins hjoins args hsame
    · intro hno
      rw [parts_append hno, List.flatMap_append]

/-- The parameters of a macro exchange their names.  Their arguments name parameters as well and end with `??`, and the
body holds `??` before a parameter, before another `??` and at its end. -/
theorem replace_is_simultaneous_exchanged :
    let marker := operator "??"
    let m : Macro :=
      { name := "F", params := some ["A", "B"], position := {}
        body := [var "A", marker, var "B", var "C", marker, marker, var "A", var "B", marker] }
    let args := [[var "B", marker], [var "A"]]
    let exchange (name : Text) : Text := if name = "A" then "B" else "A"
    m.params = some [("A" : Text), "B"] ∧ args.length = 2 ∧ Keeps ["A", "B"] m.body exchange ∧
      (m.rename exchange).params = some [("B" : Text), "A"] ∧
      (m.rename exchange).body = [var "B", marker, var "A", var "C", marker, marker, var "B", var "A", marker] ∧
      (m.rename exchange).replace (some args) = m.replace (some args) ∧
      m.replace (some args) =
        .ok [var "B", marker, loose .string "\"A\"", var "C", marker, loose .string "\"B ??\"", var "A", marker] ∧
      Joins ["A", "B"] m.body [var "B"] ∧ ¬ Joins ["A", "B"] m.body [var "C"] ∧
      ∃ tokens tokens', m.replace (some args) = .ok tokens ∧
        replace { m with body := [var "C"] } (some args) = .ok tokens' ∧
        replace { m with body := m.body ++ [var "C"] } (some args) = .ok (tokens ++ tokens') := by
  intro marker m args exchange
  obtain ⟨-, hrename, happend⟩ := @replace_is_simultaneous m ["A", "B"] args rfl rfl
  have hkeeps : Keeps ["A", "B"] m.body exchange := ⟨by decide +kernel, by decide +kernel⟩
  have hjoins : Joins ["A", "B"] m.body [var "B"] := ⟨by decide +kernel, var "B", rfl, by decide +kernel⟩
  have hno : ¬ Joins ["A", "B"] m.body [var "C"] := by
    rintro ⟨-, u, hu, -, hmem⟩
    cases hu
    exact absurd hmem (by decide +kernel)
  obtain ⟨tokens, tokens', hbefore, hafter, hboth⟩ := happend m.body [var "C"]
  exact ⟨rfl, rfl, hkeeps, by decide +kernel, by decide +kernel, hrename exchange hkeeps, by decide +kernel, hjoins, hno,
    tokens, tokens', hbefore, hafter, hboth.2 hno⟩

end Macro

end ErlangMacros
