import ErlangMacros.Macro.Expansion
import ErlangMacros.Proofs.Macro.Arguments
import ErlangMacros.Proofs.Macro.Table

/-!
# Expanding a call as a rewriting step

`Expansion.rewrite` says what the call after a question mark becomes, as a function of the flat list of what waits to
be read: the name of the macro is the first token of the list, its arguments follow, and the expansion is put in
their place, one level deeper than the question mark.  If no variant of the macro takes the arguments, the variant
without arguments is put before them.  `settle_resolve` says that resolving a call from the reader and pushing its
expansion comes to the same, whatever expansions and sources the tokens come from.
-/

namespace ErlangMacros

namespace Expansion

/-- What becomes of a call: the call that was expanded, or why it fails; and what waits to be read then. -/
structure Rewriting where
  result : Except Failure MacroCall
  pending : List Consumed

/-- A call that fails. -/
def Rewriting.fail (f : Failure) (rest : List Consumed) : Rewriting :=
  ⟨.error f, rest⟩

/-- Put tokens in the place of a call, one level deeper than its question mark, unless that is too deep. -/
def insert (ctx : Context) (site : Site) (name : Text) (call : MacroCall) (tokens : List Token)
    (rest : List Consumed) : Rewriting :=
  if ctx.limit.value < site.depth then
    .fail (.diagnose (.expansionTooDeep name ctx.limit site.callSite) (some site.question.position)) rest
  else ⟨.ok call, tokens.map (fun t => ⟨t, site.depth, some site.callSite⟩) ++ rest⟩

/-- The failure of a call that no variant of the macro fits. -/
def mismatch (ctx : Context) (site : Site) (name : Text) (arity : Arity) : Failure :=
  .diagnose (.arityMismatch name arity (ctx.macros.sortedArities name)) (some site.question.position)

/-- A call without arguments. -/
def rewriteBare (ctx : Context) (site : Site) (name : Text) (nameToken : Token) (rest : List Consumed) : Rewriting :=
  match ctx.macros.get? name none with
  | some m => insert ctx site name ⟨site.question, nameToken, none⟩ m.body rest
  | none => .fail (mismatch ctx site name none) rest

/-- A call of a macro with parameters, with the argument list at the front of `rest`.  If no variant takes that many
arguments, they stay where they are and the variant without arguments is called. -/
def rewriteApplied (ctx : Context) (site : Site) (name : Text) (nameToken : Token) (rest : List Consumed) :
    Rewriting :=
  match ArgumentList.parse site.question rest with
  | (.error f, rest') => .fail f rest'
  | (.ok a, rest') =>
    match ctx.macros.get? name (some a.args.length), ctx.macros.get? name none with
    | some m, _ =>
      insert ctx site name ⟨site.question, nameToken, some a.args⟩ (m.expansion (some a.args)) rest'
    | none, some m => insert ctx site name ⟨site.question, nameToken, none⟩ m.body rest
    | none, none => .fail (mismatch ctx site name (some a.args.length)) rest'

/-- Some variant of the macro has parameters. -/
def takesArguments (ctx : Context) (name : Text) : Bool :=
  (ctx.macros.arities name).any Option.isSome

/-- A call of the macro with a name; `source` is the source that is current when the name has been read. -/
def rewriteName (ctx : Context) (source : Source) (site : Site) (name : Text) (nameToken : Token)
    (rest : List Consumed) : Rewriting :=
  match Predefined.ofName? name with
  | some p =>
    match predefinedToken ctx source site p with
    | .ok t => insert ctx site name ⟨site.question, nameToken, none⟩ [t] rest
    | .error f => .fail f rest
  | none =>
    if ctx.macros.arities name = [] then
      .fail (.diagnose (.undefinedMacro name) (some site.question.position)) rest
    else if isSymbol? (rest.head?.map (·.token)) "(" && takesArguments ctx name then
      rewriteApplied ctx site name nameToken rest
    else rewriteBare ctx site name nameToken rest

/-- The call whose question mark has just been read. -/
def rewrite (ctx : Context) (source : Source) (site : Site) : List Consumed → Rewriting
  | [] => .fail (.diagnose .missingMacroName (some site.question.position)) []
  | c :: rest =>
    if c.token.kind = .atom || c.token.kind = .var then
      match c.token.value with
      | .ok name => rewriteName ctx source site name c.token rest
      | .error e => .fail (.fault (.escape e)) rest
    else .fail (.diagnose .missingMacroName (some c.token.position)) rest

/-- Push the expansion of a call that has been resolved. -/
def settle (ctx : Context) (site : Site) : Except Failure Call × Reader → Rewriting
  | (.error f, r) => .fail f r.flat
  | (.ok call, r) =>
    match push ctx site call r with
    | .error f => .fail f r.flat
    | .ok r' => ⟨.ok ⟨site.question, call.nameToken, call.args⟩, r'.flat⟩

/-- Look up the variant of a macro for the arguments of a call. -/
def lookedUp (ctx : Context) (site : Site) (name : Text) (nameToken : Token) (args : Option (List (List Token)))
    (r : Reader) : Except Failure Call × Reader :=
  match ctx.macros.lookup name (args.map fun as => (as.length : Int)) (some site.question.position) with
  | .ok m => (.ok ⟨name, nameToken, .definition m args⟩, r)
  | .error e => (.error (.error e), r)

section

variable {ctx : Context} {site : Site} {name : Text} {nameToken : Token}

theorem choose_some (a : Reader.Arguments) (r : Reader) :
    choose ctx site name nameToken (some a) r =
      if (ctx.macros.get? name (some a.args.length)).isNone && (ctx.macros.arities name).contains none then
        lookedUp ctx site name nameToken none (r.unread a.consumed)
      else lookedUp ctx site name nameToken (some a.args) r := rfl

private theorem settle_ok (call : Call) {tokens : List Token} (h : call.meaning.tokens = .ok tokens) (r : Reader) :
    settle ctx site (.ok call, r) =
      insert ctx site call.name ⟨site.question, call.nameToken, call.args⟩ tokens r.flat := by
  simp only [settle, push, insert, h]
  by_cases hdepth : ctx.limit.value < site.depth
  · simp [hdepth]
  · simp [hdepth, Reader.flat_push, ExpansionFrame.annotated]

/-- A macro of the table takes the arguments that it is looked up for. -/
theorem settle_lookedUp (h : ctx.macros.arities name ≠ []) (args : Option (List (List Token))) (r : Reader) :
    settle ctx site (lookedUp ctx site name nameToken args r) =
      match ctx.macros.get? name (args.map fun as => (as.length : Int)) with
      | some m => insert ctx site name ⟨site.question, nameToken, args⟩ (m.expansion args) r.flat
      | none => .fail (mismatch ctx site name (args.map fun as => (as.length : Int))) r.flat := by
  unfold lookedUp MacroTable.lookup
  rcases hget : ctx.macros.get? name (args.map fun as => (as.length : Int)) with _ | m
  · simp only [hget, MacroTable.contains_of_arities_ne_nil h, if_true]
    rfl
  · simp only [hget]
    have hreplace := Macro.replace_eq_expansion (MacroTable.key_of_get? hget).2.2
    exact settle_ok ⟨name, nameToken, .definition m args⟩ hreplace r

private theorem settle_choose_none (h : ctx.macros.arities name ≠ []) (r : Reader) :
    settle ctx site (choose ctx site name nameToken none r) = rewriteBare ctx site name nameToken r.flat :=
  settle_lookedUp h none r

/-- With arguments that were read, the fitting variant is called; without one, they are put back. -/
theorem settle_choose_some (h : ctx.macros.arities name ≠ []) {a : Reader.Arguments} {rest : List Consumed} {r : Reader}
    (hrest : (r.unread a.consumed).flat = rest) :
    settle ctx site (choose ctx site name nameToken (some a) r) =
      match ctx.macros.get? name (some a.args.length), ctx.macros.get? name none with
      | some m, _ =>
        insert ctx site name ⟨site.question, nameToken, some a.args⟩ (m.expansion (some a.args)) r.flat
      | none, some m => insert ctx site name ⟨site.question, nameToken, none⟩ m.body rest
      | none, none => .fail (mismatch ctx site name (some a.args.length)) r.flat := by
  have hbare : (ctx.macros.arities name).contains none = (ctx.macros.get? name none).isSome := by
    rw [Bool.eq_iff_iff, List.contains_iff_mem, MacroTable.mem_arities_iff]
  rw [choose_some, hbare]
  rcases hget : ctx.macros.get? name (some a.args.length) with _ | m
  · rcases hget' : ctx.macros.get? name none with _ | m'
    · rw [if_neg (by simp), settle_lookedUp h]
      simp only [Option.map_some, hget]
    · rw [if_pos (by simp), settle_lookedUp h, hrest]
      simp only [Option.map_none, hget', Macro.expansion]
  · rw [if_neg (by simp), settle_lookedUp h]
    simp only [Option.map_some, hget]

private theorem takesArguments_eq (hm : ctx.macros.IsProper) (h : ctx.macros.arities name ≠ []) :
    takesArguments ctx name = decide (ctx.macros.arities name ≠ [none]) := by
  rw [Bool.eq_iff_iff, decide_eq_true_iff, hm.arities_ne_singleton_iff h, takesArguments, List.any_eq_true]
  constructor
  · rintro ⟨a, ha, hsome⟩
    obtain ⟨n, rfl⟩ := Option.isSome_iff_exists.1 hsome
    exact ⟨n, ha⟩
  · rintro ⟨n, hn⟩
    exact ⟨some n, hn, rfl⟩

/-- The arguments of a defined macro are read if they follow and some variant has parameters. -/
theorem settle_readArguments (hm : ctx.macros.IsProper) (h : ctx.macros.arities name ≠ []) {r : Reader}
    (hr : r.IsNested) (hi : r.inclusion.IsErrorFree) :
    settle ctx site
        (match readArguments site (ctx.macros.arities name) r with
        | (.ok arguments, r') => choose ctx site name nameToken arguments r'
        | (.error f, r') => (.error f, r')) =
      if isSymbol? (r.flat.head?.map (·.token)) "(" && takesArguments ctx name then
        rewriteApplied ctx site name nameToken r.flat
      else rewriteBare ctx site name nameToken r.flat := by
  have hflat : r.peek.2.flat = r.flat := Reader.flat_peek hi.isFinite
  have hr' : r.peek.2.IsNested := hr.peek
  have hi' : r.peek.2.inclusion.IsErrorFree := Reader.ends_peek hi rfl
  unfold readArguments
  rw [takesArguments_eq hm h]
  rcases hpeek : r.peek with ⟨t | _ | e, r'⟩ <;> rw [hpeek] at hflat hr' hi'
  · have hsymbol : isSymbol? (some t) "(" = t.isSymbol "(" := rfl
    rw [Reader.flat_of_peek_token hpeek hi.isFinite, hsymbol]
    cases hcall : t.isSymbol "(" && decide (ctx.macros.arities name ≠ [none]) with
    | false =>
      simp only [hcall, Bool.false_eq_true, if_false, ← hflat]
      exact settle_choose_none h r'
    | true =>
      -- the arguments are taken from the list, and put back into it if no variant fits
      have hparse := Reader.arguments_eq_parse site.question hi'
      simp only [hcall, if_true, ← hflat, rewriteApplied, ← hparse]
      rcases hread : r'.arguments site.question with ⟨f | a, r''⟩
      · rfl
      · exact settle_choose_some h ((Reader.takes_arguments hread).flat_unread hr' hi'.isFinite)
  · rw [Reader.flat_of_peek_finished hpeek] at hflat ⊢
    exact (settle_choose_none h r').trans (by rw [hflat]; rfl)
  · exact absurd hi (Reader.not_isErrorFree_of_peek_failed hpeek)

private theorem settle_resolveName (hm : ctx.macros.IsProper) {r : Reader} (hr : r.IsNested)
    (hi : r.inclusion.IsErrorFree) :
    settle ctx site (resolveName ctx site name nameToken r) =
      rewriteName ctx r.inclusion.current site name nameToken r.flat := by
  unfold resolveName rewriteName
  rcases Predefined.ofName? name with _ | p
  · by_cases h : ctx.macros.arities name = []
    · simp only [h, List.isEmpty_nil, if_true]
      rfl
    · have hne : (ctx.macros.arities name).isEmpty = false := by
        simpa using h
      simp only [hne, if_neg h, Bool.false_eq_true, if_false]
      exact settle_readArguments hm h hr hi
  · dsimp only
    rcases predefinedToken ctx r.inclusion.current site p with f | t
    · rfl
    · exact settle_ok ⟨name, nameToken, .predefined t⟩ rfl r

/-- Resolving a call and pushing its expansion is a rewriting step on what waits to be read. -/
theorem settle_resolve (ctx : Context) (site : Site) (hm : ctx.macros.IsProper) {r : Reader} (hr : r.IsNested)
    (hi : r.inclusion.IsErrorFree) :
    settle ctx site (resolve ctx site r) = rewrite ctx r.read.2.inclusion.current site r.flat := by
  unfold resolve
  have hr' : r.read.2.IsNested := hr.read true
  have hi' : r.read.2.inclusion.IsErrorFree := Reader.ends_read hi rfl true
  rcases hread : r.read with ⟨t | _ | e, r'⟩ <;> rw [hread] at hr' hi'
  · have ht : (r'.consumed t).token = t := rfl
    rw [Reader.flat_read hread hi.isFinite, rewrite, ht]
    by_cases hkind : (decide (t.kind = .atom) || decide (t.kind = .var)) = true
    · dsimp only
      rw [if_pos hkind, if_pos hkind]
      rcases t.value with e | name
      · rfl
      · exact settle_resolveName hm hr' hi'
    · dsimp only
      rw [if_neg hkind, if_neg hkind]
      rfl
  · obtain ⟨hflat, hflat', -⟩ := Reader.flat_of_read_finished hread
    rw [hflat, rewrite, ← hflat']
    rfl
  · exact absurd hi (Reader.not_isErrorFree_of_read_failed hread)

end

end Expansion

end ErlangMacros
