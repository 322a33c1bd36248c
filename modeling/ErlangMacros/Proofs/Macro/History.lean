import ErlangMacros.Preprocessor.Evaluation
import ErlangMacros.Proofs.Macro.Table
import ErlangMacros.Proofs.Operations
import Mathlib.Data.Finset.Card
import Mathlib.Data.List.Induction

/-!
# The macro table and its history

Macros are defined and undefined one after the other, starting with the empty table, and an operation that fails is
passed over.  The table is what the operations that succeeded make of it: the definitions that none of them has removed
since (`live`), with the variants of a name together (`grouped`).  From this all answers of the table follow.
-/

namespace ErlangMacros

namespace MacroTable

/-- What can be done with a table. -/
inductive Operation where
  | define (m : Macro)
  | undef (name : Text) (position : Option Position)
deriving DecidableEq

namespace Operation

/-- It defines a name for an arity. -/
def defines (name : Text) (arity : Arity) : Operation → Bool
  | .define m => m.name = name && m.arity = arity
  | .undef _ _ => false

/-- It undefines a name. -/
def undefines (name : Text) : Operation → Bool
  | .define _ => false
  | .undef other _ => other = name

end Operation

variable {t t' : MacroTable} {m : Macro} {ms : List Macro} {name : Text} {op : Operation} {ops : List Operation}

/-- Take an operation. -/
def perform (t : MacroTable) : Operation → Except Error MacroTable
  | .define m => t.define m
  | .undef name position => t.undef name position

/-! ### Definitions that have not been removed -/

/-- The definitions that no later operation removes, in their order. -/
def live : List Operation → List Macro
  | [] => []
  | .define m :: ops => if ops.any (·.undefines m.name) then live ops else m :: live ops
  | .undef _ _ :: ops => live ops

private theorem live_append_define (ops : List Operation) (m : Macro) :
    live (ops ++ [.define m]) = live ops ++ [m] := by
  induction ops with
  | nil => rfl
  | cons op ops ih =>
    cases op with
    | define m' =>
      by_cases hlater : ops.any (·.undefines m'.name) <;>
        simp [live, ih, hlater, show (Operation.define m).undefines m'.name = false from rfl]
    | undef other position => exact ih

private theorem live_append_undef (ops : List Operation) (name : Text) (position : Option Position) :
    live (ops ++ [.undef name position]) = (live ops).filter (·.name ≠ name) := by
  induction ops with
  | nil => rfl
  | cons op ops ih =>
    cases op with
    | define m =>
      have hundefines : (Operation.undef name position).undefines m.name = decide (m.name = name) :=
        decide_eq_decide.2 eq_comm
      simp only [List.cons_append, live, ih, List.any_append, List.any_cons, hundefines, List.any_nil, Bool.or_false]
      rcases ops.any (·.undefines m.name) with - | - <;> by_cases hname : m.name = name <;> simp [hname]
    | undef other position' => exact ih

private theorem mem_live_of_mem (h : .define m ∈ ops) (hlater : ∀ op ∈ ops, op.undefines m.name = false) :
    m ∈ live ops := by
  induction ops with
  | nil => cases h
  | cons op ops ih =>
    have htail : ∀ op ∈ ops, op.undefines m.name = false := fun op' hop' => hlater op' (List.mem_cons_of_mem _ hop')
    rcases List.mem_cons.1 h with rfl | hmem
    · have hany : ops.any (·.undefines m.name) = false := by simpa using htail
      simp [live, hany]
    · cases op with
      | define m' =>
        unfold live
        split
        · exact ih hmem htail
        · exact List.mem_cons_of_mem _ (ih hmem htail)
      | undef other position => exact ih hmem htail

/-- A definition that is not removed stays before those that are made after it. -/
theorem live_append_cons (before : List Operation) {after : List Operation}
    (h : ∀ op ∈ after, op.undefines m.name = false) :
    ∃ earlier, live (before ++ .define m :: after) = earlier ++ m :: live after := by
  induction before with
  | nil =>
    have hany : after.any (·.undefines m.name) = false := by simpa using h
    exact ⟨[], by simp [live, hany]⟩
  | cons op before ih =>
    obtain ⟨earlier, hlive⟩ := ih
    cases op with
    | define m' =>
      rw [List.cons_append, live, hlive]
      split
      · exact ⟨earlier, rfl⟩
      · exact ⟨m' :: earlier, rfl⟩
    | undef other position => exact ⟨earlier, hlive⟩

private theorem exists_of_mem_live (h : m ∈ live ops) :
    ∃ before after, ops = before ++ .define m :: after ∧ ∀ op ∈ after, op.undefines m.name = false := by
  induction ops with
  | nil => cases h
  | cons op ops ih =>
    by_cases hmem : m ∈ live ops
    · obtain ⟨before, after, hops, hafter⟩ := ih hmem
      exact ⟨op :: before, after, congrArg (op :: ·) hops, hafter⟩
    · cases op with
      | define m' =>
        unfold live at h
        split at h
        · exact absurd h hmem
        · next hany =>
          obtain rfl : m = m' := (List.mem_cons.1 h).resolve_right hmem
          exact ⟨[], ops, rfl, by simpa using hany⟩
      | undef other position => exact absurd h hmem

/-- If live definitions are told apart by name and arity, then each is the last one of them. -/
theorem mem_live_iff (hnodup : ((live ops).map Macro.key).Nodup) :
    m ∈ live ops ↔ ∃ before after, ops = before ++ .define m :: after ∧
      ∀ op ∈ after, op.defines m.name m.arity = false ∧ op.undefines m.name = false := by
  constructor
  · intro h
    obtain ⟨before, after, rfl, hafter⟩ := exists_of_mem_live h
    refine ⟨before, after, rfl, fun op hop => ⟨?_, hafter op hop⟩⟩
    obtain ⟨earlier, hlive⟩ := live_append_cons before hafter
    rw [hlive, List.map_append, List.map_cons] at hnodup
    have hkey : m.key ∉ (live after).map Macro.key := (List.nodup_cons.1 hnodup.of_append_right).1
    cases op with
    | define m' =>
      by_contra hdefines
      simp only [Operation.defines, Bool.not_eq_false, Bool.and_eq_true, decide_eq_true_eq] at hdefines
      have hm' : m' ∈ live after := mem_live_of_mem hop (hdefines.1 ▸ hafter)
      exact hkey (List.mem_map.2 ⟨m', hm', Prod.ext hdefines.1 hdefines.2⟩)
    | undef other position => rfl
  · rintro ⟨before, after, rfl, hafter⟩
    obtain ⟨earlier, hlive⟩ := live_append_cons before fun op hop => (hafter op hop).2
    simp [hlive]

/-! ### Variants of a name together -/

/-- Macros with the variants of each name together.  Names come in the order of their first variant. -/
def grouped (ms : List Macro) : List Macro :=
  (ms.map Macro.name).eraseDups.flatMap fun name => ms.filter (·.name = name)

private theorem place_of_notMem (h : ∀ x ∈ ms, x.name ≠ m.name) : place m ms = ms ++ [m] := by
  induction ms with
  | nil => rfl
  | cons x ms ih =>
    have hx : x.name ≠ m.name := h x List.mem_cons_self
    simp [place, hx, ih fun y hy => h y (List.mem_cons_of_mem _ hy)]

private theorem place_append_cons {x : Macro} (before : List Macro) {after : List Macro} (hx : x.name = m.name)
    (h : ∀ y ∈ after, y.name ≠ m.name) : place m (before ++ x :: after) = before ++ x :: m :: after := by
  induction before with
  | nil =>
    have hany : after.any (·.name = m.name) = false := by simpa using h
    simp [place, hx, hany]
  | cons y before ih => simp [place, hx, ih]

/-- A list of macros of one name takes one more at its end. -/
theorem place_append (before : List Macro) {group after : List Macro} (hne : group ≠ [])
    (hgroup : ∀ x ∈ group, x.name = m.name) (h : ∀ y ∈ after, y.name ≠ m.name) :
    place m (before ++ group ++ after) = before ++ (group ++ [m]) ++ after := by
  have hlast := List.dropLast_append_getLast hne
  rw [← hlast, ← List.append_assoc, List.append_assoc _ [_] after, List.singleton_append,
    place_append_cons _ (hgroup _ (List.getLast_mem hne)) h]
  simp

private theorem mem_grouped : m ∈ grouped ms ↔ m ∈ ms := by
  simp only [grouped, List.mem_flatMap, List.mem_filter, decide_eq_true_eq, List.mem_eraseDups, List.mem_map]
  constructor
  · rintro ⟨_, -, hm, -⟩
    exact hm
  · intro hm
    exact ⟨m.name, ⟨m, hm, rfl⟩, hm, rfl⟩

/-- The variants of names are not changed by a macro of another name. -/
theorem flatMap_filter_append {names : List Text} (h : m.name ∉ names) :
    (names.flatMap fun name => (ms ++ [m]).filter (·.name = name)) =
      names.flatMap fun name => ms.filter (·.name = name) := by
  refine List.flatMap_congr fun name hname => ?_
  have hne : m.name ≠ name := fun heq => h (heq ▸ hname)
  simp [hne]

private theorem eraseDups_append_singleton (names : List Text) (name : Text) :
    (names ++ [name]).eraseDups = if name ∈ names then names.eraseDups else names.eraseDups ++ [name] := by
  rw [List.eraseDups_append]
  by_cases h : name ∈ names <;> simp [List.removeAll, h, List.eraseDups_cons]

private theorem nodup_eraseDups (names : List Text) : names.eraseDups.Nodup := by
  induction names using List.reverseRecOn with
  | nil => exact List.nodup_nil
  | append_singleton names name ih =>
    rw [eraseDups_append_singleton]
    split
    · exact ih
    · next h => simpa using ih.concat (mt List.mem_eraseDups.1 h)

/-- One more macro comes after the last one of its name. -/
theorem grouped_append (ms : List Macro) (m : Macro) : grouped (ms ++ [m]) = place m (grouped ms) := by
  have hnames := eraseDups_append_singleton (ms.map Macro.name) m.name
  rw [← List.map_singleton, ← List.map_append] at hnames
  by_cases hm : m.name ∈ ms.map Macro.name
  · rw [if_pos hm] at hnames
    have hnodup := nodup_eraseDups (ms.map Macro.name)
    obtain ⟨before, after, hsplit⟩ := List.append_of_mem (List.mem_eraseDups.2 hm)
    rw [hsplit, List.nodup_append] at hnodup
    have hbefore : m.name ∉ before := fun h => hnodup.2.2 _ h _ List.mem_cons_self rfl
    have hafter : m.name ∉ after := (List.nodup_cons.1 hnodup.2.1).1
    have hne : ms.filter (·.name = m.name) ≠ [] := by
      obtain ⟨x, hx, hname⟩ := List.mem_map.1 hm
      exact List.ne_nil_of_mem (List.mem_filter.2 ⟨hx, by simpa using hname⟩)
    have hgroup : ∀ x ∈ ms.filter (·.name = m.name), x.name = m.name := fun x hx => by
      simpa using (List.mem_filter.1 hx).2
    have hother : ∀ y ∈ after.flatMap fun name => ms.filter (·.name = name), y.name ≠ m.name := by
      intro y hy heq
      obtain ⟨name, hname, hy⟩ := List.mem_flatMap.1 hy
      have hy : y.name = name := by simpa using (List.mem_filter.1 hy).2
      exact hafter (heq ▸ hy ▸ hname)
    have hplace := place_append (before.flatMap fun name => ms.filter (·.name = name)) hne hgroup hother
    rw [grouped, grouped, hnames, hsplit, List.flatMap_append, List.flatMap_append, List.flatMap_cons,
      List.flatMap_cons, flatMap_filter_append hbefore, flatMap_filter_append hafter, ← List.append_assoc,
      ← List.append_assoc, hplace]
    simp
  · rw [if_neg hm] at hnames
    have hnew : ∀ x ∈ ms, x.name ≠ m.name := fun x hx heq => hm (List.mem_map.2 ⟨x, hx, heq⟩)
    rw [place_of_notMem fun x hx => hnew x (mem_grouped.1 hx), grouped, hnames, List.flatMap_append,
      flatMap_filter_append (mt List.mem_eraseDups.1 hm)]
    simpa [grouped] using hnew

private theorem filter_place_self (m : Macro) (ms : List Macro) :
    (place m ms).filter (·.name ≠ m.name) = ms.filter (·.name ≠ m.name) := by
  induction ms with
  | nil => simp [place]
  | cons x ms ih =>
    unfold place
    split
    · simp [List.filter_cons]
    · rw [List.filter_cons, List.filter_cons, ih]

private theorem filter_place_of_ne (h : m.name ≠ name) (ms : List Macro) :
    (place m ms).filter (·.name ≠ name) = place m (ms.filter (·.name ≠ name)) := by
  induction ms with
  | nil => simp [place, h]
  | cons x ms ih =>
    have hany : (ms.filter (·.name ≠ name)).any (·.name = m.name) = ms.any (·.name = m.name) := by
      rw [Bool.eq_iff_iff]
      simp only [List.any_eq_true, List.mem_filter, decide_eq_true_eq]
      exact ⟨fun ⟨y, hy, hname⟩ => ⟨y, hy.1, hname⟩, fun ⟨y, hy, hname⟩ => ⟨y, ⟨hy, hname ▸ h⟩, hname⟩⟩
    by_cases hx : x.name = name
    · have hne : x.name ≠ m.name := fun heq => h (heq.symm.trans hx)
      have hplace : place m (x :: ms) = x :: place m ms := by simp [place, hne]
      simpa [hplace, hx] using ih
    · rw [List.filter_cons_of_pos (by simpa using hx), place, place, hany]
      split
      · simp [hx, h]
      · rw [List.filter_cons_of_pos (by simpa using hx), ih]

/-- Removing a name before grouping or after it is the same. -/
theorem grouped_filter (ms : List Macro) (name : Text) :
    grouped (ms.filter (·.name ≠ name)) = (grouped ms).filter (·.name ≠ name) := by
  induction ms using List.reverseRecOn with
  | nil => rfl
  | append_singleton ms m ih =>
    rw [grouped_append, List.filter_append]
    by_cases hm : m.name = name
    · subst hm
      rw [filter_place_self, ← ih]
      simp
    · rw [filter_place_of_ne hm, ← ih, ← grouped_append]
      simp [hm]

/-! ### Answers of the table -/

private theorem contains_iff : t.contains name = true ↔ ∃ arity, (t.get? name arity).isSome := by
  simp only [contains, get?, List.any_eq_true, List.find?_isSome, Bool.and_eq_true, decide_eq_true_eq]
  constructor
  · rintro ⟨m, hm, hname⟩
    exact ⟨m.arity, m, hm, hname, rfl⟩
  · rintro ⟨_, m, hm, hname, -⟩
    exact ⟨m, hm, hname⟩

private theorem contains_iff_arities : t.contains name = true ↔ t.arities name ≠ [] := by
  refine ⟨fun h => ?_, contains_of_arities_ne_nil⟩
  obtain ⟨arity, harity⟩ := contains_iff.1 h
  exact List.ne_nil_of_mem (mem_arities_iff.2 harity)

/-- What defining a macro comes to. -/
theorem define_outcomes (t : MacroTable) (m : Macro) :
    (t.define m = .error ⟨.redefinePredefined m.name, some m.position⟩ ↔ isPredefined m.name = true) ∧
      (∀ position, t.define m = .error ⟨.alreadyDefined m.name m.arity position, some m.position⟩ ↔
        isPredefined m.name = false ∧ (t.get? m.name m.arity).map Macro.position = some position) ∧
      ∀ t', t.define m = .ok t' ↔
        isPredefined m.name = false ∧ t.get? m.name m.arity = none ∧ ⟨place m t.macros⟩ = t' := by
  unfold define
  rcases isPredefined m.name with - | -
  · rcases t.get? m.name m.arity with - | earlier <;> simp
  · simp

/-- What undefining a name comes to. -/
theorem undef_outcomes (t : MacroTable) (name : Text) (position : Option Position) :
    (t.undef name position = .error ⟨.undefinePredefined name, position⟩ ↔ isPredefined name = true) ∧
      (t.undef name position = .error ⟨.undefineUnknown name, position⟩ ↔
        isPredefined name = false ∧ t.contains name = false) ∧
      ∀ t', t.undef name position = .ok t' ↔
        isPredefined name = false ∧ t.contains name = true ∧ ⟨t.macros.filter (·.name ≠ name)⟩ = t' := by
  unfold undef
  rcases isPredefined name with - | -
  · rcases t.contains name with - | - <;> simp
  · simp

/-- A name that is removed takes all its variants with it, and no others. -/
theorem get?_filter (t : MacroTable) (name other : Text) (arity : Arity) :
    (⟨t.macros.filter (·.name ≠ name)⟩ : MacroTable).get? other arity =
      if other = name then none else t.get? other arity := by
  rw [get?, List.find?_filter]
  split
  · next h =>
    subst h
    refine List.find?_eq_none.2 fun m _ => ?_
    simp +contextual
  · next h =>
    refine congrArg (List.find? · t.macros) (funext fun m => ?_)
    by_cases hm : m.name = other <;> simp [hm, h]

/-- The table after operations, of which some may have failed. -/
theorem macros_proceed (ops : List Operation) :
    (proceed perform {} ops).macros = grouped (live (succeeded perform {} ops)) := by
  induction ops using List.reverseRecOn with
  | nil => rfl
  | append_singleton ops op ih =>
    rw [proceed_append, succeeded_append]
    rcases hop : (proceed perform {} ops).perform op with e | t'
    · rw [proceed_error hop, succeeded_error hop, List.append_nil, ih]
    · rw [proceed_ok hop, succeeded_ok hop]
      cases op with
      | define m =>
        obtain ⟨-, -, rfl⟩ := ((define_outcomes _ m).2.2 t').1 hop
        rw [live_append_define, grouped_append, ih]
      | undef name position =>
        obtain ⟨-, -, rfl⟩ := ((undef_outcomes _ name position).2.2 t').1 hop
        rw [live_append_undef, grouped_filter, ih]

private theorem isProper_proceed (ops : List Operation) : (proceed perform {} ops).IsProper := by
  refine proceed_induction isProper_empty ?_ ops
  intro t t' op ht hop
  cases op with
  | define m => exact ht.define hop
  | undef name position => exact ht.undef hop

private theorem perm_grouped (ms : List Macro) : (grouped ms).Perm ms := by
  induction ms using List.reverseRecOn with
  | nil => exact List.Perm.refl _
  | append_singleton ms m ih =>
    rw [grouped_append]
    exact (perm_place m _).trans ((ih.cons m).trans (List.perm_append_singleton m ms).symm)

/-- A look-up gives the last definition that succeeded, if the name has not been undefined since. -/
theorem get?_proceed_iff (ops : List Operation) (name : Text) (arity : Arity) (m : Macro) :
    (proceed perform {} ops).get? name arity = some m ↔
      (m.name = name ∧ m.arity = arity) ∧ ∃ before after, succeeded perform {} ops = before ++ .define m :: after ∧
        ∀ op ∈ after, op.defines name arity = false ∧ op.undefines name = false := by
  have hmacros := macros_proceed ops
  have hproper := isProper_proceed ops
  have hnodup : ((live (succeeded perform {} ops)).map Macro.key).Nodup := by
    rw [IsProper, hmacros] at hproper
    exact ((perm_grouped _).map Macro.key).nodup_iff.1 hproper
  rw [hproper.get?_eq_some_iff, hmacros, mem_grouped, mem_live_iff hnodup]
  constructor
  · rintro ⟨hlast, rfl, rfl⟩
    exact ⟨⟨rfl, rfl⟩, hlast⟩
  · rintro ⟨⟨rfl, rfl⟩, hlast⟩
    exact ⟨hlast, rfl, rfl⟩

private theorem IsProper.exists_keys (ht : t.IsProper) :
    ∃ keys : Finset (Text × Arity),
      (∀ name arity, (name, arity) ∈ keys ↔ (t.get? name arity).isSome) ∧ keys.card = t.size := by
  refine ⟨(t.macros.map Macro.key).toFinset, ?_, ?_⟩
  · intro name arity
    rw [List.mem_toFinset, List.mem_map, get?, List.find?_isSome]
    simp [Macro.key]
  · rw [List.toFinset_card_of_nodup ht, List.length_map, size]

end MacroTable

private theorem Preprocessor.macros_evalDefine {p : Preprocessor} {name : Token} {params : Option (List Token)}
    {body : List Token} {f : Failure} (h : (p.evalDefine name params body).outcome = .fail f) :
    (p.evalDefine name params body).state.macros = p.macros := by
  unfold evalDefine at h ⊢
  split
  · rfl
  · next hmake =>
    rw [hmake] at h
    dsimp only at h ⊢
    split
    · next hdefine =>
      rw [hdefine] at h
      cases h
    · rfl

private theorem Preprocessor.macros_evalUndef {p : Preprocessor} {name : Text} {position : Position} {f : Failure}
    (h : (p.evalUndef name position).outcome = .fail f) : (p.evalUndef name position).state.macros = p.macros := by
  unfold evalUndef at h ⊢
  split
  · next hundef =>
    rw [hundef] at h
    cases h
  · rfl

/-- The table after operations from the empty one on, of which some may have failed, is the map that those which have
succeeded describe.  This is said of look-ups, of what defining and undefining come to, of failing operations, also in a
run, of the presence of names, of the number of definitions, and of their order. -/
theorem MacroTable.follows_history (ops : List Operation) :
    let t := proceed perform {} ops
    let done := succeeded perform {} ops
    (∀ name arity m, t.get? name arity = some m ↔
      (m.name = name ∧ m.arity = arity) ∧ ∃ before after, done = before ++ .define m :: after ∧
        ∀ op ∈ after, op.defines name arity = false ∧ op.undefines name = false) ∧
    (∀ m,
      (t.define m = .error ⟨.redefinePredefined m.name, some m.position⟩ ↔ isPredefined m.name = true) ∧
      (∀ position, t.define m = .error ⟨.alreadyDefined m.name m.arity position, some m.position⟩ ↔
        isPredefined m.name = false ∧ (t.get? m.name m.arity).map Macro.position = some position) ∧
      ((∃ t', t.define m = .ok t') ↔ isPredefined m.name = false ∧ t.get? m.name m.arity = none)) ∧
    (∀ name position,
      (t.undef name position = .error ⟨.undefinePredefined name, position⟩ ↔ isPredefined name = true) ∧
      (t.undef name position = .error ⟨.undefineUnknown name, position⟩ ↔
        isPredefined name = false ∧ ∀ arity, t.get? name arity = none) ∧
      ((∃ t', t.undef name position = .ok t') ↔ isPredefined name = false ∧ ∃ arity, (t.get? name arity).isSome) ∧
      ∀ t', t.undef name position = .ok t' →
        ∀ other arity, t'.get? other arity = if other = name then none else t.get? other arity) ∧
    (∀ op e, t.perform op = .error e → proceed perform {} (ops ++ [op]) = t) ∧
    (∀ p : Preprocessor, p.macros = t →
      (∀ name params body f, (p.evalDefine name params body).outcome = .fail f →
        (p.evalDefine name params body).state.macros = t) ∧
      ∀ name position f, (p.evalUndef name position).outcome = .fail f →
        (p.evalUndef name position).state.macros = t) ∧
    (∀ name, (t.contains name = true ↔ t.arities name ≠ []) ∧
      (t.contains name = true ↔ ∃ arity, (t.get? name arity).isSome)) ∧
    (∃ keys : Finset (Text × Arity),
      (∀ name arity, (name, arity) ∈ keys ↔ (t.get? name arity).isSome) ∧ keys.card = t.size) ∧
    t.macros = grouped (live done) := by
  intro t done
  refine ⟨get?_proceed_iff ops, fun m => ?_, fun name position => ?_, fun op e hop => ?_, fun p hp => ⟨?_, ?_⟩,
    fun name => ⟨contains_iff_arities, contains_iff⟩, (isProper_proceed ops).exists_keys, macros_proceed ops⟩
  · obtain ⟨hpredefined, halready, hok⟩ := define_outcomes t m
    exact ⟨hpredefined, halready, by simp [hok]⟩
  · obtain ⟨hpredefined, hunknown, hok⟩ := undef_outcomes t name position
    have habsent : t.contains name = false ↔ ∀ arity, t.get? name arity = none := by
      rw [← Bool.not_eq_true, contains_iff]
      simp
    refine ⟨hpredefined, hunknown.trans (and_congr_right fun _ => habsent), by simp [hok, ← contains_iff], ?_⟩
    intro t' ht' other arity
    obtain ⟨-, -, rfl⟩ := (hok t').1 ht'
    exact get?_filter t name other arity
  · exact (proceed_append _ ops [op]).trans (proceed_error hop)
  · intro name params body f h
    exact (Preprocessor.macros_evalDefine h).trans hp
  · intro name position f h
    exact (Preprocessor.macros_evalUndef h).trans hp

end ErlangMacros
