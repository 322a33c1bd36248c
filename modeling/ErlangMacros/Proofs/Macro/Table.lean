import ErlangMacros.Macro.Table
import Mathlib.Data.List.Nodup

/-!
# Look-ups in the macro table

A table holds at most one macro for each name and arity (`MacroTable.IsProper`), which defining and undefining macros
keep.  A look-up by arity gives a macro with that many parameters, so that the macro takes the arguments of the call.
-/

namespace ErlangMacros

theorem Predefined.name_of_ofName? {name : Text} {pre : Predefined} (h : ofName? name = some pre) :
    name = pre.name := by
  have hfound := List.find?_some h
  exact (of_decide_eq_true hfound).symm

namespace Macro

/-- What tells two macros of a table apart. -/
def key (m : Macro) : Text × Arity :=
  (m.name, m.arity)

/-- The tokens that a call is replaced by, if the number of arguments is right. -/
def expansion (m : Macro) (args : Option (List (List Token))) : List Token :=
  match args with
  | none => m.body
  | some as => substitute (m.params.getD []) as m.body

theorem replace_eq_expansion {m : Macro} {args : Option (List (List Token))}
    (h : m.arity = args.map fun as => (as.length : Int)) : m.replace args = .ok (m.expansion args) := by
  rcases hp : m.params with _ | ps <;> rcases args with _ | as
  · simp [replace, hp, expansion]
  · simp [arity, hp] at h
  · simp [arity, hp] at h
  · have hlength : as.length = ps.length := by
      simp only [arity, hp, Option.map_some, Option.some.injEq] at h
      omega
    simp [replace, hp, expansion, hlength]

theorem body_of_make {name : Token} {params : Option (List Token)} {body : List Token} {m : Macro}
    (h : make name params body = .ok m) : m.body = body := by
  unfold make at h
  rcases hname : name.nameValue with e | n <;> rw [hname] at h <;> cases h
  rfl

end Macro

namespace MacroTable

/-- No two macros have the same name and arity. -/
def IsProper (t : MacroTable) : Prop :=
  (t.macros.map Macro.key).Nodup

theorem isProper_empty : ({} : MacroTable).IsProper :=
  List.nodup_nil

theorem key_of_get? {t : MacroTable} {name : Text} {arity : Arity} {m : Macro} (h : t.get? name arity = some m) :
    m ∈ t.macros ∧ m.name = name ∧ m.arity = arity := by
  have hm := List.mem_of_find?_eq_some h
  have hkey := List.find?_some h
  simp only [Bool.and_eq_true, decide_eq_true_eq] at hkey
  exact ⟨hm, hkey⟩

private theorem key_notMem_of_get?_none {t : MacroTable} {m : Macro} (h : t.get? m.name m.arity = none) :
    m.key ∉ t.macros.map Macro.key := by
  intro hm
  obtain ⟨m', hm', hkey⟩ := List.mem_map.1 hm
  obtain ⟨hname, harity⟩ := Prod.mk.inj hkey
  have := List.find?_eq_none.1 h m' hm'
  simp [hname, harity] at this

theorem perm_place (m : Macro) (ms : List Macro) : (place m ms).Perm (m :: ms) := by
  induction ms with
  | nil => exact List.Perm.refl _
  | cons x xs ih =>
    unfold place
    split
    · exact List.Perm.swap m x xs
    · exact (List.Perm.cons x ih).trans (List.Perm.swap m x xs)

theorem IsProper.define {t t' : MacroTable} {m : Macro} (ht : t.IsProper) (h : t.define m = .ok t') :
    t'.IsProper := by
  unfold MacroTable.define at h
  split at h
  · cases h
  · split at h
    · cases h
    · next hget =>
      cases h
      have hperm := (perm_place m t.macros).map Macro.key
      exact hperm.nodup_iff.2 (List.nodup_cons.2 ⟨key_notMem_of_get?_none hget, ht⟩)

theorem IsProper.undef {t t' : MacroTable} {name : Text} {position : Option Position} (ht : t.IsProper)
    (h : t.undef name position = .ok t') : t'.IsProper := by
  unfold MacroTable.undef at h
  split at h
  · cases h
  · split at h
    · cases h
      exact List.Sublist.nodup (List.Sublist.map Macro.key List.filter_sublist) ht
    · cases h

theorem mem_of_mem_define {t t' : MacroTable} {m : Macro} (h : t.define m = .ok t') {m' : Macro} (hm' : m' ∈ t'.macros) :
    m' = m ∨ m' ∈ t.macros := by
  unfold define at h
  split at h
  · cases h
  · split at h
    · cases h
    · cases h
      exact List.mem_cons.1 ((perm_place m t.macros).mem_iff.1 hm')

theorem mem_of_mem_undef {t t' : MacroTable} {name : Text} {position : Option Position}
    (h : t.undef name position = .ok t') {m : Macro} (hm : m ∈ t'.macros) : m ∈ t.macros := by
  unfold undef at h
  split at h
  · cases h
  · split at h
    · cases h
      exact List.mem_of_mem_filter hm
    · cases h

theorem mem_arities_iff {t : MacroTable} {name : Text} {arity : Arity} :
    arity ∈ t.arities name ↔ (t.get? name arity).isSome := by
  constructor
  · intro h
    obtain ⟨m, hm, harity⟩ := List.mem_map.1 h
    obtain ⟨hm, hname⟩ := List.mem_filter.1 hm
    rw [get?, List.find?_isSome]
    exact ⟨m, hm, by simpa [harity] using hname⟩
  · intro h
    obtain ⟨m, hm⟩ := Option.isSome_iff_exists.1 h
    obtain ⟨hmem, hname, harity⟩ := key_of_get? hm
    exact List.mem_map.2 ⟨m, List.mem_filter.2 ⟨hmem, by simpa using hname⟩, harity⟩

theorem contains_of_arities_ne_nil {t : MacroTable} {name : Text} (h : t.arities name ≠ []) :
    t.contains name = true := by
  obtain ⟨a, ha⟩ := List.exists_mem_of_ne_nil _ h
  obtain ⟨m, hm, -⟩ := List.mem_map.1 ha
  obtain ⟨hm, hname⟩ := List.mem_filter.1 hm
  exact List.any_eq_true.2 ⟨m, hm, hname⟩

theorem IsProper.get?_eq_some_iff {t : MacroTable} (ht : t.IsProper) {name : Text} {arity : Arity} {m : Macro} :
    t.get? name arity = some m ↔ m ∈ t.macros ∧ m.name = name ∧ m.arity = arity := by
  constructor
  · exact key_of_get?
  · rintro ⟨hm, hname, harity⟩
    have hfound : (t.get? name arity).isSome := List.find?_isSome.2 ⟨m, hm, by simp [hname, harity]⟩
    obtain ⟨m', hm'⟩ := Option.isSome_iff_exists.1 hfound
    obtain ⟨hmem, hname', harity'⟩ := key_of_get? hm'
    have hkey : m'.key = m.key := Prod.ext (hname'.trans hname.symm) (harity'.trans harity.symm)
    rw [hm', List.inj_on_of_nodup_map ht hmem hm hkey]

/-- The arities of one name are different. -/
theorem IsProper.nodup_arities {t : MacroTable} (ht : t.IsProper) (name : Text) : (t.arities name).Nodup := by
  have hsub : ((t.macros.filter (·.name = name)).map Macro.key).Nodup :=
    List.Sublist.nodup (List.Sublist.map Macro.key List.filter_sublist) ht
  refine List.Nodup.map_on ?_ (List.Nodup.of_map Macro.key hsub)
  intro x hx y hy harity
  have hname : x.name = y.name := by
    have hx := (List.mem_filter.1 hx).2
    have hy := (List.mem_filter.1 hy).2
    simp only [decide_eq_true_eq] at hx hy
    rw [hx, hy]
  exact List.inj_on_of_nodup_map hsub hx hy (Prod.ext hname harity)

/-- A name has more than the variant without parameters exactly if some variant has parameters. -/
theorem IsProper.arities_ne_singleton_iff {t : MacroTable} (ht : t.IsProper) {name : Text}
    (h : t.arities name ≠ []) : t.arities name ≠ [none] ↔ ∃ n, some n ∈ t.arities name := by
  have hnodup := ht.nodup_arities name
  constructor
  · intro hne
    by_contra hnone
    have hall : ∀ a ∈ t.arities name, a = none := by
      intro a ha
      cases a with
      | none => rfl
      | some n => exact absurd ⟨n, ha⟩ hnone
    rcases harities : t.arities name with _ | ⟨a, _ | ⟨b, rest⟩⟩ <;> rw [harities] at hnodup hall
    · exact h harities
    · exact hne (by rw [harities, hall a (by simp)])
    · rw [hall a (by simp), hall b (by simp)] at hnodup
      simp at hnodup
  · rintro ⟨n, hn⟩ heq
    rw [heq] at hn
    simp at hn

end MacroTable

end ErlangMacros
