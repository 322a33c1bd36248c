import ErlangMacros.Proofs.Macro.History

/-!
# Variants by name

The list of a macro table stands for a map from names to the variants of each name, which is a map from arities to
macros (`NestedTable`).  Flattening the two maps gives the list (`NestedTable.table`).  Every question to the maps has
the answer that the list gives (`get?_table`, `contains_table`, `arities_table`, `lookup_table`), and defining and
undefining macros in them is the same as in the list (`define_table`, `undef_table`), also one after the other
(`table_proceed`, `answers_table`).
-/

namespace ErlangMacros

/-- The variants of every name.  Names come in the order of their first variant, and the variants of one name in the
order of definition. -/
structure NestedTable where
  groups : List (Text × List (Arity × Macro)) := []

namespace NestedTable

open MacroTable (isPredefined place)

/-- The variants of a name. -/
def variants (n : NestedTable) (name : Text) : List (Arity × Macro) :=
  (n.groups.lookup name).getD []

/-- The name has variants. -/
def contains (n : NestedTable) (name : Text) : Bool :=
  (n.groups.lookup name).isSome

/-- The variant of a name for an arity. -/
def get? (n : NestedTable) (name : Text) (arity : Arity) : Option Macro :=
  (n.variants name).lookup arity

/-- The arities that a name has variants for. -/
def arities (n : NestedTable) (name : Text) : List Arity :=
  (n.variants name).map Prod.fst

/-- The macro with a name and an arity, or the error of calling it. -/
def lookup (n : NestedTable) (name : Text) (arity : Arity) (position : Option Position) : Except Error Macro :=
  match n.get? name arity with
  | some m => .ok m
  | none =>
    if n.contains name then
      .error ⟨.arityMismatch name arity ((n.arities name).mergeSort MacroTable.arityLE), position⟩
    else .error ⟨.undefinedMacro name, position⟩

/-- Put a macro after the variants of its name.  A new name comes last. -/
def add (m : Macro) : List (Text × List (Arity × Macro)) → List (Text × List (Arity × Macro))
  | [] => [(m.name, [(m.arity, m)])]
  | (name, variants) :: groups =>
    if name = m.name then (name, variants ++ [(m.arity, m)]) :: groups else (name, variants) :: add m groups

/-- Define a macro.  The name must not be predefined, nor have a variant for the same arity. -/
def define (n : NestedTable) (m : Macro) : Except Error NestedTable :=
  if isPredefined m.name then .error ⟨.redefinePredefined m.name, some m.position⟩
  else
    match n.get? m.name m.arity with
    | some earlier => .error ⟨.alreadyDefined m.name m.arity earlier.position, some m.position⟩
    | none => .ok ⟨add m n.groups⟩

/-- Remove a name with its variants. -/
def undef (n : NestedTable) (name : Text) (position : Option Position) : Except Error NestedTable :=
  if isPredefined name then .error ⟨.undefinePredefined name, position⟩
  else if n.contains name then .ok ⟨n.groups.filter (·.1 ≠ name)⟩
  else .error ⟨.undefineUnknown name, position⟩

/-- Take an operation. -/
def perform (n : NestedTable) : MacroTable.Operation → Except Error NestedTable
  | .define m => n.define m
  | .undef name position => n.undef name position

/-- The macros of the groups, one after the other. -/
def flatten (groups : List (Text × List (Arity × Macro))) : List Macro :=
  groups.flatMap fun group => group.2.map Prod.snd

/-- All macros in one list. -/
def table (n : NestedTable) : MacroTable :=
  ⟨flatten n.groups⟩

/-- A group is not empty, and its macros stand under their own name and arity. -/
structure IsGroup (group : Text × List (Arity × Macro)) : Prop where
  ne_nil : group.2 ≠ []
  name_eq : ∀ v ∈ group.2, v.2.name = group.1
  arity_eq : ∀ v ∈ group.2, v.2.arity = v.1

/-- Every name has one group. -/
structure IsNested (n : NestedTable) : Prop where
  nodup : (n.groups.map Prod.fst).Nodup
  isGroup : ∀ group ∈ n.groups, IsGroup group

variable {n n' : NestedTable} {m : Macro} {name : Text} {group : Text × List (Arity × Macro)}
  {groups : List (Text × List (Arity × Macro))}

/-! ### Questions -/

private theorem flatten_cons (group : Text × List (Arity × Macro)) (groups : List (Text × List (Arity × Macro))) :
    flatten (group :: groups) = group.2.map Prod.snd ++ flatten groups :=
  rfl

private theorem IsGroup.name_of_mem (h : IsGroup group) (hm : m ∈ group.2.map Prod.snd) : m.name = group.1 := by
  obtain ⟨v, hv, rfl⟩ := List.mem_map.1 hm
  exact h.name_eq v hv

/-- A test of names keeps all macros of a group or none of them. -/
private theorem IsGroup.filter_name (h : IsGroup group) (p : Text → Bool) :
    (group.2.map Prod.snd).filter (fun m => p m.name) = if p group.1 then group.2.map Prod.snd else [] := by
  split
  · next hp => exact List.filter_eq_self.2 fun m hm => by rw [h.name_of_mem hm, hp]
  · next hp => exact List.filter_eq_nil_iff.2 fun m hm => by rwa [h.name_of_mem hm]

private theorem filter_flatten_of_notMem (h : ∀ group ∈ groups, IsGroup group) (hname : name ∉ groups.map Prod.fst) :
    (flatten groups).filter (·.name = name) = [] := by
  induction groups with
  | nil => rfl
  | cons group groups ih =>
    obtain ⟨hgroup, htail⟩ := List.forall_mem_cons.1 h
    simp only [List.map_cons, List.mem_cons, not_or] at hname
    rw [flatten_cons, List.filter_append, hgroup.filter_name (· = name), if_neg (by simpa using Ne.symm hname.1)]
    exact ih htail hname.2

private theorem variants_of_not_contains (h : n.contains name = false) : n.variants name = [] := by
  have hnone : n.groups.lookup name = none := Option.isNone_iff_eq_none.1 (Option.isSome_eq_false_iff.1 h)
  rw [variants, hnone, Option.getD_none]

/-- The variants of a name are its macros in the list. -/
theorem IsNested.filter_table (hn : n.IsNested) (name : Text) :
    n.table.macros.filter (·.name = name) = (n.variants name).map Prod.snd := by
  obtain ⟨groups⟩ := n
  obtain ⟨hnodup, hgroups⟩ := hn
  simp only [table, variants] at hnodup hgroups ⊢
  induction groups with
  | nil => rfl
  | cons group groups ih =>
    obtain ⟨hgroup, htail⟩ := List.forall_mem_cons.1 hgroups
    rw [List.map_cons, List.nodup_cons] at hnodup
    rw [flatten_cons, List.filter_append, hgroup.filter_name (· = name), List.lookup_cons]
    by_cases hname : group.1 = name
    · -- the name has no second group
      rw [if_pos (by simpa using hname), filter_flatten_of_notMem htail (hname ▸ hnodup.1)]
      simp [hname]
    · rw [if_neg (by simpa using hname), List.nil_append, ih hnodup.2 htail, beq_false_of_ne (Ne.symm hname)]

private theorem IsNested.isGroup_variants (hn : n.IsNested) (h : n.contains name = true) :
    IsGroup (name, n.variants name) := by
  obtain ⟨vs, hvs⟩ := Option.isSome_iff_exists.1 h
  obtain ⟨before, after, hgroups, -⟩ := List.lookup_eq_some_iff.1 hvs
  have hgroup := hn.isGroup (name, vs) (by simp [hgroups])
  rwa [variants, hvs]

theorem IsNested.contains_table (hn : n.IsNested) (name : Text) : n.table.contains name = n.contains name := by
  have hany : n.table.contains name = !(n.table.macros.filter (·.name = name)).isEmpty := by
    rw [Bool.eq_iff_iff]
    simp [MacroTable.contains, List.filter_eq_nil_iff]
  rw [hany, hn.filter_table]
  rcases hcontains : n.contains name with - | -
  · simp [variants_of_not_contains hcontains]
  · simpa using (hn.isGroup_variants hcontains).ne_nil

private theorem IsNested.arity_eq_of_mem (hn : n.IsNested) {v : Arity × Macro} (hv : v ∈ n.variants name) :
    v.2.arity = v.1 := by
  rcases hcontains : n.contains name with - | -
  · rw [variants_of_not_contains hcontains] at hv
    cases hv
  · exact (hn.isGroup_variants hcontains).arity_eq v hv

theorem IsNested.arities_table (hn : n.IsNested) (name : Text) : n.table.arities name = n.arities name := by
  rw [MacroTable.arities, hn.filter_table, arities, List.map_map]
  exact List.map_congr_left fun v hv => hn.arity_eq_of_mem hv

private theorem find?_variants {vs : List (Arity × Macro)} (h : ∀ v ∈ vs, v.2.arity = v.1) (arity : Arity) :
    (vs.map Prod.snd).find? (·.arity = arity) = vs.lookup arity := by
  induction vs with
  | nil => rfl
  | cons v vs ih =>
    have hv := h v (by simp)
    rw [List.map_cons, List.find?_cons, List.lookup_cons, ih fun u hu => h u (List.mem_cons_of_mem _ hu), hv]
    by_cases harity : v.1 = arity
    · simp [harity]
    · simp [harity, beq_false_of_ne (Ne.symm harity)]

theorem IsNested.get?_table (hn : n.IsNested) (name : Text) (arity : Arity) :
    n.table.get? name arity = n.get? name arity := by
  calc n.table.get? name arity
      = (n.table.macros.filter (·.name = name)).find? (·.arity = arity) := by
        rw [MacroTable.get?, List.find?_filter]
        congr 1
        funext m
        simp
    _ = ((n.variants name).map Prod.snd).find? (·.arity = arity) := by rw [hn.filter_table]
    _ = n.get? name arity := find?_variants (fun v hv => hn.arity_eq_of_mem hv) arity

theorem IsNested.lookup_table (hn : n.IsNested) (name : Text) (arity : Arity) (position : Option Position) :
    n.table.lookup name arity position = n.lookup name arity position := by
  rcases hget : n.get? name arity with - | m <;>
    simp [MacroTable.lookup, lookup, hn.get?_table, hget, hn.contains_table, MacroTable.sortedArities, hn.arities_table]

/-! ### Changes -/

private theorem name_ne_of_mem_flatten (h : ∀ group ∈ groups, IsGroup group) (hname : name ∉ groups.map Prod.fst) :
    ∀ x ∈ flatten groups, x.name ≠ name := by
  intro x hx
  have hfilter := List.filter_eq_nil_iff.1 (filter_flatten_of_notMem h hname) x hx
  simpa using hfilter

private theorem place_append_of_ne {xs : List Macro} (h : ∀ x ∈ xs, x.name ≠ m.name) (ys : List Macro) :
    place m (xs ++ ys) = xs ++ place m ys := by
  induction xs with
  | nil => rfl
  | cons x xs ih =>
    have hx : x.name ≠ m.name := h x (by simp)
    simp [place, hx, ih fun y hy => h y (List.mem_cons_of_mem _ hy)]

/-- A macro comes after the last one of its name in the list. -/
theorem flatten_add (hnodup : (groups.map Prod.fst).Nodup) (hgroups : ∀ group ∈ groups, IsGroup group) (m : Macro) :
    flatten (add m groups) = place m (flatten groups) := by
  induction groups with
  | nil => rfl
  | cons group groups ih =>
    obtain ⟨name, vs⟩ := group
    obtain ⟨hgroup, htail⟩ := List.forall_mem_cons.1 hgroups
    rw [List.map_cons, List.nodup_cons] at hnodup
    have hnames : ∀ x ∈ vs.map Prod.snd, x.name = name := fun x hx => hgroup.name_of_mem hx
    rw [flatten_cons]
    unfold add
    split
    · next hname =>
      have hplace := MacroTable.place_append (m := m) [] (by simpa using hgroup.ne_nil) (hname ▸ hnames)
        (name_ne_of_mem_flatten htail (hname ▸ hnodup.1))
      rw [List.nil_append, List.nil_append] at hplace
      rw [hplace]
      simp [flatten]
    · next hname =>
      have hne : ∀ x ∈ vs.map Prod.snd, x.name ≠ m.name := fun x hx heq => hname ((hnames x hx).symm.trans heq)
      rw [place_append_of_ne hne, ← ih hnodup.2 htail]
      rfl

/-- Removing the group of a name removes its macros. -/
theorem flatten_filter (hgroups : ∀ group ∈ groups, IsGroup group) (name : Text) :
    flatten (groups.filter (·.1 ≠ name)) = (flatten groups).filter (·.name ≠ name) := by
  induction groups with
  | nil => rfl
  | cons group groups ih =>
    obtain ⟨hgroup, htail⟩ := List.forall_mem_cons.1 hgroups
    rw [flatten_cons, List.filter_append, hgroup.filter_name (· ≠ name), ← ih htail]
    by_cases hname : group.1 = name <;> simp [hname, flatten]

/-- Defining a macro is the same in the maps and in the list. -/
theorem IsNested.define_table (hn : n.IsNested) (m : Macro) : n.table.define m = (n.define m).map table := by
  unfold MacroTable.define define
  rw [hn.get?_table]
  split
  · rfl
  · rcases n.get? m.name m.arity with - | earlier
    · exact congrArg (fun ms => Except.ok (MacroTable.mk ms)) (flatten_add hn.nodup hn.isGroup m).symm
    · rfl

/-- Undefining a name is the same in the maps and in the list. -/
theorem IsNested.undef_table (hn : n.IsNested) (name : Text) (position : Option Position) :
    n.table.undef name position = (n.undef name position).map table := by
  unfold MacroTable.undef undef
  rw [hn.contains_table]
  split
  · rfl
  · split
    · exact congrArg (fun ms => Except.ok (MacroTable.mk ms)) (flatten_filter hn.isGroup name).symm
    · rfl

/-! ### One change after the other -/

private theorem isNested_empty : ({} : NestedTable).IsNested :=
  ⟨List.nodup_nil, by simp⟩

private theorem fst_add (m : Macro) (groups : List (Text × List (Arity × Macro))) :
    (add m groups).map Prod.fst =
      if m.name ∈ groups.map Prod.fst then groups.map Prod.fst else groups.map Prod.fst ++ [m.name] := by
  induction groups with
  | nil => rfl
  | cons group groups ih =>
    obtain ⟨name, vs⟩ := group
    unfold add
    split
    · next hname => simp [hname]
    · next hname =>
      rw [List.map_cons, ih]
      by_cases hmem : m.name ∈ groups.map Prod.fst <;> simp [hmem, Ne.symm hname]

private theorem IsGroup.concat (h : IsGroup group) (hname : group.1 = m.name) :
    IsGroup (group.1, group.2 ++ [(m.arity, m)]) := by
  refine ⟨by simp, fun v hv => ?_, fun v hv => ?_⟩ <;> rcases List.mem_append.1 hv with hv | hv
  · exact h.name_eq v hv
  · rw [List.mem_singleton.1 hv]
    exact hname.symm
  · exact h.arity_eq v hv
  · rw [List.mem_singleton.1 hv]

private theorem isGroup_add (hgroups : ∀ group ∈ groups, IsGroup group) (m : Macro) :
    ∀ group ∈ add m groups, IsGroup group := by
  induction groups with
  | nil =>
    intro group hgroup
    obtain rfl := List.mem_singleton.1 hgroup
    exact ⟨by simp, by simp, by simp⟩
  | cons head groups ih =>
    obtain ⟨name, vs⟩ := head
    obtain ⟨hhead, htail⟩ := List.forall_mem_cons.1 hgroups
    intro group hgroup
    unfold add at hgroup
    split at hgroup
    · next hname =>
      rcases List.mem_cons.1 hgroup with rfl | hmem
      · exact hhead.concat hname
      · exact htail group hmem
    · rcases List.mem_cons.1 hgroup with rfl | hmem
      · exact hhead
      · exact ih htail group hmem

theorem IsNested.add (hn : n.IsNested) (m : Macro) : IsNested ⟨add m n.groups⟩ := by
  refine ⟨?_, isGroup_add hn.isGroup m⟩
  rw [fst_add]
  split
  · exact hn.nodup
  · next hnew => simpa using hn.nodup.concat hnew

theorem IsNested.filter (hn : n.IsNested) (p : Text × List (Arity × Macro) → Bool) : IsNested ⟨n.groups.filter p⟩ :=
  ⟨List.Sublist.nodup (List.Sublist.map Prod.fst List.filter_sublist) hn.nodup,
    fun group hgroup => hn.isGroup group (List.mem_of_mem_filter hgroup)⟩

theorem IsNested.define (hn : n.IsNested) (h : n.define m = .ok n') : n'.IsNested := by
  unfold NestedTable.define at h
  split at h
  · cases h
  · split at h
    · cases h
    · cases h
      exact hn.add m

theorem IsNested.undef (hn : n.IsNested) {position : Option Position} (h : n.undef name position = .ok n') :
    n'.IsNested := by
  unfold NestedTable.undef at h
  split at h
  · cases h
  · split at h
    · cases h
      exact hn.filter _
    · cases h

theorem IsNested.perform (hn : n.IsNested) {op : MacroTable.Operation} (h : n.perform op = .ok n') : n'.IsNested := by
  cases op with
  | define m => exact hn.define h
  | undef name position => exact hn.undef h

private theorem IsNested.perform_table (hn : n.IsNested) (op : MacroTable.Operation) :
    n.table.perform op = (n.perform op).map table := by
  cases op with
  | define m => exact hn.define_table m
  | undef name position => exact hn.undef_table name position

/-- Operations one after the other, of which some may fail, make of the list what they make of the maps. -/
theorem IsNested.table_proceed (hn : n.IsNested) (ops : List MacroTable.Operation) :
    (proceed NestedTable.perform n ops).table = proceed MacroTable.perform n.table ops ∧
      (proceed NestedTable.perform n ops).IsNested := by
  induction ops generalizing n with
  | nil => exact ⟨rfl, hn⟩
  | cons op ops ih =>
    have hstep := hn.perform_table op
    rcases hop : n.perform op with e | n' <;> rw [hop] at hstep
    · have hproceed := ih hn
      simpa only [proceed, hop, hstep, Except.map] using hproceed
    · have hproceed := ih (hn.perform hop)
      simpa only [proceed, hop, hstep, Except.map] using hproceed

/-- After operations from the empty maps on, of which some may have failed, all answers of the maps are those of the
list, and so is what comes of a further operation. -/
theorem answers_table (ops : List MacroTable.Operation) :
    let n := proceed perform {} ops
    let t := proceed MacroTable.perform {} ops
    n.table = t ∧
    (∀ name, t.contains name = n.contains name ∧ t.arities name = n.arities name) ∧
    (∀ name arity, t.get? name arity = n.get? name arity) ∧
    (∀ name arity position, t.lookup name arity position = n.lookup name arity position) ∧
    ∀ op, t.perform op = (n.perform op).map table := by
  intro n t
  obtain ⟨htable, hnested⟩ : n.table = t ∧ n.IsNested := isNested_empty.table_proceed ops
  rw [← htable]
  exact ⟨rfl, fun name => ⟨hnested.contains_table name, hnested.arities_table name⟩, hnested.get?_table,
    hnested.lookup_table, hnested.perform_table⟩

end NestedTable

end ErlangMacros
