import Mathlib.Data.Multiset.DershowitzManna
import ErlangMacros.Proofs.Preprocessor.Fuel
import ErlangMacros.Proofs.Reader.Growth

/-!
# Runs end

Every token that waits to be read has a rank, which says how much can still come of it.  A token of an expansion ranks
by the levels that the limit leaves below it.  A token of a source ranks above all of these, and higher the further
out its source is.  A call replaces its question mark by tokens of lower rank, and so does a directive that includes a
file.  So each step makes the multiset of the ranks smaller in the order of Dershowitz and Manna
(`Reader.Advance.weight_lt`), unless it makes a source grow, and that order is well-founded.
-/

namespace ErlangMacros

namespace Reader

/-- The rank of a token of an expansion. -/
def expandedRank (limit : DepthLimit) (depth : Int) : Nat :=
  (limit.value - depth).toNat

/-- The rank of a token of a source. -/
def sourceRank (limit : DepthLimit) (level : Nat) : Nat :=
  limit.value.toNat + (limit.value + 1 - level).toNat

/-- The ranks of all tokens that wait to be read. -/
def weight (limit : DepthLimit) (r : Reader) : Multiset Nat :=
  (r.expanded.map fun c => expandedRank limit c.depth : List Nat) +
    (r.inclusion.levels.map (sourceRank limit) : List Nat)

private theorem weight_congr {r r' : Reader} (limit : DepthLimit) (hexpanded : r'.expanded = r.expanded)
    (hlevels : r'.inclusion.levels = r.inclusion.levels) : r'.weight limit = r.weight limit := by
  rw [weight, weight, hexpanded, hlevels]

private theorem weight_peek {r : Reader} (limit : DepthLimit) (hi : r.inclusion.IsFinite) :
    r.peek.2.weight limit = r.weight limit := by
  apply weight_congr
  · rw [expanded, expanded, frames_peek]
  · exact levels_peek hi

/-- Reading takes one rank away.  It is larger than the ranks one level deeper. -/
theorem weight_read {r r' : Reader} {t : Token} (limit : DepthLimit) (h : r.read = (.token t, r')) (hr : r.IsNested)
    (hi : r.inclusion.IsFinite) :
    ∃ rank, r.weight limit = rank ::ₘ r'.weight limit ∧
      (r'.depth + 1 ≤ limit.value → expandedRank limit (r'.depth + 1) < rank) ∧
      (r'.depth = 0 → rank = sourceRank limit r'.inclusion.size) := by
  rcases read_token h hi with ⟨hexpanded, hinclusion, f, hf, hd⟩ | ⟨hexpanded, hframes, hd, -, hleveled⟩
  · -- from an expansion
    refine ⟨expandedRank limit r'.depth, ?_, ?_, ?_⟩
    · rw [weight, weight, hexpanded, hinclusion]
      rfl
    · intro hle
      unfold expandedRank
      omega
    · intro hzero
      have := hr f hf
      omega
  · -- from a source, whose tokens rank above those of all expansions
    refine ⟨sourceRank limit r'.inclusion.size, ?_, ?_, fun _ => rfl⟩
    · have hexpanded' : r'.expanded = [] := by simp [expanded, hframes]
      rw [weight, weight, hexpanded, hexpanded', Inclusion.levels, hleveled]
      simp [Inclusion.levels]
    · intro hle
      unfold expandedRank sourceRank
      omega

private theorem Takes.weight_le {r r' : Reader} {cs : List Consumed} (limit : DepthLimit) (h : Takes r cs r')
    (hr : r.IsNested) (hi : r.inclusion.IsFinite) : r'.weight limit ≤ r.weight limit := by
  induction h with
  | nil r => exact le_rfl
  | @cons r r₁ r₂ t cs hread _ ih =>
    obtain ⟨rank, hweight, -⟩ := weight_read limit hread hr hi
    have hi₁ := ends_of_read hread hi rfl
    rw [hweight]
    exact (ih (hr.of_read hread).1 hi₁).trans (Multiset.le_cons_self _ _)

/-- The arguments of a call are read, or they are put back where they were. -/
theorem Applies.weight_le {r₀ r r' : Reader} {before : List Consumed} (limit : DepthLimit) (h₀ : Takes r₀ before r)
    (h : Applies r r') (hr : r₀.IsNested) (hi : r₀.inclusion.IsFinite)
    (hg : r₀.inclusion.size ≤ 1 ∨ ¬ r₀.inclusion.Grows r'.inclusion) : r'.weight limit ≤ r.weight limit := by
  have hn := (h₀.places hr).peek
  have hf := h₀.isFinite hi
  cases h with
  | bare => exact le_rfl
  | looked => exact (weight_peek limit hf).le
  | applied htakes =>
    rw [← weight_peek limit hf]
    exact htakes.weight_le limit hn (ends_peek hf rfl)
  | putBack htakes =>
    refine (weight_congr limit ?_ (h₀.levels_restored htakes hr hi hg)).le
    rw [(htakes.expanded_unread hn (ends_peek hf rfl)).1, expanded, expanded, frames_peek]

private theorem weight_push (limit : DepthLimit) (r : Reader) (f : ExpansionFrame) :
    (r.push f).weight limit = r.weight limit + Multiset.replicate f.tokens.length (expandedRank limit f.depth) := by
  have hexpanded : ((r.push f).expanded.map fun c => expandedRank limit c.depth) =
      List.replicate f.tokens.length (expandedRank limit f.depth) ++
        r.expanded.map fun c => expandedRank limit c.depth := by
    simp [expanded, push, ExpansionFrame.annotated, Function.comp_def]
  rw [weight, hexpanded, ← Multiset.coe_add, Multiset.coe_replicate, weight, add_assoc, add_comm]
  rfl

/-- A directive adds tokens only one level deeper than the current source. -/
theorem Evaluates.levels_eq {w : World} {finder : Finder} {r r' : Reader} (h : Evaluates w finder r r') :
    ∃ count, (r'.inclusion.levels = List.replicate count (r.inclusion.size + 1) ++ r.inclusion.levels) ∧
      (0 < count → r.inclusion.size ≤ r.inclusion.limit.value) ∧ r'.expanded = r.expanded := by
  cases h with
  | same => exact ⟨0, rfl, nofun, rfl⟩
  | file => exact ⟨0, rfl, nofun, rfl⟩
  | @included _ _ text _ path position i _ _ hpush =>
    obtain ⟨hsize, rfl⟩ := Inclusion.push_eq_ok hpush
    let file : Source := .ofText text (some path.toString) (some position)
    refine ⟨file.remaining.length, ?_, fun _ => hsize, rfl⟩
    simp [Inclusion.levels, Inclusion.sources, Inclusion.leveled, Inclusion.size, Function.comp_def, file]

/-- The tokens of an included file rank below those of the file that includes it. -/
theorem Evaluates.weight_eq {w : World} {finder : Finder} {r r' : Reader} {limit : DepthLimit}
    (h : Evaluates w finder r r') (hlimit : r.inclusion.limit = limit) :
    ∃ added, r'.weight limit = r.weight limit + added ∧ ∀ y ∈ added, y < sourceRank limit r.inclusion.size := by
  obtain ⟨count, hlevels, hsize, hexpanded⟩ := h.levels_eq
  refine ⟨Multiset.replicate count (sourceRank limit (r.inclusion.size + 1)), ?_, ?_⟩
  · rw [weight, hexpanded, hlevels, List.map_append, List.map_replicate, ← Multiset.coe_add, Multiset.coe_replicate,
      weight, add_assoc, add_comm (Multiset.replicate _ _)]
  · intro y hy
    obtain ⟨hcount, rfl⟩ := Multiset.mem_replicate.1 hy
    have hle := hsize (Nat.pos_of_ne_zero hcount)
    rw [hlimit] at hle
    unfold sourceRank
    omega

private theorem isDershowitzMannaLT_cons {kept M added : Multiset Nat} {rank : Nat} (hkept : kept ≤ M)
    (hadded : ∀ y ∈ added, y < rank) : Multiset.IsDershowitzMannaLT (kept + added) (rank ::ₘ M) := by
  obtain ⟨removed, rfl⟩ := Multiset.le_iff_exists_add.1 hkept
  refine ⟨kept, added, rank ::ₘ removed, Multiset.cons_ne_zero, rfl, (Multiset.add_cons _ _ _).symm, ?_⟩
  intro y hy
  exact ⟨rank, Multiset.mem_cons_self _ _, hadded y hy⟩

/-- A step makes the weight smaller, unless it makes a source grow. -/
theorem Advance.weight_lt {w : World} {finder : Finder} {limit : DepthLimit} {r r' : Reader}
    (h : Advance w finder limit r r') (hr : r.IsNested) (hi : r.inclusion.IsFinite)
    (hlimit : r.inclusion.limit = limit) (hg : r.inclusion.size ≤ 1 ∨ ¬ r.inclusion.Grows r'.inclusion) :
    Multiset.IsDershowitzMannaLT (r'.weight limit) (r.weight limit) := by
  -- every step reads a token first, and puts tokens of lower rank in its place
  have hread : ∀ {t r₁}, r.read = (.token t, r₁) → r₁.IsNested ∧ r₁.inclusion.IsFinite :=
    fun {t r₁} h => ⟨(hr.of_read h).1, ((Takes.nil r₁).cons h).isFinite hi⟩
  cases h with
  | token htoken =>
    obtain ⟨rank, hweight, -⟩ := weight_read limit htoken hr hi
    rw [hweight, ← add_zero (r'.weight limit)]
    exact isDershowitzMannaLT_cons (by simp) (by simp)
  | looked htoken =>
    obtain ⟨rank, hweight, -⟩ := weight_read limit htoken hr hi
    rw [hweight, weight_peek limit (hread htoken).2, ← add_zero (weight limit _)]
    exact isDershowitzMannaLT_cons (by simp) (by simp)
  | @directive r₁ _ hcollects hevaluates =>
    obtain ⟨rank, hweight, -, hrank⟩ := weight_read limit hcollects.read hr hi
    obtain ⟨hn, hf⟩ := hread hcollects.read
    have hclosed := isClosed_limit w finder limit
    have hlimit₁ := (hclosed.takes (hclosed.peek (hclosed.read hlimit hcollects.read).1) hcollects.takes).1
    obtain ⟨added, hadded, hlt⟩ := hevaluates.weight_eq hlimit₁
    have hkept : r₁.weight limit ≤ hcollects.first.weight limit := by
      rw [← weight_peek limit hf]
      exact hcollects.takes.weight_le limit hn.peek (ends_peek hf rfl)
    rw [hweight, hadded]
    refine isDershowitzMannaLT_cons hkept fun y hy => ?_
    rw [hrank hcollects.fromSource, ← hcollects.size_eq]
    exact hlt y hy
  | @expanded _ _ r₁ r₂ r₃ f htoken hname happlies hdepth _ hle =>
    obtain ⟨rank, hweight, hrank, -⟩ := weight_read limit htoken hr hi
    obtain ⟨hn, hf⟩ := hread htoken
    obtain ⟨rank', hweight', -⟩ := weight_read limit hname hn hf
    have hkept : r₃.weight limit ≤ r₁.weight limit := by
      have hbefore := ((Takes.nil r₂).cons hname).cons htoken
      rw [hweight']
      exact (happlies.weight_le limit hbefore hr hi hg).trans (Multiset.le_cons_self _ _)
    rw [hweight, weight_push]
    refine isDershowitzMannaLT_cons hkept fun y hy => ?_
    rw [Multiset.eq_of_mem_replicate hy, hdepth]
    exact hrank (hdepth ▸ hle)

end Reader

namespace Preprocessor

open Token (symbol operator atom var)

variable {w : World} {p : Preprocessor}

/-- The next step makes a source grow. -/
def GrowsNext (w : World) (p : Preprocessor) : Prop :=
  p.reader.inclusion.Grows (step w p).state.reader.inclusion

/-- A run over finite sources ends if no source grows in it.  A single source does not grow. -/
theorem exists_stateAfter_eq_none_of_isFinite (hs : p.IsSound)
    (hf : ∀ n q, stateAfter w n p = some q → q.reader.inclusion.IsFinite)
    (hg : ∀ n q, stateAfter w n p = some q → q.reader.inclusion.size ≤ 1 ∨ ¬ q.GrowsNext w) :
    ∃ n, stateAfter w n p = none := by
  -- induction on the weight, which every step makes smaller
  have hwf : WellFounded (Multiset.IsDershowitzMannaLT : Multiset Nat → Multiset Nat → Prop) :=
    Multiset.wellFounded_isDershowitzMannaLT
  induction hweight : p.reader.weight p.limit using hwf.induction generalizing p with
  | _ weight ih =>
    by_cases hcontinues : (step w p).outcome.continues
    · have hlt := (advance_step hcontinues).weight_lt hs.isPlaced.isNested (hf 0 p rfl) hs.limit_eq (hg 0 p rfl)
      rw [hweight] at hlt
      have hlater {n : Nat} {q : Preprocessor} (hq : stateAfter w n (step w p).state = some q) :
          stateAfter w (n + 1) p = some q := by
        rwa [stateAfter, if_pos hcontinues]
      obtain ⟨n, hn⟩ := ih _ hlt (hs.step hcontinues) (fun n q hq => hf (n + 1) q (hlater hq))
        (fun n q hq => hg (n + 1) q (hlater hq)) (by rw [(keeps_step w p).limit_eq])
      exact ⟨n + 1, by rwa [stateAfter, if_pos hcontinues]⟩
    · exact ⟨1, by rw [stateAfter, if_neg hcontinues]⟩

theorem exists_stateAfter_eq_none (hs : p.IsSound) (hf : p.ReadsFinitely w)
    (hg : ∀ n q, stateAfter w n p = some q → q.reader.inclusion.size ≤ 1 ∨ ¬ q.GrowsNext w) :
    ∃ n, stateAfter w n p = none :=
  exists_stateAfter_eq_none_of_isFinite hs
    (fun _ _ hq => (stateAfter_induction hf hq fun _ h hcontinues => h.step hcontinues).isFinite) hg

/-- A run whose steps come to an end gives one answer with all fuel that suffices. -/
theorem exists_run_eq {n : Nat} (hs : p.IsSound) (hf : p.ReadsFinitely w) (h : stateAfter w n p = none) :
    ∃ r : Run, r.ending.IsDefinite ∧ ∀ fuel ≥ n, p.run w fuel = r := by
  obtain ⟨r, hr⟩ := Option.isSome_iff_exists.1 (isSome_outcomeWithin.2 h)
  have hdefinite := isDefinite_outcomeWithin hf hr
  exact ⟨r, hdefinite, fun fuel hfuel => run_eq_of_outcomeWithin hr hs.done_eq hdefinite hfuel⟩

theorem readsFinitely_start {tokens : List Token} {options : Options} {finder : Finder} {es : List Event}
    (h : start { tokens } options finder = (.ok p, es)) (hw : finder.ResolvesNothing w ∨ w.LexesFinitely) :
    p.ReadsFinitely w := by
  obtain ⟨macros, -, rfl⟩ := start_eq h
  refine ⟨?_, hw⟩
  simp [Inclusion.IsFinite, Inclusion.Ends, Inclusion.sources, initial, Ending.repeats]

/-- Expansion always ends: if no file is included, a run over finitely many tokens ends after finitely many steps,
whatever the macros are.  All fuel from there on gives the same tokens and the same end, which is the end of the input
or a failure that is reported. -/
theorem run_ends_without_files {tokens : List Token} {options : Options} {finder : Finder} {es : List Event}
    (hstart : start { tokens } options finder = (.ok p, es)) (hfinder : finder.ResolvesNothing w) :
    ∃ bound, stateAfter w bound p = none ∧
      ∃ r : Run, r.ending.IsDefinite ∧ ∀ fuel ≥ bound, p.run w fuel = r := by
  have hs := isSound_start hstart
  have hf := readsFinitely_start hstart (.inl hfinder)
  have hinput : p.ReadsInputOnly w := by
    obtain ⟨macros, -, rfl⟩ := start_eq hstart
    exact ⟨Nat.le_refl 1, hfinder⟩
  obtain ⟨n, hn⟩ := exists_stateAfter_eq_none hs hf fun n q hq =>
    .inl (stateAfter_induction hinput hq fun q hq hcontinues => hq.step hcontinues).size_le
  exact ⟨n, hn, exists_run_eq hs hf hn⟩

/-- A macro that calls itself twice, and whose body leaves the first of the calls open. -/
theorem run_ends_without_files_recursive :
    let w : World := { workingDirectory := {} }
    let call := [symbol "?", var "F", symbol "("]
    let tokens := [operator "-", atom "define", symbol "(",
        var "F", symbol "(", var "X", symbol ")", symbol ","] ++ call ++ [var "X"] ++ call ++
      [var "X", symbol ")", symbol ")", symbol "."] ++ call ++ [atom "a", symbol ")"]
    let p := initial { tokens } {} (.fixed [])
    start { tokens } {} (.fixed []) = (.ok p, []) ∧ (Finder.fixed []).ResolvesNothing w ∧
      ∃ bound, stateAfter w bound p = none ∧
        ∃ r : Run, r.ending.IsDefinite ∧ ∀ fuel ≥ bound, p.run w fuel = r := by
  intro w call tokens p
  have hstart : start { tokens } {} (.fixed []) = (.ok p, []) := rfl
  have hfinder : (Finder.fixed []).ResolvesNothing w := by
    intro library name directory path h
    cases h
  exact ⟨hstart, hfinder, run_ends_without_files hstart hfinder⟩

end Preprocessor

end ErlangMacros
