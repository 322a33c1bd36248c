import ErlangMacros.Proofs.Reader.Flat

/-!
# Where tokens are put back

Putting back the tokens that were read restores the flat list of what waits to be read, but not the levels of the
tokens: those that come from sources all go to the source that is current then (`levels_unread`).  If reading them led
out of a file, they end up at a lower level than before, and the source that is current has more tokens left than
before reading (`Inclusion.Grows`).  Without that the levels are restored too (`Takes.levels_restored`).
-/

namespace ErlangMacros

namespace Inclusion

/-- A source that has tokens left gets more of them. -/
def Grows (i i' : Inclusion) : Prop :=
  ∃ level ∈ i.levels, i.levels.count level < i'.levels.count level

instance (i i' : Inclusion) : Decidable (i.Grows i') :=
  inferInstanceAs (Decidable (∃ level ∈ i.levels, _))

private theorem level_le_length {ss : List Source} {level : Nat} (h : level ∈ (leveled ss).map Prod.snd) :
    1 ≤ level ∧ level ≤ ss.length := by
  induction ss with
  | nil => simp [leveled] at h
  | cons s outer ih =>
    rw [leveled, List.map_append, List.mem_append] at h
    rcases h with h | h
    · obtain ⟨-, rfl⟩ : _ ∧ outer.length + 1 = level := by simpa using h
      simp
    · have := ih h
      rw [List.length_cons]
      omega

/-- A token that is left stands in one of the open sources. -/
theorem level_le_size {i : Inclusion} {level : Nat} (h : level ∈ i.levels) : 1 ≤ level ∧ level ≤ i.size :=
  level_le_length h

/-- Tokens of inner sources come first. -/
theorem pairwise_levels (i : Inclusion) : i.levels.Pairwise (· ≥ ·) := by
  unfold levels
  induction i.sources with
  | nil => exact .nil
  | cons s outer ih =>
    rw [leveled, List.map_append, List.pairwise_append]
    refine ⟨?_, ih, ?_⟩
    · simp [List.pairwise_iff_getElem]
    · intro a ha b hb
      obtain ⟨-, rfl⟩ : _ ∧ outer.length + 1 = a := by simpa using ha
      exact Nat.le_succ_of_le (level_le_length hb).2

/-- No source grows by reading. -/
theorem not_grows_of_suffix {i i' : Inclusion} (h : i'.levels <:+ i.levels) : ¬ i.Grows i' := by
  rintro ⟨level, -, hlt⟩
  exact Nat.not_lt.2 (h.sublist.count_le level) hlt

end Inclusion

namespace Reader

theorem levels_peek {r : Reader} (hi : r.inclusion.IsFinite) : r.peek.2.inclusion.levels = r.inclusion.levels := by
  rw [Inclusion.levels, leveled_peek hi, ← Inclusion.levels]

/-- A token that is read from a source stands in the innermost of those that have tokens left. -/
theorem level_le_of_read {r r' : Reader} {t : Token} {level : Nat} (h : r.read = (.token t, r')) (hd : r'.depth = 0)
    (hr : r.IsNested) (hi : r.inclusion.IsFinite) (hlevel : level ∈ r.inclusion.levels) :
    level ≤ r'.inclusion.size := by
  rcases read_token h hi with ⟨-, -, f, hf, hdepth⟩ | ⟨-, -, -, -, hleveled⟩
  · have hpos := hr f hf
    omega
  · have hlevels : r.inclusion.levels = r'.inclusion.size :: r'.inclusion.levels := by
      rw [Inclusion.levels, hleveled, List.map_cons, ← Inclusion.levels]
    have hsorted := r.inclusion.pairwise_levels
    rw [hlevels, List.pairwise_cons] at hsorted
    rw [hlevels] at hlevel
    rcases List.mem_cons.1 hlevel with rfl | hlevel
    · exact Nat.le_refl _
    · exact hsorted.1 level hlevel

/-- Tokens that are put back into the sources all go to the current one. -/
theorem levels_unread (r : Reader) (cs : List Consumed) :
    (r.unread cs).inclusion.levels =
        List.replicate (cs.countP (·.depth = 0)) r.inclusion.size ++ r.inclusion.levels ∧
      (r.unread cs).inclusion.size = r.inclusion.size := by
  induction cs with
  | nil => exact ⟨rfl, rfl⟩
  | cons c cs ih =>
    obtain ⟨hlevels, hsize⟩ := ih
    show ((r.unread cs).putBack c).inclusion.levels = _ ∧ ((r.unread cs).putBack c).inclusion.size = _
    refine ⟨?_, ((r.unread cs).putBack_eq c).2.1.trans hsize⟩
    by_cases hc : c.depth = 0
    · rw [Inclusion.levels, (leveled_putBack hc).2, List.map_cons, hsize]
      simp only [List.countP_cons, hc, decide_true, if_true, List.replicate_succ, List.cons_append]
      rw [← hlevels]
      rfl
    · rw [(expanded_putBack hc).2, hlevels]
      simp [hc]

namespace Takes

variable {r r' : Reader} {cs : List Consumed}

theorem size_le (h : Takes r cs r') : r'.inclusion.size ≤ r.inclusion.size := by
  induction h with
  | nil r => exact Nat.le_refl _
  | @cons r r₁ r₂ t cs hread _ ih =>
    have := r.size_inclusion_read_le true
    rw [hread] at this
    exact Nat.le_trans ih this

/-- The levels of the tokens that are read from sources.  The last of them is the level of the source that is current
then. -/
theorem levels_eq (h : Takes r cs r') (hr : r.IsNested) (hi : r.inclusion.IsFinite) :
    ∃ ls, r.inclusion.levels = ls ++ r'.inclusion.levels ∧ ls.length = cs.countP (·.depth = 0) ∧
      (∀ l ∈ ls, r'.inclusion.size ≤ l) ∧ (ls = [] ∧ r'.inclusion = r.inclusion ∨ r'.inclusion.size ∈ ls) := by
  induction h with
  | nil r => exact ⟨[], rfl, rfl, by simp, .inl ⟨rfl, rfl⟩⟩
  | @cons r r₁ r₂ t cs hread hrest ih =>
    have hi₁ := ends_of_read hread hi rfl
    obtain ⟨ls, hlevels, hlength, hle, hlast⟩ := ih (hr.of_read hread).1 hi₁
    rcases read_token hread hi with ⟨-, hinclusion, f, hf, hd⟩ | ⟨-, -, hd, -, hleveled⟩
    · -- from an expansion: the sources stay as they are
      have hpos : r₁.depth ≠ 0 := by
        have := hr f hf
        omega
      refine ⟨ls, ?_, ?_, hle, ?_⟩
      · rw [← hinclusion, hlevels]
      · rw [hlength, List.countP_cons]
        simp [consumed, hpos]
      · rwa [← hinclusion]
    · -- from a source: later tokens come from it or from sources around it
      refine ⟨r₁.inclusion.size :: ls, ?_, ?_, ?_, ?_⟩
      · rw [Inclusion.levels, hleveled, List.map_cons, List.cons_append, ← hlevels]
        rfl
      · rw [List.length_cons, hlength, List.countP_cons]
        simp [consumed, hd]
      · exact List.forall_mem_cons.2 ⟨hrest.size_le, hle⟩
      · rcases hlast with ⟨-, hsame⟩ | hlast
        · exact .inr (by simp [hsame])
        · exact .inr (List.mem_cons_of_mem _ hlast)

theorem levels_suffix (h : Takes r cs r') (hr : r.IsNested) (hi : r.inclusion.IsFinite) :
    r'.inclusion.levels <:+ r.inclusion.levels := by
  obtain ⟨ls, hlevels, -⟩ := h.levels_eq hr hi
  exact ⟨ls, hlevels.symm⟩

/-- If the tokens that are put back come from one source, the levels are restored. -/
theorem levels_unread_of_size_le (h : Takes r cs r') (hr : r.IsNested) (hi : r.inclusion.IsFinite)
    (hsize : r.inclusion.size ≤ r'.inclusion.size) : (r'.unread cs).inclusion.levels = r.inclusion.levels := by
  obtain ⟨ls, hlevels, hlength, hle, -⟩ := h.levels_eq hr hi
  have hall : ∀ l ∈ ls, l = r'.inclusion.size := by
    intro l hl
    have hmem : l ∈ r.inclusion.levels := by
      rw [hlevels]
      exact List.mem_append_left _ hl
    have hlevel := (Inclusion.level_le_size hmem).2
    have hge := hle l hl
    omega
  rw [(r'.levels_unread cs).1, hlevels, ← hlength, ← List.eq_replicate_of_mem hall]

/-- If the tokens that are put back come from several sources, the outermost of these grows. -/
theorem grows_unread {r₀ : Reader} {before : List Consumed} (h₀ : Takes r₀ before r) (hr : r₀.IsNested)
    (hi : r₀.inclusion.IsFinite) {ls : List Nat} (hlevels : r.inclusion.levels = ls ++ r'.inclusion.levels)
    (hlength : ls.length = cs.countP (·.depth = 0)) (hlast : r'.inclusion.size ∈ ls)
    (hdeeper : ∃ l ∈ ls, r'.inclusion.size < l) : r₀.inclusion.Grows (r'.unread cs).inclusion := by
  obtain ⟨l, hl, hlt⟩ := hdeeper
  obtain ⟨first, hfirst, -⟩ := h₀.levels_eq hr hi
  rw [hlevels] at hfirst
  -- what was read before stands at least as deep as `l`
  have hfirst_count : first.count r'.inclusion.size = 0 := by
    rw [List.count_eq_zero]
    intro hmem
    have hsorted := r₀.inclusion.pairwise_levels
    rw [hfirst, List.pairwise_append] at hsorted
    have := hsorted.2.2 _ hmem l (List.mem_append_left _ hl)
    omega
  have hls_count : ls.count r'.inclusion.size < ls.length := by
    refine Nat.lt_of_le_of_ne List.count_le_length fun heq => ?_
    have := List.count_eq_length.1 heq l hl
    omega
  refine ⟨r'.inclusion.size, ?_, ?_⟩
  · rw [hfirst]
    simp [hlast]
  · rw [hfirst, (r'.levels_unread cs).1, ← hlength]
    simp only [List.count_append, List.count_replicate_self, hfirst_count]
    omega

/-- Without growth putting tokens back restores the levels.  A single source does not grow. -/
theorem levels_restored {r₀ : Reader} {before : List Consumed} (h₀ : Takes r₀ before r) (h : Takes r.peek.2 cs r')
    (hr : r₀.IsNested) (hi : r₀.inclusion.IsFinite)
    (hg : r₀.inclusion.size ≤ 1 ∨ ¬ r₀.inclusion.Grows (r'.unread cs).inclusion) :
    (r'.unread cs).inclusion.levels = r.inclusion.levels := by
  have hpeek := levels_peek (h₀.isFinite hi)
  have hn := (h₀.places hr).peek
  have hf : r.peek.2.inclusion.IsFinite := ends_peek (h₀.isFinite hi) rfl
  rcases hg with hone | hg
  · have hsize : r.peek.2.inclusion.size ≤ r'.inclusion.size := by
      have hpos : 1 ≤ r'.inclusion.size := Nat.succ_le_succ (Nat.zero_le _)
      have hbefore := h₀.size_le
      rw [r.size_inclusion_peek]
      omega
    rw [h.levels_unread_of_size_le hn hf hsize, hpeek]
  · obtain ⟨ls, hlevels, hlength, hle, hlast⟩ := h.levels_eq hn hf
    rw [hpeek] at hlevels
    have hall : ∀ l ∈ ls, l = r'.inclusion.size := by
      intro l hl
      rcases Nat.eq_or_lt_of_le (hle l hl) with heq | hlt
      · exact heq.symm
      · rcases hlast with ⟨rfl, -⟩ | hlast
        · cases hl
        · exact absurd (grows_unread h₀ hr hi hlevels hlength hlast ⟨l, hl, hlt⟩) hg
    rw [(r'.levels_unread cs).1, hlevels, ← hlength, ← List.eq_replicate_of_mem hall]

end Takes

end Reader

end ErlangMacros
