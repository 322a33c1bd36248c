import ErlangMacros.Proofs.Reader.Flat

/-!
# How far a reader looks ahead

A token that is only looked at waits in its source until it is read.  As long as no tokens are put back, at most one token
waits so in all sources together, and it is the next one that they give (`Reader.IsTight`).  As soon as a token has been
read from a source, none waits (`Reader.IsClear`).
-/

namespace ErlangMacros

namespace Source

variable {s : Source}

private theorem pending_next (s : Source) : s.next.2.pending = s.pending.tail := by
  unfold next pull
  rcases hpending : s.pending with _ | ⟨t, ts⟩ <;> dsimp only
  · split
    · rfl
    · split
      · rfl
      · rfl
      · exact hpending
  · rfl

private theorem pending_of_isExhausted (h : s.isExhausted = true) : s.pending = [] := by
  simp only [isExhausted, Bool.and_eq_true, List.isEmpty_iff] at h
  exact h.1.1

theorem isExhausted_of_next {s' : Source} (h : s.next = (.finished, s')) : s.isExhausted = true :=
  s.next_fst_eq_finished_iff.1 (by rw [h])

/-- A look at the next token makes at most one token wait. -/
theorem length_pending_peek (h : s.pending.length ≤ 1) : s.peek.2.pending.length ≤ 1 := by
  have htail := s.pending_next
  have hnil : s.pending.tail = [] := List.length_eq_zero_iff.1 (by rw [List.length_tail]; omega)
  unfold peek
  rcases hs : s.next with ⟨t | _ | e, s'⟩ <;> rw [hs, hnil] at htail <;> dsimp only at htail ⊢
  · simp [putBack, htail]
  · simp [htail]
  · simp [htail]

/-- An exhausted source stays so when it is looked at. -/
theorem peek_of_isExhausted (h : s.isExhausted = true) :
    s.peek.1 = .finished ∧ s.peek.2.isExhausted = true := by
  simp only [isExhausted, Bool.and_eq_true, List.isEmpty_iff, decide_eq_true_eq] at h
  obtain ⟨⟨hpending, htokens⟩, hending⟩ := h
  simp [peek, next, pull, isExhausted, hpending, htokens, hending]

end Source

namespace Inclusion

variable {s : Source} {ss : List Source}

/-- At most one token waits in the sources, and it is the next one that they give. -/
inductive IsTight : List Source → Prop where
  | first {s : Source} {ss : List Source} (one : s.pending.length ≤ 1) (none : ∀ o ∈ ss, o.pending = []) :
      IsTight (s :: ss)
  | later {s : Source} {ss : List Source} (exhausted : s.isExhausted = true) (rest : IsTight ss) : IsTight (s :: ss)

private theorem isTight_of_forall (h : ∀ o ∈ s :: ss, o.pending = []) : IsTight (s :: ss) := by
  obtain ⟨hs, hss⟩ := List.forall_mem_cons.1 h
  exact .first (by simp [hs]) hss

theorem IsTight.length_le (h : IsTight ss) : (ss.flatMap (·.pending)).length ≤ 1 := by
  induction h with
  | @first s ss hone hnone =>
    have hrest : ss.flatMap (·.pending) = [] := List.flatMap_eq_nil_iff.2 hnone
    simpa [hrest] using hone
  | @later s ss hexhausted _ ih =>
    simpa [Source.pending_of_isExhausted hexhausted] using ih

/-- When something is read from the sources, no token waits in them any more. -/
theorem IsTight.readThrough {current : Source} {outer : List Source} (h : IsTight (current :: outer)) :
    ∀ s ∈ (Inclusion.readThrough current outer).2.1 :: (Inclusion.readThrough current outer).2.2, s.pending = [] := by
  have hnil {s : Source} (hs : s.pending.length ≤ 1) : s.next.2.pending = [] := by
    rw [s.pending_next]
    exact List.length_eq_zero_iff.1 (by rw [List.length_tail]; omega)
  induction outer generalizing current with
  | nil =>
    cases h with
    | first hone _ => exact List.forall_mem_singleton.2 (hnil hone)
    | later _ hrest => cases hrest
  | cons o outer ih =>
    unfold Inclusion.readThrough
    split
    · next hcurrent =>
      cases h with
      | first _ hnone => exact ih (isTight_of_forall hnone)
      | later _ hrest => exact ih hrest
    · next hfinished hcurrent =>
      cases h with
      | first hone hnone =>
        have hpending := hnil hone
        rw [hcurrent] at hpending
        exact List.forall_mem_cons.2 ⟨hpending, hnone⟩
      | later hexhausted _ =>
        have hpull := current.next_fst_eq_finished_iff.2 hexhausted
        rw [hcurrent] at hpull
        exact absurd hpull hfinished

private theorem isTight_peekThrough (hone : s.pending.length ≤ 1) (hnone : ∀ o ∈ ss, o.pending = []) :
    IsTight (Inclusion.peekThrough (s :: ss)).2 := by
  induction ss generalizing s with
  | nil =>
    have hpeek := Source.length_pending_peek hone
    unfold Inclusion.peekThrough
    rcases hs : s.peek with ⟨t | _ | e, s'⟩ <;> rw [hs] at hpeek <;> exact .first hpeek (by simp [peekThrough])
  | cons o outer ih =>
    obtain ⟨ho, houter⟩ := List.forall_mem_cons.1 hnone
    have hpeek := Source.length_pending_peek hone
    unfold Inclusion.peekThrough
    rcases hs : s.peek with ⟨t | _ | e, s'⟩ <;> rw [hs] at hpeek
    · exact .first hpeek hnone
    · -- the source is exhausted, and the one around it is looked at
      have hexhausted := Source.peek_of_isExhausted (Source.isExhausted_of_next (Source.next_of_peek_finished hs))
      rw [hs] at hexhausted
      exact .later hexhausted.2 (ih (by simp [ho]) houter)
    · exact .first hpeek hnone

theorem IsTight.peekThrough (h : IsTight ss) : IsTight (Inclusion.peekThrough ss).2 := by
  induction h with
  | first hone hnone => exact isTight_peekThrough hone hnone
  | @later s ss hexhausted _ ih =>
    obtain ⟨hfinished, hpeek⟩ := Source.peek_of_isExhausted hexhausted
    unfold Inclusion.peekThrough
    rcases hs : s.peek with ⟨t | _ | e, s'⟩ <;> rw [hs] at hfinished hpeek <;> cases hfinished
    exact .later hpeek ih

/-- What is reported does not matter. -/
theorem IsTight.setFile {outer : List Source} (h : IsTight (s :: outer)) (filename : Text) (line directiveLine : Int) :
    IsTight (s.setFile filename line directiveLine :: outer) := by
  cases h with
  | first hone hnone => exact .first hone hnone
  | later hexhausted hrest => exact .later hexhausted hrest

end Inclusion

namespace Reader

variable {r r' : Reader} {t : Token} {cs : List Consumed}

/-- No token waits in the sources. -/
def IsClear (r : Reader) : Prop :=
  ∀ s ∈ r.inclusion.sources, s.pending = []

/-- At most one token waits in the sources, and it is the next one that they give. -/
def IsTight (r : Reader) : Prop :=
  Inclusion.IsTight r.inclusion.sources

theorem IsClear.isTight (h : r.IsClear) : r.IsTight :=
  Inclusion.isTight_of_forall h

theorem IsTight.peek (h : r.IsTight) : r.peek.2.IsTight := by
  unfold IsTight
  rcases r.inclusion_peek with hpeek | hpeek <;> rw [hpeek]
  · exact h
  · rw [r.inclusion.peek_eq.2.1]
    exact Inclusion.IsTight.peekThrough h

/-- A token comes from an expansion, or no token waits after it. -/
theorem IsTight.read (h : r.IsTight) (hread : r.read = (.token t, r')) :
    r'.IsTight ∧ (popFrames r.frames = none → r'.IsClear ∧ r'.frames = []) := by
  rcases read_cases hread with ⟨f, fs, hpop, rfl⟩ | ⟨-, i, hi, rfl⟩
  · exact ⟨h, fun hnone => by rw [hpop] at hnone; cases hnone⟩
  · obtain ⟨-, rfl⟩ := Prod.mk.inj hi
    have hclear : IsClear { inclusion := (r.inclusion.read true).2 } := Inclusion.IsTight.readThrough h
    exact ⟨hclear.isTight, fun _ => ⟨hclear, rfl⟩⟩

theorem IsTight.takes (h : r.IsTight) (htakes : Takes r cs r') : r'.IsTight := by
  induction htakes with
  | nil => exact h
  | cons hread _ ih => exact ih (h.read hread).1

/-- When tokens are taken from the sources, none waits after them. -/
theorem IsTight.takes_source (h : r.IsTight) (hframes : r.frames = []) (htakes : Takes r cs r') (hne : cs ≠ []) :
    r'.IsClear := by
  induction htakes with
  | nil => exact absurd rfl hne
  | @cons r r₁ r' t cs hread hrest ih =>
    obtain ⟨hclear, hframes₁⟩ := (h.read hread).2 (by rw [hframes]; rfl)
    cases hrest with
    | nil => exact hclear
    | cons hread' hrest' => exact ih hclear.isTight hframes₁ (List.cons_ne_nil _ _)

end Reader

end ErlangMacros
