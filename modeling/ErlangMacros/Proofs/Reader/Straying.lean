import ErlangMacros.Proofs.Reader.Growth
import ErlangMacros.Proofs.Reader.Supply

/-!
# Tokens that stray

Tokens that were read from sources are put back into the source that is current then.  A token strays if the source that
it was read from has been left in between (`Strays`).  Otherwise putting tokens back restores what each of the sources
supplies that are still open (`Takes.recedes_unread`), and not only what they supply together.
-/

namespace ErlangMacros

open Lexing

namespace Inclusion

/-- A token is read from the first source that is not at its end, and those before it are left. -/
theorem exists_next_of_readThrough {current s' : Source} {outer outer' : List Source} {t : Token}
    (h : readThrough current outer = (.token t, s', outer')) :
    ∃ s, s :: outer' <:+ current :: outer ∧ s.next = (.token t, s') := by
  induction outer generalizing current with
  | nil =>
    obtain ⟨hp, rfl, rfl⟩ : current.next.1 = .token t ∧ current.next.2 = s' ∧ [] = outer' := by
      simpa [readThrough] using h
    exact ⟨current, List.suffix_rfl, Prod.ext hp rfl⟩
  | cons o outer ih =>
    unfold readThrough at h
    split at h
    · obtain ⟨s, hsuffix, hnext⟩ := ih h
      exact ⟨s, hsuffix.trans (List.suffix_cons _ _), hnext⟩
    · next hn =>
      cases h
      exact ⟨current, List.suffix_rfl, hn⟩

private theorem supplies_peekThrough (ss : List Source) :
    ((peekThrough ss).2.map fun s => supply [s.rest]) = ss.map fun s => supply [s.rest] := by
  induction ss with
  | nil => rfl
  | cons s outer ih =>
    have hs := s.supply_peek []
    unfold peekThrough
    split
    · next hp =>
      rw [hp] at hs
      rw [List.map_cons, List.map_cons, ih, hs]
    · next hp =>
      rw [hp] at hs
      rw [List.map_cons, List.map_cons, hs]

end Inclusion

namespace Reader

variable {r r' r'' : Reader} {t : Token} {c : Consumed} {cs : List Consumed}

/-- What each of the open sources supplies, from the inside out. -/
def supplies (r : Reader) : List (Stream' (Option Token)) :=
  r.inclusion.sources.map fun s => Lexing.supply [s.rest]

theorem length_supplies (r : Reader) : r.supplies.length = r.inclusion.size :=
  List.length_map _

theorem supplies_peek (r : Reader) : r.peek.2.supplies = r.supplies := by
  unfold supplies
  rcases r.inclusion_peek with h | h <;> rw [h]
  rw [r.inclusion.peek_eq.2.1]
  exact Inclusion.supplies_peekThrough _

/-- A token is read from an expansion, or it is the head of what one of the sources supplies. -/
theorem supplies_read (h : r.read = (.token t, r')) :
    (r'.inclusion = r.inclusion ∧ ∃ f ∈ r.frames, r'.depth = f.depth) ∨
      (r'.depth = 0 ∧ ∃ s below, r'.supplies = s :: below ∧ Stream'.cons (some t) s :: below <:+ r.supplies) := by
  rcases read_cases h with ⟨f, fs, hpop, rfl⟩ | ⟨-, i, hi, rfl⟩
  · exact .inl ⟨rfl, f, (mem_of_popFrames hpop).1, rfl⟩
  · obtain ⟨hp, rfl⟩ := Prod.mk.inj hi
    obtain ⟨s, hsuffix, hnext⟩ := Inclusion.exists_next_of_readThrough (Prod.ext hp rfl)
    refine .inr ⟨rfl, _, _, rfl, ?_⟩
    rw [← Source.supply_next hnext []]
    exact hsuffix.map fun s => Lexing.supply [s.rest]

private theorem supplies_unread {s : Stream' (Option Token)} {below : List (Stream' (Option Token))}
    (h : r.supplies = s :: below) (cs : List Consumed) :
    (r.unread cs).supplies = ((sourced cs).map some ++ₛ s) :: below := by
  induction cs with
  | nil => exact h
  | cons c cs ih =>
    rw [unread, List.foldr_cons, ← unread]
    by_cases hc : c.depth = 0
    · rw [sourced_cons_of_eq hc, List.map_cons, Stream'.cons_append_stream, putBack, if_pos hc]
      obtain ⟨hs, hbelow⟩ := List.cons.inj ih
      rw [← hs, ← hbelow, ← Source.supply_putBack]
      rfl
    · rw [sourced_cons_of_ne hc, ← ih, supplies, (expanded_putBack hc).2, supplies]

/-- Sources have been left, and the one that is current has lost some tokens at its front. -/
def Recedes (r r' : Reader) : Prop :=
  ∃ (ts : List Token) (s : Stream' (Option Token)) (below : List (Stream' (Option Token))),
    r'.supplies = s :: below ∧ (ts.map some ++ₛ s) :: below <:+ r.supplies

theorem Recedes.of_eq (h : r'.supplies = r.supplies) : r.Recedes r' :=
  ⟨[], _, _, rfl, h ▸ List.suffix_rfl⟩

theorem Recedes.trans (h : r.Recedes r') (h' : r'.Recedes r'') : r.Recedes r'' := by
  obtain ⟨ts, s, below, hr', hsuffix⟩ := h
  obtain ⟨ts', s', below', hr'', hsuffix'⟩ := h'
  rw [hr', List.suffix_cons_iff] at hsuffix'
  rcases hsuffix' with hsame | hleft
  · obtain ⟨rfl, rfl⟩ := List.cons.inj hsame
    refine ⟨ts ++ ts', s', below', hr'', ?_⟩
    rwa [List.map_append, Stream'.append_append_stream]
  · exact ⟨ts', s', below', hr'', hleft.trans ((List.suffix_cons _ _).trans hsuffix)⟩

theorem recedes_of_read (h : r.read = (.token t, r')) : r.Recedes r' := by
  rcases supplies_read h with ⟨hinclusion, -⟩ | ⟨-, s, below, hr', hsuffix⟩
  · exact .of_eq (by rw [supplies, hinclusion, supplies])
  · exact ⟨[t], s, below, hr', hsuffix⟩

theorem Takes.recedes (h : Takes r cs r') : r.Recedes r' := by
  induction h with
  | nil r => exact .of_eq rfl
  | cons hread _ ih => exact (recedes_of_read hread).trans ih

/-- One of the tokens was read from a source that has been left since. -/
def Strays (r : Reader) (cs : List Consumed) (r' : Reader) : Prop :=
  ∃ before c after r₁, cs = before ++ c :: after ∧ Takes r (before ++ [c]) r₁ ∧ Takes r₁ after r' ∧ c.depth = 0 ∧
    r'.inclusion.size < r₁.inclusion.size

theorem Strays.size_lt (h : Strays r cs r') : r'.inclusion.size < r.inclusion.size := by
  obtain ⟨before, c, after, r₁, -, htakes, -, -, hlt⟩ := h
  exact Nat.lt_of_lt_of_le hlt htakes.size_le

/-- Tokens that do not stray were all read from the source that is current then, and one after the other. -/
theorem Takes.supplies_eq (h : Takes r cs r') (hr : r.IsNested) (hstray : ¬ Strays r cs r') :
    ∃ s below, r'.supplies = s :: below ∧ ((sourced cs).map some ++ₛ s) :: below <:+ r.supplies := by
  induction h with
  | nil r => exact ⟨_, _, rfl, List.suffix_rfl⟩
  | @cons r r₁ r₂ t cs hread hrest ih =>
    have htakes := (Takes.nil r₁).cons hread
    have hstray' : ¬ Strays r₁ cs r₂ := by
      rintro ⟨before, c, after, r', hcs, hbefore, hafter⟩
      exact hstray ⟨r₁.consumed t :: before, c, after, r', by rw [hcs]; rfl, hbefore.cons hread, hafter⟩
    obtain ⟨s, below, hr₂, hsuffix⟩ := ih (hr.of_read hread).1 hstray'
    refine ⟨s, below, hr₂, ?_⟩
    rcases supplies_read hread with ⟨hinclusion, f, hf, hdepth⟩ | ⟨hdepth, s₁, below₁, hr₁, hsuffix₁⟩
    · have hne : r₁.depth ≠ 0 := by
        have := hr f hf
        omega
      rwa [sourced_cons_of_ne hne, supplies, ← hinclusion, ← supplies]
    · -- the source of the first token has not been left, so all others come from it too
      have hsize : r₁.inclusion.size ≤ r₂.inclusion.size := by
        by_contra hlt
        exact hstray ⟨[], _, cs, r₁, rfl, htakes, hrest, hdepth, Nat.lt_of_not_le hlt⟩
      have hlength := Nat.le_antisymm hsize hrest.size_le
      rw [← length_supplies, ← length_supplies, hr₁, hr₂] at hlength
      rw [hr₁] at hsuffix
      obtain ⟨rfl, rfl⟩ := List.cons.inj (hsuffix.eq_of_length hlength.symm)
      rw [sourced_cons_of_eq hdepth, List.map_cons, Stream'.cons_append_stream]
      exact hsuffix₁

/-- Putting back tokens that do not stray restores what every source supplies that has not been left. -/
theorem Takes.recedes_unread (h : Takes r cs r') (hr : r.IsNested) (hstray : ¬ Strays r cs r') :
    r.Recedes (r'.unread cs) := by
  obtain ⟨s, below, hr', hsuffix⟩ := h.supplies_eq hr hstray
  exact ⟨[], _, below, supplies_unread hr' cs, hsuffix⟩

end Reader

end ErlangMacros
