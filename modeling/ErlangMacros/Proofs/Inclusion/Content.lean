import ErlangMacros.Proofs.Inclusion.Level

/-!
# The tokens in the open sources

A source gives the tokens that it has left, among them one that comes for ever if its text does not end.  Reading a
token from the open sources gives one of these, and leaves no others behind (`Inclusion.Holds.read`).
-/

namespace ErlangMacros

/-- The tokens of a text, also one that comes for ever. -/
def Lexing.Gives (l : Lexing) (t : Token) : Prop :=
  t ∈ l.tokens ∨ l.ending = .repeating t

namespace Source

/-- The tokens that a source has left, also one that comes for ever. -/
def Gives (s : Source) (t : Token) : Prop :=
  t ∈ s.pending ∨ s.stream.Gives t

private theorem gives_of_next {s s' : Source} {t : Token} (h : s.next = (.token t, s')) : s.Gives t := by
  unfold next at h
  split at h
  · next hp =>
    cases h
    exact .inl (by simp [hp])
  · unfold pull at h
    split at h
    · next ht =>
      cases h
      exact .inr (.inl (by simp [ht]))
    · split at h
      · cases h
      · cases h
      · next he =>
        cases h
        exact .inr (.inr he)

private theorem gives_next {s : Source} {t : Token} (h : s.next.2.Gives t) : s.Gives t := by
  unfold next at h
  split at h
  · next hp => exact h.imp_left fun h => by simp [hp, h]
  · unfold pull at h
    split at h
    · next ht => exact h.imp_right (Or.imp_left fun h => by simp [ht, h])
    · split at h
      · exact h
      · exact h.imp_right (Or.imp_right nofun)
      · exact h

private theorem gives_putBack {s : Source} {t u : Token} (h : (s.putBack t).Gives u) : u = t ∨ s.Gives u := by
  rcases h with h | h
  · exact (List.mem_cons.1 h).imp_right .inl
  · exact .inr (.inr h)

private theorem gives_peek {s : Source} {t : Token} (h : s.peek.2.Gives t) : s.Gives t := by
  unfold peek at h
  rcases hn : s.next with ⟨u | _ | e, s'⟩ <;> rw [hn] at h
  · rcases gives_putBack h with rfl | h
    · exact gives_of_next hn
    · exact gives_next (hn ▸ h)
  · exact gives_next (hn ▸ h)
  · exact gives_next (hn ▸ h)

end Source

namespace Inclusion

/-- The open sources have only tokens of a kind left. -/
def Holds (G : Token → Prop) (i : Inclusion) : Prop :=
  ∀ s ∈ i.sources, ∀ t, s.Gives t → G t

variable {G : Token → Prop} {i : Inclusion}

private theorem holds_readThrough {current : Source} {outer : List Source}
    (h : ∀ s ∈ current :: outer, ∀ t, s.Gives t → G t) :
    (∀ s ∈ (readThrough current outer).2.1 :: (readThrough current outer).2.2, ∀ t, s.Gives t → G t) ∧
      ∀ t, (readThrough current outer).1 = .token t → G t := by
  induction outer generalizing current with
  | nil =>
    obtain ⟨hcurrent, -⟩ := List.forall_mem_cons.1 h
    refine ⟨by simpa [readThrough] using fun t ht => hcurrent t (Source.gives_next ht), fun t ht => ?_⟩
    exact hcurrent t (Source.gives_of_next (Prod.ext ht rfl))
  | cons o outer ih =>
    obtain ⟨hcurrent, houter⟩ := List.forall_mem_cons.1 h
    unfold readThrough
    split
    · exact ih houter
    · next current' _ hn =>
      refine ⟨List.forall_mem_cons.2 ⟨fun t ht => hcurrent t (Source.gives_next (hn ▸ ht)), houter⟩, fun t ht => ?_⟩
      cases ht
      exact hcurrent t (Source.gives_of_next hn)

private theorem holds_peekThrough {ss : List Source} (h : ∀ s ∈ ss, ∀ t, s.Gives t → G t) :
    ∀ s ∈ (peekThrough ss).2, ∀ t, s.Gives t → G t := by
  induction ss with
  | nil => simp [peekThrough]
  | cons s outer ih =>
    obtain ⟨hs, houter⟩ := List.forall_mem_cons.1 h
    unfold peekThrough
    split
    · next hp =>
      exact List.forall_mem_cons.2 ⟨fun t ht => hs t (Source.gives_peek (hp ▸ ht)), ih houter⟩
    · next hp => exact List.forall_mem_cons.2 ⟨fun t ht => hs t (Source.gives_peek (hp ▸ ht)), houter⟩

theorem Holds.read {t : Token} {i' : Inclusion} (hi : i.Holds G) (h : i.read true = (.token t, i')) :
    i'.Holds G ∧ G t := by
  obtain ⟨hsources, htoken⟩ := holds_readThrough hi
  unfold Inclusion.read at h
  obtain ⟨ht, rfl⟩ := Prod.mk.inj h
  exact ⟨hsources, htoken t ht⟩

theorem Holds.putBack {t : Token} (hi : i.Holds G) (ht : G t) :
    Holds G { i with current := i.current.putBack t } := by
  obtain ⟨hcurrent, houter⟩ := List.forall_mem_cons.1 hi
  refine List.forall_mem_cons.2 ⟨fun u hu => ?_, houter⟩
  rcases Source.gives_putBack hu with rfl | hu
  · exact ht
  · exact hcurrent u hu

theorem Holds.setFile (hi : i.Holds G) (name : Text) (line directiveLine : Int) :
    Holds G { i with current := i.current.setFile name line directiveLine } :=
  List.forall_mem_cons.2 ⟨(List.forall_mem_cons.1 hi).1, (List.forall_mem_cons.1 hi).2⟩

theorem Holds.push {s : Source} {i' : Inclusion} (hi : i.Holds G) (hs : ∀ t, s.Gives t → G t)
    (h : i.push s = .ok i') : i'.Holds G := by
  rw [(push_eq_ok h).2]
  exact List.forall_mem_cons.2 ⟨hs, hi⟩

theorem Holds.peek (hi : i.Holds G) : i.peek.2.Holds G := by
  rw [Holds, i.peek_eq.2.1]
  exact holds_peekThrough hi

end Inclusion

end ErlangMacros
