import ErlangMacros.Proofs.Reader.Matching

/-!
# Exchanging input that has not been pulled

What a reader does cannot depend on tokens of the input that it has not pulled.  `Reader.Exchanges ys zs r r'` says that
the last tokens of the input are `ys` in `r` and `zs` in `r'`, and that the readers agree in all else.  They match as long
as the first one has not pulled any of these tokens nor met the end of the input (`Reader.isMatching_exchanges`).
-/

namespace ErlangMacros

variable {ys zs : List Token}

namespace Source

/-- The second source is the first with other tokens at the end of its stream, and another end. -/
inductive Exchanges (ys zs : List Token) : Source → Source → Prop where
  | mk {s : Source} {xs : List Token} (reach : Nat) (tokens_eq : s.stream.tokens = xs ++ ys)
      (ending_eq : s.stream.ending = .finished) :
      Exchanges ys zs s { s with stream := { s.stream with tokens := xs ++ zs, reach } }

/-- So many tokens have not been pulled, and the end of the stream has not been met: a source that meets it has come as
far as the stream reaches. -/
structure Spares (ys : List Token) (s : Source) : Prop where
  length_le : ys.length ≤ s.stream.tokens.length
  reach_ne : s.stream.tokens = [] → s.reach ≠ s.stream.reach

instance (s : Source) : Decidable (s.Spares ys) :=
  decidable_of_iff (ys.length ≤ s.stream.tokens.length ∧ (s.stream.tokens = [] → s.reach ≠ s.stream.reach))
    ⟨fun h => ⟨h.1, h.2⟩, fun h => ⟨h.1, h.2⟩⟩

/-- What is spared after reading has been spared before. -/
theorem Spares.of_next {s : Source} (h : s.next.2.Spares ys) : s.Spares ys := by
  unfold next pull at h
  rcases hpending : s.pending with _ | ⟨t, ts⟩ <;> simp only [hpending] at h
  · rcases htokens : s.stream.tokens with _ | ⟨t, ts⟩ <;> simp only [htokens] at h
    · rcases hending : s.stream.ending with _ | e | t <;> simp only [hending] at h
      · exact absurd rfl (h.reach_ne htokens)
      · exact absurd rfl (h.reach_ne rfl)
      · exact h
    · have hlength := h.length_le
      refine ⟨?_, fun hnil => ?_⟩
      · rw [htokens, List.length_cons]
        exact Nat.le_succ_of_le hlength
      · rw [htokens] at hnil
        cases hnil
  · exact ⟨h.length_le, h.reach_ne⟩

private theorem Spares.next_of_peek {s : Source} (h : s.peek.2.Spares ys) : s.next.2.Spares ys := by
  unfold peek at h
  rcases hs : s.next with ⟨t | _ | e, s'⟩ <;> rw [hs] at h
  · exact ⟨h.length_le, h.reach_ne⟩
  · exact h
  · exact h

namespace Exchanges

variable {s s' : Source}

theorem label_eq (h : Exchanges ys zs s s') : s'.label = s.label := by
  cases h
  rfl

theorem putBack (h : Exchanges ys zs s s') (t : Token) : Exchanges ys zs (s.putBack t) (s'.putBack t) := by
  obtain ⟨reach, htokens, hending⟩ := h
  exact .mk reach htokens hending

theorem setFile (h : Exchanges ys zs s s') (filename : Text) (line directiveLine : Int) :
    Exchanges ys zs (s.setFile filename line directiveLine) (s'.setFile filename line directiveLine) := by
  obtain ⟨reach, htokens, hending⟩ := h
  exact .mk reach htokens hending

theorem repeats_eq (h : Exchanges ys zs s s') : s.repeats = false ∧ s'.repeats = false := by
  obtain ⟨-, -, hending⟩ := h
  simp [repeats, hending, Ending.repeats]

/-- The same is read, if none of the tokens at the end is pulled and the end is not met. -/
theorem next (h : Exchanges ys zs s s') (hspares : s.next.2.Spares ys) :
    s'.next.1 = s.next.1 ∧ Exchanges ys zs s.next.2 s'.next.2 := by
  cases h with
  | @mk xs reach htokens hending =>
    rcases hpending : s.pending with _ | ⟨t, ts⟩
    · rcases xs with _ | ⟨x, xs⟩
      · rcases ys with _ | ⟨y, ys⟩
        · have hend : s.next.2 = { s with reach := s.stream.reach } := by
            simp [Source.next, hpending, pull, htokens, hending]
          rw [hend] at hspares
          exact absurd rfl (hspares.reach_ne htokens)
        · have htail : s.next.2.stream.tokens = ys := by simp [Source.next, hpending, pull, htokens]
          have hlength := hspares.length_le
          rw [htail, List.length_cons] at hlength
          omega
      · simp only [Source.next, hpending, pull, htokens, List.cons_append]
        exact ⟨trivial, .mk reach rfl hending⟩
    · simp only [Source.next, hpending]
      exact ⟨trivial, .mk reach htokens hending⟩

theorem peek (h : Exchanges ys zs s s') (hspares : s.peek.2.Spares ys) :
    s'.peek.1 = s.peek.1 ∧ Exchanges ys zs s.peek.2 s'.peek.2 := by
  obtain ⟨hpull, hs₁⟩ := h.next hspares.next_of_peek
  unfold Source.peek
  rcases hs : s.next with ⟨t | _ | e, s₁⟩ <;> rcases hs' : s'.next with ⟨t' | _ | e', s₁'⟩ <;>
    rw [hs, hs'] at hpull hs₁ <;> cases hpull
  · exact ⟨rfl, hs₁.putBack t⟩
  · exact ⟨rfl, hs₁⟩
  · exact ⟨rfl, hs₁⟩

end Exchanges

end Source

namespace Inclusion

/-- The outermost source spares tokens. -/
def Spares (ys : List Token) : List Source → Prop
  | [] => True
  | s :: ss => if ss.isEmpty then s.Spares ys else Spares ys ss

instance decidableSpares : (ss : List Source) → Decidable (Spares ys ss)
  | [] => .isTrue trivial
  | s :: ss =>
    have := decidableSpares ss
    inferInstanceAs (Decidable (if ss.isEmpty then s.Spares ys else Spares ys ss))

private theorem spares_cons {s : Source} {ss : List Source} (h : ss ≠ []) : Spares ys (s :: ss) ↔ Spares ys ss := by
  simp [Spares, h]

/-- Only the innermost source is read, and it may be the outermost one. -/
theorem Spares.of_cons {s s' : Source} {outer : List Source} (h : Spares ys (s' :: outer))
    (hs : s'.Spares ys → s.Spares ys) : Spares ys (s :: outer) := by
  rcases outer with _ | ⟨o, outer⟩
  · exact hs h
  · exact h

private theorem Spares.of_readThrough {current : Source} {outer : List Source}
    (h : Spares ys ((readThrough current outer).2.1 :: (readThrough current outer).2.2)) :
    Spares ys (current :: outer) := by
  induction outer generalizing current with
  | nil => exact h.of_cons Source.Spares.of_next
  | cons o outer ih =>
    unfold readThrough at h
    split at h
    · exact (spares_cons (List.cons_ne_nil o outer)).2 (ih h)
    · exact h

private theorem peekThrough_ne_nil {ss : List Source} (h : ss ≠ []) : (peekThrough ss).2 ≠ [] := by
  rw [← List.length_pos_iff, length_peekThrough]
  exact List.length_pos_iff.2 h

private theorem Spares.of_peekThrough {ss : List Source} (h : Spares ys (peekThrough ss).2) : Spares ys ss := by
  induction ss with
  | nil => exact trivial
  | cons s outer ih =>
    have hpeek : s.peek.2.Spares ys → s.Spares ys := fun hs => hs.next_of_peek.of_next
    unfold peekThrough at h
    split at h
    · next hs =>
      by_cases houter : outer = []
      · rw [hs] at hpeek
        subst houter
        exact h.of_cons hpeek
      · rw [spares_cons (peekThrough_ne_nil houter)] at h
        exact (spares_cons houter).2 (ih h)
    · next hs =>
      rw [hs] at hpeek
      exact h.of_cons hpeek

/-- The outermost sources differ in the tokens at the end of their streams. -/
inductive ExchangesLast (ys zs : List Token) : List Source → List Source → Prop where
  | input {s s' : Source} (input : s.Exchanges ys zs s') : ExchangesLast ys zs [s] [s']
  | file (s : Source) {ss ss' : List Source} (rest : ExchangesLast ys zs ss ss') :
      ExchangesLast ys zs (s :: ss) (s :: ss')

namespace ExchangesLast

variable {s s' : Source} {ss ss' : List Source}

theorem length_eq (h : ExchangesLast ys zs ss ss') : ss'.length = ss.length := by
  induction h with
  | input => rfl
  | file _ _ ih => exact congrArg Nat.succ ih

theorem ne_nil (h : ExchangesLast ys zs ss ss') : ss ≠ [] := by
  cases h <;> exact List.cons_ne_nil _ _

/-- The innermost sources can be changed alike. -/
theorem cons {f : Source → Source} (hf : ∀ {s s' : Source}, s.Exchanges ys zs s' → (f s).Exchanges ys zs (f s'))
    (h : ExchangesLast ys zs (s :: ss) (s' :: ss')) : ExchangesLast ys zs (f s :: ss) (f s' :: ss') := by
  cases h with
  | input hs => exact .input (hf hs)
  | file s hrest => exact .file (f s) hrest

theorem label_eq (h : ExchangesLast ys zs (s :: ss) (s' :: ss')) : s'.label = s.label := by
  cases h with
  | input hs => exact hs.label_eq
  | file => rfl

theorem repeats_eq (h : ExchangesLast ys zs (s :: ss) (s' :: ss')) : s'.repeats = s.repeats := by
  cases h with
  | input hs => rw [hs.repeats_eq.1, hs.repeats_eq.2]
  | file => rfl

theorem any_repeats_eq (h : ExchangesLast ys zs ss ss') :
    (ss'.find? (!·.isExhausted)).any Source.repeats = (ss.find? (!·.isExhausted)).any Source.repeats := by
  induction h with
  | input hs => rw [Extends.any_repeats_singleton, Extends.any_repeats_singleton, hs.repeats_eq.1, hs.repeats_eq.2]
  | @file s ss ss' _ ih =>
    rw [List.find?_cons, List.find?_cons]
    cases s.isExhausted with
    | true => exact ih
    | false => rfl

/-- The innermost source is read alike. -/
theorem next (h : ExchangesLast ys zs (s :: ss) (s' :: ss')) (hspares : Spares ys (s.next.2 :: ss)) :
    s'.next.1 = s.next.1 ∧ ExchangesLast ys zs (s.next.2 :: ss) (s'.next.2 :: ss') := by
  cases h with
  | input hs =>
    obtain ⟨hpull, hs₁⟩ := hs.next hspares
    exact ⟨hpull, .input hs₁⟩
  | file s hrest => exact ⟨rfl, .file _ hrest⟩

theorem readThrough (h : ExchangesLast ys zs (s :: ss) (s' :: ss'))
    (hspares : Spares ys ((Inclusion.readThrough s ss).2.1 :: (Inclusion.readThrough s ss).2.2)) :
    (Inclusion.readThrough s' ss').1 = (Inclusion.readThrough s ss).1 ∧
      ExchangesLast ys zs ((Inclusion.readThrough s ss).2.1 :: (Inclusion.readThrough s ss).2.2)
        ((Inclusion.readThrough s' ss').2.1 :: (Inclusion.readThrough s' ss').2.2) := by
  induction ss generalizing s s' ss' with
  | nil =>
    cases h with
    | input hs => exact (input hs).next hspares
    | file _ hrest => exact absurd rfl hrest.ne_nil
  | cons o ss ih =>
    cases h with
    | @file _ _ ss' hrest =>
      obtain ⟨o', ss', rfl⟩ : ∃ o' rest, ss' = o' :: rest := by
        cases hrest <;> exact ⟨_, _, rfl⟩
      unfold Inclusion.readThrough at hspares ⊢
      rcases hnext : s.next with ⟨t | _ | e, s₁⟩ <;> rw [hnext] at hspares
      · exact ⟨rfl, .file s₁ hrest⟩
      · exact ih hrest hspares
      · exact ⟨rfl, .file s₁ hrest⟩

theorem peekThrough (h : ExchangesLast ys zs ss ss') (hspares : Spares ys (Inclusion.peekThrough ss).2) :
    (Inclusion.peekThrough ss').1 = (Inclusion.peekThrough ss).1 ∧
      ExchangesLast ys zs (Inclusion.peekThrough ss).2 (Inclusion.peekThrough ss').2 := by
  induction h with
  | @input s s' hs =>
    have hpeek : s.peek.2.Spares ys := by
      unfold Inclusion.peekThrough at hspares
      rcases hs₁ : s.peek with ⟨t | _ | e, s₁⟩ <;> rw [hs₁] at hspares <;> exact hspares
    obtain ⟨hpull, hs₁⟩ := hs.peek hpeek
    unfold Inclusion.peekThrough
    rcases hs₂ : s.peek with ⟨t | _ | e, s₁⟩ <;> rcases hs₂' : s'.peek with ⟨t' | _ | e', s₁'⟩ <;>
      rw [hs₂, hs₂'] at hpull hs₁ <;> cases hpull <;> exact ⟨rfl, .input hs₁⟩
  | @file s ss ss' hrest ih =>
    unfold Inclusion.peekThrough at hspares ⊢
    rcases hs₁ : s.peek with ⟨t | _ | e, s₁⟩ <;> rw [hs₁] at hspares
    · exact ⟨rfl, .file s₁ hrest⟩
    · rw [spares_cons (peekThrough_ne_nil hrest.ne_nil)] at hspares
      obtain ⟨hpull, hrest'⟩ := ih hspares
      exact ⟨hpull, .file s₁ hrest'⟩
    · exact ⟨rfl, .file s₁ hrest⟩

end ExchangesLast

end Inclusion

namespace Reader

/-- The second reader is the first with other tokens at the end of the input. -/
structure Exchanges (ys zs : List Token) (r r' : Reader) : Prop where
  frames_eq : r'.frames = r.frames
  sources : Inclusion.ExchangesLast ys zs r.inclusion.sources r'.inclusion.sources
  limit_eq : r'.inclusion.limit = r.inclusion.limit
  depth_eq : r'.depth = r.depth
  callSite_eq : r'.callSite = r.callSite

/-- So many tokens of the input have not been pulled, and its end has not been met. -/
def Spares (ys : List Token) (r : Reader) : Prop :=
  Inclusion.Spares ys r.inclusion.sources

instance (r : Reader) : Decidable (r.Spares ys) :=
  inferInstanceAs (Decidable (Inclusion.Spares ys r.inclusion.sources))

variable {r r' : Reader}

/-- If the tokens are all that is left in the stream of the input, then all of it is exchanged. -/
theorem Exchanges.current_eq (h : Exchanges ys zs r r') (houter : r.inclusion.outer = [])
    (htokens : r.inclusion.current.stream.tokens = ys) :
    r.inclusion.current.stream.ending = .finished ∧ r'.inclusion.outer = [] ∧
      r'.inclusion.current =
        { r.inclusion.current with
            stream := { r.inclusion.current.stream with tokens := zs, reach := r'.inclusion.current.stream.reach } } := by
  have hsources := h.sources
  rcases r' with ⟨frames, ⟨current, outer, limit⟩, depth, site⟩
  rw [Inclusion.sources, Inclusion.sources, houter] at hsources
  cases hsources with
  | input hinput =>
    obtain @⟨xs, reach, htokens', hending⟩ := hinput
    obtain rfl : xs = [] := List.self_eq_append_left.1 (htokens.symm.trans htokens')
    exact ⟨hending, rfl, rfl⟩
  | file _ hrest => cases hrest

theorem Exchanges.push (h : Exchanges ys zs r r') (f : ExpansionFrame) : Exchanges ys zs (r.push f) (r'.push f) :=
  ⟨congrArg (f :: ·) h.frames_eq, h.sources, h.limit_eq, h.depth_eq, h.callSite_eq⟩

theorem Exchanges.putBack (h : Exchanges ys zs r r') (c : Consumed) :
    Exchanges ys zs (r.putBack c) (r'.putBack c) := by
  unfold Reader.putBack
  split
  · exact ⟨h.frames_eq, h.sources.cons fun hs => hs.putBack c.token, h.limit_eq, h.depth_eq, h.callSite_eq⟩
  · rw [h.frames_eq]
    split
    · split
      · exact ⟨rfl, h.sources, h.limit_eq, h.depth_eq, h.callSite_eq⟩
      · exact h.push _
    · exact h.push _

private theorem agrees_read (leave : Bool) (r : Reader) : AgreesAt (Exchanges ys zs) (Spares ys) (·.read leave) r := by
  rcases hpop : popFrames r.frames with _ | ⟨t, f, fs⟩
  · refine ⟨fun hspares => ?_, fun r' h hspares => ?_⟩
    · simp only [read, hpop] at hspares
      cases leave with
      | false => exact Inclusion.Spares.of_cons hspares Source.Spares.of_next
      | true => exact Inclusion.Spares.of_readThrough hspares
    · simp only [read, h.frames_eq, hpop] at hspares ⊢
      cases leave with
      | false =>
        obtain ⟨hpull, hsources⟩ := h.sources.next hspares
        exact ⟨hpull, rfl, hsources, h.limit_eq, rfl, rfl⟩
      | true =>
        obtain ⟨hpull, hsources⟩ := h.sources.readThrough hspares
        exact ⟨hpull, rfl, hsources, h.limit_eq, rfl, rfl⟩
  · refine ⟨fun hspares => ?_, fun r' h _ => ?_⟩
    · simp only [read, hpop] at hspares
      exact hspares
    · simp only [read, h.frames_eq, hpop]
      exact ⟨trivial, rfl, h.sources, h.limit_eq, rfl, rfl⟩

private theorem agrees_peek (r : Reader) : AgreesAt (Exchanges ys zs) (Spares ys) peek r := by
  rcases hpop : popFrames r.frames with _ | ⟨t, f, fs⟩
  · obtain ⟨-, hsources, -⟩ := r.inclusion.peek_eq
    refine ⟨fun hspares => ?_, fun r' h hspares => ?_⟩
    · simp only [peek, hpop, Spares, hsources] at hspares
      exact hspares.of_peekThrough
    · simp only [peek, h.frames_eq, hpop, Spares, hsources] at hspares ⊢
      obtain ⟨hpull, hsources⟩ := h.sources.peekThrough hspares
      obtain ⟨hfst, hsnd, hlimit⟩ := r.inclusion.peek_eq
      obtain ⟨hfst', hsnd', hlimit'⟩ := r'.inclusion.peek_eq
      refine ⟨by rw [hfst, hfst', hpull], rfl, ?_, ?_, h.depth_eq, h.callSite_eq⟩
      · show Inclusion.ExchangesLast ys zs r.inclusion.peek.2.sources r'.inclusion.peek.2.sources
        rw [hsnd, hsnd']
        exact hsources
      · exact hlimit'.trans (h.limit_eq.trans hlimit.symm)
  · refine ⟨fun hspares => ?_, fun r' h _ => ?_⟩
    · simp only [peek, hpop] at hspares
      exact hspares
    · simp only [peek, h.frames_eq, hpop]
      exact ⟨trivial, h⟩

theorem agrees_enter (s : Source) (r : Reader) : AgreesAt (Exchanges ys zs) (Spares ys) (enter s) r := by
  have hsame {r' : Reader} (h : Exchanges ys zs r r') : r'.inclusion.size = r.inclusion.size := h.sources.length_eq
  unfold enter Inclusion.push
  by_cases hdeep : r.inclusion.limit.value < r.inclusion.size
  · refine ⟨fun hspares => ?_, fun r' h _ => ?_⟩
    · simp only [if_pos hdeep] at hspares
      exact hspares
    · simp only [h.limit_eq, hsame h, if_pos hdeep]
      exact ⟨trivial, h⟩
  · refine ⟨fun hspares => ?_, fun r' h _ => ?_⟩
    · -- the file is opened above the input
      simp only [if_neg hdeep] at hspares
      exact (Inclusion.spares_cons (List.cons_ne_nil _ _)).1 hspares
    · simp only [h.limit_eq, hsame h, if_neg hdeep]
      exact ⟨trivial, h.frames_eq, .file s h.sources, rfl, h.depth_eq, h.callSite_eq⟩

/-- Readers match as long as none of the tokens that are exchanged has been pulled, and the end has not been met. -/
theorem isMatching_exchanges : IsMatching (Exchanges ys zs) (Spares ys) where
  place_eq := fun h => ⟨h.depth_eq, h.callSite_eq⟩
  label_eq := fun h => h.sources.label_eq
  repeats_eq := by
    intro r r' leave h
    rw [repeats, repeats, h.frames_eq]
    cases leave with
    | false => exact congrArg _ h.sources.repeats_eq
    | true => exact congrArg _ h.sources.any_repeats_eq
  read := agrees_read
  peek := agrees_peek
  putBack := by
    intro c r
    refine ⟨fun hspares => ?_, fun r' h _ => ⟨rfl, h.putBack c⟩⟩
    by_cases hc : c.depth = 0
    · simp only [Reader.putBack, if_pos hc] at hspares
      exact Inclusion.Spares.of_cons hspares fun hs => ⟨hs.length_le, hs.reach_ne⟩
    · simp only [Spares, (expanded_putBack hc).2] at hspares
      exact hspares
  push := fun f r => ⟨id, fun r' h _ => ⟨rfl, h.push f⟩⟩
  enter := agrees_enter
  report := by
    intro filename line directiveLine r
    refine ⟨fun hspares => Inclusion.Spares.of_cons hspares fun hs => ⟨hs.length_le, hs.reach_ne⟩,
      fun r' h _ => ⟨rfl, h.frames_eq, ?_, h.limit_eq, h.depth_eq, h.callSite_eq⟩⟩
    exact h.sources.cons fun hs => hs.setFile filename line directiveLine

end Reader

end ErlangMacros
