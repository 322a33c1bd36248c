import ErlangMacros.Inclusion

/-!
# What the sources have left

Every token that the open sources have left has a level: the number of sources that are open up to its own, counted
from the input.  `Inclusion.leveled` lists the tokens with their levels in the order of reading.  Reading takes the
head of this list and leads to the source that holds it (`leveled_read`); looking ahead keeps it (`leveled_peek`).
-/

namespace ErlangMacros

theorem Ending.exists_eq_repeating {e : Ending} (h : e.repeats = true) : ∃ t, e = .repeating t := by
  cases e with
  | repeating t => exact ⟨t, rfl⟩
  | finished => cases h
  | failed e => cases h

namespace Source

/-- The tokens that are left, those that were put back first. -/
def remaining (s : Source) : List Token :=
  s.pending ++ s.stream.tokens

/-- Reading a token takes the first of those that are left, unless it is one that comes for ever. -/
theorem remaining_next {s s' : Source} {t : Token} (h : s.next = (.token t, s'))
    (hr : s.stream.ending.repeats = false) :
    s.remaining = t :: s'.remaining ∧ s'.stream.ending = s.stream.ending := by
  unfold next at h
  split at h
  · next hp =>
    obtain ⟨ht, rfl⟩ := Prod.mk.inj h
    cases ht
    simp [remaining, hp]
  · next hp =>
    unfold pull at h
    split at h
    · next htokens =>
      obtain ⟨ht, rfl⟩ := Prod.mk.inj h
      cases ht
      simp [remaining, hp, htokens]
    · split at h
      · simp at h
      · simp at h
      · next hending => simp [hending, Ending.repeats] at hr

/-- A source that gives no token has none left, and stays so. -/
theorem remaining_of_next_finished {s s' : Source} (h : s.next = (.finished, s')) :
    s.remaining = [] ∧ s'.remaining = [] ∧ s'.stream.ending = s.stream.ending := by
  unfold next at h
  split at h
  · simp at h
  · next hp =>
    unfold pull at h
    split at h
    · simp at h
    · next htokens =>
      split at h
      · obtain ⟨-, rfl⟩ := Prod.mk.inj h
        simp [remaining, hp, htokens]
      · simp at h
      · simp at h

/-- A source fails only where its tokens end with an error.  It then has none left, and ends. -/
theorem ending_of_next_failed {s s' : Source} {e : LexError} (h : s.next = (.failed e, s')) :
    s.stream.ending = .failed e ∧ s'.stream.ending = .finished ∧ s.remaining = [] ∧ s'.remaining = [] := by
  unfold next at h
  split at h
  · simp at h
  · next hp =>
    unfold pull at h
    split at h
    · simp at h
    · next htokens =>
      split at h
      · simp at h
      · next hending =>
        obtain ⟨he, rfl⟩ := Prod.mk.inj h
        cases he
        simp [remaining, hp, htokens, hending]
      · simp at h

/-- Looking at the next token keeps what is left. -/
theorem remaining_peek {s : Source} (hr : s.stream.ending.repeats = false) : s.peek.2.remaining = s.remaining := by
  unfold peek
  rcases hn : s.next with ⟨t | _ | e, s'⟩
  · exact (remaining_next hn hr).1.symm
  · have h := remaining_of_next_finished hn
    exact h.2.1.trans h.1.symm
  · have h := ending_of_next_failed hn
    exact h.2.2.2.trans h.2.2.1.symm

/-- A source shows the first of the tokens that are left. -/
theorem remaining_of_peek_token {s s' : Source} {t : Token} (h : s.peek = (.token t, s'))
    (hr : s.stream.ending.repeats = false) : ∃ ts, s.remaining = t :: ts := by
  unfold peek at h
  rcases hn : s.next with ⟨u | _ | e, s''⟩ <;> rw [hn] at h
  · obtain ⟨hu, -⟩ := Prod.mk.inj h
    cases hu
    exact ⟨_, (remaining_next hn hr).1⟩
  · simp at h
  · simp at h

theorem next_of_peek_finished {s s' : Source} (h : s.peek = (.finished, s')) : s.next = (.finished, s') := by
  unfold peek at h
  rcases hn : s.next with ⟨u | _ | e, s''⟩ <;> rw [hn] at h
  · simp at h
  · exact h
  · simp at h

private theorem next_of_peek_failed {s s' : Source} {e : LexError} (h : s.peek = (.failed e, s')) :
    s.next = (.failed e, s') := by
  unfold peek at h
  rcases hn : s.next with ⟨u | _ | e, s''⟩ <;> rw [hn] at h
  · simp at h
  · simp at h
  · exact h

/-- Reading can only replace an error at the end by a plain end. -/
theorem ending_next (s : Source) : s.next.2.stream.ending = s.stream.ending ∨ s.next.2.stream.ending = .finished := by
  unfold next pull
  split
  · exact .inl rfl
  · split
    · exact .inl rfl
    · split
      · exact .inl rfl
      · exact .inr rfl
      · exact .inl rfl

/-- A source that has only a token left that comes for ever gives it, and does not change. -/
theorem next_of_repeats {s : Source} (h : s.repeats = true) :
    ∃ t, s.stream.ending = .repeating t ∧ s.next = (.token t, s) := by
  obtain ⟨⟨hpending, htokens⟩, hending⟩ : (s.pending = [] ∧ s.stream.tokens = []) ∧ s.stream.ending.repeats = true := by
    simpa [repeats] using h
  obtain ⟨t, ht⟩ := Ending.exists_eq_repeating hending
  exact ⟨t, ht, by simp [next, pull, hpending, htokens, ht]⟩

private theorem ending_peek (s : Source) :
    s.peek.2.stream.ending = s.stream.ending ∨ s.peek.2.stream.ending = .finished := by
  have h := s.ending_next
  unfold peek
  rcases hn : s.next with ⟨t | _ | e, s'⟩ <;> rw [hn] at h <;> exact h

end Source

/-- A text ends where a surrogate breaks off its lexing. -/
def Ending.breaksOff : Ending → Bool
  | .failed e => e.cause = .unencodable
  | _ => false

namespace Inclusion

/-- The tokens that sources have left, each with the level of its source.  The outermost source has level one. -/
def leveled : List Source → List (Token × Nat)
  | [] => []
  | s :: outer => s.remaining.map (fun t => (t, outer.length + 1)) ++ leveled outer

/-- The levels of the tokens that are left. -/
def levels (i : Inclusion) : List Nat :=
  (leveled i.sources).map Prod.snd

/-- The ends of all open sources are of a kind. -/
def Ends (i : Inclusion) (P : Ending → Prop) : Prop :=
  ∀ s ∈ i.sources, P s.stream.ending

/-- No open source gives one token for ever. -/
def IsFinite (i : Inclusion) : Prop :=
  i.Ends (·.repeats = false)

/-- No open source is broken off at a surrogate. -/
def IsUnbroken (i : Inclusion) : Prop :=
  i.Ends (·.breaksOff = false)

/-- No open source ends with an error, or gives one token for ever. -/
def IsErrorFree (i : Inclusion) : Prop :=
  i.Ends (· = .finished)

theorem IsErrorFree.isFinite {i : Inclusion} (h : i.IsErrorFree) : i.IsFinite := by
  intro s hs
  simp [h s hs, Ending.repeats]

theorem map_fst_leveled (ss : List Source) : (leveled ss).map Prod.fst = ss.flatMap Source.remaining := by
  induction ss with
  | nil => rfl
  | cons s outer ih => simp [leveled, ih, Function.comp_def]

private theorem leveled_cons_of_remaining_nil {s : Source} (h : s.remaining = []) (outer : List Source) :
    leveled (s :: outer) = leveled outer := by
  simp [leveled, h]

/-! ### Reading and looking through the sources -/

private theorem leveled_readThrough {current s : Source} {outer outer' : List Source} {t : Token}
    (h : readThrough current outer = (.token t, s, outer'))
    (hr : ∀ s ∈ current :: outer, s.stream.ending.repeats = false) :
    leveled (current :: outer) = (t, outer'.length + 1) :: leveled (s :: outer') := by
  induction outer generalizing current with
  | nil =>
    obtain ⟨hp, rfl, rfl⟩ : current.next.1 = .token t ∧ current.next.2 = s ∧ [] = outer' := by
      simpa [readThrough] using h
    have := Source.remaining_next (Prod.ext hp rfl) (hr current (by simp))
    simp [leveled, this.1]
  | cons o outer ih =>
    unfold readThrough at h
    split at h
    · next hn =>
      -- an exhausted source is left, and has nothing in the list
      rw [leveled_cons_of_remaining_nil (Source.remaining_of_next_finished hn).1]
      exact ih h (fun s hs => hr s (List.mem_cons_of_mem _ hs))
    · next hn =>
      obtain ⟨rfl, rfl, rfl⟩ : _ = Pull.token t ∧ _ = s ∧ o :: outer = outer' := by simpa using h
      have := Source.remaining_next hn (hr current (by simp))
      simp [leveled, this.1]

private theorem leveled_of_readThrough_finished {current s : Source} {outer outer' : List Source}
    (h : readThrough current outer = (.finished, s, outer')) :
    leveled (current :: outer) = [] ∧ leveled (s :: outer') = [] := by
  induction outer generalizing current with
  | nil =>
    obtain ⟨hp, rfl, rfl⟩ : current.next.1 = .finished ∧ current.next.2 = s ∧ [] = outer' := by
      simpa [readThrough] using h
    have hn : current.next = (.finished, current.next.2) := Prod.ext hp rfl
    have := Source.remaining_of_next_finished hn
    simp [leveled, this.1, this.2.1]
  | cons o outer ih =>
    unfold readThrough at h
    split at h
    · next hn =>
      rw [leveled_cons_of_remaining_nil (Source.remaining_of_next_finished hn).1]
      exact ih h
    · next hne _ =>
      obtain ⟨rfl, -, -⟩ : _ = Pull.finished ∧ _ = s ∧ o :: outer = outer' := by simpa using h
      exact (hne rfl).elim

private theorem length_readThrough (current : Source) (outer : List Source) :
    (readThrough current outer).2.2.length ≤ outer.length := by
  induction outer generalizing current with
  | nil => simp [readThrough]
  | cons o outer ih =>
    unfold readThrough
    split
    · exact Nat.le_succ_of_le (ih o)
    · simp

/-- What holds of every end, and of a plain end, still holds after reading. -/
theorem ends_readThrough {P : Ending → Prop} (hP : P .finished) {current : Source} {outer : List Source}
    (hs : ∀ s ∈ current :: outer, P s.stream.ending) :
    ∀ s ∈ (readThrough current outer).2.1 :: (readThrough current outer).2.2, P s.stream.ending := by
  have hnext : P current.next.2.stream.ending := by
    rcases current.ending_next with h | h <;> rw [h]
    · exact hs current (by simp)
    · exact hP
  induction outer generalizing current with
  | nil => simpa [readThrough] using hnext
  | cons o outer ih =>
    have ho : ∀ s ∈ o :: outer, P s.stream.ending := fun s h => hs s (List.mem_cons_of_mem _ h)
    unfold readThrough
    split
    · apply ih ho
      rcases o.ending_next with h | h <;> rw [h]
      · exact ho o (by simp)
      · exact hP
    · next hn =>
      rw [hn] at hnext
      intro s h
      rcases List.mem_cons.1 h with rfl | h
      · exact hnext
      · exact ho s h

private theorem ending_of_readThrough_failed {current s : Source} {outer outer' : List Source} {e : LexError}
    (h : readThrough current outer = (.failed e, s, outer')) :
    ∃ s ∈ current :: outer, s.stream.ending = .failed e := by
  induction outer generalizing current with
  | nil =>
    obtain ⟨hp, -, -⟩ : current.next.1 = .failed e ∧ current.next.2 = s ∧ [] = outer' := by
      simpa [readThrough] using h
    have hn : current.next = (.failed e, current.next.2) := Prod.ext hp rfl
    exact ⟨current, by simp, (Source.ending_of_next_failed hn).1⟩
  | cons o outer ih =>
    unfold readThrough at h
    split at h
    · obtain ⟨x, hx, he⟩ := ih h
      exact ⟨x, List.mem_cons_of_mem _ hx, he⟩
    · next hn =>
      obtain ⟨rfl, -, -⟩ : _ = Pull.failed e ∧ _ = s ∧ o :: outer = outer' := by simpa using h
      exact ⟨current, by simp, (Source.ending_of_next_failed hn).1⟩

/-- If the first source that is not exhausted has only a token left that comes for ever, this token is read. -/
theorem readThrough_of_repeats {current : Source} {outer : List Source}
    (h : ((current :: outer).find? (!·.isExhausted)).any Source.repeats = true) :
    ∃ s ∈ current :: outer, s.repeats = true ∧
      ∃ t outer', s.stream.ending = .repeating t ∧ readThrough current outer = (.token t, s, outer') := by
  induction outer generalizing current with
  | nil =>
    rw [List.find?_singleton] at h
    split at h
    · obtain ⟨t, ht, hnext⟩ := Source.next_of_repeats h
      exact ⟨current, List.mem_singleton_self _, h, t, [], ht, by simp only [readThrough, hnext]⟩
    · cases h
  | cons o outer ih =>
    rw [List.find?_cons] at h
    split at h
    · obtain ⟨t, ht, hnext⟩ := Source.next_of_repeats h
      exact ⟨current, List.mem_cons_self .., h, t, o :: outer, ht, by simp only [readThrough, hnext]⟩
    · next hexhausted =>
      obtain ⟨s, hs, hrepeats, t, outer', ht, hread⟩ := ih h
      refine ⟨s, List.mem_cons_of_mem _ hs, hrepeats, t, outer', ht, ?_⟩
      have hnext : current.next = (.finished, current.next.2) :=
        Prod.ext (current.next_fst_eq_finished_iff.2 (by simpa using hexhausted)) rfl
      rw [readThrough, hnext, hread]

/-- Looking ahead is looking through all sources. -/
theorem peek_eq (i : Inclusion) :
    i.peek.1 = (peekThrough i.sources).1 ∧ i.peek.2.sources = (peekThrough i.sources).2 ∧
      i.peek.2.limit = i.limit := by
  unfold peek sources
  rw [peekThrough]
  rcases i.current.peek with ⟨t | _ | e, s⟩ <;> exact ⟨rfl, rfl, rfl⟩

theorem length_peekThrough (ss : List Source) : (peekThrough ss).2.length = ss.length := by
  induction ss with
  | nil => rfl
  | cons s outer ih =>
    unfold peekThrough
    split <;> simp [ih]

/-- Looking ahead keeps all tokens at their levels. -/
theorem leveled_peekThrough {ss : List Source} (hr : ∀ s ∈ ss, s.stream.ending.repeats = false) :
    leveled (peekThrough ss).2 = leveled ss := by
  induction ss with
  | nil => rfl
  | cons s outer ih =>
    have hs := Source.remaining_peek (hr s (by simp))
    have ho := ih fun s h => hr s (List.mem_cons_of_mem _ h)
    unfold peekThrough
    split
    · next hp =>
      rw [hp] at hs
      simp [leveled, hs, ho, length_peekThrough]
    · next hp =>
      rw [hp] at hs
      simp [leveled, hs]

/-- The token that is seen is the first one that is left. -/
theorem leveled_of_peekThrough_token {ss ss' : List Source} {t : Token} (h : peekThrough ss = (.token t, ss'))
    (hr : ∀ s ∈ ss, s.stream.ending.repeats = false) : ((leveled ss).head?).map Prod.fst = some t := by
  induction ss generalizing ss' with
  | nil => simp [peekThrough] at h
  | cons s outer ih =>
    unfold peekThrough at h
    split at h
    · next hp =>
      obtain ⟨hp', -⟩ : (peekThrough outer).1 = .token t ∧ _ = ss' := by simpa using h
      rw [leveled_cons_of_remaining_nil (Source.remaining_of_next_finished (Source.next_of_peek_finished hp)).1]
      exact ih (Prod.ext hp' rfl) fun s h => hr s (List.mem_cons_of_mem _ h)
    · next hp =>
      obtain ⟨rfl, -⟩ : _ = Pull.token t ∧ _ = ss' := by simpa using h
      obtain ⟨ts, hts⟩ := Source.remaining_of_peek_token hp (hr s (by simp))
      simp [leveled, hts]

theorem leveled_of_peekThrough_finished {ss ss' : List Source} (h : peekThrough ss = (.finished, ss')) :
    leveled ss = [] := by
  induction ss generalizing ss' with
  | nil => rfl
  | cons s outer ih =>
    unfold peekThrough at h
    split at h
    · next hp =>
      obtain ⟨hp', -⟩ : (peekThrough outer).1 = .finished ∧ _ = ss' := by simpa using h
      rw [leveled_cons_of_remaining_nil (Source.remaining_of_next_finished (Source.next_of_peek_finished hp)).1]
      exact ih (Prod.ext hp' rfl)
    · next hne _ =>
      obtain ⟨rfl, -⟩ : _ = Pull.finished ∧ _ = ss' := by simpa using h
      exact (hne rfl).elim

theorem ending_of_peekThrough_failed {ss ss' : List Source} {e : LexError}
    (h : peekThrough ss = (.failed e, ss')) : ∃ s ∈ ss, s.stream.ending = .failed e := by
  induction ss generalizing ss' with
  | nil => simp [peekThrough] at h
  | cons s outer ih =>
    unfold peekThrough at h
    split at h
    · obtain ⟨hp', -⟩ : (peekThrough outer).1 = .failed e ∧ _ = ss' := by simpa using h
      obtain ⟨x, hx, he⟩ := ih (Prod.ext hp' rfl)
      exact ⟨x, List.mem_cons_of_mem _ hx, he⟩
    · next hp =>
      obtain ⟨rfl, -⟩ : _ = Pull.failed e ∧ _ = ss' := by simpa using h
      exact ⟨s, by simp, (Source.ending_of_next_failed (Source.next_of_peek_failed hp)).1⟩

private theorem ends_peekThrough {P : Ending → Prop} (hP : P .finished) {ss : List Source}
    (hs : ∀ s ∈ ss, P s.stream.ending) : ∀ s ∈ (peekThrough ss).2, P s.stream.ending := by
  induction ss with
  | nil => simp [peekThrough]
  | cons s outer ih =>
    have ho : ∀ s ∈ outer, P s.stream.ending := fun s h => hs s (List.mem_cons_of_mem _ h)
    have hpeek : P s.peek.2.stream.ending := by
      rcases s.ending_peek with h | h <;> rw [h]
      · exact hs s (by simp)
      · exact hP
    unfold peekThrough
    split
    · next hp =>
      rw [hp] at hpeek
      exact List.forall_mem_cons.2 ⟨hpeek, ih ho⟩
    · next hp =>
      rw [hp] at hpeek
      exact List.forall_mem_cons.2 ⟨hpeek, ho⟩

/-! ### Reading and looking ahead -/

/-- Reading takes the first token, and leads to the source that holds it. -/
theorem leveled_read {i i' : Inclusion} {t : Token} (h : i.read true = (.token t, i')) (hi : i.IsFinite) :
    leveled i.sources = (t, i'.size) :: leveled i'.sources := by
  obtain ⟨hp, rfl⟩ : (readThrough i.current i.outer).1 = .token t ∧
      { i with current := (readThrough i.current i.outer).2.1,
               outer := (readThrough i.current i.outer).2.2 } = i' := by
    simpa [read] using h
  exact leveled_readThrough (Prod.ext hp rfl) hi

theorem leveled_of_read_finished {i i' : Inclusion} (h : i.read true = (.finished, i')) :
    leveled i.sources = [] ∧ leveled i'.sources = [] := by
  obtain ⟨hp, rfl⟩ : (readThrough i.current i.outer).1 = .finished ∧
      { i with current := (readThrough i.current i.outer).2.1,
               outer := (readThrough i.current i.outer).2.2 } = i' := by
    simpa [read] using h
  exact leveled_of_readThrough_finished (Prod.ext hp rfl)

theorem ending_of_read_failed {i i' : Inclusion} {leave : Bool} {e : LexError} (h : i.read leave = (.failed e, i')) :
    ∃ s ∈ i.sources, s.stream.ending = .failed e := by
  cases leave with
  | true =>
    obtain ⟨hp, -⟩ : (readThrough i.current i.outer).1 = .failed e ∧
        { i with current := (readThrough i.current i.outer).2.1,
                 outer := (readThrough i.current i.outer).2.2 } = i' := by
      simpa [read] using h
    exact ending_of_readThrough_failed (Prod.ext hp rfl)
  | false =>
    obtain ⟨hp, -⟩ := Prod.mk.inj h
    exact ⟨i.current, List.mem_cons_self, (Source.ending_of_next_failed (Prod.ext hp rfl)).1⟩

/-- A token that comes for ever is one of a source, and comes again. -/
theorem read_of_repeats {i : Inclusion} (h : i.repeats true = true) :
    ∃ s ∈ i.sources, ∃ t i', s.stream.ending = .repeating t ∧ i.read true = (.token t, i') ∧
      i'.repeats true = true := by
  obtain ⟨s, hs, hrepeats, t, outer, ht, hread⟩ := readThrough_of_repeats h
  refine ⟨s, hs, t, { i with current := s, outer }, ht, by simp [read, hread], ?_⟩
  have hexhausted : s.isExhausted = false := by simp [Source.isExhausted, ht]
  simp [repeats, sources, hexhausted, hrepeats]

theorem Ends.read {P : Ending → Prop} {i : Inclusion} (hi : i.Ends P) (hP : P .finished) (leave : Bool) :
    (i.read leave).2.Ends P := by
  cases leave with
  | true => exact ends_readThrough hP hi
  | false =>
    intro s hs
    rcases List.mem_cons.1 hs with rfl | hs
    · rcases i.current.ending_next with h | h
      · exact h ▸ hi i.current (by simp [sources])
      · exact h ▸ hP
    · exact hi s (List.mem_cons_of_mem _ hs)

theorem Ends.setFile {P : Ending → Prop} {i : Inclusion} (hi : i.Ends P) (name : Text) (line directiveLine : Int) :
    Ends { i with current := i.current.setFile name line directiveLine } P :=
  List.forall_mem_cons.2 ⟨hi i.current (by simp [sources]), fun s hs => hi s (List.mem_cons_of_mem _ hs)⟩

theorem push_eq_ok {i i' : Inclusion} {s : Source} (h : i.push s = .ok i') :
    i.size ≤ i.limit.value ∧ i' = { i with current := s, outer := i.sources } := by
  unfold push at h
  split at h
  · cases h
  · next hsize =>
    cases h
    exact ⟨Int.not_lt.1 hsize, rfl⟩

theorem size_read_le (i : Inclusion) (leave : Bool) : (i.read leave).2.size ≤ i.size := by
  cases leave with
  | true => exact Nat.succ_le_succ (length_readThrough i.current i.outer)
  | false => exact Nat.le_refl _

theorem leveled_peek {i : Inclusion} (hi : i.IsFinite) : leveled i.peek.2.sources = leveled i.sources := by
  rw [i.peek_eq.2.1]
  exact leveled_peekThrough hi

theorem size_peek (i : Inclusion) : i.peek.2.size = i.size := by
  have h := length_peekThrough i.sources
  rw [← i.peek_eq.2.1] at h
  simpa [sources, size] using h

theorem Ends.peek {P : Ending → Prop} {i : Inclusion} (hi : i.Ends P) (hP : P .finished) : i.peek.2.Ends P := by
  unfold Ends
  rw [i.peek_eq.2.1]
  exact ends_peekThrough hP hi

end Inclusion

end ErlangMacros
