import ErlangMacros.Proofs.Inclusion.Level
import ErlangMacros.Proofs.Token.Lexeme
import ErlangMacros.Reader

/-!
# The reader as one flat list

`Reader.flat` lists the tokens that wait to be read, each with the depth and the call site it will be read at: first
those of the expansions, from the innermost on, then those of the sources, from the innermost on.  Every operation of
the reader is an operation on this list.  Reading takes its head (`flat_read`), looking at the next token keeps it
(`flat_peek`), pushing an expansion puts the tokens in front (`flat_push`), and putting back what was read restores
it, whatever frames and sources have been left in between (`Takes.flat_unread`).
-/

namespace ErlangMacros

/-- The tokens of an expansion, with the depth and the call site they are read at. -/
def ExpansionFrame.annotated (f : ExpansionFrame) : List Consumed :=
  f.tokens.map fun t => ⟨t, f.depth, f.callSite⟩

namespace Reader

/-- The tokens of the expansions that wait to be read. -/
def expanded (r : Reader) : List Consumed :=
  r.frames.flatMap ExpansionFrame.annotated

/-- The tokens of the sources that wait to be read. -/
def remaining (r : Reader) : List Token :=
  r.inclusion.sources.flatMap Source.remaining

/-- All tokens that wait to be read, in the order of reading, with the depth and the call site they are read at. -/
def flat (r : Reader) : List Consumed :=
  r.expanded ++ r.remaining.map fun t => ⟨t, 0, none⟩

/-- The depths and call sites of all expansions are of a kind. -/
def Places (r : Reader) (Q : Int → Option Position → Prop) : Prop :=
  ∀ f ∈ r.frames, Q f.depth f.callSite

/-- Expansions have positive depths. -/
def IsNested (r : Reader) : Prop :=
  r.Places fun depth _ => 1 ≤ depth

private theorem annotated_popFrames {frames frames' : List ExpansionFrame} {t : Token} {f : ExpansionFrame}
    (h : popFrames frames = some (t, f, frames')) :
    frames.flatMap ExpansionFrame.annotated =
        ⟨t, f.depth, f.callSite⟩ :: frames'.flatMap ExpansionFrame.annotated ∧
      f ∈ frames ∧ ∀ g ∈ frames', ∃ g' ∈ frames, g.depth = g'.depth ∧ g.callSite = g'.callSite := by
  induction frames with
  | nil => simp [popFrames] at h
  | cons g frames ih =>
    unfold popFrames at h
    split at h
    · next ht =>
      obtain ⟨rfl, rfl, rfl⟩ : _ = t ∧ g = f ∧ _ = frames' := by simpa using h
      refine ⟨by simp [ExpansionFrame.annotated, ht], by simp, ?_⟩
      intro g' hg'
      rcases List.mem_cons.1 hg' with rfl | hg'
      · exact ⟨g, by simp, rfl, rfl⟩
      · exact ⟨g', by simp [hg'], rfl, rfl⟩
    · next ht =>
      obtain ⟨hflat, hf, hframes⟩ := ih h
      refine ⟨by simpa [ExpansionFrame.annotated, ht] using hflat, by simp [hf], ?_⟩
      intro g' hg'
      obtain ⟨g'', hg'', hd⟩ := hframes g' hg'
      exact ⟨g'', by simp [hg''], hd⟩

private theorem annotated_of_popFrames_none {frames : List ExpansionFrame} (h : popFrames frames = none) :
    frames.flatMap ExpansionFrame.annotated = [] := by
  induction frames with
  | nil => rfl
  | cons g frames ih =>
    unfold popFrames at h
    split at h
    · simp at h
    · next ht => simpa [ExpansionFrame.annotated, ht] using ih h

/-- The first token of the frames is one of its frame, and the frames that are left hold no other tokens. -/
theorem mem_of_popFrames {frames frames' : List ExpansionFrame} {t : Token} {f : ExpansionFrame}
    (h : popFrames frames = some (t, f, frames')) :
    f ∈ frames ∧ t ∈ f.tokens ∧ ∀ g ∈ frames', ∃ g' ∈ frames, g.tokens ⊆ g'.tokens := by
  induction frames with
  | nil => simp [popFrames] at h
  | cons g frames ih =>
    unfold popFrames at h
    split at h
    · next ht =>
      cases h
      refine ⟨by simp, by simp [ht], fun g' hg' => ?_⟩
      rcases List.mem_cons.1 hg' with rfl | hg'
      · exact ⟨f, by simp, by simp [ht]⟩
      · exact ⟨g', by simp [hg'], by simp⟩
    · obtain ⟨hf, htoken, hrest⟩ := ih h
      refine ⟨by simp [hf], htoken, fun g' hg' => ?_⟩
      obtain ⟨g'', hg'', hsubset⟩ := hrest g' hg'
      exact ⟨g'', by simp [hg''], hsubset⟩

/-- A token is read from an expansion, or from a source when no expansion is left. -/
theorem read_cases {r r' : Reader} {leave : Bool} {t : Token} (h : r.read leave = (.token t, r')) :
    (∃ f fs, popFrames r.frames = some (t, f, fs) ∧
      r' = { r with frames := fs, depth := f.depth, callSite := f.callSite }) ∨
    (popFrames r.frames = none ∧ ∃ i, r.inclusion.read leave = (.token t, i) ∧ r' = { inclusion := i }) := by
  unfold read at h
  split at h
  · next f fs hf =>
    obtain ⟨ht, rfl⟩ := Prod.mk.inj h
    cases ht
    exact .inl ⟨f, fs, hf, rfl⟩
  · next hf =>
    obtain ⟨hp, rfl⟩ := Prod.mk.inj h
    exact .inr ⟨hf, _, Prod.ext hp rfl, rfl⟩

theorem remaining_eq (r : Reader) : r.remaining = (Inclusion.leveled r.inclusion.sources).map Prod.fst :=
  (Inclusion.map_fst_leveled _).symm

/-- Reading a token takes the first one of the expansions, or of the sources if there is none. -/
theorem read_token {r r' : Reader} {t : Token} (h : r.read = (.token t, r')) (hi : r.inclusion.IsFinite) :
    (r.expanded = r'.consumed t :: r'.expanded ∧ r'.inclusion = r.inclusion ∧ ∃ f ∈ r.frames, r'.depth = f.depth) ∨
    (r.expanded = [] ∧ r'.frames = [] ∧ r'.depth = 0 ∧ r'.callSite = none ∧
      Inclusion.leveled r.inclusion.sources =
        (t, r'.inclusion.size) :: Inclusion.leveled r'.inclusion.sources) := by
  rcases read_cases h with ⟨f, fs, hf, rfl⟩ | ⟨hf, i, hread, rfl⟩
  · obtain ⟨hflat, hmem, -⟩ := annotated_popFrames hf
    exact .inl ⟨hflat, rfl, f, hmem, rfl⟩
  · exact .inr ⟨annotated_of_popFrames_none hf, rfl, rfl, rfl, Inclusion.leveled_read hread hi⟩

/-- Reading takes the first token that waits to be read. -/
theorem flat_read {r r' : Reader} {t : Token} (h : r.read = (.token t, r')) (hi : r.inclusion.IsFinite) :
    r.flat = r'.consumed t :: r'.flat := by
  rcases read_token h hi with ⟨hexpanded, hinclusion, -⟩ | ⟨hexpanded, hframes, hdepth, hsite, hleveled⟩
  · simp only [flat, hexpanded, remaining, hinclusion, List.cons_append]
  · simp only [flat, remaining_eq, hexpanded, hleveled]
    simp [expanded, hframes, consumed, hdepth, hsite]

/-- Nothing is read exactly when nothing waits to be read. -/
theorem flat_of_read_finished {r r' : Reader} (h : r.read = (.finished, r')) :
    r.flat = [] ∧ r'.flat = [] ∧ r'.depth = 0 ∧ r'.callSite = none := by
  unfold read at h
  split at h
  · simp at h
  · next hf =>
    obtain ⟨hp, rfl⟩ : (r.inclusion.read true).1 = .finished ∧
        ({ inclusion := (r.inclusion.read true).2 } : Reader) = r' := by
      simpa using h
    obtain ⟨hi, hi'⟩ := Inclusion.leveled_of_read_finished (Prod.ext hp rfl)
    refine ⟨?_, ?_, rfl, rfl⟩
    · simp [flat, remaining_eq, hi, expanded, annotated_of_popFrames_none hf]
    · simp [flat, remaining_eq, hi', expanded]

theorem ending_of_read_failed {r r' : Reader} {leave : Bool} {e : LexError} (h : r.read leave = (.failed e, r')) :
    ∃ s ∈ r.inclusion.sources, s.stream.ending = .failed e := by
  unfold read at h
  split at h
  · simp at h
  · obtain ⟨hp, -⟩ := Prod.mk.inj h
    exact Inclusion.ending_of_read_failed (Prod.ext hp rfl)

theorem not_isErrorFree_of_read_failed {r r' : Reader} {e : LexError} (h : r.read = (.failed e, r')) :
    ¬ r.inclusion.IsErrorFree := by
  intro hi
  obtain ⟨s, hs, he⟩ := ending_of_read_failed h
  rw [hi s hs] at he
  cases he

theorem ends_read {P : Ending → Prop} {r : Reader} (hi : r.inclusion.Ends P) (hP : P .finished) (leave : Bool) :
    (r.read leave).2.inclusion.Ends P := by
  unfold read
  split
  · exact hi
  · exact hi.read hP leave

theorem ends_of_read {P : Ending → Prop} {r r' : Reader} {leave : Bool} {pull : Pull}
    (h : r.read leave = (pull, r')) (hi : r.inclusion.Ends P) (hP : P .finished) : r'.inclusion.Ends P := by
  have hends := ends_read hi hP leave
  rwa [h] at hends

theorem size_inclusion_read_le (r : Reader) (leave : Bool) :
    (r.read leave).2.inclusion.size ≤ r.inclusion.size := by
  unfold read
  split
  · exact Nat.le_refl _
  · exact r.inclusion.size_read_le leave

theorem Places.read {r : Reader} {Q : Int → Option Position → Prop} (hr : r.Places Q) (leave : Bool) :
    (r.read leave).2.Places Q := by
  unfold Reader.read
  split
  · next hf =>
    intro g hg
    obtain ⟨g', hg', hd, hs⟩ := (annotated_popFrames hf).2.2 g hg
    exact hd ▸ hs ▸ hr g' hg'
  · intro g hg
    simp at hg

/-- Tokens are read at the place of an expansion, or at that of a source. -/
theorem Places.of_read {r r' : Reader} {Q : Int → Option Position → Prop} {t : Token} (hr : r.Places Q)
    (h : r.read = (.token t, r')) :
    r'.Places Q ∧ (r'.depth = 0 ∧ r'.callSite = none ∨ Q r'.depth r'.callSite) := by
  constructor
  · have := hr.read true
    rwa [h] at this
  · rcases read_cases h with ⟨f, fs, hf, rfl⟩ | ⟨-, i, -, rfl⟩
    · exact .inr (hr f (annotated_popFrames hf).2.1)
    · exact .inl ⟨rfl, rfl⟩

/-- Reading without leaving a file gives the same token as reading does. -/
theorem read_of_read_false {r r' : Reader} {t : Token} (h : r.read false = (.token t, r')) :
    r.read = (.token t, r') := by
  rcases read_cases h with ⟨f, fs, hf, rfl⟩ | ⟨hf, i, hread, rfl⟩
  · simp [read, hf]
  · obtain ⟨hp, rfl⟩ : r.inclusion.current.next.1 = .token t ∧
        { r.inclusion with current := r.inclusion.current.next.2 } = i := by
      simpa [Inclusion.read] using hread
    have hnext : r.inclusion.current.next = (.token t, r.inclusion.current.next.2) := Prod.ext hp rfl
    have hthrough : Inclusion.readThrough r.inclusion.current r.inclusion.outer =
        (.token t, r.inclusion.current.next.2, r.inclusion.outer) := by
      cases r.inclusion.outer with
      | nil => simp [Inclusion.readThrough, hp]
      | cons o outer =>
        unfold Inclusion.readThrough
        rw [hnext]
    simp [read, hf, Inclusion.read, hthrough]

theorem size_of_read_false {r r' : Reader} {t : Token} (h : r.read false = (.token t, r')) :
    r'.inclusion.size = r.inclusion.size := by
  rcases read_cases h with ⟨f, fs, -, rfl⟩ | ⟨-, i, hread, rfl⟩
  · rfl
  · obtain ⟨-, rfl⟩ := Prod.mk.inj hread
    rfl

/-! ### Looking ahead -/

theorem frames_peek (r : Reader) : r.peek.2.frames = r.frames := by
  unfold peek
  split <;> rfl

theorem Places.peek {r : Reader} {Q : Int → Option Position → Prop} (hr : r.Places Q) : r.peek.2.Places Q := by
  unfold Places
  rw [frames_peek]
  exact hr

theorem inclusion_peek (r : Reader) :
    r.peek.2.inclusion = r.inclusion ∨ r.peek.2.inclusion = r.inclusion.peek.2 := by
  unfold peek
  split
  · exact .inl rfl
  · exact .inr rfl

theorem leveled_peek {r : Reader} (hi : r.inclusion.IsFinite) :
    Inclusion.leveled r.peek.2.inclusion.sources = Inclusion.leveled r.inclusion.sources := by
  rcases r.inclusion_peek with h | h <;> rw [h]
  exact Inclusion.leveled_peek hi

theorem size_inclusion_peek (r : Reader) : r.peek.2.inclusion.size = r.inclusion.size := by
  rcases r.inclusion_peek with h | h <;> rw [h]
  exact r.inclusion.size_peek

theorem ends_peek {P : Ending → Prop} {r : Reader} (hi : r.inclusion.Ends P) (hP : P .finished) :
    r.peek.2.inclusion.Ends P := by
  rcases r.inclusion_peek with h | h <;> rw [h]
  · exact hi
  · exact hi.peek hP

/-- Looking ahead keeps what waits to be read. -/
theorem flat_peek {r : Reader} (hi : r.inclusion.IsFinite) : r.peek.2.flat = r.flat := by
  simp only [flat, remaining_eq, expanded, frames_peek, leveled_peek hi]

private theorem peek_of_popFrames_none {r : Reader} (h : popFrames r.frames = none) :
    r.peek.1 = (Inclusion.peekThrough r.inclusion.sources).1 := by
  unfold peek
  rw [h, ← r.inclusion.peek_eq.1]

/-- The token that is seen is the first one that waits to be read. -/
theorem flat_of_peek_token {r r' : Reader} {t : Token} (h : r.peek = (.token t, r')) (hi : r.inclusion.IsFinite) :
    r.flat.head?.map (·.token) = some t := by
  rcases hf : popFrames r.frames with _ | ⟨u, f, fs⟩
  · have hp := peek_of_popFrames_none hf
    rw [h] at hp
    have hhead := Inclusion.leveled_of_peekThrough_token (Prod.ext hp.symm rfl) hi
    rw [flat, remaining_eq, expanded, annotated_of_popFrames_none hf, List.nil_append, List.map_map, List.head?_map,
      Option.map_map]
    exact hhead
  · obtain ⟨rfl, -⟩ : u = t ∧ r = r' := by simpa [peek, hf] using h
    simp [flat, expanded, (annotated_popFrames hf).1]

theorem flat_of_peek_finished {r r' : Reader} (h : r.peek = (.finished, r')) : r.flat = [] := by
  rcases hf : popFrames r.frames with _ | ⟨u, f, fs⟩
  · have hp := peek_of_popFrames_none hf
    rw [h] at hp
    have hnil := Inclusion.leveled_of_peekThrough_finished (Prod.ext hp.symm rfl)
    simp [flat, remaining_eq, expanded, annotated_of_popFrames_none hf, hnil]
  · simp [peek, hf] at h

theorem ending_of_peek_failed {r r' : Reader} {e : LexError} (h : r.peek = (.failed e, r')) :
    ∃ s ∈ r.inclusion.sources, s.stream.ending = .failed e := by
  rcases hf : popFrames r.frames with _ | ⟨u, f, fs⟩
  · have hp := peek_of_popFrames_none hf
    rw [h] at hp
    exact Inclusion.ending_of_peekThrough_failed (Prod.ext hp.symm rfl)
  · simp [peek, hf] at h

theorem not_isErrorFree_of_peek_failed {r r' : Reader} {e : LexError} (h : r.peek = (.failed e, r')) :
    ¬ r.inclusion.IsErrorFree := by
  intro hi
  obtain ⟨s, hs, he⟩ := ending_of_peek_failed h
  rw [hi s hs] at he
  cases he

/-! ### Pushing expansions and putting tokens back -/

/-- The tokens of an expansion are read before all others. -/
theorem flat_push (r : Reader) (f : ExpansionFrame) : (r.push f).flat = f.annotated ++ r.flat := by
  simp [flat, expanded, remaining, push]

theorem expanded_putBack {r : Reader} {c : Consumed} (h : c.depth ≠ 0) :
    (r.putBack c).expanded = c :: r.expanded ∧ (r.putBack c).inclusion = r.inclusion := by
  have hpush : (r.push ⟨[c.token], none, c.depth, c.callSite⟩).expanded = c :: r.expanded := rfl
  unfold putBack
  rw [if_neg h]
  split
  · next f fs hframes =>
    split
    · next hsame =>
      -- the frame on top has the same depth and call site, and takes the token in front
      obtain ⟨⟨-, hdepth⟩, hsite⟩ : (f.name = none ∧ f.depth = c.depth) ∧ f.callSite = c.callSite := by
        simpa using hsame
      simp [expanded, hframes, ExpansionFrame.annotated, hdepth, hsite]
    · exact ⟨hpush, rfl⟩
  · exact ⟨hpush, rfl⟩

theorem leveled_putBack {r : Reader} {c : Consumed} (h : c.depth = 0) :
    (r.putBack c).frames = r.frames ∧
      Inclusion.leveled (r.putBack c).inclusion.sources =
        (c.token, r.inclusion.size) :: Inclusion.leveled r.inclusion.sources := by
  unfold putBack
  rw [if_pos h]
  exact ⟨rfl, rfl⟩

/-- Putting a token back changes what waits to be read and nothing else. -/
theorem putBack_eq (r : Reader) (c : Consumed) :
    (r.putBack c).depth = r.depth ∧ (r.putBack c).inclusion.size = r.inclusion.size ∧
      (r.putBack c).inclusion.limit = r.inclusion.limit := by
  unfold putBack
  split
  · exact ⟨rfl, rfl, rfl⟩
  · split
    · split <;> exact ⟨rfl, rfl, rfl⟩
    · exact ⟨rfl, rfl, rfl⟩

theorem ends_putBack {P : Ending → Prop} {r : Reader} (hi : r.inclusion.Ends P) (c : Consumed) :
    (r.putBack c).inclusion.Ends P := by
  unfold putBack
  split
  · intro s hs
    rcases List.mem_cons.1 hs with rfl | hs
    · exact hi r.inclusion.current (by simp [Inclusion.sources])
    · exact hi s (List.mem_cons_of_mem _ hs)
  · split
    · split <;> exact hi
    · exact hi

theorem Places.putBack {r : Reader} {Q : Int → Option Position → Prop} {c : Consumed} (hr : r.Places Q)
    (hc : c.depth ≠ 0 → Q c.depth c.callSite) : (r.putBack c).Places Q := by
  unfold Reader.putBack
  split
  · exact hr
  · next hne =>
    have hpush : (r.push ⟨[c.token], none, c.depth, c.callSite⟩).Places Q :=
      List.forall_mem_cons.2 ⟨hc hne, hr⟩
    split
    · next f fs hframes =>
      have hfs : ∀ g ∈ f :: fs, Q g.depth g.callSite := hframes ▸ hr
      split
      · exact List.forall_mem_cons.2 (List.forall_mem_cons.1 hfs)
      · exact hpush
    · exact hpush

/-- A reader whose sources end never stands at a token that comes for ever. -/
theorem not_repeats {r : Reader} (hi : r.inclusion.IsFinite) (leave : Bool) : r.repeats leave = false := by
  have hsource : ∀ s ∈ r.inclusion.sources, s.repeats = false := by
    intro s hs
    simp [Source.repeats, hi s hs]
  have hinclusion : r.inclusion.repeats leave = false := by
    cases leave with
    | false => exact hsource _ (by simp [Inclusion.sources])
    | true =>
      simp only [Inclusion.repeats, if_true, Option.any_eq_false_iff_get]
      intro h
      exact hsource _ (List.mem_of_find?_eq_some (Option.some_get h).symm)
  simp [repeats, hinclusion]

/-- A token that comes for ever is one of a source, and comes again. -/
theorem read_of_repeats {r : Reader} (h : r.repeats = true) :
    ∃ s ∈ r.inclusion.sources, ∃ t r', s.stream.ending = .repeating t ∧ r.read = (.token t, r') ∧
      r'.repeats = true := by
  obtain ⟨hframes, hinclusion⟩ : (∀ f ∈ r.frames, f.tokens = []) ∧ r.inclusion.repeats true = true := by
    simpa [repeats] using h
  have hnone : popFrames r.frames = none := by
    rcases hpop : popFrames r.frames with _ | ⟨t, f, fs⟩
    · rfl
    · obtain ⟨hf, ht, -⟩ := mem_of_popFrames hpop
      simp [hframes f hf] at ht
  obtain ⟨s, hs, t, i, ht, hread, hi⟩ := Inclusion.read_of_repeats hinclusion
  exact ⟨s, hs, t, { inclusion := i }, ht, by simp only [read, hnone, hread], by simpa [repeats] using hi⟩

/-- Reading from `r` gives the tokens `cs` one after the other, and leads to the last reader. -/
inductive Takes : Reader → List Consumed → Reader → Prop where
  | nil (r : Reader) : Takes r [] r
  | cons {r r' r'' : Reader} {t : Token} {cs : List Consumed} (read : r.read = (.token t, r'))
      (rest : Takes r' cs r'') : Takes r (r'.consumed t :: cs) r''

namespace Takes

variable {r r' : Reader} {cs : List Consumed}

theorem ends {P : Ending → Prop} (h : Takes r cs r') (hi : r.inclusion.Ends P) (hP : P .finished) :
    r'.inclusion.Ends P := by
  induction h with
  | nil r => exact hi
  | @cons r r₁ r₂ t cs hread _ ih => exact ih (ends_of_read hread hi hP)

/-- If a token comes for ever, no other one is read. -/
theorem ending_of_repeats {P : Ending → Prop} (h : Takes r cs r') (hi : r.inclusion.Ends P) (hP : P .finished)
    (hr : r.repeats = true) : ∀ c ∈ cs, P (.repeating c.token) := by
  induction h with
  | nil r => exact List.forall_mem_nil _
  | @cons r r₁ r₂ t cs hread _ ih =>
    obtain ⟨s, hs, t', r₁', ht, hread', hr'⟩ := read_of_repeats hr
    obtain ⟨⟨⟩, rfl⟩ := Prod.mk.inj (hread.symm.trans hread')
    exact List.forall_mem_cons.2 ⟨ht ▸ hi s hs, ih (ends_of_read hread hi hP) hr'⟩

theorem isFinite (h : Takes r cs r') (hi : r.inclusion.IsFinite) : r'.inclusion.IsFinite :=
  h.ends hi rfl

theorem places {Q : Int → Option Position → Prop} (h : Takes r cs r') (hr : r.Places Q) : r'.Places Q := by
  induction h with
  | nil r => exact hr
  | cons hread _ ih => exact ih (hr.of_read hread).1

/-- The tokens that are read are the first ones that wait to be read. -/
theorem flat_eq (h : Takes r cs r') (hi : r.inclusion.IsFinite) : r.flat = cs ++ r'.flat := by
  induction h with
  | nil r => rfl
  | @cons r r₁ r₂ t cs hread _ ih =>
    have hi₁ := ends_of_read hread hi rfl
    rw [flat_read hread hi, ih hi₁, List.cons_append]

/-- As many tokens can be read as wait to be read. -/
theorem exists_of_le_length (hi : r.inclusion.IsErrorFree) {n : Nat} (hn : n ≤ r.flat.length) :
    ∃ r', Takes r (r.flat.take n) r' := by
  induction n generalizing r with
  | zero => exact ⟨r, .nil r⟩
  | succ n ih =>
    rcases hread : r.read with ⟨t | _ | e, r₁⟩
    · have hflat := flat_read hread hi.isFinite
      have hi₁ := ends_of_read hread hi rfl
      rw [hflat] at hn ⊢
      obtain ⟨r₂, h⟩ := ih hi₁ (Nat.le_of_succ_le_succ hn)
      exact ⟨r₂, .cons hread h⟩
    · rw [(flat_of_read_finished hread).1] at hn
      simp at hn
    · exact absurd hi (not_isErrorFree_of_read_failed hread)

/-- Putting back what was read restores what the expansions and the sources had left. -/
theorem expanded_unread (h : Takes r cs r') (hr : r.IsNested) (hi : r.inclusion.IsFinite) :
    (r'.unread cs).expanded = r.expanded ∧ (r'.unread cs).remaining = r.remaining := by
  induction h with
  | nil r => exact ⟨rfl, rfl⟩
  | @cons r r₁ r₂ t cs hread hrest ih =>
    have hi₁ := ends_of_read hread hi rfl
    obtain ⟨hexpanded, hremaining⟩ := ih (hr.of_read hread).1 hi₁
    show ((r₂.unread cs).putBack (r₁.consumed t)).expanded = _ ∧ ((r₂.unread cs).putBack (r₁.consumed t)).remaining = _
    rcases read_token hread hi with ⟨he, hinclusion, f, hf, hd⟩ | ⟨he, hframes, hd, -, hl⟩
    · -- from an expansion: its depth is positive, so it goes to a frame again
      have hpos : (r₁.consumed t).depth ≠ 0 := by
        have := hr f hf
        show r₁.depth ≠ 0
        omega
      obtain ⟨hput, hsame⟩ := expanded_putBack (r := r₂.unread cs) hpos
      constructor
      · rw [hput, hexpanded, he]
      · unfold remaining
        rw [hsame, ← hinclusion]
        exact hremaining
    · obtain ⟨hsame, hput⟩ := leveled_putBack (r := r₂.unread cs) (c := r₁.consumed t) hd
      constructor
      · rw [he, expanded, hsame]
        exact hexpanded.trans (by simp [expanded, hframes])
      · rw [remaining_eq, remaining_eq, hput, hl]
        rw [remaining_eq, remaining_eq] at hremaining
        simp [hremaining, consumed]

/-- Putting back what was read restores what waits to be read. -/
theorem flat_unread (h : Takes r cs r') (hr : r.IsNested) (hi : r.inclusion.IsFinite) :
    (r'.unread cs).flat = r.flat := by
  obtain ⟨hexpanded, hremaining⟩ := h.expanded_unread hr hi
  rw [flat, flat, hexpanded, hremaining]

end Takes

/-- The reader is the flat list of what waits to be read: reading takes its head and reports the depth and the call
site of the head, looking ahead shows the head, an expansion is put in front, and putting back any number of tokens
that were read gives back the list. -/
theorem refines_flat (r : Reader) (hr : r.IsNested) (hi : r.inclusion.IsErrorFree) :
    (match r.flat with
      | [] => r.read.1 = .finished ∧ r.read.2.depth = 0 ∧ r.read.2.callSite = none ∧ r.read.2.flat = []
      | c :: rest => r.read.1 = .token c.token ∧ r.read.2.depth = c.depth ∧ r.read.2.callSite = c.callSite ∧
          r.read.2.flat = rest) ∧
    (match r.flat with
      | [] => r.peek.1 = .finished
      | c :: _ => r.peek.1 = .token c.token) ∧
    r.peek.2.flat = r.flat ∧
    (∀ tokens name depth callSite, (r.push ⟨tokens, name, depth, callSite⟩).flat =
      tokens.map (fun t => ⟨t, depth, callSite⟩) ++ r.flat) ∧
    (∀ n ≤ r.flat.length, ∃ r', Takes r (r.flat.take n) r') ∧
    (∀ cs r', Takes r cs r' → r.flat = cs ++ r'.flat ∧ (r'.unread cs).flat = r.flat) := by
  refine ⟨?_, ?_, flat_peek hi.isFinite, ?_, ?_, ?_⟩
  · rcases hread : r.read with ⟨t | _ | e, r'⟩
    · rw [flat_read hread hi.isFinite]
      exact ⟨rfl, rfl, rfl, rfl⟩
    · obtain ⟨hflat, hflat', hdepth, hsite⟩ := flat_of_read_finished hread
      rw [hflat]
      exact ⟨rfl, hdepth, hsite, hflat'⟩
    · exact absurd hi (not_isErrorFree_of_read_failed hread)
  · rcases hpeek : r.peek with ⟨t | _ | e, r'⟩
    · have hhead := flat_of_peek_token hpeek hi.isFinite
      split
      · next hflat => simp [hflat] at hhead
      · next hflat => simpa [hflat] using hhead.symm
    · rw [flat_of_peek_finished hpeek]
    · exact absurd hi (not_isErrorFree_of_peek_failed hpeek)
  · intro tokens name depth callSite
    exact r.flat_push _
  · intro n hn
    exact Takes.exists_of_le_length hi hn
  · intro cs r' h
    exact ⟨h.flat_eq hi.isFinite, h.flat_unread hr hi.isFinite⟩

/-- An expansion before an included file before the input: all three can be read and put back at once. -/
theorem refines_flat_through_sources :
    let r : Reader :=
      { frames := [⟨[.atom "a"], some "F", 2, none⟩, ⟨[], none, 1, none⟩]
        inclusion := { current := .ofTokens [.atom "b"] (some "b.hrl"), outer := [.ofTokens [.atom "c"] none]
                       limit := .ofInt 200 } }
    r.IsNested ∧ r.inclusion.IsErrorFree ∧
      ∃ r', Takes r [⟨.atom "a", 2, none⟩, ⟨.atom "b", 0, none⟩, ⟨.atom "c", 0, none⟩] r' ∧
        (r'.unread [⟨.atom "a", 2, none⟩, ⟨.atom "b", 0, none⟩, ⟨.atom "c", 0, none⟩]).flat = r.flat := by
  intro r
  have hr : r.IsNested := by simp [r, IsNested, Places]
  have hi : r.inclusion.IsErrorFree := by
    simp [r, Inclusion.IsErrorFree, Inclusion.Ends, Inclusion.sources, Source.ofTokens]
  obtain ⟨-, -, -, -, htakes, hunread⟩ := refines_flat r hr hi
  obtain ⟨r', h⟩ := htakes 3 (by decide)
  exact ⟨hr, hi, r', h, (hunread _ r' h).2⟩

end Reader

end ErlangMacros
