import ErlangMacros.Proofs.Reader.Completion

/-!
# Reading on in the current source

Outside of all expansions (`Reader.IsOutside`) tokens are read from the current source as long as it has any, and no other
source is touched.  `Reader.Passes ts r r'` says that the reader has come from `r` to `r'` in this way, that the tokens
`ts` are left of the current source, and that nothing else has changed.
-/

namespace ErlangMacros

namespace Source

variable {s s' s'' : Source} {t : Token} {ts : List Token}

/-- Tokens of a source have been read, and nothing else has changed. -/
inductive Passes (s : Source) : Source → Prop where
  | mk (pending tokens : List Token) (reach : Nat) :
      Passes s { s with pending, stream := { s.stream with tokens }, reach }

theorem Passes.refl (s : Source) : s.Passes s :=
  .mk s.pending s.stream.tokens s.reach

theorem Passes.trans (h : s.Passes s') (h' : s'.Passes s'') : s.Passes s'' := by
  cases h
  cases h'
  exact .mk _ _ _

theorem Passes.label_eq (h : s.Passes s') : s'.label = s.label := by
  cases h
  rfl

theorem Passes.ending_eq (h : s.Passes s') : s'.stream.ending = s.stream.ending := by
  cases h
  rfl

private theorem exists_next (h : s.remaining = t :: ts) :
    ∃ s', s.next = (.token t, s') ∧ s.Passes s' ∧ s'.remaining = ts := by
  obtain ⟨hpull, hrest, -⟩ := next_of_remaining_cons h
  refine ⟨s.next.2, Prod.ext hpull rfl, ?_, hrest⟩
  unfold next pull
  split
  · exact .mk _ _ _
  · next hpending =>
    split
    · exact .mk _ _ _
    · next htokens => simp [remaining, hpending, htokens] at h

private theorem exists_peek (h : s.remaining = t :: ts) :
    ∃ s', s.peek = (.token t, s') ∧ s.Passes s' ∧ s'.remaining = t :: ts := by
  obtain ⟨s', hnext, hpasses, hrest⟩ := exists_next h
  refine ⟨s'.putBack t, ?_, hpasses.trans (.mk _ _ _), congrArg (t :: ·) hrest⟩
  simp only [peek, hnext]

private theorem exists_next_end (h : s.remaining = []) (he : s.stream.ending = .finished) :
    ∃ s', s.next = (.finished, s') ∧ s.Passes s' ∧ s'.remaining = [] := by
  obtain ⟨hpull, hrest, -⟩ := next_of_remaining_nil h he
  refine ⟨s.next.2, Prod.ext hpull rfl, ?_, hrest⟩
  obtain ⟨hpending, htokens⟩ := List.append_eq_nil_iff.1 h
  simp only [next, pull, hpending, htokens, he]
  exact .mk _ _ _

private theorem exists_peek_end (h : s.remaining = []) (he : s.stream.ending = .finished) :
    ∃ s', s.peek = (.finished, s') ∧ s.Passes s' ∧ s'.remaining = [] := by
  obtain ⟨s', hnext, hpasses, hrest⟩ := exists_next_end h he
  exact ⟨s', by simp only [peek, hnext], hpasses, hrest⟩

end Source

namespace Reader

variable {r r' r'' : Reader} {t : Token} {ts us : List Token} {cs : List Consumed}

/-! ### Outside of all expansions -/

/-- No expansion waits, and the last token came straight from a source. -/
structure IsOutside (r : Reader) : Prop where
  frames_eq : r.frames = []
  depth_eq : r.depth = 0
  callSite_eq : r.callSite = none

theorem IsOutside.read {pull : Pull} {leave : Bool} (hr : r.IsOutside) (h : r.read leave = (pull, r')) :
    r'.IsOutside := by
  unfold Reader.read at h
  rw [hr.frames_eq] at h
  cases h
  exact ⟨rfl, rfl, rfl⟩

theorem IsOutside.peek (hr : r.IsOutside) : r.peek.2.IsOutside := by
  unfold Reader.peek
  rw [hr.frames_eq]
  exact ⟨rfl, hr.depth_eq, hr.callSite_eq⟩

theorem IsOutside.takes (hr : r.IsOutside) (h : Takes r cs r') : r'.IsOutside := by
  induction h with
  | nil r => exact hr
  | cons hread _ ih => exact ih (hr.read hread)

/-- A token at depth zero is read outside of all expansions. -/
theorem isOutside_of_read (hnested : r.IsNested) (h : r.read = (.token t, r')) (hdepth : r'.depth = 0) :
    r'.IsOutside := by
  rcases read_cases h with ⟨f, fs, hpop, rfl⟩ | ⟨-, i, -, rfl⟩
  · have hpositive : 1 ≤ f.depth := hnested f (mem_of_popFrames hpop).1
    have hzero : f.depth = 0 := hdepth
    omega
  · exact ⟨rfl, rfl, rfl⟩

theorem IsOutside.fromSource_eq (hr : r.IsOutside) : r.fromSource = true := by
  simp [fromSource, hr.depth_eq]

/-! ### Reading on -/

/-- Tokens of the current source have been read, so that `ts` are left of it, and nothing else has changed. -/
structure Passes (ts : List Token) (r r' : Reader) : Prop where
  isOutside : r'.IsOutside
  current : r.inclusion.current.Passes r'.inclusion.current
  remaining_eq : r'.inclusion.current.remaining = ts
  outer_eq : r'.inclusion.outer = r.inclusion.outer
  limit_eq : r'.inclusion.limit = r.inclusion.limit

theorem IsOutside.passes (hr : r.IsOutside) (h : r.inclusion.current.remaining = ts) : r.Passes ts r :=
  ⟨hr, .refl _, h, rfl, rfl⟩

theorem Passes.trans (h : r.Passes us r') (h' : r'.Passes ts r'') : r.Passes ts r'' :=
  ⟨h'.isOutside, h.current.trans h'.current, h'.remaining_eq, h'.outer_eq.trans h.outer_eq,
    h'.limit_eq.trans h.limit_eq⟩

/-- Readers of sources that differ only in their tokens are alike once they have come to the same ones. -/
theorem Passes.extends {q q' : Reader} (h : r.Passes ts r') (h' : q.Passes ts q')
    (hlabel : q.inclusion.current.label = r.inclusion.current.label)
    (hending : q.inclusion.current.stream.ending = r.inclusion.current.stream.ending)
    (houter : q.inclusion.outer = r.inclusion.outer) (hlimit : q.inclusion.limit = r.inclusion.limit) :
    r'.Extends [] q' where
  frames_eq := h'.isOutside.frames_eq.trans h.isOutside.frames_eq.symm
  inclusion :=
    { limit_eq := h'.limit_eq.trans (hlimit.trans h.limit_eq.symm)
      current :=
        { label_eq := h'.current.label_eq.trans (hlabel.trans h.current.label_eq.symm)
          remaining_eq := by rw [h'.remaining_eq, h.remaining_eq, List.append_nil]
          ending_eq := h'.current.ending_eq.trans (hending.trans h.current.ending_eq.symm)
          finished := .inl rfl }
      outer := by
        rw [h'.outer_eq, houter, h.outer_eq]
        exact List.forall₂_same.2 fun s _ => .refl s
      alone := .inl rfl }
  depth_eq := h'.isOutside.depth_eq.trans h.isOutside.depth_eq.symm
  callSite_eq := h'.isOutside.callSite_eq.trans h.isOutside.callSite_eq.symm

theorem IsOutside.read_current (hr : r.IsOutside) (h : r.inclusion.current.remaining = t :: ts) (leave : Bool) :
    ∃ r', r.read leave = (.token t, r') ∧ r.Passes ts r' := by
  obtain ⟨s, hnext, hpasses, hrest⟩ := Source.exists_next h
  have hread : r.inclusion.read leave = (.token t, { r.inclusion with current := s }) := by
    unfold Inclusion.read
    cases leave with
    | false => simp [hnext]
    | true => rcases houter : r.inclusion.outer with _ | ⟨o, outer⟩ <;> simp [Inclusion.readThrough, hnext, houter]
  refine ⟨{ inclusion := { r.inclusion with current := s } }, ?_, ⟨rfl, rfl, rfl⟩, hpasses, hrest, rfl, rfl⟩
  simp only [Reader.read, hr.frames_eq, popFrames, hread]

theorem IsOutside.peek_current (hr : r.IsOutside) (h : r.inclusion.current.remaining = t :: ts) :
    ∃ r', r.peek = (.token t, r') ∧ r.Passes (t :: ts) r' := by
  obtain ⟨s, hpeek, hpasses, hrest⟩ := Source.exists_peek h
  refine ⟨{ r with inclusion := { r.inclusion with current := s } }, ?_, ⟨hr.frames_eq, hr.depth_eq, hr.callSite_eq⟩,
    hpasses, hrest, rfl, rfl⟩
  simp only [Reader.peek, hr.frames_eq, popFrames, Inclusion.peek, hpeek]

/-- At the end of the input there is nothing to look at. -/
theorem IsOutside.peek_end (hr : r.IsOutside) (h : r.inclusion.current.remaining = [])
    (hending : r.inclusion.current.stream.ending = .finished) (houter : r.inclusion.outer = []) :
    ∃ r', r.peek = (.finished, r') ∧ r.Passes [] r' := by
  obtain ⟨s, hpeek, hpasses, hrest⟩ := Source.exists_peek_end h hending
  refine ⟨{ r with inclusion := { r.inclusion with current := s } }, ?_, ⟨hr.frames_eq, hr.depth_eq, hr.callSite_eq⟩,
    hpasses, hrest, rfl, rfl⟩
  rw [peek_alone (by rw [hr.frames_eq, popFrames]) houter, hpeek]

/-- The input is read outside of all expansions, no file is open, and the tokens are left of it. -/
structure AwaitsInput (ts : List Token) (r : Reader) : Prop where
  isOutside : r.IsOutside
  outer_eq : r.inclusion.outer = []
  ending_eq : r.inclusion.current.stream.ending = .finished
  remaining_eq : r.inclusion.current.remaining = ts

theorem AwaitsInput.passes (h : r.AwaitsInput us) (hr : r.Passes ts r') : r'.AwaitsInput ts :=
  ⟨hr.isOutside, hr.outer_eq.trans h.outer_eq, hr.current.ending_eq.trans h.ending_eq, hr.remaining_eq⟩

theorem AwaitsInput.isErrorFree (h : r.AwaitsInput ts) : r.inclusion.IsErrorFree := by
  intro s hs
  rw [Inclusion.sources, h.outer_eq] at hs
  cases List.mem_singleton.1 hs
  exact h.ending_eq

theorem AwaitsInput.read_end (h : r.AwaitsInput []) (leave : Bool) :
    ∃ r', r.read leave = (.finished, r') ∧ r.Passes [] r' := by
  obtain ⟨s, hnext, hpasses, hrest⟩ := Source.exists_next_end h.remaining_eq h.ending_eq
  refine ⟨{ inclusion := { r.inclusion with current := s } }, ?_, ⟨rfl, rfl, rfl⟩, hpasses, hrest, rfl, rfl⟩
  rw [read_alone h.isOutside.frames_eq h.outer_eq, hnext]

theorem AwaitsInput.repeats_eq (h : r.AwaitsInput ts) : r.repeats false = false := by
  simp [repeats, Inclusion.repeats, Source.repeats_eq, h.ending_eq, Ending.repeats]

/-- A source that has tokens left does not repeat one for ever. -/
theorem repeats_eq_false (h : r.inclusion.current.remaining = t :: ts) : r.repeats false = false := by
  simp [repeats, Inclusion.repeats, Source.repeats_eq, h]

end Reader

end ErlangMacros
