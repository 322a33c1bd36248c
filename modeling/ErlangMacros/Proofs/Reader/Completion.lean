import ErlangMacros.Proofs.Reader.Extension

/-!
# Reading input that is complete

Input is complete if its last token is a full stop, and no file is open (`Reader.Completes`).  Then there is always a
next token to look at, until the full stop has been read.  With it the reader is drained (`Reader.IsDrained`).
-/

namespace ErlangMacros

namespace Source

variable {s : Source} {t : Token} {ts : List Token}

theorem next_of_remaining_cons (h : s.remaining = t :: ts) :
    s.next.1 = .token t ∧ s.next.2.remaining = ts ∧ s.next.2.stream.ending = s.stream.ending := by
  have hspec := s.next_eq_pullOf
  rw [h] at hspec
  simpa only [pullOf, Prod.mk.injEq] using hspec

theorem next_of_remaining_nil (h : s.remaining = []) (he : s.stream.ending = .finished) :
    s.next.1 = .finished ∧ s.next.2.remaining = [] ∧ s.next.2.stream.ending = .finished := by
  have hspec := s.next_eq_pullOf
  rw [h, he] at hspec
  simpa only [pullOf, Prod.mk.injEq] using hspec

private theorem peek_of_remaining_cons (h : s.remaining = t :: ts) :
    s.peek.1 = .token t ∧ s.peek.2.remaining = t :: ts ∧ s.peek.2.stream.ending = s.stream.ending := by
  obtain ⟨hpull, hremaining, hending⟩ := next_of_remaining_cons h
  have hnext : s.next = (.token t, s.next.2) := Prod.ext hpull rfl
  rw [peek, hnext]
  exact ⟨rfl, congrArg (t :: ·) hremaining, hending⟩

private theorem peek_of_remaining_nil (h : s.remaining = []) (he : s.stream.ending = .finished) :
    s.peek.1 = .finished ∧ s.peek.2.remaining = [] ∧ s.peek.2.stream.ending = .finished := by
  obtain ⟨hpull, hremaining, hending⟩ := next_of_remaining_nil h he
  have hnext : s.next = (.finished, s.next.2) := Prod.ext hpull rfl
  rw [peek, hnext]
  exact ⟨rfl, hremaining, hending⟩

end Source

/-- A source without others around it is the only one that is read. -/
theorem Inclusion.read_alone {i : Inclusion} (h : i.outer = []) (leave : Bool) :
    i.read leave = (i.current.next.1, { i with current := i.current.next.2 }) := by
  cases leave <;> simp [Inclusion.read, readThrough, h]

theorem Inclusion.peek_alone {i : Inclusion} (h : i.outer = []) :
    i.peek = (i.current.peek.1, { i with current := i.current.peek.2 }) := by
  unfold Inclusion.peek
  split
  · next hpeek => simp [hpeek, h, peekThrough]
  · next hpeek => rw [hpeek]

namespace Reader

variable {r r' q : Reader} {t : Token} {ts : List Token} {cs : List Consumed}

/-- Reading and looking ahead while no expansion waits and no file is open. -/
theorem read_alone (hframes : r.frames = []) (houter : r.inclusion.outer = []) (leave : Bool) :
    r.read leave = (r.inclusion.current.next.1,
      { inclusion := { r.inclusion with current := r.inclusion.current.next.2 } }) := by
  simp only [Reader.read, hframes, popFrames, Inclusion.read_alone houter]

theorem peek_alone (hframes : popFrames r.frames = none) (houter : r.inclusion.outer = []) :
    r.peek = (r.inclusion.current.peek.1,
      { r with inclusion := { r.inclusion with current := r.inclusion.current.peek.2 } }) := by
  simp only [Reader.peek, hframes, Inclusion.peek_alone houter]

/-! ### Readers that are drained -/

/-- The input has been read to its end, and nothing else waits. -/
structure IsDrained (r : Reader) : Prop where
  frames_eq : r.frames = []
  outer_eq : r.inclusion.outer = []
  remaining_eq : r.inclusion.current.remaining = []
  ending_eq : r.inclusion.current.stream.ending = .finished
  depth_eq : r.depth = 0
  callSite_eq : r.callSite = none

namespace IsDrained

theorem fst_read (h : r.IsDrained) : r.read.1 = .finished := by
  rw [read_alone h.frames_eq h.outer_eq]
  exact (Source.next_of_remaining_nil h.remaining_eq h.ending_eq).1

theorem peek (h : r.IsDrained) : r.peek.2.IsDrained := by
  obtain ⟨-, hremaining, hending⟩ := Source.peek_of_remaining_nil h.remaining_eq h.ending_eq
  rw [peek_alone (by rw [h.frames_eq, popFrames]) h.outer_eq]
  exact ⟨h.frames_eq, h.outer_eq, hremaining, hending, h.depth_eq, h.callSite_eq⟩

end IsDrained

/-! ### Input that is complete -/

/-- The last token of the input is a full stop, and no file is open. -/
structure Completes (r : Reader) : Prop where
  outer_eq : r.inclusion.outer = []
  ending_eq : r.inclusion.current.stream.ending = .finished
  stop : ∃ t ∈ r.inclusion.current.remaining.getLast?, t.isSymbol "." = true

namespace Completes

private theorem exists_remaining (h : r.Completes) : ∃ t ts, r.inclusion.current.remaining = t :: ts := by
  obtain ⟨stop, hstop, -⟩ := h.stop
  exact List.exists_cons_of_ne_nil fun hnil => by simp [hnil] at hstop

theorem exists_read (h : r.Completes) : ∃ t r', r.read = (.token t, r') := by
  rcases hpop : popFrames r.frames with _ | ⟨t, f, fs⟩
  · obtain ⟨t, ts, hremaining⟩ := h.exists_remaining
    simp only [Reader.read, hpop, Inclusion.read_alone h.outer_eq, (Source.next_of_remaining_cons hremaining).1]
    exact ⟨_, _, rfl⟩
  · simp only [Reader.read, hpop]
    exact ⟨_, _, rfl⟩

/-- Input stays complete until its last full stop has been read. -/
theorem read (h : r.Completes) (hread : r.read = (.token t, r')) :
    r'.Completes ∨ t.isSymbol "." = true ∧ r'.IsDrained := by
  rcases read_cases hread with ⟨f, fs, -, rfl⟩ | ⟨-, i, hi, rfl⟩
  · exact .inl ⟨h.outer_eq, h.ending_eq, h.stop⟩
  · obtain ⟨u, us, hremaining⟩ := h.exists_remaining
    obtain ⟨hpull, hrest, hending⟩ := Source.next_of_remaining_cons hremaining
    rw [Inclusion.read_alone h.outer_eq, Prod.mk.injEq, hpull, Pull.token.injEq] at hi
    obtain ⟨rfl, rfl⟩ := hi
    have hstop := h.stop
    rw [hremaining] at hstop
    cases us with
    | nil =>
      obtain ⟨stop, hlast, hstop⟩ := hstop
      cases hlast
      exact .inr ⟨hstop, rfl, h.outer_eq, hrest, hending.trans h.ending_eq, rfl, rfl⟩
    | cons v us =>
      rw [List.getLast?_cons_cons] at hstop
      exact .inl ⟨h.outer_eq, hending.trans h.ending_eq, by rw [hrest]; exact hstop⟩

theorem peek (h : r.Completes) : r.peek.2.Completes ∧ ∃ t, r.peek.1 = .token t := by
  rcases hpop : popFrames r.frames with _ | ⟨t, f, fs⟩
  · obtain ⟨t, ts, hremaining⟩ := h.exists_remaining
    obtain ⟨hpull, hrest, hending⟩ := Source.peek_of_remaining_cons hremaining
    rw [peek_alone hpop h.outer_eq]
    exact ⟨⟨h.outer_eq, hending.trans h.ending_eq, by rw [hrest, ← hremaining]; exact h.stop⟩, t, hpull⟩
  · simp only [Reader.peek, hpop]
    exact ⟨h, t, rfl⟩

/-- Taking tokens leaves input complete, unless the last of them is its last full stop. -/
theorem takes (h : r.Completes) (htakes : Takes r cs r') :
    r'.Completes ∨ (∃ c ∈ cs.getLast?, c.token.isSymbol "." = true) ∧ r'.IsDrained := by
  induction htakes with
  | nil r => exact .inl h
  | @cons r r₁ r₂ t cs hread hrest ih =>
    rcases h.read hread with h₁ | ⟨hstop, hdrained⟩
    · refine (ih h₁).imp_right fun ⟨⟨c, hc, hstop⟩, hdrained⟩ => ⟨⟨c, ?_, hstop⟩, hdrained⟩
      cases cs with
      | nil => cases hc
      | cons => exact hc
    · -- nothing can be taken from a reader that is drained
      cases hrest with
      | nil => exact .inr ⟨⟨_, rfl, hstop⟩, hdrained⟩
      | cons hread' =>
        have hfinished := hdrained.fst_read
        rw [hread'] at hfinished
        cases hfinished

end Completes

end Reader

end ErlangMacros
