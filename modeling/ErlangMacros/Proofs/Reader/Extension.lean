import Mathlib.Data.List.Forall2
import ErlangMacros.Proofs.Inclusion.Label
import ErlangMacros.Proofs.Macro.Arguments

/-!
# Readers with more input behind

What a source gives depends only on the tokens that are left, on how they end, and on its label, not on which of the
tokens were put back (`Source.next_eq_pullOf`).  `Reader.Extends behind r r'` says that `r'` gives what `r` gives, and
the tokens `behind` after that.

As long as `r` gives tokens, `r'` gives the same ones (`Reader.Extends.read`, `Reader.Extends.peek`).  With nothing
behind the two readers cannot be told apart.
-/

namespace ErlangMacros

namespace Source

/-- What a source gives next, and what it has left then, by the tokens that are left and how they end. -/
def pullOf : List Token → Ending → Pull × List Token × Ending
  | t :: ts, ending => (.token t, ts, ending)
  | [], .finished => (.finished, [], .finished)
  | [], .failed e => (.failed e, [], .finished)
  | [], .repeating t => (.token t, [], .repeating t)

theorem next_eq_pullOf (s : Source) :
    (s.next.1, s.next.2.remaining, s.next.2.stream.ending) = pullOf s.remaining s.stream.ending := by
  unfold next pull remaining
  split
  · next hpending => simp only [hpending, List.cons_append, pullOf]
  · next hpending =>
    split
    · next htokens => simp only [hpending, htokens, List.nil_append, pullOf]
    · split <;> simp only [*, List.nil_append, pullOf]

/-- The second source is like the first, with more tokens behind. -/
structure Extends (behind : List Token) (s s' : Source) : Prop where
  label_eq : s'.label = s.label
  remaining_eq : s'.remaining = s.remaining ++ behind
  ending_eq : s'.stream.ending = s.stream.ending
  finished : behind = [] ∨ s.stream.ending = .finished

namespace Extends

variable {behind : List Token} {s s' s₁ : Source} {pull : Pull}

theorem refl (s : Source) : s.Extends [] s :=
  ⟨rfl, (List.append_nil _).symm, rfl, .inl rfl⟩

/-- Of two sources that extend one, the longer one extends the other. -/
theorem rest {more : List Token} {s'' : Source} (h : s.Extends behind s') (h' : s.Extends (behind ++ more) s'') :
    s'.Extends more s'' where
  label_eq := h'.label_eq.trans h.label_eq.symm
  remaining_eq := by rw [h'.remaining_eq, h.remaining_eq, List.append_assoc]
  ending_eq := h'.ending_eq.trans h.ending_eq.symm
  finished := h'.finished.imp (fun hnil => (List.append_eq_nil_iff.1 hnil).2) h.ending_eq.trans

theorem next (h : s.Extends behind s') (hnext : s.next = (pull, s₁)) (hpull : behind = [] ∨ ∃ t, pull = .token t) :
    ∃ s₁', s'.next = (pull, s₁') ∧ s₁.Extends behind s₁' := by
  have hspec := s.next_eq_pullOf
  have hspec' := s'.next_eq_pullOf
  have hlabel := s.label_next
  rw [h.remaining_eq, h.ending_eq] at hspec'
  rw [hnext] at hspec hlabel
  have hfinished : behind = [] ∨ s.remaining ≠ [] ∧ s.stream.ending = .finished := by
    rcases hpull with hnil | ⟨t, rfl⟩
    · exact .inl hnil
    · refine h.finished.imp_right fun hending => ⟨fun hremaining => ?_, hending⟩
      rw [hremaining, hending] at hspec
      cases hspec
  refine ⟨s'.next.2, Prod.ext ?_ rfl, ⟨s'.label_next.trans (h.label_eq.trans hlabel.symm), ?_, ?_, ?_⟩⟩
  all_goals
    rcases hfinished with rfl | ⟨hremaining, hending⟩
    · rw [List.append_nil, ← hspec] at hspec'
      simp only [Prod.mk.injEq] at hspec'
      simp [hspec']
    · obtain ⟨t, ts, hremaining⟩ := List.exists_cons_of_ne_nil hremaining
      rw [hremaining] at hspec hspec'
      simp only [List.cons_append, pullOf, Prod.mk.injEq] at hspec hspec'
      simp [hspec, hspec', hending]

theorem putBack (h : s.Extends behind s') (t : Token) : (s.putBack t).Extends behind (s'.putBack t) where
  label_eq := h.label_eq
  remaining_eq := congrArg (t :: ·) h.remaining_eq
  ending_eq := h.ending_eq
  finished := h.finished

theorem peek (h : s.Extends behind s') (hpeek : s.peek = (pull, s₁)) (hpull : behind = [] ∨ ∃ t, pull = .token t) :
    ∃ s₁', s'.peek = (pull, s₁') ∧ s₁.Extends behind s₁' := by
  unfold Source.peek at hpeek
  rcases hnext : s.next with ⟨t | _ | e, s₂⟩ <;> rw [hnext] at hpeek <;> cases hpeek <;>
    obtain ⟨s₂', hnext', h₂⟩ := h.next hnext hpull
  · exact ⟨s₂'.putBack t, by simp only [Source.peek, hnext'], h₂.putBack t⟩
  · exact ⟨s₂', by simp only [Source.peek, hnext'], h₂⟩
  · exact ⟨s₂', by simp only [Source.peek, hnext'], h₂⟩

theorem setFile (h : s.Extends behind s') (filename : Text) (line directiveLine : Int) :
    (s.setFile filename line directiveLine).Extends behind (s'.setFile filename line directiveLine) where
  label_eq := congrArg
    (fun l : Label => { l with logicalFilename := some filename, lineOffset := line - (directiveLine + 1) }) h.label_eq
  remaining_eq := h.remaining_eq
  ending_eq := h.ending_eq
  finished := h.finished

end Extends

theorem repeats_eq (s : Source) : s.repeats = (s.remaining.isEmpty && s.stream.ending.repeats) := by
  obtain ⟨_, _, _, _, pending, _, _⟩ := s
  cases pending <;> rfl

private theorem isExhausted_eq (s : Source) :
    s.isExhausted = (s.remaining.isEmpty && decide (s.stream.ending = .finished)) := by
  obtain ⟨_, _, _, _, pending, _, _⟩ := s
  cases pending <;> rfl

/-- A source repeats a token, or does not, whatever stands behind. -/
theorem Extends.repeats_eq {behind : List Token} {s s' : Source} (h : s.Extends behind s') :
    s'.repeats = s.repeats := by
  rw [Source.repeats_eq, Source.repeats_eq, h.remaining_eq, h.ending_eq]
  rcases h.finished with rfl | hending
  · rw [List.append_nil]
  · rw [hending]
    simp [Ending.repeats]

end Source

namespace Inclusion

/-- The second sources are like the first, with more tokens behind.  There are such tokens only behind the input
itself, while no file is open. -/
structure Extends (behind : List Token) (i i' : Inclusion) : Prop where
  limit_eq : i'.limit = i.limit
  current : i.current.Extends behind i'.current
  outer : List.Forall₂ (Source.Extends []) i.outer i'.outer
  alone : behind = [] ∨ i.outer = []

namespace Extends

variable {behind : List Token} {i i' i₁ : Inclusion} {pull : Pull}

theorem size_eq (h : i.Extends behind i') : i'.size = i.size := by
  simp [size, h.outer.length_eq]

theorem outer_eq_nil (h : i.Extends behind i') (houter : i.outer = []) : i'.outer = [] := by
  have hlength := h.outer.length_eq
  rw [houter] at hlength
  exact List.length_eq_zero_iff.1 hlength.symm

/-- With nothing behind, all sources are alike. -/
theorem sources (h : i.Extends [] i') : List.Forall₂ (Source.Extends []) i.sources i'.sources :=
  .cons h.current h.outer

theorem readThrough {current current' s : Source} {outer outer' ss : List Source}
    (hcurrent : current.Extends behind current') (houter : List.Forall₂ (Source.Extends []) outer outer')
    (halone : behind = [] ∨ outer = []) (hread : Inclusion.readThrough current outer = (pull, s, ss))
    (hpull : behind = [] ∨ ∃ t, pull = .token t) :
    ∃ s' ss', Inclusion.readThrough current' outer' = (pull, s', ss') ∧ s.Extends behind s' ∧
      List.Forall₂ (Source.Extends []) ss ss' ∧ (behind = [] ∨ ss = []) := by
  induction houter generalizing current current' with
  | nil =>
    cases hread
    obtain ⟨s', hnext, hs'⟩ := hcurrent.next rfl hpull
    exact ⟨s', [], by simp only [Inclusion.readThrough, hnext], hs', .nil, .inr rfl⟩
  | @cons o o' outer outer' ho houter ih =>
    obtain rfl : behind = [] := by simpa using halone
    unfold Inclusion.readThrough at hread
    rcases hnext : current.next with ⟨t | _ | e, current₁⟩ <;> rw [hnext] at hread <;>
      obtain ⟨current₁', hnext', hcurrent₁⟩ := hcurrent.next hnext (.inl rfl)
    · cases hread
      exact ⟨_, _, by simp only [Inclusion.readThrough, hnext'], hcurrent₁, .cons ho houter, .inl rfl⟩
    · obtain ⟨s', ss', hread', hrest⟩ := ih ho (.inl rfl) hread
      exact ⟨s', ss', by simp only [Inclusion.readThrough, hnext', hread'], hrest⟩
    · cases hread
      exact ⟨_, _, by simp only [Inclusion.readThrough, hnext'], hcurrent₁, .cons ho houter, .inl rfl⟩

theorem read {leave : Bool} (h : i.Extends behind i') (hread : i.read leave = (pull, i₁))
    (hpull : behind = [] ∨ ∃ t, pull = .token t) : ∃ i₁', i'.read leave = (pull, i₁') ∧ i₁.Extends behind i₁' := by
  cases leave with
  | false =>
    cases hread
    obtain ⟨s', hnext, hs'⟩ := h.current.next rfl hpull
    exact ⟨{ i' with current := s' }, by simp [Inclusion.read, hnext], h.limit_eq, hs', h.outer, h.alone⟩
  | true =>
    cases hread
    obtain ⟨s', ss', hread, hs', hss', halone⟩ := readThrough h.current h.outer h.alone rfl hpull
    exact ⟨{ i' with current := s', outer := ss' }, by simp [Inclusion.read, hread], h.limit_eq, hs', hss', halone⟩

theorem peekThrough {ss ss' : List Source} (h : List.Forall₂ (Source.Extends []) ss ss') :
    (Inclusion.peekThrough ss').1 = (Inclusion.peekThrough ss).1 ∧
      List.Forall₂ (Source.Extends []) (Inclusion.peekThrough ss).2 (Inclusion.peekThrough ss').2 := by
  induction h with
  | nil => exact ⟨rfl, .nil⟩
  | @cons s s' outer outer' hs houter ih =>
    unfold Inclusion.peekThrough
    rcases hpeek : s.peek with ⟨t | _ | e, s₁⟩ <;> obtain ⟨s₁', hpeek', hs₁⟩ := hs.peek hpeek (.inl rfl) <;>
      rw [hpeek']
    · exact ⟨rfl, .cons hs₁ houter⟩
    · exact ⟨ih.1, .cons hs₁ ih.2⟩
    · exact ⟨rfl, .cons hs₁ houter⟩

theorem peek (h : i.Extends behind i') (hpeek : i.peek = (pull, i₁)) (hpull : behind = [] ∨ ∃ t, pull = .token t) :
    ∃ i₁', i'.peek = (pull, i₁') ∧ i₁.Extends behind i₁' := by
  unfold Inclusion.peek at hpeek
  rcases hcurrent : i.current.peek with ⟨t | _ | e, s⟩ <;> rw [hcurrent] at hpeek
  · cases hpeek
    obtain ⟨s', hcurrent', hs'⟩ := h.current.peek hcurrent hpull
    exact ⟨{ i' with current := s' }, by simp only [Inclusion.peek, hcurrent'], h.limit_eq, hs', h.outer, h.alone⟩
  · -- the end of the input shows only if nothing stands behind
    have hnil : behind = [] := by
      refine hpull.elim id fun ⟨t, ht⟩ => h.alone.resolve_right fun houter => ?_
      rw [houter] at hpeek
      cases hpeek
      cases ht
    subst hnil
    cases hpeek
    obtain ⟨s', hcurrent', hs'⟩ := h.current.peek hcurrent (.inl rfl)
    obtain ⟨hpull', houter'⟩ := peekThrough h.outer
    exact ⟨{ i' with current := s', outer := (Inclusion.peekThrough i'.outer).2 },
      by simp only [Inclusion.peek, hcurrent', hpull'], h.limit_eq, hs', houter', .inl rfl⟩
  · cases hpeek
    obtain ⟨s', hcurrent', hs'⟩ := h.current.peek hcurrent hpull
    exact ⟨{ i' with current := s' }, by simp only [Inclusion.peek, hcurrent'], h.limit_eq, hs', h.outer, h.alone⟩

theorem any_repeats_eq {ss ss' : List Source} (h : List.Forall₂ (Source.Extends []) ss ss') :
    (ss'.find? (!·.isExhausted)).any Source.repeats = (ss.find? (!·.isExhausted)).any Source.repeats := by
  induction h with
  | nil => rfl
  | @cons s s' _ _ hs _ ih =>
    have hexhausted : s'.isExhausted = s.isExhausted := by
      rw [Source.isExhausted_eq, Source.isExhausted_eq, hs.remaining_eq, hs.ending_eq, List.append_nil]
    rw [List.find?_cons, List.find?_cons, hexhausted]
    cases s.isExhausted with
    | true => exact ih
    | false => exact hs.repeats_eq

theorem any_repeats_singleton (s : Source) : ([s].find? (!·.isExhausted)).any Source.repeats = s.repeats := by
  rw [List.find?_singleton]
  cases hexhausted : s.isExhausted with
  | false => rfl
  | true =>
    rw [Source.isExhausted_eq, Bool.and_eq_true, decide_eq_true_eq] at hexhausted
    simp [Source.repeats_eq, hexhausted.2, Ending.repeats]

/-- The token that comes next repeats for ever, or does not, whatever stands behind. -/
theorem repeats_eq (h : i.Extends behind i') (leave : Bool) : i'.repeats leave = i.repeats leave := by
  cases leave with
  | false => exact h.current.repeats_eq
  | true =>
    rcases h.alone with rfl | houter
    · exact any_repeats_eq h.sources
    · simp only [Inclusion.repeats, Inclusion.sources, houter, h.outer_eq_nil houter, if_true, any_repeats_singleton]
      exact h.current.repeats_eq

/-- Files are opened alike, if nothing stands behind. -/
theorem push (h : i.Extends [] i') (s : Source) :
    (∃ e, i.push s = .error e ∧ i'.push s = .error e) ∨
      ∃ i₁ i₁', i.push s = .ok i₁ ∧ i'.push s = .ok i₁' ∧ i₁.Extends [] i₁' := by
  unfold Inclusion.push
  rw [h.size_eq, h.limit_eq]
  split
  · exact .inl ⟨_, rfl, rfl⟩
  · exact .inr ⟨_, _, rfl, rfl, rfl, .refl s, h.sources, .inl rfl⟩

private theorem forall₂_rest {ss ss' ss'' : List Source} (h : List.Forall₂ (Source.Extends []) ss ss')
    (h' : List.Forall₂ (Source.Extends []) ss ss'') : List.Forall₂ (Source.Extends []) ss' ss'' := by
  induction h generalizing ss'' with
  | nil =>
    cases h'
    exact .nil
  | cons hs _ ih =>
    cases h' with
    | cons hs' hrest => exact .cons (hs.rest hs') (ih hrest)


theorem rest {more : List Token} {i'' : Inclusion} (h : i.Extends behind i') (h' : i.Extends (behind ++ more) i'') :
    i'.Extends more i'' where
  limit_eq := h'.limit_eq.trans h.limit_eq.symm
  current := h.current.rest h'.current
  outer := forall₂_rest h.outer h'.outer
  alone := h'.alone.imp (fun hnil => (List.append_eq_nil_iff.1 hnil).2) h.outer_eq_nil

end Extends

end Inclusion

namespace Reader

/-- The second reader is like the first, with more tokens behind. -/
structure Extends (behind : List Token) (r r' : Reader) : Prop where
  frames_eq : r'.frames = r.frames
  inclusion : r.inclusion.Extends behind r'.inclusion
  depth_eq : r'.depth = r.depth
  callSite_eq : r'.callSite = r.callSite

namespace Extends

variable {behind : List Token} {r r' r₁ : Reader} {pull : Pull}

theorem fromSource_eq (h : r.Extends behind r') : r'.fromSource = r.fromSource := by
  rw [fromSource, fromSource, h.depth_eq]

theorem consumed_eq (h : r.Extends behind r') (t : Token) : r'.consumed t = r.consumed t := by
  rw [consumed, consumed, h.depth_eq, h.callSite_eq]

theorem repeats_eq (h : r.Extends behind r') (leave : Bool) : r'.repeats leave = r.repeats leave := by
  rw [repeats, repeats, h.frames_eq, h.inclusion.repeats_eq]

theorem read {leave : Bool} (h : r.Extends behind r') (hread : r.read leave = (pull, r₁))
    (hpull : behind = [] ∨ ∃ t, pull = .token t) : ∃ r₁', r'.read leave = (pull, r₁') ∧ r₁.Extends behind r₁' := by
  unfold Reader.read at hread ⊢
  rw [h.frames_eq]
  rcases hpop : popFrames r.frames with _ | ⟨t, f, frames⟩ <;> rw [hpop] at hread
  · rcases hi : r.inclusion.read leave with ⟨pull', i⟩
    rw [hi] at hread
    cases hread
    obtain ⟨i', hi', hextends⟩ := h.inclusion.read hi hpull
    exact ⟨{ inclusion := i' }, by rw [hi'], rfl, hextends, rfl, rfl⟩
  · cases hread
    exact ⟨_, rfl, rfl, h.inclusion, rfl, rfl⟩

theorem peek (h : r.Extends behind r') (hpeek : r.peek = (pull, r₁)) (hpull : behind = [] ∨ ∃ t, pull = .token t) :
    ∃ r₁', r'.peek = (pull, r₁') ∧ r₁.Extends behind r₁' := by
  unfold Reader.peek at hpeek ⊢
  rw [h.frames_eq]
  rcases hpop : popFrames r.frames with _ | ⟨t, f, frames⟩ <;> rw [hpop] at hpeek
  · rcases hi : r.inclusion.peek with ⟨pull', i⟩
    rw [hi] at hpeek
    cases hpeek
    obtain ⟨i', hi', hextends⟩ := h.inclusion.peek hi hpull
    exact ⟨{ r' with inclusion := i' }, by rw [hi', h.frames_eq], h.frames_eq, hextends, h.depth_eq, h.callSite_eq⟩
  · cases hpeek
    exact ⟨r', rfl, h⟩

/-- Of two readers that extend one, the longer one extends the other. -/
theorem rest {more : List Token} {r'' : Reader} (h : r.Extends behind r') (h' : r.Extends (behind ++ more) r'') :
    r'.Extends more r'' where
  frames_eq := h'.frames_eq.trans h.frames_eq.symm
  inclusion := h.inclusion.rest h'.inclusion
  depth_eq := h'.depth_eq.trans h.depth_eq.symm
  callSite_eq := h'.callSite_eq.trans h.callSite_eq.symm

theorem push (h : r.Extends behind r') (f : ExpansionFrame) : (r.push f).Extends behind (r'.push f) where
  frames_eq := congrArg (f :: ·) h.frames_eq
  inclusion := h.inclusion
  depth_eq := h.depth_eq
  callSite_eq := h.callSite_eq

theorem putBack (h : r.Extends behind r') (c : Consumed) : (r.putBack c).Extends behind (r'.putBack c) := by
  unfold Reader.putBack
  split
  · exact ⟨h.frames_eq, ⟨h.inclusion.limit_eq, h.inclusion.current.putBack _, h.inclusion.outer, h.inclusion.alone⟩,
      h.depth_eq, h.callSite_eq⟩
  · rw [h.frames_eq]
    split
    · split
      · exact ⟨rfl, h.inclusion, h.depth_eq, h.callSite_eq⟩
      · exact h.push _
    · exact h.push _

theorem unread (h : r.Extends behind r') (cs : List Consumed) : (r.unread cs).Extends behind (r'.unread cs) := by
  induction cs with
  | nil => exact h
  | cons c cs ih => exact ih.putBack c

end Extends

/-! ### Arguments -/

/-- Only a computation that succeeds may be followed by more tokens. -/
theorem eq_nil_of_error {α : Type} {behind : List Token} {f : Failure}
    (h : behind = [] ∨ ∃ a : α, (.error f : Except Failure α) = .ok a) : behind = [] := by
  rcases h with h | ⟨a, ha⟩
  · exact h
  · cases ha

private theorem exists_ok_of_map {result : Except Failure Arguments} {g : Arguments → Arguments}
    (h : ∃ a, result.map g = .ok a) : ∃ a, result = .ok a := by
  cases result with
  | error f => exact absurd h nofun
  | ok a => exact ⟨a, rfl⟩

/-- The same arguments are read, if they are complete, whatever stands behind. -/
theorem Extends.moreArguments {behind : List Token} {question : Token} {l : ArgumentList} {r r' r₁ : Reader}
    {result : Except Failure Arguments} (h : r.Extends behind r')
    (harguments : Reader.moreArguments question l r = (result, r₁)) (hmode : behind = [] ∨ ∃ a, result = .ok a) :
    ∃ r₁', Reader.moreArguments question l r' = (result, r₁') ∧ r₁.Extends behind r₁' := by
  fun_induction Reader.moreArguments question l r generalizing r' result r₁ with
  | case1 l r hr =>
    cases harguments
    exact ⟨r', by rw [moreArguments_eq, h.repeats_eq, if_pos hr], h⟩
  | case2 l r hr e r₂ hread =>
    cases harguments
    obtain rfl : behind = [] := eq_nil_of_error hmode
    obtain ⟨r₂', hread', h₂⟩ := h.read hread (.inl rfl)
    exact ⟨r₂', by rw [moreArguments_eq, h.repeats_eq, if_neg hr, hread'], h₂⟩
  | case3 l r hr r₂ hread =>
    cases harguments
    obtain rfl : behind = [] := eq_nil_of_error hmode
    obtain ⟨r₂', hread', h₂⟩ := h.read hread (.inl rfl)
    exact ⟨r₂', by rw [moreArguments_eq, h.repeats_eq, if_neg hr, hread'], h₂⟩
  | case4 l r hr t r₂ hread e hstep =>
    cases harguments
    obtain ⟨r₂', hread', h₂⟩ := h.read hread (.inr ⟨t, rfl⟩)
    exact ⟨r₂', by simp only [moreArguments_eq, h.repeats_eq, if_neg hr, hread', hstep], h₂⟩
  | case5 l r hr t r₂ hread args hstep =>
    cases harguments
    obtain ⟨r₂', hread', h₂⟩ := h.read hread (.inr ⟨t, rfl⟩)
    exact ⟨r₂', by simp only [moreArguments_eq, h.repeats_eq, if_neg hr, hread', hstep, h₂.consumed_eq], h₂⟩
  | case6 l r hr t r₂ hread l' hstep hsize rest r₃ hrest ih =>
    cases harguments
    obtain ⟨r₂', hread', h₂⟩ := h.read hread (.inr ⟨t, rfl⟩)
    obtain ⟨r₃', hrest', h₃⟩ := ih h₂ hrest (hmode.imp_right exists_ok_of_map)
    refine ⟨r₃', ?_, h₃⟩
    simp only [moreArguments_eq question l r', h.repeats_eq, if_neg hr, hread', hstep, h₂.consumed_eq, hrest']

theorem Extends.arguments {behind : List Token} {question : Token} {r r' r₁ : Reader}
    {result : Except Failure Arguments} (h : r.Extends behind r') (harguments : r.arguments question = (result, r₁))
    (hmode : behind = [] ∨ ∃ a, result = .ok a) :
    ∃ r₁', r'.arguments question = (result, r₁') ∧ r₁.Extends behind r₁' := by
  unfold Reader.arguments at harguments ⊢
  rcases hread : r.read with ⟨t | _ | e, r₂⟩ <;> rw [hread] at harguments
  · obtain ⟨r₂', hread', h₂⟩ := h.read hread (.inr ⟨t, rfl⟩)
    rcases hrest : Reader.moreArguments question {} r₂ with ⟨rest, r₃⟩
    simp only [hrest] at harguments
    cases harguments
    obtain ⟨r₃', hrest', h₃⟩ := h₂.moreArguments hrest (hmode.imp_right exists_ok_of_map)
    exact ⟨r₃', by simp only [hread', hrest', h₂.consumed_eq], h₃⟩
  · cases harguments
    obtain rfl : behind = [] := eq_nil_of_error hmode
    obtain ⟨r₂', hread', h₂⟩ := h.read hread (.inl rfl)
    exact ⟨r₂', by rw [hread'], h₂⟩
  · cases harguments
    obtain rfl : behind = [] := eq_nil_of_error hmode
    obtain ⟨r₂', hread', h₂⟩ := h.read hread (.inl rfl)
    exact ⟨r₂', by rw [hread'], h₂⟩

end Reader

end ErlangMacros
