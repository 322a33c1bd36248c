import ErlangMacros.Proofs.Reader.Flat
import Mathlib.Data.List.Forall2
import Mathlib.Data.Stream.Init

/-!
# What the sources supply

A source gives the tokens that it has left, and maybe one token for ever.  `Lexing.supply` is all that texts give one
after the other, as an infinite sequence.  Looking at the next token does not change what the open sources supply,
reading straight from a source takes its head, and putting back what was read restores it, whatever sources have been
left in between (`Takes.supply_unread`).
-/

namespace ErlangMacros

namespace Lexing

variable {l : Lexing} {ls ls' ls'' : List Lexing} {t : Token} {ts : List Token}

/-- The tokens that texts give, one text after the other.  A token that comes for ever keeps what follows back. -/
def supply : List Lexing → Stream' (Option Token)
  | [] => Stream'.const none
  | l :: ls =>
    l.tokens.map some ++ₛ
      match l.ending with
      | .repeating t => Stream'.const (some t)
      | .finished | .failed _ => supply ls

theorem supply_cons_token (h : l.tokens = t :: ts) :
    supply (l :: ls) = Stream'.cons (some t) (supply ({ l with tokens := ts } :: ls)) := by
  simp only [supply, h, List.map_cons, Stream'.cons_append_stream]

theorem supply_cons_repeating (h : l.tokens = []) (hl : l.ending = .repeating t) :
    supply (l :: ls) = Stream'.const (some t) := by
  simp only [supply, h, hl, List.map_nil, Stream'.nil_append_stream]

theorem supply_cons_of_ends (h : l.ending.repeats = false) (ls : List Lexing) :
    supply (l :: ls) = l.tokens.map some ++ₛ supply ls := by
  rcases hending : l.ending with _ | e | t
  · simp only [supply, hending]
  · simp only [supply, hending]
  · simp [hending, Ending.repeats] at h

theorem supply_cons_end (h : l.tokens = []) (hl : l.ending.repeats = false) : supply (l :: ls) = supply ls := by
  rw [supply_cons_of_ends hl, h, List.map_nil, Stream'.nil_append_stream]

theorem supply_cons_of_repeats (h : l.ending.repeats = true) (ls ls' : List Lexing) :
    supply (l :: ls) = supply (l :: ls') := by
  obtain ⟨t, ht⟩ := Ending.exists_eq_repeating h
  simp only [supply, ht]

theorem supply_cons_congr (h : supply ls = supply ls') : supply (l :: ls) = supply (l :: ls') := by
  simp only [supply, h]

/-- The text after some of its tokens have been taken. -/
def dropped (l : Lexing) (k : Nat) : Lexing :=
  { l with tokens := l.tokens.drop k }

private theorem dropped_zero (l : Lexing) : l.dropped 0 = l :=
  rfl

theorem dropped_dropped (l : Lexing) (k n : Nat) : (l.dropped k).dropped n = l.dropped (k + n) := by
  simp [dropped]

/-- What is left of texts, after some tokens of each have been taken. -/
def AreRests (rests ls : List Lexing) : Prop :=
  List.Forall₂ (fun rest l => ∃ k, rest = l.dropped k) rests ls

theorem AreRests.refl (ls : List Lexing) : AreRests ls ls :=
  List.forall₂_same.2 fun l _ => ⟨0, l.dropped_zero.symm⟩

theorem AreRests.trans (h : AreRests ls ls') (h' : AreRests ls' ls'') : AreRests ls ls'' := by
  induction h generalizing ls'' with
  | nil => exact h'
  | cons hl _ ih =>
    cases h' with
    | cons hl' hls' =>
      obtain ⟨k, rfl⟩ := hl
      obtain ⟨n, rfl⟩ := hl'
      exact .cons ⟨n + k, dropped_dropped _ n k⟩ (ih hls')

/-- After the first token has been taken, rests of the texts supply what is left. -/
theorem exists_rests_tail {s : Stream' (Option Token)} (h : supply ls = Stream'.cons (some t) s) :
    ∃ rests, AreRests rests ls ∧ supply rests = s := by
  induction ls with
  | nil =>
    rw [supply, Stream'.const_eq] at h
    cases (Stream'.cons_injective2 h).1
  | cons l ls ih =>
    rcases htokens : l.tokens with _ | ⟨u, us⟩
    · by_cases hending : l.ending.repeats
      · obtain ⟨u, hu⟩ := Ending.exists_eq_repeating hending
        rw [supply_cons_repeating htokens hu, Stream'.const_eq] at h
        refine ⟨l :: ls, .refl _, ?_⟩
        rw [supply_cons_repeating htokens hu]
        exact (Stream'.cons_injective2 h).2
      · rw [supply_cons_end htokens (by simpa using hending)] at h
        obtain ⟨rests, hrests, hs⟩ := ih h
        refine ⟨l :: rests, .cons ⟨0, rfl⟩ hrests, ?_⟩
        rw [supply_cons_end htokens (by simpa using hending), hs]
    · rw [supply_cons_token htokens] at h
      refine ⟨l.dropped 1 :: ls, .cons ⟨1, rfl⟩ (AreRests.refl ls), ?_⟩
      rw [← (Stream'.cons_injective2 h).2, dropped, htokens]
      rfl

theorem exists_rests {s : Stream' (Option Token)} (h : supply ls = ts.map some ++ₛ s) :
    ∃ rests, AreRests rests ls ∧ supply rests = s := by
  induction ts generalizing ls with
  | nil => exact ⟨ls, .refl ls, h⟩
  | cons t ts ih =>
    obtain ⟨rests, hrests, hs⟩ := exists_rests_tail h
    obtain ⟨rests', hrests', hs'⟩ := ih hs
    exact ⟨rests', hrests'.trans hrests, hs'⟩

/-- Texts give some tokens first. -/
def Begins (ls : List Lexing) (ts : List Token) : Prop :=
  ∃ s, supply ls = ts.map some ++ₛ s

/-- Of two lists at the front of one sequence one continues the other. -/
theorem prefix_or_prefix {ts us : List Token} {s s' : Stream' (Option Token)}
    (h : ts.map some ++ₛ s = us.map some ++ₛ s') : ts <+: us ∨ us <+: ts := by
  induction ts generalizing us with
  | nil => exact .inl List.nil_prefix
  | cons t ts ih =>
    cases us with
    | nil => exact .inr List.nil_prefix
    | cons u us =>
      obtain ⟨ht, hrest⟩ := Stream'.cons_injective2 h
      cases ht
      exact (ih hrest).imp (List.cons_prefix_cons.2 ⟨rfl, ·⟩) (List.cons_prefix_cons.2 ⟨rfl, ·⟩)

/-- A text that ends gives its tokens and no more. -/
theorem begins_singleton_iff (h : l.ending.repeats = false) : Begins [l] ts ↔ ts <+: l.tokens := by
  constructor
  · rintro ⟨s, hs⟩
    rw [supply_cons_of_ends h] at hs
    rcases prefix_or_prefix hs with ⟨us, hus⟩ | hprefix
    · rw [← hus, List.map_append, Stream'.append_append_stream, Stream'.append_right_inj, supply, Stream'.const_eq] at hs
      cases us with
      | nil => exact ⟨[], by rw [List.append_nil, ← hus, List.append_nil]⟩
      | cons u us => cases (Stream'.cons_injective2 hs).1
    · exact hprefix
  · rintro ⟨us, hus⟩
    rw [Begins, supply_cons_of_ends h, ← hus]
    exact ⟨_, by rw [List.map_append, Stream'.append_append_stream]⟩

end Lexing

open Lexing

namespace Source

variable {s s' : Source} {t : Token}

/-- What a source has left. -/
def rest (s : Source) : Lexing :=
  { s.stream with tokens := s.remaining }

theorem supply_putBack (s : Source) (t : Token) (ls : List Lexing) :
    supply ((s.putBack t).rest :: ls) = Stream'.cons (some t) (supply (s.rest :: ls)) :=
  supply_cons_token rfl

/-- Reading takes the head of what is supplied. -/
theorem supply_next (h : s.next = (.token t, s')) (ls : List Lexing) :
    supply (s.rest :: ls) = Stream'.cons (some t) (supply (s'.rest :: ls)) := by
  unfold next at h
  split at h
  · next hp =>
    cases h
    exact supply_cons_token (by simp [rest, remaining, hp])
  · next hp =>
    unfold pull at h
    split at h
    · next ts ht =>
      cases h
      have hrest : s.rest.tokens = t :: ts := by simp [rest, remaining, hp, ht]
      rw [supply_cons_token hrest]
      simp [rest, remaining, hp]
    · next ht =>
      split at h
      · cases h
      · cases h
      · next he =>
        cases h
        have hrest : s.rest.tokens = [] := by simp [rest, remaining, hp, ht]
        rw [supply_cons_repeating hrest he]
        exact Stream'.const_eq _

/-- A source that gives no token supplies nothing, neither then nor later. -/
theorem supply_of_next {pull : Pull} (h : s.next = (pull, s')) (hpull : ∀ t, pull ≠ .token t) (ls : List Lexing) :
    supply (s.rest :: ls) = supply ls ∧ supply (s'.rest :: ls) = supply ls := by
  cases pull with
  | token t => exact absurd rfl (hpull t)
  | finished =>
    obtain ⟨hnil, hnil', hending⟩ := remaining_of_next_finished h
    have hfinished : s.stream.ending.repeats = false := by
      have hexhausted := s.next_fst_eq_finished_iff.1 (congrArg Prod.fst h)
      simp only [isExhausted, Bool.and_eq_true, decide_eq_true_eq] at hexhausted
      rw [hexhausted.2]
      rfl
    exact ⟨supply_cons_end hnil hfinished, supply_cons_end hnil' (by rwa [rest, hending])⟩
  | failed e =>
    obtain ⟨hending, hending', hnil, hnil'⟩ := ending_of_next_failed h
    exact ⟨supply_cons_end hnil (by simp [rest, hending, Ending.repeats]),
      supply_cons_end hnil' (by simp [rest, hending', Ending.repeats])⟩

theorem supply_peek (s : Source) (ls : List Lexing) : supply (s.peek.2.rest :: ls) = supply (s.rest :: ls) := by
  unfold peek
  rcases hn : s.next with ⟨t | _ | e, s'⟩
  · rw [supply_next hn]
    exact supply_putBack s' t ls
  · obtain ⟨hs, hs'⟩ := supply_of_next hn nofun ls
    exact hs'.trans hs.symm
  · obtain ⟨hs, hs'⟩ := supply_of_next hn nofun ls
    exact hs'.trans hs.symm

end Source

namespace Inclusion

private theorem supply_readThrough {current s : Source} {outer outer' : List Source} {t : Token}
    (h : readThrough current outer = (.token t, s, outer')) :
    supply ((current :: outer).map Source.rest) = Stream'.cons (some t) (supply ((s :: outer').map Source.rest)) := by
  induction outer generalizing current with
  | nil =>
    obtain ⟨hp, rfl, rfl⟩ : current.next.1 = .token t ∧ current.next.2 = s ∧ [] = outer' := by
      simpa [readThrough] using h
    exact Source.supply_next (Prod.ext hp rfl) _
  | cons o outer ih =>
    unfold readThrough at h
    split at h
    · next hn =>
      rw [List.map_cons, (Source.supply_of_next hn (by simp) _).1]
      exact ih h
    · next hn =>
      cases h
      exact Source.supply_next hn _

private theorem supply_peekThrough (ss : List Source) :
    supply ((peekThrough ss).2.map Source.rest) = supply (ss.map Source.rest) := by
  induction ss with
  | nil => rfl
  | cons s outer ih =>
    have hs := s.supply_peek
    unfold peekThrough
    split
    · next hp =>
      rw [hp] at hs
      exact (hs _).trans (supply_cons_congr ih)
    · next hp =>
      rw [hp] at hs
      exact hs _

end Inclusion

namespace Reader

variable {r r' : Reader} {t : Token} {c : Consumed} {cs : List Consumed}

/-- What the open sources supply. -/
def supply (r : Reader) : Stream' (Option Token) :=
  Lexing.supply (r.inclusion.sources.map Source.rest)

theorem supply_peek (r : Reader) : r.peek.2.supply = r.supply := by
  unfold supply
  rcases r.inclusion_peek with h | h <;> rw [h]
  rw [r.inclusion.peek_eq.2.1]
  exact Inclusion.supply_peekThrough _

/-- A token is read from an expansion, or it is the head of what the sources supply and no expansion waits. -/
theorem supply_read (h : r.read = (.token t, r')) :
    (r'.inclusion = r.inclusion ∧ ∃ f ∈ r.frames, r'.depth = f.depth) ∨
      (r'.depth = 0 ∧ r.supply = Stream'.cons (some t) r'.supply) := by
  rcases read_cases h with ⟨f, fs, hpop, rfl⟩ | ⟨-, i, hi, rfl⟩
  · exact .inl ⟨rfl, f, (mem_of_popFrames hpop).1, rfl⟩
  · obtain ⟨hp, rfl⟩ := Prod.mk.inj hi
    exact .inr ⟨rfl, Inclusion.supply_readThrough (Prod.ext hp rfl)⟩

/-- The tokens that were read straight from sources. -/
def sourced (cs : List Consumed) : List Token :=
  (cs.filter (·.depth = 0)).map Consumed.token

theorem sourced_cons_of_eq (h : c.depth = 0) (cs : List Consumed) : sourced (c :: cs) = c.token :: sourced cs := by
  simp [sourced, h]

theorem sourced_cons_of_ne (h : c.depth ≠ 0) (cs : List Consumed) : sourced (c :: cs) = sourced cs := by
  simp [sourced, h]

theorem sourced_eq (h : ∀ c ∈ cs, c.depth = 0) : sourced cs = cs.map Consumed.token := by
  rw [sourced, List.filter_eq_self.2 fun c hc => by simp [h c hc]]

theorem supply_unread (r : Reader) (cs : List Consumed) : (r.unread cs).supply = (sourced cs).map some ++ₛ r.supply := by
  induction cs with
  | nil => rfl
  | cons c cs ih =>
    rw [unread, List.foldr_cons, ← unread]
    by_cases hc : c.depth = 0
    · rw [sourced_cons_of_eq hc, List.map_cons, Stream'.cons_append_stream, ← ih, putBack, if_pos hc]
      exact Source.supply_putBack _ _ _
    · rw [sourced_cons_of_ne hc, ← ih, supply, (expanded_putBack hc).2, supply]

/-- The tokens that are read straight from sources are the next ones that these supply. -/
theorem Takes.supply_eq (h : Takes r cs r') (hr : r.IsNested) : r.supply = (sourced cs).map some ++ₛ r'.supply := by
  induction h with
  | nil r => rfl
  | @cons r r₁ r₂ t cs hread _ ih =>
    have hrest := ih (hr.of_read hread).1
    rcases supply_read hread with ⟨hinclusion, f, hf, hdepth⟩ | ⟨hdepth, hsupply⟩
    · have hne : r₁.depth ≠ 0 := by
        have := hr f hf
        omega
      rw [sourced_cons_of_ne hne, ← hrest, supply, supply, hinclusion]
    · rw [sourced_cons_of_eq hdepth, List.map_cons, Stream'.cons_append_stream, ← hrest, hsupply]
      rfl

/-- Putting back what was read restores what the sources supply. -/
theorem Takes.supply_unread (h : Takes r cs r') (hr : r.IsNested) : (r'.unread cs).supply = r.supply :=
  (r'.supply_unread cs).trans (h.supply_eq hr).symm

/-- What the sources supply has lost some tokens at its front. -/
def Drains (r r' : Reader) : Prop :=
  ∃ ts : List Token, r.supply = ts.map some ++ₛ r'.supply

theorem Drains.of_eq (h : r'.supply = r.supply) : r.Drains r' :=
  ⟨[], h.symm⟩

theorem Drains.trans {r'' : Reader} (h : r.Drains r') (h' : r'.Drains r'') : r.Drains r'' := by
  obtain ⟨ts, hts⟩ := h
  obtain ⟨ts', hts'⟩ := h'
  exact ⟨ts ++ ts', by rw [hts, hts', List.map_append, Stream'.append_append_stream]⟩

theorem drains_of_read (h : r.read = (.token t, r')) (hr : r.IsNested) : r.Drains r' :=
  ⟨_, ((Takes.nil r').cons h).supply_eq hr⟩

end Reader

end ErlangMacros
