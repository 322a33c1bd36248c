import ErlangMacros.Error
import ErlangMacros.Source

/-!
# Nested sources

An included file is read before the rest of the file that includes it.  The outermost source is the input and is
never left.
-/

namespace ErlangMacros

/-- The sources that are open. -/
structure Inclusion where
  /-- The innermost source. -/
  current : Source
  /-- The sources around it, from the inside out. -/
  outer : List Source := []
  limit : DepthLimit
deriving DecidableEq

namespace Inclusion

/-- The open sources, from the inside out. -/
def sources (i : Inclusion) : List Source :=
  i.current :: i.outer

/-- The number of open sources. -/
def size (i : Inclusion) : Nat :=
  i.outer.length + 1

/-- The number of tokens left in sources. -/
def countThrough : List Source → Nat
  | [] => 0
  | s :: outer => s.size + countThrough outer

/-- The number of tokens left. -/
def tokenCount (i : Inclusion) : Nat :=
  countThrough i.sources

/-- Read a source before the current one goes on. -/
def push (i : Inclusion) (s : Source) : Except Error Inclusion :=
  if i.limit.value < i.size then .error ⟨.includeTooDeep i.limit s.filename, s.includedFrom⟩
  else .ok { i with current := s, outer := i.sources }

/-- Leave the innermost source; `none` if only the input is left. -/
def pop? (i : Inclusion) : Option Inclusion :=
  match i.outer with
  | [] => none
  | s :: outer => some { i with current := s, outer }

/-- Read from the innermost source that has a token, leaving those that are exhausted. -/
def readThrough (current : Source) : List Source → Pull × Source × List Source
  | [] => let (p, s) := current.next; (p, s, [])
  | s :: outer =>
    match current.next with
    | (.finished, _) => readThrough s outer
    | (p, current') => (p, current', s :: outer)

/-- Read the next token.  With `leave` an exhausted file is left; without it, its end is the end. -/
def read (i : Inclusion) (leave : Bool) : Pull × Inclusion :=
  if leave then
    let (p, current, outer) := readThrough i.current i.outer
    (p, { i with current, outer })
  else
    let (p, current) := i.current.next
    (p, { i with current })

/-- The next token is one that comes for ever. -/
def repeats (i : Inclusion) (leave : Bool) : Bool :=
  if leave then (i.sources.find? (!·.isExhausted)).any Source.repeats else i.current.repeats

private theorem repeats_of_find? {s : Source} {outer : List Source} {t : Token} {s' : Source}
    (h : s.next = (.token t, s')) (hr : ((s :: outer).find? (!·.isExhausted)).any Source.repeats = false) :
    s.repeats = false := by
  have hx : s.isExhausted = false := by
    rw [← Bool.not_eq_true, ← s.next_fst_eq_finished_iff, h]
    simp
  simpa [hx] using hr

theorem size_readThrough {current s : Source} {outer outer' : List Source} {t : Token}
    (h : readThrough current outer = (.token t, s, outer'))
    (hr : ((current :: outer).find? (!·.isExhausted)).any Source.repeats = false) :
    countThrough (s :: outer') < countThrough (current :: outer) := by
  induction outer generalizing current with
  | nil =>
    obtain ⟨hp, hs, ho⟩ : current.next.1 = .token t ∧ current.next.2 = s ∧ [] = outer' := by
      simpa [readThrough] using h
    subst ho
    have hn : current.next = (.token t, s) := Prod.ext hp hs
    simpa [countThrough] using Source.size_next hn (repeats_of_find? hn hr)
  | cons o outer ih =>
    unfold readThrough at h
    split at h
    · next hn =>
      have hx : current.isExhausted = true := by
        rw [← current.next_fst_eq_finished_iff, hn]
      have hlt := ih h (by simpa [List.find?_cons, hx] using hr)
      exact Nat.lt_of_lt_of_le hlt (Nat.le_add_left _ _)
    · next hn =>
      obtain ⟨rfl, rfl, rfl⟩ : _ = Pull.token t ∧ _ = s ∧ o :: outer = outer' := by simpa using h
      have hlt := Source.size_next hn (repeats_of_find? hn hr)
      exact Nat.add_lt_add_right hlt _

/-- Reading takes a token away, unless it is one that comes for ever. -/
theorem tokenCount_read {i i' : Inclusion} {leave : Bool} {t : Token} (h : i.read leave = (.token t, i'))
    (hr : i.repeats leave = false) : i'.tokenCount < i.tokenCount := by
  cases leave with
  | false =>
    obtain ⟨hp, hi⟩ : i.current.next.1 = .token t ∧ { i with current := i.current.next.2 } = i' := by
      simpa [read] using h
    subst hi
    have := Source.size_next (Prod.ext hp rfl) hr
    simpa [tokenCount, sources, countThrough] using this
  | true =>
    obtain ⟨hp, hi⟩ : (readThrough i.current i.outer).1 = .token t ∧
        { i with current := (readThrough i.current i.outer).2.1,
                 outer := (readThrough i.current i.outer).2.2 } = i' := by
      simpa [read] using h
    subst hi
    exact size_readThrough (Prod.ext hp rfl) hr

/-- Look at the next token of the first source that has one. -/
def peekThrough : List Source → Pull × List Source
  | [] => (.finished, [])
  | s :: outer =>
    match s.peek with
    | (.finished, s') => let (p, outer') := peekThrough outer; (p, s' :: outer')
    | (p, s') => (p, s' :: outer)

/-- Look at the next token.  Exhausted files stay open until the next read. -/
def peek (i : Inclusion) : Pull × Inclusion :=
  match i.current.peek with
  | (.finished, current) => let (p, outer) := peekThrough i.outer; (p, { i with current, outer })
  | (p, current) => (p, { i with current })

/-- Leave all files and drop what is left of the input. -/
def clear (i : Inclusion) : Inclusion :=
  { i with current := (i.outer.getLast?.getD i.current).emptied, outer := [] }

/-- The files that were left on the way from `i` to `later`, in the order of leaving. -/
def leftOn (i later : Inclusion) : List (Option Text) :=
  (i.sources.take (i.size - later.size)).map (·.filename)

end Inclusion

end ErlangMacros
