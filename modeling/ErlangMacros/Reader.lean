import ErlangMacros.Inclusion

/-!
# The token reader

The reader is the stream of tokens that the preprocessor sees: pending expansions come before the current source.
Every token is read at a depth, the number of expansions it sits in, and at the site of the outermost call that
led to it.  Expansions have depths from one on; tokens that are pushed from outside may have any.
-/

namespace ErlangMacros

/-- The tokens of one expansion that wait to be read. -/
structure ExpansionFrame where
  tokens : List Token
  name : Option Text
  depth : Int
  callSite : Option Position
deriving DecidableEq

/-- A token that was read ahead, with the depth and the call site it was read at. -/
structure Consumed where
  token : Token
  depth : Int
  callSite : Option Position
deriving DecidableEq

/-- Pending expansions, innermost first, before the open sources. -/
structure Reader where
  frames : List ExpansionFrame := []
  inclusion : Inclusion
  /-- The depth of the token that was read last. -/
  depth : Int := 0
  /-- The call site of the token that was read last. -/
  callSite : Option Position := none
deriving DecidableEq

namespace Reader

/-- The last token came straight from a source. -/
def fromSource (r : Reader) : Bool :=
  r.depth = 0

/-- The number of tokens left. -/
def size (r : Reader) : Nat :=
  (r.frames.flatMap (·.tokens)).length + r.inclusion.tokenCount

/-- The first token of the frames, with the frame it comes from and the frames that are left then. -/
def popFrames : List ExpansionFrame → Option (Token × ExpansionFrame × List ExpansionFrame)
  | [] => none
  | f :: fs =>
    match f.tokens with
    | t :: ts => some (t, f, { f with tokens := ts } :: fs)
    | [] => popFrames fs

/-- Read the next token.  `leave` says whether exhausted files are left. -/
def read (r : Reader) (leave : Bool := true) : Pull × Reader :=
  match popFrames r.frames with
  | some (t, f, frames) => (.token t, { r with frames, depth := f.depth, callSite := f.callSite })
  | none =>
    let (p, inclusion) := r.inclusion.read leave
    (p, { frames := [], inclusion, depth := 0, callSite := none })

/-- The next token is one that comes for ever. -/
def repeats (r : Reader) (leave : Bool := true) : Bool :=
  r.frames.all (·.tokens.isEmpty) && r.inclusion.repeats leave

private theorem length_popFrames {frames frames' : List ExpansionFrame} {t : Token} {f : ExpansionFrame}
    (h : popFrames frames = some (t, f, frames')) :
    (frames'.flatMap (·.tokens)).length < (frames.flatMap (·.tokens)).length := by
  induction frames with
  | nil => simp [popFrames] at h
  | cons g frames ih =>
    unfold popFrames at h
    split at h
    · next ht =>
      obtain ⟨-, -, rfl⟩ : _ ∧ _ ∧ _ = frames' := by simpa using h
      simp [ht]
    · have := ih h
      rw [List.flatMap_cons, List.length_append]
      omega

private theorem all_isEmpty_of_popFrames {frames : List ExpansionFrame} (h : popFrames frames = none) :
    frames.all (·.tokens.isEmpty) = true := by
  induction frames with
  | nil => rfl
  | cons g frames ih =>
    unfold popFrames at h
    split at h
    · simp at h
    · next ht => simp only [List.all_cons, ht, List.isEmpty_nil, ih h, Bool.and_self]

/-- Reading takes a token away, unless it is one that comes for ever. -/
theorem size_read {r r' : Reader} {leave : Bool} {t : Token} (h : r.read leave = (.token t, r'))
    (hr : r.repeats leave = false) : r'.size < r.size := by
  unfold read at h
  split at h
  · next hf =>
    obtain ⟨-, rfl⟩ := Prod.mk.inj h
    have := length_popFrames hf
    simp only [size]
    omega
  · next hf =>
    obtain ⟨hp, rfl⟩ : (r.inclusion.read leave).1 = .token t ∧
        ({ inclusion := (r.inclusion.read leave).2 } : Reader) = r' := by
      simpa using h
    have hi : r.inclusion.repeats leave = false := by
      simpa [repeats, all_isEmpty_of_popFrames hf] using hr
    have hread : r.inclusion.read leave = (.token t, (r.inclusion.read leave).2) := Prod.ext hp rfl
    have := Inclusion.tokenCount_read hread hi
    simp only [size, List.flatMap_nil, List.length_nil]
    omega

/-- Look at the next token. -/
def peek (r : Reader) : Pull × Reader :=
  match popFrames r.frames with
  | some (t, _, _) => (.token t, r)
  | none => let (p, inclusion) := r.inclusion.peek; (p, { r with inclusion })

/-- Read tokens before anything else. -/
def push (r : Reader) (f : ExpansionFrame) : Reader :=
  { r with frames := f :: r.frames }

/-- Put a token back at the depth and call site it was read at. -/
def putBack (r : Reader) (c : Consumed) : Reader :=
  if c.depth = 0 then
    { r with inclusion := { r.inclusion with current := r.inclusion.current.putBack c.token } }
  else
    match r.frames with
    | f :: fs =>
      if f.name = none && f.depth = c.depth && f.callSite = c.callSite then
        { r with frames := { f with tokens := c.token :: f.tokens } :: fs }
      else r.push ⟨[c.token], none, c.depth, c.callSite⟩
    | [] => r.push ⟨[c.token], none, c.depth, c.callSite⟩

/-- Put back tokens that were read in this order. -/
def unread (r : Reader) (consumed : List Consumed) : Reader :=
  consumed.foldr (fun c r => r.putBack c) r

/-- The token that was just read, with the depth and the call site it was read at. -/
def consumed (r : Reader) (t : Token) : Consumed :=
  ⟨t, r.depth, r.callSite⟩

/-- Drop everything that waits to be read. -/
def clear (r : Reader) : Reader :=
  { r with frames := [], inclusion := r.inclusion.clear }

end Reader

end ErlangMacros
