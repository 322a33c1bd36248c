import ErlangMacros.Proofs.Inclusion.Label
import ErlangMacros.Proofs.Reader.Extension

/-!
# Computations with readers that match

Two readers match if they cannot be told apart by what is done to them, as long as the first one stays within a set of
readers: `Reader.IsMatching` asks that of the single operations, and `Reader.IsReadMatching` of those that read ahead.
`Reader.AgreesAt` says that of a computation, and goes through from the operations to all that is put together from them.
-/

namespace ErlangMacros

namespace Reader

variable {R : Reader → Reader → Prop} {V : Reader → Prop} {α β : Type} {r : Reader}

/-- Go on with what a computation gives, unless it fails. -/
def afterResult {ε : Type} (ok : α → Reader → β × Reader) (error : ε → β) : Except ε α × Reader → β × Reader
  | (.ok a, r) => ok a r
  | (.error e, r) => (error e, r)

/-- Go on with the token that is pulled, if there is one. -/
def afterPull (token : Token → Reader → α × Reader) (finished : α) (failed : LexError → α) :
    Pull × Reader → α × Reader
  | (.token t, r) => token t r
  | (.finished, r) => (finished, r)
  | (.failed e, r) => (failed e, r)

/-- A computation gives the same result on a reader and on all that it is related to, and leaves related readers, if it
leaves the first one within `V`.  In that case the reader has been within `V` before. -/
structure AgreesAt (R : Reader → Reader → Prop) (V : Reader → Prop) (f : Reader → α × Reader) (r : Reader) : Prop where
  back : V (f r).2 → V r
  same : ∀ r', R r r' → V (f r).2 → (f r').1 = (f r).1 ∧ R (f r).2 (f r').2

namespace AgreesAt

theorem pure (a : α) (r : Reader) : AgreesAt R V (fun r => (a, r)) r :=
  ⟨id, fun _ h _ => ⟨rfl, h⟩⟩

/-- Only the reader itself and those that are related count. -/
theorem of_eq {f g : Reader → α × Reader} (hf : AgreesAt R V f r) (h : ∀ r', r' = r ∨ R r r' → g r' = f r') :
    AgreesAt R V g r where
  back := by
    rw [h r (.inl rfl)]
    exact hf.back
  same := by
    intro r' hr
    rw [h r (.inl rfl), h r' (.inr hr)]
    exact hf.same r' hr

/-- One computation after another. -/
theorem bind {f : Reader → α × Reader} {k : α → Reader → β × Reader} (hf : AgreesAt R V f r)
    (hk : AgreesAt R V (k (f r).1) (f r).2) : AgreesAt R V (fun r => k (f r).1 (f r).2) r where
  back := fun h => hf.back (hk.back h)
  same := by
    intro r' hr hV
    obtain ⟨hresult, hafter⟩ := hf.same r' hr (hk.back hV)
    show (k (f r').1 (f r').2).1 = (k (f r).1 (f r).2).1 ∧ R (k (f r).1 (f r).2).2 (k (f r').1 (f r').2).2
    rw [hresult]
    exact hk.same _ hafter hV

theorem map {f : Reader → α × Reader} (hf : AgreesAt R V f r) (g : α → β) :
    AgreesAt R V (fun r => (g (f r).1, (f r).2)) r :=
  hf.bind (k := fun a r => (g a, r)) (.pure _ _)

/-- A computation that depends on something that is the same in readers that are related. -/
theorem ask {g : Reader → α} {k : α → Reader → β × Reader} (hg : ∀ r', R r r' → g r' = g r)
    (hk : AgreesAt R V (k (g r)) r) : AgreesAt R V (fun r => k (g r) r) r where
  back := hk.back
  same := by
    intro r' hr hV
    show (k (g r') r').1 = (k (g r) r).1 ∧ R (k (g r) r).2 (k (g r') r').2
    rw [hg r' hr]
    exact hk.same r' hr hV

/-- A computation that does not touch the reader. -/
theorem const {f : Reader → α × Reader} (h : ∀ r', f r' = ((f r).1, r')) : AgreesAt R V f r :=
  .of_eq (.pure (f r).1 r) fun r' _ => h r'

/-- A computation that starts with one that may fail, and ends if it does. -/
theorem handle {ε : Type} {f : Reader → Except ε α × Reader} {g : Reader → β × Reader} (ok : α → Reader → β × Reader)
    (error : ε → β) (hf : AgreesAt R V f r) (hg : ∀ r', r' = r ∨ R r r' → g r' = afterResult ok error (f r'))
    (hok : ∀ a r₁, f r = (.ok a, r₁) → AgreesAt R V (ok a) r₁) : AgreesAt R V g r := by
  refine .of_eq (hf.bind (k := fun result r₁ => afterResult ok error (result, r₁)) ?_) hg
  rcases hresult : f r with ⟨e | a, r₁⟩
  · exact .pure (error e) r₁
  · exact hok a r₁ hresult

/-- A computation that starts with a pull, and ends if no token comes. -/
theorem pull {f : Reader → Pull × Reader} {g : Reader → α × Reader} (token : Token → Reader → α × Reader)
    (finished : α) (failed : LexError → α) (hf : AgreesAt R V f r)
    (hg : ∀ r', r' = r ∨ R r r' → g r' = afterPull token finished failed (f r'))
    (htoken : ∀ t r₁, f r = (.token t, r₁) → AgreesAt R V (token t) r₁) : AgreesAt R V g r := by
  refine .of_eq (hf.bind (k := fun pull r₁ => afterPull token finished failed (pull, r₁)) ?_) hg
  rcases hpull : f r with ⟨t | _ | e, r₁⟩
  · exact htoken t r₁ hpull
  · exact .pure finished r₁
  · exact .pure (failed e) r₁

end AgreesAt

/-- Open a source before the current one goes on. -/
def enter (s : Source) (r : Reader) : Except Error Unit × Reader :=
  match r.inclusion.push s with
  | .ok inclusion => (.ok (), { r with inclusion })
  | .error e => (.error e, r)

/-- Set what the current source reports. -/
def report (filename : Text) (line directiveLine : Int) (r : Reader) : Unit × Reader :=
  ((), { r with inclusion :=
      { r.inclusion with current := r.inclusion.current.setFile filename line directiveLine } })

/-- Reading ahead does the same with readers that are related. -/
structure IsReadMatching (R : Reader → Reader → Prop) (V : Reader → Prop) : Prop where
  place_eq : ∀ {r r'}, R r r' → r'.depth = r.depth ∧ r'.callSite = r.callSite
  label_eq : ∀ {r r'}, R r r' → r'.inclusion.current.label = r.inclusion.current.label
  repeats_eq : ∀ {r r'} leave, R r r' → r'.repeats leave = r.repeats leave
  read : ∀ leave r, AgreesAt R V (·.read leave) r
  peek : ∀ r, AgreesAt R V peek r
  putBack : ∀ c r, AgreesAt R V (fun r => ((), r.putBack c)) r

/-- The operations do the same with readers that are related. -/
structure IsMatching (R : Reader → Reader → Prop) (V : Reader → Prop) : Prop extends IsReadMatching R V where
  push : ∀ f r, AgreesAt R V (fun r => ((), r.push f)) r
  enter : ∀ s r, AgreesAt R V (enter s) r
  report : ∀ filename line directiveLine r, AgreesAt R V (report filename line directiveLine) r

namespace IsReadMatching

theorem consumed_eq (h : IsReadMatching R V) (t : Token) {r' : Reader} (hr : R r r') : r'.consumed t = r.consumed t := by
  obtain ⟨hdepth, hsite⟩ := h.place_eq hr
  rw [consumed, consumed, hdepth, hsite]

theorem unread (h : IsReadMatching R V) (cs : List Consumed) (r : Reader) :
    AgreesAt R V (fun r => ((), r.unread cs)) r := by
  induction cs with
  | nil => exact .pure () r
  | cons c cs ih => exact ih.bind (k := fun _ r => ((), r.putBack c)) (h.putBack c _)

/-- What is read of an argument list from a token on. -/
def argumentsFrom (question : Token) (l : ArgumentList) (t : Token) (r : Reader) : Except Failure Arguments × Reader :=
  match l.step t with
  | .malformed e => (.error (argumentsFailure e t.position), r)
  | .complete args => (.ok ⟨args, [r.consumed t]⟩, r)
  | .more l' =>
    ((Reader.moreArguments question l' r).1.map (·.after (r.consumed t)), (Reader.moreArguments question l' r).2)

/-- The rest of an argument list is read alike. -/
theorem moreArguments (h : IsReadMatching R V) (question : Token) (l : ArgumentList) (r : Reader) :
    AgreesAt R V (Reader.moreArguments question l) r := by
  induction hsize : r.size using Nat.strong_induction_on generalizing l r with
  | _ size ih =>
    subst hsize
    have hsame : ∀ r', r' = r ∨ R r r' → r'.repeats = r.repeats := by
      rintro r' (rfl | hr')
      · rfl
      · exact h.repeats_eq true hr'
    by_cases hrepeats : r.repeats = true
    · refine .of_eq (.pure (.error (.fault .endless)) r) fun r' hr' => ?_
      rw [moreArguments_eq, hsame r' hr', if_pos hrepeats]
    · refine .pull (argumentsFrom question l)
        (.error (argumentsFailure .inputEnds question.position)) (fun e => .error (.ofLex e)) (h.read true r)
        (fun r' hr' => ?_) fun t r₁ hread => ?_
      · rw [moreArguments_eq, hsame r' hr', if_neg hrepeats]
        rcases r'.read with ⟨t | _ | e, r₁⟩ <;> rfl
      · unfold argumentsFrom
        rcases l.step t with l' | args | e
        · refine .ask (g := fun r => r.consumed t)
            (k := fun c r => ((Reader.moreArguments question l' r).1.map (·.after c),
              (Reader.moreArguments question l' r).2)) (fun r' hr => h.consumed_eq t hr) ?_
          exact (ih r₁.size (size_read hread (by simpa using hrepeats)) l' r₁ rfl).map _
        · exact .ask (g := fun r => r.consumed t) (k := fun c r => (Except.ok (⟨args, [c]⟩ : Arguments), r))
            (fun r' hr => h.consumed_eq t hr) (.pure _ r₁)
        · exact .pure _ r₁

theorem arguments (h : IsReadMatching R V) (question : Token) (r : Reader) :
    AgreesAt R V (fun r => r.arguments question) r := by
  refine .pull (fun t r₁ =>
      ((Reader.moreArguments question {} r₁).1.map (·.after (r₁.consumed t)), (Reader.moreArguments question {} r₁).2))
    (.error (argumentsFailure .inputEnds question.position)) (fun e => .error (.ofLex e)) (h.read true r)
    (fun r' _ => ?_) fun t r₁ _ => ?_
  · unfold Reader.arguments
    rcases r'.read with ⟨t | _ | e, r₁⟩ <;> rfl
  · exact .ask (g := fun r => r.consumed t)
      (k := fun c r => ((Reader.moreArguments question {} r).1.map (·.after c), (Reader.moreArguments question {} r).2))
      (fun r' hr => h.consumed_eq t hr) ((h.moreArguments question {} r₁).map _)

end IsReadMatching

end Reader

end ErlangMacros
