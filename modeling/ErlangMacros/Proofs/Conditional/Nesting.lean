import ErlangMacros.Preprocessor.Evaluation
import ErlangMacros.Proofs.Conditional.Activity
import ErlangMacros.Proofs.Operations

/-!
# Nested conditionals

Operations on the open conditionals are taken one after the other, starting with none open.  None of them fails and none
of the conditionals stays open exactly if the operations are nested (`finish_foldlM_iff`).  One direction goes by
induction on how nested operations are put together, and says that they leave every stack as it was.  The other one goes
by induction on the operations, and needs to know how they close the conditionals that are open already (`Closes`).
-/

namespace ErlangMacros

namespace Conditional

/-- What can be done with the open conditionals. -/
inductive Operation where
  | push (condition : Bool) (position : Option Position)
  | flip (position : Option Position)
  | close (position : Option Position)
deriving DecidableEq

/-- Operations that belong to conditionals which are closed among them, each with one other branch at most. -/
inductive Nested : List Operation → Prop where
  | nil : Nested []
  | conditional {condition : Bool} {opened closed : Option Position} {body rest : List Operation}
      (inside : Nested body) (behind : Nested rest) : Nested (.push condition opened :: body ++ .close closed :: rest)
  | alternative {condition : Bool} {opened turned closed : Option Position} {body other rest : List Operation}
      (inside : Nested body) (otherwise : Nested other) (behind : Nested rest) :
      Nested (.push condition opened :: body ++ .flip turned :: other ++ .close closed :: rest)

namespace Stack

variable {s s' : Stack} {op : Operation} {ops : List Operation}

/-- Take an operation. -/
def perform (s : Stack) : Operation → Except Error Stack
  | .push condition position => .ok (s.push condition position)
  | .flip position => s.flip position
  | .close position => s.close position

/-! ### Operations that do not fail -/

/-- Nested operations leave the stack as it was. -/
theorem foldlM_nested (h : Nested ops) (s : Stack) : ops.foldlM perform s = .ok s := by
  induction h generalizing s with
  | nil => rfl
  | @conditional condition opened closed body rest _ _ hbody hrest =>
    have hopened : (.push condition opened :: body).foldlM perform s = .ok (s.push condition opened) := hbody _
    rw [List.foldlM_append, hopened]
    exact hrest s
  | @alternative condition opened turned closed body other rest _ _ _ hbody hother hrest =>
    have hopened : (.push condition opened :: body).foldlM perform s = .ok (s.push condition opened) := hbody _
    have hturned : (.flip turned :: other).foldlM perform (s.push condition opened) =
        .ok ⟨⟨!condition, s.active, opened, true⟩ :: s.frames⟩ := hother _
    rw [List.foldlM_append, List.foldlM_append, hopened]
    show ((.flip turned :: other).foldlM perform (s.push condition opened) >>= _) = _
    rw [hturned]
    exact hrest s

/-- Operations that close conditionals, of which it is known whether they have come to their other branch, and are nested
before, in between and after. -/
def Closes : List Bool → List Operation → Prop
  | [], ops => Nested ops
  | elseSeen :: outer, ops =>
    ∃ body closed rest, Nested body ∧ Closes outer rest ∧
      (ops = body ++ .close closed :: rest ∨
        elseSeen = false ∧ ∃ turned other, Nested other ∧ ops = body ++ .flip turned :: other ++ .close closed :: rest)

/-- The conditional that is open inside of all others may be opened by the operations themselves. -/
theorem Closes.push {seen : List Bool} (h : Closes (false :: seen) ops) (condition : Bool) (opened : Option Position) :
    Closes seen (.push condition opened :: ops) := by
  obtain ⟨body, closed, rest, hbody, hrest, hops⟩ := h
  -- what comes before the next operation at this level grows by a whole conditional
  have hgrow : ∀ {after : List Operation}, Nested after →
      Nested (.push condition opened :: body ++ .close closed :: after) ∧
        ∀ turned other, Nested other →
          Nested (.push condition opened :: body ++ .flip turned :: other ++ .close closed :: after) :=
    fun hafter => ⟨.conditional hbody hafter, fun _ _ hother => .alternative hbody hother hafter⟩
  cases seen with
  | nil =>
    rcases hops with rfl | ⟨-, turned, other, hother, rfl⟩
    · exact (hgrow hrest).1
    · exact (hgrow hrest).2 turned other hother
  | cons elseSeen outer =>
    obtain ⟨after, closed', rest', hafter, hrest', hops'⟩ := hrest
    rcases hops with rfl | ⟨-, turned, other, hother, rfl⟩
    · refine ⟨_, closed', rest', (hgrow hafter).1, hrest', ?_⟩
      rcases hops' with rfl | ⟨helse, turned', other', hother', rfl⟩
      · exact .inl (by simp)
      · exact .inr ⟨helse, turned', other', hother', by simp⟩
    · refine ⟨_, closed', rest', (hgrow hafter).2 turned other hother, hrest', ?_⟩
      rcases hops' with rfl | ⟨helse, turned', other', hother', rfl⟩
      · exact .inl (by simp)
      · exact .inr ⟨helse, turned', other', hother', by simp⟩

/-- Operations after which no conditional is open close those that were. -/
theorem closes_of_foldlM (h : ops.foldlM perform s = .ok s') (hs' : s'.frames = []) :
    Closes (s.frames.map (·.elseSeen)) ops := by
  induction ops generalizing s with
  | nil =>
    cases h
    rw [hs']
    exact .nil
  | cons op ops ih =>
    rw [List.foldlM_cons] at h
    rcases hop : s.perform op with e | s₁ <;> rw [hop] at h
    · cases h
    · have hrest := ih h
      cases op with
      | push condition position =>
        cases hop
        exact hrest.push condition position
      | flip position =>
        obtain ⟨f, fs, hframes, helse, rfl⟩ := flip_eq_ok hop
        obtain ⟨body, closed, rest, hbody, hrest, hops | ⟨hfalse, -⟩⟩ := hrest
        · rw [hframes]
          exact ⟨[], closed, rest, .nil, hrest, .inr ⟨helse, position, body, hbody, by simp [hops]⟩⟩
        · cases hfalse
      | close position =>
        obtain ⟨f, fs, hframes, rfl⟩ := close_eq_ok hop
        rw [hframes]
        exact ⟨[], position, ops, .nil, hrest, .inl rfl⟩

private theorem finish_eq_ok_iff : s.finish = .ok () ↔ s.frames = [] := by
  unfold finish
  split
  · next hframes => simp [hframes]
  · next hframes => simp [hframes]

/-- No operation fails and no conditional stays open exactly if the operations are nested. -/
theorem finish_foldlM_iff : (ops.foldlM perform {} >>= finish) = .ok () ↔ Nested ops := by
  constructor
  · intro h
    rcases hs' : ops.foldlM perform {} with e | s' <;> rw [hs'] at h
    · cases h
    · exact closes_of_foldlM hs' (finish_eq_ok_iff.1 h)
  · intro h
    rw [foldlM_nested h]
    rfl

/-! ### Operations of which some may fail -/

private theorem changes_perform (h : s.perform op = .ok s') : s.Changes s' := by
  cases op with
  | push condition position =>
    cases h
    exact .opened condition position
  | flip position => exact .turned h
  | close position => exact .closed h

private theorem AreConsistent.parentActive_eq {fs above below : List Frame} {f : Frame} (h : AreConsistent fs)
    (hfs : fs = above ++ f :: below) : f.parentActive = below.all (·.condition) := by
  induction above generalizing fs with
  | nil =>
    subst hfs
    exact h.1
  | cons g above ih =>
    subst hfs
    exact ih h.2 rfl

/-- A directive that is about conditionals takes its operation, and leaves them as they were if that fails. -/
theorem conditions_evalConditional (p : Preprocessor) (op : Operation) :
    (p.evalConditional (p.conditions.perform op)).state.conditions = proceed perform p.conditions [op] := by
  unfold Preprocessor.evalConditional
  rcases hop : p.conditions.perform op with e | s'
  · exact (proceed_error hop).symm
  · exact (proceed_ok hop).symm

/-- Operations from the empty stack on, followed by its end, all succeed exactly if they are nested.  One that fails
leaves the stack as it was, also in a run.  After any operations, of which some may have failed, every open conditional
keeps whether the conditions of all those around it hold, and tokens are emitted exactly if all conditions hold. -/
theorem recognises_nested (ops : List Operation) :
    ((ops.foldlM perform {} >>= finish) = .ok () ↔ Nested ops) ∧
      let s := proceed perform {} ops
      (∀ op e, s.perform op = .error e →
        proceed perform {} (ops ++ [op]) = s ∧
          ∀ p : Preprocessor, p.conditions = s →
            (p.evalConditional (s.perform op)).outcome = .fail (.error e) ∧
              (p.evalConditional (s.perform op)).state.conditions = s) ∧
      (∀ above f below, s.frames = above ++ f :: below → f.parentActive = below.all (·.condition)) ∧
      (s.active = true ↔ ∀ f ∈ s.frames, f.condition = true) := by
  refine ⟨finish_foldlM_iff, ?_⟩
  intro s
  have hs : s.IsConsistent :=
    proceed_induction isConsistent_empty (fun hs hop => hs.of_changes (changes_perform hop)) ops
  refine ⟨?_, fun above f below => AreConsistent.parentActive_eq hs, ?_⟩
  · intro op e hop
    have hsame : proceed perform s [op] = s := proceed_error hop
    refine ⟨(proceed_append _ ops [op]).trans hsame, ?_⟩
    intro p hp
    constructor
    · rw [hop]
      rfl
    · rw [← hp, conditions_evalConditional, hp, hsame]
  · rw [hs.active_eq, List.all_eq_true]

end Stack

end Conditional

end ErlangMacros
