import ErlangMacros.Conditional

/-!
# When tokens are emitted

An open conditional keeps whether all conditions below it hold, and this is found out when it is opened.  It stays right
since only the innermost conditional is ever turned or closed (`IsConsistent.of_changes`).  So it is enough to look at the
innermost conditional to see whether the conditions of all open ones hold (`IsConsistent.active_eq`).
-/

namespace ErlangMacros

namespace Conditional

namespace Stack

variable {s s' : Stack}

/-- What a directive can make of the open conditionals. -/
inductive Changes (s : Stack) : Stack → Prop where
  | same : Changes s s
  | opened (condition : Bool) (position : Option Position) : Changes s (s.push condition position)
  | turned {s' : Stack} {position : Option Position} (flip : s.flip position = .ok s') : Changes s s'
  | closed {s' : Stack} {position : Option Position} (close : s.close position = .ok s') : Changes s s'

/-- The conditionals from the innermost one on keep whether the conditions below them hold. -/
def AreConsistent : List Frame → Prop
  | [] => True
  | f :: fs => f.parentActive = fs.all (·.condition) ∧ AreConsistent fs

/-- Every conditional keeps whether the conditions below it hold. -/
def IsConsistent (s : Stack) : Prop :=
  AreConsistent s.frames

theorem isConsistent_empty : ({} : Stack).IsConsistent :=
  trivial

/-- Tokens are emitted exactly if the conditions of all open conditionals hold. -/
theorem IsConsistent.active_eq (h : s.IsConsistent) : s.active = s.frames.all (·.condition) := by
  unfold IsConsistent at h
  unfold active
  cases hs : s.frames with
  | nil => rfl
  | cons f fs =>
    rw [hs] at h
    show (f.parentActive && f.condition) = (f.condition && fs.all (·.condition))
    rw [h.1, Bool.and_comm]

theorem IsConsistent.active_eq_false_iff (h : s.IsConsistent) :
    s.active = false ↔ ∃ f ∈ s.frames, f.condition = false := by
  rw [h.active_eq, List.all_eq_false]
  simp

theorem flip_eq_ok {position : Option Position} (h : s.flip position = .ok s') :
    ∃ f fs, s.frames = f :: fs ∧ f.elseSeen = false ∧
      s' = ⟨{ f with elseSeen := true, condition := !f.condition } :: fs⟩ := by
  unfold flip at h
  cases hs : s.frames with
  | nil => simp [hs] at h
  | cons f fs =>
    rw [hs] at h
    dsimp only at h
    split at h
    · cases h
    · next helse =>
      cases h
      exact ⟨f, fs, rfl, by simpa using helse, rfl⟩

theorem close_eq_ok {position : Option Position} (h : s.close position = .ok s') :
    ∃ f fs, s.frames = f :: fs ∧ s' = ⟨fs⟩ := by
  unfold close at h
  cases hs : s.frames with
  | nil => simp [hs] at h
  | cons f fs =>
    rw [hs] at h
    cases h
    exact ⟨f, fs, rfl, rfl⟩

theorem IsConsistent.of_changes (h : s.IsConsistent) (hchanges : s.Changes s') : s'.IsConsistent := by
  unfold IsConsistent at h
  cases hchanges with
  | same => exact h
  | opened condition position => exact ⟨IsConsistent.active_eq h, h⟩
  | turned hflip =>
    -- the frame that changes its condition is below none
    obtain ⟨f, fs, hs, -, rfl⟩ := flip_eq_ok hflip
    rw [hs] at h
    exact h
  | closed hclose =>
    obtain ⟨f, fs, hs, rfl⟩ := close_eq_ok hclose
    rw [hs] at h
    exact h.2

end Stack

end Conditional

end ErlangMacros
