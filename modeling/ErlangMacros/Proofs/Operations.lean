/-!
# Operations that may fail

A state is changed by operations, each of which may fail.  `proceed` goes on after operations that fail with the state as
it was, and `succeeded` lists those that do not fail.
-/

namespace ErlangMacros

variable {σ ω ε : Type} (perform : σ → ω → Except ε σ)

/-- The state after operations.  One that fails leaves the state as it is. -/
def proceed (s : σ) : List ω → σ
  | [] => s
  | op :: ops =>
    match perform s op with
    | .ok s' => proceed s' ops
    | .error _ => proceed s ops

/-- The operations that do not fail. -/
def succeeded (s : σ) : List ω → List ω
  | [] => []
  | op :: ops =>
    match perform s op with
    | .ok s' => op :: succeeded s' ops
    | .error _ => succeeded s ops

variable {perform} {s s' : σ} {op : ω} {e : ε}

theorem proceed_append (s : σ) (ops ops' : List ω) :
    proceed perform s (ops ++ ops') = proceed perform (proceed perform s ops) ops' := by
  induction ops generalizing s with
  | nil => rfl
  | cons op ops ih =>
    rw [List.cons_append, proceed, proceed]
    rcases perform s op with e | s'
    · exact ih s
    · exact ih s'

theorem succeeded_append (s : σ) (ops ops' : List ω) :
    succeeded perform s (ops ++ ops') =
      succeeded perform s ops ++ succeeded perform (proceed perform s ops) ops' := by
  induction ops generalizing s with
  | nil => rfl
  | cons op ops ih =>
    rw [List.cons_append, succeeded, succeeded, proceed]
    rcases perform s op with e | s'
    · exact ih s
    · exact congrArg (op :: ·) (ih s')

theorem proceed_ok (h : perform s op = .ok s') : proceed perform s [op] = s' := by
  simp [proceed, h]

theorem proceed_error (h : perform s op = .error e) : proceed perform s [op] = s := by
  simp [proceed, h]

theorem succeeded_ok (h : perform s op = .ok s') : succeeded perform s [op] = [op] := by
  simp [succeeded, h]

theorem succeeded_error (h : perform s op = .error e) : succeeded perform s [op] = [] := by
  simp [succeeded, h]

/-- What operations that do not fail keep holds after all operations. -/
theorem proceed_induction {P : σ → Prop} (hs : P s) (hperform : ∀ {s s' op}, P s → perform s op = .ok s' → P s')
    (ops : List ω) : P (proceed perform s ops) := by
  induction ops generalizing s with
  | nil => exact hs
  | cons op ops ih =>
    unfold proceed
    split
    · next hop => exact ih (hperform hs hop)
    · exact ih hs

end ErlangMacros
