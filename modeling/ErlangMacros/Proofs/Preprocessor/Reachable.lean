import ErlangMacros.Proofs.Preprocessor.Step

/-!
# The states of a run

`stateAfter` takes steps as long as the run goes on.  What a run keeps is proved once, for everything that is closed
under what a step does with the reader (`Reader.IsClosed`): in every state the expansions have positive depths, no
source gives one token for ever if no file does, and both limits are the one that the run started with
(`isSound_stateAfter`).
-/

namespace ErlangMacros

/-- The text of every file has finitely many tokens. -/
def World.LexesFinitely (w : World) : Prop :=
  ∀ path text, w.readText path = .ok text → (Lexing.ofText text (some path)).ending.repeats = false

namespace Reader

/-- A property of the reader that reading ahead does not break.  `C` holds of what is read, and so of what is put
back. -/
structure IsReadClosed (P : Reader → Prop) (C : Consumed → Prop) : Prop where
  read : ∀ {r r' : Reader} {t : Token}, P r → r.read = (.token t, r') → P r' ∧ C (r'.consumed t)
  peek : ∀ {r : Reader}, P r → P r.peek.2
  putBack : ∀ {r : Reader} {c : Consumed}, P r → C c → P (r.putBack c)

namespace IsReadClosed

variable {P : Reader → Prop} {C : Consumed → Prop} {r r' : Reader}

theorem takes (hP : IsReadClosed P C) {cs : List Consumed} (hr : P r) (h : Takes r cs r') : P r' ∧ ∀ c ∈ cs, C c := by
  induction h with
  | nil r => exact ⟨hr, by simp⟩
  | cons hread _ ih =>
    obtain ⟨hr₁, hc⟩ := hP.read hr hread
    exact ⟨(ih hr₁).1, List.forall_mem_cons.2 ⟨hc, (ih hr₁).2⟩⟩

theorem unread (hP : IsReadClosed P C) {cs : List Consumed} (hr : P r) (hcs : ∀ c ∈ cs, C c) : P (r.unread cs) := by
  induction cs with
  | nil => exact hr
  | cons c cs ih =>
    obtain ⟨hc, hcs⟩ := List.forall_mem_cons.1 hcs
    exact hP.putBack (ih hcs) hc

theorem applies (hP : IsReadClosed P C) (hr : P r) (h : Applies r r') : P r' := by
  cases h with
  | bare => exact hr
  | looked => exact hP.peek hr
  | applied htakes => exact (hP.takes (hP.peek hr) htakes).1
  | putBack htakes =>
    obtain ⟨hr', hcs⟩ := hP.takes (hP.peek hr) htakes
    exact hP.unread hr' hcs

end IsReadClosed

theorem isReadClosed_places (Q : Int → Option Position → Prop) :
    IsReadClosed (·.Places Q) fun c => c.depth = 0 ∨ Q c.depth c.callSite where
  read := fun hr hread => (hr.of_read hread).imp_right (Or.imp_left And.left)
  peek := fun hr => hr.peek
  putBack := fun hr hc => hr.putBack fun hne => hc.resolve_left hne

/-- A property of the reader that no step can break.  `C` holds of what is read, and so of what is put back. -/
structure IsClosed (w : World) (finder : Finder) (P : Reader → Prop) (C : Consumed → Prop) : Prop where
  read : ∀ {r r' : Reader} {t : Token}, P r → r.read = (.token t, r') → P r' ∧ C (r'.consumed t)
  peek : ∀ {r : Reader}, P r → P r.peek.2
  putBack : ∀ {r : Reader} {c : Consumed}, P r → C c → P (r.putBack c)
  push : ∀ {r r' : Reader} {question : Token} {f : ExpansionFrame}, P r' → C (r.consumed question) →
    f.depth = r.depth + 1 → f.callSite = some (r.callSite.getD question.position) → P (r'.push f)
  evaluates : ∀ {r r' : Reader}, P r → Evaluates w finder r r' → P r'

namespace IsClosed

variable {w : World} {finder : Finder} {P : Reader → Prop} {C : Consumed → Prop} {r r' : Reader}

private theorem isReadClosed (hP : IsClosed w finder P C) : IsReadClosed P C :=
  ⟨hP.read, hP.peek, hP.putBack⟩

theorem takes (hP : IsClosed w finder P C) {cs : List Consumed} (hr : P r) (h : Takes r cs r') :
    P r' ∧ ∀ c ∈ cs, C c :=
  hP.isReadClosed.takes hr h

theorem advance (hP : IsClosed w finder P C) {limit : DepthLimit} (hr : P r) (h : Advance w finder limit r r') :
    P r' := by
  cases h with
  | token hread => exact (hP.read hr hread).1
  | looked hread => exact hP.peek (hP.read hr hread).1
  | directive hcollects hevaluates =>
    have hfirst := (hP.read hr hcollects.read).1
    exact hP.evaluates (hP.takes (hP.peek hfirst) hcollects.takes).1 hevaluates
  | expanded hread hname happlies hdepth hsite _ =>
    obtain ⟨hquestion, hc⟩ := hP.read hr hread
    exact hP.push (hP.isReadClosed.applies (hP.read hquestion hname).1 happlies) hc hdepth hsite

end IsClosed

/-- Expansions have positive depths and call sites. -/
def IsPlaced (r : Reader) : Prop :=
  r.Places fun depth callSite => 1 ≤ depth ∧ callSite.isSome

theorem IsPlaced.isNested {r : Reader} (hr : r.IsPlaced) : r.IsNested :=
  fun f hf => (hr f hf).1

theorem isClosed_isPlaced (w : World) (finder : Finder) :
    IsClosed w finder IsPlaced fun c => c.depth = 0 ∧ c.callSite = none ∨ 1 ≤ c.depth ∧ c.callSite.isSome where
  read := fun hr hread => hr.of_read hread
  peek := fun hr => hr.peek
  putBack := by
    intro r c hr hc
    refine hr.putBack fun hne => ?_
    rcases hc with ⟨hzero, -⟩ | hc
    · exact absurd hzero hne
    · exact hc
  push := by
    intro r r' question f hr' hc hdepth hsite
    refine List.forall_mem_cons.2 ⟨⟨?_, by simp [hsite]⟩, hr'⟩
    have hquestion : r.depth = 0 ∨ 1 ≤ r.depth := hc.imp And.left And.left
    omega
  evaluates := by
    intro r r' hr h
    cases h <;> exact hr

/-- The limit on inclusions never changes. -/
theorem isClosed_limit (w : World) (finder : Finder) (limit : DepthLimit) :
    IsClosed w finder (fun r => r.inclusion.limit = limit) fun _ => True where
  read := by
    intro r r' t hr hread
    rcases read_cases hread with ⟨f, fs, -, rfl⟩ | ⟨-, i, hi, rfl⟩
    · exact ⟨hr, trivial⟩
    · obtain ⟨-, rfl⟩ := Prod.mk.inj hi
      exact ⟨hr, trivial⟩
  peek := by
    intro r hr
    rcases r.inclusion_peek with h | h <;> rw [h]
    · exact hr
    · exact r.inclusion.peek_eq.2.2.trans hr
  putBack := by
    intro r c hr _
    exact (r.putBack_eq c).2.2.trans hr
  push := fun hr' _ _ _ => hr'
  evaluates := by
    intro r r' hr h
    cases h with
    | same => exact hr
    | file => exact hr
    | included _ _ hpush =>
      rw [(Inclusion.push_eq_ok hpush).2]
      exact hr

/-- What holds of a plain end and of the ends of all files that can be found, holds of the ends of all sources. -/
theorem isClosed_ends {w : World} {finder : Finder} {P : Ending → Prop} (hP : P .finished)
    (hw : finder.ResolvesNothing w ∨
      ∀ path text, w.readText path = .ok text → P (Lexing.ofText text (some path)).ending) :
    IsClosed w finder (fun r => r.inclusion.Ends P) fun _ => True where
  read := by
    intro r r' t hr hread
    exact ⟨ends_of_read hread hr hP, trivial⟩
  peek := fun hr => ends_peek hr hP
  putBack := fun hr _ => ends_putBack hr _
  push := fun hr' _ _ _ => hr'
  evaluates := by
    intro r r' hr h
    cases h with
    | same => exact hr
    | file => exact Inclusion.Ends.setFile hr _ _ _
    | @included _ _ text _ path _ i hfound htext hpush =>
      have hfile : P (Lexing.ofText text (some path.toString)).ending := by
        rcases hw with hw | hw
        · exact absurd hfound (hw _ _ _ _)
        · exact hw _ _ htext
      rw [(Inclusion.push_eq_ok hpush).2]
      exact List.forall_mem_cons.2 ⟨hfile, hr⟩

/-- No source gives one token for ever, if no file that can be found does. -/
theorem isClosed_isFinite {w : World} {finder : Finder} (hw : finder.ResolvesNothing w ∨ w.LexesFinitely) :
    IsClosed w finder (fun r => r.inclusion.IsFinite) fun _ => True :=
  isClosed_ends rfl hw

/-- Nothing but the input is read if no file can be found. -/
theorem isClosed_size {w : World} {finder : Finder} (hw : finder.ResolvesNothing w) :
    IsClosed w finder (fun r => r.inclusion.size ≤ 1) fun _ => True where
  read := by
    intro r r' t hr hread
    have := r.size_inclusion_read_le true
    rw [hread] at this
    exact ⟨Nat.le_trans this hr, trivial⟩
  peek := fun {r} hr => r.size_inclusion_peek ▸ hr
  putBack := fun {r c} hr _ => (r.putBack_eq c).2.1 ▸ hr
  push := fun hr' _ _ _ => hr'
  evaluates := by
    intro r r' hr h
    cases h with
    | same => exact hr
    | file => exact hr
    | included hfound => exact absurd hfound (hw _ _ _ _)

end Reader

namespace Preprocessor

/-- The state after a number of steps, if the run goes on so long. -/
def stateAfter (w : World) : Nat → Preprocessor → Option Preprocessor
  | 0, p => some p
  | n + 1, p => if (step w p).outcome.continues then stateAfter w n (step w p).state else none

variable {w : World} {p p' : Preprocessor} {n : Nat}

theorem stateAfter_add (n m : Nat) (p : Preprocessor) :
    stateAfter w (n + m) p = (stateAfter w n p).bind (stateAfter w m) := by
  induction n generalizing p with
  | zero => rw [Nat.zero_add, stateAfter, Option.bind_some]
  | succ n ih =>
    rw [Nat.succ_add, stateAfter, stateAfter]
    split
    · exact ih _
    · rfl

theorem stateAfter_trans {m : Nat} {q : Preprocessor} (h : stateAfter w n p = some p')
    (h' : stateAfter w m p' = some q) :
    stateAfter w (n + m) p = some q := by
  rw [stateAfter_add, h, Option.bind_some, h']

theorem stateAfter_eq_none_of_le {m : Nat} (h : stateAfter w n p = none) (hle : n ≤ m) : stateAfter w m p = none := by
  obtain ⟨k, rfl⟩ := Nat.exists_eq_add_of_le hle
  rw [stateAfter_add, h, Option.bind_none]

/-- What every step keeps holds in all states of a run. -/
theorem stateAfter_induction {P : Preprocessor → Prop} (hp : P p) (h : stateAfter w n p = some p')
    (hstep : ∀ q, P q → (step w q).outcome.continues → P (step w q).state) : P p' := by
  induction n generalizing p with
  | zero =>
    cases h
    exact hp
  | succ n ih =>
    unfold stateAfter at h
    split at h
    · next hcontinues => exact ih (hstep p hp hcontinues) h
    · cases h

/-- What holds in every state of a run. -/
structure IsSound (p : Preprocessor) : Prop where
  isPlaced : p.reader.IsPlaced
  limit_eq : p.reader.inclusion.limit = p.limit
  isProper : p.macros.IsProper
  done_eq : p.done = false

theorem IsSound.step (hp : p.IsSound) (h : (step w p).outcome.continues) : (step w p).state.IsSound := by
  have hadvance := advance_step h
  have hkeeps := keeps_step w p
  have hplaced := (Reader.isClosed_isPlaced w p.finder).advance hp.isPlaced hadvance
  have hlimit := (Reader.isClosed_limit w p.finder p.limit).advance hp.limit_eq hadvance
  exact ⟨hplaced, hlimit.trans hkeeps.limit_eq.symm, hkeeps.isProper hp.isProper, hkeeps.done_eq.trans hp.done_eq⟩

/-- The sources are finite, and so are all files that can be found. -/
structure ReadsFinitely (w : World) (p : Preprocessor) : Prop where
  isFinite : p.reader.inclusion.IsFinite
  files : p.finder.ResolvesNothing w ∨ w.LexesFinitely

theorem ReadsFinitely.step (hp : p.ReadsFinitely w) (h : (step w p).outcome.continues) :
    (step w p).state.ReadsFinitely w :=
  ⟨(Reader.isClosed_isFinite hp.files).advance hp.isFinite (advance_step h),
    hp.files.imp (keeps_step w p).resolvesNothing id⟩

/-- Nothing but the input is read. -/
structure ReadsInputOnly (w : World) (p : Preprocessor) : Prop where
  size_le : p.reader.inclusion.size ≤ 1
  resolvesNothing : p.finder.ResolvesNothing w

theorem ReadsInputOnly.step (hp : p.ReadsInputOnly w) (h : (step w p).outcome.continues) :
    (step w p).state.ReadsInputOnly w :=
  ⟨(Reader.isClosed_size hp.resolvesNothing).advance hp.size_le (advance_step h),
    (keeps_step w p).resolvesNothing hp.resolvesNothing⟩

/-! ### The first state -/

private theorem isProper_defineAll {macros macros' : MacroTable} {texts : List Text} {es : List Event}
    (h : defineAll macros texts = (.ok macros', es)) (hm : macros.IsProper) : macros'.IsProper := by
  induction texts generalizing macros es with
  | nil =>
    cases h
    exact hm
  | cons text texts ih =>
    unfold defineAll at h
    split at h
    · simp at h
    · split at h
      · simp at h
      · next hdefine =>
        obtain ⟨hall, -⟩ := Prod.mk.inj h
        exact ih (Prod.ext hall rfl) (hm.define hdefine)

/-- A run starts with the input alone. -/
theorem start_eq {stream : Lexing} {options : Options} {finder : Finder} {es : List Event}
    (h : start stream options finder = (.ok p, es)) :
    ∃ macros : MacroTable, macros.IsProper ∧ p = { initial stream options finder with macros } := by
  unfold start at h
  rcases hall : defineAll {} options.defines with ⟨f | macros, es'⟩ <;> rw [hall] at h
  · cases (Prod.mk.inj h).1
  · cases h
    exact ⟨macros, isProper_defineAll hall MacroTable.isProper_empty, rfl⟩

theorem isSound_start {stream : Lexing} {options : Options} {finder : Finder} {es : List Event}
    (h : start stream options finder = (.ok p, es)) : p.IsSound := by
  obtain ⟨macros, hm, rfl⟩ := start_eq h
  exact ⟨by simp [Reader.IsPlaced, Reader.Places, initial], rfl, hm, rfl⟩

/-- Every state of a run is sound. -/
theorem isSound_stateAfter (hp : p.IsSound) (h : stateAfter w n p = some p') : p'.IsSound :=
  stateAfter_induction hp h fun _ hq hcontinues => hq.step hcontinues

end Preprocessor

end ErlangMacros
