import Mathlib.Data.List.Infix
import ErlangMacros.Proofs.Preprocessor.Reachable

/-!
# What the open sources report

A source has a label: its file name, and the file name and the offset of lines that it reports.  Reading ahead never
changes a label.  It only leaves sources from the inside, so that the labels of the sources that are still open are at
the end of the list of all labels (`Reader.isReadClosed_labels`).
-/

namespace ErlangMacros

/-- The names of a source and what it adds to a line number. -/
structure Source.Label where
  filename : Option Text
  logicalFilename : Option Text
  lineOffset : Int
deriving DecidableEq

namespace Source

/-- The label of a source. -/
def label (s : Source) : Label :=
  ⟨s.filename, s.logicalFilename, s.lineOffset⟩

theorem label_next (s : Source) : s.next.2.label = s.label := by
  unfold next pull
  split
  · rfl
  · split
    · rfl
    · split <;> rfl

private theorem label_peek (s : Source) : s.peek.2.label = s.label := by
  have h := s.label_next
  unfold peek
  rcases hn : s.next with ⟨t | _ | e, s'⟩ <;> rw [hn] at h <;> exact h

end Source

namespace Inclusion

/-- The labels of the open sources, from the inside out. -/
def labels (i : Inclusion) : List Source.Label :=
  i.sources.map Source.label

theorem length_labels (i : Inclusion) : i.labels.length = i.size := by
  simp [labels, sources, size]

private theorem labels_readThrough (current : Source) (outer : List Source) :
    ((readThrough current outer).2.1 :: (readThrough current outer).2.2).map Source.label <:+
      (current :: outer).map Source.label := by
  induction outer generalizing current with
  | nil => simp [readThrough, Source.label_next]
  | cons o outer ih =>
    have hlabel := current.label_next
    unfold readThrough
    split
    · exact (ih o).trans (List.suffix_cons _ _)
    · next hn =>
      rw [hn] at hlabel
      simp [hlabel]

private theorem labels_peekThrough (ss : List Source) : (peekThrough ss).2.map Source.label = ss.map Source.label := by
  induction ss with
  | nil => rfl
  | cons s outer ih =>
    have hlabel := s.label_peek
    unfold peekThrough
    split
    · next hp =>
      rw [hp] at hlabel
      simp [hlabel, ih]
    · next hp =>
      rw [hp] at hlabel
      simp [hlabel]

/-- Reading leaves sources from the inside. -/
theorem labels_read (i : Inclusion) (leave : Bool) : (i.read leave).2.labels <:+ i.labels := by
  cases leave with
  | false => simp [read, labels, sources, Source.label_next]
  | true => exact labels_readThrough i.current i.outer

theorem labels_peek (i : Inclusion) : i.peek.2.labels = i.labels := by
  rw [labels, i.peek_eq.2.1, labels_peekThrough, labels]

end Inclusion

namespace Reader

theorem labels_of_read {r r' : Reader} {t : Token} (h : r.read = (.token t, r')) :
    r'.inclusion.labels <:+ r.inclusion.labels := by
  rcases read_cases h with ⟨f, fs, -, rfl⟩ | ⟨-, i, hi, rfl⟩
  · exact List.suffix_rfl
  · have hlabels := r.inclusion.labels_read true
    rw [hi] at hlabels
    exact hlabels

theorem labels_peek (r : Reader) : r.peek.2.inclusion.labels = r.inclusion.labels := by
  rcases r.inclusion_peek with h | h <;> rw [h]
  exact r.inclusion.labels_peek

theorem labels_putBack (r : Reader) (c : Consumed) : (r.putBack c).inclusion.labels = r.inclusion.labels := by
  by_cases hc : c.depth = 0
  · simp [putBack, hc, Inclusion.labels, Inclusion.sources, Source.putBack, Source.label]
  · rw [(expanded_putBack hc).2]

/-- Reading ahead only leaves sources from the inside. -/
theorem isReadClosed_labels (labels : List Source.Label) :
    IsReadClosed (fun r => r.inclusion.labels <:+ labels) fun _ => True where
  read := fun hr hread => ⟨(labels_of_read hread).trans hr, trivial⟩
  peek := by
    intro r hr
    rwa [r.labels_peek]
  putBack := by
    intro r c hr _
    rwa [r.labels_putBack c]

end Reader

end ErlangMacros
