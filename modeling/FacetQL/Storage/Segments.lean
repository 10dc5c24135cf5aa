import FacetQL.Storage.Records

/-!
# The segments of the heap

A checkpoint moves what is live in a segment elsewhere, and the file of the segment is removed
later (`drain_segment`, `drop_unreferenced_segments`). What this rests on is stated here once,
for the engine and its crashes, for the readers beside it, and for the trees entry by entry.
-/

namespace FacetQL

/-- The heap without the records of some segments. -/
def Heap.dropSegments (segments : List Nat) (heap : Heap) : Heap := fun location =>
  if location.segment ∈ segments then none else heap location

/-- No index entry leads into the segment. -/
def Indexes.Unreferenced (indexes : Indexes) (segment : Nat) : Prop :=
  ∀ (key : LiveKey) location, key.currentLocation indexes = some location →
    location.segment ≠ segment

namespace Storage

/-- No record in the segment is live. -/
def Dead (s : Storage) (segment : Nat) : Prop :=
  ∀ location record, location.segment = segment → s.heap location = some record →
    (LiveKey.of record).currentLocation s.indexes ≠ some location

variable {s s' : Storage} {segment : Nat} {segments : List Nat} {location fresh : RecordLocation}

/-- An entry that leads into a segment leads to a live record in it. -/
theorem WellPointed.unreferenced (h : s.WellPointed) (hdead : s.Dead segment) :
    s.indexes.Unreferenced segment := by
  intro key location hkey hsegment
  obtain ⟨record, hrecord, rfl⟩ := h key location hkey
  exact hdead location record hsegment hrecord hkey

/-- A write to another segment leaves nothing that leads into this one. -/
theorem Written.unreferenced {w : LiveKey × Option HeapRecord} (hw : Written fresh s s' w)
    (h : s.indexes.Unreferenced segment) (hfresh : fresh.segment ≠ segment) :
    s'.indexes.Unreferenced segment := by
  intro key location hkey
  rcases hw.entries hkey with hold | rfl
  · exact h key location hold
  · exact hfresh

theorem dropSegments_of_notMem (heap : Heap) (h : location.segment ∉ segments) :
    heap.dropSegments segments location = heap location := if_neg h

theorem dropSegments_eq_some {heap : Heap} {record : HeapRecord} :
    heap.dropSegments segments location = some record ↔
      location.segment ∉ segments ∧ heap location = some record := by
  rw [Heap.dropSegments]
  split_ifs with h <;> simp [h]

theorem HeapLe.dropSegments {heap heap' : Heap} (h : HeapLe heap heap') (segments : List Nat) :
    HeapLe (heap.dropSegments segments) (heap'.dropSegments segments) :=
  fun location record hget =>
    dropSegments_eq_some.2 ((dropSegments_eq_some.1 hget).imp_right (h location record))

theorem bounded_dropSegments {heap : Heap} (segments : List Nat)
    (h : ∃ n, ∀ location, n ≤ location.segment → heap location = none) :
    ∃ n, ∀ location, n ≤ location.segment → heap.dropSegments segments location = none := by
  obtain ⟨n, hn⟩ := h
  refine ⟨n, fun location hge => ?_⟩
  rw [Heap.dropSegments, hn location hge, ite_self]

/-- Segments that no entry leads into can be removed, and the view stays as it is. -/
theorem WellPointed.dropSegments (h : s.WellPointed)
    (hfree : ∀ segment ∈ segments, s.indexes.Unreferenced segment) :
    WellPointed ⟨s.heap.dropSegments segments, s.indexes⟩ ∧
      view ⟨s.heap.dropSegments segments, s.indexes⟩ = s.view := by
  have hkept (key : LiveKey) (location : RecordLocation)
      (hkey : key.currentLocation s.indexes = some location) :
      s.heap.dropSegments segments location = s.heap location :=
    dropSegments_of_notMem _ fun hmem => hfree _ hmem key location hkey rfl
  refine ⟨fun key location hkey => ?_, funext fun key => ?_⟩
  · obtain ⟨record, hrecord, hof⟩ := h key location hkey
    exact ⟨record, (hkept key location hkey).trans hrecord, hof⟩
  · rw [view, view]
    rcases hkey : key.currentLocation s.indexes with _ | location
    · rfl
    · exact hkept key location hkey

end Storage

/-- The heap, the closed segments, and the places that entries lead to. -/
structure Segments (σ : Type) where
  heap : σ → Heap
  Closed : σ → Nat → Prop
  Leads : σ → RecordLocation → Prop

namespace Segments

variable {σ : Type} {g : Segments σ} {s s' s'' : σ} {segment : Nat}

/-- Records stay where they are. New ones, and what leads to them, are not in closed segments. -/
structure Grows (g : Segments σ) (s s' : σ) : Prop where
  heap : Storage.HeapLe (g.heap s) (g.heap s')
  closed : ∀ segment, g.Closed s segment → g.Closed s' segment
  appended : ∀ location, g.Closed s location.segment → g.heap s' location ≠ none →
    g.heap s location ≠ none
  entries : ∀ location, g.Closed s location.segment → g.Leads s' location → g.Leads s location

theorem Grows.refl (g : Segments σ) (s : σ) : g.Grows s s :=
  ⟨Storage.HeapLe.refl _, fun _ h => h, fun _ _ h => h, fun _ _ h => h⟩

theorem Grows.trans (h : g.Grows s s') (h' : g.Grows s' s'') : g.Grows s s'' where
  heap := h.heap.trans h'.heap
  closed segment hclosed := h'.closed segment (h.closed segment hclosed)
  appended location hclosed hne :=
    h.appended location hclosed (h'.appended location (h.closed _ hclosed) hne)
  entries location hclosed hleads :=
    h.entries location hclosed (h'.entries location (h.closed _ hclosed) hleads)

/-- A closed segment that nothing leads into. -/
structure Dead (g : Segments σ) (s : σ) (segment : Nat) : Prop where
  closed : g.Closed s segment
  unreferenced : ∀ location, g.Leads s location → location.segment ≠ segment

theorem Dead.grows (h : g.Dead s segment) (hgrows : g.Grows s s') : g.Dead s' segment := by
  refine ⟨hgrows.closed segment h.closed, fun location hleads hsegment => ?_⟩
  exact h.unreferenced location (hgrows.entries location (hsegment ▸ h.closed) hleads) hsegment

end Segments

end FacetQL
