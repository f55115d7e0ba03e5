import Lilith.Draw.Coalesce

/-! Banded regions that are reachable by any run of the operations, with rectangles that are not empty. Draining and
coalescing such a region. -/
namespace Lilith.Draw
open Theory PtrGraph CTree Rbtree

variable {V : Type} [DecidableEq V] {st : BandedRegion V} {tb : CTree (ℕ × Band)} {boundary : Rect}

/-- The banded regions that the operations can build, where updates are with rectangles that are not empty. A draining
iterator may be dropped after any number of steps. -/
inductive Reachable : BandedRegion V → Prop
  | new (heap : Heap Band Unit) (mem : Heap (Region V) Unit) : Reachable (.new heap mem)
  | update {st st' : BandedRegion V} {rect : Rect} (f : Option V → Option V) (h : Reachable st)
      (hrect : rect.isEmpty = false) (hrun : st.update rect f = .ok st') : Reachable st'
  | insert {st st' : BandedRegion V} {rect : Rect} {value : V} (h : Reachable st)
      (hrect : rect.isEmpty = false) (hrun : st.insert rect value = .ok st') : Reachable st'
  | remove {st st' : BandedRegion V} {rect : Rect} (h : Reachable st)
      (hrect : rect.isEmpty = false) (hrun : st.remove rect = .ok st') : Reachable st'
  | drain {st st' : BandedRegion V} {boundary : Rect} {steps : ℕ} {items : List (Option (Rect × V))}
      {rest : List (Rect × V)} (h : Reachable st) (hrun : st.drainDropped boundary steps = .ok (items,rest,st')) :
      Reachable st'
  | coalesce {st st' : BandedRegion V} (h : Reachable st) (hrun : st.coalesce = .ok st') : Reachable st'
  | updateValues {st st' : BandedRegion V} (fn : Rect → V → V) (h : Reachable st)
      (hrun : st.updateValues fn = .ok st') : Reachable st'

omit [DecidableEq V] in
lemma kept_true (boundary : Rect) : Kept (fun _ : BandedRegion V => True) boundary := fun _ _ _ _ _ _ => trivial

omit [DecidableEq V] in
lemma sound_new (heap : Heap Band Unit) (mem : Heap (Region V) Unit) :
    Sound (BandedRegion.new heap mem : BandedRegion V) leaf [] := by
  refine ⟨⟨⟨⟨trivial,rfl,by simp⟩,⟨0,rfl⟩,trivial⟩,SpanView.WF.nil⟩,?_⟩
  exact ⟨by simp [values],by simp [values]⟩

lemma Reachable.sound (h : Reachable st) : ∃ tb, Sound st tb [] := by
  induction h with
  | new heap mem => exact ⟨leaf,sound_new heap mem⟩
  | update f h hrect hrun ih => obtain ⟨tb,hs⟩ := ih; exact hs.of_update hrect hrun
  | insert h hrect hrun ih => obtain ⟨tb,hs⟩ := ih; exact hs.of_update hrect hrun
  | remove h hrect hrun ih => obtain ⟨tb,hs⟩ := ih; exact hs.of_update hrect hrun
  | drain h hrun ih =>
    obtain ⟨tb,hs⟩ := ih
    obtain ⟨items,rest,st1,tb1,h1,h2,_⟩ := hs.drainDropped _ _ (kept_true _) trivial
    obtain ⟨_,_,rfl⟩ := Prod.mk.injEq .. ▸ Except.ok.inj (h1.symm.trans hrun)
    exact ⟨tb1,h2⟩
  | coalesce h hrun ih =>
    obtain ⟨tb,hs⟩ := ih
    obtain ⟨st1,tb1,h1,h2,_⟩ := hs.coalesce
    obtain rfl := Except.ok.inj (h1.symm.trans hrun)
    exact ⟨tb1,h2⟩
  | updateValues fn h hrun ih =>
    obtain ⟨tb,hs⟩ := ih
    obtain ⟨st1,h1,h2,_⟩ := hs.updateValues_regs fn
    obtain rfl := Except.ok.inj (h1.symm.trans hrun)
    exact ⟨tb,h2⟩

/-- An insertion returns. -/
lemma Reachable.insert_ok (h : Reachable st) {rect : Rect} (hrect : rect.isEmpty = false) (value : V) :
    ∃ st', st.insert rect value = .ok st' ∧ Reachable st' := by
  obtain ⟨tb,hs⟩ := h.sound
  obtain ⟨st',_,h1,_⟩ := hs.update_value hrect fun _ => some value
  exact ⟨st',h1,h.insert hrect h1⟩

/-- `drain` of a reachable region that is dropped after any number of steps, or run to its end before: the
rectangles of the steps and of the drop are disjoint parts of the boundary with one value each, which cover the points
of the boundary that had a value, and these points are the ones that have none afterwards. -/
theorem drain_takes_boundary (h : Reachable st) (boundary : Rect) (steps : ℕ) :
    ∃ items rest st', st.drainDropped boundary steps = .ok (items,rest,st') ∧ Sound st' st'.bands.toTree [] ∧
      Drained st boundary (items.reduceOption ++ rest) st' := by
  obtain ⟨tb,hs⟩ := h.sound
  obtain ⟨items,rest,st',tb',h1,h2,h3,_⟩ := hs.drainDropped boundary steps (kept_true _) trivial
  exact ⟨items,rest,st',h1,h2.toTree_eq ▸ h2,h3⟩

/-- A region with one rectangle, of which the draining iterator is dropped after one step. -/
theorem drain_takes_boundary_one : ∃ st : BandedRegion ℕ,
    (BandedRegion.new ⟨[]⟩ ⟨[]⟩).insert ⟨⟨0,0⟩,⟨4,4⟩⟩ 7 = .ok st ∧
    ∃ items rest st', st.drainDropped ⟨⟨1,1⟩,⟨9,9⟩⟩ 1 = .ok (items,rest,st') ∧ Sound st' st'.bands.toTree [] ∧
      Drained st ⟨⟨1,1⟩,⟨9,9⟩⟩ (items.reduceOption ++ rest) st' := by
  obtain ⟨st,h1,h2⟩ := (Reachable.new ⟨[]⟩ ⟨[]⟩).insert_ok (show Rect.isEmpty ⟨⟨0,0⟩,⟨4,4⟩⟩ = false by decide) 7
  exact ⟨st,h1,drain_takes_boundary h2 _ _⟩

/-- `coalesce` of a reachable region keeps the values of all points, and its bands and regions sorted, disjoint and not
empty. Afterwards no regions of a band and no bands that touch could be joined, and another `coalesce` changes
nothing. -/
theorem coalesce_settles (h : Reachable st) : ∃ st', st.coalesce = .ok st' ∧ Sound st' st'.bands.toTree [] ∧
    (∀ p, st'.value p = st.value p) ∧
    (∀ l ∈ st'.lineList, ∀ r ∈ l.regions, ∀ r' ∈ l.regions, r.xEnd = r'.xStart → r.value ≠ r'.value) ∧
    (∀ l ∈ st'.lineList, ∀ l' ∈ st'.lineList, l.yEnd = l'.yStart → l.regions ≠ l'.regions) ∧
    st'.coalesce = .ok st' := by
  obtain ⟨tb,hs⟩ := h.sound
  obtain ⟨st',tb',h1,h2,h3⟩ := hs.coalesce
  obtain ⟨h4,h5,h6⟩ := hs.soundLines.coalesce
  rw [← h3] at h4 h5 h6
  refine ⟨st',h1,h2.toTree_eq ▸ h2,fun p => ?_,fun l hl r hr r' hr' ht => ?_,fun l hl l' hl' ht => ?_,
    h2.coalesce_same h5⟩
  · rw [← h2.lineValue_eq, h6, hs.lineValue_eq]
  · exact (h5.regions l hl).apart (h4.regions l hl) hr hr' ht
  · exact h5.bands.apart h4.bands hl hl' ht

/-- A region of two rectangles side by side. -/
theorem coalesce_settles_two : ∃ st1 st : BandedRegion ℕ,
    (BandedRegion.new ⟨[]⟩ ⟨[]⟩).insert ⟨⟨0,0⟩,⟨4,4⟩⟩ 7 = .ok st1 ∧ st1.insert ⟨⟨4,0⟩,⟨8,4⟩⟩ 7 = .ok st ∧
    ∃ st', st.coalesce = .ok st' ∧ Sound st' st'.bands.toTree [] ∧ (∀ p, st'.value p = st.value p) ∧
      (∀ l ∈ st'.lineList, ∀ r ∈ l.regions, ∀ r' ∈ l.regions, r.xEnd = r'.xStart → r.value ≠ r'.value) ∧
      (∀ l ∈ st'.lineList, ∀ l' ∈ st'.lineList, l.yEnd = l'.yStart → l.regions ≠ l'.regions) ∧
      st'.coalesce = .ok st' := by
  obtain ⟨st1,h1,h2⟩ := (Reachable.new ⟨[]⟩ ⟨[]⟩).insert_ok (show Rect.isEmpty ⟨⟨0,0⟩,⟨4,4⟩⟩ = false by decide) 7
  obtain ⟨st,h3,h4⟩ := h2.insert_ok (show Rect.isEmpty ⟨⟨4,0⟩,⟨8,4⟩⟩ = false by decide) 7
  exact ⟨st1,st,h1,h3,coalesce_settles h4⟩

end Lilith.Draw
