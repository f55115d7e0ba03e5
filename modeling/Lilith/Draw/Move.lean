import Lilith.Draw.Composite

/-! Moving a window to another rectangle. Where it was on top before, the damage tracker is given to the next window below
it, if there is one; a point with no window below it is left to the window that has moved away. -/
namespace Lilith.Draw
open Theory Rbtree

namespace Screen

/-- One round of the loops that rebuild the tracker after a window went away from a rectangle: windows that `skip` tells to
skip are skipped, and regions that `keep` tells to keep are kept. -/
def rebuildWindow (self : Screen) (skip : Window → Bool) (keep : WindowRegion → Bool) (rect : Rect)
    (tracker : BandedRegion WindowRegion) (id : ℕ) : Except Fault (BandedRegion WindowRegion) := do
  let window ← unwrap (self.windows.get id)
  if skip window then return tracker
  else match window.rect.intersect rect with
    | none => return tracker
    | some r => tracker.update r fun region =>
        if (region.filter keep).isSome then region else some ⟨window.zIndex,true⟩

def rebuildDamageTracker (self : Screen) (skip : Window → Bool) (keep : WindowRegion → Bool) (rect : Rect) :
    Except Fault Screen := do
  return { self with damageTracker := ← self.visible.reverse.foldlM (self.rebuildWindow skip keep rect) self.damageTracker }

def rebuildDamageTrackerMove (self : Screen) (zIndex : ℕ) (rect : Rect) : Except Fault Screen :=
  self.rebuildDamageTracker (fun window => window.zIndex ≤ zIndex) (fun r => r.zIndex < zIndex) rect

def rebuildDamageTrackerMoveToBack (self : Screen) (oldZIndex newZIndex : ℕ) (rect : Rect) : Except Fault Screen :=
  self.rebuildDamageTracker (fun window => window.zIndex < oldZIndex ∨ window.zIndex ≥ newZIndex)
    (fun r => r.zIndex < oldZIndex ∨ r.zIndex ≥ newZIndex) rect

/-- `move_window`. The old surface is dropped when the new one is assigned. -/
def moveWindow (self : Screen) (windowId : ℕ) (newRect : Rect) (m : Images) : Except Fault (Screen × Images) := do
  let window ← unwrap (self.windows.get windowId)
  let self ← self.rebuildDamageTrackerMove window.zIndex window.rect
  let window ← unwrap (self.windows.get windowId)
  let (surface,m) ← Surface.new newRect .WHITE m
  let m := window.surface.drop m
  let self := { self with windows := self.windows.set windowId { window with surface := surface } }
  return (← self.markDirty windowId newRect,m)

end Screen

variable {fb : Surface} {s s' : Screen} {m m' : Images} {p : Point} {id : ℕ} {w : Window} {rect newRect : Rect}

/-- A region that is kept. -/
def isKept (keep : WindowRegion → Bool) (region : Option WindowRegion) : Bool := (region.filter keep).isSome

/-- The loop that rebuilds the tracker: regions in the rectangle that are not kept are given to the first window that is not
skipped. -/
lemma rebuildLoop_ok {st : BandedRegion WindowRegion} {tb : CTree (ℕ × Band)} (hs : Sound st tb []) (skip : Window → Bool)
    (keep : WindowRegion → Bool) (rect : Rect) (hkeep : ∀ w, skip w = false → keep ⟨w.zIndex,true⟩ = false) (ids : List ℕ)
    (hids : ∀ id ∈ ids, ∃ w, s.windows.get id = some w) :
    ∃ st' tb', ids.reverse.foldlM (s.rebuildWindow skip keep rect) st = .ok st' ∧ Sound st' tb' [] ∧
      ∀ p, st'.value p = if rect.Contains p ∧ isKept keep (st.value p) = false then
        (((ids.filterMap s.windows.get).find? fun w => !skip w && decide (w.rect.Contains p)).map
          fun w => ⟨w.zIndex,true⟩).or (st.value p) else st.value p := by
  induction ids with
  | nil =>
    refine ⟨st,tb,rfl,hs,fun p => ?_⟩
    split_ifs <;> rfl
  | cons id ids ih =>
    obtain ⟨w,hw⟩ := hids id List.mem_cons_self
    obtain ⟨st1,tb1,h1,h2,h3⟩ := ih fun i hi => hids i (List.mem_cons_of_mem _ hi)
    have hround : ∃ st' tb', s.rebuildWindow skip keep rect st1 id = .ok st' ∧ Sound st' tb' [] ∧
        ∀ p, st'.value p = if skip w = false ∧ w.rect.Contains p ∧ rect.Contains p ∧ isKept keep (st1.value p) = false then
          some ⟨w.zIndex,true⟩ else st1.value p := by
      unfold Screen.rebuildWindow
      simp only [hw, unwrap, bind, Except.bind]
      cases hskip : skip w with
      | true => exact ⟨st1,tb1,rfl,h2,fun p => by simp⟩
      | false =>
        cases hi : w.rect.intersect rect with
        | none =>
          refine ⟨st1,tb1,rfl,h2,fun p => (if_neg fun hc => ?_).symm⟩
          exact Rect.intersect_none hi p ⟨hc.2.1,hc.2.2.1⟩
        | some r =>
          obtain ⟨hne,hr⟩ := Rect.intersect_some hi
          obtain ⟨st2,tb2,h4,h5,h6⟩ := h2.update_value hne fun region =>
            if (region.filter keep).isSome then region else some (⟨w.zIndex,true⟩ : WindowRegion)
          refine ⟨st2,tb2,h4,h5,fun p => ?_⟩
          simp only [h6, hr, isKept, true_and]
          by_cases hc : w.rect.Contains p ∧ rect.Contains p
          · by_cases hk : (Option.filter keep (st1.value p)).isSome = true <;> simp [hc, hk]
          · rw [if_neg hc, if_neg fun h => hc ⟨h.1,h.2.1⟩]
    obtain ⟨st2,tb2,h4,h5,h6⟩ := hround
    refine ⟨st2,tb2,?_,h5,fun p => ?_⟩
    · rw [List.reverse_cons, List.foldlM_append]
      simp only [h1, bind, Except.bind, List.foldlM_cons, h4]
      rfl
    · -- a region that was given to a window is not kept
      have hsame : rect.Contains p → isKept keep (st.value p) = false → isKept keep (st1.value p) = false := fun hp hk => by
        rw [h3, if_pos ⟨hp,hk⟩]
        cases hf : (ids.filterMap s.windows.get).find? fun w => !skip w && decide (w.rect.Contains p) with
        | none => exact hk
        | some v =>
          have hv := List.find?_some hf
          rw [Bool.and_eq_true, Bool.not_eq_true'] at hv
          simp [isKept, hkeep v hv.1]
      rw [h6]
      simp only [List.filterMap_cons, hw, List.find?_cons]
      by_cases hp : rect.Contains p ∧ isKept keep (st.value p) = false
      · rw [if_pos hp]
        by_cases hc : skip w = false ∧ w.rect.Contains p
        · rw [if_pos ⟨hc.1,hc.2,hp.1,hsame hp.1 hp.2⟩]
          simp [hc]
        · rw [if_neg fun h => hc ⟨h.1,h.2.1⟩, h3, if_pos hp]
          have hfalse : (!skip w && decide (w.rect.Contains p)) = false := by
            rw [Bool.and_eq_false_iff, Bool.not_eq_false', decide_eq_false_iff_not]
            by_contra hno
            rw [not_or, Bool.not_eq_true, not_not] at hno
            exact hc hno
          rw [hfalse]
      · have hst1 : st1.value p = st.value p := by rw [h3, if_neg hp]
        rw [hst1, if_neg hp, if_neg]
        intro h
        exact hp ⟨h.2.2.1,h.2.2.2⟩

/-- The windows after one of them was given another surface. -/
structure Replaced (windows windows' : IdSparseVec Window) (id : ℕ) (w w' : Window) : Prop where
  old : windows.get id = some w
  get : ∀ j, windows'.get j = if j = id then some w' else windows.get j
  zIndex : w'.zIndex = w.zIndex

namespace Replaced
variable {windows windows' : IdSparseVec Window} {visible : List ℕ} {w' : Window}

lemma get_new (h : Replaced windows windows' id w w') : windows'.get id = some w' := by
  rw [h.get, if_pos rfl]

lemma get_other (h : Replaced windows windows' id w w') {j : ℕ} (hj : j ≠ id) : windows'.get j = windows.get j := by
  rw [h.get, if_neg hj]

lemma stacked (h : Replaced windows windows' id w w') (hst : Stacked windows visible) (hv : windows'.Valid) :
    Stacked windows' visible := by
  refine ⟨hv,fun k j hk => ?_,fun j v hj => ?_,hst.few⟩
  · obtain ⟨v,hv,hz⟩ := hst.window k j hk
    by_cases hj : j = id
    · subst hj
      obtain rfl := Option.some.inj (h.old.symm.trans hv)
      exact ⟨w',h.get_new,h.zIndex.trans hz⟩
    · exact ⟨v,by rw [h.get_other hj, hv],hz⟩
  · by_cases hj' : j = id
    · subst hj'
      obtain rfl := Option.some.inj (h.get_new.symm.trans hj)
      rw [h.zIndex]
      exact hst.place j w h.old
    · rw [h.get_other hj'] at hj
      exact hst.place j v hj

/-- Another window stays on top where the window is not above it. -/
lemma topmost_other (h : Replaced windows windows' id w w') {j : ℕ} {v : Window} (ht : Topmost windows p j v) (hj : j ≠ id)
    (hnew : w'.rect.Contains p → v.zIndex ≤ w'.zIndex) : Topmost windows' p j v := by
  refine ⟨by rw [h.get_other hj, ht.get],ht.contains,fun i u hu hc => ?_⟩
  by_cases hi : i = id
  · subst hi
    obtain rfl := Option.some.inj (h.get_new.symm.trans hu)
    exact hnew hc
  · rw [h.get_other hi] at hu
    exact ht.lowest i u hu hc

end Replaced

/-- What is asked of `move_window`: the window has the new rectangle and the others are as before; the tracker knows the
window on top at every point of the screen; and where the window was on top or is on top now, the screen is dirty. -/
structure Moved (fb : Surface) (s s' : Screen) (id : ℕ) (newRect : Rect) : Prop where
  window : ∃ w', s'.windows.get id = some w' ∧ w'.rect = newRect
  others : ∀ j, j ≠ id → s'.windows.get j = s.windows.get j
  tracker : ∀ p, fb.rect.Contains p → ∃ region, s'.damageTracker.value p = some region ∧
    TopIndex s'.windows p region.zIndex ∧
    ((∃ v, Topmost s.windows p id v) ∨ (∃ v, Topmost s'.windows p id v) → region.dirty = true)

/-- Every point of the screen that the window alone covered is covered by it again. -/
def StaysCovered (fb : Surface) (windows : IdSparseVec Window) (id : ℕ) (w : Window) (newRect : Rect) : Prop :=
  ∀ p, fb.rect.Contains p → w.rect.Contains p →
    (∀ j v, windows.get j = some v → j ≠ id → ¬v.rect.Contains p) → newRect.Contains p

/-- What `move_window` leaves in the tracker. -/
def movedRegion (s : Screen) (w : Window) (newRect : Rect) (p : Point) : Option WindowRegion :=
  let region := s.damageTracker.value p
  let exposed := if w.rect.Contains p ∧ isKept (fun r => r.zIndex < w.zIndex) region = false then
    (((s.visible.filterMap s.windows.get).find? fun v => !decide (v.zIndex ≤ w.zIndex) && decide (v.rect.Contains p)).map
      fun v => ⟨v.zIndex,true⟩).or region else region
  if newRect.Contains p then mark w.zIndex exposed else exposed

/-- `move_window`, point by point. -/
lemma moveWindow_ok {tb : CTree (ℕ × Band)} (hs : Sound s.damageTracker tb []) (hst : Stacked s.windows s.visible)
    (hw : s.windows.get id = some w) (hne : newRect.isEmpty = false) (hroom : HasRoom m newRect) :
    ∃ w' st tb m', Replaced s.windows (s.windows.set id w') id w w' ∧ w'.rect = newRect ∧
      s.moveWindow id newRect m = .ok (⟨s.windows.set id w',s.visible,st⟩,m') ∧ Sound st tb [] ∧
      (∀ p, st.value p = movedRegion s w newRect p) ∧ w'.surface.image = m.next ∧ m'.next = m.next + 1 ∧
      ∀ i, i < m.next → i ≠ w.surface.image → m'.pixels i = m.pixels i := by
  have hids : ∀ i ∈ s.visible, ∃ w, s.windows.get i = some w := fun i hi => by
    obtain ⟨k,hk⟩ := List.mem_iff_getElem?.mp hi
    obtain ⟨v,hv,_⟩ := hst.window k i hk
    exact ⟨v,hv⟩
  obtain ⟨st1,tb1,h1,h2,h3⟩ := rebuildLoop_ok hs (fun window => decide (window.zIndex ≤ w.zIndex))
    (fun r => decide (r.zIndex < w.zIndex)) w.rect (fun v hv => by
      rw [decide_eq_false_iff_not] at hv ⊢
      simp only
      omega) s.visible hids
  obtain ⟨surface,m1,hnew,hrect,himage,hnext,hold,_⟩ := surfaceNew_ok hne hroom
  have hrep : Replaced s.windows (s.windows.set id { w with surface := surface }) id w { w with surface := surface } :=
    ⟨hw,IdSparseVec.get_set hw,rfl⟩
  obtain ⟨st2,tb2,h4,h5,h6⟩ := @markDirty_ok ⟨s.windows.set id { w with surface := surface },s.visible,st1⟩ id
    { w with surface := surface } newRect tb1 h2 hrep.get_new
  have hdrop : ∀ i, i < m.next → i ≠ w.surface.image → (w.surface.drop m1).pixels i = m.pixels i := fun i hi hne => by
    rw [← hold i hi]
    funext o
    exact if_neg hne
  refine ⟨{ w with surface := surface },st2,tb2,w.surface.drop m1,hrep,hrect,?_,h5,fun p => ?_,himage,hnext,hdrop⟩
  · simp only [Screen.moveWindow, hw, unwrap, bind, Except.bind, Screen.rebuildDamageTrackerMove,
      Screen.rebuildDamageTracker, h1, hnew, pure, Except.pure, h4]
  · rw [h6, movedRegion]
    have hcontains : ({ w with surface := surface } : Window).rect.Contains p ↔ newRect.Contains p := by
      rw [← hrect]
      exact Iff.rfl
    simp only [hcontains, and_self, h3]

/-- `move_window` fails where there is no room for the new surface. -/
lemma moveWindow_room (hne : newRect.isEmpty = false) {r : Screen × Images} (hrun : s.moveWindow id newRect m = .ok r) :
    HasRoom m newRect := by
  obtain ⟨w,_,hrun⟩ := bind_ok hrun
  obtain ⟨s1,_,hrun⟩ := bind_ok hrun
  obtain ⟨w1,_,hrun⟩ := bind_ok hrun
  obtain ⟨⟨surface,m1⟩,hnew,_⟩ := bind_ok hrun
  exact surfaceNew_room hne hnew

lemma ScreenInv.moveWindow (h : ScreenInv fb s m) (hw : s.windows.get id = some w) (hne : newRect.isEmpty = false)
    (hroom : HasRoom m newRect) :
    ∃ w' st tb m', Replaced s.windows (s.windows.set id w') id w w' ∧ w'.rect = newRect ∧
      s.moveWindow id newRect m = .ok (⟨s.windows.set id w',s.visible,st⟩,m') ∧ Sound st tb [] ∧
      (∀ p, st.value p = movedRegion s w newRect p) ∧ w'.surface.image = m.next ∧ m'.next = m.next + 1 ∧
      ∀ i, i < m.next → i ≠ w.surface.image → m'.pixels i = m.pixels i := by
  obtain ⟨tb,hs⟩ := h.tracker
  exact moveWindow_ok hs h.stacked hw hne hroom

/-- The window on top at a point stays the same. -/
def SameTop (windows windows' : IdSparseVec Window) (p : Point) : Prop :=
  (∃ j v v', Topmost windows p j v ∧ Topmost windows' p j v' ∧ v'.surface = v.surface) ∨
    Uncovered windows p ∧ Uncovered windows' p

/-- A tracker that knows the window on top stays coherent when it calls dirty every point where that window changes. -/
lemma Coherent.retop (h : Coherent fb s m) {windows' : IdSparseVec Window}
    {visible' : List ℕ} (hst : Stacked windows' visible')
    (hm : ∀ i, i = fb.image ∨ (∃ j v v', s.windows.get j = some v ∧ windows'.get j = some v' ∧ v'.surface = v.surface ∧
      i = v.surface.image) → m'.pixels i = m.pixels i)
    {st : BandedRegion WindowRegion} (hpoint : ∀ p, fb.rect.Contains p → ∃ region, st.value p = some region ∧
      TopIndex windows' p region.zIndex ∧ (region.dirty = true ∨
        (∃ r, s.damageTracker.value p = some r ∧ r.dirty = region.dirty) ∧ SameTop s.windows windows' p)) :
    Coherent fb ⟨windows',visible',st⟩ m' := by
  intro p hp
  obtain ⟨region,hr,htop,hdirty⟩ := hpoint p hp
  refine ⟨region,hr,htop,fun hclean => ?_⟩
  rw [hclean] at hdirty
  obtain ⟨⟨r,hv,hd⟩,hsame⟩ := hdirty.resolve_left (by simp)
  obtain ⟨r',hr',_,hshows⟩ := h p hp
  obtain rfl := Option.some.inj (hv.symm.trans hr')
  have hfb : fb.pixel m' p = fb.pixel m p := by
    rw [Surface.pixel, hm _ (Or.inl rfl)]
    rfl
  rw [hfb]
  rcases hsame with ⟨j,v,v',ht,ht',hsurface⟩ | ⟨hu,hu'⟩
  · have hpixel : v'.surface.pixel m' p = v.surface.pixel m p := by
      rw [hsurface, Surface.pixel, hm _ (Or.inr ⟨j,v,v',ht.get,ht'.get,hsurface,rfl⟩)]
      rfl
    rw [(hshows hd).1 j v ht, ← hpixel]
    exact hst.shows ht'
  · rw [(hshows hd).2 hu]
    exact hu'.shows

namespace Replaced
variable {windows windows' : IdSparseVec Window} {visible : List ℕ} {w' : Window}

lemma separate (h : Replaced windows windows' id w w') (hs : Separate fb windows m) (hnew : w'.surface.image = m.next)
    (hne : w'.rect.isEmpty = false) (hn : m'.next = m.next + 1) : Separate fb windows' m' := by
  have hf := hs.frame
  refine ⟨by omega,fun j v hj => ?_,fun j v hj => ?_,fun j v j' u hj hj' he => ?_⟩
  · rw [h.get] at hj
    split_ifs at hj
    · obtain rfl := Option.some.inj hj
      omega
    · obtain ⟨h1,h2⟩ := hs.image j v hj
      exact ⟨by omega,h2⟩
  · rw [h.get] at hj
    split_ifs at hj
    · obtain rfl := Option.some.inj hj
      exact hne
    · exact hs.proper j v hj
  · rw [h.get] at hj hj'
    split_ifs at hj hj' with h1 h2 h2
    · exact h1.trans h2.symm
    · obtain rfl := Option.some.inj hj
      exact absurd (he.symm.trans hnew) (hs.image j' u hj').1.ne
    · obtain rfl := Option.some.inj hj'
      exact absurd (he.trans hnew) (hs.image j v hj).1.ne
    · exact hs.distinct j v j' u hj hj' he

lemma uncovered (h : Replaced windows windows' id w w') (hu : ∀ j v, windows.get j = some v → j ≠ id → ¬v.rect.Contains p)
    (hc : ¬w'.rect.Contains p) : Uncovered windows' p := by
  intro j v hj
  by_cases hid : j = id
  · subst hid
    obtain rfl := Option.some.inj (h.get_new.symm.trans hj)
    exact hc
  · rw [h.get_other hid] at hj
    exact hu j v hj hid

end Replaced

section MovedPoint
variable {windows' : IdSparseVec Window} {w' : Window}

/-- Where another window above this one is on top, nothing changes. -/
lemma moved_above {j : ℕ} {v : Window} {r : WindowRegion} (hrep : Replaced s.windows windows' id w w')
    (ht : Topmost s.windows p j v) (hr : s.damageTracker.value p = some r) (hz : v.zIndex = r.zIndex)
    (hlt : r.zIndex < w.zIndex) :
    movedRegion s w newRect p = some r ∧ TopIndex windows' p r.zIndex ∧ SameTop s.windows windows' p := by
  have hj : j ≠ id := fun hj => by
    subst hj
    have := Option.some.inj (hrep.old.symm.trans ht.get)
    subst this
    omega
  have ht' := hrep.topmost_other ht hj fun _ => by rw [hrep.zIndex]; omega
  refine ⟨?_,Or.inl ⟨j,v,ht',hz⟩,Or.inl ⟨j,v,v,ht,ht',rfl⟩⟩
  have hkept : isKept (fun r => decide (r.zIndex < w.zIndex)) (some r) = true := by simp [isKept, hlt]
  simp [movedRegion, hr, hkept, mark_some, hlt]

/-- In the new rectangle the window is on top where no window above it is. -/
lemma moved_inside {r : WindowRegion} (hrep : Replaced s.windows windows' id w w') (hrect : w'.rect = newRect)
    (hr : s.damageTracker.value p = some r) (hge : w.zIndex ≤ r.zIndex)
    (hlow : ∀ j v, s.windows.get j = some v → v.rect.Contains p → w.zIndex ≤ v.zIndex) (hp : newRect.Contains p) :
    movedRegion s w newRect p = some ⟨w.zIndex,true⟩ ∧ TopIndex windows' p w.zIndex := by
  constructor
  · have hexposed : ∃ r', w.zIndex ≤ r'.zIndex ∧ movedRegion s w newRect p = mark w.zIndex (some r') := by
      unfold movedRegion
      rw [hr]
      simp only [hp, if_true]
      split_ifs
      · cases hf : (s.visible.filterMap s.windows.get).find? fun v =>
            !decide (v.zIndex ≤ w.zIndex) && decide (v.rect.Contains p) with
        | none => exact ⟨r,hge,rfl⟩
        | some v =>
          have hv := List.find?_some hf
          simp only [Bool.and_eq_true, Bool.not_eq_true', decide_eq_false_iff_not] at hv
          exact ⟨⟨v.zIndex,true⟩,by simp only; omega,rfl⟩
      · exact ⟨r,hge,rfl⟩
    obtain ⟨r',h1,h2⟩ := hexposed
    rw [h2, mark_some, if_neg (not_lt.mpr h1)]
  · refine Or.inl ⟨id,w',⟨hrep.get_new,hrect ▸ hp,fun j v hj hc => ?_⟩,hrep.zIndex⟩
    by_cases hid : j = id
    · subst hid
      rw [Option.some.inj (hrep.get_new.symm.trans hj)]
    · rw [hrep.get_other hid] at hj
      rw [hrep.zIndex]
      exact hlow j v hj hc

/-- Where the window is gone, the next one below it is on top. -/
lemma moved_exposed {r : WindowRegion} (hst : Stacked s.windows s.visible) (hrep : Replaced s.windows windows' id w w')
    (hrect : w'.rect = newRect) (hr : s.damageTracker.value p = some r) (hge : w.zIndex ≤ r.zIndex)
    (hlow : ∀ j v, s.windows.get j = some v → v.rect.Contains p → w.zIndex ≤ v.zIndex) (hp : ¬newRect.Contains p)
    (hold : w.rect.Contains p) (hbelow : ∃ j v, s.windows.get j = some v ∧ j ≠ id ∧ v.rect.Contains p) :
    ∃ z, movedRegion s w newRect p = some ⟨z,true⟩ ∧ TopIndex windows' p z := by
  have hbelow_lt : ∀ j v, s.windows.get j = some v → j ≠ id → v.rect.Contains p → w.zIndex < v.zIndex :=
    fun j v hj hne hc => lt_of_le_of_ne (hlow j v hj hc) fun he => hne (hst.unique hrep.old hj he).1.symm
  rcases hst.find fun v => !decide (v.zIndex ≤ w.zIndex) && decide (v.rect.Contains p) with ⟨j,v,h1,h2,h3,h4⟩ | ⟨_,h2⟩
  · simp only [Bool.and_eq_true, Bool.not_eq_true', decide_eq_false_iff_not, decide_eq_true_eq] at h3
    have hj : j ≠ id := fun hj => by
      subst hj
      rw [Option.some.inj (hrep.old.symm.trans h2)] at h3
      exact h3.1 le_rfl
    refine ⟨v.zIndex,?_,Or.inl ⟨j,v,⟨by rw [hrep.get_other hj, h2],h3.2,fun i u hi hc => ?_⟩,rfl⟩⟩
    · have hkept : isKept (fun r => decide (r.zIndex < w.zIndex)) (some r) = false := by simp [isKept, hge]
      simp [movedRegion, hr, hkept, hold, hp, h1]
    · by_cases hid : i = id
      · subst hid
        rw [← Option.some.inj (hrep.get_new.symm.trans hi), hrect] at hc
        exact absurd hc hp
      · rw [hrep.get_other hid] at hi
        apply h4 i u hi
        simp [hc, hbelow_lt i u hi hid hc]
  · obtain ⟨j,v,hj,hne,hc⟩ := hbelow
    have hlt := hbelow_lt j v hj hne hc
    have := h2 j v hj
    simp only [hc, decide_true, Bool.and_true, Bool.not_eq_false', decide_eq_true_eq] at this
    omega

/-- Where the window neither was nor is, nothing changes. -/
lemma moved_outside {r : WindowRegion} (hrep : Replaced s.windows windows' id w w') (hrect : w'.rect = newRect)
    (hr : s.damageTracker.value p = some r) (htop : TopIndex s.windows p r.zIndex) (hp : ¬newRect.Contains p)
    (hold : ¬w.rect.Contains p) :
    movedRegion s w newRect p = some r ∧ TopIndex windows' p r.zIndex ∧ SameTop s.windows windows' p := by
  refine ⟨by simp [movedRegion, hr, hp, hold],?_⟩
  rcases htop with ⟨j,v,ht,hz⟩ | ⟨hu,hz⟩
  · have hj : j ≠ id := fun hj => by
      subst hj
      rw [Option.some.inj (hrep.old.symm.trans ht.get)] at hold
      exact hold ht.contains
    have ht' := hrep.topmost_other ht hj fun hc => absurd (hrect ▸ hc) hp
    exact ⟨Or.inl ⟨j,v,ht',hz⟩,Or.inl ⟨j,v,v,ht,ht',rfl⟩⟩
  · have hu' := hrep.uncovered (fun j v hj _ => hu j v hj) (hrect ▸ hp)
    exact ⟨Or.inr ⟨hu',hz⟩,Or.inr ⟨hu,hu'⟩⟩

/-- The tracker at a point after a move, unless the background is exposed there. -/
lemma moved_point {r : WindowRegion} (hst : Stacked s.windows s.visible) (hrep : Replaced s.windows windows' id w w')
    (hrect : w'.rect = newRect) (hr : s.damageTracker.value p = some r) (htop : TopIndex s.windows p r.zIndex)
    (hcover : w.rect.Contains p → (∀ j v, s.windows.get j = some v → j ≠ id → ¬v.rect.Contains p) → newRect.Contains p) :
    ∃ region, movedRegion s w newRect p = some region ∧ TopIndex windows' p region.zIndex ∧
      (region.dirty = true ∨ (∃ r, s.damageTracker.value p = some r ∧ r.dirty = region.dirty) ∧
        SameTop s.windows windows' p) := by
  by_cases habove : r.zIndex < w.zIndex
  · rcases htop with ⟨j,v,ht,hz⟩ | ⟨_,hz⟩
    · obtain ⟨h1,h2,h3⟩ := moved_above hrep ht hr hz habove
      exact ⟨r,h1,h2,Or.inr ⟨⟨r,hr,rfl⟩,h3⟩⟩
    · have h1 := hst.zIndex_lt hrep.old
      have h2 := hst.few
      have h3 := VEC_MAX_lt
      omega
  have hge := not_lt.mp habove
  have hlow : ∀ j v, s.windows.get j = some v → v.rect.Contains p → w.zIndex ≤ v.zIndex := fun j v hj hc => by
    rcases htop with ⟨i,u,ht,hz⟩ | ⟨hu,_⟩
    · exact hge.trans (hz ▸ ht.lowest j v hj hc)
    · exact absurd hc (hu j v hj)
  by_cases hp : newRect.Contains p
  · obtain ⟨h1,h2⟩ := moved_inside hrep hrect hr hge hlow hp
    exact ⟨_,h1,h2,Or.inl rfl⟩
  by_cases hold : w.rect.Contains p
  · have hbelow : ∃ j v, s.windows.get j = some v ∧ j ≠ id ∧ v.rect.Contains p := by
      by_contra hno
      apply hp
      apply hcover hold
      intro j v hj hne hc
      exact hno ⟨j,v,hj,hne,hc⟩
    obtain ⟨z,h1,h2⟩ := moved_exposed hst hrep hrect hr hge hlow hp hold hbelow
    exact ⟨_,h1,h2,Or.inl rfl⟩
  · obtain ⟨h1,h2,h3⟩ := moved_outside hrep hrect hr htop hp hold
    exact ⟨r,h1,h2,Or.inr ⟨⟨r,hr,rfl⟩,h3⟩⟩

end MovedPoint

/-- Moving a window that leaves no bare background behind. -/
lemma ScreenInv.moved (h : ScreenInv fb s m) (hw : s.windows.get id = some w) (hne : newRect.isEmpty = false)
    (hcover : StaysCovered fb s.windows id w newRect) (hroom : HasRoom m newRect) :
    ∃ s' m', s.moveWindow id newRect m = .ok (s',m') ∧ Moved fb s s' id newRect ∧ ScreenInv fb s' m' := by
  obtain ⟨w',st,tb,m',hrep,hrect,hrun,hs,hval,himage,hnext,hpixels⟩ := h.moveWindow hw hne hroom
  have hst := hrep.stacked h.stacked (IdSparseVec.valid_set h.stacked.valid hw)
  have hpoint : ∀ p, fb.rect.Contains p → ∃ region, st.value p = some region ∧
      TopIndex (s.windows.set id w') p region.zIndex ∧ (region.dirty = true ∨
        (∃ r, s.damageTracker.value p = some r ∧ r.dirty = region.dirty) ∧ SameTop s.windows (s.windows.set id w') p) := by
    intro p hp
    obtain ⟨r,hr,htop,_⟩ := h.coherent p hp
    rw [hval]
    exact moved_point h.stacked hrep hrect hr htop (hcover p hp)
  -- the surface of the window is a new one
  have hdiff : ∀ v v', s.windows.get id = some v → (s.windows.set id w').get id = some v' → v'.surface ≠ v.surface := by
    intro v v' hv hv' he
    have := (h.separate.image id v hv).1
    rw [← he, ← Option.some.inj (hrep.get_new.symm.trans hv'), himage] at this
    omega
  -- what is shown of the other surfaces is still there
  have hkept : ∀ i, i = fb.image ∨ (∃ j v v', s.windows.get j = some v ∧ (s.windows.set id w').get j = some v' ∧
      v'.surface = v.surface ∧ i = v.surface.image) → m'.pixels i = m.pixels i := by
    rintro i (rfl | ⟨j,v,v',hv,hv',hsurface,rfl⟩)
    · exact hpixels _ h.separate.frame (h.separate.image id w hw).2.symm
    · refine hpixels _ (h.separate.image j v hv).1 fun he => ?_
      obtain rfl := h.separate.distinct _ _ _ _ hv hw he
      exact hdiff v v' hv hv' hsurface
  refine ⟨_,m',hrun,⟨⟨w',hrep.get_new,hrect⟩,fun j hj => hrep.get_other hj,fun p hp => ?_⟩,⟨tb,hs⟩,hst,?_,?_⟩
  · obtain ⟨region,h1,h2,h3⟩ := hpoint p hp
    refine ⟨region,h1,h2,fun hid => h3.resolve_right fun hsame => ?_⟩
    rcases hsame.2 with ⟨j,v,v',ht,ht',hsurface⟩ | ⟨hu,hu'⟩
    · rcases hid with ⟨u,hu⟩ | ⟨u,hu⟩
      · obtain ⟨rfl,_⟩ := h.stacked.topmost_unique ht hu
        exact hdiff v v' ht.get ht'.get hsurface
      · obtain ⟨rfl,_⟩ := hst.topmost_unique ht' hu
        exact hdiff v v' ht.get ht'.get hsurface
    · rcases hid with ⟨u,ht⟩ | ⟨u,ht⟩
      · exact hu id u ht.get ht.contains
      · exact hu' id u ht.get ht.contains
  · exact hrep.separate h.separate himage (hrect ▸ hne) hnext
  · exact h.coherent.retop hst hkept hpoint

lemma fillUnsafe_refuses (surface : Surface) (rect : Rect) (color : Color) (m : Images) :
    (surface.fillUnsafe rect color m).refuses = m.refuses := by
  unfold Surface.fillUnsafe
  generalize List.range rect.height.toNat = ys
  induction ys generalizing m with
  | nil => rfl
  | cons y ys ih => exact ih _

lemma newWindow_refuses {z : ℕ} (hrun : s.newWindow rect z m = .ok (id,s',m')) : m'.refuses = m.refuses := by
  obtain ⟨⟨surface,m1⟩,hnew,hrun⟩ := bind_ok hrun
  obtain ⟨_,_,hrun⟩ := bind_ok hrun
  obtain ⟨⟨_,_⟩,_,hrun⟩ := bind_ok hrun
  obtain ⟨_,_,hrun⟩ := bind_ok hrun
  obtain ⟨_,_,hrun⟩ := bind_ok hrun
  cases hrun
  obtain ⟨_,_,hnew⟩ := bind_ok hnew
  obtain ⟨_,_,hnew⟩ := bind_ok hnew
  obtain ⟨_,_,hnew⟩ := bind_ok hnew
  obtain ⟨_,_,hnew⟩ := bind_ok hnew
  obtain ⟨⟨image,m2⟩,halloc,hnew⟩ := bind_ok hnew
  cases hnew
  rw [fillUnsafe_refuses]
  unfold Surface.allocImage at halloc
  split at halloc
  all_goals cases halloc
  rfl

/-- A small screen with one window. -/
lemma smallFrame_window : ∃ id s m w, ScreenRun smallFrame s m ∧ s.visible = [id] ∧ s.windows.get id = some w ∧
    w.rect = .new 1 1 3 3 ∧ ∀ rect, rect.width < 2^31 → rect.height < 2^31 →
      4*(rect.width.toNat*rect.height.toNat) < 2^63 → HasRoom m rect := by
  obtain ⟨s0,h1,h2,h3⟩ := @screenInv_new smallFrame smallMemory (by decide)
  have hrun := ScreenRun.new (by decide : smallFrame.image < smallMemory.next) h1
  have hne : (Rect.new 1 1 3 3).isEmpty = false := by decide
  obtain ⟨id,s1,m1,h4,_,h5,w,h6,h7,_⟩ := h3.newWindow hne 0 (by rw [h2]; decide) (by decide)
  refine ⟨id,s1,m1,w,hrun.newWindow 0 hne h4,by rw [h5, h2]; rfl,h6.get_new,h7,fun rect hw hh hsize => ⟨hw,hh,hsize,?_⟩⟩
  rw [newWindow_refuses h4]
  rfl

end Lilith.Draw
