import Lilith.Draw.Move

/-! Moving a window to another place in the stack. Towards the front the tracker is given to the window wherever the window
is on top then. Towards the back it is left as it is, also where a window that was covered is on top then. -/
namespace Lilith.Draw
open Theory Rbtree

/-- A rotation of the slice `v[lo..=hi]`. -/
def rotateSlice (v : List ℕ) (lo hi : ℕ) (rotate : List ℕ → List ℕ) : Except Fault (List ℕ) :=
  if v.length < hi + 1 then .error (.panic "range end index out of range for slice")
  else .ok (v.take lo ++ rotate ((v.take (hi+1)).drop lo) ++ v.drop (hi+1))

namespace Screen

/-- The new place of a window when one moves towards the back. -/
def toBack (oldZIndex newZIndex z : ℕ) : ℕ :=
  if z > newZIndex then z
  else if z > oldZIndex then z - 1
  else if z = oldZIndex then newZIndex
  else z

/-- The new place of a window when one moves towards the front. -/
def toFront (oldZIndex newZIndex z : ℕ) : ℕ :=
  if z > oldZIndex then z
  else if z = oldZIndex then newZIndex
  else if z ≥ newZIndex then z + 1
  else z

def setWindowZIndex (self : Screen) (windowId newZIndex : ℕ) : Except Fault Screen := do
  let newZIndex := min newZIndex (← checkedSub self.visible.length 1)
  let window ← unwrap (self.windows.get windowId)
  let oldZIndex := window.zIndex
  let rect := window.rect
  if newZIndex = oldZIndex then return self
  else if newZIndex > oldZIndex then do
    let self ← self.zIndexUpdate (toBack oldZIndex newZIndex)
    let visible ← rotateSlice self.visible oldZIndex newZIndex fun v => v.rotateLeft 1
    Screen.rebuildDamageTrackerMoveToBack { self with visible := visible } oldZIndex newZIndex rect
  else do
    let self ← self.zIndexUpdate (toFront oldZIndex newZIndex)
    let visible ← rotateSlice self.visible newZIndex oldZIndex fun v => v.rotateRight 1
    let tracker ← self.damageTracker.update rect fun region =>
      if (region.filter fun r => r.zIndex ≤ newZIndex).isSome then region else some ⟨newZIndex,true⟩
    return { self with visible := visible, damageTracker := tracker }

end Screen

section Rotate
variable {v : List ℕ} {lo hi x : ℕ}

lemma length_slice (hhi : hi < v.length) : ((v.take (hi+1)).drop lo).length = hi + 1 - lo := by
  rw [List.length_drop, List.length_take, Nat.min_eq_left hhi]

/-- The first entry of the slice goes to its end. -/
lemma rotateSlice_left (hx : v[lo]? = some x) (hlt : lo < hi) (hhi : hi < v.length) :
    rotateSlice v lo hi (fun v => v.rotateLeft 1) = .ok ((v.eraseIdx lo).insertIdx hi x) := by
  have hrotate : ((v.take (hi+1)).drop lo).rotateLeft 1 = (v.take (hi+1)).drop (lo+1) ++ (v.take (lo+1)).drop lo := by
    unfold List.rotateLeft
    simp only [length_slice hhi]
    rw [if_neg (by omega), Nat.mod_eq_of_lt (by omega), List.drop_drop, List.take_drop, List.take_take,
      Nat.min_eq_left (by omega)]
  rw [rotateSlice, if_neg (by omega), hrotate]
  congr 1
  apply List.ext_getElem?
  intro k
  rw [List.getElem?_insertIdx, List.length_eraseIdx]
  simp only [List.getElem?_eraseIdx, List.getElem?_append, List.getElem?_take, List.getElem?_drop, List.length_append,
    List.length_take, List.length_drop]
  grind

/-- The last entry of the slice goes to its start. -/
lemma rotateSlice_right (hx : v[hi]? = some x) (hlt : lo < hi) (hhi : hi < v.length) :
    rotateSlice v lo hi (fun v => v.rotateRight 1) = .ok ((v.eraseIdx hi).insertIdx lo x) := by
  have hrotate : ((v.take (hi+1)).drop lo).rotateRight 1 = (v.take (hi+1)).drop hi ++ (v.take hi).drop lo := by
    unfold List.rotateRight
    simp only [length_slice hhi]
    rw [if_neg (by omega), Nat.mod_eq_of_lt (by omega), List.drop_drop, List.take_drop, List.take_take,
      Nat.min_eq_left (by omega), show lo + (hi + 1 - lo - 1) = hi by omega]
  rw [rotateSlice, if_neg (by omega), hrotate]
  congr 1
  apply List.ext_getElem?
  intro k
  rw [List.getElem?_insertIdx, List.length_eraseIdx]
  simp only [List.getElem?_eraseIdx, List.getElem?_append, List.getElem?_take, List.getElem?_drop, List.length_append,
    List.length_take, List.length_drop]
  grind

lemma eraseIdx_insertIdx (hx : v[lo]? = some x) : (v.eraseIdx lo).insertIdx lo x = v := by
  apply List.ext_getElem?
  intro k
  rw [List.getElem?_insertIdx, List.length_eraseIdx]
  simp only [List.getElem?_eraseIdx]
  grind

/-- The entries of the vector after one was moved towards the back. -/
lemma getElem?_toBack (hx : v[lo]? = some x) (hlt : lo < hi) (hhi : hi < v.length) (k : ℕ) :
    ((v.eraseIdx lo).insertIdx hi x)[Screen.toBack lo hi k]? = v[k]? := by
  rw [List.getElem?_insertIdx, List.length_eraseIdx]
  simp only [List.getElem?_eraseIdx, Screen.toBack]
  grind

/-- The entries of the vector after one was moved towards the front. -/
lemma getElem?_toFront (hx : v[hi]? = some x) (hlt : lo < hi) (hhi : hi < v.length) (k : ℕ) :
    ((v.eraseIdx hi).insertIdx lo x)[Screen.toFront hi lo k]? = v[k]? := by
  rw [List.getElem?_insertIdx, List.length_eraseIdx]
  simp only [List.getElem?_eraseIdx, Screen.toFront]
  grind

end Rotate

variable {fb : Surface} {s s' : Screen} {m : Images} {p : Point} {id : ℕ} {w : Window}

section Renumber
variable {windows : IdSparseVec Window} {visible visible' : List ℕ} {g : ℕ → ℕ}

lemma get_renumber {j : ℕ} {v : Window} (hv : windows.get j = some v) :
    (windows.iterMut (Window.renumber g)).get j = some (v.renumber g) := by
  rw [IdSparseVec.get_iterMut, hv]
  rfl

lemma renumber_cases {j : ℕ} {v' : Window} (hv : (windows.iterMut (Window.renumber g)).get j = some v') :
    ∃ v, windows.get j = some v ∧ v' = v.renumber g := by
  rw [IdSparseVec.get_iterMut] at hv
  obtain ⟨v,h1,h2⟩ := Option.map_eq_some_iff.mp hv
  exact ⟨v,h1,h2.symm⟩

lemma Stacked.renumber (h : Stacked windows visible) (hlen : visible'.length = visible.length)
    (hplace : ∀ k, visible'[g k]? = visible[k]?)
    (honto : ∀ k, k < visible.length → ∃ k0, k0 < visible.length ∧ g k0 = k) :
    Stacked (windows.iterMut (Window.renumber g)) visible' := by
  refine ⟨h.valid.iterMut,fun k j hk => ?_,fun j v' hv' => ?_,hlen ▸ h.few⟩
  · have hlt := (List.getElem?_eq_some_iff.mp hk).1
    obtain ⟨k0,hk0,rfl⟩ := honto k (hlen ▸ hlt)
    rw [hplace k0] at hk
    obtain ⟨v,hv,rfl⟩ := h.window k0 j hk
    exact ⟨v.renumber g,get_renumber hv,rfl⟩
  · obtain ⟨v,hv,rfl⟩ := renumber_cases hv'
    rw [show (v.renumber g).zIndex = g v.zIndex from rfl, hplace]
    exact h.place j v hv

/-- A window stays on top when the new indices of the windows at the point are not lower than its own. -/
lemma Topmost.renumber {j : ℕ} {v : Window} (ht : Topmost windows p j v)
    (hle : ∀ i u, windows.get i = some u → u.rect.Contains p → g v.zIndex ≤ g u.zIndex) :
    Topmost (windows.iterMut (Window.renumber g)) p j (v.renumber g) := by
  refine ⟨get_renumber ht.get,ht.contains,fun i u' hu' hc => ?_⟩
  obtain ⟨u,hu,rfl⟩ := renumber_cases hu'
  exact hle i u hu hc

/-- The window on top stays the same. -/
lemma TopIndex.renumber {z : ℕ} (h : TopIndex windows p z) (hmax : g USIZE_MAX = USIZE_MAX)
    (hle : ∀ j v, Topmost windows p j v → v.zIndex = z → ∀ i u, windows.get i = some u → u.rect.Contains p →
      g v.zIndex ≤ g u.zIndex) :
    TopIndex (windows.iterMut (Window.renumber g)) p (g z) ∧ SameTop windows (windows.iterMut (Window.renumber g)) p := by
  rcases h with ⟨j,v,ht,rfl⟩ | ⟨hu,rfl⟩
  · have ht' := ht.renumber (hle j v ht rfl)
    exact ⟨Or.inl ⟨j,_,ht',rfl⟩,Or.inl ⟨j,v,_,ht,ht',rfl⟩⟩
  · have hu' : Uncovered (windows.iterMut (Window.renumber g)) p := fun j v' hv' => by
      obtain ⟨v,hv,rfl⟩ := renumber_cases hv'
      exact hu j v hv
    exact ⟨Or.inr ⟨hu',hmax⟩,Or.inr ⟨hu,hu'⟩⟩

end Renumber

/-- What is asked of `set_window_z_index`: the window is at its new place, nothing else of the windows changes, the tracker
is coherent for the new order, and where another window is on top now, the screen is dirty. -/
structure Restacked (fb : Surface) (s s' : Screen) (m : Images) (id old new : ℕ) : Prop where
  order : s'.visible = (s.visible.eraseIdx old).insertIdx new id
  stacked : Stacked s'.windows s'.visible
  surfaces : ∀ j, (s'.windows.get j).map Window.surface = (s.windows.get j).map Window.surface
  coherent : Coherent fb s' m
  dirty : ∀ p, fb.rect.Contains p → ∀ j v j' v', Topmost s.windows p j v → Topmost s'.windows p j' v' → j ≠ j' →
    ∃ region, s'.damageTracker.value p = some region ∧ region.dirty = true

/-- Where the window is on top, it stays on top: none of the windows that it is put behind contains the point. -/
def StaysOnTop (fb : Surface) (windows : IdSparseVec Window) (id : ℕ) (w : Window) (new : ℕ) : Prop :=
  ∀ p, fb.rect.Contains p → Topmost windows p id w →
    ∀ j v, windows.get j = some v → v.rect.Contains p → w.zIndex < v.zIndex → new < v.zIndex

/-- Windows with new indices and a tracker that knows them. -/
lemma ScreenInv.restacked (h : ScreenInv fb s m) {g : ℕ → ℕ} {visible' : List ℕ} {st : BandedRegion WindowRegion}
    {old new : ℕ} (horder : visible' = (s.visible.eraseIdx old).insertIdx new id)
    (hst : Stacked (s.windows.iterMut (Window.renumber g)) visible')
    (hpoint : ∀ p, fb.rect.Contains p → ∃ region, st.value p = some region ∧
      TopIndex (s.windows.iterMut (Window.renumber g)) p region.zIndex ∧ (region.dirty = true ∨
        (∃ r, s.damageTracker.value p = some r ∧ r.dirty = region.dirty) ∧
        SameTop s.windows (s.windows.iterMut (Window.renumber g)) p)) :
    Restacked fb s ⟨s.windows.iterMut (Window.renumber g),visible',st⟩ m id old new := by
  refine ⟨horder,hst,fun j => ?_,h.coherent.retop hst (fun _ _ => rfl) hpoint,
    fun p hp j v j' v' ht ht' hne => ?_⟩
  · rw [IdSparseVec.get_iterMut, Option.map_map]
    rfl
  · obtain ⟨region,h1,_,h2⟩ := hpoint p hp
    refine ⟨region,h1,h2.resolve_right fun hsame => hne ?_⟩
    rcases hsame.2 with ⟨i,u,u',hu,hu',_⟩ | ⟨hu,_⟩
    · exact (h.stacked.topmost_unique ht hu).1.trans (hst.topmost_unique hu' ht').1
    · exact absurd ht.contains (hu j v ht.get)

/-- The window on top at a point of a window is not behind it. -/
lemma TopIndex.le {windows : IdSparseVec Window} {z : ℕ} (h : TopIndex windows p z) (hw : windows.get id = some w)
    (hc : w.rect.Contains p) : z ≤ w.zIndex := by
  rcases h with ⟨j,v,ht,rfl⟩ | ⟨hu,_⟩
  · exact ht.lowest id w hw hc
  · exact absurd hc (hu id w hw)

section Back
variable {new : ℕ}

lemma Stacked.toBack (h : Stacked s.windows s.visible) (hw : s.windows.get id = some w) (hlt : w.zIndex < new)
    (hnew : new < s.visible.length) : Stacked (s.windows.iterMut (Window.renumber (Screen.toBack w.zIndex new)))
      ((s.visible.eraseIdx w.zIndex).insertIdx new id) := by
  have hx := h.place id w hw
  have hold := h.zIndex_lt hw
  refine h.renumber ?_ (getElem?_toBack hx hlt hnew) fun k hk => ?_
  · rw [List.length_insertIdx, List.length_eraseIdx]
    split_ifs <;> omega
  · by_cases h1 : k < w.zIndex ∨ new < k
    · exact ⟨k,hk,by unfold Screen.toBack; split_ifs <;> omega⟩
    · by_cases h2 : k = new
      · exact ⟨w.zIndex,hold,by unfold Screen.toBack; split_ifs <;> omega⟩
      · exact ⟨k+1,by omega,by unfold Screen.toBack; split_ifs <;> omega⟩

/-- `set_window_z_index` towards the back, point by point. -/
lemma setBack_ok {tb : CTree (ℕ × Band)} (hs : Sound s.damageTracker tb []) (hst : Stacked s.windows s.visible)
    (hw : s.windows.get id = some w) {newZIndex : ℕ} (hmin : min newZIndex (s.visible.length - 1) = new)
    (hlt : w.zIndex < new) {windows' : IdSparseVec Window} {visible' : List ℕ}
    (hwindows : windows' = s.windows.iterMut (Window.renumber (Screen.toBack w.zIndex new)))
    (hvisible : visible' = (s.visible.eraseIdx w.zIndex).insertIdx new id) :
    ∃ (st : BandedRegion WindowRegion) (st' : BandedRegion WindowRegion) (tb' : CTree (ℕ × Band)),
      s.setWindowZIndex id newZIndex = .ok ⟨windows',visible',st'⟩ ∧ Sound st' tb' [] ∧
      Stacked windows' visible' ∧
      (∀ p, st.value p = (s.damageTracker.value p).map
        fun r => { r with zIndex := Screen.toBack w.zIndex new r.zIndex }) ∧
      ∀ p, st'.value p = if w.rect.Contains p ∧ isKept (fun r => decide (r.zIndex < w.zIndex ∨ r.zIndex ≥ new)) (st.value p) = false
        then (((visible'.filterMap windows'.get).find? fun v => !decide (v.zIndex < w.zIndex ∨ v.zIndex ≥ new) &&
          decide (v.rect.Contains p)).map fun v => ⟨v.zIndex,true⟩).or (st.value p) else st.value p := by
  have hold := hst.zIndex_lt hw
  have hnew : new < s.visible.length := by omega
  obtain ⟨st,h1,h2,h3⟩ := zIndexUpdate_ok hs (Screen.toBack w.zIndex new)
  rw [← hwindows] at h1
  have hst' := hst.toBack hw hlt hnew
  rw [← hwindows, ← hvisible] at hst'
  have hids : ∀ i ∈ visible', ∃ v, windows'.get i = some v := fun i hi => by
    obtain ⟨k,hk⟩ := List.mem_iff_getElem?.mp hi
    obtain ⟨v,hv,_⟩ := hst'.window k i hk
    exact ⟨v,hv⟩
  obtain ⟨st',tb',h4,h5,h6⟩ := @rebuildLoop_ok ⟨windows',visible',st⟩ st tb h2
    (fun window => decide (window.zIndex < w.zIndex ∨ window.zIndex ≥ new))
    (fun r => decide (r.zIndex < w.zIndex ∨ r.zIndex ≥ new)) w.rect (fun v hv => hv) _ hids
  have hrotate := rotateSlice_left (hst.place id w hw) hlt hnew
  rw [← hvisible] at hrotate
  refine ⟨st,st',tb',?_,h5,hst',h3,h6⟩
  simp only [Screen.setWindowZIndex, checkedSub_of_le (show 1 ≤ s.visible.length by omega), bind, Except.bind, hmin, hw, unwrap,
    if_neg hlt.ne', if_pos hlt, h1, hrotate, Screen.rebuildDamageTrackerMoveToBack, Screen.rebuildDamageTracker, h4]
  rfl

/-- `set_window_z_index` towards the back, which only renumbers the regions of the screen. -/
lemma ScreenInv.setBack (h : ScreenInv fb s m) (hw : s.windows.get id = some w) {newZIndex : ℕ}
    (hmin : min newZIndex (s.visible.length - 1) = new) (hlt : w.zIndex < new) :
    ∃ st, s.setWindowZIndex id newZIndex = .ok ⟨s.windows.iterMut (Window.renumber (Screen.toBack w.zIndex new)),
        (s.visible.eraseIdx w.zIndex).insertIdx new id,st⟩ ∧
      ∀ p r, s.damageTracker.value p = some r → TopIndex s.windows p r.zIndex →
        st.value p = some { r with zIndex := Screen.toBack w.zIndex new r.zIndex } := by
  obtain ⟨tb,hs⟩ := h.tracker
  obtain ⟨st,st',tb',h1,_,_,h3,h6⟩ := setBack_ok hs h.stacked hw hmin hlt rfl rfl
  refine ⟨st',h1,fun p r hr htop => ?_⟩
  rw [h6, h3, hr, Option.map_some, if_neg]
  intro ⟨hc,hkept⟩
  have hle := htop.le hw hc
  have : Screen.toBack w.zIndex new r.zIndex < w.zIndex ∨ Screen.toBack w.zIndex new r.zIndex ≥ new := by
    unfold Screen.toBack
    split_ifs <;> omega
  simp only [isKept, Option.filter_some, this, decide_true, if_true, Option.isSome_some, Bool.true_eq_false] at hkept

/-- The window stays on top where it was. -/
lemma toBack_le (h : Stacked s.windows s.visible) (hw : s.windows.get id = some w) (hp : fb.rect.Contains p)
    (hstays : StaysOnTop fb s.windows id w new) {j : ℕ} {v : Window} (ht : Topmost s.windows p j v) {i : ℕ} {u : Window}
    (hu : s.windows.get i = some u) (hc : u.rect.Contains p) :
    Screen.toBack w.zIndex new v.zIndex ≤ Screen.toBack w.zIndex new u.zIndex := by
  have hle := ht.lowest i u hu hc
  have hon : v.zIndex = w.zIndex → w.zIndex < u.zIndex → new < u.zIndex := fun he => by
    obtain ⟨rfl,rfl⟩ := h.unique ht.get hw he
    exact hstays p hp ht i u hu hc
  unfold Screen.toBack
  split_ifs <;> omega

/-- The window is put behind one of the windows at a point where it was on top. -/
lemma toBack_not_top {j : ℕ} {v : Window} (hv : s.windows.get j = some v) (hc : v.rect.Contains p)
    (h1 : w.zIndex < v.zIndex) (h2 : v.zIndex ≤ new) :
    ¬TopIndex (s.windows.iterMut (Window.renumber (Screen.toBack w.zIndex new))) p new := by
  intro htop
  have hle := htop.le (get_renumber hv) hc
  have hz : (v.renumber (Screen.toBack w.zIndex new)).zIndex = v.zIndex - 1 := by
    unfold Window.renumber Screen.toBack
    simp only
    rw [if_neg (by omega), if_pos h1]
  omega

end Back

section Front
variable {new : ℕ}

lemma Stacked.toFront (h : Stacked s.windows s.visible) (hw : s.windows.get id = some w) (hlt : new < w.zIndex) :
    Stacked (s.windows.iterMut (Window.renumber (Screen.toFront w.zIndex new)))
      ((s.visible.eraseIdx w.zIndex).insertIdx new id) := by
  have hx := h.place id w hw
  have hold := h.zIndex_lt hw
  refine h.renumber ?_ (getElem?_toFront hx hlt hold) fun k hk => ?_
  · rw [List.length_insertIdx, List.length_eraseIdx]
    split_ifs <;> omega
  · by_cases h1 : k < new ∨ w.zIndex < k
    · exact ⟨k,hk,by unfold Screen.toFront; split_ifs <;> omega⟩
    · by_cases h2 : k = new
      · exact ⟨w.zIndex,hold,by unfold Screen.toFront; split_ifs <;> omega⟩
      · exact ⟨k-1,by omega,by unfold Screen.toFront; split_ifs <;> omega⟩

/-- `set_window_z_index` towards the front. -/
lemma setFront_ok {tb : CTree (ℕ × Band)} (hs : Sound s.damageTracker tb []) (hst : Stacked s.windows s.visible)
    (hw : s.windows.get id = some w) (hproper : w.rect.isEmpty = false) {newZIndex : ℕ}
    (hmin : min newZIndex (s.visible.length - 1) = new) (hlt : new < w.zIndex) :
    ∃ st tb', s.setWindowZIndex id newZIndex = .ok ⟨s.windows.iterMut (Window.renumber (Screen.toFront w.zIndex new)),
        (s.visible.eraseIdx w.zIndex).insertIdx new id,st⟩ ∧ Sound st tb' [] ∧
      ∀ p, st.value p = if w.rect.Contains p ∧ (((s.damageTracker.value p).map
            fun r => { r with zIndex := Screen.toFront w.zIndex new r.zIndex }).filter fun r => r.zIndex ≤ new).isSome = false
        then some ⟨new,true⟩
        else (s.damageTracker.value p).map fun r => { r with zIndex := Screen.toFront w.zIndex new r.zIndex } := by
  have hold := hst.zIndex_lt hw
  obtain ⟨st,h1,h2,h3⟩ := zIndexUpdate_ok hs (Screen.toFront w.zIndex new)
  obtain ⟨st',tb',h4,h5,h6⟩ := h2.update_value hproper fun region : Option WindowRegion =>
    if (region.filter fun r => r.zIndex ≤ new).isSome then region else some ⟨new,true⟩
  refine ⟨st',tb',?_,h5,fun p => ?_⟩
  · simp only [Screen.setWindowZIndex, checkedSub_of_le (show 1 ≤ s.visible.length by omega), bind, Except.bind, hmin, hw, unwrap,
      if_neg hlt.ne, if_neg (not_lt.mpr hlt.le), h1, rotateSlice_right (hst.place id w hw) hlt hold, h4]
    rfl
  · rw [h6, h3]
    by_cases hc : w.rect.Contains p
    · rw [if_pos hc]
      cases hk : (((s.damageTracker.value p).map
          fun r => { r with zIndex := Screen.toFront w.zIndex new r.zIndex }).filter fun r => r.zIndex ≤ new).isSome with
      | true => rw [if_pos rfl, if_neg (by simp)]
      | false => rw [if_neg (by simp), if_pos ⟨hc,rfl⟩]
    · rw [if_neg hc, if_neg fun h => hc h.1]

lemma ScreenInv.setFront (h : ScreenInv fb s m) (hw : s.windows.get id = some w) {newZIndex : ℕ}
    (hmin : min newZIndex (s.visible.length - 1) = new) (hlt : new < w.zIndex) :
    ∃ st, s.setWindowZIndex id newZIndex = .ok ⟨s.windows.iterMut (Window.renumber (Screen.toFront w.zIndex new)),
        (s.visible.eraseIdx w.zIndex).insertIdx new id,st⟩ ∧
      ∀ p r, s.damageTracker.value p = some r →
        st.value p = if w.rect.Contains p ∧ new < Screen.toFront w.zIndex new r.zIndex then some ⟨new,true⟩
          else some { r with zIndex := Screen.toFront w.zIndex new r.zIndex } := by
  obtain ⟨tb,hs⟩ := h.tracker
  obtain ⟨st,tb',h1,_,h2⟩ := setFront_ok hs h.stacked hw (h.separate.proper id w hw) hmin hlt
  refine ⟨st,h1,fun p r hr => ?_⟩
  simp only [h2, hr, Option.map_some, Option.filter_some]
  by_cases hz : Screen.toFront w.zIndex new r.zIndex ≤ new
  · simp [hz, not_lt.mpr hz]
  · simp [hz, not_le.mp hz]

/-- The tracker at a point after a window moved towards the front. -/
lemma toFront_point (h : Stacked s.windows s.visible) (hw : s.windows.get id = some w) (hlt : new < w.zIndex)
    {r : WindowRegion} (htop : TopIndex s.windows p r.zIndex) :
    (w.rect.Contains p ∧ new < Screen.toFront w.zIndex new r.zIndex →
      TopIndex (s.windows.iterMut (Window.renumber (Screen.toFront w.zIndex new))) p new) ∧
    (¬(w.rect.Contains p ∧ new < Screen.toFront w.zIndex new r.zIndex) →
      TopIndex (s.windows.iterMut (Window.renumber (Screen.toFront w.zIndex new))) p (Screen.toFront w.zIndex new r.zIndex) ∧
      SameTop s.windows (s.windows.iterMut (Window.renumber (Screen.toFront w.zIndex new))) p) := by
  have hmax : w.zIndex < USIZE_MAX := (h.zIndex_lt hw).trans_le (h.few.trans VEC_MAX_lt.le)
  constructor
  · intro ⟨hc,hbehind⟩
    have hle := htop.le hw hc
    refine Or.inl ⟨id,_,⟨get_renumber hw,hc,fun i u' hu' hcu => ?_⟩,?_⟩
    · obtain ⟨u,hu,rfl⟩ := renumber_cases hu'
      have hr := htop.le hu hcu
      simp only [Window.renumber, Screen.toFront] at hbehind ⊢
      split_ifs at hbehind ⊢ <;> omega
    · simp only [Window.renumber, Screen.toFront]
      split_ifs <;> omega
  · intro hkeep
    refine htop.renumber ?_ fun j v ht hz i u hu hcu => ?_
    · unfold Screen.toFront
      rw [if_pos hmax]
    · have hle := ht.lowest i u hu hcu
      have hself : u.zIndex = w.zIndex → Screen.toFront w.zIndex new v.zIndex ≤ new := fun he => by
        obtain ⟨rfl,rfl⟩ := h.unique hu hw he
        rw [hz]
        exact not_lt.mp fun hlt => hkeep ⟨hcu,hlt⟩
      unfold Screen.toFront at hself ⊢
      split_ifs at hself ⊢ <;> omega

end Front

section Restack
variable {new newZIndex : ℕ}

/-- A window that is put behind another one at a point where it was on top. -/
lemma ScreenInv.staysOnTop (h : ScreenInv fb s m) (hw : s.windows.get id = some w)
    (hmin : min newZIndex (s.visible.length - 1) = new) (hlt : w.zIndex < new)
    (hrun : s.setWindowZIndex id newZIndex = .ok s') (hcoherent : Coherent fb s' m) : StaysOnTop fb s.windows id w new := by
  obtain ⟨st,hrun',hval⟩ := h.setBack hw hmin hlt
  obtain rfl := Except.ok.inj (hrun'.symm.trans hrun)
  intro p hp ht j v hv hc hbehind
  by_contra hle
  obtain ⟨r,hr,htop,_⟩ := h.coherent p hp
  obtain ⟨region,h1,h2,_⟩ := hcoherent p hp
  have hz : Screen.toBack w.zIndex new r.zIndex = new := by
    rcases htop with ⟨i,u,htu,hu⟩ | ⟨hu,_⟩
    · rw [← hu, (h.stacked.topmost_unique htu ht).2]
      unfold Screen.toBack
      split_ifs <;> omega
    · exact absurd ht.contains (hu id w hw)
  simp only [hval p r hr htop, Option.some.injEq] at h1
  rw [← h1, hz] at h2
  exact toBack_not_top hv hc hbehind (not_lt.mp hle) h2

lemma ScreenInv.restackBack (h : ScreenInv fb s m) (hw : s.windows.get id = some w)
    (hmin : min newZIndex (s.visible.length - 1) = new) (hlt : w.zIndex < new)
    (hstays : StaysOnTop fb s.windows id w new) :
    ∃ s', s.setWindowZIndex id newZIndex = .ok s' ∧ Restacked fb s s' m id w.zIndex new := by
  obtain ⟨st,hrun,hval⟩ := h.setBack hw hmin hlt
  have hold := h.stacked.zIndex_lt hw
  have hnew : new < s.visible.length := by omega
  have hmax : new < USIZE_MAX := hnew.trans_le (h.stacked.few.trans VEC_MAX_lt.le)
  have hfix : Screen.toBack w.zIndex new USIZE_MAX = USIZE_MAX := if_pos hmax
  refine ⟨_,hrun,h.restacked rfl (h.stacked.toBack hw hlt hnew) fun p hp => ?_⟩
  obtain ⟨r,hr,htop,_⟩ := h.coherent p hp
  obtain ⟨h1,h2⟩ := htop.renumber hfix fun j v ht _ i u hu hc => toBack_le h.stacked hw hp hstays ht hu hc
  exact ⟨_,hval p r hr htop,h1,Or.inr ⟨⟨r,hr,rfl⟩,h2⟩⟩

lemma ScreenInv.restackFront (h : ScreenInv fb s m) (hw : s.windows.get id = some w)
    (hmin : min newZIndex (s.visible.length - 1) = new) (hlt : new < w.zIndex) :
    ∃ s', s.setWindowZIndex id newZIndex = .ok s' ∧ Restacked fb s s' m id w.zIndex new := by
  obtain ⟨st,hrun,hval⟩ := h.setFront hw hmin hlt
  refine ⟨_,hrun,h.restacked rfl (h.stacked.toFront hw hlt) fun p hp => ?_⟩
  obtain ⟨r,hr,htop,_⟩ := h.coherent p hp
  obtain ⟨h1,h2⟩ := toFront_point h.stacked hw hlt htop
  rw [hval p r hr]
  split_ifs with hc
  · exact ⟨_,rfl,h1 hc,Or.inl rfl⟩
  · obtain ⟨h3,h4⟩ := h2 hc
    exact ⟨_,rfl,h3,Or.inr ⟨⟨r,hr,rfl⟩,h4⟩⟩

/-- A window that is at its place already. -/
lemma ScreenInv.restackSame (h : ScreenInv fb s m) (hw : s.windows.get id = some w)
    (hmin : min newZIndex (s.visible.length - 1) = w.zIndex) :
    ∃ s', s.setWindowZIndex id newZIndex = .ok s' ∧ Restacked fb s s' m id w.zIndex w.zIndex := by
  have hold := h.stacked.zIndex_lt hw
  have hrun : s.setWindowZIndex id newZIndex = .ok s := by
    simp only [Screen.setWindowZIndex, checkedSub_of_le (show 1 ≤ s.visible.length by omega), bind, Except.bind, hmin, hw,
      unwrap, if_true]
    rfl
  refine ⟨s,hrun,?_,h.stacked,fun _ => rfl,h.coherent,?_⟩
  · rw [eraseIdx_insertIdx (h.stacked.place id w hw)]
  · intro p _ j v j' v' ht ht' hne
    exact absurd (h.stacked.topmost_unique ht ht').1 hne

end Restack

/-- Moving a window in the stack leaves the tracker coherent for the new order if and only if the window stays on top
wherever it is. Towards the front this is always so. -/
theorem setWindowZIndex_coherent_iff (h : ScreenInv fb s m) (hw : s.windows.get id = some w) (newZIndex : ℕ) :
    (∃ s', s.setWindowZIndex id newZIndex = .ok s' ∧
      Restacked fb s s' m id w.zIndex (min newZIndex (s.visible.length - 1))) ↔
    StaysOnTop fb s.windows id w (min newZIndex (s.visible.length - 1)) := by
  generalize hmin : min newZIndex (s.visible.length - 1) = new
  rcases lt_trichotomy w.zIndex new with hlt | rfl | hlt
  · constructor
    · intro ⟨s',hrun,hre⟩
      exact h.staysOnTop hw hmin hlt hrun hre.coherent
    · intro hstays
      exact h.restackBack hw hmin hlt hstays
  · constructor
    · intro _ p _ _ j v _ _ hbehind
      exact hbehind
    · intro _
      exact h.restackSame hw hmin
  · constructor
    · intro _ p _ _ j v _ _ hbehind
      exact hlt.trans hbehind
    · intro _
      exact h.restackFront hw hmin hlt

/-- A small screen with two windows, one of them partly in front of the other. -/
lemma smallFrame_windows : ∃ id id' s m w w', ScreenRun smallFrame s m ∧ s.visible = [id',id] ∧
    s.windows.get id = some w ∧ w.rect = .new 1 1 3 3 ∧ w.zIndex = 1 ∧
    s.windows.get id' = some w' ∧ w'.rect = .new 2 2 4 4 ∧ w'.zIndex = 0 := by
  obtain ⟨id,s,m,w,hrun,hvis,hw,hrect,hroom⟩ := smallFrame_window
  have hinv := hrun.inv smallFrame_fits
  have hne : (Rect.new 2 2 4 4).isEmpty = false := by decide
  obtain ⟨id',s1,m1,h1,_,h2,w',h3,h4,_⟩ := hinv.newWindow hne 0 (by rw [hvis, List.length_singleton]; decide)
    (hroom _ (by decide) (by decide) (by decide))
  have hz : w.zIndex = 0 := by
    have := hinv.stacked.zIndex_lt hw
    rw [hvis] at this
    simpa using this
  refine ⟨id,id',s1,m1,_,w',hrun.newWindow 0 hne h1,by rw [h2, hvis]; rfl,h3.get_old hw,hrect,?_,h3.get_new,h4,?_⟩
  · simp only [Window.shift, hz, Nat.zero_min]
    decide
  · exact h3.zIndex

/-- The window behind comes to the front. -/
theorem setWindowZIndex_coherent_iff_front : ∃ id s m w, ScreenRun smallFrame s m ∧ s.windows.get id = some w ∧
    w.zIndex = 1 ∧ ∃ s', s.setWindowZIndex id 0 = .ok s' ∧ Restacked smallFrame s s' m id 1 0 := by
  obtain ⟨id,id',s,m,w,w',hrun,_,hw,_,hz,_⟩ := smallFrame_windows
  have hstays : StaysOnTop smallFrame s.windows id w (min 0 (s.visible.length - 1)) := by
    intro p _ _ j v _ _ hbehind
    rw [Nat.zero_min]
    exact (Nat.zero_le _).trans_lt hbehind
  have hre := (setWindowZIndex_coherent_iff (hrun.inv smallFrame_fits) hw 0).mpr hstays
  rw [Nat.zero_min, hz] at hre
  exact ⟨id,s,m,w,hrun,hw,hz,hre⟩

/-- The window in front goes to the back, and the tracker still has it on top where the two overlap. -/
theorem setWindowZIndex_not_coherent : ∃ id s m w s', ScreenRun smallFrame s m ∧ ScreenInv smallFrame s m ∧
    s.windows.get id = some w ∧ w.zIndex = 0 ∧ s.visible.length = 2 ∧ s.setWindowZIndex id 1 = .ok s' ∧
    ¬Coherent smallFrame s' m := by
  obtain ⟨id',id,s,m,w',w,hrun,hvis,hw',hrect',hz',hw,hrect,hz⟩ := smallFrame_windows
  have hinv := hrun.inv smallFrame_fits
  have hmin : min 1 (s.visible.length - 1) = 1 := by rw [hvis]; rfl
  have hlt : w.zIndex < 1 := by omega
  obtain ⟨st,h1,_⟩ := hinv.setBack hw hmin hlt
  refine ⟨id,s,m,w,_,hrun,hinv,hw,hz,by rw [hvis]; rfl,h1,fun hcoherent => ?_⟩
  have hstays := hinv.staysOnTop hw hmin hlt h1 hcoherent
  have htop : Topmost s.windows ⟨2,2⟩ id w :=
    ⟨hw,by rw [hrect]; decide,fun j v _ _ => by omega⟩
  have := hstays ⟨2,2⟩ (by decide) htop id' w' hw' (by rw [hrect']; decide) (by omega)
  omega

end Lilith.Draw
