import Lilith.Draw.Painting

/-! After every update the frame buffer shows the windows of the screen, the one with the lowest index on
top. Each operation of a run leaves the damage tracker coherent. -/
namespace Lilith.Draw
open Theory Rbtree

variable {fb : Surface} {s s' : Screen} {m m' : Images} {p : Point} {id : ℕ} {w : Window} {rect : Rect}

/-- `mark_dirty_beyond` -/
lemma ScreenInv.markDirtyBeyond (h : ScreenInv fb s m) (zIndex : ℕ) (hrect : rect.isEmpty = false) :
    ∃ s', s.markDirtyBeyond zIndex rect = .ok s' ∧ ScreenInv fb s' m := by
  obtain ⟨tb,hs⟩ := h.tracker
  obtain ⟨st1,tb1,h1,h2,h3⟩ := hs.update_value hrect fun region : Option WindowRegion =>
    region.map fun r => ⟨r.zIndex,r.dirty || decide (r.zIndex ≥ zIndex)⟩
  refine ⟨{ s with damageTracker := st1 },?_,⟨tb1,h2⟩,h.stacked,h.separate,fun p hp => ?_⟩
  · simp only [Screen.markDirtyBeyond, h1, bind, Except.bind]
    rfl
  · obtain ⟨region,hr,htop,hclean⟩ := h.coherent p hp
    simp only [h3, hr]
    split_ifs with hc
    · refine ⟨_,rfl,htop,fun hd => hclean ?_⟩
      rw [Bool.or_eq_false_iff] at hd
      exact hd.1
    · exact ⟨region,rfl,htop,hclean⟩

/-- What `mark_dirty` makes of the region at a point. -/
def mark (zIndex : ℕ) (region : Option WindowRegion) : Option WindowRegion :=
  if (region.filter fun r => r.zIndex < zIndex).isSome then region else some ⟨zIndex,true⟩

lemma mark_some (zIndex : ℕ) (region : WindowRegion) :
    mark zIndex (some region) = some (if region.zIndex < zIndex then region else ⟨zIndex,true⟩) := by
  unfold mark
  by_cases hz : region.zIndex < zIndex
  · simp [hz]
  · simp [hz]

/-- `mark_dirty`, point by point. -/
lemma markDirty_ok (rect : Rect) {tb : CTree (ℕ × Band)} (hs : Sound s.damageTracker tb [])
    (hw : s.windows.get id = some w) :
    ∃ st tb', s.markDirty id rect = .ok { s with damageTracker := st } ∧ Sound st tb' [] ∧
      ∀ p, st.value p = if rect.Contains p ∧ w.rect.Contains p then mark w.zIndex (s.damageTracker.value p)
        else s.damageTracker.value p := by
  unfold Screen.markDirty
  simp only [hw, unwrap, bind, Except.bind]
  cases hi : rect.intersect w.rect with
  | none => exact ⟨s.damageTracker,tb,rfl,hs,fun p => (if_neg (Rect.intersect_none hi p)).symm⟩
  | some r =>
    obtain ⟨hne,hr⟩ := Rect.intersect_some hi
    obtain ⟨st1,tb1,h1,h2,h3⟩ := hs.update_value hne (mark w.zIndex)
    refine ⟨st1,tb1,?_,h2,fun p => ?_⟩
    · unfold mark at h1
      simp only [h1]
      rfl
    · rw [h3]
      simp only [hr]

/-- Drawing into a window and marking what was drawn. -/
lemma ScreenInv.draw (h : ScreenInv fb s m) (hw : s.windows.get id = some w) (hd : Drawn w.surface rect m m') :
    ∃ s', s.markDirty id rect = .ok s' ∧ ScreenInv fb s' m' := by
  obtain ⟨tb,hs⟩ := h.tracker
  obtain ⟨st1,tb1,h1,h2,h3⟩ := markDirty_ok rect hs hw
  refine ⟨_,h1,⟨tb1,h2⟩,h.stacked,h.separate.congr hd.next,fun p hp => ?_⟩
  obtain ⟨region,hr,htop,hclean⟩ := h.coherent p hp
  simp only [h3, hr, mark_some]
  by_cases hc : (rect.Contains p ∧ w.rect.Contains p) ∧ ¬region.zIndex < w.zIndex
  · -- the window is on top here
    rw [if_pos hc.1, if_neg hc.2]
    refine ⟨_,rfl,Or.inl ⟨id,w,⟨hw,hc.1.2,fun id' w' hw' hc' => ?_⟩,rfl⟩,by simp⟩
    rcases htop with ⟨i,v,ht,hv⟩ | ⟨hu,_⟩
    · exact (not_lt.mp hc.2).trans (hv ▸ ht.lowest id' w' hw' hc')
    · exact absurd hc.1.2 (hu id w hw)
  · have hsame : (if rect.Contains p ∧ w.rect.Contains p then
        some (if region.zIndex < w.zIndex then region else ⟨w.zIndex,true⟩) else some region) = some region := by
      split_ifs with h4 h5
      · rfl
      · exact absurd ⟨h4,h5⟩ hc
      · rfl
    rw [hsame]
    refine ⟨region,rfl,htop,fun hdirty => ?_⟩
    have hfb : fb.pixel m' p = fb.pixel m p := by
      rw [Surface.pixel, hd.others _ (h.separate.image id w hw).2.symm]
      rfl
    obtain ⟨hshow,hwhite⟩ := hclean hdirty
    refine ⟨fun i v ht => ?_,fun hu => hfb.trans (hwhite hu)⟩
    rw [hfb, hshow i v ht]
    by_cases hi : i = id
    · -- a pixel of the window that was not drawn
      subst hi
      obtain rfl := Option.some.inj (hw.symm.trans ht.get)
      refine (hd.outside p ht.contains fun hcp => hc ⟨⟨hcp,ht.contains⟩,?_⟩).symm
      rcases htop with ⟨i',v',ht',hv'⟩ | ⟨hu,_⟩
      · rw [← hv', (h.stacked.topmost_unique ht' ht).2]
        exact lt_irrefl _
      · exact absurd ht.contains (hu i w ht.get)
    · rw [Surface.pixel, Surface.pixel, hd.others _ fun he => hi (h.separate.distinct _ _ _ _ ht.get hw he)]

section NewWindow
variable {windows windows' : IdSparseVec Window} {visible : List ℕ} {z : ℕ} {new : Window}

/-- A window whose index makes room for a new one. -/
def Window.shift (z : ℕ) (w : Window) : Window := { w with zIndex := Screen.shift z w.zIndex }

lemma shift_mono {a b : ℕ} (h : a ≤ b) : Screen.shift z a ≤ Screen.shift z b := by
  simp only [Screen.shift]
  split_ifs <;> omega

/-- The windows after one was inserted at the index `z`. -/
structure Inserted (windows windows' : IdSparseVec Window) (z id : ℕ) (new : Window) : Prop where
  fresh : windows.get id = none
  get : ∀ j, windows'.get j = if j = id then some new else (windows.get j).map (Window.shift z)
  zIndex : new.zIndex = z

namespace Inserted

lemma get_new (h : Inserted windows windows' z id new) : windows'.get id = some new := by
  rw [h.get, if_pos rfl]

lemma get_old (h : Inserted windows windows' z id new) {j : ℕ} (hw : windows.get j = some w) :
    windows'.get j = some (w.shift z) := by
  rw [h.get, if_neg, hw]
  · rfl
  · rintro rfl
    rw [h.fresh] at hw
    simp at hw

/-- A window is the new one or one of the old ones. -/
lemma cases (h : Inserted windows windows' z id new) {j : ℕ} {w' : Window} (hw : windows'.get j = some w') :
    j = id ∧ w' = new ∨ ∃ w, windows.get j = some w ∧ w' = w.shift z := by
  rw [h.get] at hw
  split_ifs at hw with hj
  · exact Or.inl ⟨hj,(Option.some.inj hw).symm⟩
  · obtain ⟨w,hold,rfl⟩ := Option.map_eq_some_iff.mp hw
    exact Or.inr ⟨w,hold,rfl⟩

/-- An old window stays on top where the new one is not above it. -/
lemma topmost_old (h : Inserted windows windows' z id new) {j : ℕ} (ht : Topmost windows p j w)
    (hnew : new.rect.Contains p → Screen.shift z w.zIndex ≤ z) : Topmost windows' p j (w.shift z) := by
  refine ⟨h.get_old ht.get,ht.contains,fun id' w' hw' hc => ?_⟩
  rcases h.cases hw' with ⟨_,rfl⟩ | ⟨v,hv,rfl⟩
  · rw [h.zIndex]
    exact hnew hc
  · exact shift_mono (ht.lowest id' v hv hc)

/-- The new window is on top where no old one is above it. -/
lemma topmost_new (h : Inserted windows windows' z id new) (hc : new.rect.Contains p)
    (hold : ∀ j w, windows.get j = some w → w.rect.Contains p → z ≤ Screen.shift z w.zIndex) :
    Topmost windows' p id new := by
  refine ⟨h.get_new,hc,fun id' w' hw' hc' => ?_⟩
  rcases h.cases hw' with ⟨_,rfl⟩ | ⟨v,hv,rfl⟩
  · exact le_rfl
  · rw [h.zIndex]
    exact hold id' v hv hc'

lemma uncovered (h : Inserted windows windows' z id new) (hu : Uncovered windows p) (hc : ¬new.rect.Contains p) :
    Uncovered windows' p := by
  intro j w' hw'
  rcases h.cases hw' with ⟨_,rfl⟩ | ⟨v,hv,rfl⟩
  · exact hc
  · exact hu j v hv

lemma stacked (h : Inserted windows windows' z id new) (hst : Stacked windows visible) (hv : windows'.Valid)
    (hz : z ≤ visible.length) (hfew : visible.length < VEC_MAX) : Stacked windows' (visible.insertIdx z id) := by
  have hmax := VEC_MAX_lt
  refine ⟨hv,fun k j hk => ?_,fun j w' hw' => ?_,?_⟩
  · rw [List.getElem?_insertIdx] at hk
    split_ifs at hk with h1 h2 h3
    · obtain ⟨w,hw,hwz⟩ := hst.window k j hk
      refine ⟨_,h.get_old hw,?_⟩
      simp only [Window.shift, Screen.shift, hwz]
      rw [if_neg (by omega)]
    · obtain rfl := Option.some.inj hk
      exact ⟨new,h.get_new,h.zIndex.trans h2.symm⟩
    · obtain ⟨w,hw,hwz⟩ := hst.window (k-1) j hk
      refine ⟨_,h.get_old hw,?_⟩
      have := hst.zIndex_lt hw
      simp only [Window.shift, Screen.shift, hwz]
      rw [if_pos (by omega)]
      omega
  · rcases h.cases hw' with ⟨rfl,rfl⟩ | ⟨w,hw,rfl⟩
    · rw [List.getElem?_insertIdx, h.zIndex, if_neg (lt_irrefl z), if_pos rfl, if_pos hz]
    · have hlt := hst.zIndex_lt hw
      by_cases hc : w.zIndex < z
      · have hshift : (w.shift z).zIndex = w.zIndex := if_neg (by omega)
        rw [hshift, List.getElem?_insertIdx, if_pos hc]
        exact hst.place j w hw
      · have hshift : (w.shift z).zIndex = w.zIndex + 1 := if_pos (by omega)
        rw [hshift, List.getElem?_insertIdx, if_neg (by omega), if_neg (by omega), Nat.add_sub_cancel]
        exact hst.place j w hw
  · rw [List.length_insertIdx, if_pos hz]
    exact hfew

lemma separate (h : Inserted windows windows' z id new) (hs : Separate fb windows m) (hnew : new.surface.image = m.next)
    (hne : new.rect.isEmpty = false) (hn : m'.next = m.next + 1) : Separate fb windows' m' := by
  have hf := hs.frame
  refine ⟨by omega,fun j w' hw' => ?_,fun j w' hw' => ?_,fun j w' j' v' hw' hv' he => ?_⟩
  · rcases h.cases hw' with ⟨_,rfl⟩ | ⟨v,hv,rfl⟩
    · omega
    · obtain ⟨h1,h2⟩ := hs.image j v hv
      exact ⟨by rw [hn]; exact h1.trans (Nat.lt_succ_self _),h2⟩
  · rcases h.cases hw' with ⟨_,rfl⟩ | ⟨v,hv,rfl⟩
    · exact hne
    · exact hs.proper j v hv
  · rcases h.cases hw' with ⟨rfl,rfl⟩ | ⟨w,hw,rfl⟩
    · rcases h.cases hv' with ⟨rfl,rfl⟩ | ⟨v,hv,rfl⟩
      · rfl
      · exact absurd (he.symm.trans hnew) (hs.image j' v hv).1.ne
    · rcases h.cases hv' with ⟨rfl,rfl⟩ | ⟨v,hv,rfl⟩
      · exact absurd (he.trans hnew) (hs.image j w hw).1.ne
      · exact hs.distinct j w j' v hw hv he

end Inserted
end NewWindow

/-- A window with another index. -/
def Window.renumber (g : ℕ → ℕ) (w : Window) : Window := { w with zIndex := g w.zIndex }

/-- `z_index_update` -/
lemma zIndexUpdate_ok {tb : CTree (ℕ × Band)} (hs : Sound s.damageTracker tb []) (g : ℕ → ℕ) :
    ∃ st, s.zIndexUpdate g = .ok ⟨s.windows.iterMut (Window.renumber g),s.visible,st⟩ ∧ Sound st tb [] ∧
      ∀ p, st.value p = (s.damageTracker.value p).map fun region => { region with zIndex := g region.zIndex } := by
  obtain ⟨st,h1,h2,h3⟩ := hs.updateValues fun region => { region with zIndex := g region.zIndex }
  refine ⟨st,?_,h2,h3⟩
  simp only [Screen.zIndexUpdate, h1, bind, Except.bind]
  rfl

/-- `new_window` up to the call of `mark_dirty`. -/
lemma Stacked.insert {windows : IdSparseVec Window} {visible : List ℕ} (h : Stacked windows visible) (new : Window) :
    ∃ id windows', (windows.iterMut (Window.shift new.zIndex)).insert new = .ok (id,windows') ∧ windows'.Valid ∧
      Inserted windows windows' new.zIndex id new := by
  obtain ⟨id,windows',h1,h2,h3,h4⟩ := (h.valid.iterMut (f := Window.shift new.zIndex)).insert new
  refine ⟨id,windows',h1,h2,?_,fun j => ?_,rfl⟩
  · rw [IdSparseVec.get_iterMut, Option.map_eq_none_iff] at h3
    exact h3
  · rw [h4, IdSparseVec.get_iterMut]

/-- The tracker after a window was inserted and marked. -/
lemma Coherent.insert (h : Coherent fb s m) (hsep : Separate fb s.windows m) {windows' : IdSparseVec Window} {z : ℕ}
    {new : Window} (hi : Inserted s.windows windows' z id new) {visible' : List ℕ} (hst : Stacked windows' visible')
    (hz : z < USIZE_MAX) (hm : ∀ i, i < m.next → m'.pixels i = m.pixels i) {st : BandedRegion WindowRegion}
    (hv : ∀ p, st.value p = if new.rect.Contains p ∧ new.rect.Contains p then mark new.zIndex ((s.damageTracker.value p).map
      fun region => { region with zIndex := Screen.shift z region.zIndex }) else (s.damageTracker.value p).map
      fun region => { region with zIndex := Screen.shift z region.zIndex }) :
    Coherent fb ⟨windows',visible',st⟩ m' := by
  intro p hp
  obtain ⟨region,hr,htop,hclean⟩ := h p hp
  simp only [hv, hr, Option.map_some, mark_some, and_self, hi.zIndex]
  have hfb : fb.pixel m' p = fb.pixel m p := by
    rw [Surface.pixel, hm _ hsep.frame]
    rfl
  by_cases hc : new.rect.Contains p ∧ z ≤ Screen.shift z region.zIndex
  · rw [if_pos hc.1, if_neg (not_lt.mpr hc.2)]
    refine ⟨_,rfl,Or.inl ⟨id,new,hi.topmost_new hc.1 fun j w hw hcw => ?_,hi.zIndex⟩,by simp⟩
    rcases htop with ⟨i,v,ht,hv⟩ | ⟨hu,_⟩
    · exact hc.2.trans (shift_mono (hv ▸ ht.lowest j w hw hcw))
    · exact absurd hcw (hu j w hw)
  · have hsame : (if new.rect.Contains p then
        some (if Screen.shift z region.zIndex < z then { region with zIndex := Screen.shift z region.zIndex }
          else ⟨z,true⟩) else some { region with zIndex := Screen.shift z region.zIndex }) =
        some { region with zIndex := Screen.shift z region.zIndex } := by
      split_ifs with h4 h5
      · rfl
      · exact absurd ⟨h4,not_lt.mp h5⟩ hc
      · rfl
    rw [hsame]
    rcases htop with ⟨i,w,ht,hw⟩ | ⟨hu,hw⟩
    · have ht' := hi.topmost_old ht fun hcp => by
        rw [hw]
        exact (not_le.mp fun hle => hc ⟨hcp,hle⟩).le
      refine ⟨_,rfl,Or.inl ⟨i,_,ht',by rw [← hw]; rfl⟩,fun hd => ?_⟩
      have hpixel : w.surface.pixel m' p = w.surface.pixel m p := by
        rw [Surface.pixel, hm _ (hsep.image i w ht.get).1]
        rfl
      rw [hfb, (hclean hd).1 i w ht, ← hpixel]
      have hshow : Shows windows' m' p ((w.shift z).surface.pixel m' p) := hst.shows ht'
      exact hshow
    · have hmax : Screen.shift z region.zIndex = USIZE_MAX := by
        rw [hw]
        exact if_neg fun h => h.2 rfl
      have hu' : Uncovered windows' p := hi.uncovered hu fun hcp => hc ⟨hcp,by rw [hmax]; exact hz.le⟩
      refine ⟨_,rfl,Or.inr ⟨hu',hmax⟩,fun hd => ?_⟩
      rw [hfb, (hclean hd).2 hu]
      exact hu'.shows

/-- A new surface with the rectangle can be made: its sides are `i32` values, and `kernel_alloc` has memory for its image. -/
structure HasRoom (m : Images) (rect : Rect) : Prop where
  width : rect.width < 2^31
  height : rect.height < 2^31
  size : 4*(rect.width.toNat*rect.height.toNat) < 2^63
  memory : m.refuses m.next (4*(rect.width.toNat*rect.height.toNat)) = none

instance (m : Images) (rect : Rect) : Decidable (HasRoom m rect) :=
  decidable_of_iff (_ ∧ _ ∧ _ ∧ _) ⟨fun ⟨h1,h2,h3,h4⟩ => ⟨h1,h2,h3,h4⟩,fun ⟨h1,h2,h3,h4⟩ => ⟨h1,h2,h3,h4⟩⟩

lemma asI32_ok {x y : ℤ} (h : asI32 x = .ok y) : y = x ∧ x < 2^31 := by
  unfold asI32 at h
  split_ifs at h with hx
  exact ⟨(Except.ok.inj h).symm,hx.2⟩

lemma asUsize_of {x : ℤ} (h0 : 0 ≤ x) (h : x < 2^31) : asUsize x = x.toNat := by
  unfold asUsize
  omega

/-- `Surface::new` takes a new image. -/
lemma surfaceNew_ok (hne : rect.isEmpty = false) (hroom : HasRoom m rect) :
    ∃ surface m', Surface.new rect .WHITE m = .ok (surface,m') ∧
      surface.rect = rect ∧ surface.image = m.next ∧ m'.next = m.next + 1 ∧
      (∀ i, i < m.next → m'.pixels i = m.pixels i) ∧ surface.Fits := by
  obtain ⟨hx,hy⟩ := rect.proper hne
  obtain ⟨hw,hh,hsize,hmem⟩ := hroom
  have hw0 : 0 < rect.width := by simp only [Rect.width]; omega
  have hh0 : 0 < rect.height := by simp only [Rect.height]; omega
  set surface : Surface := ⟨m.next,rect,asUsize rect.width,.WHITE⟩ with hsurface
  have hfits : surface.Fits := by
    simp only [hsurface, Surface.Fits, asUsize_of hw0.le hw]
    omega
  have hpainted : Painted surface rect (fun _ => .WHITE) { m with next := m.next + 1 }
      (surface.fillUnsafe rect .WHITE { m with next := m.next + 1 }) :=
    fillUnsafe_ok hfits (fun p hp => hp) hne .WHITE _
  refine ⟨surface,_,?_,rfl,rfl,(SameFrees.fillUnsafe surface rect .WHITE _).1,fun i hi => hpainted.others i hi.ne,hfits⟩
  have hasW : asI32 rect.width = .ok rect.width := if_pos ⟨by omega,hw⟩
  have hasH : asI32 rect.height = .ok rect.height := if_pos ⟨by omega,hh⟩
  have hmul : checkedMul rect.width.toNat rect.height.toNat = .ok (rect.width.toNat*rect.height.toNat) := if_pos (by omega)
  have hrepeat : Surface.repeatColor (rect.width.toNat*rect.height.toNat) = .ok (4*(rect.width.toNat*rect.height.toNat)) :=
    if_pos hsize
  simp only [Surface.new, hasW, hasH, asUsize_of hw0.le hw, asUsize_of hh0.le hh, hmul, hrepeat, Surface.allocImage, hmem, bind,
    Except.bind, hsurface]
  rfl

/-- It panics where it cannot be made. -/
lemma surfaceNew_room (hne : rect.isEmpty = false) {color : Color} {r : Surface × Images}
    (h : Surface.new rect color m = .ok r) : HasRoom m rect := by
  obtain ⟨hx,hy⟩ := rect.proper hne
  have hw0 : 0 ≤ rect.width := by simp only [Rect.width]; omega
  have hh0 : 0 ≤ rect.height := by simp only [Rect.height]; omega
  obtain ⟨_,hasW,h⟩ := bind_ok h
  obtain ⟨rfl,hw⟩ := asI32_ok hasW
  obtain ⟨_,hasH,h⟩ := bind_ok h
  obtain ⟨rfl,hh⟩ := asI32_ok hasH
  rw [asUsize_of hw0 hw, asUsize_of hh0 hh] at h
  obtain ⟨n,hmul,h⟩ := bind_ok h
  obtain ⟨size,hsize,h⟩ := bind_ok h
  obtain ⟨_,hmem,_⟩ := bind_ok h
  unfold checkedMul at hmul
  split_ifs at hmul
  obtain rfl := Except.ok.inj hmul
  unfold Surface.repeatColor at hsize
  split_ifs at hsize with hlt
  obtain rfl := Except.ok.inj hsize
  refine ⟨hw,hh,hlt,?_⟩
  unfold Surface.allocImage at hmem
  split at hmem
  · assumption
  all_goals cases hmem

/-- `new_window`, point by point. -/
lemma newWindow_ok {tb : CTree (ℕ × Band)} (hs : Sound s.damageTracker tb []) (hst : Stacked s.windows s.visible)
    (hrect : rect.isEmpty = false) (zIndex : ℕ) (hfew : s.visible.length < VEC_MAX) (hroom : HasRoom m rect) {z : ℕ}
    (hzdef : min zIndex s.visible.length = z) :
    ∃ id windows' w st tb' m', s.newWindow rect zIndex m = .ok (id,⟨windows',s.visible.insertIdx z id,st⟩,m') ∧
      Sound st tb' [] ∧ Stacked windows' (s.visible.insertIdx z id) ∧ Inserted s.windows windows' z id w ∧ w.rect = rect ∧
      (∀ p, st.value p = if rect.Contains p then mark z ((s.damageTracker.value p).map
        fun region => { region with zIndex := Screen.shift z region.zIndex }) else (s.damageTracker.value p).map
        fun region => { region with zIndex := Screen.shift z region.zIndex }) ∧
      w.surface.image = m.next ∧ m'.next = m.next + 1 ∧ (∀ i, i < m.next → m'.pixels i = m.pixels i) ∧ w.surface.Fits := by
  have hz : z ≤ s.visible.length := hzdef ▸ min_le_right _ _
  obtain ⟨surface,m1,hnew,hsurf,himage,hnext,hold,hfits⟩ := surfaceNew_ok hrect hroom
  obtain ⟨st,h1,h2,h3⟩ := zIndexUpdate_ok hs (Screen.shift z)
  obtain ⟨id,windows',h4,h5,hi⟩ := hst.insert ⟨surface,z⟩
  have h4 : (s.windows.iterMut (Window.renumber (Screen.shift z))).insert ⟨surface,z⟩ = .ok (id,windows') := h4
  have hvec : vecInsert s.visible z id = .ok (s.visible.insertIdx z id) := by
    rw [vecInsert, if_neg (not_lt.mpr hz), if_neg (not_le.mpr hfew)]
  obtain ⟨st',tb',h6,h7,h8⟩ := @markDirty_ok ⟨windows',s.visible.insertIdx z id,st⟩ id ⟨surface,z⟩ rect tb h2 hi.get_new
  refine ⟨id,windows',⟨surface,z⟩,st',tb',m1,?_,h7,hi.stacked hst h5 hz hfew,hi,hsurf,fun p => ?_,himage,hnext,hold,hfits⟩
  · simp only [Screen.newWindow, hzdef, hnew, h1, h4, hvec, h6, bind, Except.bind]
    rfl
  · have hcontains : (⟨surface,z⟩ : Window).rect.Contains p ↔ rect.Contains p := by
      rw [← hsurf]
      exact Iff.rfl
    rw [h8]
    simp only [hcontains, and_self, h3]

/-- `new_window` fails where there is no room for the surface or in the vector of windows. -/
lemma newWindow_room (hrect : rect.isEmpty = false) (zIndex : ℕ) {r : ℕ × Screen × Images}
    (hrun : s.newWindow rect zIndex m = .ok r) : s.visible.length < VEC_MAX ∧ HasRoom m rect := by
  obtain ⟨⟨surface,m1⟩,hnew,hrun⟩ := bind_ok hrun
  obtain ⟨s1,hupdate,hrun⟩ := bind_ok hrun
  obtain ⟨⟨id,windows⟩,_,hrun⟩ := bind_ok hrun
  obtain ⟨visible,hvec,_⟩ := bind_ok hrun
  obtain ⟨tracker,_,hupdate⟩ := bind_ok hupdate
  refine ⟨?_,surfaceNew_room hrect hnew⟩
  obtain rfl := Except.ok.inj hupdate
  unfold vecInsert at hvec
  split_ifs at hvec with _ hfull
  exact not_le.mp hfull

/-- `new_window`, which fails only when there is no room. -/
lemma ScreenInv.newWindow (h : ScreenInv fb s m) (hrect : rect.isEmpty = false) (zIndex : ℕ) (hfew : s.visible.length < VEC_MAX)
    (hroom : HasRoom m rect) : ∃ id s' m', s.newWindow rect zIndex m = .ok (id,s',m') ∧ ScreenInv fb s' m' ∧
      s'.visible = s.visible.insertIdx (min zIndex s.visible.length) id ∧
      ∃ w, Inserted s.windows s'.windows (min zIndex s.visible.length) id w ∧ w.rect = rect ∧ w.surface.Fits := by
  obtain ⟨tb,hs⟩ := h.tracker
  set z := min zIndex s.visible.length with hzdef
  have hz : z ≤ s.visible.length := min_le_right _ _
  obtain ⟨id,windows',w,st,tb',m',h1,h2,h3,h4,hw,h5,himage,hnext,hold,hfits⟩ :=
    newWindow_ok hs h.stacked hrect zIndex hfew hroom hzdef.symm
  refine ⟨id,_,m',h1,⟨⟨tb',h2⟩,h3,h4.separate h.separate himage (by rw [hw]; exact hrect) hnext,?_⟩,rfl,w,h4,hw,hfits⟩
  refine h.coherent.insert h.separate h4 h3 ?_ hold fun p => ?_
  · exact (hz.trans hfew.le).trans_lt VEC_MAX_lt
  · rw [h5, hw, h4.zIndex]
    simp only [and_self]

/-- `Screen::new` -/
lemma screenInv_new (hfb : fb.image < m.next) : ∃ s, Screen.new fb.rect = .ok s ∧ s.visible = [] ∧ ScreenInv fb s m := by
  obtain ⟨st,tb,h1,h2,h3⟩ := newRegion_update fb.rect fun _ => some (⟨USIZE_MAX,true⟩ : WindowRegion)
  refine ⟨⟨.new,[],st⟩,?_,rfl,⟨tb,h2⟩,?_,?_,fun p hp => ?_⟩
  · simp only [Screen.new, h1, bind, Except.bind]
    rfl
  · exact ⟨IdSparseVec.valid_new,by simp,by simp [IdSparseVec.get_new],Nat.zero_le _⟩
  · exact ⟨hfb,by simp [IdSparseVec.get_new],by simp [IdSparseVec.get_new],by simp [IdSparseVec.get_new]⟩
  · refine ⟨⟨USIZE_MAX,true⟩,?_,Or.inr ⟨?_,rfl⟩,by simp⟩
    · rw [h3, if_pos hp]
    · intro id w hw
      rw [IdSparseVec.get_new] at hw
      simp at hw

/-- The runs of a screen that is shown in the frame buffer `fb`. Drawing is any change of pixels in a part
of a window, which is then marked. -/
inductive ScreenRun (fb : Surface) : Screen → Images → Prop
  | new {s : Screen} {m : Images} (hfb : fb.image < m.next) (hrun : Screen.new fb.rect = .ok s) : ScreenRun fb s m
  | newWindow {s s' : Screen} {m m' : Images} {rect : Rect} {id : ℕ} (zIndex : ℕ) (h : ScreenRun fb s m)
      (hrect : rect.isEmpty = false) (hrun : s.newWindow rect zIndex m = .ok (id,s',m')) : ScreenRun fb s' m'
  | draw {s s' : Screen} {m m' : Images} {rect : Rect} {id : ℕ} {w : Window} (h : ScreenRun fb s m)
      (hw : s.windows.get id = some w) (hdraw : Drawn w.surface rect m m') (hrun : s.markDirty id rect = .ok s') :
      ScreenRun fb s' m'
  | markDirtyBeyond {s s' : Screen} {m : Images} {rect : Rect} (zIndex : ℕ) (h : ScreenRun fb s m)
      (hrect : rect.isEmpty = false) (hrun : s.markDirtyBeyond zIndex rect = .ok s') : ScreenRun fb s' m
  | update {s s' : Screen} {m m' : Images} (h : ScreenRun fb s m) (hrun : s.update fb m = .ok (s',m')) :
      ScreenRun fb s' m'

lemma ScreenRun.inv (hfb : fb.Fits) (h : ScreenRun fb s m) : ScreenInv fb s m := by
  induction h with
  | new hfb hrun =>
    obtain ⟨s1,h1,_,h2⟩ := screenInv_new hfb
    obtain rfl := Except.ok.inj (h1.symm.trans hrun)
    exact h2
  | newWindow zIndex _ hrect hrun ih =>
    obtain ⟨hfew,hroom⟩ := newWindow_room hrect zIndex hrun
    obtain ⟨id,s1,m1,h1,h2,_⟩ := ih.newWindow hrect zIndex hfew hroom
    cases Except.ok.inj (h1.symm.trans hrun)
    exact h2
  | draw _ hw hdraw hrun ih =>
    obtain ⟨s1,h1,h2⟩ := ih.draw hw hdraw
    obtain rfl := Except.ok.inj (h1.symm.trans hrun)
    exact h2
  | markDirtyBeyond zIndex _ hrect hrun ih =>
    obtain ⟨s1,h1,h2⟩ := ih.markDirtyBeyond zIndex hrect
    obtain rfl := Except.ok.inj (h1.symm.trans hrun)
    exact h2
  | update _ hrun ih =>
    obtain ⟨s1,m1,h1,h2,_⟩ := ih.update hfb
    cases Except.ok.inj (h1.symm.trans hrun)
    exact h2

/-- In every run the damage tracker is coherent, and an update returns and leaves in the frame buffer the
windows of the screen, the one with the lowest index on top, on white. The other operations return, too,
`new_window` exactly if there is room for the window. -/
theorem update_shows_windows (hfb : fb.Fits) (h : ScreenRun fb s m) : Coherent fb s m ∧
    (∃ s' m', s.update fb m = .ok (s',m') ∧ ∀ p, fb.rect.Contains p → Shows s'.windows m' p (fb.pixel m' p)) ∧
    (∀ rect zIndex, rect.isEmpty = false → ((∃ id s' m', s.newWindow rect zIndex m = .ok (id,s',m')) ↔
      s.visible.length < VEC_MAX ∧ HasRoom m rect)) ∧
    (∀ id w rect, s.windows.get id = some w → ∃ s', s.markDirty id rect = .ok s') ∧
    ∀ zIndex rect, rect.isEmpty = false → ∃ s', s.markDirtyBeyond zIndex rect = .ok s' := by
  have hinv := h.inv hfb
  refine ⟨hinv.coherent,?_,fun rect zIndex hrect => ⟨?_,?_⟩,fun id w rect hw => ?_,fun zIndex rect hrect => ?_⟩
  · obtain ⟨s',m',h1,_,h2⟩ := hinv.update hfb
    exact ⟨s',m',h1,h2⟩
  · intro ⟨_,_,_,hrun⟩
    exact newWindow_room hrect zIndex hrun
  · intro ⟨hfew,hroom⟩
    obtain ⟨id,s',m',h1,_⟩ := hinv.newWindow hrect zIndex hfew hroom
    exact ⟨id,s',m',h1⟩
  · obtain ⟨s',h1,_⟩ := hinv.draw hw ⟨rfl,fun _ _ => rfl,fun _ _ _ => rfl⟩
    exact ⟨s',h1⟩
  · obtain ⟨s',h1,_⟩ := hinv.markDirtyBeyond zIndex hrect
    exact ⟨s',h1⟩

/-- A frame buffer with padded rows. -/
def smallFrame : Surface := ⟨0,.new 0 0 4 4,5,.BLACK⟩

lemma smallFrame_fits : smallFrame.Fits := by
  unfold Surface.Fits
  decide

/-- Memory in which all images are black, with the frame buffer as the first of them. -/
def smallMemory : Images := ⟨fun _ _ => .BLACK,1,[],fun _ _ => none,fun _ _ => .BLACK⟩

/-- A window on a small screen, into which a black square is drawn. -/
theorem update_shows_windows_small : ∃ id s m w m', ScreenRun smallFrame s m' ∧ s.visible = [id] ∧
    s.windows.get id = some w ∧ m' = w.surface.fillRect (.new 2 2 3 3) .BLACK m ∧ Coherent smallFrame s m' ∧
    ∃ s' m'', s.update smallFrame m' = .ok (s',m'') ∧
      ∀ p, smallFrame.rect.Contains p → Shows s'.windows m'' p (smallFrame.pixel m'' p) := by
  obtain ⟨s0,h1,h2,h3⟩ := @screenInv_new smallFrame smallMemory (by decide)
  have hrun := ScreenRun.new (by decide : smallFrame.image < smallMemory.next) h1
  have hne : (Rect.new 1 1 6 3).isEmpty = false := by decide
  obtain ⟨id,s1,m1,h4,h5,h6,w,h7,_,hfits⟩ := h3.newWindow hne 7 (by rw [h2]; decide) (by decide)
  have hrun1 := hrun.newWindow 7 hne h4
  have hdrawn := drawn_fillRect hfits (.new 2 2 3 3) .BLACK m1
  obtain ⟨s2,h8,_⟩ := h5.draw h7.get_new hdrawn
  have hrun2 := hrun1.draw h7.get_new hdrawn h8
  obtain ⟨tb,hs⟩ := h5.tracker
  obtain ⟨st,_,h9,_⟩ := markDirty_ok (.new 2 2 3 3) hs h7.get_new
  obtain rfl := Except.ok.inj (h9.symm.trans h8)
  obtain ⟨h10,h11,_⟩ := update_shows_windows smallFrame_fits hrun2
  exact ⟨id,_,m1,w,_,hrun2,by rw [h6, h2]; rfl,h7.get_new,rfl,h10,h11⟩

end Lilith.Draw
