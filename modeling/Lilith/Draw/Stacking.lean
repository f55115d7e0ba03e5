import Lilith.Draw.Restack

/-! The order of the windows is kept in three places: in every window, in the vector `visible` and in the regions of the
damage tracker. They agree in every run, so no operation looks for a window that is not there. -/
namespace Lilith.Draw
open Theory PtrGraph CTree Rbtree

variable {s s' : Screen} {m m' : Images} {p : Point} {id z : ℕ} {w : Window} {rect : Rect} {ids : List ℕ}

section Tracker
variable {V : Type} {st : BandedRegion V} {tb : CTree (ℕ × Band)}

/-- The values of all regions of all bands. -/
def BandedRegion.regionValues (st : BandedRegion V) : List V :=
  (values st.bands.toTree).flatMap fun band => (regs st.mem band.regions).map Region.value

/-- Every region has a point. -/
lemma Sound.exists_point (hs : Sound st tb []) {v : V} (hv : v ∈ st.regionValues) : ∃ p, st.value p = some v := by
  rw [BandedRegion.regionValues, hs.toTree_eq, List.mem_flatMap] at hv
  obtain ⟨band,hband,hv⟩ := hv
  obtain ⟨region,hregion,rfl⟩ := List.mem_map.mp hv
  have hwf : regionView.WF (regs st.mem band.regions) :=
    (hs.owned.trees band.regions (List.mem_map_of_mem hband)).wf
  have hline : denote bandView tb band.yStart = some band.regions :=
    hs.bands.wf.lookup_eq_some.mpr ⟨band,hband,⟨le_rfl,hs.bands.wf.proper band hband⟩,rfl⟩
  refine ⟨⟨region.xStart,band.yStart⟩,?_⟩
  rw [hs.value_eq, rows, hline]
  exact hwf.lookup_eq_some.mpr ⟨region,hregion,⟨le_rfl,hwf.proper region hregion⟩,rfl⟩

end Tracker

/-- An index in the damage tracker: no window, or a place among `n` windows. -/
def InStack (n z : ℕ) : Prop := z = USIZE_MAX ∨ z < n

/-- The three orders agree. -/
structure Layered (s : Screen) : Prop where
  tracker : ∃ tb, Sound s.damageTracker tb []
  stacked : Stacked s.windows s.visible
  proper : ∀ id w, s.windows.get id = some w → w.rect.isEmpty = false
  inStack : ∀ p region, s.damageTracker.value p = some region → InStack s.visible.length region.zIndex

lemma Stacked.nodup {windows : IdSparseVec Window} {visible : List ℕ} (h : Stacked windows visible) : visible.Nodup := by
  rw [List.nodup_iff_injective_getElem]
  intro i j hij
  obtain ⟨w,hw,hi⟩ := h.window i _ (List.getElem?_eq_getElem i.2)
  obtain ⟨w',hw',hj⟩ := h.window j _ (List.getElem?_eq_getElem j.2)
  simp only at hij
  rw [hij] at hw
  obtain rfl := Option.some.inj (hw.symm.trans hw')
  exact Fin.ext (hi.symm.trans hj)

lemma Stacked.mem_visible {windows : IdSparseVec Window} {visible : List ℕ} (h : Stacked windows visible) :
    id ∈ visible ↔ ∃ w, windows.get id = some w := by
  constructor
  · intro hid
    obtain ⟨k,hk⟩ := List.mem_iff_getElem?.mp hid
    obtain ⟨w,hw,_⟩ := h.window k id hk
    exact ⟨w,hw⟩
  · intro ⟨w,hw⟩
    exact List.mem_of_getElem? (h.place id w hw)

section Orders
variable {l : List ℕ} {k a : ℕ}

/-- The other entries keep their order when one is inserted. -/
lemma erase_insertIdx (ha : a ∉ l) (hk : k ≤ l.length) : (l.insertIdx k a).erase a = l := by
  induction l generalizing k with
  | nil =>
    obtain rfl : k = 0 := Nat.le_zero.mp hk
    simp
  | cons b l ih =>
    rw [List.mem_cons, not_or] at ha
    cases k with
    | zero => simp
    | succ k =>
      rw [List.insertIdx_succ_cons, List.erase_cons_tail (by simpa using Ne.symm ha.1), ih ha.2 (by simpa using hk)]

lemma eraseIdx_eq_erase (hl : l.Nodup) (hk : l[k]? = some a) : l.eraseIdx k = l.erase a := by
  obtain ⟨hlt,rfl⟩ := List.getElem?_eq_some_iff.mp hk
  exact (List.erase_eq_eraseIdx_of_idxOf (hl.idxOf_getElem k hlt)).symm

/-- One entry moves and the others keep their order. -/
lemma move_entry (hl : l.Nodup) (hk : l[k]? = some a) (hz : z < l.length) :
    ((l.eraseIdx k).insertIdx z a)[z]? = some a ∧ ((l.eraseIdx k).insertIdx z a).erase a = l.erase a ∧
      ((l.eraseIdx k).insertIdx z a).Perm l := by
  have hmem : a ∈ l := List.mem_of_getElem? hk
  have hlen : z ≤ (l.erase a).length := by
    rw [List.length_erase_of_mem hmem]
    omega
  rw [eraseIdx_eq_erase hl hk]
  refine ⟨?_,erase_insertIdx hl.not_mem_erase hlen,?_⟩
  · rw [List.getElem?_insertIdx, if_neg (lt_irrefl z), if_pos rfl, if_pos hlen]
  · exact (List.perm_insertIdx a (l.erase a) hlen).trans (List.perm_cons_erase hmem).symm

end Orders

namespace Layered

/-- A region that was given to a window. -/
lemma inStack_window (h : Layered s) (hw : s.windows.get id = some w) : InStack s.visible.length w.zIndex :=
  Or.inr (h.stacked.zIndex_lt hw)

/-- `mark_dirty` on one region. -/
lemma inStack_mark {n : ℕ} {region : Option WindowRegion} (hz : InStack n z) (hr : ∀ r, region = some r → InStack n r.zIndex)
    {r : WindowRegion} (h : mark z region = some r) : InStack n r.zIndex := by
  unfold mark at h
  split_ifs at h
  · exact hr r h
  · obtain rfl := Option.some.inj h
    exact hz

/-- Another tracker for the same windows. -/
lemma withTracker (h : Layered s) {st : BandedRegion WindowRegion} {tb : CTree (ℕ × Band)} (hs : Sound st tb [])
    (hp : ∀ p region, st.value p = some region → InStack s.visible.length region.zIndex) :
    Layered { s with damageTracker := st } :=
  ⟨⟨tb,hs⟩,h.stacked,h.proper,hp⟩

lemma new (rect : Rect) : ∃ s, Screen.new rect = .ok s ∧ s.visible = [] ∧ Layered s := by
  obtain ⟨st,tb,h1,h2,h3⟩ := newRegion_update rect fun _ => some (⟨USIZE_MAX,true⟩ : WindowRegion)
  refine ⟨⟨.new,[],st⟩,?_,rfl,⟨tb,h2⟩,⟨IdSparseVec.valid_new,by simp,by simp [IdSparseVec.get_new],Nat.zero_le _⟩,
    by simp [IdSparseVec.get_new],fun p region hr => ?_⟩
  · simp only [Screen.new, h1, bind, Except.bind]
    rfl
  · rw [h3] at hr
    split_ifs at hr
    obtain rfl := Option.some.inj hr
    exact Or.inl rfl

lemma markDirtyBeyond (h : Layered s) (zIndex : ℕ) (hrect : rect.isEmpty = false) :
    ∃ s', s.markDirtyBeyond zIndex rect = .ok s' ∧ Layered s' ∧ s'.visible = s.visible := by
  obtain ⟨tb,hs⟩ := h.tracker
  obtain ⟨st,tb',h1,h2,h3⟩ := hs.update_value hrect fun region : Option WindowRegion =>
    region.map fun r => ⟨r.zIndex,r.dirty || decide (r.zIndex ≥ zIndex)⟩
  refine ⟨{ s with damageTracker := st },?_,h.withTracker h2 fun p region hr => ?_,rfl⟩
  · simp only [Screen.markDirtyBeyond, h1, bind, Except.bind]
    rfl
  · rw [h3] at hr
    split_ifs at hr
    · obtain ⟨r,hr',rfl⟩ := Option.map_eq_some_iff.mp hr
      exact h.inStack p r hr'
    · exact h.inStack p region hr

lemma markDirty (h : Layered s) (hw : s.windows.get id = some w) (rect : Rect) :
    ∃ s', s.markDirty id rect = .ok s' ∧ Layered s' ∧ s'.visible = s.visible := by
  obtain ⟨tb,hs⟩ := h.tracker
  obtain ⟨st,tb',h1,h2,h3⟩ := markDirty_ok rect hs hw
  refine ⟨_,h1,h.withTracker h2 fun p region hr => ?_,rfl⟩
  rw [h3] at hr
  split_ifs at hr
  · exact inStack_mark (h.inStack_window hw) (h.inStack p) hr
  · exact h.inStack p region hr

/-- `new_window` puts the window at its place and leaves the order of the others. -/
lemma newWindow (h : Layered s) (hrect : rect.isEmpty = false) (zIndex : ℕ) (hfew : s.visible.length < VEC_MAX)
    (hroom : HasRoom m rect) : ∃ id s' m', s.newWindow rect zIndex m = .ok (id,s',m') ∧ Layered s' ∧
      s'.visible[min zIndex s.visible.length]? = some id ∧ s'.visible.erase id = s.visible ∧
      s'.visible.Perm (id :: s.visible) := by
  obtain ⟨tb,hs⟩ := h.tracker
  obtain ⟨id,windows',w,st,tb',m',h1,h2,h3,h4,h5,h6,_⟩ := newWindow_ok hs h.stacked hrect zIndex hfew hroom rfl
  set z := min zIndex s.visible.length with hzdef
  have hz : z ≤ s.visible.length := min_le_right _ _
  have hlen : (s.visible.insertIdx z id).length = s.visible.length + 1 := by rw [List.length_insertIdx, if_pos hz]
  have hfresh : id ∉ s.visible := fun hm => by
    obtain ⟨v,hv⟩ := h.stacked.mem_visible.mp hm
    rw [h4.fresh] at hv
    simp at hv
  refine ⟨id,_,m',h1,⟨⟨tb',h2⟩,h3,fun j w' hw' => ?_,fun p region hr => ?_⟩,?_,erase_insertIdx hfresh hz,
    List.perm_insertIdx id s.visible hz⟩
  · rcases h4.cases hw' with ⟨_,rfl⟩ | ⟨v,hv,rfl⟩
    · rw [h5]
      exact hrect
    · exact h.proper j v hv
  · -- the indices of the tracker are shifted like those of the windows
    have hshift : ∀ r : WindowRegion, (s.damageTracker.value p).map
        (fun region => { region with zIndex := Screen.shift z region.zIndex }) = some r →
        InStack (s.visible.insertIdx z id).length r.zIndex := fun r hr => by
      obtain ⟨r0,hr0,rfl⟩ := Option.map_eq_some_iff.mp hr
      have hmax := VEC_MAX_lt
      rw [hlen]
      rcases h.inStack p r0 hr0 with hp | hp
      · exact Or.inl ((if_neg fun hc => hc.2 hp).trans hp)
      · refine Or.inr ?_
        simp only [Screen.shift]
        split_ifs <;> omega
    rw [h6] at hr
    split_ifs at hr
    · refine inStack_mark (Or.inr ?_) hshift hr
      omega
    · exact hshift region hr
  · simp only
    rw [List.getElem?_insertIdx, if_neg (lt_irrefl z), if_pos rfl, if_pos hz]

/-- A region that a rebuild gave to the first of some windows. -/
lemma inStack_found {windows : IdSparseVec Window} {visible : List ℕ} (hst : Stacked windows visible) (f : Window → Bool)
    {region : Option WindowRegion} (hr : ∀ r, region = some r → InStack visible.length r.zIndex) {r : WindowRegion}
    (h : (((visible.filterMap windows.get).find? f).map fun v => ⟨v.zIndex,true⟩).or region = some r) :
    InStack visible.length r.zIndex := by
  cases hf : (visible.filterMap windows.get).find? f with
  | none =>
    rw [hf] at h
    exact hr r h
  | some v =>
    rw [hf] at h
    obtain rfl := Option.some.inj h
    obtain ⟨i,_,hi⟩ := List.mem_filterMap.mp (List.mem_of_find?_eq_some hf)
    exact Or.inr (hst.zIndex_lt hi)

/-- `move_window` leaves the order alone. -/
lemma moveWindow (h : Layered s) (hw : s.windows.get id = some w) (hrect : rect.isEmpty = false) (hroom : HasRoom m rect) :
    ∃ s' m', s.moveWindow id rect m = .ok (s',m') ∧ Layered s' ∧ s'.visible = s.visible := by
  obtain ⟨tb,hs⟩ := h.tracker
  obtain ⟨w',st,tb',m',hrep,hnew,h1,h2,h3,_⟩ := moveWindow_ok hs h.stacked hw hrect hroom
  refine ⟨_,m',h1,⟨⟨tb',h2⟩,hrep.stacked h.stacked (IdSparseVec.valid_set h.stacked.valid hw),fun j v hv => ?_,
    fun p region hr => ?_⟩,rfl⟩
  · by_cases hj : j = id
    · subst hj
      obtain rfl := Option.some.inj (hrep.get_new.symm.trans hv)
      rw [hnew]
      exact hrect
    · rw [hrep.get_other hj] at hv
      exact h.proper j v hv
  · rw [h3, movedRegion] at hr
    have hexposed : ∀ r, (if w.rect.Contains p ∧ isKept (fun r => r.zIndex < w.zIndex) (s.damageTracker.value p) = false then
        (((s.visible.filterMap s.windows.get).find? fun v => !decide (v.zIndex ≤ w.zIndex) && decide (v.rect.Contains p)).map
          fun v => ⟨v.zIndex,true⟩).or (s.damageTracker.value p) else s.damageTracker.value p) = some r →
        InStack s.visible.length r.zIndex := fun r hr => by
      split_ifs at hr
      · exact inStack_found h.stacked _ (h.inStack p) hr
      · exact h.inStack p r hr
    by_cases hc : rect.Contains p
    · rw [if_pos hc] at hr
      exact inStack_mark (h.inStack_window hw) hexposed hr
    · rw [if_neg hc] at hr
      exact hexposed region hr

/-- The regions after the windows were renumbered. -/
lemma inStack_renumber (h : Layered s) {g : ℕ → ℕ} (hmax : g USIZE_MAX = USIZE_MAX)
    (hg : ∀ k, k < s.visible.length → g k < s.visible.length) {r : WindowRegion}
    (hr : (s.damageTracker.value p).map (fun r => { r with zIndex := g r.zIndex }) = some r) :
    InStack s.visible.length r.zIndex := by
  obtain ⟨r0,hr0,rfl⟩ := Option.map_eq_some_iff.mp hr
  rcases h.inStack p r0 hr0 with hp | hp
  · exact Or.inl (by simp only [hp, hmax])
  · exact Or.inr (hg _ hp)

lemma renumber_proper (h : Layered s) {g : ℕ → ℕ} (j : ℕ) (v : Window)
    (hv : (s.windows.iterMut (Window.renumber g)).get j = some v) : v.rect.isEmpty = false := by
  obtain ⟨u,hu,rfl⟩ := renumber_cases hv
  exact h.proper j u hu

/-- `set_window_z_index` moves one window and leaves the order of the others. -/
lemma setWindowZIndex (h : Layered s) (hw : s.windows.get id = some w) (zIndex : ℕ) :
    ∃ s', s.setWindowZIndex id zIndex = .ok s' ∧ Layered s' ∧
      s'.visible[min zIndex (s.visible.length - 1)]? = some id ∧ s'.visible.erase id = s.visible.erase id ∧
      s'.visible.Perm s.visible := by
  obtain ⟨tb,hs⟩ := h.tracker
  have hold := h.stacked.zIndex_lt hw
  have hmax : s.visible.length < USIZE_MAX := h.stacked.few.trans_lt VEC_MAX_lt
  obtain ⟨new,hmin⟩ : ∃ new, min zIndex (s.visible.length - 1) = new := ⟨_,rfl⟩
  have hnew : new < s.visible.length := by omega
  obtain ⟨hput,horder,hperm⟩ := move_entry h.stacked.nodup (h.stacked.place id w hw) hnew
  have hlen := hperm.length_eq
  rw [hmin]
  rcases lt_trichotomy w.zIndex new with hlt | heq | hlt
  · obtain ⟨st,st',tb',h1,h2,h3,h4,h5⟩ := setBack_ok hs h.stacked hw hmin hlt rfl rfl
    refine ⟨_,h1,⟨⟨tb',h2⟩,h3,h.renumber_proper,fun p region hr => ?_⟩,hput,horder,hperm⟩
    have hst : ∀ r, st.value p = some r → InStack s.visible.length r.zIndex := fun r hr => by
      rw [h4] at hr
      refine h.inStack_renumber ?_ (fun k hk => ?_) hr
      · exact if_pos (by omega)
      · unfold Screen.toBack
        split_ifs <;> omega
    rw [← hlen] at hst
    rw [h5] at hr
    split_ifs at hr
    · exact inStack_found h3 _ hst hr
    · exact hst region hr
  · refine ⟨s,?_,h,heq ▸ h.stacked.place id w hw,rfl,List.Perm.refl _⟩
    simp only [Screen.setWindowZIndex, checkedSub_of_le (show 1 ≤ s.visible.length by omega), bind, Except.bind, hmin, hw,
      unwrap, if_pos heq.symm]
    rfl
  · obtain ⟨st,tb',h1,h2,h3⟩ := setFront_ok hs h.stacked hw (h.proper id w hw) hmin hlt
    refine ⟨_,h1,⟨⟨tb',h2⟩,h.stacked.toFront hw hlt,h.renumber_proper,fun p region hr => ?_⟩,hput,horder,hperm⟩
    have hplaced : InStack s.visible.length region.zIndex := by
      rw [h3] at hr
      split_ifs at hr
      · obtain rfl := Option.some.inj hr
        exact Or.inr hnew
      · refine h.inStack_renumber ?_ (fun k hk => ?_) hr
        · exact if_pos (by omega)
        · unfold Screen.toFront
          split_ifs <;> omega
    rw [← hlen] at hplaced
    exact hplaced

/-- One round of the loop of `update`: a region of a window has one. -/
lemma paint (h : Layered s) (fb : Surface) (m : Images) {item : Rect × WindowRegion}
    (hitem : InStack s.visible.length item.2.zIndex) : ∃ m', s.paint fb m item = .ok m' := by
  unfold Screen.paint
  by_cases hd : item.2.dirty = true
  · by_cases hz : item.2.zIndex = USIZE_MAX
    · exact ⟨fb.fillRect item.1 .WHITE m,by simp only [hd, hz]; rfl⟩
    · have hlt := hitem.resolve_left hz
      obtain ⟨w,hw,_⟩ := h.stacked.window _ _ (List.getElem?_eq_getElem hlt)
      have hidx : index s.visible item.2.zIndex = .ok s.visible[item.2.zIndex] := by
        simp only [index, List.getElem?_eq_getElem hlt]
      refine ⟨fb.blit item.1 w.surface item.1.tl m,?_⟩
      simp only [hd, Bool.not_true, Bool.false_eq_true, if_false, if_neg hz, hidx, bind, Except.bind, hw, unwrap]
      rfl
  · exact ⟨m,by simp only [hd]; rfl⟩

lemma paintLoop (h : Layered s) (fb : Surface) (m : Images) (items : List (Rect × WindowRegion))
    (hitems : ∀ item ∈ items, InStack s.visible.length item.2.zIndex) :
    ∃ m', items.foldlM (s.paint fb) m = .ok m' := by
  induction items generalizing m with
  | nil => exact ⟨m,rfl⟩
  | cons item items ih =>
    obtain ⟨m1,h1⟩ := h.paint fb m (hitems item List.mem_cons_self)
    obtain ⟨m2,h2⟩ := ih m1 fun i hi => hitems i (List.mem_cons_of_mem _ hi)
    refine ⟨m2,?_⟩
    simp only [List.foldlM_cons, h1, bind, Except.bind]
    exact h2

/-- `update` finds a window for every region that has one, whatever the frame buffer. -/
lemma update (h : Layered s) (fb : Surface) (m : Images) :
    ∃ s' m', s.update fb m = .ok (s',m') ∧ Layered s' ∧ s'.visible = s.visible := by
  obtain ⟨tb,hs⟩ := h.tracker
  obtain ⟨items,st1,tb1,h1,_,hd⟩ := hs.drain fb.rect
  have hitems : ∀ item ∈ items, InStack s.visible.length item.2.zIndex := fun item hi => by
    have hy := hd.yielded item hi
    obtain ⟨hx,hy'⟩ := item.1.proper hy.proper
    exact h.inStack _ _ (hy.uniform item.1.tl ⟨le_rfl,hx,le_rfl,hy'⟩)
  obtain ⟨m1,h2⟩ := h.paintLoop fb m items hitems
  obtain ⟨st,tb2,h3,h4,h5⟩ := @reset_value { s with damageTracker := st1 } h.stacked h.proper fb.rect
  refine ⟨_,m1,?_,h.withTracker h4 fun p region hr => ?_,rfl⟩
  · simp only [Screen.update, h1, h2, h3, bind, Except.bind]
    rfl
  · rw [h5] at hr
    rcases h.stacked.firstAt p with ⟨i,w,hf,ht⟩ | ⟨hf,_⟩
    · have hf : ({ s with damageTracker := st1 } : Screen).firstAt p s.visible = some w := hf
      rw [hf] at hr
      obtain rfl := Option.some.inj hr
      exact h.inStack_window ht.get
    · have hf : ({ s with damageTracker := st1 } : Screen).firstAt p s.visible = none := hf
      rw [hf, Option.map_none, Option.none_or] at hr
      split_ifs at hr
      obtain rfl := Option.some.inj hr
      exact Or.inl rfl

end Layered

/-- The runs of a screen, with the identifiers that `new_window` returned. The images may change in any way between two
operations, and every update may be into another frame buffer. -/
inductive StackRun : Screen → List ℕ → Prop
  | new {s : Screen} {rect : Rect} (hrun : Screen.new rect = .ok s) : StackRun s []
  | newWindow {s s' : Screen} {m m' : Images} {rect : Rect} {id : ℕ} {ids : List ℕ} (zIndex : ℕ) (h : StackRun s ids)
      (hrect : rect.isEmpty = false) (hrun : s.newWindow rect zIndex m = .ok (id,s',m')) : StackRun s' (id :: ids)
  | setWindowZIndex {s s' : Screen} {id : ℕ} {ids : List ℕ} (zIndex : ℕ) (h : StackRun s ids) (hid : id ∈ ids)
      (hrun : s.setWindowZIndex id zIndex = .ok s') : StackRun s' ids
  | moveWindow {s s' : Screen} {m m' : Images} {rect : Rect} {id : ℕ} {ids : List ℕ} (h : StackRun s ids) (hid : id ∈ ids)
      (hrect : rect.isEmpty = false) (hrun : s.moveWindow id rect m = .ok (s',m')) : StackRun s' ids
  | markDirty {s s' : Screen} {rect : Rect} {id : ℕ} {ids : List ℕ} (h : StackRun s ids) (hid : id ∈ ids)
      (hrun : s.markDirty id rect = .ok s') : StackRun s' ids
  | markDirtyBeyond {s s' : Screen} {rect : Rect} {ids : List ℕ} (zIndex : ℕ) (h : StackRun s ids)
      (hrect : rect.isEmpty = false) (hrun : s.markDirtyBeyond zIndex rect = .ok s') : StackRun s' ids
  | update {s s' : Screen} {m m' : Images} {fb : Surface} {ids : List ℕ} (h : StackRun s ids)
      (hrun : s.update fb m = .ok (s',m')) : StackRun s' ids

/-- A screen whose windows are those in the list. -/
structure Stack (s : Screen) (ids : List ℕ) : Prop where
  layered : Layered s
  perm : s.visible.Perm ids

lemma Stack.window (h : Stack s ids) (hid : id ∈ ids) : ∃ w, s.windows.get id = some w :=
  h.layered.stacked.mem_visible.mp (h.perm.mem_iff.mpr hid)

/-- The orders agree in every run. -/
lemma StackRun.stack (h : StackRun s ids) : Stack s ids := by
  induction h with
  | @new s rect hrun =>
    obtain ⟨s1,h1,h2,h3⟩ := Layered.new rect
    obtain rfl := Except.ok.inj (h1.symm.trans hrun)
    exact ⟨h3,by rw [h2]⟩
  | newWindow zIndex _ hrect hrun ih =>
    obtain ⟨hfew,hroom⟩ := newWindow_room hrect zIndex hrun
    obtain ⟨id1,s1,m1,h1,h2,_,_,h3⟩ := ih.layered.newWindow hrect zIndex hfew hroom
    cases Except.ok.inj (h1.symm.trans hrun)
    exact ⟨h2,h3.trans (ih.perm.cons _)⟩
  | setWindowZIndex zIndex _ hid hrun ih =>
    obtain ⟨w,hw⟩ := ih.window hid
    obtain ⟨s1,h1,h2,_,_,h3⟩ := ih.layered.setWindowZIndex hw zIndex
    obtain rfl := Except.ok.inj (h1.symm.trans hrun)
    exact ⟨h2,h3.trans ih.perm⟩
  | @moveWindow s s' m m' rect id ids _ hid hrect hrun ih =>
    obtain ⟨w,hw⟩ := ih.window hid
    obtain ⟨s1,m1,h1,h2,h3⟩ := ih.layered.moveWindow hw hrect (moveWindow_room hrect hrun)
    cases Except.ok.inj (h1.symm.trans hrun)
    exact ⟨h2,h3 ▸ ih.perm⟩
  | @markDirty s s' rect id ids _ hid hrun ih =>
    obtain ⟨w,hw⟩ := ih.window hid
    obtain ⟨s1,h1,h2,h3⟩ := ih.layered.markDirty hw rect
    obtain rfl := Except.ok.inj (h1.symm.trans hrun)
    exact ⟨h2,h3 ▸ ih.perm⟩
  | markDirtyBeyond zIndex _ hrect hrun ih =>
    obtain ⟨s1,h1,h2,h3⟩ := ih.layered.markDirtyBeyond zIndex hrect
    obtain rfl := Except.ok.inj (h1.symm.trans hrun)
    exact ⟨h2,h3 ▸ ih.perm⟩
  | @update s s' m m' fb ids _ hrun ih =>
    obtain ⟨s1,m1,h1,h2,h3⟩ := ih.layered.update fb m
    cases Except.ok.inj (h1.symm.trans hrun)
    exact ⟨h2,h3 ▸ ih.perm⟩

/-- What every operation does to the order: `new_window` and `set_window_z_index` put one window at its place and keep the
order of the others, and the others leave it alone. `new_window` and `move_window` return exactly if there is room for the
surface and the window, and the others always. -/
structure KeepsOrder (s : Screen) (ids : List ℕ) : Prop where
  newWindow : ∀ rect zIndex m, rect.isEmpty = false →
    ((∃ r, s.newWindow rect zIndex m = .ok r) ↔ s.visible.length < VEC_MAX ∧ HasRoom m rect) ∧
    ∀ id s' m', s.newWindow rect zIndex m = .ok (id,s',m') → id ∉ ids ∧
      s'.visible[min zIndex s.visible.length]? = some id ∧ s'.visible.erase id = s.visible
  setWindowZIndex : ∀ id zIndex, id ∈ ids → ∃ s', s.setWindowZIndex id zIndex = .ok s' ∧
    s'.visible[min zIndex (s.visible.length - 1)]? = some id ∧ s'.visible.erase id = s.visible.erase id
  moveWindow : ∀ id rect m, id ∈ ids → rect.isEmpty = false →
    ((∃ r, s.moveWindow id rect m = .ok r) ↔ HasRoom m rect) ∧
    ∀ s' m', s.moveWindow id rect m = .ok (s',m') → s'.visible = s.visible
  markDirty : ∀ id rect, id ∈ ids → ∃ s', s.markDirty id rect = .ok s' ∧ s'.visible = s.visible
  markDirtyBeyond : ∀ zIndex rect, rect.isEmpty = false →
    ∃ s', s.markDirtyBeyond zIndex rect = .ok s' ∧ s'.visible = s.visible
  update : ∀ fb m, ∃ s' m', s.update fb m = .ok (s',m') ∧ s'.visible = s.visible

lemma Stack.keepsOrder (h : Stack s ids) : KeepsOrder s ids := by
  constructor
  · intro rect zIndex m hrect
    refine ⟨⟨fun ⟨r,hrun⟩ => newWindow_room hrect zIndex hrun,fun ⟨hfew,hroom⟩ => ?_⟩,fun id s' m' hrun => ?_⟩
    · obtain ⟨id,s',m',h1,_⟩ := h.layered.newWindow hrect zIndex hfew hroom
      exact ⟨_,h1⟩
    · obtain ⟨hfew,hroom⟩ := newWindow_room hrect zIndex hrun
      obtain ⟨id1,s1,m1,h1,h2,h3,h4,h5⟩ := h.layered.newWindow hrect zIndex hfew hroom
      cases Except.ok.inj (h1.symm.trans hrun)
      refine ⟨fun hid => ?_,h3,h4⟩
      have hnodup := h5.nodup_iff.mp h2.stacked.nodup
      exact (List.nodup_cons.mp hnodup).1 (h.perm.mem_iff.mpr hid)
  · intro id zIndex hid
    obtain ⟨w,hw⟩ := h.window hid
    obtain ⟨s',h1,_,h2,h3,_⟩ := h.layered.setWindowZIndex hw zIndex
    exact ⟨s',h1,h2,h3⟩
  · intro id rect m hid hrect
    obtain ⟨w,hw⟩ := h.window hid
    refine ⟨⟨fun ⟨r,hrun⟩ => moveWindow_room hrect hrun,fun hroom => ?_⟩,fun s' m' hrun => ?_⟩
    · obtain ⟨s',m',h1,_⟩ := h.layered.moveWindow hw hrect hroom
      exact ⟨_,h1⟩
    · obtain ⟨s1,m1,h1,_,h2⟩ := h.layered.moveWindow hw hrect (moveWindow_room hrect hrun)
      cases Except.ok.inj (h1.symm.trans hrun)
      exact h2
  · intro id rect hid
    obtain ⟨w,hw⟩ := h.window hid
    obtain ⟨s',h1,_,h2⟩ := h.layered.markDirty hw rect
    exact ⟨s',h1,h2⟩
  · intro zIndex rect hrect
    obtain ⟨s',h1,_,h2⟩ := h.layered.markDirtyBeyond zIndex hrect
    exact ⟨s',h1,h2⟩
  · intro fb m
    obtain ⟨s',m',h1,_,h2⟩ := h.layered.update fb m
    exact ⟨s',m',h1,h2⟩

/-- In every run the vector has every window once, at the place of its index, and the tracker has no index but of these. -/
theorem stacking_order_agrees (h : StackRun s ids) :
    (ids.Nodup ∧ s.visible.Perm ids ∧ ∀ id, id ∈ ids ↔ (s.windows.get id).isSome) ∧
    (∀ k id, s.visible[k]? = some id → ∃ w, s.windows.get id = some w ∧ w.zIndex = k) ∧
    (∀ region ∈ s.damageTracker.regionValues, region.zIndex = USIZE_MAX ∨ region.zIndex < s.visible.length) ∧
    KeepsOrder s ids := by
  have hstack := h.stack
  have hst := hstack.layered.stacked
  refine ⟨⟨hstack.perm.nodup_iff.mp hst.nodup,hstack.perm,fun id => ?_⟩,hst.window,fun region hr => ?_,hstack.keepsOrder⟩
  · rw [← hstack.perm.mem_iff, hst.mem_visible, Option.isSome_iff_exists]
  · obtain ⟨tb,hs⟩ := hstack.layered.tracker
    obtain ⟨p,hp⟩ := hs.exists_point hr
    exact hstack.layered.inStack p region hp

/-- Two windows, of which the lower one is brought to the front. -/
theorem stacking_order_agrees_front : ∃ s id id', StackRun s [id',id] ∧ s.visible = [id,id'] ∧ [id',id].Nodup ∧
    KeepsOrder s [id',id] := by
  have hne : (Rect.new 1 1 6 3).isEmpty = false := by decide
  obtain ⟨s0,h1,h2,h3⟩ := Layered.new (.new 0 0 4 4)
  have hrun0 : StackRun s0 [] := .new h1
  obtain ⟨id,s1,m1,h4,h5,_,h6,_⟩ := h3.newWindow hne 7 (by rw [h2]; decide)
    (by decide : HasRoom smallMemory (.new 1 1 6 3))
  have hrun1 := hrun0.newWindow 7 hne h4
  have hvis1 : s1.visible = [id] := (hrun1.stack.perm).eq_singleton
  obtain ⟨id',s2,m2,h7,h8,h9,_,_⟩ := h5.newWindow hne 0 (by rw [hvis1, List.length_singleton]; decide)
    (by decide : HasRoom smallMemory (.new 1 1 6 3))
  have hrun2 := hrun1.newWindow 0 hne h7
  have hid : id ∈ [id',id] := by simp
  obtain ⟨w,hw⟩ := hrun2.stack.window hid
  obtain ⟨s3,h10,_,h11,_⟩ := h8.setWindowZIndex hw 0
  have hrun3 := hrun2.setWindowZIndex 0 hid h10
  obtain ⟨⟨hnodup,hperm,_⟩,_,_,hkeeps⟩ := stacking_order_agrees hrun3
  refine ⟨s3,id,id',hrun3,?_,hnodup,hkeeps⟩
  rw [Nat.zero_min] at h11
  cases hv : s3.visible with
  | nil => simp [hv] at h11
  | cons a l =>
    rw [hv] at h11 hperm
    obtain rfl : a = id := by simpa using h11
    have hl : l.Perm [id'] := (List.perm_cons a).mp (hperm.trans (List.Perm.swap a id' []))
    rw [hl.eq_singleton]

end Lilith.Draw
