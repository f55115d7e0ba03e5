import Lilith.Draw.Screen
import Lilith.Draw.Values
import Lilith.Draw.Pixels

/-! What the windows of a screen show together, and `update`, which paints it. Between updates the damage
tracker knows the window on top at every point of the screen, and a point that it does not call dirty
already shows the right pixel. -/
namespace Lilith.Draw
open Theory Rbtree

variable {fb : Surface} {s s' : Screen} {m m' : Images} {p : Point} {id : ℕ} {w : Window} {rect : Rect}

/-- The window with the lowest index among those that contain a point. -/
structure Topmost (windows : IdSparseVec Window) (p : Point) (id : ℕ) (w : Window) : Prop where
  get : windows.get id = some w
  contains : w.rect.Contains p
  lowest : ∀ id' w', windows.get id' = some w' → w'.rect.Contains p → w.zIndex ≤ w'.zIndex

/-- No window contains the point. -/
def Uncovered (windows : IdSparseVec Window) (p : Point) : Prop :=
  ∀ id w, windows.get id = some w → ¬w.rect.Contains p

/-- The index of the window on top at a point. -/
def TopIndex (windows : IdSparseVec Window) (p : Point) (z : ℕ) : Prop :=
  (∃ id w, Topmost windows p id w ∧ w.zIndex = z) ∨ Uncovered windows p ∧ z = USIZE_MAX

/-- The colour of a point in the picture of all windows. -/
def Shows (windows : IdSparseVec Window) (m : Images) (p : Point) (color : Color) : Prop :=
  (∀ id w, Topmost windows p id w → color = w.surface.pixel m p) ∧ (Uncovered windows p → color = .WHITE)

/-- The damage tracker knows the window on top at every point of the screen, and the points that are not
dirty show the right pixel. -/
def Coherent (fb : Surface) (s : Screen) (m : Images) : Prop :=
  ∀ p, fb.rect.Contains p → ∃ region, s.damageTracker.value p = some region ∧ TopIndex s.windows p region.zIndex ∧
    (region.dirty = false → Shows s.windows m p (fb.pixel m p))

/-- The windows and their order. -/
structure Stacked (windows : IdSparseVec Window) (visible : List ℕ) : Prop where
  valid : windows.Valid
  window : ∀ k id, visible[k]? = some id → ∃ w, windows.get id = some w ∧ w.zIndex = k
  place : ∀ id w, windows.get id = some w → visible[w.zIndex]? = some id
  few : visible.length ≤ VEC_MAX

/-- Every window has an image of its own. -/
structure Separate (fb : Surface) (windows : IdSparseVec Window) (m : Images) : Prop where
  frame : fb.image < m.next
  image : ∀ id w, windows.get id = some w → w.surface.image < m.next ∧ w.surface.image ≠ fb.image
  proper : ∀ id w, windows.get id = some w → w.rect.isEmpty = false
  distinct : ∀ id w id' w', windows.get id = some w → windows.get id' = some w' →
    w.surface.image = w'.surface.image → id = id'

/-- The invariant of a screen that is shown in the frame buffer `fb`. -/
structure ScreenInv (fb : Surface) (s : Screen) (m : Images) : Prop where
  tracker : ∃ tb, Sound s.damageTracker tb []
  stacked : Stacked s.windows s.visible
  separate : Separate fb s.windows m
  coherent : Coherent fb s m

lemma VEC_MAX_lt : VEC_MAX < USIZE_MAX := by decide

namespace Stacked
variable {windows : IdSparseVec Window} {visible : List ℕ}

lemma zIndex_lt (h : Stacked windows visible) (hw : windows.get id = some w) : w.zIndex < visible.length :=
  (List.getElem?_eq_some_iff.mp (h.place id w hw)).1

lemma zIndex_ne (h : Stacked windows visible) (hw : windows.get id = some w) : w.zIndex ≠ USIZE_MAX := by
  have h1 := h.zIndex_lt hw
  have h2 := h.few
  have h3 := VEC_MAX_lt
  omega

/-- Two windows with one index are the same. -/
lemma unique (h : Stacked windows visible) {id' : ℕ} {w' : Window} (hw : windows.get id = some w) (hw' : windows.get id' = some w')
    (hz : w.zIndex = w'.zIndex) : id = id' ∧ w = w' := by
  have h1 := h.place id w hw
  rw [hz, h.place id' w' hw'] at h1
  obtain rfl := Option.some.inj h1
  exact ⟨rfl,Option.some.inj (hw.symm.trans hw')⟩

/-- There is one window on top at a point. -/
lemma topmost_unique (h : Stacked windows visible) {id' : ℕ} {w' : Window} (ht : Topmost windows p id w) (ht' : Topmost windows p id' w') :
    id = id' ∧ w = w' :=
  h.unique ht.get ht'.get (le_antisymm (ht.lowest _ _ ht'.get ht'.contains) (ht'.lowest _ _ ht.get ht.contains))

/-- A point shows the window on top. -/
lemma shows (h : Stacked windows visible) (ht : Topmost windows p id w) : Shows windows m p (w.surface.pixel m p) := by
  refine ⟨fun id' w' ht' => ?_,fun hu => absurd ht.contains (hu id w ht.get)⟩
  rw [(h.topmost_unique ht ht').2]

end Stacked

lemma Uncovered.shows {windows : IdSparseVec Window} (hu : Uncovered windows p) : Shows windows m p .WHITE :=
  ⟨fun id w ht => absurd ht.contains (hu id w ht.get),fun _ => rfl⟩

/-- The first update of a region with no points, also with an empty rectangle. -/
lemma newRegion_update {V : Type} (rect : Rect) (f : Option V → Option V) :
    ∃ st tb, (BandedRegion.new ⟨[]⟩ ⟨[]⟩ : BandedRegion V).update rect f = .ok st ∧ Sound st tb [] ∧
      ∀ p, st.value p = if rect.Contains p then f none else none := by
  obtain ⟨tb,hs⟩ := sound_of_reach (Reach.new ⟨[]⟩ ⟨[]⟩ : Reach (BandedRegion.new ⟨[]⟩ ⟨[]⟩ : BandedRegion V))
  cases hne : rect.isEmpty with
  | false => exact hs.update_value hne f
  | true =>
    have hno : ∀ p, ¬rect.Contains p := fun p hp => by
      obtain ⟨h1,h2,h3,h4⟩ := hp
      simp only [Rect.isEmpty, decide_eq_true_eq] at hne
      omega
    by_cases hy : rect.tl.y < rect.br.y
    · have hx : ¬rect.tl.x < rect.br.x := by
        simp only [Rect.isEmpty, decide_eq_true_eq] at hne
        omega
      -- a band without regions
      obtain rfl : tb = .leaf := hs.toTree_eq.symm
      obtain ⟨st',tb',h1,h2⟩ := hs.laid.new.insertBand ⟨rect.tl.y,rect.br.y,none⟩ hy fun _ _ _ => rfl
      have hlines : ∀ y xs, lines st'.mem tb' y = some xs → xs = [] := fun y xs hl => by
        rw [h2.lines, paint] at hl
        split_ifs at hl
        · exact (Option.some.inj hl).symm
        · simp [lines, denote, values, SpanView.lookup] at hl
      have hs' : Sound st' tb' [] := h2.laid.sound_of_lines fun y xs hl => by
        rw [hlines y xs hl]
        exact SpanView.WF.nil
      refine ⟨st',tb',?_,hs',fun p => ?_⟩
      · have hregs : Regions.update (⟨⟨[]⟩,none⟩ : Regions V) rect.tl.x rect.br.x f = .ok ⟨⟨[]⟩,none⟩ := by
          unfold Regions.update
          rw [show Regions.updateLoop rect.br.x f (Heap.bound ⟨[]⟩) (⟨⟨[]⟩,none⟩ : Regions V) rect.tl.x =
            .ok (rect.tl.x,⟨⟨[]⟩,none⟩) from rfl]
          simp only [bind, Except.bind, if_neg hx]
          rfl
        have hband : (BandedRegion.new ⟨[]⟩ ⟨[]⟩ : BandedRegion V).updateBand (.new rect.tl.y rect.br.y) rect f =
            .ok (⟨rect.tl.y,rect.br.y,none⟩,.new ⟨[]⟩ ⟨[]⟩) := by
          unfold BandedRegion.updateBand
          rw [show (⟨(BandedRegion.new ⟨[]⟩ ⟨[]⟩ : BandedRegion V).mem,(Band.new rect.tl.y rect.br.y).regions⟩ :
            Regions V) = ⟨⟨[]⟩,none⟩ from rfl, hregs]
          rfl
        unfold BandedRegion.update
        rw [show BandedRegion.updateLoop rect f _ (BandedRegion.new ⟨[]⟩ ⟨[]⟩) rect.tl.y =
          .ok (rect.tl.y,.new ⟨[]⟩ ⟨[]⟩) from rfl]
        simp only [bind, Except.bind, if_pos hy, hband]
        exact h1
      · rw [if_neg (hno p), hs'.value_eq, rows_eq_lookup]
        cases hl : lines st'.mem tb' p.y with
        | none => rfl
        | some xs => rw [hlines p.y xs hl]; rfl
    · refine ⟨.new ⟨[]⟩ ⟨[]⟩,tb,?_,hs,fun p => by rw [if_neg (hno p)]; rfl⟩
      unfold BandedRegion.update
      rw [show BandedRegion.updateLoop rect f _ (BandedRegion.new ⟨[]⟩ ⟨[]⟩) rect.tl.y =
        .ok (rect.tl.y,.new ⟨[]⟩ ⟨[]⟩) from rfl]
      simp only [bind, Except.bind, if_neg hy]
      rfl

/-- The first window of a list that contains a point. -/
def Screen.firstAt (s : Screen) (p : Point) (ids : List ℕ) : Option Window :=
  (ids.filterMap s.windows.get).find? fun w => decide (w.rect.Contains p)

/-- The loop of `reset_damage_tracker`. -/
lemma resetLoop_ok {st : BandedRegion WindowRegion} {tb : CTree (ℕ × Band)} (hs : Sound st tb []) (ids : List ℕ)
    (hids : ∀ id ∈ ids, ∃ w, s.windows.get id = some w ∧ w.rect.isEmpty = false) :
    ∃ st' tb', ids.reverse.foldlM s.resetWindow st = .ok st' ∧ Sound st' tb' [] ∧
      ∀ p, st'.value p = ((s.firstAt p ids).map fun w => ⟨w.zIndex,false⟩).or (st.value p) := by
  induction ids with
  | nil => exact ⟨st,tb,rfl,hs,fun p => rfl⟩
  | cons id ids ih =>
    obtain ⟨w,hw,hne⟩ := hids id List.mem_cons_self
    obtain ⟨st1,tb1,h1,h2,h3⟩ := ih fun i hi => hids i (List.mem_cons_of_mem _ hi)
    obtain ⟨st2,tb2,h4,h5,h6⟩ := h2.update_value hne fun _ => some (⟨w.zIndex,false⟩ : WindowRegion)
    refine ⟨st2,tb2,?_,h5,fun p => ?_⟩
    · rw [List.reverse_cons, List.foldlM_append]
      simp only [h1, bind, Except.bind, List.foldlM_cons, Screen.resetWindow, hw, unwrap, h4]
      rfl
    · rw [h6, h3]
      simp only [Screen.firstAt, List.filterMap_cons, hw, List.find?_cons]
      by_cases hc : w.rect.Contains p
      · simp [hc]
      · simp [hc]

/-- The visible windows are in the order of their indices. -/
lemma Stacked.ordered {windows : IdSparseVec Window} {visible : List ℕ} (h : Stacked windows visible) :
    (visible.filterMap windows.get).Pairwise fun a b => a.zIndex < b.zIndex := by
  rw [List.pairwise_filterMap, List.pairwise_iff_getElem]
  intro i j hi hj hij a ha b hb
  obtain ⟨a',ha',rfl⟩ := h.window i _ (List.getElem?_eq_getElem hi)
  obtain ⟨b',hb',rfl⟩ := h.window j _ (List.getElem?_eq_getElem hj)
  rw [Option.some.inj (ha.symm.trans ha'), Option.some.inj (hb.symm.trans hb')]
  exact hij

/-- The first visible window with a property is the one with the lowest index. -/
lemma Stacked.find {windows : IdSparseVec Window} {visible : List ℕ} (h : Stacked windows visible) (f : Window → Bool) :
    (∃ id w, (visible.filterMap windows.get).find? f = some w ∧ windows.get id = some w ∧ f w = true ∧
      ∀ id' w', windows.get id' = some w' → f w' = true → w.zIndex ≤ w'.zIndex) ∨
    (visible.filterMap windows.get).find? f = none ∧ ∀ id w, windows.get id = some w → f w = false := by
  have hmem : ∀ w, w ∈ visible.filterMap windows.get ↔ ∃ id, windows.get id = some w := fun w => by
    rw [List.mem_filterMap]
    constructor
    · intro ⟨id,_,hw⟩
      exact ⟨id,hw⟩
    · intro ⟨id,hw⟩
      exact ⟨id,List.mem_of_getElem? (h.place id w hw),hw⟩
  have hord := h.ordered
  cases hf : (visible.filterMap windows.get).find? f with
  | none =>
    refine Or.inr ⟨rfl,fun id w hw => ?_⟩
    simpa using List.find?_eq_none.mp hf w ((hmem w).mpr ⟨id,hw⟩)
  | some w =>
    obtain ⟨hc,before,after,hlist,hbefore⟩ := List.find?_eq_some_iff_append.mp hf
    obtain ⟨id,hid⟩ := (hmem w).mp (by rw [hlist]; simp)
    refine Or.inl ⟨id,w,rfl,hid,hc,fun id' w' hw' hc' => ?_⟩
    have hm := (hmem w').mpr ⟨id',hw'⟩
    rw [hlist, List.mem_append, List.mem_cons] at hm
    rw [hlist, List.pairwise_append, List.pairwise_cons] at hord
    rcases hm with hm | rfl | hm
    · have := hbefore w' hm
      simp [hc'] at this
    · exact le_rfl
    · exact (hord.2.1.1 w' hm).le

/-- The first visible window that contains a point is the one on top. -/
lemma Stacked.firstAt (h : Stacked s.windows s.visible) (p : Point) : (∃ id w, s.firstAt p s.visible = some w ∧ Topmost s.windows p id w) ∨
    s.firstAt p s.visible = none ∧ Uncovered s.windows p := by
  rcases h.find fun w => decide (w.rect.Contains p) with ⟨id,w,h1,h2,h3,h4⟩ | ⟨h1,h2⟩
  · exact Or.inl ⟨id,w,h1,h2,of_decide_eq_true h3,fun id' w' hw' hc' => h4 id' w' hw' (decide_eq_true hc')⟩
  · exact Or.inr ⟨h1,fun id w hw => of_decide_eq_false (h2 id w hw)⟩

/-- `reset_damage_tracker`, point by point. -/
lemma reset_value (hst : Stacked s.windows s.visible) (hproper : ∀ id w, s.windows.get id = some w → w.rect.isEmpty = false)
    (rect : Rect) : ∃ st tb, s.resetDamageTracker rect = .ok { s with damageTracker := st } ∧ Sound st tb [] ∧
      ∀ p, st.value p = ((s.firstAt p s.visible).map fun w => ⟨w.zIndex,false⟩).or
        (if rect.Contains p then some ⟨USIZE_MAX,false⟩ else none) := by
  obtain ⟨st0,tb0,h1,h2,h3⟩ := newRegion_update rect fun _ => some (⟨USIZE_MAX,false⟩ : WindowRegion)
  have hids : ∀ id ∈ s.visible, ∃ w, s.windows.get id = some w ∧ w.rect.isEmpty = false := fun id hid => by
    obtain ⟨k,hk⟩ := List.mem_iff_getElem?.mp hid
    obtain ⟨w,hw,_⟩ := hst.window k id hk
    exact ⟨w,hw,hproper id w hw⟩
  obtain ⟨st1,tb1,h4,h5,h6⟩ := resetLoop_ok h2 s.visible hids
  refine ⟨st1,tb1,?_,h5,fun p => ?_⟩
  · simp only [Screen.resetDamageTracker, h1, h4, bind, Except.bind]
    rfl
  · rw [h6, h3]

lemma reset_ok (hst : Stacked s.windows s.visible) (hsep : Separate fb s.windows m) : ∃ s' tb, s.resetDamageTracker fb.rect = .ok s' ∧
    s'.windows = s.windows ∧ s'.visible = s.visible ∧ Sound s'.damageTracker tb [] ∧
    ∀ p, fb.rect.Contains p → ∃ z, s'.damageTracker.value p = some ⟨z,false⟩ ∧ TopIndex s.windows p z := by
  obtain ⟨st,tb,h1,h2,h3⟩ := reset_value hst hsep.proper fb.rect
  refine ⟨_,tb,h1,rfl,rfl,h2,fun p hp => ?_⟩
  rcases hst.firstAt p with ⟨id,w,hf,ht⟩ | ⟨hf,hu⟩
  · refine ⟨w.zIndex,?_,Or.inl ⟨id,w,ht,rfl⟩⟩
    rw [h3, hf]
    rfl
  · refine ⟨USIZE_MAX,?_,Or.inr ⟨hu,rfl⟩⟩
    rw [h3, hf, if_pos hp]
    rfl

/-- The picture of the windows does not depend on the frame buffer. -/
lemma Separate.shows_congr (h : Separate fb s.windows m) (hm : ∀ i, i ≠ fb.image → m'.pixels i = m.pixels i) {color : Color} :
    Shows s.windows m' p color ↔ Shows s.windows m p color := by
  have hpixel : ∀ id w, Topmost s.windows p id w → w.surface.pixel m' p = w.surface.pixel m p := fun id w ht => by
    rw [Surface.pixel, hm _ (h.image id w ht.get).2]
    rfl
  unfold Shows
  refine and_congr (forall_congr' fun id => forall_congr' fun w => ?_) Iff.rfl
  constructor
  · intro hc ht
    rw [hc ht, hpixel id w ht]
  · intro hc ht
    rw [hc ht, hpixel id w ht]

/-- What painting rectangles does: the frame buffer alone changes, and the points of the rectangles that
are dirty show the windows. -/
structure Repainted (fb : Surface) (s : Screen) (items : List (Rect × WindowRegion)) (m m' : Images) : Prop where
  others : ∀ i, i ≠ fb.image → m'.pixels i = m.pixels i
  next : m'.next = m.next
  dirty : ∀ p, fb.rect.Contains p → (∃ item ∈ items, item.1.Contains p ∧ item.2.dirty = true) →
    Shows s.windows m p (fb.pixel m' p)
  clean : ∀ p, fb.rect.Contains p → (∀ item ∈ items, item.1.Contains p → item.2.dirty = false) →
    fb.pixel m' p = fb.pixel m p

/-- A rectangle that was painted with what the windows show there. -/
lemma Painted.repainted {item : Rect × WindowRegion} {color : Point → Color} (h : Painted fb item.1 color m m')
    (hn : m'.next = m.next) (hd : item.2.dirty = true) (hc : ∀ p, item.1.Contains p → Shows s.windows m p (color p)) :
    Repainted fb s [item] m m' := by
  refine ⟨h.others,hn,fun p hp hi => ?_,fun p hp hi => ?_⟩
  · obtain ⟨i,hi,hip,_⟩ := hi
    obtain rfl := List.mem_singleton.mp hi
    rw [h.pixel p hp, if_pos hip]
    exact hc p hip
  · rw [h.pixel p hp, if_neg]
    intro hip
    have := hi item (List.mem_singleton.mpr rfl) hip
    rw [hd] at this
    simp at this

/-- One round of the loop of `update`. -/
lemma paint_ok (hfb : fb.Fits) (hst : Stacked s.windows s.visible) (hsep : Separate fb s.windows m) {item : Rect × WindowRegion}
    (hne : item.1.isEmpty = false) (hin : item.1.Within fb.rect)
    (htop : ∀ p, item.1.Contains p → TopIndex s.windows p item.2.zIndex) :
    ∃ m', s.paint fb m item = .ok m' ∧ Repainted fb s [item] m m' := by
  unfold Screen.paint
  cases hd : item.2.dirty with
  | false =>
    refine ⟨m,by simp only [hd]; rfl,fun _ _ => rfl,rfl,fun p _ hi => ?_,fun _ _ _ => rfl⟩
    obtain ⟨i,hi,_,h⟩ := hi
    obtain rfl := List.mem_singleton.mp hi
    simp [hd] at h
  | true =>
    simp only [hd, Bool.not_true, Bool.false_eq_true, if_false]
    by_cases hz : item.2.zIndex = USIZE_MAX
    · -- no window is here
      rw [if_pos hz]
      refine ⟨_,rfl,(fillRect_ok hfb hin hne .WHITE m).repainted (SameFrees.fillRect fb item.1 .WHITE m).1 hd ?_⟩
      intro p hp
      rcases htop p hp with ⟨id,w,ht,hw⟩ | ⟨hu,_⟩
      · exact absurd (hw.trans hz) (hst.zIndex_ne ht.get)
      · exact hu.shows
    · rw [if_neg hz]
      have htopmost : ∀ p, item.1.Contains p → ∃ id w, Topmost s.windows p id w ∧ w.zIndex = item.2.zIndex := fun p hp =>
        (htop p hp).resolve_right fun h => hz h.2
      obtain ⟨hx,hy⟩ := item.1.proper hne
      obtain ⟨id,w,ht,hw⟩ := htopmost item.1.tl ⟨le_rfl,hx,le_rfl,hy⟩
      have hall : ∀ p, item.1.Contains p → Topmost s.windows p id w := fun p hp => by
        obtain ⟨id',w',ht',hw'⟩ := htopmost p hp
        obtain ⟨rfl,rfl⟩ := hst.unique ht.get ht'.get (hw.trans hw'.symm)
        exact ht'
      have hidx : index s.visible item.2.zIndex = .ok id := by
        simp only [index, ← hw, hst.place id w ht.get]
      refine ⟨fb.blit item.1 w.surface item.1.tl m,?_,?_⟩
      · simp only [hidx, bind, Except.bind, ht.get, unwrap]
        rfl
      · refine (blit_ok hfb hin (fun p hp => (hall p hp).contains) hne
          (hsep.image id w ht.get).2.symm m).repainted (SameFrees.blit fb item.1 w.surface item.1.tl m).1 hd ?_
        exact fun p hp => hst.shows (hall p hp)

lemma Separate.congr (h : Separate fb s.windows m) (hn : m'.next = m.next) : Separate fb s.windows m' := by
  refine ⟨hn ▸ h.frame,fun id w hw => ?_,h.proper,h.distinct⟩
  rw [hn]
  exact h.image id w hw

/-- The loop of `update`. -/
lemma paintLoop_ok (hfb : fb.Fits) (hst : Stacked s.windows s.visible) (hsep : Separate fb s.windows m) (items : List (Rect × WindowRegion))
    (hitems : ∀ item ∈ items, item.1.isEmpty = false ∧ item.1.Within fb.rect ∧
      ∀ p, item.1.Contains p → TopIndex s.windows p item.2.zIndex) :
    ∃ m', items.foldlM (s.paint fb) m = .ok m' ∧ Repainted fb s items m m' := by
  induction items generalizing m with
  | nil => exact ⟨m,rfl,fun _ _ => rfl,rfl,fun p _ hi => by simp at hi,fun _ _ _ => rfl⟩
  | cons item items ih =>
    obtain ⟨hne,hin,htop⟩ := hitems item List.mem_cons_self
    obtain ⟨m1,h1,h2⟩ := paint_ok hfb hst hsep hne hin htop
    obtain ⟨m2,h3,h4⟩ := ih (hsep.congr h2.next) fun i hi => hitems i (List.mem_cons_of_mem _ hi)
    refine ⟨m2,?_,fun i hi => (h4.others i hi).trans (h2.others i hi),h4.next.trans h2.next,fun p hp hi => ?_,
      fun p hp hi => ?_⟩
    · simp only [List.foldlM_cons, h1, bind, Except.bind]
      exact h3
    · by_cases hlater : ∃ i ∈ items, i.1.Contains p ∧ i.2.dirty = true
      · exact (hsep.shows_congr h2.others).mp (h4.dirty p hp hlater)
      · -- only the first rectangle
        have hclean : ∀ i ∈ items, i.1.Contains p → i.2.dirty = false := fun i hi hip => by
          by_contra hd
          exact hlater ⟨i,hi,hip,by simpa using hd⟩
        rw [h4.clean p hp hclean]
        apply h2.dirty p hp
        obtain ⟨i,hi,hip⟩ := hi
        rcases List.mem_cons.mp hi with rfl | hi
        · exact ⟨i,List.mem_singleton.mpr rfl,hip⟩
        · exact absurd ⟨i,hi,hip⟩ hlater
    · rw [h4.clean p hp fun i hi' => hi i (List.mem_cons_of_mem _ hi')]
      exact h2.clean p hp fun i hi' => hi i (List.mem_singleton.mp hi' ▸ List.mem_cons_self)

/-- `update` paints what is dirty and leaves a screen on which nothing is. -/
lemma ScreenInv.update (hfb : fb.Fits) (h : ScreenInv fb s m) : ∃ s' m', s.update fb m = .ok (s',m') ∧
    ScreenInv fb s' m' ∧ ∀ p, fb.rect.Contains p → Shows s'.windows m' p (fb.pixel m' p) := by
  obtain ⟨tb,hs⟩ := h.tracker
  obtain ⟨items,st1,tb1,h1,_,hd⟩ := hs.drain fb.rect
  have hitems : ∀ item ∈ items, item.1.isEmpty = false ∧ item.1.Within fb.rect ∧
      ∀ p, item.1.Contains p → TopIndex s.windows p item.2.zIndex := fun item hi => by
    have hy := hd.yielded item hi
    refine ⟨hy.proper,hy.inside,fun p hp => ?_⟩
    obtain ⟨region,hr,htop,_⟩ := h.coherent p (hy.inside p hp)
    rw [hy.uniform p hp] at hr
    rw [Option.some.inj hr]
    exact htop
  obtain ⟨m1,h2,h3⟩ := paintLoop_ok hfb h.stacked h.separate items hitems
  have hshows : ∀ p, fb.rect.Contains p → Shows s.windows m1 p (fb.pixel m1 p) := fun p hp => by
    rw [h.separate.shows_congr h3.others]
    obtain ⟨region,hr,_,hclean⟩ := h.coherent p hp
    obtain ⟨item,hi,hip⟩ := hd.covers p hp (by rw [hr]; rfl)
    have hregion : region = item.2 := by
      have := (hd.yielded item hi).uniform p hip
      rw [hr] at this
      exact Option.some.inj this
    by_cases hdirty : ∃ item ∈ items, item.1.Contains p ∧ item.2.dirty = true
    · exact h3.dirty p hp hdirty
    · have hall : ∀ i ∈ items, i.1.Contains p → i.2.dirty = false := fun i hi hip => by
        by_contra hd
        exact hdirty ⟨i,hi,hip,by simpa using hd⟩
      rw [h3.clean p hp hall]
      exact hclean (hregion ▸ hall item hi hip)
  have hsep := h.separate.congr h3.next
  obtain ⟨s2,tb2,h4,hw,hvis,h5,h6⟩ := @reset_ok fb { s with damageTracker := st1 } m1 h.stacked hsep
  refine ⟨s2,m1,?_,⟨⟨tb2,h5⟩,?_,?_,fun p hp => ?_⟩,fun p hp => ?_⟩
  · simp only [Screen.update, h1, h2, h4, bind, Except.bind]
    rfl
  · rw [hw, hvis]
    exact h.stacked
  · rw [hw]
    exact hsep
  · obtain ⟨z,h7,h8⟩ := h6 p hp
    rw [hw]
    exact ⟨⟨z,false⟩,h7,h8,fun _ => hshows p hp⟩
  · rw [hw]
    exact hshows p hp

end Lilith.Draw
