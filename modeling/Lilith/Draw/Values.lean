import Lilith.Draw.DrainCorrect

/-! `update_values` changes the value of every point that has one, and leaves the bands and regions as
they are. -/
namespace Lilith.Draw
open Theory PtrGraph CTree Rbtree

variable {V : Type} {st : BandedRegion V} {tb : CTree (ℕ × Band)} {mem : Heap (Region V) Unit} {p : Ptr}

/-- A region with another value. -/
def Region.withValue (g : V → V) (region : Region V) : Region V := { region with value := g region.value }

/-- A region of a band after `update_values`. -/
def Band.newRegion (fn : Rect → V → V) (band : Band) (region : Region V) : Region V :=
  region.withValue (fn (Rect.new region.xStart band.yStart region.xEnd band.yEnd))

/-- The loop over the regions of a band. -/
lemma updateRegionsLoop_ok (fn : Rect → V → V) (band : Band) (fuel : ℕ) {t : CTree (ℕ × Region V)}
    (hs : SpanTree regionView ⟨mem,p⟩ t) {before after : List (ℕ × Region V)} (ht : t.toList = before ++ after)
    (hf : after.length ≤ fuel) :
    ∃ mem' t', BandedRegion.updateRegionsLoop fn band fuel mem (after.head?.map Prod.fst) = .ok mem' ∧
      SpanTree regionView ⟨mem',p⟩ t' ∧
      t'.toList = before ++ after.map (fun x => (x.1,band.newRegion fn x.2)) ∧ Grows mem t mem' t' := by
  induction after generalizing mem t before fuel with
  | nil =>
    refine ⟨mem,t,?_,hs,by rw [ht]; rfl,Grows.refl mem t⟩
    cases fuel <;> rfl
  | cons x after ih =>
    cases fuel with
    | zero => simp at hf
    | succ fuel =>
      obtain ⟨n,_,hn,hnv,_⟩ := hs.valid.node_of_mem (show x ∈ t.toList by rw [ht]; simp)
      have hn : mem.get? x.1 = some n := hn
      obtain ⟨mem1,t1,h1,hs1,ht1,hg1⟩ := hs.setValue ht (w := band.newRegion fn x.2) rfl rfl
      have hmem : mem.set x.1 { n with value := band.newRegion fn x.2 } = mem1 := by
        simp only [Heap.setValue, deref_eq hn, bind, Except.bind] at h1
        exact Except.ok.inj h1
      have hsucc := hs1.valid.successor ht1
      have hsplit : t1.toList = (before ++ [(x.1,band.newRegion fn x.2)]) ++ after := by rw [ht1]; simp
      obtain ⟨mem2,t2,h2,hs2,ht2,hg2⟩ := ih fuel hs1 hsplit (by simpa using hf)
      refine ⟨mem2,t2,?_,hs2,by rw [ht2]; simp,hg1.trans hg2⟩
      rw [← hnv] at hmem
      simp only [Band.newRegion, Region.withValue] at hmem
      simp only [List.head?_cons, Option.map_some, BandedRegion.updateRegionsLoop, deref_eq hn, bind, Except.bind, hmem,
        hsucc]
      exact h2

/-- The values on the points of a band afterwards, for a function of the value. -/
lemma lookup_withValue (g : V → V) (xs : List (Region V)) :
    regionView.lookup (xs.map (Region.withValue g)) = fun x => (regionView.lookup xs x).map g := by
  funext x
  simp only [SpanView.lookup, List.find?_map, Option.map_map]
  rfl

lemma wf_newRegion (fn : Rect → V → V) (band : Band) {xs : List (Region V)} (h : regionView.WF xs) :
    regionView.WF (xs.map (band.newRegion fn)) := by
  constructor
  · exact List.pairwise_map.mpr h.spaced
  · intro x hx
    obtain ⟨y,hy,rfl⟩ := List.mem_map.mp hx
    exact h.proper y hy

/-- The regions of one band. -/
lemma Held.updateRegions (fn : Rect → V → V) (band : Band) {ps : List Ptr} (h : Held mem (p :: ps))
    (hw : regionView.WF (regs mem p)) :
    ∃ first mem', RbTree.lowestNodeRaw (⟨mem,p⟩ : Regions V) = .ok first ∧
      BandedRegion.updateRegionsLoop fn band mem.bound mem first = .ok mem' ∧ Held mem' (p :: ps) ∧
      (∀ r ∈ ps, regs mem' r = regs mem r) ∧ regs mem' p = (regs mem p).map (band.newRegion fn) := by
  have hv := h.trees p List.mem_cons_self
  have hlen : (regionTree mem p).toList.length ≤ mem.bound := by
    rw [CTree.toList_length]
    exact hv.lt_bound.le
  obtain ⟨mem',t',h1,h2,h3,h4⟩ := updateRegionsLoop_ok fn band mem.bound ⟨hv,hw⟩ (List.nil_append _).symm hlen
  obtain ⟨h5,h6,h7⟩ := h.replace h2.valid h4
  refine ⟨_,mem',hv.lowestNodeRaw,h1,h5,h6,h7.trans ?_⟩
  simp [values, h3, regs]

/-- The loop over the bands. -/
lemma Sound.updateBandsLoop (fn : Rect → V → V) (fuel : ℕ) (hs : Sound st tb []) {before after : List (ℕ × Band)}
    (hb : tb.toList = before ++ after) (hf : after.length ≤ fuel) :
    ∃ mem', BandedRegion.updateBandsLoop fn fuel st (after.head?.map Prod.fst) = .ok { st with mem := mem' } ∧
      Sound { st with mem := mem' } tb [] ∧
      (∀ b ∈ before, regs mem' b.2.regions = regs st.mem b.2.regions) ∧
      ∀ b ∈ after, regs mem' b.2.regions = (regs st.mem b.2.regions).map (b.2.newRegion fn) := by
  induction after generalizing st before fuel with
  | nil =>
    refine ⟨st.mem,?_,hs,fun _ _ => rfl,by simp⟩
    cases fuel <;> rfl
  | cons b after ih =>
    cases fuel with
    | zero => simp at hf
    | succ fuel =>
      obtain ⟨n,_,hn,hnv,_⟩ := hs.bands.valid.node_of_mem (show b ∈ tb.toList by rw [hb]; simp)
      have hsucc := hs.bands.valid.successor hb
      have hperm : ((values tb).map Band.regions).Perm
          (b.2.regions :: (before ++ after).map fun x => x.2.regions) := by
        rw [values_eq_append hb]
        simp only [List.map_cons, List.map_append, List.map_map, Function.comp_def]
        exact List.perm_middle
      have hwf : ∀ q ∈ (values tb).map Band.regions, regionView.WF (regs st.mem q) := fun q hq =>
        (hs.owned.trees q hq).wf
      obtain ⟨first,mem1,h1,h2,h3,h4,h5⟩ :=
        (hs.owned.held.perm hperm).updateRegions fn b.2 (hwf _ (hperm.mem_iff.mpr (by simp)))
      have hs1 : Sound { st with mem := mem1 } tb [] := by
        refine ⟨hs.bands,(h3.perm hperm.symm).owned fun q hq => ?_⟩
        rcases List.mem_cons.mp (hperm.mem_iff.mp hq) with rfl | hq'
        · rw [h5]
          exact wf_newRegion fn b.2 (hwf _ hq)
        · rw [h4 q hq']
          exact hwf q hq
      have hkeep : ∀ x ∈ before ++ after, regs mem1 x.2.regions = regs st.mem x.2.regions := fun x hx =>
        h4 _ (List.mem_map_of_mem hx)
      have hsplit : tb.toList = (before ++ [b]) ++ after := by rw [hb]; simp
      obtain ⟨mem2,h6,h7,h8,h9⟩ := ih fuel hs1 hsplit (by simpa using hf)
      refine ⟨mem2,?_,h7,fun x hx => ?_,fun x hx => ?_⟩
      · simp only [List.head?_cons, Option.map_some, BandedRegion.updateBandsLoop, deref_eq hn, hnv, bind, Except.bind,
          BandedRegion.regionsOf, h1, h2, hsucc]
        exact h6
      · rw [h8 x (List.mem_append_left _ hx)]
        exact hkeep x (List.mem_append_left _ hx)
      · rcases List.mem_cons.mp hx with rfl | hx
        · rw [h8 x (by simp)]
          exact h5
        · rw [h9 x hx]
          simp only [hkeep x (List.mem_append_right _ hx)]

/-- `update_values`, band by band. -/
theorem Sound.updateValues_regs (fn : Rect → V → V) (hs : Sound st tb []) : ∃ st', st.updateValues fn = .ok st' ∧
    Sound st' tb [] ∧ ∀ b ∈ values tb, regs st'.mem b.regions = (regs st.mem b.regions).map (b.newRegion fn) := by
  have hlen : tb.toList.length ≤ st.bands.heap.bound := by
    rw [CTree.toList_length]
    exact hs.bands.valid.lt_bound.le
  obtain ⟨mem',h1,h2,_,h4⟩ := hs.updateBandsLoop fn _ (List.nil_append _).symm hlen
  refine ⟨{ st with mem := mem' },?_,h2,fun b hb => ?_⟩
  · simp only [BandedRegion.updateValues, hs.bands.valid.lowestNodeRaw, bind, Except.bind]
    exact h1
  · obtain ⟨x,hx,rfl⟩ := List.mem_map.mp hb
    exact h4 x hx

/-- `update_values` with a function of the value. -/
theorem Sound.updateValues (g : V → V) (hs : Sound st tb []) :
    ∃ st', st.updateValues (fun _ => g) = .ok st' ∧ Sound st' tb [] ∧ ∀ p, st'.value p = (st.value p).map g := by
  obtain ⟨st',h1,h2,h3⟩ := hs.updateValues_regs fun _ => g
  refine ⟨st',h1,h2,fun p => ?_⟩
  rw [h2.value_eq, hs.value_eq, rows, rows]
  cases hd : denote bandView tb p.y with
  | none => rfl
  | some r =>
    obtain ⟨b,hb,_,rfl⟩ := hs.bands.wf.lookup_eq_some.mp hd
    have hrow : row st'.mem b.regions = fun x => (row st.mem b.regions x).map g := by
      rw [row_eq_lookup, h3 b hb]
      exact lookup_withValue g _
    exact congrFun hrow p.x

end Lilith.Draw
