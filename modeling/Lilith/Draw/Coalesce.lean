import Lilith.Draw.Values

/-! `coalesce` joins the touching regions of equal values in every band, and then the touching bands with equal
regions. What it does to the lists of bands and regions is joining of neighbours, so the result is the list of
the longest intervals with the same map. -/
namespace Lilith.Draw
open Rbtree

section Model
variable {V : Type} [DecidableEq V]

/-- The merge function of `Band::coalesce`. -/
def Region.merge (left right : Region V) : Option (Region V) :=
  if left.xEnd = right.xStart ∧ left.value = right.value then some { left with xEnd := right.xEnd } else none

/-- `Band::coalesce`, on the regions of the band. -/
def Regions.coalesce (self : Regions V) : Except Fault (Regions V) :=
  self.pairwiseMerge fun left right => .ok (left.merge right)

/-- The merge function of `coalesce`. -/
def Band.merge (mem : Heap (Region V) Unit) (left right : Band) : Except Fault (Option Band) :=
  if left.yEnd = right.yStart then do
    if ← mem.treeEq left.regions right.regions then return some { left with yEnd := right.yEnd } else return none
  else return none

/-- The loop of `update_values` of the tree of bands, with `Band::coalesce`. -/
def BandedRegion.coalesceBandsLoop : ℕ → BandedRegion V → Ptr → Except Fault (BandedRegion V)
  | _, self, none => .ok self
  | 0, _, some _ => .error .diverge
  | fuel+1, self, some node => do
    let band := (← self.bands.heap.deref (some node)).value
    let regions ← (self.regionsOf band).coalesce
    let heap ← self.bands.heap.setValue node { band with regions := regions.head }
    coalesceBandsLoop fuel ⟨⟨heap,self.bands.head⟩,regions.heap⟩ (← heap.successor (some node))

def BandedRegion.coalesce (self : BandedRegion V) : Except Fault (BandedRegion V) := do
  let self ← coalesceBandsLoop self.bands.heap.bound self (← self.bands.lowestNodeRaw)
  return { self with bands := ← self.bands.pairwiseMerge (Band.merge self.mem) }

end Model

/-- A band with the list of its regions. -/
structure Line (V : Type) where
  yStart : ℤ
  yEnd : ℤ
  regions : List (Region V)
  deriving DecidableEq, Repr

open Theory PtrGraph CTree

variable {V : Type} {st : BandedRegion V} {tb : CTree (ℕ × Band)} {mem : Heap (Region V) Unit} {p : Ptr} {ps : List Ptr}

/-- Bands as intervals, with their regions. -/
def lineView : SpanView ℤ (Line V) (List (Region V)) := ⟨Line.yStart,Line.yEnd,Line.regions⟩

def Band.line (mem : Heap (Region V) Unit) (band : Band) : Line V := ⟨band.yStart,band.yEnd,regs mem band.regions⟩

/-- The bands of a banded region with their regions, from top to bottom. -/
def BandedRegion.lineList (self : BandedRegion V) : List (Line V) :=
  (values self.bands.toTree).map (Band.line self.mem)

/-- The value at a point of a list of bands. -/
def lineValue (ls : List (Line V)) (p : Point) : Option V :=
  regionView.lookup ((lineView.lookup ls p.y).getD []) p.x

lemma lookup_line (mem : Heap (Region V) Unit) (bs : List Band) (y : ℤ) :
    lineView.lookup (bs.map (Band.line mem)) y = (bandView.lookup bs y).map (regs mem) := by
  simp only [SpanView.lookup, List.find?_map, Option.map_map]
  rfl

lemma wf_line (mem : Heap (Region V) Unit) {bs : List Band} : lineView.WF (bs.map (Band.line mem)) ↔ bandView.WF bs := by
  constructor
  · intro h
    exact ⟨List.pairwise_map.mp h.spaced,fun x hx => h.proper (x.line mem) (List.mem_map_of_mem hx)⟩
  · intro h
    refine ⟨List.pairwise_map.mpr h.spaced,fun x hx => ?_⟩
    obtain ⟨b,hb,rfl⟩ := List.mem_map.mp hx
    exact h.proper b hb

/-- Sorted, disjoint bands that are not empty, each with sorted, disjoint regions that are not empty. -/
structure SoundLines (ls : List (Line V)) : Prop where
  bands : lineView.WF ls
  regions : ∀ l ∈ ls, regionView.WF l.regions

lemma Sound.lineList_eq (h : Sound st tb []) : st.lineList = (values tb).map (Band.line st.mem) := by
  rw [BandedRegion.lineList, h.toTree_eq]

lemma Sound.soundLines (h : Sound st tb []) : SoundLines st.lineList := by
  rw [h.lineList_eq]
  refine ⟨(wf_line _).mpr h.bands.wf,fun l hl => ?_⟩
  obtain ⟨b,hb,rfl⟩ := List.mem_map.mp hl
  exact (h.owned.trees _ (List.mem_map_of_mem hb)).wf

lemma Sound.lineValue_eq (h : Sound st tb []) (p : Point) : lineValue st.lineList p = st.value p := by
  rw [h.value_eq, rows_eq_lookup, h.lineList_eq, lineValue, lookup_line]
  rfl

section Merging
variable [DecidableEq V]

lemma glues_region : regionView.Glues (Region.merge (V := V)) := by
  refine ⟨fun {x y z} hz => ?_,fun {x y z} hz => ?_,fun {x y} hz ht => ?_⟩
  · unfold Region.merge at hz
    split_ifs at hz with hc
    exact hc
  · unfold Region.merge at hz
    split_ifs at hz with hc
    obtain rfl := Option.some.inj hz
    exact ⟨rfl,rfl,rfl⟩
  · unfold Region.merge at hz
    split_ifs at hz with hc
    exact fun hv => hc ⟨ht,hv⟩

/-- The merge function of `coalesce`, on bands with their regions. -/
def Line.merge (left right : Line V) : Option (Line V) :=
  if left.yEnd = right.yStart ∧ left.regions = right.regions then some { left with yEnd := right.yEnd } else none

lemma glues_line : lineView.Glues (Line.merge (V := V)) := by
  refine ⟨fun {x y z} hz => ?_,fun {x y z} hz => ?_,fun {x y} hz ht => ?_⟩
  · unfold Line.merge at hz
    split_ifs at hz with hc
    exact hc
  · unfold Line.merge at hz
    split_ifs at hz with hc
    obtain rfl := Option.some.inj hz
    exact ⟨rfl,rfl,rfl⟩
  · unfold Line.merge at hz
    split_ifs at hz with hc
    exact fun hv => hc ⟨ht,hv⟩

/-- The merge of two bands, as a function of their region lists. -/
def Band.glue (mem : Heap (Region V) Unit) (left right : Band) : Option Band :=
  if left.yEnd = right.yStart ∧ regs mem left.regions = regs mem right.regions then some { left with yEnd := right.yEnd }
  else none

lemma line_glue (mem : Heap (Region V) Unit) (x y : Band) :
    (x.line mem).merge (y.line mem) = (x.glue mem y).map (Band.line mem) := by
  unfold Line.merge Band.glue Band.line
  split_ifs <;> rfl

lemma Held.merge (h : Held mem ps) {x y : Band} (hx : x.regions ∈ ps) (hy : y.regions ∈ ps) :
    x.merge mem y = .ok (x.glue mem y) := by
  unfold Band.merge Band.glue
  by_cases ht : x.yEnd = y.yStart
  · have heq : mem.treeEq x.regions y.regions = .ok (decide (regs mem x.regions = regs mem y.regions)) :=
      treeEq_ok (h.trees _ hx) (h.trees _ hy)
    rw [if_pos ht, heq]
    by_cases he : regs mem x.regions = regs mem y.regions
    · rw [if_pos ⟨ht,he⟩]
      simp only [bind, Except.bind]
      rw [if_pos (decide_eq_true he)]
      rfl
    · rw [if_neg fun hc => he hc.2]
      simp only [bind, Except.bind]
      rw [if_neg (by rw [decide_eq_false he]; simp)]
      rfl
  · rw [if_neg ht, if_neg fun hc => ht hc.1]
    rfl

/-- `Band::coalesce` of one of the region trees. -/
lemma Held.coalesce (h : Held mem (p :: ps)) : ∃ mem' q, Regions.coalesce ⟨mem,p⟩ = .ok ⟨mem',q⟩ ∧ Held mem' (q :: ps) ∧
    (∀ r ∈ ps, regs mem' r = regs mem r) ∧ regs mem' q = SpanView.glueAll Region.merge (regs mem p) := by
  obtain ⟨⟨mem',q⟩,t',h1,h2,h3,h4⟩ := RbTree.Valid.pairwiseMerge (P := fun _ => True)
    (fun x y _ _ => (rfl : (Except.ok (x.merge y) : Except Fault _) = _)) (fun _ _ _ _ _ _ => trivial)
    (h.trees p List.mem_cons_self) (fun _ _ => trivial)
  obtain ⟨h5,h6,h7⟩ := h.replace h2 h4
  exact ⟨mem',q,h1,h5,h6,h7.trans h3⟩

/-- A band after `Band::coalesce`. -/
def Line.coalesced (line : Line V) : Line V := { line with regions := SpanView.glueAll Region.merge line.regions }

/-- The loop over the bands. -/
lemma Sound.coalesceBandsLoop (fuel : ℕ) (hs : Sound st tb []) {before after : List (ℕ × Band)}
    (hb : tb.toList = before ++ after) (hf : after.length ≤ fuel) :
    ∃ st' tb', BandedRegion.coalesceBandsLoop fuel st (after.head?.map Prod.fst) = .ok st' ∧ Sound st' tb' [] ∧
      st'.lineList = before.map (fun b => b.2.line st.mem) ++ after.map fun b => (b.2.line st.mem).coalesced := by
  induction after generalizing st tb before fuel with
  | nil =>
    refine ⟨st,tb,by cases fuel <;> rfl,hs,?_⟩
    rw [hs.lineList_eq, values, hb]
    simp
  | cons b after ih =>
    cases fuel with
    | zero => simp at hf
    | succ fuel =>
      obtain ⟨n,_,hn,hnv,_⟩ := hs.bands.valid.node_of_mem (show b ∈ tb.toList by rw [hb]; simp)
      have hperm : ((values tb).map Band.regions).Perm
          (b.2.regions :: (before ++ after).map fun x => x.2.regions) := by
        rw [values_eq_append hb]
        simp only [List.map_cons, List.map_append, List.map_map, Function.comp_def]
        exact List.perm_middle
      have hwf : ∀ q ∈ (values tb).map Band.regions, regionView.WF (regs st.mem q) := fun q hq =>
        (hs.owned.trees q hq).wf
      obtain ⟨mem1,q,h1,h2,h3,h4⟩ := (hs.owned.held.perm hperm).coalesce
      obtain ⟨heap,tb1,h5,h6,h7,_⟩ := hs.bands.setValue hb (w := { b.2 with regions := q }) rfl rfl
      have hperm1 : ((values tb1).map Band.regions).Perm (q :: (before ++ after).map fun x => x.2.regions) := by
        rw [values_eq_append h7]
        simp only [List.map_cons, List.map_append, List.map_map, Function.comp_def]
        exact List.perm_middle
      have hs1 : Sound ⟨⟨heap,st.bands.head⟩,mem1⟩ tb1 [] := by
        refine ⟨h6,(h2.perm hperm1.symm).owned fun r hr => ?_⟩
        rcases List.mem_cons.mp (hperm1.mem_iff.mp hr) with rfl | hr'
        · rw [h4]
          exact (glues_region.glueAll_ok (hwf _ (hperm.mem_iff.mpr (by simp)))).1
        · rw [h3 r hr']
          exact hwf r (hperm.mem_iff.mpr (List.mem_cons_of_mem _ hr'))
      have hsplit : tb1.toList = (before ++ [(b.1,{ b.2 with regions := q })]) ++ after := by rw [h7]; simp
      have hsucc : heap.successor (some b.1) = .ok (after.head?.map Prod.fst) :=
        Focus.successor (x := (b.1,{ b.2 with regions := q })) h6.valid.focus h7
      obtain ⟨st2,tb2,h8,h9,h10⟩ := ih fuel hs1 hsplit (by simpa using hf)
      refine ⟨st2,tb2,?_,h9,?_⟩
      · simp only [List.head?_cons, Option.map_some, BandedRegion.coalesceBandsLoop, deref_eq hn, hnv, bind,
          Except.bind, BandedRegion.regionsOf, h1, h5, hsucc]
        exact h8
      · have hkeep : ∀ x ∈ before ++ after, x.2.line mem1 = x.2.line st.mem := fun x hx => by
          rw [Band.line, h3 _ (List.mem_map_of_mem hx)]
          rfl
        rw [h10, List.map_append, List.map_congr_left fun x hx => hkeep x (List.mem_append_left _ hx),
          List.map_congr_left fun x hx => congrArg Line.coalesced (hkeep x (List.mem_append_right _ hx))]
        simp [Band.line, Line.coalesced, h4]

/-- `coalesce` joins neighbours in the lists of bands and regions. -/
theorem Sound.coalesce (hs : Sound st tb []) : ∃ st' tb', st.coalesce = .ok st' ∧ Sound st' tb' [] ∧
    st'.lineList = SpanView.glueAll Line.merge (st.lineList.map Line.coalesced) := by
  have hlen : tb.toList.length ≤ st.bands.heap.bound := by
    rw [CTree.toList_length]
    exact hs.bands.valid.lt_bound.le
  obtain ⟨st1,tb1,h1,h2,h3⟩ := hs.coalesceBandsLoop _ (List.nil_append _).symm hlen
  have hheld := h2.owned.held
  obtain ⟨bands,tb2,h4,h5,h6,_⟩ := RbTree.Valid.pairwiseMerge
    (P := fun b => b.regions ∈ (values tb1).map Band.regions)
    (fun x y hx hy => (hheld.merge hx hy : x.merge st1.mem y = .ok (x.glue st1.mem y)))
    (fun x y z hx _ hz => by
      unfold Band.glue at hz
      split_ifs at hz
      obtain rfl := Option.some.inj hz
      exact hx) h2.bands.valid fun b hb => List.mem_map_of_mem hb
  have hlines : (values tb2).map (Band.line st1.mem) = SpanView.glueAll Line.merge st1.lineList := by
    rw [h2.lineList_eq, h6, SpanView.glueAll_map (Band.line st1.mem) (line_glue st1.mem)]
  have hsub : ((values tb2).map Band.regions).Sublist ((values tb1).map Band.regions) := by
    rw [h6]
    refine SpanView.glueAll_sublist Band.regions (fun x y z hz => ?_) _
    unfold Band.glue at hz
    split_ifs at hz
    obtain rfl := Option.some.inj hz
    rfl
  have hs2 : Sound { st1 with bands := bands } tb2 [] := by
    refine ⟨⟨h5,?_⟩,(hheld.sublist hsub).owned fun r hr => (h2.owned.trees r (hsub.subset hr)).wf⟩
    rw [← wf_line st1.mem, hlines]
    exact (glues_line.glueAll_ok h2.soundLines.bands).1
  refine ⟨{ st1 with bands := bands },tb2,?_,hs2,?_⟩
  · simp only [BandedRegion.coalesce, hs.bands.valid.lowestNodeRaw, bind, Except.bind, h1, h4]
    rfl
  · rw [hs2.lineList_eq, hlines, h3, hs.lineList_eq]
    simp [values, Function.comp_def]

/-- Nothing can be joined. -/
structure Settled (ls : List (Line V)) : Prop where
  bands : lineView.Maximal ls
  regions : ∀ l ∈ ls, regionView.Maximal l.regions

omit [DecidableEq V] in
lemma lookup_map_regions (g : List (Region V) → List (Region V)) (ls : List (Line V)) (y : ℤ) :
    lineView.lookup (ls.map fun l => { l with regions := g l.regions }) y = (lineView.lookup ls y).map g := by
  simp only [SpanView.lookup, List.find?_map, Option.map_map]
  rfl

omit [DecidableEq V] in
lemma SoundLines.wf_getD {ls : List (Line V)} (h : SoundLines ls) (y : ℤ) :
    regionView.WF ((lineView.lookup ls y).getD []) := by
  cases hl : lineView.lookup ls y with
  | none => exact SpanView.WF.nil
  | some xs =>
    obtain ⟨l,hmem,_,rfl⟩ := h.bands.lookup_eq_some.mp hl
    exact h.regions l hmem

/-- The regions of a joint band are the joint ones of one of the bands. -/
lemma mem_coalesced {ls : List (Line V)} {l : Line V} (hl : l ∈ SpanView.glueAll Line.merge (ls.map Line.coalesced)) :
    ∃ k ∈ ls, l.regions = SpanView.glueAll Region.merge k.regions := by
  have hval : ∀ x y z : Line V, x.merge y = some z → z.regions = x.regions := fun x y z hz => (glues_line.joint hz).2.2
  have hsub := SpanView.glueAll_sublist Line.regions hval (ls.map Line.coalesced)
  obtain ⟨k,hk,hkl⟩ := List.mem_map.mp (hsub.subset (List.mem_map_of_mem hl))
  obtain ⟨k',hk',rfl⟩ := List.mem_map.mp hk
  exact ⟨k',hk',hkl.symm⟩

/-- The lists after `coalesce` are the longest bands of the longest regions, with the same values. -/
lemma SoundLines.coalesce {ls : List (Line V)} (h : SoundLines ls) :
    SoundLines (SpanView.glueAll Line.merge (ls.map Line.coalesced)) ∧
    Settled (SpanView.glueAll Line.merge (ls.map Line.coalesced)) ∧
    lineValue (SpanView.glueAll Line.merge (ls.map Line.coalesced)) = lineValue ls := by
  have hwf : lineView.WF (ls.map Line.coalesced) := by
    refine ⟨List.pairwise_map.mpr h.bands.spaced,fun x hx => ?_⟩
    obtain ⟨l,hl,rfl⟩ := List.mem_map.mp hx
    exact h.bands.proper l hl
  obtain ⟨h1,h2,h3⟩ := glues_line.glueAll_ok hwf
  refine ⟨⟨h1,fun l hl => ?_⟩,⟨h3,fun l hl => ?_⟩,funext fun p => ?_⟩
  · obtain ⟨k,hk,he⟩ := mem_coalesced hl
    rw [he]
    exact (glues_region.glueAll_ok (h.regions k hk)).1
  · obtain ⟨k,hk,he⟩ := mem_coalesced hl
    rw [he]
    exact (glues_region.glueAll_ok (h.regions k hk)).2.2
  · have hl : lineView.lookup (ls.map Line.coalesced) p.y =
        (lineView.lookup ls p.y).map (SpanView.glueAll Region.merge) := lookup_map_regions _ ls p.y
    rw [lineValue, h2, hl, lineValue, ← (glues_region.glueAll_ok (h.wf_getD p.y)).2.1]
    cases lineView.lookup ls p.y <;> rfl

/-- `Band::coalesce` of a band of which no regions can be joined. -/
lemma coalesce_same (h : SpanTree regionView (⟨mem,p⟩ : Regions V) (regionTree mem p))
    (hm : regionView.Maximal (regs mem p)) : Regions.coalesce ⟨mem,p⟩ = .ok ⟨mem,p⟩ :=
  RbTree.Valid.pairwiseMerge_same (P := fun _ => True)
    (fun x y _ _ => (rfl : (Except.ok (x.merge y) : Except Fault _) = _)) h.valid (fun _ _ => trivial)
    (hm.isChain_none glues_region h.wf)

lemma Sound.coalesceBandsLoop_same (fuel : ℕ) (hs : Sound st tb []) (hm : Settled st.lineList)
    {before after : List (ℕ × Band)} (hb : tb.toList = before ++ after) (hf : after.length ≤ fuel) :
    BandedRegion.coalesceBandsLoop fuel st (after.head?.map Prod.fst) = .ok st := by
  induction after generalizing before fuel with
  | nil => cases fuel <;> rfl
  | cons b after ih =>
    cases fuel with
    | zero => simp at hf
    | succ fuel =>
      have hbm : b ∈ tb.toList := by rw [hb]; simp
      obtain ⟨n,_,hn,hnv,_⟩ := hs.bands.valid.node_of_mem hbm
      have hmax : regionView.Maximal (regs st.mem b.2.regions) :=
        hm.regions (b.2.line st.mem) (hs.lineList_eq ▸ List.mem_map_of_mem (mem_values hbm))
      have h1 : Regions.coalesce ⟨st.mem,b.2.regions⟩ = .ok ⟨st.mem,b.2.regions⟩ := coalesce_same (hs.regions hbm) hmax
      have h2 : st.bands.heap.setValue b.1 b.2 = .ok st.bands.heap := by
        simp only [Heap.setValue, deref_eq hn, bind, Except.bind, ← hnv]
        exact congrArg Except.ok (Heap.set_self hn)
      have hsucc := hs.bands.valid.successor hb
      have hsplit : tb.toList = (before ++ [b]) ++ after := by rw [hb]; simp
      simp only [List.head?_cons, Option.map_some, BandedRegion.coalesceBandsLoop, deref_eq hn, hnv, bind, Except.bind,
        BandedRegion.regionsOf, h1, h2, hsucc]
      exact ih fuel hsplit (by simpa using hf)

/-- `coalesce` of a region in which nothing can be joined changes nothing. -/
theorem Sound.coalesce_same (hs : Sound st tb []) (hm : Settled st.lineList) : st.coalesce = .ok st := by
  have hlen : tb.toList.length ≤ st.bands.heap.bound := by
    rw [CTree.toList_length]
    exact hs.bands.valid.lt_bound.le
  have h1 := hs.coalesceBandsLoop_same _ hm (List.nil_append _).symm hlen
  have hchain : (values tb).IsChain fun x y => x.glue st.mem y = none := by
    have hc := hm.bands.isChain_none glues_line hs.soundLines.bands
    rw [hs.lineList_eq, List.isChain_map] at hc
    refine hc.imp fun {x y} hxy => ?_
    rw [line_glue] at hxy
    exact Option.map_eq_none_iff.mp hxy
  have h2 : st.bands.pairwiseMerge (Band.merge st.mem) = .ok st.bands := RbTree.Valid.pairwiseMerge_same
    (P := fun b => b.regions ∈ (values tb).map Band.regions)
    (fun x y hx hy => (hs.owned.held.merge hx hy : x.merge st.mem y = .ok (x.glue st.mem y))) hs.bands.valid
    (fun b hb => List.mem_map_of_mem hb) hchain
  simp only [BandedRegion.coalesce, hs.bands.valid.lowestNodeRaw, bind, Except.bind, h1, h2]
  rfl

end Merging
end Lilith.Draw
