import Lilith.Draw.Runs

/-! Regions with the same points are the same list of bands after `coalesce`, provided that no band without regions is
stored. The last part of `update` stores a band without asking whether it has regions; the other places do ask. -/
namespace Lilith.Draw
open Theory PtrGraph CTree Rbtree

variable {V : Type} {st : BandedRegion V} {tb : CTree (ℕ × Band)} {rect : Rect} {f : Option V → Option V}

/-- Every stored band has regions. -/
def Full (ls : List (Line V)) : Prop := ∀ l ∈ ls, l.regions ≠ []

/-- Points without a value get one, or the last line of the rectangle has a point with a value. -/
def FillsLastLine (st : BandedRegion V) (rect : Rect) (f : Option V → Option V) : Prop :=
  f none ≠ none ∨ ∃ x, st.value ⟨x,rect.br.y - 1⟩ ≠ none

lemma full_iff (hs : Sound st tb []) : Full st.lineList ↔ ∀ y, lines st.mem tb y ≠ some [] := by
  rw [hs.lineList_eq]
  constructor
  · intro h y hl
    obtain ⟨r,hr,hnil⟩ := Option.map_eq_some_iff.mp hl
    obtain ⟨b,hb,_,rfl⟩ := hs.bands.wf.lookup_eq_some.mp hr
    exact h (b.line st.mem) (List.mem_map_of_mem hb) hnil
  · intro h l hl hnil
    obtain ⟨b,hb,rfl⟩ := List.mem_map.mp hl
    apply h b.yStart
    rw [hs.laid.lines_of_mem hb le_rfl (hs.bands.wf.proper b hb)]
    exact congrArg some hnil

lemma lines_ne_none (hs : Sound st tb []) {p : Point} (h : st.value p ≠ none) : lines st.mem tb p.y ≠ none := by
  intro hn
  rw [hs.value_eq, rows_eq_lookup, hn] at h
  exact h rfl

/-- An update stores no band without regions exactly when it fills the last line. -/
lemma Sound.update_full (hs : Sound st tb []) (hfull : Full st.lineList) (hrect : rect.isEmpty = false) :
    ∃ st' tb', st.update rect f = .ok st' ∧ Sound st' tb' [] ∧ (Full st'.lineList ↔ FillsLastLine st rect f) := by
  obtain ⟨hx,hy⟩ := rect.proper hrect
  obtain ⟨st',tb',stop,h1,h2,h3⟩ := hs.update_lines (f := f) hx hy
  rw [full_iff hs] at hfull
  refine ⟨st',tb',h1,h2,?_⟩
  rw [full_iff h2]
  constructor
  · intro hall
    by_contra hno
    rw [FillsLastLine, not_or, not_not, not_exists] at hno
    -- the last line is behind all bands of the rectangle, and stored without regions
    have hlast : lines st.mem tb (rect.br.y - 1) = none := by
      cases hl : lines st.mem tb (rect.br.y - 1) with
      | none => rfl
      | some xs =>
        cases xs with
        | nil => exact absurd hl (hfull _)
        | cons r xs =>
          have hw := hs.wfLines (rect.br.y - 1) _ _ le_rfl hl
          have hv := hno.2 r.xStart
          rw [not_not, hs.value_eq, rows_eq_lookup] at hv
          simp only [hl, Option.getD_some] at hv
          have hr : regionView.lookup (r :: xs) r.xStart = some r.value :=
            hw.lookup_of_mem List.mem_cons_self ⟨le_rfl,hw.proper r List.mem_cons_self⟩
          simp [hr] at hv
    have hempty : ∀ ys, Pointwise rect f [] ys → ys = [] := by
      intro ys hys
      cases ys with
      | nil => rfl
      | cons r ys =>
        have hl := hys.1.lookup_of_mem List.mem_cons_self ⟨le_rfl,hys.1.proper r List.mem_cons_self⟩
        rw [hys.2, mapOn] at hl
        split_ifs at hl
        · rw [SpanView.lookup_nil, hno.1] at hl
          simp at hl
        · simp [SpanView.lookup_nil] at hl
    by_cases hstop : rect.br.y - 1 < stop
    · exact h3.last (by omega) hlast
    · obtain ⟨_,ys,h4,h5⟩ := h3.behind (rect.br.y - 1) (by omega) (by omega) (not_lt.mp hstop)
      rw [hempty ys h4] at h5
      exact hall _ h5
  · rintro hfill y hl
    by_cases hin : rect.tl.y ≤ y ∧ y < rect.br.y
    · by_cases hstop : y < stop
      · obtain ⟨ys,_,h5⟩ := h3.inside y hin.1 hin.2 hstop
        exact stored_ne_nil ys (h5.symm.trans hl)
      · rcases hfill with hf | ⟨x,hx'⟩
        · obtain ⟨_,ys,h5,h6⟩ := h3.behind y hin.1 hin.2 (not_lt.mp hstop)
          obtain rfl : ys = [] := Option.some.inj (h6.symm.trans hl)
          have hcol := congrFun h5.2 rect.tl.x
          rw [mapOn, if_pos ⟨le_rfl,hx⟩, SpanView.lookup_nil] at hcol
          exact hf hcol.symm
        · obtain ⟨h4,_⟩ := h3.behind (rect.br.y - 1) (by omega) (by omega) (by omega)
          exact lines_ne_none hs hx' h4
    · rw [h3.outside y (by omega)] at hl
      exact hfull y hl

section Lists
variable {ls ls' : List (Line V)}

lemma Region.eq_of_map {xs ys : List (Region V)} (h : xs.map (fun x => (regionView.lo x,regionView.hi x,regionView.val x)) =
    ys.map fun x => (regionView.lo x,regionView.hi x,regionView.val x)) : xs = ys := by
  refine List.map_injective_iff.mpr (fun x y hxy => ?_) h
  obtain ⟨h1,h2⟩ := Prod.mk.inj hxy
  obtain ⟨h2,h3⟩ := Prod.mk.inj h2
  cases x
  cases y
  simp only [Region.mk.injEq]
  exact ⟨h1,h2,h3⟩

lemma Line.eq_of_map (h : ls.map (fun x => (lineView.lo x,lineView.hi x,lineView.val x)) =
    ls'.map fun x => (lineView.lo x,lineView.hi x,lineView.val x)) : ls = ls' := by
  refine List.map_injective_iff.mpr (fun x y hxy => ?_) h
  obtain ⟨h1,h2⟩ := Prod.mk.inj hxy
  obtain ⟨h2,h3⟩ := Prod.mk.inj h2
  cases x
  cases y
  simp only [Line.mk.injEq]
  exact ⟨h1,h2,h3⟩

lemma Settled.maximal_getD (hm : Settled ls) (h : SoundLines ls) (y : ℤ) :
    regionView.Maximal ((lineView.lookup ls y).getD []) := by
  cases hl : lineView.lookup ls y with
  | none => exact fun x hx => absurd hx List.not_mem_nil
  | some xs =>
    obtain ⟨l,hmem,_,rfl⟩ := h.bands.lookup_eq_some.mp hl
    exact hm.regions l hmem

lemma Full.lookup_ne (hf : Full ls) (h : SoundLines ls) (y : ℤ) : lineView.lookup ls y ≠ some [] := by
  intro hl
  obtain ⟨l,hmem,_,hnil⟩ := h.bands.lookup_eq_some.mp hl
  exact hf l hmem hnil

/-- The longest bands of the longest regions with given values, none of them without regions, are determined by the
values. -/
theorem Settled.unique (h : SoundLines ls) (h' : SoundLines ls') (hm : Settled ls) (hm' : Settled ls')
    (hf : Full ls) (hf' : Full ls') (he : lineValue ls = lineValue ls') : ls = ls' := by
  have hlook : lineView.lookup ls = lineView.lookup ls' := by
    funext y
    have hrow : regionView.lookup ((lineView.lookup ls y).getD []) = regionView.lookup ((lineView.lookup ls' y).getD []) :=
      funext fun x => congrFun he ⟨x,y⟩
    have hlist := Region.eq_of_map (SpanView.Maximal.unique (h.wf_getD y) (h'.wf_getD y) (hm.maximal_getD h y)
      (hm'.maximal_getD h' y) hrow)
    have hne := hf.lookup_ne h y
    have hne' := hf'.lookup_ne h' y
    cases hl : lineView.lookup ls y with
    | none =>
      cases hl' : lineView.lookup ls' y with
      | none => rfl
      | some xs =>
        rw [hl, hl'] at hlist
        exact absurd (hl'.trans (congrArg some hlist.symm)) hne'
    | some xs =>
      cases hl' : lineView.lookup ls' y with
      | none =>
        rw [hl, hl'] at hlist
        exact absurd (hl.trans (congrArg some hlist)) hne
      | some ys =>
        rw [hl, hl'] at hlist
        exact congrArg some hlist
  exact Line.eq_of_map (SpanView.Maximal.unique h.bands h'.bands hm.bands hm'.bands hlook)

/-- Bands with regions have points with values. -/
lemma Full.eq_nil (hf : Full ls) (h : SoundLines ls) (hno : ∀ p, lineValue ls p = none) : ls = [] := by
  cases ls with
  | nil => rfl
  | cons l ls =>
    cases hr : l.regions with
    | nil => exact absurd hr (hf l List.mem_cons_self)
    | cons r rs =>
      have hw := h.regions l List.mem_cons_self
      have hl : lineView.lookup (l :: ls) l.yStart = some l.regions :=
        h.bands.lookup_of_mem List.mem_cons_self ⟨le_rfl,h.bands.proper l List.mem_cons_self⟩
      have hv : regionView.lookup l.regions r.xStart = some r.value :=
        hw.lookup_of_mem (hr ▸ List.mem_cons_self) ⟨le_rfl,hw.proper r (hr ▸ List.mem_cons_self)⟩
      have hp := hno ⟨r.xStart,l.yStart⟩
      simp only [lineValue, hl, Option.getD_some, hv] at hp
      simp at hp

end Lists

section Coalescing
variable [DecidableEq V] {st1 st2 : BandedRegion V}

lemma glueFrom_ne_nil {T : Type} (glue : T → T → Option T) (x : T) (xs : List T) : SpanView.glueFrom glue x xs ≠ [] := by
  induction xs generalizing x with
  | nil => simp [SpanView.glueFrom]
  | cons y ys ih =>
    unfold SpanView.glueFrom
    split
    · exact ih _
    · simp

/-- Joining leaves no band without regions. -/
lemma Full.coalesce {ls : List (Line V)} (hf : Full ls) : Full (SpanView.glueAll Line.merge (ls.map Line.coalesced)) := by
  intro l hl
  obtain ⟨k,hk,he⟩ := mem_coalesced hl
  rw [he]
  cases hr : k.regions with
  | nil => exact absurd hr (hf k hk)
  | cons r rs => exact glueFrom_ne_nil _ r rs

/-- The regions that runs build in which every update fills its last line. -/
inductive Filled : BandedRegion V → Prop
  | new (heap : Heap Band Unit) (mem : Heap (Region V) Unit) : Filled (.new heap mem)
  | update {st st' : BandedRegion V} {rect : Rect} (f : Option V → Option V) (h : Filled st)
      (hrect : rect.isEmpty = false) (hfill : FillsLastLine st rect f) (hrun : st.update rect f = .ok st') : Filled st'
  | insert {st st' : BandedRegion V} {rect : Rect} {value : V} (h : Filled st)
      (hrect : rect.isEmpty = false) (hrun : st.insert rect value = .ok st') : Filled st'
  | remove {st st' : BandedRegion V} {rect : Rect} (h : Filled st) (hrect : rect.isEmpty = false)
      (hfill : ∃ x, st.value ⟨x,rect.br.y - 1⟩ ≠ none) (hrun : st.remove rect = .ok st') : Filled st'
  | drain {st st' : BandedRegion V} {boundary : Rect} {steps : ℕ} {items : List (Option (Rect × V))}
      {rest : List (Rect × V)} (h : Filled st) (hrun : st.drainDropped boundary steps = .ok (items,rest,st')) :
      Filled st'

/-- What these runs keep. -/
def SoundFull (st : BandedRegion V) : Prop := (∃ tb, Sound st tb []) ∧ Full st.lineList

omit [DecidableEq V] in
lemma SoundFull.update (h : SoundFull st) (hrect : rect.isEmpty = false) (hfill : FillsLastLine st rect f)
    {st' : BandedRegion V} (hrun : st.update rect f = .ok st') : SoundFull st' := by
  obtain ⟨⟨tb,hs⟩,hfull⟩ := h
  obtain ⟨st2,tb2,h1,h2,h3⟩ := hs.update_full (f := f) hfull hrect
  obtain rfl := Except.ok.inj (h1.symm.trans hrun)
  exact ⟨⟨tb2,h2⟩,h3.mpr hfill⟩

omit [DecidableEq V] in
/-- A rectangle that an iterator takes out has values on its last line. -/
lemma kept_soundFull (boundary : Rect) : Kept (SoundFull (V := V)) boundary := by
  intro st st' item h hyield hrun
  obtain ⟨hx,hy⟩ := item.1.proper hyield.proper
  refine h.update hyield.proper (Or.inr ⟨item.1.tl.x,?_⟩) hrun
  have hin : item.1.Contains ⟨item.1.tl.x,item.1.br.y - 1⟩ := ⟨le_rfl,hx,by simp only; omega,by simp only; omega⟩
  rw [hyield.uniform _ hin]
  simp

lemma Filled.soundFull (h : Filled st) : SoundFull st := by
  induction h with
  | new heap mem => exact ⟨⟨leaf,sound_new heap mem⟩,by rw [(sound_new heap mem).lineList_eq]; simp [Full, values]⟩
  | update f h hrect hfill hrun ih => exact ih.update hrect hfill hrun
  | insert h hrect hrun ih => exact ih.update hrect (Or.inl (by simp)) hrun
  | remove h hrect hfill hrun ih => exact ih.update hrect (Or.inr hfill) hrun
  | drain h hrun ih =>
    obtain ⟨tb,hs⟩ := ih.1
    obtain ⟨items,rest,st1,tb1,h1,_,_,h3⟩ := hs.drainDropped _ _ (kept_soundFull _) ih
    obtain ⟨_,_,rfl⟩ := Prod.mk.injEq .. ▸ Except.ok.inj (h1.symm.trans hrun)
    exact h3

/-- After `coalesce`, two regions that such runs built and that have the same points have the same bands, none of them
without regions; so a region without points has no bands. -/
theorem coalesce_canonical (h1 : Filled st1) (h2 : Filled st2) (he : ∀ p, st1.value p = st2.value p) :
    ∃ st1' st2', st1.coalesce = .ok st1' ∧ st2.coalesce = .ok st2' ∧ st1'.lineList = st2'.lineList ∧
      (∀ l ∈ st1.lineList, l.regions ≠ []) ∧ (∀ l ∈ st1'.lineList, l.regions ≠ []) ∧
      ((∀ p, st1.value p = none) → st1'.lineList = []) := by
  obtain ⟨⟨tb1,hs1⟩,hf1⟩ := h1.soundFull
  obtain ⟨⟨tb2,hs2⟩,hf2⟩ := h2.soundFull
  obtain ⟨st1',tb1',hr1,hs1',hl1⟩ := hs1.coalesce
  obtain ⟨st2',tb2',hr2,hs2',hl2⟩ := hs2.coalesce
  obtain ⟨ha1,hb1,hc1⟩ := hs1.soundLines.coalesce
  obtain ⟨ha2,hb2,hc2⟩ := hs2.soundLines.coalesce
  have hd1 := hf1.coalesce
  have hd2 := hf2.coalesce
  have hval : lineValue st1.lineList = lineValue st2.lineList := funext fun p => by
    rw [hs1.lineValue_eq, hs2.lineValue_eq, he]
  refine ⟨st1',st2',hr1,hr2,?_,hf1,hl1 ▸ hd1,fun hno => ?_⟩
  · rw [hl1, hl2]
    exact hb1.unique ha1 ha2 hb2 hd1 hd2 (hc1.trans (hval.trans hc2.symm))
  · rw [hl1]
    refine hd1.eq_nil ha1 fun p => ?_
    rw [hc1, hs1.lineValue_eq, hno]

/-- A rectangle is inserted and removed again. -/
theorem coalesce_canonical_emptied : ∃ st1 st : BandedRegion ℕ,
    (BandedRegion.new ⟨[]⟩ ⟨[]⟩).insert ⟨⟨0,0⟩,⟨4,4⟩⟩ 7 = .ok st1 ∧ st1.remove ⟨⟨0,0⟩,⟨4,4⟩⟩ = .ok st ∧
    ∃ st' new', st.coalesce = .ok st' ∧ (BandedRegion.new ⟨[]⟩ ⟨[]⟩ : BandedRegion ℕ).coalesce = .ok new' ∧
      st'.lineList = new'.lineList ∧ (∀ l ∈ st.lineList, l.regions ≠ []) ∧ (∀ l ∈ st'.lineList, l.regions ≠ []) ∧
      ((∀ p, st.value p = none) → st'.lineList = []) := by
  have hrect : Rect.isEmpty ⟨⟨0,0⟩,⟨4,4⟩⟩ = false := by decide
  obtain ⟨st1,tb1,h1,hs1,hv1⟩ := (sound_new (V := ℕ) ⟨[]⟩ ⟨[]⟩).update_value hrect fun _ => some 7
  obtain ⟨st,tb,h2,_,hv2⟩ := hs1.update_value hrect fun _ => none
  have hlast : ∃ x, st1.value ⟨x,4 - 1⟩ ≠ none := by
    refine ⟨0,?_⟩
    rw [hv1, if_pos (by decide)]
    simp
  refine ⟨st1,st,h1,h2,coalesce_canonical (.remove (.insert (.new ⟨[]⟩ ⟨[]⟩) hrect h1) hrect hlast h2)
    (.new ⟨[]⟩ ⟨[]⟩) fun p => ?_⟩
  rw [hv2]
  split_ifs with hp
  · rfl
  · rw [hv1, if_neg hp]

/-- Removing a rectangle from a region without points stores a band without regions, which `coalesce` keeps. -/
theorem coalesce_not_canonical : ¬ ∀ st1 st2 : BandedRegion ℕ, Reachable st1 → Reachable st2 →
    (∀ p, st1.value p = st2.value p) → ∃ st1' st2', st1.coalesce = .ok st1' ∧ st2.coalesce = .ok st2' ∧
      st1'.lineList = st2'.lineList := by
  intro h
  have hrect : Rect.isEmpty ⟨⟨0,0⟩,⟨1,1⟩⟩ = false := by decide
  obtain ⟨st,tb,h1,_,hv⟩ := (sound_new (V := ℕ) ⟨[]⟩ ⟨[]⟩).update_value hrect fun _ => none
  have hrun : (BandedRegion.new ⟨[]⟩ ⟨[]⟩ : BandedRegion ℕ).remove ⟨⟨0,0⟩,⟨1,1⟩⟩ =
      .ok ⟨⟨⟨[some ⟨.red,none,none,none,⟨0,1,none⟩,some ()⟩]⟩,some 0⟩,⟨[]⟩⟩ := by rfl
  obtain rfl := Except.ok.inj (h1.symm.trans hrun)
  obtain ⟨st1',st2',h2,h3,h4⟩ := h _ _ (.new ⟨[]⟩ ⟨[]⟩) (.remove (.new ⟨[]⟩ ⟨[]⟩) hrect h1) fun p => by
    rw [hv]
    split_ifs <;> rfl
  have hc1 : (BandedRegion.new ⟨[]⟩ ⟨[]⟩ : BandedRegion ℕ).coalesce = .ok (.new ⟨[]⟩ ⟨[]⟩) := by rfl
  have hc2 : (⟨⟨⟨[some ⟨.red,none,none,none,⟨0,1,none⟩,some ()⟩]⟩,some 0⟩,⟨[]⟩⟩ : BandedRegion ℕ).coalesce =
      .ok ⟨⟨⟨[some ⟨.red,none,none,none,⟨0,1,none⟩,some ()⟩]⟩,some 0⟩,⟨[]⟩⟩ := by rfl
  obtain rfl := Except.ok.inj (hc1.symm.trans h2)
  obtain rfl := Except.ok.inj (hc2.symm.trans h3)
  exact absurd h4 (by decide)

end Coalescing
end Lilith.Draw
