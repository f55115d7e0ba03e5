import Lilith.VirtualAlloc.Runs

/-! The mappings of a user address space when some of the mapped ranges are empty. Empty ranges
share no address with others, but a tree of spans may still refuse them. -/
namespace Lilith.VirtualAlloc
open Theory PtrGraph CTree Rbtree

variable {V : Type} {sa sa' : SpanAlloc V} {t : CTree (ℕ × Span V)}

/-- An address is in a range. -/
def Range.Has (r : Range) (a : ℕ) : Prop := r.start ≤ a ∧ a < r.end_

instance (r : Range) (a : ℕ) : Decidable (r.Has a) := inferInstanceAs (Decidable (_ ∧ _))

/-- Two ranges have no address in common. -/
def Range.Apart (r s : Range) : Prop := ∀ a, ¬ (r.Has a ∧ s.Has a)

/-- The range `r` keeps `s` from being added later: `r` is empty and lies at an address of `s`, or
`s` is empty and lies at an address of `r` other than its first. -/
def Range.Blocks (r s : Range) : Prop :=
  (r.start = r.end_ ∧ s.Has r.start) ∨ (s.start = s.end_ ∧ r.start < s.start ∧ s.start < r.end_)

instance (r s : Range) : Decidable (r.Blocks s) := inferInstanceAs (Decidable (_ ∨ _))

def Span.range (x : Span V) : Range := ⟨x.start,x.end_⟩

@[simp] theorem Span.range_mk (r : Range) (value : V) : Span.range ⟨r.start,r.end_,value⟩ = r := rfl

/-- Ranges with no common address meet only where one is empty and inside the other. -/
lemma blocks_of_meets {x : Span V} {r : Range} (hx : x.start ≤ x.end_) (hr : r.start ≤ r.end_)
    (ha : x.range.Apart r) (hm : Meets x r) : x.range.Blocks r := by
  have hno := ha (max x.start r.start)
  simp only [Meets, Range.Has, Range.Blocks, Span.range] at hm hno ⊢
  omega

/-- The summary of a list of ordered spans starts with the smallest address. -/
lemma Ordered.start_le {x : Span V} {xs : List (Span V)} (h : Ordered (x::xs)) :
    ∀ y ∈ x::xs, x.start ≤ y.start := by
  intro y hy
  rcases List.mem_cons.mp hy with rfl | hy
  · exact le_rfl
  · exact (h.le x (by simp)).trans ((List.pairwise_cons.mp h.spaced).1 y hy)

/-- Where the left part of `augment` does not fault, the spans to the left end before the node. -/
lemma le_of_augmentLeft {z : Span V} {xs : List (Span V)} {p : ℕ × ℕ} (h : Ordered xs)
    (hrun : augmentLeft z (summary xs) = .ok p) : ∀ x ∈ xs, x.end_ ≤ z.start := by
  cases xs with
  | nil => simp
  | cons x xs =>
    obtain ⟨hle,_⟩ := checkedSub_bind hrun
    intro y hy
    exact (le_lastEnd h y hy).trans hle

/-- Where the right part of `augment` does not fault, the spans to the right start after the
node. -/
lemma le_of_augmentRight {z : Span V} {ys : List (Span V)} {g : ℕ} {p : ℕ × ℕ} (h : Ordered ys)
    (hrun : augmentRight z g (summary ys) = .ok p) : ∀ y ∈ ys, z.end_ ≤ y.start := by
  cases ys with
  | nil => simp
  | cons y ys =>
    obtain ⟨hle,_⟩ := checkedSub_bind hrun
    intro w hw
    exact hle.trans (h.start_le w hw)

/-- The augment values of a tree of spans can be computed only if its spans are ordered. -/
theorem ordered_of_augOf {w : Option MaxGap} (hle : ∀ x ∈ values t, x.start ≤ x.end_)
    (h : augOf t = .ok w) : Ordered (values t) := by
  induction t generalizing w with
  | leaf => exact ⟨hle,List.Pairwise.nil⟩
  | node c l z r ihl ihr =>
    rw [values_node] at hle ⊢
    unfold augOf at h
    cases hl : augOf (V := MaxGap) l with
    | error f => simp [hl, bind, Except.bind] at h
    | ok wl =>
      cases hr : augOf (V := MaxGap) r with
      | error f => simp [hl, hr, bind, Except.bind] at h
      | ok wr =>
        have hol := ihl (fun x hx => hle x (by simp [hx])) hl
        have hor := ihr (fun x hx => hle x (by simp [hx])) hr
        obtain rfl := Except.ok.inj (hl.symm.trans (augOf_eq_summary hol))
        obtain rfl := Except.ok.inj (hr.symm.trans (augOf_eq_summary hor))
        simp only [hl, hr, bind, Except.bind, Augment.augment] at h
        cases hleft : augmentLeft z.2 (summary (values l)) with
        | error f => simp [hleft] at h
        | ok p =>
          cases hright : augmentRight z.2 p.1 (summary (values r)) with
          | error f => simp [hleft, hright] at h
          | ok q =>
            have h1 := le_of_augmentLeft hol hleft
            have h2 := le_of_augmentRight hor hright
            refine ⟨hle,List.pairwise_append.mpr ⟨hol.spaced,List.pairwise_cons.mpr ⟨h2,hor.spaced⟩,?_⟩⟩
            intro x hx y hy
            rcases List.mem_cons.mp hy with rfl | hy
            · exact h1 x hx
            · exact ((h1 x hx).trans (hle z.2 (by simp))).trans (h2 y hy)

/-- A span goes between the spans that start before it and the others. The insertion succeeds
exactly when the spans are ordered then. -/
lemma insertSpan_iff (hv : sa.spans.Valid t) (ho : Ordered (values t)) {x : Span V}
    (hx : x.start ≤ x.end_) : ∃ before after, values t = before ++ after ∧
      (∀ y ∈ before, y.start < x.start) ∧ (∀ y ∈ after, x.start ≤ y.start) ∧
      (Ordered (before ++ x::after) → ∃ sa' t', sa.insertSpan x none = .ok (.ok (),sa') ∧
        sa'.spans.Valid t' ∧ values t' = before ++ x::after) ∧
      (¬ Ordered (before ++ x::after) → ∃ f, sa.insertSpan x none = .error f) := by
  obtain ⟨hvalid,hnew,hout⟩ := hv.alloc x
  obtain ⟨t',k,hk,hd,hl,hy⟩ := RbTree.insertRaw_yields nodeCmp hvalid hnew hout
  have hold : t.toList = k.before ++ k.after := by rw [← hk, Ctx.toList_fill]; simp
  have hcmp : ∀ y z : Span V, nodeCmp y z = compare (view.lo y) (view.lo z) := fun _ _ => rfl
  have htrans : Std.TransCmp (nodeCmp (V := V)) := transCmp_lo hcmp
  have hsort : SortedBy nodeCmp (k.before ++ k.after) := by
    have hsp := ho.spaced
    rw [values_eq_append hold, ← List.map_append, List.pairwise_map] at hsp
    refine (List.Pairwise.and_mem.mp hsp).imp ?_
    rintro y z ⟨hy,_,hyz⟩
    rw [hcmp, compare_isLE]
    exact (ho.le y.2 (mem_values (hold ▸ hy))).trans hyz
  obtain ⟨hb,haf⟩ := hd.split hsort
  have hvals : values t' = k.before.map Prod.snd ++ x::k.after.map Prod.snd := by
    rw [values_eq_append hl, List.map_cons]
    rfl
  refine ⟨k.before.map Prod.snd,k.after.map Prod.snd,values_eq_append hold,?_,?_,fun hord => ?_,
    fun hord => ?_⟩
  · intro y hy
    obtain ⟨z,hz,rfl⟩ := List.mem_map.mp hy
    exact compare_lt_iff_lt.mp ((hcmp _ _).symm.trans (hb z hz))
  · intro y hy
    obtain ⟨z,hz,rfl⟩ := List.mem_map.mp hy
    have hle := haf z hz
    rw [hcmp, compare_isLE] at hle
    exact hle
  · obtain ⟨tr',h1,h2,_⟩ := hy.ok (augOf_eq_summary (hvals ▸ hord))
    refine ⟨{ sa with spans := tr' },t',?_,h2,hvals⟩
    have hins : sa.spans.insertNew x nodeCmp = .ok tr' := h1
    simp only [SpanAlloc.insertSpan, hins, bind, Except.bind, pure, Except.pure]
  · have hle : ∀ y ∈ values t', y.start ≤ y.end_ := by
      intro y hy
      rw [hvals, mem_of_append, ← values_eq_append hold] at hy
      rcases hy with rfl | hy
      · exact hx
      · exact ho.le y hy
    cases haug : augOf (V := MaxGap) t' with
    | ok w => exact absurd (hvals ▸ ordered_of_augOf hle haug) hord
    | error f =>
      have hins : sa.spans.insertNew x nodeCmp = .error f := by
        have hy' := hy
        simp only [RbTree.Yields, haug] at hy'
        exact hy'
      exact ⟨f,by simp only [SpanAlloc.insertSpan, hins, bind, Except.bind]⟩

/-- A span beside all others leaves the spans ordered, unless it is to be put before an empty one
that it contains. -/
lemma Ordered.insert {before after : List (Span V)} {x : Span V} (h : Ordered (before ++ after))
    (hx : x.start ≤ x.end_) (hb : ∀ y ∈ before, y.start < x.start)
    (hm : ∀ y ∈ before ++ after, ¬ Meets y x.range)
    (haf : ∀ y ∈ after, x.end_ ≤ y.start) : Ordered (before ++ x::after) := by
  obtain ⟨h1,h2,h3⟩ := List.pairwise_append.mp h.spaced
  refine ⟨fun y hy => ?_,List.pairwise_append.mpr ⟨h1,List.pairwise_cons.mpr ⟨haf,h2⟩,?_⟩⟩
  · rcases mem_of_append.mp hy with rfl | hy
    · exact hx
    · exact h.le y hy
  · intro y hy z hz
    rcases List.mem_cons.mp hz with rfl | hz
    · have hlt := hb y hy
      have hno := not_meets.mp (hm y (List.mem_append_left after hy))
      simp only [Span.range] at hno
      omega
    · exact h3 y hy z hz

/-- The search of `insert` over ordered spans, which may be empty. -/
lemma insert_find (hv : sa.spans.Valid t) (ho : Ordered (values t)) (r : Range) (value : V) :
    ((∃ x ∈ values t, Meets x r) ∧ sa.insert r value none = .ok (.error .overlapped,sa)) ∨
    ((∀ x ∈ values t, ¬ Meets x r) ∧
      sa.insert r value none = sa.insertSpan ⟨r.start,r.end_,value⟩ none) := by
  have hcheck : ¬ (sa.range.start < sa.range.start ∨ sa.range.end_ > sa.range.end_) := by simp
  unfold SpanAlloc.insert
  rw [if_neg hcheck]
  rcases find_sideOf hv ho r.start r.end_ (fun span _ => if span.end_ ≤ r.start then .lt
    else if r.end_ ≤ span.start then .gt else .eq) (fun _ _ _ => rfl) with ⟨hf,hno⟩ | ⟨x,hx,hf,hm⟩
  · right
    rw [hf]
    exact ⟨hno,rfl⟩
  · left
    rw [hf]
    exact ⟨⟨x.2,mem_values hx,hm⟩,rfl⟩

/-- `add_mapping` of a range that has no address in common with the ones before: it panics exactly
when one of these blocks it. -/
lemma addMapping_iff {as : UserAddressSpace} {t : CTree (ℕ × Span Unit)}
    (hv : as.mappings.spans.Valid t) (ho : Ordered (values t)) {r : Range} (hr : r.start ≤ r.end_)
    (ha : ∀ x ∈ values t, x.range.Apart r) :
    ((∃ x ∈ values t, x.range.Blocks r) ∧ ∃ f, as.addMapping r none = .error f) ∨
    ((∀ x ∈ values t, ¬ x.range.Blocks r) ∧ ∃ as' t', as.addMapping r none = .ok as' ∧
      as'.mappings.spans.Valid t' ∧ Ordered (values t') ∧
      ∀ y, y ∈ values t' ↔ y = ⟨r.start,r.end_,()⟩ ∨ y ∈ values t) := by
  rcases insert_find hv ho r () with ⟨⟨x,hx,hm⟩,hrun⟩ | ⟨hno,hrun⟩
  · left
    refine ⟨⟨x,hx,blocks_of_meets (ho.le x hx) hr (ha x hx) hm⟩,
      .panic "called `Result::unwrap()` on an `Err` value",?_⟩
    simp only [UserAddressSpace.addMapping, hrun, bind, Except.bind]
    rfl
  · obtain ⟨before,after,hold,hb,haf,hok,herr⟩ := insertSpan_iff (x := ⟨r.start,r.end_,()⟩) hv ho hr
    by_cases hblock : ∃ x ∈ values t, x.range.Blocks r
    · left
      obtain ⟨x,hx,hbl⟩ := hblock
      have hbeside := not_meets.mp (hno x hx)
      have hxle := ho.le x hx
      -- the blocking span is empty and starts where the new one does, so it is after it
      have hstart : x.start = r.start ∧ x.end_ = r.start ∧ r.start < r.end_ := by
        simp only [Range.Blocks, Range.Has, Span.range] at hbl
        omega
      have hafter : x ∈ after := by
        rw [hold] at hx
        rcases List.mem_append.mp hx with hx | hx
        · exact absurd (hb x hx) (by simp only; omega)
        · exact hx
      have hord : ¬ Ordered (before ++ ⟨r.start,r.end_,()⟩::after) := by
        intro h
        have hle := (List.pairwise_cons.mp (List.pairwise_append.mp h.spaced).2.1).1 x hafter
        simp only at hle
        omega
      obtain ⟨f,hf⟩ := herr hord
      refine ⟨⟨x,hx,hbl⟩,f,?_⟩
      simp only [UserAddressSpace.addMapping, hrun, hf, bind, Except.bind]
    · right
      have hfree : ∀ x ∈ values t, ¬ x.range.Blocks r := fun x hx h => hblock ⟨x,hx,h⟩
      have hord : Ordered (before ++ ⟨r.start,r.end_,()⟩::after) := by
        apply Ordered.insert (hold ▸ ho) hr hb
        · intro y hy
          exact hno y (hold ▸ hy)
        · intro y hy
          have hy' : y ∈ values t := hold ▸ List.mem_append_right before hy
          have h1 := haf y hy
          have h2 := not_meets.mp (hno y hy')
          have h3 := hfree y hy'
          have h4 := ho.le y hy'
          simp only [Range.Blocks, Range.Has, Span.range] at h3
          simp only at h1 ⊢
          omega
      obtain ⟨sa',t',hins,hv',hvals⟩ := hok hord
      refine ⟨hfree,⟨sa'⟩,t',?_,hv',hvals ▸ hord,fun y => ?_⟩
      · simp only [UserAddressSpace.addMapping, hrun, hins, bind, Except.bind]
        rfl
      · rw [hvals, hold, mem_of_append]

/-- `span_containing` over ordered spans, which may be empty. -/
lemma spanContaining_isSome (hv : sa.spans.Valid t) (ho : Ordered (values t)) (a : ℕ) :
    ∃ v, sa.spanContaining a = .ok v ∧ (v.isSome ↔ ∃ x ∈ values t, x.range.Has a) := by
  unfold SpanAlloc.spanContaining
  rcases find_sideOf hv ho a (a+1) _ (byContaining_eq ho a) with ⟨hf,hno⟩ | ⟨x,hx,hf,hm⟩
  · rw [hf]
    refine ⟨none,rfl,by simp,?_⟩
    rintro ⟨x,hx,h1,h2⟩
    exact absurd ⟨Nat.lt_succ_of_le h1,h2⟩ (hno x hx)
  · rw [hf]
    obtain ⟨n,_,hn,_⟩ := hv.node_of_mem hx
    refine ⟨some n.value.value,?_,?_⟩
    · simp only [deref_eq hn, bind, Except.bind, pure, Except.pure]
    · obtain ⟨hm1,hm2⟩ : x.2.start < a+1 ∧ a < x.2.end_ := hm
      exact iff_of_true rfl ⟨x.2,mem_values hx,Nat.lt_succ_iff.mp hm1,hm2⟩

/-- Mapping the ranges with all node allocations succeeding. -/
def mapAll (as : UserAddressSpace) (rs : List Range) : Except Fault UserAddressSpace :=
  addMappings as (rs.map fun r => (r,none))

/-- What mapping a list of ranges is to do: end without a panic, with exactly the addresses of the
ranges mapped. -/
def MapsAll (as : UserAddressSpace) (mapped : ℕ → Prop) (rs : List Range) : Prop :=
  ∃ as', mapAll as rs = .ok as' ∧ ∀ a, ∃ v, as'.mappings.spanContaining a = .ok v ∧
    (v.isSome ↔ mapped a ∨ ∃ r ∈ rs, r.Has a)

/-- Mapping more ranges where some are mapped already. -/
lemma mapsAll_iff {rs : List Range} (hle : ∀ r ∈ rs, r.start ≤ r.end_) (hap : rs.Pairwise Range.Apart)
    {as : UserAddressSpace} {t : CTree (ℕ × Span Unit)} (hv : as.mappings.spans.Valid t)
    (ho : Ordered (values t)) (ha : ∀ x ∈ values t, ∀ r ∈ rs, x.range.Apart r) :
    MapsAll as (fun a => ∃ x ∈ values t, x.range.Has a) rs ↔
      (∀ x ∈ values t, ∀ r ∈ rs, ¬ x.range.Blocks r) ∧ rs.Pairwise fun r s => ¬ r.Blocks s := by
  induction rs generalizing as t with
  | nil =>
    refine iff_of_true ⟨as,rfl,fun a => ?_⟩ ⟨by simp,List.Pairwise.nil⟩
    simpa using spanContaining_isSome hv ho a
  | cons r rs ih =>
    obtain ⟨har,hrs⟩ := List.pairwise_cons.mp hap
    have hr := hle r (by simp)
    have hrun : mapAll as (r::rs) = (as.addMapping r none >>= fun as => mapAll as rs) := rfl
    rcases addMapping_iff hv ho hr (fun x hx => ha x hx r (by simp)) with
      ⟨⟨x,hx,hbl⟩,f,hf⟩ | ⟨hfree,as',t',hok,hv',ho',hmem⟩
    · apply iff_of_false
      · rintro ⟨as',hrun',_⟩
        rw [hrun, hf] at hrun'
        simp [bind, Except.bind] at hrun'
      · rintro ⟨h,_⟩
        exact h x hx r (by simp) hbl
    · have ha' : ∀ x ∈ values t', ∀ s ∈ rs, x.range.Apart s := by
        intro x hx s hs
        rcases (hmem x).mp hx with rfl | hx
        · exact har s hs
        · exact ha x hx s (by simp [hs])
      have hstep : MapsAll as (fun a => ∃ x ∈ values t, x.range.Has a) (r::rs) ↔
          MapsAll as' (fun a => ∃ x ∈ values t', x.range.Has a) rs := by
        unfold MapsAll
        rw [hrun, hok]
        have hiff : ∀ a, ((∃ x ∈ values t, x.range.Has a) ∨ ∃ s ∈ r::rs, s.Has a) ↔
            ((∃ x ∈ values t', x.range.Has a) ∨ ∃ s ∈ rs, s.Has a) := by
          intro a
          simp only [hmem, List.mem_cons, exists_eq_or_imp, Span.range_mk, or_assoc]
          exact or_left_comm
        simp only [hiff]
        rfl
      rw [hstep, ih (fun s hs => hle s (by simp [hs])) hrs hv' ho' ha', List.pairwise_cons]
      simp only [hmem, List.mem_cons, forall_eq_or_imp]
      constructor
      · rintro ⟨⟨h1,h2⟩,h3⟩
        exact ⟨fun x hx => ⟨hfree x hx,h2 x hx⟩,h1,h3⟩
      · rintro ⟨h1,h2,h3⟩
        exact ⟨⟨h2,fun x hx => (h1 x hx).2⟩,h3⟩

/-- Mapping ranges that have no addresses in common in a new address space succeeds, and maps
exactly their addresses, if and only if no range blocks one that is added later. -/
theorem mapAll_iff (heap : Heap (Span Unit) MaxGap) (rs : List Range)
    (hle : ∀ r ∈ rs, r.start ≤ r.end_ ∧ r.end_ ≤ 2^48) (hap : rs.Pairwise Range.Apart) :
    (∃ as, mapAll (.new heap) rs = .ok as ∧ ∀ a, ∃ v, as.mappings.spanContaining a = .ok v ∧
      (v.isSome ↔ ∃ r ∈ rs, r.Has a)) ↔ rs.Pairwise fun r s => ¬ r.Blocks s := by
  have hv : (UserAddressSpace.new heap).mappings.spans.Valid leaf := ⟨⟨trivial,rfl,by simp⟩,⟨0,rfl⟩,trivial⟩
  have h := mapsAll_iff (fun r hr => (hle r hr).1) hap hv ⟨by simp [values],by simp [values]⟩
    (by simp [values])
  simpa [MapsAll, values] using h

/-- An empty range after the range that starts at its address. -/
theorem mapAll_iff_empty_later : ∃ as, mapAll (.new ⟨[]⟩) [⟨5,10⟩,⟨5,5⟩] = .ok as ∧
    ∀ a, ∃ v, as.mappings.spanContaining a = .ok v ∧ (v.isSome ↔ ∃ r ∈ [(⟨5,10⟩ : Range),⟨5,5⟩], r.Has a) := by
  have hap : [⟨5,10⟩,⟨5,5⟩].Pairwise Range.Apart := by
    simp only [List.pairwise_cons, Range.Apart, Range.Has]
    simp
  exact (mapAll_iff ⟨[]⟩ [⟨5,10⟩,⟨5,5⟩] (by decide) hap).mpr (by decide)

/-- An empty range before the range that starts at its address: `augment` underflows. -/
theorem mapAll_panics : ¬ ∀ rs : List Range, (∀ r ∈ rs, r.start ≤ r.end_ ∧ r.end_ ≤ 2^48) →
    rs.Pairwise Range.Apart → ∃ as, mapAll (.new ⟨[]⟩) rs = .ok as := by
  intro hall
  have hap : [⟨5,5⟩,⟨5,10⟩].Pairwise Range.Apart := by
    simp only [List.pairwise_cons, Range.Apart, Range.Has]
    simp
  have hrun : (mapAll (.new ⟨[]⟩) [⟨5,5⟩,⟨5,10⟩]).isOk = false := by decide +kernel
  obtain ⟨as,has⟩ := hall _ (by decide) hap
  rw [has] at hrun
  simp [Except.isOk, Except.toBool] at hrun

end Lilith.VirtualAlloc
