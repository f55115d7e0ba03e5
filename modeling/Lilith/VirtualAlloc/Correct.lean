import Lilith.VirtualAlloc.Gaps

/-! The span allocator refines a finite set of disjoint intervals with values. -/
namespace Lilith.VirtualAlloc
open Theory PtrGraph CTree Rbtree

variable {V : Type} {sa : SpanAlloc V} {t : CTree (ℕ × Span V)}

/-- What the allocator is for: a finite set of nonempty, pairwise disjoint intervals, each with a
value. -/
structure SpanSet (V : Type) where
  spans : Set (Span V)
  finite : spans.Finite
  proper : ∀ x ∈ spans, x.start < x.end_
  disjoint : ∀ x ∈ spans, ∀ y ∈ spans, x ≠ y → x.end_ ≤ y.start ∨ y.end_ ≤ x.start

/-- Two ranges have a common address. -/
def Meets (x : Span V) (r : Range) : Prop := x.start < r.end_ ∧ r.start < x.end_

instance (x : Span V) (r : Range) : Decidable (Meets x r) := inferInstanceAs (Decidable (_ ∧ _))

lemma not_meets {x : Span V} {r : Range} : ¬ Meets x r ↔ x.end_ ≤ r.start ∨ r.end_ ≤ x.start := by
  unfold Meets
  omega

/-- The set of spans of a tree. -/
def spanSet (xs : List (Span V)) (h : view.WF xs) : SpanSet V where
  spans := {x | x ∈ xs}
  finite := List.finite_toSet xs
  proper := h.proper
  disjoint := by
    intro x hx y hy hne
    by_contra hc
    have hx' : x.start < x.end_ := h.proper x hx
    have hy' : y.start < y.end_ := h.proper y hy
    have hxa : view.Contains x (max x.start y.start) := ⟨le_max_left _ _,by simp only [view]; omega⟩
    have hya : view.Contains y (max x.start y.start) := ⟨le_max_right _ _,by simp only [view]; omega⟩
    exact hne (h.unique hx hy hxa hya)

/-- Where a span lies with respect to the range from `lo` to `hi`. -/
def sideOf (lo hi : ℕ) (x : Span V) : Ordering :=
  if x.end_ ≤ lo then .lt else if hi ≤ x.start then .gt else .eq

lemma sideOf_eq_lt {lo hi : ℕ} {x : Span V} : sideOf lo hi x = .lt ↔ x.end_ ≤ lo := by
  unfold sideOf
  split_ifs <;> simp <;> omega

lemma sideOf_eq_gt {lo hi : ℕ} {x : Span V} : sideOf lo hi x = .gt ↔ lo < x.end_ ∧ hi ≤ x.start := by
  unfold sideOf
  split_ifs <;> simp <;> omega

lemma sideOf_eq_eq {lo hi : ℕ} {x : Span V} : sideOf lo hi x = .eq ↔ Meets x ⟨lo,hi⟩ := by
  unfold sideOf Meets
  split_ifs <;> simp <;> omega

/-- In order, spans are first below, then across, then above a range. -/
lemma banded_sideOf (ho : Ordered (values t)) (lo hi : ℕ) :
    Banded (fun x : ℕ × Span V => sideOf lo hi x.2) t.toList := by
  have hsp := ho.spaced
  unfold values at hsp
  rw [List.pairwise_map] at hsp
  refine (List.Pairwise.and_mem.mp hsp).imp ?_
  rintro x y ⟨hx,hy,hxy⟩
  have h1 := ho.le x.2 (mem_values hx)
  have h2 := ho.le y.2 (mem_values hy)
  rw [sideOf_eq_gt, sideOf_eq_gt, sideOf_eq_lt, sideOf_eq_lt]
  omega

/-- A search for the spans across a range finds one exactly when there is one. -/
lemma find_sideOf (hv : sa.spans.Valid t) (ho : Ordered (values t)) (lo hi : ℕ) (eval : Span V → MaxGap → Ordering)
    (he : ∀ x ∈ t.toList, ∀ w, eval x.2 w = sideOf lo hi x.2) :
    (sa.spans.findRaw eval = .ok none ∧ ∀ x ∈ values t, ¬ Meets x ⟨lo,hi⟩) ∨
    ∃ x ∈ t.toList, sa.spans.findRaw eval = .ok (some x.1) ∧ Meets x.2 ⟨lo,hi⟩ := by
  have hrun := hv.findRaw (show ∀ x ∈ t.toList, ∀ w, sa.spans.heap.aug x.1 = some w →
    eval x.2 w = sideOf lo hi x.2 from
    fun x hx w _ => he x hx w)
  cases hf : t.search fun x : ℕ × Span V => sideOf lo hi x.2 with
  | none =>
    rw [hf] at hrun
    refine Or.inl ⟨hrun,fun x hx hm => ?_⟩
    obtain ⟨y,hy,rfl⟩ := List.mem_map.mp hx
    exact search_none hf (banded_sideOf ho lo hi) y hy (sideOf_eq_eq.mpr hm)
  | some x =>
    rw [hf] at hrun
    obtain ⟨h1,h2⟩ := search_some hf
    exact Or.inr ⟨x,h1,hrun,sideOf_eq_eq.mp h2⟩

/-- The search for the span that contains an address. -/
lemma byContaining_eq (ho : Ordered (values t)) (addr : ℕ) :
    ∀ x ∈ t.toList, ∀ w, byContaining addr x.2 w = sideOf addr (addr+1) x.2 := by
  intro x hx w
  have h1 := ho.le x.2 (mem_values hx)
  unfold byContaining sideOf
  split_ifs <;> first | rfl | omega

/-- Storing a span that is beside all others. -/
lemma insertSpan_ok (hs : SpanTree view sa.spans t) {x : Span V} (hx : x.start < x.end_)
    (hb : ∀ y ∈ values t, y.end_ ≤ x.start ∨ x.end_ ≤ y.start) :
    ∃ sa' t' before after, sa.insertSpan x none = .ok (.ok (),sa') ∧ SpanTree view sa'.spans t' ∧
      values t = before ++ after ∧ values t' = before ++ x::after ∧ sa'.range = sa.range := by
  have hfree : ∀ p, x.start ≤ p → p < x.end_ → denote view t p = none := by
    intro p h1 h2
    unfold denote
    rw [SpanView.lookup_eq_none]
    rintro y hy ⟨h3,h4⟩
    have h3 : y.start ≤ p := h3
    have h4 : p < y.end_ := h4
    have := hb y hy
    omega
  have hcmp : ∀ y z : Span V, nodeCmp y z = compare (view.lo y) (view.lo z) := fun _ _ => rfl
  obtain ⟨tr',t',before,after,h1,h2,h3,h4,_⟩ := hs.insertNew computes hcmp hx hfree
  refine ⟨{ sa with spans := tr' },t',before.map Prod.snd,after.map Prod.snd,?_,h2,
    values_eq_append h3,by rw [values_eq_append h4, List.map_cons],rfl⟩
  simp only [SpanAlloc.insertSpan, h1, bind, Except.bind, pure, Except.pure]

/-- The states of a tree before and after a span was added. -/
structure Added (sa sa' : SpanAlloc V) (t : CTree (ℕ × Span V)) (x : Span V)
    (t' : CTree (ℕ × Span V)) : Prop where
  tree : SpanTree view sa'.spans t'
  split : ∃ before after, values t = before ++ after ∧ values t' = before ++ x::after
  range : sa'.range = sa.range

/-- `insert` of a nonempty range: an overlap, a failed node allocation, or a new span. The
comparison with `self.range` never fails. -/
theorem insert_cases (hs : SpanTree view sa.spans t) {r : Range} (hr : r.start < r.end_) (value : V)
    (mem : Option MemoryError) :
    ((∃ x ∈ values t, Meets x r) ∧ sa.insert r value mem = .ok (.error .overlapped,sa)) ∨
    ((∀ x ∈ values t, ¬ Meets x r) ∧
      ((∃ e, mem = some e ∧ sa.insert r value mem = .ok (.error (.memory e),sa)) ∨
        (mem = none ∧ ∃ sa' t', sa.insert r value mem = .ok (.ok (),sa') ∧
          Added sa sa' t ⟨r.start,r.end_,value⟩ t'))) := by
  have hcheck : ¬ (sa.range.start < sa.range.start ∨ sa.range.end_ > sa.range.end_) := by simp
  unfold SpanAlloc.insert
  rw [if_neg hcheck]
  rcases find_sideOf hs.valid (.of_wf hs.wf) r.start r.end_ (fun span _ => if span.end_ ≤ r.start then .lt
    else if r.end_ ≤ span.start then .gt else .eq) (fun _ _ _ => rfl) with ⟨hf,hno⟩ | ⟨x,hx,hf,hm⟩
  · right
    refine ⟨hno,?_⟩
    rw [hf]
    cases mem with
    | some e => exact Or.inl ⟨e,rfl,rfl⟩
    | none =>
      obtain ⟨sa',t',before,after,h1,h2,h3,h4,h5⟩ := insertSpan_ok (x := ⟨r.start,r.end_,value⟩) hs hr
        fun y hy => not_meets.mp (hno y hy)
      exact Or.inr ⟨rfl,sa',t',h1,h2,⟨before,after,h3,h4⟩,h5⟩
  · left
    rw [hf]
    exact ⟨⟨x.2,mem_values hx,hm⟩,rfl⟩

/-- The gap that `find_gap` returns has no span in it. -/
lemma findGap_sound (hs : SpanTree view sa.spans t) {size : ℕ} {g : Range}
    (h : sa.findGap size = .ok (some g)) : (t = leaf ∧ g = sa.range) ∨
      (t ≠ leaf ∧ g ∈ gaps sa.range.start (values t) sa.range.end_ ∧ g.start + size ≤ g.end_) := by
  have hhead : sa.spans.head = t.ptr := hs.valid.focus.hole_eq
  unfold SpanAlloc.findGap at h
  cases t with
  | leaf =>
    rw [hhead] at h
    exact Or.inl ⟨rfl,(Option.some.inj (Except.ok.inj h)).symm⟩
  | node c l x r =>
    rw [hhead] at h
    have hfirst := findGapLoop_sound hs size _ [] _ _ _ rfl (by simp) h
    refine Or.inr ⟨by simp,List.mem_of_find?_eq_some hfirst.symm,?_⟩
    simpa [Fits] using List.find?_some hfirst.symm

/-- `alloc` that returned: an error with nothing changed, or a new span where there was none. -/
theorem alloc_cases (hs : SpanTree view sa.spans t) {size : ℕ} (hsize : 0 < size) {value : V}
    {mem : Option MemoryError} {res : Except SpanError Range} {sa' : SpanAlloc V}
    (h : sa.alloc size value mem = .ok (res,sa')) :
    (sa' = sa ∧ (res = .error .exhausted ∨ ∃ e, mem = some e ∧ res = .error (.memory e))) ∨
    ∃ r t', res = .ok r ∧ r.end_ = r.start + size ∧ (∀ x ∈ values t, ¬ Meets x r) ∧
      Added sa sa' t ⟨r.start,r.end_,value⟩ t' ∧ ∃ g, sa.findGap size = .ok (some g) ∧
      r.start = g.start := by
  unfold SpanAlloc.alloc at h
  cases hg : sa.findGap size with
  | error f => rw [hg] at h; simp [bind, Except.bind] at h
  | ok found =>
    rw [hg] at h
    cases found with
    | none =>
      obtain ⟨rfl,rfl⟩ := Prod.mk.inj (Except.ok.inj h)
      exact Or.inl ⟨rfl,Or.inl rfl⟩
    | some g =>
      have hbeside : ∀ x ∈ values t, ¬ Meets x ⟨g.start,g.start+size⟩ := by
        intro x hx
        rcases findGap_sound hs hg with ⟨rfl,_⟩ | ⟨_,hmem,hfit⟩
        · simp [values] at hx
        · have := gaps_beside hs.wf g hmem x hx
          rw [not_meets]
          simp only
          omega
      by_cases hadd : g.start + size < 2^64
      · have hrun : sa.alloc size value mem =
            ((sa.insertSpan ⟨g.start,g.start+size,value⟩ mem) >>= fun p =>
              .ok (p.1.map fun _ => ⟨g.start,g.start+size⟩,p.2)) := by
          unfold SpanAlloc.alloc
          rw [hg]
          simp only [checkedAdd_of_lt hadd, bind, Except.bind]
          rfl
        have h' : sa.alloc size value mem = .ok (res,sa') := by
          unfold SpanAlloc.alloc
          rw [hg]
          exact h
        rw [hrun] at h'
        cases mem with
        | some e =>
          obtain ⟨rfl,rfl⟩ := Prod.mk.inj (Except.ok.inj h')
          exact Or.inl ⟨rfl,Or.inr ⟨e,rfl,rfl⟩⟩
        | none =>
          obtain ⟨sa2,t',before,after,h1,h2,h3,h4,h5⟩ :=
            insertSpan_ok (x := ⟨g.start,g.start+size,value⟩) hs (by simp only; omega)
              fun y hy => not_meets.mp (hbeside y hy)
          rw [h1] at h'
          obtain ⟨rfl,rfl⟩ := Prod.mk.inj (Except.ok.inj h')
          exact Or.inr ⟨⟨g.start,g.start+size⟩,t',rfl,rfl,hbeside,⟨h2,⟨before,after,h3,h4⟩,h5⟩,g,
            rfl,rfl⟩
      · simp only [bind, Except.bind, checkedAdd, if_neg hadd] at h
        exact absurd h (by simp)

/-- All spans are inside the range of the allocator. -/
def Inside (range : Range) (xs : List (Span V)) : Prop :=
  ∀ x ∈ xs, range.start ≤ x.start ∧ x.end_ ≤ range.end_

/-- A gap that `find_gap` returns lies in the range, if only sizes that are not larger than the
range are asked of an allocator without spans. -/
lemma findGap_inside (hs : SpanTree view sa.spans t) (hin : Inside sa.range (values t)) {size : ℕ}
    (hsize : 0 < size) (hle : t = leaf → size ≤ sa.range.end_ - sa.range.start) {g : Range}
    (h : sa.findGap size = .ok (some g)) :
    sa.range.start ≤ g.start ∧ g.start + size ≤ sa.range.end_ := by
  rcases findGap_sound hs h with ⟨ht,rfl⟩ | ⟨_,hmem,hfit⟩
  · have := hle ht
    omega
  · have h1 := le_start_of_mem_gaps hs.wf (fun y hy => (hin y hy).1) g hmem
    have h2 := end_le_of_mem_gaps hs.wf (fun y hy => (hin y hy).2) g hmem
    omega

lemma findGap_total (hs : SpanTree view sa.spans t) (hin : Inside sa.range (values t)) (size : ℕ) :
    ∃ found, sa.findGap size = .ok found := by
  have hhead : sa.spans.head = t.ptr := hs.valid.focus.hole_eq
  unfold SpanAlloc.findGap
  rw [hhead]
  cases t with
  | leaf => exact ⟨_,rfl⟩
  | node c l x r => exact findGapLoop_total hs size _ [] _ _ _ rfl (by simp) hin hs.valid.lt_bound

/-- `alloc` ends without a fault, if the gap that it finds has an end with 64 bits. -/
theorem alloc_total_of_lt (hs : SpanTree view sa.spans t) (hin : Inside sa.range (values t)) {size : ℕ}
    (hsize : 0 < size) (hlt : ∀ g, sa.findGap size = .ok (some g) → g.start + size < 2^64) (value : V)
    (mem : Option MemoryError) : ∃ res sa', sa.alloc size value mem = .ok (res,sa') := by
  obtain ⟨found,hf⟩ := findGap_total hs hin size
  unfold SpanAlloc.alloc
  rw [hf]
  cases found with
  | none => exact ⟨_,_,rfl⟩
  | some g =>
    simp only [checkedAdd_of_lt (hlt g hf), bind, Except.bind]
    cases mem with
    | some e => exact ⟨_,_,rfl⟩
    | none =>
      have hb : ∀ y ∈ values t, y.end_ ≤ g.start ∨ g.start + size ≤ y.start := by
        intro y hy
        rcases findGap_sound hs hf with ⟨rfl,_⟩ | ⟨_,hmem,hfit⟩
        · simp [values] at hy
        · have := gaps_beside hs.wf g hmem y hy
          omega
      obtain ⟨sa',_,_,_,h1,_⟩ := insertSpan_ok (x := ⟨g.start,g.start+size,value⟩) hs
        (by simp only; omega) hb
      rw [h1]
      exact ⟨_,_,rfl⟩

/-- With all spans inside the range, `alloc` ends without a fault. -/
theorem alloc_total (hs : SpanTree view sa.spans t) (hin : Inside sa.range (values t)) {size : ℕ}
    (hsize : 0 < size) (hle : t = leaf → size ≤ sa.range.end_ - sa.range.start)
    (hu : sa.range.end_ < 2^64) (value : V) (mem : Option MemoryError) :
    ∃ res sa', sa.alloc size value mem = .ok (res,sa') := by
  apply alloc_total_of_lt hs hin hsize
  intro g hf
  obtain ⟨_,hend⟩ := findGap_inside hs hin hsize hle hf
  omega

/-- The value at an address. -/
theorem spanContaining_ok (hs : SpanTree view sa.spans t) (addr : ℕ) :
    sa.spanContaining addr = .ok (denote view t addr) := by
  unfold SpanAlloc.spanContaining
  rcases find_sideOf hs.valid (.of_wf hs.wf) addr (addr+1) _ (byContaining_eq (.of_wf hs.wf) addr) with ⟨hf,hno⟩ | ⟨x,hx,hf,hm⟩
  · have hnone : denote view t addr = none := by
      unfold denote
      rw [SpanView.lookup_eq_none]
      rintro x hx ⟨h1,h2⟩
      have h1 : x.start ≤ addr := h1
      have h2 : addr < x.end_ := h2
      exact hno x hx ⟨by simp only; omega,h2⟩
    rw [hf, hnone]
    rfl
  · obtain ⟨n,_,hn,hnv,_⟩ := hs.valid.node_of_mem hx
    have hval : denote view t addr = some x.2.value := by
      obtain ⟨hm1,hm2⟩ : x.2.start < addr+1 ∧ addr < x.2.end_ := hm
      exact hs.denote_of_mem hx (Nat.lt_succ_iff.mp hm1) hm2
    rw [hf, hval]
    simp only [deref_eq hn, hnv, bind, Except.bind, pure, Except.pure]

/-- `free` of an address in a span takes out that span. -/
theorem free_ok (hs : SpanTree view sa.spans t) {x : Span V} (hx : x ∈ values t) {addr : ℕ}
    (h1 : x.start ≤ addr) (h2 : addr < x.end_) :
    ∃ sa' t' before after, sa.free addr = .ok ((⟨x.start,x.end_⟩,x.value),sa') ∧
      SpanTree view sa'.spans t' ∧ values t = before ++ x::after ∧ values t' = before ++ after ∧
      sa'.range = sa.range := by
  rcases find_sideOf hs.valid (.of_wf hs.wf) addr (addr+1) _ (byContaining_eq (.of_wf hs.wf) addr) with ⟨_,hno⟩ | ⟨y,hy,hf,hm⟩
  · exact absurd ⟨by simp only; omega,h2⟩ (hno x hx)
  · have hyx : y.2 = x := by
      obtain ⟨hm1,hm2⟩ : y.2.start < addr+1 ∧ addr < y.2.end_ := hm
      exact hs.wf.unique (mem_values hy) hx (a := addr) ⟨Nat.lt_succ_iff.mp hm1,hm2⟩ ⟨h1,h2⟩
    obtain ⟨tr',t',before,after,h3,h4,h5,h6,_⟩ := hs.removeValue computes hy
    refine ⟨{ sa with spans := tr' },t',before.map Prod.snd,after.map Prod.snd,?_,h4,?_,
      values_eq_append h6,rfl⟩
    · unfold SpanAlloc.free
      rw [hf]
      simp only [h3, hyx, bind, Except.bind, pure, Except.pure]
    · rw [values_eq_append h5, List.map_cons, hyx]

end Lilith.VirtualAlloc
