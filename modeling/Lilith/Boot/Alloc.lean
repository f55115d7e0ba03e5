import Lilith.Boot.Runs

/-! Allocation. The search of `alloc` skips the subtrees whose largest free span is too small, and
still finds the first free span in order with an aligned block of the size. -/
namespace Lilith.Boot
open Theory PtrGraph CTree Rbtree

variable {n : ℕ} {b b' : BootAlloc} {t : CTree (ℕ × Span)} {fl : List ℕ} {layout : Layout}

/-- The first `A`-aligned address of a free span, if there are `S` bytes from there on. -/
def fit (layout : Layout) (span : Span) : Option ℕ :=
  if span.spanType = .free ∧ layout.size ≤ span.end_ - roundUp layout.align span.start then
    some (roundUp layout.align span.start)
  else none

/-- A block of `S` bytes at an `A`-aligned address in a free span. -/
structure BlockIn (A S : ℕ) (x : Span) (a : ℕ) : Prop where
  free : x.spanType = .free
  aligned : A ∣ a
  above : x.start ≤ a
  below : a + S ≤ x.end_

section Rounding
variable {A : ℕ}

lemma self_le_roundUp (hA : 0 < A) (a : ℕ) : a ≤ roundUp A a := by
  have hmod := Nat.mod_lt (a+A-1) hA
  have hdiv := Nat.div_add_mod (a+A-1) A
  rw [Nat.mul_comm] at hdiv
  unfold roundUp
  omega

lemma dvd_roundUp_self (A a : ℕ) : A ∣ roundUp A a := Dvd.intro_left _ rfl

/-- No multiple between `a` and `roundUp A a`. -/
lemma roundUp_le {a c : ℕ} (hA : 0 < A) (hc : A ∣ c) (h : a ≤ c) : roundUp A a ≤ c := by
  obtain ⟨k,rfl⟩ := hc
  unfold roundUp
  rw [Nat.mul_comm A k]
  apply Nat.mul_le_mul_right
  rw [← Nat.lt_succ_iff, Nat.div_lt_iff_lt_mul hA, Nat.succ_mul, Nat.mul_comm k A]
  omega

end Rounding

/-- The layout fits exactly where there is a block, and then at the lowest one. -/
lemma fit_eq_some_iff (hA : 0 < layout.align) (hS : 0 < layout.size) {x : Span} {a : ℕ} :
    fit layout x = some a ↔ BlockIn layout.align layout.size x a ∧
      ∀ a', BlockIn layout.align layout.size x a' → a ≤ a' := by
  have hup := self_le_roundUp hA x.start
  constructor
  · intro h
    unfold fit at h
    split_ifs at h with hc
    obtain rfl := Option.some.inj h
    refine ⟨⟨hc.1,dvd_roundUp_self _ _,hup,by omega⟩,fun a' ha' => ?_⟩
    exact roundUp_le hA ha'.aligned ha'.above
  · rintro ⟨hb,hlow⟩
    have hle := roundUp_le hA hb.aligned hb.above
    have hbelow := hb.below
    have hfirst : BlockIn layout.align layout.size x (roundUp layout.align x.start) :=
      ⟨hb.free,dvd_roundUp_self _ _,hup,by omega⟩
    obtain rfl : a = roundUp layout.align x.start := le_antisymm (hlow _ hfirst) hle
    unfold fit
    rw [if_pos ⟨hb.free,by omega⟩]

lemma fit_eq_none_iff (hA : 0 < layout.align) (hS : 0 < layout.size) {x : Span} :
    fit layout x = none ↔ ∀ a, ¬ BlockIn layout.align layout.size x a := by
  constructor
  · intro h a ha
    have hle := roundUp_le hA ha.aligned ha.above
    have hbelow := ha.below
    unfold fit at h
    rw [if_pos ⟨ha.free,by omega⟩] at h
    simp at h
  · intro h
    cases hf : fit layout x with
    | none => rfl
    | some a => exact absurd ((fit_eq_some_iff hA hS).mp hf).1 (h a)

/-- Where rounding does not overflow, `alloc_worker` looks at a span as `fit` does. -/
lemma fitIn_ok {x : Span} (h : x.spanType = .free → roundUp layout.align x.start < 2^64) :
    fitIn layout x = .ok (fit layout x) := by
  unfold fitIn fit
  by_cases hx : x.spanType = .free
  · rw [if_pos hx]
    simp only [nextMultipleOf, if_pos (h hx), hx, true_and, bind, Except.bind, pure, Except.pure]
  · rw [if_neg hx, if_neg (by tauto)]
    rfl

/-- A span that is smaller than the size has no block. -/
lemma fit_of_freeSize_lt (hA : 0 < layout.align) {x : Span} (h : freeSize x < layout.size) :
    fit layout x = none := by
  have hup := self_le_roundUp hA x.start
  unfold freeSize at h
  unfold fit
  rw [if_neg]
  rintro ⟨hx,hle⟩
  rw [if_pos hx] at h
  omega

/-- The first block in order. -/
def firstFit (layout : Layout) (xs : List Span) : Option ℕ := xs.findSome? (fit layout)

lemma firstFit_of_maxFree_lt (hA : 0 < layout.align) {xs : List Span} (h : maxFree xs < layout.size) :
    firstFit layout xs = none := by
  apply List.findSome?_eq_none_iff.mpr
  intro x hx
  exact fit_of_freeSize_lt hA ((freeSize_le_maxFree hx).trans_lt h)

/-- What the search does with a child: it is skipped if its largest free span is too small. -/
def inChild (h : Heap Span MaxFree) (layout : Layout) (fuel : ℕ) : Ptr → Except Fault (Option ℕ)
  | none => .ok none
  | some c => do
    if layout.size ≤ (← (← h.deref (some c)).expectAugment).size then allocWorker h layout fuel c
    else return none

lemma allocWorker_succ (h : Heap Span MaxFree) (fuel node : ℕ) : allocWorker h layout (fuel+1) node =
    (h.deref (some node) >>= fun n => inChild h layout fuel n.left >>= fun
      | some result => .ok (some result)
      | none => fitIn layout n.value >>= fun
        | some start => .ok (some start)
        | none => inChild h layout fuel n.right) := by
  have hchild : ∀ p, inChild h layout fuel p = (match p with
      | none => .ok none
      | some c => do
        if layout.size ≤ (← (← h.deref (some c)).expectAugment).size then allocWorker h layout fuel c
        else return none) := by
    intro p
    cases p <;> rfl
  rw [allocWorker]
  simp only [hchild]
  rfl

/-- The search of a child, when the search of every subtree is right. -/
lemma inChild_ok {tr : RbTree Span MaxFree} (hs : SpanTree view tr t) (hA : 0 < layout.align) {fuel : ℕ}
    {k : Ctx (ℕ × Span)} {u : CTree (ℕ × Span)} (hk : k.fill u = t)
    (ih : ∀ c l x r, u = node c l x r → allocWorker tr.heap layout fuel x.1 = .ok (firstFit layout (values u))) :
    inChild tr.heap layout fuel u.ptr = .ok (firstFit layout (values u)) := by
  cases u with
  | leaf => rfl
  | node c l x r =>
    have hx : x ∈ t.toList := by rw [← hk, Ctx.mem_fill]; simp
    obtain ⟨m,w,hm,_,hw,hav⟩ := hs.valid.node_of_mem hx
    have hwf : view.WF (values (node c l x r)) := by
      refine hs.wf.sublist ?_
      unfold values
      rw [← hk, Ctx.toList_fill]
      exact List.Sublist.map _ (by simp)
    have haug : Augmented tr.heap (node c l x r) := Augmented.of_fill (hk ▸ hs.valid.augmented)
    have hsum := Except.ok.inj (haug.augOf_eq.symm.trans (augOf_eq_summary hwf))
    rw [ptr_node, Option.bind_some, hav] at hsum
    have hsize : w.size = maxFree (values (node c l x r)) := by
      rw [← summary_size, ← hsum]
      rfl
    simp only [inChild, ptr_node, deref_eq hm, hw, bind, Except.bind, hsize]
    split_ifs with hc
    · exact ih c l x r rfl
    · rw [firstFit_of_maxFree_lt hA (by omega)]
      rfl

/-- The recursive search finds the first block of a subtree. -/
theorem allocWorker_ok {tr : RbTree Span MaxFree} (hs : SpanTree view tr t) (hA : 0 < layout.align)
    (hround : ∀ x ∈ values t, x.spanType = .free → roundUp layout.align x.start < 2^64) (fuel : ℕ)
    (k : Ctx (ℕ × Span)) (c : Color) (l r : CTree (ℕ × Span)) (x : ℕ × Span)
    (hk : k.fill (node c l x r) = t) (hf : (node c l x r).size < fuel) :
    allocWorker tr.heap layout fuel x.1 = .ok (firstFit layout (values (node c l x r))) := by
  induction fuel generalizing k c l r x with
  | zero => omega
  | succ fuel ih =>
    have hx : x ∈ t.toList := by rw [← hk, Ctx.mem_fill]; simp
    obtain ⟨m,hm,hmv,_,hl,hr⟩ := Focus.node_fields (Focus.of_root (hk ▸ hs.valid.focus))
    simp only [CTree.size] at hf
    have hleft : inChild tr.heap layout fuel l.ptr = .ok (firstFit layout (values l)) := by
      apply inChild_ok hs hA (k := ⟨.left,c,x,r⟩::k) hk
      rintro c' l' x' r' rfl
      exact ih (⟨.left,c,x,r⟩::k) c' l' r' x' hk (by omega)
    have hright : inChild tr.heap layout fuel r.ptr = .ok (firstFit layout (values r)) := by
      apply inChild_ok hs hA (k := ⟨.right,c,x,l⟩::k) hk
      rintro c' l' x' r' rfl
      exact ih (⟨.right,c,x,l⟩::k) c' l' r' x' hk (by omega)
    have hhere : fitIn layout x.2 = .ok (fit layout x.2) := fitIn_ok (hround x.2 (mem_values hx))
    have hlist : firstFit layout (values (node c l x r)) =
        (firstFit layout (values l)).or ((fit layout x.2).or (firstFit layout (values r))) := by
      unfold firstFit
      rw [show values (node c l x r) = values l ++ x.2::values r by simp [values], List.findSome?_append,
        List.findSome?_cons]
      cases fit layout x.2 <;> rfl
    rw [allocWorker_succ, deref_eq hm, hlist]
    simp only [bind, Except.bind, hl, hr, hmv, hleft, hhere]
    cases firstFit layout (values l) with
    | some a => rfl
    | none =>
      cases fit layout x.2 with
      | some a => rfl
      | none => exact hright

/-- The first span with a block, among spans in order. -/
lemma firstFit_eq_some {xs : List Span} (hwf : view.WF xs) (hA : 0 < layout.align) (hS : 0 < layout.size)
    {a : ℕ} (h : firstFit layout xs = some a) : ∃ x ∈ xs, BlockIn layout.align layout.size x a ∧
      (∀ a', BlockIn layout.align layout.size x a' → a ≤ a') ∧
      ∀ y ∈ xs, (∃ a', BlockIn layout.align layout.size y a') → x.start ≤ y.start := by
  obtain ⟨before,x,after,rfl,hx,hbefore⟩ := List.findSome?_eq_some_iff.mp h
  obtain ⟨hblock,hlow⟩ := (fit_eq_some_iff hA hS).mp hx
  refine ⟨x,by simp,hblock,hlow,fun y hy hb => ?_⟩
  rcases List.mem_append.mp hy with hy | hy
  · obtain ⟨a',ha'⟩ := hb
    exact absurd ha' ((fit_eq_none_iff hA hS).mp (hbefore y hy) a')
  · rcases List.mem_cons.mp hy with rfl | hy
    · exact le_rfl
    · have hlo := (List.pairwise_append.mp hwf.lo_lt).2.1
      exact ((List.pairwise_cons.mp hlo).1 y hy).le

lemma firstFit_eq_none_iff {xs : List Span} (hA : 0 < layout.align) (hS : 0 < layout.size) :
    firstFit layout xs = none ↔ ∀ x ∈ xs, ∀ a, ¬ BlockIn layout.align layout.size x a := by
  unfold firstFit
  rw [List.findSome?_eq_none_iff]
  constructor
  · intro h x hx
    exact (fit_eq_none_iff hA hS).mp (h x hx)
  · intro h x hx
    exact (fit_eq_none_iff hA hS).mpr (h x hx)

/-- The rounded layout has a size and an alignment. -/
lemma padTo_pos {A S : ℕ} (hsize : 0 < layout.size) (h : layout.padTo 4096 = .ok ⟨S,A⟩) : 0 < A ∧ 0 < S := by
  simp only [Layout.padTo] at h
  split_ifs at h with hc
  obtain ⟨rfl,rfl⟩ := Layout.mk.inj (Except.ok.inj h)
  have hA : 0 < max layout.align 4096 := by omega
  exact ⟨hA,hsize.trans_le (self_le_roundUp hA layout.size)⟩

/-- The update function of `alloc`. -/
def takeFree (t : Option SpanType) : Except Fault SpanType :=
  if t = some .free then .ok .inUse else .error (.panic "assertion failed: t == Some(SpanType::Free)")

/-- `alloc` with the layout rounded: it takes the first block, if there is one. -/
lemma alloc_run {A S : ℕ} (h : Valid n b t fl []) (hA : 0 < A) (hpad : layout.padTo 4096 = .ok ⟨S,A⟩)
    (hround : ∀ x ∈ values t, x.spanType = .free → roundUp A x.start < 2^64) :
    (firstFit ⟨S,A⟩ (values t) = none ∧ b.alloc layout = .ok (none,b)) ∨
    ∃ a, firstFit ⟨S,A⟩ (values t) = some a ∧
      b.alloc layout = (b.update a S takeFree).map fun b' => (some a,b') := by
  have hhead : b.tree.head = t.ptr := h.tree.valid.focus.hole_eq
  unfold BootAlloc.alloc
  rw [hpad, hhead]
  cases t with
  | leaf => exact Or.inl ⟨rfl,rfl⟩
  | node c l x r =>
    have hA' : 0 < (Layout.mk S A).align := hA
    have hwork := allocWorker_ok h.tree hA' hround b.tree.heap.bound [] c l r x rfl
      h.tree.valid.lt_bound
    simp only [ptr_node, bind, Except.bind, hwork]
    cases hfit : firstFit ⟨S,A⟩ (values (node c l x r)) with
    | none => exact Or.inl ⟨rfl,rfl⟩
    | some a =>
      refine Or.inr ⟨a,rfl,?_⟩
      unfold takeFree
      simp only
      split <;> rename_i hupd <;> rw [hupd] <;> rfl

/-- An allocation that returned an address took a free block. -/
lemma alloc_taken {A S a : ℕ} (h : Valid n b t fl []) (hpad : layout.padTo 4096 = .ok ⟨S,A⟩)
    (hrun : b.alloc layout = .ok (some a,b')) : ∃ t' fl', Valid n b' t' fl' [] ∧
      (∀ p, a ≤ p → p < a+S → denote view t p = some .free ∧ denote view t' p = some .inUse) ∧
      ∀ p, p < a ∨ a+S ≤ p → denote view t' p = denote view t p := by
  have hupd : b.update a S takeFree = .ok b' := by
    unfold BootAlloc.alloc at hrun
    rw [hpad] at hrun
    simp only [bind, Except.bind, pure, Except.pure] at hrun
    split at hrun
    · simp at hrun
    · split at hrun
      · simp at hrun
      · split at hrun
        · simp at hrun
        · split at hrun
          · simp at hrun
          · next hupd =>
            obtain ⟨ha,rfl⟩ := Prod.mk.inj (Except.ok.inj hrun)
            obtain rfl := Option.some.inj ha
            exact hupd
  have hend : a+S < 2^64 := by
    obtain ⟨_,hadd,_⟩ := bind_ok hupd
    exact (checkedAdd_ok hadd).2
  have hu := h.update (f := takeFree) (Cut.univ t) (Set.mem_univ a) (Set.mem_univ _) hend
  obtain ⟨t',fl',hv,_,hin,hout⟩ := hu.result hupd
  refine ⟨t',fl',hv,fun p h1 h2 => ?_,hout⟩
  obtain ⟨w,hw,hd⟩ := hin p h1 h2
  unfold takeFree at hw
  split_ifs at hw with hc
  rw [hd, ← Except.ok.inj hw]
  exact ⟨hc,rfl⟩

/-- In every valid state, `alloc` takes the lowest aligned block of the lowest free span that has
one: all of it was free and is in use then, and nothing else changes. It returns nothing exactly
when no free span has such a block. -/
theorem alloc_first_fit {A S : ℕ} (h : Valid n b t fl []) (hsize : 0 < layout.size)
    (hpad : layout.padTo 4096 = .ok ⟨S,A⟩)
    (hround : ∀ x ∈ values t, x.spanType = .free → roundUp A x.start < 2^64)
    (hslots : b.alloc layout ≠ .error BootAlloc.ranOut) :
    ∃ res b', b.alloc layout = .ok (res,b') ∧
      (res.isSome ↔ ∃ x ∈ values t, ∃ a, BlockIn A S x a) ∧
      (∀ a, res = some a →
        (∃ x ∈ values t, BlockIn A S x a ∧ (∀ a', BlockIn A S x a' → a ≤ a') ∧
          ∀ y ∈ values t, (∃ a', BlockIn A S y a') → x.start ≤ y.start) ∧
        (∀ p, a ≤ p → p < a+S → denote view t p = some .free) ∧
        ∃ t' fl', Valid n b' t' fl' [] ∧
          ∀ p, denote view t' p = if a ≤ p ∧ p < a+S then some .inUse else denote view t p) ∧
      (res = none → b' = b) := by
  obtain ⟨hA,hS⟩ : 0 < (Layout.mk S A).align ∧ 0 < (Layout.mk S A).size := padTo_pos hsize hpad
  rcases alloc_run h hA hpad hround with ⟨hfit,hrun⟩ | ⟨a,hfit,hrun⟩
  · refine ⟨none,b,hrun,⟨by simp,?_⟩,by simp,fun _ => rfl⟩
    rintro ⟨x,hx,a,ha⟩
    exact absurd ha ((firstFit_eq_none_iff hA hS).mp hfit x hx a)
  · obtain ⟨x,hx,hblock,hlow,hfirst⟩ := firstFit_eq_some h.tree.wf hA hS hfit
    have habove : x.start ≤ a := hblock.above
    have hbelow : a+S ≤ x.end_ := hblock.below
    have hfree : ∀ p, a ≤ p → p < a+S → denote view t p = some .free := by
      intro p h1 h2
      rw [← hblock.free]
      exact h.tree.wf.lookup_of_mem hx ⟨by simp only [view]; omega,by simp only [view]; omega⟩
    have hend : a+S < 2^64 := hbelow.trans_lt (h.bounded x hx)
    have hu := h.update (f := takeFree) (Cut.univ t) (Set.mem_univ a) (Set.mem_univ _) hend
    cases hupd : b.update a S takeFree with
    | error e =>
      rw [hupd] at hu hrun
      rcases hu with ⟨rfl,_⟩ | ⟨p,h1,h2,hp⟩
      · exact absurd hrun hslots
      · -- the assertion holds at every address of the block
        rw [hfree p h1 h2] at hp
        simp [takeFree] at hp
    | ok b' =>
      rw [hupd] at hrun
      obtain ⟨t',fl',hv',hin,hout⟩ := alloc_taken h hpad hrun
      refine ⟨some a,b',hrun,iff_of_true rfl ⟨x,hx,a,hblock⟩,?_,by simp⟩
      intro a' ha'
      obtain rfl := Option.some.inj ha'
      refine ⟨⟨x,hx,hblock,hlow,hfirst⟩,hfree,t',fl',hv',fun p => ?_⟩
      split_ifs with hp
      · exact (hin p hp.1 hp.2).2
      · exact hout p (by omega)

/-- An allocation of 5000 bytes, with an alignment of 8192, where the bytes from 4096 to 24576 are
free. -/
theorem alloc_first_fit_aligned : ∃ b t b' t' fl', BootAlloc.update (.new 4) 4096 20480 (fun _ => .ok .free) = .ok b ∧
    b.alloc ⟨5000,8192⟩ = .ok (some 8192,b') ∧ Valid 4 b' t' fl' [] ∧
    (∀ p, 8192 ≤ p → p < 8192+8192 → denote view t p = some .free) ∧
    ∀ p, denote view t' p = if 8192 ≤ p ∧ p < 8192+8192 then some .inUse else denote view t p := by
  have hrun : ∃ b b', BootAlloc.update (.new 4) 4096 20480 (fun _ => .ok .free) = .ok b ∧
      b.alloc ⟨5000,8192⟩ = .ok (some 8192,b') := by
    have hres : (BootAlloc.update (.new 4) 4096 20480 (fun _ => .ok .free) >>= fun b =>
        (b.alloc ⟨5000,8192⟩).map Prod.fst) = .ok (some 8192) := by decide +kernel
    obtain ⟨b,hb,hres⟩ := bind_ok hres
    cases ha : b.alloc ⟨5000,8192⟩ with
    | error e => simp [ha, Except.map] at hres
    | ok p =>
      obtain ⟨res,b'⟩ := p
      rw [ha] at hres
      obtain rfl : res = some 8192 := Except.ok.inj hres
      exact ⟨b,b',hb,ha⟩
  obtain ⟨b,b',hb,hb'⟩ := hrun
  have hu := (valid_new 4).update (f := fun _ => .ok .free) (Cut.univ leaf) (Set.mem_univ 4096) (Set.mem_univ _)
    (by decide : 4096 + 20480 < 2^64)
  obtain ⟨t,fl,hv,_,hin,hout⟩ := hu.result hb
  have hround : ∀ x ∈ values t, x.spanType = .free → roundUp 8192 x.start < 2^64 := by
    intro x hx _
    have hx1 : x.start < x.end_ := hv.tree.wf.proper x hx
    have hd : denote view t x.start = some x.spanType := hv.tree.wf.lookup_of_mem hx ⟨le_rfl,hx1⟩
    by_cases hlt : x.start < 24576
    · unfold roundUp
      omega
    · rw [hout x.start (by omega)] at hd
      simp [denote, values, SpanView.lookup] at hd
  have hpad : Layout.padTo ⟨5000,8192⟩ 4096 = .ok ⟨8192,8192⟩ := by decide
  obtain ⟨res,b2,h1,_,h2,_⟩ := alloc_first_fit hv (by decide) hpad hround (by rw [hb']; simp)
  obtain ⟨rfl,rfl⟩ := Prod.mk.inj (Except.ok.inj (h1.symm.trans hb'))
  obtain ⟨_,h3,t',fl',h4,h5⟩ := h2 8192 rfl
  exact ⟨b,t,b2,t',fl',hb,hb',h4,h3,h5⟩

end Lilith.Boot
