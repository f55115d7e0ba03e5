import Lilith.Boot.Runs
import Lilith.Boot.Frames

/-! `claim_free_ranges` hands out the frames that are free as a whole. -/
namespace Lilith.Boot
open Theory PtrGraph CTree Rbtree

variable {n limit : ℕ} {b : BootAlloc} {t t' : CTree (ℕ × Span)} {fl : List ℕ} {align : PageAlign}
  {m : ℕ → Option SpanType} {rs : List PhysRange}

/-- What `align_up` and `align_down` are documented to do: they round to a page boundary, and they
do not panic on addresses up to the limit of the physical address space. -/
structure PageAlign.Lawful (align : PageAlign) (limit : ℕ) : Prop where
  up : ∀ {a r}, align.alignUp a = .ok r → r = roundUp 4096 a
  down : ∀ {a r}, align.alignDown a = .ok r → r = roundDown 4096 a
  up_total : ∀ {a}, a ≤ limit → ∃ r, align.alignUp a = .ok r
  down_total : ∀ {a}, a ≤ limit → ∃ r, align.alignDown a = .ok r

/-- An address of a free or reclaimable span. -/
def Usable (m : ℕ → Option SpanType) (p : ℕ) : Prop := ∃ ty, m p = some ty ∧ ty.isUsable

/-- The types after ranges were claimed. -/
def claimed (m : ℕ → Option SpanType) (rs : List PhysRange) (p : ℕ) : Option SpanType :=
  if ∃ r ∈ rs, r.Contains p then some .inUse else m p

lemma claimed_append (r : PhysRange) :
    claimed m (rs ++ [r]) = paint (claimed m rs) r.start r.end_ (some .inUse) := by
  funext p
  by_cases hr : r.Contains p
  · rw [claimed, if_pos ⟨r,by simp,hr⟩]
    exact (if_pos hr).symm
  · have hiff : (∃ s ∈ rs ++ [r], s.Contains p) ↔ ∃ s ∈ rs, s.Contains p := by
      simp [or_and_right, exists_or, hr]
    rw [claimed, if_congr hiff rfl rfl]
    exact (if_neg hr).symm

/-- The faults of handing out frames: a lack of slots, or usable addresses beyond the limit. -/
def HandOverFault (enough : Prop) (limit : ℕ) (m : ℕ → Option SpanType) (e : Fault) : Prop :=
  (e = BootAlloc.ranOut ∧ ¬ enough) ∨ ∃ p, limit ≤ p ∧ Usable m p

/-- Rounding fails beyond the limit only. -/
lemma PageAlign.Lawful.outcome (hal : align.Lawful limit) {m : ℕ → Option SpanType} {lo hi : ℕ}
    (hlt : lo < hi) (hus : ∀ p, lo ≤ p → p < hi → Usable m p) (enough : Prop) :
    Outcome (align.alignUp lo) (HandOverFault enough limit m) (· = roundUp 4096 lo) ∧
      Outcome (align.alignDown hi) (HandOverFault enough limit m) (· = roundDown 4096 hi) := by
  constructor
  · cases hup : align.alignUp lo with
    | ok r => exact hal.up hup
    | error e =>
      by_cases hlim : lo ≤ limit
      · obtain ⟨r,hr⟩ := hal.up_total hlim
        simp [hr] at hup
      · exact Or.inr ⟨lo,by omega,hus lo le_rfl hlt⟩
  · cases hdown : align.alignDown hi with
    | ok r => exact hal.down hdown
    | error e =>
      by_cases hlim : hi ≤ limit
      · obtain ⟨r,hr⟩ := hal.down_total hlim
        simp [hr] at hdown
      · exact Or.inr ⟨hi-1,by omega,hus (hi-1) (by omega) (by omega)⟩

/-- The spans from `q` on come from the spans `ys` by joining some. -/
def CoversFrom (q : ℕ) (xs ys : List Span) : Prop := ∀ z ∈ xs, q ≤ z.start →
  ∃ w ∈ ys, w.end_ = z.end_ ∧ w.spanType = z.spanType ∧ z.start ≤ w.start

lemma CoversFrom.trans {q : ℕ} {xs ys zs : List Span} (h : CoversFrom q xs ys)
    (h' : CoversFrom q ys zs) : CoversFrom q xs zs := by
  intro z hz hq
  obtain ⟨w,hw,h1,h2,h3⟩ := h z hz hq
  obtain ⟨u,hu,h4,h5,h6⟩ := h' w hw (hq.trans h3)
  exact ⟨u,hu,h4.trans h1,h5.trans h2,h3.trans h6⟩

lemma Inserted.coversFrom {span : Span} {b' : BootAlloc} {fl' : List ℕ} {q : ℕ}
    (h : Inserted n t fl span b' t' fl') (hq : span.start < q) :
    CoversFrom q (values t') (values t) := by
  intro z hz hle
  rcases h.covers z hz with rfl | hw
  · omega
  · exact hw

/-- Insertion of a free piece of a span that starts before `q`. -/
lemma Valid.insertFree (h : Valid n b t fl []) {lo hi q : ℕ} (hhi : hi < 2^64) (hq : lo < hi → lo < q)
    (hfree : ∀ p, lo ≤ p → p < hi → denote view t p = none) :
    Outcome (b.insertFree lo hi) (fun e => e = BootAlloc.ranOut ∧ fl.length = 0) fun b' =>
      ∃ t' fl', Valid n b' t' fl' [] ∧
        denote view t' = paint (denote view t) lo hi (some .free) ∧
        CoversFrom q (values t') (values t) ∧ fl.length ≤ fl'.length + 1 := by
  unfold BootAlloc.insertFree
  split_ifs with hc
  · refine (h.insert ⟨lo,hi,.free⟩ hc hhi hfree).mono (fun e he => ⟨he.1,by simp [he.2]⟩) ?_
    rintro b' ⟨t',fl',hins⟩
    exact ⟨t',fl',hins.valid,hins.denote,hins.coversFrom (hq hc),hins.free⟩
  · refine ⟨t,fl,h,?_,fun z hz _ => ⟨z,hz,rfl,rfl,le_rfl⟩,by omega⟩
    funext p
    rw [paint, if_neg (by omega)]

/-- Cutting the pages from `start` to `end_` out of a free span. -/
lemma Valid.claim (h : Valid n b t fl []) {x : ℕ × Span} (hx : x ∈ t.toList)
    (hty : x.2.spanType = .free) {start end_ : ℕ} (h1 : x.2.start ≤ start) (h2 : start < end_)
    (h3 : end_ ≤ x.2.end_) :
    Outcome (b.claim x.1 x.2 start end_) (fun e => e = BootAlloc.ranOut ∧ fl.length < 2) fun b' =>
      ∃ t' fl', Valid n b' t' fl' [] ∧
        denote view t' = paint (denote view t) start end_ (some .inUse) ∧
        CoversFrom x.2.end_ (values t') (values t) ∧ fl.length ≤ fl'.length + 2 := by
  have hxb := h.bounded x.2 (mem_values hx)
  have hin : ∀ p, x.2.start ≤ p → p < x.2.end_ → denote view t p = some .free :=
    fun p hp1 hp2 => hty ▸ h.tree.denote_of_mem hx hp1 hp2
  obtain ⟨b1,t1,before,after,hr,hv1,hl,hl1⟩ := h.remove hx
  have hm1 : denote view t1 = paint (denote view t) x.2.start x.2.end_ none :=
    h.tree.denote_remove hl hl1
  have hc1 : CoversFrom x.2.end_ (values t1) (values t) := by
    intro z hz _
    refine ⟨z,?_,rfl,rfl,le_rfl⟩
    rw [values_eq_append hl1] at hz
    rw [values_eq_append hl, List.map_cons]
    simp only [List.mem_append, List.mem_cons] at hz ⊢
    tauto
  have hnone : ∀ p, x.2.start ≤ p → p < x.2.end_ → denote view t1 p = none := by
    intro p hp1 hp2
    rw [hm1]
    exact if_pos ⟨hp1,hp2⟩
  unfold BootAlloc.claim
  refine Outcome.bind_eq hr ?_
  -- the pages
  refine Outcome.bind ((hv1.insert ⟨start,end_,.inUse⟩ h2 (by simp only; omega) fun p hp1 hp2 =>
    hnone p (h1.trans hp1) (hp2.trans_le h3)).mono (fun e he => ⟨he.1,by simp at he⟩) fun _ h => h) ?_
  rintro b2 ⟨t2,fl2,hins⟩
  have hm2 := hins.denote
  have hf2 := hins.free
  simp only [List.length_cons] at hm2 hf2
  -- what is left in front of them
  have hfront := hins.valid.insertFree (by omega : start < 2^64)
    (fun _ => by omega : x.2.start < start → x.2.start < x.2.end_) fun p hp1 hp2 => by
      rw [hm2, paint, if_neg (by omega)]
      exact hnone p hp1 (by omega)
  refine Outcome.bind (hfront.mono (fun e he => ⟨he.1,by omega⟩) fun _ h => h) ?_
  rintro b3 ⟨t3,fl3,hv3,hm3,hc3,hf3⟩
  -- what is left behind them
  have hback := hv3.insertFree hxb (fun h => h : end_ < x.2.end_ → end_ < x.2.end_) fun p hp1 hp2 => by
      rw [hm3, paint, if_neg (by omega), hm2, paint, if_neg (by omega)]
      exact hnone p (by omega) hp2
  refine hback.mono (fun e he => ⟨he.1,by omega⟩) ?_
  rintro b4 ⟨t4,fl4,hv4,hm4,hc4,hf4⟩
  refine ⟨t4,fl4,hv4,?_,hc4.trans (hc3.trans ((hins.coversFrom (by simp only; omega)).trans hc1)),
    by omega⟩
  funext p
  have hp := hin p
  simp only [hm4, hm3, hm2, hm1, paint]
  split_ifs <;> first | rfl | omega | exact (hp (by omega) (by omega)).symm

/-- The ends of the spans from `q` on, one for each round of `claim_free_ranges` to come. -/
def ends (q : ℕ) (xs : List Span) : Finset ℕ := ((xs.filter fun x => q ≤ x.start).map Span.end_).toFinset

lemma mem_ends {q e : ℕ} {xs : List Span} : e ∈ ends q xs ↔ ∃ x ∈ xs, q ≤ x.start ∧ x.end_ = e := by
  simp [ends, and_assoc]

/-- A round leaves fewer spans to come. -/
lemma ends_lt {q : ℕ} {xs ys : List Span} {x : Span} (hx : x ∈ ys) (hq : q ≤ x.start)
    (hlt : x.start < x.end_) (hxs : ∀ z ∈ xs, z.start < z.end_) (h : CoversFrom x.end_ xs ys) :
    (ends x.end_ xs).card < (ends q ys).card := by
  refine Finset.card_lt_card ((Finset.ssubset_iff_of_subset ?_).mpr ⟨x.end_,?_,?_⟩)
  · intro e he
    obtain ⟨z,hz,h1,rfl⟩ := mem_ends.mp he
    obtain ⟨w,hw,h2,_,h3⟩ := h z hz h1
    exact mem_ends.mpr ⟨w,hw,by omega,h2⟩
  · exact mem_ends.mpr ⟨x,hx,hq,rfl⟩
  · intro he
    obtain ⟨z,hz,h1,h2⟩ := mem_ends.mp he
    have := hxs z hz
    omega

/-- The invariant of the loop of `claim_free_ranges`, which has claimed the ranges `rs` and has come
to `addr`: from there on every free span is a maximal one, and `addr` is not inside of one. -/
structure ClaimInv (n : ℕ) (m : ℕ → Option SpanType) (b : BootAlloc) (t : CTree (ℕ × Span))
    (fl : List ℕ) (addr : ℕ) (rs : List PhysRange) : Prop where
  valid : Valid n b t fl []
  frames : FramesUpTo (fun p => m p = some .free) addr rs
  types : denote view t = claimed m rs
  maximal : ∀ y ∈ values t, y.spanType = .free → addr ≤ y.start → denote view t y.end_ ≠ some .free
  border : ∀ p, p+1 = addr → denote view t p = some .free → denote view t addr ≠ some .free

namespace ClaimInv
variable {addr : ℕ}

/-- What is to come has the types it had before. -/
lemma types_eq (h : ClaimInv n m b t fl addr rs) {p : ℕ} (hp : addr ≤ p) : denote view t p = m p := by
  rw [h.types, claimed, if_neg]
  rintro ⟨r,hr,_,h2⟩
  have := h.frames.le r hr
  omega

/-- Before the next span nothing is free. -/
lemma not_free (h : ClaimInv n m b t fl addr rs) {x : Span}
    (hnext : ∀ y ∈ values t, addr ≤ y.start → y = x ∨ x.end_ ≤ y.start) (hx : x.start < x.end_)
    {p : ℕ} (h1 : addr ≤ p) (h2 : p < x.start) : m p ≠ some .free := by
  intro hp
  rw [← h.types_eq h1] at hp
  obtain ⟨z,hz,⟨hz1,hz2⟩,hty⟩ := h.valid.tree.wf.lookup_eq_some.mp hp
  have hz1 : z.start ≤ p := hz1
  have hz2 : p < z.end_ := hz2
  by_cases hc : addr ≤ z.start
  · rcases hnext z hz hc with rfl | hle
    · omega
    · omega
  · -- a free span around `addr`
    have hin : ∀ q, z.start ≤ q → q < z.end_ → denote view t q = some .free := fun q hq1 hq2 =>
      hty ▸ h.valid.tree.wf.lookup_of_mem hz ⟨hq1,hq2⟩
    exact h.border (addr-1) (by omega) (hin _ (by omega) (by omega)) (hin _ (by omega) (by omega))

/-- The span at hand as a maximal run of free addresses. -/
lemma run (h : ClaimInv n m b t fl addr rs) {x : Span} (hx : x ∈ values t) (hle : addr ≤ x.start)
    (hnext : ∀ y ∈ values t, addr ≤ y.start → y = x ∨ x.end_ ≤ y.start)
    (hty : x.spanType = .free) :
    FramesUpTo (fun p => m p = some .free) x.end_ (rs ++ innerPages x.start x.end_) := by
  have hlt : x.start < x.end_ := h.valid.tree.wf.proper x hx
  refine (h.frames.skip hle fun p hp1 hp2 => h.not_free hnext hlt hp1 hp2).run hlt ?_ ?_
  · intro p hp1 hp2
    rw [← h.types_eq (hle.trans hp1)]
    exact hty ▸ h.valid.tree.wf.lookup_of_mem hx ⟨hp1,hp2⟩
  · rw [← h.types_eq (hle.trans hlt.le)]
    exact h.maximal x hx hty hle

/-- A round that leaves the spans as they are. -/
lemma stay (h : ClaimInv n m b t fl addr rs) {x : Span} (hx : x ∈ values t) (hle : addr ≤ x.start)
    (hfr : FramesUpTo (fun p => m p = some .free) x.end_ rs) : ClaimInv n m b t fl x.end_ rs := by
  have hlt : x.start < x.end_ := h.valid.tree.wf.proper x hx
  refine ⟨h.valid,hfr,h.types,fun y hy h1 h2 => h.maximal y hy h1 (by omega),fun p hp1 hp2 => ?_⟩
  have hp : denote view t p = some x.spanType :=
    h.valid.tree.wf.lookup_of_mem hx ⟨show x.start ≤ p by omega,show p < x.end_ by omega⟩
  exact h.maximal x hx (Option.some.inj (hp.symm.trans hp2)) hle

/-- A round of `claim_free_ranges`. -/
theorem round (hal : align.Lawful limit) (h : ClaimInv n m b t fl addr rs) {x : ℕ × Span}
    (hx : x ∈ t.toList) (hle : addr ≤ x.2.start)
    (hnext : ∀ y ∈ values t, addr ≤ y.start → y = x.2 ∨ x.2.end_ ≤ y.start) {enough : Prop}
    (hslots : enough → 2*(ends addr (values t)).card ≤ fl.length) :
    Outcome (b.claimRound align x.1 x.2) (HandOverFault enough limit m) fun r => ∃ t' fl',
      ClaimInv n m r.2 t' fl' x.2.end_ (rs ++ r.1) ∧
      (ends x.2.end_ (values t')).card < (ends addr (values t)).card ∧ fl.length ≤ fl'.length + 2 := by
  have hxv := mem_values hx
  have hlt : x.2.start < x.2.end_ := h.valid.tree.proper hx
  have hin : ∀ p, x.2.start ≤ p → p < x.2.end_ → m p = some x.2.spanType := fun p h1 h2 => by
    rw [← h.types_eq (hle.trans h1)]
    exact h.valid.tree.denote_of_mem hx h1 h2
  have hsame : (ends x.2.end_ (values t)).card < (ends addr (values t)).card :=
    ends_lt hxv hle hlt (fun z hz => h.valid.tree.wf.proper z hz)
      fun z hz _ => ⟨z,hz,rfl,rfl,le_rfl⟩
  unfold BootAlloc.claimRound
  split_ifs with hty
  · have hus : ∀ p, x.2.start ≤ p → p < x.2.end_ → Usable m p := fun p h1 h2 =>
      ⟨_,hin p h1 h2,by rw [hty]; rfl⟩
    obtain ⟨hup,hdown⟩ := hal.outcome hlt hus enough
    have hrun := h.run hxv hle hnext hty
    unfold innerPages at hrun
    refine hup.bind ?_
    rintro start hs
    refine hdown.bind ?_
    rintro end_ he
    rw [← hs, ← he] at hrun
    split_ifs with hse
    · rw [if_pos hse] at hrun
      have h1 : x.2.start ≤ start := by rw [hs]; unfold roundUp; omega
      have h3 : end_ ≤ x.2.end_ := by rw [he]; unfold roundDown; omega
      have hone : 0 < (ends addr (values t)).card :=
        Finset.card_pos.mpr ⟨x.2.end_,mem_ends.mpr ⟨x.2,hxv,hle,rfl⟩⟩
      have hclaim := h.valid.claim hx hty h1 hse h3
      cases hc : b.claim x.1 x.2 start end_ with
      | error e =>
        rw [hc] at hclaim
        exact Or.inl ⟨hclaim.1,fun hen => absurd (hslots hen) (by have := hclaim.2; omega)⟩
      | ok b' =>
        obtain ⟨t',fl',hv',hm',hcov,hfl⟩ := hclaim.result hc
        have hbehind : ∀ p, x.2.end_ ≤ p → denote view t' p = denote view t p := by
          intro p hp
          rw [hm', paint, if_neg (by omega)]
        refine ⟨t',fl',⟨hv',hrun,?_,fun y hy hyt hyq => ?_,fun p hp1 _ => ?_⟩,?_,hfl⟩
        · rw [hm', h.types, claimed_append]
        · obtain ⟨w,hw,h4,h5,h6⟩ := hcov y hy hyq
          have hyp : y.start < y.end_ := hv'.tree.wf.proper y hy
          rw [hbehind _ (by omega), ← h4]
          exact h.maximal w hw (h5.trans hyt) (by omega)
        · rw [hbehind _ le_rfl]
          exact h.maximal x.2 hxv hty hle
        · exact ends_lt hxv hle hlt (fun z hz => hv'.tree.wf.proper z hz) hcov
    · rw [if_neg hse] at hrun
      have hst := h.stay hxv hle (by simpa using hrun)
      exact ⟨t,fl,by simpa using hst,hsame,by omega⟩
  · refine ⟨t,fl,?_,hsame,by omega⟩
    have hst := h.stay hxv hle ((h.frames.skip hle fun p hp1 hp2 => h.not_free hnext hlt hp1 hp2).skip
      hlt.le fun p hp1 hp2 => by rw [hin p hp1 hp2]; simpa using hty)
    simpa using hst

/-- The loop of `claim_free_ranges`. -/
theorem loop (hal : align.Lawful limit) {enough : Prop} (fuel : ℕ)
    (h : ClaimInv n m b t fl addr rs) (hf : (ends addr (values t)).card < fuel)
    (hslots : enough → 2*(ends addr (values t)).card ≤ fl.length) :
    Outcome (BootAlloc.claimLoop align fuel b addr) (HandOverFault enough limit m) fun r => ∃ t' fl',
      Valid n r.2 t' fl' [] ∧ Frames (fun p => m p = some .free) (rs ++ r.1) ∧
      denote view t' = claimed m (rs ++ r.1) := by
  induction fuel generalizing b t fl addr rs with
  | zero => omega
  | succ fuel ih =>
    unfold BootAlloc.claimLoop
    rcases h.valid.tree.lowerBound_lo addr fun x _ =>
      (rfl : decide (x.start ≥ addr) = decide (addr ≤ view.lo x)) with ⟨hlb,hno⟩ | ⟨x,hx,hlb,hle,hnext⟩
    · refine Outcome.bind_eq hlb ⟨t,fl,h.valid,?_,by simpa using h.types⟩
      have hfin : Frames (fun p => m p = some .free) rs := by
        refine h.frames.finish fun p hp hfree => ?_
        -- no span starts after it, so it is in a span around `addr`
        rw [← h.types_eq hp] at hfree
        obtain ⟨z,hz,⟨hz1,hz2⟩,hty⟩ := h.valid.tree.wf.lookup_eq_some.mp hfree
        have hz1 : z.start ≤ p := hz1
        have hz2 : p < z.end_ := hz2
        have hlo : z.start < addr := hno z hz
        have hin : ∀ q, z.start ≤ q → q < z.end_ → denote view t q = some .free := fun q hq1 hq2 =>
          hty ▸ h.valid.tree.wf.lookup_of_mem hz ⟨hq1,hq2⟩
        exact h.border (addr-1) (by omega) (hin _ (by omega) (by omega)) (hin _ (by omega) (by omega))
      simpa using hfin
    · refine Outcome.bind_eq hlb ?_
      obtain ⟨nx,_,hnx,hvx,_⟩ := h.valid.tree.valid.node_of_mem hx
      refine Outcome.bind_eq (deref_eq hnx) ?_
      rw [hvx]
      refine (h.round hal hx hle hnext hslots).bind ?_
      rintro ⟨claimed1,b1⟩ ⟨t1,fl1,hinv,hcard,hfl⟩
      refine (ih hinv (by omega) fun hen => by have := hslots hen; omega).bind ?_
      rintro ⟨rest,b2⟩ ⟨t2,fl2,hv2,hfr,hm2⟩
      rw [List.append_assoc] at hfr hm2
      exact ⟨t2,fl2,hv2,hfr,hm2⟩

end ClaimInv

/-- `claim_free_ranges` hands out the frames that are free as a whole, and marks them as in use. -/
theorem Valid.claimFreeRanges (hal : align.Lawful limit) (h : Valid n b t fl []) :
    Outcome (b.claimFreeRanges align)
      (HandOverFault (2*(values t).length ≤ fl.length) limit (denote view t)) fun r => ∃ t' fl',
        Valid n r.2 t' fl' [] ∧ Frames (fun p => denote view t p = some .free) r.1 ∧
        denote view t' = claimed (denote view t) r.1 := by
  obtain ⟨b1,t1,fl1,h1,h2,h3,h4,h5,h6,_⟩ := h.compact
  unfold BootAlloc.claimFreeRanges
  refine Outcome.bind_eq h1 ?_
  have hinv : ClaimInv n (denote view t) b1 t1 fl1 0 [] := by
    refine ⟨h2,FramesUpTo.nil,?_,fun y hy hty _ => hty ▸ h6 y hy,fun p hp => by omega⟩
    funext p
    simp [h3, claimed]
  have hcard : (ends 0 (values t1)).card ≤ (values t).length := by
    have hsub : ends 0 (values t1) ⊆ ((values t).map Span.end_).toFinset := by
      intro e he
      obtain ⟨z,hz,_,rfl⟩ := mem_ends.mp he
      obtain ⟨w,hw,hwz,_⟩ := h4 z hz
      simp only [List.mem_toFinset, List.mem_map]
      exact ⟨w,hw,hwz⟩
    calc (ends 0 (values t1)).card ≤ ((values t).map Span.end_).toFinset.card := Finset.card_le_card hsub
      _ ≤ ((values t).map Span.end_).length := List.toFinset_card_le _
      _ = (values t).length := List.length_map _
  have hfuel : (values t).length < b1.tree.heap.bound := by
    have hb := h.lt_bound
    simp only [values, List.length_map, Heap.bound, h.size, h2.size] at hb ⊢
    exact hb
  have hslots : 2*(values t).length ≤ fl.length → 2*(ends 0 (values t1)).card ≤ fl1.length := by omega
  have hloop := hinv.loop hal b1.tree.heap.bound (by omega) hslots
  simpa using hloop

end Lilith.Boot
