import Lilith.Boot.Compact

/-! `update` changes the type of every address of its range and of no other, also when `compact`
runs between its own insertions. -/
namespace Lilith.Boot
open Theory PtrGraph CTree Rbtree

variable {n : ℕ} {b : BootAlloc} {t : CTree (ℕ × Span)} {fl : List ℕ}
  {f : Option SpanType → Except Fault SpanType} {m m' m'' : ℕ → Option SpanType} {E : Set ℕ}

/-- The map `m'` is `m` with the types from `lo` up to `hi` updated by `f`. -/
structure Updated (f : Option SpanType → Except Fault SpanType) (m m' : ℕ → Option SpanType)
    (lo hi : ℕ) : Prop where
  inside : ∀ p, lo ≤ p → p < hi → ∃ w, f (m p) = .ok w ∧ m' p = some w
  outside : ∀ p, p < lo ∨ hi ≤ p → m' p = m p

/-- The spans start and end at the addresses `E` only. -/
def Cut (E : Set ℕ) (t : CTree (ℕ × Span)) : Prop := ∀ x ∈ values t, x.start ∈ E ∧ x.end_ ∈ E

lemma Cut.univ (t : CTree (ℕ × Span)) : Cut Set.univ t := fun _ _ => ⟨Set.mem_univ _,Set.mem_univ _⟩

/-- There are more than `n` addresses where spans can start. -/
def Crowded (n : ℕ) (E : Set ℕ) : Prop := ∃ F : Finset ℕ, (∀ a ∈ F, a ∈ E) ∧ n < F.card

/-- The faults of an update: no slot, or one of the update function at a type in the range. -/
def UpdateFault (n : ℕ) (E : Set ℕ) (f : Option SpanType → Except Fault SpanType) (m : ℕ → Option SpanType) (lo hi : ℕ)
    (e : Fault) : Prop :=
  e = BootAlloc.ranOut ∧ Crowded n E ∨ ∃ p, lo ≤ p ∧ p < hi ∧ f (m p) = .error e

lemma Updated.refl (lo : ℕ) : Updated f m m lo lo := ⟨fun p h1 h2 => by omega,fun _ _ => rfl⟩

lemma Updated.trans {lo mid hi : ℕ} (h : Updated f m m' lo mid) (h' : Updated f m' m'' mid hi)
    (h1 : lo ≤ mid) (h2 : mid ≤ hi) : Updated f m m'' lo hi := by
  refine ⟨fun p hp1 hp2 => ?_,fun p hp => ?_⟩
  · by_cases hm : p < mid
    · rw [h'.outside p (Or.inl hm)]
      exact h.inside p hp1 hm
    · rw [← h.outside p (Or.inr (by omega))]
      exact h'.inside p (by omega) hp2
  · rw [h'.outside p (by omega), h.outside p (by omega)]

/-- An update of a part faults like an update of the whole. -/
lemma Updated.fault {lo mid hi : ℕ} {e : Fault} (h : Updated f m m' lo mid)
    (h1 : lo ≤ mid) (he : UpdateFault n E f m' mid hi e) : UpdateFault n E f m lo hi e := by
  rcases he with hc | ⟨p,hp1,hp2,hp3⟩
  · exact Or.inl hc
  · rw [h.outside p (Or.inr hp1)] at hp3
    exact Or.inr ⟨p,by omega,hp2,hp3⟩

/-- The update function gives a type or a fault. -/
lemma outcome_apply (n : ℕ) (E : Set ℕ) (f : Option SpanType → Except Fault SpanType) (m : ℕ → Option SpanType)
    {lo hi p : ℕ} (h1 : lo ≤ p) (h2 : p < hi) :
    Outcome (f (m p)) (UpdateFault n E f m lo hi) fun w => f (m p) = .ok w := by
  cases hf : f (m p) with
  | ok w => exact rfl
  | error e => exact Or.inr ⟨p,h1,h2,hf⟩

/-- The map while a round has taken out the span from `lo` to `hi` and handled what is in front of
`addr'`: the rest of the old span is missing. -/
structure Fronted (f : Option SpanType → Except Fault SpanType) (m m' : ℕ → Option SpanType)
    (addr addr' hi : ℕ) : Prop where
  missing : ∀ p, addr' ≤ p → p < hi → m' p = none
  inside : ∀ p, addr ≤ p → p < addr' → ∃ w, f (m p) = .ok w ∧ m' p = some w
  outside : ∀ p, p < addr ∨ hi ≤ p → m' p = m p

/-- When all slots are in use, there are more addresses where spans start than slots. -/
lemma Valid.crowded (h : Valid n b t [] []) (hcut : Cut E t) {a : ℕ} (ha : a ∈ E) (hfree : denote view t a = none) :
    Crowded n E := by
  have hstart : ∀ x ∈ values t, x.start ≠ a := fun x hx he => by
    rw [← he] at hfree
    unfold denote at hfree
    rw [SpanView.lookup_eq_none] at hfree
    exact hfree x hx ⟨le_rfl,h.tree.wf.proper x hx⟩
  refine ⟨Insert.insert a ((values t).map Span.start).toFinset,fun c hc => ?_,?_⟩
  · rw [Finset.mem_insert, List.mem_toFinset, List.mem_map] at hc
    rcases hc with rfl | ⟨x,hx,rfl⟩
    · exact ha
    · exact (hcut x hx).1
  · rw [Finset.card_insert_of_notMem, List.toFinset_card_of_nodup, List.length_map]
    · have hcount := h.count
      simp only [List.length_nil, Nat.add_zero] at hcount
      simp only [values, List.length_map]
      omega
    · exact List.pairwise_map.mpr (h.tree.wf.lo_lt.imp fun hlt => hlt.ne)
    · rw [List.mem_toFinset, List.mem_map]
      rintro ⟨x,hx,he⟩
      exact hstart x hx he

/-- `insert` for a caller that has its own faults. -/
lemma Valid.insert_outcome (h : Valid n b t fl []) (hcut : Cut E t) (span : Span) (hlt : span.start < span.end_)
    (hb : span.end_ < 2^64) (hfree : ∀ p, span.start ≤ p → p < span.end_ → denote view t p = none)
    (hstart : span.start ∈ E) (hend : span.end_ ∈ E) (lo hi : ℕ) :
    Outcome (b.insert span) (UpdateFault n E f m lo hi) fun b' =>
      ∃ t' fl', Inserted n t fl span b' t' fl' ∧ Cut E t' := by
  refine (h.insert span hlt hb hfree).mono (fun e he => ?_) fun b' hins => ?_
  · obtain ⟨he,rfl⟩ := he
    exact Or.inl ⟨he,h.crowded hcut hstart (hfree span.start le_rfl hlt)⟩
  · obtain ⟨t',fl',hins⟩ := hins
    refine ⟨t',fl',hins,fun z hz => ⟨?_,?_⟩⟩
    · rcases hins.starts z hz with rfl | ⟨w,hw,he⟩
      · exact hstart
      · rw [← he]
        exact (hcut w hw).1
    · rcases hins.covers z hz with rfl | ⟨w,hw,he,_⟩
      · exact hend
      · rw [← he]
        exact (hcut w hw).2

/-- What is in front of the overlap of the range with a span that was taken out. -/
lemma Valid.updateFront (h : Valid n b t fl []) (hcut : Cut E t) {x : Span} {addr end_ : ℕ} (ha : addr ∈ E)
    (hxE : x.start ∈ E) (hx : x.start < x.end_)
    (hxb : x.end_ < 2^64) (h1 : addr < x.end_) (h2 : x.start < end_)
    (hgap : ∀ p, addr ≤ p → p < x.start → m p = none)
    (hin : ∀ p, x.start ≤ p → p < x.end_ → m p = some x.spanType)
    (hm : denote view t = paint m x.start x.end_ none) :
    Outcome (b.updateFront addr f x) (UpdateFault n E f m addr end_) fun r =>
      r.1 = max addr x.start ∧ ∃ t' fl', Valid n r.2 t' fl' [] ∧ Cut E t' ∧
        Fronted f m (denote view t') addr r.1 x.end_ := by
  have hnone : ∀ p, x.start ≤ p → p < x.end_ → denote view t p = none := by
    intro p hp1 hp2
    rw [hm]
    exact if_pos ⟨hp1,hp2⟩
  have hsame : ∀ p, p < x.start ∨ x.end_ ≤ p → denote view t p = m p := by
    intro p hp
    rw [hm]
    exact if_neg (by omega)
  unfold BootAlloc.updateFront
  split_ifs with hc1 hc2
  · -- a gap in front of the span
    have hma : m addr = none := hgap addr le_rfl hc1
    have hu := outcome_apply n E f m le_rfl (by omega : addr < end_)
    rw [hma] at hu
    refine hu.bind fun w hw => ?_
    refine (h.insert_outcome hcut _ hc1 (by simp only; omega) (fun p hp1 hp2 => ?_) ha hxE addr end_).bind ?_
    · simp only at hp1 hp2
      rw [hsame p (Or.inl hp2), hgap p hp1 hp2]
    · rintro b' ⟨t',fl',hins,hcut'⟩
      refine ⟨by simp only; omega,t',fl',hins.valid,hcut',?_,?_,?_⟩
      all_goals simp only [hins.denote, paint]
      · intro p hp1 hp2
        rw [if_neg (by omega)]
        exact hnone p hp1 hp2
      · intro p hp1 hp2
        rw [if_pos ⟨hp1,hp2⟩, hgap p hp1 hp2]
        exact ⟨w,hw,rfl⟩
      · intro p hp
        rw [if_neg (by omega)]
        exact hsame p (by omega)
  · -- a piece of the span in front of the range
    refine (h.insert_outcome hcut ⟨x.start,addr,x.spanType⟩ hc2 (by simp only; omega) (fun p hp1 hp2 => ?_) hxE ha addr end_).bind ?_
    · simp only at hp1 hp2
      exact hnone p hp1 (by omega)
    · rintro b' ⟨t',fl',hins,hcut'⟩
      refine ⟨by simp only; omega,t',fl',hins.valid,hcut',?_,?_,?_⟩
      all_goals simp only [hins.denote, paint]
      · intro p hp1 hp2
        rw [if_neg (by omega)]
        exact hnone p (by omega) hp2
      · intro p hp1 hp2
        omega
      · intro p hp
        split_ifs with hq
        · exact (hin p hq.1 (by omega)).symm
        · exact hsame p (by omega)
  · obtain rfl : addr = x.start := by omega
    refine ⟨by simp,t,fl,h,hcut,hnone,fun p hp1 hp2 => by simp only at hp2; omega,fun p hp => hsame p hp⟩

/-- One round of the loop. -/
theorem Valid.updateRound (h : Valid n b t fl []) (hcut : Cut E t) {x : ℕ × Span} (hx : x ∈ t.toList) {addr end_ : ℕ}
    (ha : addr ∈ E) (he : end_ ∈ E)
    (h1 : addr < x.2.end_) (h2 : x.2.start < end_) (h3 : addr < end_) (hend : end_ < 2^64)
    (hgap : ∀ p, addr ≤ p → p < x.2.start → denote view t p = none) :
    Outcome (b.updateRound addr end_ f x.1) (UpdateFault n E f (denote view t) addr end_) fun r =>
      addr < r.1 ∧ r.1 ≤ end_ ∧ r.1 ∈ E ∧ ∃ t' fl', Valid n r.2 t' fl' [] ∧ Cut E t' ∧
        Updated f (denote view t) (denote view t') addr r.1 := by
  have hlt : x.2.start < x.2.end_ := h.tree.proper hx
  have hxb := h.bounded x.2 (mem_values hx)
  have hin : ∀ p, x.2.start ≤ p → p < x.2.end_ → denote view t p = some x.2.spanType :=
    fun p hp1 hp2 => h.tree.denote_of_mem hx hp1 hp2
  obtain ⟨b1,t1,before,after,hr,hv1,hl,hl1⟩ := h.remove hx
  have hm1 := h.tree.denote_remove hl hl1
  obtain ⟨hxE,hxE'⟩ := hcut x.2 (mem_values hx)
  have hcut1 : Cut E t1 := fun z hz => hcut z (by
    rw [values_eq_append hl1] at hz
    rw [values_eq_append hl, List.map_cons]
    simp only [List.mem_append, List.mem_cons] at hz ⊢
    tauto)
  unfold BootAlloc.updateRound
  refine Outcome.bind_eq hr ?_
  refine (hv1.updateFront hcut1 ha hxE hlt hxb h1 h2 hgap hin hm1).bind ?_
  rintro ⟨addr1,b2⟩ ⟨ha1,t2,fl2,hv2,hcut2,hfr⟩
  simp only at ha1 hv2 hfr ⊢
  have ha1E : addr1 ∈ E := by
    rw [ha1]
    rcases max_choice addr x.2.start with hmax | hmax
    · rwa [hmax]
    · rwa [hmax]
  have hminE : min x.2.end_ end_ ∈ E := by
    rcases min_choice x.2.end_ end_ with hmin | hmin
    · rwa [hmin]
    · rwa [hmin]
  -- the overlap
  have hover : denote view t addr1 = some x.2.spanType := hin addr1 (by omega) (by omega)
  have hu := outcome_apply n E f (denote view t) (by omega : addr ≤ addr1) (by omega : addr1 < end_)
  rw [hover] at hu
  refine hu.bind fun w hw => ?_
  refine (hv2.insert_outcome hcut2 _ (by simp only; omega) (by simp only; omega) (fun p hp1 hp2 => ?_)
    ha1E hminE addr end_).bind ?_
  · simp only at hp1 hp2
    exact hfr.missing p hp1 (by omega)
  rintro b3 ⟨t3,fl3,hins,hcut3⟩
  have hm3 := hins.denote
  simp only at hm3
  split_ifs with hc
  · -- the piece of the span behind the range
    refine (hins.valid.insert_outcome hcut3 ⟨end_,x.2.end_,x.2.spanType⟩ hc hxb (fun p hp1 hp2 => ?_)
      he hxE' addr end_).bind ?_
    · simp only at hp1 hp2
      rw [hm3, paint, if_neg (by omega)]
      exact hfr.missing p (by omega) hp2
    rintro b4 ⟨t4,fl4,hins4,hcut4⟩
    refine ⟨by simp only; omega,by simp,hminE,t4,fl4,hins4.valid,hcut4,fun p hp1 hp2 => ?_,fun p hp => ?_⟩
    all_goals simp only [hins4.denote, hm3, paint]
    · simp only at hp2
      rw [if_neg (by omega)]
      by_cases hp3 : addr1 ≤ p
      · rw [if_pos ⟨hp3,hp2⟩, hin p (by omega) (by omega)]
        exact ⟨w,hw,rfl⟩
      · rw [if_neg (by omega)]
        exact hfr.inside p hp1 (by omega)
    · simp only at hp
      split_ifs with hp3 hp4
      · exact (hin p (by omega) hp3.2).symm
      · omega
      · exact hfr.outside p (by omega)
  · refine ⟨by simp only; omega,by simp,hminE,t3,fl3,hins.valid,hcut3,fun p hp1 hp2 => ?_,fun p hp => ?_⟩
    all_goals simp only [hm3, paint]
    · simp only at hp2
      by_cases hp3 : addr1 ≤ p
      · rw [if_pos ⟨hp3,hp2⟩, hin p (by omega) (by omega)]
        exact ⟨w,hw,rfl⟩
      · rw [if_neg (by omega)]
        exact hfr.inside p hp1 (by omega)
    · simp only at hp
      rw [if_neg (by omega)]
      exact hfr.outside p (by omega)

/-- The loop: from where it stops on, the range is in no span. -/
lemma Valid.updateLoop (fuel : ℕ) (h : Valid n b t fl []) (hcut : Cut E t) {addr end_ : ℕ} (ha : addr ∈ E) (he : end_ ∈ E)
    (hle : addr ≤ end_) (hend : end_ < 2^64) (hf : end_ - addr < fuel) :
    Outcome (BootAlloc.updateLoop end_ f fuel b addr) (UpdateFault n E f (denote view t) addr end_) fun r =>
      addr ≤ r.1 ∧ r.1 ≤ end_ ∧ r.1 ∈ E ∧ ∃ t' fl', Valid n r.2 t' fl' [] ∧ Cut E t' ∧
        Updated f (denote view t) (denote view t') addr r.1 ∧
        ∀ p, r.1 ≤ p → p < end_ → denote view t' p = none := by
  induction fuel generalizing b t fl addr with
  | zero => omega
  | succ fuel ih =>
    unfold BootAlloc.updateLoop
    split_ifs with hae
    · exact ⟨le_rfl,hle,ha,t,fl,h,hcut,Updated.refl addr,fun p h1 h2 => by omega⟩
    · rcases h.tree.lowerBound_hi addr fun x _ =>
        (rfl : decide (x.end_ > addr) = decide (addr < view.hi x)) with ⟨hlb,hnone⟩ | ⟨x,hx,hlb,hhi,hgap⟩
      · refine Outcome.bind_eq hlb ?_
        exact ⟨le_rfl,hle,ha,t,fl,h,hcut,Updated.refl addr,fun p h1 _ => hnone p h1⟩
      · refine Outcome.bind_eq hlb ?_
        obtain ⟨nx,_,hnx,hvx,_⟩ := h.tree.valid.node_of_mem hx
        refine Outcome.bind_eq (deref_eq hnx) ?_
        rw [hvx]
        have hhi : addr < x.2.end_ := hhi
        split_ifs with hc
        · exact ⟨le_rfl,hle,ha,t,fl,h,hcut,Updated.refl addr,fun p h1 h2 =>
            hgap p h1 (show p < x.2.start by omega)⟩
        · refine (h.updateRound hcut hx ha he hhi (by omega) (by omega) hend hgap).bind ?_
          rintro ⟨addr1,b1⟩ ⟨h1,h2,ha1,t1,fl1,hv1,hcut1,hu⟩
          refine (ih hv1 hcut1 ha1 h2 (by simp only at h1; omega)).mono (fun e he => hu.fault h1.le he) ?_
          rintro ⟨addr2,b2⟩ ⟨h3,h4,ha2,t2,fl2,hv2,hcut2,hu2,hno⟩
          exact ⟨h1.le.trans h3,h4,ha2,t2,fl2,hv2,hcut2,hu.trans hu2 h1.le h3,hno⟩

/-- `update` acts pointwise on the types. It faults only for lack of slots, or where the update
function does. -/
theorem Valid.update (h : Valid n b t fl []) (hcut : Cut E t) {addr len : ℕ} (ha : addr ∈ E) (he : addr + len ∈ E)
    (hend : addr + len < 2^64) :
    Outcome (b.update addr len f) (UpdateFault n E f (denote view t) addr (addr+len)) fun b' =>
      ∃ t' fl', Valid n b' t' fl' [] ∧ Cut E t' ∧
        Updated f (denote view t) (denote view t') addr (addr+len) := by
  unfold BootAlloc.update
  refine Outcome.bind_eq (checkedAdd_of_lt hend) ?_
  refine (h.updateLoop (f := f) (len+1) hcut ha he (by omega) hend (by omega)).bind ?_
  rintro ⟨addr1,b1⟩ ⟨h1,h2,ha1,t1,fl1,hv1,hcut1,hu,hno⟩
  simp only at h1 h2 hv1 hu hno ⊢
  split_ifs with hc
  · -- the rest of the range is in no span
    have hlt : addr1 < addr+len := by omega
    have hold : denote view t addr1 = none := by
      rw [← hu.outside addr1 (Or.inr le_rfl)]
      exact hno addr1 le_rfl hlt
    have hf := outcome_apply n E f (denote view t) h1 hlt
    rw [hold] at hf
    refine hf.bind fun w hw => ?_
    refine (hv1.insert_outcome hcut1 _ hlt hend (fun p hp1 hp2 => hno p hp1 hp2) ha1 he addr (addr+len)).mono
      (fun _ he => he) ?_
    rintro b2 ⟨t2,fl2,hins,hcut2⟩
    refine ⟨t2,fl2,hins.valid,hcut2,hu.trans ⟨fun p hp1 hp2 => ?_,fun p hp => ?_⟩ h1 h2⟩
    · rw [hno p hp1 hp2, hins.denote, paint, if_pos ⟨hp1,hp2⟩]
      exact ⟨w,hw,rfl⟩
    · rw [hins.denote, paint, if_neg (by simp only; omega)]
  · obtain rfl : addr1 = addr+len := by omega
    exact ⟨t1,fl1,hv1,hcut1,hu⟩

end Lilith.Boot
