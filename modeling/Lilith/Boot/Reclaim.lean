import Lilith.Boot.Claim

/-! Dropping the `Reclaimer` hands out the frames that are usable as a whole and were not claimed
before. Together with `claim_free_ranges` every usable frame is handed out once. -/
namespace Lilith.Boot
open Theory PtrGraph CTree Rbtree

variable {n limit addr : ℕ} {b : BootAlloc} {t : CTree (ℕ × Span)} {fl : List ℕ} {align : PageAlign}
  {before rest : List (ℕ × Span)} {rs : List PhysRange}

/-- A position in the list of spans: `addr` is between the spans before it and the rest. -/
structure AtPos (t : CTree (ℕ × Span)) (addr : ℕ) (before rest : List (ℕ × Span)) : Prop where
  list : t.toList = before ++ rest
  past : ∀ x ∈ before, x.2.end_ ≤ addr
  ahead : ∀ x ∈ rest, addr ≤ x.2.start

/-- The node at a position. -/
def headPtr (rest : List (ℕ × Span)) : Ptr := rest.head?.map Prod.fst

namespace AtPos

/-- The spans of two positions are apart. -/
lemma split (h : Valid n b t fl []) {x : ℕ × Span} (ht : t.toList = before ++ x::rest) :
    (∀ y ∈ before, y.2.end_ ≤ x.2.start) ∧ (∀ y ∈ rest, x.2.end_ ≤ y.2.start) ∧
      x.2.start < x.2.end_ := by
  have hw := h.tree.wf
  rw [values_eq_append ht, List.map_cons] at hw
  obtain ⟨_,h2,h3⟩ := List.pairwise_append.mp hw.spaced
  refine ⟨fun y hy => ?_,fun y hy => ?_,hw.proper x.2 (by simp)⟩
  · exact h3 y.2 (List.mem_map_of_mem hy) x.2 (by simp)
  · exact (List.pairwise_cons.mp h2).1 y.2 (List.mem_map_of_mem hy)

/-- The position at the start of the next span. -/
lemma start (h : Valid n b t fl []) {x : ℕ × Span} (hp : AtPos t addr before (x::rest)) :
    AtPos t x.2.start before (x::rest) := by
  obtain ⟨h1,h2,h3⟩ := split h hp.list
  refine ⟨hp.list,h1,fun y hy => ?_⟩
  rcases List.mem_cons.mp hy with rfl | hy
  · exact le_rfl
  · exact h3.le.trans (h2 y hy)

/-- The position behind the next span. -/
lemma next (h : Valid n b t fl []) {x : ℕ × Span} (hp : AtPos t addr before (x::rest)) :
    AtPos t x.2.end_ (before ++ [x]) rest := by
  obtain ⟨h1,h2,h3⟩ := split h hp.list
  refine ⟨by simp [hp.list],fun y hy => ?_,h2⟩
  rcases List.mem_append.mp hy with hy | hy
  · exact (h1 y hy).trans h3.le
  · obtain rfl : y = x := by simpa using hy
    exact le_rfl

/-- A usable address ahead is in one of the spans of the rest. -/
lemma exists_of_usable (h : Valid n b t fl []) (hp : AtPos t addr before rest) {p : ℕ}
    (hle : addr ≤ p) (hu : Usable (denote view t) p) :
    ∃ x ∈ rest, x.2.start ≤ p ∧ p < x.2.end_ ∧ x.2.spanType.isUsable := by
  obtain ⟨ty,hty,hus⟩ := hu
  obtain ⟨z,hz,⟨hz1,hz2⟩,rfl⟩ := h.tree.wf.lookup_eq_some.mp hty
  obtain ⟨x,hx,rfl⟩ := List.mem_map.mp hz
  have hz2 : p < x.2.end_ := hz2
  rw [hp.list] at hx
  rcases List.mem_append.mp hx with hx | hx
  · have := hp.past x hx
    omega
  · exact ⟨x,hx,hz1,hz2,hus⟩

/-- Nothing is usable in front of the next span, or up to its end if it is not usable itself. -/
lemma not_usable (h : Valid n b t fl []) {x : ℕ × Span} (hp : AtPos t addr before (x::rest)) {p : ℕ}
    (hle : addr ≤ p) (hlt : p < x.2.start ∨ p < x.2.end_ ∧ ¬ x.2.spanType.isUsable) :
    ¬ Usable (denote view t) p := by
  intro hu
  obtain ⟨_,h2,_⟩ := split h hp.list
  obtain ⟨y,hy,h3,_,h5⟩ := hp.exists_of_usable h hle hu
  rcases List.mem_cons.mp hy with rfl | hy
  · rcases hlt with hlt | ⟨_,hlt⟩
    · omega
    · exact hlt h5
  · have h6 := h2 y hy
    have h7 := (split h hp.list).2.2
    omega

/-- The successor of the node at a position. -/
lemma successor (h : Valid n b t fl []) {x : ℕ × Span} (hp : AtPos t addr before (x::rest)) :
    b.tree.heap.successor (some x.1) = .ok (headPtr rest) := h.tree.valid.successor hp.list

lemma deref (h : Valid n b t fl []) {x : ℕ × Span} (hp : AtPos t addr before (x::rest)) :
    ∃ nx, b.tree.heap.deref (some x.1) = .ok nx ∧ nx.value = x.2 := by
  obtain ⟨nx,_,hnx,hvx,_⟩ := h.tree.valid.node_of_mem (show x ∈ t.toList by simp [hp.list])
  exact ⟨nx,deref_eq hnx,hvx⟩

end AtPos

/-- Skipping the spans that are not usable. -/
lemma skipUnusable_ok (h : Valid n b t fl []) (fuel : ℕ) (hp : AtPos t addr before rest)
    (hf : rest.length < fuel) : ∃ addr' before' rest',
      skipUnusable b.tree.heap fuel (headPtr rest) = .ok (headPtr rest') ∧
      AtPos t addr' before' rest' ∧ addr ≤ addr' ∧ rest'.length ≤ rest.length ∧
      (∀ p, addr ≤ p → p < addr' → ¬ Usable (denote view t) p) ∧
      ∀ x xs, rest' = x::xs → x.2.spanType.isUsable ∧ addr' = x.2.start := by
  induction rest generalizing fuel addr before with
  | nil =>
    cases fuel with
    | zero => omega
    | succ fuel => exact ⟨addr,before,[],rfl,hp,le_rfl,le_rfl,fun p h1 h2 => by omega,by simp⟩
  | cons x rest ih =>
    cases fuel with
    | zero => omega
    | succ fuel =>
      obtain ⟨nx,hnx,hvx⟩ := hp.deref h
      have hlt := (AtPos.split h hp.list).2.2
      have hle := hp.ahead x (by simp)
      have hrun : skipUnusable b.tree.heap (fuel+1) (headPtr (x::rest)) =
          if x.2.spanType.isUsable then .ok (headPtr (x::rest))
          else skipUnusable b.tree.heap fuel (headPtr rest) := by
        change skipUnusable b.tree.heap (fuel+1) (some x.1) = _
        simp only [skipUnusable, hnx, hvx, hp.successor h, bind, Except.bind]
        rfl
      by_cases hus : x.2.spanType.isUsable
      · refine ⟨x.2.start,before,x::rest,by rw [hrun, if_pos hus],hp.start h,hle,le_rfl,?_,?_⟩
        · exact fun p h1 h2 => hp.not_usable h h1 (Or.inl h2)
        · rintro y ys ⟨rfl,rfl⟩
          exact ⟨hus,rfl⟩
      · rw [List.length_cons] at hf
        obtain ⟨addr',before',rest',h1,h2,h3,h4,h5,h6⟩ := ih fuel (hp.next h) (by omega)
        refine ⟨addr',before',rest',by rw [hrun, if_neg hus, h1],h2,by omega,?_,fun p h7 h8 => ?_,h6⟩
        · rw [List.length_cons]
          omega
        · by_cases hc : p < x.2.end_
          · exact hp.not_usable h h7 (Or.inr ⟨hc,hus⟩)
          · exact h5 p (by omega) h8

/-- Extending a range by the usable spans that follow without a gap. -/
lemma extendRange_ok (h : Valid n b t fl []) (fuel : ℕ) (hp : AtPos t addr before rest)
    (hf : rest.length < fuel) : ∃ addr' before' rest',
      extendRange b.tree.heap fuel addr (headPtr rest) = .ok (addr',headPtr rest') ∧
      AtPos t addr' before' rest' ∧ addr ≤ addr' ∧ rest'.length ≤ rest.length ∧
      (∀ p, addr ≤ p → p < addr' → Usable (denote view t) p) ∧ ¬ Usable (denote view t) addr' := by
  induction rest generalizing fuel addr before with
  | nil =>
    cases fuel with
    | zero => omega
    | succ fuel =>
      refine ⟨addr,before,[],rfl,hp,le_rfl,le_rfl,fun p h1 h2 => by omega,fun hu => ?_⟩
      obtain ⟨y,hy,_⟩ := hp.exists_of_usable h le_rfl hu
      simp at hy
  | cons x rest ih =>
    cases fuel with
    | zero => omega
    | succ fuel =>
      obtain ⟨nx,hnx,hvx⟩ := hp.deref h
      have hlt := (AtPos.split h hp.list).2.2
      have hle := hp.ahead x (by simp)
      have hrun : extendRange b.tree.heap (fuel+1) addr (headPtr (x::rest)) =
          if x.2.start ≠ addr ∨ ¬ x.2.spanType.isUsable then .ok (addr,headPtr (x::rest))
          else extendRange b.tree.heap fuel x.2.end_ (headPtr rest) := by
        change extendRange b.tree.heap (fuel+1) addr (some x.1) = _
        simp only [extendRange, hnx, hvx, hp.successor h, bind, Except.bind]
        rfl
      by_cases hc : x.2.start ≠ addr ∨ ¬ x.2.spanType.isUsable
      · refine ⟨addr,before,x::rest,by rw [hrun, if_pos hc],hp,le_rfl,le_rfl,fun p h1 h2 => by omega,?_⟩
        refine hp.not_usable h le_rfl ?_
        rcases hc with hc | hc
        · exact Or.inl (by omega)
        · exact Or.inr ⟨by omega,hc⟩
      · push Not at hc
        rw [List.length_cons] at hf
        obtain ⟨addr',before',rest',h1,h2,h3,h4,h5,h6⟩ := ih fuel (hp.next h) (by omega)
        refine ⟨addr',before',rest',?_,h2,by omega,?_,fun p h7 h8 => ?_,h6⟩
        · rw [hrun, if_neg (by push Not; exact hc), h1]
        · rw [List.length_cons]
          omega
        · by_cases hpx : p < x.2.end_
          · exact ⟨_,h.tree.denote_of_mem (show x ∈ t.toList by simp [hp.list])
              (show x.2.start ≤ p by omega) hpx,hc.2⟩
          · exact h5 p (by omega) h8

/-- What `ReclaimableRangeIter::next` gives at a position where the ranges `rs` were handed out. -/
def NextSpec (t : CTree (ℕ × Span)) (rs : List PhysRange) (rest : List (ℕ × Span)) :
    Option (PhysRange × Ptr) → Prop
  | none => Frames (Usable (denote view t)) rs
  | some (r,succ) => ∃ addr' before' rest', AtPos t addr' before' rest' ∧ succ = headPtr rest' ∧
      rest'.length < rest.length ∧ FramesUpTo (Usable (denote view t)) addr' (rs ++ [r])

/-- `ReclaimableRangeIter::next` -/
lemma nextLoop_ok (hal : align.Lawful limit) (h : Valid n b t fl []) (enough : Prop) (fuel : ℕ)
    (hp : AtPos t addr before rest) (hf : rest.length < fuel)
    (hfr : FramesUpTo (Usable (denote view t)) addr rs) :
    Outcome (nextLoop align b.tree.heap fuel (headPtr rest))
      (HandOverFault enough limit (denote view t)) (NextSpec t rs rest) := by
  induction fuel generalizing addr before rest with
  | zero => omega
  | succ fuel ih =>
    have hbound := h.lt_bound
    have hrest : rest.length ≤ t.toList.length := by rw [hp.list]; simp
    unfold nextLoop
    obtain ⟨addr1,before1,rest1,h1,hp1,hle1,hlen1,hno,hhead⟩ :=
      skipUnusable_ok h b.tree.heap.bound hp (by omega)
    refine Outcome.bind_eq h1 ?_
    have hfr1 := hfr.skip hle1 hno
    cases rest1 with
    | nil =>
      refine hfr1.finish fun p hle hu => ?_
      obtain ⟨y,hy,_⟩ := hp1.exists_of_usable h hle hu
      simp at hy
    | cons x rest1 =>
      obtain ⟨hus,rfl⟩ := hhead x rest1 rfl
      obtain ⟨nx,hnx,hvx⟩ := hp1.deref h
      have hlt := (AtPos.split h hp1.list).2.2
      refine Outcome.bind_eq hnx ?_
      refine Outcome.bind_eq (hp1.successor h) ?_
      rw [hvx]
      rw [List.length_cons] at hlen1
      obtain ⟨addr2,before2,rest2,h2,hp2,hle2,hlen2,hall,hend⟩ :=
        extendRange_ok h b.tree.heap.bound (hp1.next h) (by omega)
      refine Outcome.bind_eq h2 ?_
      -- a maximal run of usable addresses
      have hrun : ∀ p, x.2.start ≤ p → p < addr2 → Usable (denote view t) p := by
        intro p hp3 hp4
        by_cases hpx : p < x.2.end_
        · exact ⟨_,h.tree.denote_of_mem (show x ∈ t.toList by simp [hp1.list]) hp3 hpx,hus⟩
        · exact hall p (by omega) hp4
      have hfr2 := hfr1.run (by omega) hrun hend
      obtain ⟨hup,hdown⟩ := hal.outcome (by omega : x.2.start < addr2) hrun enough
      refine hup.bind ?_
      rintro s rfl
      refine hdown.bind ?_
      rintro e rfl
      unfold innerPages at hfr2
      split_ifs with hse
      · rw [if_pos hse] at hfr2
        exact ⟨addr2,before2,rest2,hp2,rfl,by omega,hfr2⟩
      · rw [if_neg hse, List.append_nil] at hfr2
        refine (ih hp2 (by omega) hfr2).mono (fun _ he => he) ?_
        rintro (_ | ⟨r,succ⟩) hspec
        · exact hspec
        · obtain ⟨addr3,before3,rest3,h3,h4,h5,h6⟩ := hspec
          exact ⟨addr3,before3,rest3,h3,h4,by omega,h6⟩

/-- The ranges of the iterator. -/
lemma reclaimLoop_ok (hal : align.Lawful limit) (h : Valid n b t fl []) (enough : Prop) (fuel : ℕ)
    (hp : AtPos t addr before rest) (hf : rest.length < fuel)
    (hfr : FramesUpTo (Usable (denote view t)) addr rs) :
    Outcome (reclaimLoop align b.tree.heap fuel (headPtr rest))
      (HandOverFault enough limit (denote view t)) fun ss =>
        Frames (Usable (denote view t)) (rs ++ ss) := by
  induction fuel generalizing addr before rest rs with
  | zero => omega
  | succ fuel ih =>
    have hrest : rest.length < b.tree.heap.bound := by
      have := h.lt_bound
      rw [hp.list, List.length_append] at this
      omega
    unfold reclaimLoop
    refine (nextLoop_ok hal h enough _ hp hrest hfr).bind ?_
    rintro (_ | ⟨r,succ⟩) hspec
    · have hfin : Frames (Usable (denote view t)) rs := hspec
      simpa [pure, Except.pure, Outcome] using hfin
    · obtain ⟨addr1,before1,rest1,h1,rfl,h3,h4⟩ := hspec
      refine (ih h1 (by omega) h4).bind fun ss hss => ?_
      have : Frames (Usable (denote view t)) (rs ++ r::ss) := by simpa using hss
      exact this

/-- Dropping the `Reclaimer` hands out the frames that are usable as a whole. -/
theorem Valid.reclaim (hal : align.Lawful limit) (h : Valid n b t fl []) (enough : Prop) :
    Outcome (b.reclaim align) (HandOverFault enough limit (denote view t)) fun ss =>
      Frames (Usable (denote view t)) ss := by
  have hpos : AtPos t 0 [] t.toList := ⟨rfl,by simp,by simp⟩
  have hloop := reclaimLoop_ok hal h enough _ hpos h.lt_bound FramesUpTo.nil
  unfold BootAlloc.reclaim
  exact Outcome.bind_eq h.tree.valid.lowestNodeRaw hloop

/-- The addresses that are usable after a claim are those that were before and were not claimed. -/
lemma usable_claimed {m : ℕ → Option SpanType} (p : ℕ) :
    Usable (claimed m rs) p ↔ Usable m p ∧ ¬ ∃ r ∈ rs, r.Contains p := by
  unfold Usable claimed
  split_ifs with hc
  · simp [hc, SpanType.isUsable]
  · simp [hc]

/-- Claiming and reclaiming together. -/
theorem Valid.handOver (hal : align.Lawful limit) (h : Valid n b t fl []) :
    Outcome (b.handOver align)
      (HandOverFault (2*(values t).length ≤ fl.length) limit (denote view t))
      (Frames (Usable (denote view t))) := by
  unfold BootAlloc.handOver
  refine (h.claimFreeRanges hal).bind ?_
  rintro ⟨cs,b1⟩ ⟨t1,fl1,hv1,hfr,hm⟩
  have hback : ∀ p, Usable (denote view t1) p → Usable (denote view t) p := by
    intro p hp
    rw [hm] at hp
    exact ((usable_claimed p).mp hp).1
  refine Outcome.bind ((hv1.reclaim hal (2*(values t).length ≤ fl.length)).mono ?_ fun _ h => h) ?_
  · rintro e (he | ⟨p,hle,hp⟩)
    · exact Or.inl he
    · exact Or.inr ⟨p,hle,hback p hp⟩
  · intro ss hss
    rw [hm] at hss
    refine hfr.append hss (fun p hp => ⟨.free,hp,rfl⟩) usable_claimed

/-- For every valid allocator, the ranges that `claim_free_ranges` and then the dropped `Reclaimer`
hand to the buddy allocator are page-aligned and disjoint, contain usable addresses only, and
contain a frame exactly when all its bytes were usable. The run ends in that unless there are too
few slots or usable addresses beyond the limit of the physical address space. -/
theorem frames_handed_over_once (hal : align.Lawful limit) (h : Valid n b t fl []) :
    (∀ rs, b.handOver align = .ok rs →
      (∀ r ∈ rs, 4096 ∣ r.start ∧ 4096 ∣ r.end_ ∧ r.start < r.end_) ∧
      (rs.Pairwise fun r s => r.end_ ≤ s.start ∨ s.end_ ≤ r.start) ∧
      (∀ r ∈ rs, ∀ p, r.Contains p → Usable (denote view t) p) ∧
      ∀ f, HasFrame rs f ↔ WholeFrame (Usable (denote view t)) f) ∧
    ((∀ p, limit ≤ p → ¬ Usable (denote view t) p) →
      (b.handOver align = .error BootAlloc.ranOut ∧ fl.length < 2*(values t).length) ∨
      ∃ rs, b.handOver align = .ok rs) := by
  have hout := h.handOver hal
  refine ⟨fun rs hrs => ?_,fun hlim => ?_⟩
  · have hfr := hout.result hrs
    refine ⟨hfr.aligned,hfr.disjoint,hfr.bytes,fun f => ⟨?_,hfr.frames f⟩⟩
    rintro ⟨r,hr,h1,h2⟩ p hp1 hp2
    exact hfr.bytes r hr p ⟨by omega,by omega⟩
  · cases hrun : b.handOver align with
    | ok rs => exact Or.inr ⟨rs,rfl⟩
    | error e =>
      rw [hrun] at hout
      rcases hout with ⟨rfl,hslots⟩ | ⟨p,hle,hp⟩
      · exact Or.inl ⟨rfl,by omega⟩
      · exact absurd hp (hlim p hle)

/-- Rounding as the real functions do it: `align_up` panics when the result has more than 52 bits. -/
def physAlign : PageAlign where
  alignUp a := if roundUp 4096 a < 2^52 then .ok (roundUp 4096 a) else .error (.panic "PhysAddrNotValid")
  alignDown a := .ok (roundDown 4096 a)

lemma physAlign_lawful : physAlign.Lawful (2^52-4096) where
  up {a r} h := by
    simp only [physAlign] at h
    split at h
    · exact (Except.ok.inj h).symm
    · simp at h
  down {a r} h := (Except.ok.inj h).symm
  up_total {a} h := by
    have hlt : roundUp 4096 a < 2^52 := by unfold roundUp; omega
    exact ⟨_,if_pos hlt⟩
  down_total _ := ⟨_,rfl⟩

/-- Two free frames are handed over. -/
theorem frames_handed_over_once_two : ∃ (b : BootAlloc) (t : CTree (ℕ × Span)),
    (BootAlloc.new 3).update 4096 8192 (fun _ => .ok .free) = .ok b ∧
    b.handOver physAlign = .ok [⟨4096,12288⟩] ∧
    ∀ f, HasFrame [⟨4096,12288⟩] f ↔ WholeFrame (Usable (denote view t)) f := by
  have hrun : ∃ b, (BootAlloc.new 3).update 4096 8192 (fun _ => .ok .free) = .ok b ∧
    b.handOver physAlign = .ok [⟨4096,12288⟩] := ⟨_,rfl,rfl⟩
  obtain ⟨b,hb,hrs⟩ := hrun
  obtain ⟨t,fl,hv⟩ := (valid_new 3).of_update hb
  have h := (frames_handed_over_once physAlign_lawful hv).1 _ hrs
  exact ⟨b,t,hb,hrs,h.2.2.2⟩

end Lilith.Boot
