import Lilith.Boot.Model

/-! Handing out the page frames of a set of addresses. A scan over the addresses that rounds each
maximal run inwards to page boundaries hands out exactly the frames that are in the set as a
whole. -/
namespace Lilith.Boot

variable {P Q : ℕ → Prop} {addr addr' : ℕ} {rs ss : List PhysRange}

def PhysRange.Contains (r : PhysRange) (p : ℕ) : Prop := r.start ≤ p ∧ p < r.end_

instance (r : PhysRange) (p : ℕ) : Decidable (r.Contains p) := inferInstanceAs (Decidable (_ ∧ _))

/-- All bytes of frame number `f` satisfy `P`. -/
def WholeFrame (P : ℕ → Prop) (f : ℕ) : Prop := ∀ p, 4096*f ≤ p → p < 4096*f + 4096 → P p

/-- Frame number `f` is in one of the ranges. -/
def HasFrame (rs : List PhysRange) (f : ℕ) : Prop :=
  ∃ r ∈ rs, r.start ≤ 4096*f ∧ 4096*f + 4096 ≤ r.end_

/-- The ranges are disjoint and made of pages, and hand out addresses that satisfy `P` only. -/
structure Paged (P : ℕ → Prop) (rs : List PhysRange) : Prop where
  aligned : ∀ r ∈ rs, 4096 ∣ r.start ∧ 4096 ∣ r.end_ ∧ r.start < r.end_
  disjoint : rs.Pairwise fun r s => r.end_ ≤ s.start ∨ s.end_ ≤ r.start
  bytes : ∀ r ∈ rs, ∀ p, r.Contains p → P p

/-- The ranges hand out exactly the frames that satisfy `P` as a whole. -/
structure Frames (P : ℕ → Prop) (rs : List PhysRange) : Prop extends Paged P rs where
  frames : ∀ f, WholeFrame P f → HasFrame rs f

/-- The ranges hand out the frames that begin before `addr`. -/
structure FramesUpTo (P : ℕ → Prop) (addr : ℕ) (rs : List PhysRange) : Prop extends Paged P rs where
  le : ∀ r ∈ rs, r.end_ ≤ addr
  frames : ∀ f, 4096*f < addr → WholeFrame P f → HasFrame rs f

/-- The pages inside of an interval. -/
def innerPages (start end_ : ℕ) : List PhysRange :=
  if roundUp 4096 start < roundDown 4096 end_ then [⟨roundUp 4096 start,roundDown 4096 end_⟩] else []

lemma FramesUpTo.nil : FramesUpTo P 0 [] :=
  ⟨⟨by simp,List.Pairwise.nil,by simp⟩,by simp,fun f hf => by omega⟩

/-- Going on over addresses that do not satisfy `P`. -/
lemma FramesUpTo.skip (h : FramesUpTo P addr rs) (hle : addr ≤ addr')
    (hno : ∀ p, addr ≤ p → p < addr' → ¬ P p) : FramesUpTo P addr' rs := by
  refine ⟨h.toPaged,fun r hr => (h.le r hr).trans hle,fun f hf hw => ?_⟩
  by_cases hlt : 4096*f < addr
  · exact h.frames f hlt hw
  · exact absurd (hw (4096*f) le_rfl (by omega)) (hno _ (by omega) hf)

/-- Going on over a maximal run of addresses that satisfy `P`. -/
lemma FramesUpTo.run (h : FramesUpTo P addr rs) (hlt : addr < addr')
    (hall : ∀ p, addr ≤ p → p < addr' → P p) (hend : ¬ P addr') :
    FramesUpTo P addr' (rs ++ innerPages addr addr') := by
  have hmem : ∀ r ∈ innerPages addr addr', r.start = roundUp 4096 addr ∧
      r.end_ = roundDown 4096 addr' ∧ r.start < r.end_ := by
    intro r hr
    unfold innerPages at hr
    split at hr
    · obtain rfl : r = _ := by simpa using hr
      exact ⟨rfl,rfl,by assumption⟩
    · simp at hr
  have hup : addr ≤ roundUp 4096 addr := by unfold roundUp; omega
  have hdown : roundDown 4096 addr' ≤ addr' := by unfold roundDown; omega
  refine ⟨⟨fun r hr => ?_,?_,fun r hr p hp => ?_⟩,fun r hr => ?_,fun f hf hw => ?_⟩
  · rcases List.mem_append.mp hr with hr | hr
    · exact h.aligned r hr
    · obtain ⟨h1,h2,h3⟩ := hmem r hr
      exact ⟨h1 ▸ Dvd.intro_left _ rfl,h2 ▸ Dvd.intro_left _ rfl,h3⟩
  · refine List.pairwise_append.mpr ⟨h.disjoint,?_,fun r hr s hs => Or.inl ?_⟩
    · unfold innerPages
      split <;> simp
    · have h1 := h.le r hr
      have h2 := (hmem s hs).1
      omega
  · rcases List.mem_append.mp hr with hr | hr
    · exact h.bytes r hr p hp
    · obtain ⟨h1,h2,_⟩ := hmem r hr
      obtain ⟨h3,h4⟩ := hp
      exact hall p (by omega) (by omega)
  · rcases List.mem_append.mp hr with hr | hr
    · exact (h.le r hr).trans hlt.le
    · rw [(hmem r hr).2.1]
      exact hdown
  · by_cases hc : 4096*f < addr
    · obtain ⟨r,hr,hin⟩ := h.frames f hc hw
      exact ⟨r,by simp [hr],hin⟩
    · -- the frame ends before the run does
      have hfe : 4096*f + 4096 ≤ addr' := by
        by_contra hn
        exact hend (hw addr' (by omega) (by omega))
      have h1 : roundUp 4096 addr ≤ 4096*f := by unfold roundUp; omega
      have h2 : 4096*f + 4096 ≤ roundDown 4096 addr' := by unfold roundDown; omega
      refine ⟨⟨roundUp 4096 addr,roundDown 4096 addr'⟩,?_,h1,h2⟩
      simp [innerPages, show roundUp 4096 addr < roundDown 4096 addr' by omega]

/-- The end of a scan. -/
lemma FramesUpTo.finish (h : FramesUpTo P addr rs) (hno : ∀ p, addr ≤ p → ¬ P p) : Frames P rs := by
  refine ⟨h.toPaged,fun f hw => ?_⟩
  by_cases hlt : 4096*f < addr
  · exact h.frames f hlt hw
  · exact absurd (hw (4096*f) le_rfl (by omega)) (hno _ (by omega))

/-- An address in a range of pages is there with its frame. -/
lemma Paged.whole (h : Paged P rs) {f p : ℕ} (h1 : 4096*f ≤ p) (h2 : p < 4096*f + 4096)
    (hp : ∃ r ∈ rs, r.Contains p) : WholeFrame P f := by
  obtain ⟨r,hr,h3,h4⟩ := hp
  obtain ⟨⟨i,hi⟩,⟨j,hj⟩,_⟩ := h.aligned r hr
  intro q hq1 hq2
  exact h.bytes r hr q ⟨by omega,by omega⟩

/-- First the frames of one set, then those of what is left of a larger set. -/
theorem Frames.append {R : ℕ → Prop} (h : Frames P rs) (h' : Frames R ss) (hPQ : ∀ p, P p → Q p)
    (hR : ∀ p, R p ↔ Q p ∧ ¬ ∃ r ∈ rs, r.Contains p) : Frames Q (rs ++ ss) := by
  refine ⟨⟨fun r hr => ?_,?_,fun r hr p hp => ?_⟩,fun f hw => ?_⟩
  · rcases List.mem_append.mp hr with hr | hr
    · exact h.aligned r hr
    · exact h'.aligned r hr
  · refine List.pairwise_append.mpr ⟨h.disjoint,h'.disjoint,fun r hr s hs => ?_⟩
    -- a common address would be handed out by both
    by_contra hc
    have h1 := (h.aligned r hr).2.2
    have h2 := (h'.aligned s hs).2.2
    have hp : s.Contains (max r.start s.start) := ⟨by omega,by omega⟩
    exact ((hR _).mp (h'.bytes s hs _ hp)).2 ⟨r,hr,by omega,by omega⟩
  · rcases List.mem_append.mp hr with hr | hr
    · exact hPQ p (h.bytes r hr p hp)
    · exact ((hR p).mp (h'.bytes r hr p hp)).1
  · by_cases hc : ∃ p, 4096*f ≤ p ∧ p < 4096*f + 4096 ∧ ∃ r ∈ rs, r.Contains p
    · obtain ⟨p,h1,h2,h3⟩ := hc
      obtain ⟨r,hr,hin⟩ := h.frames f (h.whole h1 h2 h3)
      exact ⟨r,by simp [hr],hin⟩
    · obtain ⟨r,hr,hin⟩ := h'.frames f fun p h1 h2 => (hR p).mpr ⟨hw p h1 h2,fun h3 => hc ⟨p,h1,h2,h3⟩⟩
      exact ⟨r,by simp [hr],hin⟩

end Lilith.Boot
