import Lilith.Theory.SearchTree

/-! Sorted lists of disjoint half-open intervals, read as partial maps from points to values. The
elements may be of any type with a lower end, an upper end and a value (`SpanView`). Inserting an
interval where the map is undefined and removing an interval are pointwise updates of the map, so
an algorithm that cuts and re-inserts intervals is verified on points. -/
namespace Lilith.Theory

/-- How the elements of a list are read as intervals with values. -/
structure SpanView (A τ ω : Type*) where
  lo : τ → A
  hi : τ → A
  val : τ → ω

section Maps
variable {A X : Type*} [LinearOrder A]

/-- The map `m` with the value `w` on the points from `lo` up to `hi`. -/
def paint (m : A → X) (lo hi : A) (w : X) (a : A) : X := if lo ≤ a ∧ a < hi then w else m a

/-- The map `m` with its values on the points from `lo` up to `hi` changed by `F`. -/
def mapOn (F : X → X) (m : A → X) (lo hi : A) (a : A) : X := if lo ≤ a ∧ a < hi then F (m a) else m a

lemma paint_empty {m : A → X} {lo hi : A} (h : hi ≤ lo) (w : X) : paint m lo hi w = m :=
  funext fun _ => if_neg fun hc => absurd (hc.1.trans_lt hc.2) h.not_gt

lemma mapOn_empty {F : X → X} {m : A → X} {lo hi : A} (h : hi ≤ lo) : mapOn F m lo hi = m :=
  funext fun _ => if_neg fun hc => absurd (hc.1.trans_lt hc.2) h.not_gt

lemma mapOn_trans {F : X → X} {m : A → X} {lo mid hi : A} (h1 : lo ≤ mid) (h2 : mid ≤ hi) :
    mapOn F (mapOn F m lo mid) mid hi = mapOn F m lo hi := by
  funext p
  unfold mapOn
  by_cases hm : mid ≤ p
  · rw [if_neg fun hc : lo ≤ p ∧ p < mid => hm.not_gt hc.2]
    exact if_congr ⟨fun hc => ⟨h1.trans hm,hc.2⟩,fun hc => ⟨hm,hc.2⟩⟩ rfl rfl
  · have hlt : p < mid := not_le.mp hm
    rw [if_neg fun hc : mid ≤ p ∧ p < hi => hm hc.1]
    exact if_congr ⟨fun hc => ⟨hc.1,hlt.trans_le h2⟩,fun hc => ⟨hc.1,hlt⟩⟩ rfl rfl

/-- Changing a constant value. -/
lemma mapOn_eq_paint {F : X → X} {m : A → X} {lo hi : A} {d : X}
    (h : ∀ p, lo ≤ p → p < hi → m p = d) : mapOn F m lo hi = paint m lo hi (F d) := by
  funext p
  unfold mapOn paint
  split_ifs with hp
  · rw [h p hp.1 hp.2]
  · rfl

/-- Changing the values from `start` to `end_` where the first interval of the map is `lo` to `hi`:
the interval is taken out, and the gap before it, the piece of it before `start`, the overlap with
its new value and the piece behind `end_` are put in. -/
theorem cut_paint {m : A → X} {F : X → X} {d w : X} {start end_ lo hi : A} (h0 : lo < hi)
    (h1 : start < hi) (h2 : lo < end_) (hin : ∀ p, lo ≤ p → p < hi → m p = w)
    (hgap : ∀ p, start ≤ p → p < lo → m p = d) :
    paint (paint (paint (paint (paint m lo hi d) start lo (F d)) lo start w) (max start lo)
      (min end_ hi) (F w)) end_ hi w = mapOn F m start (min end_ hi) := by
  funext p
  have hp1 := hin p
  have hp2 := hgap p
  unfold paint mapOn
  split_ifs <;> grind

/-- The map `m'` is `m` with its values on the points from `lo` up to `hi` changed as `R` says. -/
def Changed (R : X → X → Prop) (m m' : A → X) (lo hi : A) : Prop :=
  ∀ a, (lo ≤ a → a < hi → R (m a) (m' a)) ∧ (a < lo ∨ hi ≤ a → m' a = m a)

section Changed
variable {R : X → X → Prop} {m m' m'' : A → X} {lo mid hi : A}

lemma Changed.refl (h : hi ≤ lo) (m : A → X) : Changed R m m lo hi :=
  fun _ => ⟨fun h1 h2 => absurd (h1.trans_lt h2) h.not_gt,fun _ => rfl⟩

lemma Changed.trans (h1 : lo ≤ mid) (h2 : mid ≤ hi) (h : Changed R m m' lo mid) (h' : Changed R m' m'' mid hi) :
    Changed R m m'' lo hi := by
  intro a
  constructor
  · intro ha1 ha2
    by_cases hm : mid ≤ a
    · rw [← (h a).2 (Or.inr hm)]
      exact (h' a).1 hm ha2
    · rw [(h' a).2 (Or.inl (not_le.mp hm))]
      exact (h a).1 ha1 (not_le.mp hm)
  · intro ha
    have hout : (a < lo ∨ mid ≤ a) ∧ (a < mid ∨ hi ≤ a) := by
      rcases ha with ha | ha
      · exact ⟨Or.inl ha,Or.inl (ha.trans_le h1)⟩
      · exact ⟨Or.inr (h2.trans ha),Or.inr ha⟩
    rw [(h' a).2 hout.2, (h a).2 hout.1]

/-- The pieces of `cut_paint` with values that are related to the old ones. -/
theorem cut_changed {d w e e' : X} {start end_ lo hi : A} (h0 : lo < hi) (h1 : start < hi) (h2 : lo < end_)
    (hin : ∀ p, lo ≤ p → p < hi → m p = w) (hgap : ∀ p, start ≤ p → p < lo → m p = d) (he : start < lo → R d e)
    (he' : R w e') :
    Changed R m (paint (paint (paint (paint (paint m lo hi d) start lo e) lo start w) (max start lo)
      (min end_ hi) e') end_ hi w) start (min end_ hi) := by
  intro p
  have hp1 := hin p
  have hp2 := hgap p
  unfold paint
  constructor
  · intro h3 h4
    split_ifs <;> grind
  · intro h3
    split_ifs <;> grind

end Changed
end Maps

namespace SpanView
variable {A τ ω : Type*} [LinearOrder A] (v : SpanView A τ ω)

def Contains (x : τ) (a : A) : Prop := v.lo x ≤ a ∧ a < v.hi x

instance (x : τ) (a : A) : Decidable (v.Contains x a) := inferInstanceAs (Decidable (_ ∧ _))

/-- The value at a point. -/
def lookup (xs : List τ) (a : A) : Option ω := (xs.find? fun x => decide (v.Contains x a)).map v.val

/-- Nonempty intervals, each one ending before the next one starts. -/
structure WF (xs : List τ) : Prop where
  spaced : xs.Pairwise fun x y => v.hi x ≤ v.lo y
  proper : ∀ x ∈ xs, v.lo x < v.hi x

variable {v} {xs ys : List τ} {x y z : τ} {a : A}

lemma lookup_eq_none : v.lookup xs a = none ↔ ∀ x ∈ xs, ¬ v.Contains x a := by
  simp [lookup]

lemma lookup_nil : v.lookup [] a = none := rfl

namespace WF

lemma nil : v.WF [] := ⟨List.Pairwise.nil,by simp⟩

lemma sublist (h : v.WF xs) (hs : ys.Sublist xs) : v.WF ys :=
  ⟨h.spaced.sublist hs,fun x hx => h.proper x (hs.subset hx)⟩

lemma remove (h : v.WF (xs ++ z::ys)) : v.WF (xs ++ ys) := h.sublist (by simp)

/-- Two intervals with a common point are the same. -/
lemma unique (h : v.WF xs) (hx : x ∈ xs) (hy : y ∈ xs) (hxa : v.Contains x a)
    (hya : v.Contains y a) : x = y := by
  induction xs with
  | nil => simp at hx
  | cons z zs ih =>
    obtain ⟨h1,h2⟩ := List.pairwise_cons.mp h.spaced
    have hzs : v.WF zs := h.sublist (List.sublist_cons_self z zs)
    rcases List.mem_cons.mp hx with rfl | hx'
    · rcases List.mem_cons.mp hy with rfl | hy'
      · rfl
      · exact absurd (hxa.2.trans_le (h1 y hy')) (not_lt.mpr hya.1)
    · rcases List.mem_cons.mp hy with rfl | hy'
      · exact absurd (hya.2.trans_le (h1 x hx')) (not_lt.mpr hxa.1)
      · exact ih hzs hx' hy'

lemma lookup_of_mem (h : v.WF xs) (hx : x ∈ xs) (ha : v.Contains x a) :
    v.lookup xs a = some (v.val x) := by
  unfold lookup
  cases hf : xs.find? fun x => decide (v.Contains x a) with
  | none => exact absurd ha (by simpa using List.find?_eq_none.mp hf x hx)
  | some y =>
    have hya : v.Contains y a := by simpa using List.find?_some hf
    rw [h.unique hx (List.mem_of_find?_eq_some hf) ha hya]
    rfl

/-- Intervals with no points are no intervals. -/
lemma eq_nil (h : v.WF xs) (hl : ∀ a, v.lookup xs a = none) : xs = [] := by
  rw [List.eq_nil_iff_forall_not_mem]
  intro x hx
  have hsome := h.lookup_of_mem hx ⟨le_rfl,h.proper x hx⟩
  rw [hl] at hsome
  simp at hsome

theorem lookup_eq_some (h : v.WF xs) {w : ω} :
    v.lookup xs a = some w ↔ ∃ x ∈ xs, v.Contains x a ∧ v.val x = w := by
  constructor
  · intro hl
    obtain ⟨x,hf,hw⟩ := Option.map_eq_some_iff.mp hl
    exact ⟨x,List.mem_of_find?_eq_some hf,by simpa using List.find?_some hf,hw⟩
  · rintro ⟨x,hx,ha,rfl⟩
    exact h.lookup_of_mem hx ha

/-- The map of a list with one more interval. -/
theorem lookup_insert (h : v.WF (xs ++ z::ys)) :
    v.lookup (xs ++ z::ys) a = paint (v.lookup (xs ++ ys)) (v.lo z) (v.hi z) (some (v.val z)) a := by
  unfold paint
  split
  · next hz => exact h.lookup_of_mem (by simp) hz
  · next hz =>
    have hz' : decide (v.Contains z a) = false := decide_eq_false hz
    simp [lookup, List.find?_append, hz']

/-- The map of a list with one interval taken out. -/
theorem lookup_remove (h : v.WF (xs ++ z::ys)) :
    v.lookup (xs ++ ys) a = paint (v.lookup (xs ++ z::ys)) (v.lo z) (v.hi z) none a := by
  unfold paint
  split
  · next hz =>
    rw [lookup_eq_none]
    intro x hx hxa
    have hxz : x = z := h.unique (by simp at hx ⊢; tauto) (by simp) hxa hz
    obtain ⟨_,h2,h3⟩ := List.pairwise_append.mp h.spaced
    subst hxz
    have hlt := h.proper x (by simp)
    rcases List.mem_append.mp hx with hx | hx
    · exact absurd (h3 x hx x (by simp)) (not_le.mpr hlt)
    · exact absurd ((List.pairwise_cons.mp h2).1 x hx) (not_le.mpr hlt)
  · next hz =>
    rw [h.lookup_insert]
    exact (if_neg hz).symm

/-- Where the map is undefined on an interval, every other interval is beside it. -/
lemma beside (h : v.WF xs) {lo hi : A} (hlt : lo < hi)
    (hn : ∀ a, lo ≤ a → a < hi → v.lookup xs a = none) :
    ∀ x ∈ xs, v.hi x ≤ lo ∨ hi ≤ v.lo x := by
  intro x hx
  by_contra hc
  push Not at hc
  have hlo : max lo (v.lo x) < hi := max_lt hlt hc.2
  have hhi : max lo (v.lo x) < v.hi x := max_lt hc.1 (h.proper x hx)
  have hnone := hn (max lo (v.lo x)) (le_max_left _ _) hlo
  exact lookup_eq_none.mp hnone x hx ⟨le_max_right _ _,hhi⟩

/-- An interval may be put where the map is undefined, after the intervals that start before it. -/
theorem insert (h : v.WF (xs ++ ys)) (hz : v.lo z < v.hi z)
    (hn : ∀ a, v.lo z ≤ a → a < v.hi z → v.lookup (xs ++ ys) a = none)
    (hx : ∀ x ∈ xs, v.lo x < v.lo z) (hy : ∀ y ∈ ys, v.lo z ≤ v.lo y) : v.WF (xs ++ z::ys) := by
  obtain ⟨h1,h2,h3⟩ := List.pairwise_append.mp h.spaced
  have hb := h.beside hz hn
  constructor
  · rw [List.pairwise_append, List.pairwise_cons]
    refine ⟨h1,⟨fun y hy' => ?_,h2⟩,fun x hx' y hy' => ?_⟩
    · rcases hb y (by simp [hy']) with hc | hc
      · exact absurd (hc.trans (hy y hy')) (not_le.mpr (h.proper y (by simp [hy'])))
      · exact hc
    · rcases List.mem_cons.mp hy' with rfl | hy'
      · rcases hb x (by simp [hx']) with hc | hc
        · exact hc
        · exact absurd (hc.trans_lt (hx x hx')) (not_lt.mpr hz.le)
      · exact h3 x hx' y hy'
  · intro x hx'
    rcases List.mem_append.mp hx' with hx' | hx'
    · exact h.proper x (by simp [hx'])
    · rcases List.mem_cons.mp hx' with rfl | hx'
      · exact hz
      · exact h.proper x (by simp [hx'])

/-- An interval may be given another value. -/
lemma replace {w : τ} (h : v.WF (xs ++ x::ys)) (hlo : v.lo w = v.lo x) (hhi : v.hi w = v.hi x) : v.WF (xs ++ w::ys) := by
  have h1 := h.spaced
  rw [List.pairwise_append, List.pairwise_cons] at h1
  refine ⟨?_,fun y hy => ?_⟩
  · rw [List.pairwise_append, List.pairwise_cons, hhi]
    refine ⟨h1.1,h1.2.1,fun a ha b hb => ?_⟩
    rcases List.mem_cons.mp hb with rfl | hb
    · rw [hlo]
      exact h1.2.2 a ha x List.mem_cons_self
    · exact h1.2.2 a ha b (List.mem_cons_of_mem _ hb)
  · rw [List.mem_append, List.mem_cons] at hy
    rcases hy with hy | rfl | hy
    · exact h.proper y (by simp [hy])
    · rw [hlo, hhi]
      exact h.proper x (by simp)
    · exact h.proper y (by simp [hy])

/-- In order, the lower ends increase. -/
lemma lo_lt (h : v.WF xs) : xs.Pairwise fun x y => v.lo x < v.lo y := by
  induction xs with
  | nil => exact List.Pairwise.nil
  | cons z zs ih =>
    obtain ⟨h1,h2⟩ := List.pairwise_cons.mp h.spaced
    refine List.pairwise_cons.mpr ⟨fun y hy => ?_,ih (h.sublist (List.sublist_cons_self z zs))⟩
    exact (h.proper z (by simp)).trans_le (h1 y hy)

/-- In order, the upper ends increase. -/
lemma hi_lt (h : v.WF xs) : xs.Pairwise fun x y => v.hi x < v.hi y := by
  induction xs with
  | nil => exact List.Pairwise.nil
  | cons z zs ih =>
    obtain ⟨h1,h2⟩ := List.pairwise_cons.mp h.spaced
    refine List.pairwise_cons.mpr ⟨fun y hy => ?_,ih (h.sublist (List.sublist_cons_self z zs))⟩
    exact (h1 y hy).trans_lt (h.proper y (by simp [hy]))

/-- The first interval that ends after a point. -/
lemma first (h : v.WF xs) (hf : xs.find? (fun x => decide (a < v.hi x)) = some x) :
    a < v.hi x ∧ (∀ b, a ≤ b → b < v.lo x → v.lookup xs b = none) ∧ x ∈ xs := by
  obtain ⟨hx,ps,qs,rfl,hps⟩ := List.find?_eq_some_iff_append.mp hf
  have hx : a < v.hi x := by simpa using hx
  obtain ⟨_,h2,h3⟩ := List.pairwise_append.mp h.spaced
  refine ⟨hx,fun b hab hbx => ?_,by simp⟩
  rw [lookup_eq_none]
  intro y hy hyb
  rcases List.mem_append.mp hy with hy | hy
  · have : v.hi y ≤ a := by simpa using hps y hy
    exact absurd (hyb.2.trans_le (this.trans hab)) (lt_irrefl b)
  · rcases List.mem_cons.mp hy with rfl | hy
    · exact absurd hyb.1 (not_le.mpr hbx)
    · have h4 := (List.pairwise_cons.mp h2).1 y hy
      have h5 := h.proper x (by simp)
      exact absurd (hbx.trans (h5.trans_le h4)) (not_lt.mpr hyb.1)

/-- No interval ends after a point. -/
lemma none_after (hf : xs.find? (fun x => decide (a < v.hi x)) = none) :
    ∀ b, a ≤ b → v.lookup xs b = none := by
  intro b hab
  rw [lookup_eq_none]
  intro x hx hxb
  have : v.hi x ≤ a := by simpa using List.find?_eq_none.mp hf x hx
  exact absurd (hxb.2.trans_le (this.trans hab)) (lt_irrefl b)

/-- A value at the end of an interval is of the next one. -/
lemma next (h : v.WF (xs ++ x::ys)) {w : ω} (hl : v.lookup (xs ++ x::ys) (v.hi x) = some w) :
    ∃ y zs, ys = y::zs ∧ v.hi x = v.lo y ∧ v.val y = w := by
  obtain ⟨z,hz,hc,hv⟩ := h.lookup_eq_some.mp hl
  obtain ⟨_,h2,h3⟩ := List.pairwise_append.mp h.spaced
  obtain ⟨h4,h5⟩ := List.pairwise_cons.mp h2
  rcases List.mem_append.mp hz with hz | hz
  · have h6 := h3 z hz x (by simp)
    exact absurd (h6.trans_lt (h.proper x (by simp))) hc.2.not_gt
  rcases List.mem_cons.mp hz with rfl | hz
  · exact absurd hc.2 (lt_irrefl _)
  cases ys with
  | nil => simp at hz
  | cons y zs =>
    have hxy := h4 y List.mem_cons_self
    have hy := h.proper y (by simp)
    rcases List.mem_cons.mp hz with rfl | hz
    · exact ⟨z,zs,rfl,le_antisymm hxy hc.1,hv⟩
    · have hyz := (List.pairwise_cons.mp h5).1 z hz
      exact absurd (hy.trans_le (hyz.trans (hc.1.trans hxy))) (lt_irrefl _)

/-- A list that is split in two ways by where an interval belongs is split in one way. -/
lemma split_unique {xs' ys' : List τ} (he : xs ++ ys = xs' ++ ys')
    (h : v.WF (xs ++ z::ys)) (h' : v.WF (xs' ++ z::ys')) : xs = xs' ∧ ys = ys' := by
  have hpart : ∀ {xs ys : List τ}, v.WF (xs ++ z::ys) →
      (xs ++ ys).filter (fun x => decide (v.lo x < v.lo z)) = xs := by
    intro xs ys hw
    obtain ⟨_,h2,h3⟩ := List.pairwise_append.mp hw.lo_lt
    have hxs : ∀ x ∈ xs, decide (v.lo x < v.lo z) = true := fun x hx =>
      decide_eq_true (h3 x hx z (by simp))
    have hys : ∀ y ∈ ys, ¬ decide (v.lo y < v.lo z) = true := fun y hy => by
      simpa using ((List.pairwise_cons.mp h2).1 y hy).le
    rw [List.filter_append, List.filter_eq_self.mpr hxs, List.filter_eq_nil_iff.mpr hys,
      List.append_nil]
  have hxs : xs = xs' := by rw [← hpart h, he, hpart h']
  subst hxs
  exact ⟨rfl,List.append_cancel_left he⟩

end WF

/-- The ends of the intervals that end after a point. -/
def later (v : SpanView A τ ω) (a : A) (xs : List τ) : Finset A :=
  ((xs.filter fun x => decide (a < v.hi x)).map v.hi).toFinset

lemma mem_later {b : A} : b ∈ later v a xs ↔ ∃ x ∈ xs, a < v.hi x ∧ v.hi x = b := by
  simp [later, and_assoc]

/-- Behind the end of an interval there are fewer ends. -/
lemma later_lt (hx : x ∈ ys) (ha : a < v.hi x) (h : ∀ z ∈ xs, v.hi x < v.hi z → z ∈ ys) :
    (later v (v.hi x) xs).card < (later v a ys).card := by
  refine Finset.card_lt_card ((Finset.ssubset_iff_of_subset ?_).mpr ⟨v.hi x,?_,?_⟩)
  · intro b hb
    obtain ⟨z,hz,h1,rfl⟩ := mem_later.mp hb
    exact mem_later.mpr ⟨z,h z hz h1,ha.trans h1,rfl⟩
  · exact mem_later.mpr ⟨x,hx,ha,rfl⟩
  · intro hb
    obtain ⟨z,_,h1,h2⟩ := mem_later.mp hb
    exact absurd h2 h1.ne'

lemma later_card_le (a : A) (xs : List τ) : (later v a xs).card ≤ xs.length := by
  calc (later v a xs).card ≤ ((xs.filter fun x => decide (a < v.hi x)).map v.hi).length :=
        List.toFinset_card_le _
    _ = (xs.filter fun x => decide (a < v.hi x)).length := List.length_map _
    _ ≤ xs.length := List.length_filter_le _ _

/-- Join each interval with the following ones for as long as `glue` gives a joint one. -/
def glueFrom (glue : τ → τ → Option τ) : τ → List τ → List τ
  | x, [] => [x]
  | x, y::ys => match glue x y with
    | some z => glueFrom glue z ys
    | none => x::glueFrom glue y ys

/-- Gluing keeps an order in which the joint entry takes the place of the two. -/
lemma glueFrom_pairwise {R : τ → τ → Prop} {glue : τ → τ → Option τ} {x : τ} {ys : List τ}
    (hg : ∀ x y z, glue x y = some z → (∀ a, R a x → R a z) ∧ ∀ b, R y b → R z b) (h : (x::ys).Pairwise R) :
    (glueFrom glue x ys).Pairwise R ∧ ∀ a, (∀ y ∈ x::ys, R a y) → ∀ z ∈ glueFrom glue x ys, R a z := by
  induction ys generalizing x with
  | nil => exact ⟨List.pairwise_singleton R x,fun a ha z hz => ha z hz⟩
  | cons y ys ih =>
    obtain ⟨hx,hy⟩ := List.pairwise_cons.mp h
    unfold glueFrom
    cases hz : glue x y with
    | none =>
      obtain ⟨h1,h2⟩ := ih hy
      refine ⟨List.pairwise_cons.mpr ⟨h2 x hx,h1⟩,fun a ha z hz => ?_⟩
      rcases List.mem_cons.mp hz with rfl | hz
      · exact ha z List.mem_cons_self
      · exact h2 a (fun y hy => ha y (List.mem_cons_of_mem _ hy)) z hz
    | some w =>
      obtain ⟨hleft,hright⟩ := hg x y w hz
      obtain ⟨hb,hys⟩ := List.pairwise_cons.mp hy
      obtain ⟨h1,h2⟩ := ih (List.pairwise_cons.mpr ⟨fun b hb' => hright b (hb b hb'),hys⟩)
      refine ⟨h1,fun a ha => h2 a fun y hy' => ?_⟩
      rcases List.mem_cons.mp hy' with rfl | hy'
      · exact hleft a (ha x List.mem_cons_self)
      · exact ha y (by simp [hy'])

/-- `glue` joins two intervals exactly when they touch and have the same value. -/
structure Glues (v : SpanView A τ ω) (glue : τ → τ → Option τ) : Prop where
  touch : ∀ {x y z}, glue x y = some z → v.hi x = v.lo y ∧ v.val x = v.val y
  joint : ∀ {x y z}, glue x y = some z → v.lo z = v.lo x ∧ v.hi z = v.hi y ∧ v.val z = v.val x
  apart : ∀ {x y}, glue x y = none → v.hi x = v.lo y → v.val x ≠ v.val y

namespace Glues
variable {glue : τ → τ → Option τ} (hg : v.Glues glue)
include hg

/-- Two touching intervals and the joint one. -/
lemma wf (hz : glue x y = some z) (h : v.WF (xs ++ x::y::ys)) : v.WF (xs ++ z::ys) := by
  obtain ⟨hlo,hhi,_⟩ := hg.joint hz
  obtain ⟨h1,h2,h3⟩ := List.pairwise_append.mp h.spaced
  obtain ⟨h4,h5⟩ := List.pairwise_cons.mp h2
  obtain ⟨h6,h7⟩ := List.pairwise_cons.mp h5
  constructor
  · rw [List.pairwise_append, List.pairwise_cons]
    refine ⟨h1,⟨fun w hw => hhi ▸ h6 w hw,h7⟩,fun w hw u hu => ?_⟩
    rcases List.mem_cons.mp hu with rfl | hu
    · exact hlo ▸ h3 w hw x (by simp)
    · exact h3 w hw u (by simp [hu])
  · intro w hw
    rcases List.mem_append.mp hw with hw | hw
    · exact h.proper w (by simp [hw])
    · rcases List.mem_cons.mp hw with rfl | hw
      · rw [hlo, hhi]
        exact (h.proper x (by simp)).trans_le ((h4 y (by simp)).trans (h.proper y (by simp)).le)
      · exact h.proper w (by simp [hw])

lemma lookup_eq (hz : glue x y = some z) (h : v.WF (xs ++ x::y::ys)) :
    v.lookup (xs ++ z::ys) = v.lookup (xs ++ x::y::ys) := by
  obtain ⟨hlo,hhi,hval⟩ := hg.joint hz
  obtain ⟨ht,hv⟩ := hg.touch hz
  have hy : v.WF (xs ++ [x] ++ y::ys) := by simpa using h
  have hxy : v.lo x < v.lo y := by rw [← ht]; exact h.proper x (by simp)
  have hyy : v.lo y < v.hi y := h.proper y (by simp)
  have hx : v.WF (xs ++ x::ys) := by simpa using hy.remove
  funext a
  have h1 : v.lookup (xs ++ x::y::ys) a =
      paint (v.lookup (xs ++ x::ys)) (v.lo y) (v.hi y) (some (v.val y)) a := by
    simpa using hy.lookup_insert (a := a)
  rw [h1, (hg.wf hz h).lookup_insert, paint, paint, hx.lookup_insert, paint, hlo, hhi, ht, hval, hv]
  by_cases h2 : v.lo y ≤ a
  · by_cases h3 : a < v.hi y
    · rw [if_pos ⟨hxy.le.trans h2,h3⟩, if_pos ⟨h2,h3⟩]
    · rw [if_neg (fun h => h3 h.2), if_neg (fun h => h3 h.2), if_neg (fun h => h2.not_gt h.2)]
  · have h3 : a < v.lo y := not_le.mp h2
    rw [if_neg (fun h => h2 h.1 : ¬ (v.lo y ≤ a ∧ a < v.hi y))]
    exact if_congr ⟨fun h => ⟨h.1,h3⟩,fun h => ⟨h.1,h.2.trans hyy⟩⟩ rfl rfl

/-- Joining keeps the intervals disjoint and the map as it is. -/
theorem glueFrom_ok (h : v.WF (xs ++ x::ys)) : v.WF (xs ++ glueFrom glue x ys) ∧
    v.lookup (xs ++ glueFrom glue x ys) = v.lookup (xs ++ x::ys) := by
  induction ys generalizing xs x with
  | nil => exact ⟨h,rfl⟩
  | cons y ys ih =>
    unfold glueFrom
    split
    · next z hz =>
      rw [← hg.lookup_eq hz h]
      exact ih (hg.wf hz h)
    · have h' : v.WF (xs ++ [x] ++ y::ys) := by simpa using h
      simpa using ih h'

/-- Every joint interval ends like one of the given ones that it covers. -/
lemma exists_of_mem (h : v.WF (x::ys)) (hz : z ∈ glueFrom glue x ys) :
    ∃ w ∈ x::ys, v.hi w = v.hi z ∧ v.val w = v.val z ∧ v.lo z ≤ v.lo w := by
  induction ys generalizing x with
  | nil =>
    obtain rfl : z = x := by simpa [glueFrom] using hz
    exact ⟨z,by simp,rfl,rfl,le_rfl⟩
  | cons y ys ih =>
    unfold glueFrom at hz
    split at hz
    · next u hu =>
      obtain ⟨hlo,hhi,hval⟩ := hg.joint hu
      obtain ⟨ht,hv⟩ := hg.touch hu
      have h' : v.WF ([] ++ x::y::ys) := h
      obtain ⟨w,hw,h1,h2,h3⟩ := ih (hg.wf hu h') hz
      rcases List.mem_cons.mp hw with rfl | hw
      · refine ⟨y,by simp,hhi ▸ h1,by rw [← h2, hval, hv],h3.trans ?_⟩
        rw [hlo, ← ht]
        exact (h.proper x (by simp)).le
      · exact ⟨w,by simp [hw],h1,h2,h3⟩
    · rcases List.mem_cons.mp hz with rfl | hz
      · exact ⟨z,by simp,rfl,rfl,le_rfl⟩
      · obtain ⟨w,hw,h1⟩ := ih (h.sublist (List.sublist_cons_self x _)) hz
        exact ⟨w,List.mem_cons_of_mem x hw,h1⟩

/-- After joining, the map changes its value where an interval ends. -/
lemma maximal (h : v.WF (xs ++ x::ys)) (hz : z ∈ glueFrom glue x ys) :
    v.lookup (xs ++ x::ys) (v.hi z) ≠ some (v.val z) := by
  induction ys generalizing xs x with
  | nil =>
    obtain rfl : z = x := by simpa [glueFrom] using hz
    have hnone : v.lookup (xs ++ [z]) (v.hi z) = none := by
      rw [lookup_eq_none]
      intro w hw hc
      rcases List.mem_append.mp hw with hw | hw
      · obtain ⟨_,_,h3⟩ := List.pairwise_append.mp h.hi_lt
        exact absurd (h3 w hw z (by simp)) hc.2.not_gt
      · obtain rfl : w = z := by simpa using hw
        exact absurd hc.2 (lt_irrefl _)
    simp [hnone]
  | cons y ys ih =>
    unfold glueFrom at hz
    split at hz
    · next u hu =>
      rw [← hg.lookup_eq hu h]
      exact ih (hg.wf hu h) hz
    · next hu =>
      rcases List.mem_cons.mp hz with rfl | hz
      · intro hl
        obtain ⟨w,ws,he,ht,hv⟩ := h.next hl
        obtain ⟨rfl,_⟩ := List.cons.inj he
        exact hg.apart hu ht hv.symm
      · have h' : v.WF (xs ++ [x] ++ y::ys) := by simpa using h
        simpa using ih h' hz

end Glues

/-- The intervals joined wherever `glue` joins neighbours. -/
def glueAll (glue : τ → τ → Option τ) : List τ → List τ
  | [] => []
  | x::xs => glueFrom glue x xs

/-- The map changes its value where an interval ends: no interval could be longer. -/
def Maximal (v : SpanView A τ ω) (xs : List τ) : Prop := ∀ x ∈ xs, v.lookup xs (v.hi x) ≠ some (v.val x)

/-- Joining gives the longest intervals with the same map. -/
theorem Glues.glueAll_ok {glue : τ → τ → Option τ} (hg : v.Glues glue) (h : v.WF xs) :
    v.WF (glueAll glue xs) ∧ v.lookup (glueAll glue xs) = v.lookup xs ∧ v.Maximal (glueAll glue xs) := by
  cases xs with
  | nil => exact ⟨h,rfl,fun x hx => absurd hx List.not_mem_nil⟩
  | cons x xs =>
    have h' : v.WF ([] ++ x::xs) := h
    obtain ⟨h1,h2⟩ := hg.glueFrom_ok h'
    have h2 : v.lookup (glueFrom glue x xs) = v.lookup (x::xs) := h2
    refine ⟨h1,h2,fun z hz => ?_⟩
    rw [glueAll, h2]
    exact hg.maximal h' hz

/-- Joining keeps the values of some of the intervals, in order. -/
lemma glueFrom_sublist {ζ : Type*} {glue : τ → τ → Option τ} (f : τ → ζ) (hf : ∀ x y z, glue x y = some z → f z = f x)
    (x : τ) (xs : List τ) : ((glueFrom glue x xs).map f).Sublist ((x::xs).map f) := by
  induction xs generalizing x with
  | nil => exact List.Sublist.refl _
  | cons y ys ih =>
    unfold glueFrom
    split
    · next z hz =>
      have h := ih z
      rw [List.map_cons, hf _ _ _ hz] at h
      apply h.trans
      rw [List.map_cons, List.map_cons]
      exact (List.sublist_cons_self _ _).cons_cons _
    · rw [List.map_cons, List.map_cons]
      exact (ih y).cons_cons _

lemma glueAll_sublist {ζ : Type*} {glue : τ → τ → Option τ} (f : τ → ζ) (hf : ∀ x y z, glue x y = some z → f z = f x)
    (xs : List τ) : ((glueAll glue xs).map f).Sublist (xs.map f) := by
  cases xs with
  | nil => exact List.Sublist.refl _
  | cons x xs => exact glueFrom_sublist f hf x xs

/-- Joining intervals that are seen through a function. -/
lemma glueFrom_map {ζ : Type*} {glue : τ → τ → Option τ} {glue' : ζ → ζ → Option ζ} (f : τ → ζ)
    (hf : ∀ x y, glue' (f x) (f y) = (glue x y).map f) (x : τ) (xs : List τ) :
    glueFrom glue' (f x) (xs.map f) = (glueFrom glue x xs).map f := by
  induction xs generalizing x with
  | nil => rfl
  | cons y ys ih =>
    rw [List.map_cons, glueFrom, glueFrom, hf]
    cases glue x y with
    | none => exact congrArg (f x::·) (ih y)
    | some z => exact ih z

lemma glueAll_map {ζ : Type*} {glue : τ → τ → Option τ} {glue' : ζ → ζ → Option ζ} (f : τ → ζ)
    (hf : ∀ x y, glue' (f x) (f y) = (glue x y).map f) (xs : List τ) :
    glueAll glue' (xs.map f) = (glueAll glue xs).map f := by
  cases xs with
  | nil => rfl
  | cons x xs => exact glueFrom_map f hf x xs

namespace Maximal

/-- Intervals that touch have different values. -/
lemma apart (hm : v.Maximal xs) (h : v.WF xs) (hx : x ∈ xs) (hy : y ∈ xs) (ht : v.hi x = v.lo y) :
    v.val x ≠ v.val y := by
  intro he
  apply hm x hx
  rw [he, ht]
  exact h.lookup_of_mem hy ⟨le_rfl,h.proper y hy⟩

/-- No two neighbours can be joined. -/
lemma isChain_none {glue : τ → τ → Option τ} (hg : v.Glues glue) (hm : v.Maximal xs) (h : v.WF xs) :
    xs.IsChain fun x y => glue x y = none := by
  apply List.Pairwise.isChain
  refine List.pairwise_of_forall_mem_list fun x hx y hy => ?_
  cases hz : glue x y with
  | none => rfl
  | some z =>
    obtain ⟨h1,h2⟩ := hg.touch hz
    exact absurd h2 (hm.apart h hx hy h1)

/-- The map of the intervals behind the first one. -/
lemma lookup_before (h : v.WF (x::xs)) (ha : a < v.hi x) : v.lookup xs a = none := by
  rw [lookup_eq_none]
  intro z hz hc
  exact absurd (ha.trans_le ((List.pairwise_cons.mp h.spaced).1 z hz)) hc.1.not_gt

lemma lookup_tail (ha : v.hi x ≤ a) : v.lookup (x::xs) a = v.lookup xs a := by
  have hx : decide (v.Contains x a) = false := decide_eq_false fun hc => absurd hc.2 ha.not_gt
  simp [lookup, hx]

lemma tail (hm : v.Maximal (x::xs)) (h : v.WF (x::xs)) : v.Maximal xs := by
  intro y hy
  have h1 : v.hi x ≤ v.lo y := (List.pairwise_cons.mp h.spaced).1 y hy
  have h2 : v.hi x ≤ v.hi y := h1.trans (h.proper y (List.mem_cons_of_mem x hy)).le
  rw [← lookup_tail h2]
  exact hm y (List.mem_cons_of_mem x hy)

/-- The first interval starts at the first point of the map. -/
lemma lo_le (h : v.WF (x::xs)) {w : ω} (ha : v.lookup (x::xs) a = some w) : v.lo x ≤ a := by
  obtain ⟨y,hy,hc,_⟩ := h.lookup_eq_some.mp ha
  rcases List.mem_cons.mp hy with rfl | hy
  · exact hc.1
  · have h1 := (List.pairwise_cons.mp h.spaced).1 y hy
    exact (h.proper x List.mem_cons_self).le.trans (h1.trans hc.1)

lemma hi_le {ζ : Type*} {u : SpanView A ζ ω} {ys : List ζ} {y : ζ} (hm : v.Maximal (x::xs)) (hy : u.WF (y::ys))
    (he : v.lookup (x::xs) = u.lookup (y::ys)) (hlo : u.lo y ≤ v.hi x) (hval : v.val x = u.val y) : u.hi y ≤ v.hi x := by
  by_contra hlt
  apply hm x List.mem_cons_self
  rw [he, hval]
  exact hy.lookup_of_mem List.mem_cons_self ⟨hlo,not_le.mp hlt⟩

/-- The longest intervals with a given map are determined by it. -/
theorem unique {ζ : Type*} {u : SpanView A ζ ω} {ys : List ζ} (hx : v.WF xs) (hy : u.WF ys) (hmx : v.Maximal xs)
    (hmy : u.Maximal ys) (he : v.lookup xs = u.lookup ys) :
    xs.map (fun x => (v.lo x,v.hi x,v.val x)) = ys.map fun y => (u.lo y,u.hi y,u.val y) := by
  induction xs generalizing ys with
  | nil =>
    cases ys with
    | nil => rfl
    | cons y ys =>
      have h1 := hy.lookup_of_mem List.mem_cons_self ⟨le_rfl,hy.proper y List.mem_cons_self⟩
      rw [← he, lookup_nil] at h1
      simp at h1
  | cons x xs ih =>
    have hxlo := hx.lookup_of_mem List.mem_cons_self ⟨le_rfl,hx.proper x List.mem_cons_self⟩
    cases ys with
    | nil =>
      rw [he, lookup_nil] at hxlo
      simp at hxlo
    | cons y ys =>
      have hylo := hy.lookup_of_mem List.mem_cons_self ⟨le_rfl,hy.proper y List.mem_cons_self⟩
      have hlo : v.lo x = u.lo y := le_antisymm (lo_le hx (he ▸ hylo)) (lo_le hy (he ▸ hxlo))
      have hval : v.val x = u.val y := by
        rw [he, hlo, hylo] at hxlo
        exact (Option.some.inj hxlo).symm
      have hxp := hx.proper x List.mem_cons_self
      have hyp := hy.proper y List.mem_cons_self
      have hhi : v.hi x = u.hi y := le_antisymm (hmy.hi_le hx he.symm (hlo ▸ hyp.le) hval.symm)
        (hmx.hi_le hy he (hlo ▸ hxp.le) hval)
      have htail : v.lookup xs = u.lookup ys := by
        funext a
        by_cases ha : v.hi x ≤ a
        · have ha' : u.hi y ≤ a := hhi ▸ ha
          rw [← lookup_tail ha, ← lookup_tail ha', he]
        · rw [lookup_before hx (not_le.mp ha), lookup_before hy (hhi ▸ not_le.mp ha)]
      rw [List.map_cons, List.map_cons, hlo, hhi, hval,
        ih (hx.sublist (List.sublist_cons_self _ _)) (hy.sublist (List.sublist_cons_self _ _)) (hmx.tail hx)
          (hmy.tail hy) htail]

end Maximal
end SpanView
end Lilith.Theory
