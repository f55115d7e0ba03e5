import Lilith.VirtualAlloc.Model

/-! Gaps. The augment value of a tree of spans is its extent and its largest inner gap, and
`find_gap` finds the first gap in order that is long enough. -/
namespace Lilith.VirtualAlloc
open Theory PtrGraph CTree Rbtree

variable {V : Type}

/-- Spans as intervals with values. -/
def view : SpanView ℕ (Span V) V := ⟨Span.start,Span.end_,Span.value⟩

/-- The end of the last span. -/
def lastEnd : Span V → List (Span V) → ℕ
  | x, [] => x.end_
  | _, y::ys => lastEnd y ys

/-- The gaps between consecutive spans. -/
def innerGaps : Span V → List (Span V) → List Range
  | _, [] => []
  | x, y::ys => ⟨x.end_,y.start⟩::innerGaps y ys

/-- All gaps from `lo` to `hi`: before, between and after the spans. -/
def gaps (lo : ℕ) : List (Span V) → ℕ → List Range
  | [], hi => [⟨lo,hi⟩]
  | x::xs, hi => ⟨lo,x.start⟩::gaps x.end_ xs hi

def Range.len (r : Range) : ℕ := r.end_ - r.start

/-- The largest length of the given gaps. -/
def longest (gs : List Range) : ℕ := (gs.map Range.len).foldr max 0

/-- The smallest start, the largest end and the largest gap of a list of spans. -/
def summary : List (Span V) → Option MaxGap
  | [] => none
  | x::xs => some ⟨x.start,lastEnd x xs,longest (innerGaps x xs)⟩

@[simp] theorem longest_nil : longest [] = 0 := rfl
@[simp] theorem longest_cons (g : Range) (gs : List Range) :
    longest (g::gs) = max g.len (longest gs) := rfl

lemma longest_append (gs hs : List Range) : longest (gs ++ hs) = max (longest gs) (longest hs) := by
  induction gs with
  | nil => simp
  | cons g gs ih => simp [ih, max_assoc]

lemma lastEnd_append (x y : Span V) (xs ys : List (Span V)) :
    lastEnd x (xs ++ y::ys) = lastEnd y ys := by
  induction xs generalizing x with
  | nil => rfl
  | cons z zs ih => exact ih z

lemma innerGaps_append (x y : Span V) (xs ys : List (Span V)) :
    innerGaps x (xs ++ y::ys) = innerGaps x xs ++ ⟨lastEnd x xs,y.start⟩::innerGaps y ys := by
  induction xs generalizing x with
  | nil => rfl
  | cons z zs ih => simp [innerGaps, lastEnd, ih]

lemma gaps_append (lo hi : ℕ) (xs ys : List (Span V)) (y : Span V) :
    gaps lo (xs ++ y::ys) hi = gaps lo xs y.start ++ gaps y.end_ ys hi := by
  induction xs generalizing lo with
  | nil => rfl
  | cons x xs ih => simp [gaps, ih]

lemma gaps_cons (lo hi : ℕ) (x : Span V) (xs : List (Span V)) :
    gaps lo (x::xs) hi = ⟨lo,x.start⟩::(innerGaps x xs ++ [⟨lastEnd x xs,hi⟩]) := by
  induction xs generalizing x lo with
  | nil => rfl
  | cons y ys ih => rw [gaps, ih]; simp [innerGaps, lastEnd]

/-- Spans in order, each ending where the next one starts or before. Spans may be empty. -/
structure Ordered (xs : List (Span V)) : Prop where
  le : ∀ x ∈ xs, x.start ≤ x.end_
  spaced : xs.Pairwise fun x y => x.end_ ≤ y.start

lemma Ordered.of_wf {xs : List (Span V)} (h : view.WF xs) : Ordered xs :=
  ⟨fun x hx => (h.proper x hx).le,h.spaced⟩

lemma Ordered.sublist {xs ys : List (Span V)} (h : Ordered xs) (hs : ys.Sublist xs) : Ordered ys :=
  ⟨fun x hx => h.le x (hs.subset hx),h.spaced.sublist hs⟩

/-- The end of the last span is the largest. -/
lemma le_lastEnd {x : Span V} {xs : List (Span V)} (h : Ordered (x::xs)) :
    ∀ y ∈ x::xs, y.end_ ≤ lastEnd x xs := by
  induction xs generalizing x with
  | nil => simp [lastEnd]
  | cons z zs ih =>
    have hz := ih (h.sublist (List.sublist_cons_self x (z::zs)))
    intro y hy
    rcases List.mem_cons.mp hy with rfl | hy
    · have h1 : y.end_ ≤ z.start := (List.pairwise_cons.mp h.spaced).1 z (by simp)
      have h2 : z.start ≤ z.end_ := h.le z (by simp)
      have h3 := hz z (by simp)
      simp only [lastEnd]
      omega
    · exact hz y hy

lemma exists_lastEnd (x : Span V) (xs : List (Span V)) : ∃ y ∈ x::xs, lastEnd x xs = y.end_ := by
  induction xs generalizing x with
  | nil => exact ⟨x,by simp,rfl⟩
  | cons z zs ih =>
    obtain ⟨y,hy,he⟩ := ih z
    exact ⟨y,List.mem_cons_of_mem x hy,he⟩

/-- Gaps start no earlier than the lower bound when the spans do. -/
lemma le_start_of_mem_gaps {lo hi : ℕ} {xs : List (Span V)} (h : view.WF xs)
    (hb : ∀ y ∈ xs, lo ≤ y.start) : ∀ g ∈ gaps lo xs hi, lo ≤ g.start := by
  induction xs generalizing lo with
  | nil => simp [gaps]
  | cons x xs ih =>
    intro g hg
    rcases List.mem_cons.mp hg with rfl | hg
    · exact le_rfl
    · have hx : x.start < x.end_ := h.proper x (by simp)
      have h1 := hb x (by simp)
      have hlater : ∀ y ∈ xs, x.end_ ≤ y.start := (List.pairwise_cons.mp h.spaced).1
      have h2 := ih (h.sublist (List.sublist_cons_self x xs)) hlater g hg
      omega

/-- Gaps end no later than the upper bound when the spans do. -/
lemma end_le_of_mem_gaps {lo hi : ℕ} {xs : List (Span V)} (h : view.WF xs)
    (hb : ∀ y ∈ xs, y.end_ ≤ hi) : ∀ g ∈ gaps lo xs hi, g.end_ ≤ hi := by
  induction xs generalizing lo with
  | nil => simp [gaps]
  | cons x xs ih =>
    intro g hg
    rcases List.mem_cons.mp hg with rfl | hg
    · have hx : x.start < x.end_ := h.proper x (by simp)
      have h1 := hb x (by simp)
      simp only
      omega
    · exact ih (h.sublist (List.sublist_cons_self x xs)) (fun y hy => hb y (by simp [hy])) g hg

/-- Every span is beside every gap. -/
lemma gaps_beside {lo hi : ℕ} {xs : List (Span V)} (h : view.WF xs) :
    ∀ g ∈ gaps lo xs hi, ∀ y ∈ xs, y.end_ ≤ g.start ∨ g.end_ ≤ y.start := by
  induction xs generalizing lo with
  | nil => simp
  | cons x xs ih =>
    have hxs := h.sublist (List.sublist_cons_self x xs)
    have hx : x.start < x.end_ := h.proper x (by simp)
    have hlater : ∀ y ∈ xs, x.end_ ≤ y.start := (List.pairwise_cons.mp h.spaced).1
    intro g hg y hy
    rcases List.mem_cons.mp hg with rfl | hg
    · rcases List.mem_cons.mp hy with rfl | hy
      · exact Or.inr le_rfl
      · have := hlater y hy
        simp only
        omega
    · rcases List.mem_cons.mp hy with rfl | hy
      · exact Or.inl (le_start_of_mem_gaps hxs hlater g hg)
      · exact ih hxs g hg y hy

/-- The augment value of a node: no subtraction underflows and no assertion fails. -/
theorem augment_summary {xs ys : List (Span V)} {z : Span V} (h : Ordered (xs ++ z::ys)) :
    Augment.augment z (summary xs) (summary ys) = .ok ((summary (xs ++ z::ys)).getD ⟨0,0,0⟩) := by
  obtain ⟨h1,h2,h3⟩ := List.pairwise_append.mp h.spaced
  have hz : z.start ≤ z.end_ := h.le z (by simp)
  have hleft : augmentLeft z (summary xs) = .ok (match xs with
      | [] => (0,z.start)
      | x::xs => (max (longest (innerGaps x xs)) (z.start - lastEnd x xs),x.start)) := by
    cases xs with
    | nil => rfl
    | cons x xs =>
      obtain ⟨y,hy,he⟩ := exists_lastEnd x xs
      have hle : lastEnd x xs ≤ z.start := he ▸ h3 y hy z (by simp)
      have hx : x.start ≤ x.end_ := h.le x (by simp)
      have hx' : x.end_ ≤ z.start := h3 x (by simp) z (by simp)
      have hmin : min z.start x.start = x.start := by omega
      simp [augmentLeft, summary, checkedSub_of_le hle, assert_of hle, hmin, bind, Except.bind,
        pure, Except.pure]
  have hright : ∀ g, augmentRight z g (summary ys) = .ok (match ys with
      | [] => (g,z.end_)
      | y::ys => (max (max g (longest (innerGaps y ys))) (y.start - z.end_),lastEnd y ys)) := by
    intro g
    cases ys with
    | nil => rfl
    | cons y ys =>
      have hle : z.end_ ≤ y.start := (List.pairwise_cons.mp h2).1 y (by simp)
      have hy := le_lastEnd (h.sublist (by simp) : Ordered (y::ys)) y (by simp)
      have hy' : y.start ≤ y.end_ := h.le y (by simp)
      have hmax : max z.end_ (lastEnd y ys) = lastEnd y ys := by omega
      simp [augmentRight, summary, checkedSub_of_le hle, assert_of hle, hmax, bind, Except.bind,
        pure, Except.pure]
  change (augmentLeft z (summary xs) >>= fun p => augmentRight z p.1 (summary ys) >>= fun q =>
    pure (⟨p.2,q.2,q.1⟩ : MaxGap)) = _
  rw [hleft]
  simp only [bind, Except.bind, hright, pure, Except.pure]
  congr 1
  cases xs with
  | nil =>
    cases ys with
    | nil => rfl
    | cons y ys =>
      simp only [List.nil_append, summary, Option.getD_some, MaxGap.mk.injEq, true_and, lastEnd,
        innerGaps, longest_cons, Range.len]
      omega
  | cons x xs =>
    cases ys with
    | nil =>
      simp only [List.cons_append, summary, Option.getD_some, MaxGap.mk.injEq, true_and,
        lastEnd_append, innerGaps_append, longest_append, longest_cons, lastEnd, innerGaps,
        longest_nil, Range.len]
      omega
    | cons y ys =>
      simp only [List.cons_append, summary, Option.getD_some, MaxGap.mk.injEq, true_and,
        lastEnd_append, innerGaps_append, longest_append, longest_cons, lastEnd, innerGaps,
        Range.len]
      omega

lemma values_node (c : Color) (l r : CTree (ℕ × Span V)) (x : ℕ × Span V) :
    values (node c l x r) = values l ++ x.2::values r := by simp [values]

/-- Recomputed over any tree of ordered spans, the augment value is the summary of its spans. -/
theorem augOf_eq_summary {t : CTree (ℕ × Span V)} (h : Ordered (values t)) :
    augOf t = .ok (summary (values t)) := by
  induction t with
  | leaf => rfl
  | node c l x r ihl ihr =>
    rw [values_node] at h
    have hl := ihl (h.sublist (by simp))
    have hr := ihr (h.sublist (by simp))
    have hsome : summary (values l ++ x.2::values r) ≠ none := by
      cases values l <;> simp [summary]
    simp only [augOf, hl, hr, augment_summary h, bind, Except.bind, pure, Except.pure, values_node]
    obtain ⟨g,hg⟩ := Option.ne_none_iff_exists'.mp hsome
    rw [hg]
    rfl

lemma computes : Computes MaxGap (view (V := V)) := fun _ h => ⟨_,augOf_eq_summary (.of_wf h)⟩

/-- A gap that is long enough. -/
def Fits (size : ℕ) (g : Range) : Bool := g.start + size ≤ g.end_

/-- The first gap in order that is long enough. -/
def firstGap (size lo : ℕ) (xs : List (Span V)) (hi : ℕ) : Option Range :=
  (gaps lo xs hi).find? (Fits size)

lemma exists_fits {size : ℕ} {gs : List Range} (h : size ≤ longest gs) (hs : 0 < size) :
    ∃ g ∈ gs, Fits size g := by
  induction gs with
  | nil => simp at h; omega
  | cons g gs ih =>
    by_cases hg : size ≤ g.len
    · exact ⟨g,by simp,by simp only [Fits, Range.len, decide_eq_true_eq] at hg ⊢; omega⟩
    · obtain ⟨g',h1,h2⟩ := ih (by simp at h; omega)
      exact ⟨g',List.mem_cons_of_mem g h1,h2⟩

lemma not_fits {size : ℕ} {gs : List Range} (h : ¬ size ≤ longest gs) : gs.find? (Fits size) = none := by
  induction gs with
  | nil => rfl
  | cons g gs ih =>
    simp only [longest_cons, le_max_iff, not_or, Range.len] at h
    rw [List.find?_cons_of_neg, ih h.2]
    simp only [Fits, decide_eq_true_eq]
    omega

/-- The result of a subtraction that is compared with the size. -/
lemma checkedSub_bind {α : Type} {a b : ℕ} {f : ℕ → Except Fault α} {r : α}
    (h : (checkedSub a b >>= f) = .ok r) : b ≤ a ∧ f (a-b) = .ok r := by
  by_cases hle : b ≤ a
  · rw [checkedSub_of_le hle] at h
    exact ⟨hle,h⟩
  · rw [checkedSub, if_neg hle] at h
    exact absurd h (by simp [bind, Except.bind])

/-- What a decision of `find_gap` says about the gaps of the subtree. -/
def Search.Sound (size treeMin treeMax : ℕ) (xs : List (Span V)) (z : Span V) (ys : List (Span V)) :
    Search → Prop
  | .found g => firstGap size treeMin (xs ++ z::ys) treeMax = some g
  | .left => xs ≠ [] ∧ firstGap size treeMin (xs ++ z::ys) treeMax = firstGap size treeMin xs z.start
  | .right => ys ≠ [] ∧ firstGap size treeMin (xs ++ z::ys) treeMax = firstGap size z.end_ ys treeMax
  | .exhausted => firstGap size treeMin (xs ++ z::ys) treeMax = none

/-- The second half of a round, when no gap before `leftEnd` fits. -/
lemma findGapHere_sound {size treeMin treeMax leftEnd : ℕ} {xs ys : List (Span V)} {z : Span V}
    {gs : List Range} {r : Search} (hgs : gaps treeMin xs z.start = gs ++ [⟨leftEnd,z.start⟩])
    (hno : gs.find? (Fits size) = none)
    (h : findGapHere size z leftEnd (summary ys) treeMax = .ok r) :
    r.Sound size treeMin treeMax xs z ys := by
  have hall : firstGap size treeMin (xs ++ z::ys) treeMax =
      ([⟨leftEnd,z.start⟩].find? (Fits size)).or (firstGap size z.end_ ys treeMax) := by
    unfold firstGap
    rw [gaps_append, hgs, List.find?_append, List.find?_append, hno, Option.none_or]
  obtain ⟨hle,h⟩ := checkedSub_bind h
  split at h
  · next hfit =>
    obtain rfl : .found ⟨leftEnd,z.start⟩ = r := by simpa [pure, Except.pure] using h
    have hf : Fits size ⟨leftEnd,z.start⟩ := by simp only [Fits, decide_eq_true_eq]; omega
    simp [Search.Sound, hall, hf]
  · next hfit =>
    have hf : Fits size ⟨leftEnd,z.start⟩ = false := by simp only [Fits, decide_eq_false_iff_not]; omega
    have hall' : firstGap size treeMin (xs ++ z::ys) treeMax = firstGap size z.end_ ys treeMax := by
      rw [hall]; simp [hf]
    obtain ⟨hle2,h⟩ := checkedSub_bind h
    cases ys with
    | nil =>
      have h : (if size ≤ treeMax - z.end_ then pure (.found ⟨z.end_,treeMax⟩)
        else pure .exhausted : Except Fault Search) = .ok r := h
      have hle2 : z.end_ ≤ treeMax := hle2
      by_cases hfit2 : size ≤ treeMax - z.end_
      · rw [if_pos hfit2] at h
        obtain rfl : .found ⟨z.end_,treeMax⟩ = r := by simpa [pure, Except.pure] using h
        have hf2 : Fits size ⟨z.end_,treeMax⟩ := by simp only [Fits, decide_eq_true_eq]; omega
        exact hall'.trans (List.find?_cons_of_pos hf2)
      · rw [if_neg hfit2] at h
        obtain rfl : .exhausted = r := by simpa [pure, Except.pure] using h
        have hf2 : Fits size ⟨z.end_,treeMax⟩ = false := by
          simp only [Fits, decide_eq_false_iff_not]; omega
        exact hall'.trans (List.find?_cons_of_neg (by simp [hf2]))
    | cons y ys =>
      simp only [summary, Option.map_some, Option.getD_some] at h hle2
      have hright : firstGap size z.end_ (y::ys) treeMax = ([⟨z.end_,y.start⟩].find? (Fits size)).or
          (((innerGaps y ys).find? (Fits size)).or ([⟨lastEnd y ys,treeMax⟩].find? (Fits size))) := by
        unfold firstGap
        rw [gaps_cons, ← List.singleton_append, List.find?_append, List.find?_append]
      split at h
      · next hfit2 =>
        obtain rfl : .found ⟨z.end_,y.start⟩ = r := by simpa [pure, Except.pure] using h
        have hf2 : Fits size ⟨z.end_,y.start⟩ := by simp only [Fits, decide_eq_true_eq]; omega
        simp [Search.Sound, hall', hright, hf2]
      · next hfit2 =>
        have hf2 : Fits size ⟨z.end_,y.start⟩ = false := by
          simp only [Fits, decide_eq_false_iff_not]; omega
        split at h
        · obtain rfl : .right = r := by simpa [pure, Except.pure] using h
          exact ⟨by simp,hall'⟩
        · next hgap =>
          have hno2 := not_fits hgap
          obtain ⟨hle3,h⟩ := checkedSub_bind h
          split at h
          · next hfit3 =>
            obtain rfl : .found ⟨lastEnd y ys,treeMax⟩ = r := by simpa [pure, Except.pure] using h
            have hf3 : Fits size ⟨lastEnd y ys,treeMax⟩ := by
              simp only [Fits, decide_eq_true_eq]; omega
            simp [Search.Sound, hall', hright, hf2, hno2, hf3]
          · next hfit3 =>
            obtain rfl : .exhausted = r := by simpa [pure, Except.pure] using h
            have hf3 : Fits size ⟨lastEnd y ys,treeMax⟩ = false := by
              simp only [Fits, decide_eq_false_iff_not]; omega
            simp [Search.Sound, hall', hright, hf2, hno2, hf3]

/-- One round of `find_gap`. -/
lemma findGapStep_sound {size treeMin treeMax : ℕ} {xs ys : List (Span V)} {z : Span V} {r : Search}
    (h : findGapStep size z (summary xs) (summary ys) treeMin treeMax = .ok r) :
    r.Sound size treeMin treeMax xs z ys := by
  cases xs with
  | nil =>
    have hleft : gaps treeMin ([] : List (Span V)) z.start = [] ++ [⟨treeMin,z.start⟩] := rfl
    exact findGapHere_sound hleft rfl h
  | cons x xs =>
    have hleft : gaps treeMin (x::xs) z.start =
        (⟨treeMin,x.start⟩::innerGaps x xs) ++ [⟨lastEnd x xs,z.start⟩] := gaps_cons _ _ _ _
    obtain ⟨hle,h⟩ := checkedSub_bind h
    dsimp only at hle h
    split at h
    · next hfit =>
      obtain rfl : .found ⟨treeMin,x.start⟩ = r := by simpa [pure, Except.pure] using h
      have hf : Fits size ⟨treeMin,x.start⟩ := by simp only [Fits, decide_eq_true_eq]; omega
      simp [Search.Sound, firstGap, gaps, hf]
    · next hfit =>
      have hf : Fits size ⟨treeMin,x.start⟩ = false := by
        simp only [Fits, decide_eq_false_iff_not]; omega
      split at h
      · next hgap =>
        obtain rfl : .left = r := by simpa [pure, Except.pure] using h
        -- one of the inner gaps of the left subtree fits
        refine ⟨by simp,?_⟩
        obtain ⟨g,hg,hgf⟩ := exists_fits hgap (by omega)
        have hsome : firstGap size treeMin (x::xs) z.start ≠ none := by
          unfold firstGap
          rw [hleft]
          intro hn
          rw [List.find?_eq_none] at hn
          exact hn g (by simp [hg]) hgf
        obtain ⟨g',hg'⟩ := Option.ne_none_iff_exists'.mp hsome
        have hall : firstGap size treeMin (x::xs ++ z::ys) treeMax =
            (firstGap size treeMin (x::xs) z.start).or (firstGap size z.end_ ys treeMax) := by
          unfold firstGap
          rw [gaps_append, List.find?_append]
        rw [hall, hg']
        rfl
      · next hgap =>
        refine findGapHere_sound hleft ?_ h
        rw [List.find?_cons_of_neg (by simp [hf])]
        exact not_fits hgap

/-- With the spans inside the bounds, no subtraction of a round underflows. -/
lemma findGapStep_total (size : ℕ) {treeMin treeMax : ℕ} {xs ys : List (Span V)} {z : Span V}
    (h : view.WF (xs ++ z::ys)) (hb : ∀ y ∈ xs ++ z::ys, treeMin ≤ y.start ∧ y.end_ ≤ treeMax) :
    ∃ r, findGapStep size z (summary xs) (summary ys) treeMin treeMax = .ok r := by
  obtain ⟨_,h2,h3⟩ := List.pairwise_append.mp h.spaced
  have hhere : ∀ leftEnd, leftEnd ≤ z.start →
      ∃ r, findGapHere size z leftEnd (summary ys) treeMax = .ok r := by
    intro leftEnd hle
    cases ys with
    | nil =>
      have hz := (hb z (by simp)).2
      simp only [findGapHere, summary, Option.map_none, Option.getD_none, checkedSub_of_le hle,
        checkedSub_of_le hz, bind, Except.bind, pure, Except.pure]
      split
      · exact ⟨_,rfl⟩
      · split <;> exact ⟨_,rfl⟩
    | cons y ys =>
      have hz : z.end_ ≤ y.start := (List.pairwise_cons.mp h2).1 y (by simp)
      obtain ⟨w,hw,he⟩ := exists_lastEnd y ys
      have hlast : lastEnd y ys ≤ treeMax := he ▸ (hb w (List.mem_append_right xs (List.mem_cons_of_mem z hw))).2
      simp only [findGapHere, summary, Option.map_some, Option.getD_some, checkedSub_of_le hle,
        checkedSub_of_le hz, checkedSub_of_le hlast, bind, Except.bind, pure, Except.pure]
      split
      · exact ⟨_,rfl⟩
      · split
        · exact ⟨_,rfl⟩
        · split
          · exact ⟨_,rfl⟩
          · split <;> exact ⟨_,rfl⟩
  cases xs with
  | nil => exact hhere treeMin (hb z (by simp)).1
  | cons x xs =>
    obtain ⟨w,hw,he⟩ := exists_lastEnd x xs
    obtain ⟨r,hr⟩ := hhere (lastEnd x xs) (he ▸ h3 w hw z (by simp))
    simp only [findGapStep, summary, checkedSub_of_le (hb x (by simp)).1, bind, Except.bind, pure,
      Except.pure]
    split
    · exact ⟨_,rfl⟩
    · split
      · exact ⟨_,rfl⟩
      · exact ⟨r,hr⟩

variable {tr : RbTree (Span V) MaxGap} {t : CTree (ℕ × Span V)}

/-- The augment value of a subtree that `find_gap` reads. -/
lemma childGap_ok (hs : SpanTree view tr t) {k : Ctx (ℕ × Span V)} {u : CTree (ℕ × Span V)}
    (hk : k.fill u = t) : childGap tr.heap u.ptr = .ok (summary (values u)) := by
  have ha : Augmented tr.heap u := Augmented.of_fill (hk ▸ hs.valid.augmented)
  have hwf : view.WF (values u) := by
    refine hs.wf.sublist ?_
    unfold values
    rw [← hk, Ctx.toList_fill]
    exact List.Sublist.map _ (by simp)
  have haug : u.ptr.bind tr.heap.aug = summary (values u) :=
    Except.ok.inj (ha.augOf_eq.symm.trans (augOf_eq_summary (.of_wf hwf)))
  cases u with
  | leaf => rfl
  | node c l x r =>
    have hx : x ∈ t.toList := by rw [← hk, Ctx.mem_fill]; simp
    obtain ⟨n,w,hn,_,hw,hav⟩ := hs.valid.node_of_mem hx
    rw [ptr_node, Option.bind_some, hav] at haug
    simp only [childGap, ptr_node, deref_eq hn, hw, haug, bind, Except.bind, pure, Except.pure]

/-- One round of the loop of `find_gap`. -/
lemma findGapLoop_succ (hs : SpanTree view tr t) (size fuel treeMin treeMax : ℕ)
    {k : Ctx (ℕ × Span V)} {c : Color} {l r : CTree (ℕ × Span V)} {x : ℕ × Span V}
    (hk : k.fill (node c l x r) = t) :
    findGapLoop tr.heap size (fuel+1) (some x.1) treeMin treeMax =
      (findGapStep size x.2 (summary (values l)) (summary (values r)) treeMin treeMax >>= fun
        | .found gap => .ok (some gap)
        | .left => findGapLoop tr.heap size fuel l.ptr treeMin x.2.start
        | .right => findGapLoop tr.heap size fuel r.ptr x.2.end_ treeMax
        | .exhausted => .ok none) := by
  obtain ⟨n,hn,hnv,_,hl,hr⟩ := Focus.node_fields (Focus.of_root (hk ▸ hs.valid.focus))
  have hgl := childGap_ok hs (k := ⟨.left,c,x,r⟩::k) (u := l) hk
  have hgr := childGap_ok hs (k := ⟨.right,c,x,l⟩::k) (u := r) hk
  simp only [findGapLoop, deref_eq hn, hl, hr, hnv, hgl, hgr, bind, Except.bind]
  rfl

/-- What `find_gap` returns is the first gap in order that is long enough. -/
theorem findGapLoop_sound (hs : SpanTree view tr t) (size fuel : ℕ) (k : Ctx (ℕ × Span V))
    (u : CTree (ℕ × Span V)) (treeMin treeMax : ℕ) (hk : k.fill u = t) (hu : u ≠ leaf)
    {res : Option Range} (h : findGapLoop tr.heap size fuel u.ptr treeMin treeMax = .ok res) :
    res = firstGap size treeMin (values u) treeMax := by
  induction fuel generalizing k u treeMin treeMax with
  | zero => simp [findGapLoop] at h
  | succ fuel ih =>
    cases u with
    | leaf => exact absurd rfl hu
    | node c l x r =>
      rw [ptr_node, findGapLoop_succ hs size fuel treeMin treeMax hk] at h
      cases hstep : findGapStep size x.2 (summary (values l)) (summary (values r)) treeMin treeMax with
      | error f => rw [hstep] at h; simp [bind, Except.bind] at h
      | ok d =>
        rw [hstep] at h
        have hsound := findGapStep_sound hstep
        rw [values_node]
        have hne : ∀ u : CTree (ℕ × Span V), values u ≠ [] → u ≠ leaf := by
          rintro u hu rfl
          exact hu rfl
        cases d with
        | found g =>
          obtain rfl : some g = res := Except.ok.inj h
          exact hsound.symm
        | left =>
          obtain ⟨h1,h2⟩ := hsound
          rw [h2]
          exact ih (⟨.left,c,x,r⟩::k) l treeMin x.2.start hk (hne l h1) h
        | right =>
          obtain ⟨h1,h2⟩ := hsound
          rw [h2]
          exact ih (⟨.right,c,x,l⟩::k) r x.2.end_ treeMax hk (hne r h1) h
        | exhausted =>
          obtain rfl : none = res := Except.ok.inj h
          exact hsound.symm

/-- With all spans inside the bounds, `find_gap` ends without a fault. -/
theorem findGapLoop_total (hs : SpanTree view tr t) (size fuel : ℕ) (k : Ctx (ℕ × Span V))
    (u : CTree (ℕ × Span V)) (treeMin treeMax : ℕ) (hk : k.fill u = t) (hu : u ≠ leaf)
    (hb : ∀ y ∈ values u, treeMin ≤ y.start ∧ y.end_ ≤ treeMax) (hf : u.size < fuel) :
    ∃ res, findGapLoop tr.heap size fuel u.ptr treeMin treeMax = .ok res := by
  induction fuel generalizing k u treeMin treeMax with
  | zero => omega
  | succ fuel ih =>
    cases u with
    | leaf => exact absurd rfl hu
    | node c l x r =>
      have hwf : view.WF (values (node c l x r)) := by
        refine hs.wf.sublist ?_
        unfold values
        rw [← hk, Ctx.toList_fill]
        exact List.Sublist.map _ (by simp)
      rw [values_node] at hwf hb
      obtain ⟨_,h2,h3⟩ := List.pairwise_append.mp hwf.spaced
      obtain ⟨d,hstep⟩ := findGapStep_total size hwf hb
      rw [ptr_node, findGapLoop_succ hs size fuel treeMin treeMax hk, hstep]
      have hsound := findGapStep_sound hstep
      have hne : ∀ u : CTree (ℕ × Span V), values u ≠ [] → u ≠ leaf := by
        rintro u hu rfl
        exact hu rfl
      simp only [CTree.size] at hf
      cases d with
      | found g => exact ⟨_,rfl⟩
      | left =>
        refine ih (⟨.left,c,x,r⟩::k) l treeMin x.2.start hk (hne l hsound.1) (fun y hy => ?_)
          (by omega)
        exact ⟨(hb y (by simp [hy])).1,h3 y hy x.2 (by simp)⟩
      | right =>
        refine ih (⟨.right,c,x,l⟩::k) r x.2.end_ treeMax hk (hne r hsound.1) (fun y hy => ?_)
          (by omega)
        exact ⟨(List.pairwise_cons.mp h2).1 y hy,(hb y (by simp [hy])).2⟩
      | exhausted => exact ⟨_,rfl⟩

end Lilith.VirtualAlloc
