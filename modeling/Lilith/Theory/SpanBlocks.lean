import Lilith.Theory.Spans

/-! Lists of intervals that are put together: from lists for blocks of the line that are in order, and
from single intervals that come in order and are joined with the last one where they can be. -/
namespace Lilith.Theory
namespace SpanView

variable {A τ ω : Type*} [LinearOrder A] {v : SpanView A τ ω} {xs ys : List τ} {x y : τ} {a : A}

section Blocks
variable {n : ℕ} {f : Fin n → List τ} {lo hi : Fin n → A}

/-- The intervals of blocks one after the other. -/
lemma WF.flatMap (hwf : ∀ i, v.WF (f i)) (hin : ∀ i, ∀ x ∈ f i, lo i ≤ v.lo x ∧ v.hi x ≤ hi i)
    (hnext : ∀ i j, i < j → hi i ≤ lo j) : v.WF ((List.finRange n).flatMap f) := by
  constructor
  · rw [List.pairwise_flatMap]
    refine ⟨fun i _ => (hwf i).spaced,(List.pairwise_lt_finRange n).imp fun hij x hx y hy => ?_⟩
    exact (hin _ x hx).2.trans ((hnext _ _ hij).trans (hin _ y hy).1)
  · intro x hx
    obtain ⟨i,_,hi⟩ := List.mem_flatMap.mp hx
    exact (hwf i).proper x hi

/-- A point that is in no block has no value. -/
lemma lookup_flatMap_outside (hin : ∀ i, ∀ x ∈ f i, lo i ≤ v.lo x ∧ v.hi x ≤ hi i)
    (ha : ∀ i, lo i ≤ a → hi i ≤ a) : v.lookup ((List.finRange n).flatMap f) a = none := by
  rw [lookup_eq_none]
  intro x hx hc
  obtain ⟨i,_,hi⟩ := List.mem_flatMap.mp hx
  obtain ⟨h1,h2⟩ := hin i x hi
  exact absurd (hc.2.trans_le h2) (ha i (h1.trans hc.1)).not_gt

/-- The value of a point is the one in its block. -/
lemma lookup_flatMap (hwf : ∀ i, v.WF (f i)) (hin : ∀ i, ∀ x ∈ f i, lo i ≤ v.lo x ∧ v.hi x ≤ hi i)
    (hnext : ∀ i j, i < j → hi i ≤ lo j) {i : Fin n} (h1 : lo i ≤ a) (h2 : a < hi i) :
    v.lookup ((List.finRange n).flatMap f) a = v.lookup (f i) a := by
  cases hl : v.lookup (f i) a with
  | some w =>
    obtain ⟨x,hx,hc,rfl⟩ := (hwf i).lookup_eq_some.mp hl
    exact (WF.flatMap hwf hin hnext).lookup_of_mem (List.mem_flatMap.mpr ⟨i,List.mem_finRange i,hx⟩) hc
  | none =>
    rw [lookup_eq_none]
    intro x hx hc
    obtain ⟨j,_,hj⟩ := List.mem_flatMap.mp hx
    obtain ⟨h3,h4⟩ := hin j x hj
    rcases lt_trichotomy i j with hij | rfl | hij
    · exact absurd (h2.trans_le (hnext i j hij)) (h3.trans hc.1).not_gt
    · exact lookup_eq_none.mp hl x hj hc
    · exact absurd (hc.2.trans_le h4) ((hnext j i hij).trans h1).not_gt

end Blocks

/-- Put an interval behind a list, joined with the last one if it can be. -/
def glueLast (glue : τ → τ → Option τ) (xs : List τ) (y : τ) : List τ :=
  match xs.getLast? with
  | none => [y]
  | some x => match glue x y with
    | some z => xs.dropLast ++ [z]
    | none => xs ++ [y]

variable {glue : τ → τ → Option τ}

lemma glueLast_concat : glueLast glue (xs ++ [x]) y = xs ++ ((glue x y).elim [x,y] fun z => [z]) := by
  rw [glueLast, List.getLast?_concat, List.dropLast_concat]
  cases hz : glue x y with
  | none => simp [hz]
  | some z => simp [hz]

lemma length_le_glueLast : xs.length ≤ (glueLast glue xs y).length := by
  rcases xs.eq_nil_or_concat with rfl | ⟨xs,x,rfl⟩
  · simp
  · rw [List.concat_eq_append, glueLast_concat]
    cases glue x y with
    | none => simp
    | some z => simp

lemma length_le_foldl_glueLast : xs.length ≤ (ys.foldl (glueLast glue) xs).length := by
  induction ys generalizing xs with
  | nil => exact le_rfl
  | cons y ys ih => exact length_le_glueLast.trans ih

lemma foldl_glueLast_concat : ys.foldl (glueLast glue) (xs ++ [x]) = xs ++ glueFrom glue x ys := by
  induction ys generalizing xs x with
  | nil => rfl
  | cons y ys ih =>
    rw [List.foldl_cons, glueLast_concat, glueFrom]
    cases glue x y with
    | none =>
      have happend : xs ++ [x,y] = (xs ++ [x]) ++ [y] := by simp
      simp only [Option.elim_none]
      rw [happend, ih, List.append_assoc, List.singleton_append]
    | some z => exact ih

/-- Joining the intervals as they come gives all joints. -/
theorem foldl_glueLast : ys.foldl (glueLast glue) [] = glueAll glue ys := by
  cases ys with
  | nil => rfl
  | cons y ys => exact @foldl_glueLast_concat _ [] ys y glue

/-- Joining with the last interval keeps those that are still to come behind it. -/
lemma Glues.wf_glueLast (hg : v.Glues glue) (h : v.WF (xs ++ y::ys)) : v.WF (glueLast glue xs y ++ ys) := by
  rcases xs.eq_nil_or_concat with rfl | ⟨xs,x,rfl⟩
  · exact h
  · rw [List.concat_eq_append] at h ⊢
    rw [glueLast_concat]
    cases hz : glue x y with
    | none => simpa using h
    | some z =>
      have h' : v.WF (xs ++ x::y::ys) := by simpa using h
      simpa using hg.wf hz h'

end SpanView
end Lilith.Theory
