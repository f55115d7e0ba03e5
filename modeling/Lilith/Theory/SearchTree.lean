import Lilith.Theory.ColoredTree

/-! Searching a tree whose keys are in order with respect to the question asked. A search that
goes left or right at every node finds what a scan of the in-order list would find. -/
namespace Lilith.Theory

variable {α : Type*}

namespace CTree

/-- Go left where the answer is `gt`, right where it is `lt`, and stop where it is `eq`. -/
def search (ord : α → Ordering) : CTree α → Option α
  | leaf => none
  | node _ l x r => match ord x with
    | .gt => l.search ord
    | .eq => some x
    | .lt => r.search ord

/-- The last key on the way down that satisfies `p`, going left at such keys. -/
def lowerBound (p : α → Bool) : Option α → CTree α → Option α
  | candidate, leaf => candidate
  | candidate, node _ l x r => if p x then l.lowerBound p (some x) else r.lowerBound p candidate

end CTree

open CTree

/-- Along the list the answers are first `lt`, then `eq`, then `gt`. -/
def Banded (ord : α → Ordering) (xs : List α) : Prop :=
  xs.Pairwise fun x y => (ord x = .gt → ord y = .gt) ∧ (ord y = .lt → ord x = .lt)

/-- Along the list the predicate is first false, then true. -/
def Upward (p : α → Bool) (xs : List α) : Prop := xs.Pairwise fun x y => p x → p y

lemma Upward.of_append {p : α → Bool} {xs ys : List α} (hx : ∀ x ∈ xs, p x = false) (hy : ∀ y ∈ ys, p y = true) :
    Upward p (xs ++ ys) := by
  unfold Upward
  rw [List.pairwise_append]
  refine ⟨List.pairwise_of_forall_mem_list fun x hxs y _ h => ?_,List.pairwise_of_forall_mem_list fun x _ y hys _ => hy y hys,
    fun x _ y hys _ => hy y hys⟩
  rw [hx x hxs] at h
  simp at h

lemma Banded.of_append {ord : α → Ordering} {xs ys zs : List α} (hx : ∀ x ∈ xs, ord x = .lt) (hy : ∀ y ∈ ys, ord y = .eq)
    (hz : ∀ z ∈ zs, ord z = .gt) : Banded ord (xs ++ ys ++ zs) := by
  unfold Banded
  rw [List.pairwise_append, List.pairwise_append]
  refine ⟨⟨?_,?_,fun a ha b hb => ?_⟩,?_,fun a ha b hb => ?_⟩
  · exact List.pairwise_of_forall_mem_list fun a ha b hb => by simp [hx a ha, hx b hb]
  · exact List.pairwise_of_forall_mem_list fun a ha b hb => by simp [hy a ha, hy b hb]
  · simp [hx a ha, hy b hb]
  · exact List.pairwise_of_forall_mem_list fun a ha b hb => by simp [hz a ha, hz b hb]
  · rw [hz b hb]
    simp

lemma search_some {ord : α → Ordering} {t : CTree α} {x : α} (h : t.search ord = some x) :
    x ∈ t.toList ∧ ord x = .eq := by
  induction t with
  | leaf => simp [search] at h
  | node c l y r ihl ihr =>
    unfold search at h
    cases hy : ord y with
    | gt =>
      rw [hy] at h
      have := ihl h
      exact ⟨by simp [this.1],this.2⟩
    | eq =>
      rw [hy] at h
      obtain rfl : y = x := by simpa using h
      exact ⟨by simp,hy⟩
    | lt =>
      rw [hy] at h
      have := ihr h
      exact ⟨by simp [this.1],this.2⟩

lemma search_none {ord : α → Ordering} {t : CTree α} (h : t.search ord = none)
    (hb : Banded ord t.toList) : ∀ x ∈ t.toList, ord x ≠ .eq := by
  induction t with
  | leaf => simp
  | node c l y r ihl ihr =>
    unfold Banded at hb ihl ihr
    rw [toList_node, List.pairwise_append, List.pairwise_cons] at hb
    obtain ⟨hl,⟨hyr,hr⟩,hly⟩ := hb
    unfold search at h
    intro x hx
    simp only [toList_node, List.mem_append, List.mem_cons] at hx
    cases hy : ord y with
    | gt =>
      rw [hy] at h
      rcases hx with hx | rfl | hx
      · exact ihl h hl x hx
      · simp [hy]
      · simp [(hyr x hx).1 hy]
    | eq => rw [hy] at h; simp at h
    | lt =>
      rw [hy] at h
      rcases hx with hx | rfl | hx
      · simp [(hly x hx y (by simp)).2 hy]
      · simp [hy]
      · exact ihr h hr x hx

/-- A search finds a key with answer `eq` exactly when there is one. -/
theorem search_eq_none_iff {ord : α → Ordering} {t : CTree α} (hb : Banded ord t.toList) :
    t.search ord = none ↔ ∀ x ∈ t.toList, ord x ≠ .eq := by
  constructor
  · intro h
    exact search_none h hb
  · intro h
    cases hs : t.search ord with
    | none => rfl
    | some x => exact absurd (search_some hs).2 (h x (search_some hs).1)

/-- The lower bound is the first key in order that satisfies the predicate. -/
theorem lowerBound_eq {p : α → Bool} {t : CTree α} (hu : Upward p t.toList) (candidate : Option α) :
    t.lowerBound p candidate = (t.toList.find? p).or candidate := by
  induction t generalizing candidate with
  | leaf => simp [lowerBound]
  | node c l y r ihl ihr =>
    unfold Upward at hu ihl ihr
    rw [toList_node, List.pairwise_append, List.pairwise_cons] at hu
    obtain ⟨hl,⟨hyr,hr⟩,hly⟩ := hu
    unfold lowerBound
    rw [toList_node, List.find?_append, List.find?_cons]
    cases hy : p y with
    | true =>
      rw [if_pos rfl, ihl hl]
      simp only [Option.or_assoc, Option.some_or]
    | false =>
      have hnone : l.toList.find? p = none := by
        rw [List.find?_eq_none]
        intro x hx hpx
        have := hly x hx y (by simp) hpx
        simp [hy] at this
      rw [if_neg (by simp), ihr hr, hnone]
      simp

/-- In any order, the lower bound satisfies the predicate. -/
lemma lowerBound_sound {p : α → Bool} {t : CTree α} {candidate : Option α} {x : α}
    (h : t.lowerBound p candidate = some x) : candidate = some x ∨ x ∈ t.toList ∧ p x = true := by
  induction t generalizing candidate with
  | leaf => exact Or.inl h
  | node c l y r ihl ihr =>
    unfold lowerBound at h
    rw [toList_node, List.mem_append, List.mem_cons]
    split_ifs at h with hy
    · rcases ihl h with he | ⟨hx,hp⟩
      · obtain rfl := Option.some.inj he
        exact Or.inr ⟨Or.inr (Or.inl rfl),hy⟩
      · exact Or.inr ⟨Or.inl hx,hp⟩
    · rcases ihr h with he | ⟨hx,hp⟩
      · exact Or.inl he
      · exact Or.inr ⟨Or.inr (Or.inr hx),hp⟩

end Lilith.Theory
