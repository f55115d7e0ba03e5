import Mathlib.Data.List.Nodup
import Mathlib.Tactic

/-! Circular doubly linked lists, as two maps from nodes to nodes. A ring is a head with the nodes that are
reached from it by following `next`; the `prev` links lead back. Inserting before the head and taking a
node out are verified here once, for any type of nodes. -/
namespace Lilith.Theory

variable {P : Type*} {next prev next' prev' : P → P} {a b c h x : P} {xs ys : List P}

/-- The nodes `xs` lie between `a` and `b`. -/
def Linked (next prev : P → P) : P → List P → P → Prop
  | a, [], b => next a = b ∧ prev b = a
  | a, x :: xs, b => next a = x ∧ prev x = a ∧ Linked next prev x xs b

/-- The ring of the head `h`. -/
structure Ring (next prev : P → P) (h : P) (xs : List P) : Prop where
  linked : Linked next prev h xs h
  nodup : (h :: xs).Nodup

namespace Linked

@[simp] theorem linked_nil : Linked next prev a [] b ↔ next a = b ∧ prev b = a := Iff.rfl

@[simp] theorem linked_cons : Linked next prev a (x :: xs) b ↔ next a = x ∧ prev x = a ∧ Linked next prev x xs b :=
  Iff.rfl

lemma append : Linked next prev a (xs ++ x :: ys) b ↔ Linked next prev a xs x ∧ Linked next prev x ys b := by
  induction xs generalizing a with
  | nil => simp [and_assoc]
  | cons y xs ih => simp [ih, and_assoc]

/-- Links elsewhere do not matter. -/
lemma congr (hl : Linked next prev a xs b) (hn : ∀ y ∈ a :: xs, next' y = next y)
    (hp : ∀ y ∈ xs ++ [b], prev' y = prev y) : Linked next' prev' a xs b := by
  induction xs generalizing a with
  | nil =>
    obtain ⟨h1,h2⟩ := hl
    exact ⟨(hn a (by simp)).trans h1,(hp b (by simp)).trans h2⟩
  | cons x xs ih =>
    obtain ⟨h1,h2,h3⟩ := hl
    refine ⟨(hn a (by simp)).trans h1,(hp x (by simp)).trans h2,ih h3 (fun y hy => ?_) fun y hy => ?_⟩
    · exact hn y (List.mem_cons_of_mem _ hy)
    · exact hp y (by simpa using Or.inr (by simpa using hy))

/-- The last node of a path leads to its end. -/
lemma last (hl : Linked next prev a xs b) :
    next ((a :: xs).getLast (List.cons_ne_nil a xs)) = b ∧ prev b = (a :: xs).getLast (List.cons_ne_nil a xs) := by
  induction xs generalizing a with
  | nil => exact hl
  | cons x xs ih =>
    rw [List.getLast_cons (List.cons_ne_nil x xs)]
    exact ih hl.2.2

/-- A path that ends somewhere else. -/
lemma retarget (hl : Linked next prev a xs b) (hd : (a :: xs).Nodup)
    (hn : ∀ y ∈ a :: xs, y ≠ (a :: xs).getLast (List.cons_ne_nil a xs) → next' y = next y)
    (hlast : next' ((a :: xs).getLast (List.cons_ne_nil a xs)) = c)
    (hp : ∀ y ∈ xs, prev' y = prev y) (hc : prev' c = (a :: xs).getLast (List.cons_ne_nil a xs)) :
    Linked next' prev' a xs c := by
  induction xs generalizing a with
  | nil => exact ⟨hlast,hc⟩
  | cons x xs ih =>
    obtain ⟨h1,h2,h3⟩ := hl
    rw [List.getLast_cons (List.cons_ne_nil x xs)] at hn hlast hc
    have hne : a ≠ (x :: xs).getLast (List.cons_ne_nil x xs) := fun he =>
      (List.nodup_cons.mp hd).1 (he ▸ List.getLast_mem _)
    refine ⟨(hn a (by simp) hne).trans h1,(hp x (by simp)).trans h2,ih h3 (List.nodup_cons.mp hd).2
      (fun y hy => hn y (List.mem_cons_of_mem _ hy)) hlast (fun y hy => hp y (List.mem_cons_of_mem _ hy)) hc⟩

end Linked

namespace Ring

/-- A ring with no nodes is a head that leads to itself. -/
lemma nil_iff : Ring next prev h [] ↔ next h = h ∧ prev h = h :=
  ⟨fun hr => hr.linked,fun hr => ⟨hr,List.nodup_singleton h⟩⟩

lemma congr (hr : Ring next prev h xs) (hn : ∀ y ∈ h :: xs, next' y = next y) (hp : ∀ y ∈ h :: xs, prev' y = prev y) :
    Ring next' prev' h xs := by
  refine ⟨hr.linked.congr hn fun y hy => hp y ?_,hr.nodup⟩
  simp only [List.mem_append, List.mem_singleton] at hy
  rw [List.mem_cons]
  exact hy.symm

/-- The node before the head. -/
lemma prev_mem (hr : Ring next prev h xs) : prev h ∈ h :: xs := by
  rw [hr.linked.last.2]
  exact List.getLast_mem _

/-- The node after the head. -/
lemma next_eq (hr : Ring next prev h (x :: xs)) : next h = x := hr.linked.1

/-- Inserting a node before the head. -/
theorem insert (hr : Ring next prev h xs) (hx : x ∉ h :: xs) (hxn : next' x = h) (hxp : prev' x = prev h)
    (hl : next' (prev h) = x) (hh : prev' h = x) (hn : ∀ y ∈ h :: xs, y ≠ prev h → next' y = next y)
    (hp : ∀ y ∈ xs, prev' y = prev y) : Ring next' prev' h (xs ++ [x]) := by
  obtain ⟨_,hlast⟩ := hr.linked.last
  refine ⟨Linked.append.mpr ⟨hr.linked.retarget hr.nodup ?_ ?_ hp ?_,hxn,hh⟩,?_⟩
  · rw [← hlast]
    exact hn
  · rw [← hlast]
    exact hl
  · rw [← hlast]
    exact hxp
  · rw [← List.cons_append]
    exact List.Nodup.append hr.nodup (List.nodup_singleton x) (by simpa using hx)

/-- The neighbours of a node are in the ring. -/
lemma neighbours (hr : Ring next prev h (xs ++ x :: ys)) : next x ∈ h :: (xs ++ ys) ∧ prev x ∈ h :: (xs ++ ys) := by
  obtain ⟨h1,h2⟩ := Linked.append.mp hr.linked
  constructor
  · cases ys with
    | nil => simp [h2.1]
    | cons y ys => simp [h2.1]
  · have hm := List.getLast_mem (List.cons_ne_nil h xs)
    rw [h1.last.2]
    rw [List.mem_cons] at hm ⊢
    exact hm.imp id fun hm => List.mem_append_left _ hm

/-- Taking a node out of a ring. -/
theorem unlink (hr : Ring next prev h (xs ++ x :: ys)) (hnp : next' (prev x) = next x) (hpn : prev' (next x) = prev x)
    (hn : ∀ y ∈ h :: (xs ++ ys), y ≠ prev x → next' y = next y)
    (hp : ∀ y ∈ h :: (xs ++ ys), y ≠ next x → prev' y = prev y) : Ring next' prev' h (xs ++ ys) := by
  obtain ⟨h1,h2⟩ := Linked.append.mp hr.linked
  obtain ⟨_,hlast⟩ := h1.last
  have hd : (h :: (xs ++ ys)).Nodup := by
    have := hr.nodup
    rw [← List.cons_append, List.nodup_middle, List.nodup_cons, List.cons_append] at this
    exact this.2
  have hd1 : (h :: xs).Nodup := (List.nodup_append.mp (by simpa using hd : (h :: xs ++ ys).Nodup)).1
  have hdis : ∀ y ∈ h :: xs, y ∉ ys := fun y hy hy' =>
    (List.nodup_append.mp (by simpa using hd : (h :: xs ++ ys).Nodup)).2.2 y hy y hy' rfl
  have hsub : ∀ y ∈ h :: xs, y ∈ h :: (xs ++ ys) := fun y hy => by
    rw [List.mem_cons] at hy ⊢
    exact hy.imp id fun hy => List.mem_append_left _ hy
  refine ⟨?_,hd⟩
  cases ys with
  | nil =>
    obtain ⟨h3,h4⟩ := h2
    rw [List.append_nil] at hn hp ⊢
    rw [h3] at hnp hpn hp
    refine h1.retarget hd1 (hlast ▸ hn) (hlast ▸ hnp) (fun y hy => hp y (List.mem_cons_of_mem _ hy) ?_) (hlast ▸ hpn)
    rintro rfl
    exact (List.nodup_cons.mp hd1).1 hy
  | cons z zs =>
    obtain ⟨h3,h4,h5⟩ := h2
    rw [h3] at hnp hpn hp
    have hz : ∀ y ∈ h :: xs, y ≠ z := fun y hy he => hdis y hy (he ▸ List.mem_cons_self)
    have hpx : prev x ∈ h :: xs := by
      rw [hlast]
      exact List.getLast_mem _
    have hdz : (z :: zs).Nodup := (List.nodup_append.mp (by simpa using hd : (h :: xs ++ z :: zs).Nodup)).2.1
    refine Linked.append.mpr ⟨h1.retarget hd1 ?_ (hlast ▸ hnp) (fun y hy => ?_) (hlast ▸ hpn),h5.congr (fun y hy => ?_)
      fun y hy => ?_⟩
    · rw [← hlast]
      exact fun y hy => hn y (hsub y hy)
    · exact hp y (hsub y (List.mem_cons_of_mem _ hy)) (hz y (List.mem_cons_of_mem _ hy))
    · refine hn y (List.mem_cons_of_mem _ (List.mem_append_right _ hy)) ?_
      rintro rfl
      exact hdis _ hpx hy
    · rw [List.mem_append, List.mem_singleton] at hy
      rcases hy with hy | rfl
      · refine hp y (List.mem_cons_of_mem _ (List.mem_append_right _ (List.mem_cons_of_mem _ hy))) ?_
        rintro rfl
        exact (List.nodup_cons.mp hdz).1 hy
      · exact hp y List.mem_cons_self (hz y List.mem_cons_self)

end Ring

/-- Rings with the heads of `S`, no two of which have a common node. -/
structure Rings {I : Type*} (next prev : P → P) (head : I → P) (xs : I → List P) (S : Set I) : Prop where
  ring : ∀ i ∈ S, Ring next prev (head i) (xs i)
  disjoint : ∀ i ∈ S, ∀ j ∈ S, i ≠ j → ∀ y ∈ head i :: xs i, y ∉ head j :: xs j

namespace Rings
variable {I : Type*} {head : I → P} {ns : I → List P} {S : Set I} {i : I}

lemma congr (h : Rings next prev head ns S) (hn : ∀ i ∈ S, ∀ y ∈ head i :: ns i, next' y = next y)
    (hp : ∀ i ∈ S, ∀ y ∈ head i :: ns i, prev' y = prev y) : Rings next' prev' head ns S :=
  ⟨fun i hi => (h.ring i hi).congr (hn i hi) (hp i hi),h.disjoint⟩

/-- A change of one ring that the others do not notice. -/
lemma update [DecidableEq I] (h : Rings next prev head ns S) (hi : i ∈ S) (hring : Ring next' prev' (head i) xs)
    (hkeep : ∀ j ∈ S, j ≠ i → ∀ y ∈ head j :: ns j, next' y = next y ∧ prev' y = prev y)
    (hxs : ∀ y ∈ xs, y ∈ ns i ∨ ∀ j ∈ S, y ∉ head j :: ns j) :
    Rings next' prev' head (Function.update ns i xs) S := by
  have hnew : ∀ j ∈ S, j ≠ i → ∀ y ∈ head i :: xs, y ∉ head j :: ns j := by
    intro j hj hne y hy
    rcases List.mem_cons.mp hy with rfl | hy
    · exact h.disjoint i hi j hj hne.symm _ List.mem_cons_self
    · rcases hxs y hy with hy | hy
      · exact h.disjoint i hi j hj hne.symm y (List.mem_cons_of_mem _ hy)
      · exact hy j hj
  constructor
  · intro j hj
    by_cases hji : j = i
    · subst hji
      rw [Function.update_self]
      exact hring
    · rw [Function.update_of_ne hji]
      exact (h.ring j hj).congr (fun y hy => (hkeep j hj hji y hy).1) fun y hy => (hkeep j hj hji y hy).2
  · intro j hj k hk hjk y hy
    by_cases hji : j = i
    · subst hji
      rw [Function.update_self] at hy
      rw [Function.update_of_ne hjk.symm]
      exact hnew k hk hjk.symm y hy
    · rw [Function.update_of_ne hji] at hy
      by_cases hki : k = i
      · subst hki
        rw [Function.update_self]
        exact fun hy' => hnew j hj hji y hy' hy
      · rw [Function.update_of_ne hki]
        exact h.disjoint j hj k hk hjk y hy

variable [DecidableEq P] [DecidableEq I]

/-- Inserting a node that is in no ring before the head of one. -/
theorem insert (h : Rings next prev head ns S) (hi : i ∈ S) (hx : ∀ j ∈ S, x ∉ head j :: ns j) :
    Rings (Function.update (Function.update next x (head i)) (prev (head i)) x)
      (Function.update (Function.update prev x (prev (head i))) (head i) x) head
      (Function.update ns i (ns i ++ [x])) S := by
  have hring := h.ring i hi
  have hne : x ≠ prev (head i) := fun he => hx i hi (he ▸ hring.prev_mem)
  have hne' : x ≠ head i := fun he => hx i hi (he ▸ List.mem_cons_self)
  have hout : ∀ j ∈ S, ∀ y ∈ head j :: ns j, y ≠ x := fun j hj y hy he => hx j hj (he ▸ hy)
  apply h.update hi
  · apply hring.insert (hx i hi) _ _ (Function.update_self _ _ _) (Function.update_self _ _ _)
    · intro y hy hyp
      rw [Function.update_of_ne hyp, Function.update_of_ne (hout i hi y hy)]
    · intro y hy
      have hyh : y ≠ head i := fun he => (List.nodup_cons.mp hring.nodup).1 (he ▸ hy)
      rw [Function.update_of_ne hyh, Function.update_of_ne (hout i hi y (List.mem_cons_of_mem _ hy))]
    · rw [Function.update_of_ne hne, Function.update_self]
    · rw [Function.update_of_ne hne', Function.update_self]
  · intro j hj hji y hy
    have hyp : y ≠ prev (head i) := fun he => h.disjoint i hi j hj hji.symm _ hring.prev_mem (he ▸ hy)
    have hyh : y ≠ head i := fun he => h.disjoint i hi j hj hji.symm _ List.mem_cons_self (he ▸ hy)
    rw [Function.update_of_ne hyp, Function.update_of_ne (hout j hj y hy), Function.update_of_ne hyh,
      Function.update_of_ne (hout j hj y hy)]
    exact ⟨rfl,rfl⟩
  · intro y hy
    rcases List.mem_append.mp hy with hy | hy
    · exact Or.inl hy
    · rw [List.mem_singleton.mp hy]
      exact Or.inr hx

/-- Taking a node out of its ring, with any links of its own afterwards. -/
theorem unlink (h : Rings next prev head ns S) (hi : i ∈ S) (hns : ns i = xs ++ x :: ys) (a b : P) :
    Rings (Function.update (Function.update next (prev x) (next x)) x a)
      (Function.update (Function.update prev (next x) (prev x)) x b) head (Function.update ns i (xs ++ ys)) S := by
  have hring := h.ring i hi
  have hxm : x ∈ head i :: ns i := by simp [hns]
  have hsub : ∀ y ∈ head i :: (xs ++ ys), y ∈ head i :: ns i := by
    intro y hy
    rw [hns]
    simp only [List.mem_cons, List.mem_append] at hy ⊢
    tauto
  rw [hns] at hring
  obtain ⟨hn,hp⟩ := hring.neighbours
  have hd := hring.nodup
  rw [← List.cons_append, List.nodup_middle, List.nodup_cons, List.cons_append] at hd
  have hself : ∀ y ∈ head i :: (xs ++ ys), y ≠ x := fun y hy he => hd.1 (he ▸ hy)
  apply h.update hi
  · apply hring.unlink
    · rw [Function.update_of_ne (hself _ hp), Function.update_self]
    · rw [Function.update_of_ne (hself _ hn), Function.update_self]
    · intro y hy hyp
      rw [Function.update_of_ne (hself y hy), Function.update_of_ne hyp]
    · intro y hy hyn
      rw [Function.update_of_ne (hself y hy), Function.update_of_ne hyn]
  · intro j hj hji y hy
    have hout : ∀ z ∈ head i :: ns i, y ≠ z := fun z hz he => h.disjoint i hi j hj hji.symm z hz (he ▸ hy)
    rw [Function.update_of_ne (hout x hxm), Function.update_of_ne (hout _ (hsub _ hp)), Function.update_of_ne (hout x hxm),
      Function.update_of_ne (hout _ (hsub _ hn))]
    exact ⟨rfl,rfl⟩
  · intro y hy
    rw [hns]
    simp only [List.mem_append, List.mem_cons] at hy ⊢
    tauto

end Rings
end Lilith.Theory
