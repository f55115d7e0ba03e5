import Lilith.Boot.Model
import Lilith.Theory.Exec

/-! The slots of the boot allocator: between operations every slot is a node of the tree or on the
free list. Inside an operation a slot may be held, in neither of the two; each step of `insert`,
`remove` and `compact` moves one slot between the tree, the free list and the held ones. -/
namespace Lilith.Boot
open Theory PtrGraph CTree Rbtree

variable {n : ℕ} {b : BootAlloc} {t : CTree (ℕ × Span)} {fl held : List ℕ} {a : ℕ}

/-- Spans as intervals of addresses with a type. -/
def view : SpanView ℕ Span SpanType := ⟨Span.start,Span.end_,Span.spanType⟩

/-- The links from `p` on are those of the list. -/
def FreeList (b : BootAlloc) : Ptr → List ℕ → Prop
  | p, [] => p = none
  | p, a::fl => p = some a ∧ ∃ next, b.readLink a = .ok next ∧ FreeList b next fl

/-- The invariant of an allocator with `n` slots, of which `held` are in use by an operation. -/
structure Valid (n : ℕ) (b : BootAlloc) (t : CTree (ℕ × Span)) (fl held : List ℕ) : Prop where
  tree : SpanTree view b.tree t
  list : FreeList b b.freeNode fl
  slots : (held ++ (t.ids ++ fl)).Perm (List.range n)
  size : b.tree.heap.cells.length = n
  links : b.links.length = n
  bounded : ∀ x ∈ values t, x.end_ < 2^64

lemma FreeList.congr {b' : BootAlloc} {p : Ptr} (h : FreeList b p fl)
    (hl : ∀ a ∈ fl, b'.readLink a = b.readLink a) : FreeList b' p fl := by
  induction fl generalizing p with
  | nil => exact h
  | cons a fl ih =>
    obtain ⟨hp,next,hn,hr⟩ := h
    exact ⟨hp,next,(hl a (by simp)).trans hn,ih hr fun c hc => hl c (by simp [hc])⟩

lemma readLink_congr {b' : BootAlloc} (hh : b'.tree.heap.get? a = b.tree.heap.get? a)
    (hl : b'.links[a]? = b.links[a]?) : b'.readLink a = b.readLink a := by
  simp only [BootAlloc.readLink, hh, hl]

/-- The size of a span if it is free. -/
def freeSize (x : Span) : ℕ := if x.spanType = .free then x.end_ - x.start else 0

/-- The size of the largest free span of a list. -/
def maxFree (xs : List Span) : ℕ := (xs.map freeSize).foldr max 0

/-- The augment value of a list of spans. -/
def summary : List Span → Option MaxFree
  | [] => none
  | x::xs => some ⟨maxFree (x::xs)⟩

@[simp] theorem maxFree_cons (x : Span) (xs : List Span) :
    maxFree (x::xs) = max (freeSize x) (maxFree xs) := rfl

lemma maxFree_append (xs ys : List Span) : maxFree (xs ++ ys) = max (maxFree xs) (maxFree ys) := by
  induction xs with
  | nil => simp [maxFree]
  | cons x xs ih => simp [ih, max_assoc]

lemma freeSize_le_maxFree {xs : List Span} {x : Span} (h : x ∈ xs) : freeSize x ≤ maxFree xs := by
  induction xs with
  | nil => simp at h
  | cons y ys ih =>
    rw [maxFree_cons]
    rcases List.mem_cons.mp h with rfl | h
    · exact le_max_left _ _
    · exact (ih h).trans (le_max_right _ _)

lemma summary_size (xs : List Span) : ((summary xs).map (·.size)).getD 0 = maxFree xs := by
  cases xs <;> rfl

/-- Recomputed over any tree of disjoint spans, the augment value is that of its spans. -/
theorem augOf_eq_summary (h : view.WF (values t)) : augOf t = .ok (summary (values t)) := by
  induction t with
  | leaf => rfl
  | node c l x r ihl ihr =>
    have hv : values (node c l x r) = values l ++ x.2::values r := by simp [values]
    rw [hv] at h ⊢
    have hl := ihl (h.sublist (List.sublist_append_left _ _))
    have hr := ihr (h.sublist (by simp))
    have hle : x.2.start ≤ x.2.end_ := (h.proper x.2 (by simp)).le
    have hsum : summary (values l ++ x.2::values r) =
        some ⟨max (max (freeSize x.2) (maxFree (values l))) (maxFree (values r))⟩ := by
      have hmax : maxFree (values l ++ x.2::values r) =
          max (max (freeSize x.2) (maxFree (values l))) (maxFree (values r)) := by
        rw [maxFree_append, maxFree_cons]
        omega
      rw [← hmax]
      cases values l <;> rfl
    simp only [augOf, hl, hr, Augment.augment, checkedSub_of_le hle, summary_size, hsum, freeSize, bind,
      Except.bind, pure, Except.pure]
    split_ifs <;> rfl

/-- The augmentation does not fault: no span ends before it starts. -/
lemma computes : Computes MaxFree view := fun _ h => ⟨_,augOf_eq_summary h⟩

lemma get?_set {h : Heap Span MaxFree} {m : RbNode Span MaxFree} {c : ℕ} (hc : c ≠ a) :
    (h.set a m).get? c = h.get? c := by
  simp [Heap.get?, Heap.set, List.getElem?_set_ne hc.symm]

lemma get?_free {h : Heap Span MaxFree} {c : ℕ} (hc : c ≠ a) : (h.free a).get? c = h.get? c := by
  simp [Heap.get?, Heap.free, List.getElem?_set_ne hc.symm]

lemma ids_insert {t' : CTree (ℕ × Span)} {before after : List (ℕ × Span)} {x : ℕ × Span}
    (h : t.toList = before ++ after) (h' : t'.toList = before ++ x::after) :
    t'.ids.Perm (x.1::t.ids) := by
  simp only [CTree.ids, h, h', List.map_append, List.map_cons]
  exact List.perm_middle

namespace Valid

lemma nodup (h : Valid n b t fl held) : (held ++ (t.ids ++ fl)).Nodup :=
  h.slots.nodup_iff.mpr List.nodup_range

lemma lt (h : Valid n b t fl held) (ha : a ∈ held ++ (t.ids ++ fl)) : a < n :=
  List.mem_range.mp (h.slots.mem_iff.mp ha)

/-- A held slot is not in the tree and not on the free list. -/
lemma apart (h : Valid n b t fl (a::held)) : a ∉ t.ids ∧ a ∉ fl := by
  have hn := (List.nodup_cons.mp h.nodup).1
  exact ⟨fun hi => hn (by simp [hi]),fun hi => hn (by simp [hi])⟩

/-- A node of the tree is not on the free list. -/
lemma ne_of_mem (h : Valid n b t fl held) {c : ℕ} (ha : a ∈ t.ids) (hc : c ∈ fl) : c ≠ a := by
  have hn := (List.nodup_append.mp h.nodup).2.1
  exact fun he => (List.nodup_append.mp hn).2.2 a ha c hc he.symm

/-- Every slot is in the tree or free. -/
lemma count (h : Valid n b t fl []) : t.toList.length + fl.length = n := by
  have := h.slots.length_eq
  simpa [CTree.ids] using this

lemma lt_bound (h : Valid n b t fl []) : t.toList.length < b.tree.heap.bound := by
  have h1 := h.count
  have h2 := h.size
  simp only [Heap.bound]
  omega

/-- Writing a new node into a held slot. -/
lemma writeNode (h : Valid n b t fl (a::held)) (span : Span) :
    Valid n (b.writeNode a span) t fl (a::held) ∧
      (b.writeNode a span).tree.heap.get? a = some (.new span) := by
  have hlt : a < b.tree.heap.cells.length := by rw [h.size]; exact h.lt (by simp)
  refine ⟨⟨⟨h.tree.valid.congr fun c hc => get?_set ?_,h.tree.wf⟩,h.list.congr fun c hc => ?_,h.slots,
    ?_,h.links,h.bounded⟩,?_⟩
  · rintro rfl
    exact h.apart.1 hc
  · exact readLink_congr (get?_set (by rintro rfl; exact h.apart.2 hc)) rfl
  · simp [BootAlloc.writeNode, Heap.set, h.size]
  · simp [BootAlloc.writeNode, Heap.get?, Heap.set, hlt]

/-- Linking a held slot into the tree, in a place that is free. -/
lemma insertTree (h : Valid n b t fl (a::held)) {span : Span}
    (hget : b.tree.heap.get? a = some (.new span)) (hlt : span.start < span.end_)
    (hb : span.end_ < 2^64) (hfree : ∀ p, span.start ≤ p → p < span.end_ → denote view t p = none) :
    ∃ b' t' before after, b.insertTree a = .ok b' ∧ Valid n b' t' fl held ∧
      t.toList = before ++ after ∧ t'.toList = before ++ (a,span)::after := by
  obtain ⟨tr',t',before,after,h1,h2,h3,h4,h5⟩ := h.tree.insertRaw computes
    (fun x y => (rfl : byStart x y = compare (view.lo x) (view.lo y))) hget h.apart.1 hlt hfree
  refine ⟨{ b with tree := tr' },t',before,after,?_,⟨h2,h.list.congr fun c hc => ?_,?_,?_,h.links,?_⟩,
    h3,h4⟩
  · simp only [BootAlloc.insertTree, h1, bind, Except.bind, pure, Except.pure]
  · refine readLink_congr (h5.frame c ?_) rfl
    simp only [Set.mem_insert_iff, not_or]
    exact ⟨by rintro rfl; exact h.apart.2 hc,fun hi => h.ne_of_mem hi hc rfl⟩
  · refine List.Perm.trans ?_ h.slots
    have hp : (t'.ids ++ fl).Perm (a::(t.ids ++ fl)) := (ids_insert h3 h4).append_right fl
    exact (hp.append_left held).trans List.perm_middle
  · exact h5.length.trans h.size
  · intro x hx
    rw [values_eq_append h4, List.map_cons, List.mem_append, List.mem_cons] at hx
    rcases hx with hx | rfl | hx
    · exact h.bounded x (by rw [values_eq_append h3]; simp [hx])
    · exact hb
    · exact h.bounded x (by rw [values_eq_append h3]; simp [hx])

/-- Taking a node out of the tree, without returning its slot. -/
lemma removeTree (h : Valid n b t fl held) {x : ℕ × Span} (hx : x ∈ t.toList) :
    ∃ tree t' before after, b.tree.removeRaw (some x.1) = .ok tree ∧
      Valid n { b with tree := tree } t' fl (x.1::held) ∧ t.toList = before ++ x::after ∧
      t'.toList = before ++ after := by
  obtain ⟨tr',t',before,after,h1,h2,h3,h4,h5⟩ := h.tree.removeRaw computes hx
  refine ⟨tr',t',before,after,h1,⟨h2,h.list.congr fun c hc => ?_,?_,h5.length.trans h.size,h.links,
    fun y hy => ?_⟩,h3,h4⟩
  · exact readLink_congr (h5.frame c fun hi => h.ne_of_mem hi hc rfl) rfl
  · refine List.Perm.trans ?_ h.slots
    have hp : (x.1::(t'.ids ++ fl)).Perm (t.ids ++ fl) := ((ids_insert h4 h3).append_right fl).symm
    exact List.perm_middle.symm.trans (hp.append_left held)
  · rw [values_eq_append h4] at hy
    refine h.bounded y ?_
    rw [values_eq_append h3, List.map_cons]
    simp only [List.mem_append, List.mem_cons] at hy ⊢
    tauto

/-- Putting a held slot on the free list. -/
lemma release (h : Valid n b t fl (a::held)) :
    Valid n { b.writeLink a b.freeNode with freeNode := some a } t (a::fl) held := by
  have hlt : a < n := h.lt (by simp)
  refine ⟨⟨h.tree.valid.congr fun c hc => get?_free ?_,h.tree.wf⟩,⟨rfl,b.freeNode,?_,?_⟩,?_,?_,?_,h.bounded⟩
  · rintro rfl
    exact h.apart.1 hc
  · have h1 : a < b.tree.heap.cells.length := by rw [h.size]; exact hlt
    have h2 : a < b.links.length := by rw [h.links]; exact hlt
    simp [BootAlloc.readLink, BootAlloc.writeLink, Heap.get?, Heap.free, h1, h2]
  · refine h.list.congr fun c hc => ?_
    have hne : c ≠ a := by rintro rfl; exact h.apart.2 hc
    exact readLink_congr (get?_free hne) (List.getElem?_set_ne hne.symm)
  · refine List.Perm.trans ?_ h.slots
    have hp : (t.ids ++ a::fl).Perm (a::(t.ids ++ fl)) := List.perm_middle
    exact (hp.append_left held).trans List.perm_middle
  · simp [BootAlloc.writeLink, Heap.free, h.size]
  · simp [BootAlloc.writeLink, h.links]

/-- Taking a slot off the free list. -/
lemma take (h : Valid n b t (a::fl) held) : ∃ next, b.readLink a = .ok next ∧
    Valid n { b with freeNode := next } t fl (a::held) := by
  obtain ⟨_,next,hn,hr⟩ := h.list
  refine ⟨next,hn,h.tree,hr.congr fun c _ => rfl,?_,h.size,h.links,h.bounded⟩
  refine List.Perm.trans ?_ h.slots
  have hp : (a::(t.ids ++ fl)).Perm (t.ids ++ a::fl) := List.perm_middle.symm
  exact List.perm_middle.symm.trans (hp.append_left held)

/-- `remove` of a node. -/
theorem remove (h : Valid n b t fl held) {x : ℕ × Span} (hx : x ∈ t.toList) :
    ∃ b' t' before after, b.remove x.1 = .ok (x.2,b') ∧ Valid n b' t' (x.1::fl) held ∧
      t.toList = before ++ x::after ∧ t'.toList = before ++ after := by
  obtain ⟨tree,t',before,after,h1,h2,h3,h4⟩ := h.removeTree hx
  obtain ⟨m,_,hm,hmv,_⟩ := h.tree.valid.node_of_mem hx
  refine ⟨_,t',before,after,?_,h2.release,h3,h4⟩
  simp only [BootAlloc.remove, deref_eq hm, hmv, h1, bind, Except.bind, pure, Except.pure]

/-- `insert` of a span when there is a free slot. -/
theorem insertSlot (h : Valid n b t (a::fl) held) {span : Span} (hlt : span.start < span.end_)
    (hb : span.end_ < 2^64) (hfree : ∀ p, span.start ≤ p → p < span.end_ → denote view t p = none) :
    ∃ b' t' before after, b.insertSlot span = .ok b' ∧ Valid n b' t' fl held ∧
      t.toList = before ++ after ∧ t'.toList = before ++ (a,span)::after := by
  obtain ⟨next,h1,h2⟩ := h.take
  obtain ⟨h3,h4⟩ := h2.writeNode span
  obtain ⟨b',t',before,after,h5,h6⟩ := h3.insertTree h4 hlt hb hfree
  refine ⟨b',t',before,after,?_,h6⟩
  simp only [BootAlloc.insertSlot, h.list.1, h1, bind, Except.bind]
  exact h5

end Valid
end Lilith.Boot
