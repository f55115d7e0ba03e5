import Lilith.Boot.Update
import Lilith.Rbtree.Clone

/-! Runs of the boot allocator from its slots on. -/
namespace Lilith.Boot
open Theory PtrGraph CTree Rbtree

variable {n : ℕ} {b b' : BootAlloc}

/-- A place holds a pointer to the first slot of the list. -/
def Points (b : BootAlloc) : BootAlloc.Place → List ℕ → Prop
  | .freeNode, fl => FreeList b b.freeNode fl
  | .slot a, fl => ∃ next, b.readLink a = .ok next ∧ FreeList b next fl

/-- Memory with no nodes and `n` slots. -/
structure Blank (n : ℕ) (b : BootAlloc) : Prop where
  cells : b.tree.heap.cells = List.replicate n none
  links : b.links.length = n
  head : b.tree.head = none

lemma Blank.get? (h : Blank n b) (a : ℕ) : b.tree.heap.get? a = none := by
  simp only [Heap.get?, h.cells, List.getElem?_replicate]
  split <;> rfl

lemma Blank.readLink (h : Blank n b) {a : ℕ} {next : Ptr} (hl : b.links[a]? = some next) :
    b.readLink a = .ok next := by
  simp only [BootAlloc.readLink, h.get?, hl]

lemma Blank.store (h : Blank n b) (p : BootAlloc.Place) (next : Ptr) : Blank n (b.store p next) := by
  cases p with
  | freeNode => exact ⟨h.cells,h.links,h.head⟩
  | slot a =>
    refine ⟨?_,by simp [BootAlloc.store, BootAlloc.writeLink, h.links],h.head⟩
    simp only [BootAlloc.store, BootAlloc.writeLink, Heap.free, h.cells]
    rw [List.set_replicate_self]

/-- The links of the slots that are not in the list stay as they are. -/
lemma newLoop_links (slots : List ℕ) (p : BootAlloc.Place) (b : BootAlloc) {c : ℕ} (hc : c ∉ slots)
    (hp : p ≠ .slot c) : (BootAlloc.newLoop slots p b).links[c]? = b.links[c]? := by
  have hstore : ∀ next, (b.store p next).links[c]? = b.links[c]? := by
    intro next
    cases p with
    | freeNode => rfl
    | slot a =>
      have hac : a ≠ c := fun he => hp (by rw [he])
      simp [BootAlloc.store, BootAlloc.writeLink, List.getElem?_set_ne hac]
  induction slots generalizing p b with
  | nil => exact hstore none
  | cons s slots ih =>
    have hcs : c ∉ slots := fun h => hc (by simp [h])
    have hsc : s ≠ c := by rintro rfl; simp at hc
    rw [BootAlloc.newLoop, ih _ _ hcs (by simpa using hsc), hstore]
    intro next
    simp [BootAlloc.store, BootAlloc.writeLink, List.getElem?_set_ne hsc]

lemma newLoop_freeNode (slots : List ℕ) (a : ℕ) (b : BootAlloc) :
    (BootAlloc.newLoop slots (.slot a) b).freeNode = b.freeNode := by
  induction slots generalizing a b with
  | nil => rfl
  | cons s slots ih => rw [BootAlloc.newLoop, ih]; rfl

/-- Linking slots one after the other. -/
lemma Blank.newLoop (h : Blank n b) {slots : List ℕ} (hn : slots.Nodup) (hlt : ∀ a ∈ slots, a < n)
    {p : BootAlloc.Place} (hp : ∀ a, p = .slot a → a ∉ slots ∧ a < n) :
    Blank n (BootAlloc.newLoop slots p b) ∧ Points (BootAlloc.newLoop slots p b) p slots := by
  induction slots generalizing p b with
  | nil =>
    refine ⟨h.store p none,?_⟩
    cases p with
    | freeNode => rfl
    | slot a =>
      have ha : a < b.links.length := by rw [h.links]; exact (hp a rfl).2
      refine ⟨none,(h.store (.slot a) none).readLink ?_,rfl⟩
      simp [BootAlloc.store, BootAlloc.writeLink, ha]
  | cons s slots ih =>
    obtain ⟨hs,hn'⟩ := List.nodup_cons.mp hn
    obtain ⟨h1,next,h2,h3⟩ := ih (h.store p (some s)) hn' (fun a ha => hlt a (by simp [ha]))
      (p := .slot s) (by rintro a ⟨⟩; exact ⟨hs,hlt s (by simp)⟩)
    refine ⟨h1,?_⟩
    cases p with
    | freeNode =>
      refine ⟨?_,next,h2,h3⟩
      rw [BootAlloc.newLoop, newLoop_freeNode]
      rfl
    | slot a =>
      obtain ⟨ha1,ha2⟩ := hp a rfl
      have ha3 : a < b.links.length := by rw [h.links]; exact ha2
      refine ⟨some s,h1.readLink ?_,rfl,next,h2,h3⟩
      have hsa : BootAlloc.Place.slot s ≠ .slot a := by
        rintro ⟨⟩
        simp at ha1
      rw [newLoop_links slots _ _ (fun hi => ha1 (by simp [hi])) hsa]
      simp [BootAlloc.store, BootAlloc.writeLink, ha3]

/-- A new allocator has no spans, and all slots are free. -/
theorem valid_new (n : ℕ) : Valid n (.new n) leaf (List.range n) [] := by
  obtain ⟨h1,h2⟩ := Blank.newLoop (n := n) (p := .freeNode)
    (b := ⟨.new ⟨List.replicate n none⟩,List.replicate n none,none⟩) ⟨rfl,by simp,rfl⟩
    (List.nodup_range (n := n)) (fun a ha => List.mem_range.mp ha) (by rintro a ⟨⟩)
  refine ⟨⟨⟨⟨trivial,?_,by simp⟩,⟨0,rfl⟩,trivial⟩,SpanView.WF.nil⟩,h2,by simp,?_,h1.links,by simp [values]⟩
  · exact h1.head
  · rw [BootAlloc.new, h1.cells]
    simp

/-- The allocators that the operations can build from `n` slots. -/
inductive Reach (n : ℕ) : BootAlloc → Prop
  | new : Reach n (.new n)
  | update {b b' : BootAlloc} {addr len : ℕ} (f : Option SpanType → SpanType) (h : Reach n b)
      (hrun : b.update addr len (fun s => .ok (f s)) = .ok b') : Reach n b'
  | markReserved {b b' : BootAlloc} {start len : ℕ} (h : Reach n b)
      (hrun : b.markReserved start len = .ok b') : Reach n b'
  | markUsed {b b' : BootAlloc} {start len : ℕ} (h : Reach n b)
      (hrun : b.markUsed start len = .ok b') : Reach n b'
  | markReclaimable {b b' : BootAlloc} {start len : ℕ} (h : Reach n b)
      (hrun : b.markReclaimable start len = .ok b') : Reach n b'
  | alloc {b b' : BootAlloc} {layout : Layout} {res : Option ℕ} (h : Reach n b)
      (hrun : b.alloc layout = .ok (res,b')) : Reach n b'
  | compact {b b' : BootAlloc} (h : Reach n b) (hrun : b.compact = .ok b') : Reach n b'

/-- An update that returned keeps the invariant. -/
lemma Valid.of_update {t : CTree (ℕ × Span)} {fl : List ℕ} (h : Valid n b t fl []) {addr len : ℕ}
    {f : Option SpanType → Except Fault SpanType} (hrun : b.update addr len f = .ok b') :
    ∃ t' fl', Valid n b' t' fl' [] := by
  by_cases hend : addr + len < 2^64
  · obtain ⟨t',fl',hv,_⟩ := (h.update (Cut.univ t) (Set.mem_univ _) (Set.mem_univ _) hend).result hrun
    exact ⟨t',fl',hv⟩
  · simp only [BootAlloc.update, checkedAdd, if_neg hend, bind, Except.bind] at hrun
    simp at hrun

/-- `alloc` changes the allocator by an update, if at all. -/
lemma alloc_inv {layout : Layout} {res : Option ℕ} (hrun : b.alloc layout = .ok (res,b')) :
    b' = b ∨ ∃ addr len f, b.update addr len f = .ok b' := by
  unfold BootAlloc.alloc at hrun
  simp only [bind, Except.bind, pure, Except.pure] at hrun
  split at hrun
  · simp at hrun
  · split at hrun
    · left
      simpa using (Prod.mk.inj (Except.ok.inj hrun)).2.symm
    · split at hrun
      · simp at hrun
      · split at hrun
        · left
          simpa using (Prod.mk.inj (Except.ok.inj hrun)).2.symm
        · split at hrun
          · simp at hrun
          · next hupd =>
            right
            obtain ⟨_,rfl⟩ := Prod.mk.inj (Except.ok.inj hrun)
            exact ⟨_,_,_,hupd⟩

/-- Every reachable allocator is valid. -/
theorem valid_of_reach (h : Reach n b) : ∃ t fl, Valid n b t fl [] := by
  induction h with
  | new => exact ⟨leaf,_,valid_new n⟩
  | update f h hrun ih => obtain ⟨t,fl,hv⟩ := ih; exact hv.of_update hrun
  | markReserved h hrun ih => obtain ⟨t,fl,hv⟩ := ih; exact hv.of_update hrun
  | markUsed h hrun ih => obtain ⟨t,fl,hv⟩ := ih; exact hv.of_update hrun
  | markReclaimable h hrun ih => obtain ⟨t,fl,hv⟩ := ih; exact hv.of_update hrun
  | alloc h hrun ih =>
    obtain ⟨t,fl,hv⟩ := ih
    rcases alloc_inv hrun with rfl | ⟨addr,len,f,hupd⟩
    · exact ⟨t,fl,hv⟩
    · exact hv.of_update hupd
  | compact h hrun ih =>
    obtain ⟨t,fl,hv⟩ := ih
    obtain ⟨b2,t2,fl2,h1,h2,_⟩ := hv.compact
    obtain rfl := Except.ok.inj (h1.symm.trans hrun)
    exact ⟨t2,fl2,h2⟩

/-- Every reachable allocator is a sorted list of disjoint spans whose nodes and the free list
share out the slots, and `update` changes exactly the types of the addresses of its range, unless
it panics for lack of slots. -/
theorem update_pointwise (h : Reach n b) : ∃ t fl, Valid n b t fl [] ∧
    ∀ (addr len : ℕ) (f : Option SpanType → SpanType), addr + len < 2^64 →
      b.update addr len (fun s => .ok (f s)) = .error BootAlloc.ranOut ∨
      ∃ b' t' fl', b.update addr len (fun s => .ok (f s)) = .ok b' ∧ Valid n b' t' fl' [] ∧
        ∀ p, denote view t' p =
          if addr ≤ p ∧ p < addr+len then some (f (denote view t p)) else denote view t p := by
  obtain ⟨t,fl,hv⟩ := valid_of_reach h
  refine ⟨t,fl,hv,fun addr len f hend => ?_⟩
  have hu := hv.update (f := fun s => .ok (f s)) (Cut.univ t) (Set.mem_univ addr) (Set.mem_univ _) hend
  cases hrun : b.update addr len fun s => .ok (f s) with
  | error e =>
    rw [hrun] at hu
    rcases hu with ⟨rfl,_⟩ | ⟨p,_,_,hp⟩
    · exact Or.inl rfl
    · simp at hp
  | ok b' =>
    obtain ⟨t',fl',hv',_,hin,hout⟩ := hu.result hrun
    refine Or.inr ⟨b',t',fl',rfl,hv',fun p => ?_⟩
    split_ifs with hp
    · obtain ⟨w,hw,hd⟩ := hin p hp.1 hp.2
      rw [hd, ← Except.ok.inj hw]
    · exact hout p (by omega)

/-- The second half of a free range is taken, with as much memory after it. -/
theorem update_pointwise_overlap : ∃ b b', Reach 5 b ∧ [4096,8192,12288].map (denote view b.tree.toTree) = [some .free,some .free,none] ∧
    b.update 8192 8192 (fun s => .ok (if s = some .free then .inUse else .reserved)) = .ok b' ∧
    [4096,8192,12288].map (denote view b'.tree.toTree) = [some .free,some .inUse,some .reserved] := by
  have hok : ((BootAlloc.new 5).update 4096 8192 (fun _ => .ok .free) >>= fun b =>
    b.update 8192 8192 fun s => .ok (if s = some .free then .inUse else .reserved)).isOk = true := by decide +kernel
  have hfree : ((BootAlloc.new 5).update 4096 8192 (fun _ => .ok .free)).map (fun b =>
    [4096,8192,12288].map (denote view b.tree.toTree)) = .ok [some .free,some .free,none] := by decide +kernel
  obtain ⟨b,h1⟩ : ∃ b, (BootAlloc.new 5).update 4096 8192 (fun _ => .ok .free) = .ok b := ⟨_,rfl⟩
  rw [h1] at hok hfree
  have hvalues : [4096,8192,12288].map (denote view b.tree.toTree) = [some .free,some .free,none] := Except.ok.inj hfree
  have hreach : Reach 5 b := .update (fun _ => .free) .new h1
  obtain ⟨t,fl,hv,hupdate⟩ := update_pointwise hreach
  rcases hupdate 8192 8192 (fun s => if s = some .free then .inUse else .reserved) (by decide) with
    herr | ⟨b',t',fl',h2,hv',h3⟩
  · change (b.update 8192 8192 _).isOk = true at hok
    rw [herr] at hok
    cases hok
  · refine ⟨b,b',hreach,hvalues,h2,?_⟩
    rw [hv.tree.valid.toTree_eq] at hvalues
    rw [hv'.tree.valid.toTree_eq]
    simp only [List.map_cons, List.map_nil, List.cons.injEq, and_true] at hvalues
    simp [h3, hvalues]

end Lilith.Boot
