import Lilith.Slub.Classes
import Lilith.Buddy.Runs

/-! The lists of slabs. As for the buddy allocator, a list operation is described by what it changes of the links and
the data of the nodes; of the `FrameInfo`s it changes only those of the nodes. -/
namespace Lilith.Slub
open Theory
open Buddy (ListPtr SlabList FrameInfo FrameType BuddyAllocator FRAME_SIZE)

namespace Heap

/-- The list node at a pointer, if there is one. -/
def node (self : Heap) : ListPtr → Option SlabList
  | .null => none
  | .head i => if i < NUM_SIZE_CLASSES then some (self.slabs i).list else none
  | .frame n => (self.buddy.frames n).bind fun fi =>
    match fi.u with
    | .slabList sl => some sl
    | _ => none

def next (self : Heap) (p : ListPtr) : ListPtr := ((self.node p).map (·.next)).getD .null

def prev (self : Heap) (p : ListPtr) : ListPtr := ((self.node p).map (·.prev)).getD .null

/-- What a node holds besides the links: `free_list`, `free_count` and `cache_index`. -/
def data (self : Heap) (p : ListPtr) : Option (ℕ × ℕ × ℕ) :=
  (self.node p).map fun sl => (sl.freeList,sl.freeCount,sl.cacheIndex)

/-- There is memory for a node at the pointer. -/
def Writable (self : Heap) : ListPtr → Prop
  | .null => False
  | .head i => i < NUM_SIZE_CLASSES
  | .frame n => (self.buddy.ty n).isSome

end Heap

variable {h h' : Heap} {p list item : ListPtr} {d : ℕ × ℕ × ℕ} {n : ℕ}

/-- What a list operation leaves alone. -/
structure Kept (h h' : Heap) : Prop where
  words : h'.words = h.words
  lookup : h'.sizeLookup = h.sizeLookup
  caches : ∀ c, (h'.slabs c).objectSize = (h.slabs c).objectSize ∧ (h'.slabs c).slabOrder = (h.slabs c).slabOrder ∧
    (h'.slabs c).maxFreeCount = (h.slabs c).maxFreeCount
  heads : h'.buddy.heads = h.buddy.heads
  ty : h'.buddy.ty = h.buddy.ty

lemma Kept.trans {h1 : Heap} (e : Kept h h1) (e' : Kept h1 h') : Kept h h' := by
  refine ⟨e'.words.trans e.words,e'.lookup.trans e.lookup,fun c => ?_,e'.heads.trans e.heads,e'.ty.trans e.ty⟩
  obtain ⟨h1,h2,h3⟩ := e.caches c
  obtain ⟨h4,h5,h6⟩ := e'.caches c
  exact ⟨h4.trans h1,h5.trans h2,h6.trans h3⟩

/-- The state `h'` has these links and data, and of `h` it has the frames apart from `S`. -/
structure Relinked (h h' : Heap) (next prev : ListPtr → ListPtr) (data : ListPtr → Option (ℕ × ℕ × ℕ))
    (S : Set ListPtr) : Prop where
  next : h'.next = next
  prev : h'.prev = prev
  data : h'.data = data
  kept : Kept h h'
  frames : ∀ n, .frame n ∉ S → h'.buddy.frames n = h.buddy.frames n

lemma read_ok (hd : h.data p = some d) : h.read p = .ok ⟨h.next p,h.prev p,d.1,d.2.1,d.2.2⟩ := by
  obtain ⟨sl,hsl,rfl⟩ := Option.map_eq_some_iff.mp hd
  simp only [Heap.next, Heap.prev, hsl, Option.map_some, Option.getD_some]
  cases p with
  | null => simp [Heap.node] at hsl
  | head i =>
    simp only [Heap.node] at hsl
    split_ifs at hsl with hi
    obtain rfl := Option.some.inj hsl
    simp [Heap.read, hi]
  | frame n =>
    obtain ⟨fi,hfi,hu⟩ := Option.bind_eq_some_iff.mp hsl
    simp only [Heap.read, Buddy.frameInfo_ok hfi, bind, Except.bind]
    cases hd : fi.u with
    | slabList sl' =>
      rw [hd] at hu
      obtain rfl := Option.some.inj hu
      rfl
    | none => simp [hd] at hu
    | buddyList bl => simp [hd] at hu

lemma writable_of_data (hd : h.data p = some d) : h.Writable p := by
  obtain ⟨sl,hsl,_⟩ := Option.map_eq_some_iff.mp hd
  cases p with
  | null => simp [Heap.node] at hsl
  | head i =>
    simp only [Heap.node] at hsl
    split_ifs at hsl with hi
    exact hi
  | frame n =>
    obtain ⟨fi,hfi,_⟩ := Option.bind_eq_some_iff.mp hsl
    simp [Heap.Writable, BuddyAllocator.ty, hfi]

/-- The nodes after a write. -/
lemma write_node (hw : h.Writable p) (sl : SlabList) : ∃ h', h.write p sl = .ok h' ∧
    h'.node = Function.update h.node p (some sl) ∧ Kept h h' ∧
    ∀ n, .frame n ∉ ({p} : Set ListPtr) → h'.buddy.frames n = h.buddy.frames n := by
  cases p with
  | null => exact absurd hw not_false
  | head i =>
    have hi : i < NUM_SIZE_CLASSES := hw
    refine ⟨_,if_pos hi,?_,⟨rfl,rfl,fun c => ?_,rfl,rfl⟩,fun _ _ => rfl⟩
    · funext q
      cases q with
      | null => rfl
      | head j =>
        by_cases hj : j = i
        · simp [Heap.node, hj, hi]
        · simp [Heap.node, hj]
      | frame m => rfl
    · by_cases hc : c = i
      · simp [hc]
      · simp [hc]
  | frame n =>
    obtain ⟨t,ht⟩ := Option.isSome_iff_exists.mp hw
    obtain ⟨fi,hfi,_⟩ := Buddy.ty_some ht
    refine ⟨{ h with buddy := h.buddy.setFrame n { fi with u := .slabList sl } },?_,?_,⟨rfl,rfl,fun c => ⟨rfl,rfl,rfl⟩,rfl,?_⟩,
      fun m hm => ?_⟩
    · simp only [Heap.write, Buddy.frameInfo_ok hfi, bind, Except.bind]
      rfl
    · funext q
      cases q with
      | null => rfl
      | head j => simp [Heap.node]
      | frame m =>
        by_cases hm : m = n
        · simp [Heap.node, BuddyAllocator.setFrame, hm]
        · simp [Heap.node, BuddyAllocator.setFrame, hm]
    · funext m
      by_cases hm : m = n
      · simp [BuddyAllocator.ty, BuddyAllocator.setFrame, hm, hfi]
      · simp [BuddyAllocator.ty, BuddyAllocator.setFrame, hm]
    · have : m ≠ n := fun he => hm (by rw [he]; rfl)
      simp [BuddyAllocator.setFrame, this]

lemma write_ok (hw : h.Writable p) (sl : SlabList) : ∃ h', h.write p sl = .ok h' ∧
    Relinked h h' (Function.update h.next p sl.next) (Function.update h.prev p sl.prev)
      (Function.update h.data p (some (sl.freeList,sl.freeCount,sl.cacheIndex))) {p} := by
  obtain ⟨h',h1,h2,h3,h4⟩ := write_node hw sl
  refine ⟨h',h1,?_,?_,?_,h3,h4⟩
  all_goals
    funext q
    by_cases hq : q = p
    · simp [Heap.next, Heap.prev, Heap.data, h2, hq]
    · simp [Heap.next, Heap.prev, Heap.data, h2, hq]

lemma setNext_ok (hd : h.data p = some d) (x : ListPtr) : ∃ h', h.setNext p x = .ok h' ∧
    Relinked h h' (Function.update h.next p x) h.prev h.data {p} := by
  obtain ⟨h',h1,h2⟩ := write_ok (writable_of_data hd) ⟨x,h.prev p,d.1,d.2.1,d.2.2⟩
  refine ⟨h',?_,h2.next,?_,?_,h2.kept,h2.frames⟩
  · simp only [Heap.setNext, read_ok hd, bind, Except.bind]
    exact h1
  · rw [h2.prev, Function.update_eq_self]
  · rw [h2.data, ← hd, Function.update_eq_self]

lemma setPrev_ok (hd : h.data p = some d) (x : ListPtr) : ∃ h', h.setPrev p x = .ok h' ∧
    Relinked h h' h.next (Function.update h.prev p x) h.data {p} := by
  obtain ⟨h',h1,h2⟩ := write_ok (writable_of_data hd) ⟨h.next p,x,d.1,d.2.1,d.2.2⟩
  refine ⟨h',?_,?_,h2.prev,?_,h2.kept,h2.frames⟩
  · simp only [Heap.setPrev, read_ok hd, bind, Except.bind]
    exact h1
  · rw [h2.next, Function.update_eq_self]
  · rw [h2.data, ← hd, Function.update_eq_self]

/-- `insert` of a node that is not the list. -/
lemma insert_ok {dl dp di : ℕ × ℕ × ℕ} (hl : h.data list = some dl) (hp : h.data (h.prev list) = some dp)
    (hi : h.data item = some di) (h1 : item ≠ list) : ∃ h', h.insert list item = .ok h' ∧
    Relinked h h' (Function.update (Function.update h.next item list) (h.prev list) item)
      (Function.update (Function.update h.prev item (h.prev list)) list item) h.data {item,list,h.prev list} := by
  obtain ⟨s1,r1,e1⟩ := setNext_ok hi list
  have hl1 : s1.data list = some dl := e1.data ▸ hl
  have hprev1 : s1.prev list = h.prev list := by rw [e1.prev]
  obtain ⟨s2,r2,e2⟩ := setPrev_ok (e1.data ▸ hi : s1.data item = some di) (h.prev list)
  have hl2 : s2.data list = some dl := e2.data ▸ hl1
  have hprev2 : s2.prev list = h.prev list := by rw [e2.prev, Function.update_of_ne h1.symm, hprev1]
  have hp2 : s2.data (h.prev list) = some dp := by rw [e2.data, e1.data]; exact hp
  obtain ⟨s3,r3,e3⟩ := setNext_ok hp2 item
  have hl3 : s3.data list = some dl := e3.data ▸ hl2
  obtain ⟨s4,r4,e4⟩ := setPrev_ok hl3 item
  refine ⟨s4,?_,?_,?_,?_,((e1.kept.trans e2.kept).trans e3.kept).trans e4.kept,fun n hn => ?_⟩
  · simp only [Heap.insert, r1, read_ok hl1, hprev1, r2, read_ok hl2, hprev2, r3, r4, bind, Except.bind]
  · rw [e4.next, e3.next, e2.next, e1.next]
  · rw [e4.prev, e3.prev, e2.prev, e1.prev]
  · rw [e4.data, e3.data, e2.data, e1.data]
  · simp only [Set.mem_insert_iff, Set.mem_singleton_iff, not_or] at hn
    rw [e4.frames n (by simpa using hn.2.1), e3.frames n (by simpa using hn.2.2), e2.frames n (by simpa using hn.1),
      e1.frames n (by simpa using hn.1)]

/-- `unlink` of a node with two neighbours. -/
lemma unlink_ok {dn dp : ℕ × ℕ × ℕ} (hi : h.data item = some d) (hn : h.data (h.next item) = some dn)
    (hp : h.data (h.prev item) = some dp) (h1 : h.next item ≠ item) : ∃ h', h.unlink item = .ok h' ∧
    Relinked h h' (Function.update (Function.update h.next (h.prev item) (h.next item)) item .null)
      (Function.update (Function.update h.prev (h.next item) (h.prev item)) item .null) h.data
      {item,h.next item,h.prev item} := by
  obtain ⟨s1,r1,e1⟩ := setPrev_ok hn (h.prev item)
  have hi1 : s1.data item = some d := e1.data ▸ hi
  have hprev : s1.prev item = h.prev item := by rw [e1.prev, Function.update_of_ne h1.symm]
  have hnext : s1.next item = h.next item := by rw [e1.next]
  obtain ⟨s2,r2,e2⟩ := setNext_ok (e1.data ▸ hp : s1.data (h.prev item) = some dp) (h.next item)
  have hi2 : s2.data item = some d := e2.data ▸ hi1
  obtain ⟨s3,r3,e3⟩ := setPrev_ok hi2 .null
  have hi3 : s3.data item = some d := e3.data ▸ hi2
  obtain ⟨s4,r4,e4⟩ := setNext_ok hi3 .null
  refine ⟨s4,?_,?_,?_,?_,((e1.kept.trans e2.kept).trans e3.kept).trans e4.kept,fun n hn => ?_⟩
  · simp only [Heap.unlink, read_ok hi, r1, read_ok hi1, hprev, hnext, r2, r3, r4, bind, Except.bind]
  · rw [e4.next, e3.next, e2.next, e1.next]
  · rw [e4.prev, e3.prev, e2.prev, e1.prev]
  · rw [e4.data, e3.data, e2.data, e1.data]
  · simp only [Set.mem_insert_iff, Set.mem_singleton_iff, not_or] at hn
    rw [e4.frames n (by simpa using hn.1), e3.frames n (by simpa using hn.1), e2.frames n (by simpa using hn.2.2),
      e1.frames n (by simpa using hn.2.1)]

end Lilith.Slub
