import Lilith.Slub.Lists

/-! The invariant of the slab allocator, first without the types of frames: what the list nodes and the words of
memory say about the slabs. -/
namespace Lilith.Slub
open Theory
open Buddy (ListPtr SlabList FrameInfo FrameType BuddyAllocator FRAME_SIZE)

/-- The list of free objects from the pointer `p` on. -/
def Chain (words : ℕ → ℕ) : ℕ → List ℕ → Prop
  | p, [] => p = 0
  | p, x :: xs => p = x ∧ x ≠ 0 ∧ Chain words (words x) xs

/-- A slab: its cache and its free objects, in the order of their list. -/
structure Slab where
  cache : ℕ
  free : List ℕ

variable {h h' : Heap} {G : ℕ → Option Slab} {Q : ℕ → List ℕ} {n c p : ℕ} {xs ys zs : List ℕ} {words words' : ℕ → ℕ}

lemma Chain.congr (hc : Chain words p xs) (hw : ∀ a ∈ xs, words' a = words a) : Chain words' p xs := by
  induction xs generalizing p with
  | nil => exact hc
  | cons x xs ih =>
    obtain ⟨h1,h2,h3⟩ := hc
    refine ⟨h1,h2,?_⟩
    rw [hw x List.mem_cons_self]
    exact ih h3 fun a ha => hw a (List.mem_cons_of_mem _ ha)

lemma update_slab {m : ℕ} {s s' : Slab} (hm : Function.update G n (some s) m = some s') :
    m = n ∧ s' = s ∨ m ≠ n ∧ G m = some s' := by
  by_cases hmn : m = n
  · subst hmn
    rw [Function.update_self] at hm
    exact Or.inl ⟨rfl,(Option.some.inj hm).symm⟩
  · rw [Function.update_of_ne hmn] at hm
    exact Or.inr ⟨hmn,hm⟩

/-- The lists and the slabs `G` by their frames, where `Q` are the frames on the list of each cache. -/
structure Core (h : Heap) (G : ℕ → Option Slab) (Q : ℕ → List ℕ) : Prop where
  lookup : h.sizeLookup = lookupTable
  caches : ∀ c < NUM_SIZE_CLASSES, (h.slabs c).objectSize = classSize c ∧ (h.slabs c).slabOrder = 0 ∧
    (h.slabs c).maxFreeCount = slotCount c
  head : ∀ c < NUM_SIZE_CLASSES, ∃ p k, h.data (.head c) = some (p,k,c)
  rings : Rings h.next h.prev ListPtr.head (fun c => (Q c).map ListPtr.frame) { c | c < NUM_SIZE_CLASSES }
  listed : ∀ c < NUM_SIZE_CLASSES, ∀ n ∈ Q c, ∃ xs, G n = some ⟨c,xs⟩
  cache : ∀ n s, G n = some s → s.cache < NUM_SIZE_CLASSES ∧ n * FRAME_SIZE < PHYSICAL_MEMORY_MAX_SIZE
  data : ∀ n s, G n = some s → ∃ p, h.data (.frame n) = some (p,s.free.length,s.cache) ∧ Chain h.words p s.free
  free : ∀ n s, G n = some s → s.free.Nodup ∧ ∀ a ∈ s.free, a ∈ slots n s.cache

namespace Core

/-- A change of what is neither a list node nor a free object. -/
lemma congr (hcore : Core h G Q) (hlookup : h'.sizeLookup = h.sizeLookup) (hslabs : h'.slabs = h.slabs)
    (hnode : ∀ n s, G n = some s → h'.node (.frame n) = h.node (.frame n))
    (hwords : ∀ n s, G n = some s → ∀ a ∈ s.free, h'.words a = h.words a) : Core h' G Q := by
  have hhead : ∀ c, h'.node (.head c) = h.node (.head c) := fun c => by simp only [Heap.node, hslabs]
  have hring : ∀ c < NUM_SIZE_CLASSES, ∀ y ∈ ListPtr.head c :: (Q c).map ListPtr.frame, h'.node y = h.node y := by
    intro c hc y hy
    rcases List.mem_cons.mp hy with rfl | hy
    · exact hhead c
    · obtain ⟨n,hn,rfl⟩ := List.mem_map.mp hy
      obtain ⟨xs,hG⟩ := hcore.listed c hc n hn
      exact hnode n _ hG
  refine ⟨hlookup.trans hcore.lookup,fun c hc => ?_,fun c hc => ?_,hcore.rings.congr (fun c hc y hy => ?_) fun c hc y hy => ?_,
    hcore.listed,hcore.cache,fun n s hG => ?_,hcore.free⟩
  · rw [hslabs]
    exact hcore.caches c hc
  · rw [Heap.data, hhead]
    exact hcore.head c hc
  · rw [Heap.next, hring c hc y hy, Heap.next]
  · rw [Heap.prev, hring c hc y hy, Heap.prev]
  · obtain ⟨p,hp,hchain⟩ := hcore.data n s hG
    refine ⟨p,?_,hchain.congr (hwords n s hG)⟩
    rw [Heap.data, hnode n s hG]
    exact hp

/-- The nodes of the ring of a cache are there. -/
lemma data_of_mem (hcore : Core h G Q) (hc : c < NUM_SIZE_CLASSES) {y : ListPtr}
    (hy : y ∈ ListPtr.head c :: (Q c).map ListPtr.frame) : ∃ d, h.data y = some d := by
  rcases List.mem_cons.mp hy with rfl | hy
  · obtain ⟨p,k,hd⟩ := hcore.head c hc
    exact ⟨_,hd⟩
  · obtain ⟨n,hn,rfl⟩ := List.mem_map.mp hy
    obtain ⟨xs,hG⟩ := hcore.listed c hc n hn
    obtain ⟨p,hd,_⟩ := hcore.data n _ hG
    exact ⟨_,hd⟩

/-- A frame among the nodes of a ring is that of a slab. -/
lemma slab_of_mem (hcore : Core h G Q) (hc : c < NUM_SIZE_CLASSES)
    (hy : ListPtr.frame n ∈ ListPtr.head c :: (Q c).map ListPtr.frame) : (G n).isSome := by
  rcases List.mem_cons.mp hy with hy | hy
  · simp at hy
  · obtain ⟨m,hm,he⟩ := List.mem_map.mp hy
    obtain rfl := ListPtr.frame.inj he
    obtain ⟨xs,hG⟩ := hcore.listed c hc m hm
    rw [hG]
    rfl

/-- A slab is on the list of its own cache only. -/
lemma cache_of_mem (hcore : Core h G Q) (hc : c < NUM_SIZE_CLASSES) (hn : n ∈ Q c) {s : Slab} (hG : G n = some s) :
    c = s.cache := by
  obtain ⟨xs,hG'⟩ := hcore.listed c hc n hn
  rw [hG] at hG'
  rw [Option.some.inj hG']

lemma map_update (Q : ℕ → List ℕ) (c : ℕ) (xs : List ℕ) : (fun c' => (Function.update Q c xs c').map ListPtr.frame) =
    Function.update (fun c' => (Q c').map ListPtr.frame) c (xs.map ListPtr.frame) := by
  funext c'
  by_cases hc : c' = c
  · subst hc
    simp
  · simp [hc]

/-- The slabs after the links of one list have changed. -/
lemma of_relinked (hcore : Core h G Q) {next prev : ListPtr → ListPtr} {S : Set ListPtr}
    (e : Relinked h h' next prev h.data S)
    (hrings : Rings next prev ListPtr.head (Function.update (fun c => (Q c).map ListPtr.frame) c (xs.map ListPtr.frame))
      { c | c < NUM_SIZE_CLASSES }) (hxs : ∀ n ∈ xs, ∃ ys, G n = some ⟨c,ys⟩) : Core h' G (Function.update Q c xs) := by
  refine ⟨e.kept.lookup.trans hcore.lookup,fun c' hc => ?_,fun c' hc => ?_,?_,fun c' hc' m hm => ?_,hcore.cache,fun m s hG => ?_,
    hcore.free⟩
  · obtain ⟨h1,h2,h3⟩ := e.kept.caches c'
    rw [h1, h2, h3]
    exact hcore.caches c' hc
  · rw [e.data]
    exact hcore.head c' hc
  · rw [e.next, e.prev, map_update]
    exact hrings
  · by_cases he : c' = c
    · subst he
      rw [Function.update_self] at hm
      exact hxs m hm
    · rw [Function.update_of_ne he] at hm
      exact hcore.listed c' hc' m hm
  · rw [e.data, e.kept.words]
    exact hcore.data m s hG

/-- Putting a slab that is on no list on that of its cache. -/
theorem insert (hcore : Core h G Q) (hc : c < NUM_SIZE_CLASSES) (hG : G n = some ⟨c,xs⟩)
    (hn : ∀ c' < NUM_SIZE_CLASSES, n ∉ Q c') : ∃ h', h.insert (.head c) (.frame n) = .ok h' ∧
      Core h' G (Function.update Q c (Q c ++ [n])) ∧ Kept h h' ∧ ∀ m, G m = none → h'.buddy.frames m = h.buddy.frames m := by
  have hring := hcore.rings.ring c hc
  obtain ⟨dl,hl⟩ := hcore.data_of_mem hc List.mem_cons_self
  obtain ⟨dp,hp⟩ := hcore.data_of_mem hc hring.prev_mem
  obtain ⟨p,hi,_⟩ := hcore.data n _ hG
  obtain ⟨h',r,e⟩ := insert_ok hl hp hi (by simp)
  have hout : ∀ c' < NUM_SIZE_CLASSES, ListPtr.frame n ∉ ListPtr.head c' :: (Q c').map ListPtr.frame := by
    intro c' hc' hm
    rcases List.mem_cons.mp hm with hm | hm
    · simp at hm
    · obtain ⟨m,hm,he⟩ := List.mem_map.mp hm
      exact hn c' hc' (ListPtr.frame.inj he ▸ hm)
  refine ⟨h',r,hcore.of_relinked e ?_ fun m hm => ?_,e.kept,fun m hm => e.frames m ?_⟩
  · rw [List.map_append]
    exact hcore.rings.insert hc hout
  · rcases List.mem_append.mp hm with hm | hm
    · exact hcore.listed c hc m hm
    · rw [List.mem_singleton.mp hm]
      exact ⟨xs,hG⟩
  · simp only [Set.mem_insert_iff, Set.mem_singleton_iff, not_or, ListPtr.frame.injEq]
    refine ⟨fun he => ?_,by simp,fun he => ?_⟩
    · rw [he, hG] at hm
      simp at hm
    · have := hcore.slab_of_mem hc (he ▸ hring.prev_mem)
      rw [hm] at this
      simp at this

/-- Taking a slab off its list. -/
theorem unlink (hcore : Core h G Q) (hc : c < NUM_SIZE_CLASSES) (hQ : Q c = ys ++ n :: zs) :
    ∃ h', h.unlink (.frame n) = .ok h' ∧ Core h' G (Function.update Q c (ys ++ zs)) ∧ Kept h h' ∧
      ∀ m, G m = none → h'.buddy.frames m = h.buddy.frames m := by
  have hring := hcore.rings.ring c hc
  have hns : (Q c).map ListPtr.frame = ys.map ListPtr.frame ++ ListPtr.frame n :: zs.map ListPtr.frame := by
    rw [hQ, List.map_append, List.map_cons]
  have hself : ListPtr.frame n ∈ ListPtr.head c :: (Q c).map ListPtr.frame := by simp [hQ]
  have hsub : ∀ y ∈ ListPtr.head c :: (ys.map ListPtr.frame ++ zs.map ListPtr.frame),
      y ∈ ListPtr.head c :: (Q c).map ListPtr.frame := by
    intro y hy
    rw [hns]
    simp only [List.mem_cons, List.mem_append] at hy ⊢
    tauto
  have hring' := hring
  rw [hns] at hring'
  obtain ⟨hnext,hprev⟩ := hring'.neighbours
  have hd := hring'.nodup
  rw [← List.cons_append, List.nodup_middle, List.nodup_cons, List.cons_append] at hd
  obtain ⟨d,hi⟩ := hcore.data_of_mem hc hself
  obtain ⟨dn,hdn⟩ := hcore.data_of_mem hc (hsub _ hnext)
  obtain ⟨dp,hdp⟩ := hcore.data_of_mem hc (hsub _ hprev)
  obtain ⟨h',r,e⟩ := unlink_ok hi hdn hdp fun he => hd.1 (he ▸ hnext)
  refine ⟨h',r,hcore.of_relinked e ?_ fun m hm => hcore.listed c hc m ?_,e.kept,fun m hm => e.frames m ?_⟩
  · rw [List.map_append]
    exact hcore.rings.unlink hc hns .null .null
  · rw [hQ]
    simp only [List.mem_append, List.mem_cons] at hm ⊢
    tauto
  · have hout : ∀ y ∈ ListPtr.head c :: (Q c).map ListPtr.frame, ListPtr.frame m ≠ y := by
      intro y hy he
      have := hcore.slab_of_mem hc (he ▸ hy)
      rw [hm] at this
      simp at this
    simp only [Set.mem_insert_iff, Set.mem_singleton_iff, not_or]
    exact ⟨hout _ hself,hout _ (hsub _ hnext),hout _ (hsub _ hprev)⟩

/-- Changing the free objects of a slab, or making one: the node keeps its links if it is on a list. -/
theorem write (hcore : Core h G Q) (hw : (h.buddy.ty n).isSome) (sl : SlabList)
    (hlinks : ∀ c < NUM_SIZE_CLASSES, n ∈ Q c → sl.next = h.next (.frame n) ∧ sl.prev = h.prev (.frame n) ∧ c = sl.cacheIndex)
    (hcache : sl.cacheIndex < NUM_SIZE_CLASSES ∧ n * FRAME_SIZE < PHYSICAL_MEMORY_MAX_SIZE)
    (hcount : sl.freeCount = xs.length) (hchain : Chain words sl.freeList xs)
    (hfree : xs.Nodup ∧ ∀ a ∈ xs, a ∈ slots n sl.cacheIndex)
    (hwords : ∀ m s, m ≠ n → G m = some s → ∀ a ∈ s.free, words a = h.words a) :
    ∃ h', { h with words := words }.write (.frame n) sl = .ok h' ∧
      Core h' (Function.update G n (some ⟨sl.cacheIndex,xs⟩)) Q ∧ Kept { h with words := words } h' ∧
      ∀ m, m ≠ n → h'.buddy.frames m = h.buddy.frames m := by
  obtain ⟨h',r,e⟩ := @write_ok { h with words := words } (.frame n) hw sl
  have hne : ∀ c < NUM_SIZE_CLASSES, n ∉ Q c → ∀ y ∈ ListPtr.head c :: (Q c).map ListPtr.frame, y ≠ .frame n := by
    intro c _ hnQ y hy he
    subst he
    rcases List.mem_cons.mp hy with hy | hy
    · simp at hy
    · obtain ⟨m,hm,he⟩ := List.mem_map.mp hy
      exact hnQ (ListPtr.frame.inj he ▸ hm)
  refine ⟨h',r,⟨e.kept.lookup.trans hcore.lookup,fun c hc => ?_,fun c hc => ?_,
    hcore.rings.congr (fun c hc y hy => ?_) fun c hc y hy => ?_,fun c hc m hm => ?_,fun m s hG => ?_,fun m s hG => ?_,
    fun m s hG => ?_⟩,e.kept,fun m hm => e.frames m (by simpa using hm)⟩
  · obtain ⟨h1,h2,h3⟩ := e.kept.caches c
    rw [h1, h2, h3]
    exact hcore.caches c hc
  · rw [e.data, Function.update_of_ne (by simp)]
    exact hcore.head c hc
  · rw [e.next, Function.update_apply]
    split_ifs with hy'
    · by_cases hnQ : n ∈ Q c
      · rw [hy', (hlinks c hc hnQ).1]
      · exact absurd hy' (hne c hc hnQ y hy)
    · rfl
  · rw [e.prev, Function.update_apply]
    split_ifs with hy'
    · by_cases hnQ : n ∈ Q c
      · rw [hy', (hlinks c hc hnQ).2.1]
      · exact absurd hy' (hne c hc hnQ y hy)
    · rfl
  · by_cases hmn : m = n
    · subst hmn
      rw [Function.update_self]
      exact ⟨xs,by rw [(hlinks c hc hm).2.2]⟩
    · rw [Function.update_of_ne hmn]
      exact hcore.listed c hc m hm
  · rcases update_slab hG with ⟨rfl,rfl⟩ | ⟨hmn,hG⟩
    · exact hcache
    · exact hcore.cache m s hG
  · rcases update_slab hG with ⟨rfl,rfl⟩ | ⟨hmn,hG⟩
    · refine ⟨sl.freeList,?_,?_⟩
      · rw [e.data, Function.update_self, hcount]
      · rw [e.kept.words]
        exact hchain
    · obtain ⟨p,hp,hchain'⟩ := hcore.data m s hG
      refine ⟨p,?_,?_⟩
      · rw [e.data, Function.update_of_ne (by simpa using hmn)]
        exact hp
      · rw [e.kept.words]
        exact hchain'.congr (hwords m s hmn hG)
  · rcases update_slab hG with ⟨rfl,rfl⟩ | ⟨hmn,hG⟩
    · exact hfree
    · exact hcore.free m s hG

/-- A slab that is on no list can be given away. -/
lemma forget (hcore : Core h G Q) (hn : ∀ c < NUM_SIZE_CLASSES, n ∉ Q c) : Core h (Function.update G n none) Q := by
  have hG : ∀ m s, Function.update G n none m = some s → G m = some s := by
    intro m s hm
    by_cases hmn : m = n
    · subst hmn
      simp at hm
    · rwa [Function.update_of_ne hmn] at hm
  refine ⟨hcore.lookup,hcore.caches,hcore.head,hcore.rings,fun c hc m hm => ?_,fun m s hm => hcore.cache m s (hG m s hm),
    fun m s hm => hcore.data m s (hG m s hm),fun m s hm => hcore.free m s (hG m s hm)⟩
  have hmn : m ≠ n := by
    rintro rfl
    exact hn c hc hm
  rw [Function.update_of_ne hmn]
  exact hcore.listed c hc m hm

end Core
end Lilith.Slub
