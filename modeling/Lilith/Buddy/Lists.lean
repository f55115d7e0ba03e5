import Lilith.Buddy.Model
import Lilith.Theory.Ring
import Lilith.Theory.Dyadic

/-! The lists of the buddy allocator. What the code can see of a state are the links and the order of each
list node and the type of each frame; every list operation is described by what it changes of these. -/
namespace Lilith.Buddy
open Theory

namespace BuddyAllocator

/-- The list node at a pointer, if there is one. -/
def node (self : BuddyAllocator) : ListPtr → Option BuddyList
  | .null => none
  | .head i => if i ≤ MAX_ORDER then some (self.heads i) else none
  | .frame n => (self.frames n).bind fun fi =>
    match fi.u with
    | .buddyList bl => some bl
    | _ => none

def next (self : BuddyAllocator) (p : ListPtr) : ListPtr := ((self.node p).map (·.next)).getD .null

def prev (self : BuddyAllocator) (p : ListPtr) : ListPtr := ((self.node p).map (·.prev)).getD .null

def order (self : BuddyAllocator) (p : ListPtr) : Option ℕ := (self.node p).map (·.order)

def ty (self : BuddyAllocator) (n : ℕ) : Option FrameType := (self.frames n).map (·.ty)

/-- There is memory for a node at the pointer. -/
def Writable (self : BuddyAllocator) : ListPtr → Prop
  | .null => False
  | .head i => i ≤ MAX_ORDER
  | .frame n => (self.ty n).isSome

end BuddyAllocator

open BuddyAllocator

variable {st st' : BuddyAllocator} {p q list item : ListPtr} {o n : ℕ}

/-- The state `st'` has these links and orders, and of `st` it has the types and the frames apart from `S`. -/
structure Relinked (st st' : BuddyAllocator) (next prev : ListPtr → ListPtr) (order : ListPtr → Option ℕ)
    (S : Set ListPtr) : Prop where
  next : st'.next = next
  prev : st'.prev = prev
  order : st'.order = order
  ty : st'.ty = st.ty
  frames : ∀ n, .frame n ∉ S → st'.frames n = st.frames n

lemma frameInfo_ok {fi : FrameInfo} (h : st.frames n = some fi) : st.frameInfo n = .ok fi := by
  simp [frameInfo, h]

lemma ty_some {t : FrameType} (h : st.ty n = some t) : ∃ fi, st.frames n = some fi ∧ fi.ty = t :=
  Option.map_eq_some_iff.mp h

lemma read_ok (h : st.order p = some o) : st.read p = .ok ⟨st.next p,st.prev p,o⟩ := by
  obtain ⟨bl,hbl,rfl⟩ := Option.map_eq_some_iff.mp h
  simp only [BuddyAllocator.next, BuddyAllocator.prev, hbl, Option.map_some, Option.getD_some]
  cases p with
  | null => simp [node] at hbl
  | head i =>
    simp only [node] at hbl
    split_ifs at hbl with hi
    obtain rfl := Option.some.inj hbl
    simp [BuddyAllocator.read, hi]
  | frame n =>
    obtain ⟨fi,hfi,hu⟩ := Option.bind_eq_some_iff.mp hbl
    simp only [BuddyAllocator.read, frameInfo_ok hfi, bind, Except.bind]
    cases hd : fi.u with
    | buddyList bl' =>
      rw [hd] at hu
      obtain rfl := Option.some.inj hu
      rfl
    | none => simp [hd] at hu
    | slabList sl => simp [hd] at hu

lemma writable_of_order (h : st.order p = some o) : st.Writable p := by
  obtain ⟨bl,hbl,_⟩ := Option.map_eq_some_iff.mp h
  cases p with
  | null => simp [node] at hbl
  | head i =>
    simp only [node] at hbl
    split_ifs at hbl with hi
    exact hi
  | frame n =>
    obtain ⟨fi,hfi,_⟩ := Option.bind_eq_some_iff.mp hbl
    simp [Writable, BuddyAllocator.ty, hfi]

/-- The nodes after a write. -/
lemma write_node (h : st.Writable p) (bl : BuddyList) : ∃ st', st.write p bl = .ok st' ∧
    st'.node = Function.update st.node p (some bl) ∧ st'.ty = st.ty ∧
    ∀ n, .frame n ∉ ({p} : Set ListPtr) → st'.frames n = st.frames n := by
  cases p with
  | null => exact absurd h not_false
  | head i =>
    have hi : i ≤ MAX_ORDER := h
    refine ⟨_,if_pos hi,?_,rfl,fun _ _ => rfl⟩
    funext q
    cases q with
    | null => rfl
    | head j =>
      by_cases hj : j = i
      · simp [node, hj, hi]
      · simp [node, hj]
    | frame m => rfl
  | frame n =>
    obtain ⟨t,ht⟩ := Option.isSome_iff_exists.mp h
    obtain ⟨fi,hfi,_⟩ := ty_some ht
    refine ⟨st.setFrame n { fi with u := .buddyList bl },?_,?_,?_,fun m hm => ?_⟩
    · simp only [BuddyAllocator.write, frameInfo_ok hfi, bind, Except.bind]
      rfl
    · funext q
      cases q with
      | null => rfl
      | head j => simp [node, setFrame]
      | frame m =>
        by_cases hm : m = n
        · simp [node, setFrame, hm]
        · simp [node, setFrame, hm]
    · funext m
      by_cases hm : m = n
      · simp [BuddyAllocator.ty, setFrame, hm, hfi]
      · simp [BuddyAllocator.ty, setFrame, hm]
    · have : m ≠ n := fun he => hm (by rw [he]; rfl)
      simp [setFrame, this]

lemma write_ok (h : st.Writable p) (bl : BuddyList) : ∃ st', st.write p bl = .ok st' ∧
    Relinked st st' (Function.update st.next p bl.next) (Function.update st.prev p bl.prev)
      (Function.update st.order p (some bl.order)) {p} := by
  obtain ⟨st',h1,h2,h3,h4⟩ := write_node h bl
  refine ⟨st',h1,?_,?_,?_,h3,h4⟩
  all_goals
    funext q
    by_cases hq : q = p
    · simp [BuddyAllocator.next, BuddyAllocator.prev, BuddyAllocator.order, h2, hq]
    · simp [BuddyAllocator.next, BuddyAllocator.prev, BuddyAllocator.order, h2, hq]

lemma setNext_ok (h : st.order p = some o) (x : ListPtr) : ∃ st', st.setNext p x = .ok st' ∧
    Relinked st st' (Function.update st.next p x) st.prev st.order {p} := by
  obtain ⟨st',h1,h2⟩ := write_ok (writable_of_order h) ⟨x,st.prev p,o⟩
  refine ⟨st',?_,h2.next,?_,?_,h2.ty,h2.frames⟩
  · simp only [setNext, read_ok h, bind, Except.bind]
    exact h1
  · rw [h2.prev, Function.update_eq_self]
  · rw [h2.order, ← h, Function.update_eq_self]

lemma setPrev_ok (h : st.order p = some o) (x : ListPtr) : ∃ st', st.setPrev p x = .ok st' ∧
    Relinked st st' st.next (Function.update st.prev p x) st.order {p} := by
  obtain ⟨st',h1,h2⟩ := write_ok (writable_of_order h) ⟨st.next p,x,o⟩
  refine ⟨st',?_,?_,h2.prev,?_,h2.ty,h2.frames⟩
  · simp only [setPrev, read_ok h, bind, Except.bind]
    exact h1
  · rw [h2.next, Function.update_eq_self]
  · rw [h2.order, ← h, Function.update_eq_self]

/-- `insert` of a node that is neither the list nor the node before it. -/
lemma insert_ok (hl : st.order list = some o) {o' : ℕ} (hp : st.order (st.prev list) = some o') (hi : st.Writable item)
    (h1 : item ≠ list) (h2 : item ≠ st.prev list) : ∃ st', st.insert list item = .ok st' ∧
    Relinked st st' (Function.update (Function.update st.next item list) (st.prev list) item)
      (Function.update (Function.update st.prev item (st.prev list)) list item)
      (Function.update st.order item (some o)) {item,list,st.prev list} := by
  obtain ⟨st1,r1,e1⟩ := write_ok hi ⟨list,st.prev list,o⟩
  have hl1 : st1.order list = some o := by rw [e1.order, Function.update_of_ne h1.symm]; exact hl
  have hprev : st1.prev list = st.prev list := by rw [e1.prev, Function.update_of_ne h1.symm]
  have hp1 : st1.order (st.prev list) = some o' := by rw [e1.order, Function.update_of_ne h2.symm]; exact hp
  obtain ⟨st2,r2,e2⟩ := setNext_ok hp1 item
  have hl2 : st2.order list = some o := by rw [e2.order]; exact hl1
  obtain ⟨st3,r3,e3⟩ := setPrev_ok hl2 item
  refine ⟨st3,?_,?_,?_,?_,?_,fun n hn => ?_⟩
  · simp only [BuddyAllocator.insert, read_ok hl, r1, read_ok hl1, hprev, r2, r3, bind, Except.bind]
  · rw [e3.next, e2.next, e1.next]
  · rw [e3.prev, e2.prev, e1.prev]
  · rw [e3.order, e2.order, e1.order]
  · rw [e3.ty, e2.ty, e1.ty]
  · simp only [Set.mem_insert_iff, Set.mem_singleton_iff, not_or] at hn
    rw [e3.frames n (by simpa using hn.2.1), e2.frames n (by simpa using hn.2.2), e1.frames n (by simpa using hn.1)]

/-- `unlink` of a node with two neighbours. -/
lemma unlink_ok (hi : st.order item = some o) {on op : ℕ} (hn : st.order (st.next item) = some on)
    (hp : st.order (st.prev item) = some op) (h1 : st.next item ≠ item) :
    ∃ st', st.unlink item = .ok st' ∧
    Relinked st st' (Function.update (Function.update st.next (st.prev item) (st.next item)) item .null)
      (Function.update (Function.update st.prev (st.next item) (st.prev item)) item .null) st.order
      {item,st.next item,st.prev item} := by
  obtain ⟨st1,r1,e1⟩ := setPrev_ok hn (st.prev item)
  have hi1 : st1.order item = some o := by rw [e1.order]; exact hi
  have hprev : st1.prev item = st.prev item := by rw [e1.prev, Function.update_of_ne h1.symm]
  have hnext : st1.next item = st.next item := by rw [e1.next]
  have hp1 : st1.order (st.prev item) = some op := by rw [e1.order]; exact hp
  obtain ⟨st2,r2,e2⟩ := setNext_ok hp1 (st.next item)
  have hi2 : st2.order item = some o := by rw [e2.order]; exact hi1
  obtain ⟨st3,r3,e3⟩ := setPrev_ok hi2 .null
  have hi3 : st3.order item = some o := by rw [e3.order]; exact hi2
  obtain ⟨st4,r4,e4⟩ := setNext_ok hi3 .null
  refine ⟨st4,?_,?_,?_,?_,?_,fun n hn => ?_⟩
  · simp only [BuddyAllocator.unlink, read_ok hi, r1, read_ok hi1, hprev, hnext, r2, r3, r4, bind, Except.bind]
  · rw [e4.next, e3.next, e2.next, e1.next]
  · rw [e4.prev, e3.prev, e2.prev, e1.prev]
  · rw [e4.order, e3.order, e2.order, e1.order]
  · rw [e4.ty, e3.ty, e2.ty, e1.ty]
  · simp only [Set.mem_insert_iff, Set.mem_singleton_iff, not_or] at hn
    rw [e4.frames n (by simpa using hn.1), e3.frames n (by simpa using hn.1), e2.frames n (by simpa using hn.2.2),
      e1.frames n (by simpa using hn.2.1)]

/-- `pop_front` of a list with the first node `item`, which it unlinks. -/
lemma popFront_ok (hl : st.order list = some o) (hnext : st.next list = item) (hprev : st.prev item = list)
    (hne : item ≠ list) {oi on : ℕ} (hi : st.order item = some oi) (hn : st.order (st.next item) = some on) :
    ∃ st', st.popFront list = .ok (some item,st') ∧
    Relinked st st' (Function.update (Function.update st.next (st.prev item) (st.next item)) item .null)
      (Function.update (Function.update st.prev (st.next item) (st.prev item)) item .null) st.order
      {item,st.next item,st.prev item} := by
  obtain ⟨st1,r1,e1⟩ := setNext_ok hl (st.next item)
  have hl1 : st1.order list = some o := by rw [e1.order]; exact hl
  have hnext1 : st1.next list = st.next item := by rw [e1.next, Function.update_self]
  have hn1 : st1.order (st.next item) = some on := by rw [e1.order]; exact hn
  obtain ⟨st2,r2,e2⟩ := setPrev_ok hn1 list
  have hi2 : st2.order item = some oi := by rw [e2.order, e1.order]; exact hi
  obtain ⟨st3,r3,e3⟩ := setPrev_ok hi2 .null
  have hi3 : st3.order item = some oi := by rw [e3.order]; exact hi2
  obtain ⟨st4,r4,e4⟩ := setNext_ok hi3 .null
  refine ⟨st4,?_,?_,?_,?_,?_,fun n hn => ?_⟩
  · simp only [BuddyAllocator.popFront, read_ok hl, hnext, read_ok hi, bind, Except.bind, if_pos hne, r1, read_ok hl1,
      hnext1, r2, r3, r4]
    rfl
  · rw [e4.next, e3.next, e2.next, e1.next, hprev]
  · rw [e4.prev, e3.prev, e2.prev, e1.prev, hprev]
  · rw [e4.order, e3.order, e2.order, e1.order]
  · rw [e4.ty, e3.ty, e2.ty, e1.ty]
  · simp only [Set.mem_insert_iff, Set.mem_singleton_iff, not_or, hprev] at hn
    rw [e4.frames n (by simpa using hn.1), e3.frames n (by simpa using hn.1), e2.frames n (by simpa using hn.2.1),
      e1.frames n (by simpa using hn.2.2)]

/-- `pop_front` of an empty list. -/
lemma popFront_none (hl : st.order list = some o) (he : st.next list = list) : st.popFront list = .ok (none,st) := by
  simp only [BuddyAllocator.popFront, read_ok hl, bind, Except.bind, he, ne_eq, not_true_eq_false, if_false]
  rfl

/-- `set_ty` -/
lemma setTy_ok (h : (st.ty n).isSome) (t : FrameType) : ∃ st', st.setTy n t = .ok st' ∧ st'.next = st.next ∧
    st'.prev = st.prev ∧ st'.order = st.order ∧ st'.ty = Function.update st.ty n (some t) ∧
    (∀ fi, st.frames n = some fi → st'.frames n = some { fi with ty := t }) ∧
    ∀ m, m ≠ n → st'.frames m = st.frames m := by
  obtain ⟨t0,ht⟩ := Option.isSome_iff_exists.mp h
  obtain ⟨fi,hfi,_⟩ := ty_some ht
  have hnode : (st.setFrame n { fi with ty := t }).node = st.node := by
    funext q
    cases q with
    | null => rfl
    | head i => rfl
    | frame m =>
      by_cases hm : m = n
      · simp [node, setFrame, hm, hfi]
      · simp [node, setFrame, hm]
  refine ⟨st.setFrame n { fi with ty := t },?_,?_,?_,?_,?_,fun fi' hfi' => ?_,fun m hm => ?_⟩
  · simp only [setTy, frameInfo_ok hfi, bind, Except.bind]
    rfl
  · funext q
    rw [BuddyAllocator.next, hnode, BuddyAllocator.next]
  · funext q
    rw [BuddyAllocator.prev, hnode, BuddyAllocator.prev]
  · funext q
    rw [BuddyAllocator.order, hnode, BuddyAllocator.order]
  · funext m
    by_cases hm : m = n
    · simp [BuddyAllocator.ty, setFrame, hm]
    · simp [BuddyAllocator.ty, setFrame, hm]
  · obtain rfl := Option.some.inj (hfi.symm.trans hfi')
    simp [setFrame]
  · simp [setFrame, hm]

/-- The blocks on the lists. -/
def Free (F : ℕ → List ℕ) : Set Block := { b | b.order ≤ MAX_ORDER ∧ b.index ∈ F b.order }

/-- The list nodes of the blocks of one order. -/
def nodes (F : ℕ → List ℕ) (o : ℕ) : List ListPtr := (F o).map fun i => .frame (2^o * i)

/-- The lists are rings of blocks, and each node has the order of its list. -/
structure Lists (st : BuddyAllocator) (F : ℕ → List ℕ) : Prop where
  ring : ∀ o ≤ MAX_ORDER, Ring st.next st.prev (.head o) (nodes F o)
  head : ∀ o ≤ MAX_ORDER, st.order (.head o) = some o
  order : ∀ b ∈ Free F, st.order (.frame b.start) = some b.order

/-- The frames that are neither on a list nor among `S` are the same. -/
def Untouched (st st' : BuddyAllocator) (F : ℕ → List ℕ) (S : Set ℕ) : Prop :=
  ∀ n, n ∉ S → (∀ b ∈ Free F, b.start ≠ n) → st'.frames n = st.frames n

namespace Lists
variable {F : ℕ → List ℕ} {b : Block}

lemma mem_nodes : p ∈ nodes F o ↔ ∃ i ∈ F o, p = .frame (Block.mk o i).start := by
  simp only [nodes, List.mem_map]
  constructor
  · intro ⟨i,hi,hp⟩
    exact ⟨i,hi,hp.symm⟩
  · intro ⟨i,hi,hp⟩
    exact ⟨i,hi,hp.symm⟩

/-- A node of a ring has the order of the ring. -/
lemma order_of_mem (h : Lists st F) (ho : o ≤ MAX_ORDER) (hp : p ∈ .head o :: nodes F o) : st.order p = some o := by
  rcases List.mem_cons.mp hp with rfl | hp
  · exact h.head o ho
  · obtain ⟨i,hi,rfl⟩ := mem_nodes.mp hp
    exact h.order ⟨o,i⟩ ⟨ho,hi⟩

/-- Two rings have no common node. -/
lemma disjoint (h : Lists st F) (ho : o ≤ MAX_ORDER) {o' : ℕ} (ho' : o' ≤ MAX_ORDER) (hne : o' ≠ o)
    (hp : p ∈ .head o :: nodes F o) : p ∉ .head o' :: nodes F o' := fun hp' =>
  hne (Option.some.inj ((h.order_of_mem ho' hp').symm.trans (h.order_of_mem ho hp)))

lemma nodup (h : Lists st F) (ho : o ≤ MAX_ORDER) : (F o).Nodup :=
  (List.nodup_cons.mp (h.ring o ho).nodup).2.of_map

/-- A frame of the touched nodes is a block on a list. -/
lemma frame_mem (ho : o ≤ MAX_ORDER) (hp : .frame n ∈ ListPtr.head o :: nodes F o) : ∃ b ∈ Free F, b.start = n := by
  rcases List.mem_cons.mp hp with hp | hp
  · exact absurd hp (by simp)
  · obtain ⟨i,hi,he⟩ := mem_nodes.mp hp
    exact ⟨⟨o,i⟩,⟨ho,hi⟩,(ListPtr.frame.inj he).symm⟩

/-- The rings of all orders. -/
lemma rings (h : Lists st F) : Rings st.next st.prev ListPtr.head (nodes F) { o | o ≤ MAX_ORDER } :=
  ⟨h.ring,fun _ ho _ ho' hne _ hp => h.disjoint ho ho' hne.symm hp⟩

lemma nodes_update (xs : List ℕ) :
    nodes (Function.update F o xs) = Function.update (nodes F) o (xs.map fun i => .frame (2^o * i)) := by
  funext o'
  unfold nodes
  by_cases ho : o' = o
  · subst ho
    simp
  · simp [ho]

lemma mem_free_update {xs : List ℕ} :
    b ∈ Free (Function.update F o xs) ↔ b.order ≤ MAX_ORDER ∧ if b.order = o then b.index ∈ xs else b.index ∈ F b.order := by
  unfold Free
  by_cases ho : b.order = o
  · simp [ho]
  · simp [ho]

/-- The lists after the links of one of them, and of a node on none, were changed. -/
lemma of_relinked (h : Lists st F) {next prev : ListPtr → ListPtr}
    {order : ListPtr → Option ℕ} {S : Set ListPtr} (hr : Relinked st st' next prev order S) {xs : List ℕ}
    (hrings : Rings next prev ListPtr.head (Function.update (nodes F) b.order (xs.map fun i => .frame (2^b.order * i)))
      { o | o ≤ MAX_ORDER })
    (hout : ∀ o ≤ MAX_ORDER, o ≠ b.order → ListPtr.frame b.start ∉ nodes F o)
    (horder : ∀ p, p ≠ .frame b.start → order p = st.order p)
    (hself : order (.frame b.start) = some b.order) (hxs : ∀ i ∈ xs, i ∈ F b.order ∨ i = b.index) :
    Lists st' (Function.update F b.order xs) := by
  refine ⟨fun o ho => ?_,fun o ho => ?_,fun c hc => ?_⟩
  · rw [hr.next, hr.prev, nodes_update]
    exact hrings.ring o ho
  · rw [hr.order, horder _ (by simp)]
    exact h.head o ho
  · rw [hr.order]
    obtain ⟨hc1,hc2⟩ := mem_free_update.mp hc
    by_cases hs : c.start = b.start
    · by_cases he : c.order = b.order
      · obtain rfl := Block.ext_start he hs
        exact hself
      · rw [if_neg he] at hc2
        refine absurd (mem_nodes.mpr ⟨c.index,hc2,?_⟩) (hout c.order hc1 he)
        rw [← hs]
    · rw [horder _ (by simpa using hs)]
      by_cases he : c.order = b.order
      · rw [if_pos he] at hc2
        rcases hxs _ hc2 with hi | hi
        · exact h.order c ⟨hc1,he ▸ hi⟩
        · exact absurd (by rw [Block.ext he hi]) hs
      · rw [if_neg he] at hc2
        exact h.order c ⟨hc1,hc2⟩

/-- Putting a block on the list of its order. -/
theorem insert (h : Lists st F) (hb : b.order ≤ MAX_ORDER) (hw : (st.ty b.start).isSome)
    (hout : ∀ c ∈ Free F, c.start ≠ b.start) :
    ∃ st', st.insert (.head b.order) (.frame b.start) = .ok st' ∧
      Lists st' (Function.update F b.order (F b.order ++ [b.index])) ∧ st'.ty = st.ty ∧ Untouched st st' F {b.start} := by
  have hring := h.ring b.order hb
  have hnot : ∀ o ≤ MAX_ORDER, ListPtr.frame b.start ∉ ListPtr.head o :: nodes F o := fun o ho hm => by
    obtain ⟨c,hc,he⟩ := frame_mem ho hm
    exact hout c hc he
  have hprev := hring.prev_mem
  have hne : ListPtr.frame b.start ≠ st.prev (.head b.order) := fun he => hnot b.order hb (he ▸ hprev)
  obtain ⟨st',h1,h2⟩ := @insert_ok st (.head b.order) (.frame b.start) b.order (h.head b.order hb) b.order
    (h.order_of_mem hb hprev) hw (by simp) hne
  refine ⟨st',h1,h.of_relinked h2 ?_ (fun o ho _ hm => hnot o ho (List.mem_cons_of_mem _ hm))
    (fun p hp => Function.update_of_ne hp _ _) (Function.update_self _ _ _) fun i hi => ?_,h2.ty,fun n hn hfree => ?_⟩
  · rw [List.map_append, List.map_singleton]
    exact h.rings.insert hb hnot
  · simpa using hi
  · apply h2.frames
    simp only [Set.mem_insert_iff, Set.mem_singleton_iff, not_or, ListPtr.frame.injEq]
    refine ⟨by simpa using hn,by simp,fun he => ?_⟩
    obtain ⟨c,hc,hcn⟩ := frame_mem hb (he ▸ hprev)
    exact hfree c hc hcn

/-- The place of a block on its list. -/
lemma split_nodes (hb : b ∈ Free F) : ∃ xs ys, F b.order = xs ++ b.index :: ys := List.append_of_mem hb.2

section Taken
variable {xs ys : List ℕ} (h : Lists st F) (hb : b ∈ Free F) (hF : F b.order = xs ++ b.index :: ys)
include hF

lemma nodes_split : nodes F b.order = xs.map (fun i => .frame (2^b.order * i)) ++ .frame b.start ::
    ys.map fun i => .frame (2^b.order * i) := by
  rw [nodes, hF, List.map_append, List.map_cons]
  rfl

include h hb

/-- The neighbours of a node are on its list, and are other nodes. -/
lemma neighbours : ∀ y, y = st.next (.frame b.start) ∨ y = st.prev (.frame b.start) →
    y ∈ ListPtr.head b.order :: nodes F b.order ∧ y ≠ .frame b.start := by
  have hring := h.ring b.order hb.1
  rw [nodes_split hF] at hring
  obtain ⟨hn,hp⟩ := hring.neighbours
  have hd := hring.nodup
  rw [← List.cons_append, List.nodup_middle, List.nodup_cons, List.cons_append] at hd
  intro y hy
  have hm : y ∈ ListPtr.head b.order :: (xs.map (fun i => ListPtr.frame (2^b.order * i)) ++
      ys.map fun i => ListPtr.frame (2^b.order * i)) := by
    rcases hy with rfl | rfl
    · exact hn
    · exact hp
  refine ⟨?_,fun he => hd.1 (he ▸ hm)⟩
  rw [nodes_split hF]
  simp only [List.mem_cons, List.mem_append] at hm ⊢
  tauto

/-- The lists after a node was unlinked. -/
lemma taken (hr : Relinked st st' (Function.update (Function.update st.next (st.prev (.frame b.start))
      (st.next (.frame b.start))) (.frame b.start) .null)
      (Function.update (Function.update st.prev (st.next (.frame b.start)) (st.prev (.frame b.start)))
      (.frame b.start) .null) st.order
      {.frame b.start,st.next (.frame b.start),st.prev (.frame b.start)}) :
    Lists st' (Function.update F b.order (xs ++ ys)) ∧ st'.ty = st.ty ∧ st'.order = st.order ∧ Untouched st st' F ∅ := by
  obtain ⟨hn,_⟩ := neighbours h hb hF _ (Or.inl rfl)
  obtain ⟨hp,_⟩ := neighbours h hb hF _ (Or.inr rfl)
  refine ⟨h.of_relinked hr ?_ (fun o ho hne hm => ?_) (fun _ _ => rfl) (h.order b hb) (fun i hi => Or.inl ?_),hr.ty,hr.order,
    fun n _ hfree => ?_⟩
  · rw [List.map_append]
    exact h.rings.unlink hb.1 (nodes_split hF) .null .null
  · have hm' : ListPtr.frame b.start ∈ ListPtr.head b.order :: nodes F b.order :=
      List.mem_cons_of_mem _ (mem_nodes.mpr ⟨b.index,hb.2,rfl⟩)
    exact h.disjoint ho hb.1 (Ne.symm hne) (List.mem_cons_of_mem _ hm) hm'
  · rw [hF]
    simp only [List.mem_append, List.mem_cons] at hi ⊢
    tauto
  · apply hr.frames
    simp only [Set.mem_insert_iff, Set.mem_singleton_iff, not_or, ListPtr.frame.injEq]
    refine ⟨fun he => hfree b hb he.symm,fun he => ?_,fun he => ?_⟩
    · obtain ⟨c,hc,hcn⟩ := frame_mem hb.1 (he ▸ hn)
      exact hfree c hc hcn
    · obtain ⟨c,hc,hcn⟩ := frame_mem hb.1 (he ▸ hp)
      exact hfree c hc hcn

/-- Taking a block off its list. -/
theorem unlink : ∃ st', st.unlink (.frame b.start) = .ok st' ∧ Lists st' (Function.update F b.order (xs ++ ys)) ∧
    st'.ty = st.ty ∧ st'.order = st.order ∧ Untouched st st' F ∅ := by
  obtain ⟨hn,hn'⟩ := neighbours h hb hF _ (Or.inl rfl)
  obtain ⟨hp,_⟩ := neighbours h hb hF _ (Or.inr rfl)
  obtain ⟨st',h1,h2⟩ := unlink_ok (h.order b hb) (h.order_of_mem hb.1 hn) (h.order_of_mem hb.1 hp) hn'
  exact ⟨st',h1,taken h hb hF h2⟩

end Taken

/-- Taking the first block off a list. -/
theorem popFront (h : Lists st F) (hbo : b.order ≤ MAX_ORDER) {ys : List ℕ} (hF : F b.order = b.index :: ys) :
    ∃ st', st.popFront (.head b.order) = .ok (some (.frame b.start),st') ∧
      Lists st' (Function.update F b.order ys) ∧ st'.ty = st.ty ∧ st'.order = st.order ∧ Untouched st st' F ∅ := by
  have hb : b ∈ Free F := ⟨hbo,by rw [hF]; exact List.mem_cons_self⟩
  have hlink := (h.ring b.order hbo).linked
  rw [nodes, hF, List.map_cons] at hlink
  have hF' : F b.order = [] ++ b.index :: ys := hF
  obtain ⟨hn,_⟩ := neighbours h hb hF' _ (Or.inl rfl)
  obtain ⟨st',h1,h2⟩ := popFront_ok (h.head b.order hbo) hlink.1 hlink.2.1 (by simp) (h.order b hb)
    (h.order_of_mem hbo hn)
  exact ⟨st',h1,taken h hb hF' h2⟩

lemma popFront_nil (h : Lists st F) (ho : o ≤ MAX_ORDER) (hF : F o = []) :
    st.popFront (.head o) = .ok (none,st) := by
  have hring := h.ring o ho
  rw [nodes, hF, List.map_nil] at hring
  exact popFront_none (h.head o ho) hring.linked.1

end Lists
end Lilith.Buddy
