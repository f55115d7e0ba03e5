import Lilith.Fault

/-! Vectors whose entries have identifiers that are used again after a removal (`id_vec.rs`). -/
namespace Lilith

structure IdSparseVec (T : Type) where
  list : List (Option T)
  free : List ℕ
  deriving DecidableEq, Repr

namespace IdSparseVec
variable {T : Type} {v : IdSparseVec T} {id j : ℕ} {x y : T}

def new : IdSparseVec T := ⟨[],[]⟩

def get (v : IdSparseVec T) (id : ℕ) : Option T := v.list[id]?.join

/-- An assignment through `get_mut`. -/
def set (v : IdSparseVec T) (id : ℕ) (x : T) : IdSparseVec T := { v with list := v.list.set id (some x) }

def getMut2 (v : IdSparseVec T) (id1 id2 : ℕ) : Option (T × T) :=
  if id1 = id2 then none
  else match v.get id1, v.get id2 with
    | some x, some y => some (x,y)
    | _, _ => none

def insert (v : IdSparseVec T) (value : T) : Except Fault (ℕ × IdSparseVec T) :=
  match v.free with
  | id :: free =>
    if id < v.list.length then .ok (id,⟨v.list.set id (some value),free⟩)
    else .error (.panic "index out of bounds")
  | [] => .ok (v.list.length,⟨v.list ++ [some value],[]⟩)

/-- `iter_mut`, with the identifiers and the entries it visits -/
def iterMutEntries (v : IdSparseVec T) : List (ℕ × T) := v.list.zipIdx.filterMap fun (value,index) => value.map (index,·)

/-- An assignment to every entry that `iter_mut` visits. -/
def iterMut (v : IdSparseVec T) (f : T → T) : IdSparseVec T := { v with list := v.list.map (Option.map f) }

def remove (v : IdSparseVec T) (index : ℕ) : Except Fault (T × IdSparseVec T) :=
  match v.list[index]? with
  | some (some old) => .ok (old,⟨v.list.set index none,v.free ++ [index]⟩)
  | _ => .error (.panic "called `Option::unwrap()` on a `None` value")

/-- The free queue holds exactly the empty slots, each once. -/
structure Valid (v : IdSparseVec T) : Prop where
  nodup : v.free.Nodup
  mem_free : ∀ id, id ∈ v.free ↔ v.list[id]? = some none

lemma get_eq_some : v.get id = some x ↔ v.list[id]? = some (some x) := by
  unfold get
  cases v.list[id]? <;> simp

lemma lt_of_get (h : v.get id = some x) : id < v.list.length :=
  (List.getElem?_eq_some_iff.mp (get_eq_some.mp h)).1

lemma get_set (h : v.get id = some y) (j : ℕ) :
    (v.set id x).get j = if j = id then some x else v.get j := by
  have hlt := lt_of_get h
  simp only [set, get, List.getElem?_set]
  split_ifs with h1 h2 h2
  · rfl
  · exact absurd h1.symm h2
  · exact absurd h2.symm h1
  · rfl

lemma isSome_set (h : (v.get j).isSome) : ((v.set id x).get j).isSome := by
  obtain ⟨y,hy⟩ := Option.isSome_iff_exists.mp h
  have hlt := lt_of_get hy
  simp only [set, get, List.getElem?_set] at h ⊢
  split_ifs with h1 h2
  · rfl
  · omega
  · exact h

lemma valid_set (hv : v.Valid) (h : v.get id = some y) : (v.set id x).Valid := by
  refine ⟨hv.nodup,fun j => ?_⟩
  have hid := get_eq_some.mp h
  rw [show (v.set id x).free = v.free from rfl, hv.mem_free j]
  simp only [set, List.getElem?_set]
  split_ifs with h1 h2
  · subst h1
    simp [hid]
  · simp [← h1, hid]
  · rfl

lemma getMut2_of (h1 : v.get id = some x) (h2 : v.get j = some y) (hne : id ≠ j) :
    v.getMut2 id j = some (x,y) := by
  simp [getMut2, hne, h1, h2]

lemma get_new : (new : IdSparseVec T).get id = none := by simp [new, get]

lemma valid_new : (new : IdSparseVec T).Valid := ⟨List.nodup_nil,by simp [new]⟩

/-- An insertion takes an identifier that is not in use. -/
theorem Valid.insert (hv : v.Valid) (x : T) : ∃ id v', v.insert x = .ok (id,v') ∧ v'.Valid ∧
    v.get id = none ∧ ∀ j, v'.get j = if j = id then some x else v.get j := by
  unfold IdSparseVec.insert
  cases hf : v.free with
  | nil =>
    have hfull : ∀ j, v.list[j]? ≠ some none := fun j hj => by
      have := (hv.mem_free j).mpr hj
      simp [hf] at this
    refine ⟨v.list.length,_,rfl,⟨List.nodup_nil,fun j => ?_⟩,by simp [get],fun j => ?_⟩
    · have := hfull j
      simp only [List.not_mem_nil, false_iff, List.getElem?_append]
      split_ifs with h
      · exact this
      · cases j - v.list.length <;> simp
    · simp only [get, List.getElem?_append]
      split_ifs with h1 h2 h2
      · omega
      · rfl
      · simp [h2]
      · have : j - v.list.length ≠ 0 := by omega
        simp [show v.list.length ≤ j by omega, this]
  | cons id free =>
    have hnd := hv.nodup
    rw [hf, List.nodup_cons] at hnd
    have hid := (hv.mem_free id).mp (by simp [hf])
    have hlt : id < v.list.length := (List.getElem?_eq_some_iff.mp hid).1
    refine ⟨id,_,if_pos hlt,⟨hnd.2,fun j => ?_⟩,by simp [get, hid],fun j => ?_⟩
    · have hj := hv.mem_free j
      rw [hf, List.mem_cons] at hj
      simp only [List.getElem?_set]
      split_ifs with h1
      · subst h1
        simp [hnd.1]
      · rw [← hj]
        simp [Ne.symm h1]
    · simp only [get, List.getElem?_set, hlt, if_true]
      split_ifs with h1 h2 h2
      · rfl
      · exact absurd h1.symm h2
      · exact absurd h2.symm h1
      · rfl

/-- A removal gives back the entry and leaves the others alone. -/
theorem Valid.remove (hv : v.Valid) (h : v.get id = some x) : ∃ v', v.remove id = .ok (x,v') ∧
    v'.Valid ∧ ∀ j, v'.get j = if j = id then none else v.get j := by
  have hid := get_eq_some.mp h
  have hlt := lt_of_get h
  have hnot : id ∉ v.free := fun hm => by simp [(hv.mem_free id).mp hm] at hid
  refine ⟨⟨v.list.set id none,v.free ++ [id]⟩,by simp [IdSparseVec.remove, hid],⟨?_,fun j => ?_⟩,fun j => ?_⟩
  · rw [List.nodup_append]
    refine ⟨hv.nodup,List.nodup_singleton id,fun a ha b hb => ?_⟩
    rintro rfl
    exact hnot (List.mem_singleton.mp hb ▸ ha)
  · have hj := hv.mem_free j
    simp only [List.mem_append, List.mem_singleton, List.getElem?_set, hlt, if_true]
    split_ifs with h1
    · simp [h1]
    · rw [hj]
      simp [Ne.symm h1]
  · simp only [get, List.getElem?_set, hlt, if_true]
    split_ifs with h1 h2 h2
    · rfl
    · exact absurd h1.symm h2
    · exact absurd h2.symm h1
    · rfl

lemma mem_iterMutEntries : (id,x) ∈ v.iterMutEntries ↔ v.get id = some x := by
  rw [get_eq_some, iterMutEntries, List.mem_filterMap]
  constructor
  · intro ⟨⟨value,index⟩,hmem,hval⟩
    obtain ⟨y,rfl,he⟩ := Option.map_eq_some_iff.mp hval
    obtain ⟨rfl,rfl⟩ := Prod.mk.inj he
    exact List.mk_mem_zipIdx_iff_getElem?.mp hmem
  · intro hid
    exact ⟨(some x,id),List.mk_mem_zipIdx_iff_getElem?.mpr hid,rfl⟩

/-- No identifier is visited twice. -/
lemma iterMutEntries_nodup (v : IdSparseVec T) : (v.iterMutEntries.map Prod.fst).Nodup := by
  have hindex : (v.list.zipIdx.map Prod.snd).Nodup := by
    rw [List.zipIdx_map_snd]
    exact List.nodup_range'
  rw [List.Nodup, List.pairwise_map] at hindex ⊢
  refine hindex.filterMap _ fun p q hpq p' hp q' hq => ?_
  obtain ⟨x,_,rfl⟩ := Option.map_eq_some_iff.mp hp
  obtain ⟨y,_,rfl⟩ := Option.map_eq_some_iff.mp hq
  exact hpq

section IterMut
variable {f : T → T}

lemma get_iterMut (id : ℕ) : (v.iterMut f).get id = (v.get id).map f := by
  simp only [iterMut, get, List.getElem?_map]
  cases v.list[id]? with
  | none => rfl
  | some o => rfl

lemma Valid.iterMut (h : v.Valid) : (v.iterMut f).Valid := by
  refine ⟨h.nodup,fun id => ?_⟩
  show id ∈ v.free ↔ _
  rw [h.mem_free, IdSparseVec.iterMut, List.getElem?_map]
  cases v.list[id]? with
  | none => simp
  | some o => cases o <;> simp

/-- The entries that are assigned are those that are visited, in the same order. -/
theorem iterMutEntries_iterMut (v : IdSparseVec T) (f : T → T) :
    (v.iterMut f).iterMutEntries = v.iterMutEntries.map fun (id,x) => (id,f x) := by
  simp only [iterMutEntries, iterMut, List.zipIdx_map, List.filterMap_map, List.map_filterMap]
  congr 1
  funext ⟨value,index⟩
  cases value with
  | none => rfl
  | some x => rfl

end IterMut

/-- The states of a vector with the value that was last stored under each live identifier. -/
inductive Reach : IdSparseVec T → (ℕ → Option T) → Prop
  | new : Reach new fun _ => none
  | insert {v v' : IdSparseVec T} {m : ℕ → Option T} {x : T} {id : ℕ} (h : Reach v m)
      (hrun : v.insert x = .ok (id,v')) : Reach v' (Function.update m id (some x))
  | set {v : IdSparseVec T} {m : ℕ → Option T} {x : T} {id : ℕ} (h : Reach v m) (hlive : (m id).isSome) :
      Reach (v.set id x) (Function.update m id (some x))
  | remove {v v' : IdSparseVec T} {m : ℕ → Option T} {x : T} {id : ℕ} (h : Reach v m) (hlive : (m id).isSome)
      (hrun : v.remove id = .ok (x,v')) : Reach v' (Function.update m id none)

/-- In every run the free queue is right, and the entries are those that were stored. -/
lemma Reach.valid {m : ℕ → Option T} (h : Reach v m) : v.Valid ∧ ∀ id, v.get id = m id := by
  induction h with
  | new => exact ⟨valid_new,fun id => get_new⟩
  | @insert v v' m x id _ hrun ih =>
    obtain ⟨id',w,h1,h2,_,h4⟩ := ih.1.insert x
    obtain ⟨rfl,rfl⟩ := Prod.mk.inj (Except.ok.inj (h1.symm.trans hrun))
    refine ⟨h2,fun j => ?_⟩
    rw [h4, Function.update_apply, ih.2]
  | @set v m x id _ hlive ih =>
    obtain ⟨y,hy⟩ := Option.isSome_iff_exists.mp hlive
    have hget : v.get id = some y := (ih.2 id).trans hy
    refine ⟨valid_set ih.1 hget,fun j => ?_⟩
    rw [get_set hget, Function.update_apply, ih.2]
  | @remove v v' m x id _ hlive hrun ih =>
    obtain ⟨y,hy⟩ := Option.isSome_iff_exists.mp hlive
    obtain ⟨w,h1,h2,h3⟩ := ih.1.remove ((ih.2 id).trans hy)
    obtain ⟨_,rfl⟩ := Prod.mk.inj (Except.ok.inj (h1.symm.trans hrun))
    refine ⟨h2,fun j => ?_⟩
    rw [h3, Function.update_apply, ih.2]

/-- A vector as the map `m` of the live identifiers to their entries. -/
structure Represents (v : IdSparseVec T) (m : ℕ → Option T) : Prop where
  free : v.free.Nodup ∧ ∀ id, id ∈ v.free ↔ v.list[id]? = some none
  get : ∀ id, v.get id = m id
  insert : ∀ x, ∃ id v', v.insert x = .ok (id,v') ∧ m id = none ∧ v'.get id = some x ∧ ∀ j, j ≠ id → v'.get j = v.get j
  remove : ∀ id x, m id = some x → ∃ v', v.remove id = .ok (x,v') ∧ v'.get id = none ∧ ∀ j, j ≠ id → v'.get j = v.get j
  iterMut : (v.iterMutEntries.map Prod.fst).Nodup ∧ ∀ id x, (id,x) ∈ v.iterMutEntries ↔ m id = some x
  getMut2 : ∀ a b x y, v.getMut2 a b = some (x,y) ↔ a ≠ b ∧ m a = some x ∧ m b = some y

/-- In every run of insertions and removals the vector is the map of what was stored and not removed. -/
theorem represents_of_reach {m : ℕ → Option T} (h : Reach v m) : Represents v m := by
  obtain ⟨hv,hget⟩ := h.valid
  refine ⟨⟨hv.nodup,hv.mem_free⟩,hget,fun x => ?_,fun id x hx => ?_,⟨iterMutEntries_nodup v,fun id x => ?_⟩,fun a b x y => ?_⟩
  · obtain ⟨id,v',h1,_,h3,h4⟩ := hv.insert x
    refine ⟨id,v',h1,(hget id).symm.trans h3,?_,fun j hj => ?_⟩
    · rw [h4, if_pos rfl]
    · rw [h4, if_neg hj]
  · obtain ⟨v',h1,_,h3⟩ := hv.remove ((hget id).trans hx)
    refine ⟨v',h1,?_,fun j hj => ?_⟩
    · rw [h3, if_pos rfl]
    · rw [h3, if_neg hj]
  · rw [mem_iterMutEntries, hget]
  · rw [← hget, ← hget]
    unfold IdSparseVec.getMut2
    by_cases hab : a = b
    · simp [hab]
    · rw [if_neg hab]
      cases ha : v.get a with
      | none => simp
      | some x' => cases hb : v.get b with
        | none => simp
        | some y' => simp [hab]

theorem represents_recycled : (⟨[some 7,some 8],[]⟩ : IdSparseVec ℕ).remove 0 = .ok (7,⟨[none,some 8],[0]⟩) ∧
    Represents (⟨[none,some 8],[0]⟩ : IdSparseVec ℕ)
      (Function.update (Function.update (Function.update (fun _ => none) 0 (some 7)) 1 (some 8)) 0 none) :=
  ⟨rfl,represents_of_reach (.remove (.insert (.insert .new rfl) rfl) rfl rfl)⟩

end IdSparseVec
end Lilith
