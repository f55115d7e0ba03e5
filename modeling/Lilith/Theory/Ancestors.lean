import Lilith.Theory.PointerGraph

/-! Chains of parent links. The parent links alone fix the way from a node to the root, so a walk down
child pointers that checks them cannot come back to a node; the only nodes it can see twice are
children that their parent has on both sides. -/
namespace Lilith.Theory
open CTree

variable {ι τ : Type*}

namespace PtrGraph
variable {g : PtrGraph ι τ} {p q : Option ι} {t : CTree (ι × τ)} {i : ι} {up up' above : List ι}

/-- A node with its ancestors, up to a root. -/
def Rooted (g : PtrGraph ι τ) : List ι → Prop
  | [] => True
  | i::up => g.parent i = up.head? ∧ g.Rooted up

@[simp] theorem rooted_nil : g.Rooted [] := trivial
@[simp] theorem rooted_cons : g.Rooted (i::up) ↔ g.parent i = up.head? ∧ g.Rooted up := Iff.rfl

lemma Rooted.of_append (h : g.Rooted (up ++ above)) : g.Rooted above := by
  induction up with
  | nil => exact h
  | cons i up ih => exact ih h.2

/-- A node has one chain of ancestors. -/
lemma Rooted.unique (h : g.Rooted (i::up)) (h' : g.Rooted (i::up')) : up = up' := by
  induction up generalizing i up' with
  | nil =>
    have hhead : up'.head? = none := h'.1.symm.trans h.1
    rw [List.head?_eq_none_iff.mp hhead]
  | cons j up ih =>
    have hhead : up'.head? = some j := h'.1.symm.trans h.1
    obtain ⟨above,rfl⟩ := List.head?_eq_some_iff.mp hhead
    rw [ih h.2 h'.2]

lemma Rooted.nodup (h : g.Rooted up) : up.Nodup := by
  induction up with
  | nil => simp
  | cons i up ih =>
    refine List.nodup_cons.mpr ⟨fun hi => ?_,ih h.2⟩
    obtain ⟨before,above,rfl⟩ := List.append_of_mem hi
    have hup := h.unique (Rooted.of_append h.2)
    have hlen := congrArg List.length hup
    simp at hlen
    omega

/-- Every node of a tree has its ancestors, up to the root of the tree and above it. -/
lemma Repr.rooted (h : g.Repr above.head? p t) (ha : g.Rooted above) (hi : i ∈ t.ids) :
    ∃ up, (i::up).getLast? = t.ptr ∧ g.Rooted (i::up ++ above) := by
  induction t generalizing p above with
  | leaf => simp at hi
  | node c l x r ihl ihr =>
    obtain ⟨_,hpar,_,_,hl,hr⟩ := h
    have hx : g.Rooted (x.1::above) := ⟨hpar,ha⟩
    change g.Repr (x.1::above).head? _ l at hl
    change g.Repr (x.1::above).head? _ r at hr
    have hdown : ∀ up, g.Rooted (i::up ++ x.1::above) → (i::(up ++ [x.1])).getLast? = some x.1 ∧
        g.Rooted (i::(up ++ [x.1]) ++ above) := by
      intro up hup
      exact ⟨by rw [← List.cons_append, List.getLast?_concat],by simpa using hup⟩
    simp only [ids_node, List.mem_append, List.mem_cons] at hi
    rcases hi with hi | rfl | hi
    · obtain ⟨up,_,hup⟩ := ihl hl hx hi
      exact ⟨_,hdown up hup⟩
    · exact ⟨[],by simp,hx⟩
    · obtain ⟨up,_,hup⟩ := ihr hr hx hi
      exact ⟨_,hdown up hup⟩

/-- A node with the same child on both sides. -/
def Twins (g : PtrGraph ι τ) (i j : ι) : Prop := ∀ d, g.child i d = some j

/-- The nodes of a tree are distinct unless one of them has the same child on both sides. -/
lemma Repr.nodup_ids (h : g.Repr above.head? p t) (ha : g.Rooted above) (ht : ∀ i ∈ t.ids, ∀ j, ¬g.Twins i j) :
    t.ids.Nodup := by
  induction t generalizing p above with
  | leaf => simp
  | node c l x r ihl ihr =>
    obtain ⟨_,hpar,_,_,hl,hr⟩ := h
    have hx : g.Rooted (x.1::above) := ⟨hpar,ha⟩
    change g.Repr (x.1::above).head? _ l at hl
    change g.Repr (x.1::above).head? _ r at hr
    have hout : ∀ up, ¬g.Rooted (x.1::up ++ x.1::above) := by
      intro up hup
      have hnd := hup.nodup
      simp at hnd
    rw [ids_node, List.nodup_append, List.nodup_cons]
    refine ⟨ihl hl hx fun i hi => ht i (by simp [hi]),⟨fun hxr => ?_,ihr hr hx fun i hi => ht i (by simp [hi])⟩,?_⟩
    · obtain ⟨up,_,hup⟩ := Repr.rooted hr hx hxr
      exact hout up hup
    · rintro i hil j hjr rfl
      obtain ⟨up,hlast,hup⟩ := Repr.rooted hl hx hil
      rcases List.mem_cons.mp hjr with rfl | hir
      · exact hout up hup
      · obtain ⟨up',hlast',hup'⟩ := Repr.rooted hr hx hir
        -- one way up from the node, so the same child on both sides
        have hsame : up = up' := List.append_cancel_right (hup.unique hup')
        have hchild : g.child x.1 .left = g.child x.1 .right := by
          rw [Repr.ptr_eq hl, Repr.ptr_eq hr, ← hlast, ← hlast', hsame]
        have hsome : g.child x.1 .left = some ((i::up).getLast (by simp)) := by
          rw [Repr.ptr_eq hl, ← hlast, List.getLast?_eq_some_getLast]
        have htwins : g.Twins x.1 ((i::up).getLast (by simp)) := by
          intro d
          cases d with
          | left => exact hsome
          | right => exact hchild ▸ hsome
        exact ht x.1 (by simp) _ htwins

/-- A child on both sides makes the nodes of a tree not distinct. -/
lemma Repr.not_nodup (h : g.Repr q p t) (hi : i ∈ t.ids) {j : ι} (ht : g.Twins i j) : ¬t.ids.Nodup := by
  induction t generalizing p q with
  | leaf => simp at hi
  | node c l x r ihl ihr =>
    obtain ⟨_,_,_,_,hl,hr⟩ := h
    rw [ids_node, List.nodup_append, List.nodup_cons]
    rintro ⟨hndl,⟨_,hndr⟩,hdisj⟩
    simp only [ids_node, List.mem_append, List.mem_cons] at hi
    rcases hi with hi | rfl | hi
    · exact ihl hl hi hndl
    · have hjl : j ∈ l.ids := mem_ids_of_ptr ((Repr.ptr_eq hl).symm.trans (ht .left))
      have hjr : j ∈ r.ids := mem_ids_of_ptr ((Repr.ptr_eq hr).symm.trans (ht .right))
      exact hdisj j hjl j (List.mem_cons_of_mem _ hjr) rfl
    · exact ihr hr hi hndr

end PtrGraph
end Lilith.Theory
