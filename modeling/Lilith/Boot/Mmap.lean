import Lilith.Boot.Runs

/-! The memory map of the bootloader. Its entries may overlap and come in any order: an address is reserved if one of the
entries says so, and otherwise free if it is in an entry at all. -/
namespace Lilith.Boot

structure MultibootMmapEntry where
  addr : ℕ
  len : ℕ
  memType : ℕ
  deriving DecidableEq, Repr

def MultibootMmapEntry.isUsable (self : MultibootMmapEntry) : Bool :=
  match self.memType with
  | 1 => true
  | _ => false

namespace BootAlloc

/-- What `init` makes of the type of an address that is in an entry. -/
def mmapType (span : MultibootMmapEntry) (s : Option SpanType) : SpanType :=
  if span.isUsable then s.getD .free else .reserved

/-- The loop of `init` over the entries of the memory map. -/
def addMmaps (self : BootAlloc) (mmaps : List MultibootMmapEntry) : Except Fault BootAlloc :=
  mmaps.foldlM (fun self span => self.update span.addr span.len fun s => .ok (mmapType span s)) self

end BootAlloc

/-- The address is in the entry. -/
def MultibootMmapEntry.Covers (e : MultibootMmapEntry) (p : ℕ) : Prop := e.addr ≤ p ∧ p < e.addr + e.len

instance (e : MultibootMmapEntry) (p : ℕ) : Decidable (e.Covers p) := inferInstanceAs (Decidable (_ ∧ _))

/-- The type of an address in a memory map. -/
def classify (mmaps : List MultibootMmapEntry) (p : ℕ) : Option SpanType :=
  if ∃ e ∈ mmaps, e.isUsable = false ∧ e.Covers p then some .reserved
  else if ∃ e ∈ mmaps, e.isUsable = true ∧ e.Covers p then some .free
  else none

open Theory PtrGraph CTree Rbtree

variable {n : ℕ} {b : BootAlloc} {mmaps order : List MultibootMmapEntry}

/-- The type of an address does not depend on the order of the entries. -/
lemma classify_perm (h : order.Perm mmaps) (p : ℕ) : classify order p = classify mmaps p := by
  unfold classify
  simp only [h.mem_iff]

/-- One more entry. -/
lemma classify_append (mmaps : List MultibootMmapEntry) (e : MultibootMmapEntry) (p : ℕ) :
    classify (mmaps ++ [e]) p =
      if e.Covers p then some (BootAlloc.mmapType e (classify mmaps p)) else classify mmaps p := by
  have hex : ∀ u, (∃ e' ∈ mmaps ++ [e], e'.isUsable = u ∧ e'.Covers p) ↔
      (∃ e' ∈ mmaps, e'.isUsable = u ∧ e'.Covers p) ∨ e.isUsable = u ∧ e.Covers p := fun u => by
    simp only [List.mem_append, List.mem_singleton, or_and_right, exists_or, exists_eq_left]
  unfold classify
  simp only [hex]
  by_cases hc : e.Covers p
  · cases hu : e.isUsable with
    | false => simp [hc, BootAlloc.mmapType, hu]
    | true =>
      simp only [hc, BootAlloc.mmapType, hu]
      split_ifs <;> simp_all
  · simp [hc]

/-- The addresses where entries start or end. -/
def edges (mmaps : List MultibootMmapEntry) : List ℕ := mmaps.flatMap fun e => [e.addr,e.addr+e.len]

lemma length_edges (mmaps : List MultibootMmapEntry) : (edges mmaps).length = 2 * mmaps.length := by
  induction mmaps with
  | nil => rfl
  | cons e mmaps ih =>
    rw [edges, List.flatMap_cons, List.length_append, List.length_cons]
    rw [edges] at ih
    rw [ih]
    simp only [List.length_cons, List.length_nil]
    omega

lemma not_crowded (h : 2 * mmaps.length ≤ n) : ¬Crowded n {a | a ∈ edges mmaps} := by
  intro ⟨F,hF,hn⟩
  have hsub : F ⊆ (edges mmaps).toFinset := fun a ha => List.mem_toFinset.mpr (hF a ha)
  have h1 := Finset.card_le_card hsub
  have h2 := List.toFinset_card_le (edges mmaps)
  rw [length_edges] at h2
  omega

/-- The loop over the entries of a part of a memory map, starting with a new allocator. -/
lemma addMmaps_ok (E : Set ℕ) (order : List MultibootMmapEntry) (hend : ∀ e ∈ order, e.addr + e.len < 2^64)
    (hE : ∀ e ∈ order, e.addr ∈ E ∧ e.addr + e.len ∈ E) :
    Outcome ((BootAlloc.new n).addMmaps order) (fun e => e = BootAlloc.ranOut ∧ Crowded n E) fun b =>
      ∃ t fl, Valid n b t fl [] ∧ Cut E t ∧ ∀ p, denote view t p = classify order p := by
  induction order using List.reverseRecOn with
  | nil =>
    refine Outcome.of_eq rfl ⟨leaf,_,valid_new n,fun x hx => ?_,fun p => ?_⟩
    · simp [values] at hx
    · simp [classify, denote, values, SpanView.lookup]
  | append_singleton order e ih =>
    have he : e ∈ order ++ [e] := by simp
    have ih := ih (fun e' he' => hend e' (by simp [he'])) fun e' he' => hE e' (by simp [he'])
    rw [BootAlloc.addMmaps, List.foldlM_append]
    refine ih.bind fun b hb => ?_
    obtain ⟨t,fl,hv,hcut,hm⟩ := hb
    simp only [List.foldlM_cons, List.foldlM_nil, bind_pure]
    refine (hv.update hcut (hE e he).1 (hE e he).2 (hend e he)).mono (fun f hf => ?_) fun b' hb' => ?_
    · rcases hf with hf | ⟨p,_,_,hp⟩
      · exact hf
      · simp at hp
    · obtain ⟨t',fl',hv',hcut',hu⟩ := hb'
      refine ⟨t',fl',hv',hcut',fun p => ?_⟩
      rw [classify_append, ← hm]
      split_ifs with hc
      · obtain ⟨w,hw,hd⟩ := hu.inside p hc.1 hc.2
        rw [hd, ← Except.ok.inj hw]
      · apply hu.outside
        unfold MultibootMmapEntry.Covers at hc
        omega

/-- Whatever the order of the entries of a memory map is, two slots for each entry are enough for the loop of `init` over
them, and afterwards an address is reserved if an entry that is not usable covers it, otherwise free if a usable entry
does, and otherwise in no span. -/
theorem addMmaps_classify (hperm : order.Perm mmaps) (hend : ∀ e ∈ mmaps, e.addr + e.len < 2^64) :
    (2 * mmaps.length ≤ n → ∃ b, (BootAlloc.new n).addMmaps order = .ok b) ∧
    ∀ b, (BootAlloc.new n).addMmaps order = .ok b →
      ∃ t fl, Valid n b t fl [] ∧ ∀ p, denote view t p = classify mmaps p := by
  have hedges : ∀ e ∈ order, e.addr ∈ edges mmaps ∧ e.addr + e.len ∈ edges mmaps := fun e he => by
    have he := hperm.mem_iff.mp he
    exact ⟨List.mem_flatMap.mpr ⟨e,he,by simp⟩,List.mem_flatMap.mpr ⟨e,he,by simp⟩⟩
  have hout := @addMmaps_ok n {a | a ∈ edges mmaps} order (fun e he => hend e (hperm.mem_iff.mp he)) hedges
  constructor
  · intro hslots
    cases hrun : (BootAlloc.new n).addMmaps order with
    | ok b => exact ⟨b,rfl⟩
    | error e =>
      rw [hrun] at hout
      exact absurd hout.2 (not_crowded hslots)
  · intro b hrun
    obtain ⟨t,fl,hv,_,hm⟩ := hout.result hrun
    exact ⟨t,fl,hv,fun p => by rw [hm, classify_perm hperm]⟩

/-- Two entries that overlap, in the other order. -/
theorem addMmaps_classify_two : ∃ b t fl, (BootAlloc.new 4).addMmaps [⟨4096,8192,2⟩,⟨0,8192,1⟩] = .ok b ∧
    Valid 4 b t fl [] ∧ ∀ p, denote view t p = classify [⟨0,8192,1⟩,⟨4096,8192,2⟩] p := by
  obtain ⟨h1,h2⟩ := @addMmaps_classify 4 [⟨0,8192,1⟩,⟨4096,8192,2⟩] [⟨4096,8192,2⟩,⟨0,8192,1⟩]
    (List.Perm.swap _ _ _) (by decide)
  obtain ⟨b,hb⟩ := h1 (by decide)
  obtain ⟨t,fl,h3,h4⟩ := h2 b hb
  exact ⟨b,t,fl,hb,h3,h4⟩

example : classify [⟨0,8192,1⟩,⟨4096,8192,2⟩] 5000 = some .reserved := by decide

end Lilith.Boot
