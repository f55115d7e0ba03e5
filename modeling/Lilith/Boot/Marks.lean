import Lilith.Boot.Multiboot

/-! How `init` fills the boot allocator (`bootstrap.rs`): the memory map, and then what is at known addresses. Reserved memory
stays reserved, and otherwise the last mark counts. -/
namespace Lilith.Boot

/-- The addresses that the linker chooses. -/
structure KernelSymbols where
  textStartPhys : ℕ
  bssEndPhys : ℕ
  reclaimableStartPhys : ℕ
  reclaimableEndPhys : ℕ

/-- the length of `SPANS` -/
def SPANS : ℕ := 128

section Init
variable (mem : Memory) (sym : KernelSymbols)

def markString (self : BootAlloc) (addr : ℕ) : Except Fault BootAlloc := do
  self.markReclaimable addr ((← stringLen mem addr) + 1)

def markModule (self : BootAlloc) (m : MultibootModuleRaw) : Except Fault BootAlloc := do
  let self ← self.markUsed m.modStart (← checkedSub m.modEnd m.modStart)
  markString mem self m.name

def markModules (self : BootAlloc) (info : MultibootInfoRaw) : Except Fault BootAlloc :=
  if info.flags &&& 1 <<< 3 = 0 then .ok self
  else do
    let self ← self.markReclaimable info.modsAddr (info.modsCount * 16)
    (info.modules mem).foldlM (markModule mem) self

def markCmdline (self : BootAlloc) (info : MultibootInfoRaw) : Except Fault BootAlloc :=
  if info.flags &&& 1 <<< 2 ≠ 0 then markString mem self info.cmdline else .ok self

/-- The marks of `init` that are always made. -/
def markKernel (self : BootAlloc) (infoAddr : ℕ) (info : MultibootInfoRaw) : Except Fault BootAlloc := do
  let self ← self.markReserved 0 4096
  let self ← self.markUsed sym.textStartPhys (← checkedSub sym.bssEndPhys sym.textStartPhys)
  let self ← self.markReclaimable infoAddr MULTIBOOT_INFO_SIZE
  let self ← self.markReclaimable info.mmapAddr info.mmapLength
  self.markReclaimable sym.reclaimableStartPhys (← checkedSub sym.reclaimableEndPhys sym.reclaimableStartPhys)

/-- `init` up to the first allocation. The slots of the allocator are not in the memory that it reads. -/
def fillBootAlloc (infoAddr : ℕ) : Except Fault BootAlloc := do
  let _ ← physToVirt infoAddr
  let info := readInfo mem infoAddr
  let iter ← info.mmaps
  let self ← mmapLoop mem (info.mmapLength + 1) (.new SPANS) iter
  let self ← markCmdline mem self info
  let self ← markKernel sym self infoAddr info
  markModules mem self info

end Init

/-- An update of the types of a range. -/
structure Edit where
  start : ℕ
  len : ℕ
  updateFn : Option SpanType → SpanType

namespace Edit

def Covers (e : Edit) (p : ℕ) : Prop := e.start ≤ p ∧ p < e.start + e.len

instance (e : Edit) (p : ℕ) : Decidable (e.Covers p) := inferInstanceAs (Decidable (_ ∧ _))

/-- The types after the update. -/
def apply (m : ℕ → Option SpanType) (e : Edit) (p : ℕ) : Option SpanType :=
  if e.Covers p then some (e.updateFn (m p)) else m p

/-- The edit of an entry of the memory map. -/
def ofMmap (e : MultibootMmapEntry) : Edit := ⟨e.addr,e.len,BootAlloc.mmapType e⟩

end Edit

/-- A range that becomes reserved, or in use or reclaimable unless it is reserved. -/
structure Mark where
  spanType : SpanType
  start : ℕ
  len : ℕ

namespace Mark

def Covers (m : Mark) (p : ℕ) : Prop := m.start ≤ p ∧ p < m.start + m.len

instance (m : Mark) (p : ℕ) : Decidable (m.Covers p) := inferInstanceAs (Decidable (_ ∧ _))

def updateFn (m : Mark) (s : Option SpanType) : SpanType :=
  match m.spanType with
  | .reserved => .reserved
  | ty => BootAlloc.unlessReserved ty s

def edit (m : Mark) : Edit := ⟨m.start,m.len,m.updateFn⟩

end Mark

def BootAlloc.edit (self : BootAlloc) (e : Edit) : Except Fault BootAlloc :=
  self.update e.start e.len fun s => .ok (e.updateFn s)

/-- The entries of the memory map. -/
def Mmaps (mem : Memory) (infoAddr : ℕ) (es : List MultibootMmapEntry) : Prop :=
  let info := readInfo mem infoAddr
  MultibootMmapIter.Yields mem ⟨info.mmapAddr,info.mmapAddr + info.mmapLength⟩ es

/-- The length of a string that ends. -/
def lenOf (mem : Memory) (addr : ℕ) : ℕ :=
  match stringLen mem addr with
  | .ok len => len
  | .error _ => 0

section Marks
variable (mem : Memory) (sym : KernelSymbols) (infoAddr : ℕ)

def stringMark (addr : ℕ) : Mark := ⟨.reclaimable,addr,lenOf mem addr + 1⟩

def moduleMarks (m : MultibootModuleRaw) : List (Mark) :=
  [⟨.inUse,m.modStart,m.modEnd - m.modStart⟩,stringMark mem m.name]

def kernelMarks (info : MultibootInfoRaw) : List (Mark) :=
  [⟨.reserved,0,4096⟩,
   ⟨.inUse,sym.textStartPhys,sym.bssEndPhys - sym.textStartPhys⟩,
   ⟨.reclaimable,infoAddr,MULTIBOOT_INFO_SIZE⟩,
   ⟨.reclaimable,info.mmapAddr,info.mmapLength⟩,
   ⟨.reclaimable,sym.reclaimableStartPhys,sym.reclaimableEndPhys - sym.reclaimableStartPhys⟩]

/-- The marks of `init` in their order. -/
def bootMarks : List (Mark) :=
  let info := readInfo mem infoAddr
  (if info.flags &&& 1 <<< 2 ≠ 0 then [stringMark mem info.cmdline] else []) ++ kernelMarks sym infoAddr info ++
    if info.flags &&& 1 <<< 3 = 0 then []
    else ⟨.reclaimable,info.modsAddr,info.modsCount * 16⟩::(info.modules mem).flatMap (moduleMarks mem)

/-- The updates of `init`. -/
def bootEdits (es : List MultibootMmapEntry) : List Edit :=
  es.map Edit.ofMmap ++ (bootMarks mem sym infoAddr).map Mark.edit

end Marks

open Theory PtrGraph CTree Rbtree

variable {mem : Memory} {sym : KernelSymbols} {infoAddr n addr len p : ℕ} {b b' : BootAlloc} {t : CTree (ℕ × Span)} {fl : List ℕ}
  {E : Set ℕ} {e : Edit} {xs : List Edit} {es : List MultibootMmapEntry} {info : MultibootInfoRaw}
  {m : ℕ → Option SpanType} {marks : List (Mark)}

section Edits

/-- An edit changes the types as it should, unless there is no slot. -/
lemma Valid.edit (h : Valid n b t fl []) (hcut : Cut E t) (ha : e.start ∈ E) (he : e.start + e.len ∈ E)
    (hend : e.start + e.len < 2^64) : Outcome (b.edit e) (fun f => f = BootAlloc.ranOut ∧ Crowded n E) fun b' =>
      ∃ t' fl', Valid n b' t' fl' [] ∧ Cut E t' ∧ denote view t' = e.apply (denote view t) := by
  refine (h.update hcut ha he hend).mono (fun f hf => ?_) fun b' hb' => ?_
  · rcases hf with hf | ⟨p,_,_,hp⟩
    · exact hf
    · cases hp
  · obtain ⟨t',fl',hv',hcut',hu⟩ := hb'
    refine ⟨t',fl',hv',hcut',?_⟩
    funext p
    rw [Edit.apply]
    split_ifs with hc
    · obtain ⟨w,hw,hd⟩ := hu.inside p hc.1 hc.2
      rw [hd, ← Except.ok.inj hw]
    · apply hu.outside
      unfold Edit.Covers at hc
      omega

lemma Valid.edits (edits : List Edit) (h : Valid n b t fl []) (hcut : Cut E t)
    (hE : ∀ e ∈ edits, e.start ∈ E ∧ e.start + e.len ∈ E ∧ e.start + e.len < 2^64) :
    Outcome (edits.foldlM BootAlloc.edit b) (fun f => f = BootAlloc.ranOut ∧ Crowded n E) fun b' =>
      ∃ t' fl', Valid n b' t' fl' [] ∧ Cut E t' ∧ denote view t' = edits.foldl Edit.apply (denote view t) := by
  induction edits generalizing b t fl with
  | nil => exact Outcome.of_eq rfl ⟨t,fl,h,hcut,rfl⟩
  | cons e edits ih =>
    obtain ⟨h1,h2,h3⟩ := hE e List.mem_cons_self
    rw [List.foldlM_cons]
    refine (h.edit hcut h1 h2 h3).bind fun b1 hb1 => ?_
    obtain ⟨t1,fl1,hv1,hcut1,hd1⟩ := hb1
    rw [List.foldl_cons, ← hd1]
    exact ih hv1 hcut1 fun e' he' => hE e' (List.mem_cons_of_mem _ he')

/-- Edits that return do not overflow. -/
lemma edits_bounds (h : xs.foldlM BootAlloc.edit b = .ok b') : ∀ e ∈ xs, e.start + e.len < 2^64 := by
  induction xs generalizing b with
  | nil => simp
  | cons e xs ih =>
    rw [List.foldlM_cons] at h
    obtain ⟨b1,h1,h2⟩ := bind_ok h
    obtain ⟨_,hadd,_⟩ := bind_ok h1
    intro e' he'
    rcases List.mem_cons.mp he' with rfl | he'
    · exact (checkedAdd_ok hadd).2
    · exact ih h2 e' he'

lemma addMmaps_eq (b : BootAlloc) (es : List MultibootMmapEntry) :
    b.addMmaps es = (es.map Edit.ofMmap).foldlM BootAlloc.edit b := by
  rw [BootAlloc.addMmaps, List.foldlM_map]
  rfl

end Edits

section Order

/-- A mark as an update. -/
def BootAlloc.mark (self : BootAlloc) (m : Mark) : Except Fault BootAlloc := self.edit m.edit

lemma marks_eq (b : BootAlloc) (marks : List Mark) : marks.foldlM BootAlloc.mark b = (marks.map Mark.edit).foldlM BootAlloc.edit b := by
  rw [List.foldlM_map]
  rfl

lemma markString_eq (hs : (stringLen mem addr).isOk) : markString mem b addr = b.mark (stringMark mem addr) := by
  unfold markString stringMark lenOf
  cases h : stringLen mem addr with
  | error e =>
    rw [h] at hs
    cases hs
  | ok n => rfl

/-- The strings end, and no range ends before it starts. -/
structure BootData (mem : Memory) (sym : KernelSymbols) (infoAddr : ℕ) : Prop where
  info : infoAddr < PHYSICAL_MEMORY_MAX_SIZE
  mmap : (readInfo mem infoAddr).flags &&& 1 <<< 6 ≠ 0
  text : sym.textStartPhys ≤ sym.bssEndPhys
  reclaimable : sym.reclaimableStartPhys ≤ sym.reclaimableEndPhys
  cmdline : (readInfo mem infoAddr).flags &&& 1 <<< 2 ≠ 0 → (stringLen mem (readInfo mem infoAddr).cmdline).isOk
  modules : (readInfo mem infoAddr).flags &&& 1 <<< 3 ≠ 0 → ∀ m ∈ (readInfo mem infoAddr).modules mem,
    m.modStart ≤ m.modEnd ∧ (stringLen mem m.name).isOk

lemma markModules_eq (hmods : info.flags &&& 1 <<< 3 ≠ 0 → ∀ m ∈ info.modules mem, m.modStart ≤ m.modEnd ∧ (stringLen mem m.name).isOk) :
    markModules mem b info = (if info.flags &&& 1 <<< 3 = 0 then []
      else ⟨.reclaimable,info.modsAddr,info.modsCount * 16⟩::(info.modules mem).flatMap (moduleMarks mem)).foldlM BootAlloc.mark b := by
  unfold markModules
  split_ifs with hflag
  · rfl
  · have hmods := hmods hflag
    rw [List.foldlM_cons]
    change b.mark ⟨.reclaimable,info.modsAddr,info.modsCount * 16⟩ >>= _ = _
    refine congrArg _ (funext fun b1 => ?_)
    obtain ⟨ms,hms⟩ : ∃ ms, ms = info.modules mem := ⟨_,rfl⟩
    rw [← hms] at hmods ⊢
    clear hms
    induction ms generalizing b1 with
    | nil => rfl
    | cons m ms ih =>
      obtain ⟨hle,hs⟩ := hmods m List.mem_cons_self
      have hmodule : markModule mem b1 m = (moduleMarks mem m).foldlM BootAlloc.mark b1 := by
        simp only [markModule, checkedSub_of_le hle, markString_eq hs, moduleMarks, List.foldlM_cons, List.foldlM_nil, bind_pure]
        rfl
      rw [List.foldlM_cons, List.flatMap_cons, List.foldlM_append, hmodule]
      exact congrArg _ (funext fun b2 => ih b2 fun m' hm' => hmods m' (List.mem_cons_of_mem _ hm'))

/-- `init` adds the entries of the memory map, and then makes its marks in their order. -/
lemma fillBootAlloc_eq (hd : BootData mem sym infoAddr)
    (hes : Mmaps mem infoAddr es) :
    fillBootAlloc mem sym infoAddr = (bootEdits mem sym infoAddr es).foldlM BootAlloc.edit (BootAlloc.new SPANS) := by
  have hlen := MultibootMmapIter.Yields.length_le hes
  simp only at hlen
  obtain ⟨info,hinfo⟩ : ∃ info, info = readInfo mem infoAddr := ⟨_,rfl⟩
  obtain ⟨virt,hvirt⟩ : ∃ virt, physToVirt infoAddr = .ok virt := ⟨_,physToVirt_of_lt hd.info⟩
  have hmmaps : info.mmaps = .ok ⟨info.mmapAddr,info.mmapAddr + info.mmapLength⟩ := by
    rw [MultibootInfoRaw.mmaps, hinfo, assert_of hd.mmap]
    rfl
  have hloop := @mmapLoop_of_yields mem _ es (BootAlloc.new SPANS) ((readInfo mem infoAddr).mmapLength + 1) hes (by omega)
  have hstring : info.flags &&& 1 <<< 2 ≠ 0 → (stringLen mem info.cmdline).isOk := by
    rw [hinfo]
    exact hd.cmdline
  have hcmdline : ∀ b, markCmdline mem b info =
      (if info.flags &&& 1 <<< 2 ≠ 0 then [stringMark mem info.cmdline] else []).foldlM BootAlloc.mark b := by
    intro b
    unfold markCmdline
    split_ifs with hflag
    · simp only [List.foldlM_cons, List.foldlM_nil, bind_pure]
      exact markString_eq (hstring hflag)
    · rfl
  have hkernel : ∀ b, markKernel sym b infoAddr info = (kernelMarks sym infoAddr info).foldlM BootAlloc.mark b := by
    intro b
    simp only [markKernel, checkedSub_of_le hd.text, checkedSub_of_le hd.reclaimable, kernelMarks, List.foldlM_cons,
      List.foldlM_nil, bind_pure]
    rfl
  have hmods : ∀ b, markModules mem b info = _ := fun b => @markModules_eq mem b info (hinfo ▸ hd.modules)
  rw [bootEdits, List.foldlM_append, ← addMmaps_eq, ← hloop, fillBootAlloc, hvirt, bootMarks]
  simp only [← hinfo, ← marks_eq, List.foldlM_append, ← hcmdline, ← hkernel, ← hmods, hmmaps, bind_assoc]
  rfl

/-- What `init` returned from was as it should be. -/
lemma fillBootAlloc_ok (h : fillBootAlloc mem sym infoAddr = .ok b) : BootData mem sym infoAddr ∧ ∃ es, Mmaps mem infoAddr es := by
  obtain ⟨_,hvirt,h⟩ := bind_ok h
  obtain ⟨iter,hiter,h⟩ := bind_ok h
  obtain ⟨b1,hloop,h⟩ := bind_ok h
  obtain ⟨b2,hcmdline,h⟩ := bind_ok h
  obtain ⟨b3,hkernel,hmods⟩ := bind_ok h
  obtain ⟨_,hflag,hiter⟩ := bind_ok hiter
  obtain rfl := Except.ok.inj hiter
  obtain ⟨es,hes,_⟩ := mmapLoop_ok hloop
  have hstring : ∀ {b b' addr}, markString mem b addr = .ok b' → (stringLen mem addr).isOk := by
    intro b b' addr h
    obtain ⟨len,hlen,_⟩ := bind_ok h
    rw [hlen]
    rfl
  obtain ⟨b4,_,hkernel⟩ := bind_ok hkernel
  obtain ⟨len,htext,hkernel⟩ := bind_ok hkernel
  obtain ⟨b5,_,hkernel⟩ := bind_ok hkernel
  obtain ⟨b6,_,hkernel⟩ := bind_ok hkernel
  obtain ⟨b7,_,hkernel⟩ := bind_ok hkernel
  obtain ⟨len',hrecl,_⟩ := bind_ok hkernel
  refine ⟨⟨(physToVirt_ok hvirt).1,assert_ok hflag,(checkedSub_ok htext).2,(checkedSub_ok hrecl).2,fun hf => ?_,fun hf => ?_⟩,es,hes⟩
  · rw [markCmdline, if_pos hf] at hcmdline
    exact hstring hcmdline
  · rw [markModules, if_neg hf] at hmods
    obtain ⟨b8,hfirst,hmods⟩ := bind_ok hmods
    clear hfirst
    obtain ⟨ms,hms⟩ : ∃ ms, ms = (readInfo mem infoAddr).modules mem := ⟨_,rfl⟩
    rw [← hms] at hmods ⊢
    clear hms
    induction ms generalizing b8 with
    | nil => simp
    | cons m ms ih =>
      rw [List.foldlM_cons] at hmods
      obtain ⟨b9,hm,hmods⟩ := bind_ok hmods
      obtain ⟨len,hlen,hm⟩ := bind_ok hm
      obtain ⟨b10,_,hm⟩ := bind_ok hm
      intro m' hm'
      rcases List.mem_cons.mp hm' with rfl | hm'
      · exact ⟨(checkedSub_ok hlen).2,hstring hm⟩
      · exact ih b9 hmods m' hm'

end Order

section Types

/-- The last mark that covers an address. -/
def lastMark (marks : List Mark) (p : ℕ) : Option Mark := marks.reverse.find? fun m => m.Covers p

/-- The first page, and what the firmware keeps. -/
def Firmware (es : List MultibootMmapEntry) (p : ℕ) : Prop := p < 4096 ∨ ∃ e ∈ es, e.isUsable = false ∧ e.Covers p

instance (es : List MultibootMmapEntry) (p : ℕ) : Decidable (Firmware es p) := inferInstanceAs (Decidable (_ ∨ _))

/-- The type of an address at the end of `init`: it is reserved if it is of the firmware, and otherwise the last mark counts, or
the memory map where there is none. -/
def bootType (mem : Memory) (sym : KernelSymbols) (infoAddr : ℕ) (es : List MultibootMmapEntry) (p : ℕ) : Option SpanType :=
  if Firmware es p then some .reserved
  else match lastMark (bootMarks mem sym infoAddr) p with
    | some m => some m.spanType
    | none => classify es p

/-- The entries of the memory map as updates. -/
lemma apply_mmaps (es : List MultibootMmapEntry) : (es.map Edit.ofMmap).foldl Edit.apply (fun _ => none) = classify es := by
  induction es using List.reverseRecOn with
  | nil =>
    funext p
    simp [classify]
  | append_singleton es e ih =>
    funext p
    rw [List.map_append, List.foldl_append, ih, classify_append]
    rfl

/-- Marks keep reserved memory reserved, and otherwise the last one counts. -/
lemma apply_marks (marks : List Mark) (m : ℕ → Option SpanType) (p : ℕ) : (marks.map Mark.edit).foldl Edit.apply m p =
    if m p = some .reserved ∨ ∃ mark ∈ marks, mark.spanType = .reserved ∧ mark.Covers p then some .reserved
    else match lastMark marks p with
      | some mark => some mark.spanType
      | none => m p := by
  induction marks using List.reverseRecOn with
  | nil => by_cases h : m p = some .reserved <;> simp [lastMark, h]
  | append_singleton marks x ih =>
    have hlast : lastMark (marks ++ [x]) p = if x.Covers p then some x else lastMark marks p := by
      by_cases hc : x.Covers p <;> simp [lastMark, hc]
    have hex : (∃ mark ∈ marks ++ [x], mark.spanType = .reserved ∧ mark.Covers p) ↔
        (∃ mark ∈ marks, mark.spanType = .reserved ∧ mark.Covers p) ∨ x.spanType = .reserved ∧ x.Covers p := by
      simp only [List.mem_append, List.mem_singleton, or_and_right, exists_or, exists_eq_left]
    rw [List.map_append, List.foldl_append, hlast]
    simp only [hex]
    change Edit.apply ((marks.map Mark.edit).foldl Edit.apply m) x.edit p = _
    rw [Edit.apply, ih]
    by_cases hc : x.Covers p
    · have hc' : x.edit.Covers p := hc
      -- the type before the mark
      obtain ⟨prev,hprev⟩ : ∃ prev, prev = match lastMark marks p with
        | some mark => some mark.spanType
        | none => m p := ⟨_,rfl⟩
      rw [← hprev, if_pos hc', if_pos hc]
      by_cases hr : m p = some .reserved ∨ ∃ mark ∈ marks, mark.spanType = .reserved ∧ mark.Covers p
      · have hr' : m p = some .reserved ∨ (∃ mark ∈ marks, mark.spanType = .reserved ∧ mark.Covers p) ∨
            x.spanType = .reserved ∧ x.Covers p := hr.imp_right Or.inl
        rw [if_pos hr, if_pos hr']
        change some (x.updateFn _) = _
        unfold Mark.updateFn
        split
        · rfl
        · rfl
      · have hne : prev ≠ some .reserved := by
          rw [hprev]
          cases hl : lastMark marks p with
          | none => exact fun he => hr (Or.inl he)
          | some mark =>
            refine fun he => hr (Or.inr ⟨mark,?_,Option.some.inj he,?_⟩)
            · exact List.mem_reverse.mp (List.mem_of_find?_eq_some hl)
            · simpa using List.find?_some hl
        rw [if_neg hr]
        change some (x.updateFn prev) = _
        unfold Mark.updateFn
        cases hty : x.spanType with
        | reserved => simp [hc]
        | _ =>
          have hunless : ∀ ty, BootAlloc.unlessReserved ty prev = ty := by
            intro ty
            unfold BootAlloc.unlessReserved
            split
            · exact absurd rfl hne
            · rfl
          have hr' : ¬ (m p = some .reserved ∨ (∃ mark ∈ marks, mark.spanType = .reserved ∧ mark.Covers p) ∨
              x.spanType = .reserved ∧ x.Covers p) := by simpa [hty, or_assoc] using hr
          rw [hty] at hr'
          rw [if_neg hr']
          simp only [hunless, hty]
    · have hc' : ¬ x.edit.Covers p := hc
      simp [hc, hc']

/-- The types of the marks: only the first page becomes reserved. -/
lemma mem_bootMarks {mark : Mark} (h : mark ∈ bootMarks mem sym infoAddr) :
    mark.spanType = .inUse ∨ mark.spanType = .reclaimable ∨ mark = ⟨.reserved,0,4096⟩ := by
  simp only [bootMarks, kernelMarks, List.mem_append, List.mem_cons, List.not_mem_nil, or_false] at h
  rcases h with (h | rfl | rfl | rfl | rfl | rfl) | h
  · split_ifs at h with hf
    · rw [List.mem_singleton.mp h]
      exact Or.inr (Or.inl rfl)
    · cases h
  · exact Or.inr (Or.inr rfl)
  · exact Or.inl rfl
  · exact Or.inr (Or.inl rfl)
  · exact Or.inr (Or.inl rfl)
  · exact Or.inr (Or.inl rfl)
  · split_ifs at h with hf
    · cases h
    · rcases List.mem_cons.mp h with rfl | h
      · exact Or.inr (Or.inl rfl)
      · obtain ⟨m,_,hm⟩ := List.mem_flatMap.mp h
        simp only [moduleMarks, List.mem_cons, List.not_mem_nil, or_false] at hm
        rcases hm with rfl | rfl
        · exact Or.inl rfl
        · exact Or.inr (Or.inl rfl)

/-- The types after the updates of `init`. -/
lemma apply_bootEdits (mem : Memory) (sym : KernelSymbols) (infoAddr : ℕ) (es : List MultibootMmapEntry) :
    (bootEdits mem sym infoAddr es).foldl Edit.apply (fun _ => none) = bootType mem sym infoAddr es := by
  funext p
  have hfirmware : (classify es p = some .reserved ∨
      ∃ mark ∈ bootMarks mem sym infoAddr, mark.spanType = .reserved ∧ mark.Covers p) ↔ Firmware es p := by
    have hclass : classify es p = some .reserved ↔ ∃ e ∈ es, e.isUsable = false ∧ e.Covers p := by
      unfold classify
      split_ifs with h1 h2 <;> simp [h1]
    rw [hclass, Firmware, or_comm]
    refine or_congr_left ⟨fun h => ?_,fun h => ?_⟩
    · obtain ⟨mark,hm,hr,hc⟩ := h
      rcases mem_bootMarks hm with hty | hty | rfl
      · cases hr.symm.trans hty
      · cases hr.symm.trans hty
      · exact hc.2.trans_eq (Nat.zero_add _)
    · exact ⟨⟨.reserved,0,4096⟩,by simp [bootMarks, kernelMarks],rfl,Nat.zero_le _,h.trans_eq (Nat.zero_add _).symm⟩
  rw [bootEdits, List.foldl_append, apply_mmaps, apply_marks, bootType]
  simp only [hfirmware]

/-- The addresses where updates start or end. -/
def editEdges (xs : List Edit) : List ℕ := xs.flatMap fun e => [e.start,e.start + e.len]

lemma not_crowded_edits (h : 2 * xs.length ≤ n) : ¬ Crowded n {a | a ∈ editEdges xs} := by
  rintro ⟨F,hF,hn⟩
  have hsub : F ⊆ (editEdges xs).toFinset := fun a ha => List.mem_toFinset.mpr (hF a ha)
  have h1 := Finset.card_le_card hsub
  have h2 := List.toFinset_card_le (editEdges xs)
  have hlen : (editEdges xs).length = 2 * xs.length := by
    unfold editEdges
    rw [List.length_flatMap]
    simp [Nat.mul_comm]
  omega

/-- `init` gives each address the type that the memory map and the marks say. It ends in that if the data of the bootloader is
as it should be, no range leaves the 64-bit addresses, and there are two slots for each range. -/
theorem fillBootAlloc_types (mem : Memory) (sym : KernelSymbols) (infoAddr : ℕ) :
    (∀ b, fillBootAlloc mem sym infoAddr = .ok b → ∃ es t fl, Mmaps mem infoAddr es ∧ Valid SPANS b t fl [] ∧
      ∀ p, denote view t p = bootType mem sym infoAddr es p) ∧
    ∀ es, BootData mem sym infoAddr → Mmaps mem infoAddr es →
      (∀ e ∈ bootEdits mem sym infoAddr es, e.start + e.len < 2^64) →
      2 * (es.length + (bootMarks mem sym infoAddr).length) ≤ SPANS → ∃ b, fillBootAlloc mem sym infoAddr = .ok b := by
  have hout : ∀ es, (∀ e ∈ bootEdits mem sym infoAddr es, e.start + e.len < 2^64) →
      Outcome ((bootEdits mem sym infoAddr es).foldlM BootAlloc.edit (BootAlloc.new SPANS))
        (fun f => f = BootAlloc.ranOut ∧ Crowded SPANS {a | a ∈ editEdges (bootEdits mem sym infoAddr es)}) fun b =>
          ∃ t fl, Valid SPANS b t fl [] ∧ ∀ p, denote view t p = bootType mem sym infoAddr es p := by
    intro es hend
    have hleaf : Cut {a | a ∈ editEdges (bootEdits mem sym infoAddr es)} leaf := fun x hx => by
      simp [values] at hx
    refine ((valid_new SPANS).edits _ hleaf fun e he => ⟨?_,?_,hend e he⟩).mono (fun _ h => h) fun b hb => ?_
    · exact List.mem_flatMap.mpr ⟨e,he,by simp⟩
    · exact List.mem_flatMap.mpr ⟨e,he,by simp⟩
    · obtain ⟨t,fl,hv,_,hd⟩ := hb
      have hempty : denote view (leaf : CTree (ℕ × Span)) = fun _ => none := by
        funext p
        simp [denote, values, SpanView.lookup]
      rw [hempty, apply_bootEdits] at hd
      exact ⟨t,fl,hv,fun p => congrFun hd p⟩
  constructor
  · intro b hb
    obtain ⟨hd,es,hes⟩ := fillBootAlloc_ok hb
    rw [fillBootAlloc_eq hd hes] at hb
    obtain ⟨t,fl,hv,hp⟩ := (hout es (edits_bounds hb)).result hb
    exact ⟨es,t,fl,hes,hv,hp⟩
  · intro es hd hes hend hslots
    rw [fillBootAlloc_eq hd hes]
    cases hrun : (bootEdits mem sym infoAddr es).foldlM BootAlloc.edit (BootAlloc.new SPANS) with
    | ok b => exact ⟨b,rfl⟩
    | error f =>
      have h := hout es hend
      rw [hrun] at h
      refine absurd h.2 (not_crowded_edits ?_)
      simpa [bootEdits] using hslots

end Types
end Lilith.Boot
