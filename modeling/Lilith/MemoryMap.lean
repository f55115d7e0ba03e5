import Lilith.Theory.SpanBlocks
import Lilith.DirectMap

/-! The list of mapped regions that is printed for a page table. It has the longest regions on which addresses are
translated by one shift, to pages whose entries have one set of flags. Flags of the tables above a page are not
looked at. -/
namespace Lilith.MemoryMap
open Theory SpanView

/-- The flags of an entry, with those that the code looks at by name. -/
structure PageTableFlags where
  present : Bool
  hugePage : Bool
  accessed : Bool
  dirty : Bool
  others : ℕ
  deriving DecidableEq, Repr

structure PageTableEntry where
  addr : ℕ
  flags : PageTableFlags
  deriving DecidableEq, Repr

abbrev PageTable := Fin 512 → PageTableEntry

@[ext] structure MapRegion where
  virtStart : ℕ
  physStart : ℕ
  size : ℕ
  flags : PageTableFlags
  deriving DecidableEq, Repr

/-- The capacity of the list of regions. -/
def MAX_REGIONS : ℕ := 512

def canonicalize (addr : ℕ) : ℕ := if addr.testBit 47 then addr ||| 0xFFFF000000000000 else addr

def maskFlags (flags : PageTableFlags) : PageTableFlags := { flags with accessed := false, dirty := false }

/-- Whether a page continues a region: at the next address, to the next frame, with the same flags -/
def MapRegion.continues (last page : MapRegion) : Except Fault Bool := do
  if (← checkedAdd last.virtStart last.size) = page.virtStart then
    return decide ((← checkedAdd last.physStart last.size) = page.physStart ∧ last.flags = page.flags)
  else return false

def push (regions : List MapRegion) (page : MapRegion) : Except Fault (List MapRegion) :=
  if regions.length < MAX_REGIONS then .ok (regions ++ [page])
  else .error (.panic "called `Result::unwrap()` on an `Err` value: CapacityError: insufficient capacity")

/-- Extend the last region by a page, or start a new one. -/
def addPage (regions : List MapRegion) (page : MapRegion) : Except Fault (List MapRegion) :=
  match regions.getLast? with
  | none => push regions page
  | some last => do
    if ← last.continues page then
      return regions.dropLast ++ [{ last with size := ← checkedAdd last.size page.size }]
    else push regions page

/-- The function `collect_mappings`. The tables below an entry are read through the direct map. -/
def collectMappings (memory : ℕ → PageTable) : ℕ → PageTable → ℕ → List MapRegion → Except Fault (List MapRegion)
  | 0, _, _, regions => .ok regions
  | level+1, table, offset, regions => (List.finRange 512).foldlM (fun regions i =>
      let entry := table i
      if !entry.flags.present then return regions
      else do
        let va := canonicalize (← checkedAdd offset (i.val <<< (12 + 9*level)))
        if entry.flags.hugePage ∨ level = 0 then
          addPage regions ⟨va,entry.addr,1 <<< (12 + 9*level),maskFlags entry.flags⟩
        else do
          let _ ← checkedAdd PHYSICAL_MEMORY_OFFSET entry.addr
          collectMappings memory level (memory entry.addr) va regions) regions

/-- A line of the memory map, with the size in the largest unit that it reaches -/
structure MapLine where
  virtStart : ℕ
  virtEnd : ℕ
  physStart : ℕ
  physEnd : ℕ
  size : ℕ
  unit : String
  flags : PageTableFlags
  deriving DecidableEq, Repr

def MapRegion.line (r : MapRegion) : Except Fault MapLine := do
  let sizeLabel :=
    if 1 <<< 30 ≤ r.size then (r.size >>> 30,"GiB")
    else if 1 <<< 20 ≤ r.size then (r.size >>> 20,"MiB")
    else (r.size >>> 10,"KiB")
  return ⟨r.virtStart,← checkedAdd r.virtStart r.size,r.physStart,← checkedAdd r.physStart r.size,sizeLabel.1,sizeLabel.2,
    r.flags⟩

def printMap (memory : ℕ → PageTable) (table : PageTable) : Except Fault (List MapLine) := do
  (← collectMappings memory 4 table 0 []).mapM MapRegion.line

/-- The page of an address, level by level: the physical address of its byte, and the flags in the page's own entry, with the
bit for large pages. A large page can only be at the second or third level, and the low bits of its entry's address do
not count. -/
def walk (memory : ℕ → PageTable) : ℕ → PageTable → ℕ → Option (ℕ × PageTableFlags)
  | 0, _, _ => none
  | level+1, table, va =>
    let entry := table ⟨va / 2^(12 + 9*level) % 512,Nat.mod_lt _ (by decide)⟩
    if !entry.flags.present then none
    else if entry.flags.hugePage ∨ level = 0 then
      if level ≤ 2 then
        some (entry.addr / 2^(12 + 9*level) * 2^(12 + 9*level) + va % 2^(12 + 9*level),maskFlags entry.flags)
      else none
    else walk memory level (memory entry.addr) va

/-- Only addresses whose upper bits are copies of bit 47 are translated. -/
def translate (memory : ℕ → PageTable) (table : PageTable) (va : ℕ) : Option (ℕ × PageTableFlags) :=
  if va < 2^47 ∨ 2^64 - 2^47 ≤ va ∧ va < 2^64 then walk memory 4 table va else none

/-- The entries for pages hold the address of a frame of the page's size, and there are none at the top level; the tables are
in the direct map. -/
def Regular (memory : ℕ → PageTable) : ℕ → PageTable → Prop
  | 0, _ => True
  | level+1, table => ∀ i, (table i).flags.present →
      if (table i).flags.hugePage ∨ level = 0 then
        level ≤ 2 ∧ 2^(12 + 9*level) ∣ (table i).addr ∧ (table i).addr < 2^52
      else (table i).addr < PHYSICAL_MEMORY_MAX_SIZE ∧ Regular memory level (memory (table i).addr)

namespace MapRegion

def Covers (r : MapRegion) (va : ℕ) : Prop := r.virtStart ≤ va ∧ va < r.virtStart + r.size

instance (r : MapRegion) (va : ℕ) : Decidable (r.Covers va) := inferInstanceAs (Decidable (_ ∧ _))

end MapRegion

/-- The regions describe the translation `f`: in order, apart, none of them empty, and none of them could be
longer. -/
structure Describes (f : ℕ → Option (ℕ × PageTableFlags)) (rs : List MapRegion) : Prop where
  sorted : rs.Pairwise fun r s => r.virtStart + r.size ≤ s.virtStart
  proper : ∀ r ∈ rs, 0 < r.size
  translates : ∀ va, f va = (rs.find? (·.Covers va)).map fun r => (r.physStart + (va - r.virtStart),r.flags)
  maximal : ∀ r ∈ rs, f (r.virtStart + r.size) ≠ some (r.physStart + r.size,r.flags)

/-- A region as an interval of addresses with the distance to the frames and the flags. -/
def regionView : SpanView ℕ MapRegion (ℤ × PageTableFlags) :=
  ⟨(·.virtStart),fun r => r.virtStart + r.size,fun r => ((r.physStart : ℤ) - r.virtStart,r.flags)⟩

@[simp] theorem regionView_lo (r : MapRegion) : regionView.lo r = r.virtStart := rfl
@[simp] theorem regionView_hi (r : MapRegion) : regionView.hi r = r.virtStart + r.size := rfl
@[simp] theorem regionView_val (r : MapRegion) : regionView.val r = ((r.physStart : ℤ) - r.virtStart,r.flags) := rfl

/-- The region of two, where the second continues the first. -/
def glue (x y : MapRegion) : Option MapRegion :=
  if x.virtStart + x.size = y.virtStart ∧ x.physStart + x.size = y.physStart ∧ x.flags = y.flags then
    some { x with size := x.size + y.size }
  else none

lemma glue_some {x y z : MapRegion} : glue x y = some z ↔ (x.virtStart + x.size = y.virtStart ∧
    x.physStart + x.size = y.physStart ∧ x.flags = y.flags) ∧ { x with size := x.size + y.size } = z := by
  unfold glue
  split_ifs with h <;> simp [h]

lemma glues : regionView.Glues glue where
  touch {x y z} h := by
    obtain ⟨⟨h1,h2,h3⟩,_⟩ := glue_some.mp h
    refine ⟨h1,Prod.ext ?_ h3⟩
    simp only [regionView_val]
    omega
  joint {x y z} h := by
    obtain ⟨⟨h1,_,_⟩,rfl⟩ := glue_some.mp h
    refine ⟨rfl,?_,rfl⟩
    simp only [regionView_hi]
    omega
  apart {x y} h hhi hval := by
    simp only [regionView_hi, regionView_lo, regionView_val, Prod.mk.injEq] at hhi hval
    have hsome := glue_some.mpr ⟨⟨hhi,by omega,hval.2⟩,rfl⟩
    rw [h] at hsome
    simp at hsome

/-! Collecting the pages. -/

/-- A region inside of the address space and the physical memory. -/
def Bounded (r : MapRegion) : Prop := r.virtStart + r.size ≤ 2^64 ∧ r.physStart + r.size ≤ 2^52

lemma bounded_glue {x y z : MapRegion} (hy : Bounded y) (h : glue x y = some z) : Bounded z := by
  obtain ⟨⟨h1,h2,_⟩,rfl⟩ := glue_some.mp h
  unfold Bounded at *
  dsimp only
  omega

lemma bounded_glueLast {regions : List MapRegion} {page : MapRegion} (hb : ∀ r ∈ regions ++ [page], Bounded r) :
    ∀ r ∈ glueLast glue regions page, Bounded r := by
  intro r hr
  rcases regions.eq_nil_or_concat with rfl | ⟨xs,last,rfl⟩
  · exact hb r hr
  · rw [List.concat_eq_append] at *
    rw [glueLast_concat] at hr
    cases hg : glue last page with
    | none =>
      rw [hg] at hr
      exact hb r (by simpa using hr)
    | some z =>
      rw [hg] at hr
      rcases List.mem_append.mp hr with hr | hr
      · exact hb r (by simp [hr])
      · obtain rfl : r = z := by simpa using hr
        exact bounded_glue (hb page (by simp)) hg

/-- `result`, unless the list has no room for it -/
def capped (result : List MapRegion) : Except Fault (List MapRegion) :=
  if result.length ≤ MAX_REGIONS then .ok result
  else .error (.panic "called `Result::unwrap()` on an `Err` value: CapacityError: insufficient capacity")

lemma push_eq (regions : List MapRegion) (page : MapRegion) : push regions page = capped (regions ++ [page]) := by
  simp only [push, capped, List.length_append, List.length_singleton, Nat.succ_le_iff]

lemma continues_eq {last page : MapRegion} (hl : Bounded last) (hp : last.virtStart + last.size < 2^64) :
    last.continues page = .ok (glue last page).isSome := by
  have hphys : last.physStart + last.size < 2^64 := by
    unfold Bounded at hl
    omega
  simp only [MapRegion.continues, checkedAdd_of_lt hp, checkedAdd_of_lt hphys, bind, Except.bind, glue]
  by_cases h1 : last.virtStart + last.size = page.virtStart
  · by_cases h2 : last.physStart + last.size = page.physStart ∧ last.flags = page.flags
    · simp [h1, h2, pure, Except.pure]
    · simp [h1, h2, pure, Except.pure]
  · simp [h1, pure, Except.pure]

lemma addPage_eq {regions : List MapRegion} {page : MapRegion} (hlen : regions.length ≤ MAX_REGIONS)
    (hwf : regionView.WF (regions ++ [page])) (hb : ∀ r ∈ regions ++ [page], Bounded r) :
    addPage regions page = capped (glueLast glue regions page) := by
  rcases regions.eq_nil_or_concat with rfl | ⟨xs,last,rfl⟩
  · rfl
  · rw [List.concat_eq_append] at *
    have hlast := hb last (by simp)
    have hpage := hb page (by simp)
    have hsize := hwf.proper page (by simp)
    have hnext := (List.pairwise_append.mp hwf.spaced).2.2 last (by simp) page (by simp)
    simp only [regionView_lo, regionView_hi] at hnext hsize
    unfold Bounded at hlast hpage
    simp only [addPage, List.getLast?_concat, List.dropLast_concat, continues_eq hlast (by omega), bind, Except.bind]
    rw [glueLast_concat]
    cases hg : glue last page with
    | none =>
      have happend : xs ++ [last,page] = (xs ++ [last]) ++ [page] := by simp
      simp only [Option.isSome_none, Bool.false_eq_true, if_false, Option.elim_none]
      rw [push_eq, happend]
    | some z =>
      obtain ⟨⟨_,hphys,_⟩,rfl⟩ := glue_some.mp hg
      have hadd : checkedAdd last.size page.size = .ok (last.size + page.size) := checkedAdd_of_lt (by omega)
      have hroom : (xs ++ [{ last with size := last.size + page.size }]).length ≤ MAX_REGIONS := by simpa using hlen
      simp only [Option.isSome_some, if_true, hadd, Option.elim_some]
      rw [capped, if_pos hroom]
      rfl

/-- Adding pages that come in order joins them, and panics when there are too many regions. -/
theorem foldlM_addPage {pages regions : List MapRegion} (hlen : regions.length ≤ MAX_REGIONS)
    (hwf : regionView.WF (regions ++ pages)) (hb : ∀ r ∈ regions ++ pages, Bounded r) :
    pages.foldlM addPage regions = capped (pages.foldl (glueLast glue) regions) := by
  induction pages generalizing regions with
  | nil =>
    rw [List.foldlM_nil, List.foldl_nil, capped, if_pos hlen]
    rfl
  | cons page pages ih =>
    have hsplit : regions ++ page::pages = (regions ++ [page]) ++ pages := by simp
    have hwf1 : regionView.WF (regions ++ [page]) := (hsplit ▸ hwf).sublist (List.sublist_append_left _ _)
    rw [List.foldlM_cons, List.foldl_cons, addPage_eq hlen hwf1 fun r hr => hb r (hsplit ▸ List.mem_append_left pages hr), capped]
    split_ifs with hfit
    · refine ih hfit (glues.wf_glueLast hwf) fun r hr => ?_
      rcases List.mem_append.mp hr with hr | hr
      · exact bounded_glueLast (fun r hr => hb r (hsplit ▸ List.mem_append_left pages hr)) r hr
      · exact hb r (by simp [hr])
    · -- the list only gets longer
      have hlong := @length_le_foldl_glueLast _ (glueLast glue regions page) pages glue
      rw [capped, if_neg fun h => hfit (hlong.trans h)]
      rfl

/-! The pages of a table. -/

/-- The pages under an entry for the addresses from `va` on, in order. -/
def entryPages (below : PageTable → ℕ → List MapRegion) (memory : ℕ → PageTable) (level : ℕ) (entry : PageTableEntry)
    (va : ℕ) : List MapRegion :=
  if !entry.flags.present then []
  else if entry.flags.hugePage ∨ level = 0 then [⟨va,entry.addr,1 <<< (12 + 9*level),maskFlags entry.flags⟩]
  else below (memory entry.addr) va

def pages (memory : ℕ → PageTable) : ℕ → PageTable → ℕ → List MapRegion
  | 0, _, _ => []
  | level+1, table, offset => (List.finRange 512).flatMap fun i =>
      entryPages (pages memory level) memory level (table i) (canonicalize (offset + i.val <<< (12 + 9*level)))

lemma foldlM_flatMap {α β σ ε : Type} (f : α → List β) (g : σ → β → Except ε σ) (xs : List α) (s : σ) :
    (xs.flatMap f).foldlM g s = xs.foldlM (fun s x => (f x).foldlM g s) s := by
  induction xs generalizing s with
  | nil => rfl
  | cons x xs ih =>
    rw [List.flatMap_cons, List.foldlM_append, List.foldlM_cons]
    exact bind_congr fun s' => ih s'

/-- A block of addresses of the size of an entry of the level, between the ends of the canonical addresses -/
structure Block (level offset : ℕ) : Prop where
  aligned : 2^(12 + 9*level) ∣ offset
  canonical : offset + 2^(12 + 9*level) ≤ 2^47 ∨ 2^64 - 2^47 ≤ offset ∧ offset + 2^(12 + 9*level) ≤ 2^64

lemma canonicalize_low {addr : ℕ} (h : addr < 2^47) : canonicalize addr = addr := by
  have hbit : addr.testBit 47 = false := Nat.testBit_lt_two_pow h
  rw [canonicalize, hbit]
  rfl

/-- Setting the upper bits. -/
lemma or_upper {addr : ℕ} (h : addr < 2^48) : addr ||| 0xFFFF000000000000 = 2^48*0xFFFF + addr := by
  have hmask : 0xFFFF000000000000 = 2^48*0xFFFF := by norm_num
  rw [Nat.or_comm, hmask, Nat.two_pow_add_eq_or_of_lt h]

lemma canonicalize_high {addr : ℕ} (h1 : 2^47 ≤ addr) (h2 : addr < 2^48) : canonicalize addr = 2^48*0xFFFF + addr := by
  have hbit : addr.testBit 47 = true := by
    rw [Nat.testBit_eq_decide_div_mod_eq]
    simp only [decide_eq_true_eq]
    omega
  rw [canonicalize, hbit, if_pos rfl, or_upper h2]

lemma canonicalize_top {addr : ℕ} (h1 : 2^64 - 2^47 ≤ addr) (h2 : addr < 2^64) : canonicalize addr = addr := by
  obtain ⟨d,rfl⟩ : ∃ d, addr = 2^48*0xFFFF + d := Nat.exists_eq_add_of_le (by omega)
  have hd : d < 2^48 := by omega
  unfold canonicalize
  split_ifs
  · rw [← or_upper hd, Nat.or_assoc, Nat.or_self]
  · rfl

lemma Block.canonicalize_eq {level offset va : ℕ} (h : Block level offset) (h1 : offset ≤ va)
    (h2 : va < offset + 2^(12 + 9*level)) : canonicalize va = va := by
  rcases h.canonical with hc | ⟨hc,hc'⟩
  · exact canonicalize_low (h2.trans_le hc)
  · exact canonicalize_top (hc.trans h1) (h2.trans_le hc')

lemma size_succ (level : ℕ) : 2^(12 + 9*(level+1)) = 512*2^(12 + 9*level) := by
  rw [show 12 + 9*(level+1) = 9 + (12 + 9*level) by ring, pow_add]
  norm_num

/-- The block of an entry. -/
lemma Block.entry {level offset : ℕ} (h : Block (level+1) offset) (i : Fin 512) : Block level (offset + i.val*2^(12 + 9*level)) := by
  have hle : i.val*2^(12 + 9*level) + 2^(12 + 9*level) ≤ 512*2^(12 + 9*level) := by
    rw [← Nat.succ_mul]
    exact Nat.mul_le_mul_right _ i.isLt
  refine ⟨Nat.dvd_add ?_ (Nat.dvd_mul_left _ _),?_⟩
  · exact (pow_dvd_pow 2 (by omega)).trans h.aligned
  · rcases h.canonical with hc | ⟨hc,hc'⟩
    · rw [size_succ] at hc
      omega
    · rw [size_succ] at hc'
      omega

/-- The index of an address in the table for its block. -/
lemma index_eq {level offset va : ℕ} (hal : 2^(12 + 9*(level+1)) ∣ offset) (i : Fin 512)
    (h1 : offset + i.val*2^(12 + 9*level) ≤ va) (h2 : va < offset + i.val*2^(12 + 9*level) + 2^(12 + 9*level)) :
    va / 2^(12 + 9*level) % 512 = i.val := by
  obtain ⟨k,rfl⟩ := hal
  rw [size_succ] at h1 h2
  have hdiv : va / 2^(12 + 9*level) = 512*k + i.val := by
    apply Nat.div_eq_of_lt_le
    · calc (512*k + i.val)*2^(12 + 9*level) = 512*2^(12 + 9*level)*k + i.val*2^(12 + 9*level) := by ring
        _ ≤ va := h1
    · calc va < 512*2^(12 + 9*level)*k + i.val*2^(12 + 9*level) + 2^(12 + 9*level) := h2
        _ = (512*k + i.val + 1)*2^(12 + 9*level) := by ring
  have hi := i.isLt
  omega

/-- The regions are between `lo` and `hi`, and translate the addresses there as `f` does. -/
structure Lists (f : ℕ → Option (ℕ × PageTableFlags)) (lo hi : ℕ) (rs : List MapRegion) : Prop where
  wf : regionView.WF rs
  inside : ∀ r ∈ rs, lo ≤ r.virtStart ∧ r.virtStart + r.size ≤ hi ∧ r.physStart + r.size ≤ 2^52
  lookup : ∀ va, lo ≤ va → va < hi → regionView.lookup rs va = (f va).map fun p => ((p.1 : ℤ) - va,p.2)

variable {memory : ℕ → PageTable} {table : PageTable}

/-- How an address is translated under an entry. -/
def entryWalk (memory : ℕ → PageTable) (level : ℕ) (entry : PageTableEntry) (va : ℕ) : Option (ℕ × PageTableFlags) :=
  if !entry.flags.present then none
  else if entry.flags.hugePage ∨ level = 0 then
    if level ≤ 2 then
      some (entry.addr / 2^(12 + 9*level) * 2^(12 + 9*level) + va % 2^(12 + 9*level),maskFlags entry.flags)
    else none
  else walk memory level (memory entry.addr) va

lemma walk_succ {level va : ℕ} {i : Fin 512} (hi : va / 2^(12 + 9*level) % 512 = i.val) :
    walk memory (level+1) table va = entryWalk memory level (table i) va := by
  have hfin : (⟨va / 2^(12 + 9*level) % 512,Nat.mod_lt _ (by decide)⟩ : Fin 512) = i := Fin.ext hi
  rw [walk, entryWalk, hfin]

lemma lists_nil {lo hi : ℕ} {f : ℕ → Option (ℕ × PageTableFlags)} (hf : ∀ va, lo ≤ va → va < hi → f va = none) : Lists f lo hi [] :=
  ⟨WF.nil,by simp,fun va h1 h2 => by rw [hf va h1 h2]; rfl⟩

/-- The pages under an entry translate its block as the tables do. -/
lemma lists_entry {level va : ℕ} {entry : PageTableEntry} (hb : Block level va)
    (hreg : entry.flags.present → if entry.flags.hugePage ∨ level = 0 then
      level ≤ 2 ∧ 2^(12 + 9*level) ∣ entry.addr ∧ entry.addr < 2^52
      else entry.addr < PHYSICAL_MEMORY_MAX_SIZE ∧ Regular memory level (memory entry.addr))
    (hbelow : Regular memory level (memory entry.addr) → Lists (walk memory level (memory entry.addr)) va
      (va + 2^(12 + 9*level)) (pages memory level (memory entry.addr) va)) :
    Lists (entryWalk memory level entry) va (va + 2^(12 + 9*level)) (entryPages (pages memory level) memory level entry va) := by
  unfold entryPages entryWalk
  by_cases hp : entry.flags.present = true
  · have hreg := hreg hp
    simp only [hp, Bool.not_true, Bool.false_eq_true, if_false]
    by_cases hl : entry.flags.hugePage = true ∨ level = 0
    · simp only [if_pos hl] at hreg ⊢
      obtain ⟨hlevel,⟨k,hk⟩,haddr⟩ := hreg
      have hpos : 0 < 2^(12 + 9*level) := Nat.two_pow_pos _
      have hone : (1 : ℕ) <<< (12 + 9*level) = 2^(12 + 9*level) := by rw [Nat.shiftLeft_eq, one_mul]
      simp only [hone, if_pos hlevel]
      have hphys : entry.addr + 2^(12 + 9*level) ≤ 2^52 := by
        obtain ⟨m,hm⟩ : 2^(12 + 9*level) ∣ 2^52 := pow_dvd_pow 2 (by omega)
        rw [hk, hm] at haddr ⊢
        have hkm : k + 1 ≤ m := Nat.lt_of_mul_lt_mul_left haddr
        calc 2^(12 + 9*level)*k + 2^(12 + 9*level) = 2^(12 + 9*level)*(k+1) := by ring
          _ ≤ 2^(12 + 9*level)*m := Nat.mul_le_mul_left _ hkm
      have hwf : regionView.WF [⟨va,entry.addr,2^(12 + 9*level),maskFlags entry.flags⟩] :=
        ⟨List.pairwise_singleton _ _,by simp⟩
      refine ⟨hwf,by simpa using hphys,fun a h1 h2 => ?_⟩
      have hmem := hwf.lookup_of_mem List.mem_cons_self ⟨h1,h2⟩
      obtain ⟨d,rfl⟩ := Nat.exists_eq_add_of_le h1
      have hmod : (va + d) % 2^(12 + 9*level) = d := by
        obtain ⟨j,rfl⟩ := hb.aligned
        rw [Nat.mul_add_mod, Nat.mod_eq_of_lt (by omega)]
      rw [hmem, hmod, hk, Nat.mul_div_cancel_left k hpos, Nat.mul_comm k]
      simp only [regionView_val, Option.map_some, Nat.cast_add]
      congr 2
      ring
    · simp only [if_neg hl] at hreg ⊢
      exact hbelow hreg.2
  · have hp : entry.flags.present = false := by simpa using hp
    simp only [hp, Bool.not_false, if_true]
    exact lists_nil fun _ _ _ => rfl

/-- What holds of the blocks of all entries holds of the whole table. -/
lemma lists_table {level offset : ℕ} {lo : Fin 512 → ℕ}
    (hva : ∀ i : Fin 512, canonicalize (offset + i.val <<< (12 + 9*level)) = lo i)
    (hnext : ∀ i j, i < j → lo i + 2^(12 + 9*level) ≤ lo j)
    (h : ∀ i, Lists (entryWalk memory level (table i)) (lo i) (lo i + 2^(12 + 9*level))
      (entryPages (pages memory level) memory level (table i) (lo i))) :
    regionView.WF (pages memory (level+1) table offset) ∧
    (∀ r ∈ pages memory (level+1) table offset, ∃ i, lo i ≤ r.virtStart ∧ r.virtStart + r.size ≤ lo i + 2^(12 + 9*level) ∧
      r.physStart + r.size ≤ 2^52) ∧
    (∀ va i, lo i ≤ va → va < lo i + 2^(12 + 9*level) → regionView.lookup (pages memory (level+1) table offset) va =
      (entryWalk memory level (table i) va).map fun p => ((p.1 : ℤ) - va,p.2)) ∧
    ∀ va, (∀ i, lo i ≤ va → lo i + 2^(12 + 9*level) ≤ va) → regionView.lookup (pages memory (level+1) table offset) va = none := by
  have hpages : pages memory (level+1) table offset = (List.finRange 512).flatMap fun i =>
      entryPages (pages memory level) memory level (table i) (lo i) := by
    rw [pages]
    simp only [hva]
  have hin : ∀ i, ∀ r ∈ entryPages (pages memory level) memory level (table i) (lo i),
      lo i ≤ regionView.lo r ∧ regionView.hi r ≤ lo i + 2^(12 + 9*level) :=
    fun i r hr => ⟨((h i).inside r hr).1,((h i).inside r hr).2.1⟩
  rw [hpages]
  refine ⟨WF.flatMap (fun i => (h i).wf) hin hnext,fun r hr => ?_,fun va i h1 h2 => ?_,fun va hva => ?_⟩
  · obtain ⟨i,_,hi⟩ := List.mem_flatMap.mp hr
    exact ⟨i,(h i).inside r hi⟩
  · rw [lookup_flatMap (fun i => (h i).wf) hin hnext h1 h2]
    exact (h i).lookup va h1 h2
  · exact lookup_flatMap_outside hin hva

/-- The pages of a table below the top translate its block as the tables do. -/
theorem lists_pages {level offset : ℕ} (hlevel : level ≤ 3) (hb : Block level offset) (hreg : Regular memory level table) :
    Lists (walk memory level table) offset (offset + 2^(12 + 9*level)) (pages memory level table offset) := by
  induction level generalizing table offset with
  | zero => exact lists_nil fun _ _ _ => rfl
  | succ level ih =>
    have hpos : 0 < 2^(12 + 9*level) := Nat.two_pow_pos _
    have hva : ∀ i : Fin 512, canonicalize (offset + i.val <<< (12 + 9*level)) = offset + i.val*2^(12 + 9*level) := by
      intro i
      rw [Nat.shiftLeft_eq]
      exact (hb.entry i).canonicalize_eq le_rfl (by omega)
    have hnext : ∀ i j : Fin 512, i < j →
        offset + i.val*2^(12 + 9*level) + 2^(12 + 9*level) ≤ offset + j.val*2^(12 + 9*level) := by
      intro i j hij
      have hle := Nat.mul_le_mul_right (2^(12 + 9*level)) (Nat.succ_le_of_lt (Fin.lt_def.mp hij))
      rw [Nat.succ_mul] at hle
      omega
    obtain ⟨hwf,hin,hlookup,_⟩ := lists_table hva hnext fun i =>
      lists_entry (hb.entry i) (hreg i) (ih (by omega) (hb.entry i))
    refine ⟨hwf,fun r hr => ?_,fun va h1 h2 => ?_⟩
    · obtain ⟨i,h1,h2,h3⟩ := hin r hr
      have hle := Nat.mul_le_mul_right (2^(12 + 9*level)) (Nat.succ_le_of_lt i.isLt)
      rw [Nat.succ_mul] at hle
      rw [size_succ]
      exact ⟨by omega,by omega,h3⟩
    · obtain ⟨d,rfl⟩ := Nat.exists_eq_add_of_le h1
      rw [size_succ] at h2
      have hd : d / 2^(12 + 9*level) < 512 := Nat.div_lt_of_lt_mul (by rw [Nat.mul_comm]; omega)
      have hmod := Nat.div_add_mod d (2^(12 + 9*level))
      have hlt := Nat.mod_lt d hpos
      rw [Nat.mul_comm] at hmod
      have h3 : offset + d / 2^(12 + 9*level) * 2^(12 + 9*level) ≤ offset + d := by omega
      have h4 : offset + d < offset + d / 2^(12 + 9*level) * 2^(12 + 9*level) + 2^(12 + 9*level) := by omega
      rw [hlookup _ ⟨_,hd⟩ h3 h4, walk_succ (index_eq hb.aligned ⟨_,hd⟩ h3 h4)]

/-! The whole address space. -/

/-- Where the block of an entry of the top table starts. -/
def topBlock (i : ℕ) : ℕ := if i < 256 then i*2^39 else 2^64 - 2^48 + i*2^39

lemma canonicalize_topBlock (i : Fin 512) : canonicalize (0 + i.val <<< (12 + 9*3)) = topBlock i.val := by
  have hi := i.isLt
  rw [Nat.shiftLeft_eq, Nat.zero_add, topBlock]
  split_ifs with hlow
  · exact canonicalize_low (by omega)
  · rw [canonicalize_high (by omega) (by omega)]
    omega

lemma block_topBlock (i : Fin 512) : Block 3 (topBlock i.val) := by
  have hi := i.isLt
  unfold topBlock
  split_ifs with hlow
  · exact ⟨Nat.dvd_mul_left _ _,Or.inl (by omega)⟩
  · exact ⟨Nat.dvd_add (by norm_num) (Nat.dvd_mul_left _ _),Or.inr (by omega)⟩

/-- A canonical address is in the block of its entry. -/
lemma topBlock_of_canonical {va : ℕ} (h : va < 2^47 ∨ 2^64 - 2^47 ≤ va ∧ va < 2^64) :
    topBlock (va / 2^39 % 512) ≤ va ∧ va < topBlock (va / 2^39 % 512) + 2^39 := by
  unfold topBlock
  split_ifs <;> omega

lemma canonical_of_topBlock {va : ℕ} {i : Fin 512} (h1 : topBlock i.val ≤ va) (h2 : va < topBlock i.val + 2^39) :
    (va < 2^47 ∨ 2^64 - 2^47 ≤ va ∧ va < 2^64) ∧ va / 2^39 % 512 = i.val := by
  have hi := i.isLt
  unfold topBlock at h1 h2
  split_ifs at h1 h2 <;> omega

/-- The pages of the top table translate all addresses. -/
theorem lists_top (hreg : Regular memory 4 table) : regionView.WF (pages memory 4 table 0) ∧
    (∀ r ∈ pages memory 4 table 0, Bounded r) ∧
    ∀ va, regionView.lookup (pages memory 4 table 0) va = (translate memory table va).map fun p => ((p.1 : ℤ) - va,p.2) := by
  have hnext : ∀ i j : Fin 512, i < j → topBlock i.val + 2^(12 + 9*3) ≤ topBlock j.val := by
    intro i j hij
    have hlt := Fin.lt_def.mp hij
    unfold topBlock
    split_ifs <;> omega
  obtain ⟨hwf,hin,hlookup,hout⟩ := lists_table canonicalize_topBlock hnext fun i =>
    lists_entry (block_topBlock i) (hreg i) (lists_pages le_rfl (block_topBlock i))
  refine ⟨hwf,fun r hr => ?_,fun va => ?_⟩
  · obtain ⟨i,_,h2,h3⟩ := hin r hr
    rcases (block_topBlock i).canonical with hc | ⟨_,hc⟩
    · exact ⟨by omega,h3⟩
    · exact ⟨h2.trans hc,h3⟩
  · unfold translate
    split_ifs with hc
    · obtain ⟨h1,h2⟩ := topBlock_of_canonical hc
      have hlt : va / 2^39 % 512 < 512 := Nat.mod_lt _ (by decide)
      rw [hlookup va ⟨_,hlt⟩ h1 h2, walk_succ (i := ⟨_,hlt⟩) rfl]
    · refine hout va fun i h1 => ?_
      by_contra h2
      exact hc (canonical_of_topBlock h1 (not_le.mp h2)).1

/-- The loop over a table collects its pages. -/
lemma collect_table {level offset : ℕ} (hreg : Regular memory (level+1) table)
    (hadd : ∀ i : Fin 512, offset + i.val <<< (12 + 9*level) < 2^64)
    (hbelow : ∀ (i : Fin 512) regions, Regular memory level (memory (table i).addr) →
      collectMappings memory level (memory (table i).addr) (canonicalize (offset + i.val <<< (12 + 9*level))) regions =
      (pages memory level (memory (table i).addr) (canonicalize (offset + i.val <<< (12 + 9*level)))).foldlM addPage regions)
    (regions : List MapRegion) : collectMappings memory (level+1) table offset regions =
      (pages memory (level+1) table offset).foldlM addPage regions := by
  rw [collectMappings, pages, foldlM_flatMap]
  congr 1
  funext regions i
  have hentry := hreg i
  simp only [entryPages, checkedAdd_of_lt (hadd i), bind, Except.bind]
  split_ifs with hp hpage
  · rfl
  · simp only [List.foldlM_cons, List.foldlM_nil]
    exact (bind_pure _).symm
  · obtain ⟨hdirect,hbelow'⟩ := (if_neg hpage ▸ hentry (by simpa using hp) : _ ∧ _)
    have hoffset : PHYSICAL_MEMORY_OFFSET + (table i).addr < 2^64 := by
      unfold PHYSICAL_MEMORY_OFFSET
      unfold PHYSICAL_MEMORY_MAX_SIZE at hdirect
      omega
    simp only [checkedAdd_of_lt hoffset]
    exact hbelow i regions hbelow'

lemma collectMappings_below {level offset : ℕ} (hlevel : level ≤ 3) (hb : Block level offset) (hreg : Regular memory level table)
    (regions : List MapRegion) :
    collectMappings memory level table offset regions = (pages memory level table offset).foldlM addPage regions := by
  induction level generalizing table offset regions with
  | zero => rfl
  | succ level ih =>
    have hpos : 0 < 2^(12 + 9*level) := Nat.two_pow_pos _
    have hentry : ∀ i : Fin 512, Block level (offset + i.val <<< (12 + 9*level)) := by
      intro i
      rw [Nat.shiftLeft_eq]
      exact hb.entry i
    refine collect_table hreg (fun i => ?_) (fun i regions hreg' => ?_) regions
    · rcases (hentry i).canonical with hc | ⟨_,hc⟩ <;> omega
    · rw [(hentry i).canonicalize_eq le_rfl (by omega)]
      exact ih (by omega) (hentry i) hreg' regions

lemma collectMappings_top (hreg : Regular memory 4 table) (regions : List MapRegion) :
    collectMappings memory 4 table 0 regions = (pages memory 4 table 0).foldlM addPage regions := by
  refine collect_table hreg (fun i => ?_) (fun i regions hreg' => ?_) regions
  · have hi := i.isLt
    rw [Nat.shiftLeft_eq]
    omega
  · rw [canonicalize_topBlock]
    exact collectMappings_below le_rfl (block_topBlock i) hreg' regions

/-! Descriptions of a translation. -/

lemma lookup_find {rs : List MapRegion} {va : ℕ} : regionView.lookup rs va =
    ((rs.find? (·.Covers va)).map fun r => (r.physStart + (va - r.virtStart),r.flags)).map fun p => ((p.1 : ℤ) - va,p.2) := by
  have hfind : rs.find? (fun r => decide (regionView.Contains r va)) = rs.find? (·.Covers va) := rfl
  rw [SpanView.lookup, hfind]
  cases hr : rs.find? (·.Covers va) with
  | none => rfl
  | some r =>
    have hc : r.Covers va := by simpa using List.find?_some hr
    have hle := hc.1
    simp only [Option.map_some, regionView_val, Option.some.injEq, Prod.mk.injEq, and_true]
    omega

lemma distance_injective (va : ℕ) :
    Function.Injective fun p : ℕ × PageTableFlags => ((p.1 : ℤ) - va,p.2) := by
  rintro ⟨p,f⟩ ⟨q,g⟩ h
  simp only [Prod.mk.injEq] at h ⊢
  exact ⟨by omega,h.2⟩

/-- A description is the list of the longest intervals on which the distance to the frames and the flags do not
change. -/
lemma describes_iff {f : ℕ → Option (ℕ × PageTableFlags)} {rs : List MapRegion} : Describes f rs ↔
    regionView.WF rs ∧ regionView.Maximal rs ∧ ∀ va, regionView.lookup rs va = (f va).map fun p => ((p.1 : ℤ) - va,p.2) := by
  have hval : ∀ r : MapRegion, regionView.val r =
      (((r.physStart + r.size : ℕ) : ℤ) - (r.virtStart + r.size : ℕ),r.flags) := by
    intro r
    simp only [regionView_val, Prod.mk.injEq, and_true]
    omega
  have hmax : (∀ va, regionView.lookup rs va = (f va).map fun p => ((p.1 : ℤ) - va,p.2)) → ∀ r : MapRegion,
      (regionView.lookup rs (r.virtStart + r.size) = some (regionView.val r) ↔
        f (r.virtStart + r.size) = some (r.physStart + r.size,r.flags)) := by
    intro hl r
    rw [hl, hval]
    exact (Option.map_injective (distance_injective (r.virtStart + r.size))).eq_iff (b := some (r.physStart + r.size,r.flags))
  constructor
  · rintro ⟨hs,hp,ht,hm⟩
    have hl : ∀ va, regionView.lookup rs va = (f va).map fun p => ((p.1 : ℤ) - va,p.2) := by
      intro va
      rw [lookup_find, ht va]
    exact ⟨⟨hs,fun r hr => Nat.lt_add_of_pos_right (hp r hr)⟩,fun r hr h => hm r hr ((hmax hl r).mp h),hl⟩
  · rintro ⟨hwf,hm,hl⟩
    refine ⟨hwf.spaced,fun r hr => ?_,fun va => ?_,fun r hr h => hm r hr ((hmax hl r).mpr h)⟩
    · have hlt := hwf.proper r hr
      simp only [regionView_lo, regionView_hi] at hlt
      omega
    · apply Option.map_injective (distance_injective va)
      rw [← lookup_find, hl va]

/-- A translation has one description. -/
lemma Describes.unique {f : ℕ → Option (ℕ × PageTableFlags)} {rs rs' : List MapRegion} (h : Describes f rs)
    (h' : Describes f rs') : rs = rs' := by
  obtain ⟨hwf,hm,hl⟩ := describes_iff.mp h
  obtain ⟨hwf',hm',hl'⟩ := describes_iff.mp h'
  have hsame := Maximal.unique hwf hwf' hm hm' (funext fun va => (hl va).trans (hl' va).symm)
  have hinj : Function.Injective fun r : MapRegion => (regionView.lo r,regionView.hi r,regionView.val r) := by
    rintro ⟨v,p,s,fl⟩ ⟨v',p',s',fl'⟩ he
    simp only [regionView_lo, regionView_hi, regionView_val, Prod.mk.injEq] at he
    obtain ⟨rfl,h2,h3,rfl⟩ := he
    simp only [MapRegion.mk.injEq, true_and, and_true]
    omega
  exact List.map_injective_iff.mpr hinj hsame

lemma collect_describes (hreg : Regular memory 4 table) : ∃ rs, Describes (translate memory table) rs ∧
    (∀ r ∈ rs, Bounded r) ∧ collectMappings memory 4 table 0 [] = capped rs := by
  obtain ⟨hwf,hb,hl⟩ := lists_top hreg
  obtain ⟨hwf',hlookup,hmax⟩ := glues.glueAll_ok hwf
  refine ⟨_,describes_iff.mpr ⟨hwf',hmax,fun va => ?_⟩,fun r hr => ?_,?_⟩
  · rw [hlookup]
    exact hl va
  · cases hp : pages memory 4 table 0 with
    | nil =>
      rw [hp] at hr
      exact absurd hr List.not_mem_nil
    | cons x xs =>
      rw [hp] at hr hwf hb
      obtain ⟨w,hw,hhi,hval,_⟩ := glues.exists_of_mem hwf hr
      have hbw := hb w hw
      simp only [regionView_hi, regionView_val, Prod.mk.injEq] at hhi hval
      unfold Bounded at *
      omega
  · have hempty : ([] : List MapRegion).length ≤ MAX_REGIONS := Nat.zero_le _
    rw [← List.nil_append (pages memory 4 table 0)] at hwf hb
    rw [collectMappings_top hreg, foldlM_addPage hempty hwf hb, foldl_glueLast]

lemma line_ok {r : MapRegion} (hb : Bounded r) : (∃ l, r.line = .ok l) ↔ r.virtStart + r.size < 2^64 := by
  constructor
  · rintro ⟨l,hl⟩
    obtain ⟨_,hv,_⟩ := bind_ok hl
    exact (checkedAdd_ok hv).2
  · intro hv
    have hp : r.physStart + r.size < 2^64 := by
      unfold Bounded at hb
      omega
    simp only [MapRegion.line, checkedAdd_of_lt hv, checkedAdd_of_lt hp, bind, Except.bind]
    exact ⟨_,rfl⟩

lemma mapM_ok {α β : Type} {f : α → Except Fault β} (xs : List α) :
    (∃ ys, xs.mapM f = .ok ys) ↔ ∀ x ∈ xs, ∃ y, f x = .ok y := by
  induction xs with
  | nil => exact ⟨fun _ => by simp,fun _ => ⟨[],rfl⟩⟩
  | cons x xs ih =>
    rw [List.mapM_cons, List.forall_mem_cons, ← ih]
    constructor
    · rintro ⟨ys,h⟩
      obtain ⟨y,hy,h⟩ := bind_ok h
      obtain ⟨zs,hzs,_⟩ := bind_ok h
      exact ⟨⟨y,hy⟩,zs,hzs⟩
    · rintro ⟨⟨y,hy⟩,zs,hzs⟩
      refine ⟨y::zs,?_⟩
      rw [hy, hzs]
      rfl

/-- The last address of all is in a region that ends at the end of the address space. -/
lemma Describes.last {rs : List MapRegion} {f : ℕ → Option (ℕ × PageTableFlags)} (h : Describes f rs)
    (hb : ∀ r ∈ rs, Bounded r) : f (2^64 - 1) = none ↔ ∀ r ∈ rs, r.virtStart + r.size < 2^64 := by
  rw [h.translates, Option.map_eq_none_iff, List.find?_eq_none]
  refine forall₂_congr fun r hr => ?_
  have hbr := hb r hr
  have hpos := h.proper r hr
  unfold Bounded at hbr
  rw [decide_eq_true_eq, MapRegion.Covers]
  omega

/-- The regions that are collected from a page table are the one description of the physical addresses and of the flags in the
entries of its pages. Collecting them panics when there are more than the list has room for, and printing them also
when the last address of all is mapped. -/
theorem memory_map (hreg : Regular memory 4 table) : ∃ rs, Describes (translate memory table) rs ∧
    (∀ rs', Describes (translate memory table) rs' → rs' = rs) ∧ collectMappings memory 4 table 0 [] = capped rs ∧
    ((∃ lines, printMap memory table = .ok lines) ↔
      rs.length ≤ MAX_REGIONS ∧ translate memory table (2^64 - 1) = none) := by
  obtain ⟨rs,hd,hb,hc⟩ := collect_describes hreg
  refine ⟨rs,hd,fun rs' hd' => hd'.unique hd,hc,?_⟩
  rw [hd.last hb, printMap, hc, capped]
  split_ifs with hlen
  · simp only [hlen, true_and]
    exact (mapM_ok rs).trans (forall₂_congr fun r hr => line_ok (hb r hr))
  · simp only [hlen, false_and, iff_false]
    rintro ⟨lines,h⟩
    cases h

/-- A table for the last two large pages of the address space, one of which was accessed. -/
def lastPages : PageTable := fun i =>
  if 510 ≤ i.val then ⟨(i.val - 510)*2^30,⟨true,true,i.val = 510,false,2⟩⟩ else ⟨0,⟨false,false,false,false,0⟩⟩

def lastEntry : PageTable := fun i =>
  if i.val = 511 then ⟨4096,⟨true,false,false,false,2⟩⟩ else ⟨0,⟨false,false,false,false,0⟩⟩

lemma regular_lastEntry : Regular (fun _ => lastPages) 4 lastEntry := by
  intro i hi
  have hsmall : ¬((lastEntry i).flags.hugePage = true ∨ 3 = 0) := by
    unfold lastEntry
    split_ifs <;> simp
  have haddr : (lastEntry i).addr < PHYSICAL_MEMORY_MAX_SIZE := by
    unfold lastEntry
    split_ifs <;> decide
  rw [if_neg hsmall]
  refine ⟨haddr,?_⟩
  change Regular (fun _ => lastPages) 3 lastPages
  intro j hj
  by_cases hlast : 510 ≤ j.val
  · have hentry : lastPages j = ⟨(j.val - 510)*2^30,⟨true,true,j.val = 510,false,2⟩⟩ := if_pos hlast
    have hj' := j.isLt
    rw [hentry]
    refine (if_pos (Or.inl rfl)).mpr ⟨le_rfl,Nat.dvd_mul_left _ _,?_⟩
    dsimp only
    omega
  · have hentry : lastPages j = ⟨0,⟨false,false,false,false,0⟩⟩ := if_neg hlast
    rw [hentry] at hj
    cases hj

/-- They are one region, which cannot be printed. -/
theorem memory_map_last : ∃ rs, Describes (translate (fun _ => lastPages) lastEntry) rs ∧
    collectMappings (fun _ => lastPages) 4 lastEntry 0 [] = capped rs ∧
    ¬∃ lines, printMap (fun _ => lastPages) lastEntry = .ok lines := by
  obtain ⟨rs,hd,_,hc,hp⟩ := memory_map regular_lastEntry
  refine ⟨rs,hd,hc,fun hl => ?_⟩
  have hnone := (hp.mp hl).2
  revert hnone
  decide

end Lilith.MemoryMap
