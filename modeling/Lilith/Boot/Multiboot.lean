import Lilith.Boot.Mmap
import Lilith.DirectMap
import Lilith.Theory.Bytes

/-! What the bootloader leaves in memory (`multiboot.rs`): the information structure, the entries of the memory map, where
the size of each one says how far it is to the next, and the modules. -/
namespace Lilith.Boot
open Bytes

/-- The bytes of the physical memory. -/
abbrev Memory : Type := ℕ → UInt8

namespace Memory

def bytes (mem : Memory) (addr n : ℕ) : List UInt8 := (List.range n).map fun i => mem (addr + i)

/-- A number of `n` bytes. -/
def read (mem : Memory) (addr n : ℕ) : ℕ := fromLeBytes (mem.bytes addr n)

end Memory

/-- The fields of the structure that the kernel reads. -/
structure MultibootInfoRaw where
  flags : ℕ
  cmdline : ℕ
  modsCount : ℕ
  modsAddr : ℕ
  mmapLength : ℕ
  mmapAddr : ℕ
  deriving DecidableEq, Repr

/-- the size of a `MultibootInfoRaw` -/
def MULTIBOOT_INFO_SIZE : ℕ := 136

structure MultibootModuleRaw where
  modStart : ℕ
  modEnd : ℕ
  name : ℕ
  deriving DecidableEq, Repr

/-- the size of a `MultibootMmapEntry` -/
def MMAP_ENTRY_SIZE : ℕ := 24

/-- The pointers of the iterator, as physical addresses. -/
structure MultibootMmapIter where
  ptr : ℕ
  end_ : ℕ
  deriving DecidableEq, Repr

section Read
variable (mem : Memory)

def readInfo (addr : ℕ) : MultibootInfoRaw :=
  ⟨mem.read addr 4,mem.read (addr+16) 4,mem.read (addr+20) 4,mem.read (addr+24) 4,mem.read (addr+44) 4,mem.read (addr+48) 4⟩

namespace MultibootInfoRaw

def mmaps (self : MultibootInfoRaw) : Except Fault MultibootMmapIter := do
  assert (self.flags &&& 1 <<< 6 ≠ 0) "no mmap data passed by bootloader"
  return ⟨self.mmapAddr,self.mmapAddr + self.mmapLength⟩

def modules (self : MultibootInfoRaw) : List MultibootModuleRaw :=
  (List.range self.modsCount).map fun i =>
    let addr := self.modsAddr + 16*i
    ⟨mem.read addr 4,mem.read (addr+4) 4,mem.read (addr+8) 4⟩

end MultibootInfoRaw

namespace MultibootMmapIter

def next (self : MultibootMmapIter) : Except Fault (Option (MultibootMmapEntry × MultibootMmapIter)) := do
  if self.ptr = self.end_ then return none
  else do
    assert (self.ptr + MMAP_ENTRY_SIZE ≤ self.end_)
      "assertion failed: self.ptr.add(core::mem::size_of::<MultibootMmapEntry>()) <= self.end"
    let entrySize := mem.read self.ptr 4
    return some (⟨mem.read (self.ptr+4) 8,mem.read (self.ptr+12) 8,mem.read (self.ptr+20) 4⟩,
      { self with ptr := self.ptr + (4 + entrySize) })

/-- The entries that the iterator yields until it ends. -/
inductive Yields : MultibootMmapIter → List MultibootMmapEntry → Prop
  | nil {iter : MultibootMmapIter} (h : iter.next mem = .ok none) : Yields iter []
  | cons {iter iter' : MultibootMmapIter} {e : MultibootMmapEntry} {es : List MultibootMmapEntry}
      (h : iter.next mem = .ok (some (e,iter'))) (hes : Yields iter' es) : Yields iter (e::es)

end MultibootMmapIter

/-- The loop of `init` over the memory map. -/
def mmapLoop : ℕ → BootAlloc → MultibootMmapIter → Except Fault BootAlloc
  | 0, _, _ => .error .diverge
  | fuel+1, self, iter => do
    match ← iter.next mem with
    | none => return self
    | some (span,iter) => do
      let self ← self.update span.addr span.len fun s => .ok (BootAlloc.mmapType span s)
      mmapLoop fuel self iter

/-- `count_bytes`, for at most so many bytes of the direct map -/
def countBytes : ℕ → ℕ → Except Fault ℕ
  | 0, _ => .error .dangling
  | fuel+1, addr => do
    if mem addr = 0 then return 0
    else return (← countBytes fuel (addr+1)) + 1

/-- `get_string(addr).count_bytes()` -/
def stringLen (addr : ℕ) : Except Fault ℕ := do
  let _ ← physToVirt addr
  countBytes mem (PHYSICAL_MEMORY_MAX_SIZE - addr) addr

end Read

/-- An entry of the memory map as a bootloader writes it, with further bytes that its size covers. -/
def mmapEntryBytes (e : MultibootMmapEntry) (more : List UInt8) : List UInt8 :=
  toLeBytes 4 (20 + more.length) ++ toLeBytes 8 e.addr ++ toLeBytes 8 e.len ++ toLeBytes 4 e.memType ++ more

/-- A memory map as a bootloader writes it. -/
def mmapBytes (es : List (MultibootMmapEntry × List UInt8)) : List UInt8 := es.flatMap fun e => mmapEntryBytes e.1 e.2

/-- The fields have their sizes. -/
structure MultibootMmapEntry.Fits (e : MultibootMmapEntry) : Prop where
  addr : e.addr < 2^64
  len : e.len < 2^64
  memType : e.memType < 2^32

variable {mem : Memory} {iter iter' : MultibootMmapIter} {e : MultibootMmapEntry} {es es' : List MultibootMmapEntry}
  {b b' : BootAlloc} {addr n m fuel : ℕ} {l l' more : List UInt8}

section Bytes

@[simp] lemma Memory.length_bytes (mem : Memory) (addr n : ℕ) : (mem.bytes addr n).length = n := by simp [Memory.bytes]

/-- The bytes of a range, as the bytes of its two parts. -/
lemma Memory.bytes_add (mem : Memory) (addr n m : ℕ) : mem.bytes addr (n+m) = mem.bytes addr n ++ mem.bytes (addr+n) m := by
  simp only [Memory.bytes, List.range_add, List.map_append, List.map_map, Function.comp_def, Nat.add_assoc]

lemma Memory.bytes_append (h : mem.bytes addr (n+m) = l ++ l') (hl : l.length = n) :
    mem.bytes addr n = l ∧ mem.bytes (addr+n) m = l' := by
  rw [Memory.bytes_add] at h
  exact List.append_inj h (by simp [hl])

lemma Memory.read_of_bytes {w x : ℕ} (h : mem.bytes addr w = toLeBytes w x) (hx : x < 256^w) : mem.read addr w = x := by
  rw [Memory.read, h, fromLeBytes_toLeBytes w x hx]

end Bytes

namespace MultibootMmapIter

lemma next_end (h : iter.ptr = iter.end_) : iter.next mem = .ok none := if_pos h

/-- What the iterator reads is in front of its end, and it moves on by at least the size field. -/
lemma next_some (h : iter.next mem = .ok (some (e,iter'))) : iter.ptr + MMAP_ENTRY_SIZE ≤ iter.end_ ∧
    iter'.end_ = iter.end_ ∧ iter.ptr + 4 ≤ iter'.ptr := by
  unfold next at h
  split_ifs at h with hp
  · cases h
  · obtain ⟨_,h1,h2⟩ := bind_ok h
    obtain ⟨_,rfl⟩ := Prod.mk.inj (Option.some.inj (Except.ok.inj h2))
    exact ⟨assert_ok h1,rfl,by simp only; omega⟩

/-- Each entry takes at least four bytes. -/
lemma Yields.length_le (h : Yields mem iter es) : iter.ptr + 4 * es.length ≤ max iter.ptr iter.end_ := by
  induction h with
  | nil => simp
  | cons h _ ih =>
    obtain ⟨h1,h2,h3⟩ := next_some h
    unfold MMAP_ENTRY_SIZE at h1
    rw [h2] at ih
    rw [List.length_cons]
    omega

/-- The iterator yields the same entries in each run over the same memory. -/
lemma Yields.unique (h : Yields mem iter es) (h' : Yields mem iter es') : es = es' := by
  induction h generalizing es' with
  | nil h =>
    cases h' with
    | nil => rfl
    | cons h2 => cases h.symm.trans h2
  | cons h _ ih =>
    cases h' with
    | nil h2 => cases h.symm.trans h2
    | cons h2 hes =>
      obtain ⟨rfl,rfl⟩ := Prod.mk.inj (Option.some.inj (Except.ok.inj (h.symm.trans h2)))
      rw [ih hes]

/-- An entry that a bootloader wrote is read. -/
lemma next_bytes (he : e.Fits) (hm : 20 + more.length < 2^32) (hn : iter.ptr + (mmapEntryBytes e more).length ≤ iter.end_)
    (h : mem.bytes iter.ptr (mmapEntryBytes e more).length = mmapEntryBytes e more) :
    iter.next mem = .ok (some (e,{ iter with ptr := iter.ptr + (mmapEntryBytes e more).length })) := by
  have hlen : (mmapEntryBytes e more).length = 4 + 8 + 8 + 4 + more.length := by
    simp only [mmapEntryBytes, List.length_append, length_toLeBytes]
  rw [hlen] at h hn
  obtain ⟨h,_⟩ := Memory.bytes_append h (by simp)
  obtain ⟨h,htype⟩ := Memory.bytes_append h (by simp)
  obtain ⟨h,hlen'⟩ := Memory.bytes_append h (by simp)
  obtain ⟨hsize,haddr⟩ := Memory.bytes_append h (by simp)
  have hle : iter.ptr + MMAP_ENTRY_SIZE ≤ iter.end_ := by
    unfold MMAP_ENTRY_SIZE
    omega
  have hne : iter.ptr ≠ iter.end_ := by omega
  rw [hlen, next, if_neg hne, assert_of hle]
  simp only [bind, Except.bind, pure, Except.pure]
  rw [Memory.read_of_bytes hsize (by omega), Memory.read_of_bytes haddr he.addr, Memory.read_of_bytes hlen' he.len,
    Memory.read_of_bytes htype he.memType]
  congr 5
  omega

/-- The iterator yields the entries that a bootloader wrote. -/
lemma yields_mmapBytes (es : List (MultibootMmapEntry × List UInt8)) (hfit : ∀ e ∈ es, e.1.Fits ∧ 20 + e.2.length < 2^32)
    (hmem : mem.bytes addr (mmapBytes es).length = mmapBytes es) :
    Yields mem ⟨addr,addr + (mmapBytes es).length⟩ (es.map Prod.fst) := by
  obtain ⟨end_,hend⟩ : ∃ end_, end_ = addr + (mmapBytes es).length := ⟨_,rfl⟩
  rw [← hend]
  induction es generalizing addr with
  | nil => exact .nil (next_end hend.symm)
  | cons e es ih =>
    have hcons : mmapBytes (e::es) = mmapEntryBytes e.1 e.2 ++ mmapBytes es := rfl
    rw [hcons, List.length_append] at hend hmem
    obtain ⟨h1,h2⟩ := Memory.bytes_append hmem rfl
    obtain ⟨he,hm⟩ := hfit e List.mem_cons_self
    have hle : addr + (mmapEntryBytes e.1 e.2).length ≤ end_ := by omega
    have hrest := ih (fun e' he' => hfit e' (List.mem_cons_of_mem _ he')) h2 (by omega)
    exact .cons (@next_bytes mem ⟨addr,end_⟩ _ _ he hm hle h1) hrest

end MultibootMmapIter

/-- The loop adds the entries that the iterator yields. -/
lemma mmapLoop_ok (h : mmapLoop mem fuel b iter = .ok b') : ∃ es, MultibootMmapIter.Yields mem iter es ∧ b.addMmaps es = .ok b' := by
  induction fuel generalizing b iter with
  | zero => cases h
  | succ fuel ih =>
    unfold mmapLoop at h
    obtain ⟨res,hnext,h⟩ := bind_ok h
    cases res with
    | none =>
      obtain rfl := Except.ok.inj h
      exact ⟨[],.nil hnext,rfl⟩
    | some p =>
      obtain ⟨span,iter'⟩ := p
      obtain ⟨b1,hupdate,hloop⟩ := bind_ok h
      obtain ⟨es,hes,hadd⟩ := ih hloop
      refine ⟨span::es,.cons hnext hes,?_⟩
      rw [BootAlloc.addMmaps, List.foldlM_cons, hupdate]
      exact hadd

/-- The loop over the entries that the iterator yields. -/
lemma mmapLoop_of_yields (h : MultibootMmapIter.Yields mem iter es) (hf : es.length < fuel) :
    mmapLoop mem fuel b iter = b.addMmaps es := by
  induction h generalizing b fuel with
  | nil h =>
    obtain ⟨fuel,rfl⟩ := Nat.exists_eq_add_one_of_ne_zero (Nat.ne_zero_of_lt hf)
    simp only [mmapLoop, h, bind, Except.bind]
    rfl
  | cons h _ ih =>
    obtain ⟨fuel,rfl⟩ := Nat.exists_eq_add_one_of_ne_zero (Nat.ne_zero_of_lt hf)
    rw [List.length_cons] at hf
    rw [BootAlloc.addMmaps, List.foldlM_cons]
    simp only [mmapLoop, h, bind, Except.bind]
    cases BootAlloc.update _ _ _ _ with
    | error e => rfl
    | ok b1 => exact ih (by omega)

/-- Where a bootloader wrote the entries of a memory map, of whatever sizes they are, the loop of `init` adds just these entries
in their order. -/
theorem mmapLoop_mmapBytes (es : List (MultibootMmapEntry × List UInt8)) (hfit : ∀ e ∈ es, e.1.Fits ∧ 20 + e.2.length < 2^32)
    (hmem : mem.bytes addr (mmapBytes es).length = mmapBytes es) (b : BootAlloc) :
    mmapLoop mem ((mmapBytes es).length + 1) b ⟨addr,addr + (mmapBytes es).length⟩ = b.addMmaps (es.map Prod.fst) := by
  have hes := MultibootMmapIter.yields_mmapBytes es hfit hmem
  have hlen := hes.length_le
  simp only at hlen
  exact mmapLoop_of_yields hes (by omega)

/-- A second entry of 28 bytes. -/
theorem mmapLoop_mmapBytes_two : ∃ mem : Memory, ∀ b, mmapLoop mem 53 b ⟨4096,4096 + 52⟩ = b.addMmaps [⟨0x100000,0x40000,1⟩,⟨0,0x9FC00,1⟩] :=
  ⟨fun a => (mmapBytes [(⟨0x100000,0x40000,1⟩,[]),(⟨0,0x9FC00,1⟩,[1,2,3,4])]).getD (a - 4096) 0,
    mmapLoop_mmapBytes [(⟨0x100000,0x40000,1⟩,[]),(⟨0,0x9FC00,1⟩,[1,2,3,4])]
      (by simp only [List.forall_mem_cons]; exact ⟨⟨⟨by decide,by decide,by decide⟩,by decide⟩,⟨⟨by decide,by decide,by decide⟩,by decide⟩,by simp⟩)
      (by decide)⟩

end Lilith.Boot
