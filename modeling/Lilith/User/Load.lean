import Lilith.User.Private

/-! Loading a program: the pages of its segments are mapped as they are written, and afterwards the process sees the bytes of the
file in its segments and zeros in what else it can access. -/
namespace Lilith.User
open Buddy (FRAME_SIZE)
open Direct (Usage Reach)
open VirtualAlloc (Range)

/-- Bytes with a slice that was copied over them. -/
def overlay (addr : ℕ) (data : List UInt8) (bytes : ℕ → UInt8) (a : ℕ) : UInt8 :=
  if addr ≤ a ∧ a < addr + data.length then data.getD (a - addr) 0 else bytes a

namespace ProgramHeader

/-- The address is in the part of the segment that comes from the file. -/
def HasByte (h : ProgramHeader) (a : ℕ) : Prop := h.load = true ∧ h.virtualAddr ≤ a ∧ a < h.virtualAddr + (h.data.getD []).length

instance (h : ProgramHeader) (a : ℕ) : Decidable (h.HasByte a) := inferInstanceAs (Decidable (_ ∧ _))

/-- The segment is in the user half, below its last address. `load_elf` does not check this. -/
def InUserHalf (h : ProgramHeader) : Prop := h.load = true → h.virtualAddr + max h.memSize (h.data.getD []).length < USER_END

instance (h : ProgramHeader) : Decidable h.InUserHalf := inferInstanceAs (Decidable (_ → _))

/-- The range that is mapped for the segment. -/
def range (h : ProgramHeader) : Range := ⟨h.virtualAddr,h.virtualAddr + h.memSize⟩

end ProgramHeader

def stackRange : Range := ⟨USER_STACK_BOTTOM,USER_STACK_BOTTOM + USER_STACK_SIZE⟩

/-- The byte of a program: that of the last segment which has the address, or zero. -/
def imageByte (headers : List ProgramHeader) (a : ℕ) : UInt8 :=
  ((headers.reverse.find? fun h => h.HasByte a).map fun h => (h.data.getD []).getD (a - h.virtualAddr) 0).getD 0

/-- The ranges of a program. -/
def imageRanges (headers : List ProgramHeader) : List Range := stackRange :: ((headers.filter (·.load)).map ProgramHeader.range).reverse

/-- What a process sees after a header. -/
def Private.load (q : Private) (h : ProgramHeader) : Private :=
  if h.load then ⟨overlay h.virtualAddr (h.data.getD []) q.bytes,h.range :: q.ranges⟩ else q

variable {mapped : ℕ → Bool} {U : Set ℕ} {s s' : State} {m : ℕ → Private} {i a addr : ℕ} {data : List UInt8} {tables : ℕ → ℕ}
  {p : ProcMemory} {h : ProgramHeader} {headers : List ProgramHeader}

section Copy

lemma overlay_cons (b : UInt8) (bytes : ℕ → UInt8) :
    overlay (addr+1) data (Function.update bytes addr b) = overlay addr (b::data) bytes := by
  funext a
  simp only [overlay, List.length_cons]
  by_cases he : a = addr
  · subst he
    have h1 : ¬ (a + 1 ≤ a ∧ a < a + 1 + data.length) := by omega
    have h2 : a ≤ a ∧ a < a + (data.length + 1) := by omega
    rw [if_neg h1, if_pos h2, Function.update_self, Nat.sub_self]
    rfl
  · by_cases hin : addr + 1 ≤ a ∧ a < addr + 1 + data.length
    · have h2 : addr ≤ a ∧ a < addr + (data.length + 1) := by omega
      rw [if_pos hin, if_pos h2]
      obtain ⟨k,hk⟩ : ∃ k, a - addr = k + 1 := ⟨a - addr - 1,by omega⟩
      rw [hk, List.getD_cons_succ]
      congr 1
      omega
    · have h2 : ¬ (addr ≤ a ∧ a < addr + (data.length + 1)) := by omega
      rw [if_neg hin, if_neg h2, Function.update_of_ne he]

/-- The loop writes the slice into the memory of the process. -/
lemma Run.copyFromSlice (hr : Run mapped U s m) (huser : addr + data.length ≤ USER_END)
    (hrun : User.copyFromSlice tables i addr data s = .ok s') :
    Run mapped U s' (Function.update m i { m i with bytes := overlay addr data (m i).bytes }) := by
  induction data generalizing s m addr with
  | nil =>
    obtain rfl := Except.ok.inj hrun
    have hsame : Function.update m i { m i with bytes := overlay addr [] (m i).bytes } = m := by
      rw [Function.update_eq_self_iff]
      have hb : overlay addr [] (m i).bytes = (m i).bytes := by
        funext a
        exact if_neg (by simp only [List.length_nil]; omega)
      rw [hb]
    rwa [hsame]
  | cons b data ih =>
    rw [List.length_cons] at huser
    rw [User.copyFromSlice, if_pos (by omega)] at hrun
    obtain ⟨⟨res,s1⟩,haccess,hrun⟩ := bind_ok hrun
    cases res with
    | none => cases hrun
    | some phys =>
      have h1 := ih (hr.write (b := b) haccess) (by omega) hrun
      rw [Function.update_self, Function.update_idem] at h1
      rw [← overlay_cons]
      exact h1

lemma virtAddr_of (h : a < USER_END) : virtAddr a = .ok a := if_pos h

lemma Run.loadSegment (hr : Run mapped U s m) (huser : h.InUserHalf) (hrun : User.loadSegment tables i s h = .ok s') :
    Run mapped U s' (Function.update m i ((m i).load h)) := by
  unfold User.loadSegment at hrun
  unfold Private.load
  split_ifs at hrun ⊢ with hload
  · have hlt := huser hload
    have hmem : h.virtualAddr + h.memSize < USER_END := by omega
    have hadd : checkedAdd h.virtualAddr h.memSize = .ok (h.virtualAddr + h.memSize) :=
      checkedAdd_of_lt (hmem.trans (by decide))
    simp only [virtAddr_of ((Nat.le_add_right _ _).trans_lt hmem), hadd, virtAddr_of hmem, Except.bind, bind] at hrun
    obtain ⟨s1,hmapping,hrun⟩ := bind_ok hrun
    cases hdata : h.data with
    | none =>
      rw [hdata] at hrun
      cases hrun
    | some data =>
      rw [hdata] at hrun hlt
      have hfile : h.virtualAddr + data.length ≤ USER_END := by
        simp only [Option.getD_some] at hlt
        omega
      have h1 := (hr.addMapping (Nat.le_add_right _ _) hmapping).copyFromSlice hfile hrun
      rw [Function.update_self, Function.update_idem] at h1
      exact h1
  · obtain rfl := Except.ok.inj hrun
    rwa [Function.update_eq_self]

lemma Run.loadSegments (hr : Run mapped U s m) (huser : ∀ h ∈ headers, h.InUserHalf) (hrun : headers.foldlM (User.loadSegment tables i) s = .ok s') :
    Run mapped U s' (Function.update m i (headers.foldl Private.load (m i))) := by
  induction headers generalizing s m with
  | nil =>
    obtain rfl := Except.ok.inj hrun
    rwa [List.foldl_nil, Function.update_eq_self]
  | cons h headers ih =>
    rw [List.foldlM_cons] at hrun
    obtain ⟨s1,h1,hrun⟩ := bind_ok hrun
    have h2 := ih (hr.loadSegment (huser h List.mem_cons_self) h1) (fun h hh => huser h (List.mem_cons_of_mem _ hh)) hrun
    rwa [Function.update_self, Function.update_idem] at h2

end Copy

/-- The headers of a program one after the other, starting with nothing. -/
lemma foldl_load (headers : List ProgramHeader) : headers.foldl Private.load ⟨fun _ => 0,[]⟩ =
    ⟨imageByte headers,((headers.filter (·.load)).map ProgramHeader.range).reverse⟩ := by
  induction headers using List.reverseRecOn with
  | nil => rfl
  | append_singleton headers h ih =>
    rw [List.foldl_append, ih, List.foldl_cons, List.foldl_nil]
    unfold Private.load
    split_ifs with hload
    · congr 1
      · funext a
        by_cases hb : h.HasByte a
        · have h1 : overlay h.virtualAddr (h.data.getD []) (imageByte headers) a = (h.data.getD []).getD (a - h.virtualAddr) 0 :=
            if_pos hb.2
          rw [h1]
          simp [imageByte, hb]
        · have h1 : overlay h.virtualAddr (h.data.getD []) (imageByte headers) a = imageByte headers a :=
            if_neg fun hc => hb ⟨hload,hc⟩
          rw [h1]
          simp [imageByte, hb]
      · simp [hload]
    · congr 1
      · funext a
        have hb : ¬ h.HasByte a := fun hb => hload hb.1
        simp [imageByte, hb]
      · simp [hload]

section
variable (h0 : 0 ∉ U) (hlow : ∀ n ∈ U, n * FRAME_SIZE < PHYSICAL_MEMORY_MAX_SIZE)
include h0 hlow

/-- In every run, when `load_elf` has loaded a program whose segments are in the user half for a process with nothing mapped,
every access of the process reaches the byte of the file where a segment has one, and a zero elsewhere; or the memory runs out;
or the handler ends the access, which it does only outside of the segments and the stack. Other processes see no change. -/
theorem loadElf_image (hr : Run mapped U s m) (hnew : m i = ⟨fun _ => 0,[]⟩) (huser : ∀ h ∈ headers, h.InUserHalf)
    (hrun : loadElf tables i s headers = .ok s') :
    ∃ m', Run mapped U s' m' ∧ (∀ j, j ≠ i → m' j = m j) ∧ ∀ k a,
      (∃ s'' phys, s'.access k i a = .ok (some phys,s'') ∧ s''.memory phys = imageByte headers a) ∨
      (s'.access k i a = .ok (none,s') ∧ (USER_END ≤ a ∨ ∀ r ∈ imageRanges headers, ¬ r.Has a)) ∨
      ∃ e, s'.access k i a = .error e ∧ OutOfMemory e := by
  obtain ⟨s1,hsegments,hstack⟩ := bind_ok hrun
  have h1 := (hr.loadSegments huser hsegments).addMapping (Nat.le_add_right _ _) hstack
  rw [Function.update_self, Function.update_idem, hnew, foldl_load] at h1
  refine ⟨_,h1,fun j hj => Function.update_of_ne hj _ _,fun k a => ?_⟩
  obtain ⟨p,hp⟩ : ∃ p, s'.procs i = some p := by
    unfold State.addMapping at hstack
    cases hp : s1.procs i with
    | none =>
      rw [hp] at hstack
      cases hstack
    | some p =>
      rw [hp] at hstack
      obtain ⟨as',_,hstack⟩ := bind_ok hstack
      obtain rfl := Except.ok.inj hstack
      exact ⟨_,Function.update_self _ _ _⟩
  rcases (h1.inv h0 hlow).access h0 hlow hp k a with ⟨s'',phys,h2,hi,ht⟩ | ⟨h2,hno⟩ | h2
  · refine Or.inl ⟨s'',phys,h2,?_⟩
    have hbyte := (hi.reached h0 hlow ht).1.byte
    rwa [Function.update_self] at hbyte
  · refine Or.inr (Or.inl ⟨h2,hno.imp_right fun hn => ?_⟩)
    have hranges := hn.2
    rw [Function.update_self] at hranges
    exact hranges
  · exact Or.inr (Or.inr h2)

end

/-- A program of one segment with two bytes in the file. -/
def smallProgram : List ProgramHeader := [⟨true,0x400000,16,some [0x90,0xC3]⟩]

theorem loadElf_image_small : ∃ s s' m', loadElf (fun _ => 0) 0 s smallProgram = .ok s' ∧
    Run (fun _ => true) (Buddy.frameRange 1 4) s' m' := by
  have hok : (smallStart >>= fun s => loadElf (fun _ => 0) 0 s smallProgram).isOk = true := by decide +kernel
  cases hrun : (smallStart >>= fun s => loadElf (fun _ => 0) 0 s smallProgram) with
  | error e =>
    rw [hrun] at hok
    cases hok
  | ok s' =>
    obtain ⟨s,e0,e1⟩ := bind_ok hrun
    obtain ⟨m',hr,_,_⟩ := loadElf_image small_frames.1 small_frames.2 (smallStart_run e0) rfl (by decide) e1
    exact ⟨s,s',m',e1,hr⟩

example : (List.range 3).map (fun k => imageByte smallProgram (0x400000 + k)) = [0x90,0xC3,0] := by decide

end Lilith.User
