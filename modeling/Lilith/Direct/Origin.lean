import Lilith.Boot.Init
import Lilith.Direct.Correct

/-! Where the memory of objects comes from: `init` hands the frames over that the bootloader's data leaves usable, and a run
that adds only these frames never gives out memory of the firmware, of the kernel or of a module. -/
namespace Lilith.Direct
open Theory
open Buddy (BuddyAllocator FRAME_SIZE frameRange)
open Boot (Layout Memory KernelSymbols KernelPages PageAlign PhysRange MultibootMmapEntry Initialized HasFrame Mmaps BootFrames Firmware
  Usable WholeFrame bootType bootMarks lastMark classify roundDown init)
open Slub (Heap Inside frameAt)

variable {mem : Memory} {sym : KernelSymbols} {infoAddr limit fuel phys : ℕ} {es : List MultibootMmapEntry} {tables : ℕ → ℕ}
  {previousTable : ℕ → Option ℕ} {kernel : KernelPages} {align : PageAlign} {res : Initialized} {ss : List PhysRange}
  {mapped : ℕ → Bool} {u : Usage}

/-- A byte that may be given out: it is not of the firmware, and if it is marked, then it is reclaimable by the last mark. -/
structure Available (mem : Memory) (sym : KernelSymbols) (infoAddr : ℕ) (es : List MultibootMmapEntry) (phys : ℕ) : Prop where
  firmware : ¬ Firmware es phys
  marked : ∀ m, lastMark (bootMarks mem sym infoAddr) phys = some m → m.spanType = .reclaimable
  unmarked : lastMark (bootMarks mem sym infoAddr) phys = none → ∃ e ∈ es, e.isUsable = true ∧ e.Covers phys

lemma available_of_usable (h : Usable (bootType mem sym infoAddr es) phys) : Available mem sym infoAddr es phys := by
  obtain ⟨ty,hty,hus⟩ := h
  unfold bootType at hty
  split_ifs at hty with hfirm
  · obtain rfl := Option.some.inj hty
    cases hus
  · refine ⟨hfirm,fun m hm => ?_,fun hm => ?_⟩
    · rw [hm] at hty
      obtain rfl := Option.some.inj hty
      rcases Boot.mem_bootMarks (List.mem_reverse.mp (List.mem_of_find?_eq_some hm)) with h1 | h1 | rfl
      · rw [h1] at hus
        cases hus
      · exact h1
      · cases hus
    · rw [hm] at hty
      simp only [classify] at hty
      split_ifs at hty with h1 h2
      · obtain rfl := Option.some.inj hty
        cases hus
      · exact h2

/-- In every run that adds frames which `init` or the `Reclaimer` handed over, no byte of an object is of the firmware, of
what the marks of `init` keep in use (the kernel and the modules), or of a page table or `FrameInfo` of `init`. -/
theorem objects_available (hal : align.Lawful limit)
    (hrun : init tables previousTable kernel mem sym align fuel infoAddr = .ok res) (hss : res.reclaimer.reclaim align = .ok ss)
    (hlow : ∀ n, HasFrame (res.ranges ++ ss) n → n * FRAME_SIZE < PHYSICAL_MEMORY_MAX_SIZE)
    (hr : Reach mapped { n | HasFrame (res.ranges ++ ss) n } u) :
    ∃ es taken, Mmaps mem infoAddr es ∧ BootFrames tables kernel res taken ∧ ∀ p ∈ u.live, ∀ a, Inside a p →
      ∃ phys, a = PHYSICAL_MEMORY_OFFSET + phys ∧ Available mem sym infoAddr es phys ∧ roundDown 4096 phys ∉ taken := by
  obtain ⟨es,taken,hes,hboot,_,_,_,hall⟩ := Boot.init_frames hal hrun hss
  refine ⟨es,taken,hes,hboot,fun p hp a ha => ?_⟩
  -- the first frame is of the firmware
  have h0 : 0 ∉ { n | HasFrame (res.ranges ++ ss) n } := fun h =>
    (available_of_usable (((hall 0).mp h).1 0 le_rfl (by omega))).firmware (Or.inl (by omega))
  have hs := hr.splits h0 hlow
  obtain ⟨F,B,G,Q,ht⟩ := hs.reach.tracks
  obtain ⟨hle,hadded⟩ := hs.inside ht hp ha
  obtain ⟨hwhole,htaken⟩ := (hall (frameAt a)).mp (ht.added hadded)
  unfold frameAt FRAME_SIZE at hwhole htaken
  refine ⟨a - PHYSICAL_MEMORY_OFFSET,by omega,available_of_usable (hwhole _ (by omega) (by omega)),?_⟩
  rwa [roundDown, Nat.mul_comm]

/-- An object of 24 bytes in the frame that the `Reclaimer` hands over. -/
theorem objects_available_small : ∃ (es : List MultibootMmapEntry) (taken : List ℕ) (u : Usage) (p : ℕ × Layout), p ∈ u.live ∧
    p.2 = ⟨24,8⟩ ∧ ∃ phys, p.1 = PHYSICAL_MEMORY_OFFSET + phys ∧ Available Boot.smallMemory Boot.smallSymbols 4096 es phys ∧
      roundDown 4096 phys ∉ taken := by
  obtain ⟨res,ss,h1,h2,h3⟩ := Boot.exists_small
  have hok : ((Heap.dummy (BuddyAllocator.init fun _ => true) fun _ => 0).slubInit >>= fun h0 =>
      h0.buddy.addRange (5 * FRAME_SIZE) (6 * FRAME_SIZE) >>= fun st =>
      directAlloc { h0 with buddy := st } ⟨24,8⟩ >>= fun r => assert r.1.isOk "no memory").isOk = true := by decide +kernel
  cases hrun : ((Heap.dummy (BuddyAllocator.init fun _ => true) fun _ => 0).slubInit >>= fun h0 =>
      h0.buddy.addRange (5 * FRAME_SIZE) (6 * FRAME_SIZE) >>= fun st =>
      directAlloc { h0 with buddy := st } ⟨24,8⟩ >>= fun r => assert r.1.isOk "no memory") with
  | error e =>
    rw [hrun] at hok
    cases hok
  | ok _ =>
    obtain ⟨h0,e0,hrun⟩ := bind_ok hrun
    obtain ⟨st,e1,hrun⟩ := bind_ok hrun
    obtain ⟨⟨r,h'⟩,e2,hrun⟩ := bind_ok hrun
    have hr := assert_ok hrun
    cases r with
    | error e => cases hr
    | ok a =>
      have hsub : frameRange 5 6 ⊆ { n | HasFrame (res.ranges ++ ss) n } := by
        intro m hm
        obtain ⟨hm1,hm2⟩ := Buddy.mem_frameRange.mp hm
        obtain rfl : m = 5 := by omega
        rw [h3]
        exact ⟨⟨0x5000,0x6000⟩,by simp,by decide,by decide⟩
      have hres : ∀ m ∈ frameRange 5 6, h0.buddy.ty m = some .reserved := fun m _ => by
        rw [(Slub.slubInit_ok e0).1]
        rfl
      have hreach := ((Reach.init e0).addRange hsub hres e1).alloc ⟨by decide,3,rfl⟩ e2
      have hlow : ∀ n, HasFrame (res.ranges ++ ss) n → n * FRAME_SIZE < PHYSICAL_MEMORY_MAX_SIZE := by
        rintro n ⟨r,hr,_,hle⟩
        rw [h3] at hr
        simp only [List.mem_cons, List.not_mem_nil, or_false] at hr
        unfold FRAME_SIZE PHYSICAL_MEMORY_MAX_SIZE
        rcases hr with rfl | rfl <;> simp only at hle <;> omega
      obtain ⟨es,taken,_,_,h⟩ := objects_available Boot.physAlign_lawful h1 h2 hlow hreach
      have hmem : (a,⟨24,8⟩) ∈ (a,⟨24,8⟩) :: ([] : List (ℕ × Layout)) := List.mem_cons_self
      exact ⟨es,taken,⟨h',∅ ∪ frameRange 5 6,_⟩,(a,⟨24,8⟩),hmem,rfl,h _ hmem a ⟨le_rfl,by simp⟩⟩

end Lilith.Direct
