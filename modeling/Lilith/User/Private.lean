import Lilith.User.Faults

/-! Every process has a memory of its own: whatever the processes and the rest of the kernel do, a process reads what it wrote
last, or zero. -/
namespace Lilith.User
open Theory PtrGraph CTree Rbtree
open Buddy (FRAME_SIZE)
open Direct (Usage Reach)
open VirtualAlloc (Range Ordered)

/-- Runs of the processes over an allocator. Other parts of the kernel may allocate, free and write what they like, if they
leave the frames of the processes alone. -/
inductive Run (mapped : ℕ → Bool) (U : Set ℕ) : State → (ℕ → Private) → Prop
  | init {u : Usage} {memory : ℕ → UInt8} (h : Reach mapped U u) :
      Run mapped U ⟨u,memory,fun _ => none⟩ fun _ => ⟨fun _ => 0,[]⟩
  | newProc {s s' : State} {m : ℕ → Private} {i : ℕ} {ok : Bool} (h : Run mapped U s m) (hi : s.procs i = none)
      (hrun : s.newProc i = .ok (ok,s')) : Run mapped U s' m
  | addMapping {s s' : State} {m : ℕ → Private} {i : ℕ} {r : Range} {mem : Option MemoryError} (h : Run mapped U s m)
      (hr : r.start ≤ r.end_) (hrun : s.addMapping i r mem = .ok s') :
      Run mapped U s' (Function.update m i { m i with ranges := r :: (m i).ranges })
  | read {s s' : State} {m : ℕ → Private} {tables i a : ℕ} {phys : Option ℕ} (h : Run mapped U s m)
      (hrun : s.access tables i a = .ok (phys,s')) : Run mapped U s' m
  | write {s s' : State} {m : ℕ → Private} {tables i a phys : ℕ} {b : UInt8} (h : Run mapped U s m)
      (hrun : s.access tables i a = .ok (some phys,s')) :
      Run mapped U (s'.write phys b) (Function.update m i { m i with bytes := Function.update (m i).bytes a b })
  | other {s : State} {m : ℕ → Private} {u : Usage} {memory : ℕ → UInt8} (h : Run mapped U s m) (hu : Reach mapped U u)
      (hlive : ∀ i phys, s.Owns i phys → frameObject phys ∈ u.live)
      (hmem : ∀ i f, s.Owns i f → ∀ a, f ≤ a → a < f + FRAME_SIZE → memory a = s.memory a) :
      Run mapped U { s with usage := u, memory := memory } m

/-- The access reaches a byte of a frame that only this page of this process has, and the byte is the one that the process
should see. The page is one of a range that was mapped. -/
structure Reached (s : State) (m : ℕ → Private) (i a phys : ℕ) : Prop where
  byte : s.memory phys = (m i).bytes a
  page : ∃ p f, s.procs i = some p ∧ p.pages (a / FRAME_SIZE) = some f ∧ phys = f + a % FRAME_SIZE ∧ frameObject f ∈ s.usage.live
  alone : ∀ j f, s.Owns j f → f ≤ phys → phys < f + FRAME_SIZE → j = i
  mapped : ∃ r ∈ (m i).ranges, ∃ a', r.Has a' ∧ a' / FRAME_SIZE = a / FRAME_SIZE

variable {mapped : ℕ → Bool} {U : Set ℕ} {s s' : State} {m : ℕ → Private} {i j a f k page phys tables : ℕ} {p : ProcMemory}

section
variable (h0 : 0 ∉ U) (hlow : ∀ n ∈ U, n * FRAME_SIZE < PHYSICAL_MEMORY_MAX_SIZE)
include h0 hlow

namespace Inv

lemma newProc (h : Inv mapped U s m) (hi : s.procs i = none) {ok : Bool} (hrun : s.newProc i = .ok (ok,s')) : Inv mapped U s' m := by
  obtain ⟨res,s1,halloc,hg⟩ := allocFrame_cases h0 hlow h.reach
  have h1 := h.grow hg
  obtain ⟨_,halloc',hrun⟩ := bind_ok hrun
  obtain rfl := Except.ok.inj (halloc.symm.trans halloc')
  cases res with
  | none =>
    obtain ⟨_,rfl⟩ := Prod.mk.inj (Except.ok.inj hrun)
    exact h1
  | some frame =>
    obtain ⟨_,_,hrun⟩ := bind_ok hrun
    obtain ⟨_,rfl⟩ := Prod.mk.inj (Except.ok.inj hrun)
    have hlive : s1.usage.live = frameObject frame :: s.usage.live := hg.live
    have hnew : ∀ j g, s.Owns j g → g ≠ frame := by
      rintro j g ho rfl
      exact frame_new h0 hlow hg.reach hlive (h.owned j g ho)
    -- a process with pages is one from before
    have hold : ∀ {j q v g}, Function.update s1.procs i (some ⟨.new ⟨[]⟩,frame,fun _ => none⟩) j = some q → q.pages v = some g →
        s.procs j = some q := by
      intro j q v g hq hv
      rcases procs_update hq with ⟨_,rfl⟩ | ⟨_,hq⟩
      · cases hv
      · rwa [hg.procs] at hq
    refine ⟨h1.reach,?_,?_,?_,?_,?_,?_,?_,?_⟩
    · rintro j phys ⟨q,hq,hphys⟩
      rcases procs_update hq with ⟨_,rfl⟩ | ⟨_,hq⟩
      · rcases hphys with rfl | ⟨v,hv⟩
        · change _ ∈ s1.usage.live
          rw [hlive]
          exact List.mem_cons_self
        · cases hv
      · exact h1.owned j phys ⟨q,hq,hphys⟩
    · intro j k q q' v w g hq hq' hv hw
      exact h.own j k q q' v w g (hold hq hv) (hold hq' hw) hv hw
    · intro j q v g hq hv o ho
      exact h1.bytes j q v g (hg.procs ▸ hold hq hv) hv o ho
    · intro j v hnone o ho
      refine h1.untouched j v (fun q hq => ?_) o ho
      by_cases hj : j = i
      · rw [hj, hg.procs, hi] at hq
        cases hq
      · exact hnone q (by simpa only [Function.update_of_ne hj] using hq)
    · intro j q v g hq hv
      exact h.touched j q v g (hold hq hv) hv
    · intro j k q q' v hq hq' hv
      have hq' := hold hq' hv
      rcases procs_update hq with ⟨_,rfl⟩ | ⟨_,hq⟩
      · exact hnew k frame ⟨q',hq',Or.inr ⟨v,hv⟩⟩ rfl
      · exact h.tables j k q q' v (hg.procs ▸ hq) hq' hv
    · intro j q hq
      rcases procs_update hq with ⟨rfl,rfl⟩ | ⟨_,hq⟩
      · refine ⟨leaf,⟨⟨trivial,rfl,by simp⟩,⟨0,rfl⟩,trivial⟩,⟨by simp [values],by simp [values]⟩,fun a => ?_⟩
        rw [h.absent j hi]
        simp [values]
      · exact h1.mappings j q hq
    · intro j hj
      change Function.update s1.procs i _ j = none at hj
      refine h1.absent j ?_
      by_cases he : j = i
      · rw [he, Function.update_self] at hj
        cases hj
      · rwa [Function.update_of_ne he] at hj

/-- The handler maps the page if the address is in a range that was mapped, and does not return otherwise. -/
lemma fault (h : Inv mapped U s m) (hp : s.procs i = some p) (ha : a < USER_END) (hpage : p.pages (a / FRAME_SIZE) = none)
    (tables : ℕ) :
    (∃ s' f, s.pageFaultHandler tables (some i) a = .ok (true,s') ∧ Inv mapped U s' m ∧
      s'.procs = Function.update s.procs i (some { p with pages := Function.update p.pages (a / FRAME_SIZE) (some f) })) ∨
    (s.pageFaultHandler tables (some i) a = .ok (false,s) ∧ ∀ r ∈ (m i).ranges, ¬ r.Has a) ∨
    ∃ e, s.pageFaultHandler tables (some i) a = .error e ∧ OutOfMemory e := by
  have huser : isUserAddress a = true := by
    have hlt : a < 2^48 := ha.trans (by decide)
    simp only [isUserAddress, Nat.shiftRight_eq_div_pow, Nat.div_eq_of_lt hlt, decide_true]
  obtain ⟨t,hv,ho,hmem⟩ := h.mappings i p hp
  obtain ⟨v,hspan,hsome⟩ := VirtualAlloc.spanContaining_isSome hv ho a
  rw [hmem] at hsome
  simp only [State.pageFaultHandler, huser, if_true, hp, hspan, bind, Except.bind]
  by_cases hin : ∃ r ∈ (m i).ranges, r.Has a
  · rw [if_pos (hsome.mpr hin)]
    obtain ⟨res,s1,halloc,hg⟩ := allocFrame_cases h0 hlow h.reach
    simp only [halloc]
    cases res with
    | none => exact Or.inr (Or.inr ⟨_,rfl,Or.inl rfl⟩)
    | some frame =>
      have hlive : s1.usage.live = frameObject frame :: s.usage.live := hg.live
      have hin1 : frameObject frame ∈ s1.usage.live := by
        rw [hlive]
        exact List.mem_cons_self
      have hnew : ∀ j g, s.Owns j g → g ≠ frame := by
        rintro j g hown rfl
        exact frame_new h0 hlow hg.reach hlive (h.owned j g hown)
      have hzero : s1.zeroFrame frame = .ok { s1 with
          memory := fun b => if frame ≤ b ∧ b < frame + FRAME_SIZE then 0 else s1.memory b } := by
        rw [State.zeroFrame, physToVirt_of_lt (frame_low h0 hlow hg.reach hin1)]
        rfl
      obtain ⟨s2,hs2⟩ : ∃ s2 : State, s2 = { s1 with
          memory := fun b => if frame ≤ b ∧ b < frame + FRAME_SIZE then 0 else s1.memory b } := ⟨_,rfl⟩
      rw [← hs2] at hzero
      -- clearing the frame changes no page
      have h2 : Inv mapped U s2 m := by
        rw [hs2]
        refine (h.grow hg).other hg.reach (h.grow hg).owned fun j g hown b hb1 hb2 => ?_
        have hown' : s.Owns j g := by rwa [State.Owns, hg.procs] at hown
        have hap := frames_apart h0 hlow hg.reach ((h.grow hg).owned j g hown) hin1 (hnew j g hown')
        exact if_neg (by omega)
      obtain ⟨enough,s3,fs,htables,hg3⟩ := addTables_cases h0 hlow tables h2.reach
      have hprocs : s3.procs = s.procs := by
        rw [hg3.procs, hs2]
        exact hg.procs
      simp only [hzero, State.mapTo, htables, bind, Except.bind]
      cases enough with
      | false => exact Or.inr (Or.inr ⟨_,rfl,Or.inr rfl⟩)
      | true =>
        have hp3 : s3.procs i = some p := by rw [hprocs, hp]
        simp only [not_true_eq_false, if_false, hp3, hpage, Option.isSome_none, Bool.false_eq_true, pure, Except.pure]
        refine Or.inl ⟨_,frame,rfl,?_,by rw [hprocs]⟩
        obtain ⟨r,hr,ha'⟩ := hin
        refine (h2.grow hg3).mapPage hp3 hpage ?_ ?_ ?_ ⟨r,hr,a,ha',rfl⟩
        · rw [hg3.live, hs2]
          exact List.mem_append_right _ hin1
        · intro j g hown
          exact hnew j g (by rwa [State.Owns, hprocs] at hown)
        · intro o ho
          rw [hg3.memory, hs2]
          exact if_pos ⟨Nat.le_add_right _ _,Nat.add_lt_add_left ho _⟩
  · rw [if_neg (fun hs => hin (hsome.mp hs))]
    refine Or.inr (Or.inl ⟨rfl,fun r hr ha' => hin ⟨r,hr,ha'⟩⟩)

/-- The byte that a translated access reaches. -/
lemma reached (h : Inv mapped U s m) (ht : s.translate i a = some phys) : Reached s m i a phys ∧ a < USER_END := by
  have hpos : 0 < FRAME_SIZE := by decide
  unfold State.translate at ht
  cases hp : s.procs i with
  | none =>
    rw [hp] at ht
    cases ht
  | some p =>
    simp only [hp, bind, Option.bind] at ht
    split_ifs at ht with ha
    · cases hpage : p.pages (a / FRAME_SIZE) with
      | none =>
        rw [hpage] at ht
        cases ht
      | some f =>
        rw [hpage] at ht
        obtain rfl := Option.some.inj ht
        have hmod : a % FRAME_SIZE < FRAME_SIZE := Nat.mod_lt _ hpos
        have hlive := h.owned i f ⟨p,hp,Or.inr ⟨_,hpage⟩⟩
        refine ⟨⟨?_,⟨p,f,hp,hpage,rfl,hlive⟩,?_,h.touched i p _ f hp hpage⟩,ha⟩
        · rw [h.bytes i p _ f hp hpage _ hmod, Nat.div_add_mod']
        · intro j g hown h1 h2
          by_cases hg : g = f
          · subst hg
            obtain ⟨q,hq,rfl | ⟨w,hw⟩⟩ := hown
            · exact absurd hpage (h.tables j i q p _ hq hp)
            · exact (h.own j i q p w _ g hq hp hw hpage).1
          · have := frames_apart h0 hlow h.reach (h.owned j g hown) hlive hg
            omega

/-- An access: it reaches the byte, it ends in the handler, or there is no memory for the page. -/
lemma access (h : Inv mapped U s m) (hp : s.procs i = some p) (tables a : ℕ) :
    (∃ s' phys, s.access tables i a = .ok (some phys,s') ∧ Inv mapped U s' m ∧ s'.translate i a = some phys) ∨
    (s.access tables i a = .ok (none,s) ∧ (USER_END ≤ a ∨ p.pages (a / FRAME_SIZE) = none ∧ ∀ r ∈ (m i).ranges, ¬ r.Has a)) ∨
    ∃ e, s.access tables i a = .error e ∧ OutOfMemory e := by
  unfold State.access
  cases ht : s.translate i a with
  | some phys => exact Or.inl ⟨s,phys,rfl,h,ht⟩
  | none =>
    by_cases ha : a < USER_END
    · have hpage : p.pages (a / FRAME_SIZE) = none := by
        cases hpage : p.pages (a / FRAME_SIZE) with
        | none => rfl
        | some f => simp [State.translate, hp, ha, hpage] at ht
      simp only [if_pos ha]
      rcases h.fault h0 hlow hp ha hpage tables with ⟨s',f,hrun,hi,hprocs⟩ | ⟨hrun,hno⟩ | ⟨e,hrun,he⟩
      · have ht' : s'.translate i a = some (f + a % FRAME_SIZE) := by
          simp [State.translate, hprocs, ha]
        refine Or.inl ⟨s',f + a % FRAME_SIZE,?_,hi,ht'⟩
        simp only [hrun, bind, Except.bind, if_true, ht', pure, Except.pure]
      · refine Or.inr (Or.inl ⟨?_,Or.inr ⟨hpage,hno⟩⟩)
        simp only [hrun, bind, Except.bind, Bool.false_eq_true, if_false, pure, Except.pure]
      · refine Or.inr (Or.inr ⟨e,?_,he⟩)
        simp only [hrun, bind, Except.bind]
    · simp only [if_neg ha]
      exact Or.inr (Or.inl ⟨rfl,Or.inl (Nat.le_of_not_lt ha)⟩)

lemma access_ok (h : Inv mapped U s m) {res : Option ℕ} (hrun : s.access tables i a = .ok (res,s')) :
    Inv mapped U s' m ∧ ∀ phys, res = some phys → s'.translate i a = some phys := by
  cases hp : s.procs i with
  | none =>
    -- there is no process, and the handler faults
    have ht : s.translate i a = none := by simp [State.translate, hp]
    simp only [State.access, ht, State.pageFaultHandler, hp, bind, Except.bind] at hrun
    split_ifs at hrun
    · simp [pure, Except.pure] at hrun
      obtain ⟨rfl,rfl⟩ := hrun
      exact ⟨h,by simp⟩
    · obtain ⟨rfl,rfl⟩ := Prod.mk.inj (Except.ok.inj hrun)
      exact ⟨h,by simp⟩
  | some p =>
    rcases h.access h0 hlow hp tables a with ⟨s1,phys,h1,hi,ht⟩ | ⟨h1,_⟩ | ⟨e,h1,_⟩
    · obtain ⟨rfl,rfl⟩ := Prod.mk.inj (Except.ok.inj (h1.symm.trans hrun))
      refine ⟨hi,fun phys' he => ?_⟩
      rw [ht, he]
    · obtain ⟨rfl,rfl⟩ := Prod.mk.inj (Except.ok.inj (h1.symm.trans hrun))
      exact ⟨h,by simp⟩
    · cases h1.symm.trans hrun

end Inv

/-- The invariant holds in every run. -/
lemma Run.inv (h : Run mapped U s m) : Inv mapped U s m := by
  induction h with
  | init hu =>
    refine ⟨hu,?_,by simp,by simp,by simp,by simp,by simp,by simp,by simp⟩
    rintro i phys ⟨p,hp,_⟩
    cases hp
  | newProc _ hi hrun ih => exact ih.newProc h0 hlow hi hrun
  | addMapping _ hr hrun ih => exact ih.addMapping hr hrun
  | read _ hrun ih => exact (ih.access_ok h0 hlow hrun).1
  | @write s s' m tables i a phys b _ hrun ih =>
    obtain ⟨hi,ht⟩ := ih.access_ok h0 hlow hrun
    obtain ⟨⟨_,⟨p,f,hp,hpage,rfl,_⟩,_⟩,_⟩ := hi.reached h0 hlow (ht phys rfl)
    exact hi.write h0 hlow hp hpage b
  | other _ hu hlive hmem ih => exact ih.other hu hlive hmem

/-- In every run, whatever processes and other parts of the kernel did, an access of a process to an address does one of three
things. It reaches a byte of a frame of this process alone, and the byte is the one the process wrote there last, or zero if it
never did. Or the handler does not return, which happens from `USER_END` on, also inside of a range that `add_mapping`
accepted there, and where neither the page was accessed before nor the address is in a range that was mapped. Or there
is no memory for the page. -/
theorem access_private (h : Run mapped U s m) (hp : s.procs i = some p) (tables a : ℕ) :
    (∃ s' phys, s.access tables i a = .ok (some phys,s') ∧ Reached s' m i a phys) ∨
    (s.access tables i a = .ok (none,s) ∧ (USER_END ≤ a ∨ p.pages (a / FRAME_SIZE) = none ∧ ∀ r ∈ (m i).ranges, ¬ r.Has a)) ∨
    ∃ e, s.access tables i a = .error e ∧ OutOfMemory e := by
  rcases (h.inv h0 hlow).access h0 hlow hp tables a with ⟨s',phys,h1,hi,ht⟩ | h1 | h1
  · exact Or.inl ⟨s',phys,h1,(hi.reached h0 hlow ht).1⟩
  · exact Or.inr (Or.inl h1)
  · exact Or.inr (Or.inr h1)

end

section Small

/-- A process over an allocator with the frames 1, 2 and 3. -/
def smallStart : Except Fault State := do
  let h0 ← (Slub.Heap.dummy (Buddy.BuddyAllocator.init fun _ => true) fun _ => 0).slubInit
  let st ← h0.buddy.addRange (1 * FRAME_SIZE) (4 * FRAME_SIZE)
  let (_,s) ← State.newProc ⟨⟨{ h0 with buddy := st },∅ ∪ Buddy.frameRange 1 4,[]⟩,fun _ => 0,fun _ => none⟩ 0
  return s

lemma smallStart_run (hrun : smallStart = .ok s) : Run (fun _ => true) (Buddy.frameRange 1 4) s fun _ => ⟨fun _ => 0,[]⟩ := by
  obtain ⟨h0,e0,hrun⟩ := bind_ok hrun
  obtain ⟨st,e1,hrun⟩ := bind_ok hrun
  obtain ⟨⟨ok,s1⟩,e2,hrun⟩ := bind_ok hrun
  obtain rfl := Except.ok.inj hrun
  have hres : ∀ n ∈ Buddy.frameRange 1 4, h0.buddy.ty n = some .reserved := fun n _ => by
    rw [(Slub.slubInit_ok e0).1]
    rfl
  exact (Run.init ((Reach.init e0).addRange (Set.Subset.refl _) hres e1)).newProc rfl e2

lemma small_frames : 0 ∉ Buddy.frameRange 1 4 ∧ ∀ n ∈ Buddy.frameRange 1 4, n * FRAME_SIZE < PHYSICAL_MEMORY_MAX_SIZE := by
  refine ⟨fun h => ?_,fun n hn => ?_⟩
  · have := (Buddy.mem_frameRange.mp h).1
    omega
  · have := (Buddy.mem_frameRange.mp hn).2
    unfold FRAME_SIZE PHYSICAL_MEMORY_MAX_SIZE
    omega

/-- The first access to a page that was mapped. -/
theorem access_private_first : ∃ s m s' phys, Run (fun _ => true) (Buddy.frameRange 1 4) s m ∧
    s.access 0 0 5000 = .ok (some phys,s') ∧ Reached s' m 0 5000 phys := by
  have hok : (smallStart >>= fun s => s.addMapping 0 ⟨4096,8192⟩ none >>= fun s => assert (s.procs 0).isSome "" >>= fun _ =>
      s.access 0 0 5000).isOk = true := by decide +kernel
  cases hrun : (smallStart >>= fun s => s.addMapping 0 ⟨4096,8192⟩ none >>= fun s => assert (s.procs 0).isSome "" >>= fun _ =>
      s.access 0 0 5000) with
  | error e =>
    rw [hrun] at hok
    cases hok
  | ok r =>
    obtain ⟨s0,e0,hrun⟩ := bind_ok hrun
    obtain ⟨s,e1,hrun⟩ := bind_ok hrun
    obtain ⟨_,e2,hrun⟩ := bind_ok hrun
    obtain ⟨p,hp⟩ := Option.isSome_iff_exists.mp (assert_ok e2)
    have hr := (smallStart_run e0).addMapping (by decide : 4096 ≤ 8192) e1
    rcases access_private small_frames.1 small_frames.2 hr hp 0 5000 with ⟨s',phys,h1,h2⟩ | ⟨_,h1⟩ | ⟨e,h1,_⟩
    · exact ⟨s,_,s',phys,hr,h1,h2⟩
    · rcases h1 with h1 | h1
      · exact absurd h1 (by decide)
      · rw [Function.update_self] at h1
        exact absurd ⟨by decide,by decide⟩ (h1.2 ⟨4096,8192⟩ List.mem_cons_self)
    · cases h1.symm.trans hrun

end Small
end Lilith.User
