import Sos.Simulation.Boot
import Sos.Run
import Mathlib.Algebra.Order.BigOperators.Group.Finset

/-!
# Frames

What the invariants of the pool say about the frames of the code: no frame is in two roles at once,
and what is mapped is resident.
-/

namespace Sos

variable {k : Kernel} {M : Set Nat} {f : Nat}

/-! ## Roles -/

/-- What a frame managed by `frames.c` is used for. -/
inductive FrameRole
  | free | resident | swappingOut | pinned | pagetable | elfSwapfile
deriving DecidableEq, Repr

/-- The entry of a page, as it stands in the page table of a process. -/
def Kernel.pte (k : Kernel) (pid : Pid) (addr : Nat) : Pte := (k.sosProcs pid).pte (pageNo addr)

/-- A frame is in a role. -/
def Kernel.InRole (k : Kernel) (f : Nat) : FrameRole → Prop
  | .free => f ∈ k.freeFrames
  | .resident => ∃ x ∈ k.alloced, (k.pte x.1 x.2).addr = f
  | .swappingOut => ∃ pr, .swapout pr ∈ k.requests ∧ pr.addr = f
  | .pinned => k.pinnedFrame = f
  | .pagetable => ∃ pid p, k.sosProcs pid = .pcb p ∧ f ∈ p.pagetable.frames
  | .elfSwapfile => ∃ pid p, k.sosProcs pid = .pcb p ∧ ∃ r ∈ p.regions, r.elffile = some f

/-- How often a frame is in a role. -/
def Pool.roleCount (P : Pool) (f : Nat) : FrameRole → Nat
  | .free => P.free.count f
  | .resident => P.residentCount P.alloced f
  | .swappingOut => P.writing.count f
  | .pinned => if P.pinned = f then 1 else 0
  | .pagetable => ∑ p, (P.tables p).count f
  | .elfSwapfile => ∑ p, (P.elfs p).count f

theorem Pool.roleCount_add_le {P : Pool} {r r' : FrameRole} (h : r ≠ r') :
    P.roleCount f r + P.roleCount f r' ≤ P.own f := by
  unfold Pool.own
  rw [Finset.sum_add_distrib]
  cases r <;> cases r' <;> simp only [ne_eq, not_true_eq_false, reduceCtorEq,
    not_false_eq_true] at h <;>
    simp only [Pool.roleCount] <;> omega

theorem roleCount_pos {r : FrameRole} (h : k.InRole f r) : 1 ≤ k.pool.roleCount f r := by
  cases r with
  | free => exact Multiset.one_le_count_iff_mem.mpr (Multiset.mem_coe.mpr h)
  | resident =>
    obtain ⟨x, hx, hf⟩ := h
    have hmem : (x.1, pageNo x.2) ∈ k.pool.alloced :=
      Multiset.mem_coe.mpr (List.mem_map.mpr ⟨x, hx, rfl⟩)
    exact Multiset.countP_pos.mpr ⟨_, hmem, hf⟩
  | swappingOut =>
    obtain ⟨pr, hpr, hf⟩ := h
    refine Multiset.one_le_count_iff_mem.mpr (Multiset.mem_coe.mpr ?_)
    exact List.mem_filterMap.mpr ⟨_, hpr, by rw [← hf]; rfl⟩
  | pinned =>
    have hf : k.pinnedFrame = f := h
    show 1 ≤ if k.pinnedFrame = f then 1 else 0
    rw [if_pos hf]
  | pagetable =>
    obtain ⟨pid, p, hp, hf⟩ := h
    refine le_trans ?_ (Finset.single_le_sum (fun _ _ => Nat.zero_le _) (Finset.mem_univ pid))
    refine Multiset.one_le_count_iff_mem.mpr ?_
    show f ∈ (k.sosProcs pid).tables
    rw [hp]
    exact Multiset.mem_coe.mpr hf
  | elfSwapfile =>
    obtain ⟨pid, p, hp, r, hr, hf⟩ := h
    refine le_trans ?_ (Finset.single_le_sum (fun _ _ => Nat.zero_le _) (Finset.mem_univ pid))
    refine Multiset.one_le_count_iff_mem.mpr ?_
    show f ∈ (k.sosProcs pid).elfs
    rw [hp]
    exact Multiset.mem_coe.mpr (List.mem_filterMap.mpr ⟨r, hr, hf⟩)

/-- The records of resident pages name different pages with different frames. -/
theorem Sound.alloced_pairwise (h : Sound M k) (hex : k.unbacked = false) :
    k.alloced.Pairwise fun x y => (x.1, pageNo x.2) ≠ (y.1, pageNo y.2) ∧
      (k.pte x.1 x.2).addr ≠ (k.pte y.1 y.2).addr := by
  have ho := h.own hex
  have hpages : (k.alloced.map fun x => (x.1, pageNo x.2)).Nodup := Multiset.coe_nodup.mp ho.nodup
  have hframes : (k.alloced.map fun x => (k.pte x.1 x.2).addr).Nodup := by
    refine List.nodup_iff_count_le_one.mpr fun f => ?_
    by_cases hf : f = 0
    · subst hf
      refine (List.count_eq_zero.mpr fun hm => ?_).le.trans (by omega)
      obtain ⟨x, hx, h0⟩ := List.mem_map.mp hm
      exact (ho.resident (x.1, pageNo x.2)
        (Multiset.mem_coe.mpr (List.mem_map.mpr ⟨x, hx, rfl⟩))).2 h0
    · have hle : k.pool.residentCount k.pool.alloced f ≤ 1 := by
        have := ho.unique f hf
        unfold Pool.own at this
        omega
      have hcount : k.pool.residentCount k.pool.alloced f =
          (k.alloced.map fun x => (k.pte x.1 x.2).addr).count f := by
        show Multiset.countP _ (Multiset.ofList (k.alloced.map _)) = _
        rw [Multiset.coe_countP, List.countP_map, List.count_eq_countP, List.countP_map]
        rfl
      omega
  exact (List.pairwise_map.mp hpages).and (List.pairwise_map.mp hframes)

theorem Sound.backed_of_not_exhausted (h : Sound M k) (hex : k.exhausted = false) :
    k.unbacked = false := by
  cases hu : k.unbacked with
  | false => rfl
  | true =>
    rw [h.backed hu] at hex
    simp at hex

/-- A managed frame has one role. -/
theorem Sound.role_unique (h : Sound M k) (hu : k.unbacked = false) (hf : f ∈ M)
    {r r' : FrameRole} (hr : k.InRole f r) (hr' : k.InRole f r') : r = r' := by
  by_contra hne
  have hone := (h.own hu).unique f (h.managed f hf).1
  have hadd := Pool.roleCount_add_le (P := k.pool) (f := f) hne
  have h1 := roleCount_pos hr
  have h2 := roleCount_pos hr'
  omega

/-- **Frame ownership is exclusive.** As long as `frame_alloc` has not returned 0, no managed frame
is in two roles, and no two records of resident pages share a page or a frame. -/
theorem frame_ownership_exclusive {C : Kernel → Event → Prop} (hr : Reachable M C k)
    (hex : k.exhausted = false) :
    (∀ f ∈ M, ∀ r r', k.InRole f r → k.InRole f r' → r = r') ∧
      k.alloced.Pairwise fun x y => (x.1, pageNo x.2) ≠ (y.1, pageNo y.2) ∧
        (k.pte x.1 x.2).addr ≠ (k.pte y.1 y.2).addr := by
  have hs := hr.sound
  have hu := hs.backed_of_not_exhausted hex
  exact ⟨fun f hf r r' => hs.role_unique hu hf, hs.alloced_pairwise hu⟩

/-- Two processes with three resident pages between them. -/
theorem frame_ownership_exclusive_threePages :
    ∃ k, Reachable (coldFrames 12) (fun _ _ => True) k ∧ k.exhausted = false ∧
      k.alloced = [(2, 0x10000), (3, 0x10000), (2, 0x11000)] ∧
      (∀ f ∈ coldFrames 12, ∀ r r', k.InRole f r → k.InRole f r' → r = r') := by
  obtain ⟨k, hr, hobs⟩ := reachable_of_run 12 20 [[appRegion], [appRegion]] (fun _ _ => True)
    threePagesRun (fun k => (k.exhausted, k.alloced))
    (v := (false, [(2, 0x10000), (3, 0x10000), (2, 0x11000)])) (by decide) (by decide +kernel)
  obtain ⟨hex, ha⟩ := Prod.mk.inj hobs
  exact ⟨k, hr, hex, ha, (frame_ownership_exclusive hr hex).1⟩

/-- What the address space of a process maps is what its page table says. -/
def Kernel.MapsResident (k : Kernel) : Prop :=
  ∀ pid n f, k.mmu pid n = some f → ∃ p, k.sosProcs pid = .pcb p ∧
    (p.pagetable.entry n).swap = false ∧ (p.pagetable.entry n).ref = true ∧
    (p.pagetable.entry n).addr = f

/-- A managed frame that is mapped has no other use: it is not free and not being written to swap,
and no other page has it. -/
def Kernel.MapsOwned (M : Set Nat) (k : Kernel) : Prop :=
  ∀ pid n f, k.mmu pid n = some f → f ∈ M →
    (∀ r, k.InRole f r → r = .resident) ∧
    ∀ pid' n', ((k.sosProcs pid').pte n').swap = false → ((k.sosProcs pid').pte n').addr = f →
      pid' = pid ∧ n' = n

theorem Sound.mapsResident (h : Sound M k) : k.MapsResident := by
  intro pid n f hm
  obtain ⟨hl, hs, hr, ha⟩ := h.inv.mapped pid n f hm
  obtain ⟨p, hp⟩ := Slot.exists_pcb_of_live (show (k.sosProcs pid).live = true from hl)
  have hpte : k.pool.pte pid n = p.pagetable.entry n := by
    show (k.sosProcs pid).pte n = _
    rw [hp]
    rfl
  rw [hpte] at hs hr ha
  exact ⟨p, hp, hs, hr, ha⟩

/-- A page that holds a managed frame is recorded. -/
theorem Sound.exists_alloced (h : Sound M k) (hu : k.unbacked = false) {pid : Pid} {n : Page}
    (hs : ((k.sosProcs pid).pte n).swap = false) (ha : ((k.sosProcs pid).pte n).addr = f)
    (hf : f ∈ M) : ∃ x ∈ k.alloced, x.1 = pid ∧ pageNo x.2 = n ∧ (k.pte x.1 x.2).addr = f := by
  have ha' : (k.pool.pte pid n).addr = f := ha
  obtain hm | hm := (h.own hu).recorded pid n hs (by rw [ha']; exact (h.managed f hf).1)
  · obtain ⟨x, hx, he⟩ := List.mem_map.mp (Multiset.mem_coe.mp hm)
    obtain ⟨h1, h2⟩ := Prod.mk.inj he
    refine ⟨x, hx, h1, h2, ?_⟩
    unfold Kernel.pte
    rw [h1, h2]
    exact ha
  · rw [ha'] at hm
    exact absurd hf hm

theorem Sound.mapsOwned (h : Sound M k) (hu : k.unbacked = false) : k.MapsOwned M := by
  intro pid n f hm hf
  obtain ⟨-, hs, -, ha⟩ := h.inv.mapped pid n f hm
  obtain ⟨x, hx, rfl, rfl, hxf⟩ := h.exists_alloced hu hs ha hf
  refine ⟨fun r hr => h.role_unique hu hf hr ⟨x, hx, hxf⟩, fun pid' n' hs' ha' => ?_⟩
  obtain ⟨y, hy, rfl, rfl, hyf⟩ := h.exists_alloced hu hs' ha' hf
  -- two records with one frame are the same record
  have hxy : y = x := by
    by_contra hne
    have hsymm : Std.Symm fun x y : Pid × Nat =>
        (x.1, pageNo x.2) ≠ (y.1, pageNo y.2) ∧ (k.pte x.1 x.2).addr ≠ (k.pte y.1 y.2).addr :=
      ⟨fun _ _ hxy => ⟨hxy.1.symm, hxy.2.symm⟩⟩
    exact ((h.alloced_pairwise hu).forall hy hx hne).2 (hyf.trans hxf.symm)
  rw [hxy]
  exact ⟨rfl, rfl⟩

/-- With every frame in use, page `0x13000` of process 3 is recorded without a frame and the process
waits behind the load that process 2 has asked for. Process 4 is killed, the load fails and the page
is recorded again, now with a frame. When process 3 is killed this frame is given back twice; the
second page of process 2 gets it while it is still on the free list. -/
def exhaustingRun : List Event :=
  [.processCreate 2 0 0 0, .pagefault 4 0x10000 4, .pagefault 3 0x10000 4, .pagefault 3 0x11000 4,
    .pagefault 3 0x12000 4, .pagefault 3 0x13000 4, .exception 4, .vfsReply (-1) (fun _ => 0),
    .exception 3, .pagefault 2 0x10000 4, .pagefault 2 0x11000 4]

end Sos
