import Sos.Simulation.Handle

/-!
# Start-up, and what holds in every reachable state

`pager_init` leaves behind a pool in which all invariants hold (`Initialised.sound`), the processes
of the boot image are spawned by steps of the pool, and so is every message handled: `Sound` holds
in every reachable state.
-/

namespace Sos

open Hoare

variable {k k' : Kernel} {E : Fault → Kernel → Prop} {pid : Pid} {M : Set Nat} {b : Bool}
variable {p : Process} {f : Nat} {rest : List Nat}

/-! ## The threads of the root server -/

namespace Threads

theorem congr (h : Threads M k) (hf : k'.free = k.free) (hp : k'.sosProcs = k.sosProcs)
    (ht : k'.tidOffset = k.tidOffset) (hn : k.tidOffset ≤ k'.nextPid) : Threads M k' where
  managed := h.managed
  free_managed := by rw [hf]; exact h.free_managed
  free_nodup := by rw [hf]; exact h.free_nodup
  threads := by rw [hf, hp]; exact h.threads
  threads_inj := by rw [hp]; exact h.threads_inj
  rootserver := by rw [hp]; exact h.rootserver
  rootthreads := by rw [hp]; exact h.rootthreads
  nobody := by rw [hp]; exact h.nobody
  reserved := by rw [hp]; exact h.reserved
  tidOffset := by rw [ht]; exact ⟨h.tidOffset.1, hn⟩

/-- A frame is taken off the free list. -/
theorem taken (h : Threads M k) (hfree : k.free = f :: rest) : Threads M (k.frameTaken rest) where
  managed := h.managed
  free_managed := fun g hg => h.free_managed g (by rw [hfree]; exact List.mem_cons_of_mem _ hg)
  free_nodup := by
    have hnd := h.free_nodup
    rw [hfree] at hnd
    exact (List.nodup_cons.mp hnd).2
  threads := fun pid p hp => by
    obtain ⟨h1, h2, h3, h4⟩ := h.threads pid p hp
    exact ⟨h1, h2, fun hm => h3 (by rw [hfree]; exact List.mem_cons_of_mem _ hm), h4⟩
  threads_inj := h.threads_inj
  rootserver := h.rootserver
  rootthreads := h.rootthreads
  nobody := h.nobody
  reserved := h.reserved
  tidOffset := h.tidOffset

/-- A new thread, with a frame that was free before. -/
theorem enter (h : Threads M k) (hnull : k.sosProcs pid = .null) (hty : p.psType = .rootthread)
    (hwait : p.waitingOn = waitNobody) (hreg : p.regions = []) (hM : p.pagetable.frame ∈ M)
    (hfree : p.pagetable.frame ∉ k.free) (hpages : ∀ i, p.pagetable.pages2 i = none)
    (hnew : ∀ pid' q, k.sosProcs pid' = .pcb q → q.pagetable.frame ≠ p.pagetable.frame) :
    Threads M (k.setSlot pid (.pcb p)) where
  managed := h.managed
  free_managed := h.free_managed
  free_nodup := h.free_nodup
  threads := fun pid' q hq => by
    by_cases hpid : pid' = pid
    · subst hpid
      rw [setSlot_self] at hq
      injection hq with hq
      subst hq
      exact ⟨hreg, hM, hfree, hpages⟩
    · rw [setSlot_of_ne hpid] at hq
      exact h.threads pid' q hq
  threads_inj := fun pid₁ p₁ pid₂ p₂ h₁ h₂ heq => by
    by_cases hp₁ : pid₁ = pid <;> by_cases hp₂ : pid₂ = pid
    · rw [hp₁, hp₂]
    · subst hp₁
      rw [setSlot_self] at h₁
      rw [setSlot_of_ne hp₂] at h₂
      injection h₁ with h₁
      subst h₁
      exact absurd heq.symm (hnew _ _ h₂)
    · subst hp₂
      rw [setSlot_self] at h₂
      rw [setSlot_of_ne hp₁] at h₁
      injection h₂ with h₂
      subst h₂
      exact absurd heq (hnew _ _ h₁)
    · rw [setSlot_of_ne hp₁] at h₁
      rw [setSlot_of_ne hp₂] at h₂
      exact h.threads_inj _ _ _ _ h₁ h₂ heq
  rootserver := by
    obtain ⟨q, hq⟩ := h.rootserver
    have hne : rootserverno ≠ pid := fun he => by rw [he, hnull] at hq; simp at hq
    exact ⟨q, by rw [setSlot_of_ne hne]; exact hq⟩
  rootthreads := fun pid' q hr hq => by
    by_cases hpid : pid' = pid
    · subst hpid
      rw [setSlot_self] at hq
      injection hq with hq
      rw [← hq]
      exact hty
    · rw [setSlot_of_ne hpid] at hq
      exact h.rootthreads pid' q hr hq
  nobody := fun pid' q hq => by
    by_cases hpid : pid' = pid
    · subst hpid
      rw [setSlot_self] at hq
      injection hq with hq
      rw [← hq]
      exact hwait
    · rw [setSlot_of_ne hpid] at hq
      exact h.nobody pid' q hq
  reserved := fun pid' => by
    by_cases hpid : pid' = pid
    · subst hpid
      rw [setSlot_self]
      simp
    · rw [setSlot_of_ne hpid]
      exact h.reserved pid'
  tidOffset := h.tidOffset

end Threads

theorem tidOffset_le_getNextPidLoop {k : Kernel} {oldPid : Pid} : ∀ (n : Nat) (next : Pid)
    (first : Bool), k.tidOffset ≤ next → k.tidOffset ≤ getNextPidLoop k oldPid n next first
  | 0, next, _, h => h
  | n + 1, next, first, h => by
    unfold getNextPidLoop
    split
    · exact h
    · split
      · exact h
      · refine tidOffset_le_getNextPidLoop n _ _ ?_
        split
        · rw [Fin.le_def] at h ⊢
          dsimp only
          omega
        · exact le_refl _

/-- The pid found is free, and not below the first one. -/
theorem wp_getNextPid {Q : Option Pid → Kernel → Prop}
    (hQ : ∀ o next, (∀ pid, o = some pid → k.sosProcs pid = .null ∧ pid = next) →
      (k.tidOffset ≤ k.nextPid → k.tidOffset ≤ next) → Q o { k with nextPid := next }) :
    Wp getNextPid k Q E := by
  unfold getNextPid
  simp only [wp_bind, wp_get, wp_set]
  split
  · next hnull =>
    refine wp_pure.mpr (hQ _ _ ?_ fun h => tidOffset_le_getNextPidLoop _ _ _ h)
    rintro pid ⟨⟩
    exact ⟨hnull, rfl⟩
  · exact wp_pure.mpr (hQ _ _ (by simp) fun h => tidOffset_le_getNextPidLoop _ _ _ h)

/-! ## `pager_init` -/

/-- The state `pager_init` leaves behind. -/
structure Initialised (M : Set Nat) (k : Kernel) : Prop extends Threads M k where
  allocLimit : k.allocLimit = frameAllocLimit
  alloced : k.alloced = []
  swapped : k.swapped = []
  swapfile : k.defaultSwapfile = .init swapfileFn
  requests : k.requests = []
  elffiles : ∀ f, k.elffiles f = none
  requestActive : k.requestActive = false
  pinnedFrame : k.pinnedFrame = 0
  mmu : ∀ pid n, k.mmu pid n = none
  overrun : k.overrun = false
  unbacked : k.unbacked = false
  virtualPager : ∃ p, k.sosProcs k.virtualPager = .pcb p ∧ k.virtualPager ≠ rootserverno

/-- What the other variables of the pager are when its thread is started. -/
def PagerVars (k : Kernel) : Prop :=
  k.allocLimit = frameAllocLimit ∧ k.alloced = [] ∧ k.swapped = [] ∧
    k.defaultSwapfile = .init swapfileFn ∧ k.requests = [] ∧ (∀ f, k.elffiles f = none) ∧
    k.requestActive = false ∧ k.pinnedFrame = 0 ∧ (∀ pid n, k.mmu pid n = none) ∧
    k.overrun = false ∧ k.unbacked = false

/-- The thread is entered in the table and runs. -/
theorem Initialised.of_entered {K : Kernel}
    (h : Threads M { k with free := K.free, nextPid := K.nextPid })
    (hvars : PagerVars K) (hpid : k.tidOffset ≤ pid) (hnull : k.sosProcs pid = .null)
    (hproc : K.sosProcs = Function.update k.sosProcs pid (.pcb p)) (ht : K.tidOffset = k.tidOffset)
    (hty : p.psType = .rootthread) (hwait : p.waitingOn = waitNobody) (hreg : p.regions = [])
    (hM : p.pagetable.frame ∈ M) (hfree : p.pagetable.frame ∉ K.free)
    (hpages : ∀ i, p.pagetable.pages2 i = none)
    (hnew : ∀ pid' q, k.sosProcs pid' = .pcb q → q.pagetable.frame ≠ p.pagetable.frame) :
    Initialised M ({ K with virtualPager := pid }.updProcess pid fun p =>
      { p with state := .alive, ipcAccept := .blocking }) := by
  have hK : ({ K with virtualPager := pid } : Kernel).sosProcs pid = .pcb p := by
    show K.sosProcs pid = _
    rw [hproc, Function.update_self]
  rw [updProcess_of_pcb hK]
  have hent := h.enter (p := { p with state := .alive, ipcAccept := .blocking }) hnull hty
    hwait hreg hM hfree hpages hnew
  obtain ⟨h1, h2, h3, h4, h5, h6, h7, h8, h9, h10, h11⟩ := hvars
  refine ⟨hent.congr rfl ?_ ht h.tidOffset.2, h1, h2, h3, h4, h5, h6, h7, h8, h9, h10, h11, ?_⟩
  · unfold Kernel.setSlot
    dsimp only
    rw [hproc, Function.update_idem]
  · refine ⟨_, setSlot_self, fun he => ?_⟩
    have h0 : k.tidOffset ≤ rootserverno := by
      rw [← show pid = rootserverno from he]
      exact hpid
    exact absurd h.tidOffset.1 (not_lt.mpr h0)

theorem runPagerThread_spec (h : Threads M k) (hv : PagerVars k) :
    Wp runPagerThread k (fun _ k' => Initialised M k') (fun _ _ => True) := by
  unfold runPagerThread
  rw [wp_bind]
  refine wp_processInit (fun _ => trivial) fun f rest hfree hf k₁ h₁ => ?_
  rw [wp_bind]
  refine wp_getNextPid fun o next hfound hnext => ?_
  cases o with
  | none => exact wp_throw.mpr trivial
  | some pid =>
    obtain ⟨hnull, rfl⟩ := hfound pid rfl
    dsimp only
    unfold processPrepare2 processExists
    simp only [wp_bind, wp_get, wp_assert, wp_pure, if_true, wp_modify, wp_discard]
    refine ⟨fun _ => ⟨fun _ => ?_, fun _ => trivial⟩, fun _ => trivial⟩
    have hk₁ : k₁.sosProcs = k.sosProcs := by rw [h₁]; rfl
    have ht₁ : k₁.tidOffset = k.tidOffset := by rw [h₁]; rfl
    have hn₁ : k₁.nextPid = k.nextPid := by rw [h₁]; rfl
    have hfree₁ : k₁.free = rest := by rw [h₁]; rfl
    have hv₁ : PagerVars k₁ := by rw [h₁]; exact hv
    have hpid : k.tidOffset ≤ pid := by
      have := hnext (by rw [ht₁, hn₁]; exact h.tidOffset.2)
      rwa [ht₁] at this
    have hth : Threads M { k with free := rest, nextPid := pid } :=
      (h.taken hfree).congr rfl rfl rfl hpid
    have hmem : f ∈ k.free := by rw [hfree]; exact List.mem_cons_self ..
    have hnot : f ∉ rest := by
      have hnd := h.free_nodup
      rw [hfree] at hnd
      exact (List.nodup_cons.mp hnd).1
    have hnew : ∀ pid' q, k.sosProcs pid' = .pcb q → q.pagetable.frame ≠ f := fun pid' q hq he =>
      (h.threads pid' q hq).2.2.1 (by rw [he]; exact hmem)
    have hM := h.free_managed f hmem
    let q : Process :=
      { psType := .rootthread, pagetable := { frame := f, pages2 := fun _ => none }, inc := k.incs }
    rw [wp_frameAlloc]
    rw [hk₁] at hnull
    refine ⟨fun _ => ?_, fun g rest' hg _ => ?_⟩
    · refine Initialised.of_entered (k := k) (p := q) ?_ hv₁ hpid hnull ?_ ht₁ rfl rfl rfl hM ?_
        (fun _ => rfl) hnew
      · show Threads M { k with free := k₁.free, nextPid := pid }
        rw [hfree₁]
        exact hth
      · show Function.update k₁.sosProcs pid _ = _
        rw [hk₁]
      · show f ∉ k₁.free
        rw [hfree₁]
        exact hnot
    · have hg : rest = g :: rest' := by rw [← hfree₁]; exact hg
      refine Initialised.of_entered (k := k) (p := q) ?_ hv₁ hpid hnull ?_ ht₁ rfl rfl rfl hM ?_
        (fun _ => rfl) hnew
      · exact (Threads.taken (f := g) hth hg).congr rfl rfl rfl hpid
      · show Function.update k₁.sosProcs pid _ = _
        rw [hk₁]
      · exact fun hm => hnot (by rw [hg]; exact List.mem_cons_of_mem _ hm)

theorem pagerInit_spec (h : Started M k) :
    Wp pagerInit k (fun _ k' => Initialised M k') (fun _ _ => True) := by
  unfold pagerInit
  rw [wp_bind]
  refine modify_eq.imp fun _ k₁ h₁ => ?_
  have ht₁ : Threads M k₁ :=
    h.toThreads.congr (by rw [h₁]) (by rw [h₁]) (by rw [h₁]) (by rw [h₁]; exact h.tidOffset.2)
  refine wp_frameAlloc_failIf (fun _ => trivial) fun f rest hfree hf => ?_
  rw [wp_bind]
  refine modify_eq.imp fun _ k₂ h₂ => ?_
  refine runPagerThread_spec ((ht₁.taken hfree).congr (by rw [h₂]) (by rw [h₂]) (by rw [h₂])
    (by rw [h₂]; exact (ht₁.taken hfree).tidOffset.2)) ?_
  rw [h₂, h₁]
  exact ⟨rfl, rfl, rfl, rfl, rfl, h.elffiles, h.requestActive, h.pinnedFrame, h.mmu, h.overrun,
    h.unbacked⟩

/-! ## The invariants at the start -/

/-- What holds in every reachable state. -/
structure Sound (M : Set Nat) (k : Kernel) : Prop where
  managed : ∀ f ∈ M, f ≠ 0 ∧ pageOffset f = 0
  inv : k.pool.Inv
  backed : k.unbacked = true → k.exhausted = true
  own : k.unbacked = false → k.pool.Own M
  slots : k.pool.SlotInv
  shape : Shape k

namespace Initialised

variable (h : Initialised M k)
include h

theorem pte_eq (pid : Pid) (n : Page) : k.pool.pte pid n = {} := by
  show (k.sosProcs pid).pte n = {}
  cases hs : k.sosProcs pid with
  | null => rfl
  | placeholder => rfl
  | pcb p =>
    obtain ⟨-, -, -, hpages⟩ := h.threads pid p hs
    show p.pagetable.entry n = {}
    unfold Pagetable.entry
    rw [hpages]

theorem tables_pcb {p : Process} (hp : k.sosProcs pid = .pcb p) :
    k.pool.tables pid = {p.pagetable.frame} := by
  obtain ⟨-, -, -, hpages⟩ := h.threads pid p hp
  show (k.sosProcs pid).tables = _
  rw [hp]
  show Multiset.ofList p.pagetable.frames = _
  have : p.pagetable.frames = [p.pagetable.frame] := by
    unfold Pagetable.frames
    simp [hpages]
  rw [this]
  rfl

theorem zero_notMem_tables (pid : Pid) : 0 ∉ k.pool.tables pid := by
  cases hs : k.sosProcs pid with
  | null | placeholder => simp [Kernel.pool, hs, Slot.tables, Slot.pcb?]
  | pcb p =>
    rw [h.tables_pcb hs, Multiset.mem_singleton]
    exact Ne.symm (h.managed _ (h.threads pid p hs).2.1).1

theorem elfs_eq (pid : Pid) : k.pool.elfs pid = 0 := by
  show (k.sosProcs pid).elfs = 0
  cases hs : k.sosProcs pid with
  | null => rfl
  | placeholder => rfl
  | pcb p =>
    obtain ⟨hreg, -⟩ := h.threads pid p hs
    show Multiset.ofList (p.regions.filterMap _) = 0
    rw [hreg]
    rfl

theorem inv : k.pool.Inv where
  dead := fun pid hl => by
    refine ⟨?_, h.elfs_eq pid⟩
    show (k.sosProcs pid).tables = 0
    cases hs : k.sosProcs pid with
    | null => rfl
    | placeholder => rfl
    | pcb p =>
      have hl' : (k.sosProcs pid).live = false := hl
      rw [hs] at hl'
      simp at hl'
  allocedLive := fun x hx => by
    have hx' : x ∈ Multiset.ofList (k.alloced.map _) := hx
    rw [h.alloced] at hx'
    simp at hx'
  mapped := fun pid n f hm => by
    have hm' : k.mmu pid n = some f := hm
    rw [h.mmu] at hm'
    simp at hm'
  limit_nonneg := by
    show 0 ≤ k.allocLimit
    rw [h.allocLimit]
    decide
  account := by
    show k.allocLimit + ((Multiset.ofList (k.alloced.map _)).card : Int) +
      (Multiset.ofList (k.requests.filterMap _)).card = _
    rw [h.allocLimit, h.alloced, h.requests]
    simp
  zero_notMem := zero_notMem_freeFrames k

theorem slotInv : k.pool.SlotInv := by
  have hsw : k.pool.swapped = 0 := by
    show Multiset.ofList k.swapped = 0
    rw [h.swapped]
    rfl
  refine Pool.slotInv_iff.mpr ⟨?_, by simp [hsw], ?_⟩
  · have hslots : k.pool.slots = (Swapfile.init swapfileFn).slots := by rw [← h.swapfile]; rfl
    have hhead : k.pool.head = (Swapfile.init swapfileFn).head := by rw [← h.swapfile]; rfl
    rw [Pool.inUse, hsw, hslots, hhead]
    exact FreeChain.shares_init (by decide)
  · show k.defaultSwapfile.usage = _
    rw [hsw, h.swapfile]
    rfl

/-- A frame is free or the page table of one thread. -/
theorem own_eq (f : Nat) (hf : f ≠ 0) :
    k.pool.own f = k.freeCount f + ∑ pid, (k.pool.tables pid).count f := by
  have hw : k.pool.writing = 0 := by
    show Multiset.ofList (k.requests.filterMap _) = 0
    rw [h.requests]
    rfl
  have ha : k.pool.alloced = 0 := by
    show Multiset.ofList (k.alloced.map _) = 0
    rw [h.alloced]
    rfl
  have hpin : k.pool.pinned = 0 := h.pinnedFrame
  have hfree : k.pool.free.count f = k.freeCount f := Multiset.coe_count ..
  unfold Pool.own
  rw [hw, ha, hpin, hfree, if_neg (Ne.symm hf)]
  simp [Pool.residentCount, h.elfs_eq]

theorem count_tables (f : Nat) (pid : Pid)
    (hf : ∀ p, k.sosProcs pid = .pcb p → p.pagetable.frame ≠ f) :
    (k.pool.tables pid).count f = 0 := by
  cases hs : k.sosProcs pid with
  | pcb p => rw [h.tables_pcb hs, Multiset.count_singleton, if_neg fun he => hf p hs he.symm]
  | _ => simp [Kernel.pool, hs, Slot.tables, Slot.pcb?]

theorem sum_tables_le (f : Nat) : ∑ pid, (k.pool.tables pid).count f ≤ 1 := by
  by_cases hex : ∃ pid p, k.sosProcs pid = .pcb p ∧ p.pagetable.frame = f
  · obtain ⟨pid, p, hp, rfl⟩ := hex
    rw [Finset.sum_eq_single pid]
    · rw [h.tables_pcb hp]
      simp
    · exact fun pid' _ hne => h.count_tables _ pid' fun q hs he =>
        hne (h.threads_inj _ _ _ _ hs hp he)
    · simp
  · refine (Finset.sum_eq_zero fun pid _ => ?_).le.trans (by omega)
    exact h.count_tables f pid fun q hs he => hex ⟨pid, q, hs, he⟩

theorem held : k.pool.Held where
  held := fun pid n ho => by
    have hsw := ho.2.1
    rw [h.pte_eq] at hsw
    simp at hsw
  distinct := fun pid n _ _ ho => by
    have hsw := ho.2.1
    rw [h.pte_eq] at hsw
    simp at hsw

theorem own : k.pool.Own M where
  unique := fun f hf => by
    rw [h.own_eq f hf]
    have hle := h.sum_tables_le f
    by_cases hfree : f ∈ k.free
    · have hzero : ∑ pid, (k.pool.tables pid).count f = 0 := by
        refine Finset.sum_eq_zero fun pid _ => h.count_tables f pid fun q hs he => ?_
        exact (h.threads pid q hs).2.2.1 (he ▸ hfree)
      have hone : k.freeCount f ≤ 1 :=
        List.nodup_iff_count_le_one.mp (h.free_nodup.sublist (List.takeWhile_sublist _)) f
      omega
    · have hzero : k.freeCount f = 0 :=
        List.count_eq_zero.mpr fun hm => hfree ((List.takeWhile_sublist _).subset hm)
      omega
  managed := fun f hf hpos => by
    rw [h.own_eq f hf] at hpos
    by_cases hfree : f ∈ k.free
    · exact h.free_managed f hfree
    · have hzero : k.freeCount f = 0 :=
        List.count_eq_zero.mpr fun hm => hfree ((List.takeWhile_sublist _).subset hm)
      by_contra hM
      have hsum : ∑ pid, (k.pool.tables pid).count f = 0 := by
        refine Finset.sum_eq_zero fun pid _ => h.count_tables f pid fun q hs he => ?_
        exact hM (he ▸ (h.threads pid q hs).2.1)
      omega
  nodup := by
    show (Multiset.ofList (k.alloced.map _)).Nodup
    rw [h.alloced]
    simp
  resident := fun x hx => by
    have hx' : x ∈ Multiset.ofList (k.alloced.map _) := hx
    rw [h.alloced] at hx'
    simp at hx'
  recorded := fun pid n _ ha => by
    rw [h.pte_eq] at ha
    simp at ha
  direct := fun pid n hd => by
    have hd' : (k.sosProcs pid).direct n := hd
    cases hs : k.sosProcs pid with
    | null | placeholder => rw [hs] at hd'; exact hd'.elim
    | pcb p =>
      rw [hs] at hd'
      obtain ⟨r, hr, -⟩ := hd'
      rw [(h.threads pid p hs).1] at hr
      simp at hr

theorem sound : Sound M k where
  managed := h.managed
  inv := h.inv
  backed := by simp [h.unbacked]
  own := fun _ => h.own
  slots := h.slotInv
  shape := .of_forall fun r hr => by rw [h.requests] at hr; simp at hr

end Initialised

/-! ## Reachable states -/

theorem bootProcess_quiet {regions : List Region} (hr : ∀ r ∈ regions, BootRegion M r) :
    Quiets M b (bootProcess regions) k := by
  unfold bootProcess
  rw [Quiets, wp_bind]
  refine (processInit_spec (M := M)).imp fun p k₁ h₁ => ?_
  obtain ⟨hb, hty, hreg⟩ := h₁
  rw [wp_bind]
  refine wp_getNextPid fun o next hfound _ => ?_
  cases o with
  | none => exact wp_throw.mpr trivial
  | some pid =>
    have hb₂ : Building M k { p with regions := regions } { k₁ with nextPid := next } := by
      refine ⟨?_, hb.entries, fun r hm hd => ?_, ?_⟩
      · have hnone : regions.filterMap Region.elffile = [] := by
          rw [List.filterMap_eq_nil_iff]
          exact fun r hm => (hr r hm).1
        have hfr := hb.frames
        rw [hreg] at hfr
        dsimp only
        rw [hnone]
        exact hfr
      · have hboot := hr r hm
        exact ⟨by rw [hboot.2.1]; simp, hboot.2.2 hd⟩
      · rw [hb.rest]
    exact hb₂.run hty

theorem Sound.of_steps (h : Sound M k) (hsteps : Pool.Steps M b k.pool k'.pool) (hs : Shape k') :
    Sound M k' where
  managed := h.managed
  inv := hsteps.inv h.inv
  backed := hsteps.exhausted_of_unbacked h.backed
  own := hsteps.own h.inv h.own
  slots := hsteps.slotInv h.slots
  shape := hs

theorem Booted.sound (h : Booted M k) : Sound M k := by
  induction h with
  | init hstart hinit => exact ((pagerInit_spec hstart).ok hinit).sound
  | process _ hr hboot ih =>
    have hq := (bootProcess_quiet (b := true) hr).ok hboot
    exact ih.of_steps hq.steps (ih.shape.of_eq hq.requests hq.requestActive)

/-- Nothing is queued before the first message. -/
theorem Booted.idle (h : Booted M k) : k.requests = [] ∧ k.requestActive = false := by
  induction h with
  | init hstart hinit =>
    have hi := (pagerInit_spec hstart).ok hinit
    exact ⟨hi.requests, hi.requestActive⟩
  | process _ hr hboot ih =>
    have hq := (bootProcess_quiet (b := true) hr).ok hboot
    exact ⟨hq.requests.trans ih.1, hq.requestActive.trans ih.2⟩

/-- **The invariants hold in every reachable state.** -/
theorem Reachable.sound {C : Kernel → Event → Prop} (h : Reachable M C k) : Sound M k := by
  induction h with
  | boot hb => exact hb.sound
  | step _ _ hstep ih =>
    have hh := hstep.handled (M := M) (b := true) ih.shape (by simp)
    exact ih.of_steps hh.steps hh.shape

theorem Booted.tables_ne_zero (h : Booted M k) :
    ∀ q, 0 ∉ k.pool.tables q ∧ 0 ∉ k.pool.elfs q := by
  induction h with
  | init hstart hinit =>
    have hi := (pagerInit_spec hstart).ok hinit
    exact fun q => ⟨hi.zero_notMem_tables q, by rw [hi.elfs_eq]; simp⟩
  | process hprev hr hboot ih =>
    have hq := (bootProcess_quiet (b := true) hr).ok hboot
    exact hq.steps.tables_ne_zero hprev.sound.inv ih

theorem Reachable.tables_ne_zero {C : Kernel → Event → Prop} (h : Reachable M C k) :
    ∀ q, 0 ∉ k.pool.tables q ∧ 0 ∉ k.pool.elfs q := by
  induction h with
  | boot hb => exact hb.tables_ne_zero
  | step hprev _ hstep ih =>
    have hh := hstep.handled (M := M) (b := true) hprev.sound.shape (by simp)
    exact hh.steps.tables_ne_zero hprev.sound.inv ih

theorem Booted.held (h : Booted M k) : k.pool.Held := by
  induction h with
  | init hstart hinit => exact ((pagerInit_spec hstart).ok hinit).held
  | process hprev hr hboot ih =>
    have hq := (bootProcess_quiet (b := false) hr).ok hboot
    exact hq.steps.held hprev.sound.slots ih

/-- Pages on the swap file keep their slots in every run without a clash of names. -/
theorem Reachable.held {C : Kernel → Event → Prop} (h : Reachable M C k)
    (hC : ∀ k e, C k e → ClashFree k e) : k.pool.Held := by
  induction h with
  | boot hb => exact hb.held
  | step hprev hc hstep ih =>
    have hh := hstep.handled (M := M) (b := false) hprev.sound.shape fun _ => hC _ _ hc
    exact hh.steps.held hprev.sound.slots ih

end Sos
