import Sos.Simulation.Delete

/-!
# Choosing a victim, and pages going to and coming from disk

The functions between a page fault and the file system calls it causes, each as steps of the pool:
the second-chance scan unmaps the pages it passes, `startSwapout` takes the victim off the record
of resident pages and gives it a slot, `startSwapin` pins a frame, and `leaveDisk` gives the slot
back.
-/

namespace Sos

open Hoare

variable {k k' k'' : Kernel} {E : Fault → Kernel → Prop} {pid : Pid} {M : Set Nat} {b : Bool}
variable {n : Page} {e : Pte}
variable {Q : Unit → Kernel → Prop} {P : Pool}

/-! ## Page tables change, processes stay -/

/-- Two processes with the same regions. -/
structure Process.Like (p q : Process) : Prop where
  regions : q.regions = p.regions
  psType : q.psType = p.psType
  inc : q.inc = p.inc

theorem Process.Like.trans {p q r : Process} (h : p.Like q) (h' : q.Like r) : p.Like r :=
  ⟨h'.regions.trans h.regions, h'.psType.trans h.psType, h'.inc.trans h.inc⟩

/-- From `k` to `k'` processes may have got other page tables, but no second level is lost. -/
structure Repaged (k k' : Kernel) : Prop where
  pcb : ∀ pid p, k.sosProcs pid = .pcb p → ∃ q, k'.sosProcs pid = .pcb q ∧ p.Like q
  other : ∀ pid, (k.sosProcs pid).live = false → k'.sosProcs pid = k.sosProcs pid
  table : ∀ pid n, k.HasTable pid n → k'.HasTable pid n

namespace Repaged

theorem of_sosProcs_eq (h : k'.sosProcs = k.sosProcs) : Repaged k k' where
  pcb := fun pid p hp => ⟨p, by rw [h]; exact hp, rfl, rfl, rfl⟩
  other := fun pid _ => by rw [h]
  table := fun pid n ⟨p, t, hp, ht⟩ => ⟨p, t, by rw [h]; exact hp, ht⟩

theorem trans (h : Repaged k k') (h' : Repaged k' k'') : Repaged k k'' where
  pcb := fun pid p hp => by
    obtain ⟨q, hq, hl⟩ := h.pcb pid p hp
    obtain ⟨r, hr, hl'⟩ := h'.pcb pid q hq
    exact ⟨r, hr, hl.trans hl'⟩
  other := fun pid hl => by
    have he := h.other pid hl
    rw [h'.other pid (by rw [he]; exact hl), he]
  table := fun pid n ht => h'.table pid n (h.table pid n ht)

theorem of_grow (h : Grow k k') : Repaged k k' where
  pcb := fun pid p hp => by
    obtain ⟨pt, -, hp'⟩ := h.pcb pid p hp
    exact ⟨_, hp', rfl, rfl, rfl⟩
  other := h.other
  table := h.table

theorem setEntry {pid : Pid} :
    Repaged k (k.updProcess pid fun p => { p with pagetable := p.pagetable.setEntry n e }) where
  pcb := fun pid' p hp => by
    refine updProcess_cases ⟨p, hp, rfl, rfl, rfl⟩ fun q hs => ?_
    by_cases hpid : pid' = pid
    · subst hpid
      obtain rfl := Slot.pcb.inj (hs.symm.trans hp)
      exact ⟨_, setSlot_self, rfl, rfl, rfl⟩
    · exact ⟨p, (setSlot_of_ne hpid).trans hp, rfl, rfl, rfl⟩
  other := fun pid' hl => by
    refine updProcess_cases rfl fun q hs => setSlot_of_ne fun hpid => ?_
    rw [hpid, hs] at hl
    simp at hl
  table := fun _ _ h => HasTable.setEntry h

theorem pcb_of_core {s : Slot} {p : Process} (h : s.core = (Slot.pcb p).core) :
    ∃ q, s = .pcb q ∧ p.Like q ∧ q.pagetable = p.pagetable := by
  cases s with
  | pcb q =>
    simp only [Slot.core, Slot.pcb.injEq, Process.mk.injEq] at h
    exact ⟨q, rfl, ⟨by tauto, by tauto, by tauto⟩, by tauto⟩
  | _ => simp [Slot.core] at h

theorem of_core (h : ∀ pid, (k'.sosProcs pid).core = (k.sosProcs pid).core) : Repaged k k' where
  pcb := fun pid p hp => by
    obtain ⟨q, hq, hlike, -⟩ := pcb_of_core (hp ▸ h pid)
    exact ⟨q, hq, hlike⟩
  other := fun pid hl => by
    have hc := h pid
    cases hs : k.sosProcs pid <;> cases hs' : k'.sosProcs pid <;>
      simp_all [Slot.core]
  table := fun pid n ⟨p, t, hp, ht⟩ => by
    obtain ⟨q, hq, -, hpt⟩ := pcb_of_core (hp ▸ h pid)
    exact ⟨q, t, hq, by rw [hpt]; exact ht⟩

theorem of_idle (h : Idle k k') : Repaged k k' := of_core h.core

end Repaged

/-- The processes are the same but for their page tables and sizes. -/
def Paged (k k' : Kernel) : Prop :=
  ∀ pid p, k.sosProcs pid = .pcb p →
    ∃ pt n, k'.sosProcs pid = .pcb { p with pagetable := pt, size := n }

theorem paged_of_sosProcs (h : k'.sosProcs = k.sosProcs) : Paged k k' := fun pid p hp =>
  ⟨_, _, by rw [h]; exact hp⟩

theorem paged_paging : Paging Paged (fun _ => True) where
  refl := fun _ => paged_of_sosProcs rfl
  trans := fun h h' pid p hp => by
    obtain ⟨pt, m, hp₁⟩ := h pid p hp
    obtain ⟨pt', m', hp₂⟩ := h' pid _ hp₁
    exact ⟨pt', m', hp₂⟩
  fault := fun _ _ => trivial
  plain := fun {k k'} h => paged_of_sosProcs (by unfold Plain at h; rw [h])
  pages := fun k pid' g hg pid p hp => by
    by_cases hpid : pid = pid'
    · subst hpid
      refine ⟨(g p).pagetable, (g p).size, ?_⟩
      rw [updProcess_of_pcb hp, setSlot_self, ← hg p]
    · exact ⟨_, _, (updProcess_of_ne hpid).trans hp⟩

theorem pool_live_of_hasTable (h : k.HasTable pid n) : k.pool.live pid = true := by
  obtain ⟨p, t, hp, -⟩ := h
  show (k.sosProcs pid).live = true
  rw [hp]
  rfl

theorem wp_setEntry {addr : Nat}
    (hQ : ∀ k', k' = (k.updProcess pid fun p =>
      { p with pagetable := p.pagetable.setEntry (pageNo addr) e }) → Q () k') :
    Wp (setEntry pid addr e) k Q E :=
  wp_modify.mpr (hQ _ rfl)

theorem wp_unmapPage {virt : Nat} (hE : pageOffset virt ≠ 0 → E (.assertion .unmapPageAligned) k)
    (hQ : pageOffset virt = 0 → ∀ k', k' = { k with
        mmu := Function.update k.mmu pid (Function.update (k.mmu pid) (pageNo virt) none) } →
      Q () k') :
    Wp (unmapPage pid virt) k Q E := by
  unfold unmapPage
  rw [wp_bind, wp_assert]
  exact ⟨fun h => wp_modify.mpr (hQ (by simpa using h) _ rfl), fun h => hE (by simpa using h)⟩

/-! ## The second-chance scan -/

/-- The scan has taken `found` off the record; the pages it passed are unmapped and unreferenced. -/
structure Scanned (M : Set Nat) (b : Bool) (k : Kernel) (found : Pid × Nat) (k' : Kernel) :
    Prop where
  steps : Pool.Steps M b k.pool
    { k'.pool with alloced := (found.1, pageNo found.2) ::ₘ k'.pool.alloced }
  perm : (found :: k'.alloced).Perm k.alloced
  table : k'.HasTable found.1 (pageNo found.2)
  ref : (k'.pool.pte found.1 (pageNo found.2)).ref = false
  pte : ∀ pid n, ∃ r, k'.pool.pte pid n = { k.pool.pte pid n with ref := r }
  repaged : Repaged k k'
  rest : k' = { k with
    free := k'.free, totalInUse := k'.totalInUse, sosProcs := k'.sosProcs
    alloced := k'.alloced, mmu := k'.mmu }

theorem deleteAllocListLoop_spec : ∀ (n : Nat) (k : Kernel),
    Wp (deleteAllocListLoop n) k (Scanned M b k) (fun f _ => f.watched = false)
  | 0, k => wp_throw.mpr rfl
  | n + 1, k => by
    unfold deleteAllocListLoop
    rw [wp_bind, wp_get]
    split
    · exact wp_throw.mpr rfl
    · next found rest hrest =>
      simp only [wp_bind]
      refine modify_eq.imp fun _ k₁ h₁ => ?_
      rw [wp_get, wp_assert]
      refine ⟨fun _ => ?_, fun _ => rfl⟩
      refine wp_lookupEntry (fun _ => rfl) (fun _ => rfl) (fun _ _ _ => rfl) ?_
      intro k₂ hgrow htable
      have hpte₁ : k₁.pool.pte = k.pool.pte := by rw [h₁]; rfl
      have hrep : Repaged k k₂ :=
        (Repaged.of_sosProcs_eq (by rw [h₁])).trans (.of_grow hgrow)
      have halloced : k₂.alloced = rest := by rw [hgrow.alloced, h₁]
      have hk₂ : k₂ = { k with
          free := k₂.free, totalInUse := k₂.totalInUse, sosProcs := k₂.sosProcs
          alloced := rest } := by
        rw [hgrow.rest, h₁]
      -- the record with `found` back on it
      have hsteps : Pool.Steps M b k.pool
          { k₂.pool with alloced := (found.1, pageNo found.2) ::ₘ k₂.pool.alloced } := by
        have hs := hgrow.stepsWith M b k.pool.alloced
        have ha : k.pool.alloced = (found.1, pageNo found.2) ::ₘ k₂.pool.alloced := by
          show Multiset.ofList _ = _ ::ₘ Multiset.ofList _
          rw [hrest, halloced]
          rfl
        have h0 : { k₁.pool with alloced := k.pool.alloced } = k.pool := by rw [h₁]; rfl
        rw [h0] at hs
        rw [← ha]
        exact hs
      rw [wp_ite]
      refine ⟨fun href => wp_pure.mpr ?_, fun href => ?_⟩
      · refine ⟨hsteps, by rw [halloced, hrest], htable, ?_, ?_, hrep, ?_⟩
        · rw [hgrow.pte]
          exact href
        · intro pid m
          exact ⟨_, by rw [hgrow.pte, hpte₁]⟩
        · rw [hk₂]
      · simp only [wp_bind]
        refine wp_setEntry fun k₃ h₃ => ?_
        refine wp_unmapPage (fun _ => rfl) fun _ k₄ h₄ => ?_
        refine modify_eq.imp fun _ k₅ h₅ => ?_
        have hpool₃ : k₃.pool = k₂.pool.setPte found.1 (pageNo found.2)
            { k₂.pool.pte found.1 (pageNo found.2) with ref := false } := by
          rw [h₃, pool_setEntry htable, hgrow.pte]
        have hpte₃ : ∀ pid m, ∃ r, k₃.pool.pte pid m = { k.pool.pte pid m with ref := r } := by
          intro pid m
          rw [hpool₃, Pool.pte_setPte, hgrow.pte, hpte₁]
          split
          · next hm =>
            obtain ⟨rfl, rfl⟩ := hm
            exact ⟨_, rfl⟩
          · exact ⟨_, rfl⟩
        have hrest₃ : k₃ = { k₂ with sosProcs := k₃.sosProcs } := by
          rw [h₃]
          exact updProcess_rest
        have halloced₃ : k₃.alloced = rest := by rw [hrest₃, halloced]
        have hpool₅ : k₅.pool = ({ k₂.pool with
            alloced := (found.1, pageNo found.2) ::ₘ k₂.pool.alloced }.setPte found.1
              (pageNo found.2) { k₂.pool.pte found.1 (pageNo found.2) with ref := false }).setMmu
            found.1 (pageNo found.2) none := by
          have ha : k₅.pool.alloced = (found.1, pageNo found.2) ::ₘ k₂.pool.alloced := by
            show Multiset.ofList _ = _ ::ₘ Multiset.ofList _
            rw [h₅, h₄]
            show Multiset.ofList ((k₃.alloced ++ [found]).map _) = _
            rw [halloced₃, halloced, List.map_append, ← Multiset.coe_add, add_comm]
            rfl
          have h0 : k₅.pool = { (k₃.pool.setMmu found.1 (pageNo found.2) none) with
              alloced := k₅.pool.alloced } := by
            rw [h₅, h₄]
            rfl
          rw [h0, ha, hpool₃]
          rfl
        have hrep₅ : Repaged k k₅ := by
          have hrep₃ : Repaged k₂ k₃ := by rw [h₃]; exact .setEntry
          exact hrep.trans (hrep₃.trans (.of_sosProcs_eq (by rw [h₅, h₄])))
        have hrest₅ : k₅ = { k with
            free := k₅.free, totalInUse := k₅.totalInUse, sosProcs := k₅.sosProcs
            alloced := k₅.alloced, mmu := k₅.mmu } := by
          rw [h₅, h₄, hrest₃, hk₂]
        have hperm₅ : k₅.alloced.Perm k.alloced := by
          have : k₅.alloced = rest ++ [found] := by rw [h₅, h₄, ← halloced₃]
          rw [this, hrest]
          exact List.perm_append_singleton found rest
        have hstep : Pool.Steps M b k.pool k₅.pool := by
          rw [hpool₅]
          exact hsteps.tail (.second (pool_live_of_hasTable htable))
        refine (deleteAllocListLoop_spec n k₅).imp fun found' k' h => ?_
        refine ⟨hstep.trans h.steps, h.perm.trans hperm₅, h.table, h.ref, fun pid m => ?_,
          hrep₅.trans h.repaged, ?_⟩
        · obtain ⟨r, hr⟩ := h.pte pid m
          obtain ⟨r', hr'⟩ := hpte₃ pid m
          have h35 : k₅.pool.pte = k₃.pool.pte := by rw [h₅, h₄]; rfl
          exact ⟨r, by rw [hr, h35, hr']⟩
        · rw [h.rest, hrest₅]

/-- The faults of a swap-out that starts in `k`: none of the assertions watched, except that of
`deleteAllocList` when there is nothing to take. -/
def Kernel.NoVictim (k : Kernel) (f : Fault) : Prop :=
  f.watched = false ∨ f = .assertion .deleteAllocListEmpty ∧ k.alloced = []

theorem deleteAllocList_spec :
    Wp deleteAllocList k (Scanned M b k) (fun f _ => k.NoVictim f) := by
  unfold deleteAllocList
  rw [wp_bind, wp_get, wp_bind, wp_assert]
  refine ⟨fun _ => ?_, fun h => .inr ⟨rfl, by simpa using h⟩⟩
  exact (deleteAllocListLoop_spec _ k).mono (fun _ _ h => h) fun _ _ h => .inl h

/-! ## Going to disk -/

theorem wp_pagerSwapslotAlloc {Q : Nat → Kernel → Prop}
    (husage : ¬ (0 ≤ k.defaultSwapfile.usage ∧ k.defaultSwapfile.usage ≤ swapSize) →
      E (.assertion .swapslotAllocUsage) k)
    (hfull : swapSize ≤ k.defaultSwapfile.head → E .outOfBounds k)
    (hQ : k.defaultSwapfile.head < swapSize → ∀ k', k' = { k with
        swapped := k.swapped ++ [(pid, k.defaultSwapfile.head * pageSize)]
        defaultSwapfile := { k.defaultSwapfile with
          head := k.defaultSwapfile.slots k.defaultSwapfile.head
          usage := k.defaultSwapfile.usage + 1 } } →
      Q (k.defaultSwapfile.head * pageSize) k') :
    Wp (pagerSwapslotAlloc pid) k Q E := by
  unfold pagerSwapslotAlloc swapslotAlloc
  simp only [wp_bind, wp_get, wp_assert, wp_failIf, wp_modify, wp_pure]
  refine ⟨fun _ => ⟨hfull, fun hlt => ?_⟩, fun h => husage (by simpa using h)⟩
  have hlt' : k.defaultSwapfile.head < swapSize := by omega
  have hne : k.defaultSwapfile.head * pageSize ≠ addressNone := by
    have h1 : swapSize = 1013 := rfl
    have h2 : addressNone = 4294967294 := rfl
    have h3 : pageSize = 4096 := rfl
    rw [h2, h3]
    omega
  rw [if_neg hne]
  simp only [wp_bind, wp_modify, wp_pure]
  exact hQ hlt' _ rfl

/-- A victim has been chosen and its swap-out put in front of the queue. -/
structure SwapoutStarted (M : Set Nat) (b : Bool) (k k' : Kernel) : Prop where
  steps : Pool.Steps M b k.pool k'.pool
  requests : ∃ pr, k'.requests = .swapout pr :: k.requests ∧ pr.stage = some .swapoutOpen ∧
    pr.size = pageSize ∧ pr.offset = -1 ∧ pr.sf = .default
  requestActive : k'.requestActive = k.requestActive
  victim : ∃ found ∈ k.alloced, ∀ pid n, ¬ (pid = found.1 ∧ n = pageNo found.2) →
    ∃ r, k'.pool.pte pid n = { k.pool.pte pid n with ref := r }
  repaged : Repaged k k'
  limit : k'.allocLimit = k.allocLimit
  pinned : k'.pinnedFrame = k.pinnedFrame
  slot : k.defaultSwapfile.head < swapSize
  overrun : k'.overrun = k.overrun

theorem startSwapout_spec : Wp startSwapout k (fun _ => SwapoutStarted M b k)
    (fun f _ => k.NoVictim f) := by
  unfold startSwapout
  rw [wp_bind]
  refine (deleteAllocList_spec (M := M) (b := b)).imp fun found k₁ hscan => ?_
  rw [wp_bind, wp_lookupEntry_of_hasTable hscan.table, wp_bind, wp_derefProcess]
  refine ⟨fun _ => .inl rfl, fun _ => .inl rfl, fun p hp => ?_⟩
  rw [wp_bind, wp_assert]
  refine ⟨fun _ => ?_, fun _ => .inl rfl⟩
  rw [wp_bind, wp_assert]
  refine ⟨fun _ => ?_, fun _ => .inl rfl⟩
  rw [wp_bind, wp_prepareData_of_hasTable hscan.table]
  refine ⟨fun _ => ?_, fun _ => .inl rfl⟩
  rw [wp_bind]
  refine wp_unmapPage (fun _ => .inl rfl) fun _ k₂ h₂ => ?_
  unfold allocPagerRequest
  simp only [wp_bind, wp_derefProcess, wp_pure]
  refine ⟨fun _ => .inl rfl, fun _ => .inl rfl, fun q hq => ?_⟩
  refine modify_eq.imp fun _ k₃ h₃ => ?_
  refine wp_pagerSwapslotAlloc (fun _ => .inl rfl) (fun _ => .inl rfl) fun hlt k₄ h₄ => ?_
  rw [wp_assert]
  refine ⟨fun _ => ?_, fun _ => .inl rfl⟩
  refine wp_setEntry fun k₅ h₅ => ?_
  refine modify_eq.imp fun _ k₆ h₆ => ?_
  refine (keeps_swapfileOpen idle_unwatched _ _ k₆).mono (fun _ k' hidle => ?_)
    (fun _ _ h => .inl h.2)
  have hsame : k₄.sosProcs = k₁.sosProcs := by rw [h₄, h₃, h₂]
  have htable₄ : k₄.HasTable found.1 (pageNo found.2) := by
    obtain ⟨p, t, hp, ht⟩ := hscan.table
    exact ⟨p, t, by rw [hsame]; exact hp, ht⟩
  have hrest₅ : k₅ = { k₄ with sosProcs := k₅.sosProcs } := by
    rw [h₅]
    exact updProcess_rest
  have hreq₅ : k₅.requests.tail = k.requests := by
    rw [hrest₅, h₄, h₃, h₂, hscan.rest]
    rfl
  have hpool₅ : k₅.pool = k₄.pool.setPte found.1 (pageNo found.2)
      { k₁.pool.pte found.1 (pageNo found.2) with
        swap := true, addr := k₃.defaultSwapfile.head * pageSize } := by
    rw [h₅, pool_setEntry htable₄]
  have hhead : k₃.defaultSwapfile = k₁.defaultSwapfile := by rw [h₃, h₂]
  have hpool₆ : k₆.pool = (({ k₁.pool with
        alloced := k₁.pool.alloced
        swapped := (found.1, k₁.pool.head * pageSize) ::ₘ k₁.pool.swapped
        head := k₁.pool.slots k₁.pool.head
        usage := k₁.pool.usage + 1
        writing := (k₁.pool.pte found.1 (pageNo found.2)).addr ::ₘ k₁.pool.writing }).setPte found.1
      (pageNo found.2) { k₁.pool.pte found.1 (pageNo found.2) with
        swap := true, addr := k₁.pool.head * pageSize }).setMmu found.1 (pageNo found.2) none := by
    have hwriting : k₆.pool.writing =
        (k₁.pool.pte found.1 (pageNo found.2)).addr ::ₘ k₁.pool.writing := by
      have hreq₁ : k₁.requests = k.requests := by rw [hscan.rest]
      rw [h₆]
      show Multiset.ofList ((_ :: k₅.requests.tail).filterMap _) = _ ::ₘ Multiset.ofList _
      rw [hreq₅, hreq₁]
      rfl
    have hswapped : k₄.pool.swapped =
        (found.1, k₁.pool.head * pageSize) ::ₘ k₁.pool.swapped := by
      rw [h₄]
      show Multiset.ofList (k₃.swapped ++ _) = _ ::ₘ Multiset.ofList _
      rw [hhead, h₃, h₂, ← Multiset.coe_add, add_comm]
      rfl
    have hpool₄ : k₄.pool = { k₁.pool.setMmu found.1 (pageNo found.2) none with
        swapped := k₄.pool.swapped
        head := k₁.pool.slots k₁.pool.head
        usage := k₁.pool.usage + 1
        writing := k₄.pool.writing } := by
      rw [h₄, hhead, h₃, h₂]
      rfl
    have h0 : k₆.pool = { k₅.pool with writing := k₆.pool.writing } := by
      rw [h₆]
      rfl
    rw [h0, hwriting, hpool₅, hhead, hpool₄, hswapped]
    rfl
  have hlt₁ : k₁.pool.head < swapSize := by
    show k₁.defaultSwapfile.head < swapSize
    rw [← hhead]
    exact hlt
  refine ⟨?_, ?_, ?_, ?_, ?_, ?_, ?_, ?_, ?_⟩
  · rw [hidle.pool, hpool₆]
    refine hscan.steps.tail ?_
    have hmem : (found.1, pageNo found.2) ∈ (found.1, pageNo found.2) ::ₘ k₁.pool.alloced :=
      Multiset.mem_cons_self ..
    have hev : Pool.Step M b { k₁.pool with
        alloced := (found.1, pageNo found.2) ::ₘ k₁.pool.alloced } _ :=
      .evict (p := found.1) (a := pageNo found.2) (pool_live_of_hasTable hscan.table)
        hmem hlt₁
    dsimp only at hev
    rw [Multiset.erase_cons_head] at hev
    exact hev
  · have hreq := hidle.requests
    rw [h₆] at hreq
    dsimp only at hreq
    rw [hreq₅] at hreq
    exact ⟨_, hreq, rfl, rfl, rfl, rfl⟩
  · rw [hidle.requestActive, h₆]
    show k₅.requestActive = _
    rw [hrest₅, h₄, h₃, h₂, hscan.rest]
  · refine ⟨found, hscan.perm.mem_iff.mp (List.mem_cons_self ..), fun pid n hne => ?_⟩
    rw [hidle.pool, hpool₆, Pool.setMmu_pte, Pool.setPte_self_ne hne]
    exact hscan.pte pid n
  · have hrep₅ : Repaged k₄ k₅ := by rw [h₅]; exact .setEntry
    have hrep₆ : Repaged k₅ k₆ := .of_sosProcs_eq (by rw [h₆])
    refine hscan.repaged.trans (Repaged.trans (.of_sosProcs_eq hsame) ?_)
    exact hrep₅.trans (hrep₆.trans (.of_idle hidle))
  · show k'.pool.limit = _
    rw [hidle.pool, hpool₆]
    show k₁.allocLimit = _
    rw [hscan.rest]
  · show k'.pool.pinned = _
    rw [hidle.pool, hpool₆]
    show k₁.pinnedFrame = _
    rw [hscan.rest]
  · have hsf : k.defaultSwapfile = k₁.defaultSwapfile := by rw [hscan.rest]
    rw [hsf]
    exact hlt₁
  · rw [hidle.overrun, h₆]
    show k₅.overrun = _
    rw [hrest₅, h₄, h₃, h₂, hscan.rest]

/-! ## Coming from disk -/

/-- A frame has been pinned for the page of the request at the head, and its file is being
opened. -/
structure SwapinStarted (M : Set Nat) (b : Bool) (k k' : Kernel) : Prop where
  steps : Pool.Steps M b k.pool k'.pool
  requests : ∃ pr rest sf, k.requests = .swapin pr :: rest ∧
    k'.requests = .swapin { pr with
      sf := sf
      swapinFinish := if (k.pool.pte pr.pid (pageNo pr.addr)).elf then .finishSwapelf
        else .finishSwapin
      size := pageSize
      stage := some .swapinOpen } :: rest
  requestActive : k'.requestActive = k.requestActive
  pte : k'.pool.pte = k.pool.pte
  repaged : Repaged k k'
  limit : k'.allocLimit = k.allocLimit
  pinned : k'.pinnedFrame = 0 → k'.exhausted = true
  overrun : k'.overrun = k.overrun

theorem wp_pin
    (hQ : ∀ k', Pool.Step M b k.pool k'.pool → (k'.pinnedFrame = 0 → k'.exhausted = true) →
      k' = { k with
        free := k'.free, totalInUse := k'.totalInUse, exhausted := k'.exhausted
        pinnedFrame := k'.pinnedFrame } → Q () k') :
    Wp frameAlloc k (fun f t => Wp (modify fun k => { k with pinnedFrame := f }) t Q E) E := by
  simp only [wp_frameAlloc, wp_modify]
  refine ⟨fun hempty => hQ _ ?_ (fun _ => rfl) rfl, fun f rest hfree hf => hQ _ ?_ ?_ rfl⟩
  · refine .pinNone ?_
    show (k.freeFrames : Multiset Nat) = 0
    rw [hempty]
    rfl
  · have hstep : Pool.Step M b k.pool _ := .pin (mem_free_of_cons hfree hf)
    have hpool := pool_frameTaken hfree hf
    have hk : Kernel.pool { k.frameTaken rest with pinnedFrame := f } =
        { (k.frameTaken rest).pool with pinned := f } := rfl
    rw [hk, hpool]
    exact hstep
  · exact fun h0 => absurd h0 hf

theorem startSwapin_spec : Wp startSwapin k (fun _ => SwapinStarted M b k)
    (fun f _ => f.watched = false) := by
  unfold startSwapin
  simp only [wp_bind]
  refine wp_pin (M := M) (b := b) fun k₁ hstep hpin hk₁ => ?_
  rw [wp_peekSwapin]
  refine ⟨fun _ => rfl, fun _ _ _ _ => rfl, fun pr rest hreq => ?_⟩
  refine wp_lookupEntry (fun _ => rfl) (fun _ => rfl) (fun _ _ _ => rfl) ?_
  intro k₂ hgrow htable
  rw [wp_derefProcess]
  refine ⟨fun _ => rfl, fun _ => rfl, fun p hp => ?_⟩
  have hpte₁ : k₁.pool.pte = k.pool.pte := by rw [hk₁]; rfl
  have hreq₂ : k₂.requests = .swapin pr :: rest := by rw [hgrow.requests, hreq]
  -- the swap file is chosen by the entry; the rest does not depend on it
  have hopen : ∀ sf, Wp (setHead (.swapin { pr with
      sf := sf
      swapinFinish := if (k₁.pool.pte pr.pid (pageNo pr.addr)).elf then .finishSwapelf
        else .finishSwapin
      size := pageSize
      stage := some .swapinOpen })) k₂
      (fun _ t => Wp (swapfileOpen sf fmRead) t (fun _ => SwapinStarted M b k)
        (fun f _ => f.watched = false))
      (fun f _ => f.watched = false) := by
    intro sf
    refine modify_eq.imp fun _ k₃ h₃ => ?_
    refine (keeps_swapfileOpen idle_unwatched _ _ k₃).mono (fun _ k' hidle => ?_) fun _ _ h => h.2
    have hpool₃ : k₃.pool = k₂.pool := by
      rw [h₃]
      exact pool_setHead hreq₂ rfl
    refine ⟨?_, ⟨pr, rest, sf, ?_, ?_⟩, ?_, ?_, ?_, ?_, ?_, ?_⟩
    · rw [hidle.pool, hpool₃]
      exact .head hstep (hgrow.steps M b)
    · rw [← hreq, hk₁]
    · rw [hidle.requests, h₃, ← hpte₁]
      show _ :: k₂.requests.tail = _
      rw [hreq₂]
      rfl
    · rw [hidle.requestActive, h₃]
      show k₂.requestActive = _
      rw [hgrow.requestActive, hk₁]
    · rw [hidle.pool, hpool₃, hgrow.pte, hpte₁]
    · have hrep₁ : Repaged k k₁ := .of_sosProcs_eq (by rw [hk₁])
      have hrep₃ : Repaged k₂ k₃ := .of_sosProcs_eq (by rw [h₃])
      exact hrep₁.trans ((Repaged.of_grow hgrow).trans (hrep₃.trans (.of_idle hidle)))
    · show k'.pool.limit = _
      rw [hidle.pool, hpool₃]
      show k₂.allocLimit = _
      rw [hgrow.allocLimit, hk₁]
    · show k'.pool.pinned = 0 → k'.pool.exhausted = true
      rw [hidle.pool, hpool₃]
      show k₂.pinnedFrame = 0 → k₂.exhausted = true
      rw [hgrow.rest]
      exact hpin
    · rw [hidle.overrun, h₃]
      show k₂.overrun = _
      rw [hgrow.rest, hk₁]
  split
  · exact wp_throw.mpr rfl
  · next r hr =>
    rw [wp_ite]
    refine ⟨fun helf => ?_, fun helf => ?_⟩
    · simp only [wp_bind, wp_assert, wp_pure]
      exact ⟨fun _ => hopen _, fun _ => rfl⟩
    · simp only [wp_bind, wp_pure]
      exact hopen .default

/-! ## Leaving the disk -/

theorem pool_slotsFree (l : List (Pid × Nat)) (k : Kernel) :
    ({ k with
      defaultSwapfile :=
        l.foldl (fun sf x => sf.slotFree (x.2 / pageSize)) k.defaultSwapfile } : Kernel).pool =
      (l.map Prod.snd).foldl Pool.freeSlot k.pool := by
  induction l generalizing k with
  | nil => rfl
  | cons x l ih =>
    exact ih { k with defaultSwapfile := k.defaultSwapfile.slotFree (x.2 / pageSize) }

theorem Pool.foldl_freeSlot_setPte {p : Pid} {a : Page} (rs : List Nat) :
    rs.foldl Pool.freeSlot (P.setPte p a e) = (rs.foldl Pool.freeSlot P).setPte p a e := by
  induction rs generalizing P with
  | nil => rfl
  | cons r rs ih => exact ih (P := P.freeSlot r)

theorem Pool.setPte_eq_self {p : Pid} {a : Page} : P.setPte p a (P.pte p a) = P := by
  unfold Pool.setPte
  simp

/-- The pairs selected are all the same. -/
theorem selects_iff {args x : Pid × Nat} (h : pageOffset x.2 = 0) : Selects args x ↔ x = args := by
  constructor
  · rintro ⟨h1, h2 | h2⟩
    · exact Prod.ext h1 h2
    · rw [h2] at h
      exact absurd h (by decide)
  · rintro rfl
    exact ⟨rfl, .inl rfl⟩

/-- The page has left the disk. -/
structure LeftDisk (M : Set Nat) (b : Bool) (pid : Pid) (n : Page) (e : Pte) (P : Pool)
    (k k' : Kernel) : Prop where
  step : Pool.Step M b P k'.pool
  pte : k'.pool.pte = (k.pool.setPte pid n { e with swap := false, addr := 0 }).pte
  repaged : Repaged k k'
  rest : k' = { k with
    sosProcs := k'.sosProcs, swapped := k'.swapped, defaultSwapfile := k'.defaultSwapfile }

/-- `leaveDisk` is a step from a pool that differs in the ELF mark of the page only. -/
theorem leaveDisk_spec {addr : Nat} (htable : k.HasTable pid (pageNo addr))
    (hP : k.pool = P.setPte pid (pageNo addr) e) (hswap : (P.pte pid (pageNo addr)).swap)
    (haddr : e.addr = (P.pte pid (pageNo addr)).addr)
    (hclash : b = false → (P.pte pid (pageNo addr)).elf = true →
      ∀ m, P.OnSwap pid m → (P.pte pid m).addr ≠ (P.pte pid (pageNo addr)).addr) :
    Wp (leaveDisk pid addr e) k (fun _ k' => LeftDisk M b pid (pageNo addr) e P k k')
      (fun _ _ => True) := by
  unfold leaveDisk swappedDelete
  simp only [wp_bind, wp_get]
  refine (listDelete_swapslot_spec _ _ k).imp fun kept k₁ h₁ => ?_
  refine modify_eq.imp fun _ k₂ h₂ => ?_
  refine wp_setEntry fun k' h' => ?_
  have hsame : k₂.sosProcs = k.sosProcs := by rw [h₂, h₁.state]
  have htable₂ : k₂.HasTable pid (pageNo addr) := by
    obtain ⟨p, t, hp, ht⟩ := htable
    exact ⟨p, t, by rw [hsame]; exact hp, ht⟩
  have hpool₂ : k₂.pool =
      { ((k.swapped.filter (Selects (pid, e.addr))).map Prod.snd).foldl Pool.freeSlot k.pool with
        swapped := kept } := by
    rw [← pool_slotsFree, h₂, h₁.state]
    rfl
  have hpool : k'.pool = k₂.pool.setPte pid (pageNo addr) { e with swap := false, addr := 0 } := by
    rw [h']
    exact pool_setEntry htable₂
  have hsel : ∀ x ∈ k.swapped, Selects (pid, e.addr) x → x = (pid, e.addr) := fun x hx hs =>
    (selects_iff (h₁.wf x hx hs).1).mp hs
  have hlive : P.live pid = true := by
    have hl := pool_live_of_hasTable htable
    rw [hP] at hl
    exact hl
  refine ⟨?_, ?_, ?_, ?_⟩
  · have hsplit : P.swapped = Multiset.ofList kept + Multiset.ofList
        (((k.swapped.filter (Selects (pid, e.addr))).map Prod.snd).map (Prod.mk pid)) := by
      have hPs : P.swapped = Multiset.ofList k.swapped := by
        show (P.setPte pid (pageNo addr) e).swapped = _
        rw [← hP]
        rfl
      have hmap : ((k.swapped.filter (Selects (pid, e.addr))).map Prod.snd).map (Prod.mk pid) =
          k.swapped.filter (Selects (pid, e.addr)) := by
        rw [List.map_map]
        refine (List.map_congr_left fun x hx => ?_).trans (List.map_id _)
        obtain ⟨hx, hs⟩ := List.mem_filter.mp hx
        rw [hsel x hx (by simpa using hs)]
        rfl
      rw [hPs, hmap, h₁.kept, add_comm, Multiset.coe_add, Multiset.coe_eq_coe]
      have hperm := List.filter_append_perm (fun x => decide (Selects (pid, e.addr) x)) k.swapped
      simpa using hperm.symm
    have hkept : (pid, (P.pte pid (pageNo addr)).addr) ∉ Multiset.ofList kept := by
      rw [← haddr, h₁.kept]
      simp [Selects]
    have hslots : ∀ s ∈ (k.swapped.filter (Selects (pid, e.addr))).map Prod.snd,
        s = (P.pte pid (pageNo addr)).addr ∧ pageOffset s = 0 ∧ s / pageSize < swapSize := by
      intro s hs
      obtain ⟨x, hx, rfl⟩ := List.mem_map.mp hs
      obtain ⟨hx, hxs⟩ := List.mem_filter.mp hx
      have hxs : Selects (pid, e.addr) x := by simpa using hxs
      refine ⟨?_, h₁.wf x hx hxs⟩
      rw [hsel x hx hxs]
      exact haddr
    have hstep := Pool.Step.reload (M := M) (e := { e with swap := false, addr := 0 }) hlive hswap
      rfl rfl hsplit hkept hslots hclash
    rw [hpool, hpool₂, hP, Pool.foldl_freeSlot_setPte]
    have hset : ∀ P' : Pool, ({ P'.setPte pid (pageNo addr) e with swapped := kept }).setPte pid
        (pageNo addr) { e with swap := false, addr := 0 } =
          { P' with swapped := kept }.setPte pid (pageNo addr)
            { e with swap := false, addr := 0 } := fun P' => by
      unfold Pool.setPte
      simp
    rw [hset]
    exact hstep
  · rw [hpool, hpool₂]
    obtain ⟨_, _, _, heq⟩ := Pool.foldl_freeSlot
      ((k.swapped.filter (Selects (pid, e.addr))).map Prod.snd) k.pool
    rw [heq]
    rfl
  · refine (Repaged.of_sosProcs_eq hsame).trans ?_
    rw [h']
    exact .setEntry
  · rw [h', updProcess_rest, h₂, h₁.state]

end Sos
