import Sos.Simulation.Quiet

/-!
# Deleting a process

`processDelete` walks over four structures and gives back what it finds. In terms of the pool this
is one step, `Pool.Step.exit`. What each walk does to the free list is stated by counting: no frame
gets on it more often than it was given back.
-/

namespace Sos

open Hoare

variable {k k' : Kernel} {E : Fault → Kernel → Prop} {pid : Pid} {M : Set Nat} {b : Bool} {f : Nat}

/-! ## Counting the free list -/

/-- How often a frame is on the free list. -/
def Kernel.freeCount (k : Kernel) (f : Nat) : Nat := k.freeFrames.count f

theorem freeCount_frameFree (k : Kernel) (g f : Nat) :
    (k.frameFree g).freeCount f ≤ k.freeCount f + if g = f then 1 else 0 := by
  unfold Kernel.freeCount Kernel.freeFrames Kernel.frameFree
  dsimp only
  by_cases hg : g = 0
  · subst hg
    simp
  · simp [hg, List.count_cons]

theorem freeCount_frameFree_of_ne (k : Kernel) {g : Nat} (hg : g ≠ 0) (f : Nat) :
    (k.frameFree g).freeCount f = k.freeCount f + if g = f then 1 else 0 := by
  unfold Kernel.freeCount Kernel.freeFrames Kernel.frameFree
  simp [hg, List.count_cons]

theorem freeCount_frameTaken {g : Nat} {rest : List Nat} (h : k.free = g :: rest) (hg : g ≠ 0) :
    (k.frameTaken rest).freeCount f + (if g = f then 1 else 0) = k.freeCount f := by
  unfold Kernel.freeCount Kernel.freeFrames Kernel.frameTaken
  simp [h, hg, List.count_cons]

/-! ## The frames of the resident pages -/

/-- How often a frame stands in the entries of the listed pages. -/
def entryCount (pt : Pagetable) (l : List (Pid × Nat)) (f : Nat) : Nat :=
  l.countP fun x => (pt.entry (pageNo x.2)).addr = f

/-- What `framesFree` does, for the pairs `l` still to be visited. Nothing gets lost unless an entry
has no frame: giving 0 back empties the free list. -/
structure FramesFreed (pid : Pid) (pt : Pagetable) (l : List (Pid × Nat)) (k : Kernel)
    (r : Pagetable × List (Pid × Nat)) (k' : Kernel) : Prop where
  kept : r.2 = l.filter (·.1 ≠ pid)
  count : ∀ f, f ≠ 0 → k'.freeCount f + r.1.frames.count f ≤
    k.freeCount f + pt.frames.count f + entryCount pt (l.filter (·.1 = pid)) f
  exact : (∀ x ∈ l, x.1 = pid → (pt.entry (pageNo x.2)).addr ≠ 0) → ∀ f,
    k'.freeCount f + r.1.frames.count f =
      k.freeCount f + pt.frames.count f + entryCount pt (l.filter (·.1 = pid)) f
  tables : 0 ∉ pt.frames → 0 ∉ r.1.frames
  limit : k'.allocLimit = k.allocLimit + (l.filter (·.1 = pid)).length
  rest : k' = { k with
    free := k'.free, totalInUse := k'.totalInUse, allocLimit := k'.allocLimit }

theorem wp_pagerFrameFree_none {g : Nat} {Q : Unit → Kernel → Prop}
    (hE : pageOffset g ≠ 0 → E (.assertion .pagerFrameFreeAligned) k)
    (hQ : pageOffset g = 0 →
      Q () { k.frameFree g with allocLimit := k.allocLimit + 1 }) :
    Wp (pagerFrameFree none g) k Q E := by
  unfold pagerFrameFree
  simp only [wp_bind, wp_assert, wp_frameFree, wp_modify, wp_pure]
  exact ⟨fun h => hQ (by simpa using h), fun h => hE (by simpa using h)⟩

theorem framesFree_spec : ∀ (l : List (Pid × Nat)) (pt : Pagetable) (k : Kernel),
    Wp (framesFree pid pt l) k (FramesFreed pid pt l k) (fun _ _ => True)
  | [], pt, k => by
    unfold framesFree
    rw [wp_pure]
    exact ⟨rfl, fun f _ => by simp [entryCount], fun _ f => by simp [entryCount], id, by simp, rfl⟩
  | x :: l, pt, k => by
    unfold framesFree
    rw [wp_ite]
    refine ⟨fun hx => ?_, fun hx => ?_⟩
    · -- a pair of the process: look the entry up, perhaps making a table, and free its frame
      simp only [wp_bind]
      have hfree : ∀ (pt' : Pagetable) (k₁ : Kernel), pt'.entry = pt.entry →
          (∀ f, k₁.freeCount f + pt'.frames.count f = k.freeCount f + pt.frames.count f) →
          (0 ∉ pt.frames → 0 ∉ pt'.frames) →
          (k₁ = { k with free := k₁.free, totalInUse := k₁.totalInUse }) →
          Wp (pagerFrameFree none (pt'.entry (pageNo x.2)).addr) k₁
            (fun _ t => Wp (framesFree pid pt' l) t (FramesFreed pid pt (x :: l) k)
              (fun _ _ => True)) (fun _ _ => True) := by
        intro pt' k₁ hent hcount hzero hrest
        refine wp_pagerFrameFree_none (fun _ => trivial) fun _ => ?_
        refine (framesFree_spec l pt' _).imp fun r t h => ?_
        have hfilter : (x :: l).filter (·.1 = pid) = x :: l.filter (·.1 = pid) := by
          simp [hx]
        have h4 : ∀ f, Kernel.freeCount { k₁.frameFree (pt'.entry (pageNo x.2)).addr with
          allocLimit := k₁.allocLimit + 1 } f =
            (k₁.frameFree (pt'.entry (pageNo x.2)).addr).freeCount f := fun _ => rfl
        have h5 : ∀ f, entryCount pt ((x :: l).filter (·.1 = pid)) f =
            entryCount pt (l.filter (·.1 = pid)) f +
              if (pt.entry (pageNo x.2)).addr = f then 1 else 0 := by
          intro f
          rw [hfilter]
          unfold entryCount
          rw [List.countP_cons]
          simp
        have h6 : ∀ f, entryCount pt' (l.filter (·.1 = pid)) f =
            entryCount pt (l.filter (·.1 = pid)) f := by
          intro f
          unfold entryCount
          rw [hent]
        refine ⟨?_, fun f hf => ?_, fun hne f => ?_, fun h0 => h.tables (hzero h0), ?_, ?_⟩
        · rw [h.kept]
          simp [hx]
        · have h1 := h.count f hf
          have h2 := freeCount_frameFree k₁ (pt'.entry (pageNo x.2)).addr f
          have h3 := hcount f
          rw [h4] at h1
          rw [hent] at h1 h2
          rw [h5]
          have h6 := h6 f
          omega
        · have hne' : ∀ y ∈ l, y.1 = pid → (pt'.entry (pageNo y.2)).addr ≠ 0 := by
            rw [hent]
            exact fun y hy => hne y (List.mem_cons_of_mem x hy)
          have hx0 : (pt'.entry (pageNo x.2)).addr ≠ 0 := by
            rw [hent]
            exact hne x List.mem_cons_self hx
          have h1 := h.exact hne' f
          have h2 := freeCount_frameFree_of_ne k₁ hx0 f
          have h3 := hcount f
          rw [h4] at h1
          rw [hent] at h1 h2
          rw [h5]
          have h6 := h6 f
          omega
        · rw [h.limit, hfilter, List.length_cons]
          have : k₁.allocLimit = k.allocLimit := by rw [hrest]
          show k₁.allocLimit + 1 + _ = _
          rw [this]
          push_cast
          omega
        · rw [h.rest, hrest]
          rfl
      rw [wp_pagetableLookup]
      refine ⟨fun t ht => hfree pt k rfl (fun f => rfl) id rfl, fun hnone => ⟨fun _ => trivial, ?_⟩⟩
      intro g rest hg hne
      have h2 : ∀ f, (pt.addTable (offset1 (pageNo x.2)) g).frames.count f =
          pt.frames.count f + if g = f then 1 else 0 := by
        intro f
        have := congrArg (Multiset.count f) (Pagetable.frames_addTable (f := g) hnone)
        rw [Multiset.coe_count, Multiset.count_cons, Multiset.coe_count] at this
        rw [this]
        simp only [eq_comm]
      refine hfree _ _ (Pagetable.entry_addTable hnone) (fun f => ?_) (fun h0 => ?_) rfl
      · have h1 := freeCount_frameTaken (f := f) hg hne
        have h2 := h2 f
        omega
      · rw [← List.count_eq_zero, h2, if_neg hne, List.count_eq_zero.mpr h0]
    · -- a pair of another process stays
      simp only [wp_bind, wp_pure]
      refine (framesFree_spec l pt k).imp fun r t h => ?_
      have hfilter : (x :: l).filter (·.1 = pid) = l.filter (·.1 = pid) := by
        simp [hx]
      refine ⟨?_, ?_, ?_, h.tables, ?_, h.rest⟩
      · rw [h.kept]
        simp [hx]
      · rw [hfilter]
        exact h.count
      · rw [hfilter]
        exact fun hne => h.exact fun y hy => hne y (List.mem_cons_of_mem x hy)
      · rw [hfilter]
        exact h.limit

/-! ## Slots -/

/-- The pairs `pagerSwapslotFree` selects. -/
def Selects (args x : Pid × Nat) : Prop := x.1 = args.1 ∧ (x.2 = args.2 ∨ x.2 = addressAll)

instance (args x : Pid × Nat) : Decidable (Selects args x) := inferInstanceAs (Decidable (_ ∧ _))

theorem wp_swapslotFree {d : Nat} {Q : Unit → Kernel → Prop}
    (halign : pageOffset d ≠ 0 → E (.assertion .swapslotFreeAligned) k)
    (husage : pageOffset d = 0 → k.defaultSwapfile.usage ≤ 0 →
      E (.assertion .swapslotFreeUsage) k)
    (hrange : pageOffset d = 0 → 0 < k.defaultSwapfile.usage → swapSize ≤ d / pageSize →
      E .outOfBounds k)
    (hQ : pageOffset d = 0 → d / pageSize < swapSize →
      Q () { k with defaultSwapfile := k.defaultSwapfile.slotFree (d / pageSize) }) :
    Wp (swapslotFree d) k Q E := by
  unfold swapslotFree
  simp only [wp_bind, wp_get, wp_assert, wp_failIf, wp_modify, decide_eq_true_eq,
    decide_eq_false_iff_not]
  refine ⟨fun h1 => ⟨fun h2 => ⟨fun h3 => hrange h1 h2 h3, fun h3 => hQ h1 (by omega)⟩,
    fun h2 => husage h1 (by omega)⟩, fun h1 => halign h1⟩

/-- What `list_delete` with `pagerSwapslotFree` does to a list of pairs. -/
structure SlotsFreed (args : Pid × Nat) (l : List (Pid × Nat)) (k : Kernel)
    (kept : List (Pid × Nat)) (k' : Kernel) : Prop where
  kept : kept = l.filter (fun x => ¬ Selects args x)
  wf : ∀ x ∈ l, Selects args x → pageOffset x.2 = 0 ∧ x.2 / pageSize < swapSize
  state : k' = { k with
    defaultSwapfile := (l.filter (Selects args)).foldl
      (fun sf x => sf.slotFree (x.2 / pageSize)) k.defaultSwapfile }

theorem listDelete_swapslot_spec (args : Pid × Nat) : ∀ (l : List (Pid × Nat)) (k : Kernel),
    Wp (listDelete (pagerSwapslotFree args) l) k (SlotsFreed args l k) (fun _ _ => True)
  | [], k => by
    unfold listDelete
    rw [wp_pure]
    exact ⟨rfl, by simp, rfl⟩
  | x :: l, k => by
    unfold listDelete pagerSwapslotFree
    rw [wp_bind, wp_ite]
    refine ⟨fun hx => ?_, fun hx => ?_⟩
    · have hsel : Selects args x := hx
      rw [wp_bind]
      refine wp_swapslotFree (fun _ => trivial) (fun _ _ => trivial) (fun _ _ _ => trivial) ?_
      intro halign hlt
      rw [wp_pure]
      refine (listDelete_swapslot_spec args l _).imp fun kept k' h => ⟨?_, ?_, ?_⟩
      · rw [h.kept]
        simp [hsel]
      · intro y hy hys
        rcases List.mem_cons.mp hy with rfl | hy
        · exact ⟨halign, hlt⟩
        · exact h.wf y hy hys
      · rw [h.state]
        simp [hsel]
    · have hsel : ¬ Selects args x := hx
      rw [wp_pure]
      simp only [Bool.false_eq_true, if_false, wp_bind, wp_pure]
      refine (listDelete_swapslot_spec args l k).imp fun kept k' h => ⟨?_, ?_, ?_⟩
      · rw [h.kept]
        simp [hsel]
      · intro y hy hys
        rcases List.mem_cons.mp hy with rfl | hy
        · exact absurd hys hsel
        · exact h.wf y hy hys
      · rw [h.state]
        simp [hsel]

/-- `addressAll` is not the address of a slot, so nothing is selected by it. -/
theorem not_selects_addressAll {x : Pid × Nat} (h : pageOffset x.2 = 0) :
    ¬ Selects (pid, addressAll) x := by
  rintro ⟨-, hx⟩
  have : x.2 = addressAll := by tauto
  rw [this] at h
  exact absurd h (by decide)

/-- **Deleting a process releases no slot**: the walk over `swapped` changes nothing. -/
theorem swappedDelete_addressAll_spec :
    Wp (swappedDelete (pid, addressAll)) k (fun _ k' => k' = k) (fun _ _ => True) := by
  unfold swappedDelete
  simp only [wp_bind, wp_get, wp_modify]
  refine (listDelete_swapslot_spec _ _ k).imp fun kept k' h => ?_
  have hnone : ∀ x ∈ k.swapped, ¬ Selects (pid, addressAll) x := fun x hx hsel =>
    not_selects_addressAll (h.wf x hx hsel).1 hsel
  have hsel : k.swapped.filter (fun x => decide (Selects (pid, addressAll) x)) = [] := by
    rw [List.filter_eq_nil_iff]
    simpa using hnone
  have hkept : kept = k.swapped := by
    rw [h.kept, List.filter_eq_self]
    simpa using hnone
  rw [hkept, h.state, hsel]
  rfl

/-! ## Page tables and regions -/

theorem forM_frameFree_spec : ∀ (l : List Nat) (k : Kernel),
    Wp (l.forM frameFree) k (fun _ k' => (∀ f, k'.freeCount f ≤ k.freeCount f + l.count f) ∧
      (0 ∉ l → ∀ f, k'.freeCount f = k.freeCount f + l.count f) ∧
      k' = { k with free := k'.free, totalInUse := k'.totalInUse }) E
  | [], k => wp_pure.mpr ⟨fun f => by simp, fun _ f => by simp, rfl⟩
  | g :: l, k => by
    show Wp (frameFree g >>= fun _ => l.forM frameFree) k _ _
    rw [wp_bind, wp_frameFree]
    refine (forM_frameFree_spec l _).imp fun _ k' h => ⟨fun f => ?_, fun h0 f => ?_, ?_⟩
    · have h1 := h.1 f
      have h2 := freeCount_frameFree k g f
      rw [List.count_cons]
      simp only [beq_iff_eq]
      omega
    · have h1 := h.2.1 (fun hm => h0 (List.mem_cons_of_mem g hm)) f
      have h2 := freeCount_frameFree_of_ne k (fun he => h0 (he ▸ List.mem_cons_self)) (g := g) f
      rw [List.count_cons]
      simp only [beq_iff_eq]
      omega
    · rw [h.2.2]
      rfl

theorem pagetableFree_spec (pt : Pagetable) (k : Kernel) :
    Wp (pagetableFree pt) k (fun _ k' =>
      (∀ f, k'.freeCount f ≤ k.freeCount f + pt.frames.count f) ∧
      (0 ∉ pt.frames → ∀ f, k'.freeCount f = k.freeCount f + pt.frames.count f) ∧
      k' = { k with free := k'.free, totalInUse := k'.totalInUse }) E := by
  unfold pagetableFree
  exact forM_frameFree_spec pt.frames k

/-- The swap files that `region_free` gives back: not those with the path of the default one. -/
def Kernel.freedElfs (k : Kernel) (l : List Region) : List Nat :=
  (l.filterMap Region.elffile).filter fun g => !(k.elffiles g).any Swapfile.isDefault

theorem forM_regionFree_spec : ∀ (l : List Region) (k : Kernel),
    Wp (l.forM regionFree) k (fun _ k' =>
      (∀ f, k'.freeCount f ≤ k.freeCount f + (l.filterMap Region.elffile).count f) ∧
      ((l.filterMap Region.elffile).Nodup → 0 ∉ l.filterMap Region.elffile →
        ∀ f, k'.freeCount f = k.freeCount f + (k.freedElfs l).count f) ∧
      k' = { k with free := k'.free, totalInUse := k'.totalInUse, elffiles := k'.elffiles })
      (fun _ _ => True)
  | [], k => wp_pure.mpr ⟨fun f => by simp, fun _ _ f => by simp [Kernel.freedElfs], rfl⟩
  | r :: l, k => by
    show Wp (regionFree r >>= fun _ => l.forM regionFree) k _ _
    rw [wp_bind]
    unfold regionFree
    split
    · next hr =>
      rw [wp_pure]
      refine (forM_regionFree_spec l k).imp fun _ k' h => ?_
      unfold Kernel.freedElfs at h ⊢
      rw [List.filterMap_cons_none hr]
      exact h
    · next g hr =>
      rw [wp_bind, wp_derefSwapfile]
      refine ⟨fun _ => trivial, fun sf hsf => ?_⟩
      have hany : (k.elffiles g).any Swapfile.isDefault = sf.isDefault := by
        rw [show k.elffiles g = some sf from hsf]
        rfl
      rw [List.filterMap_cons_some hr, wp_ite]
      refine ⟨fun hdef => ?_, fun hdef => ?_⟩
      · rw [wp_pure]
        refine (forM_regionFree_spec l k).imp fun _ k' h => ⟨fun f => ?_, fun hnd h0 f => ?_, h.2.2⟩
        · have h1 := h.1 f
          rw [List.count_cons]
          omega
        · have h1 := h.2.1 hnd.of_cons (fun hm => h0 (List.mem_cons_of_mem g hm)) f
          rw [h1]
          unfold Kernel.freedElfs
          rw [List.filterMap_cons_some hr, List.filter_cons_of_neg (by simp [hany, hdef])]
      · unfold swapfileFree
        simp only [wp_bind, wp_modify, wp_frameFree]
        have h3 : ∀ f, Kernel.freeCount { k with elffiles := Function.update k.elffiles g none } f =
          k.freeCount f := fun _ => rfl
        refine (forM_regionFree_spec l _).imp fun _ k' h => ⟨fun f => ?_, fun hnd h0 f => ?_, ?_⟩
        · have h1 := h.1 f
          have h2 := freeCount_frameFree
            { k with elffiles := Function.update k.elffiles g none } g f
          have h3 := h3 f
          rw [List.count_cons]
          simp only [beq_iff_eq]
          omega
        · have hg : g ≠ 0 := fun he => h0 (he ▸ List.mem_cons_self)
          have h1 := h.2.1 hnd.of_cons (fun hm => h0 (List.mem_cons_of_mem g hm)) f
          have h2 := freeCount_frameFree_of_ne
            { k with elffiles := Function.update k.elffiles g none } hg f
          have h3 := h3 f
          have hrest : Kernel.freedElfs
              (Kernel.frameFree { k with elffiles := Function.update k.elffiles g none } g) l =
              k.freedElfs l := by
            refine List.filter_congr fun g' hg' => ?_
            have hne : g' ≠ g := fun he => (List.nodup_cons.mp hnd).1 (he ▸ hg')
            show (!(Function.update k.elffiles g none g').any _) = _
            rw [Function.update_of_ne hne]
          have hcons : k.freedElfs (r :: l) = g :: k.freedElfs l := by
            unfold Kernel.freedElfs
            rw [List.filterMap_cons_some hr, List.filter_cons_of_pos (by simp [hany, hdef])]
          rw [hrest] at h1
          rw [hcons, List.count_cons]
          simp only [beq_iff_eq]
          omega
        · rw [h.2.2]
          rfl

/-! ## All of it -/

theorem residentCount_eq_entryCount {p : Process} (hp : k.sosProcs pid = .pcb p) :
    k.pool.residentCount (k.pool.residents pid) f =
      entryCount p.pagetable (k.alloced.filter (·.1 = pid)) f := by
  unfold Pool.residentCount Pool.residents entryCount
  show Multiset.countP _ (Multiset.filter _ (Multiset.ofList _)) = _
  rw [Multiset.filter_coe, Multiset.coe_countP, List.filter_map, List.countP_map]
  refine List.countP_congr fun x hx => ?_
  obtain ⟨-, hxp⟩ := List.mem_filter.mp hx
  have hx1 : x.1 = pid := by simpa using hxp
  have hpte : k.pool.pte x.1 = p.pagetable.entry := by
    show (k.sosProcs x.1).pte = _
    rw [hx1, hp]
    rfl
  simp [hpte]

theorem card_residents (k : Kernel) (pid : Pid) :
    (k.pool.residents pid).card = (k.alloced.filter (·.1 = pid)).length := by
  show Multiset.card (Multiset.filter _ (Multiset.ofList _)) = _
  rw [Multiset.filter_coe, Multiset.coe_card, List.filter_map, List.length_map]
  rfl

/-- What is left when a process has gone: the frames on the free list were there before or were
its own, and all of these are there if its records were in order. -/
structure Gone (pid : Pid) (p : Process) (k k' : Kernel) : Prop where
  count : ∀ f, f ≠ 0 → k'.freeCount f ≤ k.freeCount f +
    entryCount p.pagetable (k.alloced.filter (·.1 = pid)) f + p.pagetable.frames.count f +
    (p.regions.filterMap Region.elffile).count f
  exact : (∀ x ∈ k.alloced, x.1 = pid → (p.pagetable.entry (pageNo x.2)).addr ≠ 0) →
    0 ∉ p.pagetable.frames → (p.regions.filterMap Region.elffile).Nodup →
    0 ∉ p.regions.filterMap Region.elffile → ∀ f, k'.freeCount f = k.freeCount f +
      entryCount p.pagetable (k.alloced.filter (·.1 = pid)) f + p.pagetable.frames.count f +
      (k.freedElfs p.regions).count f
  sosProcs : k'.sosProcs = Function.update k.sosProcs pid .null
  limit : k'.allocLimit = k.allocLimit + (k.alloced.filter (·.1 = pid)).length
  alloced : k'.alloced = k.alloced.filter (·.1 ≠ pid)
  mmu : k'.mmu = Function.update k.mmu pid (fun _ => none)
  rest : k' = { k with
    free := k'.free, totalInUse := k'.totalInUse, sosProcs := k'.sosProcs
    nextPid := k'.nextPid, allocLimit := k'.allocLimit, alloced := k'.alloced, mmu := k'.mmu
    calls := k'.calls, elffiles := k'.elffiles }

namespace Gone

variable {p : Process} (h : Gone pid p k k') (hp : k.sosProcs pid = .pcb p)
include h

theorem pool_eq : k'.pool = { k.pool with
    live := Function.update k.pool.live pid false
    free := k'.freeFrames
    limit := k.pool.limit + (k.pool.residents pid).card
    alloced := k.pool.alloced.filter (·.1 ≠ pid)
    pte := Function.update k.pool.pte pid (fun _ => {})
    tables := Function.update k.pool.tables pid 0
    elfs := Function.update k.pool.elfs pid 0
    direct := Function.update k.pool.direct pid (fun _ => False)
    mmu := Function.update k.pool.mmu pid (fun _ => none) } := by
  have halloced : (k'.alloced.map fun x => (x.1, pageNo x.2) : List (Pid × Page)) =
      (k.alloced.map fun x => (x.1, pageNo x.2)).filter (·.1 ≠ pid) := by
    rw [h.alloced, List.filter_map]
    rfl
  rw [card_residents, show k'.pool = Kernel.pool _ from congrArg _ h.rest]
  unfold Kernel.pool
  dsimp only
  rw [h.sosProcs, h.limit, h.mmu, halloced, update_comp, update_comp, update_comp, update_comp,
    update_comp, ← Multiset.filter_coe]
  rfl

include hp in
theorem step : Pool.Step M b k.pool k'.pool := by
  have hlive : k.pool.live pid = true := by
    show (k.sosProcs pid).live = true
    rw [hp]
    rfl
  rw [h.pool_eq]
  refine .exit hlive (zero_notMem_freeFrames k') fun f hf => ?_
  have h1 := h.count f hf
  have h2 : k.pool.free.count f = k.freeCount f := Multiset.coe_count ..
  have h3 : (k.pool.tables pid).count f = p.pagetable.frames.count f := by
    show Multiset.count f (k.sosProcs pid).tables = _
    rw [hp]
    exact Multiset.coe_count ..
  have h4 : (k.pool.elfs pid).count f = (p.regions.filterMap Region.elffile).count f := by
    show Multiset.count f (k.sosProcs pid).elfs = _
    rw [hp]
    exact Multiset.coe_count ..
  rw [residentCount_eq_entryCount hp, Multiset.coe_count, h2, h3, h4]
  exact h1

end Gone

/-- **What `processDelete` does**: nothing, unless a user process is there; else the process is
gone, and those who waited for it are awake. -/
theorem processDelete_spec :
    Wp (processDelete pid) k (fun rval k' =>
      (rval ≠ 0 ∧ k' = k) ∨
      (rval = 0 ∧ ∃ p k₁, k.sosProcs pid = .pcb p ∧ p.psType ≠ .rootthread ∧ Gone pid p k k₁ ∧
        Idle k₁ k')) (fun _ _ => True) := by
  unfold processDelete
  rw [wp_bind, wp_get]
  split
  · exact wp_pure.mpr (.inl ⟨by decide, rfl⟩)
  · exact wp_throw.mpr trivial
  · next p hp =>
    unfold processKill
    simp only [wp_bind, wp_get]
    rw [wp_ite]
    refine ⟨fun hkill => ?_, fun _ => wp_pure.mpr ?_⟩
    · simp only [wp_bind]
      refine set_eq.imp fun _ k₁ h₁ => ?_
      simp only [wp_pure, if_true, wp_bind]
      refine modify_eq.imp fun _ k₂ h₂ => ?_
      refine modify_eq.imp fun _ k₃ h₃ => ?_
      refine modify_eq.imp fun _ k₄ h₄ => ?_
      rw [wp_get]
      refine (framesFree_spec _ _ _).imp ?_
      rintro ⟨pt, kept⟩ k₅ h₅
      dsimp only at h₅ ⊢
      refine modify_eq.imp fun _ k₆ h₆ => ?_
      refine swappedDelete_addressAll_spec.imp fun _ k₇ h₇ => ?_
      refine (pagetableFree_spec pt k₇).imp fun _ k₈ h₈ => ?_
      refine (forM_regionFree_spec _ _).imp fun _ k₉ h₉ => ?_
      refine (keeps_processWakeAll idle_messaging pid k₉).mono (fun _ k' h' => ?_)
        (fun _ _ _ => trivial)
      refine .inr ⟨trivial, p, k₉, hp, hkill.2, ?_, h'⟩
      have hleft : k₄ = { k with
          sosProcs := Function.update k.sosProcs pid .null
          mmu := Function.update k.mmu pid (fun _ => none)
          nextPid := k₄.nextPid
          calls := k₄.calls } := by
        have hp₁ : k₁.sosProcs pid = .pcb p := by rw [h₁]; exact hp
        rw [h₄, h₃, h₂, updProcess_of_pcb hp₁, h₁]
        unfold Kernel.setSlot
        simp only [Function.update_idem]
      have hfreed : k₅ = { k₄ with
          free := k₅.free, totalInUse := k₅.totalInUse, allocLimit := k₅.allocLimit } := h₅.rest
      have hall : k₉ = { k₅ with
          alloced := kept, free := k₉.free, totalInUse := k₉.totalInUse
          elffiles := k₉.elffiles } := by
        rw [h₉.2.2, h₈.2.2, h₇, h₆]
      have ha₄ : k₄.alloced = k.alloced := by rw [hleft]
      have hc₄ : ∀ f, k₄.freeCount f = k.freeCount f := by rw [hleft]; exact fun _ => rfl
      have hc₇ : ∀ f, k₇.freeCount f = k₅.freeCount f := by rw [h₇, h₆]; exact fun _ => rfl
      refine ⟨fun f hf => ?_, fun hres htab hnd helf f => ?_, ?_, ?_, ?_, ?_, ?_⟩
      · have h₁ := h₅.count f hf
        have h₂ := h₈.1 f
        have h₃ := h₉.1 f
        rw [ha₄] at h₁
        dsimp only at h₁
        have hc₄ := hc₄ f
        have hc₇ := hc₇ f
        omega
      · have helfs : k₈.freedElfs p.regions = k.freedElfs p.regions := by
          unfold Kernel.freedElfs
          rw [h₈.2.2, h₇, h₆, hfreed, hleft]
        have h₁ := h₅.exact (by rw [ha₄]; exact hres) f
        have h₂ := h₈.2.1 (h₅.tables htab) f
        have h₃ := h₉.2.1 hnd helf f
        rw [ha₄] at h₁
        rw [helfs] at h₃
        dsimp only at h₁
        have hc₄ := hc₄ f
        have hc₇ := hc₇ f
        omega
      · rw [hall, hfreed, hleft]
      · have hl₄ : k₄.allocLimit = k.allocLimit := by rw [hleft]
        rw [hall]
        show k₅.allocLimit = _
        rw [h₅.limit, ha₄, hl₄]
      · rw [hall, ← ha₄]
        exact h₅.kept
      · rw [hall, hfreed, hleft]
      · rw [hall, hfreed, hleft]
    · simp only [Bool.false_eq_true, if_false]
      exact wp_pure.mpr (.inl ⟨by decide, rfl⟩)

theorem processDelete_quiet :
    Wp (processDelete pid) k (fun _ k' => Quiet M b k k') (fun _ _ => True) := by
  refine processDelete_spec.imp fun rval k' h => ?_
  rcases h with ⟨-, rfl⟩ | ⟨-, p, k₁, hp, -, hgone, hidle⟩
  · exact .refl k'
  · refine .trans ⟨.single (hgone.step hp), ?_, ?_⟩ (.of_idle hidle)
    · rw [hgone.rest]
    · rw [hgone.rest]

end Sos
