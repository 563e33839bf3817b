import Sos.Properties.Slots

/-!
# What a process leaves behind

`processDelete` is to give back all that the process held. It gives back the frames and the right to
them. It gives back no slot of the swap file: `pagerSwapslotFree` asks whether the recorded slot is
`ADDRESS_ALL`, not whether that was asked for. Nor does it give back the frame of the swap file that
stands for an executable with the name of the default swap file.
-/

namespace Sos

open Hoare

variable {M : Set Nat} {C : Kernel → Event → Prop} {k k' : Kernel} {pid : Pid}
  {p : Process} {f : Nat}

/-! ## What a process holds -/

/-- The pairs of a process in one of the two lists. -/
def pairsOf (pid : Pid) (l : List (Pid × Nat)) : List (Pid × Nat) := l.filter (·.1 = pid)

/-- The frames of the pages recorded as resident, in the order of the records. -/
def Kernel.residentFrames (k : Kernel) (pid : Pid) (p : Process) : List Nat :=
  (pairsOf pid k.alloced).map fun x => (p.pagetable.entry (pageNo x.2)).addr

/-- All frames of a process: resident pages, page tables, swap files of its regions. -/
def Kernel.framesOf (k : Kernel) (pid : Pid) (p : Process) : List Nat :=
  k.residentFrames pid p ++ p.pagetable.frames ++ p.regions.filterMap Region.elffile

/-- Everything has been given back. -/
structure GivenBack (pid : Pid) (p : Process) (k k' : Kernel) : Prop where
  alloced : pairsOf pid k'.alloced = []
  swapped : pairsOf pid k'.swapped = []
  frames : ∀ f ∈ k.framesOf pid p, k'.freeFrames.count f = 1
  limit : k'.allocLimit = k.allocLimit + (k.residentFrames pid p).length
  usage : k'.defaultSwapfile.usage =
    k.defaultSwapfile.usage - (pairsOf pid k.swapped).length

/-- No region has a swap file with the path of the default one. -/
def Kernel.OwnNames (k : Kernel) (p : Process) : Prop :=
  ∀ g ∈ p.regions.filterMap Region.elffile, ∀ sf, k.elffiles g = some sf → sf.path ≠ swapfileFn

/-! ## Frames of a process that is there -/

/-- How often a frame is among those of the process. -/
theorem count_framesOf (k : Kernel) (pid : Pid) (p : Process) (f : Nat) :
    (k.framesOf pid p).count f =
      entryCount p.pagetable (k.alloced.filter (·.1 = pid)) f + p.pagetable.frames.count f +
        (p.regions.filterMap Region.elffile).count f := by
  unfold Kernel.framesOf Kernel.residentFrames entryCount pairsOf
  rw [List.count_append, List.count_append, List.count_eq_countP, List.countP_map]
  simp only [Function.comp_def, beq_eq_decide]

/-- They are not free, and there is no other use for them. -/
theorem Sound.freeCount_add_le (h : Sound M k) (hu : k.unbacked = false)
    (hp : k.sosProcs pid = .pcb p) (hf : f ≠ 0) :
    k.freeCount f + (k.framesOf pid p).count f ≤ 1 := by
  have hone := (h.own hu).unique f hf
  have hfree : k.pool.free.count f = k.freeCount f := Multiset.coe_count ..
  have hres := Pool.residentCount_split k.pool pid f
  rw [residentCount_eq_entryCount hp] at hres
  have hsum : (k.pool.tables pid).count f + (k.pool.elfs pid).count f ≤
      ∑ q, ((k.pool.tables q).count f + (k.pool.elfs q).count f) :=
    Finset.single_le_sum (f := fun q => (k.pool.tables q).count f + (k.pool.elfs q).count f)
      (fun _ _ => Nat.zero_le _) (Finset.mem_univ pid)
  have htables : (k.pool.tables pid).count f = p.pagetable.frames.count f := by
    show Multiset.count f (k.sosProcs pid).tables = _
    rw [hp]
    exact Multiset.coe_count ..
  have helfs : (k.pool.elfs pid).count f = (p.regions.filterMap Region.elffile).count f := by
    show Multiset.count f (k.sosProcs pid).elfs = _
    rw [hp]
    exact Multiset.coe_count ..
  unfold Pool.own at hone
  rw [count_framesOf]
  omega

theorem Reachable.zero_notMem_tables (h : Reachable M C k) (hp : k.sosProcs pid = .pcb p) :
    0 ∉ p.pagetable.frames := by
  have h0 : 0 ∉ (k.sosProcs pid).tables := (h.tables_ne_zero pid).1
  rw [hp] at h0
  exact h0

theorem Reachable.zero_notMem_elfs (h : Reachable M C k) (hp : k.sosProcs pid = .pcb p) :
    0 ∉ p.regions.filterMap Region.elffile := by
  have h0 : 0 ∉ (k.sosProcs pid).elfs := (h.tables_ne_zero pid).2
  rw [hp] at h0
  exact h0

theorem Sound.resident_ne_zero (h : Sound M k) (hu : k.unbacked = false)
    (hp : k.sosProcs pid = .pcb p) {x : Pid × Nat} (hx : x ∈ k.alloced) (hpid : x.1 = pid) :
    (p.pagetable.entry (pageNo x.2)).addr ≠ 0 := by
  have hm : (x.1, pageNo x.2) ∈ k.pool.alloced :=
    Multiset.mem_coe.mpr (List.mem_map.mpr ⟨x, hx, rfl⟩)
  have hne : ((k.sosProcs x.1).pte (pageNo x.2)).addr ≠ 0 := ((h.own hu).resident _ hm).2
  rw [hpid, hp] at hne
  exact hne

theorem Sound.resident_aligned (h : Sound M k) (hu : k.unbacked = false)
    (hp : k.sosProcs pid = .pcb p) {x : Pid × Nat} (hx : x ∈ k.alloced) (hpid : x.1 = pid) :
    pageOffset (p.pagetable.entry (pageNo x.2)).addr = 0 := by
  have haddr : (k.pte x.1 x.2).addr = (p.pagetable.entry (pageNo x.2)).addr := by
    unfold Kernel.pte
    rw [hpid, hp]
    rfl
  have hpos := roleCount_pos (k := k) (r := .resident) ⟨x, hx, haddr⟩
  have hle := Pool.roleCount_add_le (P := k.pool) (f := (p.pagetable.entry (pageNo x.2)).addr)
    (show FrameRole.resident ≠ .free by decide)
  have hne := h.resident_ne_zero hu hp hx hpid
  exact (h.managed _ ((h.own hu).managed _ hne (by omega))).2

theorem Reachable.elfs_nodup (h : Reachable M C k) (hu : k.unbacked = false)
    (hp : k.sosProcs pid = .pcb p) : (p.regions.filterMap Region.elffile).Nodup := by
  refine List.nodup_iff_count_le_one.mpr fun g => ?_
  by_cases hg : g = 0
  · subst hg
    exact (List.count_eq_zero.mpr (h.zero_notMem_elfs hp)).le.trans (Nat.zero_le 1)
  · have hle := h.sound.freeCount_add_le hu hp hg
    rw [count_framesOf] at hle
    omega

theorem Reachable.ne_zero_of_mem_framesOf (h : Reachable M C k) (hu : k.unbacked = false)
    (hp : k.sosProcs pid = .pcb p) (hf : f ∈ k.framesOf pid p) : f ≠ 0 := by
  rintro rfl
  rcases List.mem_append.mp hf with hf | hf
  · rcases List.mem_append.mp hf with hf | hf
    · obtain ⟨x, hx, h0⟩ := List.mem_map.mp hf
      obtain ⟨hx, hpid⟩ := List.mem_filter.mp hx
      exact h.sound.resident_ne_zero hu hp hx (of_decide_eq_true hpid) h0
    · exact h.zero_notMem_tables hp hf
  · exact h.zero_notMem_elfs hp hf

/-! ## What is there afterwards -/

/-- The frames on the free list after the deletion. -/
theorem Reachable.count_of_deleted (h : Reachable M C k) (hu : k.unbacked = false)
    (hp : k.sosProcs pid = .pcb p) {k₁ : Kernel} (hgone : Gone pid p k k₁) (hidle : Idle k₁ k') :
    k'.freeFrames.count f + (p.regions.filterMap Region.elffile).count f =
      k.freeCount f + (k.framesOf pid p).count f + (k.freedElfs p.regions).count f := by
  have hexact := hgone.exact (fun x hx hpid => h.sound.resident_ne_zero hu hp hx hpid)
    (h.zero_notMem_tables hp) (h.elfs_nodup hu hp) (h.zero_notMem_elfs hp) f
  have hsame : k'.freeFrames.count f = k₁.freeCount f := by
    have hfree := congrArg (Multiset.count f) (congrArg Pool.free hidle.pool)
    exact (Multiset.coe_count ..).symm.trans (hfree.trans (Multiset.coe_count ..))
  have hcount := count_framesOf k pid p f
  omega

/-- A swap file is given back unless it has the path of the default one. -/
theorem mem_freedElfs {l : List Region} {g : Nat} : g ∈ k.freedElfs l ↔
    g ∈ l.filterMap Region.elffile ∧ ∀ sf, k.elffiles g = some sf → sf.path ≠ swapfileFn := by
  unfold Kernel.freedElfs
  rw [List.mem_filter]
  refine and_congr_right fun _ => ?_
  cases hg : k.elffiles g with
  | none => simp
  | some sf => simp [Swapfile.isDefault]

theorem freedElfs_eq (h : k.OwnNames p) :
    k.freedElfs p.regions = p.regions.filterMap Region.elffile := by
  refine List.filter_eq_self.mpr fun g hg => ?_
  have hmem : g ∈ k.freedElfs p.regions := mem_freedElfs.mpr ⟨hg, h g hg⟩
  exact (List.mem_filter.mp hmem).2

/-- Every frame of the process is on the free list once, unless a name is in the way. -/
theorem Reachable.frames_back_iff (h : Reachable M C k) (hu : k.unbacked = false)
    (hp : k.sosProcs pid = .pcb p) {k₁ : Kernel} (hgone : Gone pid p k k₁) (hidle : Idle k₁ k') :
    (∀ f ∈ k.framesOf pid p, k'.freeFrames.count f = 1) ↔ k.OwnNames p := by
  constructor
  · intro hback g hg sf hsf hpath
    have hmem : g ∈ k.framesOf pid p := List.mem_append_right _ hg
    have hone := hback g hmem
    have hle := h.sound.freeCount_add_le hu hp (h.ne_zero_of_mem_framesOf hu hp hmem)
    have hcount := h.count_of_deleted hu hp hgone hidle (f := g)
    have hpos := List.count_pos_iff.mpr hg
    have hzero : (k.freedElfs p.regions).count g = 0 :=
      List.count_eq_zero.mpr fun hm => (mem_freedElfs.mp hm).2 sf hsf hpath
    omega
  · intro hnames f hf
    have hle := h.sound.freeCount_add_le hu hp (h.ne_zero_of_mem_framesOf hu hp hf)
    have hcount := h.count_of_deleted hu hp hgone hidle (f := f)
    have hpos := List.count_pos_iff.mpr hf
    rw [freedElfs_eq hnames] at hcount
    omega

/-! ## Deletion comes to its end -/

/-- An entry that is not empty is in a table. -/
theorem exists_table_of_addr {pt : Pagetable} {n : Page} (h : (pt.entry n).addr ≠ 0) :
    ∃ t, pt.pages2 (offset1 n) = some t := by
  cases ht : pt.pages2 (offset1 n) with
  | some t => exact ⟨t, rfl⟩
  | none =>
    unfold Pagetable.entry at h
    rw [ht] at h
    exact absurd rfl h

theorem framesFree_returns : ∀ (l : List (Pid × Nat)) (pt : Pagetable) (k : Kernel),
    (∀ x ∈ l, x.1 = pid → (pt.entry (pageNo x.2)).addr ≠ 0 ∧
      pageOffset (pt.entry (pageNo x.2)).addr = 0) →
    Wp (framesFree pid pt l) k (fun _ _ => True) fun _ _ => False
  | [], pt, k, _ => by
    unfold framesFree
    exact wp_pure.mpr trivial
  | x :: l, pt, k, h => by
    have hrest : ∀ k₁, Wp (framesFree pid pt l) k₁ (fun _ _ => True) fun _ _ => False :=
      fun k₁ => framesFree_returns l pt k₁ fun y hy => h y (List.mem_cons_of_mem x hy)
    unfold framesFree
    rw [wp_ite]
    refine ⟨fun hx => ?_, fun _ => ?_⟩
    · obtain ⟨hne, halign⟩ := h x List.mem_cons_self hx
      obtain ⟨t, ht⟩ := exists_table_of_addr hne
      rw [wp_bind, wp_pagetableLookup]
      refine ⟨fun _ _ => ?_, fun hnone => ?_⟩
      · rw [wp_bind]
        exact wp_pagerFrameFree_none (fun hoff => hoff halign) fun _ => hrest _
      · rw [ht] at hnone
        cases hnone
    · rw [wp_bind]
      exact (hrest k).imp fun _ _ _ => wp_pure.mpr trivial

theorem forM_regionFree_returns : ∀ (l : List Region) (k : Kernel),
    (l.filterMap Region.elffile).Nodup →
    (∀ g ∈ l.filterMap Region.elffile, (k.elffiles g).isSome) →
    Wp (l.forM regionFree) k (fun _ _ => True) fun _ _ => False
  | [], k, _, _ => wp_pure.mpr trivial
  | r :: l, k, hnd, hsome => by
    show Wp (regionFree r >>= fun _ => l.forM regionFree) k _ _
    rw [wp_bind]
    unfold regionFree
    cases hr : r.elffile with
    | none =>
      rw [List.filterMap_cons_none hr] at hnd hsome
      exact wp_pure.mpr (forM_regionFree_returns l k hnd hsome)
    | some g =>
      rw [List.filterMap_cons_some hr] at hnd hsome
      have hrest : ∀ g' ∈ l.filterMap Region.elffile, (k.elffiles g').isSome :=
        fun g' hg' => hsome g' (List.mem_cons_of_mem g hg')
      dsimp only
      rw [wp_bind, wp_derefSwapfile]
      refine ⟨fun hnone => ?_, fun sf _ => ?_⟩
      · have hg := hsome g List.mem_cons_self
        rw [show k.elffiles g = none from hnone] at hg
        cases hg
      · rw [wp_ite]
        refine ⟨fun _ => wp_pure.mpr (forM_regionFree_returns l k hnd.of_cons hrest), fun _ => ?_⟩
        unfold swapfileFree
        rw [wp_bind, wp_modify, wp_frameFree]
        refine forM_regionFree_returns l _ hnd.of_cons fun g' hg' => ?_
        have hne : g' ≠ g := fun he => (List.nodup_cons.mp hnd).1 (he ▸ hg')
        show (Function.update k.elffiles g none g').isSome = true
        rw [Function.update_of_ne hne]
        exact hrest g' hg'

theorem wakeOne_returns (wakeFor : Int) (wakeFrom i : Pid) (k : Kernel) :
    Wp (wakeOne wakeFor wakeFrom i) k (fun _ _ => True) fun _ _ => False := by
  unfold wakeOne
  rw [wp_bind, wp_get]
  cases hs : k.sosProcs i with
  | null | placeholder => exact wp_pure.mpr trivial
  | pcb q =>
    dsimp only
    rw [wp_ite]
    refine ⟨fun _ => ?_, fun _ => wp_pure.mpr trivial⟩
    rw [wp_bind, wp_modify, updProcess_of_pcb hs]
    unfold syscallReply syscallReplyV
    rw [wp_bind, wp_get, setSlot_self]
    exact wp_modify.mpr trivial

theorem wakeAll_returns (wakeFor : Int) (wakeFrom : Pid) (k : Kernel) :
    Wp (wakeAll wakeFor wakeFrom) k (fun _ _ => True) fun _ _ => False := by
  have hloop : ∀ (l : List Pid) (k : Kernel),
      Wp (l.forM (wakeOne wakeFor wakeFrom)) k (fun _ _ => True) fun _ _ => False := by
    intro l
    induction l with
    | nil => exact fun k => wp_pure.mpr trivial
    | cons i l ih =>
      intro k
      show Wp (wakeOne wakeFor wakeFrom i >>= fun _ => l.forM (wakeOne wakeFor wakeFrom)) k _ _
      rw [wp_bind]
      exact (wakeOne_returns wakeFor wakeFrom i k).imp fun _ k₁ _ => ih k₁
  unfold wakeAll
  rw [wp_bind, wp_get]
  exact hloop _ k

/-- The walk over `swapped` frees nothing, so nothing can go wrong. -/
theorem swappedDelete_returns (hwf : ∀ x ∈ k.swapped, pageOffset x.2 = 0) :
    Wp (swappedDelete (pid, addressAll)) k (fun _ _ => True) fun _ _ => False := by
  have hloop : ∀ (l : List (Pid × Nat)) (k : Kernel), (∀ x ∈ l, pageOffset x.2 = 0) →
      Wp (listDelete (pagerSwapslotFree (pid, addressAll)) l) k (fun _ _ => True)
        fun _ _ => False := by
    intro l
    induction l with
    | nil => exact fun k _ => wp_pure.mpr trivial
    | cons x l ih =>
      intro k hl
      have hnot : ¬ Selects (pid, addressAll) x := not_selects_addressAll (hl x List.mem_cons_self)
      unfold listDelete pagerSwapslotFree
      rw [wp_bind, wp_ite]
      refine ⟨fun hsel => absurd hsel hnot, fun _ => ?_⟩
      simp only [wp_pure, Bool.false_eq_true, if_false, wp_bind]
      exact (ih k fun y hy => hl y (List.mem_cons_of_mem x hy)).imp fun _ _ _ => trivial
  unfold swappedDelete
  rw [wp_bind, wp_get, wp_bind]
  exact (hloop _ k hwf).imp fun _ _ _ => wp_modify.mpr trivial

/-- **Deletion returns**: in a state without a page that has no frame, the deletion of a user
process whose swap files are there does not fail. -/
theorem Reachable.processDelete_returns (h : Reachable M C k) (hu : k.unbacked = false)
    (hp : k.sosProcs pid = .pcb p) (hpid : k.tidOffset < pid) (hty : p.psType ≠ .rootthread)
    (helfs : ∀ g ∈ p.regions.filterMap Region.elffile, (k.elffiles g).isSome) :
    ∃ k', processDelete pid k = .ok 0 k' := by
  have hres : ∀ x ∈ k.alloced, x.1 = pid → (p.pagetable.entry (pageNo x.2)).addr ≠ 0 ∧
      pageOffset (p.pagetable.entry (pageNo x.2)).addr = 0 := fun x hx hxp =>
    ⟨h.sound.resident_ne_zero hu hp hx hxp, h.sound.resident_aligned hu hp hx hxp⟩
  have hsafe : Wp (processDelete pid) k (fun rval _ => rval = 0) fun _ _ => False := by
    unfold processDelete
    rw [wp_bind, wp_get, hp]
    dsimp only
    unfold processKill
    simp only [wp_bind, wp_get]
    rw [wp_ite]
    refine ⟨fun _ => ?_, fun hnot => absurd ⟨hpid, hty⟩ hnot⟩
    simp only [wp_bind]
    refine set_eq.imp fun _ k₁ h₁ => ?_
    simp only [wp_pure, if_true, wp_bind]
    refine modify_eq.imp fun _ k₂ h₂ => ?_
    refine modify_eq.imp fun _ k₃ h₃ => ?_
    refine modify_eq.imp fun _ k₄ h₄ => ?_
    rw [wp_get]
    have hp₁ : k₁.sosProcs pid = .pcb p := by rw [h₁]; exact hp
    have hkeep : k₄.alloced = k.alloced ∧ k₄.elffiles = k.elffiles ∧ k₄.swapped = k.swapped := by
      rw [h₄, h₃, h₂, updProcess_of_pcb hp₁, h₁]
      exact ⟨rfl, rfl, rfl⟩
    have hfree := framesFree_returns k₄.alloced p.pagetable k₄ (by rw [hkeep.1]; exact hres)
    refine ((framesFree_spec _ _ _).and hfree).mono ?_ fun _ _ hf => hf.2
    rintro ⟨pt, kept⟩ k₅ ⟨h₅, -⟩
    dsimp only at h₅ ⊢
    refine modify_eq.imp fun _ k₆ h₆ => ?_
    have hwf : ∀ x ∈ k₆.swapped, pageOffset x.2 = 0 := by
      rw [h₆, h₅.rest, hkeep.2.2]
      exact fun x hx => (h.sound.slots.wf x (Multiset.mem_coe.mpr hx)).1
    refine (swappedDelete_addressAll_spec.and (swappedDelete_returns hwf)).mono ?_
      fun _ _ hf => hf.2
    rintro _ k₇ ⟨h₇, -⟩
    refine (pagetableFree_spec pt k₇).imp fun _ k₈ h₈ => ?_
    have helfs₈ : k₈.elffiles = k.elffiles := by
      rw [h₈.2.2, h₇, h₆, h₅.rest, hkeep.2.1]
    refine (forM_regionFree_returns p.regions k₈ (h.elfs_nodup hu hp)
      (by rw [helfs₈]; exact helfs)).imp fun _ k₉ _ => ?_
    unfold processWakeAll
    rw [wp_bind]
    refine (wakeAll_returns _ _ k₉).imp fun _ k₁₀ _ => ?_
    exact (wakeAll_returns _ _ k₁₀).imp fun _ _ _ => trivial
  obtain ⟨rval, k', hrun, rfl⟩ := hsafe.returns
  exact ⟨k', hrun⟩

/-- A user process whose swap files are there, and these. -/
def Kernel.deletable (k : Kernel) (pid : Pid) : Option (List Nat) :=
  match k.sosProcs pid with
  | .pcb p =>
    let elfs := p.regions.filterMap Region.elffile
    if k.tidOffset < pid ∧ p.psType ≠ .rootthread ∧ ∀ g ∈ elfs, (k.elffiles g).isSome then some elfs
    else none
  | _ => none

theorem Reachable.deletable_spec (h : Reachable M C k) (hu : k.unbacked = false) {elfs : List Nat}
    (hdel : k.deletable pid = some elfs) :
    ∃ p k', k.sosProcs pid = .pcb p ∧ p.regions.filterMap Region.elffile = elfs ∧
      processDelete pid k = .ok 0 k' := by
  unfold Kernel.deletable at hdel
  cases hs : k.sosProcs pid with
  | null | placeholder => rw [hs] at hdel; cases hdel
  | pcb p =>
    rw [hs] at hdel
    dsimp only at hdel
    by_cases hc : k.tidOffset < pid ∧ p.psType ≠ .rootthread ∧
        ∀ g ∈ p.regions.filterMap Region.elffile, (k.elffiles g).isSome
    · rw [if_pos hc] at hdel
      obtain ⟨k', hrun⟩ := h.processDelete_returns hu hs hc.1 hc.2.1 hc.2.2
      exact ⟨p, k', rfl, Option.some.inj hdel, hrun⟩
    · rw [if_neg hc] at hdel
      cases hdel

/-! ## The property -/

theorem gone_of_deleted (hp : k.sosProcs pid = .pcb p) (hdel : processDelete pid k = .ok 0 k') :
    ∃ k₁, Gone pid p k k₁ ∧ Idle k₁ k' := by
  obtain ⟨hne, -⟩ | ⟨-, p', k₁, hp', -, hgone, hidle⟩ := processDelete_spec.ok hdel
  · exact absurd rfl hne
  · obtain rfl : p' = p := by
      rw [hp] at hp'
      exact (Slot.pcb.inj hp').symm
    exact ⟨k₁, hgone, hidle⟩

/-- The records of slots are those from before. -/
theorem slots_of_deleted (hp : k.sosProcs pid = .pcb p) (hdel : processDelete pid k = .ok 0 k') :
    (pairsOf pid k'.swapped).Perm (pairsOf pid k.swapped) ∧
      k'.defaultSwapfile.usage = k.defaultSwapfile.usage := by
  obtain ⟨k₁, hgone, hidle⟩ := gone_of_deleted hp hdel
  have hpool := hidle.pool.trans hgone.pool_eq
  have hswapped : k'.pool.swapped = k.pool.swapped := by rw [hpool]
  have husage : k'.pool.usage = k.pool.usage := by rw [hpool]
  exact ⟨(Multiset.coe_eq_coe.mp hswapped).filter _, husage⟩

/-- No page of the process is recorded any more, and the limit has been raised. -/
theorem alloced_of_deleted (hp : k.sosProcs pid = .pcb p) (hdel : processDelete pid k = .ok 0 k') :
    pairsOf pid k'.alloced = [] ∧
      k'.allocLimit = k.allocLimit + (k.residentFrames pid p).length := by
  obtain ⟨k₁, hgone, hidle⟩ := gone_of_deleted hp hdel
  have hpool := hidle.pool.trans hgone.pool_eq
  constructor
  · refine List.filter_eq_nil_iff.mpr fun x hx => ?_
    have hm : (x.1, pageNo x.2) ∈ k'.pool.alloced :=
      Multiset.mem_coe.mpr (List.mem_map.mpr ⟨x, hx, rfl⟩)
    have halloced : k'.pool.alloced = k.pool.alloced.filter (·.1 ≠ pid) := by rw [hpool]
    rw [halloced, Multiset.mem_filter] at hm
    simpa using hm.2
  · have hlimit : k'.pool.limit = k.pool.limit + (k.pool.residents pid).card := by rw [hpool]
    rw [card_residents] at hlimit
    unfold Kernel.residentFrames pairsOf
    rw [List.length_map]
    exact hlimit

/-- **Deletion gives back what the process held** exactly if it held no slot of the swap file and
its executable has another name than that. -/
theorem deletion_gives_back_iff (hr : Reachable M C k) (hu : k.unbacked = false)
    (hp : k.sosProcs pid = .pcb p) (hdel : processDelete pid k = .ok 0 k') :
    GivenBack pid p k k' ↔ pairsOf pid k.swapped = [] ∧ k.OwnNames p := by
  obtain ⟨k₁, hgone, hidle⟩ := gone_of_deleted hp hdel
  obtain ⟨hslots, husage⟩ := slots_of_deleted hp hdel
  obtain ⟨halloced, hlimit⟩ := alloced_of_deleted hp hdel
  constructor
  · intro h
    rw [h.swapped, List.nil_perm] at hslots
    exact ⟨hslots, (hr.frames_back_iff hu hp hgone hidle).mp h.frames⟩
  · rintro ⟨hnone, hnames⟩
    rw [hnone, List.perm_nil] at hslots
    refine ⟨halloced, hslots, (hr.frames_back_iff hu hp hgone hidle).mpr hnames, hlimit, ?_⟩
    rw [husage, hnone]
    simp

/-- A process with two resident pages is deleted. -/
theorem deletion_gives_back_iff_twoPages :
    ∃ k p k', Reachable (coldFrames 12) (fun _ _ => True) k ∧ k.sosProcs 2 = .pcb p ∧
      processDelete 2 k = .ok 0 k' ∧ GivenBack 2 p k k' := by
  obtain ⟨k, hr, hobs⟩ := reachable_of_run 12 20 [[appRegion], [appRegion]] (fun _ _ => True)
    threePagesRun (fun k => (k.unbacked, pairsOf 2 k.swapped, k.deletable 2))
    (v := (false, [], some [])) (by decide) (by decide +kernel)
  obtain ⟨hu, hslots, hable⟩ := Prod.mk.inj hobs |>.imp id Prod.mk.inj
  obtain ⟨p, k', hp, helfs, hdel⟩ := hr.deletable_spec hu hable
  refine ⟨k, p, k', hr, hp, hdel, (deletion_gives_back_iff hr hu hp hdel).mpr ⟨hslots, ?_⟩⟩
  intro g hg
  rw [helfs] at hg
  simp at hg

/-- The first page of the heap of process 3 is in slot 0. When the process is deleted the slot stays
in use. -/
theorem swapped_process_keeps_slot :
    ∃ k p k', Reachable (coldFrames 1050) (fun _ _ => True) k ∧ k.unbacked = false ∧
      k.sosProcs 3 = .pcb p ∧ processDelete 3 k = .ok 0 k' ∧ ¬ GivenBack 3 p k k' := by
  obtain ⟨k, hr, hobs⟩ := reachable_of_crowdedRun 1050 19 [[appRegion]] (fun _ _ => True) 3 0x800000
    heapRun swapOutReplies (fun k => (k.unbacked, pairsOf 3 k.swapped, k.deletable 3))
    (v := (false, [(3, 0)], some [0x9000])) (by decide) (fun _ _ => trivial) (by decide +kernel)
  obtain ⟨hu, hslots, hable⟩ := Prod.mk.inj hobs |>.imp id Prod.mk.inj
  obtain ⟨p, k', hp, -, hdel⟩ := hr.deletable_spec hu hable
  refine ⟨k, p, k', hr, hu, hp, hdel, fun h => ?_⟩
  have hperm := (slots_of_deleted hp hdel).1
  rw [h.swapped, hslots] at hperm
  simp at hperm

end Sos
