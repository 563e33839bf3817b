import Sos.Run

/-!
# A process that takes all frames

There are `FRAME_ALLOC_LIMIT` frames for user pages; paging begins when a process has touched more
pages than that. The state after a process has touched a whole second-level table of pages is given
in closed form (`Kernel.crowd`), and so is the first search for a victim, which goes through all of
them once. What happens from there on can be computed.
-/

namespace Sos

open Hoare

variable {k : Kernel} {c : Calls} {pid : Pid} {p : Process} {t : Pagetable2} {pr : PagerRequest}
variable {E : Fault → Kernel → Prop} {Q : Unit → Kernel → Prop} {j : Nat} {f : Nat}

/-! ## Running a program that succeeds -/

theorem updProcess_self (hp : k.sosProcs pid = .pcb p) {f : Process → Process} (hf : f p = p) :
    k.updProcess pid f = k := by
  rw [updProcess_of_pcb hp, hf, ← hp]
  unfold Kernel.setSlot
  rw [Function.update_eq_self]

theorem derefProcess_returns (hp : k.sosProcs pid = .pcb p) :
    Returns (derefProcess pid) k p k := by
  rw [Returns, wp_derefProcess, hp]
  refine ⟨fun h => by simp at h, fun h => by simp at h, fun p' hp' => ⟨?_, rfl⟩⟩
  injection hp' with hp'
  exact hp'.symm

/-- Looking an entry up changes nothing when its table is there. -/
theorem lookupEntry_returns {addr : Nat} (hp : k.sosProcs pid = .pcb p)
    (ht : p.pagetable.pages2 (offset1 (pageNo addr)) = some t) :
    Returns (lookupEntry pid addr) k (t.pages (offset2 (pageNo addr))) k := by
  have hl : Returns (pagetableLookup p.pagetable addr) k p.pagetable k := by
    unfold pagetableLookup
    rw [ht]
    exact wp_pure.mpr ⟨rfl, rfl⟩
  unfold lookupEntry
  rw [Returns, (derefProcess_returns hp).bind_iff, hl.bind_iff, wp_bind, wp_modify, wp_pure,
    updProcess_self hp rfl]
  refine ⟨?_, rfl⟩
  unfold Pagetable.entry
  rw [ht]

/-! ## A fault on a page never touched before -/

/-- The page of the request gets the frame `f`. -/
def Kernel.backed (k : Kernel) (pr : PagerRequest) (p : Process) (f : Nat) : Kernel :=
  { k with
    free := k.free.tail
    totalInUse := k.totalInUse + 1
    alloced := k.alloced ++ [(pr.pid, pageAlign pr.addr)]
    allocLimit := k.allocLimit - 1
    sosProcs := Function.update k.sosProcs pr.pid (.pcb { p with
      size := p.size + 1
      pagetable := p.pagetable.setEntry (pageNo pr.addr) { addr := f, ref := true } })
    mmu := Function.update k.mmu pr.pid
      (Function.update (k.mmu pr.pid) (pageNo pr.addr) (some f)) }

/-- The request is for a page of ordinary memory that has no frame yet. -/
structure Fresh (k : Kernel) (pr : PagerRequest) (p : Process) (t : Pagetable2) : Prop where
  slot : k.sosProcs pr.pid = .pcb p
  region : ∃ r, p.regions.find? (findRegion pr.addr) = some r ∧ r.rights &&& pr.rights ≠ 0 ∧
    r.mapDirectly = false
  table : p.pagetable.pages2 (offset1 (pageNo pr.addr)) = some t
  entry : t.pages (offset2 (pageNo pr.addr)) = {}

/-- The state after `pagerFrameAlloc` has found the frame at the head of the free list. -/
def Kernel.recorded (k : Kernel) (pid : Pid) (page : Nat) (p : Process) : Kernel :=
  { k with
    free := k.free.tail
    totalInUse := k.totalInUse + 1
    alloced := k.alloced ++ [(pid, page)]
    allocLimit := k.allocLimit - 1
    sosProcs := Function.update k.sosProcs pid (.pcb { p with size := p.size + 1 }) }

theorem pagerFrameAlloc_returns {page f : Nat} (hp : k.sosProcs pid = .pcb p)
    (hlim : 0 < k.allocLimit) (hfree : k.free.head? = some f) (hf : f ≠ 0) :
    Returns (pagerFrameAlloc pid page) k f (k.recorded pid page p) := by
  obtain ⟨rest, hrest⟩ := List.head?_eq_some_iff.mp hfree
  have halloc : Returns frameAlloc k f (k.frameTaken rest) := by
    rw [Returns, wp_frameAlloc, hrest]
    refine ⟨fun h => ?_, fun f' rest' h _ => ?_⟩
    · unfold Kernel.freeFrames at h
      rw [hrest] at h
      simp [hf] at h
    · obtain ⟨rfl, rfl⟩ := List.cons.inj h
      exact ⟨rfl, rfl⟩
  unfold pagerFrameAlloc
  rw [Returns, wp_bind, wp_get, wp_bind, wp_assert]
  refine ⟨fun _ => ?_, fun h => by simp at h; omega⟩
  rw [if_neg (by omega), halloc.bind_iff, wp_bind, wp_modify, wp_pure]
  refine ⟨rfl, ?_⟩
  refine (updProcess_of_pcb (by exact hp)).trans ?_
  unfold Kernel.recorded Kernel.setSlot Kernel.frameTaken
  simp [hrest, hf]

theorem enterFrame_returns (hp : k.sosProcs pr.pid = .pcb p) (halign : pageOffset f = 0) :
    Returns (enterFrame pr f) k true { k with
      sosProcs := Function.update k.sosProcs pr.pid (.pcb { p with
        pagetable := p.pagetable.setEntry (pageNo pr.addr) { addr := f, ref := true } })
      mmu := Function.update k.mmu pr.pid
        (Function.update (k.mmu pr.pid) (pageNo pr.addr) (some f)) } := by
  unfold enterFrame setEntry mapPage
  rw [Returns, wp_bind, wp_modify, wp_bind, wp_bind, wp_assert, updProcess_of_pcb hp]
  refine ⟨fun _ => ?_, fun h => by simp [halign] at h⟩
  rw [wp_modify, wp_pure, pageNo_pageAlign]
  exact ⟨rfl, rfl⟩

/-- With a frame to be had, `pagerAction` enters it. -/
theorem pagerAction_fresh (h : Fresh k pr p t) (hlim : 0 < k.allocLimit)
    (hfree : k.free.head? = some f) (hf : f ≠ 0) (halign : pageOffset f = 0) :
    Returns (pagerAction c pr) k true (k.backed pr p f) := by
  obtain ⟨r, hr, hrights, hdir⟩ := h.region
  unfold pagerAction
  rw [Returns, wp_bind, wp_get, h.slot]
  dsimp only
  rw [hr]
  dsimp only
  rw [if_neg hrights, (lookupEntry_returns h.slot h.table).bind_iff, h.entry]
  simp only [Bool.false_eq_true, if_false, ne_eq, not_true_eq_false, hdir]
  rw [(pagerFrameAlloc_returns h.slot hlim hfree hf).bind_iff, wp_bind, wp_assert]
  refine ⟨fun _ => ?_, fun h => by simp [halign] at h⟩
  rw [if_neg hf, (enterFrame_returns (by exact Function.update_self ..) halign).wp_iff]
  refine ⟨rfl, ?_⟩
  unfold Kernel.backed Kernel.recorded
  simp only [Function.update_idem]

def Kernel.answered (k : Kernel) (pid : Pid) (words : List Int) : Kernel :=
  { k with replies := k.replies ++ [⟨pid, words⟩] }

/-- The process can be answered. -/
structure Answerable (pid : Pid) (p : Process) : Prop where
  user : pid ≠ rootserverno ∧ p.psType = .process
  accepts : p.ipcAccept ≠ .none
  alive : p.state = .alive

/-- The request made for a page fault of `p`. -/
def faultRequest (pid : Pid) (p : Process) (addr : UInt32) (rights : Fin 8) : PagerRequest :=
  { pid, addr := addr.toNat, rights := rights.val, sf := .default, callback := .pagerContinue
    inc := p.inc }

variable {addr : UInt32} {rights : Fin 8} {n : Nat}

theorem pagefault_iff (hp : k.sosProcs pid = .pcb p) :
    Wp (handle n (.pagefault pid addr rights)) k Q E ↔
      Wp (pager (calls n) (faultRequest pid p addr rights)) k Q E := by
  unfold handle handleWith allocPagerRequest
  dsimp only
  rw [wp_bind, (derefProcess_returns hp).bind_iff, wp_pure]
  rfl

theorem syscallReplyV_run {words : List Int} (hp : k.sosProcs pid = .pcb p) :
    syscallReplyV pid words k = .ok () (k.reply pid p words) := by
  refine Returns.run ?_
  unfold syscallReplyV
  rw [Returns, wp_bind, wp_get, hp]
  exact wp_modify.mpr ⟨rfl, rfl⟩

theorem syscallReplyV_returns {words : List Int} (hp : k.sosProcs pid = .pcb p)
    (ha : Answerable pid p) :
    Returns (syscallReplyV pid words) k () (k.answered pid words) := by
  have hreply : k.reply pid p words = k.answered pid words :=
    if_neg (by simp [ha.user.1, ha.accepts, ha.alive])
  exact returns_of_run (hreply ▸ syscallReplyV_run hp)

theorem pagerContinue_returns (hp : k.sosProcs pr.pid = .pcb p) (ha : Answerable pr.pid p)
    (hcb : pr.callback = .pagerContinue) :
    Returns (runCallback c pr) k () (k.answered pr.pid []) := by
  unfold runCallback
  rw [hcb]
  dsimp only
  unfold pagerContinue processGetTid
  rw [Returns, wp_bind, wp_bind, wp_get, hp]
  exact wp_pure.mpr (syscallReplyV_returns hp ha)

/-- A fault on such a page is served at once. -/
theorem pagefault_fresh (h : Fresh k (faultRequest pid p addr rights) p t)
    (ha : Answerable pid p) (hidle : k.requests = []) (hlim : 0 < k.allocLimit)
    (hfree : k.free.head? = some f) (hf : f ≠ 0) (halign : pageOffset f = 0) :
    Returns (handle n (.pagefault pid addr rights)) k ()
      ((k.backed (faultRequest pid p addr rights) p f).answered pid []) := by
  have hp : k.sosProcs pid = .pcb p := h.slot
  rw [Returns, pagefault_iff hp]
  unfold pager
  rw [(pagerAction_fresh h hlim hfree hf halign).bind_iff, if_pos rfl]
  have hcont : Returns (runCallback (calls n) (faultRequest pid p addr rights))
      (k.backed (faultRequest pid p addr rights) p f) ()
      ((k.backed (faultRequest pid p addr rights) p f).answered pid []) :=
    pagerContinue_returns (Function.update_self ..) ⟨ha.user, ha.accepts, ha.alive⟩ rfl
  rw [hcont.bind_iff, wp_bind, wp_get]
  have hnil : ((k.backed (faultRequest pid p addr rights) p f).answered pid []).requests = [] :=
    hidle
  rw [hnil]
  exact wp_pure.mpr ⟨rfl, rfl⟩

/-! ## Filling a table -/

/-- The pages of the second-level table 1. -/
def crowdAddr (j : Nat) : Nat := 0x400000 + j * pageSize

def crowdPage (j : Nat) (h : j < 1024) : Page := ⟨1024 + j, by omega⟩

theorem pageNo_crowdAddr (h : j < 1024) : pageNo (crowdAddr j) = crowdPage j h := by
  unfold pageNo crowdAddr crowdPage wordLimit pageSize
  apply Fin.ext
  show (0x400000 + j * 4096) % _ / 4096 = 1024 + j
  omega

theorem pageAlign_crowdAddr (j : Nat) : pageAlign (crowdAddr j) = crowdAddr j := by
  unfold pageAlign crowdAddr pageSize
  omega

theorem offset1_crowdPage (h : j < 1024) : offset1 (crowdPage j h) = 1 := by
  unfold offset1 crowdPage
  apply Fin.ext
  show (1024 + j) / 1024 = 1
  omega

theorem offset2_crowdPage (h : j < 1024) : offset2 (crowdPage j h) = ⟨j, h⟩ := by
  unfold offset2 crowdPage
  apply Fin.ext
  show (1024 + j) % 1024 = j
  omega

/-- The first `i` pages of the table have the frames `fs`; the first `c` of them are not
referenced. -/
def Pagetable2.crowd (t : Pagetable2) (fs : List Nat) (i c : Nat) : Pagetable2 :=
  { t with pages := fun j =>
    if j.val < i then { addr := fs.getD j 0, ref := decide (c ≤ j.val) } else t.pages j }

def Process.crowd (p : Process) (fs : List Nat) (i c : Nat) : Process :=
  { p with
    size := p.size + i
    pagetable := { p.pagetable with
      pages2 := Function.update p.pagetable.pages2 1
        ((p.pagetable.pages2 1).map fun t => t.crowd fs i c) } }

/-- The pages from `c` to `i` are mapped. -/
def Kernel.crowdMap (k : Kernel) (pid : Pid) (i c : Nat) (n : Page) : Option Nat :=
  if 1024 + c ≤ n.val ∧ n.val < 1024 + i then some (k.free.getD (n.val - 1024) 0) else k.mmu pid n

/-- The state after `pid` has touched the first `i` pages of its table 1, and the search for a
victim has been past `c` of them. -/
def Kernel.crowd (k : Kernel) (pid : Pid) (i c : Nat) : Kernel :=
  { k with
    free := k.free.drop i
    totalInUse := k.totalInUse + i
    sosProcs := (k.updProcess pid (·.crowd k.free i c)).sosProcs
    allocLimit := k.allocLimit - i
    alloced := (List.range' c (i - c) ++ List.range c).map fun j => (pid, crowdAddr j)
    mmu := Function.update k.mmu pid (k.crowdMap pid i c)
    replies := k.replies ++ List.replicate i ⟨pid, []⟩ }

/-- The table is empty, ordinary memory lies over all of it, and there is a frame for each page;
nothing is resident yet. -/
structure Roomy (k : Kernel) (pid : Pid) (p : Process) (t : Pagetable2) : Prop where
  slot : k.sosProcs pid = .pcb p
  answerable : Answerable pid p
  region : ∀ j < 1024, ∃ r, p.regions.find? (findRegion (crowdAddr j)) = some r ∧
    r.rights &&& 4 ≠ 0 ∧ r.mapDirectly = false
  table : p.pagetable.pages2 1 = some t
  empty : ∀ j, t.pages j = {}
  unmapped : ∀ j h, k.mmu pid (crowdPage j h) = none
  frames : ∀ j < 1024, ∃ f, k.free[j]? = some f ∧ f ≠ 0 ∧ pageOffset f = 0
  limit : k.allocLimit = 1024
  alloced : k.alloced = []

theorem Pagetable2.crowd_zero (fs : List Nat) : t.crowd fs 0 0 = t := by
  unfold Pagetable2.crowd
  simp

theorem crowd_zero (h : Roomy k pid p t) : k.crowd pid 0 0 = k := by
  have hp : p.crowd k.free 0 0 = p := by
    unfold Process.crowd
    rw [h.table, Option.map_some, Pagetable2.crowd_zero, ← h.table, Function.update_eq_self]
    simp
  have hm : k.crowdMap pid 0 0 = k.mmu pid := funext fun n => if_neg (by omega)
  unfold Kernel.crowd
  rw [updProcess_self h.slot hp, hm, Function.update_eq_self]
  simp [h.alloced.symm]

theorem crowd_slot (h : Roomy k pid p t) (i c : Nat) :
    (k.crowd pid i c).sosProcs pid = .pcb (p.crowd k.free i c) := by
  show (k.updProcess pid _).sosProcs pid = _
  rw [updProcess_of_pcb h.slot, setSlot_self]

theorem crowd_table (h : Roomy k pid p t) (i c : Nat) :
    (p.crowd k.free i c).pagetable.pages2 1 = some (t.crowd k.free i c) := by
  unfold Process.crowd
  dsimp only
  rw [Function.update_self, h.table]
  rfl

/-- Writing the entry of page `j` of the table. -/
theorem crowd_setEntry (h : Roomy k pid p t) {i c j : Nat} (hj : j < 1024) {e : Pte} :
    (p.crowd k.free i c).pagetable.setEntry (crowdPage j hj) e =
      { p.pagetable with
        pages2 := Function.update p.pagetable.pages2 1 (some { t.crowd k.free i c with
          pages := Function.update (t.crowd k.free i c).pages ⟨j, hj⟩ e }) } := by
  unfold Pagetable.setEntry
  rw [offset1_crowdPage, offset2_crowdPage, crowd_table h]
  dsimp only
  unfold Process.crowd
  simp only [Function.update_idem]

theorem Pagetable2.crowd_succ {fs : List Nat} {i f : Nat} (hi : i < 1024) (hf : fs[i]? = some f) :
    Function.update (t.crowd fs i 0).pages ⟨i, hi⟩ { addr := f, ref := true } =
      (t.crowd fs (i + 1) 0).pages := by
  funext j
  unfold Pagetable2.crowd
  by_cases hj : j = ⟨i, hi⟩
  · subst hj
    simp [hf]
  · have hne : j.val ≠ i := fun h => hj (Fin.ext h)
    rw [Function.update_of_ne hj]
    dsimp only
    by_cases hlt : j.val < i
    · rw [if_pos hlt, if_pos (by omega)]
    · rw [if_neg hlt, if_neg (by omega)]

theorem crowdMap_succ {i f : Nat} (hi : i < 1024) (hf : k.free[i]? = some f) :
    Function.update (k.crowdMap pid i 0) (crowdPage i hi) (some f) = k.crowdMap pid (i + 1) 0 := by
  funext n
  unfold Kernel.crowdMap
  by_cases hn : n = crowdPage i hi
  · subst hn
    rw [Function.update_self, if_pos (by unfold crowdPage; dsimp only; omega)]
    have hsub : (crowdPage i hi).val - 1024 = i := by unfold crowdPage; dsimp only; omega
    rw [hsub, List.getD_eq_getElem?_getD, hf]
    rfl
  · have hne : n.val ≠ 1024 + i := fun h => hn (Fin.ext h)
    rw [Function.update_of_ne hn]
    by_cases hlt : 1024 + 0 ≤ n.val ∧ n.val < 1024 + i
    · rw [if_pos hlt, if_pos (by omega)]
    · rw [if_neg hlt, if_neg (by omega)]

theorem crowd_backed (h : Roomy k pid p t) {i f : Nat} (hi : i < 1024) (hf : k.free[i]? = some f)
    {addr : UInt32} (haddr : addr.toNat = crowdAddr i) :
    ((k.crowd pid i 0).backed (faultRequest pid (p.crowd k.free i 0) addr 4)
      (p.crowd k.free i 0) f).answered pid [] = k.crowd pid (i + 1) 0 := by
  have hpage : pageNo addr.toNat = crowdPage i hi := by rw [haddr, pageNo_crowdAddr hi]
  have hp : { p.crowd k.free i 0 with
      size := (p.crowd k.free i 0).size + 1
      pagetable := (p.crowd k.free i 0).pagetable.setEntry (crowdPage i hi)
        { addr := f, ref := true } } = p.crowd k.free (i + 1) 0 := by
    rw [crowd_setEntry h hi, Pagetable2.crowd_succ hi hf]
    unfold Process.crowd
    rw [h.table]
    simp [Pagetable2.crowd, Int.add_assoc]
  unfold Kernel.backed Kernel.answered
  dsimp only [faultRequest]
  rw [hpage, hp, haddr, pageAlign_crowdAddr]
  unfold Kernel.crowd
  rw [updProcess_of_pcb h.slot, updProcess_of_pcb h.slot]
  unfold Kernel.setSlot
  simp only [Function.update_idem, Function.update_self, crowdMap_succ hi hf, List.tail_drop]
  congr 1
  · omega
  · omega
  · simp [List.range'_concat]
  · rw [List.replicate_succ', List.append_assoc]

theorem crowd_fresh (h : Roomy k pid p t) {i : Nat} (hi : i < 1024) {addr : UInt32}
    (haddr : addr.toNat = crowdAddr i) :
    Fresh (k.crowd pid i 0) (faultRequest pid (p.crowd k.free i 0) addr 4) (p.crowd k.free i 0)
      (t.crowd k.free i 0) := by
  have hpage : pageNo addr.toNat = crowdPage i hi := by rw [haddr, pageNo_crowdAddr hi]
  refine ⟨crowd_slot h i 0, ?_, ?_, ?_⟩
  · dsimp only [faultRequest]
    rw [haddr]
    exact h.region i hi
  · dsimp only [faultRequest]
    rw [hpage, offset1_crowdPage]
    exact crowd_table h i 0
  · dsimp only [faultRequest]
    rw [hpage, offset2_crowdPage]
    exact (if_neg (lt_irrefl i)).trans (h.empty _)

/-- The next page of the table is touched. -/
theorem crowd_fault (h : Roomy k pid p t) (hidle : k.requests = []) {i : Nat} (hi : i < 1024)
    {addr : UInt32} (haddr : addr.toNat = crowdAddr i) :
    Returns (handle n (.pagefault pid addr 4)) (k.crowd pid i 0) () (k.crowd pid (i + 1) 0) := by
  obtain ⟨f, hf, hf0, halign⟩ := h.frames i hi
  rw [← crowd_backed h hi hf haddr]
  refine pagefault_fresh (crowd_fresh h hi haddr) ?_ hidle ?_ ?_ hf0 halign
  · exact ⟨h.answerable.user, h.answerable.accepts, h.answerable.alive⟩
  · show 0 < k.allocLimit - (i : Int)
    rw [h.limit]
    omega
  · show (k.free.drop i).head? = some f
    rw [List.head?_drop, hf]

/-! ## The first search for a victim -/

theorem crowd_entry (h : Roomy k pid p t) {K : Kernel} {c j : Nat} (hj : j < 1024)
    (hK : K.sosProcs pid = .pcb (p.crowd k.free 1024 c)) :
    Returns (lookupEntry pid (crowdAddr j)) K
      { addr := k.free.getD j 0, ref := decide (c ≤ j) } K := by
  have ht : (p.crowd k.free 1024 c).pagetable.pages2 (offset1 (pageNo (crowdAddr j))) =
      some (t.crowd k.free 1024 c) := by
    rw [pageNo_crowdAddr hj, offset1_crowdPage, crowd_table h]
  have hl := lookupEntry_returns hK ht
  rw [pageNo_crowdAddr hj, offset2_crowdPage] at hl
  have he : (t.crowd k.free 1024 c).pages ⟨j, hj⟩ =
      { addr := k.free.getD j 0, ref := decide (c ≤ j) } := if_pos hj
  rwa [he] at hl

theorem Pagetable2.crowd_pass {fs : List Nat} {c : Nat} (hc : c < 1024) :
    Function.update (t.crowd fs 1024 c).pages ⟨c, hc⟩ { addr := fs.getD c 0, ref := false } =
      (t.crowd fs 1024 (c + 1)).pages := by
  funext j
  unfold Pagetable2.crowd
  by_cases hj : j = ⟨c, hc⟩
  · subst hj
    simp [hc]
  · have hne : j.val ≠ c := fun h => hj (Fin.ext h)
    rw [Function.update_of_ne hj]
    simp only [if_pos j.isLt, Pte.mk.injEq, decide_eq_decide, true_and, and_true]
    omega

theorem crowdMap_pass (h : Roomy k pid p t) {c : Nat} (hc : c < 1024) :
    Function.update (k.crowdMap pid 1024 c) (crowdPage c hc) none =
      k.crowdMap pid 1024 (c + 1) := by
  funext n
  unfold Kernel.crowdMap
  by_cases hn : n = crowdPage c hc
  · subst hn
    rw [Function.update_self, if_neg (by unfold crowdPage; dsimp only; omega), h.unmapped]
  · have hne : n.val ≠ 1024 + c := fun h => hn (Fin.ext h)
    rw [Function.update_of_ne hn]
    by_cases hlt : 1024 + c ≤ n.val ∧ n.val < 1024 + 1024
    · rw [if_pos hlt, if_pos (by omega)]
    · rw [if_neg hlt, if_neg (by omega)]

/-- The search passes a page that has been referenced. -/
theorem crowd_pass (h : Roomy k pid p t) {c m : Nat} (hc : c < 1024)
    {Q : Pid × Nat → Kernel → Prop} :
    Wp (deleteAllocListLoop (m + 1)) (k.crowd pid 1024 c) Q E ↔
      Wp (deleteAllocListLoop m) (k.crowd pid 1024 (c + 1)) Q E := by
  have halloced : (k.crowd pid 1024 c).alloced = (pid, crowdAddr c) ::
      (List.range' (c + 1) (1024 - (c + 1)) ++ List.range c).map fun j => (pid, crowdAddr j) := by
    unfold Kernel.crowd
    dsimp only
    rw [show 1024 - c = 1024 - (c + 1) + 1 by omega, List.range'_succ]
    rfl
  have hslot := crowd_slot h 1024 c
  have halign : pageOffset (crowdAddr c) = 0 := by unfold pageOffset crowdAddr pageSize; omega
  rw [deleteAllocListLoop, wp_bind, wp_get, halloced]
  dsimp only
  rw [wp_bind, wp_modify, wp_bind, wp_get, wp_bind, wp_assert]
  dsimp only
  rw [hslot]
  simp only [true_implies, Bool.true_eq_false, false_implies, and_true]
  rw [(crowd_entry h hc (by exact hslot)).bind_iff]
  simp only [le_refl, decide_true, Bool.true_eq_false, if_false]
  unfold setEntry unmapPage
  rw [wp_bind, wp_modify, wp_bind, wp_bind, wp_assert]
  simp only [halign, decide_true, true_implies, Bool.true_eq_false, false_implies, and_true]
  rw [wp_modify, wp_bind, wp_modify]
  refine iff_of_eq (congrArg (fun K => Wp (deleteAllocListLoop m) K Q E) ?_)
  have hp : { p.crowd k.free 1024 c with
      pagetable := (p.crowd k.free 1024 c).pagetable.setEntry (pageNo (crowdAddr c))
        { addr := k.free.getD c 0, ref := false } } = p.crowd k.free 1024 (c + 1) := by
    rw [pageNo_crowdAddr hc, crowd_setEntry h hc, Pagetable2.crowd_pass hc]
    unfold Process.crowd
    rw [h.table]
    rfl
  rw [updProcess_of_pcb (by exact hslot), hp]
  unfold Kernel.crowd
  rw [updProcess_of_pcb h.slot, updProcess_of_pcb h.slot]
  unfold Kernel.setSlot
  simp only [Function.update_idem, Function.update_self, pageNo_crowdAddr hc, crowdMap_pass h hc]
  congr 1
  simp only [List.range_succ, List.map_append, List.map_cons, List.map_nil, List.append_assoc]

/-- After a whole turn the search is where it began, with no page referenced. -/
theorem crowd_turn (h : Roomy k pid p t) {m : Nat} {Q : Pid × Nat → Kernel → Prop}
    : ∀ {c : Nat}, c ≤ 1024 →
    (Wp (deleteAllocListLoop (c + m)) (k.crowd pid 1024 (1024 - c)) Q E ↔
      Wp (deleteAllocListLoop m) (k.crowd pid 1024 1024) Q E)
  | 0, _ => by rw [Nat.zero_add]
  | c + 1, hc => by
    rw [Nat.add_right_comm, crowd_pass h (by omega), show 1024 - (c + 1) + 1 = 1024 - c by omega]
    exact crowd_turn h (by omega)

/-- Then the first page is found. -/
theorem crowd_found (h : Roomy k pid p t) (m : Nat) :
    Returns (deleteAllocListLoop (m + 1)) (k.crowd pid 1024 1024) (pid, crowdAddr 0)
      { k.crowd pid 1024 1024 with alloced := (k.crowd pid 1024 1024).alloced.tail } := by
  have halloced : (k.crowd pid 1024 1024).alloced =
      (pid, crowdAddr 0) :: (List.range' 1 1023).map fun j => (pid, crowdAddr j) := by
    unfold Kernel.crowd
    dsimp only
    rw [List.range_eq_range', show 1024 = 1023 + 1 from rfl, List.range'_succ]
    rfl
  have hslot := crowd_slot h 1024 1024
  rw [Returns, deleteAllocListLoop, wp_bind, wp_get, halloced]
  dsimp only
  rw [wp_bind, wp_modify, wp_bind, wp_get, wp_bind, wp_assert]
  dsimp only
  rw [hslot]
  simp only [true_implies, Bool.true_eq_false, false_implies, and_true]
  rw [(crowd_entry h (by decide) (by exact hslot)).bind_iff]
  exact wp_pure.mpr ⟨rfl, rfl⟩

/-- The search for the first victim ends as if it had already been round once. -/
theorem deleteAllocList_crowd (h : Roomy k pid p t) {Q : Pid × Nat → Kernel → Prop} :
    Wp deleteAllocList (k.crowd pid 1024 0) Q E ↔
      Wp deleteAllocList (k.crowd pid 1024 1024) Q E := by
  have hlen : ∀ c ≤ 1024, (k.crowd pid 1024 c).alloced.length = 1024 := fun c hc => by
    unfold Kernel.crowd
    simp
    omega
  have hne : ∀ c ≤ 1024, (k.crowd pid 1024 c).alloced.isEmpty = false := fun c hc => by
    have := hlen c hc
    cases hl : (k.crowd pid 1024 c).alloced with
    | nil => simp [hl] at this
    | cons _ _ => rfl
  unfold deleteAllocList
  simp only [wp_bind, wp_get, wp_assert, hne 0 (by decide), hne 1024 (by decide),
    hlen 0 (by decide), hlen 1024 (by decide), Bool.not_false, true_implies, Bool.true_eq_false,
    false_implies, and_true]
  refine (crowd_turn h (m := 1) (c := 1024) (le_refl _)).trans ?_
  exact (crowd_found h 0).wp_iff.trans (crowd_found h 1024).wp_iff.symm

/-! ## A fault when no frame may be taken -/

/-- The request is the only one, and active. -/
def Kernel.serving (k : Kernel) (pr : PagerRequest) : Kernel :=
  { k with requests := [.swapin pr], requestActive := true }

/-- A request that is alone in the queue begins with a swap-out when no frame may be taken. -/
theorem startRequest_limit (h : Fresh k pr p t) (hlim : k.allocLimit = 0)
    (hactive : k.requestActive = false) (hpin : k.pinnedFrame = 0) :
    Wp (startRequest c) { k with requests := [.swapin pr] } Q E ↔
      Wp startSwapout (k.serving pr) Q E := by
  have hpeek : Returns requestsPeek (k.serving pr) (.swapin pr) (k.serving pr) := by
    rw [Returns, wp_requestsPeek]
    refine ⟨fun h => by simp [Kernel.serving] at h, fun r rest hr => ⟨?_, rfl⟩⟩
    exact (List.cons.inj hr).1.symm
  have hslot : (k.serving pr).sosProcs pr.pid = .pcb p := h.slot
  unfold startRequest
  rw [wp_bind, wp_get]
  simp only [wp_bind, wp_assert, hactive, List.isEmpty_cons, Bool.not_false, true_implies,
    Bool.true_eq_false, false_implies, and_true]
  rw [wp_modify, ← wp_bind]
  refine hpeek.bind_iff.trans ?_
  dsimp only
  unfold startPagerRequest
  rw [hpeek.bind_iff]
  dsimp only
  rw [(lookupEntry_returns hslot h.table).bind_iff, h.entry]
  simp only [Bool.false_eq_true, if_false]
  rw [wp_bind, wp_get, wp_bind, wp_assert]
  simp only [Kernel.serving, hpin, hlim, beq_self_eq_true, true_implies, Bool.true_eq_false,
    false_implies, and_true, lt_irrefl, if_false]

theorem pagerFrameAlloc_limit {page : Nat} (hlim : k.allocLimit = 0) :
    Returns (pagerFrameAlloc pid page) k 0 k := by
  unfold pagerFrameAlloc
  rw [Returns, wp_bind, wp_get, wp_bind, wp_assert]
  refine ⟨fun _ => ?_, fun h => by simp [hlim] at h⟩
  rw [if_pos hlim]
  exact wp_pure.mpr ⟨rfl, rfl⟩

/-- A request at the limit begins to swap a page out. -/
theorem pager_limit (h : Fresh k pr p t) (hlim : k.allocLimit = 0) (hidle : k.requests = [])
    (hactive : k.requestActive = false) (hpin : k.pinnedFrame = 0) :
    Wp (pager (calls (n + 1)) pr) k Q E ↔ Wp startSwapout (k.serving pr) Q E := by
  obtain ⟨r, hr, hrights, hdir⟩ := h.region
  unfold pager pagerAction
  rw [wp_bind, wp_bind, wp_get, h.slot]
  dsimp only
  rw [hr]
  dsimp only
  rw [if_neg hrights, (lookupEntry_returns h.slot h.table).bind_iff, h.entry]
  simp only [Bool.false_eq_true, if_false, ne_eq, not_true_eq_false, hdir]
  rw [(pagerFrameAlloc_limit hlim).bind_iff, wp_bind, wp_assert]
  simp only [show decide (pageOffset 0 = 0) = true from rfl, true_implies, Bool.true_eq_false,
    false_implies, and_true, if_true]
  unfold queueRequest
  rw [wp_bind, wp_bind, wp_get, hidle]
  simp only [List.isEmpty_nil, if_true, hactive]
  rw [wp_bind, wp_assert]
  simp only [Bool.not_false, true_implies, Bool.true_eq_false, false_implies, and_true]
  rw [wp_bind, wp_modify, hidle, List.nil_append]
  simp only [wp_pure, Bool.false_eq_true, if_false]
  exact startRequest_limit (c := calls n) h hlim hactive hpin

theorem crowd_serving (h : Roomy k pid p t) (i c : Nat) :
    (k.crowd pid i c).serving pr = (k.serving pr).crowd pid i c := by
  have hs : (k.serving pr).sosProcs pid = .pcb p := h.slot
  unfold Kernel.crowd
  rw [updProcess_of_pcb h.slot, updProcess_of_pcb hs]
  rfl

theorem Roomy.serving (h : Roomy k pid p t) : Roomy (k.serving pr) pid p t :=
  ⟨h.slot, h.answerable, h.region, h.table, h.empty, h.unmapped, h.frames, h.limit, h.alloced⟩

/-- A page of another table stays as it is. -/
theorem Fresh.crowd (h : Roomy k pid p t) {t' : Pagetable2}
    (hf : Fresh k (faultRequest pid p addr 4) p t') (hne : offset1 (pageNo addr.toNat) ≠ 1)
    (i c : Nat) :
    Fresh (k.crowd pid i c) (faultRequest pid p addr 4) (p.crowd k.free i c) t' where
  slot := crowd_slot h i c
  region := hf.region
  table := (Function.update_of_ne hne ..).trans hf.table
  entry := hf.entry

/-- The first fault at the limit ends as if all pages had been passed once before. -/
theorem crowd_limit (h : Roomy k pid p t) {t' : Pagetable2}
    (hf : Fresh k (faultRequest pid p addr 4) p t') (hne : offset1 (pageNo addr.toNat) ≠ 1)
    (hidle : k.requests = []) (hactive : k.requestActive = false) (hpin : k.pinnedFrame = 0) :
    Wp (handle (n + 1) (.pagefault pid addr 4)) (k.crowd pid 1024 0) Q E ↔
      Wp (handle (n + 1) (.pagefault pid addr 4)) (k.crowd pid 1024 1024) Q E := by
  have hfault : ∀ c, Wp (handle (n + 1) (.pagefault pid addr 4)) (k.crowd pid 1024 c) Q E ↔
      Wp startSwapout ((k.serving (faultRequest pid p addr 4)).crowd pid 1024 c) Q E := fun c => by
    rw [← crowd_serving h]
    refine (pagefault_iff (crowd_slot h 1024 c)).trans (pager_limit (hf.crowd h hne 1024 c) ?_
      hidle hactive hpin)
    show k.allocLimit - 1024 = 0
    rw [h.limit]
    rfl
  rw [hfault, hfault]
  unfold startSwapout
  rw [wp_bind, wp_bind]
  exact deleteAllocList_crowd h.serving

/-! ## The run -/

/-- Touch the first `m` pages of the table. -/
def crowdEvents (pid : Pid) (m : Nat) : List Event :=
  (List.range m).map fun j => .pagefault pid (UInt32.ofNat (crowdAddr j)) 4

/-- Ordinary memory that can be read lies at the address. -/
def Process.readable (p : Process) (addr : Nat) : Bool :=
  (p.regions.find? (findRegion addr)).any fun r => r.rights &&& 4 ≠ 0 && !r.mapDirectly

theorem Process.exists_of_readable {a : Nat} (h : p.readable a = true) :
    ∃ r, p.regions.find? (findRegion a) = some r ∧ r.rights &&& 4 ≠ 0 ∧ r.mapDirectly = false := by
  obtain ⟨r, hr, h⟩ := (Option.any_eq_true ..).mp h
  exact ⟨r, hr, by simpa using h⟩

/-- There are frames for a whole table. -/
def Kernel.framesReady (k : Kernel) : Bool :=
  1024 ≤ k.free.length && (k.free.take 1024).all fun f => f ≠ 0 && pageOffset f = 0

theorem Kernel.exists_of_framesReady (h : k.framesReady = true) (hj : j < 1024) :
    ∃ f, k.free[j]? = some f ∧ f ≠ 0 ∧ pageOffset f = 0 := by
  obtain ⟨hlen, hall⟩ := Bool.and_eq_true .. ▸ h
  have hlt : j < k.free.length := Nat.lt_of_lt_of_le hj (of_decide_eq_true hlen)
  have hf := List.all_eq_true.mp hall k.free[j] (List.mem_take_iff_getElem.mpr ⟨j, by omega, rfl⟩)
  exact ⟨k.free[j], List.getElem?_eq_getElem hlt, by simpa using hf⟩

/-- `Roomy` can be checked, together with what is asked of a page of another table. -/
def Kernel.roomy (k : Kernel) (pid : Pid) (addr : UInt32) : Bool :=
  match k.sosProcs pid with
  | .pcb p =>
    match p.pagetable.pages2 1, p.pagetable.pages2 (offset1 (pageNo addr.toNat)) with
    | some t, some t' =>
      k.framesReady &&
      decide ((pid ≠ rootserverno ∧ p.psType = .process) ∧ p.ipcAccept ≠ .none ∧
        p.state = .alive) &&
      decide (p.readable addr.toNat = true ∧ offset1 (pageNo addr.toNat) ≠ 1 ∧
        t'.pages (offset2 (pageNo addr.toNat)) = {}) &&
      decide (∀ j : Fin 1024, p.readable (crowdAddr j) = true) && decide (∀ j, t.pages j = {}) &&
      decide (∀ j : Fin 1024, k.mmu pid (crowdPage j j.isLt) = none) &&
      decide (k.allocLimit = 1024 ∧ k.alloced = [] ∧ k.requests = [] ∧ k.requestActive = false ∧
        k.pinnedFrame = 0)
    | _, _ => false
  | _ => false

theorem Kernel.exists_of_roomy (h : k.roomy pid addr = true) :
    ∃ p t t', Roomy k pid p t ∧ Fresh k (faultRequest pid p addr 4) p t' ∧
      offset1 (pageNo addr.toNat) ≠ 1 ∧ k.requests = [] ∧ k.requestActive = false ∧
      k.pinnedFrame = 0 := by
  unfold Kernel.roomy at h
  split at h
  · next p hp =>
    split at h
    · next t t' ht ht' =>
      simp only [Bool.and_eq_true, decide_eq_true_eq] at h
      obtain ⟨⟨⟨⟨⟨⟨hframes, huser, hipc, halive⟩, hread, hne, hentry⟩, hregion⟩, hempty⟩,
        hunmapped⟩, hlimit, halloced, hreq, hactive, hpin⟩ := h
      refine ⟨p, t, t', ⟨hp, ⟨huser, hipc, halive⟩, ?_, ht, hempty, ?_, ?_, hlimit, halloced⟩,
        ⟨hp, Process.exists_of_readable hread, ht', hentry⟩, hne, hreq, hactive, hpin⟩
      · exact fun j hj => Process.exists_of_readable (hregion ⟨j, hj⟩)
      · exact fun j hj => hunmapped ⟨j, hj⟩
      · intro j hj
        exact Kernel.exists_of_framesReady hframes hj
    · simp at h
  · simp at h

section Runs

variable {C : Kernel → Event → Prop} [∀ k e, Decidable (C k e)]

theorem runEvents_append :
    ∀ {es es' : List Event} {k k' : Kernel}, runEvents C n es k = some k' →
      runEvents C n (es ++ es') k = runEvents C n es' k'
  | [], es', k, k', h => by
    injection h with h
    rw [h]
    rfl
  | e :: es, es', k, k', h => by
    rw [List.cons_append]
    rw [runEvents] at h ⊢
    split at h
    · next hen =>
      rw [if_pos hen]
      split at h
      · exact runEvents_append h
      · simp at h
    · simp at h

theorem runEvents_singleton {e : Event} {k' : Kernel} (hen : Enabled k e) (hc : C k e)
    (hh : Returns (handle n e) k () k') : runEvents C n [e] k = some k' := by
  unfold runEvents
  rw [if_pos ⟨hen, hc⟩, hh.run]
  rfl

theorem crowd_enabled (h : Roomy k pid p t) (i c : Nat) :
    Enabled (k.crowd pid i c) (.pagefault pid addr 4) := by
  refine ⟨h.answerable.user.1, ?_⟩
  rw [crowd_slot h]
  simp [Slot.isUser, Process.crowd, h.answerable.user.2]

theorem runEvents_crowd (h : Roomy k pid p t) (hidle : k.requests = [])
    (hC : ∀ k a, C k (.pagefault pid a 4)) : ∀ {m : Nat}, m ≤ 1024 →
      runEvents C n (crowdEvents pid m) k = some (k.crowd pid m 0)
  | 0, _ => by
    rw [crowd_zero h]
    rfl
  | m + 1, hm => by
    have haddr : (UInt32.ofNat (crowdAddr m)).toNat = crowdAddr m := by
      rw [UInt32.toNat_ofNat']
      unfold crowdAddr pageSize
      omega
    unfold crowdEvents
    rw [List.range_succ, List.map_append]
    refine (runEvents_append (runEvents_crowd h hidle hC (by omega))).trans ?_
    exact runEvents_singleton (crowd_enabled h m 0) (hC _ _) (crowd_fault h hidle (by omega) haddr)

/-- A run in which a whole table is touched before the page at `addr` is asked for. It goes on as it
does from the state in closed form. -/
def crowdedRun (C : Kernel → Event → Prop) [∀ k e, Decidable (C k e)] (n : Nat) (pid : Pid)
    (addr : UInt32) (es : List Event) (k : Kernel) : Option Kernel :=
  if k.roomy pid addr then runEvents C n (.pagefault pid addr 4 :: es) (k.crowd pid 1024 1024)
  else none

theorem runEvents_of_crowdedRun {es : List Event} {k' : Kernel}
    (hC : ∀ k a, C k (.pagefault pid a 4)) (h : crowdedRun C (n + 1) pid addr es k = some k') :
    runEvents C (n + 1) (crowdEvents pid 1024 ++ .pagefault pid addr 4 :: es) k = some k' := by
  unfold crowdedRun at h
  split at h
  · next hroomy =>
    obtain ⟨p, t, t', hr, hf, hne, hidle, hactive, hpin⟩ := Kernel.exists_of_roomy hroomy
    rw [runEvents_append (runEvents_crowd hr hidle hC (le_refl _))]
    rw [runEvents, if_pos ⟨crowd_enabled hr 1024 1024, hC _ _⟩] at h
    rw [runEvents, if_pos ⟨crowd_enabled hr 1024 0, hC _ _⟩]
    split at h
    · next k₁ hk₁ =>
      have hrun : Returns (handle (n + 1) (.pagefault pid addr 4)) (k.crowd pid 1024 0) () k₁ :=
        (crowd_limit hr hf hne hidle hactive hpin).mpr (returns_of_run hk₁)
      rw [hrun.run]
      exact h
    · simp at h
  · simp at h

theorem reachable_of_crowdedRun {α : Type} (n m : Nat) (procs : List (List Region))
    (C : Kernel → Event → Prop) [∀ k e, Decidable (C k e)] (pid : Pid) (addr : UInt32)
    (es₀ es : List Event) (obs : Kernel → α) {v : α}
    (hr : ∀ rs ∈ procs, ∀ r ∈ rs, r.elffile = none ∧ r.type = .other ∧ r.mapDirectly = false)
    (hC : ∀ k a, C k (.pagefault pid a 4))
    (h : (((boot n procs).bind (runEvents C (m + 1) es₀)).bind
      (crowdedRun C (m + 1) pid addr es)).map obs = some v) :
    ∃ k, Reachable (coldFrames n) C k ∧ obs k = v := by
  obtain ⟨k, hk, hobs⟩ := Option.map_eq_some_iff.mp h
  obtain ⟨k₀, hk₀, hrun⟩ := Option.bind_eq_some_iff.mp hk
  refine reachable_of_run n (m + 1) procs C
    (es₀ ++ (crowdEvents pid 1024 ++ .pagefault pid addr 4 :: es)) obs hr ?_
  obtain ⟨kb, hb, hpre⟩ := Option.bind_eq_some_iff.mp hk₀
  rw [hb, Option.bind_some, runEvents_append hpre, runEvents_of_crowdedRun hC hrun,
    Option.map_some, hobs]

end Runs

end Sos
