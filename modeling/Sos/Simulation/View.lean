import Sos.Handler
import Sos.Pool.Own
import Sos.Pool.Slots
import Mathlib.Data.List.TakeWhile

/-!
# The pool of a kernel state

`Kernel.pool` reads off a state of the code what it means as a pool of resources: the free list as
far as it goes, page tables as functions on pages, frames of the requests being written. The lemmas
of this module say what the elementary updates of the code do to it.
-/

namespace Sos

variable {k k' : Kernel} {pid : Pid} {p : Process} {n m : Page} {e : Pte} {f : Nat}
variable {pt : Pagetable} {s : Slot} {i : Fin 1024}

/-! ## What a slot of the process table stands for -/

namespace Slot

def live (s : Slot) : Bool := s.pcb?.isSome

def pte (s : Slot) (n : Page) : Pte :=
  match s.pcb? with
  | none => {}
  | some p => p.pagetable.entry n

def tables (s : Slot) : Multiset Nat :=
  match s.pcb? with
  | none => 0
  | some p => p.pagetable.frames

def elfs (s : Slot) : Multiset Nat :=
  match s.pcb? with
  | none => 0
  | some p => (p.regions.filterMap Region.elffile : List Nat)

/-- A heap that were mapped directly would count as a whole, however far it has grown. -/
def direct (s : Slot) (n : Page) : Prop :=
  match s.pcb? with
  | none => False
  | some p => ∃ r ∈ p.regions, r.mapDirectly ∧
      (r.type = .heap ∨ ∃ a, findRegion a r ∧ pageNo a = n)

@[simp] theorem pcb?_pcb : (Slot.pcb p).pcb? = some p := rfl

theorem pcb?_eq_some_iff : s.pcb? = some p ↔ s = .pcb p := by
  cases s <;> simp [Slot.pcb?]
@[simp] theorem live_pcb : (Slot.pcb p).live = true := rfl
@[simp] theorem live_null : Slot.null.live = false := rfl
@[simp] theorem live_placeholder : Slot.placeholder.live = false := rfl
@[simp] theorem pte_pcb : (Slot.pcb p).pte n = p.pagetable.entry n := rfl
@[simp] theorem tables_pcb : (Slot.pcb p).tables = p.pagetable.frames := rfl
@[simp] theorem elfs_pcb :
    (Slot.pcb p).elfs = (p.regions.filterMap Region.elffile : List Nat) := rfl

theorem exists_pcb_of_live (h : s.live = true) : ∃ p, s = .pcb p := by
  cases s with
  | null => simp at h
  | placeholder => simp at h
  | pcb p => exact ⟨p, rfl⟩

end Slot

/-- The frame a request is writing out. -/
def Request.writing : Request → Option Nat
  | .swapout pr => some pr.addr
  | _ => none

def Request.isSwapout (r : Request) : Bool := r.writing.isSome

/-- The resources of a state. -/
def Kernel.pool (k : Kernel) : Pool where
  free := k.freeFrames
  exhausted := k.exhausted
  unbacked := k.unbacked
  limit := k.allocLimit
  live := fun p => (k.sosProcs p).live
  pte := fun p => (k.sosProcs p).pte
  tables := fun p => (k.sosProcs p).tables
  elfs := fun p => (k.sosProcs p).elfs
  direct := fun p => (k.sosProcs p).direct
  alloced := (k.alloced.map fun x => (x.1, pageNo x.2) : List (Pid × Page))
  swapped := k.swapped
  head := k.defaultSwapfile.head
  slots := k.defaultSwapfile.slots
  usage := k.defaultSwapfile.usage
  mmu := k.mmu
  pinned := k.pinnedFrame
  writing := (k.requests.filterMap Request.writing : List Nat)

/-! ## Page tables -/

/-- A page is named by its two indices. -/
theorem page_eq_of_offsets (h1 : offset1 m = offset1 n) (h2 : offset2 m = offset2 n) : m = n := by
  have h1' := congrArg Fin.val h1
  have h2' := congrArg Fin.val h2
  simp only [offset1, offset2] at h1' h2'
  apply Fin.ext
  omega

theorem Pagetable.entry_setEntry {t : Pagetable2} (h : pt.pages2 (offset1 n) = some t) :
    (pt.setEntry n e).entry = Function.update pt.entry n e := by
  funext m
  unfold Pagetable.setEntry
  rw [h]
  unfold Pagetable.entry
  dsimp only
  by_cases hmn : m = n
  · subst hmn
    simp
  · rw [Function.update_of_ne hmn]
    by_cases h1 : offset1 m = offset1 n
    · have h2 : offset2 m ≠ offset2 n := fun h2 => hmn (page_eq_of_offsets h1 h2)
      rw [h1, Function.update_self, h]
      simp [h2]
    · rw [Function.update_of_ne h1]

/-- The second level of an entry stays when an entry is written. -/
theorem Pagetable.pages2_setEntry :
    ((pt.setEntry n e).pages2 i).map Pagetable2.frame = (pt.pages2 i).map Pagetable2.frame := by
  unfold Pagetable.setEntry
  split
  · rfl
  · next t h =>
    dsimp only
    by_cases hi : i = offset1 n
    · subst hi
      simp [h]
    · simp [hi]

theorem Pagetable.frames_setEntry : (pt.setEntry n e).frames = pt.frames := by
  have hframe : (pt.setEntry n e).frame = pt.frame := by
    unfold Pagetable.setEntry
    split <;> rfl
  unfold Pagetable.frames
  rw [hframe]
  simp only [Pagetable.pages2_setEntry]

/-- A new, empty second level. -/
def Pagetable.addTable (pt : Pagetable) (i : Fin 1024) (f : Nat) : Pagetable :=
  { pt with pages2 := Function.update pt.pages2 i (some { frame := f, pages := fun _ => {} }) }

theorem Pagetable.entry_addTable (h : pt.pages2 i = none) :
    (pt.addTable i f).entry = pt.entry := by
  funext m
  unfold Pagetable.entry Pagetable.addTable
  dsimp only
  by_cases hi : offset1 m = i
  · rw [hi, Function.update_self, h]
  · rw [Function.update_of_ne hi]

/-- Putting a value where there was none adds it to what a `filterMap` collects. -/
theorem filterMap_update_perm {α : Type} [DecidableEq α] {g : α → Option Nat} {i : α}
    (h : g i = none) : ∀ {l : List α}, l.Nodup → i ∈ l →
      List.Perm (l.filterMap (Function.update g i (some f))) (f :: l.filterMap g)
  | [], _, hi => by simp at hi
  | j :: l, hnd, hi => by
    obtain ⟨hj, hnd⟩ := List.nodup_cons.mp hnd
    by_cases hij : i = j
    · subst hij
      have htail : l.filterMap (Function.update g i (some f)) = l.filterMap g := by
        refine List.filterMap_congr fun x hx => ?_
        have hxi : x ≠ i := fun he => hj (he ▸ hx)
        rw [Function.update_of_ne hxi]
      have hself : Function.update g i (some f) i = some f := Function.update_self ..
      rw [List.filterMap_cons_some hself, htail, List.filterMap_cons_none h]
    · have hmem : i ∈ l := (List.mem_cons.mp hi).resolve_left hij
      have ih := filterMap_update_perm h hnd hmem
      have hgj : Function.update g i (some f) j = g j := Function.update_of_ne (Ne.symm hij) _ _
      cases hg : g j with
      | none =>
        rw [List.filterMap_cons_none (by rw [hgj, hg]), List.filterMap_cons_none hg]
        exact ih
      | some x =>
        rw [List.filterMap_cons_some (by rw [hgj, hg]), List.filterMap_cons_some hg]
        exact (ih.cons x).trans (List.Perm.swap f x _)

theorem Pagetable.frames_addTable (h : pt.pages2 i = none) :
    ((pt.addTable i f).frames : Multiset Nat) = f ::ₘ (pt.frames : Multiset Nat) := by
  have hfun : (fun j => ((pt.addTable i f).pages2 j).map Pagetable2.frame) =
      Function.update (fun j => (pt.pages2 j).map Pagetable2.frame) i (some f) := by
    funext j
    unfold Pagetable.addTable
    dsimp only
    by_cases hj : j = i
    · subst hj; simp
    · simp [hj]
  have hperm := filterMap_update_perm (f := f)
    (g := fun j => (pt.pages2 j).map Pagetable2.frame) (i := i) (by simp [h])
    (List.nodup_finRange 1024) (List.mem_finRange i)
  rw [Multiset.cons_coe, Multiset.coe_eq_coe]
  unfold Pagetable.frames
  rw [hfun]
  exact hperm.append_right _

/-! ## Updates of the process table -/

theorem update_comp {α β γ : Type} [DecidableEq α] (g : α → β) (F : β → γ) (i : α) (x : β) :
    (fun j => F (Function.update g i x j)) = Function.update (fun j => F (g j)) i (F x) :=
  Function.comp_update F g i x

theorem pool_setSlot (k : Kernel) (pid : Pid) (s : Slot) :
    (k.setSlot pid s).pool =
      { k.pool with
        live := Function.update k.pool.live pid s.live
        pte := Function.update k.pool.pte pid s.pte
        tables := Function.update k.pool.tables pid s.tables
        elfs := Function.update k.pool.elfs pid s.elfs
        direct := Function.update k.pool.direct pid s.direct } := by
  unfold Kernel.pool Kernel.setSlot
  dsimp only
  rw [update_comp, update_comp, update_comp, update_comp, update_comp]
  rfl

/-- Two slots that stand for the same resources. -/
structure Slot.Same (s s' : Slot) : Prop where
  live : s'.live = s.live
  pte : s'.pte = s.pte
  tables : s'.tables = s.tables
  elfs : s'.elfs = s.elfs
  direct : s'.direct = s.direct

theorem pool_setSlot_same (h : (k.sosProcs pid).Same s) :
    (k.setSlot pid s).pool = k.pool := by
  rw [pool_setSlot, h.live, h.pte, h.tables, h.elfs, h.direct]
  simp only [show (k.sosProcs pid).live = k.pool.live pid from rfl,
    show (k.sosProcs pid).pte = k.pool.pte pid from rfl,
    show (k.sosProcs pid).tables = k.pool.tables pid from rfl,
    show (k.sosProcs pid).elfs = k.pool.elfs pid from rfl,
    show (k.sosProcs pid).direct = k.pool.direct pid from rfl, Function.update_eq_self]

theorem updProcess_of_not_live {g : Process → Process} (h : (k.sosProcs pid).live = false) :
    k.updProcess pid g = k := by
  unfold Kernel.updProcess
  split
  · next q hq => simp [hq] at h
  · rfl

@[elab_as_elim]
theorem updProcess_cases {g : Process → Process} {motive : Kernel → Prop} (hsame : motive k)
    (hpcb : ∀ p, k.sosProcs pid = .pcb p → motive (k.setSlot pid (.pcb (g p)))) :
    motive (k.updProcess pid g) := by
  cases hs : k.sosProcs pid with
  | pcb p =>
    rw [updProcess_of_pcb hs]
    exact hpcb p hs
  | _ =>
    rw [updProcess_of_not_live (by rw [hs]; rfl)]
    exact hsame

/-- A change of a PCB that leaves page table and regions alone. -/
theorem pool_updProcess {g : Process → Process} (hpt : ∀ p, (g p).pagetable = p.pagetable)
    (hr : ∀ p, (g p).regions = p.regions) : (k.updProcess pid g).pool = k.pool := by
  refine updProcess_cases rfl fun p hs => pool_setSlot_same ?_
  rw [hs]
  refine ⟨rfl, ?_, ?_, ?_, ?_⟩
  · funext n
    simp [hpt]
  · simp [hpt]
  · simp [hr]
  · funext n
    simp [Slot.direct, hr]

/-! ## Updates of entries and frames -/

/-- The second level for a page is there. -/
def Kernel.HasTable (k : Kernel) (pid : Pid) (n : Page) : Prop :=
  ∃ p t, k.sosProcs pid = .pcb p ∧ p.pagetable.pages2 (offset1 n) = some t

theorem pool_setEntry (h : k.HasTable pid n) :
    (k.updProcess pid fun p => { p with pagetable := p.pagetable.setEntry n e }).pool =
      k.pool.setPte pid n e := by
  obtain ⟨p, t, hp, ht⟩ := h
  rw [updProcess_of_pcb hp, pool_setSlot]
  have hpte : (Slot.pcb { p with pagetable := p.pagetable.setEntry n e }).pte =
      Function.update (k.pool.pte pid) n e := by
    funext m
    show (p.pagetable.setEntry n e).entry m = Function.update ((k.sosProcs pid).pte) n e m
    rw [Pagetable.entry_setEntry ht, hp]
    rfl
  have htables : (Slot.pcb { p with pagetable := p.pagetable.setEntry n e }).tables =
      k.pool.tables pid := by
    show ((p.pagetable.setEntry n e).frames : Multiset Nat) = (k.sosProcs pid).tables
    rw [Pagetable.frames_setEntry, hp]
    rfl
  have helfs : (Slot.pcb { p with pagetable := p.pagetable.setEntry n e }).elfs =
      k.pool.elfs pid := by
    show _ = (k.sosProcs pid).elfs
    rw [hp]
    rfl
  have hdirect : (Slot.pcb { p with pagetable := p.pagetable.setEntry n e }).direct =
      k.pool.direct pid := by
    show _ = (k.sosProcs pid).direct
    rw [hp]
    rfl
  have hlive : (Slot.pcb { p with pagetable := p.pagetable.setEntry n e }).live =
      k.pool.live pid := by
    show true = (k.sosProcs pid).live
    rw [hp]
    rfl
  rw [hpte, htables, helfs, hdirect, hlive]
  simp only [Function.update_eq_self]
  rfl

theorem HasTable.setEntry {pid' : Pid} {n' : Page} (h : k.HasTable pid n) :
    (k.updProcess pid' fun p => { p with pagetable := p.pagetable.setEntry n' e }).HasTable
      pid n := by
  obtain ⟨p, t, hp, ht⟩ := h
  by_cases hpid : pid = pid'
  · subst hpid
    have hmap : ((p.pagetable.setEntry n' e).pages2 (offset1 n)).map Pagetable2.frame =
        some t.frame := by
      rw [Pagetable.pages2_setEntry, ht]
      rfl
    obtain ⟨t', ht', -⟩ := Option.map_eq_some_iff.mp hmap
    rw [updProcess_of_pcb hp]
    exact ⟨_, t', setSlot_self, ht'⟩
  · cases hs : k.sosProcs pid' with
    | null | placeholder => rw [updProcess_of_not_live (by rw [hs]; rfl)]; exact ⟨p, t, hp, ht⟩
    | pcb q =>
      rw [updProcess_of_pcb hs]
      exact ⟨p, t, (setSlot_of_ne hpid).trans hp, ht⟩

theorem pool_frameFree : (k.frameFree f).pool = { k.pool with free := k.pool.freed f } := by
  unfold Kernel.frameFree Kernel.pool Pool.freed Kernel.freeFrames
  by_cases hf : f = 0
  · simp [hf]
  · simp [hf]

theorem zero_notMem_freeFrames (k : Kernel) : 0 ∉ k.freeFrames := fun h => by
  have := List.mem_takeWhile_imp h
  simp at this

theorem mem_free_of_cons {rest : List Nat} (h : k.free = f :: rest) (hf : f ≠ 0) :
    f ∈ k.pool.free := by
  show f ∈ (k.freeFrames : Multiset Nat)
  unfold Kernel.freeFrames
  simp [h, hf]

theorem pool_frameTaken {rest : List Nat} (h : k.free = f :: rest) (hf : f ≠ 0) :
    (k.frameTaken rest).pool = { k.pool with free := k.pool.free.erase f } := by
  unfold Kernel.frameTaken Kernel.pool Kernel.freeFrames
  simp [h, hf]

/-- The head of the queue changes, but not what it is writing. -/
theorem pool_setHead {r r' : Request} {rest : List Request} (h : k.requests = r :: rest)
    (hw : r'.writing = r.writing) :
    ({ k with requests := r' :: k.requests.tail } : Kernel).pool = k.pool := by
  unfold Kernel.pool
  simp only [h, List.tail_cons, List.filterMap_cons, hw]
  rfl

end Sos
