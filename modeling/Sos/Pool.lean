import Sos.State
import Sos.Lib.FreeChain
import Mathlib.Algebra.BigOperators.Group.Finset.Piecewise
import Mathlib.Data.Fintype.Basic

/-!
# The pool of paging resources

What the pager administers, without how: frames, swap slots, page tables and mappings, as a state
`Pool` and the small steps `Pool.Step` by which frames and slots change hands. Where the code keeps
lists, the pool keeps multisets; which frame comes first, which victim is chosen and when requests
are queued is left open.

Every message handler of the pager is a sequence of such steps (`Sos.Simulation`), so what the
steps preserve holds in every reachable state of the code:

* `Pool.Inv` : mappings agree with page tables, the frame limit adds up, the slot chain is sound
* `Pool.Own` : frames have one owner each, as long as `frame_alloc` has not failed
* `Pool.Slots` : pages on disk have slots of their own, as long as no two names clash
-/

namespace Sos

/-- Who holds which frames and slots. -/
structure Pool where
  free : Multiset Nat
  exhausted : Bool
  /-- A page has been recorded as resident without a frame. -/
  unbacked : Bool
  /-- User frames that may still be handed out. -/
  limit : Int
  live : Pid → Bool
  pte : Pid → Page → Pte
  /-- The frames of a process's page tables. -/
  tables : Pid → Multiset Nat
  /-- The frames of the swap files that stand for its executable. -/
  elfs : Pid → Multiset Nat
  /-- Pages the process may have mapped directly. -/
  direct : Pid → Page → Prop
  /-- Pages recorded as resident. -/
  alloced : Multiset (Pid × Page)
  /-- Slots recorded as in use. -/
  swapped : Multiset (Pid × Nat)
  head : Nat
  slots : Nat → Nat
  usage : Int
  mmu : Pid → Page → Option Nat
  pinned : Nat
  /-- Frames being written out. -/
  writing : Multiset Nat

/-- Address of the first byte of a page. -/
def Page.addr (n : Page) : Nat := n.val * pageSize

namespace Pool

def setPte (P : Pool) (p : Pid) (a : Page) (e : Pte) : Pool :=
  { P with pte := Function.update P.pte p (Function.update (P.pte p) a e) }

def setMmu (P : Pool) (p : Pid) (a : Page) (m : Option Nat) : Pool :=
  { P with mmu := Function.update P.mmu p (Function.update (P.mmu p) a m) }

/-- The free frames after `f` has been given back; giving 0 back empties the list. -/
def freed (P : Pool) (f : Nat) : Multiset Nat := if f = 0 then 0 else f ::ₘ P.free

/-- The chain of free slots after the slot at the disk address `s` has been put in front. -/
def freeSlot (P : Pool) (s : Nat) : Pool :=
  { P with
    head := s / pageSize
    slots := Function.update P.slots (s / pageSize) P.head
    usage := P.usage - 1 }

/-- The page is on the default swap file. -/
def OnSwap (P : Pool) (p : Pid) (a : Page) : Prop :=
  P.live p ∧ (P.pte p a).swap ∧ (P.pte p a).elf = false

/-- The pages of a process that are recorded as resident. -/
def residents (P : Pool) (p : Pid) : Multiset (Pid × Page) := P.alloced.filter (·.1 = p)

/-- How often a frame stands in the entries of resident pages. -/
def residentCount (P : Pool) (l : Multiset (Pid × Page)) (f : Nat) : Nat :=
  l.countP fun x => (P.pte x.1 x.2).addr = f

/-- How frames and slots change hands. `M` are the frames there are; without `clash` no page is
read from an executable at a file offset under which the process has a page on the swap file. -/
inductive Step (M : Set Nat) (clash : Bool) : Pool → Pool → Prop
  /-- A second level page table. -/
  | table {P p f} : P.live p → f ∈ P.free →
      Step M clash P { P with
        free := P.free.erase f
        tables := Function.update P.tables p (f ::ₘ P.tables p) }
  /-- The frame to read a page into. -/
  | pin {P f} : f ∈ P.free → Step M clash P { P with free := P.free.erase f, pinned := f }
  | pinNone {P} : P.free = 0 → Step M clash P { P with exhausted := true, pinned := 0 }
  | unpin {P} : Step M clash P { P with free := P.freed P.pinned, pinned := 0 }
  /-- A resident page is mapped again. -/
  | remap {P p a} : P.live p → (P.pte p a).swap = false → (P.pte p a).addr ≠ 0 →
      Step M clash P
        ((P.setPte p a { addr := (P.pte p a).addr, ref := true }).setMmu p a
          (some (P.pte p a).addr))
  /-- A page is mapped to the frame of the same address. -/
  | direct {P p a} : P.live p → (P.pte p a).swap = false → (P.pte p a).addr = 0 → P.direct p a →
      Step M clash P
        ((P.setPte p a { addr := Page.addr a, ref := true }).setMmu p a (some (Page.addr a)))
  /-- A page gets a frame. -/
  | fresh {P p a f} : P.live p → (P.pte p a).swap = false → (P.pte p a).addr = 0 →
      f ∈ P.free → 0 < P.limit →
      Step M clash P
        (({ P with
            free := P.free.erase f
            alloced := (p, a) ::ₘ P.alloced
            limit := P.limit - 1 }.setPte p a { addr := f, ref := true }).setMmu p a (some f))
  /-- A page should get a frame and there is none: it is recorded all the same. -/
  | bogus {P p a} : P.live p → P.free = 0 → 0 < P.limit →
      Step M clash P { P with
        exhausted := true
        unbacked := true
        alloced := (p, a) ::ₘ P.alloced
        limit := P.limit - 1 }
  /-- A page loses its mapping and its reference bit. -/
  | second {P p a} : P.live p →
      Step M clash P ((P.setPte p a { P.pte p a with ref := false }).setMmu p a none)
  /-- A page goes to disk. -/
  | evict {P p a} : P.live p → (p, a) ∈ P.alloced → P.head < swapSize →
      Step M clash P
        (({ P with
            alloced := P.alloced.erase (p, a)
            swapped := (p, P.head * pageSize) ::ₘ P.swapped
            head := P.slots P.head
            usage := P.usage + 1
            writing := (P.pte p a).addr ::ₘ P.writing }.setPte p a
          { P.pte p a with swap := true, addr := P.head * pageSize }).setMmu p a none)
  /-- A page has been written. -/
  | written {P f} : f ∈ P.writing →
      Step M clash P { P with
        writing := P.writing.erase f
        free := P.freed f
        limit := P.limit + 1 }
  /-- A page has been read: the slots recorded under its address are free again. -/
  | reload {P p a e S} {rs : List Nat} : P.live p → (P.pte p a).swap → e.swap = false →
      e.addr = 0 → P.swapped = S + Multiset.ofList (rs.map (Prod.mk p)) →
      (p, (P.pte p a).addr) ∉ S →
      (∀ s ∈ rs, s = (P.pte p a).addr ∧ pageOffset s = 0 ∧ s / pageSize < swapSize) →
      (clash = false → (P.pte p a).elf = true →
        ∀ b, P.OnSwap p b → (P.pte p b).addr ≠ (P.pte p a).addr) →
      Step M clash P ({ rs.foldl freeSlot P with swapped := S }.setPte p a e)
  /-- A process ends. -/
  | exit {P p F} : P.live p → 0 ∉ F →
      (∀ f, f ≠ 0 → F.count f ≤ P.free.count f + P.residentCount (P.residents p) f +
        (P.tables p).count f + (P.elfs p).count f) →
      Step M clash P { P with
        live := Function.update P.live p false
        free := F
        limit := P.limit + (P.residents p).card
        alloced := P.alloced.filter (·.1 ≠ p)
        pte := Function.update P.pte p (fun _ => {})
        tables := Function.update P.tables p 0
        elfs := Function.update P.elfs p 0
        direct := Function.update P.direct p (fun _ => False)
        mmu := Function.update P.mmu p (fun _ => none) }
  /-- A process begins. -/
  | spawn {P p F T X pt D} : P.live p = false → F + T + X ≤ P.free →
      (∀ a, (pt a).swap = false ∧ (pt a).addr = 0 ∨ (pt a).swap ∧ (pt a).elf) →
      (∀ a, D a → Page.addr a ∉ M) →
      Step M clash P { P with
        live := Function.update P.live p true
        free := F
        pte := Function.update P.pte p pt
        tables := Function.update P.tables p T
        elfs := Function.update P.elfs p X
        direct := Function.update P.direct p D
        mmu := Function.update P.mmu p (fun _ => none) }
  /-- All mappings of a process are removed. -/
  | flush {P p} : Step M clash P { P with mmu := Function.update P.mmu p (fun _ => none) }

/-- A sequence of steps. -/
abbrev Steps (M : Set Nat) (clash : Bool) : Pool → Pool → Prop :=
  Relation.ReflTransGen (Step M clash)

/-! ## Reading the updates back -/

section Updates

variable {P : Pool} {p q : Pid} {a b : Page} {e : Pte} {m : Option Nat}

theorem pte_setPte :
    (P.setPte p a e).pte q b = if q = p ∧ b = a then e else P.pte q b := by
  unfold setPte
  by_cases hq : q = p
  · subst hq
    by_cases hb : b = a
    · subst hb; simp
    · simp [hb]
  · simp [hq]

theorem mmu_setMmu :
    (P.setMmu p a m).mmu q b = if q = p ∧ b = a then m else P.mmu q b := by
  unfold setMmu
  by_cases hq : q = p
  · subst hq
    by_cases hb : b = a
    · subst hb; simp
    · simp [hb]
  · simp [hq]

@[simp] theorem setPte_self_ne (h : ¬ (q = p ∧ b = a)) :
    (P.setPte p a e).pte q b = P.pte q b := by rw [pte_setPte, if_neg h]

@[simp] theorem setPte_live : (P.setPte p a e).live = P.live := rfl
@[simp] theorem setPte_free : (P.setPte p a e).free = P.free := rfl
@[simp] theorem setPte_tables : (P.setPte p a e).tables = P.tables := rfl
@[simp] theorem setPte_elfs : (P.setPte p a e).elfs = P.elfs := rfl
@[simp] theorem setPte_alloced : (P.setPte p a e).alloced = P.alloced := rfl
@[simp] theorem setPte_writing : (P.setPte p a e).writing = P.writing := rfl
@[simp] theorem setPte_pinned : (P.setPte p a e).pinned = P.pinned := rfl
@[simp] theorem setPte_direct : (P.setPte p a e).direct = P.direct := rfl
@[simp] theorem setPte_swapped : (P.setPte p a e).swapped = P.swapped := rfl
@[simp] theorem setMmu_pte : (P.setMmu p a m).pte = P.pte := rfl

/-- Freeing slots touches the slot chain only. -/
theorem foldl_freeSlot (rs : List Nat) (P : Pool) :
    ∃ h s u, rs.foldl freeSlot P = { P with head := h, slots := s, usage := u } := by
  induction rs generalizing P with
  | nil => exact ⟨_, _, _, rfl⟩
  | cons r rs ih =>
    obtain ⟨h, s, u, he⟩ := ih (P.freeSlot r)
    exact ⟨h, s, u, he⟩

end Updates

end Pool

end Sos
