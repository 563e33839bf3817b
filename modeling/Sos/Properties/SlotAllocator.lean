import Sos.Simulation.Boot
import Sos.Run

/-!
# The slot allocator

`swapslot_alloc` and `swapslot_free` on their own, over any sequence of calls. The slots handed out
and the chain from `head` share out the swap file, so a call never returns a slot that is in use
(`swapslots_exact`).

The chain has an end but `swapslot_alloc` does not look for it: with every slot in use it follows
`ADDRESS_NONE` into the array (`swap_exhaustion_overruns`).
-/

namespace Sos

open Hoare FreeChain

variable {k k' : Kernel} {out : List Nat} {d : Nat}

/-! ## The two calls -/

/-- `swapslot_alloc` takes the head of the chain if it is a slot. -/
theorem swapslotAlloc_returns (husage : 0 ≤ k.defaultSwapfile.usage)
    (hmax : k.defaultSwapfile.usage ≤ swapSize) (hhead : k.defaultSwapfile.head < swapSize) :
    Returns swapslotAlloc k (k.defaultSwapfile.head * pageSize)
      { k with defaultSwapfile := { k.defaultSwapfile with
          head := k.defaultSwapfile.slots k.defaultSwapfile.head
          usage := k.defaultSwapfile.usage + 1 } } := by
  unfold swapslotAlloc
  rw [Returns, wp_bind, wp_get, wp_bind, wp_assert]
  refine ⟨fun _ => ?_, fun h => by simp [husage, hmax] at h⟩
  rw [wp_bind, wp_failIf]
  refine ⟨fun h => absurd hhead (by omega), fun _ => ?_⟩
  rw [wp_bind, wp_modify, wp_pure]
  exact ⟨rfl, rfl⟩

/-- `swapslot_free` puts the slot in front. -/
theorem swapslotFree_returns (halign : pageOffset d = 0) (husage : 0 < k.defaultSwapfile.usage)
    (hlt : d / pageSize < swapSize) :
    Returns (swapslotFree d) k ()
      { k with defaultSwapfile := k.defaultSwapfile.slotFree (d / pageSize) } := by
  unfold swapslotFree
  rw [Returns, wp_bind, wp_get, wp_bind, wp_assert]
  refine ⟨fun _ => ?_, fun h => by simp [halign] at h⟩
  rw [wp_bind, wp_assert]
  refine ⟨fun _ => ?_, fun h => by simp [husage] at h⟩
  rw [wp_bind, wp_failIf]
  refine ⟨fun h => absurd hlt (by omega), fun _ => ?_⟩
  rw [wp_modify]
  exact ⟨rfl, rfl⟩

/-! ## Sequences of calls -/

/-- The states after `swapfile_init` and any calls of `swapslot_alloc`, while there is a slot left,
and of `swapslot_free`, for addresses handed out; `out` are the addresses outstanding. -/
inductive SlotRun : Kernel → List Nat → Prop
  | init {k : Kernel} {path : Path} : k.defaultSwapfile = .init path → SlotRun k []
  | alloc {k k' : Kernel} {out : List Nat} {d : Nat} : SlotRun k out → out.length < swapSize →
      swapslotAlloc k = .ok d k' → SlotRun k' (d :: out)
  | free {k k' : Kernel} {out : List Nat} {d : Nat} : SlotRun k out → d ∈ out →
      swapslotFree d k = .ok () k' → SlotRun k' (out.erase d)

/-- The outstanding slots and the chain share out the swap file. -/
structure Swapfile.Lends (sf : Swapfile) (out : List Nat) : Prop where
  shares : Shares (Finset.range swapSize) addressNone sf.slots sf.head
    (out.map (· / pageSize) : List Nat)
  aligned : ∀ d ∈ out, pageOffset d = 0
  usage : sf.usage = out.length

namespace Swapfile.Lends

variable {sf : Swapfile}

theorem init (path : Path) : (Swapfile.init path).Lends [] where
  shares := by
    exact shares_init (by decide)
  aligned := by simp
  usage := rfl

theorem lt (h : sf.Lends out) (hd : d ∈ out) : d / pageSize < swapSize :=
  Finset.mem_range.mp (h.shares.mem_all (Multiset.mem_coe.mpr (List.mem_map_of_mem hd)))

theorem head_eq_none_iff (h : sf.Lends out) : sf.head = addressNone ↔ out.length = swapSize := by
  have hstop : addressNone ∉ Finset.range swapSize := by
    rw [Finset.mem_range]
    decide
  rw [h.shares.head_eq_stop_iff hstop]
  simp

/-- While a slot is left the head is one. -/
theorem head_lt (h : sf.Lends out) (hlen : out.length < swapSize) : sf.head < swapSize := by
  have hne : sf.head ≠ addressNone := fun he => by
    have := h.head_eq_none_iff.mp he
    omega
  exact Finset.mem_range.mp (h.shares.take hne).1

theorem take (h : sf.Lends out) (hlen : out.length < swapSize) :
    Swapfile.Lends { sf with head := sf.slots sf.head, usage := sf.usage + 1 }
      (sf.head * pageSize :: out) where
  shares := by
    have hne : sf.head ≠ addressNone := fun he => by
      have := h.head_eq_none_iff.mp he
      omega
    have htake := (h.shares.take hne).2.2
    rw [List.map_cons, Pool.slot_mul_div]
    exact htake
  aligned := fun d hd => by
    rcases List.mem_cons.mp hd with rfl | hd
    · exact Pool.slot_mul_offset _
    · exact h.aligned d hd
  usage := by
    show sf.usage + 1 = _
    rw [h.usage, List.length_cons]
    push_cast
    rfl

theorem give (h : sf.Lends out) (hd : d ∈ out) :
    (sf.slotFree (d / pageSize)).Lends (out.erase d) where
  shares := by
    have hperm : (out.map (· / pageSize)).Perm (d / pageSize :: (out.erase d).map (· / pageSize)) :=
      (List.perm_cons_erase hd).map (· / pageSize)
    have hshares := h.shares
    rw [Multiset.coe_eq_coe.mpr hperm, ← Multiset.cons_coe] at hshares
    refine hshares.give (Function.update_self ..) fun b _ hb => Function.update_of_ne ?_ ..
    rintro rfl
    exact hb (Multiset.mem_cons_self _ _)
  aligned := fun x hx => h.aligned x (List.mem_of_mem_erase hx)
  usage := by
    have hpos := List.length_pos_of_mem hd
    show sf.usage - 1 = _
    rw [h.usage, List.length_erase_of_mem hd]
    omega

/-- Different addresses are different slots. -/
theorem nodup (h : sf.Lends out) : out.Nodup :=
  List.Nodup.of_map _ (Multiset.coe_nodup.mp h.shares.nodup)

theorem lt_size (h : sf.Lends out) (hd : d ∈ out) : d < swapSize * pageSize := by
  have hlt := h.lt hd
  rw [← Pool.slot_div_mul (h.aligned d hd)]
  exact Nat.mul_lt_mul_of_pos_right hlt (by decide)

/-- A slot is off the chain exactly when its address is outstanding. -/
theorem exists_chain (h : sf.Lends out) :
    ∃ l, Chain swapSize addressNone sf.slots sf.head l ∧ l.Nodup ∧
      ∀ s, s < swapSize → (s ∈ l ↔ s * pageSize ∉ out) := by
  obtain ⟨l, hl, hnd, hmem⟩ := h.shares.exists_index_chain
  refine ⟨l, hl, hnd, fun s hs => ?_⟩
  have hout : s ∈ out.map (· / pageSize) ↔ s * pageSize ∈ out := by
    constructor
    · intro hin
      obtain ⟨d, hd, rfl⟩ := List.mem_map.mp hin
      rw [Pool.slot_div_mul (h.aligned d hd)]
      exact hd
    · intro hin
      exact List.mem_map.mpr ⟨_, hin, Pool.slot_mul_div s⟩
  rw [hmem s, Multiset.mem_coe, hout]
  simp [hs]

end Swapfile.Lends

/-- What the two calls do while the swap file lends out `out`. -/
theorem Swapfile.Lends.alloc (h : k.defaultSwapfile.Lends out) (hlen : out.length < swapSize) :
    ∃ d k', swapslotAlloc k = .ok d k' ∧ k'.defaultSwapfile.Lends (d :: out) := by
  have husage := h.usage
  have hmax : (out.length : Int) ≤ swapSize := by exact_mod_cast hlen.le
  have hrun := swapslotAlloc_returns (by omega) (by omega) (h.head_lt hlen)
  exact ⟨_, _, hrun.run, h.take hlen⟩

theorem Swapfile.Lends.free (h : k.defaultSwapfile.Lends out) (hd : d ∈ out) :
    ∃ k', swapslotFree d k = .ok () k' ∧ k'.defaultSwapfile.Lends (out.erase d) := by
  have husage := h.usage
  have hpos := List.length_pos_of_mem hd
  have hrun := swapslotFree_returns (k := k) (h.aligned d hd) (by omega) (h.lt hd)
  exact ⟨_, hrun.run, h.give hd⟩

theorem SlotRun.lends (h : SlotRun k out) : k.defaultSwapfile.Lends out := by
  induction h with
  | init hsf => rw [hsf]; exact .init _
  | alloc _ hlen hrun ih =>
    obtain ⟨d, k', hrun', hlends⟩ := ih.alloc hlen
    rw [hrun] at hrun'
    injection hrun' with hd hk
    subst hd hk
    exact hlends
  | free _ hd hrun ih =>
    obtain ⟨k', hrun', hlends⟩ := ih.free hd
    rw [hrun] at hrun'
    injection hrun' with _ hk
    subst hk
    exact hlends

/-- **The slot allocator is exact.** After any sequence of calls the outstanding addresses are
different multiples of the page size in the swap file, `usage` is their number, and the chain from
`head` visits exactly the other slots, once each, and ends in `ADDRESS_NONE`. No call fails. -/
theorem swapslots_exact (h : SlotRun k out) :
    out.Nodup ∧ (∀ d ∈ out, pageSize ∣ d ∧ d < swapSize * pageSize) ∧
    k.defaultSwapfile.usage = out.length ∧
    (∃ l, Chain swapSize addressNone k.defaultSwapfile.slots k.defaultSwapfile.head l ∧ l.Nodup ∧
      ∀ s, s < swapSize → (s ∈ l ↔ s * pageSize ∉ out)) ∧
    (out.length < swapSize → ∃ d k', swapslotAlloc k = .ok d k') ∧
    ∀ d ∈ out, ∃ k', swapslotFree d k = .ok () k' := by
  have hl := h.lends
  refine ⟨hl.nodup, fun d hd => ⟨Nat.dvd_of_mod_eq_zero (hl.aligned d hd), hl.lt_size hd⟩, hl.usage,
    hl.exists_chain, fun hlen => ?_, fun d hd => ?_⟩
  · obtain ⟨d, k', hrun, -⟩ := hl.alloc hlen
    exact ⟨d, k', hrun⟩
  · obtain ⟨k', hrun, -⟩ := hl.free hd
    exact ⟨k', hrun⟩

/-- `n` calls of `swapslot_alloc`. -/
theorem exists_slotRun (k : Kernel) (path : Path) (n : Nat) (hn : n ≤ swapSize) :
    ∃ k' out, SlotRun k' out ∧ out.length = n := by
  induction n with
  | zero => exact ⟨{ k with defaultSwapfile := .init path }, [], .init rfl, rfl⟩
  | succ n ih =>
    obtain ⟨k₁, out, hrun, hlen⟩ := ih (by omega)
    obtain ⟨d, k', halloc, -⟩ := hrun.lends.alloc (by omega)
    exact ⟨k', d :: out, .alloc hrun (by omega) halloc, by rw [List.length_cons, hlen]⟩

theorem swapslots_exact_allInUse :
    ∃ k out, SlotRun k out ∧ out.length = swapSize ∧ out.Nodup ∧
      k.defaultSwapfile.usage = swapSize := by
  obtain ⟨k, out, hrun, hlen⟩ := exists_slotRun (coldStart 0) swapfileFn swapSize le_rfl
  obtain ⟨hnd, -, husage, -⟩ := swapslots_exact hrun
  exact ⟨k, out, hrun, hlen, hnd, by rw [husage, hlen]⟩

/-! ## With every slot in use -/

theorem swapslotAlloc_full (h : k.defaultSwapfile.Lends out) (hfull : out.length = swapSize) :
    Wp swapslotAlloc k (fun _ _ => False) fun f k' => f = .outOfBounds ∧ k' = k := by
  have husage := h.usage
  have hhead := h.head_eq_none_iff.mpr hfull
  unfold swapslotAlloc
  rw [wp_bind, wp_get, wp_bind, wp_assert]
  refine ⟨fun _ => ?_, fun hlimit => by simp [husage, hfull] at hlimit⟩
  rw [wp_bind, wp_failIf, hhead]
  exact ⟨fun _ => ⟨rfl, rfl⟩, fun hin => absurd Pool.swapSize_le_addressNone hin⟩

theorem pagerSwapslotAlloc_full (h : k.defaultSwapfile.Lends out) (hfull : out.length = swapSize)
    (pid : Pid) : pagerSwapslotAlloc pid k = .error .outOfBounds k := by
  have hfault : Wp (pagerSwapslotAlloc pid) k (fun _ _ => False)
      fun f k' => f = .outOfBounds ∧ k' = k := by
    unfold pagerSwapslotAlloc
    rw [wp_bind]
    exact (swapslotAlloc_full h hfull).imp fun _ _ h => h.elim
  obtain ⟨f, k', hrun, rfl, rfl⟩ := hfault.faults
  exact hrun

/-- `pagerSwapslotAlloc` says that there is no slot, and changes nothing. -/
def Kernel.RefusesSlot (k : Kernel) (pid : Pid) : Prop :=
  ∃ k', pagerSwapslotAlloc pid k = .ok addressNone k' ∧
    k'.defaultSwapfile = k.defaultSwapfile ∧ k'.swapped = k.swapped

/-- **Exhaustion is never refused.** With every slot in use `swapslot_alloc` indexes the array with
`ADDRESS_NONE`, so `pagerSwapslotAlloc` does not get to return it, and `startSwapout`, which has
taken its victim off `alloced` by then, does not return either. -/
theorem swap_exhaustion_overruns (h : k.defaultSwapfile.Lends out) (hfull : out.length = swapSize)
    (pid : Pid) :
    pagerSwapslotAlloc pid k = .error .outOfBounds k ∧ ¬ k.RefusesSlot pid ∧
      ∀ k', startSwapout k ≠ .ok () k' := by
  have hrun := pagerSwapslotAlloc_full h hfull pid
  refine ⟨hrun, ?_, fun k' hok => ?_⟩
  · rintro ⟨k₁, hok, -⟩
    rw [hrun] at hok
    simp at hok
  · have hslot := ((startSwapout_spec (M := ∅) (b := true)).ok hok).slot
    rw [h.head_eq_none_iff.mpr hfull] at hslot
    exact absurd Pool.swapSize_le_addressNone (by omega)

theorem swap_exhaustion_overruns_allInUse :
    ∃ k out, SlotRun k out ∧ out.length = swapSize ∧ ¬ k.RefusesSlot 2 := by
  obtain ⟨k, out, hrun, hlen⟩ := exists_slotRun (coldStart 0) swapfileFn swapSize le_rfl
  exact ⟨k, out, hrun, hlen, (swap_exhaustion_overruns hrun.lends hlen 2).2.1⟩

/-- The 1014th slot: all 1013 have been handed out, and the call does not return. -/
theorem swapslot_beyond_last :
    ∃ k out, SlotRun k out ∧ out.length = 1013 ∧ k.defaultSwapfile.usage = swapSize ∧
      pagerSwapslotAlloc 2 k = .error .outOfBounds k := by
  obtain ⟨k, out, hrun, hlen⟩ := exists_slotRun (coldStart 0) swapfileFn swapSize le_rfl
  exact ⟨k, out, hrun, hlen, by rw [hrun.lends.usage, hlen],
    pagerSwapslotAlloc_full hrun.lends hlen 2⟩

end Sos
