import Sos.Pool

/-!
# Mappings and the frame limit

The part of the pool's invariant that holds in every state: what the MMU maps is what the page
table says, what is recorded as resident belongs to a live process, and the user frames handed out,
those being written and those still to be had add up to the limit.
-/

namespace Sos.Pool

variable {M : Set Nat} {clash : Bool} {P P' : Pool} {p q : Pid} {a b : Page} {f : Nat}

/-- Invariants of the pool that no step breaks. -/
structure Inv (P : Pool) : Prop where
  /-- A process that is not there has nothing. -/
  dead : ∀ p, P.live p = false → P.tables p = 0 ∧ P.elfs p = 0
  allocedLive : ∀ x ∈ P.alloced, P.live x.1 = true
  /-- What is mapped is resident, at that frame, and has been referenced. -/
  mapped : ∀ p a f, P.mmu p a = some f → P.live p = true ∧ (P.pte p a).swap = false ∧
    (P.pte p a).ref = true ∧ (P.pte p a).addr = f
  limit_nonneg : 0 ≤ P.limit
  account : P.limit + P.alloced.card + P.writing.card = frameAllocLimit
  zero_notMem : 0 ∉ P.free

/-- Freeing a frame puts no 0 on the list. -/
theorem zero_notMem_freed (h : 0 ∉ P.free) : 0 ∉ P.freed f := by
  unfold freed
  split
  · simp
  · next hf => simpa [Multiset.mem_cons, h] using Ne.symm hf

/-- Entering a frame and mapping it keeps the mappings in line with the page tables. -/
theorem mapped_setMmu (h : ∀ p a f, P.mmu p a = some f → P.live p = true ∧
      (P.pte p a).swap = false ∧ (P.pte p a).ref = true ∧ (P.pte p a).addr = f)
    (hp : P.live p = true) :
    ∀ q b g, ((P.setPte p a { addr := f, ref := true }).setMmu p a (some f)).mmu q b = some g →
      P.live q = true ∧
      (((P.setPte p a { addr := f, ref := true }).setMmu p a (some f)).pte q b).swap = false ∧
      (((P.setPte p a { addr := f, ref := true }).setMmu p a (some f)).pte q b).ref = true ∧
      (((P.setPte p a { addr := f, ref := true }).setMmu p a (some f)).pte q b).addr = g := by
  intro q b g hm
  rw [mmu_setMmu] at hm
  rw [setMmu_pte, pte_setPte]
  split at hm
  · next hqb =>
    obtain ⟨rfl, rfl⟩ := hqb
    simp only [and_self, if_true]
    exact ⟨hp, trivial, trivial, Option.some.inj hm⟩
  · next hqb =>
    rw [if_neg hqb]
    exact h q b g hm

/-- Unmapping a page keeps them in line, whatever its entry becomes. -/
theorem mapped_unmap {e : Pte} (h : ∀ p a f, P.mmu p a = some f → P.live p = true ∧
      (P.pte p a).swap = false ∧ (P.pte p a).ref = true ∧ (P.pte p a).addr = f) :
    ∀ q b g, ((P.setPte p a e).setMmu p a none).mmu q b = some g → P.live q = true ∧
      (((P.setPte p a e).setMmu p a none).pte q b).swap = false ∧
      (((P.setPte p a e).setMmu p a none).pte q b).ref = true ∧
      (((P.setPte p a e).setMmu p a none).pte q b).addr = g := by
  intro q b g hm
  rw [mmu_setMmu] at hm
  rw [setMmu_pte, pte_setPte]
  split at hm
  · simp at hm
  · next hqb =>
    rw [if_neg hqb]
    exact h q b g hm

/-- The resident pages of one process and of the others make up all of them. -/
theorem card_residents_add (P : Pool) (p : Pid) :
    (P.residents p).card + (P.alloced.filter (·.1 ≠ p)).card = P.alloced.card := by
  unfold residents
  rw [← Multiset.card_add, Multiset.filter_add_not]

/-- One page more is resident. -/
theorem Inv.live_cons (hi : Inv P) (hp : P.live p = true) :
    ∀ x ∈ (p, a) ::ₘ P.alloced, P.live x.1 = true := by
  intro x hx
  rcases Multiset.mem_cons.mp hx with rfl | hx
  · exact hp
  · exact hi.allocedLive x hx

theorem Inv.account_cons (hi : Inv P) (x : Pid × Page) :
    P.limit - 1 + (x ::ₘ P.alloced).card + P.writing.card = frameAllocLimit := by
  have hacc := hi.account
  rw [Multiset.card_cons]
  push_cast
  omega

/-- **One step keeps the mappings and the accounts.** -/
theorem Step.inv (h : Step M clash P P') (hi : Inv P) : Inv P' := by
  cases h with
  | @table p f hp hf =>
    refine ⟨?_, hi.allocedLive, hi.mapped, hi.limit_nonneg, hi.account,
      fun h0 => hi.zero_notMem (Multiset.mem_of_mem_erase h0)⟩
    intro q hq
    have hne : q ≠ p := fun he => by rw [he, hp] at hq; simp at hq
    simpa [hne] using hi.dead q hq
  | pin hf =>
    exact ⟨hi.dead, hi.allocedLive, hi.mapped, hi.limit_nonneg, hi.account,
      fun h0 => hi.zero_notMem (Multiset.mem_of_mem_erase h0)⟩
  | pinNone hf =>
    exact ⟨hi.dead, hi.allocedLive, hi.mapped, hi.limit_nonneg, hi.account, hi.zero_notMem⟩
  | unpin =>
    exact ⟨hi.dead, hi.allocedLive, hi.mapped, hi.limit_nonneg, hi.account,
      zero_notMem_freed hi.zero_notMem⟩
  | remap hp hs ha | direct hp hs ha hd =>
    exact ⟨hi.dead, hi.allocedLive, mapped_setMmu hi.mapped hp, hi.limit_nonneg, hi.account,
      hi.zero_notMem⟩
  | @fresh p a f hp hs ha hf hl =>
    exact ⟨hi.dead, hi.live_cons hp, mapped_setMmu hi.mapped hp, Int.sub_nonneg_of_le hl,
      hi.account_cons _, fun h0 => hi.zero_notMem (Multiset.mem_of_mem_erase h0)⟩
  | @bogus p a hp hf hl =>
    exact ⟨hi.dead, hi.live_cons hp, hi.mapped, Int.sub_nonneg_of_le hl, hi.account_cons _,
      hi.zero_notMem⟩
  | second hp =>
    exact ⟨hi.dead, hi.allocedLive, mapped_unmap hi.mapped, hi.limit_nonneg, hi.account,
      hi.zero_notMem⟩
  | @evict p a hp hm hh =>
    refine ⟨hi.dead, fun x hx => hi.allocedLive x (Multiset.mem_of_mem_erase hx),
      mapped_unmap hi.mapped, hi.limit_nonneg, ?_, hi.zero_notMem⟩
    have hacc := hi.account
    have hcard := Multiset.card_erase_add_one hm
    show P.limit + (P.alloced.erase (p, a)).card + ((P.pte p a).addr ::ₘ P.writing).card =
      frameAllocLimit
    rw [Multiset.card_cons]
    push_cast
    omega
  | @written f hf =>
    have hl := hi.limit_nonneg
    refine ⟨hi.dead, hi.allocedLive, hi.mapped, ?_, ?_, zero_notMem_freed hi.zero_notMem⟩
    · show 0 ≤ P.limit + 1
      omega
    · have hacc := hi.account
      have hcard := Multiset.card_erase_add_one hf
      show P.limit + 1 + P.alloced.card + (P.writing.erase f).card = frameAllocLimit
      omega
  | @reload p a e S rs hp hs hes hea hsw hn hrs hc =>
    obtain ⟨h, s, u, he⟩ := foldl_freeSlot rs P
    rw [he]
    refine ⟨hi.dead, hi.allocedLive, ?_, hi.limit_nonneg, hi.account, hi.zero_notMem⟩
    -- the page was on disk, so it was not mapped
    intro q b g hm
    have hold := hi.mapped q b g hm
    have hne : ¬ (q = p ∧ b = a) := by
      rintro ⟨rfl, rfl⟩
      rw [hs] at hold
      simp at hold
    rw [pte_setPte, if_neg hne]
    exact hold
  | @exit p F hp h0 hF =>
    refine ⟨?_, ?_, ?_, ?_, ?_, h0⟩
    · intro q hq
      by_cases hqp : q = p
      · subst hqp; simp
      · simp only [Function.update_of_ne hqp] at hq ⊢
        exact hi.dead q hq
    · intro x hx
      obtain ⟨hx, hne⟩ := Multiset.mem_filter.mp hx
      simpa [hne] using hi.allocedLive x hx
    · intro q b g hm
      by_cases hqp : q = p
      · subst hqp; simp at hm
      · simp only [Function.update_of_ne hqp] at hm ⊢
        exact hi.mapped q b g hm
    · have hl := hi.limit_nonneg
      show 0 ≤ P.limit + (P.residents p).card
      omega
    · have hacc := hi.account
      have hcard := card_residents_add P p
      show P.limit + (P.residents p).card + (P.alloced.filter (·.1 ≠ p)).card + P.writing.card =
        frameAllocLimit
      omega
  | @spawn p F T X pt D hp hle hpt hD =>
    refine ⟨?_, ?_, ?_, hi.limit_nonneg, hi.account, ?_⟩
    · intro q hq
      by_cases hqp : q = p
      · subst hqp; simp at hq
      · simp only [Function.update_of_ne hqp] at hq ⊢
        exact hi.dead q hq
    · intro x hx
      have hlive := hi.allocedLive x hx
      have hne : x.1 ≠ p := fun he => by rw [he, hp] at hlive; simp at hlive
      simpa [hne] using hlive
    · intro q b g hm
      by_cases hqp : q = p
      · subst hqp; simp at hm
      · simp only [Function.update_of_ne hqp] at hm ⊢
        exact hi.mapped q b g hm
    · intro h0
      exact hi.zero_notMem (Multiset.mem_of_le hle
        (Multiset.mem_add.mpr (Or.inl (Multiset.mem_add.mpr (Or.inl h0)))))
  | @flush p =>
    refine ⟨hi.dead, hi.allocedLive, ?_, hi.limit_nonneg, hi.account, hi.zero_notMem⟩
    intro q b g hm
    by_cases hqp : q = p
    · subst hqp; simp at hm
    · simp only [Function.update_of_ne hqp] at hm
      exact hi.mapped q b g hm

theorem Steps.inv (h : Steps M clash P P') (hi : Inv P) : Inv P' := by
  induction h with
  | refl => exact hi
  | tail _ hs ih => exact hs.inv ih

/-- A process has no page table and no swap file at address 0. -/
theorem Step.tables_ne_zero (h : Step M clash P P') (hi : Inv P)
    (hz : ∀ p, 0 ∉ P.tables p ∧ 0 ∉ P.elfs p) (q : Pid) : 0 ∉ P'.tables q ∧ 0 ∉ P'.elfs q := by
  cases h with
  | @table p f hp hf =>
    refine ⟨?_, (hz q).2⟩
    show 0 ∉ Function.update P.tables p (f ::ₘ P.tables p) q
    by_cases hq : q = p
    · subst hq
      rw [Function.update_self, Multiset.mem_cons, not_or]
      exact ⟨fun he => hi.zero_notMem (he ▸ hf), (hz q).1⟩
    · rw [Function.update_of_ne hq]
      exact (hz q).1
  | @exit p F hp h0 hF =>
    show 0 ∉ Function.update P.tables p 0 q ∧ 0 ∉ Function.update P.elfs p 0 q
    by_cases hq : q = p
    · subst hq
      simp
    · rw [Function.update_of_ne hq, Function.update_of_ne hq]
      exact hz q
  | @spawn p F T X pt D hp hle hpt hD =>
    show 0 ∉ Function.update P.tables p T q ∧ 0 ∉ Function.update P.elfs p X q
    by_cases hq : q = p
    · subst hq
      rw [Function.update_self, Function.update_self]
      refine ⟨fun h0 => ?_, fun h0 => ?_⟩
      · exact hi.zero_notMem (Multiset.mem_of_le hle (by simp [h0]))
      · exact hi.zero_notMem (Multiset.mem_of_le hle (by simp [h0]))
    · rw [Function.update_of_ne hq, Function.update_of_ne hq]
      exact hz q
  | @reload p a e S rs hp hs hes hea hsw hn hrs hc =>
    obtain ⟨h, s, u, he⟩ := foldl_freeSlot rs P
    rw [he]
    exact hz q
  | pin | pinNone | unpin | remap | direct | fresh | bogus | second | evict | written | flush =>
    exact hz q

theorem Steps.tables_ne_zero (h : Steps M clash P P') (hi : Inv P)
    (hz : ∀ p, 0 ∉ P.tables p ∧ 0 ∉ P.elfs p) : ∀ q, 0 ∉ P'.tables q ∧ 0 ∉ P'.elfs q := by
  induction h with
  | refl => exact hz
  | tail hst hs ih => exact hs.tables_ne_zero (Steps.inv hst hi) ih

end Sos.Pool
