import Sos.Pool.Inv

/-!
# Swap slots

The slots recorded as in use and the chain of free slots share out the swap file between them
(`SlotInv`); that holds whatever happens. That a page on the swap file has a slot of its own
(`Held`) needs more: slots are released by process and disk address, and the disk address of a page
read from an executable is an offset in another file. As long as no such offset is at the same time
the slot of another page of the process, nobody loses a slot (`Step.held`).
-/

namespace Sos.Pool

open FreeChain

variable {M : Set Nat} {clash : Bool} {P P' : Pool} {p q : Pid} {a b : Page}
variable {d : Nat} {e : Pte} {S : Multiset (Pid × Nat)}

/-- The slots in use and the free chain partition the swap file. -/
structure SlotInv (P : Pool) : Prop where
  chain : ∃ l, Chain swapSize addressNone P.slots P.head l ∧ l.Nodup ∧
    ∀ s, s < swapSize → (s ∈ l ↔ ∀ p, (p, s * pageSize) ∉ P.swapped)
  nodup : (P.swapped.map Prod.snd).Nodup
  wf : ∀ x ∈ P.swapped, pageOffset x.2 = 0 ∧ x.2 / pageSize < swapSize
  usage : P.usage = P.swapped.card

/-- Pages on the swap file hold the slots that are recorded for them, and no two the same. -/
structure Held (P : Pool) : Prop where
  held : ∀ p a, P.OnSwap p a → (p, (P.pte p a).addr) ∈ P.swapped
  distinct : ∀ p a q b, P.OnSwap p a → P.OnSwap q b → (p, a) ≠ (q, b) →
    (P.pte p a).addr ≠ (P.pte q b).addr

/-! ## Slots as disk addresses -/

theorem swapSize_le_addressNone : swapSize ≤ addressNone := by decide

theorem slot_mul_div (s : Nat) : s * pageSize / pageSize = s :=
  Nat.mul_div_cancel s (by decide)

theorem slot_mul_offset (s : Nat) : pageOffset (s * pageSize) = 0 := Nat.mul_mod_left s pageSize

/-- An aligned disk address is that of its slot. -/
theorem slot_div_mul (h : pageOffset d = 0) : d / pageSize * pageSize = d :=
  Nat.div_mul_cancel (Nat.dvd_of_mod_eq_zero h)

/-! ## Chain and records -/

/-- The slot numbers of the records. -/
def inUse (P : Pool) : Multiset Nat := P.swapped.map fun x => x.2 / pageSize

/-- A slot is in use if it is recorded for somebody. -/
theorem mem_inUse (hw : ∀ x ∈ P.swapped, pageOffset x.2 = 0) {s : Nat} :
    s ∈ P.inUse ↔ ∃ p, (p, s * pageSize) ∈ P.swapped := by
  unfold inUse
  rw [Multiset.mem_map]
  constructor
  · rintro ⟨x, hx, rfl⟩
    rw [slot_div_mul (hw x hx)]
    exact ⟨x.1, hx⟩
  · rintro ⟨p, hp⟩
    exact ⟨_, hp, slot_mul_div s⟩

theorem inUse_nodup (hw : ∀ x ∈ P.swapped, pageOffset x.2 = 0) :
    P.inUse.Nodup ↔ (P.swapped.map Prod.snd).Nodup := by
  have hsnd : P.swapped.map Prod.snd = P.inUse.map (· * pageSize) := by
    unfold inUse
    rw [Multiset.map_map]
    exact Multiset.map_congr rfl fun x hx => (slot_div_mul (hw x hx)).symm
  have hinj : Function.Injective (· * pageSize) := fun a b hab =>
    Nat.eq_of_mul_eq_mul_right (by decide) hab
  rw [hsnd, Multiset.nodup_map_iff_of_injective hinj]

/-- The invariant says that the chain and the records share out the slots. -/
theorem slotInv_iff : SlotInv P ↔
    Shares (Finset.range swapSize) addressNone P.slots P.head P.inUse ∧
      (∀ x ∈ P.swapped, pageOffset x.2 = 0) ∧ P.usage = P.swapped.card := by
  constructor
  · intro hs
    have hw : ∀ x ∈ P.swapped, pageOffset x.2 = 0 := fun x hx => (hs.wf x hx).1
    obtain ⟨l, hl, hnd, hmem⟩ := hs.chain
    refine ⟨⟨l, hl.links, ?_⟩, hw, hs.usage⟩
    have hfree : ∀ s < swapSize, s ∈ l ↔ s ∉ P.inUse := fun s hs' => by
      rw [hmem s hs', mem_inUse hw, not_exists]
    have hdisj : Disjoint (l : Multiset Nat) P.inUse :=
      Multiset.disjoint_left.mpr fun hsl => (hfree _ (hl.lt hsl)).mp hsl
    have hnodup : ((l : Multiset Nat) + P.inUse).Nodup := Multiset.nodup_add.mpr
      ⟨Multiset.coe_nodup.mpr hnd, (inUse_nodup hw).mpr hs.nodup, hdisj⟩
    refine (Multiset.Nodup.ext hnodup (Finset.nodup _)).mpr fun s => ?_
    rw [Multiset.mem_add, Multiset.mem_coe, Finset.mem_val, Finset.mem_range]
    constructor
    · rintro (hsl | hsu)
      · exact hl.lt hsl
      · obtain ⟨x, hx, rfl⟩ := Multiset.mem_map.mp hsu
        exact (hs.wf x hx).2
    · intro hlt
      rw [hfree s hlt]
      exact (em (s ∈ P.inUse)).symm
  · rintro ⟨hs, hw, husage⟩
    obtain ⟨l, hl, hnd, hmem⟩ := hs.exists_index_chain
    refine ⟨⟨l, hl, hnd, fun s hs' => ?_⟩, (inUse_nodup hw).mp hs.nodup, fun x hx => ⟨hw x hx, ?_⟩,
      husage⟩
    · rw [hmem, mem_inUse hw, not_exists]
      simp [hs']
    · exact Finset.mem_range.mp (hs.mem_all (Multiset.mem_map_of_mem _ hx))

/-- Nothing but the records and the chain counts. -/
theorem SlotInv.congr (hs : SlotInv P) (hw : P'.swapped = P.swapped) (hh : P'.head = P.head)
    (hl : P'.slots = P.slots) (hu : P'.usage = P.usage) : SlotInv P' where
  chain := by rw [hw, hh, hl]; exact hs.chain
  nodup := by rw [hw]; exact hs.nodup
  wf := by rw [hw]; exact hs.wf
  usage := by rw [hw, hu]; exact hs.usage

/-- The head of the chain is not in use. -/
theorem SlotInv.head_free (hs : SlotInv P) (hh : P.head < swapSize) (q : Pid) :
    (q, P.head * pageSize) ∉ P.swapped := by
  obtain ⟨hshares, hw, -⟩ := slotInv_iff.mp hs
  have hfree := (hshares.take (hh.trans_le swapSize_le_addressNone).ne).2.1
  exact fun hq => hfree ((mem_inUse hw).mpr ⟨q, hq⟩)

/-- Taking the head off the chain and recording it. -/
theorem SlotInv.take (hs : SlotInv P) (hh : P.head < swapSize)
    (hw : P'.swapped = (p, P.head * pageSize) ::ₘ P.swapped) (hh' : P'.head = P.slots P.head)
    (hl' : P'.slots = P.slots) (hu : P'.usage = P.usage + 1) : SlotInv P' := by
  obtain ⟨hshares, haligned, husage⟩ := slotInv_iff.mp hs
  refine slotInv_iff.mpr ⟨?_, fun x hx => ?_, ?_⟩
  · rw [inUse, hw, Multiset.map_cons, slot_mul_div, hh', hl']
    exact (hshares.take (hh.trans_le swapSize_le_addressNone).ne).2.2
  · rw [hw] at hx
    rcases Multiset.mem_cons.mp hx with rfl | hx
    · exact slot_mul_offset _
    · exact haligned x hx
  · rw [hw, hu, husage, Multiset.card_cons]
    push_cast
    rfl

/-- Giving one recorded slot back. -/
theorem SlotInv.giveBack (hs : SlotInv P)
    (hw : P.swapped = (p, d) ::ₘ S) : SlotInv { P.freeSlot d with swapped := S } := by
  obtain ⟨hshares, haligned, husage⟩ := slotInv_iff.mp hs
  refine slotInv_iff.mpr
    ⟨?_, fun x hx => haligned x (hw ▸ Multiset.mem_cons_of_mem hx), ?_⟩
  · rw [inUse, hw, Multiset.map_cons] at hshares
    refine hshares.give (Function.update_self ..) fun s _ hs => Function.update_of_ne ?_ ..
    rintro rfl
    exact hs (Multiset.mem_cons_self _ _)
  · show P.usage - 1 = S.card
    rw [husage, hw, Multiset.card_cons]
    push_cast
    omega

/-- What `list_delete` releases under one process and address is one slot at most. -/
theorem SlotInv.released {rs : List Nat} (hs : SlotInv P)
    (hw : P.swapped = S + Multiset.ofList (rs.map (Prod.mk p))) (hrs : ∀ s ∈ rs, s = d) :
    rs = [] ∨ rs = [d] := by
  match rs, hrs, hw with
  | [], _, _ => exact Or.inl rfl
  | [s], hrs, _ => exact Or.inr (by rw [hrs s (by simp)])
  | s :: t :: rs, hrs, hw =>
    exfalso
    have hst : s = t := by rw [hrs s (by simp), hrs t (by simp)]
    have hnd := hs.nodup
    rw [hw, Multiset.map_add, Multiset.nodup_add] at hnd
    have := hnd.2.1
    simp [hst] at this

theorem SlotInv.reload {rs : List Nat} (hs : SlotInv P)
    (hw : P.swapped = S + Multiset.ofList (rs.map (Prod.mk p))) (hrs : ∀ s ∈ rs, s = d) :
    SlotInv { rs.foldl freeSlot P with swapped := S } := by
  rcases hs.released hw hrs with rfl | rfl
  · exact hs.congr (by simp [hw]) rfl rfl rfl
  · exact hs.giveBack (p := p) (by rw [hw, add_comm]; rfl)

/-- **No step breaks the partition of the swap file.** -/
theorem Step.slotInv (h : Step M clash P P') (hs : SlotInv P) : SlotInv P' := by
  cases h with
  | evict hp hm hh => exact hs.take hh rfl rfl rfl rfl
  | reload hp hsw hes hea hw hn hrs hc =>
    exact (hs.reload hw fun s hs => (hrs s hs).1).congr rfl rfl rfl rfl
  | table | pin | pinNone | unpin | remap | direct | fresh | bogus | second | written | exit
  | spawn | flush => exact hs.congr rfl rfl rfl rfl

/-! ## Pages and their slots -/

/-- A step that records nothing new and puts no page on the swap file. -/
theorem Held.of_subset (hh : Held P) (hw : P'.swapped = P.swapped)
    (hsub : ∀ p a, P'.OnSwap p a → P.OnSwap p a ∧ (P'.pte p a).addr = (P.pte p a).addr) :
    Held P' where
  held := fun p a h => by
    obtain ⟨h, he⟩ := hsub p a h
    rw [hw, he]
    exact hh.held p a h
  distinct := fun p a q b h h' hne => by
    obtain ⟨h, he⟩ := hsub p a h
    obtain ⟨h', he'⟩ := hsub q b h'
    rw [he, he']
    exact hh.distinct p a q b h h' hne

/-- The pages on the swap file after an entry has been written. -/
theorem onSwap_setPte (h : (P.setPte p a e).OnSwap q b) :
    (q = p ∧ b = a ∧ e.swap = true ∧ e.elf = false) ∨ (¬ (q = p ∧ b = a) ∧ P.OnSwap q b) := by
  obtain ⟨hl, hs, he⟩ := h
  rw [pte_setPte] at hs he
  split at hs
  · next hqb =>
    rw [if_pos hqb] at he
    exact Or.inl ⟨hqb.1, hqb.2, hs, he⟩
  · next hqb =>
    rw [if_neg hqb] at he
    exact Or.inr ⟨hqb, hl, hs, he⟩

/-- Writing an entry that is not on disk. -/
theorem Held.setPte_resident (hh : Held P) (he : e.swap = false) :
    Held (P.setPte p a e) := by
  refine hh.of_subset rfl fun q b h => ?_
  rcases onSwap_setPte h with ⟨-, -, hs, -⟩ | ⟨hne, h⟩
  · simp [he] at hs
  · exact ⟨h, by rw [setPte_self_ne hne]⟩

theorem Held.evict (hh : Held P) (hs : SlotInv P) (hlt : P.head < swapSize)
    (hlive : P'.live = P.live) (hpte : P'.pte = P.pte)
    (hw : P'.swapped = (p, P.head * pageSize) ::ₘ P.swapped)
    (he : e.addr = P.head * pageSize) : Held (P'.setPte p a e) := by
  have hfree := hs.head_free hlt
  have hcase : ∀ q b, (P'.setPte p a e).OnSwap q b →
      (q = p ∧ b = a) ∨ (¬ (q = p ∧ b = a) ∧ P.OnSwap q b) := by
    intro q b h
    rcases onSwap_setPte h with ⟨rfl, rfl, -, -⟩ | ⟨hne, h⟩
    · exact Or.inl ⟨rfl, rfl⟩
    · refine Or.inr ⟨hne, ?_⟩
      unfold OnSwap at h ⊢
      rwa [hlive, hpte] at h
  constructor
  · intro q b h
    rw [setPte_swapped, hw, pte_setPte]
    rcases hcase q b h with ⟨rfl, rfl⟩ | ⟨hne, h⟩
    · simp [he]
    · rw [if_neg hne, hpte]
      exact Multiset.mem_cons_of_mem (hh.held q b h)
  · intro q b r c h h' hne
    rw [pte_setPte, pte_setPte, hpte]
    rcases hcase q b h with ⟨rfl, rfl⟩ | ⟨hqb, hq⟩ <;>
      rcases hcase r c h' with ⟨rfl, rfl⟩ | ⟨hrc, hr⟩
    · exact absurd rfl hne
    · rw [if_pos ⟨rfl, rfl⟩, if_neg hrc, he]
      intro heq
      exact hfree r (heq ▸ hh.held r c hr)
    · rw [if_neg hqb, if_pos ⟨rfl, rfl⟩, he]
      intro heq
      exact hfree q (heq ▸ hh.held q b hq)
    · rw [if_neg hqb, if_neg hrc]
      exact hh.distinct q b r c hq hr hne

/-- A page leaves the swap file or the executable, and no other page of its process has a slot
under that address. -/
theorem Held.reload {S T : Multiset (Pid × Nat)} (hh : Held P) (hes : e.swap = false)
    (hlive : P'.live = P.live) (hpte : P'.pte = P.pte) (hS : P'.swapped = S)
    (hw : P.swapped = S + T) (hT : ∀ x ∈ T, x = (p, (P.pte p a).addr))
    (hother : ∀ b, b ≠ a → P.OnSwap p b → (P.pte p b).addr ≠ (P.pte p a).addr) :
    Held (P'.setPte p a e) := by
  have hcase : ∀ q b, (P'.setPte p a e).OnSwap q b → ¬ (q = p ∧ b = a) ∧ P.OnSwap q b := by
    intro q b h
    rcases onSwap_setPte h with ⟨-, -, hs, -⟩ | ⟨hne, h⟩
    · simp [hes] at hs
    · refine ⟨hne, ?_⟩
      unfold OnSwap at h ⊢
      rwa [hlive, hpte] at h
  constructor
  · intro q b h
    obtain ⟨hne, hon⟩ := hcase q b h
    rw [setPte_swapped, hS, setPte_self_ne hne, hpte]
    have hm := hh.held q b hon
    rw [hw] at hm
    rcases Multiset.mem_add.mp hm with hm | hm
    · exact hm
    · exfalso
      have he := hT _ hm
      obtain rfl : q = p := congrArg Prod.fst he
      exact hother b (fun hb => hne ⟨rfl, hb⟩) hon (congrArg Prod.snd he)
  · intro q b r c h h' hne
    obtain ⟨hqb, h⟩ := hcase q b h
    obtain ⟨hrc, h'⟩ := hcase r c h'
    rw [setPte_self_ne hqb, setPte_self_ne hrc, hpte]
    exact hh.distinct q b r c h h' hne

/-- **Without a clash of names, no step takes the slot of a page away or gives it to another.** -/
theorem Step.held (h : Step M false P P') (hs : SlotInv P) (hh : Held P) : Held P' := by
  cases h with
  | remap hp hsw ha => exact (hh.setPte_resident rfl).of_subset rfl fun _ _ h => ⟨h, rfl⟩
  | direct hp hsw ha hd => exact (hh.setPte_resident rfl).of_subset rfl fun _ _ h => ⟨h, rfl⟩
  | @fresh p a f hp hsw ha hf hl =>
    have h₁ : Held { P with
        free := P.free.erase f
        alloced := (p, a) ::ₘ P.alloced
        limit := P.limit - 1 } := hh.of_subset rfl fun _ _ h => ⟨h, rfl⟩
    exact (h₁.setPte_resident rfl).of_subset rfl fun _ _ h => ⟨h, rfl⟩
  | @second p a hp =>
    refine hh.of_subset rfl fun q b h => ?_
    obtain ⟨hl, hs, he⟩ := h
    rw [setMmu_pte, pte_setPte] at hs he ⊢
    split at hs
    · next hqb =>
      obtain ⟨rfl, rfl⟩ := hqb
      simp only [and_self, if_true] at he ⊢
      exact ⟨⟨hl, hs, he⟩, trivial⟩
    · next hqb =>
      rw [if_neg hqb] at he ⊢
      exact ⟨⟨hl, hs, he⟩, rfl⟩
  | @evict p a hp hm hlt =>
    have h₁ : Held ({ P with
        alloced := P.alloced.erase (p, a)
        swapped := (p, P.head * pageSize) ::ₘ P.swapped
        head := P.slots P.head
        usage := P.usage + 1
        writing := (P.pte p a).addr ::ₘ P.writing }.setPte p a
      { P.pte p a with swap := true, addr := P.head * pageSize }) :=
      hh.evict hs hlt rfl rfl rfl rfl
    exact h₁.of_subset rfl fun _ _ h => ⟨h, rfl⟩
  | @reload p a e S rs hp hsw hes hea hw hn hrs hc =>
    obtain ⟨h, s, u, he⟩ := foldl_freeSlot rs P
    rw [he]
    refine hh.reload hes rfl rfl rfl hw (fun x hx => ?_) ?_
    · obtain ⟨s, hs, rfl⟩ := List.mem_map.mp (Multiset.mem_coe.mp hx)
      rw [(hrs s hs).1]
    · intro b hb honb
      by_cases helf : (P.pte p a).elf = true
      · exact hc rfl helf b honb
      · exact hh.distinct p b p a honb ⟨hp, hsw, by simpa using helf⟩ (by simp [hb])
  | @exit p F hp h0 hF =>
    refine hh.of_subset rfl fun q b h => ?_
    have hqp : q ≠ p := by
      rintro rfl
      simpa using h.1
    unfold OnSwap at h ⊢
    simp only [Function.update_of_ne hqp] at h ⊢
    exact ⟨h, trivial⟩
  | @spawn p F T X pt D hp hle hpt hD =>
    refine hh.of_subset rfl fun q b h => ?_
    have hqp : q ≠ p := by
      rintro rfl
      obtain ⟨-, hs, he⟩ := h
      simp only [Function.update_self] at hs he
      rcases hpt b with h | h
      · simp [hs] at h
      · simp [he] at h
    unfold OnSwap at h ⊢
    simp only [Function.update_of_ne hqp] at h ⊢
    exact ⟨h, trivial⟩
  | table | pin | pinNone | unpin | bogus | written | flush =>
    exact hh.of_subset rfl fun _ _ h => ⟨h, rfl⟩

theorem Steps.slotInv (h : Steps M clash P P') (hs : SlotInv P) : SlotInv P' := by
  induction h with
  | refl => exact hs
  | tail _ hst ih => exact hst.slotInv ih

theorem Steps.held (h : Steps M false P P') (hs : SlotInv P) (hh : Held P) : Held P' := by
  induction h with
  | refl => exact hh
  | tail hst hstep ih => exact hstep.held (Steps.slotInv hst hs) ih

end Sos.Pool
