import Sos.Pool.Inv

/-!
# One owner for each frame

A frame is on the free list, in the entry of a resident page, on its way to disk, pinned, or part
of a page table or of a swap file. `own P f` counts in how many of these places `f` is. No step
makes it larger, except that of a page that is recorded as resident without having got a frame; as
long as `frame_alloc` has not failed there is no such page, and `own P f ≤ 1` for every frame.
-/

namespace Sos.Pool

variable {M : Set Nat} {clash : Bool} {P P' : Pool} {p q : Pid} {a b : Page} {e : Pte} {f : Nat}
variable {P₁ : Pool} {l : Multiset (Pid × Page)}

/-- In how many places a frame is. -/
def own (P : Pool) (f : Nat) : Nat :=
  P.free.count f + P.writing.count f + (if P.pinned = f then 1 else 0) +
    P.residentCount P.alloced f + ∑ p, ((P.tables p).count f + (P.elfs p).count f)

/-! ## Counting -/

/-- Two sums over the processes that differ at one of them only. -/
theorem sum_add_eq_sum_add {g h : Pid → Nat} (hgh : ∀ q, q ≠ p → g q = h q) :
    (∑ q, g q) + h p = (∑ q, h q) + g p := by
  have hg := Finset.add_sum_erase Finset.univ g (Finset.mem_univ p)
  have hh := Finset.add_sum_erase Finset.univ h (Finset.mem_univ p)
  have hrest : ∑ q ∈ Finset.univ.erase p, g q = ∑ q ∈ Finset.univ.erase p, h q :=
    Finset.sum_congr rfl fun q hq => hgh q (Finset.ne_of_mem_erase hq)
  omega

theorem residentCount_congr {Q : Pool} (h : ∀ x ∈ l, (Q.pte x.1 x.2).addr = (P.pte x.1 x.2).addr) :
    Q.residentCount l f = P.residentCount l f :=
  Multiset.countP_congr rfl fun x hx => by simp [h x hx]

/-- Changing an entry that is not recorded changes no count. -/
theorem residentCount_setPte (h : (p, a) ∉ l) :
    (P.setPte p a e).residentCount l f = P.residentCount l f := by
  refine residentCount_congr fun x hx => ?_
  have hne : ¬ (x.1 = p ∧ x.2 = a) := by
    rintro ⟨rfl, rfl⟩
    exact h hx
  rw [setPte_self_ne hne]

/-- Nor does changing an entry without changing its frame. -/
theorem residentCount_setPte_addr (h : e.addr = (P.pte p a).addr) :
    (P.setPte p a e).residentCount l f = P.residentCount l f := by
  refine residentCount_congr fun x _ => ?_
  rw [pte_setPte]
  split
  · next hx =>
    obtain ⟨rfl, rfl⟩ := hx
    exact h
  · rfl

theorem residentCount_cons (P : Pool) (x : Pid × Page) (l : Multiset (Pid × Page)) (f : Nat) :
    P.residentCount (x ::ₘ l) f =
      P.residentCount l f + if (P.pte x.1 x.2).addr = f then 1 else 0 := by
  unfold residentCount
  rw [Multiset.countP_cons]

theorem residentCount_split (P : Pool) (p : Pid) (f : Nat) :
    P.residentCount P.alloced f =
      P.residentCount (P.residents p) f + P.residentCount (P.alloced.filter (·.1 ≠ p)) f := by
  unfold residentCount residents
  rw [← Multiset.countP_add, Multiset.filter_add_not]

/-- Taking a frame off the free list. -/
theorem count_erase_add {s : Multiset Nat} {g : Nat} (hg : g ∈ s) :
    (s.erase g).count f + (if g = f then 1 else 0) = s.count f := by
  conv_rhs => rw [← Multiset.cons_erase hg]
  rw [Multiset.count_cons]
  simp only [eq_comm]

/-- Giving a frame back. -/
theorem count_freed_le (P : Pool) (g : Nat) :
    (P.freed g).count f ≤ P.free.count f + if g = f then 1 else 0 := by
  unfold freed
  split
  · simp
  · rw [Multiset.count_cons]
    simp only [eq_comm, le_refl]

/-! ## The invariant -/

/-- Every frame has one owner; what is recorded as resident is, and what is resident is recorded or
mapped directly to memory the frame allocator does not manage. -/
structure Own (M : Set Nat) (P : Pool) : Prop where
  unique : ∀ f, f ≠ 0 → P.own f ≤ 1
  managed : ∀ f, f ≠ 0 → 0 < P.own f → f ∈ M
  nodup : P.alloced.Nodup
  resident : ∀ x ∈ P.alloced, (P.pte x.1 x.2).swap = false ∧ (P.pte x.1 x.2).addr ≠ 0
  recorded : ∀ p a, (P.pte p a).swap = false → (P.pte p a).addr ≠ 0 →
    (p, a) ∈ P.alloced ∨ (P.pte p a).addr ∉ M
  direct : ∀ p a, P.direct p a → Page.addr a ∉ M

section Steps

variable (ho : Own M P)
include ho

/-- The two counting parts follow when no frame gains an owner. -/
theorem Own.of_le (hle : ∀ f, f ≠ 0 → P'.own f ≤ P.own f) (nodup : P'.alloced.Nodup)
    (resident : ∀ x ∈ P'.alloced, (P'.pte x.1 x.2).swap = false ∧ (P'.pte x.1 x.2).addr ≠ 0)
    (recorded : ∀ p a, (P'.pte p a).swap = false → (P'.pte p a).addr ≠ 0 →
      (p, a) ∈ P'.alloced ∨ (P'.pte p a).addr ∉ M)
    (direct : ∀ p a, P'.direct p a → Page.addr a ∉ M) : Own M P' where
  unique := fun f hf => (hle f hf).trans (ho.unique f hf)
  managed := fun f hf h => ho.managed f hf (h.trans_le (hle f hf))
  nodup := nodup
  resident := resident
  recorded := recorded
  direct := direct

/-- A step that changes neither entries nor records keeps the invariant if no frame gains an
owner. -/
theorem Own.of_frames (hpte : P'.pte = P.pte) (hall : P'.alloced = P.alloced)
    (hdir : P'.direct = P.direct) (hle : ∀ f, f ≠ 0 → P'.own f ≤ P.own f) : Own M P' :=
  ho.of_le hle (hall ▸ ho.nodup) (by rw [hpte, hall]; exact ho.resident)
    (by rw [hpte, hall]; exact ho.recorded) (by rw [hdir]; exact ho.direct)

/-- Resident entries after one of them has been written with the frame it had. -/
theorem Own.setPte_addr (hs : e.swap = (P.pte p a).swap)
    (ha : e.addr = (P.pte p a).addr) : Own M (P.setPte p a e) := by
  refine ho.of_le (fun f _ => ?_) ho.nodup ?_ ?_ ho.direct
  · show _ + (P.setPte p a e).residentCount P.alloced f + _ ≤ _
    rw [residentCount_setPte_addr ha]
    rfl
  · intro x hx
    rw [pte_setPte]
    split
    · next hxe =>
      obtain ⟨rfl, rfl⟩ := hxe
      rw [hs, ha]
      exact ho.resident x hx
    · exact ho.resident x hx
  · intro q b
    rw [pte_setPte]
    split
    · next hqb =>
      obtain ⟨rfl, rfl⟩ := hqb
      rw [hs, ha]
      exact ho.recorded q b
    · exact ho.recorded q b

/-- Mappings play no part in ownership. -/
theorem Own.setMmu {m : Option Nat} : Own M (P.setMmu p a m) :=
  ho.of_frames rfl rfl rfl fun _ _ => le_refl _

/-- A page that is not on disk and has no frame is not recorded. -/
theorem Own.notMem_of_addr (ha : (P.pte p a).addr = 0) : (p, a) ∉ P.alloced :=
  fun hm => (ho.resident _ hm).2 ha

theorem Own.notMem_of_swap (hs : (P.pte p a).swap = true) : (p, a) ∉ P.alloced := by
  intro hm
  have hr := (ho.resident _ hm).1
  simp [hs] at hr

/-- An entry that is not recorded may become one without a frame, or one with a frame that is not
managed. -/
theorem Own.setPte_notMem (hm : (p, a) ∉ P.alloced)
    (he : e.swap = true ∨ e.addr = 0 ∨ e.addr ∉ M) : Own M (P.setPte p a e) := by
  refine ho.of_le (fun f _ => ?_) ho.nodup ?_ ?_ ho.direct
  · show _ + (P.setPte p a e).residentCount P.alloced f + _ ≤ _
    rw [residentCount_setPte hm]
    rfl
  · intro x hx
    have hne : ¬ (x.1 = p ∧ x.2 = a) := by
      rintro ⟨rfl, rfl⟩
      exact hm hx
    rw [setPte_self_ne hne]
    exact ho.resident x hx
  · intro q b
    rw [pte_setPte]
    split
    · intro hs ha
      rcases he with he | he | he
      · simp [hs] at he
      · exact absurd he ha
      · exact Or.inr he
    · exact ho.recorded q b

/-! ## Steps keep it -/

theorem Own.table (hf : f ∈ P.free) :
    Own M { P with
      free := P.free.erase f
      tables := Function.update P.tables p (f ::ₘ P.tables p) } := by
  refine ho.of_frames rfl rfl rfl fun g _ => ?_
  have hsum := sum_add_eq_sum_add (p := p)
    (g := fun q => (Function.update P.tables p (f ::ₘ P.tables p) q).count g + (P.elfs q).count g)
    (h := fun q => (P.tables q).count g + (P.elfs q).count g)
    (fun q hq => by simp [hq])
  simp only [Function.update_self, Multiset.count_cons] at hsum
  have herase := count_erase_add (f := g) hf
  simp only [eq_comm (a := g)] at hsum
  unfold own residentCount
  dsimp only
  omega

theorem Own.pin (hf : f ∈ P.free) :
    Own M { P with free := P.free.erase f, pinned := f } := by
  refine ho.of_frames rfl rfl rfl fun g _ => ?_
  have herase := count_erase_add (f := g) hf
  unfold own residentCount
  dsimp only
  omega

theorem Own.unpin :
    Own M { P with free := P.freed P.pinned, pinned := 0 } := by
  refine ho.of_frames rfl rfl rfl fun g hg => ?_
  have hfreed := count_freed_le (f := g) P P.pinned
  unfold own residentCount
  dsimp only
  rw [if_neg (Ne.symm hg)]
  omega

theorem Own.pinNone : Own M { P with exhausted := true, pinned := 0 } := by
  refine ho.of_frames rfl rfl rfl fun g hg => ?_
  unfold own residentCount
  dsimp only
  rw [if_neg (Ne.symm hg)]
  omega

/-- A free frame goes to a page that had none. -/
theorem Own.fresh (h0 : 0 ∉ P.free) (ha : (P.pte p a).addr = 0) (hf : f ∈ P.free)
    (hP₁ : P₁ = { P with
      free := P.free.erase f, alloced := (p, a) ::ₘ P.alloced, limit := P₁.limit }) :
    Own M (P₁.setPte p a { addr := f, ref := true }) := by
  have hm := ho.notMem_of_addr ha
  have hf0 : f ≠ 0 := fun he => h0 (he ▸ hf)
  have hpte : P₁.pte = P.pte := by rw [hP₁]
  have hall : P₁.alloced = (p, a) ::ₘ P.alloced := by rw [hP₁]
  refine ho.of_le (fun g _ => ?_) ?_ ?_ ?_ ?_
  · have herase := count_erase_add (f := g) hf
    have hres : (P₁.setPte p a { addr := f, ref := true }).residentCount P₁.alloced g =
        P.residentCount P.alloced g + if f = g then 1 else 0 := by
      rw [hall, residentCount_cons, residentCount_setPte hm, pte_setPte]
      simp [residentCount, hpte]
    unfold own
    rw [setPte_alloced, hres, setPte_free, setPte_writing, setPte_pinned, setPte_tables,
      setPte_elfs, hP₁]
    dsimp only
    omega
  · rw [setPte_alloced, hall]
    exact Multiset.nodup_cons.mpr ⟨hm, ho.nodup⟩
  · intro x hx
    rw [setPte_alloced, hall] at hx
    rw [pte_setPte]
    split
    · exact ⟨rfl, hf0⟩
    · next hne =>
      rcases Multiset.mem_cons.mp hx with rfl | hx
      · simp at hne
      · rw [hpte]
        exact ho.resident x hx
  · intro q b
    rw [pte_setPte, setPte_alloced, hall]
    split
    · next hqb =>
      obtain ⟨rfl, rfl⟩ := hqb
      exact fun _ _ => Or.inl (Multiset.mem_cons_self _ _)
    · rw [hpte]
      intro hs hb
      exact (ho.recorded q b hs hb).imp (fun h => Multiset.mem_cons_of_mem h) id
  · rw [setPte_direct, hP₁]
    exact ho.direct

/-- A recorded page goes to disk: its frame is being written. -/
theorem Own.evict (hm : (p, a) ∈ P.alloced) (he : e.swap = true)
    (hP₁ : P₁ = { P with
      alloced := P.alloced.erase (p, a)
      swapped := P₁.swapped, head := P₁.head, usage := P₁.usage
      writing := (P.pte p a).addr ::ₘ P.writing }) :
    Own M (P₁.setPte p a e) := by
  have hnot : (p, a) ∉ P.alloced.erase (p, a) := fun h => (ho.nodup.mem_erase_iff.mp h).1 rfl
  have hpte : P₁.pte = P.pte := by rw [hP₁]
  have hall : P₁.alloced = P.alloced.erase (p, a) := by rw [hP₁]
  refine ho.of_le (fun g _ => ?_) ?_ ?_ ?_ ?_
  · have hcons := residentCount_cons P (p, a) (P.alloced.erase (p, a)) g
    rw [Multiset.cons_erase hm] at hcons
    dsimp only at hcons
    have hres : (P₁.setPte p a e).residentCount P₁.alloced g =
        P.residentCount (P.alloced.erase (p, a)) g := by
      rw [hall, residentCount_setPte hnot]
      exact residentCount_congr fun x _ => by rw [hpte]
    have hwr := Multiset.count_cons g (P.pte p a).addr P.writing
    simp only [eq_comm (a := g) (b := (P.pte p a).addr)] at hwr
    unfold own
    rw [setPte_alloced, hres, setPte_free, setPte_writing, setPte_pinned, setPte_tables,
      setPte_elfs, hP₁]
    dsimp only
    omega
  · rw [setPte_alloced, hall]
    exact ho.nodup.erase _
  · intro x hx
    rw [setPte_alloced, hall] at hx
    have hne : ¬ (x.1 = p ∧ x.2 = a) := by
      rintro ⟨rfl, rfl⟩
      exact hnot hx
    rw [setPte_self_ne hne, hpte]
    exact ho.resident x (Multiset.mem_of_mem_erase hx)
  · intro q b
    rw [pte_setPte, setPte_alloced, hall]
    split
    · intro hs
      simp [he] at hs
    · next hne =>
      rw [hpte]
      intro hs hb
      refine (ho.recorded q b hs hb).imp (fun h => ?_) id
      refine ho.nodup.mem_erase_iff.mpr ⟨fun he => hne ?_, h⟩
      simpa [Prod.ext_iff] using he
  · rw [setPte_direct, hP₁]
    exact ho.direct

theorem Own.written (hf : f ∈ P.writing) :
    Own M { P with writing := P.writing.erase f, free := P.freed f, limit := P.limit + 1 } := by
  refine ho.of_frames rfl rfl rfl fun g _ => ?_
  have herase := count_erase_add (f := g) hf
  have hfreed := count_freed_le (f := g) P f
  unfold own residentCount
  dsimp only
  omega

/-- A process ends and its frames go to the free list. -/
theorem Own.exit {F : Multiset Nat}
    (hF : ∀ f, f ≠ 0 → F.count f ≤ P.free.count f + P.residentCount (P.residents p) f +
      (P.tables p).count f + (P.elfs p).count f)
    (hP₁ : P₁ = { P with
      live := P₁.live, free := F, limit := P₁.limit
      alloced := P.alloced.filter (·.1 ≠ p)
      pte := Function.update P.pte p (fun _ => {})
      tables := Function.update P.tables p 0
      elfs := Function.update P.elfs p 0
      direct := Function.update P.direct p (fun _ => False)
      mmu := P₁.mmu }) : Own M P₁ := by
  have hpte : ∀ q, q ≠ p → P₁.pte q = P.pte q := fun q hq => by rw [hP₁]; simp [hq]
  have hall : P₁.alloced = P.alloced.filter (·.1 ≠ p) := by rw [hP₁]
  refine ho.of_le (fun g hg => ?_) ?_ ?_ ?_ ?_
  · have hsplit := residentCount_split P p g
    have hres : P₁.residentCount P₁.alloced g =
        P.residentCount (P.alloced.filter (·.1 ≠ p)) g := by
      rw [hall]
      exact residentCount_congr fun x hx => by rw [hpte x.1 (Multiset.mem_filter.mp hx).2]
    have hsum := sum_add_eq_sum_add (p := p)
      (g := fun q => (Function.update P.tables p 0 q).count g +
        (Function.update P.elfs p 0 q).count g)
      (h := fun q => (P.tables q).count g + (P.elfs q).count g)
      (fun q hq => by simp [hq])
    simp only [Function.update_self, Multiset.count_zero] at hsum
    have hFg := hF g hg
    unfold own
    rw [hres, hP₁]
    dsimp only
    omega
  · rw [hall]
    exact ho.nodup.filter _
  · intro x hx
    rw [hall] at hx
    obtain ⟨hx, hne⟩ := Multiset.mem_filter.mp hx
    rw [hpte x.1 hne]
    exact ho.resident x hx
  · intro q b hs hb
    have hne : q ≠ p := by
      rintro rfl
      rw [hP₁] at hb
      simp at hb
    rw [hpte q hne] at hs hb ⊢
    refine (ho.recorded q b hs hb).imp (fun h => ?_) id
    rw [hall]
    exact Multiset.mem_filter.mpr ⟨h, hne⟩
  · intro q b hd
    rw [hP₁] at hd
    by_cases hqp : q = p
    · subst hqp
      simp at hd
    · simp only [Function.update_of_ne hqp] at hd
      exact ho.direct q b hd

/-- A process begins with frames from the free list, and with pages that are empty or on disk. -/
theorem Own.spawn {F T X : Multiset Nat} {pt : Page → Pte} {D : Page → Prop}
    (hi : Inv P) (hp : P.live p = false) (hle : F + T + X ≤ P.free)
    (hpt : ∀ a, (pt a).swap = false ∧ (pt a).addr = 0 ∨ (pt a).swap ∧ (pt a).elf)
    (hD : ∀ a, D a → Page.addr a ∉ M)
    (hP₁ : P₁ = { P with
      live := P₁.live, free := F
      pte := Function.update P.pte p pt
      tables := Function.update P.tables p T
      elfs := Function.update P.elfs p X
      direct := Function.update P.direct p D
      mmu := P₁.mmu }) : Own M P₁ := by
  have hpte : ∀ q, q ≠ p → P₁.pte q = P.pte q := fun q hq => by rw [hP₁]; simp [hq]
  have hall : P₁.alloced = P.alloced := by rw [hP₁]
  have hne : ∀ x ∈ P.alloced, x.1 ≠ p := by
    intro x hx he
    have := hi.allocedLive x hx
    rw [he, hp] at this
    simp at this
  refine ho.of_le (fun g _ => ?_) ?_ ?_ ?_ ?_
  · have hres : P₁.residentCount P₁.alloced g = P.residentCount P.alloced g := by
      rw [hall]
      exact residentCount_congr fun x hx => by rw [hpte x.1 (hne x hx)]
    have hsum := sum_add_eq_sum_add (p := p)
      (g := fun q => (Function.update P.tables p T q).count g +
        (Function.update P.elfs p X q).count g)
      (h := fun q => (P.tables q).count g + (P.elfs q).count g)
      (fun q hq => by simp [hq])
    obtain ⟨hT, hX⟩ := hi.dead p hp
    simp only [Function.update_self, hT, hX, Multiset.count_zero] at hsum
    have hcount := Multiset.count_le_of_le g hle
    simp only [Multiset.count_add] at hcount
    unfold own
    rw [hres, hP₁]
    dsimp only
    omega
  · rw [hall]
    exact ho.nodup
  · intro x hx
    rw [hall] at hx
    rw [hpte x.1 (hne x hx)]
    exact ho.resident x hx
  · intro q b hs hb
    by_cases hqp : q = p
    · subst hqp
      have hq : P₁.pte q b = pt b := by rw [hP₁]; simp
      rw [hq] at hs hb
      rcases hpt b with h | h
      · exact absurd h.2 hb
      · simp [hs] at h
    · rw [hpte q hqp] at hs hb ⊢
      rw [hall]
      exact ho.recorded q b hs hb
  · intro q b hd
    rw [hP₁] at hd
    by_cases hqp : q = p
    · subst hqp
      simp only [Function.update_self] at hd
      exact hD b hd
    · simp only [Function.update_of_ne hqp] at hd
      exact ho.direct q b hd

end Steps

/-- **One step keeps ownership exclusive, unless it records a page without a frame.** -/
theorem Step.own (h : Step M clash P P') (hi : Inv P) (hex : P'.unbacked = false)
    (ho : Own M P) : Own M P' := by
  cases h with
  | table hp hf => exact ho.table hf
  | pin hf => exact ho.pin hf
  | pinNone hf => exact ho.pinNone
  | unpin => exact ho.unpin
  | @remap p a hp hs ha =>
    exact (ho.setPte_addr (e := { addr := (P.pte p a).addr, ref := true }) hs.symm rfl).setMmu
  | @direct p a hp hs ha hd =>
    exact (ho.setPte_notMem (ho.notMem_of_addr ha) (Or.inr (Or.inr (ho.direct p a hd)))).setMmu
  | fresh hp hs ha hf hl => exact (ho.fresh hi.zero_notMem ha hf rfl).setMmu
  | bogus hp hf hl => simp at hex
  | @second p a hp =>
    exact (ho.setPte_addr (e := { P.pte p a with ref := false }) rfl rfl).setMmu
  | evict hp hm hh => exact (ho.evict hm rfl rfl).setMmu
  | written hf => exact ho.written hf
  | @reload p a e S rs hp hs hes hea hsw hn hrs hc =>
    obtain ⟨h, s, u, he⟩ := foldl_freeSlot rs P
    rw [he]
    have hslots : Own M { P with head := h, slots := s, usage := u, swapped := S } :=
      ho.of_frames rfl rfl rfl fun _ _ => le_refl _
    exact hslots.setPte_notMem (ho.notMem_of_swap hs) (Or.inr (Or.inl hea))
  | exit hp h0 hF => exact ho.exit hF rfl
  | spawn hp hle hpt hD => exact ho.spawn hi hp hle hpt hD rfl
  | flush => exact ho.of_frames rfl rfl rfl fun _ _ => le_refl _

/-- A page recorded without a frame stays one, and `frame_alloc` has failed for it. -/
theorem Step.unbacked_cases (h : Step M clash P P') :
    P'.unbacked = P.unbacked ∧ (P'.exhausted = P.exhausted ∨ P'.exhausted = true) ∨
      P'.unbacked = true ∧ P'.exhausted = true := by
  cases h with
  | bogus hp hf hl => exact Or.inr ⟨rfl, rfl⟩
  | pinNone hf => exact Or.inl ⟨rfl, Or.inr rfl⟩
  | @reload p a e S rs _ _ _ _ _ _ _ _ =>
    obtain ⟨h, s, u, he⟩ := foldl_freeSlot rs P
    rw [he]
    exact Or.inl ⟨rfl, Or.inl rfl⟩
  | table | pin | unpin | remap | direct | fresh | second | evict | written | exit | spawn
  | flush =>
    exact Or.inl ⟨rfl, Or.inl rfl⟩

theorem Step.unbacked_mono (h : Step M clash P P') (hex : P'.unbacked = false) :
    P.unbacked = false := by
  obtain ⟨hu, -⟩ | ⟨hu, -⟩ := h.unbacked_cases
  · rw [← hu, hex]
  · rw [hu] at hex
    simp at hex

theorem Steps.exhausted_of_unbacked (h : Steps M clash P P')
    (hp : P.unbacked = true → P.exhausted = true) : P'.unbacked = true → P'.exhausted = true := by
  induction h with
  | refl => exact hp
  | tail _ hs ih =>
    obtain ⟨hu, he | he⟩ | ⟨-, he⟩ := hs.unbacked_cases
    · rw [hu, he]
      exact ih
    · exact fun _ => he
    · exact fun _ => he

theorem Steps.own (h : Steps M clash P P') (hi : Inv P)
    (ho : P.unbacked = false → Own M P) : P'.unbacked = false → Own M P' := by
  induction h with
  | refl => exact ho
  | tail hst hs ih =>
    intro hex
    exact hs.own (Steps.inv hst hi) hex (ih (hs.unbacked_mono hex))

end Sos.Pool
