import Sos.Heap
import Sos.Properties.FrameAllocator

/-!
# The kernel heap and the frames

`morecore` rounds the bytes it is asked for up to whole frames, but gets one frame. As long as that
is enough, blocks of the heap are made of frames that `morecore` got, whatever is allocated and
freed, and whatever the owners of blocks and of other frames write to them (`Heap.Sound`).

* `Heap.Sound` : the blocks, in use or not, do not overlap and are in the frames of the heap
* `Heap.Linked` : the free ones are on the list, in order
* `Heap.Run` : any sequence of calls and writes
-/

namespace Sos.Heap

open Frames SortedRings

variable {low high base : Nat} {s s' : Heap} {B F A : Finset Nat} {out : List Nat} {p q x y : Nat}

/-! ## Where things are -/

/-- Where the frames and `__malloc_base` are. `sos_find_memory` leaves a megabyte free above the
frames, so the variable is not right behind them, and they do not reach to the end of memory. -/
structure Layout (low high base : Nat) : Prop extends Range low high where
  high_lt : high < wordLimit
  base_pos : 0 < base
  base_lt : base + headerSize ≤ wordLimit
  base_outside : base + headerSize ≤ low ∨ high < base

/-- The frames of the heap and those handed out to others are lent by the frame allocator. -/
def Lent (low high : Nat) (s : Heap) (out : List Nat) : Prop :=
  Lends low high s.toFrames (s.heap ++ out)

/-- A header of the heap: `__malloc_base`, or one in a frame of the heap. -/
def OwnHeader (base : Nat) (s : Heap) (p : Nat) : Prop :=
  p = base ∨ p % headerSize = 0 ∧ pageAlign p ∈ s.heap

/-- A byte of a frame of the heap is inside the range. -/
theorem Lent.bounds (h : Lent low high s out) (lay : Layout low high base)
    (hx : pageAlign x ∈ s.heap) : low ≤ x ∧ x < high ∧ pageAlign x + pageSize ≤ high := by
  obtain ⟨⟨hle, hlt⟩, -⟩ := mem_pages.mp (h.mem_pages_of_mem (List.mem_append_left out hx))
  have hhigh := lay.high_aligned
  unfold pageAlign pageOffset pageSize at *
  omega

/-- The frames of the heap are not handed out to others. -/
theorem Lent.notMem_out (h : Lent low high s out) (hx : x ∈ s.heap) : x ∉ out := fun hout =>
  List.disjoint_of_nodup_append (Multiset.coe_nodup.mp h.shares.nodup) hx hout

/-- Headers do not overlap. -/
theorem Lent.apart (h : Lent low high s out) (lay : Layout low high base)
    (hp : OwnHeader base s p) (hq : OwnHeader base s q) (hne : p ≠ q) : p + 8 ≤ q ∨ q + 8 ≤ p := by
  have hbounds : ∀ x, x % headerSize = 0 → pageAlign x ∈ s.heap → low ≤ x ∧ x + 8 ≤ high := by
    intro x hx hmem
    have := h.bounds lay hmem
    unfold pageAlign pageSize headerSize at *
    omega
  have hout := lay.base_outside
  rcases hp with rfl | ⟨hp, hpm⟩ <;> rcases hq with rfl | ⟨hq, hqm⟩
  · exact absurd rfl hne
  · have := hbounds q hq hqm
    unfold headerSize at hout
    omega
  · have := hbounds p hp hpm
    unfold headerSize at hout
    omega
  · unfold headerSize at *
    omega

theorem Lent.header_lt (h : Lent low high s out) (lay : Layout low high base)
    (hp : OwnHeader base s p) : 0 < p ∧ p + 8 ≤ wordLimit := by
  rcases hp with rfl | ⟨hp, hpm⟩
  · exact ⟨lay.base_pos, lay.base_lt⟩
  · have hbounds := h.bounds lay hpm
    have hlow := lay.low_pos
    have hhigh := lay.high_lt
    unfold pageAlign pageSize headerSize at *
    omega

/-! ## Writing headers -/

section Headers

variable (h : Lent low high s out) (lay : Layout low high base) (hp : OwnHeader base s p)
include h lay hp

/-- Different words of headers do not overlap. -/
theorem readWord_header {a b : Nat} (hq : OwnHeader base s q) (ha : a = p ∨ a = p + 4)
    (hb : b = q ∨ b = q + 4) (hne : a ≠ b) :
    readWord (writeWord s.memory a x) b = readWord s.memory b := by
  refine readWord_writeWord_of_apart _ ?_
  by_cases hpq : p = q
  · omega
  · have := h.apart lay hp hq hpq
    omega

theorem ptr_setPtr (hq : OwnHeader base s q) (hx : x < wordLimit) :
    (s.setPtr p x).ptr q = Function.update s.ptr p x q := by
  by_cases hne : q = p
  · subst hne
    rw [Function.update_self]
    exact readWord_writeWord _ hx
  · rw [Function.update_of_ne hne]
    exact readWord_header h lay hp hq (.inl rfl) (.inl rfl) (Ne.symm hne)

theorem size_setSize (hq : OwnHeader base s q) (hx : x < wordLimit) :
    (s.setSize p x).size q = Function.update s.size p x q := by
  by_cases hne : q = p
  · subst hne
    rw [Function.update_self]
    exact readWord_writeWord _ hx
  · rw [Function.update_of_ne hne]
    exact readWord_header h lay hp hq (.inr rfl) (.inr rfl) (by omega)

theorem size_setPtr (hq : OwnHeader base s q) : (s.setPtr p x).size q = s.size q := by
  have hne : p ≠ q + 4 := fun he => by
    have := h.apart lay hp hq (by omega)
    omega
  exact readWord_header h lay hp hq (.inl rfl) (.inr rfl) hne

theorem ptr_setSize (hq : OwnHeader base s q) : (s.setSize p x).ptr q = s.ptr q := by
  have hne : p + 4 ≠ q := fun he => by
    have := h.apart lay hp hq (by omega)
    omega
  exact readWord_header h lay hp hq (.inr rfl) (.inl rfl) hne

/-- No link of a free frame is in a header. -/
theorem Lent.writeWord {a : Nat} (ha : p ≤ a) (ha' : a + 4 ≤ p + 8) :
    Lent low high { s with memory := Sos.writeWord s.memory a x } out where
  shares := h.shares.congr fun g hg hused => by
    obtain ⟨⟨hle, hlt⟩, hoff⟩ := mem_pages.mp hg
    have hg : a + 4 ≤ g ∨ g + 4 ≤ a := by
      rcases hp with rfl | ⟨hp, hpm⟩
      · have hout := lay.base_outside
        have hhigh := lay.high_aligned
        unfold headerSize pageOffset pageSize at *
        omega
      · have hne : pageAlign p ≠ g := fun he =>
          hused (Multiset.mem_coe.mpr (List.mem_append_left out (he ▸ hpm)))
        unfold headerSize pageAlign pageOffset pageSize at *
        omega
    exact readWord_writeWord_of_apart _ (by omega)
  inUse := h.inUse

end Headers

/-! ## Blocks -/

/-- The blocks `B` do not overlap and are in the frames of the heap. So were those that `morecore`
has made. -/
structure Sound (low high : Nat) (s : Heap) (B : Finset Nat) (out : List Nat) : Prop where
  lent : Lent low high s out
  packed : Packed s.len B
  aligned : ∀ p ∈ B, p % headerSize = 0
  header : ∀ p ∈ B, pageAlign p ∈ s.heap
  inHeap : ∀ p ∈ B, ∀ a, p ≤ a → a < p + s.len p → pageAlign a ∈ s.heap
  grown : ∀ b ∈ s.grown, ∀ a, b.1 ≤ a → a < b.1 + b.2 → pageAlign a ∈ s.heap

/-- `x->s.size += y->s.size; x->s.ptr = y->s.ptr`. -/
def absorbed (s : Heap) (x y : Nat) : Heap :=
  let s := s.setSize x ((s.size x + s.size y) % wordLimit)
  s.setPtr x (s.ptr y)

namespace Sound

variable (h : Sound low high s B out) (lay : Layout low high base)
include h

theorem ownHeader (hp : p ∈ B) : OwnHeader base s p := .inr ⟨h.aligned p hp, h.header p hp⟩

theorem ownHeader_of_mem_insert (hF : F ⊆ B) (hp : p ∈ insert base F) : OwnHeader base s p := by
  rcases Finset.mem_insert.mp hp with rfl | hp
  · exact .inl rfl
  · exact h.ownHeader (hF hp)

include lay

theorem bounds (hp : p ∈ B) : low ≤ p ∧ p + s.len p ≤ high := by
  have hheader := h.lent.bounds lay (h.header p hp)
  by_cases hlen : s.len p = 0
  · omega
  · have hlast := h.lent.bounds lay (h.inHeap p hp (p + s.len p - 1) (by omega) (by omega))
    omega

/-- A block ends where another one begins. -/
theorem plus_eq_iff (hp : p ∈ B) : plus p (s.size p) = q ↔ p + s.len p = q := by
  have hbounds := h.bounds lay hp
  have hhigh := lay.high_lt
  unfold plus
  rw [Nat.mod_eq_of_lt (show p + s.size p * headerSize < wordLimit by unfold len at hbounds; omega)]
  rfl

/-- `__malloc_base` is not a block, and no block ends there. -/
theorem ne_base (hp : p ∈ B) : p ≠ base ∧ p + s.len p ≠ base := by
  have hbounds := h.bounds lay hp
  have hout := lay.base_outside
  have hlt := (h.lent.bounds lay (h.header p hp)).2.1
  unfold headerSize at hout
  omega

theorem len_setSize (hx : x ∈ B) {n : Nat} (hn : n < wordLimit) (hq : q ∈ B) :
    (s.setSize x n).len q = Function.update s.len x (n * headerSize) q := by
  unfold len
  have hown : OwnHeader base s x := h.ownHeader hx
  rw [size_setSize h.lent lay hown (h.ownHeader hq) hn]
  by_cases hqx : q = x
  · subst hqx
    simp
  · simp [hqx]

theorem setPtr (hp : OwnHeader base s p) : Sound low high (s.setPtr p q) B out where
  lent := h.lent.writeWord lay hp (le_refl p) (by omega)
  packed := h.packed.congr fun x hx => by
    unfold len
    rw [size_setPtr h.lent lay hp (h.ownHeader hx)]
  aligned := h.aligned
  header := h.header
  inHeap := fun x hx => by
    unfold len
    rw [size_setPtr h.lent lay hp (h.ownHeader hx)]
    exact h.inHeap x hx
  grown := h.grown

/-- Joining two blocks that meet. -/
theorem join (hx : x ∈ B) (hy : y ∈ B) (hmeet : x + s.len x = y) :
    Sound low high (s.setSize x ((s.size x + s.size y) % wordLimit)) (B.erase y) out := by
  have hbounds := h.bounds lay hy
  have hfit : (s.size x + s.size y) * headerSize < wordLimit := by
    have := lay.high_lt
    unfold len headerSize at *
    omega
  have hmod : (s.size x + s.size y) % wordLimit = s.size x + s.size y :=
    Nat.mod_eq_of_lt (by unfold headerSize at hfit; omega)
  rw [hmod]
  have hlen : ∀ p ∈ B, (s.setSize x (s.size x + s.size y)).len p =
      Function.update s.len x (s.len x + s.len y) p := fun p hp => by
    rw [h.len_setSize lay hx (by unfold headerSize at hfit; omega) hp, Nat.add_mul]
    rfl
  refine ⟨h.lent.writeWord lay (h.ownHeader hx) (Nat.le_add_right ..) (le_refl _),
    (h.packed.join hx hy hmeet).congr fun p hp => hlen p (Finset.mem_of_mem_erase hp),
    fun p hp => h.aligned p (Finset.mem_of_mem_erase hp),
    fun p hp => h.header p (Finset.mem_of_mem_erase hp), fun p hp a ha ha' => ?_, h.grown⟩
  have hp := Finset.mem_of_mem_erase hp
  rw [hlen p hp] at ha'
  by_cases hpx : p = x
  · subst hpx
    rw [Function.update_self] at ha'
    by_cases hay : a < y
    · exact h.inHeap p hp a ha (by omega)
    · exact h.inHeap y hy a (by omega) (by omega)
  · rw [Function.update_of_ne hpx] at ha'
    exact h.inHeap p hp a ha ha'

/-- Setting the pointer of one header to another. -/
theorem pointed (hx : OwnHeader base s x) (hy : OwnHeader base s y) (hsize : s.size base = 0) :
    Sound low high (s.setPtr x y) B out ∧ (s.setPtr x y).size base = 0 ∧
      ∀ z, OwnHeader base s z → (s.setPtr x y).ptr z = Function.update s.ptr x y z := by
  have hlt := (h.lent.header_lt lay hy).2
  exact ⟨h.setPtr lay hx, (size_setPtr h.lent lay hx (.inl rfl)).trans hsize,
    fun z hz => ptr_setPtr h.lent lay hx hz (by omega)⟩

/-- A block takes over the next one on the list, which it meets. -/
theorem absorbed (hx : x ∈ B) (hy : y ∈ B) (hmeet : x + s.len x = y)
    (hnext : OwnHeader base s (s.ptr y)) (hsize : s.size base = 0) :
    Sound low high (s.absorbed x y) (B.erase y) out ∧ (s.absorbed x y).size base = 0 ∧
      ∀ z, OwnHeader base s z → (s.absorbed x y).ptr z = Function.update s.ptr x (s.ptr y) z := by
  have hown : OwnHeader base s x := h.ownHeader hx
  have hjoined := h.join lay hx hy hmeet
  unfold Heap.absorbed
  dsimp only
  rw [ptr_setSize h.lent lay hown (h.ownHeader hy)]
  obtain ⟨hs, hsize', hptr⟩ := hjoined.pointed lay hown hnext (by
    rw [size_setSize h.lent lay hown (.inl rfl) (Nat.mod_lt _ (by decide)),
      Function.update_of_ne (h.ne_base lay hx).1.symm, hsize])
  refine ⟨hs, hsize', fun z hz => (hptr z hz).trans ?_⟩
  by_cases hzx : z = x
  · rw [hzx, Function.update_self, Function.update_self]
  · rw [Function.update_of_ne hzx, Function.update_of_ne hzx, ptr_setSize h.lent lay hown hz]

end Sound

/-! ## `free` -/

/-- The blocks `F` are on the free list. -/
structure Linked (base : Nat) (s : Heap) (F : Finset Nat) : Prop where
  freep : s.freep ∈ insert base F
  ring : SortedRing s.ptr (insert base F)
  base_size : s.size base = 0

theorem linked_setFreep (hp : p ∈ insert base F) (hring : SortedRing s.ptr (insert base F))
    (hsize : s.size base = 0) : Linked base (s.setFreep p) F := ⟨hp, hring, hsize⟩

/-- The loop ends where the block belongs. -/
theorem freeLoop_spec {bp n : Nat} (hring : SortedRing s.ptr (insert base F))
    (hq : q ∈ insert base F) (hrun : s.freeLoop bp n q = some p) :
    p ∈ insert base F ∧ Between p (s.ptr p) bp := by
  induction n generalizing q with
  | zero => simp [freeLoop] at hrun
  | succ n ih =>
    unfold freeLoop at hrun
    split at hrun
    · next hmid =>
      obtain rfl := Option.some.inj hrun
      exact ⟨hq, .inl hmid⟩
    · split at hrun
      · next hend =>
        obtain rfl := Option.some.inj hrun
        exact ⟨hq, .inr hend⟩
      · exact ih (hring q hq).1 hrun

variable {bp : Nat}

/-- After the first half of `free` the block is on the list but for the link that leads to it. The
others in use are not touched. -/
theorem joinUpper_spec (h : Sound low high s B out) (lay : Layout low high base) (hF : F ⊆ B)
    (hring : SortedRing s.ptr (insert base F)) (hsize : s.size base = 0)
    (hp : p ∈ insert base F) (hbetween : Between p (s.ptr p) bp) (hbp : bp ∈ B) :
    ∃ F' B', Sound low high (s.joinUpper bp p) B' out ∧ F' ⊆ B' ∧
      SortedRing (Function.update (s.joinUpper bp p).ptr p bp) (insert base F') ∧
      (s.joinUpper bp p).size base = 0 ∧ p ∈ insert base F' ∧ bp ∈ F' ∧ p ≠ bp ∧
      ∀ x ∈ B, x ∉ F → x ≠ bp → x ∈ B' ∧ x ∉ F' := by
  have hbpF : bp ∉ insert base F := hring.notMem_of_between hp hbetween
  have hpbp : p ≠ bp := fun he => hbpF (he ▸ hp)
  have hq : s.ptr p ∈ insert base F := (hring p hp).1
  have hown : OwnHeader base s bp := h.ownHeader hbp
  have hheader : ∀ {x}, x ∈ insert base F → OwnHeader base s x := h.ownHeader_of_mem_insert hF
  have hheader' : ∀ {x}, x ∈ insert base (insert bp F) → OwnHeader base s x :=
    h.ownHeader_of_mem_insert (Finset.insert_subset hbp hF)
  have hinserted := hring.insert hp hbetween
  have heq : s.joinUpper bp p = if plus bp (s.size bp) = s.ptr p then s.absorbed bp (s.ptr p)
      else s.setPtr bp (s.ptr p) := by
    unfold joinUpper absorbed
    dsimp only
    rw [ptr_setSize h.lent lay hown (hheader hp)]
  rw [heq]
  split
  · next hmeet =>
    rw [h.plus_eq_iff lay hbp] at hmeet
    generalize hqdef : s.ptr p = q at *
    have hqbase : q ≠ base := hmeet ▸ (h.ne_base lay hbp).2
    have hqF : q ∈ F := (Finset.mem_insert.mp hq).resolve_left hqbase
    have hqbp : q ≠ bp := fun he => hbpF (he ▸ hq)
    -- Only `__malloc_base` can be alone on the list.
    have hqp : q ≠ p := by
      by_cases hpb : p = base
      · exact hpb ▸ hqbase
      · exact hqdef ▸ hring.next_ne_self hp (Finset.mem_insert_self base F) hpb
    obtain ⟨hs, hsize', hptr⟩ :=
      h.absorbed lay hbp (hF hqF) hmeet (hheader (hring q hq).1) hsize
    have hremoved := hinserted.remove (p := bp) (Finset.mem_insert_self ..)
      (by simpa [hpbp.symm] using hqbp)
    refine ⟨(insert bp F).erase q, B.erase q, hs,
      Finset.erase_subset_erase _ (Finset.insert_subset hbp hF), ?_, hsize', ?_,
      Finset.mem_erase.mpr ⟨hqbp.symm, Finset.mem_insert_self ..⟩, hpbp, fun x hx hxF hxbp => ?_⟩
    · -- Put in after `p`, then the one after it taken out.
      have hset : (insert bp (insert base F)).erase q = insert base ((insert bp F).erase q) := by
        rw [Finset.insert_comm, Finset.erase_insert_of_ne hqbase.symm]
      simp only [Function.update_of_ne hpbp.symm, Function.update_self, Function.update_of_ne hqp,
        Function.update_of_ne hqbp, hset] at hremoved
      refine hremoved.congr fun x hx => ?_
      have hx := hheader' (Finset.insert_subset_insert _ (Finset.erase_subset _ _) hx)
      by_cases hxp : x = p
      · simp [hxp, hpbp]
      · rw [Function.update_of_ne hxp, hptr x hx]
        by_cases hxbp : x = bp
        · simp [hxbp]
        · simp [hxbp, hxp]
    · simp only [Finset.mem_insert, Finset.mem_erase] at hp ⊢
      tauto
    · simp only [Finset.mem_insert, Finset.mem_erase]
      have hxq : x ≠ q := fun he => hxF (he ▸ hqF)
      tauto
  · obtain ⟨hs, hsize', hptr⟩ := h.pointed lay hown (hheader hq) hsize
    refine ⟨insert bp F, B, hs, Finset.insert_subset hbp hF, ?_, hsize', ?_,
      Finset.mem_insert_self .., hpbp, fun x hx hxF hxbp => ⟨hx, by simp [hxF, hxbp]⟩⟩
    · rw [Finset.insert_comm] at hinserted
      refine hinserted.congr fun x hx => ?_
      by_cases hxp : x = p
      · simp [hxp]
      · rw [Function.update_of_ne hxp, Function.update_of_ne hxp, hptr x (hheader' hx)]
    · simp only [Finset.mem_insert] at hp ⊢
      tauto

/-- The second half sets that link, or joins the block to the one before. -/
theorem joinLower_spec (h : Sound low high s B out) (lay : Layout low high base) (hF : F ⊆ B)
    (hring : SortedRing (Function.update s.ptr p bp) (insert base F)) (hsize : s.size base = 0)
    (hp : p ∈ insert base F) (hbp : bp ∈ F) (hne : p ≠ bp) :
    ∃ F' B', Sound low high (s.joinLower bp p) B' out ∧ F' ⊆ B' ∧
      SortedRing (s.joinLower bp p).ptr (insert base F') ∧ (s.joinLower bp p).size base = 0 ∧
      p ∈ insert base F' ∧ ∀ x ∈ B, x ∉ F → x ∈ B' ∧ x ∉ F' := by
  have hheader : ∀ {x}, x ∈ insert base F → OwnHeader base s x := h.ownHeader_of_mem_insert hF
  have hmem : bp ∈ insert base F := Finset.mem_insert_of_mem hbp
  have heq : s.joinLower bp p =
      if plus p (s.size p) = bp then s.absorbed p bp else s.setPtr p bp := rfl
  rw [heq]
  split
  · next hmeet =>
    have hpbase : p ≠ base := by
      rintro rfl
      have hlt := lay.base_lt
      rw [hsize, plus, Nat.zero_mul, Nat.add_zero,
        Nat.mod_eq_of_lt (by unfold headerSize at hlt; omega)] at hmeet
      exact hne hmeet
    have hpF : p ∈ F := (Finset.mem_insert.mp hp).resolve_left hpbase
    rw [h.plus_eq_iff lay (hF hpF)] at hmeet
    have hremoved := hring.remove (p := p) hp (by simpa using hne.symm)
    simp only [Function.update_self, Function.update_of_ne hne.symm, Function.update_idem,
      Finset.erase_insert_of_ne (h.ne_base lay (hF hbp)).1.symm] at hremoved
    have hnext : s.ptr bp ∈ insert base F := by
      have := (hring bp hmem).1
      rwa [Function.update_of_ne hne.symm] at this
    obtain ⟨hs, hsize', hptr⟩ := h.absorbed lay (hF hpF) (hF hbp) hmeet (hheader hnext) hsize
    refine ⟨F.erase bp, B.erase bp, hs, Finset.erase_subset_erase _ hF,
      hremoved.congr fun x hx => hptr x ?_, hsize', by simp [hpF, hne], fun x hx hxF => ?_⟩
    · exact hheader (Finset.insert_subset_insert _ (Finset.erase_subset _ _) hx)
    · simp only [Finset.mem_erase]
      have hxbp : x ≠ bp := fun he => hxF (he ▸ hbp)
      tauto
  · obtain ⟨hs, hsize', hptr⟩ := h.pointed lay (hheader hp) (hheader hmem) hsize
    exact ⟨F, B, hs, hF, hring.congr fun x hx => hptr x (hheader hx), hsize', hp,
      fun x hx hxF => ⟨hx, hxF⟩⟩

/-- The state of the heap: the blocks `F` are free, the blocks `A` in use, and the frames `out`
handed out to others. -/
structure Inv (low high base : Nat) (s : Heap) (F A : Finset Nat) (out : List Nat) : Prop where
  sound : Sound low high s (F ∪ A) out
  disjoint : Disjoint F A
  linked : Linked base s F

theorem Sound.mono {B' : Finset Nat} (h : Sound low high s B out) (hsub : B' ⊆ B) :
    Sound low high s B' out :=
  ⟨h.lent, h.packed.mono hsub, fun p hp => h.aligned p (hsub hp), fun p hp => h.header p (hsub hp),
    fun p hp => h.inHeap p (hsub hp), h.grown⟩

theorem Sound.setFreep (h : Sound low high s B out) (p : Nat) :
    Sound low high (s.setFreep p) B out :=
  ⟨h.lent, h.packed, h.aligned, h.header, h.inHeap, h.grown⟩

namespace Inv

variable (h : Inv low high base s F A out) (lay : Layout low high base)
include h lay

theorem freep_ne : s.freep ≠ 0 := by
  have hown := h.sound.ownHeader_of_mem_insert (F := F) Finset.subset_union_left h.linked.freep
  exact (h.sound.lent.header_lt lay hown).1.ne'

theorem start_eq : s.start base = s := if_neg (h.freep_ne lay)

/-- The pointer behind the header. -/
theorem plus_one (hx : x ∈ F ∪ A) : plus x 1 = x + headerSize := by
  have hbounds := h.sound.lent.bounds lay (h.sound.header x hx)
  have halign := h.sound.aligned x hx
  have hhigh := lay.high_lt
  unfold plus pageAlign pageSize headerSize at *
  exact Nat.mod_eq_of_lt (by omega)

/-- Freeing a block in use. -/
theorem free {n : Nat} (hbp : bp ∈ A) (hrun : s.free n base (bp + headerSize) = some s') :
    ∃ F', Inv low high base s' F' (A.erase bp) out := by
  have hmem : bp ∈ F ∪ A := Finset.mem_union_right F hbp
  have hF : F ⊆ F ∪ A := Finset.subset_union_left
  have hlt := (h.sound.bounds lay hmem).2
  have hhigh := lay.high_lt
  have hap : headerOf (bp + headerSize) = bp := by
    unfold headerOf headerSize wordLimit at *
    omega
  unfold Heap.free at hrun
  rw [if_neg (by unfold headerSize; omega)] at hrun
  simp only [h.start_eq lay, hap] at hrun
  obtain ⟨p, hloop, rfl⟩ := Option.map_eq_some_iff.mp hrun
  obtain ⟨hp, hbetween⟩ := freeLoop_spec h.linked.ring h.linked.freep hloop
  obtain ⟨F₁, B₁, hs₁, hF₁, hring₁, hsize₁, hp₁, hbp₁, hne, hkeep₁⟩ :=
    joinUpper_spec h.sound lay hF h.linked.ring h.linked.base_size hp hbetween hmem
  obtain ⟨F₂, B₂, hs₂, hF₂, hring₂, hsize₂, hp₂, hkeep₂⟩ :=
    joinLower_spec hs₁ lay hF₁ hring₁ hsize₁ hp₁ hbp₁ hne
  have hkeep : ∀ x ∈ A.erase bp, x ∈ B₂ ∧ x ∉ F₂ := fun x hx => by
    obtain ⟨hxbp, hxA⟩ := Finset.mem_erase.mp hx
    have hxF : x ∉ F := fun hxF => Finset.disjoint_left.mp h.disjoint hxF hxA
    obtain ⟨hx₁, hxF₁⟩ := hkeep₁ x (Finset.mem_union_right F hxA) hxF hxbp
    exact hkeep₂ x hx₁ hxF₁
  exact ⟨F₂, (hs₂.setFreep p).mono (Finset.union_subset hF₂ fun x hx => (hkeep x hx).1),
    Finset.disjoint_right.mpr fun x hx => (hkeep x hx).2, linked_setFreep hp₂ hring₂ hsize₂⟩

end Inv

/-! ## `morecore` -/

/-- The units asked for, in bytes and rounded up, are one frame at most. Both the product and the
sum in `round_up` are taken modulo 2³². -/
def FrameSized (nu : Nat) : Prop :=
  nu * headerSize % wordLimit ≤ pageSize ∨ wordLimit - pageSize < nu * headerSize % wordLimit

instance (nu : Nat) : Decidable (FrameSized nu) := inferInstanceAs (Decidable (_ ∨ _))

theorem frameSized_iff {nu : Nat} : FrameSized nu ↔ morecoreBytes nu ≤ pageSize := by
  have hlt : nu * headerSize % wordLimit < wordLimit := Nat.mod_lt _ (by decide)
  unfold FrameSized morecoreBytes roundUp
  generalize nu * headerSize % wordLimit = v at *
  unfold nalloc pageSize wordLimit at *
  omega

/-- The first free frame has been handed out to `morecore`, for a block of `nb` bytes. -/
def granted (s : Heap) (nb : Nat) : Heap :=
  { s with
    toFrames := s.toFrames.frameAlloc.2
    heap := s.firstFree :: s.heap
    grown := (s.firstFree, nb) :: s.grown }

theorem memory_granted {nb : Nat} (hne : s.firstFree ≠ 0) : (s.granted nb).memory = s.memory := by
  unfold granted
  rw [frameAlloc_of_ne hne]

section Granted

variable {nb : Nat} (h : Sound low high s B out) (hne : s.firstFree ≠ 0)
include h hne

theorem Sound.lent_granted : Lent low high (s.granted nb) out := by
  have hlends := (Lends.frameAlloc h.lent (by rw [frameAlloc_of_ne hne]; exact hne)).2.2
  rw [frameAlloc_of_ne hne] at hlends
  unfold Lent granted
  rw [frameAlloc_of_ne hne]
  exact hlends

/-- The frame is a new one. -/
theorem Sound.firstFree : pageAlign s.firstFree = s.firstFree ∧ s.firstFree ∉ s.heap ∧
    low ≤ s.firstFree ∧ s.firstFree < high := by
  obtain ⟨hpage, hnew, -⟩ := Lends.frameAlloc h.lent (by rw [frameAlloc_of_ne hne]; exact hne)
  rw [frameAlloc_of_ne hne] at hpage hnew
  obtain ⟨hrange, hoff⟩ := mem_pages.mp hpage
  refine ⟨?_, fun hmem => hnew (List.mem_append_left out hmem), hrange⟩
  unfold pageAlign pageOffset pageSize at *
  dsimp only at hoff
  omega

theorem Sound.firstFree_notMem : s.firstFree ∉ B := fun hmem => by
  obtain ⟨hpage, hnew, -⟩ := h.firstFree hne
  exact hnew (hpage ▸ h.header _ hmem)

theorem Sound.ownHeader_firstFree : OwnHeader base (s.granted nb) s.firstFree := by
  have hpage := (h.firstFree hne).1
  refine .inr ⟨?_, by simp [granted, hpage]⟩
  unfold pageAlign pageSize headerSize at *
  omega

end Granted

theorem OwnHeader.granted {nb : Nat} (h : OwnHeader base s p) : OwnHeader base (s.granted nb) p :=
  h.imp_right fun h => ⟨h.1, List.mem_cons_of_mem _ h.2⟩

/-- The bytes of a frame. -/
theorem pageAlign_of_lt {f a : Nat} (hf : pageAlign f = f) (ha : f ≤ a) (hlt : a < f + pageSize) :
    pageAlign a = f := by
  have hdiv : a / pageSize = f / pageSize := by
    unfold pageAlign pageSize at *
    omega
  rw [pageAlign, hdiv]
  exact hf

/-- The frame with its header is a block like the others. -/
theorem Sound.granted {nb : Nat} (h : Sound low high s B out) (lay : Layout low high base)
    (hne : s.firstFree ≠ 0) (hnb : nb ≤ pageSize) (hdvd : nb % headerSize = 0) :
    Sound low high ((s.granted nb).setSize s.firstFree (nb / headerSize)) (insert s.firstFree B)
      out := by
  have hlent : Lent low high (s.granted nb) out := h.lent_granted hne
  have hown : OwnHeader base (s.granted nb) s.firstFree := h.ownHeader_firstFree hne
  obtain ⟨hpage, hnew, -⟩ := h.firstFree hne
  have hnot := h.firstFree_notMem hne
  have hm : nb / headerSize < wordLimit := by
    unfold pageSize headerSize wordLimit at *
    omega
  have hlen : ∀ x ∈ B, ((s.granted nb).setSize s.firstFree (nb / headerSize)).len x = s.len x := by
    intro x hx
    have hxf : x ≠ s.firstFree := fun he => hnot (he ▸ hx)
    unfold len
    rw [size_setSize hlent lay hown (h.ownHeader hx).granted hm, Function.update_of_ne hxf, size,
      memory_granted hne]
    rfl
  have hlenf : ((s.granted nb).setSize s.firstFree (nb / headerSize)).len s.firstFree = nb := by
    unfold len
    rw [size_setSize hlent lay hown hown hm, Function.update_self]
    unfold headerSize at *
    omega
  -- The bytes of the new block are those of its frame.
  have hblock : ∀ a, s.firstFree ≤ a → a < s.firstFree + nb →
      pageAlign a ∈ s.firstFree :: s.heap := fun a ha ha' => by
    rw [pageAlign_of_lt hpage ha (by omega)]
    exact List.mem_cons_self ..
  refine ⟨hlent.writeWord lay hown (Nat.le_add_right ..) (le_refl _), fun x hx y hy hlt => ?_,
    (Finset.forall_mem_insert _ _ _).mpr ⟨?_, h.aligned⟩,
    (Finset.forall_mem_insert _ _ _).mpr ⟨?_, fun x hx => List.mem_cons_of_mem _ (h.header x hx)⟩,
    fun x hx a ha ha' => ?_, fun b hb a ha ha' => ?_⟩
  · rcases Finset.mem_insert.mp hx with rfl | hx
    · have hy := (Finset.mem_insert.mp hy).resolve_left hlt.ne'
      have hyx : pageAlign y ≠ s.firstFree := fun he => hnew (he ▸ h.header y hy)
      rw [hlenf]
      by_contra hover
      exact hyx (pageAlign_of_lt hpage hlt.le (by omega))
    · rw [hlen x hx]
      rcases Finset.mem_insert.mp hy with rfl | hy
      · by_contra hover
        exact hnew (hpage ▸ h.inHeap x hx _ hlt.le (by omega))
      · exact h.packed x hx y hy hlt
  · unfold pageAlign pageSize headerSize at *
    omega
  · rw [hpage]
    exact List.mem_cons_self ..
  · rcases Finset.mem_insert.mp hx with rfl | hx
    · exact hblock a ha (by omega)
    · rw [hlen x hx] at ha'
      exact List.mem_cons_of_mem _ (h.inHeap x hx a ha ha')
  · rcases List.mem_cons.mp hb with rfl | hb
    · exact hblock a ha ha'
    · exact List.mem_cons_of_mem _ (h.grown b hb a ha ha')

/-- The new block is one in use. -/
theorem Inv.granted {nb : Nat} (h : Inv low high base s F A out) (lay : Layout low high base)
    (hne : s.firstFree ≠ 0) (hnb : nb ≤ pageSize) (hdvd : nb % headerSize = 0) :
    s.firstFree ∉ A ∧ Inv low high base ((s.granted nb).setSize s.firstFree (nb / headerSize)) F
      (insert s.firstFree A) out := by
  have hnot := h.sound.firstFree_notMem hne
  have hlent : Lent low high (s.granted nb) out := h.sound.lent_granted hne
  have hown : OwnHeader base (s.granted nb) s.firstFree := h.sound.ownHeader_firstFree hne
  have hbase : base ≠ s.firstFree := by
    have hout := lay.base_outside
    obtain ⟨-, -, hrange⟩ := h.sound.firstFree hne
    unfold headerSize at hout
    omega
  have hm : nb / headerSize < wordLimit := by
    unfold pageSize headerSize wordLimit at *
    omega
  refine ⟨fun hA => hnot (Finset.mem_union_right F hA), ?_, ?_, ?_, ?_, ?_⟩
  · rw [Finset.union_insert]
    exact h.sound.granted lay hne hnb hdvd
  · rw [Finset.disjoint_insert_right]
    exact ⟨fun hF => hnot (Finset.mem_union_left A hF), h.disjoint⟩
  · exact h.linked.freep
  · refine h.linked.ring.congr fun x hx => ?_
    have hx := h.sound.ownHeader_of_mem_insert (F := F) Finset.subset_union_left hx
    rw [ptr_setSize hlent lay hown hx.granted, ptr, memory_granted hne]
    rfl
  · rw [size_setSize hlent lay hown (.inl rfl) hm, Function.update_of_ne hbase, size,
      memory_granted hne]
    exact h.linked.base_size

/-- `morecore` returns NULL if there is no frame; else the new block is put on the list. -/
theorem Inv.morecore {n nu r : Nat} (h : Inv low high base s F A out) (lay : Layout low high base)
    (hfit : FrameSized nu ∨ s.firstFree = 0) (hrun : s.morecore n base nu = some (r, s')) :
    (r = 0 ∧ s' = s) ∨ r ≠ 0 ∧ FrameSized nu ∧ r = s'.freep ∧
    ∃ F', Inv low high base s' F' A out := by
  unfold Heap.morecore at hrun
  by_cases hz : s.firstFree = 0
  · have halloc := frameAlloc_of_empty hz
    simp only [halloc, if_true, Option.some.injEq, Prod.mk.injEq] at hrun
    exact .inl ⟨hrun.1.symm, hrun.2.symm⟩
  · have halloc : s.toFrames.frameAlloc.1 = s.firstFree := by rw [frameAlloc_of_ne hz]
    have hsized := hfit.resolve_right hz
    obtain ⟨hnew, hext⟩ := h.granted lay hz (frameSized_iff.mp hsized) (by
      unfold morecoreBytes roundUp nalloc headerSize
      omega)
    simp only [halloc, if_neg hz] at hrun
    obtain ⟨s₁, hfree, heq⟩ := Option.map_eq_some_iff.mp hrun
    obtain ⟨rfl, rfl⟩ := Prod.mk.inj heq
    have hmem : s.firstFree ∈ F ∪ insert s.firstFree A := by simp
    rw [hext.plus_one lay hmem] at hfree
    obtain ⟨F', h'⟩ := hext.free lay (Finset.mem_insert_self ..) hfree
    rw [Finset.erase_insert hnew] at h'
    exact .inr ⟨h'.freep_ne lay, hsized, rfl, F', h'⟩

/-! ## `malloc` -/

variable {nunits prevp : Nat}

/-- The tail end of a block becomes a block. -/
theorem Sound.split (h : Sound low high s B out) (lay : Layout low high base) (hp : p ∈ B)
    (hpos : 0 < nunits) (hlt : nunits < s.size p) :
    p + (s.size p - nunits) * headerSize ∉ B ∧
      Sound low high ((s.setSize p (s.size p - nunits)).setSize
        (p + (s.size p - nunits) * headerSize) nunits)
        (insert (p + (s.size p - nunits) * headerSize) B) out ∧
      OwnHeader base s (p + (s.size p - nunits) * headerSize) := by
  have hlen : s.len p = (s.size p - nunits) * headerSize + nunits * headerSize := by
    unfold len headerSize
    omega
  have hbounds := h.bounds lay hp
  have hfit : s.size p < wordLimit := by
    have := lay.high_lt
    unfold len headerSize at *
    omega
  obtain ⟨hnew, hpacked⟩ := h.packed.split hp (n := (s.size p - nunits) * headerSize)
    (by unfold headerSize; omega) (by unfold headerSize at *; omega)
  generalize ht : p + (s.size p - nunits) * headerSize = t at *
  have htmem : pageAlign t ∈ s.heap := h.inHeap p hp t (by omega) (by unfold headerSize at *; omega)
  have htalign : t % headerSize = 0 := by
    have := h.aligned p hp
    unfold headerSize at *
    omega
  have htown : OwnHeader base s t := .inr ⟨htalign, htmem⟩
  have hpown : OwnHeader base s p := h.ownHeader hp
  have hlent : Lent low high (s.setSize p (s.size p - nunits)) out :=
    h.lent.writeWord lay hpown (Nat.le_add_right p 4) (le_refl _)
  have hlen' : ∀ x ∈ insert t B, ((s.setSize p (s.size p - nunits)).setSize t nunits).len x =
      Function.update (Function.update s.len t (s.len p - (s.size p - nunits) * headerSize)) p
        ((s.size p - nunits) * headerSize) x := fun x hx => by
    have hx : OwnHeader base s x :=
      (Finset.forall_mem_insert _ _ _).mpr ⟨htown, fun x hx => h.ownHeader hx⟩ x hx
    have hpt : p ≠ t := fun he => hnew (he ▸ hp)
    unfold len at *
    rw [size_setSize hlent lay htown hx (by omega)]
    by_cases hxt : x = t
    · subst hxt
      rw [Function.update_self, Function.update_of_ne hpt.symm, Function.update_self]
      omega
    · rw [Function.update_of_ne hxt, size_setSize h.lent lay hpown hx (by omega)]
      by_cases hxp : x = p
      · subst hxp
        rw [Function.update_self, Function.update_self]
      · rw [Function.update_of_ne hxp, Function.update_of_ne hxp, Function.update_of_ne hxt]
  refine ⟨hnew, ⟨hlent.writeWord lay htown (Nat.le_add_right ..) (le_refl _), hpacked.congr hlen',
    (Finset.forall_mem_insert _ _ _).mpr ⟨htalign, h.aligned⟩,
    (Finset.forall_mem_insert _ _ _).mpr ⟨htmem, h.header⟩, fun x hx a ha ha' => ?_, h.grown⟩,
    htown⟩
  · rw [hlen' x hx] at ha'
    have hpt : p ≠ t := fun he => hnew (he ▸ hp)
    rcases Finset.mem_insert.mp hx with rfl | hx
    · rw [Function.update_of_ne hpt.symm, Function.update_self] at ha'
      exact h.inHeap p hp a (by omega) (by omega)
    · refine h.inHeap x hx a ha ?_
      by_cases hxp : x = p
      · subst hxp
        rw [Function.update_self] at ha'
        omega
      · have hxt : x ≠ t := fun he => hnew (he ▸ hx)
        rwa [Function.update_of_ne hxp, Function.update_of_ne hxt] at ha'

/-- A block that is big enough is taken, or its tail end. -/
theorem Inv.take (h : Inv low high base s F A out) (lay : Layout low high base)
    (hprevp : prevp ∈ insert base F) (hnext : s.ptr prevp = p) (hpos : 0 < nunits)
    (hbig : nunits ≤ s.size p) :
    ∃ x F', x ∉ A ∧ (s.take nunits prevp p).1 = x + headerSize ∧
      Inv low high base (s.take nunits prevp p).2 F' (insert x A) out := by
  have hp : p ∈ insert base F := hnext ▸ (h.linked.ring prevp hprevp).1
  have hpbase : p ≠ base := by
    rintro rfl
    rw [h.linked.base_size] at hbig
    omega
  have hpF : p ∈ F := (Finset.mem_insert.mp hp).resolve_left hpbase
  have hpB : p ∈ F ∪ A := Finset.mem_union_left A hpF
  have hheader : ∀ {x}, x ∈ insert base F → OwnHeader base s x :=
    h.sound.ownHeader_of_mem_insert Finset.subset_union_left
  unfold Heap.take
  split
  · have hne : s.ptr prevp ≠ prevp := by
      by_cases hb : prevp = base
      · rw [hnext, hb]
        exact hpbase
      · exact h.linked.ring.next_ne_self hprevp (Finset.mem_insert_self base F) hb
    have hremoved := h.linked.ring.remove hprevp hne
    rw [hnext, Finset.erase_insert_of_ne hpbase.symm] at hremoved
    obtain ⟨hs, hsize', hptr⟩ := h.sound.pointed lay (hheader hprevp)
      (hheader (h.linked.ring p hp).1) h.linked.base_size
    have hset : F.erase p ∪ insert p A = F ∪ A := by
      rw [Finset.union_insert, ← Finset.insert_union, Finset.insert_erase hpF]
    refine ⟨p, F.erase p, fun hA => Finset.disjoint_left.mp h.disjoint hpF hA,
      h.plus_one lay hpB, ?_, ?_, ?_, hremoved.congr fun x hx => hptr x (hheader ?_), hsize'⟩
    · rw [hset]
      exact hs.setFreep prevp
    · rw [Finset.disjoint_insert_right]
      exact ⟨by simp, Finset.disjoint_of_subset_left (Finset.erase_subset _ _) h.disjoint⟩
    · rw [← Finset.erase_insert_of_ne hpbase.symm]
      exact Finset.mem_erase.mpr ⟨hnext ▸ hne.symm, hprevp⟩
    · exact Finset.insert_subset_insert _ (Finset.erase_subset _ _) hx
  · next hexact =>
    have hpown := hheader hp
    have hfit : p + (s.size p - nunits) * headerSize < wordLimit ∧ s.size p < wordLimit := by
      have hbounds := h.sound.bounds lay hpB
      have hhigh := lay.high_lt
      unfold len headerSize at *
      omega
    have hrest : (s.setSize p (s.size p - nunits)).size p = s.size p - nunits := by
      rw [size_setSize h.sound.lent lay hpown hpown (by omega), Function.update_self]
    have hplus : plus p (s.size p - nunits) = p + (s.size p - nunits) * headerSize :=
      Nat.mod_eq_of_lt hfit.1
    obtain ⟨hnew, hsound, htown⟩ := h.sound.split lay hpB hpos (by omega)
    dsimp only
    rw [hrest, hplus]
    generalize p + (s.size p - nunits) * headerSize = t at *
    have hlent : Lent low high (s.setSize p (s.size p - nunits)) out :=
      h.sound.lent.writeWord lay hpown (Nat.le_add_right p 4) (le_refl _)
    have htbase : base ≠ t := (hsound.ne_base lay (Finset.mem_insert_self ..)).1.symm
    have hinv : Inv low high base
        (((s.setSize p (s.size p - nunits)).setSize t nunits).setFreep prevp) F
          (insert t A) out := by
      refine ⟨?_, ?_, hprevp, h.linked.ring.congr fun x hx => ?_, ?_⟩
      · rw [Finset.union_insert]
        exact hsound.setFreep prevp
      · rw [Finset.disjoint_insert_right]
        exact ⟨fun hF => hnew (Finset.mem_union_left A hF), h.disjoint⟩
      · exact (ptr_setSize hlent lay htown (hheader hx)).trans
          (ptr_setSize h.sound.lent lay hpown (hheader hx))
      · refine (size_setSize hlent lay htown (.inl rfl) (by omega)).trans ?_
        rw [Function.update_of_ne htbase, size_setSize h.sound.lent lay hpown (.inl rfl) (by omega),
          Function.update_of_ne hpbase.symm, h.linked.base_size]
    exact ⟨t, F, fun hA => hnew (Finset.mem_union_right F hA), hinv.plus_one lay (by simp), hinv⟩

/-- The block comes at last: from a frame, or a block on the list before the loop is back where it
began; or there is no frame. -/
def Supplied (s : Heap) (nunits p : Nat) : Prop :=
  FrameSized nunits ∨ s.firstFree = 0 ∨
    ∃ m, nunits ≤ s.size (s.ptr^[m] p) ∧ ∀ j < m, s.ptr^[j] p ≠ s.freep

theorem Inv.mallocLoop {n r : Nat} (h : Inv low high base s F A out) (lay : Layout low high base)
    (hprevp : prevp ∈ insert base F) (hnext : s.ptr prevp = p) (hpos : 0 < nunits)
    (hsup : s.Supplied nunits p) (hrun : mallocLoop base nunits n prevp p s = some (r, s')) :
    (r = 0 ∧ ∃ F', Inv low high base s' F' A out) ∨
      ∃ x F', x ∉ A ∧ r = x + headerSize ∧ Inv low high base s' F' (insert x A) out := by
  induction n generalizing s F prevp p with
  | zero => simp [Heap.mallocLoop] at hrun
  | succ n ih =>
    have hp : p ∈ insert base F := hnext ▸ (h.linked.ring prevp hprevp).1
    unfold Heap.mallocLoop at hrun
    split at hrun
    · next hbig =>
      obtain ⟨x, F', hx, hr, h'⟩ := h.take lay hprevp hnext hpos hbig
      rw [Option.some.inj hrun] at hr h'
      exact .inr ⟨x, F', hx, hr, h'⟩
    · next hsmall =>
      split at hrun
      · next hwrapped =>
        -- A block on the list would have been met before.
        have hfit : FrameSized nunits ∨ s.firstFree = 0 := by
          rcases hsup with hsup | hsup | ⟨m, hm, hbefore⟩
          · exact .inl hsup
          · exact .inr hsup
          · cases m with
            | zero => exact absurd hm hsmall
            | succ m => exact absurd hwrapped (hbefore 0 (by omega))
        split at hrun
        · simp at hrun
        · next q s₁ hmore =>
          rcases h.morecore lay hfit hmore with ⟨rfl, rfl⟩ | ⟨hq, hsized, rfl, F₁, h₁⟩
          · rw [if_pos rfl] at hrun
            obtain ⟨rfl, rfl⟩ := Prod.mk.inj (Option.some.inj hrun)
            exact .inl ⟨rfl, F, h⟩
          · rw [if_neg hq] at hrun
            exact ih h₁ h₁.linked.freep rfl (.inl hsized) hrun
      · next hgoes =>
        refine ih h hp rfl ?_ hrun
        rcases hsup with hsup | hsup | ⟨m, hm, hbefore⟩
        · exact .inl hsup
        · exact .inr (.inl hsup)
        · cases m with
          | zero => exact absurd hm hsmall
          | succ m =>
            refine .inr (.inr ⟨m, hm, fun j hj => ?_⟩)
            exact hbefore (j + 1) (by omega)

/-- The request needs no block that is bigger than a frame: it is small enough, there is no frame,
or a block on the list is big enough. -/
def Serves (s : Heap) (nbytes : UInt32) : Prop :=
  FrameSized (unitsFor nbytes.toNat) ∨ s.firstFree = 0 ∨
    s.freep ≠ 0 ∧ ∃ m, unitsFor nbytes.toNat ≤ s.size (s.ptr^[m + 1] s.freep)

theorem Serves.supplied {nbytes : UInt32} (h : s.Serves nbytes) :
    s.Supplied (unitsFor nbytes.toNat) (s.ptr s.freep) := by
  rcases h with h | h | ⟨-, h⟩
  · exact .inl h
  · exact .inr (.inl h)
  -- The first block that is big enough is met before the loop has gone round.
  · refine .inr (.inr ⟨Nat.find h, Nat.find_spec h, fun j hj hback => ?_⟩)
    refine Nat.find_min h (m := Nat.find h - (j + 1)) (by omega) ?_
    have hsplit : Nat.find h + 1 = Nat.find h - (j + 1) + 1 + (j + 1) := by omega
    have hbig := Nat.find_spec h
    rwa [hsplit, Function.iterate_add_apply, Function.iterate_succ_apply s.ptr j, hback] at hbig

/-! ## Any sequence of calls -/

/-- The invariant, also before the list is set up. -/
def Kept (low high base : Nat) (s : Heap) (A : Finset Nat) (out : List Nat) : Prop :=
  (s.freep = 0 ∧ A = ∅ ∧ Sound low high s ∅ out) ∨ ∃ F, Inv low high base s F A out

theorem Sound.start (h : Sound low high s ∅ out) (lay : Layout low high base) (hz : s.freep = 0) :
    Inv low high base (s.start base) ∅ ∅ out := by
  have hlt := lay.base_lt
  have hown : OwnHeader base s base := .inl rfl
  have hlent : Lent low high (s.setPtr base base) out :=
    h.lent.writeWord lay hown (le_refl _) (by omega)
  unfold Heap.start
  rw [if_pos hz]
  refine ⟨⟨hlent.writeWord lay (.inl rfl) (Nat.le_add_right ..) (le_refl _), ?_, ?_, ?_, ?_,
    h.grown⟩, Finset.disjoint_empty_left _, Finset.mem_insert_self .., sortedRing_singleton ?_, ?_⟩
  · simp [Packed]
  · simp
  · simp
  · simp
  · refine (ptr_setSize hlent lay (.inl rfl) (.inl rfl)).trans ?_
    rw [ptr_setPtr h.lent lay hown hown (by unfold headerSize at hlt; omega), Function.update_self]
  · exact readWord_writeWord _ (by decide)

theorem Kept.start (h : Kept low high base s A out) (lay : Layout low high base) :
    ∃ F, Inv low high base (s.start base) F A out := by
  rcases h with ⟨hz, rfl, h⟩ | ⟨F, h⟩
  · exact ⟨∅, h.start lay hz⟩
  · exact ⟨F, by rwa [h.start_eq lay]⟩

/-- What the list is set up in is not looked at. -/
theorem Serves.start {nbytes : UInt32} (h : s.Serves nbytes) : (s.start base).Serves nbytes := by
  unfold Heap.start
  split
  · next hz => exact h.imp_right fun h => .inl (h.resolve_right fun h => h.1 hz)
  · exact h

theorem Kept.malloc {n r : Nat} {nbytes : UInt32} (h : Kept low high base s A out)
    (lay : Layout low high base) (hserves : s.Serves nbytes)
    (hrun : s.malloc n base nbytes.toNat = some (r, s')) :
    (r = 0 ∧ Kept low high base s' A out) ∨
      ∃ x, x ∉ A ∧ r = x + headerSize ∧ Kept low high base s' (insert x A) out := by
  unfold Heap.malloc at hrun
  split at hrun
  · obtain ⟨rfl, rfl⟩ := Prod.mk.inj (Option.some.inj hrun)
    exact .inl ⟨rfl, h⟩
  · obtain ⟨F, h⟩ := h.start lay
    rcases h.mallocLoop lay h.linked.freep rfl (Nat.succ_pos _)
      hserves.start.supplied hrun with ⟨hr, F', h'⟩ | ⟨x, F', hx, hr, h'⟩
    · exact .inl ⟨hr, .inr ⟨F', h'⟩⟩
    · exact .inr ⟨x, hx, hr, .inr ⟨F', h'⟩⟩

/-- Nothing else has changed than the frames handed out to others and what is not in a header. -/
theorem Kept.of_headers {out' : List Nat} (h : Kept low high base s A out)
    (hlent : Lent low high s' out') (hfreep : s'.freep = s.freep) (hheap : s'.heap = s.heap)
    (hgrown : s'.grown = s.grown)
    (hwords : ∀ B y, Sound low high s B out → A ⊆ B → y ∈ insert base B →
      s'.ptr y = s.ptr y ∧ s'.size y = s.size y) : Kept low high base s' A out' := by
  have hsound : ∀ B, A ⊆ B → Sound low high s B out → Sound low high s' B out' := by
    intro B hB hs
    have hlen : ∀ y ∈ B, s'.len y = s.len y := fun y hy => by
      unfold len
      rw [(hwords B y hs hB (Finset.mem_insert_of_mem hy)).2]
    refine ⟨hlent, hs.packed.congr hlen, hs.aligned, ?_, ?_, ?_⟩
    · rw [hheap]
      exact hs.header
    · intro p hp
      rw [hheap, hlen p hp]
      exact hs.inHeap p hp
    · rw [hheap, hgrown]
      exact hs.grown
  rcases h with ⟨hz, hA, hs⟩ | ⟨F, h⟩
  · exact .inl ⟨hfreep.trans hz, hA, hsound ∅ (by simp [hA]) hs⟩
  · have hA : A ⊆ F ∪ A := Finset.subset_union_right
    have hF : insert base F ⊆ insert base (F ∪ A) :=
      Finset.insert_subset_insert _ Finset.subset_union_left
    refine .inr ⟨F, hsound _ hA h.sound, h.disjoint, hfreep ▸ h.linked.freep, ?_, ?_⟩
    · exact h.linked.ring.congr fun y hy => (hwords _ y h.sound hA (hF hy)).1
    · exact (hwords _ base h.sound hA (Finset.mem_insert_self ..)).2.trans h.linked.base_size

/-- The states after `frame_init` and any calls of `malloc` that satisfy `C`, calls of `free` for
blocks in use, calls of `frame_alloc` and `frame_free` for other purposes, and writes of single
bytes to blocks and to those frames. `A` are the headers of the blocks in use, `out` the frames
handed out for other purposes. -/
inductive Run (low high base : Nat) (C : Heap → UInt32 → Prop) :
    Heap → Finset Nat → List Nat → Prop
  | init (f : Frames) : Run low high base C ⟨f.frameInit low (high - 1), 0, [], []⟩ ∅ []
  | malloc {s s' : Heap} {A : Finset Nat} {out : List Nat} {n x : Nat} {nbytes : UInt32} :
      Run low high base C s A out → C s nbytes →
      s.malloc n base nbytes.toNat = some (x + headerSize, s') →
      Run low high base C s' (insert x A) out
  | mallocNull {s s' : Heap} {A : Finset Nat} {out : List Nat} {n : Nat} {nbytes : UInt32} :
      Run low high base C s A out → C s nbytes →
      s.malloc n base nbytes.toNat = some (0, s') → Run low high base C s' A out
  | free {s s' : Heap} {A : Finset Nat} {out : List Nat} {n x : Nat} :
      Run low high base C s A out → x ∈ A → s.free n base (x + headerSize) = some s' →
      Run low high base C s' (A.erase x) out
  | write {s : Heap} {A : Finset Nat} {out : List Nat} {x a : Nat} (b : UInt8) :
      Run low high base C s A out → x ∈ A → x + headerSize ≤ a → a < x + s.len x →
      Run low high base C { s with memory := Function.update s.memory a b } A out
  | frameAlloc {s : Heap} {A : Finset Nat} {out : List Nat} : Run low high base C s A out →
      s.firstFree ≠ 0 →
      Run low high base C { s with toFrames := s.toFrames.frameAlloc.2 } A (s.firstFree :: out)
  | frameFree {s : Heap} {A : Finset Nat} {out : List Nat} {f : Nat} :
      Run low high base C s A out → f ∈ out →
      Run low high base C { s with toFrames := s.toFrames.frameFree f } A (out.erase f)
  | frameWrite {s : Heap} {A : Finset Nat} {out : List Nat} {f a : Nat} (b : UInt8) :
      Run low high base C s A out → f ∈ out → f ≤ a → a < f + pageSize →
      Run low high base C { s with memory := Function.update s.memory a b } A out

theorem Kept.exists_sound (h : Kept low high base s A out) :
    ∃ B, Sound low high s B out ∧ A ⊆ B := by
  rcases h with ⟨-, rfl, hs⟩ | ⟨F, h⟩
  · exact ⟨∅, hs, Finset.Subset.refl ∅⟩
  · exact ⟨F ∪ A, h.sound, Finset.subset_union_right⟩

/-- Memory outside the headers is free to change. -/
theorem Kept.write {out' : List Nat} {mem : Nat → UInt8} {f : Frames}
    (h : Kept low high base s A out)
    (hmem : f.memory = mem) (hlent : Lends low high f (s.heap ++ out'))
    (hwords : ∀ B y, Sound low high s B out → A ⊆ B → y ∈ insert base B →
      ∀ i, y ≤ i → i < y + 8 → mem i = s.memory i) :
    Kept low high base { s with toFrames := f } A out' := by
  refine h.of_headers hlent rfl rfl rfl fun B y hs hB hy => ?_
  have hsame := hwords B y hs hB hy
  subst hmem
  exact ⟨readWord_congr fun i hi hi' => hsame i hi (by omega),
    readWord_congr fun i hi hi' => hsame i (by omega) (by omega)⟩

/-- The headers of the heap are not in the frames of others. -/
theorem Sound.apart_of_mem_out {f : Nat} (h : Sound low high s B out) (lay : Layout low high base)
    (hy : y ∈ insert base B) (hf : f ∈ out) : y + 8 ≤ f ∨ f + pageSize ≤ y := by
  have hpage := mem_pages.mp (h.lent.mem_pages_of_mem (List.mem_append_right s.heap hf))
  have hhigh := lay.high_aligned
  rcases h.ownHeader_of_mem_insert (Finset.Subset.refl B) hy with rfl | ⟨halign, hmem⟩
  · have hout := lay.base_outside
    unfold headerSize pageOffset pageSize at *
    omega
  · have hne : pageAlign y ≠ f := fun he => h.lent.notMem_out hmem (he ▸ hf)
    unfold headerSize pageAlign pageOffset pageSize at *
    omega

theorem Run.kept (lay : Layout low high base) (h : Run low high base Serves s A out) :
    Kept low high base s A out := by
  induction h with
  | init f =>
    refine .inl ⟨rfl, rfl, Lends.init lay.toRange f, ?_, ?_, ?_, ?_, ?_⟩
    · simp [Packed]
    all_goals simp
  | malloc _ hserves hrun ih =>
    rcases ih.malloc lay hserves hrun with ⟨hr, -⟩ | ⟨x, -, hr, h'⟩
    · simp [headerSize] at hr
    · obtain rfl := Nat.add_right_cancel hr
      exact h'
  | mallocNull _ hserves hrun ih =>
    rcases ih.malloc lay hserves hrun with ⟨-, h'⟩ | ⟨x, -, hr, -⟩
    · exact h'
    · simp [headerSize] at hr
  | free _ hx hrun ih =>
    rcases ih with ⟨-, rfl, -⟩ | ⟨F, h⟩
    · simp at hx
    · obtain ⟨F', h'⟩ := h.free lay hx hrun
      exact .inr ⟨F', h'⟩
  | @write s A out x a b _ hx ha ha' ih =>
    obtain ⟨B, hs, hB⟩ := ih.exists_sound
    have hmem := hs.inHeap x (hB hx) a (by unfold headerSize at ha; omega) ha'
    refine ih.write rfl ?_ fun B y hs hB hy i hi hi' => Function.update_of_ne ?_ ..
    · exact Lends.write hs.lent (List.mem_append_left out hmem) (pageAlign_le a)
        (by unfold pageAlign pageSize; omega) b
    · have hx := hB hx
      have hbounds := hs.bounds lay hx
      have hout := lay.base_outside
      rcases Finset.mem_insert.mp hy with rfl | hy
      · unfold headerSize at *
        omega
      · have hyalign := hs.aligned y hy
        have hxalign := hs.aligned x hx
        rcases Nat.lt_trichotomy x y with hlt | rfl | hlt
        · have := hs.packed x hx y hy hlt
          omega
        · unfold headerSize at *
          omega
        · unfold headerSize at *
          omega
  | @frameAlloc s A out _ hne ih =>
    obtain ⟨B, hs, -⟩ := ih.exists_sound
    have hlends := (Lends.frameAlloc hs.lent (by rw [frameAlloc_of_ne hne]; exact hne)).2.2
    rw [frameAlloc_of_ne hne] at hlends ⊢
    exact ih.write rfl (hlends.perm List.perm_middle.symm) fun _ _ _ _ _ _ _ _ => rfl
  | @frameFree s A out f _ hf ih =>
    obtain ⟨B, hs, -⟩ := ih.exists_sound
    have hlends := Lends.frameFree hs.lent lay.toRange (List.mem_append_right s.heap hf)
    rw [List.erase_append_right _ fun hmem => hs.lent.notMem_out hmem hf] at hlends
    refine ih.write rfl hlends fun B y hs hB hy i hi hi' => ?_
    have := hs.apart_of_mem_out lay hy hf
    unfold pageSize at this
    exact if_neg (by omega)
  | @frameWrite s A out f a b _ hf ha ha' ih =>
    obtain ⟨B, hs, -⟩ := ih.exists_sound
    refine ih.write rfl (Lends.write hs.lent (List.mem_append_right s.heap hf) ha ha' b)
      fun B y hs hB hy i hi hi' => Function.update_of_ne ?_ ..
    have := hs.apart_of_mem_out lay hy hf
    omega

/-- A block of the heap: one in use, or one on the free list. -/
def Block (base : Nat) (s : Heap) (A : Finset Nat) (p : Nat) : Prop :=
  p ∈ A ∨ s.freep ≠ 0 ∧ p ≠ base ∧ ∃ m, s.ptr^[m] s.freep = p

/-- The free list leads through blocks `F`, and none of them is in use. -/
theorem Kept.exists_free (h : Kept low high base s A out) :
    ∃ F, Sound low high s (F ∪ A) out ∧ Disjoint F A ∧
      (s.freep ≠ 0 → ∀ m, s.ptr^[m] s.freep ∈ insert base F) := by
  rcases h with ⟨hz, rfl, hs⟩ | ⟨F, h⟩
  · exact ⟨∅, hs, Finset.disjoint_empty_right ∅, fun hne => absurd hz hne⟩
  · exact ⟨F, h.sound, h.disjoint, fun _ => h.linked.ring.iterate_mem h.linked.freep⟩

theorem Block.mem (hp : s.Block base A p)
    (hfree : s.freep ≠ 0 → ∀ m, s.ptr^[m] s.freep ∈ insert base F) : p ∈ F ∪ A := by
  rcases hp with hp | ⟨hne, hbase, m, rfl⟩
  · exact Finset.mem_union_right F hp
  · exact Finset.mem_union_left A ((Finset.mem_insert.mp (hfree hne m)).resolve_left hbase)

/-- Its bytes are in the frames of the heap. -/
theorem Kept.inHeap {a : Nat} (h : Kept low high base s A out) (hp : s.Block base A p)
    (ha : p ≤ a) (ha' : a < p + s.len p) : pageAlign a ∈ s.heap ∧ pageAlign a ∉ out := by
  obtain ⟨F, hs, -, hfree⟩ := h.exists_free
  have hmem := hs.inHeap p (hp.mem hfree) a ha ha'
  exact ⟨hmem, hs.lent.notMem_out hmem⟩

theorem join_heap (s : Heap) (bp p : Nat) :
    (((s.joinUpper bp p).joinLower bp p).setFreep p).heap = s.heap ∧
      (((s.joinUpper bp p).joinLower bp p).setFreep p).grown = s.grown := by
  unfold joinLower joinUpper
  split <;> split <;> exact ⟨rfl, rfl⟩

theorem free_heap {n ap : Nat} (hrun : s.free n base ap = some s') :
    s'.heap = s.heap ∧ s'.grown = s.grown := by
  have hstart : (s.start base).heap = s.heap ∧ (s.start base).grown = s.grown := by
    unfold Heap.start
    split <;> exact ⟨rfl, rfl⟩
  unfold Heap.free at hrun
  split at hrun
  · obtain rfl := Option.some.inj hrun
    exact ⟨rfl, rfl⟩
  · obtain ⟨p, -, rfl⟩ := Option.map_eq_some_iff.mp hrun
    obtain ⟨hheap, hgrown⟩ := (s.start base).join_heap (headerOf ap) p
    exact ⟨hheap.trans hstart.1, hgrown.trans hstart.2⟩

/-- The block that `morecore` makes is inside its frame exactly if the request is small enough. -/
theorem morecore_block {n nu r : Nat} (hne : s.firstFree ≠ 0)
    (hrun : s.morecore n base nu = some (r, s')) :
    s'.heap = s.firstFree :: s.heap ∧ ∃ nb, s'.grown = (s.firstFree, nb) :: s.grown ∧
      ((∀ a, s.firstFree ≤ a → a < s.firstFree + nb → a < s.firstFree + pageSize) ↔
        FrameSized nu) := by
  unfold Heap.morecore at hrun
  simp only [frameAlloc_of_ne hne, if_neg hne] at hrun
  obtain ⟨s₁, hfree, heq⟩ := Option.map_eq_some_iff.mp hrun
  obtain ⟨-, rfl⟩ := Prod.mk.inj heq
  obtain ⟨hheap, hgrown⟩ := free_heap hfree
  refine ⟨hheap, morecoreBytes nu, hgrown, ?_⟩
  rw [frameSized_iff]
  constructor
  · intro hin
    by_contra hbig
    have := hin (s.firstFree + morecoreBytes nu - 1) (by omega) (by omega)
    omega
  · intro hle a _ ha
    omega

/-- **The heap grows by frames it owns, if requests are small enough.** The block that `morecore`
makes is inside the frame it got exactly if the units it is asked for are one frame at most. If
every `malloc` in a run needs no bigger block, all blocks that `morecore` has made are inside frames
it got, and no block of the heap overlaps a frame that is handed out for another purpose. -/
theorem heap_grows_by_own_frames (lay : Layout low high base) :
    (∀ s s' : Heap, ∀ n nu r, s.firstFree ≠ 0 → s.morecore n base nu = some (r, s') →
      s'.heap = s.firstFree :: s.heap ∧ ∃ nb, s'.grown = (s.firstFree, nb) :: s.grown ∧
        ((∀ a, s.firstFree ≤ a → a < s.firstFree + nb → a < s.firstFree + pageSize) ↔
          FrameSized nu)) ∧
    ∀ s A out, Run low high base Serves s A out →
      (∀ b ∈ s.grown, ∀ a, b.1 ≤ a → a < b.1 + b.2 → pageAlign a ∈ s.heap) ∧
      ∀ p, s.Block base A p → ∀ a, p ≤ a → a < p + s.len p →
        pageAlign a ∈ s.heap ∧ pageAlign a ∉ out := by
  refine ⟨fun s s' n nu r hne hrun => morecore_block hne hrun, fun s A out hr => ?_⟩
  have hkept := hr.kept lay
  obtain ⟨B, hs, -⟩ := hkept.exists_sound
  exact ⟨hs.grown, fun p hp a ha ha' => hkept.inHeap hp ha ha'⟩

/-- Four frames, and the variable far behind them. -/
theorem layout_fourFrames : Layout 0x1000 0x5000 0x9000 := by
  refine ⟨⟨?_, ?_, ?_, ?_, ?_⟩, ?_, ?_, ?_, ?_⟩ <;> decide

/-- After start-up. -/
def initial : Heap := ⟨uninitialised.frameInit 0x1000 0x4fff, 0, [], []⟩

/-- A block for `nbytes` has been allocated, then a frame for another purpose. -/
theorem exists_run_malloc {C : Heap → UInt32 → Prop} (nbytes : UInt32) {x f l : Nat} {g : List Nat}
    (hC : C initial nbytes) (hf : f ≠ 0)
    (h : (initial.malloc 9 0x9000 nbytes.toNat).map (fun r =>
      (r.1, r.2.firstFree, r.2.heap, r.2.len x)) = some (x + headerSize, f, g, l)) :
    ∃ s, Run 0x1000 0x5000 0x9000 C s {x} [f] ∧ s.heap = g ∧ s.len x = l := by
  obtain ⟨⟨r, s⟩, hmalloc, heq⟩ := Option.map_eq_some_iff.mp h
  simp only [Prod.mk.injEq] at heq
  obtain ⟨rfl, rfl, rfl, rfl⟩ := heq
  have h0 : Run 0x1000 0x5000 0x9000 C initial ∅ [] := .init uninitialised
  have h1 := (h0.malloc hC hmalloc).frameAlloc hf
  refine ⟨_, h1, rfl, ?_⟩
  show readWord s.toFrames.frameAlloc.2.memory _ * _ = _
  rw [frameAlloc_of_ne hf]
  rfl

/-- A hundred bytes are allocated, then a frame for another purpose. -/
theorem heap_grows_by_own_frames_small :
    ∃ s, Run 0x1000 0x5000 0x9000 Serves s {0x1f90} [0x2000] ∧ s.heap = [0x1000] ∧
      s.len 0x1f90 = 112 ∧ ∀ a, 0x1f90 ≤ a → a < 0x1f90 + s.len 0x1f90 →
        pageAlign a ∈ s.heap ∧ pageAlign a ∉ [0x2000] := by
  obtain ⟨s, hrun, hheap, hlen⟩ := exists_run_malloc (C := Serves) (x := 0x1f90) (f := 0x2000)
    (l := 112) (g := [0x1000]) 100 (.inl (by decide)) (by decide) (by decide +kernel)
  exact ⟨s, hrun, hheap, hlen, ((heap_grows_by_own_frames layout_fourFrames).2 _ _ _ hrun).2 _
    (.inl (Finset.mem_singleton_self _))⟩

/-- **Blocks do not overlap.** If every `malloc` in a run is small enough, the blocks in use and on
the free list are aligned and apart, and none is both. -/
theorem heap_blocks_apart (lay : Layout low high base) (h : Run low high base Serves s A out) :
    (∀ p q, s.Block base A p → s.Block base A q →
      p % headerSize = 0 ∧ (p < q → p + s.len p ≤ q)) ∧
    (s.freep ≠ 0 → ∀ p ∈ A, ∀ m, s.ptr^[m] s.freep ≠ p) := by
  obtain ⟨F, hs, hdisj, hfree⟩ := (h.kept lay).exists_free
  refine ⟨fun p q hp hq => ?_, fun hne p hp m heq => ?_⟩
  · exact ⟨hs.aligned p (hp.mem hfree), hs.packed p (hp.mem hfree) q (hq.mem hfree)⟩
  · rcases Finset.mem_insert.mp (heq ▸ hfree hne m) with hbase | hF
    · exact (hs.ne_base lay (Finset.mem_union_right F hp)).1 hbase
    · exact Finset.disjoint_left.mp hdisj hF hp

/-- A hundred bytes are allocated twice; the rest of the frame is on the free list. -/
theorem heap_blocks_apart_small :
    ∃ s, Run 0x1000 0x5000 0x9000 Serves s {0x1f20, 0x1f90} [] ∧ s.freep ≠ 0 ∧
      0x1f20 + s.len 0x1f20 ≤ 0x1f90 ∧
      ∀ m, s.ptr^[m] s.freep ≠ 0x1f20 ∧ s.ptr^[m] s.freep ≠ 0x1f90 := by
  have hblocks : ((initial.malloc 9 0x9000 100).bind fun (x, s) =>
      (s.malloc 9 0x9000 100).map fun (y, s) => (x, y, decide (s.freep ≠ 0))) =
        some (0x1f90 + headerSize, 0x1f20 + headerSize, true) := by decide +kernel
  obtain ⟨⟨x, s₁⟩, hfirst, hrest⟩ := Option.bind_eq_some_iff.mp hblocks
  obtain ⟨⟨y, s⟩, hsecond, heq⟩ := Option.map_eq_some_iff.mp hrest
  simp only [Prod.mk.injEq, decide_eq_true_eq] at heq
  obtain ⟨rfl, rfl, hne⟩ := heq
  have hserves : ∀ s : Heap, s.Serves 100 := fun _ => .inl (by decide)
  have h0 : Run 0x1000 0x5000 0x9000 Serves initial ∅ [] := .init uninitialised
  have hrun := (h0.malloc (hserves _) hfirst).malloc (hserves _) hsecond
  obtain ⟨happart, hlist⟩ := heap_blocks_apart layout_fourFrames hrun
  have hx := Finset.mem_insert_self 0x1f20 ({0x1f90} : Finset Nat)
  have hy : 0x1f90 ∈ ({0x1f20, 0x1f90} : Finset Nat) := by decide
  exact ⟨s, hrun, hne, (happart _ _ (.inl hx) (.inl hy)).2 (by decide),
    fun m => ⟨hlist hne _ hx m, hlist hne _ hy m⟩⟩

/-- **A block beyond its frame.** For 4089 bytes and their header two frames are asked for, and one
is got. The block is handed out all the same, and so is the frame in which its bytes are. -/
theorem heap_overlaps_frame :
    ∃ s, Run 0x1000 0x5000 0x9000 (fun _ _ => True) s {0x1ff8} [0x2000] ∧ s.heap = [0x1000] ∧
      s.len 0x1ff8 = 4104 ∧ ∀ a, 0x2000 ≤ a → a < 0x3000 →
        0x1ff8 ≤ a ∧ a < 0x1ff8 + s.len 0x1ff8 ∧ pageAlign a ∈ [0x2000] := by
  obtain ⟨s, hrun, hheap, hlen⟩ := exists_run_malloc (C := fun _ _ => True) (x := 0x1ff8)
    (f := 0x2000) (l := 4104) (g := [0x1000]) 4089 trivial (by decide) (by decide +kernel)
  refine ⟨s, hrun, hheap, hlen, fun a ha ha' => ⟨by omega, by omega, ?_⟩⟩
  rw [pageAlign_of_lt (f := 0x2000) (by decide) ha ha']
  exact List.mem_singleton_self _

end Sos.Heap
