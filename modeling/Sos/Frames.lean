import Sos.Machine
import Sos.Lib.FreeChain

/-!
# The frame allocator

`frames.c` with the free list where it is: the first word of a free frame is the address of the next
one. The model of the pager keeps the list apart from the memory (`Kernel.free`). The two agree as
long as nobody writes to a free frame (`Frames.Represents`).
-/

namespace Sos

open Hoare FreeChain

/-! ## Words in memory -/

/-- `*((L4_Word_t *) a) = w`. -/
def writeWord (mem : Nat → UInt8) (a w : Nat) : Nat → UInt8 := blit mem a 4 (wordByte w)

/-- A word is its four bytes. -/
theorem readWord_congr {mem mem' : Nat → UInt8} {a : Nat}
    (h : ∀ i, a ≤ i → i < a + 4 → mem' i = mem i) : readWord mem' a = readWord mem a :=
  readWord_eq fun j hj => h (a + j) (by omega) (by omega)

theorem readWord_writeWord (mem : Nat → UInt8) {a w : Nat} (hw : w < wordLimit) :
    readWord (writeWord mem a w) a = w := by
  have hbyte : ∀ i, i < 4 → (writeWord mem a w (a + i)).toNat = w / 256 ^ (3 - i) % 256 := by
    intro i hi
    unfold writeWord blit wordByte
    rw [if_pos ⟨by omega, by omega⟩, show a + i - a = i by omega, UInt8.toNat_ofNat']
    omega
  have h0 := hbyte 0 (by omega)
  have h1 := hbyte 1 (by omega)
  have h2 := hbyte 2 (by omega)
  have h3 := hbyte 3 (by omega)
  unfold readWord readHalf
  simp only [Nat.add_zero] at h0
  rw [h0, h1, h2, show a + 2 + 1 = a + 3 from rfl, h3]
  simp only [Nat.reduceSub, Nat.reducePow, Nat.div_one]
  unfold wordLimit at hw
  omega

theorem readWord_writeWord_of_apart (mem : Nat → UInt8) {a b w : Nat} (h : a + 4 ≤ b ∨ b + 4 ≤ a) :
    readWord (writeWord mem a w) b = readWord mem b := by
  refine readWord_congr fun i hi hi' => ?_
  unfold writeWord blit
  rw [if_neg (by omega)]

/-! ## The functions -/

/-- The variables of `frames.c`, and the memory. -/
structure Frames where
  memory : Nat → UInt8
  totalFrames : Int
  firstFree : Nat
  totalInUse : Int

namespace Frames

/-- The loop of `frame_init` that links the frames below `top`; there are not more pages than
rounds. -/
def frameInitLoop (top : Nat) : Nat → Nat → Frames → Frames
  | 0, _, s => s
  | n + 1, page, s =>
    if page < top then
      frameInitLoop top n ((page + pageSize) % wordLimit)
        { s with
          memory := writeWord s.memory page (page + pageSize)
          totalFrames := s.totalFrames + 1 }
    else s

/-- `frame_init`, apart from mapping the frames one to one; `frame` is the last byte. -/
def frameInit (low frame : Nat) (s : Frames) : Frames :=
  let high := (frame + 1) % wordLimit
  let top := (high + wordLimit - pageSize) % wordLimit
  let s := frameInitLoop top (wordLimit / pageSize) low { s with totalFrames := 0 }
  { s with firstFree := low, memory := writeWord s.memory top 0, totalInUse := 0 }

/-- `frame_alloc`. -/
def frameAlloc (s : Frames) : Nat × Frames :=
  if s.firstFree ≠ 0 then
    (s.firstFree, { s with
      firstFree := readWord s.memory s.firstFree
      totalInUse := s.totalInUse + 1 })
  else (s.firstFree, s)

/-- `frame_free`. -/
def frameFree (s : Frames) (frame : Nat) : Frames :=
  { s with
    memory := writeWord s.memory frame s.firstFree
    firstFree := frame
    totalInUse := s.totalInUse - 1 }

/-- `frames_allocated`. -/
def framesAllocated (s : Frames) : Int := s.totalInUse

/-! ## The links -/

variable {s : Frames} {k : Kernel} {f g a : Nat}

/-- The frame after a free one. -/
def next (s : Frames) (f : Nat) : Nat := readWord s.memory f

/-- Aligned addresses are a page apart. -/
theorem apart_of_ne (hf : pageOffset f = 0) (hg : pageOffset g = 0) (hne : f ≠ g) :
    f + pageSize ≤ g ∨ g + pageSize ≤ f := by
  unfold pageOffset pageSize at *
  omega

/-- Bytes of another frame do not count. -/
theorem next_update (hf : pageOffset f = 0) (hg : pageOffset g = 0) (hne : g ≠ f) (hfa : f ≤ a)
    (haf : a < f + pageSize) (b : UInt8) :
    ({ s with memory := Function.update s.memory a b } : Frames).next g = s.next g := by
  have hapart := apart_of_ne hg hf hne
  unfold pageSize at *
  exact readWord_congr fun i hi hi' => Function.update_of_ne (by omega) ..

theorem next_frameFree_self (hlt : s.firstFree < wordLimit) :
    (s.frameFree f).next f = s.firstFree := readWord_writeWord _ hlt

theorem next_frameFree_of_ne (hf : pageOffset f = 0) (hg : pageOffset g = 0) (hne : g ≠ f) :
    (s.frameFree f).next g = s.next g := by
  have hapart := apart_of_ne hf hg hne.symm
  unfold pageSize at hapart
  exact readWord_writeWord_of_apart _ (by omega)

/-- What the loop does for `m` frames from `page` on: each leads to the one behind it, and nothing
below is touched. -/
theorem frameInitLoop_spec {top : Nat} (htop : top < wordLimit) :
    ∀ (m n page : Nat) (s : Frames), top = page + m * pageSize → m ≤ n →
      (∀ j < m, (frameInitLoop top n page s).next (page + j * pageSize) =
        page + (j + 1) * pageSize) ∧
      ∀ b, b + 4 ≤ page → (frameInitLoop top n page s).next b = s.next b
  | 0, n, page, s, hm, _ => by
    have hstop : frameInitLoop top n page s = s := by
      cases n with
      | zero => rfl
      | succ n => rw [frameInitLoop, if_neg (by omega)]
    rw [hstop]
    exact ⟨fun j hj => absurd hj (by omega), fun _ _ => rfl⟩
  | m + 1, 0, page, s, _, hn => absurd hn (by omega)
  | m + 1, n + 1, page, s, hm, hn => by
    rw [Nat.succ_mul] at hm
    have hpage : (page + pageSize) % wordLimit = page + pageSize := Nat.mod_eq_of_lt (by omega)
    have hround : page < top := by
      unfold pageSize at hm
      omega
    rw [frameInitLoop, if_pos hround, hpage]
    obtain ⟨hlinks, hbelow⟩ := frameInitLoop_spec htop m n (page + pageSize)
      { s with
        memory := writeWord s.memory page (page + pageSize)
        totalFrames := s.totalFrames + 1 } (by omega) (by omega)
    refine ⟨fun j hj => ?_, fun b hb => ?_⟩
    · cases j with
      | zero =>
        rw [Nat.zero_mul, Nat.add_zero, hbelow page (by unfold pageSize; omega)]
        show readWord _ page = _
        rw [readWord_writeWord _ (by omega)]
        omega
      | succ j =>
        have hnext := hlinks j (by omega)
        rw [show page + (j + 1) * pageSize = page + pageSize + j * pageSize by
          rw [Nat.succ_mul]; omega, hnext]
        rw [Nat.succ_mul (j + 1)]
        omega
    · rw [hbelow b (by omega)]
      exact readWord_writeWord_of_apart _ (by omega)

/-- `frame_init` on `m + 1` frames from `low` on links each to the next and ends with the last. -/
theorem next_frameInit {low m j : Nat} (hle : low + (m + 1) * pageSize ≤ wordLimit) (hj : j ≤ m) :
    (s.frameInit low (low + (m + 1) * pageSize - 1)).next (low + j * pageSize) =
      if j + 1 < m + 1 then low + (j + 1) * pageSize else 0 := by
  have htop : ((low + (m + 1) * pageSize - 1 + 1) % wordLimit + wordLimit - pageSize) % wordLimit =
      low + m * pageSize := by
    unfold wordLimit pageSize at *
    omega
  have hrounds : m ≤ wordLimit / pageSize := by
    unfold wordLimit pageSize at *
    omega
  obtain ⟨hlinks, -⟩ := frameInitLoop_spec
    (show low + m * pageSize < wordLimit by unfold wordLimit pageSize at *; omega) m _ low
      { s with totalFrames := 0 } rfl hrounds
  unfold frameInit
  simp only [htop]
  show readWord (writeWord _ (low + m * pageSize) 0) _ = _
  by_cases hlast : j = m
  · rw [hlast, readWord_writeWord _ (by decide), if_neg (by omega)]
  · have hapart : low + j * pageSize + 4 ≤ low + m * pageSize := by
      unfold pageSize
      omega
    rw [readWord_writeWord_of_apart _ (.inr hapart), if_pos (by omega)]
    exact hlinks j (by omega)

/-! ## The free list of the pager's model -/

/-- The frames of the list are those that the links lead through. -/
structure Represents (s : Frames) (k : Kernel) : Prop where
  links : Links 0 s.next s.firstFree k.free
  nodup : k.free.Nodup
  frames : ∀ f ∈ k.free, f ≠ 0 ∧ pageOffset f = 0 ∧ f < wordLimit
  inUse : s.totalInUse = k.totalInUse

namespace Represents

theorem firstFree_lt (h : s.Represents k) : s.firstFree < wordLimit := by
  have hlinks := h.links
  cases hfree : k.free with
  | nil =>
    rw [hfree] at hlinks
    have hzero : s.firstFree = 0 := hlinks
    rw [hzero]
    decide
  | cons f rest =>
    rw [hfree] at hlinks
    rw [hlinks.1]
    exact (h.frames f (by simp [hfree])).2.2

/-- `frame_alloc` takes the same frame off. -/
theorem frameAlloc (h : s.Represents k) :
    ∃ k', Sos.frameAlloc k = .ok s.frameAlloc.1 k' ∧ s.frameAlloc.2.Represents k' := by
  have hlinks := h.links
  have hrun : Wp Sos.frameAlloc k (fun f k' => f = s.frameAlloc.1 ∧ s.frameAlloc.2.Represents k')
      fun _ _ => False := by
    rw [wp_frameAlloc]
    refine ⟨fun hempty => ?_, fun f rest hfree hf => ?_⟩
    · have hnil : k.free = [] := by
        cases hfree : k.free with
        | nil => rfl
        | cons f rest =>
          have hf := (h.frames f (by simp [hfree])).1
          simp [Kernel.freeFrames, hfree, hf] at hempty
      rw [hnil] at hlinks
      have hzero : s.firstFree = 0 := hlinks
      have hsame : s.frameAlloc = (0, s) := by simp [Frames.frameAlloc, hzero]
      rw [hsame]
      exact ⟨rfl, h.links, h.nodup, h.frames, h.inUse⟩
    · rw [hfree] at hlinks
      obtain ⟨hfirst, htail⟩ := hlinks
      have htaken : s.frameAlloc = (f, { s with
          firstFree := s.next f, totalInUse := s.totalInUse + 1 }) := by
        simp [Frames.frameAlloc, hfirst, hf, Frames.next]
      have hnd := h.nodup
      rw [hfree] at hnd
      rw [htaken]
      refine ⟨rfl, htail, (List.nodup_cons.mp hnd).2, fun g hg => h.frames g ?_, ?_⟩
      · rw [hfree]
        exact List.mem_cons_of_mem _ hg
      · show s.totalInUse + 1 = k.totalInUse + 1
        rw [h.inUse]
  obtain ⟨f, k', hok, rfl, hrep⟩ := hrun.returns
  exact ⟨k', hok, hrep⟩

/-- `frame_free` puts the frame in front. -/
theorem frameFree (h : s.Represents k) (hf : f ≠ 0) (halign : pageOffset f = 0)
    (hlt : f < wordLimit) (hused : f ∉ k.free) : (s.frameFree f).Represents (k.frameFree f) where
  links := by
    refine ⟨rfl, ?_⟩
    rw [next_frameFree_self h.firstFree_lt]
    refine h.links.congr fun g hg => next_frameFree_of_ne halign (h.frames g hg).2.1 ?_
    rintro rfl
    exact hused hg
  nodup := List.nodup_cons.mpr ⟨hused, h.nodup⟩
  frames := fun g hg => by
    rcases List.mem_cons.mp hg with rfl | hg
    · exact ⟨hf, halign, hlt⟩
    · exact h.frames g hg
  inUse := by
    show s.totalInUse - 1 = k.totalInUse - 1
    rw [h.inUse]

/-- The owner of a frame may write to it. -/
theorem write (h : s.Represents k) (halign : pageOffset f = 0) (hused : f ∉ k.free) (hfa : f ≤ a)
    (haf : a < f + pageSize) (b : UInt8) :
    ({ s with memory := Function.update s.memory a b } : Frames).Represents k where
  links := h.links.congr fun g hg => by
    refine next_update halign (h.frames g hg).2.1 ?_ hfa haf b
    rintro rfl
    exact hused hg
  nodup := h.nodup
  frames := h.frames
  inUse := h.inUse

end Represents

end Frames

end Sos
