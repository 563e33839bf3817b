import Sos.Lib.Hoare
import Sos.State

/-!
# What the pager stands on

Assertions, the frame allocator of `frames.c`, memory, messages to the root server and replies to
user threads (`syscall.c`). The calls into L4 are assumed to succeed.

For each function there is a `wp_` rule that says what a caller may rely on; later modules use
these and do not look inside.
-/

namespace Sos

open Hoare

variable {k : Kernel} {E : Fault → Kernel → Prop}

/-! ## Assertions -/

/-- `assert(c)`. -/
def assert (c : Bool) (site : Site) : PagerM Unit :=
  if c then pure () else throw (.assertion site)

theorem wp_assert {c : Bool} {site : Site} {Q : Unit → Kernel → Prop} :
    Wp (assert c site) k Q E ↔
      (c = true → Q () k) ∧ (c = false → E (.assertion site) k) := by
  unfold assert
  cases c <;> simp [wp_pure, wp_throw]

/-- Stop with `e` if `c` holds. -/
def failIf (c : Prop) [Decidable c] (e : Fault) : PagerM Unit :=
  if c then throw e else pure ()

theorem wp_failIf {c : Prop} [Decidable c] {e : Fault} {Q : Unit → Kernel → Prop} :
    Wp (failIf c e) k Q E ↔ (c → E e k) ∧ (¬ c → Q () k) := by
  unfold failIf
  rw [wp_ite, wp_throw, wp_pure]

/-! ## Frames

The free list runs through the frames themselves. It is a list here, which is the same as long as no
frame is on it twice. -/

/-- `frame_alloc`: the first free frame, or 0. The free list ends where its head is 0
(`NULLFRAME`). -/
def frameAlloc : PagerM Nat := do
  let k ← get
  match k.free with
  | [] => set { k with exhausted := true }; return 0
  | f :: rest =>
    if f = 0 then
      set { k with exhausted := true }
      return 0
    else
      set { k with free := rest, totalInUse := k.totalInUse + 1 }
      return f

/-- The state after `frame_free`, of a frame that is not on the list. -/
def Kernel.frameFree (k : Kernel) (frame : Nat) : Kernel :=
  { k with free := frame :: k.free, totalInUse := k.totalInUse - 1 }

/-- `frame_free`. -/
def frameFree (frame : Nat) : PagerM Unit :=
  modify fun k => k.frameFree frame

/-- The frames on the free list. -/
def Kernel.freeFrames (k : Kernel) : List Nat := k.free.takeWhile (· ≠ 0)

/-- The state after `frame_alloc` has returned a frame. -/
def Kernel.frameTaken (k : Kernel) (rest : List Nat) : Kernel :=
  { k with free := rest, totalInUse := k.totalInUse + 1 }

theorem wp_frameAlloc {Q : Nat → Kernel → Prop} :
    Wp frameAlloc k Q E ↔
      (k.freeFrames = [] → Q 0 { k with exhausted := true }) ∧
      (∀ f rest, k.free = f :: rest → f ≠ 0 → Q f (k.frameTaken rest)) := by
  unfold frameAlloc Kernel.freeFrames
  rw [wp_bind, wp_get]
  split
  · next h => simp [wp_bind, wp_set, wp_pure, h, -bind_pure_comp]
  · next f rest h =>
    rw [wp_ite]
    simp only [wp_bind, wp_set, wp_pure, h]
    constructor
    · rintro ⟨h0, h1⟩
      refine ⟨fun he => h0 ?_, ?_⟩
      · by_contra hf
        simp [hf] at he
      · rintro f' rest' ⟨rfl, rfl⟩ hf
        exact h1 hf
    · rintro ⟨h0, h1⟩
      exact ⟨fun hf => h0 (by simp [hf]), fun hf => h1 f rest rfl hf⟩

theorem wp_frameFree {f : Nat} {Q : Unit → Kernel → Prop} :
    Wp (frameFree f) k Q E ↔ Q () (k.frameFree f) := wp_modify

/-! ## Memory -/

/-- `dst` with `n` bytes from `at` on replaced by those of `src`. -/
def blit (dst : Nat → UInt8) (start n : Nat) (src : Nat → UInt8) : Nat → UInt8 :=
  fun a => if start ≤ a ∧ a < start + n then src (a - start) else dst a

@[simp] theorem blit_zero (f : Nat → UInt8) (a : Nat) (g : Nat → UInt8) : blit f a 0 g = f := by
  funext b
  exact if_neg (by omega)

/-- Two pieces one after the other. -/
theorem blit_blit (f : Nat → UInt8) (a m n : Nat) (g : Nat → UInt8) :
    blit (blit f a m g) (a + m) n (fun i => g (m + i)) = blit f a (m + n) g := by
  funext b
  unfold blit
  by_cases h₂ : a + m ≤ b ∧ b < a + m + n
  · rw [if_pos h₂, if_pos (by omega)]
    exact congrArg g (by omega)
  · rw [if_neg h₂]
    by_cases h₁ : a ≤ b ∧ b < a + m
    · rw [if_pos h₁, if_pos (by omega)]
    · rw [if_neg h₁, if_neg (by omega)]

/-- Only the bytes that are taken count. -/
theorem blit_congr {f : Nat → UInt8} {a n : Nat} {g g' : Nat → UInt8} (h : ∀ i < n, g i = g' i) :
    blit f a n g = blit f a n g' := by
  funext b
  unfold blit
  by_cases hb : a ≤ b ∧ b < a + n
  · rw [if_pos hb, if_pos hb, h _ (by omega)]
  · rw [if_neg hb, if_neg hb]

theorem blit_apply {f g : Nat → UInt8} {a n i : Nat} (h : i < n) : blit f a n g (a + i) = g i := by
  unfold blit
  rw [if_pos (by omega)]
  congr 1
  omega

/-- The bytes from `a` on. -/
def bytesAt (b : Nat → UInt8) (a n : Nat) : List UInt8 := (List.range n).map fun i => b (a + i)

/-- The bytes of a word; the machine is big-endian. -/
def wordByte (w i : Nat) : UInt8 := UInt8.ofNat (w / 256 ^ (3 - i) % 256)

def readHalf (mem : Nat → UInt8) (a : Nat) : Nat := (mem a).toNat * 256 + (mem (a + 1)).toNat

def readWord (mem : Nat → UInt8) (a : Nat) : Nat := readHalf mem a * 65536 + readHalf mem (a + 2)

section Reads

variable {mem mem' : Nat → UInt8} {a a' : Nat}

theorem readHalf_eq (h : ∀ j < 2, mem (a + j) = mem' (a' + j)) :
    readHalf mem a = readHalf mem' a' := by
  unfold readHalf
  rw [h 1 (by decide), ← Nat.add_zero a, h 0 (by decide), Nat.add_zero]

theorem readWord_eq (h : ∀ j < 4, mem (a + j) = mem' (a' + j)) :
    readWord mem a = readWord mem' a' := by
  have hlow : readHalf mem (a + 2) = readHalf mem' (a' + 2) :=
    readHalf_eq fun j hj => by rw [Nat.add_assoc, Nat.add_assoc, h _ (by omega)]
  unfold readWord
  rw [readHalf_eq fun j hj => h j (by omega), hlow]

end Reads

/-- Where the copy buffer of a thread begins (`pager_buffer`). -/
def pagerBuffer (tid : Pid) : Nat := tid.val * copyBufsiz

/-- `strncpy(pager_buffer(tid), path, MAX_FILE_NAME)`. -/
def strncpyToBuffer (tid : Pid) (path : Path) : PagerM Unit :=
  modify fun k => { k with
    copyInOutBuffer :=
      blit k.copyInOutBuffer (pagerBuffer tid) maxFileName (fun i => path.getD i 0) }

/-- The C string at a place in the copy buffers, up to `MAX_FILE_NAME` bytes. -/
def Kernel.bufferPath (k : Kernel) (start : Nat) : Path :=
  ((List.range maxFileName).map fun i => k.copyInOutBuffer (start + i)).takeWhile (· ≠ 0)

/-! ## Messages -/

/-- A message to the root server; none of them waits for the answer. -/
def vfsCall (c : VfsCall) : PagerM Unit :=
  modify fun k => { k with calls := k.calls ++ [c] }

/-- The state after a reply to `tid` has been dealt with. -/
def Kernel.reply (k : Kernel) (tid : Pid) (p : Process) (words : List Int) : Kernel :=
  if tid = rootserverno ∨ p.ipcAccept = .none ∨ p.state = .zombie ∨ p.state = .start then k
  else { k with replies := k.replies ++ [⟨tid, words⟩] }

/-- `syscall_reply_v`: replies to the root server, to threads that take no messages and to
processes that are not running are dropped. -/
def syscallReplyV (tid : Pid) (words : List Int) : PagerM Unit := do
  match (← get).sosProcs tid with
  | .null => pure ()
  | .placeholder => throw .placeholder
  | .pcb p => modify fun k => k.reply tid p words

/-- `syscall_reply`. -/
def syscallReply (tid : Pid) (rval : Int) : PagerM Unit :=
  syscallReplyV tid [rval]

end Sos
