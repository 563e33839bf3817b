import Sos.Frames
import Sos.Lib.SortedRing

/-!
# The kernel heap

`malloc.c` and `free.c` of the C library, and the `morecore` of the root server. A block begins with
a header of two words, the next block of the free list and the size in units of a header. The free
list is circular and in the order of the addresses; the variable `__malloc_base` is on it as a block
of size 0. If no block is big enough `morecore` gets a frame, writes a header into it and frees it.

The memory is that of the frame allocator, so headers and the links of free frames could overwrite
each other.
-/

namespace Sos

open SortedRings

/-- `sizeof(Header)`. -/
def headerSize : Nat := 8

/-- `NALLOC`. -/
def nalloc : Nat := 0x1000

/-- The variable of the allocator beside the memory and the variables of `frames.c`. `heap` are the
frames that `frame_alloc` has returned to `morecore`, `grown` the blocks it has made of them, with
their bytes. -/
structure Heap extends Frames where
  freep : Nat
  heap : List Nat
  grown : List (Nat × Nat)

namespace Heap

/-! ## Headers -/

/-- `p->s.ptr`. -/
def ptr (s : Heap) (p : Nat) : Nat := readWord s.memory p

/-- `p->s.size`. -/
def size (s : Heap) (p : Nat) : Nat := readWord s.memory (p + 4)

def setPtr (s : Heap) (p q : Nat) : Heap := { s with memory := writeWord s.memory p q }

def setSize (s : Heap) (p n : Nat) : Heap := { s with memory := writeWord s.memory (p + 4) n }

def setFreep (s : Heap) (p : Nat) : Heap := { s with freep := p }

/-- The bytes of a block. -/
def len (s : Heap) (p : Nat) : Nat := s.size p * headerSize

/-- `p + n` for a pointer to a header. -/
def plus (p n : Nat) : Nat := (p + n * headerSize) % wordLimit

/-! ## `free` -/

/-- Both functions set up the list if there is none yet. -/
def start (base : Nat) (s : Heap) : Heap :=
  if s.freep = 0 then ((s.setPtr base base).setSize base 0).setFreep base else s

/-- The loop of `free`: the block after which `bp` belongs, or at the start or end of the arena. -/
def freeLoop (s : Heap) (bp : Nat) : Nat → Nat → Option Nat
  | 0, _ => none
  | n + 1, p =>
    if p < bp ∧ bp < s.ptr p then some p
    else if s.ptr p ≤ p ∧ (p < bp ∨ bp < s.ptr p) then some p
    else freeLoop s bp n (s.ptr p)

/-- Join to the upper neighbour. -/
def joinUpper (s : Heap) (bp p : Nat) : Heap :=
  if plus bp (s.size bp) = s.ptr p then
    let s := s.setSize bp ((s.size bp + s.size (s.ptr p)) % wordLimit)
    s.setPtr bp (s.ptr (s.ptr p))
  else s.setPtr bp (s.ptr p)

/-- Join to the lower neighbour. -/
def joinLower (s : Heap) (bp p : Nat) : Heap :=
  if plus p (s.size p) = bp then
    let s := s.setSize p ((s.size p + s.size bp) % wordLimit)
    s.setPtr p (s.ptr bp)
  else s.setPtr p bp

/-- `(Header *)ap - 1`. -/
def headerOf (ap : Nat) : Nat := (ap + (wordLimit - headerSize)) % wordLimit

/-- `free`, with at most `n` rounds of the loop. -/
def free (n base ap : Nat) (s : Heap) : Option Heap :=
  if ap = 0 then some s
  else
    let s := s.start base
    let bp := headerOf ap
    (s.freeLoop bp n s.freep).map fun p => ((s.joinUpper bp p).joinLower bp p).setFreep p

/-! ## `malloc` -/

/-- `round_up`, for a power of two. -/
def roundUp (address size : Nat) : Nat := (address + (size - 1)) % wordLimit / size * size

/-- The bytes of the block that is made for `nu` units. -/
def morecoreBytes (nu : Nat) : Nat := roundUp (nu * headerSize % wordLimit) nalloc

/-- `morecore`. -/
def morecore (n base nu : Nat) (s : Heap) : Option (Nat × Heap) :=
  let nb := morecoreBytes nu
  let cp := s.toFrames.frameAlloc.1
  let s := { s with toFrames := s.toFrames.frameAlloc.2 }
  if cp = 0 then some (0, s)
  else
    let s := { s with heap := cp :: s.heap, grown := (cp, nb) :: s.grown }
    ((s.setSize cp (nb / headerSize)).free n base (plus cp 1)).map fun s => (s.freep, s)

/-- Take the block, or its tail end. -/
def take (nunits prevp p : Nat) (s : Heap) : Nat × Heap :=
  if s.size p = nunits then (plus p 1, (s.setPtr prevp (s.ptr p)).setFreep prevp)
  else
    let s := s.setSize p (s.size p - nunits)
    let t := plus p (s.size p)
    (plus t 1, (s.setSize t nunits).setFreep prevp)

/-- The loop of `malloc`. -/
def mallocLoop (base nunits : Nat) : Nat → Nat → Nat → Heap → Option (Nat × Heap)
  | 0, _, _, _ => none
  | n + 1, prevp, p, s =>
    if nunits ≤ s.size p then some (s.take nunits prevp p)
    else if p = s.freep then
      match s.morecore n base nunits with
      | none => none
      | some (q, s) => if q = 0 then some (0, s) else mallocLoop base nunits n q (s.ptr q) s
    else mallocLoop base nunits n p (s.ptr p) s

/-- `nunits`. -/
def unitsFor (nbytes : Nat) : Nat := (nbytes + headerSize - 1) % wordLimit / headerSize + 1

/-- `malloc`, with at most `n` rounds of the loops. -/
def malloc (n base nbytes : Nat) (s : Heap) : Option (Nat × Heap) :=
  if nbytes = 0 then some (0, s)
  else
    let s := s.start base
    mallocLoop base (unitsFor nbytes) n s.freep (s.ptr s.freep) s

end Heap

end Sos
