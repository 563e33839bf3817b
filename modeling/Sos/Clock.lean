import Sos.Constants
import Sos.Lib.Hoare
import Sos.Lib.Sll

/-!
# The clock

`clock.c`: the time stamp counter and the threads that sleep.

The sleeping threads are in a singly linked list that ends in a sentinel, a node with the nil
thread. A node is deleted by copying the next one over it and freeing that one, so the contents of
the sentinel move into nodes of the heap.

`OST_TIM0` is a one-shot counter. A write to `OST_TIM0_RL` loads it with the value written, the two
low bits cleared; the lowest bit starts it. It then counts down once a tick and stops at 0. The
value that `raw_time_stamp` returns is an argument of the functions that call it; how it comes about
is modelled by `Stamp`.
-/

namespace Sos.Clock

open Sll

/-- `timestamp_t` is unsigned, of 64 bits. -/
def stampLimit : Nat := 18446744073709551616

/-- `NSLU2_TICKS2US`. -/
def ticks2us (ticks : Nat) : Nat := ticks * 50 % stampLimit / 3333

/-- `NSLU2_US2TICKS`. -/
def us2ticks (us : Nat) : Nat := us * 3333 % stampLimit / 50

/-! ## Registers -/

/-- `OST_TIM0` and whether it counts. -/
structure Tim0 where
  count : Nat
  enabled : Bool
deriving DecidableEq, Repr

namespace Tim0

/-- `*OST_TIM0_RL = w`. -/
def load (w : Nat) : Tim0 := ⟨w / 4 * 4, w % 2 = 1⟩

/-- The counter after `d` ticks. -/
def elapse (t : Tim0) (d : Nat) : Tim0 :=
  if t.enabled ∧ 0 < d then ⟨t.count - d, d < t.count⟩ else t

end Tim0

/-- `ONESHOT_ENABLE`. -/
def oneshotEnable : Nat := 3

/-! ## Sleeping threads -/

/-- `L4_nilthread`. -/
def nilthread : Nat := 0

/-- The contents of a `struct BlockedThread_t`. -/
structure Blocked where
  tid : Nat
  unblock : Nat
deriving DecidableEq, Repr

/-- The address of `sentinel`. -/
def sentinel : Nat := 0

/-- The list of sleeping threads in memory, which of them are in `PS_STATE_SLEEP`, the counter, and
the replies sent. `registered` counts the calls of `register_timer`, a ghost. -/
structure State where
  nodes : Nat → Option (Node Nat Blocked)
  blockedThreads : Option Nat
  asleep : Nat → Bool
  tim0 : Tim0
  replies : List Nat
  registered : Nat

/-- What stops the code: a failed assertion, NULL followed, a node that is not there, or a loop that
does not end. -/
inductive ClockFault
  | assertion
  | nullPointer
  | freed
  | endless
deriving DecidableEq, Repr

abbrev ClockM := EStateM ClockFault State

/-- `start_timer`; nothing has been written to `OST_TIM0_RL`. -/
def start : State where
  nodes := Function.update (fun _ => none) sentinel (some ⟨⟨nilthread, 0⟩, none⟩)
  blockedThreads := some sentinel
  asleep := fun _ => false
  tim0 := ⟨0, false⟩
  replies := []
  registered := 0

/-- The node behind a pointer. -/
def deref : Option Nat → ClockM (Node Nat Blocked)
  | none => throw .nullPointer
  | some a => do
    match (← get).nodes a with
    | none => throw .freed
    | some node => return node

/-- Write to a node. -/
def setNode (a : Nat) (node : Option (Node Nat Blocked)) : ClockM Unit :=
  modify fun c => { c with nodes := Function.update c.nodes a node }

/-- `isSentinel`. -/
def isSentinel (bt : Option Nat) : ClockM Bool := do
  let node ← deref bt
  let last ← deref (some sentinel)
  return node.contents.tid = last.contents.tid

/-- The ticks to sleep for. -/
def delayTicks (us : Nat) : Nat := if us2ticks us = 0 then 1 else us2ticks us

/-- The test of `register_timer` whether the counter is to be loaded. -/
def Tim0.rearms (t : Tim0) (cs : Nat) : Bool :=
  t.count = 0 || cs % wordLimit * 4 % wordLimit < t.count

/-- `register_timer`, with the node in the block `a`. -/
def registerTimer (ts delay client a : Nat) : ClockM Unit := do
  let cs := delayTicks delay
  modify fun c => { c with
    nodes := Function.update c.nodes a
      (some ⟨⟨client, (ts + cs) % stampLimit⟩, c.blockedThreads⟩)
    blockedThreads := some a
    asleep := Function.update c.asleep client true
    registered := c.registered + 1 }
  if (← get).tim0.rearms cs then
    modify fun c => { c with tim0 := .load (cs % wordLimit ||| oneshotEnable) }

/-- The delay that the loop of `timer_irq` has found, and whether it has found one. -/
structure NextDelay where
  delay : Bool
  nextDelay : Nat
deriving DecidableEq, Repr

/-- The `else` branch: a thread that goes on sleeping. -/
def NextDelay.see (d : NextDelay) (ts : Nat) (b : Blocked) : NextDelay :=
  if (b.unblock - ts) % wordLimit < d.nextDelay then ⟨true, (b.unblock - ts) % wordLimit⟩ else d

/-- Wake the thread of the node `a`, and delete the node. -/
def wake (a : Nat) (node : Node Nat Blocked) : ClockM Unit := do
  modify fun c => { c with
    asleep := Function.update c.asleep node.contents.tid false
    replies := c.replies ++ [node.contents.tid] }
  let freeMe := node.next
  let after ← deref freeMe
  setNode a (some after)
  if !(← isSentinel freeMe) then
    match freeMe with
    | none => throw .nullPointer
    | some f => setNode f none

/-- The loop of `timer_irq`. -/
def timerIrqLoop (ts : Nat) : Nat → Option Nat → NextDelay → ClockM NextDelay
  | 0, _, _ => throw .endless
  | _ + 1, none, d => return d
  | n + 1, some a, d => do
    if ← isSentinel (some a) then return d
    let node ← deref (some a)
    if node.contents.unblock ≤ ts then
      wake a node
      timerIrqLoop ts n (some a) d
    else timerIrqLoop ts n node.next (d.see ts node.contents)

/-- `nextDelay -= (ts2 - ts)`, and the test behind it. -/
def NextDelay.adjust (d : NextDelay) (ts ts2 : Nat) : Nat :=
  let nextDelay := (((d.nextDelay : Int) - ((ts2 : Int) - ts)) % wordLimit).toNat
  if nextDelay = 0 then 1 else nextDelay

/-- `timer_irq`. The loop has at most as many rounds as threads have been registered, and one. -/
def timerIrq (ts ts2 : Nat) : ClockM Unit := do
  let c ← get
  if c.blockedThreads.isNone then throw .assertion
  let d ← timerIrqLoop ts (c.registered + 1) c.blockedThreads ⟨false, wordLimit - 1⟩
  modify fun c => { c with
    tim0 := if d.delay then .load (d.adjust ts ts2 ||| oneshotEnable) else .load 0 }

/-! ## Time stamps -/

/-- `OST_TS`, the flag of its overflow interrupt, and `ts_overflow`. -/
structure Stamp where
  ostTs : Nat
  pending : Bool
  tsOverflow : Nat
deriving DecidableEq, Repr

namespace Stamp

/-- `start_timer`. -/
def start : Stamp := ⟨1, false, 0⟩

/-- The counter after `n` ticks. -/
def tick (s : Stamp) (n : Nat) : Stamp :=
  { s with
    ostTs := (s.ostTs + n) % wordLimit
    pending := s.pending || wordLimit ≤ s.ostTs + n }

/-- `timestamp_irq`. -/
def timestampIrq (s : Stamp) : Stamp :=
  { s with pending := false, tsOverflow := (s.tsOverflow + 1) % stampLimit }

/-- `raw_time_stamp`. -/
def rawTimeStamp (s : Stamp) : Nat := (s.ostTs + s.tsOverflow * wordLimit) % stampLimit

/-- `time_stamp`. -/
def timeStamp (s : Stamp) : Nat := ticks2us s.rawTimeStamp

end Stamp

/-- The two words of the reply to `SOS_TIME_STAMP`, from the clock at each of the two calls of
`time_stamp`. -/
def timeStampReply (low high : Stamp) : Nat × Nat :=
  (low.timeStamp % wordLimit, high.timeStamp / wordLimit % wordLimit)

/-- `uptime`, from the words of the reply. -/
def uptime (words : Nat × Nat) : Nat := (words.2 * wordLimit + words.1) % stampLimit

end Sos.Clock
