import Sos.Lib.Hoare
import Sos.Lib.Sll

/-!
# Linked lists

`list.c`, with its nodes in memory. Every queue of the kernel is such a list; the models of the
other modules have plain sequences in their place, which `Sos.Properties.Lists` shows to be the
same.

The functions passed to `list_find`, `list_delete_n`, `list_reduce` and `list_iterate` have effects
of their own: they act on `Heap.data` and may stop the program. `malloc` is taken to succeed; the
address of the node it returns is an argument. The loops take a bound on their number of rounds.
-/

namespace Sos.Lists

open Hoare Sll

/-- The nodes in memory, the `List`, and what the functions passed in act on. -/
structure Heap (α σ : Type) where
  nodes : Nat → Option (Node Nat α)
  head : Option Nat
  last : Option Nat
  data : σ

/-- What stops a list operation: a failed assertion, NULL followed, a node used that is not (or no
longer) allocated, or a fault of a function passed in. -/
inductive ListFault (ε : Type)
  | assertion
  | nullPointer
  | freed
  | outOfFuel
  | callback (e : ε)

abbrev ListM (ε α σ : Type) := EStateM (ListFault ε) (Heap α σ)

variable {ε α σ τ β : Type}

/-! ## Memory -/

/-- `assert(c)`. -/
def listAssert (c : Bool) : ListM ε α σ Unit := if c then pure () else throw .assertion

/-- The node behind a pointer. -/
def deref : Option Nat → ListM ε α σ (Node Nat α)
  | none => throw .nullPointer
  | some a => do
    match (← get).nodes a with
    | none => throw .freed
    | some node => return node

/-- `p->next = next`. -/
def setNext (p next : Option Nat) : ListM ε α σ Unit := do
  match p with
  | none => throw .nullPointer
  | some a =>
    let node ← deref p
    modify fun h => { h with nodes := Function.update h.nodes a (some { node with next := next }) }

/-- `free(p)`. -/
def free (p : Option Nat) : ListM ε α σ Unit := do
  match p with
  | none => pure ()
  | some a =>
    discard <| deref p
    modify fun h => { h with nodes := Function.update h.nodes a none }

def setHead (p : Option Nat) : ListM ε α σ Unit := modify ({ · with head := p })

def setLast (p : Option Nat) : ListM ε α σ Unit := modify ({ · with last := p })

/-- `f(…, data)`. -/
def call (m : EStateM ε σ β) : ListM ε α σ β := fun h =>
  match m h.data with
  | .ok b d => .ok b { h with data := d }
  | .error e d => .error (.callback e) { h with data := d }

/-- Run with other data in place. -/
def withData (d : τ) (m : ListM ε α τ β) : ListM ε α σ (β × τ) := fun h =>
  match m { h with data := d } with
  | .ok b h' => .ok (b, h'.data) { h' with data := h.data }
  | .error e h' => .error e { h' with data := h.data }

/-! ## The functions of `list.c` -/

/-- `nodeAlloc`, with the address `malloc` returns. -/
def nodeAlloc (node : Nat) (contents : α) : ListM ε α σ Unit :=
  modify fun h => { h with nodes := Function.update h.nodes node (some ⟨contents, none⟩) }

/-- `list_null`. -/
def listNull : ListM ε α σ Bool := do
  let h ← get
  if h.head = none then
    listAssert (h.last = none)
    return true
  else
    return false

/-- `list_peek`. -/
def listPeek : ListM ε α σ α := do
  return (← deref (← get).head).contents

/-- `list_shift`. -/
def listShift (node : Nat) (contents : α) : ListM ε α σ Unit := do
  nodeAlloc node contents
  setNext (some node) (← get).head
  setHead (some node)
  let h ← get
  if h.last = none then setLast h.head else pure ()

/-- `list_unshift`. -/
def listUnshift : ListM ε α σ α := do
  let tmp := (← get).head
  listAssert (tmp ≠ none)
  let node ← deref tmp
  setHead node.next
  if node.next = none then setLast none else pure ()
  free tmp
  return node.contents

/-- `list_push`. -/
def listPush (node : Nat) (contents : α) : ListM ε α σ Unit := do
  nodeAlloc node contents
  let h ← get
  if h.head = none then
    listAssert (h.last = none)
    setLast (some node)
    setHead (some node)
  else
    listAssert ((← deref h.last).next = none)
    setNext h.last (some node)
    setLast (some node)

/-- The loop of `list_pop`: the node before the last one. -/
def listPopLoop : Nat → Option Nat → Option Nat → ListM ε α σ (Option Nat)
  | 0, _, _ => throw .outOfFuel
  | n + 1, tmp, prev => do
    if tmp = (← get).last then
      return prev
    else
      listPopLoop n (← deref tmp).next tmp

/-- `list_pop`. -/
def listPop (n : Nat) : ListM ε α σ α := do
  let h ← get
  listAssert (h.last ≠ none)
  let contents := (← deref h.last).contents
  let prev ← listPopLoop n h.head none
  if prev = none then
    free h.head
    setHead none
    setLast none
  else
    setNext prev none
    free h.last
    setLast prev
  return contents

/-- The loop of `list_find`. -/
def listFindLoop (f : α → EStateM ε σ Bool) : Nat → Option Nat → ListM ε α σ (Option α)
  | 0, _ => throw .outOfFuel
  | _ + 1, none => return none
  | n + 1, some curr => do
    let node ← deref (some curr)
    if ← call (f node.contents) then
      return some node.contents
    else
      listFindLoop f n node.next

/-- `list_find`; NULL is `none`. -/
def listFind (n : Nat) (f : α → EStateM ε σ Bool) : ListM ε α σ (Option α) := do
  listFindLoop f n (← get).head

/-- Point past a node: in the one before it, or in `head`. -/
def pointPast (prev next : Option Nat) : ListM ε α σ Unit :=
  if prev = none then setHead next else setNext prev next

/-- The loop of `list_delete_n`; it ends with the last node that stays. -/
def listDeleteNLoop (f : α → EStateM ε σ Bool) :
    Nat → Option Nat → Option Nat → Int → ListM ε α σ (Option Nat)
  | 0, _, _, _ => throw .outOfFuel
  | _ + 1, none, prev, _ => return prev
  | k + 1, some curr, prev, n => do
    let node ← deref (some curr)
    if ← (if n ≠ 0 then call (f node.contents) else pure false) then
      pointPast prev node.next
      free (some curr)
      listDeleteNLoop f k node.next prev (n - 1)
    else
      listDeleteNLoop f k node.next (some curr) n

/-- `list_delete_n`. -/
def listDeleteN (k : Nat) (f : α → EStateM ε σ Bool) (n : Int) : ListM ε α σ Unit := do
  let prev ← listDeleteNLoop f k (← get).head none n
  if (← get).head = none then
    setLast none
  else if (← deref prev).next = none then
    setLast prev
  else
    pure ()

/-- `list_delete`. -/
def listDelete (k : Nat) (f : α → EStateM ε σ Bool) : ListM ε α σ Unit := listDeleteN k f (-1)

/-- `list_delete_first`. -/
def listDeleteFirst (k : Nat) (f : α → EStateM ε σ Bool) : ListM ε α σ Unit := listDeleteN k f 1

/-- The loop of `list_reduce`. -/
def listReduceLoop (f : α → β → EStateM ε σ β) : Nat → Option Nat → β → ListM ε α σ β
  | 0, _, _ => throw .outOfFuel
  | _ + 1, none, data => return data
  | n + 1, some curr, data => do
    let node ← deref (some curr)
    listReduceLoop f n node.next (← call (f node.contents data))

/-- `list_reduce`. -/
def listReduce (n : Nat) (f : α → β → EStateM ε σ β) (data : β) : ListM ε α σ β := do
  listReduceLoop f n (← get).head data

/-- `list_iterate`: as `list_reduce`, with nothing carried along. -/
def listIterate (n : Nat) (f : α → EStateM ε σ Unit) : ListM ε α σ Unit :=
  listReduce n (fun x _ => f x) ()

/-- `deleteWithCount`. -/
def deleteWithCount (_ : α) : EStateM ε Int Bool := do
  modify (· + 1)
  return true

/-- `list_destroy`: the nodes are freed and counted, then the `List` is freed. -/
def listDestroy (k : Nat) : ListM ε α σ Int := do
  let (_, count) ← withData 0 (listDelete k deleteWithCount)
  return count

/-! ## The same on sequences -/

/-- `list_delete_n` on a sequence: while `n` is not 0 the function is asked about the next item,
which goes if it says so. -/
def deleteN (f : α → EStateM ε σ Bool) : Int → List α → EStateM ε σ (List α)
  | _, [] => return []
  | n, x :: xs => do
    if ← (if n ≠ 0 then f x else pure false) then
      deleteN f (n - 1) xs
    else
      return x :: (← deleteN f n xs)

/-- A call of one of the functions. -/
inductive Op (ε α σ β : Type)
  | null
  | peek
  | shift (node : Nat) (contents : α)
  | unshift
  | push (node : Nat) (contents : α)
  | pop
  | find (f : α → EStateM ε σ Bool)
  | deleteN (f : α → EStateM ε σ Bool) (n : Int)
  | delete (f : α → EStateM ε σ Bool)
  | deleteFirst (f : α → EStateM ε σ Bool)
  | reduce (f : α → β → EStateM ε σ β) (data : β)
  | iterate (f : α → EStateM ε σ Unit)

/-- What a call returns. -/
inductive Result (α β : Type)
  | unit
  | flag (b : Bool)
  | item (x : α)
  | found (x : Option α)
  | value (data : β)

/-- The call as `list.c` makes it, with at most `n` rounds of its loop. -/
def Op.run (n : Nat) : Op ε α σ β → ListM ε α σ (Result α β)
  | .null => do return .flag (← listNull)
  | .peek => do return .item (← listPeek)
  | .shift node x => do listShift node x; return .unit
  | .unshift => do return .item (← listUnshift)
  | .push node x => do listPush node x; return .unit
  | .pop => do return .item (← listPop n)
  | .find f => do return .found (← listFind n f)
  | .deleteN f k => do listDeleteN n f k; return .unit
  | .delete f => do listDelete n f; return .unit
  | .deleteFirst f => do listDeleteFirst n f; return .unit
  | .reduce f data => do return .value (← listReduce n f data)
  | .iterate f => do listIterate n f; return .unit

/-- The call on a sequence; `unshift`, `pop` and `peek` are for a sequence that is not empty. -/
def Op.spec : Op ε α σ β → List α → EStateM ε σ (Result α β × List α)
  | .null, xs => return (.flag xs.isEmpty, xs)
  | .peek, xs => return (xs.head?.elim .unit .item, xs)
  | .shift _ x, xs => return (.unit, x :: xs)
  | .unshift, xs => return (xs.head?.elim .unit .item, xs.tail)
  | .push _ x, xs => return (.unit, xs ++ [x])
  | .pop, xs => return (xs.getLast?.elim .unit .item, xs.dropLast)
  | .find f, xs => do return (.found (← xs.findM? f), xs)
  | .deleteN f n, xs => do return (.unit, ← Lists.deleteN f n xs)
  | .delete f, xs => do return (.unit, ← Lists.deleteN f (-1) xs)
  | .deleteFirst f, xs => do return (.unit, ← Lists.deleteN f 1 xs)
  | .reduce f data, xs => do return (.value (← xs.foldlM (fun d x => f x d) data), xs)
  | .iterate f, xs => do xs.forM f; return (.unit, xs)

/-- A call that may be made: the node is a new one, and there is an item to return. -/
def Op.Enabled (h : Heap α σ) (xs : List α) : Op ε α σ β → Prop
  | .shift node _ | .push node _ => h.nodes node = none
  | .peek | .unshift | .pop => xs ≠ []
  | _ => True

end Sos.Lists
