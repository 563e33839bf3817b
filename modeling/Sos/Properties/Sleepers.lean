import Sos.Clock
import Mathlib.Data.List.Range

/-!
# Sleepers are woken once, and not early

A run is a sequence of calls of `register_timer` and `timer_irq` at times that do not go back, with
the nodes in any blocks that are free. What the list of blocked threads stands for is a plain list
(`Sleepers`): `register_timer` puts a thread in front, and `timer_irq` wakes those that are due and
keeps the others in their order.

The loop of `timer_irq` deletes nodes while it goes through them. `timerIrqLoop_spec` is by
induction on its rounds, each of which takes a thread off what is still ahead: a thread that is due
is overwritten by the next one, or by the sentinel, which then ends the list at the node of the
thread.
-/

namespace Sos.Clock

open Hoare Sll

variable {b : Blocked} {s : Sleepers}

/-! ## Runs -/

/-- A call with the time stamps it reads. -/
inductive Event
  | register (ts us client : Nat)
  | irq (ts ts2 : Nat)
deriving DecidableEq, Repr

/-- The state `d` ticks later. -/
def State.elapse (c : State) (d : Nat) : State := { c with tim0 := c.tim0.elapse d }

/-- The states after the calls `es`, each of which satisfies `C`, and the time then. -/
inductive Run (C : State → Event → Prop) : List Event → Nat → State → Prop
  | start (t : Nat) : Run C [] t start
  | register {es : List Event} {t ts us client a : Nat} {c c' : State} : Run C es t c → t ≤ ts →
      c.nodes a = none → client ≠ nilthread → C (c.elapse (ts - t)) (.register ts us client) →
      registerTimer ts us client a (c.elapse (ts - t)) = .ok () c' →
      Run C (es ++ [.register ts us client]) ts c'
  | irq {es : List Event} {t ts ts2 : Nat} {c c' : State} : Run C es t c → t ≤ ts → ts ≤ ts2 →
      C (c.elapse (ts - t)) (.irq ts ts2) → timerIrq ts ts2 (c.elapse (ts2 - t)) = .ok () c' →
      Run C (es ++ [.irq ts ts2]) ts2 c'

/-! ## The list in memory -/

variable {nodes nodes' : Nat → Option (Node Nat Blocked)} {p : Option Nat}
  {l : List (Nat × Blocked)} {a z : Nat} {c c' : State} {C : State → Event → Prop}
  {es : List Event} {t ts ts2 us client : Nat}

/-- From `p` on the list holds the threads of `l`, and then a sentinel at `z`. -/
structure Chain (nodes : Nat → Option (Node Nat Blocked)) (p : Option Nat)
    (l : List (Nat × Blocked)) (z : Nat) : Prop where
  seg : Seg nodes p l (some z)
  last : ∃ u, nodes z = some ⟨⟨nilthread, u⟩, none⟩
  nodup : (addrs l ++ [z]).Nodup
  live : ∀ b ∈ l, b.2.tid ≠ nilthread
  sentinel : ∃ u, nodes sentinel = some ⟨⟨nilthread, u⟩, none⟩

namespace Chain

variable (h : Chain nodes p l z)
include h

/-- The static sentinel is not the node of a thread. -/
theorem sentinel_notMem : Clock.sentinel ∉ addrs l := fun hmem => by
  obtain ⟨⟨_, b⟩, hb, heq⟩ := List.mem_map.mp hmem
  obtain rfl : _ = Clock.sentinel := heq
  obtain ⟨n, hn⟩ := h.seg.exists_next hb
  obtain ⟨u, hu⟩ := h.sentinel
  rw [hu] at hn
  have hcontents := (Node.mk.inj (Option.some.inj hn)).1
  exact h.live _ hb (congrArg Blocked.tid hcontents.symm)

theorem last_notMem : z ∉ addrs l := fun hmem =>
  (List.nodup_append.mp h.nodup).2.2 z hmem z (List.mem_singleton_self z) rfl

/-- A new thread in front. -/
theorem push (ha : nodes a = none) (hb : b.tid ≠ nilthread) :
    Chain (Function.update nodes a (some ⟨b, p⟩)) (some a) ((a, b) :: l) z := by
  have hal := h.seg.notMem_of_none ha
  obtain ⟨u, hu⟩ := h.last
  obtain ⟨v, hv⟩ := h.sentinel
  have haz : z ≠ a := by
    rintro rfl
    rw [ha] at hu
    simp at hu
  have has : Clock.sentinel ≠ a := by
    rintro rfl
    rw [ha] at hv
    simp at hv
  refine ⟨⟨rfl, p, Function.update_self .., h.seg.update hal _⟩, ⟨u, ?_⟩, ?_, ?_, ⟨v, ?_⟩⟩
  · rw [Function.update_of_ne haz, hu]
  · refine List.nodup_cons.mpr ⟨?_, h.nodup⟩
    simpa using ⟨by simpa using hal, haz.symm⟩
  · intro b' hb'
    rcases List.mem_cons.mp hb' with rfl | hb'
    · exact hb
    · exact h.live b' hb'
  · rw [Function.update_of_ne has, hv]

end Chain

theorem Chain.tail {n : Option Nat} (h : Chain nodes p ((a, b) :: l) z)
    (hn : nodes a = some ⟨b, n⟩) : Chain nodes n l z := by
  obtain ⟨-, n', hn', hseg⟩ := h.seg
  obtain rfl : n' = n := (Node.mk.inj (Option.mem_unique hn' hn)).2
  exact ⟨hseg, h.last, (List.nodup_cons.mp h.nodup).2,
    fun b hb => h.live b (List.mem_cons_of_mem _ hb), h.sentinel⟩

theorem Chain.cons (h : Chain nodes p l z) (ha : nodes a = some ⟨b, p⟩)
    (hb : b.tid ≠ nilthread) (hnot : a ∉ addrs l ++ [z]) :
      Chain nodes (some a) ((a, b) :: l) z := by
  refine ⟨⟨rfl, p, ha, h.seg⟩, h.last, List.nodup_cons.mpr ⟨hnot, h.nodup⟩, fun x hx => ?_,
    h.sentinel⟩
  rcases List.mem_cons.mp hx with rfl | hx
  · exact hb
  · exact h.live x hx

/-- The first thread is overwritten by the next one, whose node goes. -/
theorem Chain.delete {b b' : Blocked} {a' : Nat} {n : Option Nat}
    (h : Chain nodes p ((a, b) :: (a', b') :: l) z) (hn : nodes a' = some ⟨b', n⟩) :
    Chain (Function.update (Function.update nodes a (some ⟨b', n⟩)) a' none) (some a)
      ((a, b') :: l) z := by
  obtain ⟨-, n₁, -, -, n₂, hn₂, hseg⟩ := h.seg
  obtain rfl : n₂ = n := (Node.mk.inj (Option.mem_unique hn₂ hn)).2
  have hnd : (a :: a' :: (addrs l ++ [z])).Nodup := h.nodup
  obtain ⟨hna, hnd'⟩ := List.nodup_cons.mp hnd
  obtain ⟨hna', hndl⟩ := List.nodup_cons.mp hnd'
  have haa' : a ≠ a' := fun heq => hna (heq ▸ List.mem_cons_self ..)
  have hal : a ∉ addrs l ++ [z] := fun hmem => hna (List.mem_cons_of_mem _ hmem)
  have hsame : ∀ x, x ≠ a → x ≠ a' →
      Function.update (Function.update nodes a (some ⟨b', n₂⟩)) a' none x = nodes x :=
    fun x hx hx' => by rw [Function.update_of_ne hx', Function.update_of_ne hx]
  obtain ⟨u, hu⟩ := h.last
  obtain ⟨v, hv⟩ := h.sentinel
  have hs := h.sentinel_notMem
  refine ⟨⟨rfl, n₂, ?_, hseg.congr fun x hx => ?_⟩, ⟨u, ?_⟩, ?_, ?_, ⟨v, ?_⟩⟩
  · rw [Function.update_of_ne haa', Function.update_self]
  · have hxl : x ∈ addrs l ++ [z] := List.mem_append_left _ hx
    exact hsame x (fun heq => hal (heq ▸ hxl)) fun heq => hna' (heq ▸ hxl)
  · have hzl : z ∈ addrs l ++ [z] := List.mem_append_right _ (List.mem_singleton_self z)
    rw [hsame z (fun heq => hal (heq ▸ hzl)) fun heq => hna' (heq ▸ hzl), hu]
  · exact List.nodup_cons.mpr ⟨hal, hndl⟩
  · intro x hx
    rcases List.mem_cons.mp hx with rfl | hx
    · exact h.live (a', b') (by simp)
    · exact h.live x (by simp [hx])
  · rw [hsame _ (fun heq => hs (by simp [heq])) fun heq => hs (by simp [heq]), hv]

/-- The last thread is overwritten by the sentinel. -/
theorem Chain.deleteLast (h : Chain nodes p [(a, b)] z) (u : Nat) :
    Chain (Function.update nodes a (some ⟨⟨nilthread, u⟩, none⟩)) (some a) [] a := by
  obtain ⟨v, hv⟩ := h.sentinel
  have hs : Clock.sentinel ≠ a := fun heq => h.sentinel_notMem (by simp [heq])
  refine ⟨rfl, ⟨u, Function.update_self ..⟩, List.nodup_singleton a, by simp, ⟨v, ?_⟩⟩
  rw [Function.update_of_ne hs, hv]

/-! ## The functions -/

theorem deref_returns {node : Node Nat Blocked} (ha : c.nodes a = some node) :
    Returns (deref (some a)) c node c := by
  unfold deref
  rw [Returns, wp_bind, wp_get]
  simp only [ha]
  exact wp_pure.mpr ⟨rfl, rfl⟩

theorem isSentinel_returns {node : Node Nat Blocked} {u : Nat} (ha : c.nodes a = some node)
    (hs : c.nodes sentinel = some ⟨⟨nilthread, u⟩, none⟩) :
    Returns (isSentinel (some a)) c (node.contents.tid = nilthread) c := by
  unfold isSentinel
  rw [Returns, (deref_returns ha).bind_iff, (deref_returns hs).bind_iff]
  exact wp_pure.mpr ⟨rfl, rfl⟩

/-- The threads of `bs` have been woken, which leaves the nodes `nodes`. -/
def State.woken (c : State) (bs : List Blocked) (nodes : Nat → Option (Node Nat Blocked)) : State :=
  { c with
    nodes := nodes
    asleep := bs.foldl (fun asleep b => Function.update asleep b.tid false) c.asleep
    replies := c.replies ++ bs.map Blocked.tid }

theorem State.woken_woken (c : State) (bs bs' : List Blocked)
    (nodes nodes' : Nat → Option (Node Nat Blocked)) :
    (c.woken bs nodes).woken bs' nodes' = c.woken (bs ++ bs') nodes' := by
  simp [State.woken]

theorem wake_returns {b b' : Blocked} {a' : Nat}
    (h : Chain c.nodes p ((a, b) :: (a', b') :: l) z) :
    ∃ nodes', Returns (wake a ⟨b, some a'⟩) c () (c.woken [b] nodes') ∧
      Chain nodes' (some a) ((a, b') :: l) z ∧
      ∀ x ∉ addrs ((a, b) :: (a', b') :: l), nodes' x = c.nodes x := by
  obtain ⟨-, n₁, -, -, n, hn, -⟩ := h.seg
  obtain ⟨u, hu⟩ := h.sentinel
  have haa' : a' ≠ a := fun heq => (List.nodup_cons.mp h.nodup).1 (by simp [heq])
  have hsa : sentinel ≠ a := fun heq => h.sentinel_notMem (by simp [heq])
  have hlive : b'.tid ≠ nilthread := h.live (a', b') (by simp)
  have hderef : Returns (deref (some a')) (c.woken [b] c.nodes) ⟨b', n⟩ (c.woken [b] c.nodes) :=
    deref_returns hn
  let nodes₁ := Function.update c.nodes a (some ⟨b', n⟩)
  have hnode : (c.woken [b] nodes₁).nodes a' = some ⟨b', n⟩ :=
    (Function.update_of_ne haa' ..).trans hn
  have htest := isSentinel_returns hnode ((Function.update_of_ne hsa ..).trans hu)
  refine ⟨_, ?_, h.delete hn, fun x hx => ?_⟩
  · unfold wake setNode
    rw [Returns, wp_bind, wp_modify]
    change Wp _ (c.woken [b] c.nodes) _ _
    rw [hderef.bind_iff, wp_bind, wp_modify]
    change Wp _ (c.woken [b] nodes₁) _ _
    rw [htest.bind_iff]
    simp only [hlive, decide_false, Bool.not_false, if_true]
    rw [wp_modify]
    exact ⟨trivial, rfl⟩
  · have hxa : x ≠ a := fun heq => hx (by simp [heq])
    have hxa' : x ≠ a' := fun heq => hx (by simp [heq])
    rw [Function.update_of_ne hxa', Function.update_of_ne hxa]

theorem wake_last_returns (h : Chain c.nodes p [(a, b)] z) :
    ∃ nodes', Returns (wake a ⟨b, some z⟩) c () (c.woken [b] nodes') ∧
      Chain nodes' (some a) [] a ∧ ∀ x ∉ addrs [(a, b)], nodes' x = c.nodes x := by
  obtain ⟨u, hu⟩ := h.last
  obtain ⟨v, hv⟩ := h.sentinel
  have hza : z ≠ a := fun heq => h.last_notMem (by simp [heq])
  have hsa : sentinel ≠ a := fun heq => h.sentinel_notMem (by simp [heq])
  have hderef : Returns (deref (some z)) (c.woken [b] c.nodes) ⟨⟨nilthread, u⟩, none⟩
      (c.woken [b] c.nodes) := deref_returns hu
  let nodes₁ := Function.update c.nodes a (some ⟨⟨nilthread, u⟩, none⟩)
  have hnode : (c.woken [b] nodes₁).nodes z = some ⟨⟨nilthread, u⟩, none⟩ :=
    (Function.update_of_ne hza ..).trans hu
  have htest := isSentinel_returns hnode ((Function.update_of_ne hsa ..).trans hv)
  refine ⟨_, ?_, h.deleteLast u, fun x hx => Function.update_of_ne (by simpa using hx) ..⟩
  unfold wake setNode
  rw [Returns, wp_bind, wp_modify]
  change Wp _ (c.woken [b] c.nodes) _ _
  rw [hderef.bind_iff, wp_bind, wp_modify]
  change Wp _ (c.woken [b] nodes₁) _ _
  rw [htest.bind_iff]
  simp only [decide_true, Bool.not_true, Bool.false_eq_true, if_false]
  exact wp_pure.mpr ⟨trivial, rfl⟩

/-- The threads that are due, and the ones that are not. -/
def due (ts : Nat) (bs : List Blocked) : List Blocked := bs.filter (·.unblock ≤ ts)

def later (ts : Nat) (bs : List Blocked) : List Blocked := bs.filter (ts < ·.unblock)

/-- The contents of the nodes. -/
abbrev contents (l : List (Nat × Blocked)) : List Blocked := l.map Prod.snd

/-- The loop of `timer_irq` wakes the threads that are due, in order, and keeps the others. -/
theorem timerIrqLoop_spec (ts n : Nat) (p : Option Nat) (d : NextDelay)
    (h : Chain c.nodes p l z) (hn : l.length < n) :
    ∃ nodes' l' z', Returns (timerIrqLoop ts n p d) c
        ((later ts (contents l)).foldl (fun d b => d.see ts b) d)
        (c.woken (due ts (contents l)) nodes') ∧
      Chain nodes' p l' z' ∧ contents l' = later ts (contents l) ∧
      (∀ x ∉ addrs l, nodes' x = c.nodes x) ∧
      (∀ x ∈ addrs l', x ∈ addrs l) ∧ z' ∈ addrs l ++ [z] := by
  induction n generalizing l p d c z with
  | zero => omega
  | succ n ih =>
    cases l with
    | nil =>
      obtain rfl : p = some z := h.seg
      obtain ⟨u, hu⟩ := h.last
      obtain ⟨v, hv⟩ := h.sentinel
      refine ⟨c.nodes, [], z, ?_, h, rfl, fun _ _ => rfl, fun _ hx => hx, by simp⟩
      unfold timerIrqLoop
      rw [Returns, (isSentinel_returns hu hv).bind_iff]
      simp only [decide_true, if_true]
      refine wp_pure.mpr ⟨rfl, ?_⟩
      simp [State.woken, due]
    | cons x l =>
      obtain ⟨a, b⟩ := x
      obtain ⟨rfl, next, hnode, hseg⟩ := h.seg
      obtain ⟨v, hv⟩ := h.sentinel
      have hlive : b.tid ≠ nilthread := h.live (a, b) (by simp)
      have hlength : l.length < n := by simpa using hn
      unfold timerIrqLoop
      simp only [Returns, (isSentinel_returns hnode hv).bind_iff, hlive, decide_false,
        Bool.false_eq_true, if_false]
      by_cases hdue : b.unblock ≤ ts
      · have hdueCons : due ts (contents ((a, b) :: l)) = b :: due ts (contents l) := by
          simp [due, hdue]
        have hlaterCons : later ts (contents ((a, b) :: l)) = later ts (contents l) := by
          simp [later, hdue]
        -- Both ways of deleting leave a list at `a` with one thread less.
        obtain ⟨nodes₁, l₁, z₁, hwake, hchain, hcontents, houtside, hsub, hlast⟩ :
            ∃ nodes₁ l₁ z₁, Returns (wake a ⟨b, next⟩) c () (c.woken [b] nodes₁) ∧
              Chain nodes₁ (some a) l₁ z₁ ∧ contents l₁ = contents l ∧
              (∀ x ∉ addrs ((a, b) :: l), nodes₁ x = c.nodes x) ∧
              (∀ x ∈ addrs l₁, x ∈ addrs ((a, b) :: l)) ∧ z₁ ∈ addrs ((a, b) :: l) ++ [z] := by
          cases l with
          | nil =>
            obtain rfl : next = some z := hseg
            obtain ⟨nodes₁, hwake, hchain, houtside⟩ := wake_last_returns h
            exact ⟨nodes₁, [], a, hwake, hchain, rfl, houtside, by simp, by simp⟩
          | cons x l =>
            obtain ⟨a', b'⟩ := x
            obtain rfl : next = some a' := hseg.1
            obtain ⟨nodes₁, hwake, hchain, houtside⟩ := wake_returns h
            refine ⟨nodes₁, (a, b') :: l, z, hwake, hchain, rfl, houtside, fun x hx => ?_, by simp⟩
            simp only [addrs, List.map_cons, List.mem_cons] at hx ⊢
            exact hx.imp_right .inr
        have hlength₁ : l₁.length < n := by
          have := congrArg List.length hcontents
          simp only [List.length_map] at this
          omega
        obtain ⟨nodes', l', z', hloop, hchain', hcontents', houtside', hsub', hlast'⟩ :=
          ih (c := c.woken [b] nodes₁) (p := some a) (d := d) hchain hlength₁
        refine ⟨nodes', l', z', ?_, hchain', ?_, fun x hx => ?_, fun x hx =>
          hsub x (hsub' x hx), ?_⟩
        · rw [(deref_returns hnode).bind_iff, if_pos hdue, hwake.bind_iff, hdueCons, hlaterCons]
          rw [hcontents, State.woken_woken] at hloop
          exact hloop
        · rw [hcontents', hcontents, hlaterCons]
        · rw [houtside' x fun hmem => hx (hsub x hmem)]
          exact houtside x hx
        · rcases List.mem_append.mp hlast' with hmem | hmem
          · exact List.mem_append_left _ (hsub z' hmem)
          · rwa [List.mem_singleton.mp hmem]
      · have hdueCons : due ts (contents ((a, b) :: l)) = due ts (contents l) := by
          simp [due, hdue]
        have hlaterCons : later ts (contents ((a, b) :: l)) = b :: later ts (contents l) := by
          simp [later, Nat.lt_of_not_le hdue]
        obtain ⟨nodes', l', z', hloop, hchain', hcontents', houtside', hsub', hlast'⟩ :=
          ih (p := next) (d := d.see ts b) (h.tail hnode) hlength
        have hnd := List.nodup_cons.mp h.nodup
        have hal : a ∉ addrs l := fun hmem => hnd.1 (List.mem_append_left _ hmem)
        refine ⟨nodes', (a, b) :: l', z', ?_, hchain'.cons ?_ hlive ?_, ?_, fun x hx => ?_,
          fun x hx => ?_, List.mem_cons_of_mem _ hlast'⟩
        · rw [(deref_returns hnode).bind_iff, if_neg hdue, hdueCons, hlaterCons]
          exact hloop
        · rw [houtside' a hal, hnode]
        · intro hmem
          rcases List.mem_append.mp hmem with hmem | hmem
          · exact hal (hsub' a hmem)
          · exact hnd.1 (List.mem_singleton.mp hmem ▸ hlast')
        · rw [hlaterCons, ← hcontents']
          rfl
        · exact houtside' x fun hmem => hx (List.mem_cons_of_mem _ hmem)
        · rcases List.mem_cons.mp hx with rfl | hx
          · exact List.mem_cons_self ..
          · exact List.mem_cons_of_mem _ (hsub' x hx)

/-! ## The calls -/

/-- The list of blocked threads stands for `bs`. -/
def Holds (c : State) (bs : List Blocked) : Prop :=
  ∃ l z, Chain c.nodes c.blockedThreads l z ∧ contents l = bs ∧ l.length ≤ c.registered

/-- The threads met on the way from a node on, before the sentinel. -/
def walk (nodes : Nat → Option (Node Nat Blocked)) : Nat → Option Nat → List Blocked
  | 0, _ | _, none => []
  | n + 1, some a =>
    match nodes a with
    | none => []
    | some node =>
      if node.contents.tid = nilthread then [] else node.contents :: walk nodes n node.next

/-- The list of blocked threads. -/
def State.blocked (c : State) : List Blocked := walk c.nodes (c.registered + 1) c.blockedThreads

theorem Chain.walk_eq {n : Nat} (h : Chain nodes p l z) (hn : l.length < n) :
    walk nodes n p = contents l := by
  induction n generalizing l p with
  | zero => omega
  | succ n ih =>
    cases l with
    | nil =>
      obtain rfl : p = some z := h.seg
      obtain ⟨u, hu⟩ := h.last
      simp [walk, hu]
    | cons x l =>
      obtain ⟨a, b⟩ := x
      obtain ⟨rfl, next, hnode, -⟩ := h.seg
      have hlive : b.tid ≠ nilthread := h.live (a, b) (by simp)
      simp [walk, hnode, hlive, ih (h.tail hnode) (by simpa using hn)]

theorem Holds.blocked_eq {bs : List Blocked} (h : Holds c bs) : c.blocked = bs := by
  obtain ⟨l, z, hchain, rfl, hlength⟩ := h
  exact hchain.walk_eq (Nat.lt_succ_of_le hlength)

/-- The deadline of a thread that is registered at `ts`. -/
def deadline (ts us : Nat) : Nat := (ts + delayTicks us) % stampLimit

theorem holds_start : Holds start [] := by
  refine ⟨[], sentinel, ⟨rfl, ⟨0, ?_⟩, by simp, by simp, ⟨0, ?_⟩⟩, rfl, le_rfl⟩ <;> rfl

variable {bs : List Blocked}

/-- `register_timer` puts the thread in front, and may load the counter. -/
theorem registerTimer_spec (h : Holds c bs) (ha : c.nodes a = none) (hclient : client ≠ nilthread)
    (ts us : Nat) :
    ∃ c', registerTimer ts us client a c = .ok () c' ∧
      Holds c' (⟨client, deadline ts us⟩ :: bs) ∧ c'.replies = c.replies ∧
      c'.tim0 = if c.tim0.rearms (delayTicks us) then
        .load (delayTicks us % wordLimit ||| oneshotEnable) else c.tim0 := by
  obtain ⟨l, z, hchain, hcontents, hlength⟩ := h
  let c₁ : State := { c with
    nodes := Function.update c.nodes a (some ⟨⟨client, deadline ts us⟩, c.blockedThreads⟩)
    blockedThreads := some a
    asleep := Function.update c.asleep client true
    registered := c.registered + 1 }
  have hstate : Returns (registerTimer ts us client a) c ()
      (if c.tim0.rearms (delayTicks us) then
        { c₁ with tim0 := .load (delayTicks us % wordLimit ||| oneshotEnable) } else c₁) := by
    unfold registerTimer
    rw [Returns, wp_bind, wp_modify, wp_bind, wp_get, wp_ite]
    refine ⟨fun harm => ?_, fun harm => ?_⟩
    · rw [wp_modify]
      exact ⟨rfl, (if_pos harm).symm⟩
    · exact wp_pure.mpr ⟨rfl, (if_neg harm).symm⟩
  have hpush : Holds c₁ (⟨client, deadline ts us⟩ :: bs) :=
    ⟨(a, ⟨client, deadline ts us⟩) :: l, z, hchain.push ha hclient, by simp [hcontents],
      by simpa [c₁] using hlength⟩
  refine ⟨_, hstate.run, ?_⟩
  split
  · exact ⟨hpush, rfl, rfl⟩
  · exact ⟨hpush, rfl, rfl⟩

/-- What `timer_irq` finds out about the threads that go on sleeping. -/
def nextDelay (ts : Nat) (bs : List Blocked) : NextDelay :=
  bs.foldl (fun d b => d.see ts b) ⟨false, wordLimit - 1⟩

/-- `timer_irq` replies to the threads that are due, keeps the others, and loads the counter. -/
theorem timerIrq_spec (h : Holds c bs) (ts ts2 : Nat) :
    ∃ c', timerIrq ts ts2 c = .ok () c' ∧ Holds c' (later ts bs) ∧
      c'.replies = c.replies ++ (due ts bs).map Blocked.tid ∧
      c'.tim0 = if (nextDelay ts (later ts bs)).delay then
        .load ((nextDelay ts (later ts bs)).adjust ts ts2 ||| oneshotEnable) else .load 0 := by
  obtain ⟨l, z, hchain, rfl, hlength⟩ := h
  obtain ⟨nodes', l', z', hloop, hchain', hcontents, -, -, -⟩ :=
    timerIrqLoop_spec ts (c.registered + 1) c.blockedThreads ⟨false, wordLimit - 1⟩ hchain
      (Nat.lt_succ_of_le hlength)
  have hsome : c.blockedThreads.isNone = false := by
    cases l with
    | nil => rw [(hchain.seg : c.blockedThreads = some z)]; rfl
    | cons x l => rw [hchain.seg.1]; rfl
  have hfinal : Returns (timerIrq ts ts2) c ()
      { c.woken (due ts (contents l)) nodes' with
        tim0 := if (nextDelay ts (later ts (contents l))).delay then
          .load ((nextDelay ts (later ts (contents l))).adjust ts ts2 ||| oneshotEnable)
          else .load 0 } := by
    unfold timerIrq
    rw [Returns, wp_bind, wp_get, hsome]
    simp only [Bool.false_eq_true, if_false]
    rw [hloop.bind_iff, wp_modify]
    exact ⟨trivial, rfl⟩
  refine ⟨_, hfinal.run, ⟨l', z', hchain', hcontents, ?_⟩, rfl, rfl⟩
  have hle : (later ts (contents l)).length ≤ (contents l).length := List.length_filter_le ..
  have hlen := congrArg List.length hcontents
  simp only [List.length_map] at hlen hle
  exact (hlen.trans_le hle).trans hlength

/-! ## What the list is for -/

/-- A sleeping thread with the number of the call that registered it. -/
structure Sleeper extends Blocked where
  id : Nat
deriving DecidableEq, Repr

/-- The threads asleep, the newest first, the threads woken, each with the number of the call that
woke it, and the number of calls. -/
structure Sleepers where
  blocked : List Sleeper
  woken : List (Sleeper × Nat)
  calls : Nat

def Sleepers.step (s : Sleepers) : Event → Sleepers
  | .register ts us client =>
    ⟨⟨⟨client, deadline ts us⟩, s.calls⟩ :: s.blocked, s.woken, s.calls + 1⟩
  | .irq ts _ =>
    ⟨s.blocked.filter (ts < ·.unblock),
      s.woken ++ (s.blocked.filter (·.unblock ≤ ts)).map (·, s.calls), s.calls + 1⟩

def sleepers (es : List Event) : Sleepers := es.foldl Sleepers.step ⟨[], [], 0⟩

theorem sleepers_append (es : List Event) (e : Event) :
    sleepers (es ++ [e]) = (sleepers es).step e := by
  simp [sleepers]

/-- A call wakes a thread with the deadline `d`. -/
def Event.wakes (d : Nat) : Event → Bool
  | .register .. => false
  | .irq ts _ => d ≤ ts

/-- The first call after the `i`-th that wakes a thread with the deadline `d`. -/
def firstDue (es : List Event) (i d : Nat) : Option Nat :=
  (es.zipIdx.find? fun x => i < x.2 && x.1.wakes d).map Prod.snd

theorem firstDue_append (es : List Event) (e : Event) (i d : Nat) :
    firstDue (es ++ [e]) i d =
      (firstDue es i d).or (if i < es.length ∧ e.wakes d then some es.length else none) := by
  unfold firstDue
  rw [List.zipIdx_append, List.find?_append, Option.map_or]
  congr 1
  by_cases he : i < es.length ∧ e.wakes d
  · simp [he]
  · rw [if_neg he]
    simpa using he

theorem firstDue_of_le {i : Nat} (d : Nat) (h : es.length ≤ i) : firstDue es i d = none := by
  unfold firstDue
  rw [Option.map_eq_none_iff, List.find?_eq_none]
  intro x hx
  have := List.snd_lt_of_mem_zipIdx hx
  simp
  omega

theorem filter_id_eq {s : Sleeper} : ∀ {bs : List Sleeper}, (bs.map Sleeper.id).Pairwise (· > ·) →
    s ∈ bs → bs.filter (·.id = s.id) = [s]
  | b :: bs, hp, hs => by
    obtain ⟨hb, hp⟩ := List.pairwise_cons.mp hp
    have hlt : ∀ x ∈ bs, x.id < b.id := fun x hx => hb _ (List.mem_map_of_mem hx)
    rcases List.mem_cons.mp hs with rfl | hs
    · have hnone : bs.filter (·.id = s.id) = [] :=
        List.filter_eq_nil_iff.mpr fun x hx => by simpa using (hlt x hx).ne
      rw [List.filter_cons_of_pos (by simp), hnone]
    · rw [List.filter_cons_of_neg (by simpa using (hlt s hs).ne'), filter_id_eq hp hs]

/-- The abstract list over a whole run: who is asleep, and who has been woken by which call. -/
structure Sleepers.Sound (es : List Event) (s : Sleepers) : Prop where
  calls : s.calls = es.length
  newest : (s.blocked.map Sleeper.id).Pairwise (· > ·)
  blocked : ∀ x, x ∈ s.blocked ↔ ∃ ts us, es[x.id]? = some (.register ts us x.tid) ∧
    x.unblock = deadline ts us ∧ firstDue es x.id x.unblock = none
  woken : ∀ i ts us client, es[i]? = some (.register ts us client) →
    (s.woken.filter (·.1.id = i)).map (fun w => (w.1.tid, w.2)) =
      ((firstDue es i (deadline ts us)).map (client, ·)).toList
  registered : ∀ w ∈ s.woken, ∃ ts us, es[w.1.id]? = some (.register ts us w.1.tid)

theorem Sleepers.Sound.lt (h : s.Sound es) {x : Sleeper} (hx : x ∈ s.blocked) :
    x.id < es.length := by
  obtain ⟨ts, us, hreg, -⟩ := (h.blocked x).mp hx
  exact (List.getElem?_eq_some_iff.mp hreg).1

theorem Sleepers.Sound.register (h : s.Sound es) (ts us client : Nat) :
    (s.step (.register ts us client)).Sound (es ++ [.register ts us client]) := by
  have hdue : ∀ i d, firstDue (es ++ [.register ts us client]) i d = firstDue es i d :=
    fun i d => by
    rw [firstDue_append, if_neg (by simp [Event.wakes]), Option.or_none]
  refine ⟨by simp [step, h.calls], ?_, fun x => ?_, fun i ts' us' client' hreg => ?_,
    fun w hw => ?_⟩
  · refine List.pairwise_cons.mpr ⟨fun i hi => ?_, h.newest⟩
    obtain ⟨x, hx, rfl⟩ := List.mem_map.mp hi
    exact h.calls ▸ h.lt hx
  · rw [hdue]
    constructor
    · intro hx
      rcases List.mem_cons.mp hx with rfl | hx
      · exact ⟨ts, us, by simp [h.calls], rfl, firstDue_of_le _ h.calls.ge⟩
      · obtain ⟨ts', us', hreg, hrest⟩ := (h.blocked x).mp hx
        exact ⟨ts', us', by rw [List.getElem?_append_left (h.lt hx), hreg], hrest⟩
    · rintro ⟨ts', us', hreg, hunblock, hnone⟩
      by_cases hlt : x.id < es.length
      · rw [List.getElem?_append_left hlt] at hreg
        exact List.mem_cons_of_mem _ ((h.blocked x).mpr ⟨ts', us', hreg, hunblock, hnone⟩)
      · rw [List.getElem?_append_right (by omega), List.getElem?_singleton] at hreg
        split at hreg
        · next hzero =>
          obtain ⟨⟨tid, unblock⟩, id⟩ := x
          obtain ⟨rfl, rfl, rfl⟩ : ts = ts' ∧ us = us' ∧ client = tid := by simpa using hreg
          obtain rfl : id = s.calls := by
            simp only at hzero hlt
            have := h.calls
            omega
          rw [show unblock = deadline ts us from hunblock]
          exact List.mem_cons_self ..
        · simp at hreg
  · rw [hdue]
    by_cases hlt : i < es.length
    · rw [List.getElem?_append_left hlt] at hreg
      exact h.woken i ts' us' client' hreg
    · -- The new thread has not been woken.
      have hnone : s.woken.filter (·.1.id = i) = [] := List.filter_eq_nil_iff.mpr fun w hw => by
        obtain ⟨ts'', us'', hw'⟩ := h.registered w hw
        have := (List.getElem?_eq_some_iff.mp hw').1
        simp
        omega
      show (s.woken.filter _).map _ = _
      rw [hnone, firstDue_of_le _ (by omega)]
      rfl
  · obtain ⟨ts', us', hreg⟩ := h.registered w hw
    exact ⟨ts', us', by rw [List.getElem?_append_left (List.getElem?_eq_some_iff.mp hreg).1, hreg]⟩

theorem Sleepers.Sound.irq (h : s.Sound es) (ts ts2 : Nat) :
    (s.step (.irq ts ts2)).Sound (es ++ [.irq ts ts2]) := by
  have hreg : ∀ i ts' us client : Nat,
      (es ++ [.irq ts ts2])[i]? = some (Event.register ts' us client) ↔
        es[i]? = some (.register ts' us client) := fun i ts' us client => by
    by_cases hlt : i < es.length
    · rw [List.getElem?_append_left hlt]
    · rw [List.getElem?_append_right (by omega), List.getElem?_singleton,
        List.getElem?_eq_none (by omega)]
      split <;> simp
  have hdue : ∀ i d, i < es.length → firstDue (es ++ [.irq ts ts2]) i d =
      (firstDue es i d).or (if d ≤ ts then some es.length else none) := fun i d hi => by
    rw [firstDue_append]
    simp [Event.wakes, hi]
  refine ⟨by simp [step, h.calls], ?_, fun x => ?_, fun i ts' us client hi => ?_, fun w hw => ?_⟩
  · exact h.newest.sublist (List.filter_sublist.map _)
  · simp only [step, List.mem_filter, h.blocked x, decide_eq_true_eq, hreg]
    constructor
    · rintro ⟨⟨ts', us, hx, hunblock, hnone⟩, hlater⟩
      refine ⟨ts', us, hx, hunblock, ?_⟩
      rw [hdue _ _ (List.getElem?_eq_some_iff.mp hx).1, hnone, if_neg (by omega)]
      rfl
    · rintro ⟨ts', us, hx, hunblock, hnone⟩
      rw [hdue _ _ (List.getElem?_eq_some_iff.mp hx).1, Option.or_eq_none_iff] at hnone
      refine ⟨⟨ts', us, hx, hunblock, hnone.1⟩, ?_⟩
      by_contra hle
      rw [if_pos (by omega)] at hnone
      simp at hnone
  · rw [hreg] at hi
    have hlt := (List.getElem?_eq_some_iff.mp hi).1
    have hwoken := h.woken i ts' us client hi
    have hmap : ((s.blocked.filter (·.unblock ≤ ts)).map (·, s.calls)).filter (·.1.id = i) =
        ((s.blocked.filter (·.id = i)).filter (·.unblock ≤ ts)).map (·, s.calls) := by
      rw [List.filter_map, List.filter_comm]
      rfl
    simp only [step, List.filter_append, List.map_append, hwoken, hdue i _ hlt, hmap]
    cases hfirst : firstDue es i (deadline ts' us) with
    | none =>
      have hmem : (⟨⟨client, deadline ts' us⟩, i⟩ : Sleeper) ∈ s.blocked :=
        (h.blocked _).mpr ⟨ts', us, hi, rfl, hfirst⟩
      rw [filter_id_eq h.newest hmem]
      by_cases hle : deadline ts' us ≤ ts <;> simp [hle, h.calls]
    | some j =>
      -- It has been woken before, so it is not in the list.
      have hnone : s.blocked.filter (·.id = i) = [] := List.filter_eq_nil_iff.mpr fun x hx => by
        obtain ⟨ts'', us', hx', hunblock, hnot⟩ := (h.blocked x).mp hx
        intro hid
        obtain rfl : x.id = i := by simpa using hid
        obtain ⟨rfl, rfl, -⟩ : ts'' = ts' ∧ us' = us ∧ x.tid = client := by
          simpa using hx'.symm.trans hi
        rw [hunblock, hfirst] at hnot
        simp at hnot
      rw [hnone]
      simp
  · simp only [step, List.mem_append, List.mem_map, List.mem_filter] at hw
    simp only [hreg]
    rcases hw with hw | ⟨x, ⟨hx, -⟩, rfl⟩
    · exact h.registered w hw
    · obtain ⟨ts', us, hx', -⟩ := (h.blocked x).mp hx
      exact ⟨ts', us, hx'⟩

/-! ## Whole runs -/

theorem sleepers_sound (es : List Event) : (sleepers es).Sound es := by
  induction es using List.reverseRecOn with
  | nil => exact ⟨rfl, .nil, by simp [sleepers], by simp, by simp [sleepers]⟩
  | append_singleton es e ih =>
    rw [sleepers_append]
    cases e with
    | register ts us client => exact ih.register ts us client
    | irq ts ts2 => exact ih.irq ts ts2

/-- The list in memory stands for the threads asleep, and the replies are those to the threads
woken. -/
theorem Run.holds (h : Run C es t c) :
    Holds c ((sleepers es).blocked.map Sleeper.toBlocked) ∧
      c.replies = (sleepers es).woken.map (·.1.tid) := by
  induction h with
  | start => exact ⟨holds_start, rfl⟩
  | @register es t ts us client a c c' _ _ ha hclient _ hrun ih =>
    obtain ⟨c₁, hrun₁, hholds, hreplies, -⟩ :=
      registerTimer_spec (c := c.elapse (ts - t)) ih.1 ha hclient ts us
    obtain ⟨-, rfl⟩ := EStateM.Result.ok.inj (hrun₁.symm.trans hrun)
    rw [sleepers_append]
    exact ⟨hholds, hreplies.trans ih.2⟩
  | @irq es t ts ts2 c c' _ _ _ _ hrun ih =>
    obtain ⟨c₁, hrun₁, hholds, hreplies, -⟩ :=
      timerIrq_spec (c := c.elapse (ts2 - t)) ih.1 ts ts2
    obtain ⟨-, rfl⟩ := EStateM.Result.ok.inj (hrun₁.symm.trans hrun)
    rw [sleepers_append]
    refine ⟨?_, ?_⟩
    · rw [later, List.filter_map] at hholds
      exact hholds
    · rw [hreplies, due, List.filter_map, show (c.elapse (ts2 - t)).replies = _ from ih.2]
      simp [Sleepers.step, Function.comp_def]

/-- The deadline, as long as 64 bits are enough. -/
theorem deadline_eq (hus : us * 3333 < stampLimit)
    (hts : ts + max 1 (us * 3333 / 50) < stampLimit) :
    deadline ts us = ts + max 1 (us * 3333 / 50) := by
  have hticks : delayTicks us = max 1 (us * 3333 / 50) := by
    unfold delayTicks us2ticks
    rw [Nat.mod_eq_of_lt hus]
    split <;> omega
  rw [deadline, hticks, Nat.mod_eq_of_lt hts]

/-- **Sleepers are woken once, and not early.** The replies of a run are those to the threads woken,
and a thread is woken once at most: by the first `timer_irq` after its registration whose time stamp
is at or after its deadline, if there has been one. The list of blocked threads ends in a sentinel
and holds, the newest first, exactly the other threads. Another `timer_irq` returns, and leaves in
the list the threads with later deadlines, in the same order. -/
theorem sleepers_woken_once (h : Run C es t c) :
    (∀ ts us, us * 3333 < stampLimit → ts + max 1 (us * 3333 / 50) < stampLimit →
      deadline ts us = ts + max 1 (us * 3333 / 50)) ∧
    c.replies = (sleepers es).woken.map (·.1.tid) ∧ (sleepers es).Sound es ∧
    Holds c ((sleepers es).blocked.map Sleeper.toBlocked) ∧
    ∀ ts ts2, ∃ c', timerIrq ts ts2 c = .ok () c' ∧
      Holds c' (later ts ((sleepers es).blocked.map Sleeper.toBlocked)) := by
  obtain ⟨hholds, hreplies⟩ := h.holds
  refine ⟨fun ts us => deadline_eq, hreplies, sleepers_sound es, hholds, fun ts ts2 => ?_⟩
  obtain ⟨c', hrun, hholds', -⟩ := timerIrq_spec hholds ts ts2
  exact ⟨c', hrun, hholds'⟩

/-- Two threads sleep, and an interrupt wakes the one that is due. -/
theorem sleepers_woken_once_two :
    ∃ c, Run (fun _ _ => True) [.register 10 1 5, .register 20 9 6, .irq 100 100] 100 c ∧
      c.replies = [5] ∧ Holds c [⟨6, 619⟩] := by
  obtain ⟨c₁, hrun₁, hfree₁⟩ : ∃ c, registerTimer 10 1 5 7 (start.elapse 10) = .ok () c ∧
      c.nodes 8 = none := ⟨_, rfl, rfl⟩
  have h₁ : Run (fun _ _ => True) [.register 10 1 5] 10 c₁ :=
    .register (.start 0) (by decide) rfl (by decide) trivial hrun₁
  obtain ⟨c₂, hrun₂, -⟩ := registerTimer_spec (a := 8) (c := c₁.elapse 10) h₁.holds.1 hfree₁
    (show 6 ≠ nilthread by decide) 20 9
  have h₂ := Run.register h₁ (by decide) hfree₁ (by decide) trivial hrun₂
  obtain ⟨c₃, hrun₃, -⟩ := timerIrq_spec (c := c₂.elapse 80) h₂.holds.1 100 100
  have h₃ := Run.irq h₂ (by decide) (by decide) trivial hrun₃
  obtain ⟨-, hreplies, -, hholds, -⟩ := sleepers_woken_once h₃
  exact ⟨c₃, h₃, hreplies, hholds⟩

end Sos.Clock
