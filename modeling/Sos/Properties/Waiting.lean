import Sos.Control.Handle
import Sos.Run
import Sos.Simulation.Boot

/-!
# Waiting for a process to end

`process_wait` leaves the pid it waits for in the PCB, or `WAIT_ANYBODY`, and the pager answers it
when `process_wake_all` finds it there. In runs of waits, creations and deletions this is exact,
with one exception: for a pid without a process the PCB gets `NIL_PID`, which is `WAIT_ANYBODY`.
-/

namespace Sos

open Hoare

variable {k k' k₁ k₂ : Kernel} {pid q : Pid} {c : Calls} {er : ElfloadRequest}
variable {gone told : Option Pid} {p : Process} {st : Standing} {e : Event} {w : Int}
  {words : List Int} {M : Set Nat}

/-! ## What there is to see of a process -/

/-- What decides whether a process is woken, and whether it gets the reply. -/
structure Standing where
  psType : ProcessType
  ipcAccept : IpcFilter
  waitingOn : Int
deriving DecidableEq, Repr

def Process.standing (p : Process) : Standing := ⟨p.psType, p.ipcAccept, p.waitingOn⟩

def Kernel.standing (k : Kernel) (pid : Pid) : Option Standing :=
  (k.sosProcs pid).pcb?.map Process.standing

/-- The replies to a process. -/
def Kernel.repliesTo (k : Kernel) (pid : Pid) : List Reply := k.replies.filter (·.pid = pid)

theorem standing_of_pcb (h : k.sosProcs pid = .pcb p) :
    k.standing pid = some p.standing := by
  unfold Kernel.standing
  rw [h]
  rfl

theorem pcb_of_standing (h : k.standing pid = some st) :
    ∃ p, k.sosProcs pid = .pcb p ∧ p.standing = st := by
  obtain ⟨p, hp, hst⟩ := Option.map_eq_some_iff.mp h
  exact ⟨p, Slot.pcb?_eq_some_iff.mp hp, hst⟩

theorem standing_setSlot (s : Slot) :
    (k.setSlot pid s).standing = Function.update k.standing pid (s.pcb?.map Process.standing) := by
  funext pid'
  unfold Kernel.standing
  by_cases h : pid' = pid
  · rw [h, setSlot_self, Function.update_self]
  · rw [setSlot_of_ne h, Function.update_of_ne h]

theorem standing_updProcess {g : Process → Process} (hg : ∀ p, (g p).standing = p.standing) :
    (k.updProcess pid g).standing = k.standing := by
  unfold Kernel.updProcess
  split
  · next p hp =>
    rw [standing_setSlot]
    refine Function.update_eq_self_iff.mpr ?_
    rw [standing_of_pcb hp]
    exact congrArg some (hg p)
  · rfl

/-- Nothing has happened to those who wait. -/
structure Calm (k k' : Kernel) : Prop where
  standing : k'.standing = k.standing
  replies : k'.replies = k.replies
  tidOffset : k'.tidOffset = k.tidOffset

theorem calm_closed : Closed Calm (fun _ => True) where
  refl := fun _ => ⟨rfl, rfl, rfl⟩
  trans := fun h h' => ⟨h'.standing.trans h.standing, h'.replies.trans h.replies,
    h'.tidOffset.trans h.tidOffset⟩
  fault := fun _ _ => trivial

theorem Calm.of_procs (hp : k'.sosProcs = k.sosProcs) (hr : k'.replies = k.replies)
    (ht : k'.tidOffset = k.tidOffset) : Calm k k' := by
  refine ⟨?_, hr, ht⟩
  funext pid
  unfold Kernel.standing
  rw [hp]

theorem calm_updProcess (pid : Pid) {g : Process → Process}
    (hg : ∀ p, (g p).standing = p.standing) : Calm k (k.updProcess pid g) := by
  refine ⟨standing_updProcess hg, ?_, ?_⟩ <;> rw [updProcess_rest]

theorem calm_paging : Paging Calm (fun _ => True) where
  toClosed := calm_closed
  plain := fun {k k'} h => by
    unfold Plain at h
    rw [h]
    exact .of_procs rfl rfl rfl
  pages := fun k pid g hg => calm_updProcess pid fun p => by rw [hg p]; rfl

/-- What follows something calm. -/
theorem calm_bind {α β : Type} {m : PagerM α} {f : α → PagerM β} {Q : β → Kernel → Prop}
    (hm : Keeps Calm (fun _ => True) m)
    (hf : ∀ a k', Calm k k' → Wp (f a) k' Q (fun _ _ => True)) :
    Wp (m >>= f) k Q (fun _ _ => True) :=
  wp_bind.mpr ((hm k).mono hf fun _ _ _ => trivial)

theorem calm_regionFree (r : Region) : Keeps Calm (fun _ => True) (regionFree r) := by
  unfold regionFree
  split
  · exact .pure calm_closed.refl _
  · refine .bind calm_closed.trans (keeps_derefSwapfile calm_closed _) fun sf =>
      .ite (.pure calm_closed.refl _) ?_
    exact .bind calm_closed.trans (.modify fun k => .of_procs rfl rfl rfl) fun _ =>
      keeps_frameFree calm_paging _

/-! ## Replies and wake-ups -/

/-- A reply has been sent to nobody but `pid`. -/
structure Answered (pid : Pid) (k k' : Kernel) : Prop where
  standing : k'.standing = k.standing
  tidOffset : k'.tidOffset = k.tidOffset
  requests : k'.requests = k.requests
  others : ∀ pid', pid' ≠ pid → k'.repliesTo pid' = k.repliesTo pid'

theorem repliesTo_reply_of_ne {pid' : Pid} (h : pid' ≠ pid) :
    (k.reply pid p words).repliesTo pid' = k.repliesTo pid' := by
  unfold Kernel.reply
  split
  · rfl
  · unfold Kernel.repliesTo
    rw [List.filter_append, List.filter_singleton]
    simp [Ne.symm h]

theorem answered_reply (p : Process) (words : List Int) : Answered pid k (k.reply pid p words) := by
  refine ⟨?_, ?_, ?_, fun pid' h => repliesTo_reply_of_ne h⟩ <;>
  · unfold Kernel.reply
    split <;> rfl

theorem syscallReplyV_answered :
    Wp (syscallReplyV pid words) k (fun _ k' => Answered pid k k') (fun _ _ => True) := by
  unfold syscallReplyV
  rw [wp_bind, wp_get]
  split
  · exact wp_pure.mpr ⟨rfl, rfl, rfl, fun _ _ => rfl⟩
  · exact wp_throw.mpr trivial
  · exact wp_modify.mpr (answered_reply ..)

/-- The root server takes no replies. -/
theorem syscallReplyV_rootserver :
    Wp (syscallReplyV rootserverno words) k (fun _ k' => k' = k) (fun _ _ => True) := by
  unfold syscallReplyV
  rw [wp_bind, wp_get]
  split
  · exact wp_pure.mpr rfl
  · exact wp_throw.mpr trivial
  · exact wp_modify.mpr (if_pos (.inl rfl))

/-- Those who wait for something in `W` have been woken, with a reply that names `q`. -/
structure Roused (W : Pid → Int → Prop) (q : Pid) (k k' : Kernel) : Prop where
  tidOffset : k'.tidOffset = k.tidOffset
  requests : k'.requests = k.requests
  awake : ∀ pid st, k.standing pid = some st → W pid st.waitingOn →
    k'.standing pid = some { st with waitingOn := waitNobody } ∧
      (pid ≠ rootserverno → st.ipcAccept ≠ .none →
        k'.repliesTo pid = k.repliesTo pid ++ [⟨pid, [q.val]⟩])
  asleep : ∀ pid, (∀ st, k.standing pid = some st → ¬ W pid st.waitingOn) →
    k'.standing pid = k.standing pid ∧ k'.repliesTo pid = k.repliesTo pid

theorem Roused.refl {W : Pid → Int → Prop} (hW : ∀ pid w, ¬ W pid w) : Roused W q k k :=
  ⟨rfl, rfl, fun pid _ _ h => absurd h (hW pid _), fun _ _ => ⟨rfl, rfl⟩⟩

/-- Who has been woken is not woken again. -/
theorem Roused.trans {V W : Pid → Int → Prop} (h : Roused V q k k₁) (h' : Roused W q k₁ k')
    (hW : ∀ pid, ¬ W pid waitNobody) : Roused (fun pid w => V pid w ∨ W pid w) q k k' where
  tidOffset := h'.tidOffset.trans h.tidOffset
  requests := h'.requests.trans h.requests
  awake := fun pid st hst hor => by
    by_cases hV : V pid st.waitingOn
    · obtain ⟨hst₁, hr₁⟩ := h.awake pid st hst hV
      obtain ⟨hst₂, hr₂⟩ := h'.asleep pid fun st' hst' => by
        rw [hst₁] at hst'
        rw [← Option.some.inj hst']
        exact hW pid
      exact ⟨hst₂.trans hst₁, fun hroot hipc => hr₂.trans (hr₁ hroot hipc)⟩
    · obtain ⟨hst₁, hr₁⟩ := h.asleep pid fun st' hst' => by
        rw [hst] at hst'
        rw [← Option.some.inj hst']
        exact hV
      obtain ⟨hst₂, hr₂⟩ := h'.awake pid st (hst₁.trans hst) (hor.resolve_left hV)
      refine ⟨hst₂, fun hroot hipc => ?_⟩
      rw [hr₂ hroot hipc, hr₁]
  asleep := fun pid hno => by
    obtain ⟨hst₁, hr₁⟩ := h.asleep pid fun st hst hV => hno st hst (.inl hV)
    obtain ⟨hst₂, hr₂⟩ := h'.asleep pid fun st hst hW' => hno st (hst₁ ▸ hst) (.inr hW')
    exact ⟨hst₂.trans hst₁, hr₂.trans hr₁⟩

theorem Roused.congr {V W : Pid → Int → Prop} (h : Roused V q k k')
    (hVW : ∀ pid w, V pid w ↔ W pid w) : Roused W q k k' :=
  ⟨h.tidOffset, h.requests, fun pid st hst hW => h.awake pid st hst ((hVW _ _).mpr hW),
    fun pid hno => h.asleep pid fun st hst hV => hno st hst ((hVW _ _).mp hV)⟩

theorem wakeOne_roused {wakeFor : Int} {i : Pid} :
    Wp (wakeOne wakeFor q i) k (fun _ k' => Roused (fun pid w => pid = i ∧ w = wakeFor) q k k')
      (fun _ _ => True) := by
  unfold wakeOne
  rw [wp_bind, wp_get]
  split
  · next p hp =>
    have hst : k.standing i = some p.standing := standing_of_pcb hp
    rw [wp_ite]
    refine ⟨fun hw => ?_, fun hw => ?_⟩
    · rw [wp_bind]
      refine modify_eq.imp fun _ k₁ h₁ => ?_
      rw [updProcess_of_pcb hp] at h₁
      have hslot : k₁.sosProcs i = .pcb { p with waitingOn := waitNobody, state := .alive } := by
        rw [h₁, setSlot_self]
      have hst₁ : k₁.standing = Function.update k.standing i
          (some { p.standing with waitingOn := waitNobody }) := by
        rw [h₁, standing_setSlot]
        rfl
      unfold syscallReply syscallReplyV
      rw [wp_bind, wp_get, hslot]
      dsimp only
      rw [wp_modify]
      obtain ⟨hst₂, ht₂, hreq₂, hother⟩ : Answered i k₁ _ :=
        answered_reply { p with waitingOn := waitNobody, state := .alive } [(q.val : Int)]
      have hrep₁ : ∀ pid, k₁.repliesTo pid = k.repliesTo pid := fun pid => by rw [h₁]; rfl
      refine ⟨by rw [ht₂, h₁]; rfl, by rw [hreq₂, h₁]; rfl, ?_, fun pid hno => ?_⟩
      · rintro pid st hpid ⟨rfl, -⟩
        obtain rfl := Option.mem_unique hst hpid
        refine ⟨by rw [hst₂, hst₁, Function.update_self], fun hroot hipc => ?_⟩
        have hipc' : p.ipcAccept ≠ .none := hipc
        unfold Kernel.reply
        rw [if_neg (by simp [hroot, hipc'])]
        unfold Kernel.repliesTo
        rw [List.filter_append, List.filter_singleton]
        have := hrep₁ pid
        unfold Kernel.repliesTo at this
        simp [this]
      · have hne : pid ≠ i := by
          rintro rfl
          exact hno _ hst ⟨rfl, hw⟩
        refine ⟨by rw [hst₂, hst₁, Function.update_of_ne hne], ?_⟩
        rw [hother pid hne, hrep₁]
    · refine wp_pure.mpr ⟨rfl, rfl, ?_, fun _ _ => ⟨rfl, rfl⟩⟩
      rintro pid st hpid ⟨rfl, hw'⟩
      obtain rfl := Option.mem_unique hst hpid
      exact absurd hw' hw
  · next hnot =>
    refine wp_pure.mpr ⟨rfl, rfl, ?_, fun _ _ => ⟨rfl, rfl⟩⟩
    rintro pid st hpid ⟨rfl, -⟩
    obtain ⟨p, hp, -⟩ := pcb_of_standing hpid
    exact absurd hp (hnot p)

theorem wakeAll_roused {wakeFor : Int} (hw : wakeFor ≠ waitNobody) :
    Wp (wakeAll wakeFor q) k
      (fun _ k' => Roused (fun pid w => k.tidOffset ≤ pid ∧ w = wakeFor) q k k')
      (fun _ _ => True) := by
  have hloop : ∀ (l : List Pid) (k : Kernel), Wp (l.forM (wakeOne wakeFor q)) k
      (fun _ k' => Roused (fun pid w => pid ∈ l ∧ w = wakeFor) q k k') (fun _ _ => True) := by
    intro l
    induction l with
    | nil => exact fun k => wp_pure.mpr (.refl (by simp))
    | cons i l ih =>
      intro k
      refine wp_bind.mpr ?_
      refine wakeOne_roused.imp fun _ k₁ h₁ => (ih k₁).imp fun _ k₂ h₂ => ?_
      refine (h₁.trans h₂ fun pid h => hw h.2.symm).congr fun pid w => ?_
      rw [List.mem_cons]
      tauto
  unfold wakeAll
  rw [wp_bind, wp_get]
  refine (hloop _ k).imp fun _ k' h => h.congr fun pid w => ?_
  simp

/-- `process_wake_all` answers those who wait for the process, and those who wait for any. -/
theorem processWakeAll_roused :
    Wp (processWakeAll q) k (fun _ k' => Roused (fun pid w => k.tidOffset ≤ pid ∧
      (w = q.val ∨ w = waitAnybody)) q k k') (fun _ _ => True) := by
  unfold processWakeAll
  rw [wp_bind]
  refine (wakeAll_roused (by unfold waitNobody; omega)).imp fun _ k₁ h₁ => ?_
  refine (wakeAll_roused (by decide)).imp fun _ k₂ h₂ => ?_
  refine (h₁.trans h₂ fun pid h => absurd h.2 (by decide)).congr fun pid w => ?_
  rw [h₁.tidOffset]
  tauto

/-! ## Deleting a process -/

/-- The process has ended, and those who waited for it have been told. -/
structure Ended (q : Pid) (k k' : Kernel) : Prop where
  tidOffset : k'.tidOffset = k.tidOffset
  before : (k.standing q).isSome
  gone : k'.standing q = none ∧ k'.repliesTo q = k.repliesTo q
  awake : ∀ pid st, pid ≠ q → k.standing pid = some st → k.tidOffset ≤ pid →
    st.waitingOn = q.val ∨ st.waitingOn = waitAnybody →
    k'.standing pid = some { st with waitingOn := waitNobody } ∧
      (pid ≠ rootserverno → st.ipcAccept ≠ .none →
        k'.repliesTo pid = k.repliesTo pid ++ [⟨pid, [q.val]⟩])
  asleep : ∀ pid, pid ≠ q → (∀ st, k.standing pid = some st →
      ¬ (k.tidOffset ≤ pid ∧ (st.waitingOn = q.val ∨ st.waitingOn = waitAnybody))) →
    k'.standing pid = k.standing pid ∧ k'.repliesTo pid = k.repliesTo pid

theorem Ended.of_roused (hq : (k.standing q).isSome)
    (hst : k₁.standing = Function.update k.standing q none) (hrep : k₁.replies = k.replies)
    (ht : k₁.tidOffset = k.tidOffset)
    (h : Roused (fun pid w => k₁.tidOffset ≤ pid ∧ (w = q.val ∨ w = waitAnybody)) q k₁ k') :
    Ended q k k' := by
  have hrep₁ : ∀ pid, k₁.repliesTo pid = k.repliesTo pid := fun pid => by
    unfold Kernel.repliesTo
    rw [hrep]
  have hne : ∀ {pid}, pid ≠ q → k₁.standing pid = k.standing pid := fun hne => by
    rw [hst, Function.update_of_ne hne]
  have hself : k₁.standing q = none := by rw [hst, Function.update_self]
  refine ⟨h.tidOffset.trans ht, hq, ?_, fun pid st hpid hs hle hw => ?_, fun pid hpid hno => ?_⟩
  · obtain ⟨hs, hr⟩ := h.asleep q fun st hs => by simp [hself] at hs
    exact ⟨hs.trans hself, hr.trans (hrep₁ q)⟩
  · obtain ⟨hs', hr'⟩ := h.awake pid st ((hne hpid).trans hs) ⟨ht ▸ hle, hw⟩
    exact ⟨hs', fun hroot hipc => hrep₁ pid ▸ hr' hroot hipc⟩
  · obtain ⟨hs', hr'⟩ := h.asleep pid fun st hs => by
      rw [ht]
      exact hno st ((hne hpid).symm.trans hs)
    exact ⟨hs'.trans (hne hpid), hr'.trans (hrep₁ pid)⟩

theorem processDelete_ended :
    Wp (processDelete q) k (fun _ k' => Calm k k' ∨ Ended q k k') (fun _ _ => True) := by
  unfold processDelete processKill
  rw [wp_bind, wp_get]
  split
  · exact wp_pure.mpr (.inl (calm_closed.refl k))
  · exact wp_throw.mpr trivial
  · next p hp =>
    rw [wp_bind, wp_bind, wp_get, wp_ite]
    refine ⟨fun _ => ?_, fun _ => wp_pure.mpr (wp_pure.mpr (.inl (calm_closed.refl k)))⟩
    rw [wp_bind]
    refine set_eq.imp fun _ k₁ h₁ => wp_pure.mpr ?_
    have c₁ : Calm k k₁ := by
      rw [h₁]
      exact .of_procs rfl rfl rfl
    rw [if_pos rfl, wp_bind]
    refine modify_eq.imp fun _ k₂ h₂ => ?_
    have c₂ : Calm k₁ k₂ := by
      rw [h₂]
      exact calm_updProcess _ fun _ => rfl
    unfold processCloseFiles
    rw [wp_bind]
    refine modify_eq.imp fun _ k₃ h₃ => ?_
    have c₃ : Calm k k₃ := by
      refine calm_closed.trans c₁ (calm_closed.trans c₂ ?_)
      rw [h₃]
      exact .of_procs rfl rfl rfl
    unfold processRemove
    rw [wp_bind]
    refine modify_eq.imp fun _ k₄ h₄ => ?_
    have hst₄ : k₄.standing = Function.update k.standing q none := by
      rw [h₄, standing_setSlot, c₃.standing]
      rfl
    have hq : (k.standing q).isSome := by
      rw [standing_of_pcb hp]
      rfl
    rw [wp_bind, wp_get]
    refine calm_bind (keeps_framesFree calm_paging _ _ _) fun x k₅ c₅ => ?_
    refine calm_bind (.modify fun _ => calm_paging.plain rfl) fun _ k₆ c₆ => ?_
    refine calm_bind (keeps_swappedDelete calm_paging _) fun _ k₇ c₇ => ?_
    refine calm_bind (keeps_pagetableFree calm_paging _) fun _ k₈ c₈ => ?_
    refine calm_bind (.forM calm_closed.refl calm_closed.trans calm_regionFree _) fun _ k₉ c₉ => ?_
    have c := calm_closed.trans (calm_closed.trans c₅ c₆)
      (calm_closed.trans c₇ (calm_closed.trans c₈ c₉))
    rw [wp_bind]
    refine processWakeAll_roused.imp fun _ k' h => wp_pure.mpr (.inr (.of_roused hq ?_ ?_ ?_ h))
    · rw [c.standing, hst₄]
    · rw [c.replies, h₄]
      exact c₃.replies
    · rw [c.tidOffset, h₄]
      exact c₃.tidOffset

/-! ## The queue -/

/-- Only loads are queued. -/
def OnlyLoads (k : Kernel) : Prop := ∀ r ∈ k.requests, ∃ er, r = .elfload er

/-- The processes that wait for a load. -/
def Kernel.parents (k : Kernel) : List Pid := k.loads.map ElfloadRequest.parent

/-- Nothing has happened to the queue, nor to those who wait. -/
structure Untouched (k k' : Kernel) : Prop extends Calm k k' where
  requests : k'.requests = k.requests

theorem Untouched.of_procs (hp : k'.sosProcs = k.sosProcs) (hr : k'.replies = k.replies)
    (ht : k'.tidOffset = k.tidOffset) (hq : k'.requests = k.requests) : Untouched k k' :=
  ⟨.of_procs hp hr ht, hq⟩

theorem Untouched.trans (h : Untouched k k₁) (h' : Untouched k₁ k') : Untouched k k' :=
  ⟨calm_closed.trans h.toCalm h'.toCalm, h'.requests.trans h.requests⟩

/-- A load is all there is to start. -/
theorem startRequest_untouched (h : OnlyLoads k) (c : Calls) :
    Wp (startRequest c) k (fun _ k' => Untouched k k') (fun _ _ => True) := by
  unfold startRequest
  rw [wp_bind, wp_get, wp_bind, wp_assert]
  refine ⟨fun _ => ?_, fun _ => trivial⟩
  rw [wp_bind, wp_assert]
  refine ⟨fun _ => ?_, fun _ => trivial⟩
  rw [wp_bind]
  refine modify_eq.imp fun _ k₁ h₁ => ?_
  have i₁ : Untouched k k₁ := by
    rw [h₁]
    exact .of_procs rfl rfl rfl rfl
  rw [wp_bind, wp_requestsPeek]
  refine ⟨fun _ => trivial, fun r rest hreq => ?_⟩
  obtain ⟨er, rfl⟩ := h r (by rw [← i₁.requests, hreq]; exact List.mem_cons_self ..)
  dsimp only
  unfold startElfload strncpyToBuffer vfsCall
  rw [wp_bind, wp_requestsPeek]
  refine ⟨fun _ => trivial, fun r' rest' hreq' => ?_⟩
  obtain ⟨rfl, -⟩ := List.cons.inj (hreq.symm.trans hreq')
  dsimp only
  rw [wp_bind, wp_get, wp_bind, wp_modify, wp_modify]
  exact i₁.trans (.of_procs rfl rfl rfl rfl)

theorem callsStart_untouched (h : OnlyLoads k) :
    ∀ n, Wp (calls n).startRequest k (fun _ k' => Untouched k k') (fun _ _ => True)
  | 0 => wp_throw.mpr trivial
  | n + 1 => startRequest_untouched h (calls n)

theorem queueRequest_calm (h : OnlyLoads k) (er : ElfloadRequest) (n : Nat) :
    Wp (queueRequest (calls n) (.elfload er)) k
      (fun _ k' => Calm k k' ∧ k'.requests = k.requests ++ [.elfload er]) (fun _ _ => True) := by
  have hloads : OnlyLoads { k with requests := k.requests ++ [.elfload er] } := fun r hr => by
    rcases List.mem_append.mp hr with hr | hr
    · exact h r hr
    · exact ⟨er, List.mem_singleton.mp hr⟩
  unfold queueRequest
  rw [wp_bind, wp_get, wp_ite]
  refine ⟨fun _ => ?_, fun _ => ?_⟩
  · rw [wp_bind, wp_assert]
    refine ⟨fun _ => ?_, fun _ => trivial⟩
    rw [wp_bind, wp_modify]
    exact (callsStart_untouched hloads n).imp fun _ k' h' =>
      ⟨⟨h'.standing, h'.replies, h'.tidOffset⟩, h'.requests⟩
  · rw [wp_bind, wp_assert]
    exact ⟨fun _ => wp_modify.mpr ⟨.of_procs rfl rfl rfl, rfl⟩, fun _ => trivial⟩

theorem dequeueRequest_calm (h : OnlyLoads k) (n : Nat) :
    Wp (dequeueRequest (calls n)) k (fun _ k' => Calm k k' ∧ k'.requests = k.requests.tail)
      (fun _ _ => True) := by
  unfold dequeueRequest
  rw [wp_bind, wp_get, wp_bind, wp_assert]
  refine ⟨fun _ => ?_, fun _ => trivial⟩
  rw [wp_bind, wp_modify, wp_bind]
  refine wp_requestsUnshift (fun _ => trivial) fun r rest hreq k₁ h₁ => ?_
  have hreq' : k.requests = r :: rest := hreq
  have c₁ : Calm k k₁ := by
    rw [h₁]
    exact .of_procs rfl rfl rfl
  have ht₁ : k₁.requests = k.requests.tail := by rw [h₁, hreq']; rfl
  rw [wp_bind, wp_get, wp_ite]
  refine ⟨fun _ => wp_pure.mpr ⟨c₁, ht₁⟩, fun _ => ?_⟩
  have hloads : OnlyLoads k₁ := fun r hr => h r (by rw [ht₁] at hr; exact List.mem_of_mem_tail hr)
  exact (callsStart_untouched hloads n).imp fun _ k' h' =>
    ⟨calm_closed.trans c₁ h'.toCalm, h'.requests.trans ht₁⟩

/-! ## Making a process -/

/-- A process may have come for the pid, which nobody had. -/
structure Born (child : Pid) (k k' : Kernel) : Prop where
  tidOffset : k'.tidOffset = k.tidOffset
  replies : k'.replies = k.replies
  before : k.standing child = none
  newborn : k'.standing child = some ⟨.process, .all, waitNobody⟩ ∧ k.tidOffset ≤ child
  others : ∀ pid, pid ≠ child → k'.standing pid = k.standing pid

theorem calm_loading : Loading Calm (fun _ => True) where
  toPaging := calm_paging
  inc := fun _ _ => .of_procs rfl rfl rfl
  elffile := fun _ _ _ => .of_procs rfl rfl rfl

theorem wp_processExists {Q : Bool → Kernel → Prop}
    (hQ : k.tidOffset ≤ pid → Q (k.sosProcs pid).pcb?.isSome k) :
    Wp (processExists pid) k Q (fun _ _ => True) := by
  unfold processExists
  rw [wp_bind, wp_get, wp_bind, wp_assert]
  exact ⟨fun h => wp_pure.mpr (hQ (by simpa using h)), fun _ => trivial⟩

theorem calm_openStdFds (pid : Pid) (fdout fderr : Option Path) :
    Keeps Calm (fun _ => True) (openStdFds pid fdout fderr) := by
  have hcall : ∀ v, Keeps Calm (fun _ => True) (vfsCall v) := fun _ =>
    .modify fun _ => .of_procs rfl rfl rfl
  have hopen : ∀ f s m, Keeps Calm (fun _ => True) (openStdFd pid f s m) := fun _ _ _ =>
    .bind calm_closed.trans (.modify fun _ => .of_procs rfl rfl rfl) fun _ => hcall _
  unfold openStdFds
  refine .bind calm_closed.trans (hopen _ _ _) fun _ => ?_
  split
  · exact hcall _
  · exact .ite (hcall _) (hopen _ _ _)
  · exact .throw calm_closed.refl trivial

/-- `process_prepare2` and `process_run` of a user process. -/
theorem prepareRun_born {fdout fderr fdin : Option Path} (hty : p.psType = .process)
    (hst : p.standing = ⟨.process, .all, waitNobody⟩) :
    Wp (do processPrepare2 pid p fdout fderr fdin; processRun pid) k (fun _ k' => Born pid k k')
      (fun _ _ => True) := by
  unfold processPrepare2
  rw [wp_bind, wp_bind]
  refine wp_processExists fun hle => ?_
  rw [wp_bind, wp_assert]
  refine ⟨fun hno => ?_, fun _ => trivial⟩
  rw [hty, if_neg (by decide), wp_bind, wp_modify]
  have hbefore : k.standing pid = none := by
    unfold Kernel.standing
    simpa using hno
  have hstanding : ({ addBuiltinRegions p with fin := fdin } : Process).standing =
      ⟨.process, .all, waitNobody⟩ := by
    unfold addBuiltinRegions
    dsimp only
    split <;> exact hst
  refine (calm_openStdFds pid fdout fderr _).mono (fun _ k₁ c₁ => ?_) fun _ _ _ => trivial
  refine wp_modify.mpr ?_
  have hplain : Plain k₁ { k₁ with mmu := Function.update k₁.mmu pid fun _ => none } := rfl
  have c₂ := calm_closed.trans (calm_paging.plain hplain)
    (calm_updProcess pid (g := ({ · with state := .alive })) fun _ => rfl)
  have c := calm_closed.trans c₁ c₂
  have hs := c.standing.trans (standing_setSlot _)
  refine ⟨c.tidOffset, c.replies, hbefore, ⟨?_, hle⟩, fun pid' hne => ?_⟩
  · rw [hs, Function.update_self]
    exact congrArg some hstanding
  · rw [hs, Function.update_of_ne hne]

theorem addSegment_standing {path : Path} {ph : ProgramHeader} :
    Wp (addSegment path p ph) k (fun p' _ => p'.standing = p.standing) (fun _ _ => True) := by
  unfold addSegment
  rw [wp_bind]
  refine Wp.trivial.imp fun _ _ _ => ?_
  rw [wp_bind]
  exact Wp.trivial.imp fun _ _ _ => wp_pure.mpr rfl

theorem processInit_newborn :
    Wp (processInit .process) k (fun p k' => p.standing = ⟨.process, .all, waitNobody⟩ ∧ Calm k k')
      (fun _ _ => True) := by
  have hst : Wp (processInit .process) k
      (fun p _ => p.standing = ⟨.process, .all, waitNobody⟩) (fun _ _ => True) := by
    unfold processInit
    rw [wp_bind]
    refine Wp.trivial.imp fun _ _ _ => ?_
    rw [wp_bind, wp_get, wp_bind, wp_modify]
    exact wp_pure.mpr rfl
  exact (hst.and (keeps_processInit calm_loading .process k)).mono (fun _ _ h => h)
    fun _ _ _ => trivial

theorem loadProcess_born (er : ElfloadRequest) (phs : List ProgramHeader) :
    Wp (loadProcess er phs) k (fun _ k' => ∃ k₁, Calm k k₁ ∧ Born er.child k₁ k')
      (fun _ _ => True) := by
  unfold loadProcess
  rw [wp_bind]
  refine processInit_newborn.imp fun p k₁ h₁ => ?_
  rw [wp_bind]
  have hloop : Wp (phs.foldlM (addSegment er.path) p) k₁
      (fun p' k' => p'.standing = p.standing ∧ Calm k₁ k') (fun _ _ => True) := by
    refine wp_foldlM (fun _ p' k' => p'.standing = p.standing ∧ Calm k₁ k')
      (fun ph _ p' k' h => ?_) phs p k₁ ⟨rfl, calm_closed.refl k₁⟩
    exact (addSegment_standing.and (keeps_addSegment calm_loading er.path p' ph k')).mono
      (fun _ _ h' => ⟨h'.1.trans h.1, calm_closed.trans h.2 h'.2⟩) fun _ _ _ => trivial
  refine hloop.imp fun p' k₂ h₂ => ?_
  have hst : p'.standing = ⟨.process, .all, waitNobody⟩ := h₂.1.trans h₁.1
  exact (prepareRun_born (congrArg Standing.psType hst) hst).imp fun _ k' h' =>
    ⟨k₂, calm_closed.trans h₁.2 h₂.2, h'⟩

/-! ## One message -/

/-- What a message does: the process `gone`, if any, has ended and those who waited for it have been
told; apart from that, only `told` has got a reply; and processes may have come. -/
structure Turn (gone told : Option Pid) (k k' : Kernel) : Prop where
  tidOffset : k'.tidOffset = k.tidOffset
  ended : ∀ q, gone = some q → (k.standing q).isSome ∧ k'.standing q = none ∧
    (told ≠ some q → k'.repliesTo q = k.repliesTo q)
  awake : ∀ q pid st, gone = some q → pid ≠ q → k.standing pid = some st → k.tidOffset ≤ pid →
    st.waitingOn = q.val ∨ st.waitingOn = waitAnybody →
    k'.standing pid = some { st with waitingOn := waitNobody } ∧
      (told ≠ some pid → pid ≠ rootserverno → st.ipcAccept ≠ .none →
        k'.repliesTo pid = k.repliesTo pid ++ [⟨pid, [q.val]⟩])
  asleep : ∀ pid st, gone ≠ some pid → k.standing pid = some st → (∀ q, gone = some q →
      ¬ (k.tidOffset ≤ pid ∧ (st.waitingOn = q.val ∨ st.waitingOn = waitAnybody))) →
    k'.standing pid = some st ∧ (told ≠ some pid → k'.repliesTo pid = k.repliesTo pid)
  unborn : ∀ pid, k.standing pid = none →
    (k'.standing pid = none ∨
      k'.standing pid = some ⟨.process, .all, waitNobody⟩ ∧ k.tidOffset ≤ pid) ∧
    (told ≠ some pid → k'.repliesTo pid = k.repliesTo pid)

theorem Calm.repliesTo (h : Calm k k') (pid : Pid) : k'.repliesTo pid = k.repliesTo pid := by
  unfold Kernel.repliesTo
  rw [h.replies]

theorem Calm.turn (h : Calm k k') : Turn none none k k' where
  tidOffset := h.tidOffset
  ended := nofun
  awake := nofun
  asleep := fun pid st _ hst _ => ⟨by rw [h.standing, hst], fun _ => h.repliesTo pid⟩
  unborn := fun pid hst => ⟨.inl (by rw [h.standing, hst]), fun _ => h.repliesTo pid⟩

theorem Born.turn {child : Pid} (h : Born child k k') : Turn none none k k' := by
  have hrep : ∀ pid, k'.repliesTo pid = k.repliesTo pid := fun pid => by
    unfold Kernel.repliesTo
    rw [h.replies]
  refine ⟨h.tidOffset, nofun, nofun, fun pid st _ hst _ => ⟨?_, fun _ => hrep pid⟩,
    fun pid hst => ⟨?_, fun _ => hrep pid⟩⟩
  · rw [h.others pid, hst]
    rintro rfl
    simp [h.before] at hst
  · by_cases hpid : pid = child
    · rw [hpid]
      exact .inr h.newborn
    · exact .inl ((h.others pid hpid).trans hst)

theorem Ended.turn (h : Ended q k k') : Turn (some q) none k k' where
  tidOffset := h.tidOffset
  ended := by
    rintro _ ⟨⟩
    exact ⟨h.before, h.gone.1, fun _ => h.gone.2⟩
  awake := by
    rintro _ pid st ⟨⟩ hne hst hle hw
    obtain ⟨hst', hr⟩ := h.awake pid st hne hst hle hw
    exact ⟨hst', fun _ => hr⟩
  asleep := fun pid st hne hst hno => by
    obtain ⟨hst', hr⟩ := h.asleep pid (fun he => hne (by rw [he])) fun st' hst' => by
      obtain rfl := Option.mem_unique hst hst'
      exact hno q rfl
    exact ⟨hst'.trans hst, fun _ => hr⟩
  unborn := fun pid hst => by
    have hne : pid ≠ q := by
      rintro rfl
      have := h.before
      simp [hst] at this
    obtain ⟨hst', hr⟩ := h.asleep pid hne fun st hst' => by simp [hst] at hst'
    exact ⟨.inl (hst'.trans hst), fun _ => hr⟩

/-- A turn is one also between states that look the same but for replies to `told`. -/
theorem Turn.between {gone told₁ told : Option Pid} (h : Turn gone told₁ k₁ k₂) (hc : Calm k k₁)
    (hst : k'.standing = k₂.standing) (ht : k'.tidOffset = k₂.tidOffset)
    (hr : ∀ pid, told ≠ some pid → told₁ ≠ some pid ∧ k'.repliesTo pid = k₂.repliesTo pid) :
    Turn gone told k k' := by
  refine ⟨ht.trans (h.tidOffset.trans hc.tidOffset), fun q hq => ?_,
    fun q pid st hq hne hs hle hw => ?_, fun pid st hne hs hno => ?_, fun pid hs => ?_⟩ <;>
    rw [hst, ← hc.repliesTo]
  · obtain ⟨hb, hs, hrep⟩ := h.ended q hq
    exact ⟨hc.standing ▸ hb, hs, fun hne => (hr q hne).2.trans (hrep (hr q hne).1)⟩
  · obtain ⟨hs', hrep⟩ := h.awake q pid st hq hne (hc.standing ▸ hs) (hc.tidOffset ▸ hle) hw
    exact ⟨hs', fun hne => (hr pid hne).2 ▸ hrep (hr pid hne).1⟩
  · obtain ⟨hs', hrep⟩ := h.asleep pid st hne (hc.standing ▸ hs) (hc.tidOffset ▸ hno)
    exact ⟨hs', fun hne => (hr pid hne).2.trans (hrep (hr pid hne).1)⟩
  · obtain ⟨hs', hrep⟩ := h.unborn pid (hc.standing ▸ hs)
    exact ⟨hc.tidOffset ▸ hs', fun hne => (hr pid hne).2.trans (hrep (hr pid hne).1)⟩

theorem Turn.answered {gone : Option Pid} (h : Turn gone none k k₁) (ha : Answered pid k₁ k') :
    Turn gone (some pid) k k' :=
  h.between (calm_closed.refl k) ha.standing ha.tidOffset fun _ hne =>
    ⟨nofun, ha.others _ fun he => hne (by rw [he])⟩

theorem Turn.may_tell (h : Turn gone none k k') : Turn gone told k k' :=
  h.between (calm_closed.refl k) rfl rfl fun _ _ => ⟨nofun, rfl⟩

theorem Turn.calm (h : Turn gone told k k₁) (hc : Calm k₁ k') :
    Turn gone told k k' :=
  h.between (calm_closed.refl k) hc.standing hc.tidOffset fun pid hne => ⟨hne, hc.repliesTo pid⟩

theorem Turn.after_calm (hc : Calm k k₁) (h : Turn gone told k₁ k') :
    Turn gone told k k' :=
  h.between hc rfl rfl fun _ hne => ⟨hne, rfl⟩

theorem processDelete_turn :
    Wp (processDelete q) k (fun _ k' => k'.requests = k.requests ∧ ∃ gone, Turn gone none k k')
      (fun _ _ => True) := by
  refine (processDelete_ended.and (keeps_processDelete still_deleting q k)).mono
    (fun _ k' h => ⟨h.2.requests, ?_⟩) fun _ _ _ => trivial
  rcases h.1 with hc | he
  · exact ⟨none, hc.turn⟩
  · exact ⟨some q, he.turn⟩

theorem processDeleteCall_turn (w : Nat) :
    Wp (processDeleteCall pid w) k (fun _ k' => k'.requests = k.requests ∧
      ∃ gone, Turn gone (some pid) k k') (fun _ _ => True) := by
  unfold processDeleteCall
  split
  · rw [wp_bind]
    refine processDelete_turn.imp fun rval k₁ h₁ => ?_
    obtain ⟨hreq, gone, ht⟩ := h₁
    rw [wp_ite]
    refine ⟨fun _ => wp_pure.mpr ⟨hreq, gone, ht.may_tell⟩, fun _ => ?_⟩
    exact syscallReplyV_answered.imp fun _ k' h' => ⟨h'.requests.trans hreq, gone, ht.answered h'⟩
  · exact wp_throw.mpr trivial

theorem reservePid_calm : Wp reservePid k (fun _ k' => Untouched k k') (fun _ _ => True) := by
  unfold reservePid getNextPid
  rw [wp_bind, wp_bind, wp_get, wp_bind]
  refine set_eq.imp fun _ k₁ h₁ => ?_
  have c₁ : Untouched k k₁ := by
    rw [h₁]
    exact .of_procs rfl rfl rfl rfl
  split
  · next hnull =>
    rw [wp_pure]
    dsimp only
    rw [wp_bind]
    refine wp_processExists fun _ => ?_
    rw [wp_bind, wp_assert]
    refine ⟨fun hno => ?_, fun _ => trivial⟩
    rw [wp_bind, wp_modify]
    refine wp_pure.mpr (c₁.trans ⟨⟨?_, rfl, rfl⟩, rfl⟩)
    rw [standing_setSlot]
    refine Function.update_eq_self_iff.mpr ?_
    unfold Kernel.standing
    have hnone : (k₁.sosProcs (getNextPidLoop k k.nextPid 257 k.nextPid true)).pcb? = none := by
      simpa using hno
    rw [hnone]
    rfl
  · exact wp_pure.mpr (wp_pure.mpr c₁)

theorem processCreate_turn {fdout fderr fdin : Int} (h : OnlyLoads k) (n : Nat) :
    Wp (processCreate (calls n) pid fdout fderr fdin) k (fun _ k' => Turn none (some pid) k k' ∧
      (k'.requests = k.requests ∨ ∃ er, er.parent = pid ∧
        k'.requests = k.requests ++ [.elfload er]))
      (fun _ _ => True) := by
  unfold processCreate
  rw [wp_bind]
  refine reservePid_calm.imp fun o k₁ h₁ => ?_
  cases o with
  | none =>
    exact syscallReplyV_answered.imp fun _ k' h' =>
      ⟨h₁.turn.answered h', .inl (h'.requests.trans h₁.requests)⟩
  | some child =>
    have hloads : OnlyLoads k₁ := by
      unfold OnlyLoads
      rw [h₁.requests]
      exact h
    dsimp only
    rw [wp_bind, wp_derefProcess]
    refine ⟨fun _ => trivial, fun _ => trivial, fun p _ => ?_⟩
    rw [wp_bind, wp_get]
    refine (queueRequest_calm hloads _ n).imp fun _ k' h' => ?_
    obtain ⟨hc, hreq⟩ := h'
    rw [h₁.requests] at hreq
    refine ⟨(calm_closed.trans h₁.toCalm hc).turn.may_tell, .inr ⟨_, ?_, hreq⟩⟩
    rfl

theorem finishElfload_turn {rest : List Request} {rval : Int} (h : OnlyLoads k)
    (hreq : k.requests = .elfload er :: rest) (n : Nat) :
    Wp (finishElfload (calls n) rval) k
      (fun _ k' => Turn none (some er.parent) k k' ∧ k'.requests = rest) (fun _ _ => True) := by
  unfold finishElfload processGetTid
  rw [wp_bind, wp_requestsPeek]
  refine ⟨fun _ => trivial, fun r rest' hreq' => ?_⟩
  obtain ⟨rfl, rfl⟩ := List.cons.inj (hreq.symm.trans hreq')
  have hleave : ∀ k₁, Turn none (some er.parent) k k₁ → k₁.requests = k.requests →
      Wp (dequeueRequest (calls n)) k₁
        (fun _ k' => Turn none (some er.parent) k k' ∧ k'.requests = rest) (fun _ _ => True) :=
    fun k₁ ht hk₁ => by
      have hloads : OnlyLoads k₁ := by
        unfold OnlyLoads
        rw [hk₁]
        exact h
      refine (dequeueRequest_calm hloads n).imp fun _ k' h' => ⟨ht.calm h'.1, ?_⟩
      rw [h'.2, hk₁, hreq]
      rfl
  dsimp only
  rw [wp_bind, wp_bind, wp_get]
  cases hp : k.sosProcs er.parent with
  | null =>
    refine wp_pure.mpr (wp_bind.mpr (syscallReplyV_rootserver.imp fun _ k₁ h₁ => ?_))
    rw [h₁]
    exact hleave k (calm_closed.refl k).turn.may_tell rfl
  | placeholder => exact wp_throw.mpr trivial
  | pcb p =>
    refine wp_pure.mpr (wp_bind.mpr ?_)
    refine syscallReplyV_answered.imp fun _ k₁ h₁ => ?_
    exact hleave k₁ ((calm_closed.refl k).turn.answered h₁) h₁.requests

/-- The head of the queue leaves it, or goes on to its next stage for the same parent. -/
def HeadMoves (er : ElfloadRequest) (rest requests : List Request) : Prop :=
  requests = rest ∨ ∃ er', er'.parent = er.parent ∧ requests = .elfload er' :: rest

theorem continueElfload_turn {rest : List Request} {vfsRval : Int} (h : OnlyLoads k)
    (hreq : k.requests = .elfload er :: rest) (n : Nat) :
    Wp (continueElfload (calls n) er vfsRval) k
      (fun _ k' => Turn none (some er.parent) k k' ∧ HeadMoves er rest k'.requests)
      (fun _ _ => True) := by
  have hfinish : ∀ rval, Wp (finishElfload (calls n) rval) k
      (fun _ k' => Turn none (some er.parent) k k' ∧ HeadMoves er rest k'.requests)
      (fun _ _ => True) := fun rval =>
    (finishElfload_turn h hreq n).imp fun _ _ h' => ⟨h'.1, .inl h'.2⟩
  -- What is left of a stage: a call, and the request at the head with its next stage.
  have hnext : ∀ (k₁ : Kernel) (v : VfsCall) (er' : ElfloadRequest), Turn none none k k₁ →
      k₁.requests = k.requests → er'.parent = er.parent →
      Wp (do vfsCall v; setHead (.elfload er')) k₁
        (fun _ k' => Turn none (some er.parent) k k' ∧ HeadMoves er rest k'.requests)
        (fun _ _ => True) := fun k₁ v er' ht hk₁ hpar => by
    unfold vfsCall setHead
    rw [wp_bind, wp_modify, wp_modify]
    refine ⟨ht.may_tell.calm (.of_procs rfl rfl rfl), .inr ⟨er', hpar, ?_⟩⟩
    show _ :: k₁.requests.tail = _
    rw [hk₁, hreq]
    rfl
  unfold continueElfload
  split
  · rw [wp_ite]
    refine ⟨fun _ => hfinish _, fun _ => ?_⟩
    unfold strncpyToBuffer
    rw [wp_bind, wp_get, wp_bind, wp_set, wp_bind, wp_modify]
    exact hnext _ _ _ (Calm.turn (.of_procs rfl rfl rfl)) rfl rfl
  · rw [wp_bind, wp_assert]
    refine ⟨fun _ => ?_, fun _ => trivial⟩
    rw [wp_bind, wp_get, wp_ite]
    exact ⟨fun _ => hfinish _, fun _ => hnext k _ _ (calm_closed.refl k).turn rfl rfl⟩
  · rw [wp_bind, wp_get, wp_ite]
    refine ⟨fun _ => hfinish _, fun _ => ?_⟩
    rw [wp_bind]
    refine ((loadProcess_born er _).and (keeps_loadProcess making_spawning _ k)).mono
      (fun _ k₁ h₁ => ?_) fun _ _ _ => trivial
    obtain ⟨⟨k₀, hc, hb⟩, hm⟩ := h₁
    exact hnext k₁ _ _ (Turn.after_calm hc hb.turn) hm.requests rfl
  · exact hfinish _

/-- The answer to a call of the pager: the load at the head goes on. -/
theorem vfsReply_turn {rval : Int} {buffer : Nat → UInt8} (h : OnlyLoads k) (n : Nat) :
    Wp (handle n (.vfsReply rval buffer)) k
      (fun _ k' => ∃ er rest, k.requests = .elfload er :: rest ∧
      Turn none (some er.parent) k k' ∧ HeadMoves er rest k'.requests) (fun _ _ => True) := by
  unfold handle handleWith
  dsimp only
  rw [wp_bind]
  refine modify_eq.imp fun _ k₁ h₁ => ?_
  have i₁ : Untouched k k₁ := by
    rw [h₁]
    exact .of_procs rfl rfl rfl rfl
  unfold vfsHandler
  rw [wp_bind, wp_requestsPeek]
  refine ⟨fun _ => trivial, fun r rest hreq => ?_⟩
  have hreq' : k.requests = r :: rest := i₁.requests.symm.trans hreq
  obtain ⟨er, rfl⟩ := h r (by rw [hreq']; exact List.mem_cons_self ..)
  have hloads : OnlyLoads k₁ := by
    unfold OnlyLoads
    rw [i₁.requests]
    exact h
  exact (continueElfload_turn hloads hreq n).imp fun _ k' h' =>
    ⟨er, rest, hreq', Turn.after_calm i₁.toCalm h'.1, h'.2⟩

/-! ## Runs of waits, creations and deletions -/

/-- The word that a process has left in its PCB with a `process_wait` that is not answered yet. -/
def Kernel.waiting (k : Kernel) (pid : Pid) : Option Int :=
  match k.standing pid with
  | some ⟨.process, _, w⟩ => if pid ≠ rootserverno ∧ w ≠ waitNobody then some w else none
  | _ => none

/-- The messages of such runs. A process that waits for an answer makes no calls. -/
def WaitRun (k : Kernel) (e : Event) : Prop :=
  (match e with
    | .processWait .. | .processDelete .. | .processCreate .. | .exception _ | .vfsReply .. => True
    | _ => False) ∧
  ∀ pid ∈ e.sender, k.waiting pid = none ∧ pid ∉ k.parents

/-- Processes wait for any process, or for one that is there. -/
def WaitsForProcess (k : Kernel) : Event → Prop
  | .processWait _ w => w.toNat = wordLimit - 1 ∨
      ∃ h : w.toNat < 256, (k.sosProcs ⟨w.toNat, h⟩).pcb?.isSome
  | _ => True

instance (k : Kernel) (e : Event) : Decidable (WaitRun k e) := by
  unfold WaitRun
  rcases e <;> infer_instance

instance (k : Kernel) (e : Event) : Decidable (WaitsForProcess k e) := by
  unfold WaitsForProcess
  rcases e <;> infer_instance

/-- The parents of the loads in the queue do not wait for a process; user processes are where
`process_wake_all` looks and take replies; nobody else waits. -/
structure Waited (k : Kernel) : Prop where
  loads : ∀ r ∈ k.requests, ∃ er, r = .elfload er ∧
    ∀ st, k.standing er.parent = some st → st.waitingOn = waitNobody
  users : ∀ pid st, k.standing pid = some st → st.psType = .process → pid ≠ rootserverno →
    k.tidOffset ≤ pid ∧ st.ipcAccept = .all
  others : ∀ pid st, k.standing pid = some st → st.psType ≠ .process ∨ pid = rootserverno →
    st.waitingOn = waitNobody

theorem Waited.onlyLoads (h : Waited k) : OnlyLoads k := fun r hr =>
  (h.loads r hr).imp fun _ h => h.1

theorem waiting_eq_some : k.waiting pid = some w ↔
    ∃ ipc, k.standing pid = some ⟨.process, ipc, w⟩ ∧ pid ≠ rootserverno ∧ w ≠ waitNobody := by
  unfold Kernel.waiting
  split
  · next ipc w' hst =>
    rw [hst]
    split
    · next h => simpa using fun hw => hw ▸ h
    · next h =>
      simp only [reduceCtorEq, Option.some.injEq, Standing.mk.injEq, true_and, false_iff,
        not_exists]
      rintro _ ⟨⟨-, rfl⟩, hne⟩
      exact h hne
  · next hno =>
    simp only [reduceCtorEq, false_iff]
    rintro ⟨ipc, hst, -⟩
    exact hno ipc w hst

/-- A user process that does not wait. -/
theorem waitingOn_of_waiting_none (h : k.waiting pid = none)
    (hst : k.standing pid = some st) (hty : st.psType = .process) (hroot : pid ≠ rootserverno) :
    st.waitingOn = waitNobody := by
  by_contra hw
  have hsome : k.waiting pid = some st.waitingOn :=
    waiting_eq_some.mpr ⟨st.ipcAccept, by rw [hst, ← hty], hroot, hw⟩
  rw [h] at hsome
  simp at hsome

/-- Who is told in a turn: the sender of the message, or the parent whose load it is about. -/
def Kernel.loading (k : Kernel) : Option Pid :=
  match k.requests with
  | .elfload er :: _ => some er.parent
  | _ => none

/-- A process has begun to wait. -/
structure Registered (pid : Pid) (w : Int) (k k' : Kernel) : Prop where
  tidOffset : k'.tidOffset = k.tidOffset
  replies : k'.replies = k.replies
  requests : k'.requests = k.requests
  standing : ∀ st, k.standing pid = some st →
    k'.standing = Function.update k.standing pid (some { st with waitingOn := w })

theorem registered_updProcess (hp : k.sosProcs pid = .pcb p) (w : Int) :
    Registered pid w k (k.updProcess pid ({ · with waitingOn := w, state := .wait })) := by
  rw [updProcess_of_pcb hp]
  refine ⟨rfl, rfl, rfl, fun st hst => ?_⟩
  obtain rfl := Option.some.inj ((standing_of_pcb hp).symm.trans hst)
  exact standing_setSlot _

theorem processWait_registered {w : UInt32} (hp : k.sosProcs pid = .pcb p)
    (hw : WaitsForProcess k (.processWait pid w)) :
    Wp (processWait pid w.toNat) k (fun _ k' => Registered pid (toInt32 w.toNat) k k')
      (fun _ _ => False) := by
  unfold processWait
  rw [wp_ite]
  refine ⟨fun hany => wp_modify.mpr ?_, fun hany => ?_⟩
  · have hval : toInt32 w.toNat = waitAnybody := by rw [hany]; decide
    rw [hval]
    exact registered_updProcess hp _
  · obtain ⟨hlt, hsome⟩ := hw.resolve_left hany
    have hval : toInt32 w.toNat = w.toNat := by
      unfold toInt32 wordLimit
      omega
    rw [dif_pos hlt, wp_bind, wp_get]
    obtain ⟨q, hq⟩ := Option.isSome_iff_exists.mp hsome
    rw [Slot.pcb?_eq_some_iff.mp hq, hval]
    exact wp_modify.mpr (registered_updProcess hp _)

/-- The loads that are queued after a message. -/
def QueuedFor (sender : Option Pid) (k k' : Kernel) : Prop :=
  ∀ r ∈ k'.requests, ∃ er, r = .elfload er ∧ (er.parent ∈ k.parents ∨ sender = some er.parent)

theorem mem_parents (h : .elfload er ∈ k.requests) : er.parent ∈ k.parents :=
  List.mem_map_of_mem (mem_loads.mpr h)

theorem QueuedFor.of_sub {sender : Option Pid} (h : OnlyLoads k)
    (hsub : ∀ r ∈ k'.requests, r ∈ k.requests) : QueuedFor sender k k' := fun r hr => by
  obtain ⟨er, rfl⟩ := h r (hsub r hr)
  exact ⟨er, rfl, .inl (mem_parents (hsub _ hr))⟩

/-- **What a message of such a run does.** -/
theorem Step.turn (h : Waited k) (hst : Step k e k') (hrun : WaitRun k e)
    (hw : WaitsForProcess k e) :
    (∃ pid w, e = .processWait pid w ∧ Registered pid (toInt32 w.toNat) k k') ∨
    (∀ pid w, e ≠ .processWait pid w) ∧ ∃ gone told, Turn gone told k k' ∧
      (told = none ∨ told = e.sender ∨ told = k.loading) ∧ QueuedFor e.sender k k' := by
  obtain ⟨hen, n, hn⟩ := hst
  have hloads := h.onlyLoads
  cases e with
  | processWait pid w =>
    obtain ⟨-, huser⟩ : pid ≠ rootserverno ∧ (k.sosProcs pid).isUser = true := hen
    obtain ⟨p, hp, -⟩ := Slot.exists_pcb_of_isUser huser
    exact .inl ⟨pid, w, rfl, (processWait_registered hp hw).ok hn⟩
  | processDelete pid w =>
    obtain ⟨hreq, gone, ht⟩ := (processDeleteCall_turn w.toNat).ok hn
    refine .inr ⟨nofun, gone, some pid, ht, .inr (.inl rfl), .of_sub hloads fun r hr => ?_⟩
    rwa [hreq] at hr
  | exception pid =>
    have hdel : Wp (discard (processDelete pid)) k
        (fun _ k' => k'.requests = k.requests ∧ ∃ gone, Turn gone none k k') (fun _ _ => True) :=
      wp_discard.mpr processDelete_turn
    obtain ⟨hreq, gone, ht⟩ := hdel.ok hn
    refine .inr ⟨nofun, gone, none, ht, .inl rfl, .of_sub hloads fun r hr => ?_⟩
    rwa [hreq] at hr
  | processCreate pid fdout fderr fdin =>
    obtain ⟨ht, hreq⟩ := (processCreate_turn hloads n).ok hn
    refine .inr ⟨nofun, none, some pid, ht, .inr (.inl rfl), fun r hr => ?_⟩
    rcases hreq with hreq | ⟨er, hpar, hreq⟩
    · exact QueuedFor.of_sub hloads (fun r hr => by rwa [hreq] at hr) r hr
    · rw [hreq] at hr
      rcases List.mem_append.mp hr with hr | hr
      · obtain ⟨er', rfl⟩ := hloads r hr
        exact ⟨er', rfl, .inl (mem_parents hr)⟩
      · exact ⟨er, List.mem_singleton.mp hr, .inr (by rw [hpar]; rfl)⟩
  | vfsReply rval buffer =>
    obtain ⟨er, rest, hreq, ht, hmoves⟩ := (vfsReply_turn hloads n).ok hn
    have hloading : k.loading = some er.parent := by
      unfold Kernel.loading
      rw [hreq]
    have hmem : er.parent ∈ k.parents := mem_parents (by rw [hreq]; exact List.mem_cons_self ..)
    have hrest : ∀ r ∈ rest, r ∈ k.requests := fun r hr => by
      rw [hreq]
      exact List.mem_cons_of_mem _ hr
    refine .inr ⟨nofun, none, some er.parent, ht, .inr (.inr hloading.symm), fun r hr => ?_⟩
    rcases hmoves with hmoves | ⟨er', hpar, hmoves⟩
    · exact QueuedFor.of_sub hloads (fun r hr => hrest r (by rwa [hmoves] at hr)) r hr
    · rw [hmoves] at hr
      rcases List.mem_cons.mp hr with rfl | hr
      · exact ⟨er', rfl, .inl (hpar ▸ hmem)⟩
      · obtain ⟨er₁, rfl⟩ := hloads r (hrest r hr)
        exact ⟨er₁, rfl, .inl (mem_parents (hrest _ hr))⟩
  | _ => exact absurd hrun.1 id

/-! ## The invariant -/

/-- A process that has not ended waits as before, or no longer. -/
theorem Turn.kept (h : Turn gone told k k')
    (hgone : gone ≠ some pid) (hst : k.standing pid = some st) :
    k'.standing pid = some st ∨ k'.standing pid = some { st with waitingOn := waitNobody } := by
  by_cases hwake : ∃ q, gone = some q ∧ k.tidOffset ≤ pid ∧
      (st.waitingOn = q.val ∨ st.waitingOn = waitAnybody)
  · obtain ⟨q, hq, hle, hw⟩ := hwake
    have hne : pid ≠ q := by
      rintro rfl
      exact hgone hq
    exact .inr (h.awake q pid st hq hne hst hle hw).1
  · exact .inl (h.asleep pid st hgone hst fun q hq hw => hwake ⟨q, hq, hw⟩).1

/-- Nobody begins to wait in a turn. -/
theorem Turn.standing {st' : Standing} (h : Turn gone told k k')
    (hst' : k'.standing pid = some st') :
    (∃ st, k.standing pid = some st ∧ (st' = st ∨ st' = { st with waitingOn := waitNobody })) ∨
      st' = ⟨.process, .all, waitNobody⟩ ∧ k.tidOffset ≤ pid := by
  cases hst : k.standing pid with
  | none =>
    rcases (h.unborn pid hst).1 with hnone | ⟨hnew, hle⟩
    · simp [hnone] at hst'
    · exact .inr ⟨Option.mem_unique hst' hnew, hle⟩
  | some st =>
    have hgone : gone ≠ some pid := fun hg => by
      rw [(h.ended pid hg).2.1] at hst'
      simp at hst'
    exact .inl ⟨st, rfl, (h.kept hgone hst).imp (fun h' => Option.mem_unique hst' h')
      fun h' => Option.mem_unique hst' h'⟩

theorem Turn.waited (sender : Option Pid) (h : Turn gone told k k') (hw : Waited k)
    (hq : QueuedFor sender k k')
    (hsender : ∀ pid st, sender = some pid → k.standing pid = some st → st.waitingOn = waitNobody) :
    Waited k' where
  loads := fun r hr => by
    obtain ⟨er, rfl, hpar⟩ := hq r hr
    refine ⟨er, rfl, fun st' hst' => ?_⟩
    have hbefore : ∀ st, k.standing er.parent = some st → st.waitingOn = waitNobody := by
      rcases hpar with hpar | hpar
      · obtain ⟨er₀, her₀, hsame⟩ := List.mem_map.mp hpar
        obtain ⟨er₁, heq, hst⟩ := hw.loads _ (mem_loads.mp her₀)
        obtain rfl := Request.elfload.inj heq
        rw [← hsame]
        exact hst
      · exact fun st => hsender er.parent st hpar
    rcases h.standing hst' with ⟨st, hst, rfl | rfl⟩ | ⟨rfl, -⟩
    · exact hbefore st' hst
    · rfl
    · rfl
  users := fun pid st' hst' hty hroot => by
    rw [h.tidOffset]
    rcases h.standing hst' with ⟨st, hst, rfl | rfl⟩ | ⟨rfl, hle⟩
    · exact hw.users pid st' hst hty hroot
    · exact hw.users pid st hst hty hroot
    · exact ⟨hle, rfl⟩
  others := fun pid st' hst' hother => by
    rcases h.standing hst' with ⟨st, hst, rfl | rfl⟩ | ⟨rfl, -⟩
    · exact hw.others pid st' hst hother
    · rfl
    · rfl

theorem Registered.waited (h : Registered pid w k k') (hw : Waited k)
    (hst : k.standing pid = some st) (huser : st.psType = .process ∧ pid ≠ rootserverno)
    (hpar : pid ∉ k.parents) : Waited k' where
  loads := fun r hr => by
    rw [h.requests] at hr
    obtain ⟨er, rfl, hnobody⟩ := hw.loads r hr
    refine ⟨er, rfl, fun st' hst' => hnobody st' ?_⟩
    have hne : er.parent ≠ pid := by
      rintro rfl
      exact hpar (mem_parents hr)
    rwa [h.standing st hst, Function.update_of_ne hne] at hst'
  users := fun pid' st' hst' hty hroot => by
    rw [h.tidOffset]
    rw [h.standing st hst] at hst'
    by_cases hne : pid' = pid
    · subst hne
      rw [Function.update_self] at hst'
      obtain rfl := Option.some.inj hst'
      exact hw.users pid' st hst hty hroot
    · rw [Function.update_of_ne hne] at hst'
      exact hw.users pid' st' hst' hty hroot
  others := fun pid' st' hst' hother => by
    rw [h.standing st hst] at hst'
    have hne : pid' ≠ pid := by
      rintro rfl
      rw [Function.update_self] at hst'
      obtain rfl := Option.some.inj hst'
      exact hother.elim (· huser.1) huser.2
    rw [Function.update_of_ne hne] at hst'
    exact hw.others pid' st' hst' hother

theorem standing_of_isUser (h : (k.sosProcs pid).isUser = true) :
    ∃ st, k.standing pid = some st ∧ st.psType = .process := by
  obtain ⟨p, hp, hty⟩ := Slot.exists_pcb_of_isUser h
  exact ⟨p.standing, standing_of_pcb hp, hty⟩

/-- The sender of a message does not wait. -/
theorem WaitRun.sender (hrun : WaitRun k e) (hen : Enabled k e)
    (hs : e.sender = some pid) (hst : k.standing pid = some st) : st.waitingOn = waitNobody := by
  have huser : pid ≠ rootserverno ∧ (k.sosProcs pid).isUser = true := by
    unfold Enabled at hen
    rw [hs] at hen
    exact hen
  obtain ⟨st', hst', hty⟩ := standing_of_isUser huser.2
  obtain rfl := Option.mem_unique hst' hst
  exact waitingOn_of_waiting_none (hrun.2 pid hs).1 hst hty huser.1

theorem Step.waited (hw : Waited k) (hst : Step k e k') (hrun : WaitRun k e)
    (hfor : WaitsForProcess k e) : Waited k' := by
  rcases hst.turn hw hrun hfor with ⟨pid, w, rfl, hreg⟩ | ⟨-, gone, told, ht, -, hq⟩
  · obtain ⟨st, hst', hty⟩ := standing_of_isUser hst.1.2
    exact hreg.waited hw hst' ⟨hty, hst.1.1⟩ (hrun.2 pid rfl).2
  · exact ht.waited _ hw hq fun pid st hs => hrun.sender hst.1 hs

theorem bootProcess_turn {regions : List Region} :
    Wp (bootProcess regions) k (fun _ k' => Turn none none k k') (fun _ _ => True) := by
  unfold bootProcess
  rw [wp_bind]
  refine processInit_newborn.imp fun p k₁ h₁ => ?_
  rw [wp_bind]
  refine wp_getNextPid fun o next _ _ => ?_
  cases o with
  | none => exact wp_throw.mpr trivial
  | some pid =>
    refine (prepareRun_born (p := { p with regions := regions }) (congrArg Standing.psType h₁.1)
      h₁.1).imp fun _ k' h' => ?_
    have hc : Calm k₁ { k₁ with nextPid := next } := .of_procs rfl rfl rfl
    exact Turn.after_calm h₁.2 (Turn.after_calm hc h'.turn)

theorem Booted.waited (h : Booted M k) : Waited k := by
  have hnil : ∀ {k}, Booted M k → ∀ r ∈ k.requests, False := fun hb r hr => by
    rw [hb.idle.1] at hr
    simp at hr
  induction h with
  | @init k₀ k hstart hinit =>
    have hthreads := (pagerInit_spec hstart).ok hinit
    refine ⟨fun r hr => (hnil (.init hstart hinit) r hr).elim, fun pid st hst hty hroot => ?_,
      fun pid st hst _ => ?_⟩
    · obtain ⟨p, hp, rfl⟩ := pcb_of_standing hst
      exact absurd (hty.symm.trans (hthreads.rootthreads pid p hroot hp)) (by decide)
    · obtain ⟨p, hp, rfl⟩ := pcb_of_standing hst
      exact hthreads.nobody pid p hp
  | process hb hr hboot ih =>
    have ht := bootProcess_turn.ok hboot
    refine ht.waited none ih (fun r hr' => ?_) nofun
    exact (hnil (.process hb hr hboot) r hr').elim

theorem Reachable.waited
    (h : Reachable M (fun k e => WaitRun k e ∧ WaitsForProcess k e) k) : Waited k := by
  induction h with
  | boot hb => exact hb.waited
  | step _ hc hst ih => exact hst.waited ih hc.1 hc.2

/-! ## Exactness -/

/-- The process of the pid has ended. -/
def Deleted (k k' : Kernel) (q : Pid) : Prop :=
  (k.sosProcs q).pcb?.isSome ∧ (k'.sosProcs q).pcb? = none

theorem deleted_iff : Deleted k k' q ↔ (k.standing q).isSome ∧ k'.standing q = none := by
  unfold Deleted Kernel.standing
  simp

theorem Turn.gone_of_deleted (h : Turn gone told k k') (hd : Deleted k k' q) : gone = some q := by
  obtain ⟨hbefore, hnone⟩ := deleted_iff.mp hd
  obtain ⟨st, hst⟩ := Option.isSome_iff_exists.mp hbefore
  by_contra hgone
  rcases h.kept hgone hst with hst' | hst' <;> simp [hst'] at hnone

theorem Turn.deleted (h : Turn gone told k k') (hq : gone = some q) :
    Deleted k k' q :=
  deleted_iff.mpr ⟨(h.ended q hq).1, (h.ended q hq).2.1⟩

theorem Registered.not_deleted (h : Registered pid w k k')
    (hst : k.standing pid = some st) (q : Pid) : ¬ Deleted k k' q := fun hd => by
  obtain ⟨hbefore, hafter⟩ := deleted_iff.mp hd
  rw [h.standing st hst] at hafter
  by_cases hq : q = pid
  · rw [hq, Function.update_self] at hafter
    simp at hafter
  · rw [Function.update_of_ne hq] at hafter
    simp [hafter] at hbefore

/-- The word of a wait is never the mark of a process that does not wait. -/
theorem WaitsForProcess.ne_nobody {w : UInt32} (h : WaitsForProcess k (.processWait pid w)) :
    toInt32 w.toNat ≠ waitNobody := by
  rcases h with h | ⟨h, -⟩
  · rw [h]
    decide
  · unfold toInt32 wordLimit waitNobody
    omega

/-- A process that waits, and gets no other reply, in a turn. -/
theorem Turn.wakes (h : Turn gone told k k') (hw : Waited k)
    (htold : told ≠ some pid) (hwait : k.waiting pid = some w) :
    (∀ q, q ≠ pid → Deleted k k' q → w = q.val ∨ w = waitAnybody →
      k'.repliesTo pid = k.repliesTo pid ++ [⟨pid, [q.val]⟩] ∧ k'.waiting pid = none) ∧
    ((∀ q, q ≠ pid → Deleted k k' q → ¬ (w = q.val ∨ w = waitAnybody)) →
      k'.repliesTo pid = k.repliesTo pid ∧ (k'.waiting pid = some w ∨ Deleted k k' pid)) := by
  obtain ⟨ipc, hst, hroot, hne⟩ := waiting_eq_some.mp hwait
  obtain ⟨hle, hipc⟩ := hw.users pid _ hst rfl hroot
  refine ⟨fun q hq hd hwq => ?_, fun hno => ?_⟩
  · obtain ⟨hst', hr⟩ := h.awake q pid _ (h.gone_of_deleted hd) hq.symm hst hle hwq
    refine ⟨hr htold hroot (by rw [hipc]; decide), ?_⟩
    unfold Kernel.waiting
    rw [hst']
    simp
  · by_cases hgone : gone = some pid
    · exact ⟨(h.ended pid hgone).2.2 htold, .inr (h.deleted hgone)⟩
    · obtain ⟨hst', hr⟩ := h.asleep pid _ hgone hst fun q hq hwq =>
        hno q (by rintro rfl; exact hgone hq) (h.deleted hq) hwq.2
      exact ⟨hr htold, .inl (waiting_eq_some.mpr ⟨ipc, hst', hroot, hne⟩)⟩

/-- A process that does not wait gets no reply but its own. -/
theorem Turn.told_of_reply (h : Turn gone told k k') (hw : Waited k)
    (hwait : k.waiting pid = none) (hr : k'.repliesTo pid ≠ k.repliesTo pid) : told = some pid := by
  by_contra htold
  cases hst : k.standing pid with
  | none => exact hr ((h.unborn pid hst).2 htold)
  | some st =>
    by_cases hgone : gone = some pid
    · exact hr ((h.ended pid hgone).2.2 htold)
    have hnobody : st.waitingOn = waitNobody := by
      by_cases huser : st.psType = .process ∧ pid ≠ rootserverno
      · exact waitingOn_of_waiting_none hwait hst huser.1 huser.2
      · exact hw.others pid st hst (by tauto)
    refine hr ((h.asleep pid st hgone hst fun q _ hwq => ?_).2 htold)
    rw [hnobody] at hwq
    rcases hwq.2 with hwq | hwq
    · simp only [waitNobody] at hwq
      omega
    · exact absurd hwq (by decide)

/-- Who is told something does not wait for a process. -/
theorem Waited.not_told {told : Option Pid} (hw : Waited k) (hrun : WaitRun k e)
    (hen : Enabled k e) (htold : told = none ∨ told = e.sender ∨ told = k.loading)
    (hwait : (k.waiting pid).isSome) : told ≠ some pid := by
  rintro rfl
  obtain ⟨w, hwait⟩ := Option.isSome_iff_exists.mp hwait
  obtain ⟨ipc, hst, -, hne⟩ := waiting_eq_some.mp hwait
  rcases htold with htold | htold | htold
  · simp at htold
  · exact hne (hrun.sender hen htold.symm hst)
  · unfold Kernel.loading at htold
    split at htold
    · next er rest hreq =>
      obtain rfl := Option.some.inj htold
      obtain ⟨er', heq, hnobody⟩ :=
        hw.loads (.elfload er) (by rw [hreq]; exact List.mem_cons_self ..)
      obtain rfl := Request.elfload.inj heq
      exact hne (hnobody _ hst)
    · simp at htold

/-- **Waiting is exact.** In runs of waits, creations and deletions in which processes wait for any
process or for one that is there: a process that waits is replied to when the process it waits for
ends, or the next one if it waits for any, once and with its pid, and not before; nobody else is
replied to but the sender of a message and the parent whose load it is about; and a process that
calls `process_wait` waits for what it asked for. -/
theorem waits_exact {M : Set Nat} {e : Event}
    (h : Reachable M (fun k e => WaitRun k e ∧ WaitsForProcess k e) k) (hrun : WaitRun k e)
    (hfor : WaitsForProcess k e) (hst : Step k e k') :
    (∀ pid w, k.waiting pid = some w →
      (∀ q, q ≠ pid → Deleted k k' q → w = q.val ∨ w = waitAnybody →
        k'.repliesTo pid = k.repliesTo pid ++ [⟨pid, [q.val]⟩] ∧ k'.waiting pid = none) ∧
      ((∀ q, q ≠ pid → Deleted k k' q → ¬ (w = q.val ∨ w = waitAnybody)) →
        k'.repliesTo pid = k.repliesTo pid ∧ (k'.waiting pid = some w ∨ Deleted k k' pid))) ∧
    (∀ pid, k.waiting pid = none → k'.repliesTo pid ≠ k.repliesTo pid →
      e.sender = some pid ∨ k.loading = some pid) ∧
    ∀ pid w, e = .processWait pid w →
      k'.waiting pid = some (toInt32 w.toNat) ∧ k'.replies = k.replies := by
  have hw := h.waited
  rcases hst.turn hw hrun hfor with ⟨pid, w, rfl, hreg⟩ | ⟨hno, gone, told, ht, htold, -⟩
  · obtain ⟨hroot, huser⟩ : pid ≠ rootserverno ∧ (k.sosProcs pid).isUser = true := hst.1
    obtain ⟨st, hst', hty⟩ := standing_of_isUser huser
    have hrep : ∀ pid', k'.repliesTo pid' = k.repliesTo pid' := fun pid' => by
      unfold Kernel.repliesTo
      rw [hreg.replies]
    refine ⟨fun pid' w' hwait => ⟨fun q _ hd => absurd hd (hreg.not_deleted hst' q), fun _ =>
      ⟨hrep pid', .inl ?_⟩⟩, fun pid' _ hr => absurd (hrep pid') hr, ?_⟩
    · have hne : pid' ≠ pid := by
        rintro rfl
        simp [(hrun.2 pid' rfl).1] at hwait
      rw [← hwait]
      unfold Kernel.waiting
      rw [hreg.standing st hst', Function.update_of_ne hne]
    · rintro _ _ ⟨⟩
      refine ⟨waiting_eq_some.mpr ⟨st.ipcAccept, ?_, hroot, hfor.ne_nobody⟩, hreg.replies⟩
      rw [hreg.standing st hst', Function.update_self, ← hty]
  · refine ⟨fun pid w hwait => ht.wakes hw (hw.not_told hrun hst.1 htold (by simp [hwait])) hwait,
      fun pid hwait hr => ?_, ?_⟩
    · rcases htold with rfl | rfl | rfl
      · exact absurd (ht.told_of_reply hw hwait hr) nofun
      · exact .inl (ht.told_of_reply hw hwait hr)
      · exact .inr (ht.told_of_reply hw hwait hr)
    · exact fun pid w he => absurd he (hno pid w)

instance (k k' : Kernel) (q : Pid) : Decidable (Deleted k k' q) :=
  inferInstanceAs (Decidable (_ ∧ _))

/-- Process 2 waits for process 3, which ends. -/
theorem waits_exact_forThree :
    ∃ k k', Reachable (coldFrames 12) (fun k e => WaitRun k e ∧ WaitsForProcess k e) k ∧
      Step k (.exception 3) k' ∧ k.waiting 2 = some 3 ∧
      k'.repliesTo 2 = k.repliesTo 2 ++ [⟨2, [3]⟩] ∧ k'.waiting 2 = none := by
  obtain ⟨k, k', hr, ⟨hrun, hfor⟩, hst, hwait, hd⟩ := step_of_run 12 20 [[appRegion], [appRegion]]
    (fun k e => WaitRun k e ∧ WaitsForProcess k e) [.processWait 2 3] (.exception 3)
    (fun k k' => k.waiting 2 = some 3 ∧ Deleted k k' 3) (by decide) (by decide +kernel)
  obtain ⟨hexact, -⟩ := waits_exact hr hrun hfor hst
  obtain ⟨hreply, hnone⟩ := (hexact 2 3 hwait).1 3 (by decide) hd (.inl rfl)
  exact ⟨k, k', hr, hst, hwait, hreply, hnone⟩

/-- Process 2 waits for process 9, which is not there: the word in its PCB is that of a wait for any
process. Process 3 ends, and process 2 is told so. -/
theorem wait_for_missing_process_wakes :
    ∃ k₀ k k', Reachable (coldFrames 12) WaitRun k₀ ∧ k₀.sosProcs 9 = .null ∧
      WaitRun k₀ (.processWait 2 9) ∧ Step k₀ (.processWait 2 9) k ∧
      WaitRun k (.exception 3) ∧ Step k (.exception 3) k' ∧
      k'.repliesTo 2 = k.repliesTo 2 ++ [⟨2, [3]⟩] := by
  obtain ⟨k₀, k, hr, hrun, hst, hnull, k', hk', hreply⟩ := step_of_run 12 20
    [[appRegion], [appRegion]] WaitRun [] (.processWait 2 9)
    (fun k₀ k => (k₀.sosProcs 9).tag = .free ∧ ∃ k' ∈ runEvents WaitRun 20 [.exception 3] k,
      k'.repliesTo 2 = k.repliesTo 2 ++ [⟨2, [3]⟩]) (by decide) (by decide +kernel)
  obtain ⟨hrun', hst'⟩ := step_of_runEvents hk'
  refine ⟨k₀, k, k', hr, ?_, hrun, hst, hrun', hst', hreply⟩
  cases hs : k₀.sosProcs 9 <;> simp_all [Slot.tag]

end Sos
