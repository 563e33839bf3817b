import Sos.Effects

/-!
# Descriptors and reserved pids

What serving a request does to the files the pager has open and to the pids it has reserved:
nothing, apart from opening the file of the next request and ending processes (`Tame`). The queue
stays orderly (`Orderly`): the request at its head has been started, and holds a descriptor exactly
between the answer to its `open` and its `close`.

`D` stands for the descriptors the pager has been given and has not closed.
-/

namespace Sos

open Hoare

variable {k k' k'' : Kernel} {c : Calls} {D D' : Set Int} {B B' : Set Request} {pid : Pid}
variable {r : Request}

/-! ## What changes on the side -/

/-- The descriptor in a swap file. -/
def Kernel.fd? (k : Kernel) (ptr : SwapfilePtr) : Option Int := (k.swapfile? ptr).map Swapfile.fd

/-- What a slot of the process table is used for. -/
inductive SlotTag
  | free
  | reserved
  | process (inc : Nat)
deriving DecidableEq, Repr

def Slot.tag : Slot → SlotTag
  | .null => .free
  | .placeholder => .reserved
  | .pcb p => .process p.inc

/-- The load a request asks for. -/
def Request.load? : Request → Option ElfloadRequest
  | .elfload er => some er
  | _ => none

/-- The loads in the queue. -/
def Kernel.loads (k : Kernel) : List ElfloadRequest := k.requests.filterMap Request.load?

theorem mem_loads {er : ElfloadRequest} : er ∈ k.loads ↔ .elfload er ∈ k.requests := by
  unfold Kernel.loads
  rw [List.mem_filterMap]
  constructor
  · rintro ⟨r, hr, he⟩
    cases r with
    | elfload er' =>
      injection he with he
      exact he ▸ hr
    | swapin pr | swapout pr => simp [Request.load?] at he
  · exact fun h => ⟨_, h, rfl⟩

/-- More calls of one kind have been made. -/
theorem calls_trans {P : VfsCall → Prop} (h : ∃ l, k'.calls = k.calls ++ l ∧ ∀ c ∈ l, P c)
    (h' : ∃ l, k''.calls = k'.calls ++ l ∧ ∀ c ∈ l, P c) :
    ∃ l, k''.calls = k.calls ++ l ∧ ∀ c ∈ l, P c := by
  obtain ⟨l, hl, hq⟩ := h
  obtain ⟨l', hl', hq'⟩ := h'
  refine ⟨l ++ l', by rw [hl', hl, List.append_assoc], fun c hc => ?_⟩
  rcases List.mem_append.mp hc with hc | hc
  · exact hq c hc
  · exact hq' c hc

/-- No call on a descriptor has been made. -/
def CallsQuiet (k k' : Kernel) : Prop :=
  ∃ l, k'.calls = k.calls ++ l ∧ ∀ c ∈ l, c.fd? = none

theorem CallsQuiet.refl (k : Kernel) : CallsQuiet k k := ⟨[], by simp, by simp⟩

theorem CallsQuiet.of_eq (h : k'.calls = k.calls) : CallsQuiet k k' := ⟨[], by simp [h], by simp⟩

theorem CallsQuiet.trans (h : CallsQuiet k k') (h' : CallsQuiet k' k'') : CallsQuiet k k'' :=
  calls_trans h h'

/-- A slot is used as before, or its process has ended. -/
def SlotTag.After (t t' : SlotTag) : Prop := t' = t ∨ (∃ inc, t = .process inc) ∧ t' = .free

theorem SlotTag.After.trans {t t' t'' : SlotTag} (h : t.After t') (h' : t'.After t'') :
    t.After t'' := by
  obtain rfl | ⟨hp, rfl⟩ := h
  · exact h'
  · obtain rfl | ⟨⟨inc, hinc⟩, rfl⟩ := h'
    · exact .inr ⟨hp, rfl⟩
    · exact .inr ⟨hp, rfl⟩

/-- The pager has opened files but not used or closed any; processes have ended but none has begun,
no pid has been reserved or released, and loads have only left the queue. -/
structure Tame (k k' : Kernel) : Prop where
  slots : ∀ pid, (k.sosProcs pid).tag.After (k'.sosProcs pid).tag
  fds : ∀ ptr, k'.fd? ptr = k.fd? ptr ∨ k'.fd? ptr = none
  calls : CallsQuiet k k'
  loads : k'.loads.Sublist k.loads

namespace Tame

theorem refl (k : Kernel) : Tame k k :=
  ⟨fun _ => .inl rfl, fun _ => .inl rfl, .refl k, .refl _⟩

theorem trans (h : Tame k k') (h' : Tame k' k'') : Tame k k'' where
  slots := fun pid => (h.slots pid).trans (h'.slots pid)
  fds := fun ptr => by
    obtain he | he := h'.fds ptr
    · rw [he]
      exact h.fds ptr
    · exact .inr he
  calls := h.calls.trans h'.calls
  loads := h'.loads.trans h.loads

/-- Only the queue has changed, and no load has been added. -/
theorem of_requests {reqs : List Request} {a o : Bool}
    (h : (reqs.filterMap Request.load?).Sublist k.loads) :
    Tame k { k with requests := reqs, requestActive := a, overrun := o } :=
  ⟨fun _ => .inl rfl, fun _ => .inl rfl, .of_eq rfl, h⟩

end Tame

/-- `Tame`, with the queue as it was. -/
structure Still (k k' : Kernel) : Prop where
  slots : ∀ pid, (k.sosProcs pid).tag.After (k'.sosProcs pid).tag
  fds : ∀ ptr, k'.fd? ptr = k.fd? ptr ∨ k'.fd? ptr = none
  calls : CallsQuiet k k'
  requests : k'.requests = k.requests
  requestActive : k'.requestActive = k.requestActive

theorem Still.tame (h : Still k k') : Tame k k' :=
  ⟨h.slots, h.fds, h.calls, by unfold Kernel.loads; rw [h.requests]⟩

/-- Faults other than the assertions on a reply. -/
abbrev NotOnReply (f : Fault) : Prop := f.onReply = false

theorem tag_updProcess {g : Process → Process} (h : ∀ p, (g p).inc = p.inc) (pid' : Pid) :
    ((k.updProcess pid g).sosProcs pid').tag = (k.sosProcs pid').tag := by
  unfold Kernel.updProcess
  split
  · next p hp =>
    by_cases he : pid' = pid
    · rw [he, setSlot_self, hp]
      exact congrArg SlotTag.process (h p)
    · rw [setSlot_of_ne he]
  · rfl

theorem still_updProcess {g : Process → Process} (h : ∀ p, (g p).inc = p.inc) :
    Still k (k.updProcess pid g) := by
  refine ⟨fun pid' => .inl (tag_updProcess h pid'), ?_, ?_, ?_, ?_⟩ <;> rw [updProcess_rest]
  · exact fun _ => .inl rfl
  · exact .of_eq rfl

theorem still_deleting : Deleting Still NotOnReply where
  refl := fun k => ⟨fun _ => .inl rfl, fun _ => .inl rfl, .refl k, rfl, rfl⟩
  trans := fun h h' =>
    have ht := h.tame.trans h'.tame
    ⟨ht.slots, ht.fds, ht.calls, h'.requests.trans h.requests,
      h'.requestActive.trans h.requestActive⟩
  fault := fun _ h => (Fault.of_not_watched h).1
  buffers := fun _ _ _ _ => ⟨fun _ => .inl rfl, fun _ => .inl rfl, .of_eq rfl, rfl, rfl⟩
  calls := fun _ l hl => ⟨fun _ => .inl rfl, fun _ => .inl rfl, ⟨l, rfl, hl⟩, rfl, rfl⟩
  reply := fun _ _ => ⟨fun _ => .inl rfl, fun _ => .inl rfl, .of_eq rfl, rfl, rfl⟩
  pcb := fun _ _ _ _ _ hi => still_updProcess fun p => (hi p).2
  plain := fun {k k'} h => by
    unfold Plain at h
    rw [h]
    refine ⟨fun _ => .inl rfl, fun ptr => .inl ?_, .of_eq rfl, rfl, rfl⟩
    cases ptr <;> rfl
  pages := fun _ _ _ hg => still_updProcess fun p => by rw [hg p]
  nextPid := fun _ _ => ⟨fun _ => .inl rfl, fun _ => .inl rfl, .of_eq rfl, rfl, rfl⟩
  remove := fun k pid p hp => by
    refine ⟨fun pid' => ?_, fun _ => .inl rfl, .of_eq rfl, rfl, rfl⟩
    by_cases he : pid' = pid
    · rw [he, setSlot_self, hp]
      exact .inr ⟨⟨_, rfl⟩, rfl⟩
    · rw [setSlot_of_ne he]
      exact .inl rfl
  forget := fun k f => by
    refine ⟨fun _ => .inl rfl, fun ptr => ?_, .of_eq rfl, rfl, rfl⟩
    cases ptr with
    | null | default => exact .inl rfl
    | elf g =>
      show Option.map _ (Function.update k.elffiles f none g) = _ ∨ _
      by_cases he : g = f
      · rw [he, Function.update_self]
        exact .inr (by simp [Kernel.fd?, Kernel.swapfile?])
      · rw [Function.update_of_ne he]
        exact .inl rfl

theorem still_messaging : Messaging Still NotOnReply := still_deleting.toMessaging

theorem still_paging : Paging Still NotOnReply := still_deleting.toPaging

theorem still_closed : Closed Still NotOnReply := still_deleting.toClosed

/-! ## The queue -/

/-- A swap file that is there is closed. -/
def Kernel.Shut (k : Kernel) (ptr : SwapfilePtr) : Prop := ∀ d, k.fd? ptr = some d → d = vfsNilFile

/-- A swap file that is there is open. -/
def Kernel.Opened (k : Kernel) (D : Set Int) (ptr : SwapfilePtr) : Prop :=
  ∀ d, k.fd? ptr = some d → d ∈ D

/-- A request that has been started, at the stage it has reached. -/
def Request.Underway (k : Kernel) (D : Set Int) : Request → Prop
  | .swapin pr =>
    match pr.stage with
    | some .swapinOpen => pr.size = pageSize ∧ k.Shut pr.sf
    | some .swapinLseek => pr.size = pageSize ∧ pr.offset ≤ pageSize ∧ k.Opened D pr.sf
    | some .swapinRead => pr.size = pageSize ∧ pr.offset ≤ pageSize ∧ k.Opened D pr.sf
    | some .swapinClose => True
    | _ => False
  | .swapout pr =>
    match pr.stage with
    | some .swapoutOpen => pr.size = pageSize ∧ pr.offset ≤ pageSize ∧ k.Shut pr.sf
    | some .swapoutWrite => pr.size = pageSize ∧ pr.offset ≤ pageSize ∧ k.Opened D pr.sf
    | some .swapoutClose => pr.offset ≤ pageSize
    | _ => False
  | .elfload er => er.stage = .checkExec ∨ er.stage = .readHeader → er.fd ∈ D

theorem Kernel.Shut.of_fds {ptr : SwapfilePtr} (h : k.Shut ptr)
    (hf : k'.fd? ptr = k.fd? ptr ∨ k'.fd? ptr = none) : k'.Shut ptr := by
  intro d hd
  obtain he | he := hf
  · exact h d (he ▸ hd)
  · rw [he] at hd
    simp at hd

theorem Kernel.Opened.of_fds {ptr : SwapfilePtr} (h : k.Opened D ptr)
    (hf : k'.fd? ptr = k.fd? ptr ∨ k'.fd? ptr = none) : k'.Opened D ptr := by
  intro d hd
  obtain he | he := hf
  · exact h d (he ▸ hd)
  · rw [he] at hd
    simp at hd

theorem Request.Underway.of_fds (h : r.Underway k D)
    (hf : ∀ ptr, k'.fd? ptr = k.fd? ptr ∨ k'.fd? ptr = none) : r.Underway k' D := by
  cases r with
  | elfload er => exact h
  | swapin pr =>
    unfold Request.Underway at h ⊢
    dsimp only at h ⊢
    split at h
    · exact ⟨h.1, h.2.of_fds (hf _)⟩
    · exact ⟨h.1, h.2.1, h.2.2.of_fds (hf _)⟩
    · exact ⟨h.1, h.2.1, h.2.2.of_fds (hf _)⟩
    · exact h
    · exact h.elim
  | swapout pr =>
    unfold Request.Underway at h ⊢
    dsimp only at h ⊢
    split at h
    · exact ⟨h.1, h.2.1, h.2.2.of_fds (hf _)⟩
    · exact ⟨h.1, h.2.1, h.2.2.of_fds (hf _)⟩
    · exact h
    · exact h.elim

/-- While a request is active the one at the head is under way, or in `B` and about to leave; loads
behind it, and all loads while none is active, are still to be opened. -/
structure Orderly (D : Set Int) (B : Set Request) (k : Kernel) : Prop where
  head : k.requestActive = true → ∃ r rest, k.requests = r :: rest ∧ (r.Underway k D ∨ r ∈ B)
  tail : ∀ er, .elfload er ∈ k.requests.tail → er.stage = .open
  idle : k.requestActive = false → ∀ er, .elfload er ∈ k.requests → er.stage = .open

theorem Orderly.of_still (h : Orderly D B k) (hs : Still k k') : Orderly D B k' where
  head := fun ha => by
    rw [hs.requestActive] at ha
    obtain ⟨r, rest, hr, hu⟩ := h.head ha
    exact ⟨r, rest, hs.requests.trans hr, hu.imp_left fun hu => hu.of_fds hs.fds⟩
  tail := by rw [hs.requests]; exact h.tail
  idle := by rw [hs.requests, hs.requestActive]; exact h.idle

/-- A queue in which nothing is active. -/
theorem Orderly.of_idle (ha : k.requestActive = false)
    (hr : ∀ er, .elfload er ∈ k.requests → er.stage = .open) : Orderly D B k where
  head := fun h => by rw [ha] at h; simp at h
  tail := fun er her => hr er (List.mem_of_mem_tail her)
  idle := fun _ => hr

/-- Programs that keep the queue orderly and are `Tame`. -/
abbrev Tames (D : Set Int) (B : Set Request) {α : Type} (m : PagerM α) (k : Kernel) : Prop :=
  Wp m k (fun _ k' => Tame k k' ∧ Orderly D B k') (fun f k' => CallsQuiet k k' ∧ NotOnReply f)

namespace Tames

variable {α β : Type} {m : PagerM α} {f : α → PagerM β}

theorem pure {a : α} (ho : Orderly D B k) : Tames D B (Pure.pure a : PagerM α) k :=
  wp_pure.mpr ⟨.refl k, ho⟩

theorem of_keeps (hm : Keeps Still NotOnReply m) (ho : Orderly D B k) : Tames D B m k :=
  (hm k).mono (fun _ _ h => ⟨h.tame, ho.of_still h⟩) fun _ _ h => ⟨h.1.calls, h.2⟩

/-- What follows a `Tame` change. -/
theorem after (ht : Tame k k') (hm : Tames D B m k') :
    Wp m k' (fun _ k'' => Tame k k'' ∧ Orderly D B k'')
      (fun f k'' => CallsQuiet k k'' ∧ NotOnReply f) :=
  hm.mono (fun _ _ h => ⟨ht.trans h.1, h.2⟩) fun _ _ h => ⟨ht.calls.trans h.1, h.2⟩

theorem bind (hm : Tames D B m k) (hf : ∀ a k', Orderly D B k' → Tames D B (f a) k') :
    Tames D B (m >>= f) k :=
  wp_bind.mpr (hm.imp fun a k' h => (hf a k' h.2).after h.1)

/-- A function that leaves the queue alone, and what follows it. -/
theorem bind_still (hm : Keeps Still NotOnReply m) (hf : ∀ a k', Still k k' → Tames D B (f a) k') :
    Tames D B (m >>= f) k :=
  wp_bind.mpr ((hm k).mono (fun a k' h => (hf a k' h).after h.tame) fun _ _ h => ⟨h.1.calls, h.2⟩)

theorem discard (hm : Tames D B m k) : Tames D B (discard m) k := wp_discard.mpr hm

end Tames

/-- What is assumed of the functions called back. -/
structure CallsTame (D : Set Int) (B : Set Request) (c : Calls) : Prop where
  startRequest : ∀ k, Orderly D B k → Tames D B c.startRequest k
  pager : ∀ pr k, Orderly D B k → Tames D B (c.pager pr) k

/-- A request is queued, and started if there is none before it. -/
theorem queueRequest_orderly (hc : CallsTame D B c) (ho : Orderly D B k)
    (hr : ∀ er, r = .elfload er → er.stage = .open) :
    Wp (queueRequest c r) k
      (fun _ k' => Tame { k with requests := k.requests ++ [r] } k' ∧ Orderly D B k')
      (fun f k' => CallsQuiet k k' ∧ NotOnReply f) := by
  unfold queueRequest
  rw [wp_bind, wp_get, wp_ite]
  refine ⟨fun hempty => ?_, fun hne => ?_⟩
  · have hnil : k.requests = [] := by simpa using hempty
    rw [wp_bind, wp_assert]
    refine ⟨fun hidle => ?_, fun _ => ⟨.refl k, rfl⟩⟩
    have hidle : k.requestActive = false := by simpa using hidle
    rw [wp_bind]
    refine modify_eq.imp fun _ k₁ h₁ => ?_
    rw [← h₁]
    have ho₁ : Orderly D B k₁ := by
      refine .of_idle (by rw [h₁]; exact hidle) fun er her => hr er ?_
      simp only [h₁, hnil, List.nil_append, List.mem_singleton] at her
      exact her.symm
    have hcalls : CallsQuiet k k₁ := .of_eq (by rw [h₁])
    exact (hc.startRequest k₁ ho₁).mono (fun _ _ h => h) fun _ _ h => ⟨hcalls.trans h.1, h.2⟩
  · rw [wp_bind, wp_assert]
    refine ⟨fun hactive => ?_, fun _ => ⟨.refl k, rfl⟩⟩
    rw [wp_modify]
    refine ⟨.refl _, ⟨fun _ => ?_, fun er her => ?_, fun hidle => ?_⟩⟩
    · obtain ⟨r', rest, hreq, hu⟩ := ho.head hactive
      exact ⟨r', rest ++ [r], by rw [hreq]; rfl, hu.imp_left fun hu => hu.of_fds fun _ => .inl rfl⟩
    · obtain ⟨r', rest, hreq, -⟩ := ho.head hactive
      rw [hreq, List.cons_append, List.tail_cons] at her
      rcases List.mem_append.mp her with her | her
      · exact ho.tail er (by rw [hreq]; exact her)
      · exact hr er (List.mem_singleton.mp her).symm
    · rw [hactive] at hidle
      simp at hidle

theorem queueRequest_tames {pr : PagerRequest} (hc : CallsTame D B c) (ho : Orderly D B k) :
    Tames D B (queueRequest c (.swapin pr)) k := by
  refine (queueRequest_orderly hc ho (by simp)).imp fun _ k' h => ⟨Tame.trans ?_ h.1, h.2⟩
  refine ⟨fun _ => .inl rfl, fun _ => .inl rfl, .of_eq rfl, ?_⟩
  unfold Kernel.loads
  simp [Request.load?]

/-- The head is taken off, and the next request started. -/
theorem dequeueRequest_tames (hc : CallsTame D B' c) (ho : Orderly D B k) :
    Tames D B' (dequeueRequest c) k := by
  unfold dequeueRequest
  rw [Tames, wp_bind, wp_get, wp_bind, wp_assert]
  refine ⟨fun _ => ?_, fun _ => ⟨.refl k, rfl⟩⟩
  rw [wp_bind]
  refine modify_eq.imp fun _ k₁ h₁ => ?_
  rw [wp_bind]
  have hcalls : CallsQuiet k k₁ := .of_eq (by rw [h₁])
  refine wp_requestsUnshift (fun _ => ⟨hcalls, rfl⟩) fun r rest hreq k₂ h₂ => ?_
  have hreq₀ : k.requests = r :: rest := by rw [← hreq, h₁]
  have ho₂ : Orderly D B' k₂ := by
    refine .of_idle (by rw [h₂, h₁]) fun er her => ho.tail er ?_
    rw [hreq₀]
    rw [h₂] at her
    exact her
  have hsub : (rest.filterMap Request.load?).Sublist k.loads := by
    unfold Kernel.loads
    rw [hreq₀]
    exact (List.sublist_cons_self r rest).filterMap _
  have ht : Tame k k₂ := by
    rw [h₂, h₁]
    exact .of_requests hsub
  rw [wp_bind, wp_get, wp_ite]
  refine ⟨fun _ => wp_pure.mpr ⟨ht, ho₂⟩, fun _ => ?_⟩
  exact (hc.startRequest k₂ ho₂).after ht

end Sos
