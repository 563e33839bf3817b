import Sos.Control.Serve

/-!
# Replies, with an eye on descriptors

The stages of a swap and of a load. A file is used and closed only between the answer to its `open`
and its `close`, as long as the answers are the ones the stages can deal with (`Accepts`). A pid
stays reserved for a load until the process is made.
-/

namespace Sos

open Hoare

variable {k k' k'' : Kernel} {c : Calls} {D : Set Int} {B : Set Request} {pr : PagerRequest}
variable {rest : List Request} {G : Prop}
variable {ptr : SwapfilePtr} {E : Fault → Kernel → Prop} {Q : Unit → Kernel → Prop} {r r' : Request}
  {vfsRval : Int} {fd : Int}

/-! ## Finishing a swap -/

theorem Orderly.fresh_of_swapin (ho : Orderly D B k) (hreq : k.requests = .swapin pr :: rest) :
    ∀ er, .elfload er ∈ k.requests → er.stage = .open := by
  intro er her
  refine ho.tail er ?_
  rw [hreq] at her ⊢
  simpa using her

section Finish

variable (hc : ∀ B, CallsTame D B c)
include hc

theorem finishSwapinFor_tames {request : PagerRequest}
    (ho : Orderly D B k) (hactive : k.requestActive = true)
    (hfresh : ∀ er, .elfload er ∈ k.requests → er.stage = .open) :
    Tames D ∅ (finishSwapinFor c request) k := by
  unfold finishSwapinFor
  refine Tames.bind_still (keeps_lookupEntry still_paging _ _) fun entry k₁ h₁ => ?_
  refine Tames.bind_still (keeps_assert still_closed rfl) fun _ k₂ h₂ => ?_
  refine Tames.bind_still (keeps_leaveDisk still_paging _ _ _) fun _ k₃ h₃ => ?_
  have h := still_closed.trans h₁ (still_closed.trans h₂ h₃)
  rw [Tames, wp_bind, wp_get, wp_ite]
  refine ⟨fun _ => ?_, fun _ => ?_⟩
  · refine wp_bind.mpr ((pagerAction_tames (hc B) (ho.of_still h)).discard.imp fun _ k₄ h₄ => ?_)
    refine Tames.after h₄.1 ?_
    refine Tames.bind_still (keeps_lookupEntry still_paging _ _) fun entry k₅ h₅ => ?_
    refine Tames.bind_still (.modify fun _ => still_paging.plain rfl) fun _ k₆ h₆ => ?_
    refine Tames.bind_still (keeps_prepareData still_paging _ _) fun _ k₇ h₇ => ?_
    rw [Tames, wp_bind, wp_get]
    refine Tames.bind_still (keeps_frameFree still_paging _) fun _ k₈ h₈ => ?_
    refine Tames.bind_still (.modify fun _ => still_paging.plain rfl) fun _ k₉ h₉ => ?_
    have h' := still_closed.trans (still_closed.trans h₅ h₆)
      (still_closed.trans h₇ (still_closed.trans h₈ h₉))
    refine wp_bind.mpr ((runCallback_tames (hc B) (h₄.2.of_still h')).imp fun _ k₁₀ h₁₀ => ?_)
    exact (dequeueRequest_tames (hc ∅) h₁₀.2).after h₁₀.1
  · exact startSwapout_tames (h.requestActive.trans hactive) (by rw [h.requests]; exact hfresh)

/-- The head answers and leaves, although its process has died; what follows is a fault. -/
theorem leaveDead_tames {request : PagerRequest} {α : Type} (ho : Orderly D B k) :
    Tames D ∅ (do
      runCallback c request
      dequeueRequest c
      throw .nullProcess : PagerM α) k := by
  refine wp_bind.mpr ((runCallback_tames (hc B) ho).imp fun _ k₁ h₁ => ?_)
  refine Tames.after h₁.1 ?_
  refine wp_bind.mpr ((dequeueRequest_tames (hc ∅) h₁.2).imp fun _ k₂ h₂ => ?_)
  exact wp_throw.mpr ⟨h₂.1.calls, rfl⟩

theorem finishSwapin_tames (ho : Orderly D B k)
    (hactive : k.requestActive = true) : Tames D ∅ (finishSwapin c) k := by
  unfold finishSwapin
  rw [Tames, wp_bind, wp_peekSwapin]
  refine ⟨fun _ => ⟨.refl k, rfl⟩, fun _ _ _ _ => ⟨.refl k, rfl⟩, fun request rest hreq => ?_⟩
  rw [wp_bind, wp_get]
  split
  · rw [wp_bind, wp_get]
    refine Tames.bind_still (keeps_frameFree still_paging _) fun _ k₁ h₁ => ?_
    refine Tames.bind_still (.modify fun _ => still_paging.plain rfl) fun _ k₂ h₂ => ?_
    exact leaveDead_tames hc ((ho.of_still h₁).of_still h₂)
  · exact wp_throw.mpr ⟨.refl k, rfl⟩
  · exact finishSwapinFor_tames hc ho hactive (ho.fresh_of_swapin hreq)

theorem finishSwapelf_tames (ho : Orderly D B k)
    (hactive : k.requestActive = true) : Tames D ∅ (finishSwapelf c) k := by
  refine wp_finishSwapelf ⟨.refl k, rfl⟩ fun pr _ => ?_
  unfold finishSwapelfFor
  refine Tames.bind_still (keeps_derefProcess still_closed _) fun p k₁ h₁ => ?_
  refine Tames.bind_still (keeps_lookupEntry still_paging _ _) fun entry k₂ h₂ => ?_
  split
  · exact wp_throw.mpr ⟨.refl k₂, rfl⟩
  · refine Tames.bind_still (keeps_zeroTail still_messaging _ _) fun _ k₃ h₃ => ?_
    refine Tames.bind_still (keeps_setEntry still_paging _ _ _) fun _ k₄ h₄ => ?_
    have h := still_closed.trans (still_closed.trans h₁ h₂) (still_closed.trans h₃ h₄)
    exact finishSwapin_tames hc (ho.of_still h) (h.requestActive.trans hactive)

theorem finishSwapoutFor_tames {swapin : PagerRequest}
    (ho : Orderly D B k) : Tames D ∅ (finishSwapoutFor c swapin) k := by
  unfold finishSwapoutFor
  refine wp_bind.mpr ((pagerAction_tames (hc B) ho).discard.imp fun _ k₁ h₁ => ?_)
  refine Tames.after h₁.1 ?_
  refine Tames.bind_still (keeps_lookupEntry still_paging _ _) fun entry k₂ h₂ => ?_
  refine Tames.bind_still (keeps_fillFrame still_paging _) fun _ k₃ h₃ => ?_
  refine Tames.bind_still (keeps_prepareData still_paging _ _) fun _ k₄ h₄ => ?_
  have h := still_closed.trans h₂ (still_closed.trans h₃ h₄)
  refine wp_bind.mpr ((runCallback_tames (hc B) (h₁.2.of_still h)).imp fun _ k₅ h₅ => ?_)
  exact (dequeueRequest_tames (hc ∅) h₅.2).after h₅.1

/-- With the swap-out gone the swap-in is at the head; it is about to leave as well. -/
theorem finishSwapout_tames (ho : Orderly D B k) :
    Tames D ∅ (finishSwapout c) k := by
  unfold finishSwapout
  rw [Tames, wp_bind, wp_requestsPeek]
  refine ⟨fun _ => ⟨.refl k, rfl⟩, fun r rest hreq => ?_⟩
  cases r with
  | elfload er | swapin pr => exact wp_throw.mpr ⟨.refl k, rfl⟩
  | swapout swapout =>
    rw [wp_bind]
    refine wp_requestsUnshift (fun _ => ⟨.refl k, rfl⟩) fun r' rest' hreq' k₁ h₁ => ?_
    have hrest : rest' = rest := by
      rw [hreq] at hreq'
      exact (List.cons.inj hreq').2.symm
    have hreq₁ : k₁.requests = rest := by rw [h₁, hrest]
    have ht₁ : Tame k k₁ := by
      refine ⟨fun _ => .inl (by rw [h₁]), fun _ => .inl (by rw [h₁]; rfl), .of_eq (by rw [h₁]), ?_⟩
      unfold Kernel.loads
      rw [hreq₁, hreq]
      exact (List.sublist_cons_self _ rest).filterMap _
    refine Tames.after ht₁ (Tames.bind_still (keeps_pagerFrameFree still_paging _ _) ?_)
    intro _ k₂ h₂
    rw [Tames, wp_bind, wp_peekSwapin]
    refine ⟨fun _ => ⟨.refl k₂, rfl⟩, fun _ _ _ _ => ⟨.refl k₂, rfl⟩, fun swapin rest₂ hreq₂ => ?_⟩
    have hfresh : ∀ er, .elfload er ∈ k₂.requests → er.stage = .open := fun er her => by
      refine ho.tail er ?_
      rw [hreq, List.tail_cons, ← hreq₁, ← h₂.requests]
      exact her
    have ho₂ : Orderly D { .swapin swapin } k₂ := by
      refine ⟨fun _ => ⟨_, rest₂, hreq₂, .inr rfl⟩, fun er her => ?_, fun _ => hfresh⟩
      exact hfresh er (List.mem_of_mem_tail her)
    rw [wp_bind, wp_get]
    split
    · exact leaveDead_tames hc ho₂
    · exact wp_throw.mpr ⟨.refl k₂, rfl⟩
    · exact finishSwapoutFor_tames hc ho₂

end Finish

/-! ## Calls on open descriptors, and reserved pids -/

/-- The calls that have been made are on descriptors in `D`. -/
def CallsOn (D : Set Int) (k k' : Kernel) : Prop :=
  ∃ l, k'.calls = k.calls ++ l ∧ ∀ c ∈ l, ∀ fd, c.fd? = some fd → fd ∈ D

theorem CallsQuiet.on (h : CallsQuiet k k') : CallsOn D k k' := by
  obtain ⟨l, hl, hq⟩ := h
  exact ⟨l, hl, fun c hc fd hfd => by rw [hq c hc] at hfd; simp at hfd⟩

theorem CallsOn.of_eq (h : k'.calls = k.calls) : CallsOn D k k' := (CallsQuiet.of_eq h).on

theorem CallsOn.trans (h : CallsOn D k k') (h' : CallsOn D k' k'') : CallsOn D k k'' :=
  calls_trans h h'

/-- Until its process is made a load has its pid reserved, and no two loads have the same one. -/
structure Reserved (k : Kernel) : Prop where
  slot : ∀ er ∈ k.loads, er.stage ≠ .close → k.sosProcs er.child = .placeholder
  distinct : k.loads.Pairwise fun a b => a.stage ≠ .close → b.stage ≠ .close → a.child ≠ b.child

theorem Slot.tag_eq_reserved {s : Slot} : s.tag = .reserved ↔ s = .placeholder := by
  cases s <;> simp [Slot.tag]

/-- A reserved slot stays reserved. -/
theorem Tame.placeholder (h : Tame k k') {pid : Pid} (hp : k.sosProcs pid = .placeholder) :
    k'.sosProcs pid = .placeholder := by
  have htag : (k.sosProcs pid).tag = .reserved := Slot.tag_eq_reserved.mpr hp
  obtain he | ⟨⟨inc, hinc⟩, -⟩ := h.slots pid
  · exact Slot.tag_eq_reserved.mp (he.trans htag)
  · rw [htag] at hinc
    simp at hinc

theorem Reserved.of_tame (hr : Reserved k) (h : Tame k k') : Reserved k' where
  slot := fun er her hs => h.placeholder (hr.slot er (h.loads.subset her) hs)
  distinct := hr.distinct.sublist h.loads

/-- Programs that keep the queue orderly, call on open descriptors only and keep pids reserved. If
the reply is a good one (`G`), no assertion on it fails. -/
abbrev Answers (D : Set Int) (G : Prop) {α : Type} (m : PagerM α) (k : Kernel) : Prop :=
  Wp m k (fun _ k' => CallsOn D k k' ∧ (Reserved k → Reserved k') ∧ Orderly D ∅ k')
    (fun f k' => CallsOn D k k' ∧ (G → NotOnReply f))

/-- The same of the rest of a program that began in `k₀`. -/
abbrev AnswersFrom (D : Set Int) (G : Prop) (k₀ : Kernel) {α : Type} (m : PagerM α) (k : Kernel) :
    Prop :=
  Wp m k (fun _ k' => CallsOn D k₀ k' ∧ (Reserved k₀ → Reserved k') ∧ Orderly D ∅ k')
    (fun f k' => CallsOn D k₀ k' ∧ (G → NotOnReply f))

theorem Tames.answers {α : Type} {m : PagerM α} (h : Tames D ∅ m k) : Answers D G m k :=
  h.mono (fun _ _ h => ⟨h.1.calls.on, fun hr => hr.of_tame h.1, h.2⟩)
    fun _ _ h => ⟨h.1.on, fun _ => h.2⟩

namespace Answers

variable {α β : Type} {m : PagerM α} {f : α → PagerM β}

/-- What follows a change that makes good calls and keeps pids reserved. -/
theorem after (hcalls : CallsOn D k k') (hres : Reserved k → Reserved k')
    (hm : Answers D G m k') : AnswersFrom D G k m k' :=
  hm.mono (fun _ _ h => ⟨hcalls.trans h.1, h.2.1 ∘ hres, h.2.2⟩) fun _ _ h =>
    ⟨hcalls.trans h.1, h.2⟩

theorem bind_still (hm : Keeps Still NotOnReply m)
    (hf : ∀ a k', Still k k' → Answers D G (f a) k') : Answers D G (m >>= f) k :=
  wp_bind.mpr ((hm k).mono
    (fun a k' h => (hf a k' h).after h.calls.on fun hr => hr.of_tame h.tame)
    fun _ _ h => ⟨h.1.calls.on, fun _ => h.2⟩)

end Answers

/-! ## Using a swap file -/

theorem wp_swapfileSetFd (hshut : k.Shut ptr) (hE : E .danglingSwapfile k)
    (hnil : fd = vfsNilFile → E (.assertion .swapfileSetFdNil) k)
    (hQ : ∀ k', k' = k.setSwapfileFd ptr fd → k'.fd? ptr = some fd → Q () k') :
    Wp (swapfileSetFd ptr fd) k Q E := by
  unfold swapfileSetFd
  rw [wp_bind, wp_derefSwapfile]
  refine ⟨fun _ => hE, fun sf hsf => ?_⟩
  have hfd : sf.fd = vfsNilFile := hshut _ (by unfold Kernel.fd?; rw [hsf]; rfl)
  rw [wp_bind, wp_assert]
  refine ⟨fun _ => ?_, fun h => by simp [hfd] at h⟩
  rw [wp_bind, wp_assert]
  refine ⟨fun _ => wp_modify.mpr (hQ _ rfl ?_), fun h => hnil (by simpa using h)⟩
  cases ptr with
  | null => simp [Kernel.swapfile?] at hsf
  | default => rfl
  | elf f =>
    have hsf' : k.elffiles f = some sf := hsf
    show Option.map _ (Function.update k.elffiles f _ f) = _
    rw [Function.update_self, hsf']
    rfl

theorem wp_swapfileGetFd {Q : Int → Kernel → Prop}
    (hE : ∀ f, NotOnReply f → E f k)
    (hQ : ∀ d, k.fd? ptr = some d → Q d k) : Wp (swapfileGetFd ptr) k Q E := by
  unfold swapfileGetFd
  rw [wp_bind, wp_derefSwapfile]
  refine ⟨fun _ => hE _ rfl, fun sf hsf => ?_⟩
  rw [wp_bind, wp_assert]
  exact ⟨fun _ => wp_pure.mpr (hQ _ (by unfold Kernel.fd?; rw [hsf]; rfl)), fun _ => hE _ rfl⟩

/-- A call is made on a descriptor that is open. -/
theorem callsOn_call {v : VfsCall} (hv : ∀ fd, v.fd? = some fd → fd ∈ D)
    (h : k'.calls = k.calls ++ [v]) : CallsOn D k k' :=
  ⟨[v], h, fun c hc => by rw [List.mem_singleton.mp hc]; exact hv⟩

theorem setSwapfileFd_rest :
    k.setSwapfileFd ptr fd = { k with
      defaultSwapfile := (k.setSwapfileFd ptr fd).defaultSwapfile
      elffiles := (k.setSwapfileFd ptr fd).elffiles } := by
  cases ptr <;> rfl

/-- The request at the head of the queue has reached its next stage; `k` is the state when the reply
arrived. -/
theorem setHead_answers (hcalls : CallsOn D k k') (hreq : k'.requests = r :: rest)
    (hactive : k'.requestActive = true) (htail : ∀ er, .elfload er ∈ rest → er.stage = .open)
    (hres : Reserved k → Reserved { k' with requests := r' :: rest }) (hu : r'.Underway k' D) :
    AnswersFrom D G k (setHead r') k' := by
  unfold setHead
  refine modify_eq.imp fun _ k₁ h₁ => ?_
  rw [hreq, List.tail_cons] at h₁
  have hreq₁ : k₁.requests = r' :: rest := by rw [h₁]
  refine ⟨hcalls.trans (.of_eq (by rw [h₁])), by rw [h₁]; exact hres, fun _ => ?_, fun er her => ?_,
    fun hidle => ?_⟩
  · exact ⟨r', rest, hreq₁, .inl (hu.of_fds fun _ => .inl (by rw [h₁]; rfl))⟩
  · rw [hreq₁] at her
    exact htail er her
  · rw [h₁] at hidle
    rw [hactive] at hidle
    simp at hidle

/-- Requests that are not loads have nothing to do with reserved pids. -/
theorem Reserved.of_not_load (hreq : k.requests = r :: rest)
    (hr : r.load? = none) (hr' : r'.load? = none) (hres : Reserved k) :
    Reserved { k with requests := r' :: rest } := by
  have hloads : ({ k with requests := r' :: rest } : Kernel).loads = k.loads := by
    unfold Kernel.loads
    rw [hreq, List.filterMap_cons, List.filterMap_cons, hr, hr']
  exact ⟨fun er her hs => hres.slot er (hloads ▸ her) hs, by rw [hloads]; exact hres.distinct⟩

/-- What one stage leaves to the next: the queue as it was, good calls, the same processes. -/
structure Stage (D : Set Int) (k k' : Kernel) : Prop where
  requests : k'.requests = k.requests
  requestActive : k'.requestActive = k.requestActive
  calls : CallsOn D k k'
  reserved : Reserved k → Reserved k'

namespace Stage

theorem of_still (h : Still k k') : Stage D k k' :=
  ⟨h.requests, h.requestActive, h.calls.on, fun hr => hr.of_tame h.tame⟩

theorem trans (h : Stage D k k') (h' : Stage D k' k'') : Stage D k k'' :=
  ⟨h'.requests.trans h.requests, h'.requestActive.trans h.requestActive, h.calls.trans h'.calls,
    h'.reserved ∘ h.reserved⟩

theorem call {v : VfsCall} (hv : ∀ fd, v.fd? = some fd → fd ∈ D) :
    Stage D k { k with calls := k.calls ++ [v] } :=
  ⟨rfl, rfl, callsOn_call hv rfl, fun hr => ⟨hr.slot, hr.distinct⟩⟩

theorem setSwapfileFd : Stage D k (k.setSwapfileFd ptr fd) := by
  rw [setSwapfileFd_rest]
  exact ⟨rfl, rfl, .of_eq rfl, fun hr => ⟨hr.slot, hr.distinct⟩⟩

end Stage

/-- `readNonblocking` on an open file. -/
theorem wp_readRest (hopen : k.Opened D pr.sf) (hE : ∀ f, NotOnReply f → E f k)
    (hQ : ∀ k', Stage D k k' → (∀ ptr, k'.fd? ptr = k.fd? ptr) → Q () k') :
    Wp (readRest pr) k Q E := by
  unfold readRest
  rw [wp_bind]
  refine wp_swapfileGetFd hE fun d hd => wp_modify.mpr ?_
  refine hQ _ (.call fun fd hfd => ?_) fun _ => rfl
  injection hfd with hfd
  exact hfd ▸ hopen d hd

/-- `swapfile_close` on an open file. -/
theorem wp_swapfileClose (hopen : k.Opened D ptr) (hE : ∀ f, NotOnReply f → E f k)
    (hQ : ∀ k', Stage D k k' → Q () k') : Wp (swapfileClose ptr) k Q E := by
  unfold swapfileClose
  rw [wp_bind, wp_derefSwapfile]
  refine ⟨fun _ => hE _ rfl, fun sf hsf => ?_⟩
  rw [wp_bind, wp_assert]
  refine ⟨fun _ => ?_, fun _ => hE _ rfl⟩
  unfold vfsCall
  rw [wp_bind, wp_modify, wp_modify]
  refine hQ _ (Stage.trans (.call fun fd hfd => ?_) .setSwapfileFd)
  injection hfd with hfd
  exact hopen fd (by unfold Kernel.fd?; rw [hsf, ← hfd]; rfl)

/-! ## The stages of a swap -/

/-- The last part of a stage: the request goes to its next stage. -/
theorem Stage.setHead_answers (h : Stage D k k') (hreq : k.requests = r :: rest)
    (hactive : k.requestActive = true) (htail : ∀ er, .elfload er ∈ rest → er.stage = .open)
    (hr : r.load? = none) (hr' : r'.load? = none) (hu : r'.Underway k' D) :
    AnswersFrom D G k (setHead r') k' := by
  have hreq' : k'.requests = r :: rest := h.requests.trans hreq
  exact Sos.setHead_answers h.calls hreq' (h.requestActive.trans hactive) htail
    (fun hres => Reserved.of_not_load hreq' hr hr' (h.reserved hres)) hu

/-- The answer to an `open` is entered in the swap file. -/
theorem wp_swapfileSetFd_stage (hshut : k.Shut ptr) (hmem : vfsRval ∈ D)
    (hE : E .danglingSwapfile k) (hnil : vfsRval = vfsNilFile → E (.assertion .swapfileSetFdNil) k)
    (hQ : ∀ k', Stage D k k' → k'.Opened D ptr → Q () k') :
    Wp (swapfileSetFd ptr vfsRval) k Q E := by
  refine wp_swapfileSetFd hshut hE hnil fun k₁ h₁ hfd₁ => hQ k₁ ?_ fun d hd => ?_
  · rw [h₁]
    exact .setSwapfileFd
  · rw [hfd₁] at hd
    injection hd with hd
    exact hd ▸ hmem

/-- The file has been opened and is now positioned. -/
theorem Stage.lseek_answers {pos : Nat} (h : Stage D k k')
    (hopened : k'.Opened D ptr) (hreq : k.requests = r :: rest) (hactive : k.requestActive = true)
    (htail : ∀ er, .elfload er ∈ rest → er.stage = .open) (hr : r.load? = none)
    (hr' : r'.load? = none) (hu : ∀ k'', k''.Opened D ptr → r'.Underway k'' D) :
    AnswersFrom D G k (do let fd ← swapfileGetFd ptr; vfsCall (.lseek fd pos); setHead r') k' := by
  rw [AnswersFrom, wp_bind]
  refine wp_swapfileGetFd (fun _ hf => ⟨h.calls, fun _ => hf⟩) fun d hd => ?_
  unfold vfsCall
  rw [wp_bind]
  refine modify_eq.imp fun _ k₁ h₁ => ?_
  have s₁ : Stage D k k₁ := by
    rw [h₁]
    refine h.trans (.call fun fd hfd => ?_)
    injection hfd with hfd
    exact hfd ▸ hopened d hd
  refine s₁.setHead_answers hreq hactive htail hr hr' (hu k₁ ?_)
  rw [h₁]
  exact hopened

/-- The stages of a request at the head of an orderly queue. -/
theorem Orderly.underway {r : Request} (ho : Orderly D ∅ k) (hactive : k.requestActive = true)
    (hreq : k.requests = r :: rest) :
    r.Underway k D ∧ ∀ er, .elfload er ∈ rest → er.stage = .open := by
  obtain ⟨r', rest', hreq', hu⟩ := ho.head hactive
  obtain ⟨rfl, rfl⟩ : r = r' ∧ rest = rest' := List.cons.inj (hreq.symm.trans hreq')
  exact ⟨hu.resolve_right (by simp), fun er her => ho.tail er (by rw [hreq]; exact her)⟩

/-- `SWAPIN_READ`: a part of the page has arrived. -/
theorem readStage_answers (hactive : k.requestActive = true)
    (hreq : k.requests = .swapin pr :: rest)
    (htail : ∀ er, .elfload er ∈ rest → er.stage = .open) (hst : pr.stage = some .swapinRead)
    (hsize : pr.size = pageSize) (hopened : k.Opened D pr.sf)
    (hfit : G → pr.offset + vfsRval ≤ pr.size) :
    Answers D G (do
      let pr := { pr with offset := pr.offset + vfsRval }
      setHead (.swapin pr)
      assert (pr.offset ≤ pr.size) .continueSwapinSize
      if pr.offset = pr.size then
        swapfileClose pr.sf
        setHead (.swapin { pr with stage := some .swapinClose })
      else
        readRest pr) k := by
  unfold setHead
  rw [Answers, wp_bind]
  refine modify_eq.imp fun _ k₁ h₁ => ?_
  rw [hreq, List.tail_cons] at h₁
  have hreq₁ : k₁.requests = .swapin { pr with offset := pr.offset + vfsRval } :: rest := by rw [h₁]
  have hactive₁ : k₁.requestActive = true := by rw [h₁]; exact hactive
  have hopened₁ : k₁.Opened D pr.sf := hopened.of_fds (.inl (by rw [h₁]; rfl))
  have hres₁ : Reserved k → Reserved k₁ := by
    rw [h₁]
    exact Reserved.of_not_load hreq rfl rfl
  refine Answers.after (.of_eq (by rw [h₁])) hres₁ ?_
  rw [Answers, wp_bind, wp_assert]
  refine ⟨fun hle => ?_, fun h => ⟨.of_eq rfl, fun hg => by simp [hfit hg] at h⟩⟩
  have hle : pr.offset + vfsRval ≤ pr.size := by simpa using hle
  rw [wp_ite]
  refine ⟨fun _ => ?_, fun _ => ?_⟩
  · rw [wp_bind]
    refine wp_swapfileClose hopened₁ (fun _ hf => ⟨.of_eq rfl, fun _ => hf⟩) fun k₂ s₂ => ?_
    exact s₂.setHead_answers hreq₁ hactive₁ htail rfl rfl trivial
  · refine wp_readRest hopened₁ (fun _ hf => ⟨.of_eq rfl, fun _ => hf⟩) fun k₂ s₂ hfds => ?_
    refine ⟨s₂.calls, s₂.reserved, fun _ => ?_, fun er her => ?_, fun hidle => ?_⟩
    · refine ⟨_, rest, s₂.requests.trans hreq₁, .inl ?_⟩
      unfold Request.Underway
      simp only [hst]
      exact ⟨hsize, hsize ▸ hle, hopened₁.of_fds (.inl (hfds _))⟩
    · rw [s₂.requests, hreq₁] at her
      exact htail er her
    · rw [s₂.requestActive, hactive₁] at hidle
      simp at hidle

theorem continueSwapin_answers (hc : ∀ B, CallsTame D B c) (ho : Orderly D ∅ k)
    (hactive : k.requestActive = true) (hreq : k.requests = .swapin pr :: rest)
    (hopen : pr.stage = some .swapinOpen → vfsRval ∈ D ∧ (G → 0 ≤ vfsRval))
    (hread : G → pr.stage = some .swapinRead → 0 < vfsRval ∧ pr.offset + vfsRval ≤ pr.size) :
    Answers D G (continueSwapin c pr vfsRval) k := by
  obtain ⟨hu, htail⟩ := ho.underway hactive hreq
  unfold Request.Underway at hu
  dsimp only at hu
  unfold continueSwapin
  split
  · next hst =>
    simp only [hst] at hu
    obtain ⟨hsize, hshut⟩ := hu
    obtain ⟨hmem, hpos⟩ := hopen hst
    rw [Answers, wp_bind]
    refine wp_swapfileSetFd_stage hshut hmem ⟨.of_eq rfl, fun _ => rfl⟩
      (fun hnil => ⟨.of_eq rfl, fun hg => absurd (hnil ▸ hpos hg) (by decide)⟩)
      fun k₁ s₁ hopened₁ => ?_
    rw [wp_bind]
    refine (keeps_lookupEntry still_paging _ _ k₁).mono (fun entry k₂ h₂ => ?_)
      fun _ _ h => ⟨s₁.calls.trans h.1.calls.on, fun _ => h.2⟩
    exact (s₁.trans (.of_still h₂)).lseek_answers (hopened₁.of_fds (h₂.fds _)) hreq hactive htail
      rfl rfl fun _ hopened => ⟨hsize, Int.natCast_nonneg _, hopened⟩
  · next hst =>
    simp only [hst] at hu
    obtain ⟨hsize, hoff, hopened⟩ := hu
    rw [Answers, wp_bind]
    refine wp_readRest hopened (fun _ hf => ⟨.of_eq rfl, fun _ => hf⟩) fun k₁ s₁ hfds => ?_
    exact s₁.setHead_answers hreq hactive htail rfl rfl
      ⟨hsize, hoff, hopened.of_fds (.inl (hfds _))⟩
  · next hst =>
    simp only [hst] at hu
    obtain ⟨hsize, hoff, hopened⟩ := hu
    rw [Answers, wp_bind, wp_assert]
    refine ⟨fun _ => ?_, fun h => ⟨.of_eq rfl, fun hg => by simp [(hread hg hst).1] at h⟩⟩
    rw [wp_bind, wp_assert]
    refine ⟨fun _ => ?_, fun h => by simp [hoff] at h⟩
    refine Answers.bind_still (.modify fun _ => still_paging.plain rfl) fun _ k₁ h₁ => ?_
    exact readStage_answers (h₁.requestActive.trans hactive) (h₁.requests.trans hreq) htail hst
      hsize (hopened.of_fds (h₁.fds _)) fun hg => (hread hg hst).2
  · split
    · exact wp_throw.mpr ⟨.of_eq rfl, fun _ => rfl⟩
    · exact (finishSwapin_tames hc ho hactive).answers
    · exact (finishSwapelf_tames hc ho hactive).answers
  · next h1 h2 h3 h4 =>
    split at hu
    · next h => exact absurd h h1
    · next h => exact absurd h h2
    · next h => exact absurd h h3
    · next h => exact absurd h h4
    · exact hu.elim

/-- `SWAPOUT_WRITE`: the next part of the page is written, or the file closed. -/
theorem continueSwapout_writes (ho : Orderly D ∅ k) (hactive : k.requestActive = true)
    (hreq : k.requests = .swapout pr :: rest) (hst : pr.stage = some .swapoutWrite) :
    Answers D G (continueSwapout c pr vfsRval) k := by
  obtain ⟨hu, htail⟩ := ho.underway hactive hreq
  simp only [Request.Underway, hst] at hu
  obtain ⟨hsize, hoff, hopened⟩ := hu
  unfold continueSwapout
  rw [hst, Answers, wp_bind, wp_assert]
  refine ⟨fun _ => ?_, fun h => by simp [hoff] at h⟩
  rw [wp_bind, wp_assert]
  refine ⟨fun _ => ?_, fun h => by simp [hsize, hoff] at h⟩
  rw [wp_ite]
  refine ⟨fun _ => ?_, fun _ => ?_⟩
  · rw [wp_bind]
    refine wp_swapfileClose hopened (fun _ hf => ⟨.of_eq rfl, fun _ => hf⟩) fun k₁ s₁ => ?_
    exact s₁.setHead_answers hreq hactive htail rfl rfl hoff
  · refine Answers.bind_still (keeps_buffers still_messaging) fun _ k₁ h₁ => ?_
    have hopened₁ : k₁.Opened D pr.sf := hopened.of_fds (h₁.fds _)
    rw [Answers, wp_bind]
    refine wp_swapfileGetFd (fun _ hf => ⟨.of_eq rfl, fun _ => hf⟩) fun d hd => ?_
    unfold vfsCall
    rw [wp_bind]
    refine modify_eq.imp fun _ k₂ h₂ => ?_
    have s₂ : Stage D k₁ k₂ := by
      rw [h₂]
      refine .call fun fd hfd => ?_
      injection hfd with hfd
      exact hfd ▸ hopened₁ d hd
    refine s₂.setHead_answers (h₁.requests.trans hreq) (h₁.requestActive.trans hactive) htail
      rfl rfl ?_
    unfold Request.Underway
    dsimp only
    refine ⟨hsize, ?_, ?_⟩
    · rw [hsize]
      omega
    · rw [h₂]
      exact hopened₁

theorem continueSwapout_answers (hc : ∀ B, CallsTame D B c) (ho : Orderly D ∅ k)
    (hactive : k.requestActive = true) (hreq : k.requests = .swapout pr :: rest)
    (hopen : pr.stage = some .swapoutOpen → vfsRval ∈ D ∧ (G → 0 ≤ vfsRval)) :
    Answers D G (continueSwapout c pr vfsRval) k := by
  by_cases hst : pr.stage = some .swapoutWrite
  · exact continueSwapout_writes ho hactive hreq hst
  obtain ⟨hu, htail⟩ := ho.underway hactive hreq
  unfold Request.Underway at hu
  dsimp only at hu
  have hoff : pr.offset ≤ pageSize := by
    split at hu
    · exact hu.2.1
    · exact hu.2.1
    · exact hu
    · exact hu.elim
  unfold continueSwapout
  rw [Answers, wp_bind, wp_assert]
  refine ⟨fun _ => ?_, fun h => by simp [hoff] at h⟩
  split
  · next hst =>
    simp only [hst] at hu
    obtain ⟨hsize, -, hshut⟩ := hu
    obtain ⟨hmem, hpos⟩ := hopen hst
    rw [wp_bind]
    refine wp_swapfileSetFd_stage hshut hmem ⟨.of_eq rfl, fun _ => rfl⟩
      (fun hnil => ⟨.of_eq rfl, fun hg => absurd (hnil ▸ hpos hg) (by decide)⟩)
      fun k₁ s₁ hopened₁ => ?_
    exact s₁.lseek_answers hopened₁ hreq hactive htail rfl rfl fun _ hopened =>
      ⟨hsize, Int.natCast_nonneg _, hopened⟩
  · next h => exact absurd h hst
  · exact (finishSwapout_tames hc ho).answers
  · next h1 h2 h3 =>
    split at hu
    · next h => exact absurd h h1
    · next h => exact absurd h h2
    · next h => exact absurd h h3
    · exact hu.elim

end Sos
