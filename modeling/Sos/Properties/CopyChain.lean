import Sos.Queue.Restart
import Sos.Crowd

/-!
# The pages of a copy

`copyIn` and `copyOut` fault on the first page; each continuation copies the bytes of one page and,
unless the offset has come to be the size, faults on the next one. Between two continuations the
request may wait in the queue while other processes are served, so a copy is followed here as the
chain of its continuations (`CopyChain`): what happens in between is anything that leaves the word
with the size and the offset of the process alone and ends with the page in place.

Size and offset are the two halves of that word. The sizes of appended calls are added up in 16 bits
while the offset is kept, and the test for the end is for equality.

* `runCallback_copies` : one continuation
* `CopyChain.copyAt` : where a chain is
* `copyStops_iff` : when a copy ends with the pages of its range
-/

namespace Sos

open Hoare

variable {k k' k₁ k₂ : Kernel} {pr : PagerRequest} {l : List PagerRequest} {e : Event}

/-! ## Calls -/

/-- A copy: the arguments, and the rights and the callback of the request made for it. -/
structure CopyCall where
  pid : Pid
  addr : UInt32
  size : UInt32
  append : Bool
  rights : Nat
  callback : Callback

/-- The copy a message asks for. -/
def Event.copyCall : Event → Option CopyCall
  | .copyin pid src size append => some ⟨pid, src, size, append, fmRead, .copyInContinue⟩
  | .copyout pid dst size append => some ⟨pid, dst, size, append, fmWrite, .copyOutContinue⟩
  | _ => none

variable {x : CopyCall}

/-- The size that is left from the calls before. -/
def CopyCall.kept (x : CopyCall) (k : Kernel) : Nat :=
  if x.append then loHalf (k.copyInOutData x.pid) else 0

/-- The offset from which bytes are copied. -/
def CopyCall.offset (x : CopyCall) (k : Kernel) : Nat :=
  if x.append then hiHalf (k.copyInOutData x.pid) else 0

/-- How many bytes there are to copy: those asked for that still fit into the buffer. -/
def CopyCall.count (x : CopyCall) (k : Kernel) : Nat :=
  min x.size.toNat (copyBufsiz - x.offset k)

/-- How many pages they are on. The first one is faulted on in any case. -/
def CopyCall.pages (x : CopyCall) (k : Kernel) : Nat :=
  max 1 ((pageOffset x.addr.toNat + x.count k + (pageSize - 1)) / pageSize)

/-- The offset is inside the buffer, and the sum of the sizes, of which 16 bits are kept, is where
the copy is to end: both are the end of the bytes asked for, or neither is inside the buffer. -/
def CopyCall.Fits (x : CopyCall) (k : Kernel) : Prop :=
  x.offset k ≤ copyBufsiz ∧
    ((x.kept k + x.size.toNat) % 65536 = x.offset k + x.size.toNat ∧
        x.offset k + x.size.toNat ≤ copyBufsiz ∨
      copyBufsiz ≤ (x.kept k + x.size.toNat) % 65536 ∧ copyBufsiz ≤ x.offset k + x.size.toNat)

instance (x : CopyCall) (k : Kernel) : Decidable (x.Fits k) := inferInstanceAs (Decidable (_ ∧ _))

/-- The size the continuations will find. -/
def CopyCall.total (x : CopyCall) (k : Kernel) : Nat :=
  min copyBufsiz ((x.kept k + x.size.toNat) % 65536)

theorem CopyCall.fits_iff :
    x.Fits k ↔ x.offset k ≤ x.total k ∧ x.total k - x.offset k = x.count k := by
  unfold CopyCall.Fits CopyCall.total CopyCall.count copyBufsiz
  omega

/-- Size and offset have been set. -/
def CopyCall.begun (x : CopyCall) (k : Kernel) : Kernel :=
  { k with
    copyInOutData := Function.update k.copyInOutData x.pid
      (loHalf (x.kept k + x.size.toNat) + x.offset k * 65536) }

theorem CopyCall.begun_eq (x : CopyCall) (k : Kernel) :
    x.begun k = { k with
      copyInOutData := Function.update k.copyInOutData x.pid
        (if x.append then loHalf (loHalf (k.copyInOutData x.pid) + x.size.toNat) +
            hiHalf (k.copyInOutData x.pid) * 65536
         else loHalf x.size.toNat) } := by
  unfold CopyCall.begun CopyCall.kept CopyCall.offset
  cases x.append <;> simp

theorem CopyCall.copySize_begun : (x.begun k).copySize x.pid = x.total k := by
  unfold Kernel.copySize CopyCall.begun CopyCall.total loHalf
  dsimp only
  rw [Function.update_self]
  omega

theorem CopyCall.copyOffset_begun : (x.begun k).copyOffset x.pid = x.offset k := by
  have hlt : x.offset k < 65536 := by
    unfold CopyCall.offset hiHalf
    split <;> omega
  unfold Kernel.copyOffset CopyCall.begun hiHalf loHalf
  dsimp only
  rw [Function.update_self]
  omega

/-- The request for the first page. -/
def CopyCall.request (x : CopyCall) (p : Process) : PagerRequest :=
  { pid := x.pid, addr := x.addr.toNat, rights := x.rights, sf := .default, callback := x.callback,
    inc := p.inc }

theorem copies_of_copyCall (he : e.copyCall = some x) : x.callback.copies = true := by
  cases e with
  | copyin | copyout => cases he; rfl
  | _ => simp [Event.copyCall] at he

theorem pcb_of_copyCall (he : e.copyCall = some x) (hen : Enabled k e) :
    ∃ p, k.sosProcs x.pid = .pcb p := by
  have hsender : e.sender = some x.pid := by
    cases e with
    | copyin | copyout => cases he; rfl
    | _ => simp [Event.copyCall] at he
  unfold Enabled at hen
  rw [hsender] at hen
  obtain ⟨p, hp, -⟩ := Slot.exists_pcb_of_isUser hen.2
  exact ⟨p, hp⟩

/-- A copy begins with a call of `pager` for the first page. -/
theorem handleWith_copy {p : Process} (he : e.copyCall = some x) (hp : k.sosProcs x.pid = .pcb p)
    (c : Calls) : handleWith c e k = pager c (x.request p) (x.begun k) := by
  have hstart : handleWith c e =
      copyStart c x.pid x.addr.toNat x.size.toNat x.append x.rights x.callback := by
    cases e with
    | copyin | copyout => cases he; rfl
    | _ => simp [Event.copyCall] at he
  have halloc : Returns (allocPagerRequest x.pid x.addr.toNat x.rights .default x.callback)
      (x.begun k) (x.request p) (x.begun k) := by
    unfold allocPagerRequest
    rw [Returns, (derefProcess_returns (k := x.begun k) hp).bind_iff, wp_pure]
    exact ⟨rfl, rfl⟩
  rw [hstart]
  unfold copyStart
  refine Eq.trans ?_ halloc.bind_eq
  rw [CopyCall.begun_eq]
  rfl

/-! ## Continuations -/

/-- The page of a request is in place. -/
structure Kernel.Present (k : Kernel) (pr : PagerRequest) : Prop where
  table : k.HasTable pr.pid (pageNo pr.addr)
  aligned : pageOffset (k.entryOf pr).addr = 0

/-- The continuation of a request asks for another page. -/
def GoesOn (pr : PagerRequest) (k : Kernel) (pr' : PagerRequest) (k' : Kernel) : Prop :=
  ∀ c, runCallback c pr k = c.pager pr' k'

/-- The continuation of a request is the last one: its process is answered. -/
def CopyEnds (pr : PagerRequest) (k k' : Kernel) : Prop :=
  (∀ c, runCallback c pr k = .ok () k') ∧
    ∃ p, k.sosProcs pr.pid = .pcb p ∧ k'.replies = (k.reply pr.pid p []).replies

theorem GoesOn.unique {pr' pr₁ : PagerRequest} (h : GoesOn pr k pr' k') (h₁ : GoesOn pr k pr₁ k₁) :
    pr₁ = pr' ∧ k₁ = k' := by
  -- Functions called back that tell requests apart.
  let c : Calls := ⟨pure (), fun r k => if r = pr' then .ok () k else .error .nullPointer k⟩
  have heq : c.pager pr' k' = c.pager pr₁ k₁ := (h c).symm.trans (h₁ c)
  by_cases hpr : pr₁ = pr'
  · subst hpr
    simp only [c, if_true] at heq
    injection heq with _ hk
    exact ⟨rfl, hk.symm⟩
  · simp [c, hpr] at heq

theorem GoesOn.not_copyEnds {pr' : PagerRequest} (h : GoesOn pr k pr' k') : ¬ CopyEnds pr k k₁ := by
  intro ha
  have hc := (h ⟨pure (), fun _ k => .error .nullPointer k⟩).symm.trans (ha.1 _)
  simp at hc

/-- The offset after the bytes of the page. -/
def Kernel.offsetAfter (k : Kernel) (pr : PagerRequest) : Nat :=
  k.copyOffset pr.pid +
    min (k.copySize pr.pid - k.copyOffset pr.pid) (pageSize - pageOffset pr.addr)

/-- The request for the page after. -/
def PagerRequest.next (pr : PagerRequest) : PagerRequest :=
  { pr with addr := pageAlign ((pr.addr + pageSize) % wordLimit) }

theorem copyFinish_eq (c : Calls) (pr : PagerRequest) (size offset : Nat) (k : Kernel) :
    copyFinish c pr size offset k =
      (if offset = size then syscallReplyV pr.pid [] else c.pager pr.next) { k with
        copyInOutData := Function.update k.copyInOutData pr.pid (size + offset * 65536) } := by
  unfold copyFinish
  split <;> rfl

/-- **One continuation.** The bytes up to the end of the page or of the copy are copied and the
offset is remembered; then the process is answered, or the next page is asked for. -/
theorem runCallback_copies (hcopies : pr.callback.copies = true) (h : k.Present pr) :
    ∃ k₁, k₁.copyInOutData pr.pid = k.copySize pr.pid + k.offsetAfter pr * 65536 ∧
      (k.offsetAfter pr = k.copySize pr.pid → CopyEnds pr k k₁) ∧
      (k.offsetAfter pr ≠ k.copySize pr.pid → GoesOn pr k pr.next k₁) := by
  have htable : k.HasTable pr.pid (pageNo (pageAlign pr.addr)) := by
    rw [pageNo_pageAlign]
    exact h.table
  have hlookup : Returns (lookupEntry pr.pid (pageAlign pr.addr)) k (k.entryOf pr) k := by
    rw [Returns, wp_lookupEntry_of_hasTable htable, pageNo_pageAlign]
    exact ⟨rfl, rfl⟩
  have hspan : copySpan ((k.entryOf pr).addr + pageOffset pr.addr)
      (k.copySize pr.pid - k.copyOffset pr.pid) =
        min (k.copySize pr.pid - k.copyOffset pr.pid) (pageSize - pageOffset pr.addr) := by
    rw [copySpan_eq]
    have hal := h.aligned
    unfold pageOffset pageSize at *
    congr 1
    omega
  have hprepare : ∀ k₂ : Kernel, k₂.HasTable pr.pid (pageNo (pageAlign pr.addr)) →
      Returns (prepareData pr.pid (pageAlign pr.addr)) k₂ () k₂ := fun k₂ ht =>
    (wp_prepareData_of_hasTable ht).mpr
      ⟨fun _ => ⟨rfl, rfl⟩, fun hne => hne (pageOffset_pageAlign _)⟩
  have hbytes : ∃ buf mem, ∀ c, runCallback c pr k =
      copyFinish c pr (k.copySize pr.pid) (k.offsetAfter pr)
        { k with copyInOutBuffer := buf, memory := mem } := by
    unfold runCallback Kernel.offsetAfter
    rw [← hspan]
    cases hcb : pr.callback with
    | null | pagerContinue => simp [hcb, Callback.copies] at hcopies
    | copyInContinue =>
      exact ⟨_, k.memory, fun c => (hprepare k htable).bind_eq.trans hlookup.bind_eq⟩
    | copyOutContinue =>
      let dst := (k.entryOf pr).addr + pageOffset pr.addr
      let mem := blit k.memory dst (copySpan dst (k.copySize pr.pid - k.copyOffset pr.pid))
        fun i => k.copyInOutBuffer (pagerBuffer pr.pid + k.copyOffset pr.pid + i)
      exact ⟨k.copyInOutBuffer, mem, fun c =>
        hlookup.bind_eq.trans (hprepare { k with memory := mem } htable).bind_eq⟩
  obtain ⟨buf, mem, hrun⟩ := hbytes
  obtain ⟨p, -, hp, -⟩ := h.table
  -- The state in which the offset has been remembered.
  let k₂ : Kernel := { k with
    copyInOutBuffer := buf
    memory := mem
    copyInOutData := Function.update k.copyInOutData pr.pid
      (k.copySize pr.pid + k.offsetAfter pr * 65536) }
  by_cases hend : k.offsetAfter pr = k.copySize pr.pid
  · refine ⟨k₂.reply pr.pid p [], ?_, fun _ => ⟨fun c => ?_, p, hp, ?_⟩, fun hne => absurd hend hne⟩
    · unfold Kernel.reply
      split <;> exact Function.update_self ..
    · rw [hrun, copyFinish_eq, if_pos hend]
      exact syscallReplyV_run (k := k₂) hp
    · unfold Kernel.reply
      split <;> rfl
  · refine ⟨k₂, Function.update_self .., fun h => absurd h hend, fun _ c => ?_⟩
    rw [hrun, copyFinish_eq, if_neg hend]

/-! ## Chains -/

/-- The request is served again: its page is in place, and the copy is where it was. -/
structure Resumed (pr : PagerRequest) (k k' : Kernel) : Prop where
  data : k'.copyInOutData pr.pid = k.copyInOutData pr.pid
  present : k'.Present pr

/-- The continuations of a copy that have been run, the one that is next, and the state in which it
is. -/
inductive CopyChain (k₀ : Kernel) (x : CopyCall) : List PagerRequest → PagerRequest → Kernel → Prop
  | first {p : Process} {k : Kernel} : k₀.sosProcs x.pid = .pcb p →
      Resumed (x.request p) (x.begun k₀) k → CopyChain k₀ x [] (x.request p) k
  | next {l : List PagerRequest} {pr pr' : PagerRequest} {k k₁ k' : Kernel} :
      CopyChain k₀ x l pr k → GoesOn pr k pr' k₁ → Resumed pr' k₁ k' →
      CopyChain k₀ x (l ++ [pr]) pr' k'

/-- How many bytes of the range are on the pages before the one with number `i`. -/
def CopyCall.before (x : CopyCall) (i : Nat) : Nat := i * pageSize - pageOffset x.addr.toNat

/-- Where the range goes on on the page with number `i`. -/
def CopyCall.page (x : CopyCall) (i : Nat) : Nat := (x.addr.toNat + x.before i) % wordLimit

/-- **The copy ends with the pages of its range.** The offset is not beyond the size when the
copying begins; each continuation is for the next page of the range, goes on if that is not the last
one, and else answers the process, when all that was to be copied has been. -/
structure CopyStops (k : Kernel) (x : CopyCall) : Prop where
  bounded : (x.begun k).copyOffset x.pid ≤ (x.begun k).copySize x.pid
  inRange : ∀ l pr k', CopyChain k x l pr k' → l.length < x.pages k ∧ pr.addr = x.page l.length
  goesOn : ∀ l pr k', CopyChain k x l pr k' → l.length + 1 < x.pages k →
    ∃ pr' k₁, GoesOn pr k' pr' k₁
  ends : ∀ l pr k', CopyChain k x l pr k' → l.length + 1 = x.pages k →
    ∃ k₁, CopyEnds pr k' k₁ ∧ k₁.copyOffset x.pid = x.offset k + x.count k

/-- Where the chain is: at the page with the number of continuations that have been run, and not at
the end unless there was nothing to copy. -/
structure CopyAt (k : Kernel) (x : CopyCall) (i : Nat) (pr : PagerRequest) (k' : Kernel) :
    Prop where
  pid : pr.pid = x.pid
  copies : pr.callback.copies = true
  addr : pr.addr = x.page i
  present : k'.Present pr
  size : k'.copySize x.pid = x.total k
  offset : k'.copyOffset x.pid = x.offset k + x.before i
  before : i = 0 ∨ x.offset k + x.before i < x.total k

theorem CopyCall.before_succ (x : CopyCall) (i : Nat) :
    x.before (i + 1) = x.before i + (pageSize - pageOffset (x.page i)) := by
  unfold CopyCall.page CopyCall.before pageOffset pageSize wordLimit
  omega

theorem CopyCall.total_le : x.total k ≤ copyBufsiz := Nat.min_le_left ..

/-- A continuation gets to the end of its page, or to the end. -/
theorem CopyAt.offsetAfter {i : Nat} (h : CopyAt k x i pr k') (hle : x.offset k ≤ x.total k) :
    k'.offsetAfter pr = min (x.total k) (x.offset k + x.before (i + 1)) := by
  have hbefore : x.offset k + x.before i ≤ x.total k := by
    rcases h.before with rfl | hlt
    · simpa [CopyCall.before] using hle
    · exact hlt.le
  unfold Kernel.offsetAfter
  rw [h.pid, h.size, h.offset, h.addr, x.before_succ]
  omega

/-- One continuation from where the chain is. -/
theorem CopyAt.continues {i : Nat} (h : CopyAt k x i pr k') (hle : x.offset k ≤ x.total k) :
    ∃ k₁, k₁.copySize x.pid = x.total k ∧
      k₁.copyOffset x.pid = min (x.total k) (x.offset k + x.before (i + 1)) ∧
      (x.total k ≤ x.offset k + x.before (i + 1) → CopyEnds pr k' k₁) ∧
      (x.offset k + x.before (i + 1) < x.total k → GoesOn pr k' pr.next k₁) := by
  obtain ⟨k₁, hdata, hanswers, hgoes⟩ := runCallback_copies h.copies h.present
  rw [h.pid, h.size, h.offsetAfter hle] at hdata
  rw [h.pid, h.size, h.offsetAfter hle] at hanswers hgoes
  have hbuf := x.total_le (k := k)
  have hmin : min (x.total k) (x.offset k + x.before (i + 1)) ≤ x.total k := Nat.min_le_left ..
  refine ⟨k₁, ?_, ?_, fun hend => hanswers (by omega), fun hmore => hgoes (by omega)⟩
  all_goals generalize min (x.total k) (x.offset k + x.before (i + 1)) = offset at *
  · unfold Kernel.copySize loHalf copyBufsiz at *
    omega
  · unfold Kernel.copyOffset hiHalf copyBufsiz at *
    omega

/-- The step of the chain. -/
theorem CopyAt.step {i : Nat} {pr' : PagerRequest} (h : CopyAt k x i pr k')
    (hle : x.offset k ≤ x.total k) (hgoes : GoesOn pr k' pr' k₁) (hres : Resumed pr' k₁ k₂) :
    CopyAt k x (i + 1) pr' k₂ := by
  obtain ⟨k₃, hsize, hoffset, hanswers, hnext⟩ := h.continues hle
  have hmore : x.offset k + x.before (i + 1) < x.total k := by
    by_contra hend
    exact hgoes.not_copyEnds (hanswers (by omega))
  obtain ⟨rfl, rfl⟩ := hgoes.unique (hnext hmore)
  have hdata : k₂.copyInOutData x.pid = k₃.copyInOutData x.pid := h.pid ▸ hres.data
  refine ⟨h.pid, h.copies, ?_, hres.present, ?_, ?_, .inr hmore⟩
  · show pageAlign ((pr.addr + pageSize) % wordLimit) = _
    rw [h.addr]
    unfold CopyCall.page CopyCall.before pageAlign pageOffset pageSize wordLimit
    omega
  · rw [← hsize]
    unfold Kernel.copySize
    rw [hdata]
  · rw [← min_eq_right hmore.le, ← hoffset]
    unfold Kernel.copyOffset
    rw [hdata]

/-- **Where a chain is.** -/
theorem CopyChain.copyAt (hcopies : x.callback.copies = true) (hle : x.offset k ≤ x.total k)
    (h : CopyChain k x l pr k') : CopyAt k x l.length pr k' := by
  induction h with
  | @first p k₁ hp hres =>
    have hdata : k₁.copyInOutData x.pid = (x.begun k).copyInOutData x.pid := hres.data
    refine ⟨rfl, hcopies, ?_, hres.present, ?_, ?_, .inl rfl⟩
    · have := x.addr.toNat_lt
      unfold CopyCall.page CopyCall.before CopyCall.request wordLimit
      simp [Nat.mod_eq_of_lt this]
    · rw [← x.copySize_begun]
      unfold Kernel.copySize
      rw [hdata]
    · rw [← x.copyOffset_begun]
      unfold Kernel.copyOffset
      rw [hdata]
      simp [CopyCall.before]
  | next _ hgoes hres ih =>
    rw [List.length_append]
    exact ih.step hle hgoes hres

/-! ## The end of a chain -/

/-- The process with all its second levels. -/
def Process.furnished (p : Process) : Process :=
  { p with pagetable := { p.pagetable with pages2 := fun _ => some ⟨0, fun _ => {}⟩ } }

/-- A request can be served again whatever its page. -/
theorem exists_resumed (pr : PagerRequest) (p : Process) (k : Kernel) : ∃ k', Resumed pr k k' := by
  refine ⟨k.setSlot pr.pid (.pcb p.furnished), rfl, ⟨_, _, setSlot_self, rfl⟩, ?_⟩
  have hentry : (k.setSlot pr.pid (.pcb p.furnished)).entryOf pr = {} := by
    unfold Kernel.entryOf
    rw [pte_of_pcb setSlot_self]
    rfl
  rw [hentry]
  rfl

/-- A chain that has not gone beyond the size can be followed to its end. -/
theorem CopyChain.exists_copyEnds {p : Process} (hcopies : x.callback.copies = true)
    (hle : x.offset k ≤ x.total k) (h : CopyChain k x l pr k') :
    ∃ l' pr' k₁ k₂, CopyChain k x l' pr' k₁ ∧ CopyEnds pr' k₁ k₂ ∧
      k₂.copyOffset x.pid = x.total k := by
  -- By induction on what is left after the pages before.
  induction hn : x.total k - x.before l.length using Nat.strong_induction_on
    generalizing l pr k' with
  | _ n ih =>
    obtain ⟨k₁, -, hoffset, hanswers, hnext⟩ := (h.copyAt hcopies hle).continues hle
    by_cases hend : x.total k ≤ x.offset k + x.before (l.length + 1)
    · exact ⟨l, pr, k', k₁, h, hanswers hend, hoffset.trans (min_eq_left hend)⟩
    · obtain ⟨k₂, hres⟩ := exists_resumed pr.next p k₁
      refine ih _ ?_ (h.next (hnext (by omega)) hres) rfl
      rw [← hn, List.length_append, List.length_singleton]
      unfold CopyCall.before pageOffset pageSize at *
      omega

/-- The last of the pages is where the range ends. -/
theorem CopyCall.lt_pages {i : Nat} : i + 1 < x.pages k ↔ x.before (i + 1) < x.count k := by
  unfold CopyCall.pages CopyCall.before pageOffset pageSize
  omega

theorem CopyCall.Fits.stops (h : x.Fits k) (hcopies : x.callback.copies = true) :
    CopyStops k x := by
  obtain ⟨hle, hcount⟩ := CopyCall.fits_iff.mp h
  refine ⟨?_, fun l pr k' hc => ?_, fun l pr k' hc hlt => ?_, fun l pr k' hc hlast => ?_⟩
  · rw [x.copySize_begun, x.copyOffset_begun]
    exact hle
  · have hat := hc.copyAt hcopies hle
    refine ⟨?_, hat.addr⟩
    cases hn : l.length with
    | zero =>
      unfold CopyCall.pages
      omega
    | succ i =>
      have hbefore := hat.before
      rw [hn] at hbefore
      exact CopyCall.lt_pages.mpr (by omega)
  · have hat := hc.copyAt hcopies hle
    obtain ⟨k₁, -, -, -, hnext⟩ := hat.continues hle
    have := CopyCall.lt_pages.mp hlt
    exact ⟨_, k₁, hnext (by omega)⟩
  · have hat := hc.copyAt hcopies hle
    obtain ⟨k₁, -, hoffset, hanswers, -⟩ := hat.continues hle
    have hnot : ¬ x.before (l.length + 1) < x.count k := fun hlt => by
      have := CopyCall.lt_pages.mpr hlt
      omega
    exact ⟨k₁, hanswers (by omega), by omega⟩

theorem CopyStops.fits {p : Process} (h : CopyStops k x) (hp : k.sosProcs x.pid = .pcb p)
    (hcopies : x.callback.copies = true) : x.Fits k := by
  have hle : x.offset k ≤ x.total k := by
    rw [← x.copySize_begun, ← x.copyOffset_begun]
    exact h.bounded
  obtain ⟨k₀, hres⟩ := exists_resumed (x.request p) p (x.begun k)
  obtain ⟨l, pr, k₁, k₂, hc, hans, hoffset⟩ :=
    (CopyChain.first hp hres).exists_copyEnds (p := p) hcopies hle
  have hlt := (h.inRange l pr k₁ hc).1
  -- The continuation that answers is the last one.
  have hlast : l.length + 1 = x.pages k := by
    by_contra hne
    obtain ⟨pr', k₃, hgoes⟩ := h.goesOn l pr k₁ hc (by omega)
    exact hgoes.not_copyEnds hans
  obtain ⟨k₃, hans', hmoved⟩ := h.ends l pr k₁ hc hlast
  have heq : k₂ = k₃ := by
    have := (hans.1 ⟨pure (), fun _ => pure ()⟩).symm.trans (hans'.1 _)
    injection this
  subst heq
  exact CopyCall.fits_iff.mpr ⟨hle, by omega⟩

/-- **When a copy ends.** A message for a copy makes a request for its first page. From there on the
copy ends with the pages of its range exactly if the sum of the sizes fits. -/
theorem copyStops_iff (he : e.copyCall = some x) (hen : Enabled k e) :
    (∃ p, k.sosProcs x.pid = .pcb p ∧ ∀ c, handleWith c e k = pager c (x.request p) (x.begun k)) ∧
      (CopyStops k x ↔ x.Fits k) := by
  obtain ⟨p, hp⟩ := pcb_of_copyCall he hen
  refine ⟨⟨p, hp, handleWith_copy he hp⟩, fun h => ?_, fun h => ?_⟩
  · exact h.fits hp (copies_of_copyCall he)
  · exact h.stops (copies_of_copyCall he)

/-- The first copy of a process that stays inside the buffer ends. -/
theorem copyStops_of_first_copy :
    ∃ k x, Reachable (coldFrames 12) (fun _ _ => True) k ∧ CopyStops k x ∧ x.count k = 5000 := by
  obtain ⟨k, hr, hobs⟩ := reachable_of_run 12 20 [[appRegion]] (fun _ _ => True) []
    (fun k => (decide (Enabled k (.copyin 2 0x10800 5000 false)),
      decide (CopyCall.Fits ⟨2, 0x10800, 5000, false, fmRead, .copyInContinue⟩ k),
      CopyCall.count ⟨2, 0x10800, 5000, false, fmRead, .copyInContinue⟩ k))
    (by decide) (v := (true, true, 5000)) (by decide +kernel)
  obtain ⟨hen, hfits, hcount⟩ := by simpa only [Prod.mk.injEq, decide_eq_true_eq] using hobs
  exact ⟨k, _, hr, (copyStops_iff (e := .copyin 2 0x10800 5000 false) rfl hen).2.mpr hfits, hcount⟩

/-- Whether a process is there and has been answered. -/
def Kernel.livesAnswered (k : Kernel) (pid : Pid) : Bool × Nat :=
  ((k.sosProcs pid).live, k.replies.countP (·.pid = pid))

/-- **A copy that walks on.** A byte has been copied in, and 65535 more are to be appended: the size
is then 0 and the offset 1. No page is the last one, so the copy goes on to the end of the region,
where the process is deleted. -/
theorem copy_walks_on :
    ∃ k k', Reachable (coldFrames 40) (fun _ _ => True) k ∧
      Step k (.copyin 2 0x10000 65535 true) k' ∧
      ¬ CopyStops k ⟨2, 0x10000, 65535, true, fmRead, .copyInContinue⟩ ∧
      k.livesAnswered 2 = (true, 1) ∧ k'.livesAnswered 2 = (false, 1) := by
  obtain ⟨k, k', hr, -, hstep, hobs⟩ := step_of_run 40 40 [[appRegion]] (fun _ _ => True)
    [.copyin 2 0x10000 1 false] (.copyin 2 0x10000 65535 true)
    (fun k k' => ¬ CopyCall.Fits ⟨2, 0x10000, 65535, true, fmRead, .copyInContinue⟩ k ∧
      k.livesAnswered 2 = (true, 1) ∧ k'.livesAnswered 2 = (false, 1))
    (by decide) (by decide +kernel)
  obtain ⟨hfits, hobs⟩ := hobs
  refine ⟨k, k', hr, hstep, fun hstops => hfits ?_, hobs⟩
  obtain ⟨p, hp⟩ := pcb_of_copyCall (e := .copyin 2 0x10000 65535 true) rfl hstep.1
  exact hstops.fits hp rfl

end Sos
