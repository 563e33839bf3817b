import Sos.Simulation.Swap

/-!
# Serving faults and running the queue

The functions that call each other through the queue. Each of them is a sequence of pool steps and
keeps the shape of the queue (`Shape`): a swap-out is only ever at the head, and only while a
request is active. While one is active the queue is only ever appended to, which is why the head can
be taken off when its handler is done.

The induction is on the depth of the mutual calls: what `calls n` does is assumed (`CallsServe`),
and shown for `calls (n + 1)`.
-/

namespace Sos

open Hoare

variable {k k' k'' : Kernel} {E : Fault → Kernel → Prop} {pid : Pid} {M : Set Nat} {b : Bool}
variable {c : Calls} {r : Request} {pr : PagerRequest}
variable {p : Process} {Q : Unit → Kernel → Prop}

/-! ## The shape of the queue -/

/-- A swap-out is at the head, if anywhere, and then a request is active. -/
structure Shape (k : Kernel) : Prop where
  tail : ∀ r ∈ k.requests.tail, r.isSwapout = false
  idle : k.requestActive = false → ∀ r ∈ k.requests, r.isSwapout = false

theorem Shape.of_eq (h : Shape k) (hr : k'.requests = k.requests)
    (ha : k'.requestActive = k.requestActive) : Shape k' :=
  ⟨by rw [hr]; exact h.tail, by rw [hr, ha]; exact h.idle⟩

theorem Shape.of_forall (h : ∀ r ∈ k.requests, r.isSwapout = false) : Shape k :=
  ⟨fun r hr => h r (List.mem_of_mem_tail hr), fun _ => h⟩

theorem writing_of_not_isSwapout (h : r.isSwapout = false) : r.writing = none := by
  unfold Request.isSwapout at h
  cases hw : r.writing with
  | none => rfl
  | some f => simp [hw] at h

/-- From `k` to `k'` by steps of the pool, with the queue in shape at the end and, if a request is
active, nothing taken off it. -/
structure Served (M : Set Nat) (b : Bool) (k k' : Kernel) : Prop where
  steps : Pool.Steps M b k.pool k'.pool
  shape : Shape k'
  appends : k.requestActive = true → k'.requestActive = true ∧
    ∃ l, k'.requests = k.requests ++ l ∧ ∀ r ∈ l, r.isSwapout = false

theorem Served.trans (h : Served M b k k') (h' : Served M b k' k'') : Served M b k k'' where
  steps := h.steps.trans h'.steps
  shape := h'.shape
  appends := fun ha => by
    obtain ⟨ha', l, hl, hno⟩ := h.appends ha
    obtain ⟨ha'', l', hl', hno'⟩ := h'.appends ha'
    refine ⟨ha'', l ++ l', by rw [hl', hl, List.append_assoc], fun r hr => ?_⟩
    rcases List.mem_append.mp hr with hr | hr
    · exact hno r hr
    · exact hno' r hr

theorem Quiet.served (h : Quiet M b k k') (hs : Shape k) : Served M b k k' where
  steps := h.steps
  shape := hs.of_eq h.requests h.requestActive
  appends := fun ha => ⟨h.requestActive.trans ha, [], by rw [h.requests, List.append_nil], by simp⟩

theorem Served.refl (hs : Shape k) : Served M b k k := (Quiet.refl k).served hs

theorem Idle.served (h : Idle k k') (hs : Shape k) : Served M b k k' := (Quiet.of_idle h).served hs

theorem Grow.served (h : Grow k k') (hs : Shape k) : Served M b k k' := (Quiet.of_grow h).served hs

/-- A program all of whose normal ends are `Served`. -/
abbrev Serves (M : Set Nat) (b : Bool) {α : Type} (m : PagerM α) (k : Kernel) : Prop :=
  Wp m k (fun _ k' => Served M b k k') (fun _ _ => True)

theorem Serves.bind {α β : Type} {m : PagerM α} {f : α → PagerM β} (hm : Serves M b m k)
    (hf : ∀ a k', Served M b k k' → Serves M b (f a) k') : Serves M b (m >>= f) k := by
  refine wp_bind.mpr (hm.imp fun a k' h => ?_)
  exact (hf a k' h).imp fun _ k'' h' => h.trans h'

theorem Serves.of_keeps {α : Type} {m : PagerM α} (hm : Keeps Idle (fun _ => True) m)
    (hs : Shape k) : Serves M b m k :=
  (hm k).mono (fun _ _ h => h.served hs) (fun _ _ _ => trivial)

theorem Serves.of_lookupEntry {addr : Nat} (hs : Shape k) : Serves M b (lookupEntry pid addr) k :=
  wp_lookupEntry (fun _ => trivial) (fun _ => trivial) (fun _ _ _ => trivial)
    fun _ hgrow _ => hgrow.served hs

theorem Serves.of_prepareData {addr : Nat} (hs : Shape k) : Serves M b (prepareData pid addr) k :=
  wp_prepareData (fun _ => trivial) (fun _ => trivial) (fun _ _ _ => trivial) (fun _ => trivial)
    fun _ hgrow _ => hgrow.served hs

/-- What is assumed of the functions called back. -/
structure CallsServe (M : Set Nat) (b : Bool) (c : Calls) : Prop where
  startRequest : ∀ k, Shape k → Serves M b c.startRequest k
  pager : ∀ pr k, Shape k → Serves M b (c.pager pr) k

/-! ## Queueing -/

theorem pool_append (hr : r.isSwapout = false) :
    ({ k with requests := k.requests ++ [r] } : Kernel).pool = k.pool := by
  unfold Kernel.pool
  simp only [List.filterMap_append, List.filterMap_cons, writing_of_not_isSwapout hr,
    List.filterMap_nil, List.append_nil]
  rfl

/-- A request that has to wait goes to the end of the queue. -/
def Kernel.enqueued (k : Kernel) (r : Request) : Kernel := { k with requests := k.requests ++ [r] }

theorem Shape.enqueued (hs : Shape k) (hr : r.isSwapout = false) : Shape (k.enqueued r) where
  tail := fun r' hr' => by
    have hmem : r' ∈ k.requests.tail ++ [r] := by
      cases hreq : k.requests with
      | nil => simp [Kernel.enqueued, hreq] at hr'
      | cons x l => simpa [Kernel.enqueued, hreq] using hr'
    rcases List.mem_append.mp hmem with h | h
    · exact hs.tail r' h
    · rw [List.mem_singleton.mp h]
      exact hr
  idle := fun hidle r' hr' => by
    rcases List.mem_append.mp hr' with h | h
    · exact hs.idle hidle r' h
    · rw [List.mem_singleton.mp h]
      exact hr

theorem enqueued_served (hs : Shape k) (hr : r.isSwapout = false) :
    Served M b k (k.enqueued r) where
  steps := by
    rw [Kernel.enqueued, pool_append hr]
  shape := hs.enqueued hr
  appends := fun ha => ⟨ha, [r], rfl, by simpa using hr⟩

/-- Queueing starts the request if nothing else is in the queue. -/
theorem wp_queueRequest {r : Request}
    (hfirst : k.requests = [] → k.requestActive = false →
      Wp c.startRequest (k.enqueued r) Q fun _ _ => True)
    (hbehind : k.requests ≠ [] → k.requestActive = true → Q () (k.enqueued r)) :
    Wp (queueRequest c r) k Q fun _ _ => True := by
  unfold queueRequest
  rw [wp_bind, wp_get, wp_ite]
  refine ⟨fun hempty => ?_, fun hne => ?_⟩
  · rw [wp_bind, wp_assert]
    refine ⟨fun hidle => ?_, fun _ => trivial⟩
    rw [wp_bind, wp_modify]
    exact hfirst (by simpa using hempty) (by simpa using hidle)
  · rw [wp_bind, wp_assert]
    exact ⟨fun hactive => wp_modify.mpr (hbehind (by simpa using hne) hactive), fun _ => trivial⟩

theorem queueRequest_serves (hc : CallsServe M b c) (hr : r.isSwapout = false) (hs : Shape k) :
    Serves M b (queueRequest c r) k := by
  have h₁ : Served M b k (k.enqueued r) := enqueued_served hs hr
  refine wp_queueRequest (fun _ _ => ?_) fun _ _ => h₁
  exact (hc.startRequest _ h₁.shape).imp fun _ k' h => h₁.trans h

/-! ## Serving a fault -/

theorem wp_mapPage {virt phys : Nat}
    (hE : ¬ (pageOffset virt = 0 ∧ pageOffset phys = 0) → E (.assertion .mapPageAligned) k)
    (hQ : pageOffset phys = 0 → ∀ k', k' = { k with
        mmu := Function.update k.mmu pid
          (Function.update (k.mmu pid) (pageNo virt) (some phys)) } → Q () k') :
    Wp (mapPage pid virt phys) k Q E := by
  unfold mapPage
  rw [wp_bind, wp_assert]
  refine ⟨fun h => wp_modify.mpr (hQ ?_ _ rfl), fun h => hE (by simpa using h)⟩
  exact (by simpa using h : pageOffset virt = 0 ∧ pageOffset phys = 0).2

/-- What `enterFrame` makes of a state with the page's second level in place. -/
structure Entered (pr : PagerRequest) (frame : Nat) (k k' : Kernel) : Prop where
  pool : k'.pool = (k.pool.setPte pr.pid (pageNo pr.addr) { addr := frame, ref := true }).setMmu
    pr.pid (pageNo pr.addr) (some frame)
  repaged : Repaged k k'
  paged : Paged k k'
  rest : k' = { k with sosProcs := k'.sosProcs, mmu := k'.mmu }
  aligned : pageOffset frame = 0

theorem enterFrame_spec {frame : Nat} {Q : Bool → Kernel → Prop}
    (htable : k.HasTable pr.pid (pageNo pr.addr))
    (hE : ∀ k', pageOffset frame ≠ 0 → E (.assertion .mapPageAligned) k')
    (hQ : ∀ k', Entered pr frame k k' → Q true k') :
    Wp (enterFrame pr frame) k Q E := by
  unfold enterFrame
  rw [wp_bind]
  refine wp_setEntry fun k₁ h₁ => ?_
  rw [wp_bind]
  refine wp_mapPage (fun h => hE _ ?_) fun halign k₂ h₂ =>
    wp_pure.mpr (hQ k₂ ⟨?_, ?_, ?_, ?_, halign⟩)
  · intro h0
    exact h ⟨by simp, h0⟩
  · have h0 : k₂.pool = k₁.pool.setMmu pr.pid (pageNo pr.addr) (some frame) := by
      rw [h₂]
      simp only [pageNo_pageAlign]
      rfl
    rw [h0, h₁, pool_setEntry htable]
  · have hrep₁ : Repaged k k₁ := by rw [h₁]; exact .setEntry
    exact hrep₁.trans (.of_sosProcs_eq (by rw [h₂]))
  · have hpaged : Paged k k₁ := by rw [h₁]; exact paged_paging.pages k _ _ fun _ => rfl
    exact paged_paging.trans hpaged (paged_of_sosProcs (by rw [h₂]))
  · have : k₁ = { k with sosProcs := k₁.sosProcs } := by rw [h₁]; exact updProcess_rest
    rw [h₂, this]

/-- The page has been recorded as resident. -/
structure Recorded (pid : Pid) (page frame : Nat) (k k' : Kernel) : Prop where
  pool : k'.pool = { k.pool with
    alloced := (pid, pageNo page) ::ₘ k.pool.alloced
    limit := k.pool.limit - 1
    unbacked := k.pool.unbacked || frame == 0 }
  core : ∀ pid, (k'.sosProcs pid).core = (k.sosProcs pid).core
  paged : Paged k k'
  rest : k' = { k with
    sosProcs := k'.sosProcs, alloced := k.alloced ++ [(pid, page)], allocLimit := k.allocLimit - 1
    unbacked := k.unbacked || frame == 0 }

/-- The accounts with another page. -/
def Kernel.withPage (k : Kernel) (pid : Pid) (page frame : Nat) : Kernel :=
  { k with
    alloced := k.alloced ++ [(pid, page)]
    allocLimit := k.allocLimit - 1
    unbacked := k.unbacked || frame == 0 }

theorem recorded_withPage (page frame : Nat) (k : Kernel) : Recorded pid page frame k
    ((k.withPage pid page frame).updProcess pid fun p => { p with size := p.size + 1 }) := by
  have hidle : Idle (k.withPage pid page frame)
      (Kernel.updProcess _ pid fun p => { p with size := p.size + 1 }) :=
    idle_updProcess (fun _ => rfl) (fun _ => rfl) (fun _ => ⟨rfl, rfl⟩)
  have hpaged : Paged (k.withPage pid page frame)
      (Kernel.updProcess _ pid fun p => { p with size := p.size + 1 }) :=
    paged_paging.pages _ _ _ fun _ => rfl
  refine ⟨?_, fun pid' => hidle.core pid', hpaged, updProcess_rest⟩
  rw [hidle.pool]
  unfold Kernel.withPage Kernel.pool
  dsimp only
  rw [List.map_append, ← Multiset.coe_add, add_comm]
  rfl

theorem wp_pagerFrameAlloc {page : Nat} {Q : Nat → Kernel → Prop}
    (hneg : k.allocLimit < 0 → E (.assertion .pagerFrameAllocLimit) k)
    (hzero : k.allocLimit = 0 → Q 0 k)
    (hnone : 0 < k.allocLimit → k.freeFrames = [] →
      ∀ k', Recorded pid page 0 { k with exhausted := true } k' → Q 0 k')
    (hsome : 0 < k.allocLimit → ∀ f rest, k.free = f :: rest → f ≠ 0 →
      ∀ k', Recorded pid page f (k.frameTaken rest) k' → Q f k') :
    Wp (pagerFrameAlloc pid page) k Q E := by
  unfold pagerFrameAlloc
  simp only [wp_bind, wp_get]
  rw [wp_assert]
  refine ⟨fun hpos => ?_, fun hn => hneg (by simpa using hn)⟩
  have hpos : 0 ≤ k.allocLimit := by simpa using hpos
  rw [wp_ite]
  refine ⟨fun h0 => wp_pure.mpr (hzero h0), fun h0 => ?_⟩
  simp only [wp_bind, wp_frameAlloc, wp_modify, wp_pure]
  exact ⟨fun hempty => hnone (by omega) hempty _ (recorded_withPage ..),
    fun f rest hfree hf => hsome (by omega) f rest hfree hf _ (recorded_withPage ..)⟩

/-- The page is asked for by a process that may have it, and its second level is there: the state
`pagerAction` is in when it looks at the entry. -/
structure Asked (pr : PagerRequest) (k : Kernel) (p : Process) (r : Region) (k₁ : Kernel) :
    Prop where
  pcb : k.sosProcs pr.pid = .pcb p
  grants : p.Grants pr r
  looked : Looked pr.pid pr.addr k k₁

theorem Asked.grow {r : Region} (h : Asked pr k p r k') : Grow k k' := h.looked.grow

theorem Asked.table {r : Region} (h : Asked pr k p r k') :
    k'.HasTable pr.pid (pageNo pr.addr) := h.looked.table

/-- The entry of the page a request is about. -/
def Kernel.entryOf (k : Kernel) (pr : PagerRequest) : Pte := k.pool.pte pr.pid (pageNo pr.addr)

/-- What has to be shown of the ways through `pagerAction`. -/
structure ActionCases (c : Calls) (pr : PagerRequest) (k : Kernel) (Q : Bool → Kernel → Prop)
    (E : Fault → Kernel → Prop) : Prop where
  null : k.sosProcs pr.pid = .null → Q false k
  placeholder : k.sosProcs pr.pid = .placeholder → E .placeholder k
  delete : ∀ p, k.sosProcs pr.pid = .pcb p → (∀ r, ¬ p.Grants pr r) →
    Wp (processDelete pr.pid) k (fun _ k' => Q false k') E
  noTable : k.freeFrames = [] → ¬ k.HasTable pr.pid (pageNo pr.addr) →
    E .nullPointer { k with exhausted := true }
  swap : ∀ p r k₁, Asked pr k p r k₁ → (k.entryOf pr).swap →
    Wp (queueRequest c (.swapin pr)) k₁ (fun _ k' => Q false k') E
  resident : ∀ p r k₁ k', Asked pr k p r k₁ → (k.entryOf pr).swap = false →
    (k.entryOf pr).addr ≠ 0 → Entered pr (k.entryOf pr).addr k₁ k' → Q true k'
  direct : ∀ p r k₁ k', Asked pr k p r k₁ → (k.entryOf pr).swap = false →
    (k.entryOf pr).addr = 0 → r.mapDirectly → Entered pr (pageAlign pr.addr) k₁ k' → Q true k'
  wait : ∀ p r k₁, Asked pr k p r k₁ → (k.entryOf pr).swap = false → (k.entryOf pr).addr = 0 →
    r.mapDirectly = false → k.allocLimit = 0 →
    Wp (queueRequest c (.swapin pr)) k₁ (fun _ k' => Q false k') E
  exhausted : ∀ p r k₁ k₂, Asked pr k p r k₁ → (k.entryOf pr).swap = false →
    (k.entryOf pr).addr = 0 → r.mapDirectly = false → 0 < k.allocLimit → k₁.freeFrames = [] →
    Recorded pr.pid (pageAlign pr.addr) 0 { k₁ with exhausted := true } k₂ →
    Wp (queueRequest c (.swapin pr)) k₂ (fun _ k' => Q false k') E
  fresh : ∀ p r k₁ f rest k₂ k', Asked pr k p r k₁ → (k.entryOf pr).swap = false →
    (k.entryOf pr).addr = 0 → r.mapDirectly = false → 0 < k.allocLimit → k₁.free = f :: rest →
    f ≠ 0 → Recorded pr.pid (pageAlign pr.addr) f (k₁.frameTaken rest) k₂ →
      Entered pr f k₂ k' → Q true k'
  badLimit : k.allocLimit < 0 → ∀ k', E (.assertion .pagerFrameAllocLimit) k'
  badEntry : pageOffset (k.entryOf pr).addr ≠ 0 → ∀ k', E (.assertion .mapPageAligned) k'
  badFrame : ∀ k₁ f rest, Looked pr.pid pr.addr k k₁ → k₁.free = f :: rest → pageOffset f ≠ 0 →
    ∀ k', E (.assertion .pagerActionFrame) k'

theorem wp_pagerAction {Q : Bool → Kernel → Prop} (h : ActionCases c pr k Q E) :
    Wp (pagerAction c pr) k Q E := by
  unfold pagerAction
  rw [wp_bind, wp_get]
  split
  · next hs => exact wp_pure.mpr (h.null hs)
  · next hs => exact wp_throw.mpr (h.placeholder hs)
  · next p hp =>
    have hdelete : (∀ r, ¬ p.Grants pr r) →
        Wp (do discard (processDelete pr.pid); return false) k Q E := fun hno => by
      rw [wp_bind, wp_discard]
      exact (h.delete p hp hno).imp fun _ k' hq => wp_pure.mpr hq
    split
    · next hnone => exact hdelete fun r hr => by simp [Process.Grants, hnone] at hr
    · next r hr =>
      rw [wp_ite]
      refine ⟨fun hrights => hdelete fun r' hr' => ?_, fun hrights => ?_⟩
      · have : r' = r := by
          have h1 := hr'.1
          rw [hr] at h1
          exact (Option.some.inj h1).symm
        exact hr'.2 (by rw [this]; exact hrights)
      · have hgrants : p.Grants pr r := ⟨hr, hrights⟩
        rw [wp_bind]
        refine wp_lookupEntry_looked (by simp [hp]) (by simp [hp]) (fun hf ht _ =>
          h.noTable hf ht) ?_
        intro k₁ hlooked
        have hgrow := hlooked.grow
        have htable := hlooked.table
        have hasked : Asked pr k p r k₁ := ⟨hp, hgrants, hlooked⟩
        rw [wp_ite]
        refine ⟨fun hswap => ?_, fun hswap => ?_⟩
        · rw [wp_bind]
          exact (h.swap p r k₁ hasked hswap).imp fun _ k' hq => wp_pure.mpr hq
        · have hswap : (k.entryOf pr).swap = false := Bool.eq_false_iff.mpr hswap
          rw [wp_ite]
          refine ⟨fun haddr => ?_, fun haddr => ?_⟩
          · exact enterFrame_spec htable (fun k' hoff => h.badEntry hoff k')
              fun k' he => h.resident p r k₁ k' hasked hswap haddr he
          · have haddr : (k.entryOf pr).addr = 0 := not_not.mp haddr
            rw [wp_ite]
            refine ⟨fun hdirect => ?_, fun hdirect => ?_⟩
            · refine enterFrame_spec htable (fun k' hoff => absurd (by simp) hoff) fun k' he => ?_
              exact h.direct p r k₁ k' hasked hswap haddr hdirect he
            · have hdirect : r.mapDirectly = false := Bool.eq_false_iff.mpr hdirect
              have hlimit : k₁.allocLimit = k.allocLimit := hgrow.allocLimit
              rw [wp_bind]
              refine wp_pagerFrameAlloc (fun hn => h.badLimit (by omega) _) (fun h0 => ?_)
                (fun hpos hempty k₂ hrec => ?_) (fun hpos f rest hfree hf k₂ hrec => ?_)
              · rw [wp_bind, wp_assert]
                refine ⟨fun _ => ?_, by simp [pageOffset]⟩
                rw [if_pos rfl]
                refine wp_bind.mpr ((h.wait p r k₁ hasked hswap haddr hdirect (by omega)).imp ?_)
                exact fun _ k' hq => wp_pure.mpr hq
              · rw [wp_bind, wp_assert]
                refine ⟨fun _ => ?_, by simp [pageOffset]⟩
                rw [if_pos rfl]
                refine wp_bind.mpr ((h.exhausted p r k₁ k₂ hasked hswap haddr hdirect (by omega)
                  hempty hrec).imp ?_)
                exact fun _ k' hq => wp_pure.mpr hq
              · rw [wp_bind, wp_assert]
                refine ⟨fun hoff => ?_, fun hoff => ?_⟩
                · rw [if_neg hf]
                  have htable₂ : k₂.HasTable pr.pid (pageNo pr.addr) :=
                    (Repaged.of_core hrec.core).table _ _ htable
                  refine enterFrame_spec htable₂ (fun k' h0 => absurd (by simpa using hoff) h0) ?_
                  exact fun k' he => h.fresh p r k₁ f rest k₂ k' hasked hswap haddr hdirect
                    (by omega) hfree hf hrec he
                · exact h.badFrame k₁ f rest hlooked hfree (by simpa using hoff) _

/-- What `pagerAction` may come to: the request is dropped, it has to wait, or the page is there. -/
inductive Verdict
  | gone | waits | there
deriving DecidableEq

/-- The ways through `pagerAction`, without the queueing of a request that has to wait. -/
inductive Acts (pr : PagerRequest) (k : Kernel) : Verdict → Kernel → Prop
  | absent : k.sosProcs pr.pid = .null → Acts pr k .gone k
  | refused {p : Process} {a : Int} {k' : Kernel} : k.sosProcs pr.pid = .pcb p →
      (∀ r, ¬ p.Grants pr r) → processDelete pr.pid k = .ok a k' → Acts pr k .gone k'
  | onDisk {p : Process} {r : Region} {k₁ : Kernel} : Asked pr k p r k₁ → (k.entryOf pr).swap →
      Acts pr k .waits k₁
  | limit {p : Process} {r : Region} {k₁ : Kernel} : Asked pr k p r k₁ →
      (k.entryOf pr).swap = false → (k.entryOf pr).addr = 0 → r.mapDirectly = false →
      k.allocLimit = 0 → Acts pr k .waits k₁
  | exhausted {p : Process} {r : Region} {k₁ k₂ : Kernel} : Asked pr k p r k₁ →
      (k.entryOf pr).swap = false → (k.entryOf pr).addr = 0 → r.mapDirectly = false →
      0 < k.allocLimit → k₁.freeFrames = [] →
      Recorded pr.pid (pageAlign pr.addr) 0 { k₁ with exhausted := true } k₂ → Acts pr k .waits k₂
  | resident {p : Process} {r : Region} {k₁ k' : Kernel} : Asked pr k p r k₁ →
      (k.entryOf pr).swap = false → (k.entryOf pr).addr ≠ 0 →
      Entered pr (k.entryOf pr).addr k₁ k' → Acts pr k .there k'
  | direct {p : Process} {r : Region} {k₁ k' : Kernel} : Asked pr k p r k₁ →
      (k.entryOf pr).swap = false → (k.entryOf pr).addr = 0 → r.mapDirectly →
      Entered pr (pageAlign pr.addr) k₁ k' → Acts pr k .there k'
  | fresh {p : Process} {r : Region} {f : Nat} {free : List Nat} {k₁ k₂ k' : Kernel} :
      Asked pr k p r k₁ → (k.entryOf pr).swap = false → (k.entryOf pr).addr = 0 →
      r.mapDirectly = false → 0 < k.allocLimit → k₁.free = f :: free → f ≠ 0 →
      Recorded pr.pid (pageAlign pr.addr) f (k₁.frameTaken free) k₂ → Entered pr f k₂ k' →
      Acts pr k .there k'

theorem wp_pagerAction_acts {Q : Bool → Kernel → Prop}
    (hgone : ∀ k', Acts pr k .gone k' → Q false k')
    (hthere : ∀ k', Acts pr k .there k' → Q true k')
    (hwaits : ∀ k₁, Acts pr k .waits k₁ →
      Wp (queueRequest c (.swapin pr)) k₁ (fun _ k' => Q false k') fun _ _ => True) :
    Wp (pagerAction c pr) k Q fun _ _ => True := by
  refine wp_pagerAction ⟨fun hs => hgone _ (.absent hs), fun _ => trivial, fun p hp hno => ?_,
    fun _ _ => trivial, fun p r k₁ ha hs => hwaits _ (.onDisk ha hs),
    fun p r k₁ k' ha hs h0 he => hthere _ (.resident ha hs h0 he),
    fun p r k₁ k' ha hs h0 hd he => hthere _ (.direct ha hs h0 hd he),
    fun p r k₁ ha hs h0 hd hl => hwaits _ (.limit ha hs h0 hd hl),
    fun p r k₁ k₂ ha hs h0 hd hl hf hr => hwaits _ (.exhausted ha hs h0 hd hl hf hr),
    fun p r k₁ f free k₂ k' ha hs h0 hd hl hf hne hr he =>
      hthere _ (.fresh ha hs h0 hd hl hf hne hr he),
    fun _ _ => trivial, fun _ _ => trivial, fun _ _ _ _ _ _ _ => trivial⟩
  exact wp_run.mono (fun a k' hrun => hgone _ (.refused hp hno hrun)) fun _ _ _ => trivial

/-- A page of a region that is mapped directly may be mapped to its own address. -/
theorem pool_direct {r : Region} (hp : k.sosProcs pr.pid = .pcb p)
    (hr : p.regions.find? (findRegion pr.addr) = some r) (hd : r.mapDirectly) :
    k.pool.direct pr.pid (pageNo pr.addr) := by
  show (k.sosProcs pr.pid).direct _
  rw [hp]
  exact ⟨r, List.mem_of_find?_eq_some hr, hd, .inr ⟨pr.addr, List.find?_some hr, rfl⟩⟩

theorem pageAlign_eq_addr {a : Nat} {r : Region} (h : findRegion a r) :
    pageAlign a = Page.addr (pageNo a) := by
  simp only [findRegion, Bool.decide_and, Bool.and_eq_true, decide_eq_true_eq] at h
  have hlt : a < wordLimit := lt_trans h.2 (Nat.mod_lt _ (by decide))
  show a / pageSize * pageSize = a % wordLimit / pageSize * pageSize
  rw [Nat.mod_eq_of_lt hlt]

/-- A page that is recorded although the free list is empty is a step of the pool. -/
theorem Asked.recorded {r : Region} {k₁ k₂ : Kernel} (ha : Asked pr k p r k₁)
    (hs : Shape k) (hpos : 0 < k.allocLimit) (hempty : k₁.freeFrames = [])
    (hrec : Recorded pr.pid (pageAlign pr.addr) 0 { k₁ with exhausted := true } k₂) :
    Served M b k k₂ := by
  have h₁ : Served M b k k₁ := ha.grow.served hs
  have hstep : Pool.Step M b k₁.pool k₂.pool := by
    rw [hrec.pool, pageNo_pageAlign, beq_self_eq_true, Bool.or_true]
    refine .bogus (pool_live_of_hasTable ha.table) ?_ ?_
    · show (k₁.freeFrames : Multiset Nat) = 0
      rw [hempty]
      rfl
    · show 0 < k₁.allocLimit
      rw [ha.grow.allocLimit]
      exact hpos
  exact h₁.trans (Quiet.served ⟨.single hstep, by rw [hrec.rest], by rw [hrec.rest]⟩ h₁.shape)

/-- Whatever `pagerAction` comes to is a sequence of steps of the pool. -/
theorem Acts.served {v : Verdict} (h : Acts pr k v k') (hs : Shape k) : Served M b k k' := by
  have hlive : ∀ {p r k₁}, Asked pr k p r k₁ → k₁.pool.live pr.pid = true := fun ha =>
    pool_live_of_hasTable ha.table
  have hpte : ∀ {p r k₁}, Asked pr k p r k₁ →
      k₁.pool.pte pr.pid (pageNo pr.addr) = k.entryOf pr := fun ha => by rw [ha.grow.pte]; rfl
  cases h with
  | absent => exact .refl hs
  | refused _ _ hrun => exact (processDelete_quiet.ok hrun).served hs
  | onDisk ha _ | limit ha _ _ _ _ => exact ha.grow.served hs
  | exhausted ha _ _ _ hpos hempty hrec => exact ha.recorded hs hpos hempty hrec
  | @resident _ _ k₁ _ ha hswap haddr he =>
    have h₁ : Served M b k k₁ := ha.grow.served hs
    refine h₁.trans (Quiet.served ⟨.single ?_, ?_, ?_⟩ h₁.shape)
    · rw [he.pool, ← hpte ha]
      exact .remap (hlive ha) (by rw [hpte ha]; exact hswap) (by rw [hpte ha]; exact haddr)
    · rw [he.rest]
    · rw [he.rest]
  | @direct _ _ k₁ _ ha hswap haddr hd he =>
    have h₁ : Served M b k k₁ := ha.grow.served hs
    obtain ⟨pt, -, hp₁⟩ := ha.grow.pcb pr.pid _ ha.pcb
    refine h₁.trans (Quiet.served ⟨.single ?_, ?_, ?_⟩ h₁.shape)
    · rw [he.pool, pageAlign_eq_addr (List.find?_some ha.grants.1)]
      exact .direct (hlive ha) (by rw [hpte ha]; exact hswap) (by rw [hpte ha]; exact haddr)
        (pool_direct hp₁ ha.grants.1 hd)
    · rw [he.rest]
    · rw [he.rest]
  | @fresh _ _ f free k₁ _ _ ha hswap haddr _ hpos hfree hf hrec he =>
    have h₁ : Served M b k k₁ := ha.grow.served hs
    refine h₁.trans (Quiet.served ⟨.single ?_, ?_, ?_⟩ h₁.shape)
    · rw [he.pool, hrec.pool, pageNo_pageAlign, pool_frameTaken hfree hf, beq_false_of_ne hf,
        Bool.or_false]
      refine .fresh (hlive ha) (by rw [hpte ha]; exact hswap) (by rw [hpte ha]; exact haddr)
        (mem_free_of_cons hfree hf) ?_
      show 0 < k₁.allocLimit
      rw [ha.grow.allocLimit]
      exact hpos
    · rw [he.rest, hrec.rest]
      rfl
    · rw [he.rest, hrec.rest]
      rfl

section Serves

variable (hc : CallsServe M b c)
include hc

theorem pagerAction_serves (hs : Shape k) :
    Serves M b (pagerAction c pr) k := by
  refine wp_pagerAction_acts (fun k' h => h.served hs) (fun k' h => h.served hs) fun k₁ h => ?_
  have h₁ : Served M b k k₁ := h.served hs
  exact (queueRequest_serves hc rfl h₁.shape).imp fun _ k' h' => h₁.trans h'

/-! ## Continuations -/

theorem copyFinish_serves {size offset : Nat} (hs : Shape k) :
    Serves M b (copyFinish c pr size offset) k := by
  unfold copyFinish
  refine Serves.bind (.of_keeps (keeps_buffers idle_messaging) hs) ?_
  intro _ k₁ h₁
  split
  · exact .of_keeps (keeps_syscallReplyV idle_messaging _ _) h₁.shape
  · exact hc.pager _ _ h₁.shape

theorem copyInContinue_serves (hs : Shape k) :
    Serves M b (copyInContinue c pr) k := by
  unfold copyInContinue
  refine Serves.bind (.of_prepareData hs) fun _ k₁ h₁ => ?_
  refine wp_bind.mpr (wp_get.mpr ?_)
  refine Serves.bind (.of_lookupEntry h₁.shape) fun entry k₂ h₂ => ?_
  refine Serves.bind (.of_keeps (keeps_buffers idle_messaging)
    h₂.shape) fun _ k₃ h₃ => ?_
  exact copyFinish_serves hc h₃.shape

theorem copyOutContinue_serves (hs : Shape k) :
    Serves M b (copyOutContinue c pr) k := by
  unfold copyOutContinue
  refine wp_bind.mpr (wp_get.mpr ?_)
  refine Serves.bind (.of_lookupEntry hs) fun entry k₁ h₁ => ?_
  refine Serves.bind (.of_keeps (keeps_buffers idle_messaging)
    h₁.shape) fun _ k₂ h₂ => ?_
  refine Serves.bind (.of_prepareData h₂.shape) fun _ k₃ h₃ => ?_
  exact copyFinish_serves hc h₃.shape

theorem runCallback_serves (hs : Shape k) :
    Serves M b (runCallback c pr) k := by
  unfold runCallback
  split
  · exact wp_throw.mpr trivial
  · exact .of_keeps (keeps_pagerContinue idle_messaging pr) hs
  · exact copyInContinue_serves hc hs
  · exact copyOutContinue_serves hc hs

theorem pager_serves (hs : Shape k) : Serves M b (pager c pr) k := by
  unfold pager
  refine Serves.bind (pagerAction_serves hc hs) fun done k₁ h₁ => ?_
  rw [Serves, wp_ite]
  refine ⟨fun _ => ?_, fun _ => wp_pure.mpr (.refl h₁.shape)⟩
  refine Serves.bind (runCallback_serves hc h₁.shape) fun _ k₂ h₂ => ?_
  refine wp_bind.mpr (wp_get.mpr ?_)
  rw [wp_ite]
  exact ⟨fun _ => hc.startRequest k₂ h₂.shape, fun _ => wp_pure.mpr (.refl h₂.shape)⟩

end Serves

/-! ## Starting requests -/

/-- Taking off a request that writes nothing. -/
theorem pool_unshift {rest : List Request} (h : k.requests = r :: rest) (hr : r.isSwapout = false) :
    ({ k with requests := rest } : Kernel).pool = k.pool := by
  unfold Kernel.pool
  simp only [h, List.filterMap_cons, writing_of_not_isSwapout hr]
  rfl

/-- The end of a request: steps of the pool, and the queue in shape. -/
structure Handled (M : Set Nat) (b : Bool) (k k' : Kernel) : Prop where
  steps : Pool.Steps M b k.pool k'.pool
  shape : Shape k'

theorem Served.handled (h : Served M b k k') : Handled M b k k' := ⟨h.steps, h.shape⟩

/-- `startPagerRequest` gives up the queue before it serves the request at its head. -/
def Kernel.restarted (k : Kernel) (pr : PagerRequest) (rest : List Request) : Kernel :=
  { k with
    requestActive := false
    overrun := k.overrun || k.overruns pr
    requests := rest }

/-- What has to be shown of the ways through `startPagerRequest` when `pr` is at the head of the
queue and `rest` behind it. -/
structure StartCases (c : Calls) (pr : PagerRequest) (rest : List Request) (k : Kernel)
    (Q : Unit → Kernel → Prop) (E : Fault → Kernel → Prop) : Prop where
  null : k.sosProcs pr.pid = .null → E .nullProcess k
  placeholder : k.sosProcs pr.pid = .placeholder → E .placeholder k
  noTable : k.freeFrames = [] → ¬ k.HasTable pr.pid (pageNo pr.addr) →
    E .nullPointer { k with exhausted := true }
  swap : ∀ k₁, Grow k k₁ → k₁.HasTable pr.pid (pageNo pr.addr) → (k.entryOf pr).swap →
    Wp startSwapin k₁ Q E
  pinned : ∀ k₁, Grow k k₁ → (k.entryOf pr).swap = false → k.pinnedFrame ≠ 0 →
    E (.assertion .startPagerRequestPinned) k₁
  restart : ∀ k₁, Looked pr.pid pr.addr k k₁ → (k.entryOf pr).swap = false →
    k.pinnedFrame = 0 → 0 < k.allocLimit →
    Wp (c.pager pr) (k₁.restarted pr rest) Q E
  full : ∀ k₁, Grow k k₁ → k₁.HasTable pr.pid (pageNo pr.addr) → (k.entryOf pr).swap = false →
    k.pinnedFrame = 0 → k.allocLimit ≤ 0 → Wp startSwapout k₁ Q E

theorem wp_startPagerRequest (hempty : k.requests = [] → E .nullPointer k)
    (helf : ∀ er rest, k.requests = .elfload er :: rest →
      E (.assertion .startPagerRequestType) k)
    (hserve : ∀ pr r rest, k.requests = r :: rest → (r = .swapout pr ∨ r = .swapin pr) →
      StartCases c pr rest k Q E) :
    Wp (startPagerRequest c) k Q E := by
  unfold startPagerRequest
  rw [wp_bind, wp_requestsPeek]
  refine ⟨hempty, fun r rest hreq => ?_⟩
  cases r with
  | elfload er => exact wp_throw.mpr (helf er rest hreq)
  | swapout pr | swapin pr =>
    have h := hserve pr _ rest hreq (by simp)
    rw [wp_bind]
    refine wp_lookupEntry_looked h.null h.placeholder (fun hf ht _ => h.noTable hf ht) ?_
    intro k₁ hlooked
    have hgrow := hlooked.grow
    have htable := hlooked.table
    rw [wp_ite]
    refine ⟨fun hswap => h.swap k₁ hgrow htable hswap, fun hswap => ?_⟩
    have hswap : (k.entryOf pr).swap = false := Bool.eq_false_iff.mpr hswap
    rw [wp_bind, wp_get, wp_bind, wp_assert]
    refine ⟨fun hpin => ?_, fun hpin => ?_⟩
    · have hpin : k.pinnedFrame = 0 := by
        rw [← hgrow.pinnedFrame]
        simpa using hpin
      rw [wp_ite, hgrow.allocLimit]
      refine ⟨fun hpos => ?_, fun hpos => h.full k₁ hgrow htable hswap hpin (by omega)⟩
      rw [wp_bind]
      refine modify_eq.imp fun _ k₂ h₂ => ?_
      rw [wp_bind]
      have hreq₂ : k₂.requests = k.requests := by
        rw [h₂]
        exact hgrow.requests
      rw [hreq] at hreq₂
      refine wp_requestsUnshift (fun h0 => by simp [hreq₂] at h0) fun r' rest' hreq' k₃ h₃ => ?_
      have hrest : rest' = rest := by
        rw [hreq₂] at hreq'
        exact (List.cons.inj hreq').2.symm
      have hk₃ : k₃ = k₁.restarted pr rest := by
        rw [h₃, h₂, hrest]
        rfl
      rw [hk₃]
      exact h.restart k₁ hlooked hswap hpin hpos
    · refine h.pinned k₁ hgrow hswap ?_
      rw [← hgrow.pinnedFrame]
      simpa using hpin

theorem SwapinStarted.handled (h : SwapinStarted M b k k')
    (hno : ∀ r ∈ k.requests, r.isSwapout = false) : Handled M b k k' := by
  refine ⟨h.steps, .of_forall fun r hr => ?_⟩
  obtain ⟨pr, rest, sf, hreq, hreq'⟩ := h.requests
  rw [hreq'] at hr
  rcases List.mem_cons.mp hr with rfl | hr
  · rfl
  · exact hno r (by rw [hreq]; exact List.mem_cons_of_mem _ hr)

theorem SwapoutStarted.handled (h : SwapoutStarted M b k k')
    (hno : ∀ r ∈ k.requests, r.isSwapout = false) (hactive : k.requestActive = true) :
    Handled M b k k' := by
  obtain ⟨pr, hreq, -⟩ := h.requests
  refine ⟨h.steps, ⟨fun r hr => ?_, fun hidle => ?_⟩⟩
  · rw [hreq, List.tail_cons] at hr
    exact hno r hr
  · rw [h.requestActive, hactive] at hidle
    simp at hidle

theorem restarted_handled {rest : List Request} (hreq : k.requests = r :: rest)
    (hno : ∀ r ∈ k.requests, r.isSwapout = false) : Handled M b k (k.restarted pr rest) := by
  have hr : r.isSwapout = false := hno r (by rw [hreq]; exact List.mem_cons_self ..)
  have hpool : (k.restarted pr rest).pool = k.pool :=
    pool_unshift (k := { k with
      requestActive := false
      overrun := k.overrun || k.overruns pr }) hreq hr
  refine ⟨by rw [hpool], .of_forall fun r' hr' => ?_⟩
  exact hno r' (by rw [hreq]; exact List.mem_cons_of_mem _ hr')

theorem Grow.handled (h : Grow k k₁) (h' : Handled M b k₁ k') : Handled M b k k' :=
  ⟨(h.steps M b).trans h'.steps, h'.shape⟩

theorem startPagerRequest_handles (hc : CallsServe M b c)
    (hno : ∀ r ∈ k.requests, r.isSwapout = false) (hactive : k.requestActive = true) :
    Wp (startPagerRequest c) k (fun _ k' => Handled M b k k') (fun _ _ => True) := by
  refine wp_startPagerRequest (fun _ => trivial) (fun _ _ _ => trivial) ?_
  intro pr r rest hreq hr
  have hno₁ : ∀ {k₁}, Grow k k₁ → ∀ r ∈ k₁.requests, r.isSwapout = false := fun hgrow => by
    rw [hgrow.requests]
    exact hno
  refine ⟨fun _ => trivial, fun _ => trivial, fun _ _ => trivial, ?_, fun _ _ _ _ =>
    trivial, ?_, ?_⟩
  · intro k₁ hgrow _ _
    refine (startSwapin_spec (M := M) (b := b)).mono (fun _ k' h => ?_) fun _ _ _ => trivial
    exact hgrow.handled (h.handled (hno₁ hgrow))
  · intro k₁ hlooked _ _ _
    have hgrow := hlooked.grow
    have h₁ : Handled M b k (k₁.restarted pr rest) :=
      hgrow.handled (restarted_handled (hgrow.requests.trans hreq) (hno₁ hgrow))
    exact (hc.pager pr _ h₁.shape).imp fun _ k' h => ⟨h₁.steps.trans h.steps, h.shape⟩
  · intro k₁ hgrow _ _ _ _
    refine (startSwapout_spec (M := M) (b := b)).mono (fun _ k' h => ?_) fun _ _ _ => trivial
    exact hgrow.handled (h.handled (hno₁ hgrow) (hgrow.requestActive.trans hactive))

theorem startRequest_serves (hc : CallsServe M b c) (hs : Shape k) :
    Serves M b (startRequest c) k := by
  unfold startRequest
  rw [Serves, wp_bind, wp_get, wp_bind, wp_assert]
  refine ⟨fun _ => ?_, fun _ => trivial⟩
  rw [wp_bind, wp_assert]
  refine ⟨fun hidle => ?_, fun _ => trivial⟩
  have hidle : k.requestActive = false := by simpa using hidle
  rw [wp_bind]
  refine modify_eq.imp fun _ k₁ h₁ => ?_
  have hpool : k₁.pool = k.pool := by rw [h₁]; rfl
  have hno : ∀ r ∈ k₁.requests, r.isSwapout = false := by rw [h₁]; exact hs.idle hidle
  have hserved : ∀ k', Handled M b k₁ k' → Served M b k k' := fun k' h =>
    ⟨by rw [← hpool]; exact h.steps, h.shape, fun ha => by rw [hidle] at ha; simp at ha⟩
  rw [wp_bind, wp_requestsPeek]
  refine ⟨fun _ => trivial, fun r rest hreq => ?_⟩
  cases r with
  | elfload er =>
    refine (keeps_startElfload idle_messaging k₁).mono (fun _ k' h => hserved k' ?_)
      (fun _ _ _ => trivial)
    exact (h.served (.of_forall hno)).handled
  | swapout pr | swapin pr =>
    exact (startPagerRequest_handles hc hno (by rw [h₁])).imp fun _ k' h => hserved k' h

/-- **The mutual calls serve, however deep they go.** -/
theorem calls_serve (M : Set Nat) (b : Bool) : ∀ n, CallsServe M b (calls n)
  | 0 => ⟨fun _ _ => wp_throw.mpr trivial, fun _ _ _ => wp_throw.mpr trivial⟩
  | n + 1 =>
    ⟨fun _ hs => startRequest_serves (calls_serve M b n) hs,
      fun _ _ hs => pager_serves (calls_serve M b n) hs⟩

/-- Taking off the head, which writes nothing, and going on with the next request. -/
theorem dequeueRequest_handles (hc : CallsServe M b c)
    (hno : ∀ r ∈ k.requests, r.isSwapout = false) :
    Wp (dequeueRequest c) k (fun _ k' => Handled M b k k') (fun _ _ => True) := by
  unfold dequeueRequest
  rw [wp_bind, wp_get, wp_bind, wp_assert]
  refine ⟨fun _ => ?_, fun _ => trivial⟩
  rw [wp_bind]
  refine modify_eq.imp fun _ k₁ h₁ => ?_
  rw [wp_bind]
  refine wp_requestsUnshift (fun _ => trivial) fun r rest hreq k₂ h₂ => ?_
  have hreq₁ : k.requests = r :: rest := by rw [← hreq, h₁]
  have hpool : k₂.pool = k.pool := by
    rw [h₂, pool_unshift hreq (hno r (by rw [hreq₁]; exact List.mem_cons_self ..)), h₁]
    rfl
  have hs₂ : Shape k₂ := .of_forall fun r' hr' => by
    rw [h₂] at hr'
    exact hno r' (by rw [hreq₁]; exact List.mem_cons_of_mem _ hr')
  rw [wp_bind, wp_get, wp_ite]
  refine ⟨fun _ => wp_pure.mpr ⟨by rw [hpool], hs₂⟩, fun _ => ?_⟩
  exact (hc.startRequest k₂ hs₂).imp fun _ k' h => ⟨by rw [← hpool]; exact h.steps, h.shape⟩

end Sos
