import Sos.Queue.Settled

/-!
# Restarted requests

A request that is restarted has left the queue, and nothing is active while it is served although
others may wait. If there are frames for all pages it will get to (`Kernel.framesFor`) it does not
queue again: each page it is given leaves enough frames for the rest (`Reached`). In the end the
queue goes on, or comes to a halt if the process may not have the page.
-/

namespace Sos

open Hoare

variable {k k' k₁ k₂ : Kernel} {c : Calls} {pid : Pid} {pr : PagerRequest} {p q : Process}
variable {r : Region} {M : Set Nat} {a f : Nat} {n : Page} {rest : List Nat}

/-! ## The pages of a copy -/

/-- The copying loop gets to the end of the page or to the end of what is left. -/
theorem copySpan_eq (n a : Nat) : copySpan a n = min n (pageSize - pageOffset a) := by
  induction n generalizing a with
  | zero => simp [copySpan]
  | succ n ih =>
    rw [copySpan, ih]
    unfold pageOffset pageSize
    split <;> omega

/-- A copy that goes on is at the first of its further pages. -/
theorem pagesAhead_next (hcopies : pr.callback.copies = true)
    (hmore : pageSize - pageOffset pr.addr < k.copySize pr.pid - k.copyOffset pr.pid)
    (hsize : k'.copySize pr.pid = k.copySize pr.pid)
    (hoffset : k'.copyOffset pr.pid = k.copyOffset pr.pid + (pageSize - pageOffset pr.addr)) :
    k'.pagesAhead { pr with addr := pageAlign ((pr.addr + pageSize) % wordLimit) } =
      k.furtherPages pr := by
  unfold Kernel.pagesAhead Kernel.furtherPages
  rw [if_pos hcopies]
  dsimp only
  rw [hsize, hoffset, pageOffset_pageAlign]
  generalize k.copySize pr.pid = size at *
  generalize k.copyOffset pr.pid = offset at *
  have hrounds : (size - offset - (pageSize - pageOffset pr.addr) + (pageSize - 1)) / pageSize =
      (size - (offset + (pageSize - pageOffset pr.addr)) - (pageSize - 0) + (pageSize - 1)) /
        pageSize + 1 := by
    unfold pageOffset pageSize at *
    omega
  rw [hrounds, List.range_succ_eq_map, List.map_cons, List.map_map]
  refine List.cons_eq_cons.mpr ⟨?_, List.map_congr_left fun i _ => ?_⟩
  · unfold pageAlign pageSize wordLimit
    omega
  · show _ = (pageAlign pr.addr + (i + 1 + 1) * pageSize) % wordLimit
    unfold pageAlign pageSize wordLimit
    omega

theorem copySize_update {size offset : Nat} (hs : size ≤ copyBufsiz) :
    ({ k with copyInOutData :=
      Function.update k.copyInOutData pid (size + offset * 65536) } : Kernel).copySize pid =
        size := by
  unfold Kernel.copySize loHalf copyBufsiz at *
  dsimp only
  rw [Function.update_self]
  omega

theorem copyOffset_update {size offset : Nat} (hs : size ≤ copyBufsiz) (ho : offset ≤ copyBufsiz) :
    ({ k with copyInOutData :=
      Function.update k.copyInOutData pid (size + offset * 65536) } : Kernel).copyOffset pid =
        offset := by
  unfold Kernel.copyOffset hiHalf copyBufsiz at *
  dsimp only
  rw [Function.update_self]
  omega

/-! ## Frames for the pages ahead -/

theorem hasTable_iff (hp : k.sosProcs pid = .pcb p) :
    k.HasTable pid n ↔ (p.pagetable.pages2 (offset1 n)).isSome := by
  constructor
  · rintro ⟨q, t, hq, ht⟩
    rw [hp] at hq
    injection hq with hq
    subst hq
    rw [ht]
    rfl
  · intro h
    obtain ⟨t, ht⟩ := Option.isSome_iff_exists.mp h
    exact ⟨p, t, hp, ht⟩

theorem pte_of_pcb (hp : k.sosProcs pid = .pcb p) : k.pool.pte pid = p.pagetable.entry := by
  show (k.sosProcs pid).pte = _
  rw [hp]
  rfl

theorem mem_missingTables {i : Fin 1024} {pages : List Nat} :
    i ∈ p.pagetable.missingTables pages ↔
      (∃ a ∈ pages, offset1 (pageNo a) = i) ∧ (p.pagetable.pages2 i).isNone := by
  unfold Pagetable.missingTables
  rw [Finset.mem_filter, List.mem_toFinset, List.mem_map]

/-- A look-up costs a frame only if the second level was missing, and then it is not any more. -/
theorem Looked.frames (h : Looked pid a k k₁) (hp : k.sosProcs pid = .pcb p)
    (hq : k'.sosProcs pid = .pcb q) (htable : ∀ n, k₁.HasTable pid n → k'.HasTable pid n)
    (rest : List Nat) :
    ∃ t, k.freeFrames.length = k₁.freeFrames.length + t ∧
      (q.pagetable.missingTables rest).card + t ≤ (p.pagetable.missingTables (a :: rest)).card := by
  have hmono : ∀ i ∈ q.pagetable.missingTables rest, i ≠ offset1 (pageNo a) ∧
      i ∈ p.pagetable.missingTables (a :: rest) := by
    intro i hi
    obtain ⟨⟨x, hx, rfl⟩, hnone⟩ := mem_missingTables.mp hi
    have hno : ¬ k'.HasTable pid (pageNo x) := by
      rw [hasTable_iff hq, Option.isNone_iff_eq_none.mp hnone]
      simp
    refine ⟨fun he => ?_, mem_missingTables.mpr ⟨⟨x, List.mem_cons_of_mem _ hx, rfl⟩, ?_⟩⟩
    · refine hno ((hasTable_iff hq).mpr ?_)
      rw [he]
      exact (hasTable_iff hq).mp (htable _ h.table)
    · have : ¬ k.HasTable pid (pageNo x) := fun ht => hno (htable _ (h.grow.table _ _ ht))
      rw [hasTable_iff hp] at this
      simpa using this
  cases h with
  | found ht => exact ⟨0, rfl, Finset.card_le_card fun i hi => (hmono i hi).2⟩
  | @made p' f rest' hp' hnone hfree hf =>
    rw [hp] at hp'
    injection hp' with hp'
    subst hp'
    have hmem : offset1 (pageNo a) ∈ p.pagetable.missingTables (a :: rest) :=
      mem_missingTables.mpr ⟨⟨a, List.mem_cons_self .., rfl⟩, by rw [hnone]; rfl⟩
    refine ⟨1, ?_, ?_⟩
    · show k.freeFrames.length = (k.frameTaken rest').freeFrames.length + 1
      simpa using congrArg Multiset.card (freeFrames_frameTaken hfree hf)
    · have hsub : q.pagetable.missingTables rest ⊆
          (p.pagetable.missingTables (a :: rest)).erase (offset1 (pageNo a)) := fun i hi =>
        Finset.mem_erase.mpr (hmono i hi)
      have hcard := Finset.card_le_card hsub
      rw [Finset.card_erase_of_mem hmem] at hcard
      have := Finset.card_pos.mpr ⟨_, hmem⟩
      omega

/-- Whether a page needs a frame. -/
theorem missing_cons :
    p.missing (a :: rest) = p.missing rest + if (p.pagetable.entry (pageNo a)).addr = 0 ∧
      ¬ (p.regions.find? (findRegion a)).any (·.mapDirectly) then 1 else 0 := by
  unfold Process.missing
  rw [List.countP_cons]
  simp only [decide_eq_true_eq]

/-- Giving one page a frame lets no other need one. -/
theorem missing_le (hregions : q.regions = p.regions)
    (haddr : ∀ n, (q.pagetable.entry n).addr = 0 → (p.pagetable.entry n).addr = 0) :
    q.missing rest ≤ p.missing rest := by
  unfold Process.missing
  refine List.countP_mono_left fun x _ hx => ?_
  simp only [decide_eq_true_eq, hregions] at hx ⊢
  exact ⟨haddr _ hx.1, hx.2⟩

/-- The page of the request is there, and what was enough for it and the pages behind it is enough
for those. -/
structure Reached (pr : PagerRequest) (p : Process) (k k' : Kernel) : Prop where
  process : ∃ q, k'.sosProcs pr.pid = .pcb q ∧ q.regions = p.regions ∧
    ∀ rest, k.framesFor p (pr.addr :: rest) → k'.framesFor q rest
  table : k'.HasTable pr.pid (pageNo pr.addr)
  aligned : pageOffset (k'.entryOf pr).addr = 0
  data : k'.copyInOutData = k.copyInOutData

/-- A page that is entered, `d` frames having been taken for it. -/
theorem Asked.reached {d : Nat} (ha : Asked pr k p r k₁)
    (hcore : ∀ pid, (k₂.sosProcs pid).core = (k₁.sosProcs pid).core)
    (hpte : k₂.pool.pte = k₁.pool.pte) (he : Entered pr f k₂ k')
    (hzero : f = 0 → (k.entryOf pr).addr = 0)
    (hneed : ∀ rest, p.missing rest + d ≤ p.missing (pr.addr :: rest))
    (hlimit : k.allocLimit = k₂.allocLimit + d)
    (hfree : k₁.freeFrames.length = k₂.freeFrames.length + d)
    (hdata : k₂.copyInOutData = k.copyInOutData) : Reached pr p k k' := by
  have hrep : Repaged k₁ k' := (Repaged.of_core hcore).trans he.repaged
  obtain ⟨q, hq, hlike⟩ := ((Repaged.of_grow ha.grow).trans hrep).pcb _ _ ha.pcb
  have hentry : ∀ m, q.pagetable.entry m =
      if m = pageNo pr.addr then { addr := f, ref := true } else p.pagetable.entry m := by
    intro m
    rw [← pte_of_pcb hq, he.pool, Pool.setMmu_pte, Pool.pte_setPte, hpte, ha.grow.pte,
      pte_of_pcb ha.pcb]
    simp only [true_and]
  refine ⟨⟨q, hq, hlike.regions, fun rest hfor => ?_⟩, hrep.table _ _ ha.table, ?_, ?_⟩
  · obtain ⟨hswap, hlim, hlen⟩ := hfor
    obtain ⟨t, ht, htables⟩ := ha.looked.frames ha.pcb hq (fun n => hrep.table _ n) rest
    have hmiss : q.missing rest ≤ p.missing rest := by
      refine missing_le hlike.regions fun m hm => ?_
      rw [hentry] at hm
      split at hm
      · next hpage =>
        rw [hpage, ← pte_of_pcb ha.pcb]
        exact hzero hm
      · exact hm
    have hd := hneed rest
    have hl : k'.allocLimit = k₂.allocLimit := by rw [he.rest]
    have hfr : k'.freeFrames = k₂.freeFrames := by rw [he.rest]; rfl
    refine ⟨fun x hx => ?_, by omega, by rw [hfr]; omega⟩
    rw [hentry]
    split
    · rfl
    · exact hswap x (List.mem_cons_of_mem _ hx)
  · have hpage : (k'.entryOf pr).addr = f := by
      show (k'.pool.pte pr.pid (pageNo pr.addr)).addr = f
      rw [pte_of_pcb hq, hentry, if_pos rfl]
    rw [hpage]
    exact he.aligned
  · rw [he.rest]
    exact hdata

theorem granted_of_grants (h : p.Grants pr r) : p.granted pr = true := by
  unfold Process.granted
  rw [h.1]
  simpa using h.2

theorem grantedAhead_of_granted (h : p.granted pr = true) :
    k.grantedAhead p pr = pr.addr :: List.takeWhile (fun a => p.granted { pr with addr := a })
      (if pr.callback.copies then k.furtherPages pr else []) := by
  unfold Kernel.grantedAhead Kernel.pagesAhead
  exact List.takeWhile_cons_of_pos (p := fun a => p.granted { pr with addr := a }) h

theorem pagerAction_restart (hp : k.sosProcs pr.pid = .pcb p)
    (hfor : k.framesFor p (k.grantedAhead p pr)) :
    Wp (pagerAction c pr) k (fun done k' => Steady k k' ∧ (done = false → p.granted pr = false) ∧
      (done = true → p.granted pr = true ∧ Reached pr p k k')) Blamed := by
  have hasked : ∀ {p' r k₁}, Asked pr k p' r k₁ → Asked pr k p r k₁ := fun {p' r k₁} ha => by
    have h := ha.pcb
    rw [hp] at h
    injection h with h
    rw [h]
    exact ha
  -- if the page may be had, the frames are enough for it
  have hahead : ∀ {r k₁}, Asked pr k p r k₁ → ∃ rest, k.framesFor p (pr.addr :: rest) := fun ha =>
    ⟨_, by rw [← grantedAhead_of_granted (granted_of_grants ha.grants)]; exact hfor⟩
  have hentry : k.entryOf pr = p.pagetable.entry (pageNo pr.addr) := congrFun (pte_of_pcb hp) _
  have hneed : ∀ {r k₁}, Asked pr k p r k₁ → (k.entryOf pr).addr = 0 → r.mapDirectly = false →
      ∀ rest, p.missing (pr.addr :: rest) = p.missing rest + 1 := fun ha haddr hdir rest => by
    rw [missing_cons, if_pos ⟨by rw [← hentry]; exact haddr, by rw [ha.grants.1]; simpa using hdir⟩]
  refine wp_pagerAction
    { null := fun h => by simp [hp] at h
      placeholder := fun h => by simp [hp] at h
      delete := fun p' hp' hno => ?_
      noTable := fun _ _ => .unwatched rfl
      swap := fun p' r k₁ ha hswap => ?_
      resident := fun p' r k₁ k' ha _ haddr he => ?_
      direct := fun p' r k₁ k' ha _ haddr _ he => ?_
      wait := fun p' r k₁ ha _ haddr hdir h0 => ?_
      exhausted := fun p' r k₁ k₂ ha _ haddr hdir _ hempty _ => ?_
      fresh := fun p' r k₁ f rest k₂ k' ha _ haddr hdir _ hfree hf hrec he => ?_
      badLimit := fun _ _ => .unwatched rfl
      badEntry := fun _ _ => .unwatched rfl
      badFrame := fun _ _ _ _ _ _ _ => .unwatched rfl }
  · refine (keeps_processDelete steady_deleting pr.pid k).mono
      (fun _ k' h => ⟨h, fun _ => ?_, by simp⟩) fun _ _ h => h.2.blamed
    rw [hp] at hp'
    injection hp' with hp'
    subst hp'
    cases hg : p.granted pr with
    | false => rfl
    | true =>
      obtain ⟨r, hr, hrights⟩ := (Option.any_eq_true _ _).mp hg
      exact absurd ⟨hr, by simpa using hrights⟩ (hno r)
  · obtain ⟨rest, hrest⟩ := hahead (hasked ha)
    have := hrest.1 pr.addr (List.mem_cons_self ..)
    rw [← hentry, hswap] at this
    simp at this
  · have ha := hasked ha
    refine ⟨ha.grow.steady.trans he.steady, by simp, fun _ => ⟨granted_of_grants ha.grants, ?_⟩⟩
    refine ha.reached (d := 0) (fun _ => rfl) rfl he (fun h0 => absurd h0 haddr) (fun rest => ?_)
      (by rw [ha.grow.allocLimit]; simp) rfl (by rw [ha.grow.rest])
    rw [missing_cons]
    omega
  · have ha := hasked ha
    refine ⟨ha.grow.steady.trans he.steady, by simp, fun _ => ⟨granted_of_grants ha.grants, ?_⟩⟩
    refine ha.reached (d := 0) (fun _ => rfl) rfl he (fun _ => haddr) (fun rest => ?_)
      (by rw [ha.grow.allocLimit]; simp) rfl (by rw [ha.grow.rest])
    rw [missing_cons]
    omega
  · have ha := hasked ha
    obtain ⟨rest, -, hlim, -⟩ := hahead ha
    rw [hneed ha haddr hdir rest] at hlim
    omega
  · have ha := hasked ha
    obtain ⟨rest, -, -, hlen⟩ := hahead ha
    obtain ⟨q, hq, -⟩ := (Repaged.of_grow ha.grow).pcb _ _ ha.pcb
    obtain ⟨t, ht, htables⟩ := ha.looked.frames ha.pcb hq (fun _ h => h) rest
    rw [hneed ha haddr hdir rest] at hlen
    rw [hempty] at ht
    simp only [List.length_nil] at ht
    omega
  · have ha := hasked ha
    have hst : Steady k₁ (k₁.frameTaken rest) := ⟨rfl, rfl, rfl, fun _ h => h⟩
    refine ⟨ha.grow.steady.trans (hst.trans (hrec.steady.trans he.steady)), by simp,
      fun _ => ⟨granted_of_grants ha.grants, ?_⟩⟩
    refine ha.reached (d := 1) hrec.core ?_ he (fun h0 => absurd h0 hf)
      (fun rest => (hneed ha haddr hdir rest).ge) ?_ ?_ ?_
    · rw [hrec.pool]
      rfl
    · rw [hrec.rest, ← ha.grow.allocLimit]
      show k₁.allocLimit = k₁.allocLimit - 1 + 1
      omega
    · have hlen := congrArg Multiset.card (freeFrames_frameTaken hfree hf)
      have hk₂ : k₂.freeFrames = (k₁.frameTaken rest).freeFrames := by rw [hrec.rest]; rfl
      rw [hk₂]
      simpa using hlen
    · rw [hrec.rest]
      show k₁.copyInOutData = _
      rw [ha.grow.rest]

/-! ## Going on with a copy -/

/-- What is left when a restarted request has run its callback. -/
abbrev Resumes (M : Set Nat) {α : Type} (m : PagerM α) (k : Kernel) : Prop :=
  Wp m k (fun _ k' => Served M true k k' ∧ Carries k k' ∧ (Settled k' ∨ Paused k')) Blamed

theorem Resumes.of_keeps {α : Type} {m : PagerM α} (hm : Keeps Steady Harmless m)
    (hs : Serves M true m k) (hp : Paused k) : Resumes M m k :=
  (hs.and (hm k)).mono (fun _ _ h => ⟨h.1, h.2.carries, .inr (hp.of_steady h.2)⟩)
    fun _ _ h => h.2.2.blamed

theorem copyFinish_resumes (hc : CallsSettle M c) (hf : Fit k) (hidle : k.requestActive = false)
    (hne : k.requests ≠ []) (hcopies : pr.callback.copies = true)
    (hle : k.copyOffset pr.pid ≤ k.copySize pr.pid) (hq : k.sosProcs pr.pid = .pcb q)
    (hfor : k.framesFor q ((k.furtherPages pr).takeWhile fun a =>
      q.granted { pr with addr := a })) :
    Resumes M (copyFinish c pr (k.copySize pr.pid) (k.copyOffset pr.pid +
      min (k.copySize pr.pid - k.copyOffset pr.pid) (pageSize - pageOffset pr.addr))) k := by
  unfold copyFinish
  rw [Resumes, wp_bind]
  refine modify_eq.imp fun _ k₁ h₁ => ?_
  have hst : Steady k k₁ := by rw [h₁]; exact steady_messaging.buffers k _ _ _
  have hserved : Served M true k k₁ := by
    rw [h₁]
    exact Idle.served ⟨rfl, rfl, rfl, fun _ => rfl, rfl, rfl⟩ hf.shape
  have hafter : ∀ {m : PagerM Unit}, Resumes M m k₁ → Wp m k₁ (fun _ k' => Served M true k k' ∧
      Carries k k' ∧ (Settled k' ∨ Paused k')) Blamed := fun hm =>
    hm.imp fun _ _ h => ⟨hserved.trans h.1, hst.carries.trans h.2.1, h.2.2⟩
  split
  · refine hafter (.of_keeps (keeps_syscallReplyV steady_messaging _ _)
      (.of_keeps (keeps_syscallReplyV idle_messaging _ _) hserved.shape) (.inr ?_))
    rw [hst.requestActive, hst.requests]
    exact ⟨hidle, hne⟩
  · next hmore =>
    have hsize : k.copySize pr.pid ≤ copyBufsiz := min_le_left ..
    have hmore : pageSize - pageOffset pr.addr < k.copySize pr.pid - k.copyOffset pr.pid := by
      by_contra hge
      rw [min_eq_left (by omega)] at hmore
      omega
    have hsize₁ : k₁.copySize pr.pid = k.copySize pr.pid := by rw [h₁]; exact copySize_update hsize
    have hahead := pagesAhead_next hcopies hmore hsize₁ (by
      rw [h₁, copyOffset_update hsize (by omega), min_eq_right hmore.le])
    have hq₁ : k₁.sosProcs pr.pid = .pcb q := by rw [h₁]; exact hq
    have hgo := hc.restart { pr with addr := pageAlign ((pr.addr + pageSize) % wordLimit) } k₁ q
      (hserved.fit hf) (hst.requestActive.trans hidle) (by rw [hst.requests]; exact hne) hq₁
    refine hafter ((hgo ?_ fun _ => ?_).imp fun _ k' h => ⟨h.1, h.2.1, h.2.2.1⟩)
    · unfold Kernel.grantedAhead
      rw [hahead]
      have hk₁ : k₁.allocLimit = k.allocLimit ∧ k₁.freeFrames = k.freeFrames := by
        rw [h₁]
        exact ⟨rfl, rfl⟩
      unfold Kernel.framesFor
      rw [hk₁.1, hk₁.2]
      exact hfor
    · rw [h₁]
      show Kernel.copyOffset _ pr.pid ≤ Kernel.copySize _ pr.pid
      rw [copySize_update hsize, copyOffset_update hsize (by omega)]
      omega

/-- The state in which a restarted request runs its callback. -/
structure Restarted (pr : PagerRequest) (k : Kernel) : Prop where
  fit : Fit k
  requestActive : k.requestActive = false
  requests : k.requests ≠ []
  table : k.HasTable pr.pid (pageNo pr.addr)
  aligned : pageOffset (k.entryOf pr).addr = 0
  copy : pr.callback.copies → k.copyOffset pr.pid ≤ k.copySize pr.pid ∧
    ∃ q, k.sosProcs pr.pid = .pcb q ∧
      k.framesFor q ((k.furtherPages pr).takeWhile fun a => q.granted { pr with addr := a })

theorem Restarted.copySpan_eq (h : Restarted pr k) (n : Nat) :
    copySpan ((k.entryOf pr).addr + pageOffset pr.addr) n =
      min n (pageSize - pageOffset pr.addr) := by
  rw [Sos.copySpan_eq]
  have hal := h.aligned
  unfold pageOffset pageSize at *
  congr 1
  omega

/-- Copying the bytes of the page leaves the rest as it is. -/
theorem Restarted.copied {buf mem : Nat → UInt8} (h : Restarted pr k)
    (hcopies : pr.callback.copies = true) (hc : CallsSettle M c) :
    Wp (copyFinish c pr (k.copySize pr.pid) (k.copyOffset pr.pid +
      min (k.copySize pr.pid - k.copyOffset pr.pid) (pageSize - pageOffset pr.addr)))
      { k with copyInOutBuffer := buf, memory := mem }
      (fun _ k' => Served M true k k' ∧ Carries k k' ∧ (Settled k' ∨ Paused k')) Blamed := by
  obtain ⟨hle, q, hq, hfor⟩ := h.copy hcopies
  have hserved : Served M true k { k with copyInOutBuffer := buf, memory := mem } :=
    Idle.served ⟨rfl, rfl, rfl, fun _ => rfl, rfl, rfl⟩ h.fit.shape
  have hst : Steady k { k with copyInOutBuffer := buf, memory := mem } :=
    steady_messaging.buffers k k.copyInOutData buf mem
  exact (copyFinish_resumes (k := { k with copyInOutBuffer := buf, memory := mem }) hc
    (hserved.fit h.fit) h.requestActive h.requests hcopies hle hq hfor).imp fun _ _ h' =>
      ⟨hserved.trans h'.1, hst.carries.trans h'.2.1, h'.2.2⟩

theorem runCallback_resumes (hc : CallsSettle M c) (h : Restarted pr k) :
    Resumes M (runCallback c pr) k := by
  have htable : k.HasTable pr.pid (pageNo (pageAlign pr.addr)) := by
    rw [pageNo_pageAlign]
    exact h.table
  have hentry : k.pool.pte pr.pid (pageNo (pageAlign pr.addr)) = k.entryOf pr := by
    rw [pageNo_pageAlign]
    rfl
  unfold runCallback
  cases hcb : pr.callback with
  | null => exact wp_throw.mpr (.unwatched rfl)
  | pagerContinue =>
    exact .of_keeps (keeps_pagerContinue steady_messaging pr)
      (.of_keeps (keeps_pagerContinue idle_messaging pr) h.fit.shape)
      (.inr ⟨h.requestActive, h.requests⟩)
  | copyInContinue =>
    dsimp only
    unfold copyInContinue
    rw [Resumes, wp_bind, wp_prepareData_of_hasTable htable]
    refine ⟨fun _ => ?_, fun hoff => absurd (pageOffset_pageAlign _) hoff⟩
    rw [wp_bind, wp_get, wp_bind, wp_lookupEntry_of_hasTable htable, hentry, wp_bind, wp_modify,
      h.copySpan_eq]
    exact h.copied (by rw [hcb]; rfl) hc
  | copyOutContinue =>
    dsimp only
    unfold copyOutContinue
    rw [Resumes, wp_bind, wp_get, wp_bind, wp_lookupEntry_of_hasTable htable, hentry, wp_bind,
      wp_modify, wp_bind, h.copySpan_eq]
    refine (wp_prepareData_of_hasTable ?_).mpr ⟨fun _ => ?_, fun hoff => ?_⟩
    · exact htable
    · exact h.copied (by rw [hcb]; rfl) hc
    · exact absurd (pageOffset_pageAlign _) hoff

/-- **A restarted request is served without queueing again.** -/
theorem pager_restart (hc : CallsSettle M c) (hf : Fit k) (hidle : k.requestActive = false)
    (hne : k.requests ≠ []) (hp : k.sosProcs pr.pid = .pcb p)
    (hfor : k.framesFor p (k.grantedAhead p pr))
    (hcopy : pr.callback.copies → k.copyOffset pr.pid ≤ k.copySize pr.pid) :
    Wp (pager c pr) k (fun _ k' => Served M true k k' ∧ Carries k k' ∧ (Settled k' ∨ Paused k') ∧
      (p.granted pr → Settled k')) Blamed := by
  unfold pager
  rw [wp_bind]
  refine ((pagerAction_serves hc.serves hf.shape).and (pagerAction_restart hp hfor)).mono
    (fun done k₁ h => ?_) fun _ _ h => h.2
  obtain ⟨hserved, hst, hno, hyes⟩ := h
  have hactive₁ : k₁.requestActive = false := hst.requestActive.trans hidle
  have hreq₁ : k₁.requests ≠ [] := by rw [hst.requests]; exact hne
  rw [wp_ite]
  refine ⟨fun hdone => ?_, fun hdone => wp_pure.mpr ⟨hserved, hst.carries, ?_, fun hg => ?_⟩⟩
  · obtain ⟨hg, hreached⟩ := hyes hdone
    obtain ⟨q, hq, hregions, hframes⟩ := hreached.process
    rw [grantedAhead_of_granted hg] at hfor
    have hsame : k₁.copySize = k.copySize ∧ k₁.copyOffset = k.copyOffset ∧
        k₁.furtherPages = k.furtherPages := by
      unfold Kernel.furtherPages Kernel.copySize Kernel.copyOffset
      rw [hreached.data]
      exact ⟨rfl, rfl, rfl⟩
    have hgranted : (fun a => q.granted { pr with addr := a }) =
        fun a => p.granted { pr with addr := a } := by
      funext a
      unfold Process.granted
      rw [hregions]
    have hres : Restarted pr k₁ :=
      { fit := hserved.fit hf
        requestActive := hactive₁
        requests := hreq₁
        table := hreached.table
        aligned := hreached.aligned
        copy := fun hcopies => by
          rw [if_pos hcopies] at hfor
          refine ⟨by rw [hsame.1, hsame.2.1]; exact hcopy hcopies, q, hq, ?_⟩
          rw [hsame.2.2, hgranted]
          exact hframes _ hfor }
    rw [wp_bind]
    refine (runCallback_resumes hc hres).imp fun _ k₂ h₂ => ?_
    refine (resume_settles hc (h₂.1.fit hres.fit) h₂.2.2).imp fun _ k' h' => ?_
    exact ⟨(hserved.trans h₂.1).trans h'.1, (hst.carries.trans h₂.2.1).trans h'.2.1, .inl h'.2.2,
      fun _ => h'.2.2⟩
  · exact .inr (.inr ⟨hactive₁, hreq₁⟩)
  · rw [hno (by simpa using hdone)] at hg
    simp at hg

end Sos
