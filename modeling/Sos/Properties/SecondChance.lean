import Sos.Run
import Sos.Simulation.Swap

/-!
# The second-chance choice of a victim

`deleteAllocList` goes through the recorded pages from the front of the list. A page that has been
referenced gets a second chance: its reference bit is cleared, it is unmapped and goes to the back.
The first page that has not been referenced is the victim. After a full turn no bit is set, so the
scan ends at the latest where it began.
-/

namespace Sos

open Hoare

variable {k k' : Kernel} {E : Fault → Kernel → Prop} {n : Nat} {found : Pid × Nat}
variable {rest : List (Pid × Nat)}

/-- The reference bit of a recorded page. -/
def Kernel.referenced (k : Kernel) (x : Pid × Nat) : Bool :=
  ((k.sosProcs x.1).pte (pageNo x.2)).ref

/-- The page a record names. -/
def recordPage (x : Pid × Nat) : Pid × Page := (x.1, pageNo x.2)

/-- The records are distinct pages of live processes, and each of them has an entry or can be given
one. -/
structure Kernel.Sweepable (k : Kernel) : Prop where
  live : ∀ x ∈ k.alloced, (k.sosProcs x.1).live = true
  aligned : ∀ x ∈ k.alloced, pageOffset x.2 = 0
  distinct : (k.alloced.map recordPage).Nodup
  entries : ∀ x ∈ k.alloced, k.HasTable x.1 (pageNo x.2) ∨ k.freeFrames ≠ []

/-- The pages in `skipped` have been given their second chance; nothing else has changed in entries
and mappings. -/
structure Spared (skipped : List (Pid × Nat)) (k k' : Kernel) : Prop where
  pte : ∀ pid m, (k'.sosProcs pid).pte m =
    if (pid, m) ∈ skipped.map recordPage then { (k.sosProcs pid).pte m with ref := false }
    else (k.sosProcs pid).pte m
  mmu : ∀ pid m, k'.mmu pid m = if (pid, m) ∈ skipped.map recordPage then none else k.mmu pid m

theorem Spared.refl (hpte : k'.pool.pte = k.pool.pte) (hmmu : k'.mmu = k.mmu) : Spared [] k k' where
  pte := fun pid m => by
    rw [if_neg (by simp)]
    exact congrFun (congrFun hpte pid) m
  mmu := fun pid m => by simp [hmmu]

theorem Spared.cons {k₁ : Kernel} {x : Pid × Nat} {l : List (Pid × Nat)} (h : Spared [x] k k₁)
    (h' : Spared l k₁ k') : Spared (x :: l) k k' where
  pte := fun pid m => by
    rw [h'.pte, h.pte]
    by_cases hx : (pid, m) = recordPage x <;> by_cases hl : (pid, m) ∈ l.map recordPage <;>
      simp [hx, hl]
  mmu := fun pid m => by
    rw [h'.mmu, h.mmu]
    by_cases hx : (pid, m) = recordPage x <;> by_cases hl : (pid, m) ∈ l.map recordPage <;>
      simp [hx, hl]

/-- Pages other than the ones skipped keep their bits. -/
theorem Spared.referenced {l : List (Pid × Nat)} {x : Pid × Nat} (h : Spared l k k') :
    k'.referenced x = (k.referenced x && !decide (recordPage x ∈ l.map recordPage)) := by
  unfold Kernel.referenced
  rw [h.pte, show (x.1, pageNo x.2) = recordPage x from rfl]
  split
  · next hx => simp [hx]
  · next hx => simp [hx]

/-! ## One turn of the loop -/

/-- A page that has been referenced has a table. -/
theorem Kernel.hasTable_of_referenced (h : k.referenced found = true) :
    k.HasTable found.1 (pageNo found.2) := by
  unfold Kernel.referenced at h
  cases hs : k.sosProcs found.1 with
  | null | placeholder => simp [hs, Slot.pte, Slot.pcb?] at h
  | pcb p =>
    rw [hs] at h
    cases ht : p.pagetable.pages2 (offset1 (pageNo found.2)) with
    | none => simp [Slot.pte, Pagetable.entry, ht] at h
    | some t => exact ⟨p, t, hs, ht⟩

/-- The head of the list has gone to the back with its second chance. -/
structure Rotated (found : Pid × Nat) (rest : List (Pid × Nat)) (k k' : Kernel) : Prop where
  alloced : k'.alloced = rest ++ [found]
  spared : Spared [found] k k'
  live : ∀ pid, (k'.sosProcs pid).live = (k.sosProcs pid).live
  table : ∀ pid m, k.HasTable pid m → k'.HasTable pid m
  freeFrames : k'.freeFrames = k.freeFrames

theorem Kernel.Sweepable.rotated (h : k.Sweepable) (hrest : k.alloced = found :: rest)
    (hr : Rotated found rest k k') : k'.Sweepable := by
  have hperm : k'.alloced.Perm k.alloced := by
    rw [hr.alloced, hrest]
    exact List.perm_append_singleton found rest
  exact
    { live := fun x hx => (hr.live x.1).trans (h.live x (hperm.mem_iff.mp hx))
      aligned := fun x hx => h.aligned x (hperm.mem_iff.mp hx)
      distinct := (hperm.map recordPage).nodup_iff.mpr h.distinct
      entries := fun x hx => by
        rw [hr.freeFrames]
        exact (h.entries x (hperm.mem_iff.mp hx)).imp_left (hr.table _ _) }

/-- One turn ends the loop at a page that has not been referenced, and rotates the list at one that
has. -/
theorem wp_deleteAllocListLoop {Q : Pid × Nat → Kernel → Prop} (h : k.Sweepable)
    (hrest : k.alloced = found :: rest)
    (hfound : k.referenced found = false → ∀ k', k'.alloced = rest → Spared [] k k' → Q found k')
    (hnext : k.referenced found = true → ∀ k', Rotated found rest k k' →
      Wp (deleteAllocListLoop n) k' Q E) :
    Wp (deleteAllocListLoop (n + 1)) k Q E := by
  have hmem : found ∈ k.alloced := by
    rw [hrest]
    exact List.mem_cons_self
  obtain ⟨p, hp⟩ := Slot.exists_pcb_of_live (h.live found hmem)
  unfold deleteAllocListLoop
  rw [wp_bind, wp_get, hrest]
  simp only [wp_bind]
  refine modify_eq.imp fun _ k₁ h₁ => ?_
  have hprocs : k₁.sosProcs = k.sosProcs := by rw [h₁]
  have hp₁ : k₁.sosProcs found.1 = .pcb p := by rw [hprocs, hp]
  have hpte₁ : k₁.pool.pte = k.pool.pte := by rw [h₁]; rfl
  have htable₁ : ∀ pid m, k.HasTable pid m → k₁.HasTable pid m := by
    unfold Kernel.HasTable
    rw [hprocs]
    exact fun _ _ h => h
  have hentry : (k₁.pool.pte found.1 (pageNo found.2)).ref = k.referenced found := by
    rw [hpte₁]
    rfl
  rw [wp_get, wp_assert, hp₁]
  refine ⟨fun _ => ?_, fun hfalse => by simp at hfalse⟩
  cases href : k.referenced found with
  | false =>
    refine wp_lookupEntry (fun hnull => by simp [hp₁] at hnull)
      (fun hplace => by simp [hp₁] at hplace) (fun hfull hno _ => ?_) fun k₂ hgrow _ => ?_
    · rcases h.entries found hmem with ht | hfree
      · exact absurd (htable₁ _ _ ht) hno
      · refine absurd hfull ?_
        rw [h₁]
        exact hfree
    · rw [if_pos (hentry.trans href)]
      refine wp_pure.mpr (hfound href k₂ (by rw [hgrow.alloced, h₁]) (.refl ?_ ?_))
      · rw [hgrow.pte, hpte₁]
      · rw [hgrow.rest, h₁]
  | true =>
    have htable := htable₁ _ _ (Kernel.hasTable_of_referenced href)
    rw [wp_lookupEntry_of_hasTable htable, if_neg (by rw [hentry, href]; simp)]
    simp only [wp_bind]
    refine wp_setEntry fun k₂ h₂ => ?_
    refine wp_unmapPage (fun hodd => absurd (h.aligned found hmem) hodd) fun _ k₃ h₃ => ?_
    refine modify_eq.imp fun _ k₄ h₄ => hnext href k₄ ?_
    have hrest₂ : k₂ = { k₁ with sosProcs := k₂.sosProcs } := by
      rw [h₂]
      exact updProcess_rest
    have hprocs₄ : k₄.sosProcs = k₂.sosProcs := by rw [h₄, h₃]
    have hpool₂ : k₂.pool = k₁.pool.setPte found.1 (pageNo found.2)
        { k₁.pool.pte found.1 (pageNo found.2) with ref := false } := by
      rw [h₂, pool_setEntry htable]
    refine ⟨by rw [h₄, h₃, hrest₂, h₁], ⟨fun pid m => ?_, fun pid m => ?_⟩, fun pid => ?_,
      fun pid m ht => ?_, by rw [h₄, h₃, hrest₂, h₁]; rfl⟩
    · have hentry₄ : (k₄.sosProcs pid).pte m = k₂.pool.pte pid m := by
        rw [hprocs₄]
        rfl
      rw [hentry₄, hpool₂, Pool.pte_setPte, hpte₁]
      simp only [List.map_cons, List.map_nil, List.mem_singleton, recordPage, Prod.mk.injEq]
      split
      · next heq =>
        obtain ⟨rfl, rfl⟩ := heq
        rfl
      · rfl
    · have hmmu : k₄.mmu = Function.update k.mmu found.1
          (Function.update (k.mmu found.1) (pageNo found.2) none) := by
        rw [h₄, h₃, hrest₂, h₁]
      rw [hmmu]
      simp only [List.map_cons, List.map_nil, List.mem_singleton, recordPage, Prod.mk.injEq]
      by_cases hpid : pid = found.1
      · subst hpid
        by_cases hm : m = pageNo found.2
        · simp [hm]
        · simp [hm]
      · rw [Function.update_of_ne hpid, if_neg fun heq => hpid heq.1]
    · have hlive₂ : k₂.pool.live = k₁.pool.live := by rw [hpool₂, Pool.setPte_live]
      rw [hprocs₄, ← hprocs]
      exact congrFun hlive₂ pid
    · have ht₂ : k₂.HasTable pid m := by
        rw [h₂]
        exact HasTable.setEntry (htable₁ pid m ht)
      unfold Kernel.HasTable at ht₂ ⊢
      rw [hprocs₄]
      exact ht₂

/-! ## The loop -/

theorem takeWhile_dropWhile_congr {α : Type} {p q : α → Bool} :
    ∀ {l : List α}, (∀ x ∈ l, p x = q x) →
      l.takeWhile p = l.takeWhile q ∧ l.dropWhile p = l.dropWhile q
  | [], _ => ⟨rfl, rfl⟩
  | a :: l, h => by
    obtain ⟨ht, hd⟩ := takeWhile_dropWhile_congr fun x hx => h x (List.mem_cons_of_mem a hx)
    rw [List.takeWhile_cons, List.takeWhile_cons, List.dropWhile_cons, List.dropWhile_cons,
      h a List.mem_cons_self, ht, hd]
    exact ⟨rfl, rfl⟩

/-- The scan of the pages `l` that have not been looked at, with those in `s` already rotated. -/
structure Swept (k : Kernel) (l s : List (Pid × Nat)) (victim : Pid × Nat) (k' : Kernel) :
    Prop where
  order : l.dropWhile k.referenced ++ (s ++ l.takeWhile k.referenced) = victim :: k'.alloced
  spared : Spared (l.takeWhile k.referenced) k k'

theorem deleteAllocListLoop_sweeps : ∀ (l s : List (Pid × Nat)) (n : Nat) (k : Kernel),
    k.Sweepable → k.alloced = l ++ s → l ++ s ≠ [] → l.length < n →
      (∀ x ∈ s, k.referenced x = false) →
      Wp (deleteAllocListLoop n) k (Swept k l s) fun _ _ => False
  | [], s, n + 1, k, h, hall, hne, _, hclear => by
    obtain ⟨found, rest, rfl⟩ := List.exists_cons_of_ne_nil hne
    refine wp_deleteAllocListLoop h hall (fun _ k' hrest hsp => ?_) fun href => ?_
    · exact ⟨by simp [hrest], hsp⟩
    · rw [hclear found List.mem_cons_self] at href
      simp at href
  | found :: l, s, n + 1, k, h, hall, _, hlen, hclear => by
    have hall : k.alloced = found :: (l ++ s) := hall
    refine wp_deleteAllocListLoop h hall (fun href k' hrest hsp => ?_) fun href k₁ hrot => ?_
    · refine ⟨?_, ?_⟩
      · simp [href, hrest]
      · rw [List.takeWhile_cons_of_neg (by simp [href])]
        exact hsp
    · -- the pages not yet looked at are others than `found`, so their bits are as they were
      have hdistinct := h.distinct
      rw [hall, List.map_cons, List.nodup_cons] at hdistinct
      have hbits : ∀ x ∈ l, k₁.referenced x = k.referenced x := by
        intro x hx
        rw [hrot.spared.referenced]
        have hout : recordPage x ≠ recordPage found := fun heq =>
          hdistinct.1 (heq ▸ List.mem_map_of_mem (List.mem_append_left s hx))
        simp [hout]
      obtain ⟨htake, hdrop⟩ := takeWhile_dropWhile_congr hbits
      have hclear₁ : ∀ x ∈ s ++ [found], k₁.referenced x = false := by
        intro x hx
        rw [hrot.spared.referenced]
        rcases List.mem_append.mp hx with hx | hx
        · simp [hclear x hx]
        · simp [List.mem_singleton.mp hx]
      refine (deleteAllocListLoop_sweeps l (s ++ [found]) n k₁ (h.rotated hall hrot)
        (by rw [hrot.alloced, List.append_assoc]) (by simp) (by simpa using hlen) hclear₁).imp
        fun victim k' hswept => ⟨?_, ?_⟩
      · have horder := hswept.order
        rw [htake, hdrop, List.append_assoc] at horder
        rw [List.dropWhile_cons_of_pos href, List.takeWhile_cons_of_pos href]
        exact horder
      · rw [List.takeWhile_cons_of_pos href]
        refine hrot.spared.cons ?_
        rw [← htake]
        exact hswept.spared

/-- What `deleteAllocList` is meant to do. The records up to the first page that has not been
referenced go to the back in their order, and the record at the front is the victim: the first page
that has not been referenced, or the first of all if there is none. -/
structure SecondChance (k : Kernel) (victim : Pid × Nat) (k' : Kernel) : Prop where
  chosen : k.alloced.find? (fun x => !k.referenced x) = some victim ∨
    (∀ x ∈ k.alloced, k.referenced x = true) ∧ k.alloced.head? = some victim
  order : k.alloced.dropWhile k.referenced ++ k.alloced.takeWhile k.referenced =
    victim :: k'.alloced
  spared : Spared (k.alloced.takeWhile k.referenced) k k'

theorem Swept.secondChance {victim : Pid × Nat} (h : Swept k k.alloced [] victim k') :
    SecondChance k victim k' := by
  have horder := h.order
  rw [List.nil_append] at horder
  refine ⟨?_, horder, h.spared⟩
  have hfind : (k.alloced.dropWhile k.referenced).head? =
      k.alloced.find? fun x => !k.referenced x := by
    simpa using (List.find?_eq_head?_dropWhile_not (fun x => !k.referenced x) k.alloced).symm
  cases hdrop : k.alloced.dropWhile k.referenced with
  | nil =>
    have hall : ∀ x ∈ k.alloced, k.referenced x = true := List.dropWhile_eq_nil_iff.mp hdrop
    rw [hdrop, List.nil_append, List.takeWhile_eq_self_iff.mpr hall] at horder
    exact .inr ⟨hall, by rw [horder, List.head?_cons]⟩
  | cons v rest =>
    rw [hdrop, List.cons_append] at horder
    rw [← hfind, hdrop, List.head?_cons, (List.cons.inj horder).1]
    exact .inl rfl

/-- **Second-chance replacement.** Where the records are distinct pages of live processes, the loop
ends within one turn more than there are records, and does what it is meant to do. -/
theorem deleteAllocList_secondChance (hne : k.alloced ≠ []) (h : k.Sweepable) :
    (∃ victim k', deleteAllocList k = .ok victim k' ∧ SecondChance k victim k') ∧
      ∀ n, k.alloced.length < n →
        ∃ victim k', deleteAllocListLoop n k = .ok victim k' ∧ SecondChance k victim k' := by
  have hloop : ∀ n, k.alloced.length < n →
      Wp (deleteAllocListLoop n) k (SecondChance k) fun _ _ => False := fun n hn =>
    (deleteAllocListLoop_sweeps k.alloced [] n k h (List.append_nil _).symm
      (by simpa using hne) hn (by simp)).imp fun _ _ hswept => hswept.secondChance
  refine ⟨?_, fun n hn => (hloop n hn).returns⟩
  have hlist : Wp deleteAllocList k (SecondChance k) fun _ _ => False := by
    unfold deleteAllocList
    rw [wp_bind, wp_get, wp_bind, wp_assert]
    exact ⟨fun _ => hloop _ (Nat.lt_succ_self _), fun hempty => hne (by simpa using hempty)⟩
  exact hlist.returns

/-- Two processes have touched three pages, all of them referenced. -/
theorem deleteAllocList_secondChance_threePages :
    ∃ k victim k', Reachable (coldFrames 12) (fun _ _ => True) k ∧
      k.alloced = [(2, 0x10000), (3, 0x10000), (2, 0x11000)] ∧
      deleteAllocList k = .ok victim k' ∧ victim = (2, 0x10000) ∧
      k'.alloced = [(3, 0x10000), (2, 0x11000)] := by
  obtain ⟨k, hr, hobs⟩ := reachable_of_run 12 20 [[appRegion], [appRegion]] (fun _ _ => True)
    threePagesRun (fun k => (k.alloced, k.alloced.map k.referenced,
      k.alloced.map fun x => (k.sosProcs x.1).live, k.freeFrames.isEmpty))
    (v := ([(2, 0x10000), (3, 0x10000), (2, 0x11000)], [true, true, true],
      [true, true, true], false))
    (by decide) (by decide +kernel)
  simp only [Prod.mk.injEq] at hobs
  obtain ⟨hall, href, hlive, hfree⟩ := hobs
  have hsweep : k.Sweepable :=
    { live := fun x hx => by
        have hmem : (k.sosProcs x.1).live ∈ [true, true, true] := hlive ▸ List.mem_map_of_mem hx
        simpa using hmem
      aligned := by rw [hall]; decide
      distinct := by rw [hall]; decide
      entries := fun _ _ => .inr (by simpa using hfree) }
  obtain ⟨⟨victim, k', hrun, hsecond⟩, -⟩ := deleteAllocList_secondChance (by simp [hall]) hsweep
  have hbits : ∀ x ∈ k.alloced, k.referenced x = true := fun x hx => by
    have hmem : k.referenced x ∈ [true, true, true] := href ▸ List.mem_map_of_mem hx
    simpa using hmem
  have horder := hsecond.order
  rw [List.dropWhile_eq_nil_iff.mpr hbits, List.takeWhile_eq_self_iff.mpr hbits, hall] at horder
  obtain ⟨hvictim, hrest⟩ := List.cons.inj horder
  exact ⟨k, victim, k', hr, hall, hrun, hvictim.symm, hrest.symm⟩

end Sos
