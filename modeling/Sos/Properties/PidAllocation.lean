import Sos.Effects
import Sos.Run
import Mathlib.Order.Bounds.Basic

/-!
# The allocation of pids

`getNextPid` goes round the process table from `nextPid` on and takes the first empty slot. That
this is the lowest free pid depends on `nextPid` never being above an empty slot: it is left at the
pid found, and `process_kill` moves it back to a pid that is about to be given up.
-/

namespace Sos

open Hoare

variable {k k' : Kernel} {pid : Pid}

/-! ## The loop -/

/-- The loop of `getNextPid`, without a bound on its rounds: from `nextPid` and `firstIteration` it
ends at a pid. It looks only at slots of the table. -/
inductive NextPidLoop (k : Kernel) (oldPid : Nat) : Nat → Bool → Pid → Prop
  | free {next first} (h : next < 256) : k.sosProcs ⟨next, h⟩ = .null →
      NextPidLoop k oldPid next first ⟨next, h⟩
  | back {next} (h : next < 256) : k.sosProcs ⟨next, h⟩ ≠ .null → oldPid = next →
      NextPidLoop k oldPid next false ⟨next, h⟩
  | round {next first pid} (h : next < 256) : k.sosProcs ⟨next, h⟩ ≠ .null →
      ¬ (first = false ∧ oldPid = next) →
      NextPidLoop k oldPid (if 256 ≤ next + 1 then k.tidOffset else next + 1) false pid →
      NextPidLoop k oldPid next first pid

/-- The loop ends. Above `oldPid` it has the rest of the table and the slots up to `oldPid` still to
go through, below it only the latter. -/
theorem nextPidLoop_getNextPidLoop {oldPid : Pid} (hold : k.tidOffset ≤ oldPid) :
    ∀ (n : Nat) (next : Pid) (first : Bool),
      ((first = true ∧ oldPid.val = next.val ∨ oldPid.val < next.val) ∧
          256 - next.val + (oldPid.val - k.tidOffset.val) < n ∨
        first = false ∧ next.val ≤ oldPid.val ∧ oldPid.val - next.val < n) →
      NextPidLoop k oldPid next first (getNextPidLoop k oldPid n next first)
  | 0, next, first, hn => by omega
  | n + 1, next, first, hn => by
    unfold getNextPidLoop
    split
    · next hnull => exact .free next.isLt hnull
    · next hoccupied =>
      split
      · next hback =>
        simp only [Bool.and_eq_true, Bool.not_eq_true', beq_iff_eq] at hback
        obtain ⟨rfl, rfl⟩ := hback
        exact .back _ hoccupied rfl
      · next hgo =>
        simp only [Bool.and_eq_true, Bool.not_eq_true', beq_iff_eq] at hgo
        have hgo' : ¬ (first = false ∧ oldPid.val = next.val) := fun h => hgo ⟨h.1, Fin.ext h.2⟩
        refine .round next.isLt hoccupied hgo' ?_
        dsimp only
        by_cases hend : next.val + 1 < 256
        · rw [if_neg (by omega), dif_pos hend]
          refine nextPidLoop_getNextPidLoop hold n ⟨next.val + 1, hend⟩ false ?_
          rcases hn with ⟨hahead, hn⟩ | ⟨hfirst, hle, hn⟩
          · have hle : oldPid.val ≤ next.val := by omega
            exact .inl ⟨.inr (Nat.lt_succ_of_le hle), by dsimp only; omega⟩
          · have hne : oldPid.val ≠ next.val := fun h => hgo' ⟨hfirst, h⟩
            exact .inr ⟨rfl, by dsimp only; omega, by dsimp only; omega⟩
        · rw [if_pos (by omega), dif_neg hend]
          refine nextPidLoop_getNextPidLoop hold n k.tidOffset false (.inr ⟨rfl, hold, ?_⟩)
          rcases hn with ⟨-, hn⟩ | ⟨hfirst, hle, hn⟩
          · omega
          · exact absurd ⟨hfirst, by omega⟩ hgo'

/-! ## The lowest free pid -/

/-- The pids that can be given to a process. -/
def Kernel.freePids (k : Kernel) : Set Pid := { pid | k.tidOffset ≤ pid ∧ k.sosProcs pid = .null }

/-- There is no empty slot below `nextPid`, which is one of the pids that can be given. -/
structure Kernel.Packed (k : Kernel) : Prop where
  tidOffset_le : k.tidOffset ≤ k.nextPid
  occupied : ∀ pid, k.tidOffset ≤ pid → pid < k.nextPid → k.sosProcs pid ≠ .null

/-- How far the search has come: no empty slot below `next`, and if it has gone round the table
there is none at all. -/
structure Searched (k : Kernel) (oldPid next : Nat) (first : Bool) : Prop where
  tidOffset_le : k.tidOffset.val ≤ next
  occupied : ∀ pid : Pid, k.tidOffset ≤ pid → pid.val < next → k.sosProcs pid ≠ .null
  ahead : first = true ∧ oldPid = next ∨ oldPid < next ∨ k.freePids = ∅

/-- The search ends at the lowest free pid, or where it began if there is none. -/
theorem NextPidLoop.found {oldPid next : Nat} {first : Bool}
    (h : NextPidLoop k oldPid next first pid) (hs : Searched k oldPid next first) :
    IsLeast k.freePids pid ∨ k.freePids = ∅ ∧ pid.val = oldPid ∧ k.sosProcs pid ≠ .null := by
  induction h with
  | @free next first h hnull =>
    refine .inl ⟨⟨hs.tidOffset_le, hnull⟩, fun pid hpid => ?_⟩
    rcases Nat.lt_or_ge pid.val next with hlt | hge
    · exact absurd hpid.2 (hs.occupied pid hpid.1 hlt)
    · exact hge
  | @back next h hoccupied hback =>
    rcases hs.ahead with hfirst | hahead | hnone
    · simp at hfirst
    · omega
    · exact .inr ⟨hnone, hback.symm, hoccupied⟩
  | @round next first pid h hoccupied _ _ ih =>
    -- one more slot is known to be taken; behind the last one it is all of them
    have hnext : ∀ pid : Pid, k.tidOffset ≤ pid → pid.val < next + 1 → k.sosProcs pid ≠ .null := by
      intro pid hpid hlt
      rcases Nat.lt_succ_iff_lt_or_eq.mp hlt with hlt | rfl
      · exact hs.occupied pid hpid hlt
      · exact hoccupied
    apply ih
    split
    · next hend =>
      refine ⟨le_refl _, fun pid hpid hlt => absurd hpid (Nat.not_le.mpr hlt), .inr (.inr ?_)⟩
      exact Set.eq_empty_iff_forall_notMem.mpr fun pid hpid =>
        hnext pid hpid.1 (by omega) hpid.2
    · refine ⟨Nat.le_succ_of_le hs.tidOffset_le, hnext, .inr ?_⟩
      rcases hs.ahead with ⟨-, rfl⟩ | hahead | hnone
      · exact .inl (Nat.lt_succ_self _)
      · exact .inl (Nat.lt_succ_of_lt hahead)
      · exact .inr hnone

theorem Kernel.Packed.searched (h : k.Packed) : Searched k k.nextPid k.nextPid true :=
  ⟨h.tidOffset_le, h.occupied, .inl ⟨rfl, rfl⟩⟩

/-- What `getNextPid` does: its loop ends, and it returns the lowest free pid, or `NIL_PID` if and
only if there is none. -/
structure Kernel.FindsPid (k : Kernel) : Prop where
  ends : ∃ pid, NextPidLoop k k.nextPid k.nextPid true pid
  lowest : ∀ pid, getNextPid k = .ok (some pid) { k with nextPid := pid } ↔ IsLeast k.freePids pid
  nil : getNextPid k = .ok none k ↔ k.freePids = ∅

/-- The pid at which the loop ends. -/
def Kernel.foundPid (k : Kernel) : Pid := getNextPidLoop k k.nextPid 257 k.nextPid true

theorem getNextPid_of_null (h : k.sosProcs k.foundPid = .null) :
    getNextPid k = .ok (some k.foundPid) { k with nextPid := k.foundPid } := by
  have hrun : Returns getNextPid k (some k.foundPid) { k with nextPid := k.foundPid } := by
    unfold getNextPid
    unfold Kernel.foundPid at h
    rw [Returns, wp_bind, wp_get, wp_bind, wp_set, h]
    exact wp_pure.mpr ⟨rfl, rfl⟩
  exact hrun.run

theorem getNextPid_of_ne_null (h : k.sosProcs k.foundPid ≠ .null) :
    getNextPid k = .ok none { k with nextPid := k.foundPid } := by
  have hrun : Returns getNextPid k none { k with nextPid := k.foundPid } := by
    unfold getNextPid
    rw [Returns, wp_bind, wp_get, wp_bind, wp_set]
    split
    · next hnull => exact absurd hnull h
    · exact wp_pure.mpr ⟨rfl, rfl⟩
  exact hrun.run

theorem Kernel.Packed.foundPid (h : k.Packed) :
    NextPidLoop k k.nextPid k.nextPid true k.foundPid ∧
      (IsLeast k.freePids k.foundPid ∧
          getNextPid k = .ok (some k.foundPid) { k with nextPid := k.foundPid } ∨
        k.freePids = ∅ ∧ getNextPid k = .ok none k) := by
  have hloop : NextPidLoop k k.nextPid k.nextPid true k.foundPid :=
    nextPidLoop_getNextPidLoop h.tidOffset_le 257 k.nextPid true
      (.inl ⟨.inl ⟨rfl, rfl⟩, by omega⟩)
  refine ⟨hloop, ?_⟩
  rcases hloop.found h.searched with hleast | ⟨hnone, hback, hoccupied⟩
  · exact .inl ⟨hleast, getNextPid_of_null hleast.1.2⟩
  · refine .inr ⟨hnone, ?_⟩
    rw [getNextPid_of_ne_null hoccupied, Fin.ext hback]

theorem Kernel.Packed.findsPid (h : k.Packed) : k.FindsPid := by
  obtain ⟨hloop, hfound⟩ := h.foundPid
  refine ⟨⟨_, hloop⟩, fun pid => ?_, ?_⟩
  · rcases hfound with ⟨hleast, hrun⟩ | ⟨hnone, hrun⟩
    · rw [hrun]
      constructor
      · intro heq
        injection heq with heq
        obtain rfl := Option.some.inj heq
        exact hleast
      · intro h'
        rw [hleast.unique h']
    · rw [hrun]
      refine iff_of_false (by simp) fun h' => ?_
      rw [hnone] at h'
      exact h'.1
  · rcases hfound with ⟨hleast, hrun⟩ | ⟨hnone, hrun⟩
    · rw [hrun]
      refine iff_of_false (by simp) fun hnone => ?_
      rw [hnone] at hleast
      exact hleast.1
    · exact iff_of_true hrun hnone

/-! ## Runs -/

/-- Neither `nextPid` nor which slots are empty has changed. -/
structure SamePids (k k' : Kernel) : Prop where
  null_iff : ∀ pid, k'.sosProcs pid = .null ↔ k.sosProcs pid = .null
  nextPid : k'.nextPid = k.nextPid
  tidOffset : k'.tidOffset = k.tidOffset

/-- The states that follow the first `process_init`, with the pids that have been killed but not yet
removed. No pid is looked for between `process_kill` and `process_remove`: `processDelete` does
both. -/
inductive PidRun : Kernel → List Pid → Prop
  | init {k : Kernel} : k.nextPid = k.tidOffset → PidRun k []
  | reserve {k k' : Kernel} {o} : PidRun k [] → reservePid k = .ok o k' → PidRun k' []
  | prepare {k k' : Kernel} {dying} {pid : Pid} {p fdout fderr fdin} : PidRun k dying →
      processPrepare2 pid p fdout fderr fdin k = .ok () k' → PidRun k' dying
  | prepareNil {k k₁ k' : Kernel} {pid : Pid} {p fdout fderr fdin} : PidRun k [] →
      getNextPid k = .ok (some pid) k₁ → processPrepare2 pid p fdout fderr fdin k₁ = .ok () k' →
      PidRun k' []
  | kill {k k' : Kernel} {dying} {pid : Pid} {p} : PidRun k dying → k.sosProcs pid = .pcb p →
      processKill pid p k = .ok true k' → PidRun k' (pid :: dying)
  | remove {k k' : Kernel} {dying} {pid : Pid} : PidRun k dying → pid ∈ dying →
      processRemove pid k = .ok () k' → PidRun k' (dying.erase pid)
  | other {k k' : Kernel} {dying} : PidRun k dying → SamePids k k' → PidRun k' dying

/-! ## What else the pager does -/

theorem SamePids.of_eq (hslots : k'.sosProcs = k.sosProcs) (hnext : k'.nextPid = k.nextPid)
    (htid : k'.tidOffset = k.tidOffset) : SamePids k k' :=
  ⟨fun pid => by rw [hslots], hnext, htid⟩

theorem SamePids.trans {k'' : Kernel} (h : SamePids k k') (h' : SamePids k' k'') : SamePids k k'' :=
  ⟨fun pid => (h'.null_iff pid).trans (h.null_iff pid), h'.nextPid.trans h.nextPid,
    h'.tidOffset.trans h.tidOffset⟩

theorem samePids_updProcess {g : Process → Process} : SamePids k (k.updProcess pid g) := by
  unfold Kernel.updProcess
  split
  · next p hp =>
    refine ⟨fun pid' => ?_, rfl, rfl⟩
    by_cases heq : pid' = pid
    · rw [heq, setSlot_self, hp]
      simp
    · rw [setSlot_of_ne heq]
  · exact .of_eq rfl rfl rfl

theorem samePids_cleaning : Cleaning SamePids fun _ => True where
  refl _ := .of_eq rfl rfl rfl
  trans := SamePids.trans
  fault _ _ := trivial
  buffers _ _ _ _ := .of_eq rfl rfl rfl
  calls _ _ _ := .of_eq rfl rfl rfl
  reply _ _ := .of_eq rfl rfl rfl
  pcb _ _ _ _ _ _ := samePids_updProcess
  plain {k k'} h := by
    unfold Plain at h
    rw [h]
    exact .of_eq rfl rfl rfl
  pages _ _ _ _ := samePids_updProcess
  forget _ _ := .of_eq rfl rfl rfl

theorem processKill_run (k : Kernel) (pid : Pid) (p : Process) :
    (∃ k', processKill pid p k = .ok true k') ∨ processKill pid p k = .ok false k := by
  have hwp : Wp (processKill pid p) k (fun killed k' => killed = true ∨ killed = false ∧ k' = k)
      fun _ _ => False := by
    unfold processKill
    rw [wp_bind, wp_get, wp_ite]
    refine ⟨fun _ => ?_, fun _ => wp_pure.mpr (.inr ⟨rfl, rfl⟩)⟩
    rw [wp_bind, wp_set]
    exact wp_pure.mpr (.inl rfl)
  obtain ⟨killed, k', hrun, rfl | ⟨rfl, rfl⟩⟩ := hwp.returns
  · exact .inl ⟨k', hrun⟩
  · exact .inr hrun

/-- `processDelete` is a step of a run: it removes the pid that it has killed. -/
theorem PidRun.processDelete {r : Int} (h : PidRun k [])
    (hrun : processDelete pid k = .ok r k') : PidRun k' [] := by
  have hwp : Wp (Sos.processDelete pid) k (fun _ k' => PidRun k' []) fun _ _ => True := by
    unfold Sos.processDelete
    rw [wp_bind, wp_get]
    split
    · exact wp_pure.mpr h
    · exact wp_throw.mpr trivial
    · next p hp =>
      rw [wp_bind]
      obtain ⟨k₁, hkill⟩ | hspare := processKill_run k pid p
      · have h₁ := h.kill hp hkill
        refine wp_of_ok hkill ?_
        unfold processCloseFiles
        rw [if_pos rfl, wp_bind, wp_modify, wp_bind, wp_modify, wp_bind]
        refine wp_of_ok rfl ?_
        have hclosed : ∀ k₂, SamePids k₁ k₂ → PidRun (k₂.setSlot pid .null) [] := fun k₂ hs => by
          have hremoved := (h₁.other hs).remove List.mem_cons_self rfl
          rwa [List.erase_cons_head] at hremoved
        refine (keeps_processCleanup (samePids_cleaning.clearing pid) p _).mono
          (fun _ _ hs => .other (hclosed _ ?_) hs) fun _ _ _ => trivial
        exact samePids_updProcess.trans (.of_eq rfl rfl rfl)
      · exact wp_of_ok hspare (wp_pure.mpr h)
  exact hwp.ok hrun

/-! ## What a run keeps -/

/-- What a run keeps: a pid about to be given up is not below `nextPid`. -/
structure PidsKept (k : Kernel) (dying : List Pid) : Prop extends k.Packed where
  dying : ∀ pid ∈ dying, k.nextPid ≤ pid

/-- Slots may be filled, but not emptied. -/
structure Fills (k k' : Kernel) : Prop where
  occupied : ∀ pid, k.sosProcs pid ≠ .null → k'.sosProcs pid ≠ .null
  nextPid : k'.nextPid = k.nextPid
  tidOffset : k'.tidOffset = k.tidOffset

theorem Fills.trans {k'' : Kernel} (h : Fills k k') (h' : Fills k' k'') : Fills k k'' :=
  ⟨fun pid hpid => h'.occupied pid (h.occupied pid hpid), h'.nextPid.trans h.nextPid,
    h'.tidOffset.trans h.tidOffset⟩

theorem fills_setSlot {slot : Slot} (h : slot ≠ .null) : Fills k (k.setSlot pid slot) := by
  refine ⟨fun pid' hpid' => ?_, rfl, rfl⟩
  by_cases heq : pid' = pid
  · rw [heq, setSlot_self]
    exact h
  · rw [setSlot_of_ne heq]
    exact hpid'

theorem SamePids.fills (h : SamePids k k') : Fills k k' :=
  ⟨fun pid => mt (h.null_iff pid).mp, h.nextPid, h.tidOffset⟩

theorem fills_processPrepare2 {p : Process} {fdout fderr fdin : Option Path}
    (hrun : processPrepare2 pid p fdout fderr fdin k = .ok () k') : Fills k k' := by
  have hopen : ∀ k₁ : Kernel, Wp (openStdFds pid fdout fderr) k₁ (fun _ k' => Fills k₁ k')
      fun _ _ => True := fun k₁ =>
    (keeps_openStdFds samePids_cleaning.toMessaging pid fdout fderr k₁).mono
      (fun _ _ h => h.fills) fun _ _ _ => trivial
  have hwp : Wp (processPrepare2 pid p fdout fderr fdin) k (fun _ k' => Fills k k')
      fun _ _ => True := by
    unfold processPrepare2 processExists
    simp only [wp_bind, wp_get, wp_assert, wp_pure, wp_ite, wp_modify]
    refine ⟨fun _ => ⟨fun _ => ⟨fun _ => fills_setSlot (by simp), fun _ => ?_⟩, fun _ => trivial⟩,
      fun _ => trivial⟩
    exact (hopen _).imp fun _ _ h => (fills_setSlot (by simp)).trans h
  exact hwp.ok hrun

theorem Kernel.Packed.of_fills (h : k.Packed) (hf : Fills k k') : k'.Packed := by
  refine ⟨?_, fun pid hle hlt => ?_⟩
  · rw [hf.nextPid, hf.tidOffset]
    exact h.tidOffset_le
  · rw [hf.nextPid] at hlt
    rw [hf.tidOffset] at hle
    exact hf.occupied pid (h.occupied pid hle hlt)

/-- Moving `nextPid` to the pid found leaves no empty slot behind. -/
theorem Kernel.Packed.found (h : k.Packed) (hrun : getNextPid k = .ok (some pid) k') :
    k'.Packed := by
  obtain ⟨-, ⟨hleast, heq⟩ | ⟨-, heq⟩⟩ := h.foundPid
  · rw [heq] at hrun
    injection hrun with _ hk
    rw [← hk]
    exact ⟨hleast.1.1, fun pid hle hlt hnull => absurd (hleast.2 ⟨hle, hnull⟩) (not_le.mpr hlt)⟩
  · rw [heq] at hrun
    simp at hrun

theorem Kernel.Packed.reserve (h : k.Packed) {o : Option Pid} (hrun : reservePid k = .ok o k') :
    k'.Packed := by
  have hwp : Wp reservePid k (fun _ k' => k'.Packed) fun _ _ => True := by
    unfold reservePid processExists
    rw [wp_bind]
    obtain ⟨-, ⟨-, heq⟩ | ⟨-, heq⟩⟩ := h.foundPid
    · refine wp_of_ok heq ?_
      have hfound := h.found heq
      simp only [wp_bind, wp_get, wp_assert, wp_pure, wp_modify]
      exact ⟨fun _ => ⟨fun _ => hfound.of_fills (fills_setSlot (by simp)), fun _ => trivial⟩,
        fun _ => trivial⟩
    · exact wp_of_ok heq (wp_pure.mpr h)
  exact hwp.ok hrun

theorem PidsKept.kill {p : Process} {dying : List Pid} (h : PidsKept k dying)
    (hrun : processKill pid p k = .ok true k') : PidsKept k' (pid :: dying) := by
  have hwp : Wp (processKill pid p) k (fun killed k' => killed = true → PidsKept k' (pid :: dying))
      fun _ _ => True := by
    unfold processKill
    rw [wp_bind, wp_get, wp_ite]
    refine ⟨fun hkill => ?_, fun _ => wp_pure.mpr (by simp)⟩
    rw [wp_bind]
    refine set_eq.imp fun _ k' hk => wp_pure.mpr fun _ => ?_
    have hnext : k'.nextPid = if pid < k.nextPid then pid else k.nextPid := by rw [hk]
    have hle : k'.nextPid ≤ pid ∧ k'.nextPid ≤ k.nextPid := by
      rw [hnext]
      split
      · next hlt => exact ⟨le_refl _, hlt.le⟩
      · next hge => exact ⟨not_lt.mp hge, le_refl _⟩
    have htid : k'.tidOffset = k.tidOffset := by rw [hk]
    have hslots : k'.sosProcs = k.sosProcs := by rw [hk]
    refine ⟨⟨?_, fun pid' hpid' hlt => ?_⟩, fun pid' hpid' => ?_⟩
    · rw [htid, hnext]
      split
      · exact hkill.1.le
      · exact h.tidOffset_le
    · rw [hslots]
      exact h.occupied pid' (htid ▸ hpid') (hlt.trans_le hle.2)
    · rcases List.mem_cons.mp hpid' with rfl | hmem
      · exact hle.1
      · exact hle.2.trans (h.dying pid' hmem)
  exact hwp.ok hrun rfl

theorem PidsKept.remove {dying : List Pid} (h : PidsKept k dying) (hmem : pid ∈ dying)
    (hrun : processRemove pid k = .ok () k') : PidsKept k' (dying.erase pid) := by
  have hk : k' = k.setSlot pid .null := (modify_eq (E := fun _ _ => True)).ok hrun
  rw [hk]
  refine ⟨⟨h.tidOffset_le, fun pid' hpid' hlt => ?_⟩, fun pid' hpid' =>
    h.dying pid' (List.mem_of_mem_erase hpid')⟩
  have hne : pid' ≠ pid := (lt_of_lt_of_le hlt (h.dying pid hmem)).ne
  rw [setSlot_of_ne hne]
  exact h.occupied pid' hpid' hlt

theorem PidRun.kept {dying : List Pid} (h : PidRun k dying) : PidsKept k dying := by
  induction h with
  | init heq =>
    exact ⟨⟨heq ▸ le_refl _, fun pid hle hlt => absurd hlt (not_lt.mpr (heq ▸ hle))⟩, by simp⟩
  | reserve _ hrun ih => exact ⟨ih.toPacked.reserve hrun, by simp⟩
  | prepare _ hrun ih =>
    have hf := fills_processPrepare2 hrun
    exact ⟨ih.toPacked.of_fills hf, fun pid hpid => hf.nextPid ▸ ih.dying pid hpid⟩
  | prepareNil _ hfound hrun ih =>
    exact ⟨(ih.toPacked.found hfound).of_fills (fills_processPrepare2 hrun), by simp⟩
  | kill _ _ hrun ih => exact ih.kill hrun
  | remove _ hmem hrun ih => exact ih.remove hmem hrun
  | other _ hsame ih =>
    exact ⟨ih.toPacked.of_fills hsame.fills, fun pid hpid => hsame.nextPid ▸ ih.dying pid hpid⟩

/-- **The lowest free pid.** In every state of a run there is no empty slot from `tidOffset` up to
`nextPid`, and `getNextPid` ends and returns the lowest free pid, or `NIL_PID` if and only if no pid
is free. -/
theorem lowest_pid_found {dying : List Pid} (h : PidRun k dying) : k.Packed ∧ k.FindsPid :=
  ⟨h.kept.toPacked, h.kept.findsPid⟩

/-- Two pids are reserved, and the second is given to a process that is then killed. -/
theorem lowest_pid_found_secondKilled : ∃ k : Kernel,
    (k.sosProcs 1 = .placeholder ∧ k.sosProcs 2 = .null ∧ k.nextPid = 2) ∧
      k.Packed ∧ k.FindsPid := by
  let p : Process := { pagetable := { frame := 0, pages2 := fun _ => none }, inc := 0 }
  have hreserved := ((PidRun.init (k := coldStart 0) rfl).reserve (o := some 1) rfl).reserve
    (o := some 2) rfl
  have hprepared := hreserved.prepare (rfl : processPrepare2 2 p none none none _ = .ok () _)
  have hkilled := hprepared.kill rfl (rfl : processKill 2 _ _ = .ok true _)
  have hremoved := hkilled.remove List.mem_cons_self rfl
  exact ⟨_, ⟨rfl, rfl, rfl⟩, lowest_pid_found hremoved⟩

end Sos
