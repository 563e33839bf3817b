import Sos.Control.Handle
import Sos.Run
import Sos.Simulation.Boot

/-!
# Answers of the file system

What the pager makes of the answers to its calls. It deals with every answer to the `open` and the
`read` of a load, to `lseek`, to `write` and to `close`; it does not with a swap file that cannot be
opened, a page that cannot be read to its end, a `stat` that fails, and the end of a process whose
ELF file it reads.
-/

namespace Sos

open Hoare

variable {M : Set Nat} {k k' : Kernel} {e : Event} {D : Set Int}

/-! ## Runs with descriptors -/

theorem Booted.orderly (h : Booted M k) (D : Set Int) : Orderly D ∅ k where
  head := fun ha => by rw [h.idle.2] at ha; simp at ha
  tail := fun er her => by rw [h.idle.1] at her; simp at her
  idle := fun _ er her => by rw [h.idle.1] at her; simp at her

/-- The states reached with answers that can be dealt with, and the descriptors that have been
returned by a successful `open` on the way. -/
inductive Holding (M : Set Nat) : Kernel → Set Int → Prop
  | boot {k : Kernel} : Booted M k → Holding M k ∅
  | step {k k' : Kernel} {e : Event} {D : Set Int} : Holding M k D → Accepts k e → Step k e k' →
      Holding M k' (D ∪ e.given k)

theorem handle_holding (ho : Orderly D ∅ k) (hen : Enabled k e) (hacc : Accepts k e) (n : Nat) :
    Answers (D ∪ e.given k) True (handle n e) k :=
  handle_answers n (ho.mono Set.subset_union_left) hen (fun _ => hacc) Set.subset_union_right
    (.inl trivial)

theorem Holding.orderly (h : Holding M k D) : Orderly D ∅ k := by
  induction h with
  | boot hb => exact hb.orderly ∅
  | step _ hacc hstep ih =>
    obtain ⟨hen, n, hn⟩ := hstep
    exact ((handle_holding ih hen hacc n).ok hn).2.2

/-- **The pager deals with the answers it is ready for.** No assertion on an answer fails, and
files are used only by descriptors that an `open` has returned. -/
theorem replies_tolerated (h : Holding M k D) (hen : Enabled k e) (hacc : Accepts k e) (n : Nat) :
    match handle n e k with
    | .ok _ k' => CallsOn (D ∪ e.given k) k k'
    | .error f k' => f.onReply = false ∧ CallsOn (D ∪ e.given k) k k' := by
  have hw := handle_holding h.orderly hen hacc n
  cases hr : handle n e k with
  | ok _ k' => exact (hw.ok hr).1
  | error f k' => exact ⟨(hw.error hr).2 trivial, (hw.error hr).1⟩

theorem Reachable.holding (h : Reachable M Accepts k) : ∃ D, Holding M k D := by
  induction h with
  | boot hb => exact ⟨∅, .boot hb⟩
  | step _ hacc hstep ih =>
    obtain ⟨D, hD⟩ := ih
    exact ⟨_, .step hD hacc hstep⟩

/-! ## Loading and paging in a program -/

/-- What `stat` leaves in the buffer for an executable file with the empty path. -/
def statBuffer (i : Nat) : UInt8 := if i = 8 then 1 else 0

/-- The head of an executable with one segment: one page of the file at `0x20000`. -/
def elfBuffer (i : Nat) : UInt8 :=
  match i with
  | 0 => 127 | 1 => 69 | 2 => 76 | 3 => 70 | 4 => 1
  | 31 => 52 | 45 => 1
  | 61 => 2 | 70 => 16 | 74 => 16 | 79 => 5
  | _ => 0

/-- Process 2 starts a program, which becomes process 3; the page with its code is missing. -/
def programRun : List Event :=
  [.copyin 2 0x10000 4 false, .processCreate 2 0 0 0, .vfsReply 3 (fun _ => 0),
    .vfsReply 0 statBuffer, .vfsReply 512 elfBuffer, .vfsReply 0 (fun _ => 0),
    .pagefault 3 0x20000 4]

/-- The swap file of a program is opened with the descriptor 5. -/
theorem replies_tolerated_openSwapfile :
    ∃ k k' D, Holding (coldFrames 40) k D ∧ Enabled k (.vfsReply 5 fun _ => 0) ∧
      handle 20 (.vfsReply 5 fun _ => 0) k = .ok () k' ∧ k'.calls.getLast? = some (.lseek 5 0) ∧
      CallsOn (D ∪ Event.given k (.vfsReply 5 fun _ => 0)) k k' := by
  obtain ⟨k, hr, hobs⟩ := reachable_of_run 40 20 [[appRegion]] Accepts programRun
    (fun k => (decide (Enabled k (.vfsReply 5 fun _ => 0) ∧ Accepts k (.vfsReply 5 fun _ => 0)),
      outcome 20 (.vfsReply 5 fun _ => 0) k))
    (v := (true, none, some (.lseek 5 0))) (by decide) (by decide +kernel)
  obtain ⟨hdec, hout⟩ := Prod.mk.inj hobs
  obtain ⟨hen, hacc⟩ := of_decide_eq_true hdec
  obtain ⟨D, hD⟩ := hr.holding
  have ht := replies_tolerated hD hen hacc 20
  unfold outcome at hout
  cases hh : handle 20 (.vfsReply 5 fun _ => 0) k with
  | ok _ k' =>
    rw [hh] at hout ht
    exact ⟨k, k', D, hD, hen, hh, (Prod.mk.inj hout).2, ht⟩
  | error f k' => simp [hh] at hout

/-! ## Answers that are not dealt with -/

/-- The program's file is open elsewhere, and the pager goes on with the error as its descriptor;
the file ends within the page; `stat` fails after the program has been opened. -/
theorem programRun_not_tolerated :
    (∃ k, Reachable (coldFrames 40) (fun _ _ => True) k ∧
      Enabled k (.vfsReply vfsOpen fun _ => 0) ∧
      outcome 20 (.vfsReply vfsOpen fun _ => 0) k = (none, some (.lseek vfsOpen 0))) ∧
    (∃ k, Reachable (coldFrames 40) (fun _ _ => True) k ∧
      Enabled k (.vfsReply vfsEof fun _ => 0) ∧
      (outcome 20 (.vfsReply vfsEof fun _ => 0) k).1 = some (.assertion .continueSwapinRead)) ∧
    ∃ k, Reachable (coldFrames 40) (fun _ _ => True) k ∧
      Enabled k (.vfsReply vfsNovnode fun _ => 0) ∧
      (outcome 20 (.vfsReply vfsNovnode fun _ => 0) k).1 =
        some (.assertion .continueElfloadStat) := by
  refine ⟨?_, ?_, ?_⟩
  · obtain ⟨k, hr, hobs⟩ := reachable_of_run 40 20 [[appRegion]] (fun _ _ => True) programRun
      (fun k => (decide (Enabled k (.vfsReply vfsOpen fun _ => 0)),
        outcome 20 (.vfsReply vfsOpen fun _ => 0) k))
      (v := (true, none, some (.lseek vfsOpen 0))) (by decide) (by decide +kernel)
    exact ⟨k, hr, of_decide_eq_true (Prod.mk.inj hobs).1, (Prod.mk.inj hobs).2⟩
  · obtain ⟨k, hr, hobs⟩ := reachable_of_run 40 20 [[appRegion]] (fun _ _ => True)
      (programRun ++ [.vfsReply 5 fun _ => 0, .vfsReply 0 fun _ => 0])
      (fun k => (decide (Enabled k (.vfsReply vfsEof fun _ => 0)),
        (outcome 20 (.vfsReply vfsEof fun _ => 0) k).1))
      (v := (true, some (.assertion .continueSwapinRead))) (by decide) (by decide +kernel)
    exact ⟨k, hr, of_decide_eq_true (Prod.mk.inj hobs).1, (Prod.mk.inj hobs).2⟩
  · obtain ⟨k, hr, hobs⟩ := reachable_of_run 40 20 [[appRegion]] (fun _ _ => True)
      (programRun.take 3)
      (fun k => (decide (Enabled k (.vfsReply vfsNovnode fun _ => 0)),
        (outcome 20 (.vfsReply vfsNovnode fun _ => 0) k).1))
      (v := (true, some (.assertion .continueElfloadStat))) (by decide) (by decide +kernel)
    exact ⟨k, hr, of_decide_eq_true (Prod.mk.inj hobs).1, (Prod.mk.inj hobs).2⟩

end Sos
