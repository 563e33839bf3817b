import Sos.Properties.Console

/-!
# Readers and writers

The counts of a vnode are the numbers of open files that refer to it for reading and for writing,
and stay within its locks. What breaks this is an open with locks that it exceeds itself: the vnode
is freed and linked nevertheless, so that others open it, and `malloc` hands its memory out again.
-/

namespace Sos.Vfs

open Files

variable {s t : Vfs} {e : Event}

/-- A PCB is removed from the table with files open. -/
def LosesFiles (s : Vfs) : Event → Prop
  | .removePcb pid => ∃ p ∈ s.process? pid, p.openFiles ≠ []
  | _ => False

instance (s : Vfs) (e : Event) : Decidable (LosesFiles s e) := by
  unfold LosesFiles
  rcases e <;> infer_instance

theorem Step.lost_nil (hst : Step s e t) (h : s.files.lost = []) (hlose : ¬ LosesFiles s e) :
    t.files.lost = [] := by
  rcases hst.lost with hsame | ⟨pid, p, rfl, hp, hlost⟩
  · rw [hsame, h]
  · have hnil : p.openFiles = [] := by
      by_contra hne
      exact hlose ⟨p, hp, hne⟩
    rw [hlost, h, hnil]
    rfl

theorem Reachable.accounted_live
    (h : Reachable (fun s e => ¬ MakesLockedOut s e ∧ ¬ LosesFiles s e) s) :
    s.Sorted ∧ s.Accounted ∧ s.files.lost = [] := by
  refine h.invariant (I := fun s => s.Sorted ∧ s.Accounted ∧ s.files.lost = [])
    (fun s hs => ?_) fun s e t hI hc hst => ?_
  · refine ⟨sorted_of_started hs, accounted_of_started hs, ?_⟩
    obtain ⟨_, _, _, rfl, -⟩ := hs
    rfl
  · obtain ⟨hsorted, hacc, hlost⟩ := hI
    exact ⟨hst.sorted hsorted hc.1, hst.accounted hsorted hacc (noWrap_of_lost_nil hlost) hc.1,
      hst.lost_nil hlost hc.2⟩

/-- Two processes have a file open, one for reading and one for reading and writing. -/
def sharedRun : List Event :=
  [.open 1 [70] 4 fmUnlimitedRw 1 200, .rpcReply 0 {},
    .open 2 [70] 6 fmUnlimitedRw fmUnlimitedRw 201]

/-- Process 1 opens a file for reading, with a lock that admits no reader; the vnode at 200 is freed
and linked. Process 2 opens it for writing. An open of process 3 is given the memory at 200: the
counts are 0, and process 2 has the vnode open. -/
def lockedOutRun : List Event :=
  [.open 1 [70] 4 0 fmUnlimitedRw 200, .open 2 [70] 2 fmUnlimitedRw fmUnlimitedRw 201,
    .open 3 [71] 4 fmUnlimitedRw fmUnlimitedRw 200]

end Sos.Vfs
