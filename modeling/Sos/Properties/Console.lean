import Sos.Properties.Lookups

/-!
# The console stays

The vnode of the console is made at start-up, around a `Console_File` that is not on the heap. It is
never given up, as long as no process opens the console with a full table while nobody else has it
open: `vfs_open_done` then finds the console unused and hands it to `free_vnode`. It falls off the
list as well when a vnode that is off the list already is removed from it: both links of such a
vnode are null, and `remove_vnode` sets `GlobalVNodes` to null.
-/

namespace Sos.Vfs

open Hoare

variable {s t : Vfs} {e : Event}

/-- An open of the console finds one of the two tables full, and nobody has the console open. -/
def OpensConsoleFull (s : Vfs) : Event → Prop
  | .open pid path mode readers writers _ | .psOpen pid path mode readers writers _ =>
    s.openTarget pid path (mode % 256) = some (some s.console.vnode) ∧
      (readers % wordLimit = fmUnlimitedRw ∧ writers % wordLimit = fmUnlimitedRw) ∧
      (∃ p ∈ s.process? pid, p.findNextFd = none) ∧ (s.files.vnodes s.console.vnode).unused
  | _ => False

instance (s : Vfs) (e : Event) : Decidable (OpensConsoleFull s e) := by
  unfold OpensConsoleFull
  rcases e <;> infer_instance

/-- The locks of the console let everybody in when nobody is. -/
theorem Sorted.increaseRefs_console (h : s.Sorted)
    (hu : (s.files.vnodes s.console.vnode).unused) {mode : Nat} {rval : Int} :
    (s.files.vnodes s.console.vnode).increaseRefs mode ≠ .error rval := by
  simp only [VNode.unused, Bool.and_eq_true, decide_eq_true_eq] at hu
  unfold VNode.increaseRefs
  rw [h.files.console.maxReaders, h.files.console.maxWriters, hu.1]
  simp

theorem Sorted.not_givesUpConsole (h : s.Sorted) (hfull : ¬ OpensConsoleFull s e) :
    ¬ s.GivesUpConsole e := by
  rintro ⟨own, pid, path, mode, readers, writers, block, rfl, p, path', a, hp, hpath, hfind, hlocks,
    hextra, hgive⟩
  -- Only the console has its file in `extra`.
  have ha : a = s.console.vnode := by
    by_contra hne
    exact (h.files.nfs a (h.files.listed.allocated_of_find hfind) hne).2 hextra
  subst ha
  rcases hgive with ⟨hu, hnull | hst | ⟨rval, herr⟩⟩ | ⟨q, v, hq, hv, hnext, hu⟩
  · rw [hp] at hnull
    simp at hnull
  · exact hst rfl
  · exact h.increaseRefs_console hu herr
  · obtain rfl := Slot.pcb.inj (hp.symm.trans hq)
    have hback : v.decreaseRefs (mode % 256) = s.files.vnodes s.console.vnode :=
      (h.files.small s.console.vnode).decreaseRefs_increaseRefs hv
    have hopen : OpensConsoleFull s (.open pid path mode readers writers block) :=
      ⟨(openTarget_eq hp hpath).trans hfind, hlocks, ⟨p, process?_of_slot (s := s) hp, hnext⟩,
        hback ▸ hu⟩
    cases own <;> exact hfull hopen

/-- A run that has lost no file has had no count to wrap. -/
theorem Reachable.noWrap {s : Vfs} (h : Reachable (fun s e => ¬ MakesLockedOut s e ∧
      ¬ SharesLookup s e ∧ s.files.lost = [] ∧ ¬ OpensConsoleFull s e) s) :
    Reachable (fun s e => ¬ MakesLockedOut s e ∧ ¬ SharesLookup s e ∧ s.files.NoWrap ∧
      ¬ OpensConsoleFull s e) s :=
  h.mono fun _ _ hc => ⟨hc.1, hc.2.1, Files.noWrap_of_lost_nil hc.2.2.1, hc.2.2.2⟩

/-- A process opens the console and closes it again. -/
def consoleRun : List Event :=
  [.open 1 stdoutFn 2 fmUnlimitedRw fmUnlimitedRw 200, .close 1 0]

/-- A process fills its descriptor table with copies of one descriptor. -/
def fullRun : List Event :=
  [.open 1 [70] 4 fmUnlimitedRw fmUnlimitedRw 200, .rpcReply 0 {}] ++
    List.replicate 18 (.dup 1 0 vfsNilFile)

/-- The message fails and shows the property of the fault and of the state left. -/
def faultShows (e : Event) (P : VfsFault → Vfs → Bool) (s : Vfs) : Bool :=
  match handle e s with
  | .ok _ _ => false
  | .error f t => P f t

end Sos.Vfs
