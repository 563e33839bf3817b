import Sos.Properties.Lookups

/-!
# Vnodes outlive the requests that use them

A request in the queue of `nfsfs.c` keeps a pointer to its vnode, and nothing counts these pointers.
A vnode that is looked up is not freed since its count is 0 until the lookup is answered
(`Sos.Properties.Lookups`). A vnode that is read or written is open in the process that waits for
the data, and that process cannot close it while it waits. The pager can, when it deletes the
process (`ClosesBusy`).
-/

namespace Sos

/-- The vnode a request transfers data of. -/
def RequestType.transfer? : RequestType → Option Nat
  | .read a .. | .write a .. => some a
  | _ => none

theorem RequestType.vnode?_cases {rt : RequestType} {a : Nat} (h : rt.vnode? = some a) :
    rt.lookup? = some a ∨ rt.transfer? = some a := by
  cases rt with
  | lookup => exact .inl h
  | read | write => exact .inr h
  | _ => simp [RequestType.vnode?] at h

namespace Files

variable {f g : Files} {a b inc : Nat} {pid pid' : Pid} {p q : Process} {i : Fin 16}

/-- The process has the vnode open, or a process that is gone has left it open. -/
def Uses (f : Files) (pid : Pid) (inc a : Nat) : Prop :=
  (∃ p i, f.sosProcs pid = .pcb p ∧ p.inc = inc ∧ (p.files i).vnode = some a) ∨
    ∃ mode, (a, mode) ∈ f.lost

/-- What a process has open stays open. -/
structure Carries (f g : Files) (pid : Pid) : Prop where
  uses : ∀ inc a, f.Uses pid inc a → g.Uses pid inc a

theorem Uses.refers (h : f.Uses pid inc a) : ∃ mode, f.Refers (a, mode) := by
  rcases h with ⟨p, i, hp, -, hi⟩ | ⟨mode, hlost⟩
  · exact ⟨_, .inl ⟨_, held_of_file hp hi⟩⟩
  · exact ⟨mode, .inr hlost⟩

theorem Carries.of_slot (hslot : g.sosProcs pid = f.sosProcs pid) (hlost : g.lost = f.lost) :
    f.Carries g pid where
  uses := fun inc a h => by
    unfold Uses at h ⊢
    rwa [hslot, hlost]

theorem Carries.refl (f : Files) (pid : Pid) : f.Carries f pid := ⟨fun _ _ h => h⟩

theorem Carries.of_sosProcs (hprocs : g.sosProcs = f.sosProcs) (hlost : g.lost = f.lost)
    (pid : Pid) : f.Carries g pid :=
  .of_slot (by rw [hprocs]) hlost

/-- A process is changed, and keeps what it has open. -/
theorem Carries.of_process (hp : f.sosProcs pid = .pcb p)
    (hq : g.sosProcs = Function.update f.sosProcs pid (.pcb q)) (hlost : g.lost = f.lost)
    (hinc : q.inc = p.inc)
    (hfiles : ∀ i a, (p.files i).vnode = some a → (q.files i).vnode = some a) (pid' : Pid) :
    f.Carries g pid' := by
  by_cases hpid : pid' = pid
  · subst hpid
    refine ⟨?_⟩
    rintro inc a (⟨p', i, hp', hinc', hi⟩ | ⟨mode, hm⟩)
    · obtain rfl := Slot.pcb.inj (hp.symm.trans hp')
      refine .inl ⟨q, i, ?_, hinc.trans hinc', hfiles i a hi⟩
      rw [hq, Function.update_self]
    · exact .inr ⟨mode, hlost ▸ hm⟩
  · exact .of_slot (by rw [hq, Function.update_of_ne hpid]) hlost

theorem Carries.quiet (h : f.Quiet g) (pid : Pid) : f.Carries g pid := by
  have hlost : g.lost = f.lost := by rw [h.rest]
  rcases h.slot pid with hs | ⟨p, fp, hp, hs⟩
  · exact .of_slot hs hlost
  · refine ⟨?_⟩
    rintro inc a (⟨p', i, hp', hinc, hi⟩ | ⟨mode, hm⟩)
    · obtain rfl := Slot.pcb.inj (hp.symm.trans hp')
      exact .inl ⟨_, i, hs, hinc, hi⟩
    · exact .inr ⟨mode, hlost ▸ hm⟩

theorem Carries.upd {u : Process → Process} (hinc : ∀ p, (u p).inc = p.inc)
    (hfiles : ∀ p i, ((u p).files i).vnode = (p.files i).vnode) (pid pid' : Pid) :
    f.Carries (f.upd pid u) pid' := by
  unfold Files.upd
  split
  · next p hp =>
    exact .of_process (g := f.setProcess pid (u p)) hp rfl rfl (hinc p)
      (fun i a h => (hfiles p i).trans h) pid'
  · exact .refl f pid'

theorem Carries.trans {h : Files} (hfg : f.Carries g pid) (hgh : g.Carries h pid) :
    f.Carries h pid := ⟨fun inc a hf => hgh.uses inc a (hfg.uses inc a hf)⟩

theorem setFd_files (p : Process) (fd e : Int) : (p.setFd fd e).files = p.files := by
  unfold Process.setFd
  split <;> rfl

theorem setFd_inc (p : Process) (fd e : Int) : (p.setFd fd e).inc = p.inc := by
  unfold Process.setFd
  split <;> rfl

theorem Carries.dupTo (f : Files) (pid : Pid) (forig fdup : Int) (i : Fin 16) (pid' : Pid) :
    f.Carries (f.dupTo pid forig fdup i) pid' := by
  have hfile : ∀ (p : Process) (j : Fin 16), ((p.setFile i { p.files i with
      ref := ((p.files i).ref + 1) % wordLimit }).files j).vnode = (p.files j).vnode :=
        fun p j => by
    by_cases hj : j = i
    · subst hj
      simp [Process.setFile]
    · simp [Process.setFile, hj]
  unfold Files.dupTo
  refine .trans (.upd (fun p => ?_) (fun p j => ?_) pid pid') (.upd (fun _ => ?_) hfile pid pid')
  · exact setFd_inc ..
  · rw [setFd_files]
  · rfl

theorem Carries.install {fd : Fin 19} {mode : Nat} {v : VNode} (hp : f.sosProcs pid = .pcb p)
    (hfree : p.findNextFd = some (fd, i)) (pid' : Pid) :
    f.Carries (f.install pid p fd i a mode v) pid' := by
  refine .of_process (g := f.install pid p fd i a mode v) hp rfl rfl (setFd_inc ..)
    (fun j b hj => ?_) pid'
  have hji : j ≠ i := by
    rintro rfl
    rw [(Process.findNextFd_eq hfree).2] at hj
    simp at hj
  rw [setFd_files]
  simpa [Process.setFile, hji] using hj

/-- The first half of a close takes away only the file that it releases. -/
theorem Uses.unname {fd : Int} (h : f.Uses pid inc b) (hp : f.sosProcs pid = .pcb p)
    (hnot : p.inc = inc → (p.files i).vnode = some b → ((p.files i).ref - 1) % wordLimit ≠ 0) :
    (f.unname pid p fd i a).Uses pid inc b := by
  rcases h with ⟨p', j, hp', hinc, hj⟩ | ⟨mode, hm⟩
  · obtain rfl := Slot.pcb.inj (hp.symm.trans hp')
    refine .inl ⟨p.forget fd i, j, ?_, ?_, ?_⟩
    · rw [unname_sosProcs, Function.update_self]
    · exact (setFd_inc p fd vfsNilFile).trans hinc
    · by_cases hji : j = i
      · subst hji
        simpa [Process.forget, Process.setFile, hnot hinc hj] using hj
      · simpa [Process.forget, Process.setFile, hji, setFd_files] using hj
  · exact .inr ⟨mode, by rwa [unname_lost]⟩

theorem Carries.retire (hp : f.sosProcs pid = .pcb p) (pid' : Pid) :
    f.Carries (f.retire pid p) pid' := by
  refine ⟨?_⟩
  rintro inc a (⟨p', i, hp', hinc, hi⟩ | ⟨mode, hm⟩)
  · by_cases hpid : pid' = pid
    · subst hpid
      obtain rfl := Slot.pcb.inj (hp.symm.trans hp')
      refine .inr ⟨(p.files i).fmode, List.mem_append.mpr (.inr ?_)⟩
      exact List.mem_filterMap.mpr ⟨i, List.mem_finRange i, by simp [hi]⟩
    · exact .inl ⟨p', i, (Function.update_of_ne hpid ..).trans hp', hinc, hi⟩
  · exact .inr ⟨mode, List.mem_append.mpr (.inl hm)⟩

end Files

/-! ## Steps -/

namespace Vfs

open Files

variable {s t : Vfs} {e : Event} {pid pid' : Pid} {a mode inc : Nat} {status : Int}

theorem OpenDone.carries (ho : OpenDone s pid a mode status t) (pid' : Pid) :
    s.files.Carries t.files pid' := by
  cases ho with
  | gone => exact .of_sosProcs (openErr_sosProcs ..) (openErr_lost ..) pid'
  | failed =>
    rw [replied_files]
    exact .of_sosProcs (openErr_sosProcs ..) (openErr_lost ..) pid'
  | @full p v =>
    rw [replied_files]
    have herr := Carries.of_sosProcs (f := s.files.setVnode a (v.decreaseRefs mode))
      (openErr_sosProcs _ a) (openErr_lost _ a) pid'
    exact ⟨herr.uses⟩
  | done hp _ _ hfree =>
    rw [replied_files]
    exact .install hp hfree pid'

theorem Closed.sosProcs_of_ne {fd : Int} (hc : Closed s pid fd t) (hne : pid' ≠ pid) :
    t.files.sosProcs pid' = s.files.sosProcs pid' := by
  have hunname : ∀ p i a, (s.files.unname pid p fd i a).sosProcs pid' = s.files.sosProcs pid' :=
    fun p i a => by rw [unname_sosProcs, Function.update_of_ne hne]
  cases hc with
  | notOpen => rfl
  | kept _ _ hf _ =>
    rw [replied_files, hf]
    exact hunname ..
  | last _ _ hf _ _ _ =>
    rw [replied_files, hf]
    exact (congrFun (drop_sosProcs ..) pid').trans (hunname ..)
  | console _ _ hf _ _ =>
    rw [replied_files, hf]
    exact hunname ..

theorem Closed.carries {fd : Int} (hc : Closed s pid fd t) (hne : pid' ≠ pid) :
    s.files.Carries t.files pid' :=
  .of_slot (hc.sosProcs_of_ne hne) hc.lost

/-- A close of the process itself releases at most the file of the descriptor. -/
theorem Closed.uses {fd : Int} (hc : Closed s pid fd t) (h : s.files.Uses pid inc a)
    (hnot : ∀ p i, s.OpenFd pid fd p i → p.inc = inc → (p.files i).vnode = some a →
      ((p.files i).ref - 1) % wordLimit ≠ 0) : t.files.Uses pid inc a := by
  cases hc with
  | notOpen => exact h
  | kept ho _ hf _ =>
    rw [replied_files, hf]
    exact h.unname ho.1 (hnot _ _ ho)
  | @last p i b f ho _ hf _ _ _ =>
    rw [replied_files]
    have hf' : f.Uses pid inc a := hf ▸ h.unname ho.1 (hnot _ _ ho)
    exact (Carries.of_sosProcs (drop_sosProcs ..) (drop_lost ..) pid).uses inc a hf'
  | console ho _ hf _ _ =>
    rw [replied_files, hf]
    exact h.unname ho.1 (hnot _ _ ho)

theorem Dupped.carries {forig fdup : Int} (hd : Dupped s pid forig fdup t) (hne : pid' ≠ pid) :
    s.files.Carries t.files pid' := by
  cases hd with
  | refused =>
    rw [replied_files]
    exact .refl _ _
  | copied =>
    rw [replied_files]
    exact .dupTo ..
  | @replaced p i j u g _ _ _ hu =>
    rw [replied_files]
    have haccept : ∀ (f : Files) x, f.Carries (f.upd pid ({ · with ipcAccept := x })) pid' :=
      fun f x => .upd (u := ({ · with ipcAccept := x })) (fun _ => rfl) (fun _ _ => rfl) pid pid'
    have hon := haccept u.files p.ipcAccept
    have hoff := haccept s.files .none
    exact (hoff.trans (hu.carries hne)).trans (hon.trans (.dupTo ..))

theorem Answers.carries (ha : Answers s pid t) (pid' : Pid) : s.files.Carries t.files pid' := by
  obtain ⟨f, n, words, hf, rfl⟩ := ha
  rw [replied_files]
  exact .quiet hf pid'

theorem Carries.withSlot {x : Slot} (hnone : s.process? pid = none) (pid' : Pid) :
    s.files.Carries (s.withSlot pid x).files pid' := by
  by_cases hpid : pid' = pid
  · subst hpid
    refine ⟨?_⟩
    rintro inc a (⟨p, i, hp, -⟩ | hlost)
    · rw [process?_of_slot hp] at hnone
      simp at hnone
    · exact .inr hlost
  · exact .of_slot (Function.update_of_ne hpid ..) rfl

/-- A read or write was asked for by a process itself, for a file that it has open. -/
def Transferring (s : Vfs) : Prop :=
  ∀ rq ∈ s.nfs.requests, ∀ a, rq.rt.transfer? = some a →
    (rq.caller.own = true ∧ rq.caller.pid = rq.pid) ∧ s.files.Uses rq.pid rq.caller.inc a

/-- The requests are some of those before, and what was open is open. -/
theorem Transferring.mono (h : s.Transferring)
    (hreq : ∀ rq ∈ t.nfs.requests, ∀ a, rq.rt.transfer? = some a →
      rq ∈ s.nfs.requests ∧
      (s.files.Uses rq.pid rq.caller.inc a → t.files.Uses rq.pid rq.caller.inc a)) :
    t.Transferring := by
  intro rq hrq a ha
  obtain ⟨hmem, huses⟩ := hreq rq hrq a ha
  exact ⟨(h rq hmem a ha).1, huses (h rq hmem a ha).2⟩

theorem Transferring.of_carries (h : s.Transferring) (hreq : t.nfs.requests ⊆ s.nfs.requests)
    (hc : ∀ pid, s.files.Carries t.files pid) : t.Transferring :=
  h.mono fun rq hrq a _ => ⟨hreq hrq, (hc rq.pid).uses rq.caller.inc a⟩

/-- A process that is not waiting has no transfer under way. -/
theorem Transferring.lost_of_not_blocked (h : s.Transferring) {rq : NfsRequest}
    (hrq : rq ∈ s.nfs.requests) (ha : rq.rt.transfer? = some a) (hb : ¬ s.Blocked rq.pid) :
    ∃ mode, (a, mode) ∈ s.files.lost := by
  obtain ⟨⟨hown, hpid⟩, ⟨p, i, hp, hinc, -⟩ | hlost⟩ := h rq hrq a ha
  · refine absurd ⟨p, process?_of_slot hp, rq.caller, ?_, hown, hpid, hinc.symm⟩ hb
    exact List.mem_append.mpr (.inl (List.mem_map_of_mem hrq))
  · exact hlost

/-- A message that concerns a process which is not waiting, and no other. -/
theorem Transferring.of_not_blocked (h : s.Transferring) (hb : ¬ s.Blocked pid)
    (hreq : t.nfs.requests ⊆ s.nfs.requests) (hlost : t.files.lost = s.files.lost)
    (hc : ∀ pid', pid' ≠ pid → s.files.Carries t.files pid') : t.Transferring := by
  refine h.mono fun rq hrq a ha => ⟨hreq hrq, fun hu => ?_⟩
  by_cases hpid : rq.pid = pid
  · refine .inr ?_
    rw [hlost]
    exact h.lost_of_not_blocked (hreq hrq) ha (hpid ▸ hb)
  · exact (hc rq.pid hpid).uses _ _ hu

/-- The pager closes a file on which a read or write of the same process is under way. -/
def ClosesBusy (s : Vfs) : Event → Prop
  | .psClose pid fd => ∃ p ∈ s.process? pid, ∃ i ∈ p.vfile? fd,
      ((p.files i).ref - 1) % wordLimit = 0 ∧
      ∃ rq ∈ s.nfs.requests, rq.pid = pid ∧ rq.caller.inc = p.inc ∧
        rq.rt.transfer?.isSome ∧ rq.rt.transfer? = (p.files i).vnode
  | _ => False

instance (s : Vfs) (e : Event) : Decidable (ClosesBusy s e) := by
  unfold ClosesBusy
  rcases e <;> infer_instance

/-- A request that transfers nothing is added. -/
theorem Transferring.request (h : s.Transferring) {f : Files} (rt : RequestType) {c : Caller}
    (hrt : rt.transfer? = none) (hreq : t.nfs.requests = (s.nfs.request f pid rt c).requests)
    (hc : ∀ pid, s.files.Carries t.files pid) : t.Transferring := by
  refine h.mono fun rq hrq a ha => ?_
  rw [hreq, Nfs.request_requests] at hrq
  rcases List.mem_append.mp hrq with hold | hnew
  · exact ⟨hold, (hc rq.pid).uses rq.caller.inc a⟩
  · rw [List.mem_singleton.mp hnew, Nfs.newRequest, hrt] at ha
    simp at ha

theorem Opened.transferring {path : Path} {readers writers block : Nat}
    (ho : Opened s pid path mode readers writers block t) (h : s.Transferring)
    (hlock : ¬ (s.openTarget pid path mode = some none ∧ LockedOut mode readers writers)) :
    t.Transferring := by
  cases ho with
  | null => exact h
  | refused =>
    refine h.of_carries (by rw [replied_nfs]; exact List.Subset.refl _) fun pid' => ?_
    rw [replied_files]
    exact .refl _ _
  | shared _ _ _ _ hd =>
    refine h.of_carries ?_ hd.carries
    rw [hd.frame.nfs]
    exact List.Subset.refl _
  | @made p path' f _ _ _ _ hf =>
    refine h.request (.lookup block mode) rfl rfl fun pid' => ?_
    have hprocs : (f.addVnode block).sosProcs = s.files.sosProcs := by
      rw [addVnode_sosProcs, hf]
      rfl
    have hlost : (f.addVnode block).lost = s.files.lost := by
      rw [addVnode_lost, hf]
      rfl
    exact .of_sosProcs hprocs hlost pid'
  | lockedOut hp hpath hfind hl _ =>
    exact absurd ⟨(openTarget_eq hp hpath).trans hfind, hl⟩ hlock

theorem Completed.transferring {token : Nat} {ans : RpcAnswer} (hc : Completed s token ans t)
    (h : s.Transferring) : t.Transferring := by
  -- The queue without the request that has been answered.
  have hsub : ∀ (u : Vfs) rq, u.nfs = s.nfs → (u.removed rq).nfs.requests ⊆ s.nfs.requests := by
    intro u rq hu r hr
    have hr' : r ∈ (u.nfs.remove u.files rq).requests := hr
    rw [Nfs.remove_requests, hu] at hr'
    exact List.mem_of_mem_eraseP hr'
  cases hc with
  | unknown => exact h
  | @lookedUp rq a mode u _ _ _ _ ho =>
    exact h.of_carries (hsub u rq ho.frame.nfs) fun pid' => ⟨(ho.carries pid').uses⟩
  | missing => exact h
  | @failed rq a mode u _ _ _ ho =>
    exact h.of_carries (hsub u rq ho.frame.nfs) fun pid' => ⟨(ho.carries pid').uses⟩
  | @answered rq u _ _ ha =>
    exact h.of_carries (hsub u rq ha.nfs) fun pid' => ha.carries pid'
  | more =>
    refine h.mono fun rq hrq a ha => ?_
    obtain ⟨r, hr, rfl⟩ := List.mem_map.mp hrq
    split at ha
    · simp [RequestType.transfer?] at ha
    · next hid =>
      rw [if_neg hid]
      exact ⟨hr, id⟩

/-- A new read or write is of a file that the process has open. -/
theorem Transferring.asked (h : s.Transferring) {rt : RequestType}
    (hrt : Asks (s.called pid true) pid rt) :
    ((s.called pid true).requested pid rt).Transferring := by
  intro rq hrq a ha
  have hrq' : rq ∈ s.nfs.requests ++ [s.nfs.newRequest pid rt (s.called pid true).caller] := by
    rw [← Nfs.request_requests s.nfs s.files]
    exact hrq
  rcases List.mem_append.mp hrq' with hold | hnew
  · exact h rq hold a ha
  · obtain rfl := List.mem_singleton.mp hnew
    have hopen : ∀ fd p i, (s.called pid true).OpenFd pid fd p i → (p.files i).vnode = some a →
        s.files.Uses pid (s.called pid true).caller.inc a := fun fd p i ho hi => by
      refine .inl ⟨p, i, ho.1, ?_, hi⟩
      simp [called, process?_of_slot (s := s) ho.1]
    refine ⟨⟨rfl, rfl⟩, ?_⟩
    cases rt with
    | read b fd pos nbyte | write b fd offset nbyte =>
      obtain rfl := Option.some.inj ha
      obtain ⟨p, i, ho, hi, -⟩ := hrt
      exact hopen fd p i ho hi
    | _ => simp [Nfs.newRequest, RequestType.transfer?] at ha

theorem Step.not_blocked_of_dup {own : Bool} {forig fdup : Int} (hst : Step s e t)
    (he : e = if own then .dup pid forig fdup else .psDup pid forig fdup) : ¬ s.Blocked pid := by
  have hen := hst.1.2
  cases own with
  | true =>
    rw [he] at hen
    exact (hen pid rfl).2.2
  | false =>
    rw [he] at hen
    exact hen

theorem Step.transferring (hst : Step s e t) (h : s.Transferring) (hlock : ¬ MakesLockedOut s e)
    (hbusy : ¬ ClosesBusy s e) : t.Transferring := by
  have hcalled : ∀ pid own, (s.called pid own).Transferring := fun _ _ => h
  cases hst.handled with
  | opened own pid path mode readers writers block he ho =>
    refine ho.transferring (hcalled pid own) fun hm => hlock ?_
    rw [he]
    cases own <;> exact hm
  | closed own pid fd he hc =>
    have hreq : t.nfs.requests ⊆ s.nfs.requests := by
      rw [hc.frame.nfs]
      exact List.Subset.refl _
    cases own with
    | true =>
      have hrun : s.Running pid := by
        have hen := hst.1.2
        rw [he] at hen
        exact hen pid rfl
      exact h.of_not_blocked hrun.2.2 hreq hc.lost fun pid' hne => ⟨(hc.carries hne).uses⟩
    | false =>
      refine h.mono fun rq hrq a ha => ⟨hreq hrq, fun hu => ?_⟩
      by_cases hpid : rq.pid = pid
      · rw [hpid] at hu ⊢
        refine hc.uses hu fun p i ho hinc hi href => hbusy ?_
        rw [he]
        exact ⟨p, process?_of_slot (s := s) ho.1, i, ho.2, href, rq, hreq hrq, hpid, hinc.symm,
          by simp [ha], by rw [ha, hi]⟩
      · exact (hc.carries hpid).uses _ _ hu
  | dupped own pid forig fdup he hd =>
    refine h.of_not_blocked (hst.not_blocked_of_dup he) ?_ hd.lost
      fun pid' hne => ⟨(hd.carries hne).uses⟩
    rw [hd.frame.nfs]
    exact List.Subset.refl _
  | called own pid _ honce hc =>
    cases hc with
    | silent => exact h
    | answered ha =>
      refine h.of_carries ?_ ha.carries
      rw [ha.nfs]
      exact List.Subset.refl _
    | @requested rt hrt =>
      cases own with
      | true => exact h.asked hrt
      | false =>
        rcases honce with hown | honce
        · simp at hown
        · exact h.of_carries (by rw [honce.1]; exact List.Subset.refl _) fun _ => .refl _ _
    | reader => exact h
  | completed i rpc ans _ _ hc => exact hc.transferring h
  | typed newline _ ht =>
    cases ht with
    | idle => exact h
    | kept => exact h
    | @line r u _ ha =>
      refine h.of_carries ?_ ha.carries
      change u.nfs.requests ⊆ _
      rw [ha.nfs]
      exact List.Subset.refl _
  | reserved pid he | spawned pid p he =>
    have hnone : s.process? pid = none := (he ▸ hst.1).2
    exact h.of_carries (List.Subset.refl _) fun pid' => Carries.withSlot hnone pid'
  | turned pid state =>
    exact h.of_carries (List.Subset.refl _) fun pid' =>
      .upd (u := ({ · with state := state })) (fun _ => rfl) (fun _ _ => rfl) pid pid'
  | retired pid p _ hp => exact h.of_carries (List.Subset.refl _) fun pid' => .retire hp pid'

theorem Reachable.transferring {C : Vfs → Event → Prop}
    (hC : ∀ s e, C s e → ¬ MakesLockedOut s e ∧ ¬ ClosesBusy s e) (h : Reachable C s) :
    s.Transferring := by
  refine h.invariant (fun s hs => ?_) fun s e t hs hc hst =>
    hst.transferring hs (hC s e hc).1 (hC s e hc).2
  obtain ⟨_, _, _, rfl, -⟩ := hs
  exact nofun

/-- A process reads a file while another looks one up. -/
def readingRun : List Event :=
  [.open 1 [70] 4 fmUnlimitedRw fmUnlimitedRw 200, .rpcReply 0 {}, .read 1 0 10,
    .open 2 [71] 4 fmUnlimitedRw fmUnlimitedRw 201]

/-- Process 2 opens the file that process 1 is looking up, and closes it: the vnode is freed while
the lookup is under way. -/
def sharedLookupRun : List Event :=
  [.open 1 [70] 4 fmUnlimitedRw fmUnlimitedRw 200, .open 2 [70] 4 fmUnlimitedRw fmUnlimitedRw 201,
    .close 2 0]

end Vfs

end Sos
