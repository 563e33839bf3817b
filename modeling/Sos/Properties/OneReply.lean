import Sos.Properties.Console
import Sos.Properties.Lookups
import Sos.Vfs.Total

/-!
# One reply for each call

Every call has a number, which goes with the request or the reader of the console that waits on its
behalf and with the reply. `Vfs.tags` lists these numbers, with the process they are for: a call
that is served adds its own, and a completion turns the one of a request into one of a reply. What
has no reply at all is a `close` or a `flush` of a descriptor that is not open.
-/

namespace Sos.Vfs

open Hoare Files

variable {s t u : Vfs} {e : Event} {pid : Pid} {a mode : Nat} {status : Int}
variable {c : Nat} {f : Files} {fd : Int} {ans : RpcAnswer}

/-! ## Numbers of calls -/

/-- The calls that have been replied to or wait for their completion, with their processes. -/
def tags (s : Vfs) : List (Nat × Pid) :=
  s.replies.map (fun r => (r.caller.id, r.pid)) ++
    (s.nfs.requests.map (fun rq => (rq.caller.id, rq.pid)) ++
      (s.console.reader.map fun r => (r.caller.id, r.pid)).toList)

/-- The call being served is replied to, if the process can be. -/
def Adds (s t : Vfs) (pid : Pid) : Prop :=
  t.tags.Perm (s.tags ++ if answerable s.files pid then [(s.caller.id, pid)] else [])

theorem tags_replied (s : Vfs) (pid : Pid) (words : List Int) (opened : Option Nat) :
    Adds s (s.replied pid words opened) pid := by
  unfold Adds replied
  split
  · simp only [tags, List.map_append, List.map_cons, List.map_nil, List.append_assoc]
    exact (List.perm_append_left_iff _).mpr (List.perm_append_comm.trans (by simp))
  · simp

theorem answerable_congr {f g : Files} {p q : Process} (hp : f.sosProcs pid = .pcb p)
    (hq : g.sosProcs pid = .pcb q) (hstate : q.state = p.state)
    (haccept : q.ipcAccept = p.ipcAccept) : answerable g pid = answerable f pid := by
  unfold answerable
  rw [hp, hq]
  dsimp only
  rw [hstate, haccept]

theorem answerable_of_slot {f g : Files} (h : g.sosProcs pid = f.sosProcs pid) :
    answerable g pid = answerable f pid := by
  unfold answerable
  rw [h]

theorem answerable_of_null (h : f.sosProcs pid = .null) : answerable f pid = false := by
  unfold answerable
  rw [h]

theorem Adds.of_files (hf : answerable f pid = answerable s.files pid) (words : List Int)
    (opened : Option Nat) : Adds s ((s.withFiles f).replied pid words opened) pid := by
  have h := tags_replied (s.withFiles f) pid words opened
  unfold Adds at h ⊢
  rw [← hf]
  exact h

theorem OpenDone.adds (ho : OpenDone s pid a mode status t) : Adds s t pid := by
  cases ho with
  | gone hp =>
    unfold Adds
    rw [answerable_of_null hp]
    simp [tags, withFiles]
  | failed =>
    have hprocs := s.files.openErr_sosProcs a
    exact .of_files (answerable_of_slot (by rw [hprocs])) ..
  | @full p v =>
    have hprocs := (s.files.setVnode a (v.decreaseRefs mode)).openErr_sosProcs a
    exact .of_files (answerable_of_slot (by rw [hprocs]; rfl)) ..
  | @done p v fd i hp _ _ _ =>
    refine .of_files (answerable_congr hp (Function.update_self ..) ?_ ?_) .. <;>
      simp [Process.setFile]

theorem Closed.adds (hc : Closed s pid fd t) (ho : ¬ s.NotOpen pid fd) : Adds s t pid := by
  have hunname : ∀ p i a, s.OpenFd pid fd p i →
      answerable (s.files.unname pid p fd i a) pid = answerable s.files pid := by
    intro p i a ho
    refine answerable_congr ho.1 (q := p.forget fd i) ?_ ?_ ?_
    · rw [unname_sosProcs, Function.update_self]
    · unfold Process.forget Process.setFd
      dsimp only [Process.setFile]
      split <;> rfl
    · unfold Process.forget Process.setFd
      dsimp only [Process.setFile]
      split <;> rfl
  cases hc with
  | notOpen hn => exact absurd hn ho
  | kept ho _ hf _ => exact .of_files (hf ▸ hunname _ _ _ ho) ..
  | @last p i a f ho _ hf _ _ _ =>
    have hdrop : answerable ((f.freeNfsfile a).drop a) pid = answerable f pid :=
      answerable_of_slot (congrFun (drop_sosProcs ..) pid)
    exact .of_files (hdrop.trans (hf ▸ hunname _ _ _ ho)) ..
  | console ho _ hf _ _ => exact .of_files (hf ▸ hunname _ _ _ ho) ..

theorem Answers.adds (ha : Answers s pid t) : Adds s t pid := by
  obtain ⟨f, n, words, hf, rfl⟩ := ha
  have hsame : answerable f pid = answerable s.files pid := by
    rcases hf.slot pid with hs | ⟨p, fp, hp, hs⟩
    · exact answerable_of_slot hs
    · exact answerable_congr hp hs rfl rfl
  have h := tags_replied
    ({ s with files := f, console := { s.console with bufUsed := n } } : Vfs) pid words none
  unfold Adds at h ⊢
  rw [← hsame]
  exact h

theorem Dupped.adds {forig fdup : Int} (hd : Dupped s pid forig fdup t) : Adds s t pid := by
  have hdup : ∀ (f : Files) p (g : Fin 19) i, f.sosProcs pid = .pcb p →
      answerable (f.dupTo pid forig g i) pid = answerable f pid := fun f p g i hp => by
    have h₁ := upd_sosProcs_self hp fun p => p.setFd g ((p.fdFile? forig).getD vfsNilFile)
    have h₂ := upd_sosProcs_self h₁ fun p =>
      p.setFile i { p.files i with ref := ((p.files i).ref + 1) % wordLimit }
    refine answerable_congr hp h₂ ?_ ?_ <;> simp [Process.setFile]
  cases hd with
  | refused => exact tags_replied ..
  | copied ho => exact .of_files (hdup _ _ _ _ ho.1) ..
  | @replaced p i j u g hg ho hj hu =>
    have hoff := upd_sosProcs_self ho.1 ({ · with ipcAccept := .none })
    -- The replies are off when the descriptor is closed.
    have hclosed := hu.adds (OpenFd.not_notOpen ⟨hoff, hj.2⟩)
    have hsilent : answerable (s.files.upd pid ({ · with ipcAccept := .none })) pid = false := by
      unfold answerable
      rw [hoff]
      simp
    have hu' : u.tags.Perm s.tags := by
      unfold Adds at hclosed
      rw [show (s.withFiles (s.files.upd pid ({ · with ipcAccept := .none }))).files =
        s.files.upd pid ({ · with ipcAccept := .none }) from rfl, hsilent] at hclosed
      simpa [tags, withFiles] using hclosed
    obtain ⟨q, hq, hstate, -, -⟩ := hu.process hoff
    have hon := upd_sosProcs_self hq ({ · with ipcAccept := p.ipcAccept })
    have hsame : answerable ((u.files.upd pid ({ · with ipcAccept := p.ipcAccept })).dupTo pid forig
        g i) pid = answerable s.files pid :=
      (hdup _ _ _ _ hon).trans (answerable_congr ho.1 hon hstate rfl)
    have h := tags_replied (u.withFiles ((u.files.upd pid
      ({ · with ipcAccept := p.ipcAccept })).dupTo pid forig g i)) pid [(g : Int)] none
    unfold Adds at h ⊢
    rw [← hsame]
    refine h.trans ?_
    have hcaller : u.caller = s.caller := hu.frame.caller
    change (u.tags ++ if _ then [(u.caller.id, pid)] else []).Perm _
    rw [hcaller]
    exact hu'.append_right _

theorem tags_requested (s : Vfs) (pid : Pid) (rt : RequestType) :
    (s.requested pid rt).tags.Perm (s.tags ++ [(s.caller.id, pid)]) := by
  unfold tags requested
  dsimp only
  rw [Nfs.request_requests, List.map_append, List.append_assoc, List.append_assoc,
    List.append_assoc, List.map_cons, List.map_nil]
  exact (List.perm_append_left_iff _).mpr ((List.perm_append_left_iff _).mpr List.perm_append_comm)

theorem tags_removed {head : NfsRequest} {rest : List NfsRequest}
    (hr : s.nfs.requests = head :: rest) :
    s.tags.Perm ((s.removed head).tags ++ [(head.caller.id, head.pid)]) := by
  have hrest : (s.removed head).nfs.requests = rest := by
    change (s.nfs.remove s.files head).requests = rest
    rw [Nfs.remove_requests, hr, List.eraseP_cons_of_pos (by simp)]
  unfold tags
  rw [hrest, hr, List.map_cons, List.append_assoc]
  refine (List.perm_append_left_iff _).mpr ?_
  exact (List.perm_append_comm : ([(head.caller.id, head.pid)] ++ _).Perm _)

/-- Only tags of the call being served are added. -/
def AddsOwn (s t : Vfs) : Prop := ∃ xs, t.tags.Perm (s.tags ++ xs) ∧ ∀ x ∈ xs, x.1 = s.caller.id

theorem Adds.own (h : Adds s t pid) : AddsOwn s t := by
  refine ⟨_, h, fun x hx => ?_⟩
  split at hx
  · rw [List.mem_singleton.mp hx]
  · simp at hx

theorem AddsOwn.of_tags (h : t.tags = s.tags) : AddsOwn s t := ⟨[], by simp [h], nofun⟩

theorem Opened.addsOwn {path : Path} {readers writers block : Nat}
    (ho : Opened s pid path mode readers writers block t) : AddsOwn s t := by
  cases ho with
  | null => exact .of_tags rfl
  | refused => exact (tags_replied ..).own
  | shared _ _ _ _ hd => exact hd.adds.own
  | @made p path' f _ _ _ _ _ =>
    exact ⟨_, tags_requested (s.withFiles f) pid (.lookup block mode), by simp [withFiles]⟩
  | @lockedOut p path' f _ _ _ _ _ =>
    -- A reply and a request for one call.
    obtain ⟨xs, hxs, hown⟩ := (tags_replied s pid [vfsError] none).own
    have hcaller : (s.replied pid [vfsError]).caller = s.caller :=
      (frame_replied s s.files pid [vfsError] none).caller
    have hr := tags_requested ((s.replied pid [vfsError]).withFiles f) pid (.lookup block mode)
    refine ⟨xs ++ [(s.caller.id, pid)], ?_, fun x hx => ?_⟩
    · rw [← List.append_assoc, ← hcaller]
      exact hr.trans (hxs.append_right _)
    · rcases List.mem_append.mp hx with hold | hnew
      · exact hown x hold
      · rw [List.mem_singleton.mp hnew]

theorem Closed.addsOwn (hc : Closed s pid fd t) : AddsOwn s t := by
  by_cases hn : s.NotOpen pid fd
  · cases hc with
    | notOpen => exact .of_tags rfl
    | kept ho | last ho | console ho => exact absurd hn ho.not_notOpen
  · exact (hc.adds hn).own

/-- The call waits for its completion. -/
theorem tags_reader {r : Reader} (hr : s.console.reader = none) (hpid : r.pid = pid)
    (hcaller : r.caller = s.caller) :
    ({ s with console := { s.console with reader := some r } } : Vfs).tags.Perm
      (s.tags ++ [(s.caller.id, pid)]) := by
  simp [tags, hr, hpid, hcaller]

theorem Called.addsOwn {silent : Prop} (hc : Called s pid silent t) : AddsOwn s t := by
  cases hc with
  | silent => exact .of_tags rfl
  | answered ha => exact ha.adds.own
  | requested => exact ⟨_, tags_requested .., by simp⟩
  | reader hr hpid hcaller => exact ⟨_, tags_reader hr hpid hcaller, by simp⟩

/-- The tag of a completed call: it is now that of a reply, or it is dropped with the reply to a
process that cannot be replied to. -/
def Completes (s t : Vfs) : Prop :=
  t.tags.Perm s.tags ∨ ∃ x, s.tags.Perm (t.tags ++ [x]) ∧ answerable s.files x.2 = false

/-- The completion adds the tag of the reply, and the tag of what has waited goes. -/
theorem Completes.of_adds {v : Vfs} {x : Nat × Pid} (hadds : Adds v u x.2) (hv : v.tags = s.tags)
    (hcaller : v.caller.id = x.1) (hfiles : answerable v.files x.2 = answerable s.files x.2)
    (hgone : u.tags.Perm (t.tags ++ [x])) : Completes s t := by
  unfold Adds at hadds
  rw [hv, hcaller, hfiles] at hadds
  split at hadds
  · exact .inl ((List.perm_append_right_iff _).mp (hgone.symm.trans hadds))
  · next hans =>
    rw [List.append_nil] at hadds
    exact .inr ⟨x, hadds.symm.trans hgone, by simpa using hans⟩

theorem Completed.completes {i : Nat} {rpc : Rpc}
    (hc : Completed (s.received i) rpc.token ans t) (hser : s.nfs.Serial)
    (hi : s.nfs.rpcs[i]? = some rpc) : Completes s t := by
  obtain ⟨head, rest, hr, -, htok, -, -⟩ := hser.received hi
  have hr' : (s.received i).nfs.requests = head :: rest := hr
  have hfind := Nfs.find?_token hr' htok
  have hremoved : ∀ u : Vfs, u.nfs = (s.received i).nfs →
      u.tags.Perm ((u.removed head).tags ++ [(head.caller.id, head.pid)]) := fun u hu =>
    tags_removed (by rw [hu]; exact hr')
  cases hc with
  | unknown => exact .inl (List.Perm.refl _)
  | @lookedUp rq a mode u hrq _ _ _ ho =>
    obtain rfl := Option.mem_unique hrq hfind
    exact .of_adds (x := (rq.caller.id, rq.pid)) ho.adds rfl rfl rfl (hremoved u ho.frame.nfs)
  | missing => exact .inl (List.Perm.refl _)
  | @failed rq a mode u hrq _ _ ho =>
    obtain rfl := Option.mem_unique hrq hfind
    exact .of_adds (x := (rq.caller.id, rq.pid)) ho.adds rfl rfl rfl (hremoved u ho.frame.nfs)
  | @answered rq u hrq _ ha =>
    obtain rfl := Option.mem_unique hrq hfind
    exact .of_adds (x := (rq.caller.id, rq.pid)) ha.adds rfl rfl rfl (hremoved u ha.nfs)
  | @more rq pos nbyte cpos cpos' cookie _ _ _ =>
    refine .inl ?_
    have hmap : (s.nfs.requests.map fun r =>
        if r.id = rq.id then { r with rt := .dir pos nbyte cpos' } else r).map
          (fun rq => (rq.caller.id, rq.pid)) = s.nfs.requests.map fun rq =>
            (rq.caller.id, rq.pid) := by
      rw [List.map_map]
      refine List.map_congr_left fun r _ => ?_
      simp only [Function.comp_apply]
      split <;> rfl
    unfold tags
    change (_ ++ ((s.nfs.requests.map fun r => _).map _ ++ _)).Perm _
    rw [hmap]
    exact List.Perm.refl _

theorem Typed.completes (ht : Typed s t) : Completes s t := by
  cases ht with
  | idle => exact .inl (List.Perm.refl _)
  | @kept r n hr => exact .inl (by simp [tags, hr])
  | @line r u hr ha =>
    obtain ⟨n, hf⟩ := ha.frame
    have hreader : u.console.reader = some r := by rw [hf.console]; exact hr
    refine .of_adds (x := (r.caller.id, r.pid)) ha.adds rfl rfl rfl ?_
    simp [tags, hreader]

/-- What a step does to the tags. -/
inductive Retags (s t : Vfs) : Prop
  | serves (xs : List (Nat × Pid)) : t.tags.Perm (s.tags ++ xs) → (∀ x ∈ xs, x.1 = s.calls) →
      t.calls = s.calls + 1 → Retags s t
  | completes : Completes s t → t.calls = s.calls → Retags s t

theorem AddsOwn.retags {own : Bool} (h : AddsOwn (s.called pid own) t)
    (hcalls : t.calls = s.calls + 1) : Retags s t := by
  obtain ⟨xs, hxs, hown⟩ := h
  exact .serves xs hxs hown hcalls

theorem Opened.calls {path : Path} {readers writers block : Nat}
    (ho : Opened s pid path mode readers writers block t) : t.calls = s.calls := by
  cases ho with
  | null => rfl
  | refused => exact (frame_replied s s.files pid _ none).calls
  | shared _ _ _ _ hd => exact hd.frame.calls
  | made => rfl
  | lockedOut => exact (frame_replied s s.files pid _ none).calls

theorem Completed.calls {token : Nat} (hc : Completed s token ans t) :
    t.calls = s.calls := by
  cases hc with
  | unknown => rfl
  | lookedUp _ _ _ _ ho => exact ho.frame.calls
  | missing => rfl
  | failed _ _ _ ho => exact ho.frame.calls
  | answered _ _ ha => exact ha.frame.choose_spec.calls
  | more => rfl

theorem Called.calls {silent : Prop} (hc : Called s pid silent t) : t.calls = s.calls := by
  cases hc with
  | silent => rfl
  | answered ha => exact ha.frame.choose_spec.calls
  | requested => rfl
  | reader => rfl

theorem Step.retags (hst : Step s e t) (hser : s.nfs.Serial) : Retags s t := by
  have hsame : t.tags = s.tags → t.calls = s.calls → Retags s t := fun htags hcalls =>
    .completes (.inl (htags ▸ List.Perm.refl _)) hcalls
  cases hst.handled with
  | opened own pid path mode readers writers block _ ho => exact ho.addsOwn.retags ho.calls
  | closed own pid fd _ hc => exact hc.addsOwn.retags hc.frame.calls
  | dupped own pid forig fdup _ hd => exact hd.adds.own.retags hd.frame.calls
  | called own pid _ _ hc => exact hc.addsOwn.retags hc.calls
  | completed i rpc ans _ hi hc => exact .completes (hc.completes hser hi) hc.calls
  | typed newline _ ht =>
    refine .completes ht.completes ?_
    cases ht with
    | idle => rfl
    | kept => rfl
    | line _ ha => exact ha.frame.choose_spec.calls
  | reserved | spawned | turned | retired => exact hsame rfl rfl

/-! ## The call that is served -/

/-- A close or a flush of a descriptor that is not open. -/
def Unanswered (s : Vfs) : Event → Prop
  | .close pid fd | .flush pid fd _ => s.NotOpen pid fd
  | _ => False

theorem Running.answerable (h : s.Running pid) : answerable s.files pid = true := by
  obtain ⟨⟨p, hp, halive, haccept⟩, hroot, -⟩ := h
  unfold Vfs.answerable
  rw [slot_of_process? hp]
  simp [halive, haccept, hroot]

theorem Running.slot (h : s.Running pid) : ∃ p, s.files.sosProcs pid = .pcb p := by
  obtain ⟨⟨p, hp, -⟩, -⟩ := h
  exact ⟨p, slot_of_process? hp⟩

theorem Enabled.running (he : Enabled s e) (hclient : e.client = some pid) : s.Running pid := by
  cases e <;> first | exact he.2 pid hclient | simp [Event.client] at hclient

/-- The vnode of an open console has its file. -/
theorem not_silentFlush (hs : s.Sorted) (hacc : s.Accounted) (hn : ¬ s.NotOpen pid fd) :
    ¬ s.SilentFlush pid fd := by
  rintro (hnot | ⟨p, i, a, ho, ha, hfs, he⟩)
  · exact hn hnot
  · have halloc := hacc.counts.allocated ho.1 ha
    by_cases hac : a = s.console.vnode
    · rw [hac, hs.files.console.extra] at he
      simp at he
    · rw [(hs.files.nfs a halloc hac).1] at hfs
      simp at hfs

theorem Adds.tags (h : Adds s t pid) (ha : answerable s.files pid = true) :
    t.tags.Perm (s.tags ++ [(s.caller.id, pid)]) := by
  unfold Adds at h
  rwa [if_pos ha] at h

/-- A call of a process is replied to or waits, once. -/
theorem Step.served (hst : Step s e t) (hclient : e.client = some pid) (hs : s.Sorted)
    (hacc : s.Accounted) (hlock : ¬ MakesLockedOut s e) (hopen : ¬ Unanswered s e) :
    t.tags.Perm (s.tags ++ [(s.calls, pid)]) := by
  have hrun := hst.1.running hclient
  have hans := hrun.answerable
  obtain ⟨p, hp⟩ := hrun.slot
  cases hst.handled with
  | opened own pid' path mode readers writers block he ho =>
    cases own with
    | false => rw [he] at hclient; simp [Event.client] at hclient
    | true =>
      rw [he] at hclient hlock
      obtain rfl := Option.some.inj hclient
      cases ho with
      | null hnull =>
        have hnull' : s.files.sosProcs pid' = .null := hnull
        rw [hp] at hnull'
        simp at hnull'
      | refused => exact (tags_replied ..).tags hans
      | shared _ _ _ _ hd => exact hd.adds.tags hans
      | @made q path' f _ _ _ _ _ =>
        exact tags_requested ((s.called pid' true).withFiles f) pid' (.lookup block (mode % 256))
      | lockedOut hp hpath hfind hl _ =>
        exact absurd ⟨(openTarget_eq hp hpath).trans hfind, hl⟩ hlock
  | closed own pid' fd he hc =>
    cases own with
    | false => rw [he] at hclient; simp [Event.client] at hclient
    | true =>
      rw [he] at hclient hopen
      obtain rfl := Option.some.inj hclient
      exact (hc.adds hopen).tags hans
  | dupped own pid' forig fdup he hd =>
    cases own with
    | false => rw [he] at hclient; simp [Event.client] at hclient
    | true =>
      rw [he] at hclient
      obtain rfl := Option.some.inj hclient
      exact hd.adds.tags hans
  | called own pid' he _ hc =>
    obtain rfl : pid' = pid := by
      cases own <;> cases e <;> simp_all [Event.from, Event.client]
    cases hc with
    | silent hsilent =>
      obtain ⟨fd, hfd, hsilent⟩ := hsilent
      have hfd' : e.flushes = some fd := hfd
      have hn : ¬ s.NotOpen pid' fd := by
        cases e <;> simp_all [Event.flushes, Event.client, Unanswered]
      exact absurd hsilent (not_silentFlush ⟨hs.files, hs.requests⟩ ⟨hacc.counts, hacc.modes⟩ hn)
    | answered ha => exact ha.adds.tags hans
    | requested => exact tags_requested ..
    | reader hr hpid hcaller => exact tags_reader hr hpid hcaller
  | completed i rpc ans he | typed newline he => rw [he] at hclient; simp [Event.client] at hclient
  | reserved pid' he | spawned pid' p he => rw [he] at hclient; simp [Event.client] at hclient
  | turned pid' state he =>
    rcases he with ⟨he, -⟩ | ⟨he, -⟩ <;> rw [he] at hclient <;> simp [Event.client] at hclient
  | retired pid' p he => rw [he] at hclient; simp [Event.client] at hclient

/-! ## Runs -/

/-- The numbers of the calls are those given out so far. -/
def Numbered (s : Vfs) : Prop := ∀ x ∈ s.tags, x.1 < s.calls

theorem Step.numbered (hst : Step s e t) (hser : s.nfs.Serial) (h : s.Numbered) : t.Numbered := by
  intro x hx
  cases hst.retags hser with
  | serves xs hperm hxs hcalls =>
    rcases List.mem_append.mp (hperm.mem_iff.mp hx) with hold | hnew
    · have := h x hold
      omega
    · have := hxs x hnew
      omega
  | completes hc hcalls =>
    rw [hcalls]
    rcases hc with hperm | ⟨y, hperm, -⟩
    · exact h x (hperm.mem_iff.mp hx)
    · exact h x (hperm.mem_iff.mpr (List.mem_append.mpr (.inl hx)))

/-- The call is the only one with its number, and it is for the process. -/
structure Once (s : Vfs) (c : Nat) (pid : Pid) : Prop where
  old : c < s.calls
  one : s.tags.filter (fun x => x.1 = c) = [(c, pid)]

theorem Step.once (hst : Step s e t) (hser : s.nfs.Serial) (hans : answerable s.files pid = true)
    (h : s.Once c pid) : t.Once c pid := by
  have hold := h.old
  cases hst.retags hser with
  | serves xs hperm hxs hcalls =>
    refine ⟨by omega, List.perm_singleton.mp ?_⟩
    have hnone : xs.filter (fun x => x.1 = c) = [] := by
      refine List.filter_eq_nil_iff.mpr fun x hx => ?_
      have := hxs x hx
      simp only [decide_eq_true_eq]
      omega
    have := hperm.filter fun x => x.1 = c
    rwa [List.filter_append, h.one, hnone, List.append_nil] at this
  | completes hc hcalls =>
    refine ⟨by omega, List.perm_singleton.mp ?_⟩
    rcases hc with hperm | ⟨x, hperm, hdead⟩
    · have := hperm.filter fun x => x.1 = c
      rwa [h.one] at this
    · have hx : x.1 ≠ c := fun hxc => by
        have hmem : x ∈ s.tags.filter (fun x => x.1 = c) :=
          List.mem_filter.mpr ⟨hperm.mem_iff.mpr (by simp), by simp [hxc]⟩
        rw [h.one] at hmem
        rw [List.mem_singleton.mp hmem, hans] at hdead
        simp at hdead
      have hnone : [x].filter (fun x => x.1 = c) = [] := by simp [hx]
      have := hperm.filter fun x => x.1 = c
      rw [h.one, List.filter_append, hnone, List.append_nil] at this
      exact this.symm

/-! ## Calls and completions return -/

/-- Where the requests of a directory have got to is not beyond the entry that is asked for. -/
def Directories (s : Vfs) : Prop :=
  ∀ rq ∈ s.nfs.requests, ∀ pos nbyte cpos, rq.rt = .dir pos nbyte cpos → cpos ≤ pos

theorem Directories.removed (h : s.Directories) (rq : NfsRequest) (hu : u.nfs = s.nfs) :
    (u.removed rq).Directories := by
  intro r hr
  have hr' : r ∈ (u.nfs.remove u.files rq).requests := hr
  rw [Nfs.remove_requests, hu] at hr'
  exact h r (List.mem_of_mem_eraseP hr')

theorem Directories.request (h : s.Directories) (rt : RequestType) {c : Caller}
    (hrt : ∀ pos nbyte cpos, rt = .dir pos nbyte cpos → cpos ≤ pos)
    (hreq : t.nfs.requests = (s.nfs.request f pid rt c).requests) : t.Directories := by
  intro rq hrq
  rw [hreq, Nfs.request_requests] at hrq
  rcases List.mem_append.mp hrq with hold | hnew
  · exact h rq hold
  · rw [List.mem_singleton.mp hnew]
    exact hrt

theorem Step.directories (hst : Step s e t) (h : s.Directories) : t.Directories := by
  have hnfs : t.nfs = s.nfs → t.Directories := fun hn => by
    unfold Directories
    rw [hn]
    exact h
  cases hst.handled with
  | opened own pid path mode readers writers block _ ho =>
    cases ho with
    | null => exact h
    | refused => exact hnfs (replied_nfs ..)
    | shared _ _ _ _ hd => exact hnfs hd.frame.nfs
    | made => exact h.request (.lookup block (mode % 256)) nofun rfl
    | lockedOut =>
      refine Directories.request (s := (s.called pid own).replied pid [vfsError]) ?_
        (.lookup block (mode % 256)) nofun rfl
      unfold Directories
      rw [replied_nfs]
      exact h
  | closed own pid fd _ hc => exact hnfs hc.frame.nfs
  | dupped own pid forig fdup _ hd => exact hnfs hd.frame.nfs
  | called own pid _ _ hc =>
    cases hc with
    | silent => exact h
    | answered ha => exact hnfs ha.nfs
    | @requested rt hrt =>
      refine h.request rt (fun pos nbyte cpos hdir => ?_) rfl
      rw [hdir] at hrt
      exact hrt
    | reader => exact h
  | completed i rpc ans _ _ hc =>
    have h' : (s.received i).Directories := h
    cases hc with
    | unknown => exact h
    | lookedUp _ _ _ _ ho => exact h'.removed _ ho.frame.nfs
    | missing => exact h
    | failed _ _ _ ho => exact h'.removed _ ho.frame.nfs
    | answered _ _ ha => exact h'.removed _ ha.nfs
    | @more rq pos nbyte cpos cpos' cookie _ _ hle =>
      intro r hr
      obtain ⟨r', hr', rfl⟩ := List.mem_map.mp hr
      split
      · rintro _ _ _ ⟨⟩
        exact hle
      · exact h r' hr'
  | typed newline _ ht =>
    cases ht with
    | idle => exact h
    | kept => exact h
    | line _ ha => exact hnfs ha.nfs
  | reserved => exact h
  | spawned => exact h
  | turned => exact h
  | retired => exact h

/-- A call of a process returns. -/
theorem call_returns (hs : s.Sorted) (hacc : s.Accounted) (he : Enabled s e)
    (hclient : e.client = some pid) (hfull : ¬ OpensConsoleFull s e) : ∃ t, Step s e t := by
  obtain ⟨p, hp⟩ := (he.running hclient).slot
  have hsane := sane_of_accounted hs hacc (Known.of_process hp) true
  have hserve : ∀ {m : VfsM Unit}, Safe m (s.called pid true) → handle e = serve pid true m →
      ∃ t, Step s e t := fun {m} hm heq => by
    have hsafe : Safe (handle e) s := by
      rw [heq]
      exact wp_serve.mpr hm
    obtain ⟨⟨⟩, t, ht, -⟩ := hsafe.returns
    exact ⟨t, he, ht⟩
  cases e <;> first
    | simp [Event.client] at hclient; done
    | obtain rfl := Option.some.inj hclient
  case «open» path mode readers writers block =>
    refine hserve (safe_vfsOpen hsane fun hg => ?_) rfl
    exact hs.not_givesUpConsole hfull ⟨true, _, _, _, _, _, _, rfl, hg⟩
  case close fd => exact hserve (safe_vfsClose hsane fd) rfl
  case read fd nbyte => exact hserve (safe_vfsRead hsane fd nbyte) rfl
  case write fd nbyte newline sends => exact hserve (safe_vfsWrite hsane fd nbyte newline sends) rfl
  case flush fd sends => exact hserve (safe_vfsFlush hsane fd sends) rfl
  case lseek fd pos whence => exact hserve (safe_vfsLseek hsane fd pos whence) rfl
  case getdirent pos nbyte => exact hserve (safe_vfsGetdirent hsane pos nbyte) rfl
  case stat path => exact hserve (safe_vfsStat hsane path) rfl
  case remove path => exact hserve (safe_vfsRemove hsane path) rfl
  case dup forig fdup => exact hserve (safe_vfsDup hsane forig fdup) rfl

/-- The message completes the call: the library answers the request at the head of the queue, or a
character arrives for the reader of the console. -/
def Completing (s : Vfs) (c : Nat) : Event → Prop
  | .rpcReply .. => ∃ rq ∈ s.nfs.requests.head?, rq.caller.id = c
  | .serial _ => ∃ r ∈ s.console.reader, r.caller.id = c
  | _ => False

theorem known_of_answerable (h : answerable s.files pid = true) : s.Known pid := by
  intro hp
  unfold answerable at h
  rw [hp] at h
  simp at h

/-- The callback of a request returns. -/
theorem safe_callback {rq : NfsRequest} {token c : Nat}
    (hfind : s.nfs.requests.find? (·.token = token) = some rq) (hknown : s.Known rq.pid)
    (hk : s.files.Kinds c)
    (hlookup : ∀ a mode, rq.rt = .lookup a mode →
      s.files.allocated a = true ∧ (s.files.vnodes a).extra = .nfsFile none)
    (hdir : ∀ pos nbyte cpos, rq.rt = .dir pos nbyte cpos → cpos ≤ pos) :
    Safe (callback rq.rt.callback token ans) s := by
  unfold callback getRequest
  rw [safe_bind, wp_bind, wp_get, wp_pure, hfind]
  dsimp only
  rw [safe_bind, wp_modify]
  have hknown' : (s.resumed rq).Known rq.pid := hknown
  cases hrt : rq.rt with
  | lookup a mode =>
    obtain ⟨halloc, hextra⟩ := hlookup a mode hrt
    exact safe_lookupCb hknown' hk halloc hextra
  | read a fd pos nbyte => exact safe_readCb hknown'
  | write a fd offset nbyte => exact safe_writeCb hknown'
  | stat path => exact Safe.remove (safe_syscallReply hknown' _) rq
  | dir pos nbyte cpos => exact safe_getdirentCb hknown' (hdir pos nbyte cpos hrt)
  | remove path => exact Safe.remove (safe_syscallReply hknown' _) rq

/-- The completion of a call returns, as long as its process is there. -/
theorem completion_returns (hs : s.Sorted) (hser : s.nfs.Serial) (hawait : s.Awaiting)
    (hdirs : s.Directories) (hone : s.Once c pid) (hans : answerable s.files pid = true)
    (he : Enabled s e) (hc : Completing s c e) : ∃ t, Step s e t := by
  have hknown := known_of_answerable hans
  have hpid : ∀ q : Pid, (c, q) ∈ s.tags → s.Known q := fun q hq => by
    have hmem : (c, q) ∈ s.tags.filter (fun x => x.1 = c) :=
      List.mem_filter.mpr ⟨hq, by simp⟩
    rw [hone.one, List.mem_singleton] at hmem
    rw [(Prod.mk.inj hmem).2]
    exact hknown
  suffices hsafe : Safe (handle e) s by
    obtain ⟨⟨⟩, t, ht, -⟩ := hsafe.returns
    exact ⟨t, he, ht⟩
  cases e <;> try exact absurd hc id
  case rpcReply i ans =>
    have hi : i < s.nfs.rpcs.length := he.2
    obtain ⟨rq, hrq, hid⟩ := hc
    obtain ⟨head, rest, hr, -, htok, hcb, -⟩ := hser.received (List.getElem?_eq_getElem hi)
    obtain rfl : head = rq := by
      rw [hr] at hrq
      exact Option.some.inj hrq
    have hmem : head ∈ s.nfs.requests := by rw [hr]; exact List.mem_cons_self
    have hk : s.Known head.pid := by
      refine hpid _ (List.mem_append.mpr (.inr (List.mem_append.mpr (.inl ?_))))
      exact List.mem_map.mpr ⟨head, hmem, by rw [hid]⟩
    have hr' : (s.received i).nfs.requests = head :: rest := hr
    have hfind := Nfs.find?_token hr' htok
    unfold handle
    rw [safe_get, List.getElem?_eq_getElem hi]
    dsimp only
    rw [safe_bind, wp_modifyNfs, hcb]
    refine safe_callback (s := s.received i) hfind hk hs.files (fun a mode hrt => ?_)
      (hdirs head hmem)
    exact hawait.pending a (List.mem_filterMap.mpr ⟨head, hmem, by rw [hrt]; rfl⟩)
  case serial newline =>
    refine safe_serialReadCallback (fun r hr => ?_) newline
    obtain ⟨r', hr', hid⟩ := hc
    obtain rfl := Option.mem_unique hr hr'
    refine hpid _ (List.mem_append.mpr (.inr (List.mem_append.mpr (.inr ?_))))
    rw [Option.mem_def.mp hr]
    simp [hid]

/-! ## The theorem -/

/-- A name that `vfs_stat` or `vfs_remove` is given does not fit into a message of the NFS library.
The root server writes behind the message or stops in `addtobuf`; `issue` sends such a name. -/
def LongName : Event → Prop
  | .stat _ path | .remove _ path => nfsMaxName < path.length
  | _ => False

/-- The steps that keep the vnodes in order and ask the library for nothing it cannot send. -/
def Benign (s : Vfs) (e : Event) : Prop :=
  ¬ MakesLockedOut s e ∧ ¬ SharesLookup s e ∧ ¬ OpensConsoleFull s e ∧ s.files.NoWrap ∧ ¬ LongName e

/-- A run of benign steps, before each of which the process can be replied to. -/
def Later (pid : Pid) : Vfs → Vfs → Prop :=
  Relation.ReflTransGen fun s t => answerable s.files pid = true ∧ ∃ e, Benign s e ∧ Step s e t

/-- The replies to a call. -/
def repliesTo (s : Vfs) (c : Nat) : List Answer := s.replies.filter fun r => r.caller.id = c

/-- How many requests and readers wait on behalf of a call. -/
def waiting (s : Vfs) (c : Nat) : Nat := s.pending.countP fun x => x.id = c

theorem Once.replies (h : s.Once c pid) :
    (s.repliesTo c).length + s.waiting c = 1 ∧ ∀ r ∈ s.repliesTo c, r.pid = pid := by
  constructor
  · have hcount : s.tags.countP (fun x => x.1 = c) = 1 := by
      rw [List.countP_eq_length_filter, h.one]
      rfl
    rw [← hcount]
    simp only [repliesTo, waiting, tags, pending, ← List.countP_eq_length_filter,
      List.countP_append, List.countP_map, Function.comp_def]
    cases s.console.reader <;> simp
  · intro r hr
    obtain ⟨hmem, hid⟩ := List.mem_filter.mp hr
    have htag : (r.caller.id, r.pid) ∈ s.tags.filter (fun x => x.1 = c) :=
      List.mem_filter.mpr ⟨List.mem_append.mpr (.inl (List.mem_map.mpr ⟨r, hmem, rfl⟩)), hid⟩
    rw [h.one, List.mem_singleton] at htag
    exact (Prod.mk.inj htag).2

/-- What holds in every run of benign steps. -/
structure Regular (s : Vfs) : Prop where
  sorted : s.Sorted
  accounted : s.Accounted
  serial : s.nfs.Serial
  awaiting : s.Awaiting
  numbered : s.Numbered
  directories : s.Directories

theorem regular_of_started (h : Started s) : s.Regular := by
  refine ⟨sorted_of_started h, accounted_of_started h, serial_of_started h, awaiting_of_started h,
    ?_, ?_⟩ <;>
  · obtain ⟨_, _, _, rfl, -⟩ := h
    exact nofun

theorem Step.regular (hst : Step s e t) (h : s.Regular) (hb : Benign s e) : t.Regular where
  sorted := hst.sorted h.sorted hb.1
  accounted := hst.accounted h.sorted h.accounted hb.2.2.2.1 hb.1
  serial := hst.serial h.serial
  awaiting := hst.awaiting h.serial h.sorted h.accounted h.awaiting hb.1 hb.2.1
  numbered := hst.numbered h.serial h.numbered
  directories := hst.directories h.directories

theorem Reachable.regular (h : Reachable Benign s) : s.Regular :=
  h.invariant (fun _ => regular_of_started) fun _ _ _ hs hb hst => hst.regular hs hb

theorem Later.once (hrun : Later pid t u) (hreg : t.Regular) (h : t.Once c pid) :
    u.Regular ∧ u.Once c pid := by
  induction hrun with
  | refl => exact ⟨hreg, h⟩
  | tail _ hstep ih =>
    obtain ⟨hans, e, hb, hst⟩ := hstep
    exact ⟨hst.regular ih.1 hb, hst.once ih.1.serial hans ih.2⟩

end Sos.Vfs
