import Sos.Properties.Requests
import Sos.Vfs.Ledger

/-!
# Lookups and open files

A vnode is linked when its lookup is requested, and nobody has it open until the lookup is answered.
`Files.Lookups` says how the vnodes stand to the lookups in the queue: those that are looked up have
no handle and no user, all the others have a handle. It is kept as long as no second open finds a
vnode whose lookup is under way (`SharesLookup`): that open succeeds at once.
-/

namespace Sos

variable {n : Nfs} {head : NfsRequest} {rest : List NfsRequest}

/-- The vnode a request looks up. -/
def RequestType.lookup? : RequestType → Option Nat
  | .lookup a _ => some a
  | _ => none

/-- The vnodes that are being looked up. -/
def Nfs.lookups (n : Nfs) : List Nat := n.requests.filterMap (·.rt.lookup?)

namespace Files

variable {f g : Files} {a b c : Nat} {ls ls' : List Nat} {pid : Pid} {p : Process} {i : Fin 16}

/-- The vnodes in `ls` are being looked up, and all the others are known. -/
structure Lookups (c : Nat) (ls : List Nat) (f : Files) : Prop where
  nodup : ls.Nodup
  pending : ∀ a ∈ ls, f.allocated a = true ∧ (f.vnodes a).extra = .nfsFile none
  unreferenced : ∀ x, f.Refers x → x.1 ∉ ls
  handle : ∀ a, f.allocated a = true → a = c ∨ a ∈ ls ∨
    ∃ fh, (f.vnodes a).extra = .nfsFile (some fh)

/-- An open file has a handle, or is the console. -/
theorem Lookups.handle_of_refers (h : f.Lookups c ls) (hc : f.Counts) {x : Nat × Nat}
    (hx : f.Refers x) : x.1 = c ∨ ∃ fh, (f.vnodes x.1).extra = .nfsFile (some fh) := by
  rcases h.handle x.1 (hc.live x hx).1 with hconsole | hl | hfh
  · exact .inl hconsole
  · exact absurd hl (h.unreferenced x hx)
  · exact .inr hfh

/-- Vnodes are freed, references go, and a lookup may end with a handle. -/
theorem Lookups.mono (h : f.Lookups c ls) (hsub : ls'.Sublist ls)
    (hpend : ∀ a ∈ ls', g.allocated a = f.allocated a ∧ (g.vnodes a).extra = (f.vnodes a).extra)
    (href : ∀ x, g.Refers x → f.Refers x ∨ x.1 ∉ ls')
    (hhandle : ∀ a, g.allocated a = true → a = c ∨ a ∈ ls' ∨
      (∃ fh, (g.vnodes a).extra = .nfsFile (some fh)) ∨
        f.allocated a = true ∧ a ∉ ls ∧ (g.vnodes a).extra = (f.vnodes a).extra) :
    g.Lookups c ls' where
  nodup := h.nodup.sublist hsub
  pending := fun a ha => by
    obtain ⟨halloc, he⟩ := hpend a ha
    rw [halloc, he]
    exact h.pending a (hsub.subset ha)
  unreferenced := fun x hx hmem => by
    rcases href x hx with hf | hnot
    · exact h.unreferenced x hf (hsub.subset hmem)
    · exact hnot hmem
  handle := fun a ha => by
    rcases hhandle a ha with hc | hl | hfh | ⟨hf, hnot, he⟩
    · exact .inl hc
    · exact .inr (.inl hl)
    · exact .inr (.inr hfh)
    · rcases h.handle a hf with hc | hl | hfh
      · exact .inl hc
      · exact absurd hl hnot
      · exact .inr (.inr (he ▸ hfh))

/-- The vnodes are the same, and no reference is new. -/
theorem Lookups.congr (h : f.Lookups c ls) (halloc : g.allocated = f.allocated)
    (hextra : ∀ a, (g.vnodes a).extra = (f.vnodes a).extra) (href : ∀ x, g.Refers x → f.Refers x) :
    g.Lookups c ls := by
  refine h.mono (List.Sublist.refl _) (fun a _ => ⟨by rw [halloc], hextra a⟩)
    (fun x hx => .inl (href x hx)) fun a ha => ?_
  rw [halloc] at ha
  rcases h.handle a ha with hc | hl | ⟨fh, hfh⟩
  · exact .inl hc
  · exact .inr (.inl hl)
  · exact .inr (.inr (.inl ⟨fh, (hextra a).trans hfh⟩))

theorem Lookups.quiet (h : f.Lookups c ls) (hq : f.Quiet g) : g.Lookups c ls := by
  have hrest := hq.rest
  refine h.congr (by rw [hrest]) (fun a => ?_) fun x => refers_congr hq.held (by rw [hrest])
  obtain ⟨_, _, _, hv⟩ := hq.vnode a
  rw [hv]

/-- A vnode that is not looked up, or no longer, is dropped; what was in it does not matter. -/
theorem Lookups.drop (h : f.Lookups c ls) (hsub : ls'.Sublist ls) (ha : a ∉ ls')
    (hls : ∀ b ∈ ls, b = a ∨ b ∈ ls') (v : VNode) : ((f.setVnode a v).drop a).Lookups c ls' := by
  have hrel := (f.setVnode a v).relinked_removeVnode a
  have halloc : ((f.setVnode a v).drop a).allocated = Function.update f.allocated a false := by
    change Function.update ((f.setVnode a v).removeVnode a).allocated a false = _
    rw [hrel.allocated]
    rfl
  have hextra : ∀ b, b ≠ a →
      (((f.setVnode a v).drop a).vnodes b).extra = (f.vnodes b).extra := fun b hb => by
    have hother := congrArg VNode.extra (setVnode_vnodes_of_ne ((f.setVnode a v).removeVnode a)
      { ((f.setVnode a v).removeVnode a).vnodes a with extra := .null } hb)
    refine hother.trans ((hrel.extra b).trans ?_)
    rw [setVnode_vnodes_of_ne _ _ hb]
  refine h.mono hsub (fun b hb => ?_) (fun x hx => .inl ?_) fun b hb => ?_
  · have hba : b ≠ a := fun hba => ha (hba ▸ hb)
    exact ⟨by rw [halloc, Function.update_of_ne hba], hextra b hba⟩
  · exact refers_congr (held_congr ((f.setVnode a v).drop_sosProcs a))
      ((f.setVnode a v).drop_lost a) hx
  · have hba : b ≠ a := by
      rintro rfl
      simp [halloc] at hb
    rw [halloc, Function.update_of_ne hba] at hb
    by_cases hbl : b ∈ ls
    · exact .inr (.inl ((hls b hbl).resolve_left hba))
    · exact .inr (.inr (.inr ⟨hb, hbl, hextra b hba⟩))

theorem Lookups.openErr (h : f.Lookups c ls) (ha : a ∉ ls) : (f.openErr a).Lookups c ls := by
  unfold Files.openErr
  split
  · have hdrop := h.drop (List.Sublist.refl _) ha (fun b hb => .inr hb) (f.vnodes a)
    rwa [show f.setVnode a (f.vnodes a) = f by simp [Files.setVnode]] at hdrop
  · exact h

/-- A lookup has succeeded. -/
theorem Lookups.filled (h : f.Lookups c (a :: ls)) (ans : RpcAnswer) :
    (f.filled a ans).Lookups c ls := by
  refine Lookups.quiet ?_ (.cpStats _ a ans.attr)
  have hnot := (List.nodup_cons.mp h.nodup).1
  refine h.mono (List.sublist_cons_self a ls) (fun b hb => ?_) (fun x hx => .inl hx) fun b hb => ?_
  · have hba : b ≠ a := fun hba => hnot (hba ▸ hb)
    exact ⟨rfl, by rw [setVnode_vnodes_of_ne _ _ hba]⟩
  · by_cases hba : b = a
    · subst hba
      rw [setVnode_vnodes_self]
      exact .inr (.inr (.inl ⟨ans.fh, rfl⟩))
    · rw [setVnode_vnodes_of_ne _ _ hba]
      by_cases hbl : b ∈ ls
      · exact .inr (.inl hbl)
      · exact .inr (.inr (.inr ⟨hb, by simp [hba, hbl], rfl⟩))

/-- Nobody has a vnode open that is looked up. -/
theorem Lookups.unused (h : f.Lookups c ls) (hc : f.Counts) (ha : a ∈ ls) :
    (f.vnodes a).unused := by
  refine VNode.unused_iff.mpr fun r => ?_
  have hzero : f.refs r a = 0 := refs_eq_zero_iff.mpr fun x hx => by
    have hxa : x.1 ≠ a := fun hxa => h.unreferenced x hx (hxa ▸ ha)
    simp [grants, hxa]
  rw [hc.counted a r (h.pending a ha).1, hzero, Nat.zero_mod]

theorem Lookups.made (h : f.Lookups c ls) (hc : f.Counts) (ha : f.allocated a = false) (path : Path)
    (readers writers : Nat) :
    ((f.made a path readers writers).addVnode a).Lookups c (ls ++ [a]) := by
  have hrel := (f.made a path readers writers).relinked_addVnode a
  have halloc : ((f.made a path readers writers).addVnode a).allocated =
      Function.update f.allocated a true := hrel.allocated
  have hnot : a ∉ ls := fun hl => by simp [(h.pending a hl).1] at ha
  have hother : ∀ b, b ≠ a →
      (((f.made a path readers writers).addVnode a).vnodes b).extra = (f.vnodes b).extra :=
    fun b hb => by rw [hrel.extra, f.made_vnodes_of_ne path readers writers hb]
  have hself : (((f.made a path readers writers).addVnode a).vnodes a).extra = .nfsFile none := by
    rw [hrel.extra]
    simp [Files.made, opening]
  have hheld : ((f.made a path readers writers).addVnode a).held = f.held :=
    held_congr (Files.addVnode_sosProcs ..)
  have hlost : ((f.made a path readers writers).addVnode a).lost = f.lost := by rw [hrel.rest]; rfl
  refine ⟨?_, fun b hb => ?_, fun x hx hmem => ?_, fun b hb => ?_⟩
  · exact List.nodup_append.mpr ⟨h.nodup, by simp, fun b hb d hd => by
      rintro rfl
      exact hnot (List.mem_singleton.mp hd ▸ hb)⟩
  · by_cases hba : b = a
    · subst hba
      exact ⟨by rw [halloc, Function.update_self], hself⟩
    · have hbl : b ∈ ls := by simpa [hba] using hb
      rw [halloc, Function.update_of_ne hba, hother b hba]
      exact h.pending b hbl
  · have hx' : f.Refers x := refers_congr hheld hlost hx
    rcases List.mem_append.mp hmem with hl | hxa
    · exact h.unreferenced x hx' hl
    · have := (hc.live x hx').1
      rw [List.mem_singleton.mp hxa, ha] at this
      simp at this
  · by_cases hba : b = a
    · exact .inr (.inl (by simp [hba]))
    · rw [halloc, Function.update_of_ne hba] at hb
      rw [hother b hba]
      rcases h.handle b hb with hc | hl | hfh
      · exact .inl hc
      · exact .inr (.inl (by simp [hl]))
      · exact .inr (.inr hfh)

theorem Lookups.install (h : f.Lookups c ls) {fd : Fin 19} {mode : Nat} {v : VNode}
    (hp : f.sosProcs pid = .pcb p) (ha : a ∉ ls) (hv : (f.vnodes a).increaseRefs mode = .ok v) :
    (f.install pid p fd i a mode v).Lookups c ls := by
  have hheld : (f.install pid p fd i a mode v).held = _ := held_install hp
  have hextra : ∀ b, ((f.install pid p fd i a mode v).vnodes b).extra = (f.vnodes b).extra := by
    intro b
    by_cases hb : b = a
    · subst hb
      exact (congrArg VNode.extra (setVnode_vnodes_self ..)).trans (VNode.increaseRefs_extra hv)
    · exact congrArg VNode.extra (setVnode_vnodes_of_ne _ _ hb)
  refine h.mono (List.Sublist.refl _) (fun b _ => ⟨rfl, hextra b⟩) (fun x hx => ?_) fun b hb => ?_
  · rcases refers_update hheld rfl hx with hnew | hold
    · obtain rfl := Option.some.inj hnew
      exact .inr ha
    · exact .inl hold
  · by_cases hbl : b ∈ ls
    · exact .inr (.inl hbl)
    · exact .inr (.inr (.inr ⟨hb, hbl, hextra b⟩))

theorem Lookups.unname (h : f.Lookups c ls) {fd : Int} (hp : f.sosProcs pid = .pcb p) :
    (f.unname pid p fd i a).Lookups c ls := by
  refine h.congr ?_ (fun b => ?_) fun x hx => ?_
  · unfold Files.unname
    split <;> rfl
  · unfold Files.unname
    split
    · by_cases hb : b = a
      · subst hb
        rw [setVnode_vnodes_self]
        rfl
      · rw [setVnode_vnodes_of_ne _ _ hb]
        rfl
    · rfl
  · have hheld : (f.unname pid p fd i a).held = _ := held_unname hp
    split at hheld
    · rcases refers_update hheld (f.unname_lost pid p fd i a) hx with hnew | hold
      · simp at hnew
      · exact hold
    · exact refers_congr hheld (f.unname_lost pid p fd i a) hx

theorem Lookups.upd (h : f.Lookups c ls) {u : Process → Process}
    (hu : ∀ p i, ((u p).files i).open? = (p.files i).open?) : (f.upd pid u).Lookups c ls :=
  h.congr (upd_allocated ..) (fun _ => by rw [upd_vnodes])
    fun _ => refers_congr (held_upd hu) (upd_lost ..)

theorem Lookups.dupTo (h : f.Lookups c ls) (pid : Pid) (forig fdup : Int) (i : Fin 16) :
    (f.dupTo pid forig fdup i).Lookups c ls := by
  refine h.congr ?_ (fun _ => ?_) fun _ => refers_congr (f.held_dupTo pid forig fdup i) ?_ <;>
    simp [Files.dupTo]

end Files

theorem Nfs.Ordered.rest_id_ne (h : n.Ordered)
    (hr : n.requests = head :: rest) : ∀ r ∈ rest, r.id ≠ head.id := by
  intro r hmem
  have hids := h.ids
  rw [hr, List.map_cons, List.length_cons, List.range'_succ] at hids
  have hrid : r.id ∈ List.range' (n.completed.length + 1) rest.length := by
    rw [← (List.cons.inj hids).2]
    exact List.mem_map_of_mem hmem
  have hlow := (List.mem_range'_1.mp hrid).1
  rw [(List.cons.inj hids).1]
  omega

@[simp] theorem Nfs.lookups_request (n : Nfs) (f : Files) (pid : Pid) (rt : RequestType)
    (c : Caller) : (n.request f pid rt c).lookups = n.lookups ++ rt.lookup?.toList := by
  unfold Nfs.lookups
  rw [Nfs.request_requests, List.filterMap_append]
  cases hl : rt.lookup? <;> simp [Nfs.newRequest, hl]

theorem Nfs.lookups_remove (hr : n.requests = head :: rest) (f : Files) :
    (n.remove f head).lookups = rest.filterMap (·.rt.lookup?) := by
  unfold Nfs.lookups
  rw [Nfs.remove_requests, hr, List.eraseP_cons_of_pos (by simp)]

theorem Nfs.lookups_cons (hr : n.requests = head :: rest) :
    n.lookups = head.rt.lookup?.toList ++ rest.filterMap (·.rt.lookup?) := by
  unfold Nfs.lookups
  rw [hr]
  cases hl : head.rt.lookup? <;> simp [hl]

/-! ## Steps -/

namespace Vfs

open Files

variable {s t : Vfs} {e : Event} {pid : Pid} {a mode c : Nat} {ls : List Nat} {status : Int}

/-- An open finds a vnode whose lookup is still in the queue. -/
def SharesLookup (s : Vfs) : Event → Prop
  | .open pid path mode readers writers _ | .psOpen pid path mode readers writers _ =>
    (readers % wordLimit = fmUnlimitedRw ∧ writers % wordLimit = fmUnlimitedRw) ∧
      ∃ a ∈ s.nfs.lookups, s.openTarget pid path (mode % 256) = some (some a)
  | _ => False

instance (s : Vfs) (e : Event) : Decidable (SharesLookup s e) := by
  unfold SharesLookup
  rcases e <;> infer_instance

theorem OpenDone.lookups (ho : OpenDone s pid a mode status t) (hk : s.files.Kinds c)
    (h : s.files.Lookups c ls) (ha : a ∉ ls) : t.files.Lookups c ls := by
  cases ho with
  | gone => exact h.openErr ha
  | failed =>
    rw [replied_files]
    exact h.openErr ha
  | @full p v _ _ hv _ _ =>
    rw [replied_files]
    have hback : s.files.setVnode a (v.decreaseRefs mode) = s.files := by
      rw [(hk.small a).decreaseRefs_increaseRefs hv]
      simp [Files.setVnode]
    rw [hback]
    exact h.openErr ha
  | done hp _ hv _ =>
    rw [replied_files]
    exact h.install hp ha hv

/-- A lookup has failed: the vnode is given up, as nobody has it open. -/
theorem OpenDone.lookups_of_failed (ho : OpenDone (s.withFiles (s.files.freeNfsfile a)) pid a mode
      status t) (hstatus : status ≠ vfsOk) (h : s.files.Lookups c (a :: ls))
    (hc : s.files.Counts) : t.files.Lookups c ls := by
  have hunused : ((s.files.freeNfsfile a).vnodes a).unused := by
    rw [Files.freeNfsfile, setVnode_vnodes_self]
    exact h.unused hc List.mem_cons_self
  have hdrop : ((s.files.freeNfsfile a).openErr a).Lookups c ls := by
    rw [Files.openErr, if_pos hunused]
    exact h.drop (List.sublist_cons_self a ls) (List.nodup_cons.mp h.nodup).1
      (fun b hb => List.mem_cons.mp hb) _
  cases ho with
  | gone => exact hdrop
  | failed =>
    rw [replied_files]
    exact hdrop
  | full _ hok | done _ hok => exact absurd hok hstatus

theorem Closed.lookups {fd : Int} (hc : Closed s pid fd t) (h : s.files.Lookups c ls) :
    t.files.Lookups c ls := by
  cases hc with
  | notOpen => exact h
  | kept ho _ hf _ =>
    rw [replied_files, hf]
    exact h.unname ho.1
  | @last p i a f ho ha hf _ _ _ =>
    have hnot : a ∉ ls :=
      h.unreferenced _ (.inl ⟨_, held_of_file ho.1 ha⟩)
    have hf' : f.Lookups c ls := hf ▸ h.unname ho.1
    rw [replied_files]
    exact hf'.drop (List.Sublist.refl _) hnot (fun b hb => .inr hb) _
  | console ho _ hf _ _ =>
    rw [replied_files, hf]
    exact h.unname ho.1

theorem Dupped.lookups {forig fdup : Int} (hd : Dupped s pid forig fdup t)
    (h : s.files.Lookups c ls) : t.files.Lookups c ls := by
  cases hd with
  | refused => rwa [replied_files]
  | copied =>
    rw [replied_files]
    exact h.dupTo ..
  | @replaced p i j u g _ _ _ hu =>
    rw [replied_files]
    have hclosed := hu.lookups (h.upd fun _ _ => rfl)
    have hon : (u.files.upd pid ({ · with ipcAccept := p.ipcAccept })).Lookups c ls :=
      hclosed.upd fun _ _ => rfl
    exact hon.dupTo ..

theorem Answers.lookups (ha : Answers s pid t) (h : s.files.Lookups c ls) :
    t.files.Lookups c ls := by
  obtain ⟨f, n, words, hf, rfl⟩ := ha
  rw [replied_files]
  exact h.quiet hf

/-- The vnodes stand to the queue as they should. -/
def Awaiting (s : Vfs) : Prop := s.files.Lookups s.console.vnode s.nfs.lookups

theorem awaiting_of_frame (hf : Frame s t) (hl : t.files.Lookups s.console.vnode s.nfs.lookups) :
    t.Awaiting := by
  unfold Awaiting
  rw [hf.console, hf.nfs]
  exact hl

theorem awaiting_of_started (h : Started s) : s.Awaiting := by
  have hacc := (accounted_of_started h).counts
  obtain ⟨sosProcs, incs, a, rfl, -⟩ := h
  refine ⟨List.nodup_nil, nofun, fun _ _ => nofun, fun b hb => .inl ?_⟩
  by_contra hba
  have hba : b ≠ a := hba
  simp [vfsInit, hba] at hb

theorem Opened.awaiting {path : Path} {readers writers block : Nat}
    (ho : Opened s pid path mode readers writers block t) (hs : s.Sorted) (hacc : s.Accounted)
    (h : s.Awaiting) (hblock : s.files.allocated block = false)
    (hlock : ¬ (s.openTarget pid path mode = some none ∧ LockedOut mode readers writers))
    (hshare : ¬ ((readers = fmUnlimitedRw ∧ writers = fmUnlimitedRw) ∧
      ∃ a ∈ s.nfs.lookups, s.openTarget pid path mode = some (some a))) : t.Awaiting := by
  cases ho with
  | null => exact h
  | refused =>
    exact awaiting_of_frame (frame_replied s s.files pid _ _) (by rw [replied_files]; exact h)
  | shared hp hpath hfind hlocks hd =>
    refine awaiting_of_frame hd.frame (hd.lookups hs.files h fun hmem =>
      hshare ⟨hlocks, _, hmem, ?_⟩)
    exact (openTarget_eq hp hpath).trans hfind
  | @made p path' f _ _ _ _ hf =>
    have hmade := h.made hacc.counts hblock path' readers writers
    rw [← hf] at hmade
    change (f.addVnode block).Lookups s.console.vnode
      (s.nfs.request f pid (.lookup block mode) s.caller).lookups
    rw [Nfs.lookups_request]
    exact hmade
  | lockedOut hp hpath hfind hl _ =>
    exact absurd ⟨(openTarget_eq hp hpath).trans hfind, hl⟩ hlock

theorem Completed.awaiting {i : Nat} {ans : RpcAnswer} {rpc : Rpc}
    (hc : Completed (s.received i) rpc.token ans t) (hser : s.nfs.Serial)
    (hi : s.nfs.rpcs[i]? = some rpc) (hs : s.Sorted) (hacc : s.Accounted) (h : s.Awaiting) :
    t.Awaiting := by
  obtain ⟨head, rest, hr, -, htok, -, -⟩ := hser.received hi
  have hr' : (s.received i).nfs.requests = head :: rest := hr
  have hfind := Nfs.find?_token hr' htok
  have hls : s.files.Lookups s.console.vnode
      (head.rt.lookup?.toList ++ rest.filterMap (·.rt.lookup?)) := by
    rw [← Nfs.lookups_cons hr]
    exact h
  -- What is left in the queue when the head has been removed.
  have hremoved : ∀ u : Vfs, u.nfs = (s.received i).nfs → u.console.vnode = s.console.vnode →
      u.files.Lookups s.console.vnode (rest.filterMap (·.rt.lookup?)) →
      (u.removed head).Awaiting := fun u hn hcon hu => by
    change u.files.Lookups u.console.vnode (u.nfs.remove u.files head).lookups
    rw [hcon, hn, Nfs.lookups_remove hr']
    exact hu
  cases hc with
  | unknown hn =>
    rw [hfind] at hn
    simp at hn
  | @lookedUp rq a mode u hrq hrt _ he ho =>
    obtain rfl := Option.mem_unique hrq hfind
    have hne : a ≠ s.console.vnode := fun ha =>
      hs.requests rq (by rw [hr]; exact List.mem_cons_self) (by rw [hrt, ha]; rfl)
    rw [hrt] at hls
    have hcons : s.files.Lookups s.console.vnode (a :: rest.filterMap (·.rt.lookup?)) := hls
    refine hremoved u ho.frame.nfs (congrArg Console.vnode ho.frame.console) ?_
    exact ho.lookups (hs.files.filled hne he ans) (hcons.filled ans)
      (List.nodup_cons.mp hcons.nodup).1
  | missing => exact h
  | @failed rq a mode u hrq hrt hst ho =>
    obtain rfl := Option.mem_unique hrq hfind
    rw [hrt] at hls
    have hcons : s.files.Lookups s.console.vnode (a :: rest.filterMap (·.rt.lookup?)) := hls
    refine hremoved u ho.frame.nfs (congrArg Console.vnode ho.frame.console) ?_
    exact ho.lookups_of_failed (NfsStatus.toVfs_ne_ok hst) hcons hacc.counts
  | @answered rq u hrq hrt ha =>
    obtain rfl := Option.mem_unique hrq hfind
    have hnone : rq.rt.lookup? = none := by
      cases hl : rq.rt with
      | lookup a mode => exact absurd hl (hrt a mode)
      | _ => rfl
    rw [hnone] at hls
    obtain ⟨n, hf⟩ := ha.frame
    refine hremoved u hf.nfs ?_ (ha.lookups hls)
    rw [hf.console]
    rfl
  | @more rq pos nbyte cpos cpos' cookie hrq hrt _ =>
    obtain rfl := Option.mem_unique hrq hfind
    change s.files.Lookups s.console.vnode ((s.nfs.requests.map fun r =>
      if r.id = rq.id then { r with rt := .dir pos nbyte cpos' } else r).filterMap (·.rt.lookup?))
    have hrest : (rest.map fun r => if r.id = rq.id then
        { r with rt := .dir pos nbyte cpos' } else r) = rest := by
      conv_rhs => rw [← List.map_id rest]
      refine List.map_congr_left fun r hmem => ?_
      rw [if_neg (hser.toOrdered.rest_id_ne hr r hmem)]
      rfl
    rw [hrt] at hls
    rw [hr, List.map_cons, hrest, if_pos rfl]
    exact hls

/-- An event after which the lookups are as they should be. -/
theorem Step.awaiting (hst : Step s e t) (hser : s.nfs.Serial) (hs : s.Sorted) (hacc : s.Accounted)
    (h : s.Awaiting) (hlock : ¬ MakesLockedOut s e) (hshare : ¬ SharesLookup s e) : t.Awaiting := by
  cases hst.handled with
  | opened own pid path mode readers writers block he ho =>
    have hblock : s.files.allocated block = false := by
      refine hst.1.1 block ?_
      rw [he]
      cases own <;> rfl
    refine ho.awaiting ⟨hs.files, hs.requests⟩ ⟨hacc.counts, hacc.modes⟩ h hblock
      (fun hm => hlock ?_) fun hm => hshare ?_
    · rw [he]
      cases own <;> exact hm
    · rw [he]
      cases own <;> exact hm
  | closed own pid fd _ hc => exact awaiting_of_frame hc.frame (hc.lookups h)
  | dupped own pid forig fdup _ hd => exact awaiting_of_frame hd.frame (hd.lookups h)
  | called own pid _ _ hc =>
    cases hc with
    | silent => exact h
    | answered ha =>
      obtain ⟨n, hf⟩ := ha.frame
      exact awaiting_of_frame hf (ha.lookups h)
    | @requested rt hrt =>
      have hnone : rt.lookup? = none := by
        cases rt with
        | lookup => exact absurd hrt id
        | _ => rfl
      change s.files.Lookups s.console.vnode (s.nfs.request s.files pid rt _).lookups
      rw [Nfs.lookups_request, hnone, Option.toList_none, List.append_nil]
      exact h
    | reader => exact h
  | completed i rpc ans _ hi hc => exact hc.awaiting hser hi hs hacc h
  | typed newline _ ht =>
    cases ht with
    | idle => exact h
    | kept => exact h
    | @line r u _ ha =>
      obtain ⟨n, hf⟩ := ha.frame
      have hu : u.Awaiting := awaiting_of_frame hf (ha.lookups h)
      exact hu
  | reserved pid he | spawned pid p he =>
    have hnone : s.process? pid = none := (he ▸ hst.1).2
    exact h.congr rfl (fun _ => rfl) fun _ => refers_congr (held_withSlot hnone fun _ => rfl) rfl
  | turned => exact h.upd fun _ _ => rfl
  | retired pid p _ hp => exact h.congr rfl (fun _ => rfl) fun _ => refers_retire hp

theorem Reachable.awaiting {C : Vfs → Event → Prop}
    (hC : ∀ s e, C s e → ¬ MakesLockedOut s e ∧ ¬ SharesLookup s e ∧ s.files.NoWrap)
    (h : Reachable C s) : s.Sorted ∧ s.Accounted ∧ s.nfs.Serial ∧ s.Awaiting := by
  refine h.invariant (I := fun s => s.Sorted ∧ s.Accounted ∧ s.nfs.Serial ∧ s.Awaiting)
    (fun s hs => ⟨sorted_of_started hs, accounted_of_started hs, serial_of_started hs,
      awaiting_of_started hs⟩) fun s e t hI hc hst => ?_
  obtain ⟨hs, hacc, hser, h⟩ := hI
  obtain ⟨hlock, hshare, hwrap⟩ := hC s e hc
  exact ⟨hst.sorted hs hlock, hst.accounted hs hacc hwrap hlock, hst.serial hser,
    hst.awaiting hser hs hacc h hlock hshare⟩

/-! ## Descriptors that are handed out -/

/-- What the replies of an open are: an error, or a descriptor of a file that is special or has been
looked up. -/
def Grants (s t : Vfs) : Prop :=
  ∃ new, t.replies = s.replies ++ new ∧ ∀ r ∈ new, ∀ w ∈ r.words, 0 ≤ w →
    ∃ p i a, t.OpenFd r.pid w p i ∧ (p.files i).vnode = some a ∧
      (a = t.console.vnode ∨ ∃ fh, (t.files.vnodes a).extra = .nfsFile (some fh))

theorem Grants.of_eq (h : t.replies = s.replies) : Grants s t :=
  ⟨[], by rw [h, List.append_nil], nofun⟩

/-- The one reply that may be sent. -/
theorem Grants.of_replied {f : Files} {words : List Int} {opened : Option Nat}
    (h : ∀ w ∈ words, 0 ≤ w → ∃ p i a, f.sosProcs pid = .pcb p ∧ p.vfile? w = some i ∧
      (p.files i).vnode = some a ∧
      (a = s.console.vnode ∨ ∃ fh, (f.vnodes a).extra = .nfsFile (some fh))) :
    Grants s ((s.withFiles f).replied pid words opened) := by
  unfold replied
  split
  · refine ⟨[⟨pid, words, s.caller, opened⟩], rfl, fun r hr w hw hpos => ?_⟩
    obtain rfl := List.mem_singleton.mp hr
    obtain ⟨p, i, a, hp, hi, ha, hknown⟩ := h w hw hpos
    exact ⟨p, i, a, ⟨hp, hi⟩, ha, hknown⟩
  · exact .of_eq rfl

theorem grants_error {f : Files} {rval : Int} (h : rval < 0) :
    Grants s ((s.withFiles f).replied pid [rval]) := by
  refine .of_replied fun w hw hpos => ?_
  obtain rfl := List.mem_singleton.mp hw
  omega

theorem increaseRefs_error_neg {v : VNode} {rval : Int} (h : v.increaseRefs mode = .error rval) :
    rval < 0 := by
  unfold VNode.increaseRefs at h
  split at h
  · obtain rfl := Except.error.inj h
    decide
  · split at h
    · obtain rfl := Except.error.inj h
      decide
    · simp at h

theorem OpenDone.grants (ho : OpenDone s pid a mode status t)
    (hstatus : status = vfsOk ∨ status < 0)
    (hknown : status = vfsOk →
      a = s.console.vnode ∨ ∃ fh, (s.files.vnodes a).extra = .nfsFile (some fh)) : Grants s t := by
  cases ho with
  | gone => exact .of_eq rfl
  | @failed p rval _ _ hr =>
    refine grants_error ?_
    rcases hr with ⟨hne, rfl⟩ | ⟨-, herr⟩
    · exact hstatus.resolve_left hne
    · exact increaseRefs_error_neg herr
  | full => exact grants_error (by decide)
  | @done p v fd i hp hok hv _ =>
    refine .of_replied fun w hw _ => ?_
    obtain rfl := List.mem_singleton.mp hw
    refine ⟨_, i, a, Function.update_self .., ?_, ?_, ?_⟩
    · refine Process.vfile?_eq_some.mpr ⟨fd, rfl, ?_, ?_⟩ <;> simp [Process.setFile]
    · simp [Process.setFile]
    · refine (hknown hok).imp_right ?_
      rw [← VNode.increaseRefs_extra hv]
      rintro ⟨fh, hfh⟩
      exact ⟨fh, (congrArg VNode.extra (setVnode_vnodes_self ..)).trans hfh⟩

theorem Opened.grants {path : Path} {readers writers block : Nat}
    (ho : Opened s pid path mode readers writers block t) (hs : s.Sorted) (h : s.Awaiting)
    (hlock : ¬ (s.openTarget pid path mode = some none ∧ LockedOut mode readers writers))
    (hshare : ¬ ((readers = fmUnlimitedRw ∧ writers = fmUnlimitedRw) ∧
      ∃ a ∈ s.nfs.lookups, s.openTarget pid path mode = some (some a))) : Grants s t := by
  cases ho with
  | null => exact .of_eq rfl
  | refused _ hneg => exact grants_error (f := s.files) hneg
  | @shared p path' a _ hp hpath hfind hlocks hd =>
    refine hd.grants (.inl rfl) fun _ => ?_
    rcases h.handle a (hs.files.listed.allocated_of_find hfind) with hc | hl | hfh
    · exact .inl hc
    · exact absurd ⟨hlocks, a, hl, (openTarget_eq hp hpath).trans hfind⟩ hshare
    · exact .inr hfh
  | made => exact .of_eq rfl
  | lockedOut hp hpath hfind hl _ =>
    exact absurd ⟨(openTarget_eq hp hpath).trans hfind, hl⟩ hlock

theorem Completed.grants {token : Nat} {ans : RpcAnswer} (hc : Completed s token ans t)
    (hfind : ∀ rq, s.nfs.requests.find? (·.token = token) = some rq → rq.rt.lookup?.isSome) :
    Grants s t := by
  cases hc with
  | unknown => exact .of_eq rfl
  | @lookedUp rq a mode u _ _ _ _ ho =>
    refine ho.grants (.inl rfl) fun _ => .inr ⟨ans.fh, ?_⟩
    simp [withFiles, Files.filled, Files.cpStats]
  | missing => exact .of_eq rfl
  | failed _ _ hst ho =>
    exact ho.grants (.inr (NfsStatus.toVfs_neg hst)) fun hok =>
      absurd hok (NfsStatus.toVfs_ne_ok hst)
  | @answered rq u hrq hrt _ =>
    have hsome := hfind rq hrq
    cases hl : rq.rt with
    | lookup a mode => exact absurd hl (hrt a mode)
    | _ => rw [hl] at hsome; simp [RequestType.lookup?] at hsome
  | more => exact .of_eq rfl

/-- An event by which opens are answered: an open, or the answer of the library to a lookup. -/
def AnswersOpen (s : Vfs) : Event → Prop
  | .open .. | .psOpen .. => True
  | .rpcReply .. => ∃ rq ∈ s.nfs.requests.head?, rq.rt.lookup?.isSome
  | _ => False

end Vfs

end Sos
