import Sos.Properties.Descriptors
import Sos.Vfs.Total

/-!
# The files of a deleted process

`processDelete` is run by the pager. It has the files of the process closed by messages to the root
server, one pair for each descriptor below `PROCESS_MAX_FILES`, and takes the process out of the
table itself, right after the last one is sent. The root server looks the process up again for every
message, so that the files are closed if the messages are handled before the process goes, and if no
descriptor from `PROCESS_MAX_FILES` on is in use.
-/

namespace Sos

open RefCount

/-- How many entries of `files` are open on a vnode, with the right. -/
def Process.holds (p : Process) (r : Right) (a : Nat) : Nat :=
  (Finset.univ.filter fun i : Fin 16 =>
    (p.files i).vnode = some a ∧ r.granted (p.files i).fmode = true).card

namespace Files

variable {f g : Files} {pid : Pid} {p q : Process} {i : Fin 16} {a : Nat} {fd : Int}

theorem holds_eq_count (hp : f.sosProcs pid = .pcb p) (r : Right) (a : Nat) :
    p.holds r a = count (fun i => f.held (pid, i)) (grants a r) := by
  unfold Process.holds count
  rw [Finset.card_filter]
  refine Finset.sum_congr rfl fun i _ => ?_
  cases hv : (p.files i).vnode with
  | none => simp [mark, held, hp, Slot.held, VFile.open?, hv]
  | some b => simp [mark, held, hp, Slot.held, VFile.open?, hv, grants]

theorem holds_congr (hp : f.sosProcs pid = .pcb p) (hq : g.sosProcs pid = .pcb q)
    (hheld : g.held = f.held) (r : Right) (a : Nat) : q.holds r a = p.holds r a := by
  rw [holds_eq_count hp, holds_eq_count hq, hheld]

/-- With the last descriptor of an entry the vnode loses what the entry counted for. -/
theorem count_unname (h : f.Counts) (hwrap : f.NoWrap) (hp : f.sosProcs pid = .pcb p)
    (ha : (p.files i).vnode = some a) (hq : (f.unname pid p fd i a).sosProcs pid = .pcb q)
    (r : Right) (b : Nat) :
    (f.vnodes b).count r + q.holds r b = ((f.unname pid p fd i a).vnodes b).count r +
      p.holds r b := by
  have hsome := held_of_file hp ha
  have halloc := h.allocated hp ha
  have hheld : (f.unname pid p fd i a).held = _ := held_unname hp
  by_cases href : ((p.files i).ref - 1) % wordLimit = 0
  · rw [if_pos href] at hheld
    have hrow : (fun j => (f.unname pid p fd i a).held (pid, j)) =
        Function.update (fun j => f.held (pid, j)) i none := by
      funext j
      rw [hheld]
      by_cases hj : j = i
      · subst hj
        simp
      · simp [hj]
    have hholds : q.holds r b + mark (grants b r) (some (a, (p.files i).fmode)) = p.holds r b := by
      have := count_update (fun j => f.held (pid, j)) (grants b r) i none
      rw [holds_eq_count hp, holds_eq_count hq, hrow]
      simpa [hsome] using this
    by_cases hb : b = a
    · subst hb
      have hafter := h.unname hwrap fd hp ha
      have halloc' : (f.unname pid p fd i b).allocated b = true := by
        unfold unname
        rw [if_pos href]
        exact halloc
      have hrefs := refs_update hheld (f.unname_lost pid p fd i b) r b
      rw [hsome, mark_none] at hrefs
      rw [h.count_eq hwrap halloc, hafter.count_eq (hwrap.unname hp) halloc']
      omega
    · have hother : (f.unname pid p fd i a).vnodes b = f.vnodes b := by
        unfold unname
        rw [if_pos href]
        exact setVnode_vnodes_of_ne _ _ hb
      have hnone : mark (grants b r) (some (a, (p.files i).fmode)) = 0 := by
        simp [mark, grants, Ne.symm hb]
      rw [hother]
      omega
  · rw [if_neg href] at hheld
    rw [holds_congr hp hq hheld]
    unfold unname
    rw [if_neg href]
    rfl

theorem count_freeNfsfile (f : Files) (a b : Nat) (r : Right) :
    ((f.freeNfsfile a).vnodes b).count r = (f.vnodes b).count r := by
  unfold freeNfsfile
  by_cases hb : b = a
  · subst hb
    rw [setVnode_vnodes_self]
    cases r <;> rfl
  · rw [setVnode_vnodes_of_ne _ _ hb]

/-- A vnode that is dropped leaves its counts in the memory that is given back. -/
theorem count_drop (f : Files) (a b : Nat) (r : Right) :
    ((f.drop a).vnodes b).count r = (f.vnodes b).count r := by
  obtain ⟨previous, next, hv⟩ := (f.relinked_removeVnode a).vnode b
  refine (count_freeNfsfile (f.removeVnode a) a b r).trans ?_
  rw [hv]
  cases r <;> rfl

end Files

namespace Vfs

open Files Hoare

variable {s v u t : Vfs} {e : Event} {pid : Pid} {p q : Process} {fd : Int}

/-! ## One message -/

/-- What is left of a process after a message on its behalf: the counts have dropped by the entries
that it no longer has. -/
structure Leaves (v : Vfs) (pid : Pid) (p : Process) (u : Vfs) (q : Process) : Prop where
  slot : u.files.sosProcs pid = .pcb q
  state : q.state = p.state
  fds : ∀ g, q.fds g = p.fds g ∨ q.fds g = vfsNilFile
  noWrap : u.files.NoWrap
  count : ∀ r a, (v.files.vnodes a).count r + q.holds r a = (u.files.vnodes a).count r + p.holds r a

theorem Leaves.same (hp : v.files.sosProcs pid = .pcb p) (hwrap : v.files.NoWrap)
    (hu : u.files = v.files) : Leaves v pid p u p :=
  ⟨by rw [hu, hp], rfl, fun _ => .inl rfl, hu ▸ hwrap, fun _ _ => by rw [hu]⟩

theorem Closed.leaves (hc : Closed v pid fd u) (hcounts : v.files.Counts) (hwrap : v.files.NoWrap)
    (htab : p.Tabled) (hp : v.files.sosProcs pid = .pcb p) :
    ∃ q, Leaves v pid p u q ∧ ∀ g : Fin 19, (g : Int) = fd → q.fds g = vfsNilFile := by
  by_cases hn : v.NotOpen pid fd
  · have hu : u = v := by
      cases hc with
      | notOpen => rfl
      | kept ho | last ho | console ho => exact absurd hn ho.not_notOpen
    refine ⟨p, .same hp hwrap (by rw [hu]), ?_⟩
    rintro g rfl
    exact htab.fds_eq_nil (hn p (process?_of_slot hp))
  · obtain ⟨p', i, ho⟩ := exists_openFd hn
    obtain rfl := Slot.pcb.inj (hp.symm.trans ho.1)
    obtain ⟨g, rfl, -, -⟩ := Process.vfile?_eq_some.mp ho.2
    have hslot : u.files.sosProcs pid = .pcb (p.forget g i) := by
      rw [hc.sosProcs ho, Function.update_self]
    have hstate : (p.forget g i).state = p.state := by
      unfold Process.forget
      rw [Process.setFd_coe]
      rfl
    have hunname : ∀ a, (v.files.unname pid p g i a).sosProcs pid = .pcb (p.forget g i) :=
      fun a => by
      rw [unname_sosProcs, Function.update_self]
    have hsame : ∀ {p' i'}, v.OpenFd pid g p' i' → p' = p ∧ i' = i := fun {p' i'} ho' => by
      obtain rfl := Slot.pcb.inj (ho'.1.symm.trans ho.1)
      exact ⟨rfl, Option.some.inj (ho'.2.symm.trans ho.2)⟩
    have hrest : u.files.NoWrap ∧ ∀ r b, (v.files.vnodes b).count r + (p.forget g i).holds r b =
        (u.files.vnodes b).count r + p.holds r b := by
      cases hc with
      | notOpen hn' => exact absurd hn' hn
      | kept ho' ha hf _ =>
        obtain ⟨rfl, rfl⟩ := hsame ho'
        rw [replied_files, hf]
        exact ⟨hwrap.unname hp, count_unname hcounts hwrap hp ha (hunname _)⟩
      | @last _ _ a f ho' ha hf _ _ _ =>
        obtain ⟨rfl, rfl⟩ := hsame ho'
        rw [replied_files]
        have hw : f.NoWrap := hf ▸ hwrap.unname hp
        refine ⟨hw.congr (held_congr (drop_sosProcs ..)) (drop_lost ..), fun r b => ?_⟩
        refine (count_unname hcounts hwrap hp ha (hunname a) r b).trans ?_
        rw [← hf]
        change _ = (((f.freeNfsfile a).drop a).vnodes b).count r + _
        rw [count_drop, count_freeNfsfile]
      | console ho' ha hf _ _ =>
        obtain ⟨rfl, rfl⟩ := hsame ho'
        rw [replied_files, hf]
        exact ⟨hwrap.unname hp, count_unname hcounts hwrap hp ha (hunname _)⟩
    refine ⟨p.forget g i, ⟨hslot, hstate, fun k => ?_, hrest.1, hrest.2⟩, fun k hk => ?_⟩
    · rw [Process.forget_fds]
      by_cases hk : k = g
      · exact .inr (by rw [hk, Function.update_self])
      · exact .inl (Function.update_of_ne hk ..)
    · obtain rfl : k = g := by omega
      rw [Process.forget_fds, Function.update_self]

theorem Answers.leaves (ha : Answers v pid u) (hwrap : v.files.NoWrap)
    (hp : v.files.sosProcs pid = .pcb p) : ∃ q, Leaves v pid p u q ∧ q.fds = p.fds := by
  obtain ⟨f, n, words, hf, hu⟩ := ha
  have hfiles : u.files = f := by rw [hu, replied_files]
  rw [← hfiles] at hf
  have hcount : ∀ r a, (u.files.vnodes a).count r = (v.files.vnodes a).count r := fun r a => by
    obtain ⟨_, _, _, hv⟩ := hf.vnode a
    rw [hv]
    cases r <;> rfl
  have hwrap' : u.files.NoWrap := hwrap.congr hf.held (by rw [hf.rest])
  have hleaves : ∀ q, u.files.sosProcs pid = .pcb q → q.state = p.state → q.fds = p.fds →
      Leaves v pid p u q := fun q hq hstate hfds => by
    refine ⟨hq, hstate, fun g => .inl (by rw [hfds]), hwrap', fun r a => ?_⟩
    rw [holds_congr hp hq hf.held, hcount]
  rcases hf.slot pid with hslot | ⟨p', fp, hp', hslot⟩
  · exact ⟨p, hleaves p (hslot.trans hp) rfl rfl, rfl⟩
  · obtain rfl := Slot.pcb.inj (hp.symm.trans hp')
    exact ⟨_, hleaves _ hslot rfl rfl, rfl⟩

/-- The steps that keep the tables and the counts exact. -/
def Exact (s : Vfs) (e : Event) : Prop :=
  ¬ MakesLockedOut s e ∧ ¬ SelfDup s e ∧ s.files.NoWrap

theorem Reachable.exact (h : Reachable Exact s) : s.Sorted ∧ s.Accounted ∧ s.Tables := by
  refine h.invariant (I := fun s => s.Sorted ∧ s.Accounted ∧ s.Tables) (fun s hs => ?_)
    fun s e t hI hc hst => ?_
  · exact ⟨sorted_of_started hs, accounted_of_started hs, tables_of_started hs⟩
  · obtain ⟨hsorted, hacc, htables⟩ := hI
    exact ⟨hst.sorted hsorted hc.1, hst.accounted hsorted hacc hc.2.2 hc.1,
      hst.tables htables hc.2.1⟩

/-- The messages of `process_close_files`. -/
inductive Event.Closes (pid : Pid) : Event → Prop
  | flush (fd : Int) (sends : List Int) : Closes pid (.psFlush pid fd sends)
  | close (fd : Int) : Closes pid (.psClose pid fd)

theorem Event.Closes.exact (h : e.Closes pid) (hwrap : v.files.NoWrap) : Exact v e := by
  cases h <;> exact ⟨id, id, hwrap⟩

/-- A message is handled, as long as the process is in the table. -/
theorem Event.Closes.returns (h : e.Closes pid) (hr : Reachable Exact v)
    (hp : v.files.sosProcs pid = .pcb p) : ∃ u, Step v e u := by
  obtain ⟨hsorted, hacc, -⟩ := hr.exact
  have hsane := sane_of_accounted hsorted hacc (Known.of_process hp) false
  have hserve : ∀ {m : VfsM Unit}, Safe m (v.called pid false) → Enabled v e →
      handle e = serve pid false m → ∃ u, Step v e u := fun {m} hm he heq => by
    have hsafe : Safe (handle e) v := by
      rw [heq]
      exact wp_serve.mpr hm
    obtain ⟨⟨⟩, u, hu, -⟩ := hsafe.returns
    exact ⟨u, he, hu⟩
  cases h with
  | flush fd sends => exact hserve (safe_vfsFlush hsane fd sends) ⟨nofun, trivial⟩ rfl
  | close fd => exact hserve (safe_vfsClose hsane fd) ⟨nofun, trivial⟩ rfl

theorem Event.Closes.leaves (h : e.Closes pid) (hst : Step v e u) (hr : Reachable Exact v)
    (hwrap : v.files.NoWrap) (hp : v.files.sosProcs pid = .pcb p) :
    ∃ q, Leaves v pid p u q ∧ ∀ g : Fin 19, e = .psClose pid g → q.fds g = vfsNilFile := by
  obtain ⟨-, hacc, htables⟩ := hr.exact
  cases h with
  | flush fd sends =>
    have hcalled := ((wp_serve.mpr (vfsFlush_spec pid fd sends)).ok hst.2).1
    cases hcalled with
    | silent => exact ⟨p, .same hp hwrap rfl, nofun⟩
    | answered ha =>
      obtain ⟨q, hq, -⟩ := Answers.leaves (v := v.called pid false) ha hwrap hp
      exact ⟨q, ⟨hq.slot, hq.state, hq.fds, hq.noWrap, hq.count⟩, nofun⟩
    | requested | reader => exact ⟨p, .same hp hwrap rfl, nofun⟩
  | close fd =>
    have hclosed : Closed (v.called pid false) pid fd u :=
      (wp_serve.mpr (vfsClose_spec pid fd)).ok hst.2
    obtain ⟨q, hq, hnil⟩ := hclosed.leaves hacc.counts hwrap (htables pid p hp) hp
    refine ⟨q, ⟨hq.slot, hq.state, hq.fds, hq.noWrap, hq.count⟩, ?_⟩
    rintro g ⟨⟩
    exact hnil g rfl

/-! ## The deletion -/

/-- What the pager does to a process on the way to its removal. -/
inductive DeleteOp
  /-- `process_set_state(p, PS_STATE_ZOMBIE)` -/
  | zombie
  /-- The test of `process_close_files`, for one descriptor. -/
  | look (fd : Nat)
  | send (e : Event)
  /-- `process_remove` -/
  | remove

/-- What the pager does before `process_remove`. -/
def DeleteOp.Before (pid : Pid) : DeleteOp → Prop
  | .zombie | .look _ => True
  | .send e => e.Closes pid
  | .remove => False

/-- A bound on the steps that the pager and the root server make for it. -/
def DeleteOp.weight : DeleteOp → Nat
  | .zombie | .remove => 1
  | .look _ => 5
  | .send _ => 2

/-- `processDelete`, up to `process_remove`. -/
def deleteOps : List DeleteOp := .zombie :: ((List.range processMaxFiles).map .look ++ [.remove])

/-- The pager deletes a process, next to the root server. -/
structure Deletion where
  vfs : Vfs
  /-- What the pager has still to do. -/
  todo : List DeleteOp
  /-- The messages that are sent and not handled yet. -/
  sent : List Event

namespace Deletion

def begin (s : Vfs) : Deletion := ⟨s, deleteOps, []⟩

/-- The process is removed, and all messages are handled. -/
def Done (d : Deletion) : Prop := d.todo = [] ∧ d.sent = []

instance : DecidablePred Done := fun d => inferInstanceAs (Decidable (d.todo = [] ∧ d.sent = []))

/-- A step of the pager, or of the root server. The process is removed when `R` holds. -/
inductive Move (pid : Pid) (R : Deletion → Prop) : Deletion → Deletion → Prop
  | zombie {v u todo sent} : Vfs.Step v (.zombie pid) u →
      Move pid R ⟨v, .zombie :: todo, sent⟩ ⟨u, todo, sent⟩
  | notOpen {v fd todo sent} : v.NotOpen pid (fd : Nat) →
      Move pid R ⟨v, .look fd :: todo, sent⟩ ⟨v, todo, sent⟩
  | isOpen {v fd todo sent} (sends : List Int) : ¬ v.NotOpen pid (fd : Nat) →
      Move pid R ⟨v, .look fd :: todo, sent⟩
        ⟨v, .send (.psFlush pid fd sends) :: .send (.psClose pid fd) :: todo, sent⟩
  | send {v e todo sent} : Move pid R ⟨v, .send e :: todo, sent⟩ ⟨v, todo, sent ++ [e]⟩
  | remove {v u todo sent} : R ⟨v, .remove :: todo, sent⟩ → Vfs.Step v (.removePcb pid) u →
      Move pid R ⟨v, .remove :: todo, sent⟩ ⟨u, todo, sent⟩
  | handle {v u e todo sent} : Vfs.Step v e u → Move pid R ⟨v, todo, e :: sent⟩ ⟨u, todo, sent⟩

/-- The root server has handled the messages that were sent. -/
def AllHandled (d : Deletion) : Prop := d.sent = []

instance : DecidablePred AllHandled := fun d => inferInstanceAs (Decidable (d.sent = []))

/-- The deletion of `p`, begun in `s`, before the removal: `q` is what is left of the process, and
each of its descriptors is still to be closed. -/
structure Closing (s : Vfs) (pid : Pid) (p : Process) (d : Deletion) (q : Process) : Prop where
  reach : Reachable Exact d.vfs
  noWrap : d.vfs.files.NoWrap
  slot : d.vfs.files.sosProcs pid = .pcb q
  count : ∀ r a, (s.files.vnodes a).count r + q.holds r a =
    (d.vfs.files.vnodes a).count r + p.holds r a
  todo : ∃ l, d.todo = l ++ [.remove] ∧ ∀ o ∈ l, o.Before pid
  sent : ∀ e ∈ d.sent, e.Closes pid
  state : .zombie ∈ d.todo ∨ q.state = .zombie
  cover : ∀ g : Fin 19, q.fds g ≠ vfsNilFile →
    .look g ∈ d.todo ∨ .send (.psClose pid g) ∈ d.todo ∨ .psClose pid g ∈ d.sent

/-- The counts have dropped by what the process had open. -/
def Dropped (s : Vfs) (p : Process) (d : Deletion) : Prop :=
  ∀ r a, (s.files.vnodes a).count r = (d.vfs.files.vnodes a).count r + p.holds r a

theorem closing_begin (h : Reachable Exact s) (hwrap : s.files.NoWrap)
    (hp : s.files.sosProcs pid = .pcb p)
    (hfew : ∀ g : Fin 19, processMaxFiles ≤ g → p.fds g = vfsNilFile) :
    Closing s pid p (begin s) p where
  reach := h
  noWrap := hwrap
  slot := hp
  count := fun _ _ => rfl
  todo := by
    refine ⟨.zombie :: (List.range processMaxFiles).map .look, rfl, fun o ho => ?_⟩
    rcases List.mem_cons.mp ho with rfl | ho
    · trivial
    · obtain ⟨_, -, rfl⟩ := List.mem_map.mp ho
      trivial
  sent := nofun
  state := .inl (List.mem_cons_self ..)
  cover := fun g hg => by
    have hlt : (g : Nat) < processMaxFiles := by
      by_contra hge
      exact hg (hfew g (by omega))
    refine .inl (List.mem_cons_of_mem _ (List.mem_append_left _ ?_))
    exact List.mem_map.mpr ⟨g, List.mem_range.mpr hlt, rfl⟩

/-- The head of the list is before the removal, or the removal. -/
theorem Closing.head {d : Deletion} (h : Closing s pid p d q) {o : DeleteOp} {rest : List DeleteOp}
    (ho : d.todo = o :: rest) :
    (o.Before pid ∧ ∃ l, rest = l ++ [.remove] ∧ ∀ o ∈ l, o.Before pid) ∨
    (o = .remove ∧ rest = []) := by
  obtain ⟨l, hl, hbefore⟩ := h.todo
  rw [ho] at hl
  cases l with
  | nil =>
    obtain ⟨rfl, rfl⟩ := List.cons.inj hl
    exact .inr ⟨rfl, rfl⟩
  | cons o' l =>
    obtain ⟨rfl, rfl⟩ := List.cons.inj hl
    exact .inl ⟨hbefore o (List.mem_cons_self ..), l, rfl,
      fun o' ho' => hbefore o' (List.mem_cons_of_mem _ ho')⟩

theorem mem_rest {o o' : DeleteOp} {rest : List DeleteOp} (h : o ∈ o' :: rest) (hne : o ≠ o') :
    o ∈ rest :=
  List.mem_of_ne_of_mem hne h

/-- The removal comes last. -/
theorem Closing.rest {d : Deletion} (h : Closing s pid p d q) {o : DeleteOp} {rest : List DeleteOp}
    (ho : d.todo = o :: rest) (hne : o ≠ .remove) :
    o.Before pid ∧ ∃ l, rest = l ++ [.remove] ∧ ∀ o ∈ l, o.Before pid :=
  (h.head ho).resolve_right fun hr => hne hr.1

theorem Closing.handle {todo : List DeleteOp} {sent : List Event}
    (h : Closing s pid p ⟨v, todo, e :: sent⟩ q) (hst : Vfs.Step v e u) :
    ∃ q', Closing s pid p ⟨u, todo, sent⟩ q' := by
  have hcl : e.Closes pid := h.sent e (List.mem_cons_self ..)
  obtain ⟨q', hq, hnil⟩ := hcl.leaves hst h.reach h.noWrap h.slot
  refine ⟨q', ⟨h.reach.step (hcl.exact h.noWrap) hst, hq.noWrap, hq.slot, fun r a => ?_, h.todo,
    fun e' he' => h.sent e' (List.mem_cons_of_mem _ he'), ?_, fun g hg => ?_⟩⟩
  · have hbefore := h.count r a
    have hstep := hq.count r a
    dsimp only at hbefore ⊢
    omega
  · rw [hq.state]
    exact h.state
  · have hg' : q.fds g ≠ vfsNilFile := by
      rcases hq.fds g with hsame | hnil'
      · exact hsame ▸ hg
      · exact absurd hnil' hg
    rcases h.cover g hg' with hlook | hsend | hsent
    · exact .inl hlook
    · exact .inr (.inl hsend)
    · rcases List.mem_cons.mp hsent with rfl | hsent
      · exact absurd (hnil g rfl) hg
      · exact .inr (.inr hsent)

theorem Closing.turn {todo : List DeleteOp} {sent : List Event}
    (h : Closing s pid p ⟨v, .zombie :: todo, sent⟩ q) (hst : Vfs.Step v (.zombie pid) u) :
    Closing s pid p ⟨u, todo, sent⟩ { q with state := .zombie } := by
  have hu : u = v.withFiles (v.files.upd pid ({ · with state := .zombie })) := by
    have hwp : Wp (Vfs.handle (.zombie pid)) v
        (fun _ u => u = v.withFiles (v.files.upd pid ({ · with state := .zombie })))
        (fun _ _ => False) := wp_updProcess.mpr rfl
    exact hwp.ok hst.2
  have hreach : Reachable Exact u := h.reach.step ⟨id, id, h.noWrap⟩ hst
  have hheld : u.files.held = v.files.held := by
    rw [hu]
    exact held_upd fun _ _ => rfl
  have hslot : u.files.sosProcs pid = .pcb { q with state := .zombie } := by
    rw [hu]
    exact upd_sosProcs_self h.slot _
  refine ⟨hreach, h.noWrap.congr hheld (by rw [hu]; exact upd_lost ..), hslot, fun r a => ?_,
    ?_, h.sent, .inr rfl, fun g hg => ?_⟩
  · rw [holds_congr h.slot hslot hheld, hu]
    refine (h.count r a).trans ?_
    change _ = ((v.files.upd pid _).vnodes a).count r + _
    rw [upd_vnodes]
  · exact (h.rest rfl nofun).2
  · rcases h.cover g hg with hlook | hsend | hsent
    · exact .inl (mem_rest hlook nofun)
    · exact .inr (.inl (mem_rest hsend nofun))
    · exact .inr (.inr hsent)

theorem wp_removePcb (hp : v.files.sosProcs pid = .pcb p) :
    Wp (Vfs.handle (.removePcb pid)) v (fun _ u => u = v.withFiles (v.files.retire pid p))
      (fun _ _ => False) := by
  unfold Vfs.handle setSlot
  rw [wp_bind, wp_get, process?_of_slot hp]
  dsimp only
  rw [wp_bind, wp_modifyFiles, wp_modifyFiles]
  rfl

/-- A process without descriptors has no files open. -/
theorem holds_eq_zero (h : p.Tabled) (hfds : ∀ g, p.fds g = vfsNilFile) (r : Right) (a : Nat) :
    p.holds r a = 0 := by
  unfold Process.holds
  rw [Finset.card_eq_zero, Finset.filter_eq_empty_iff]
  rintro i - ⟨ha, -⟩
  have hpos := h.used i (by rw [ha]; rfl)
  have hzero : p.names i = 0 := by
    rw [Process.names_eq_zero_iff]
    intro g
    rw [hfds g]
    exact Process.nil_ne_coe i
  omega

/-- The process goes after its last message: nothing is left open. -/
theorem Closing.remove {todo : List DeleteOp} (h : Closing s pid p ⟨v, .remove :: todo, []⟩ q)
    (hst : Vfs.Step v (.removePcb pid) u) : Dropped s p ⟨u, todo, []⟩ ∧ todo = [] := by
  have htodo : todo = [] := by
    rcases h.head rfl with ⟨habs, -⟩ | ⟨-, hnil⟩
    · exact habs.elim
    · exact hnil
  have hfds : ∀ g, q.fds g = vfsNilFile := fun g => by
    by_contra hg
    have := h.cover g hg
    simp [htodo] at this
  have hu : u = v.withFiles (v.files.retire pid q) := (wp_removePcb h.slot).ok hst.2
  refine ⟨fun r a => ?_, htodo⟩
  have hcount := h.count r a
  rw [holds_eq_zero (h.reach.exact.2.2 pid q h.slot) hfds] at hcount
  rw [hu]
  exact hcount

theorem Closing.move {d d' : Deletion} (h : Closing s pid p d q) (hm : Move pid AllHandled d d') :
    (∃ q', Closing s pid p d' q') ∨ (d'.Done ∧ Dropped s p d') := by
  cases hm with
  | zombie hst => exact .inl ⟨_, h.turn hst⟩
  | @notOpen v fd todo sent hn =>
    refine .inl ⟨q, ⟨h.reach, h.noWrap, h.slot, h.count, ?_, h.sent, ?_, fun g hg => ?_⟩⟩
    · exact (h.rest rfl nofun).2
    · refine h.state.imp_left fun hz => ?_
      exact mem_rest hz nofun
    · rcases h.cover g hg with hlook | hsend | hsent
      · refine .inl ((List.mem_cons.mp hlook).resolve_left fun heq => hg ?_)
        obtain rfl := DeleteOp.look.inj heq
        exact (h.reach.exact.2.2 pid q h.slot).fds_eq_nil (hn q (process?_of_slot h.slot))
      · exact .inr (.inl (mem_rest hsend nofun))
      · exact .inr (.inr hsent)
  | @isOpen v fd todo sent sends ho =>
    refine .inl ⟨q, ⟨h.reach, h.noWrap, h.slot, h.count, ?_, h.sent, ?_, fun g hg => ?_⟩⟩
    · obtain ⟨-, l, rfl, hl⟩ := h.rest rfl nofun
      refine ⟨.send (.psFlush pid fd sends) :: .send (.psClose pid fd) :: l, rfl, fun o hmem => ?_⟩
      rcases List.mem_cons.mp hmem with rfl | hmem
      · exact .flush ..
      · rcases List.mem_cons.mp hmem with rfl | hmem
        · exact .close ..
        · exact hl o hmem
    · refine h.state.imp_left fun hz => ?_
      simpa using hz
    · rcases h.cover g hg with hlook | hsend | hsent
      · rcases List.mem_cons.mp hlook with heq | hlook
        · obtain rfl := DeleteOp.look.inj heq
          exact .inr (.inl (List.mem_cons_of_mem _ (List.mem_cons_self ..)))
        · exact .inl (List.mem_cons_of_mem _ (List.mem_cons_of_mem _ hlook))
      · refine .inr (.inl (List.mem_cons_of_mem _ (List.mem_cons_of_mem _ ?_)))
        exact mem_rest hsend nofun
      · exact .inr (.inr hsent)
  | @send v e todo sent =>
    obtain ⟨hcl, hl⟩ := h.rest rfl nofun
    refine .inl ⟨q, ⟨h.reach, h.noWrap, h.slot, h.count, hl, fun e' he' => ?_, ?_, fun g hg => ?_⟩⟩
    · rcases List.mem_append.mp he' with hold | hnew
      · exact h.sent e' hold
      · obtain rfl := List.mem_singleton.mp hnew
        exact hcl
    · refine h.state.imp_left fun hz => ?_
      exact mem_rest hz nofun
    · rcases h.cover g hg with hlook | hsend | hsent
      · exact .inl (mem_rest hlook nofun)
      · rcases List.mem_cons.mp hsend with heq | hsend
        · obtain rfl := DeleteOp.send.inj heq
          exact .inr (.inr (List.mem_append_right _ (List.mem_singleton_self _)))
        · exact .inr (.inl hsend)
      · exact .inr (.inr (List.mem_append_left _ hsent))
  | @remove v u todo sent hall hst =>
    obtain rfl : sent = [] := hall
    obtain ⟨hdrop, rfl⟩ := h.remove hst
    exact .inr ⟨⟨rfl, rfl⟩, hdrop⟩
  | handle hst => exact .inl (h.handle hst)

/-- How much is still to be done. -/
def weight (d : Deletion) : Nat := (d.todo.map DeleteOp.weight).sum + d.sent.length

/-- The pager or the root server can go on. -/
theorem Closing.next {d : Deletion} (h : Closing s pid p d q) :
    ∃ d', Move pid AllHandled d d' ∧ d'.weight < d.weight := by
  obtain ⟨v, todo, sent⟩ := d
  cases sent with
  | cons e sent =>
    obtain ⟨u, hst⟩ := (h.sent e (List.mem_cons_self ..)).returns h.reach h.slot
    exact ⟨_, .handle hst, by simp [weight]⟩
  | nil =>
    obtain ⟨l, rfl, hbefore⟩ : ∃ l, todo = l ++ [.remove] ∧ _ := h.todo
    cases l with
    | nil =>
      have hstate : q.state = .zombie := h.state.resolve_left (by simp)
      obtain ⟨⟨⟩, u, hu, -⟩ := (wp_removePcb h.slot).returns
      have hen : Enabled v (.removePcb pid) := ⟨nofun, q, process?_of_slot h.slot, hstate⟩
      exact ⟨_, .remove rfl ⟨hen, hu⟩, by simp [weight, DeleteOp.weight]⟩
    | cons o l =>
      cases o with
      | zombie =>
        have hwp : Wp (Vfs.handle (.zombie pid)) v (fun _ _ => True) (fun _ _ => False) :=
          wp_updProcess.mpr trivial
        obtain ⟨⟨⟩, u, hu, -⟩ := hwp.returns
        have hen : Enabled v (.zombie pid) :=
          ⟨nofun, Option.isSome_iff_exists.mpr ⟨q, process?_of_slot h.slot⟩⟩
        exact ⟨_, .zombie ⟨hen, hu⟩, by simp [weight, DeleteOp.weight]⟩
      | look fd =>
        by_cases hn : v.NotOpen pid fd
        · exact ⟨_, .notOpen hn, by simp [weight, DeleteOp.weight]⟩
        · exact ⟨_, .isOpen [] hn, by simp [weight, DeleteOp.weight]; omega⟩
      | send e => exact ⟨_, .send, by simp [weight, DeleteOp.weight]; omega⟩
      | remove => exact (hbefore .remove (List.mem_cons_self ..)).elim

theorem Closing.finish {d : Deletion} (h : Closing s pid p d q) :
    ∃ d', Relation.ReflTransGen (Move pid AllHandled) d d' ∧ d'.Done := by
  induction hw : d.weight using Nat.strong_induction_on generalizing d q with
  | _ n ih =>
    obtain ⟨d', hm, hlt⟩ := h.next
    rcases h.move hm with ⟨q', h'⟩ | ⟨hdone, -⟩
    · obtain ⟨d'', hrun, hdone⟩ := ih _ (hw ▸ hlt) h' rfl
      exact ⟨d'', .head hm hrun, hdone⟩
    · exact ⟨d', .single hm, hdone⟩

theorem Closing.run {d d' : Deletion} (h : Closing s pid p d q)
    (hrun : Relation.ReflTransGen (Move pid AllHandled) d d') :
    (∃ q', Closing s pid p d' q') ∨ (d'.Done ∧ Dropped s p d') := by
  induction hrun with
  | refl => exact .inl ⟨q, h⟩
  | tail _ hm ih =>
    rcases ih with ⟨q', h'⟩ | ⟨⟨htodo, hsent⟩, -⟩
    · exact h'.move hm
    · -- Nothing is left to be done.
      cases hm <;> simp at htodo hsent

end Deletion

/-! ## Runs -/

/-- The state after a message, if it can come and is handled without a fault. -/
def stepped (v : Vfs) (e : Event) : Option Vfs :=
  if Enabled v e then
    match handle e v with
    | .ok _ u => some u
    | .error _ _ => none
  else none

theorem step_of_stepped (h : stepped v e = some u) : Step v e u := by
  unfold stepped at h
  split at h
  · next he =>
    split at h
    · next hu => exact ⟨he, Option.some.inj h ▸ hu⟩
    · simp at h
  · simp at h

namespace Deletion

variable {R : Deletion → Prop} [DecidablePred R] {d d' : Deletion}

/-- A step of the pager. -/
def pagerNext (pid : Pid) (R : Deletion → Prop) [DecidablePred R] : Deletion → Option Deletion
  | ⟨_, [], _⟩ => none
  | ⟨v, .zombie :: todo, sent⟩ => (stepped v (.zombie pid)).map (⟨·, todo, sent⟩)
  | ⟨v, .look fd :: todo, sent⟩ =>
    if v.NotOpen pid (fd : Nat) then some ⟨v, todo, sent⟩
    else some ⟨v, .send (.psFlush pid fd []) :: .send (.psClose pid fd) :: todo, sent⟩
  | ⟨v, .send e :: todo, sent⟩ => some ⟨v, todo, sent ++ [e]⟩
  | ⟨v, .remove :: todo, sent⟩ =>
    if R ⟨v, .remove :: todo, sent⟩ then
      (stepped v (.removePcb pid)).map (⟨·, todo, sent⟩)
    else none

/-- A step of the root server. -/
def serverNext : Deletion → Option Deletion
  | ⟨_, _, []⟩ => none
  | ⟨v, todo, e :: sent⟩ => (stepped v e).map (⟨·, todo, sent⟩)

theorem move_of_pagerNext (h : pagerNext pid R d = some d') : Move pid R d d' := by
  unfold pagerNext at h
  split at h
  · simp at h
  · obtain ⟨u, hu, rfl⟩ := Option.map_eq_some_iff.mp h
    exact .zombie (step_of_stepped hu)
  · split at h
    · next hn => exact Option.some.inj h ▸ .notOpen hn
    · next ho => exact Option.some.inj h ▸ .isOpen [] ho
  · exact Option.some.inj h ▸ .send
  · split at h
    · next hR =>
      obtain ⟨u, hu, rfl⟩ := Option.map_eq_some_iff.mp h
      exact .remove hR (step_of_stepped hu)
    · simp at h

omit [DecidablePred R] in
theorem move_of_serverNext (h : serverNext d = some d') : Move pid R d d' := by
  unfold serverNext at h
  split at h
  · simp at h
  · obtain ⟨u, hu, rfl⟩ := Option.map_eq_some_iff.mp h
    exact .handle (step_of_stepped hu)

/-- A run of the deletion: `true` is a step of the pager, `false` one of the root server. -/
def run (pid : Pid) (R : Deletion → Prop) [DecidablePred R] : List Bool → Deletion → Option Deletion
  | [], d => some d
  | b :: bs, d => (if b then pagerNext pid R d else serverNext d).bind (run pid R bs)

theorem moves_of_run {bs : List Bool} (h : run pid R bs d = some d') :
    Relation.ReflTransGen (Move pid R) d d' := by
  induction bs generalizing d with
  | nil => exact Option.some.inj h ▸ .refl
  | cons b bs ih =>
    obtain ⟨u, hu, hrun⟩ := Option.bind_eq_some_iff.mp h
    refine .head ?_ (ih hrun)
    cases b with
    | true => exact move_of_pagerNext hu
    | false => exact move_of_serverNext hu

/-- What a deletion after a run shows. -/
theorem deletion_of_run (n : Nat) (es : List Event) (pid : Pid) (R : Deletion → Prop)
    [DecidablePred R] (bs : List Bool) (P : Vfs → Process → Deletion → Prop)
    [∀ s p d, Decidable (P s p d)]
    (h : (runEvents (fun s e => ¬ MakesLockedOut s e ∧ ¬ SelfDup s e ∧ s.files.lost = []) es
      (booted n)).any fun s => (s.process? pid).any fun p =>
        ((begin s).run pid R bs).any fun d => s.files.lost = [] ∧ P s p d) :
    ∃ s p d, Reachable Exact s ∧ s.files.NoWrap ∧ s.process? pid = some p ∧
      Relation.ReflTransGen (Move pid R) (begin s) d ∧ P s p d := by
  obtain ⟨s, hr, hs⟩ := reachable_of_run _ n es (fun s => (s.process? pid).any fun p =>
        ((begin s).run pid R bs).any fun d => s.files.lost = [] ∧ P s p d) (by simpa using h)
  obtain ⟨p, hp, hs⟩ := (Option.any_eq_true _ _).mp hs
  obtain ⟨d, hd, hs⟩ := (Option.any_eq_true _ _).mp hs
  obtain ⟨hlost, hP⟩ := of_decide_eq_true hs
  have hexact : Reachable Exact s :=
    hr.mono fun s e hc => ⟨hc.1, hc.2.1, noWrap_of_lost_nil hc.2.2⟩
  exact ⟨s, p, d, hexact, noWrap_of_lost_nil hlost, hp, moves_of_run hd, hP⟩

end Deletion

/-! ## What is left open -/

end Vfs

end Sos
