import Sos.Lib.RefCount
import Sos.Vfs.Kinds

/-!
# Who has a vnode open

The entries of the file tables of all processes are references to vnodes, with a mode. `Counts` says
that the two counts of a vnode are the numbers of references with the right to read and to write, as
unsigned words; files that a removed process had open still count, as nobody closes them.
-/

namespace Sos

open RefCount

variable {fd : Int} {h : Pid × Fin 16} {x : Nat × Nat}

/-! ## Rights -/

/-- The two bits of a mode that are counted. -/
inductive Right
  | read | write
deriving DecidableEq

def Right.granted (r : Right) (mode : Nat) : Bool :=
  match r with
  | .read => reads mode
  | .write => writes mode

namespace VNode

variable {v w : VNode} {mode : Nat}

def count (v : VNode) : Right → Nat
  | .read => v.readers
  | .write => v.writers

def limit (v : VNode) : Right → Nat
  | .read => v.maxReaders
  | .write => v.maxWriters

theorem count_increaseRefs (h : v.increaseRefs mode = .ok w) (r : Right) :
    w.count r = if r.granted mode then (v.count r + 1) % wordLimit else v.count r := by
  obtain ⟨rfl, -⟩ := increaseRefs_ok h
  cases r <;> rfl

theorem limit_increaseRefs (h : v.increaseRefs mode = .ok w) (r : Right) :
    w.limit r = v.limit r ∧
      (r.granted mode = true → v.count r < v.limit r ∨ v.limit r = fmUnlimitedRw) := by
  obtain ⟨rfl, hr, hw⟩ := increaseRefs_ok h
  cases r
  · exact ⟨rfl, hr⟩
  · exact ⟨rfl, hw⟩

theorem count_decreaseRefs (v : VNode) (mode : Nat) (r : Right) :
    (v.decreaseRefs mode).count r =
      if r.granted mode then (v.count r + (wordLimit - 1)) % wordLimit else v.count r := by
  cases r <;> rfl

theorem unused_iff : v.unused = true ↔ ∀ r, v.count r = 0 := by
  simp only [unused, Bool.and_eq_true, decide_eq_true_eq]
  constructor
  · rintro ⟨hr, hw⟩ r
    cases r
    · exact hr
    · exact hw
  · exact fun h => ⟨h .read, h .write⟩

end VNode

/-! ## References -/

/-- An open file: vnode and mode. -/
def VFile.open? (f : VFile) : Option (Nat × Nat) := f.vnode.map (·, f.fmode)

/-- The open files of a slot of the process table. -/
def Slot.held (x : Slot) (i : Fin 16) : Option (Nat × Nat) :=
  match x with
  | .pcb p => (p.files i).open?
  | _ => none

namespace Files

variable {f g : Files} {a b : Nat} {r : Right} {pid : Pid} {p q : Process} {i : Fin 16}

/-- The open files of all processes. -/
def held (f : Files) (h : Pid × Fin 16) : Option (Nat × Nat) := (f.sosProcs h.1).held h.2

/-- A reference to the vnode with the right. -/
def grants (a : Nat) (r : Right) (x : Nat × Nat) : Bool := x.1 = a && r.granted x.2

/-- How many open files of processes refer to the vnode with the right. -/
def opens (f : Files) (r : Right) (a : Nat) : Nat := RefCount.count f.held (grants a r)

/-- The references, with those of the processes that are gone. -/
def refs (f : Files) (r : Right) (a : Nat) : Nat := f.opens r a + f.lost.countP (grants a r)

/-- A file is open, or has been when its process was removed. -/
def Refers (f : Files) (x : Nat × Nat) : Prop := (∃ h, f.held h = some x) ∨ x ∈ f.lost

theorem opens_le (f : Files) (r : Right) (a : Nat) : f.opens r a ≤ 4096 := by
  have hcard : Fintype.card (Pid × Fin 16) = 4096 := by simp
  rw [← hcard]
  exact count_le f.held (grants a r)

theorem refs_le (f : Files) (r : Right) (a : Nat) : f.refs r a ≤ 4096 + f.lost.length :=
  Nat.add_le_add (f.opens_le r a) List.countP_le_length

theorem refs_eq_zero_iff : f.refs r a = 0 ↔ ∀ x, f.Refers x → grants a r x = false := by
  unfold refs
  rw [Nat.add_eq_zero_iff, opens, count_eq_zero_iff, List.countP_eq_zero]
  constructor
  · rintro ⟨hheld, hlost⟩ x (⟨h, hx⟩ | hx)
    · exact hheld h x hx
    · simpa using hlost x hx
  · intro h
    exact ⟨fun k x hx => h x (.inl ⟨k, hx⟩), fun x hx => by simp [h x (.inr hx)]⟩

theorem opens_pos {m : Nat} (hh : f.held h = some (a, m))
    (hr : r.granted m = true) : 0 < f.opens r a := by
  refine Nat.pos_of_ne_zero fun hzero => ?_
  have := count_eq_zero_iff.mp hzero h (a, m) hh
  simp [grants, hr] at this

theorem held_congr (h : g.sosProcs = f.sosProcs) : g.held = f.held := by
  unfold held
  rw [h]

/-- An entry of a file table is written. -/
theorem held_setFile {x : VFile} (hp : f.sosProcs pid = .pcb p)
    (hq : g.sosProcs = Function.update f.sosProcs pid (.pcb q))
    (hfiles : q.files = Function.update p.files i x) :
    g.held = Function.update f.held (pid, i) x.open? := by
  funext ⟨pid', j⟩
  unfold held
  rw [hq]
  by_cases hpid : pid' = pid
  · subst hpid
    rw [Function.update_self]
    by_cases hj : j = i
    · subst hj
      simp [Slot.held, hfiles]
    · have hne : (pid', j) ≠ (pid', i) := fun h => hj (Prod.mk.inj h).2
      rw [Function.update_of_ne hne]
      simp [Slot.held, hfiles, hp, hj]
  · have hne : (pid', j) ≠ (pid, i) := fun h => hpid (Prod.mk.inj h).1
    rw [Function.update_of_ne hne, Function.update_of_ne hpid]

/-- A process is changed, with the same files open. -/
theorem held_setProcess (hp : f.sosProcs pid = .pcb p)
    (hq : g.sosProcs = Function.update f.sosProcs pid (.pcb q))
    (hopen : ∀ i, (q.files i).open? = (p.files i).open?) : g.held = f.held := by
  funext ⟨pid', j⟩
  unfold held
  rw [hq]
  by_cases hpid : pid' = pid
  · subst hpid
    rw [Function.update_self, hp]
    exact hopen j
  · rw [Function.update_of_ne hpid]

/-- A pid without a process is given away. -/
theorem held_setSlot {x : Slot} (hp : (f.sosProcs pid).pcb? = none)
    (hq : g.sosProcs = Function.update f.sosProcs pid x) (hx : ∀ i, x.held i = none) :
    g.held = f.held := by
  funext ⟨pid', j⟩
  unfold held
  rw [hq]
  by_cases hpid : pid' = pid
  · subst hpid
    rw [Function.update_self, hx]
    cases hs : f.sosProcs pid' with
    | pcb p => rw [hs] at hp; simp [Slot.pcb?] at hp
    | _ => rfl
  · rw [Function.update_of_ne hpid]

theorem Quiet.held (h : f.Quiet g) : g.held = f.held := by
  funext ⟨pid, i⟩
  unfold Files.held
  rcases h.slot pid with hs | ⟨p, fp, hp, hs⟩
  · rw [hs]
  · rw [hs, hp]
    rfl

/-! ## Counts -/

/-- The counts of the vnodes are exact as words, and no reference is to a vnode that has been
freed. -/
structure Counts (f : Files) : Prop where
  counted : ∀ a r, f.allocated a = true → (f.vnodes a).count r = f.refs r a % wordLimit
  live : ∀ x, f.Refers x → f.allocated x.1 = true ∧ ∃ r : Right, r.granted x.2 = true
  limits : ∀ a r, f.allocated a = true →
    (f.vnodes a).count r ≤ (f.vnodes a).limit r ∨ (f.vnodes a).limit r = fmUnlimitedRw

theorem held_of_file (hp : f.sosProcs pid = .pcb p) (ha : (p.files i).vnode = some a) :
    f.held (pid, i) = some (a, (p.files i).fmode) := by
  simp [held, hp, Slot.held, VFile.open?, ha]

theorem Counts.allocated (h : f.Counts) (hp : f.sosProcs pid = .pcb p)
    (ha : (p.files i).vnode = some a) : f.allocated a = true :=
  (h.live _ (.inl ⟨(pid, i), held_of_file hp ha⟩)).1

/-- No count has to be more than an unsigned word. -/
def NoWrap (f : Files) : Prop := ∀ r a, f.refs r a < wordLimit

/-- The files that the processes have open are too few for that, if none has been left open. -/
theorem noWrap_of_lost_nil (h : f.lost = []) : f.NoWrap := by
  intro r a
  have hle := f.refs_le r a
  have hlim : 4096 < wordLimit := by decide
  rw [h, List.length_nil] at hle
  omega

theorem refers_congr (hheld : g.held = f.held) (hlost : g.lost = f.lost)
    (hx : g.Refers x) : f.Refers x := by
  unfold Refers at hx
  rwa [hheld, hlost] at hx

/-- Counts, limits and references are the same. -/
theorem Counts.congr (h : f.Counts) (halloc : g.allocated = f.allocated) (hheld : g.held = f.held)
    (hlost : g.lost = f.lost) (hcount : ∀ a r, (g.vnodes a).count r = (f.vnodes a).count r)
    (hlimit : ∀ a r, (g.vnodes a).limit r = (f.vnodes a).limit r) : g.Counts := by
  have hrefs : ∀ a r, g.refs r a = f.refs r a := fun a r => by
    unfold refs opens
    rw [hheld, hlost]
  refine ⟨fun a r ha => ?_, fun x hx => ?_, fun a r ha => ?_⟩
  · rw [halloc] at ha
    rw [hcount, hrefs, h.counted a r ha]
  · rw [halloc]
    exact h.live x (refers_congr hheld hlost hx)
  · rw [halloc] at ha
    rw [hcount, hlimit]
    exact h.limits a r ha

theorem Counts.quiet (h : f.Counts) (hq : f.Quiet g) : g.Counts := by
  have hrest := hq.rest
  refine h.congr (by rw [hrest]) hq.held (by rw [hrest]) (fun a r => ?_) (fun a r => ?_)
  · obtain ⟨x, y, z, hv⟩ := hq.vnode a
    rw [hv]
    cases r <;> rfl
  · obtain ⟨x, y, z, hv⟩ := hq.vnode a
    rw [hv]
    cases r <;> rfl

/-- A vnode is written in other fields. -/
theorem Counts.setVnode (h : f.Counts) {v : VNode} (hcount : ∀ r, v.count r = (f.vnodes a).count r)
    (hlimit : ∀ r, v.limit r = (f.vnodes a).limit r) : (f.setVnode a v).Counts := by
  refine h.congr rfl rfl rfl (fun b r => ?_) (fun b r => ?_)
  · by_cases hb : b = a
    · subst hb
      rw [setVnode_vnodes_self]
      exact hcount r
    · rw [setVnode_vnodes_of_ne _ _ hb]
  · by_cases hb : b = a
    · subst hb
      rw [setVnode_vnodes_self]
      exact hlimit r
    · rw [setVnode_vnodes_of_ne _ _ hb]

/-- The counts are the numbers of references, as long as those are few. -/
theorem Counts.count_eq (h : f.Counts) (hwrap : f.NoWrap) (ha : f.allocated a = true) (r : Right) :
    (f.vnodes a).count r = f.refs r a := by
  rw [h.counted a r ha, Nat.mod_eq_of_lt (hwrap r a)]

/-- Nobody refers to a vnode whose counts are 0. -/
theorem Counts.not_refers (h : f.Counts) (hwrap : f.NoWrap) (hu : (f.vnodes a).unused)
    (ha : f.allocated a = true) (hx : f.Refers x) : x.1 ≠ a := by
  rintro rfl
  obtain ⟨r, hr⟩ := (h.live x hx).2
  have hzero : f.refs r x.1 = 0 := by
    rw [← h.count_eq hwrap ha, VNode.unused_iff.mp hu r]
  have := refs_eq_zero_iff.mp hzero x hx
  simp [grants, hr] at this

theorem Counts.drop (h : f.Counts) (hwrap : f.NoWrap) (hu : (f.vnodes a).unused)
    (ha : f.allocated a = true) : (f.drop a).Counts := by
  have hrel := f.relinked_removeVnode a
  have halloc : (f.drop a).allocated = Function.update f.allocated a false := by
    change Function.update (f.removeVnode a).allocated a false = _
    rw [hrel.allocated]
  have hlost : (f.drop a).lost = f.lost := by
    change (f.removeVnode a).lost = _
    rw [hrel.rest]
  have hheld : (f.drop a).held = f.held := held_congr (f.drop_sosProcs a)
  have hother : ∀ b, b ≠ a → ∃ p n, (f.drop a).vnodes b =
      { f.vnodes b with previous := p, next := n } := fun b hb => by
    obtain ⟨p, n, hv⟩ := hrel.vnode b
    exact ⟨p, n, (setVnode_vnodes_of_ne _ _ hb).trans hv⟩
  have hrefs : ∀ b r, (f.drop a).refs r b = f.refs r b := fun b r => by
    unfold refs opens
    rw [hheld, hlost]
  have hne : ∀ b, (f.drop a).allocated b = true → b ≠ a ∧ f.allocated b = true := fun b hb => by
    have hba : b ≠ a := by
      rintro rfl
      simp [halloc] at hb
    rw [halloc, Function.update_of_ne hba] at hb
    exact ⟨hba, hb⟩
  refine ⟨fun b r hb => ?_, fun x hx => ?_, fun b r hb => ?_⟩
  · obtain ⟨hba, hb⟩ := hne b hb
    obtain ⟨p, n, hv⟩ := hother b hba
    rw [hv, hrefs, ← h.counted b r hb]
    cases r <;> rfl
  · have hx' := refers_congr hheld hlost hx
    refine ⟨?_, (h.live x hx').2⟩
    rw [halloc, Function.update_of_ne (h.not_refers hwrap hu ha hx')]
    exact (h.live x hx').1
  · obtain ⟨hba, hb⟩ := hne b hb
    obtain ⟨p, n, hv⟩ := hother b hba
    have := h.limits b r hb
    rw [hv]
    cases r <;> exact this

theorem Counts.openErr (h : f.Counts) (hwrap : f.NoWrap) (he : Vfs.Errs f a) :
    (f.openErr a).Counts := by
  unfold Files.openErr
  split
  · next hu => exact h.drop hwrap hu (he hu).2
  · exact h

theorem Counts.made (h : f.Counts) (ha : f.allocated a = false) (path : Path)
    (readers writers : Nat) : ((f.made a path readers writers).addVnode a).Counts := by
  have hrel := (f.made a path readers writers).relinked_addVnode a
  have halloc : ((f.made a path readers writers).addVnode a).allocated =
      Function.update f.allocated a true := hrel.allocated
  have hheld : ((f.made a path readers writers).addVnode a).held = f.held :=
    held_congr (Files.addVnode_sosProcs ..)
  have hlost : ((f.made a path readers writers).addVnode a).lost = f.lost := by rw [hrel.rest]; rfl
  have hrefs : ∀ b r, ((f.made a path readers writers).addVnode a).refs r b = f.refs r b :=
    fun b r => by
      unfold refs opens
      rw [hheld, hlost]
  have hother : ∀ b, b ≠ a → f.allocated b =
      ((f.made a path readers writers).addVnode a).allocated b :=
    fun b hb => by rw [halloc, Function.update_of_ne hb]
  have hself : ∀ r, (((f.made a path readers writers).addVnode a).vnodes a).count r = 0 :=
    fun r => by
    obtain ⟨p, n, hv⟩ := hrel.vnode a
    rw [hv]
    cases r <;> simp [Files.made, opening, VNode.count]
  have hvnode : ∀ b, b ≠ a → ∃ p n, ((f.made a path readers writers).addVnode a).vnodes b =
      { f.vnodes b with previous := p, next := n } := fun b hb => by
    obtain ⟨p, n, hv⟩ := hrel.vnode b
    exact ⟨p, n, by rw [hv, f.made_vnodes_of_ne path readers writers hb]⟩
  -- Nobody refers to the block yet.
  have hzero : ∀ r, f.refs r a = 0 := fun r => refs_eq_zero_iff.mpr fun x hx => by
    have hx' := (h.live x hx).1
    have hxa : x.1 ≠ a := by
      rintro rfl
      rw [hx'] at ha
      simp at ha
    simp [grants, hxa]
  refine ⟨fun b r hb => ?_, fun x hx => ?_, fun b r hb => ?_⟩
  · rw [hrefs]
    by_cases hba : b = a
    · subst hba
      rw [hself, hzero, Nat.zero_mod]
    · obtain ⟨p, n, hv⟩ := hvnode b hba
      rw [← hother b hba] at hb
      rw [hv, ← h.counted b r hb]
      cases r <;> rfl
  · have hx' := refers_congr hheld hlost hx
    refine ⟨?_, (h.live x hx').2⟩
    by_cases hxa : x.1 = a
    · rw [hxa, halloc, Function.update_self]
    · rw [← hother _ hxa]
      exact (h.live x hx').1
  · by_cases hba : b = a
    · subst hba
      rw [hself]
      exact .inl (Nat.zero_le _)
    · obtain ⟨p, n, hv⟩ := hvnode b hba
      rw [← hother b hba] at hb
      have := h.limits b r hb
      rw [hv]
      cases r <;> exact this

/-- One holder changes hands. -/
theorem refs_update {x : Option (Nat × Nat)}
    (hheld : g.held = Function.update f.held h x) (hlost : g.lost = f.lost) (r : Right) (b : Nat) :
    g.refs r b + mark (grants b r) (f.held h) = f.refs r b + mark (grants b r) x := by
  have := count_update f.held (grants b r) h x
  unfold refs opens
  rw [hheld, hlost]
  omega

theorem refers_update {x : Option (Nat × Nat)} {y : Nat × Nat}
    (hheld : g.held = Function.update f.held h x) (hlost : g.lost = f.lost) (hy : g.Refers y) :
    x = some y ∨ f.Refers y := by
  rcases hy with ⟨k, hk⟩ | hy
  · rw [hheld] at hk
    by_cases hkh : k = h
    · rw [hkh, Function.update_self] at hk
      exact .inl hk
    · rw [Function.update_of_ne hkh] at hk
      exact .inr (.inl ⟨k, hk⟩)
  · exact .inr (.inr (hlost ▸ hy))

theorem held_install {fd : Fin 19} {mode : Nat} {v : VNode} (hp : f.sosProcs pid = .pcb p) :
    (f.install pid p fd i a mode v).held = Function.update f.held (pid, i) (some (a, mode)) :=
  held_setFile (x := { vnode := some a, fmode := mode, fp := 0, ref := 1 }) hp rfl
    (by simp [Process.setFile])

theorem Counts.install (h : f.Counts) {fd : Fin 19} {mode : Nat} {v : VNode}
    (hp : f.sosProcs pid = .pcb p) (ha : f.allocated a = true)
    (hv : (f.vnodes a).increaseRefs mode = .ok v) (hfree : p.findNextFd = some (fd, i))
    (hmode : ∃ r : Right, r.granted mode = true) : (f.install pid p fd i a mode v).Counts := by
  have hnone : f.held (pid, i) = none := by
    simp [held, hp, Slot.held, VFile.open?, (Process.findNextFd_eq hfree).2]
  have hheld : (f.install pid p fd i a mode v).held = _ := held_install hp
  have hrefs := refs_update hheld rfl
  simp only [hnone, mark_none, Nat.add_zero] at hrefs
  have hself : (f.install pid p fd i a mode v).vnodes a = v := setVnode_vnodes_self ..
  have hother : ∀ b, b ≠ a → (f.install pid p fd i a mode v).vnodes b = f.vnodes b :=
    fun b hb => setVnode_vnodes_of_ne _ _ hb
  refine ⟨fun b r hb => ?_, fun x hx => ?_, fun b r hb => ?_⟩
  · rw [hrefs]
    by_cases hba : b = a
    · subst hba
      rw [hself, VNode.count_increaseRefs hv, h.counted b r ha]
      by_cases hr : r.granted mode = true
      · simp [mark, grants, hr]
      · simp [mark, grants, hr]
    · have hab : ¬ a = b := fun hab => hba hab.symm
      rw [hother b hba, h.counted b r hb]
      simp [mark, grants, hab]
  · rcases refers_update hheld rfl hx with hnew | hold
    · obtain rfl := Option.some.inj hnew
      exact ⟨ha, hmode⟩
    · exact h.live x hold
  · by_cases hba : b = a
    · subst hba
      obtain ⟨hlim, hlt⟩ := VNode.limit_increaseRefs hv r
      have hle := h.limits b r ha
      rw [hself, VNode.count_increaseRefs hv, hlim]
      by_cases hr : r.granted mode = true
      · rcases hlt hr with hlt | hunl
        · rw [if_pos hr]
          exact .inl ((Nat.mod_le _ _).trans hlt)
        · exact .inr hunl
      · rw [if_neg hr]
        exact hle
    · rw [hother b hba]
      exact h.limits b r hb

theorem sub_one_mod {n m : Nat} (hn : 0 < n) (hm : 0 < m) :
    (n % m + (m - 1)) % m = (n - 1) % m := by
  rw [Nat.mod_add_mod, show n + (m - 1) = n - 1 + m by omega, Nat.add_mod_right]

/-- The first half of a close: the entry is released with its last descriptor. -/
theorem held_unname (hp : f.sosProcs pid = .pcb p) :
    (f.unname pid p fd i a).held = if ((p.files i).ref - 1) % wordLimit = 0 then
      Function.update f.held (pid, i) none else f.held := by
  have hsetFd : ∀ e, (p.setFd fd e).files = p.files := fun e => by
    unfold Process.setFd
    split <;> rfl
  have hprocs := f.unname_sosProcs pid p fd i a
  split
  · next href =>
    refine held_setFile (x := { vnode := none, fmode := 0, fp := 0, ref := 0 }) hp hprocs ?_
    simp [Process.forget, Process.setFile, href, hsetFd]
  · next href =>
    refine held_setProcess hp hprocs fun j => ?_
    unfold Process.forget
    rw [if_neg href]
    by_cases hj : j = i
    · subst hj
      simp [Process.setFile, VFile.open?]
    · simp [Process.setFile, hsetFd, hj]

theorem Counts.unname (h : f.Counts) (hwrap : f.NoWrap) (fd : Int) (hp : f.sosProcs pid = .pcb p)
    (ha : (p.files i).vnode = some a) : (f.unname pid p fd i a).Counts := by
  have hsome := held_of_file hp ha
  have halloc := h.allocated hp ha
  have hunname : (f.unname pid p fd i a).held = _ := held_unname hp
  unfold Files.unname at hunname ⊢
  split
  · next href =>
    -- The entry is released.
    obtain ⟨g, hg⟩ : ∃ g, g = (f.setProcess pid (p.forget fd i)).setVnode a
        ((f.vnodes a).decreaseRefs (p.files i).fmode) := ⟨_, rfl⟩
    rw [if_pos href, if_pos href, ← hg] at hunname
    rw [← hg]
    have hheld : g.held = Function.update f.held (pid, i) none := hunname
    have hlost : g.lost = f.lost := by rw [hg]; rfl
    have hgalloc : g.allocated = f.allocated := by rw [hg]; rfl
    have hrefs := refs_update hheld hlost
    simp only [hsome, mark_none, Nat.add_zero] at hrefs
    have hself : g.vnodes a = (f.vnodes a).decreaseRefs (p.files i).fmode := by
      rw [hg]
      exact setVnode_vnodes_self ..
    have hother : ∀ b, b ≠ a → g.vnodes b = f.vnodes b := fun b hb => by
      rw [hg]
      exact setVnode_vnodes_of_ne _ _ hb
    have hcount : ∀ r, (g.vnodes a).count r = g.refs r a % wordLimit := fun r => by
      have hr := hrefs r a
      rw [hself, VNode.count_decreaseRefs, h.counted a r halloc]
      by_cases hgr : r.granted (p.files i).fmode = true
      · have hone : mark (grants a r) (some (a, (p.files i).fmode)) = 1 := by
          simp [mark, grants, hgr]
        rw [hone] at hr
        rw [if_pos hgr, sub_one_mod (by omega) (by decide), ← hr, Nat.add_sub_cancel]
      · have hnone : mark (grants a r) (some (a, (p.files i).fmode)) = 0 := by
          simp [mark, grants, hgr]
        rw [hnone] at hr
        rw [if_neg hgr, ← hr, Nat.add_zero]
    refine ⟨fun b r hb => ?_, fun x hx => ?_, fun b r hb => ?_⟩
    · by_cases hba : b = a
      · rw [hba]
        exact hcount r
      · have hr := hrefs r b
        have hnone : mark (grants b r) (some (a, (p.files i).fmode)) = 0 := by
          simp [mark, grants, Ne.symm hba]
        rw [hnone, Nat.add_zero] at hr
        rw [hother b hba, hr]
        exact h.counted b r (hgalloc ▸ hb)
    · rw [hgalloc]
      rcases refers_update hheld hlost hx with hnew | hold
      · simp at hnew
      · exact h.live x hold
    · by_cases hba : b = a
      · subst hba
        have hle : (g.vnodes b).count r ≤ (f.vnodes b).count r := by
          rw [hcount r, h.count_eq hwrap halloc]
          have := hrefs r b
          exact (Nat.mod_le _ _).trans (by omega)
        have hlim : (g.vnodes b).limit r = (f.vnodes b).limit r := by
          rw [hself]
          cases r <;> rfl
        rw [hlim]
        exact (h.limits b r halloc).imp_left hle.trans
      · rw [hother b hba]
        exact h.limits b r (hgalloc ▸ hb)
  · next href =>
    rw [if_neg href, if_neg href] at hunname
    exact h.congr rfl hunname rfl (fun _ _ => rfl) fun _ _ => rfl

theorem held_upd {u : Process → Process} (hu : ∀ p i, ((u p).files i).open? = (p.files i).open?) :
    (f.upd pid u).held = f.held := by
  unfold Files.upd
  split
  · next p hp => exact held_setProcess hp rfl fun i => hu p i
  · rfl

theorem held_dupTo (f : Files) (pid : Pid) (forig fdup : Int) (i : Fin 16) :
    (f.dupTo pid forig fdup i).held = f.held := by
  have hsetFd : ∀ (p : Process) e, (p.setFd fdup e).files = p.files := fun p e => by
    unfold Process.setFd
    split <;> rfl
  refine (held_upd fun p j => ?_).trans (held_upd fun p j => by rw [hsetFd])
  by_cases hj : j = i
  · subst hj
    simp [Process.setFile, VFile.open?]
  · simp [Process.setFile, hj]

@[simp] theorem upd_allocated (f : Files) (pid : Pid) (u : Process → Process) :
    (f.upd pid u).allocated = f.allocated := by
  unfold upd
  split <;> rfl

@[simp] theorem upd_vnodes (f : Files) (pid : Pid) (u : Process → Process) :
    (f.upd pid u).vnodes = f.vnodes := by
  unfold upd
  split <;> rfl

@[simp] theorem upd_lost (f : Files) (pid : Pid) (u : Process → Process) :
    (f.upd pid u).lost = f.lost := by
  unfold upd
  split <;> rfl

theorem Counts.upd (h : f.Counts) {u : Process → Process}
    (hu : ∀ p i, ((u p).files i).open? = (p.files i).open?) : (f.upd pid u).Counts :=
  h.congr (upd_allocated ..) (held_upd hu) (upd_lost ..) (fun _ _ => by rw [upd_vnodes])
    fun _ _ => by rw [upd_vnodes]

theorem Counts.dupTo (h : f.Counts) (pid : Pid) (forig fdup : Int) (i : Fin 16) :
    (f.dupTo pid forig fdup i).Counts := by
  refine h.congr ?_ (f.held_dupTo pid forig fdup i) ?_ (fun _ _ => ?_) fun _ _ => ?_ <;>
    simp [Files.dupTo]

/-- The tables when a process is removed. -/
def retire (f : Files) (pid : Pid) (p : Process) : Files :=
  { f with
    sosProcs := Function.update f.sosProcs pid .null
    lost := f.lost ++ p.openFiles }

theorem held_retire (f : Files) (pid : Pid) (p : Process) :
    (f.retire pid p).held = fun h => if h.1 = pid then none else f.held h := by
  funext ⟨pid', j⟩
  by_cases hpid : pid' = pid
  · subst hpid
    simp [held, retire, Slot.held]
  · simp [held, retire, hpid]

theorem openFiles_eq (hp : f.sosProcs pid = .pcb p) :
    p.openFiles = (List.finRange 16).filterMap fun i => f.held (pid, i) := by
  simp [Process.openFiles, held, hp, Slot.held, VFile.open?]

theorem refers_retire (hp : f.sosProcs pid = .pcb p)
    (hx : (f.retire pid p).Refers x) : f.Refers x := by
  rcases hx with ⟨k, hk⟩ | hx
  · rw [held_retire] at hk
    dsimp only at hk
    split at hk
    · simp at hk
    · exact .inl ⟨k, hk⟩
  · rcases List.mem_append.mp hx with hold | hnew
    · exact .inr hold
    · rw [openFiles_eq hp] at hnew
      obtain ⟨j, -, hj⟩ := List.mem_filterMap.mp hnew
      exact .inl ⟨(pid, j), hj⟩

/-- A process is removed: its open files still count. -/
theorem Counts.retire (h : f.Counts) (hp : f.sosProcs pid = .pcb p) : (f.retire pid p).Counts := by
  have hrefs : ∀ b r, (f.retire pid p).refs r b = f.refs r b := fun b r => by
    have hclear := count_clear f.held (grants b r) pid
    rw [sum_mark_eq_countP, ← openFiles_eq hp] at hclear
    have hlost : (f.retire pid p).lost = f.lost ++ p.openFiles := rfl
    unfold refs opens
    rw [held_retire, hlost, List.countP_append]
    omega
  refine ⟨fun b r hb => ?_, fun x hx => h.live x (refers_retire hp hx), h.limits⟩
  rw [hrefs]
  exact h.counted b r hb

/-! ### The files left open -/

@[simp] theorem drop_lost (f : Files) (a : Nat) : (f.drop a).lost = f.lost := by
  change (f.removeVnode a).lost = f.lost
  rw [(f.relinked_removeVnode a).rest]

@[simp] theorem openErr_lost (f : Files) (a : Nat) : (f.openErr a).lost = f.lost := by
  unfold openErr
  split
  · exact f.drop_lost a
  · rfl

@[simp] theorem addVnode_lost (f : Files) (a : Nat) : (f.addVnode a).lost = f.lost := by
  rw [(f.relinked_addVnode a).rest]

@[simp] theorem unname_lost (f : Files) (pid : Pid) (p : Process) (fd : Int) (i : Fin 16)
    (a : Nat) : (f.unname pid p fd i a).lost = f.lost := by
  unfold unname
  split <;> rfl

theorem NoWrap.congr (h : f.NoWrap) (hheld : g.held = f.held) (hlost : g.lost = f.lost) :
    g.NoWrap := by
  unfold NoWrap refs opens
  rw [hheld, hlost]
  exact h

theorem NoWrap.unname (h : f.NoWrap) (hp : f.sosProcs pid = .pcb p) :
    (f.unname pid p fd i a).NoWrap := by
  intro r b
  refine Nat.lt_of_le_of_lt ?_ (h r b)
  have hheld : (f.unname pid p fd i a).held = _ := held_unname hp
  split at hheld
  · have := refs_update hheld (f.unname_lost pid p fd i a) r b
    rw [mark_none] at this
    omega
  · unfold refs opens
    rw [hheld, unname_lost]

end Files

/-! ## Steps -/

namespace Vfs

open Files

variable {s t : Vfs} {e : Event} {pid : Pid} {a mode c : Nat} {status : Int}

theorem OpenDone.lost (ho : OpenDone s pid a mode status t) : t.files.lost = s.files.lost := by
  cases ho with
  | gone => exact openErr_lost ..
  | failed | full =>
    rw [replied_files]
    exact openErr_lost ..
  | done =>
    rw [replied_files]
    rfl

theorem Closed.lost (hc : Closed s pid fd t) : t.files.lost = s.files.lost := by
  cases hc with
  | notOpen => rfl
  | kept _ _ hf _ =>
    rw [replied_files, hf]
    exact unname_lost ..
  | last _ _ hf _ _ _ =>
    rw [replied_files, hf]
    exact (drop_lost ..).trans (unname_lost ..)
  | console _ _ hf _ _ =>
    rw [replied_files, hf]
    exact unname_lost ..

theorem Dupped.lost {forig fdup : Int} (hd : Dupped s pid forig fdup t) :
    t.files.lost = s.files.lost := by
  cases hd with
  | refused => rw [replied_files]
  | copied =>
    rw [replied_files]
    exact (upd_lost ..).trans (upd_lost ..)
  | replaced _ _ _ hu =>
    rw [replied_files]
    exact (upd_lost ..).trans
      ((upd_lost ..).trans ((upd_lost ..).trans (hu.lost.trans (upd_lost ..))))

theorem Answers.lost (ha : Answers s pid t) : t.files.lost = s.files.lost := by
  obtain ⟨f, n, words, hf, rfl⟩ := ha
  rw [replied_files, hf.rest]

/-- Only the removal of a PCB leaves files open. -/
theorem Step.lost (hst : Step s e t) :
    t.files.lost = s.files.lost ∨ ∃ pid p, e = .removePcb pid ∧ s.process? pid = some p ∧
      t.files.lost = s.files.lost ++ p.openFiles := by
  cases hst.handled with
  | opened own pid path mode readers writers block _ ho =>
    refine .inl ?_
    cases ho with
    | null => rfl
    | refused => rw [replied_files]; rfl
    | shared _ _ _ _ hd => exact hd.lost
    | made _ _ _ _ hf | lockedOut _ _ _ _ hf =>
      rw [hf]
      exact addVnode_lost ..
  | closed own pid fd _ hc => exact .inl hc.lost
  | dupped own pid forig fdup _ hd => exact .inl hd.lost
  | called own pid _ _ hc =>
    refine .inl ?_
    cases hc with
    | silent => rfl
    | answered ha => exact ha.lost
    | requested => rfl
    | reader => rfl
  | completed i rpc ans _ _ hc =>
    refine .inl ?_
    cases hc with
    | unknown => rfl
    | lookedUp _ _ _ _ ho => exact ho.lost
    | missing => rfl
    | failed _ _ _ ho => exact ho.lost
    | answered _ _ ha => exact ha.lost
    | more => rfl
  | typed newline _ ht =>
    refine .inl ?_
    cases ht with
    | idle => rfl
    | kept => rfl
    | line _ ha => exact ha.lost
  | reserved | spawned => exact .inl rfl
  | turned => exact .inl (upd_lost ..)
  | retired pid p he hp => exact .inr ⟨pid, p, he, process?_of_slot hp, rfl⟩

theorem OpenDone.counts (ho : OpenDone s pid a mode status t) (hk : s.files.Kinds c)
    (h : s.files.Counts) (hwrap : s.files.NoWrap) (ha : status = vfsOk → s.files.allocated a = true)
    (hmode : ∃ r : Right, r.granted mode = true) : t.files.Counts := by
  cases ho with
  | gone _ he => exact h.openErr hwrap he
  | failed _ he _ =>
    rw [replied_files]
    exact h.openErr hwrap he
  | @full p v _ _ hv _ he =>
    rw [replied_files]
    have hback : s.files.setVnode a (v.decreaseRefs mode) = s.files := by
      rw [(hk.small a).decreaseRefs_increaseRefs hv]
      simp [Files.setVnode]
    rw [hback] at he ⊢
    exact h.openErr hwrap he
  | done hp hok hv hfree =>
    rw [replied_files]
    exact h.install hp (ha hok) hv hfree hmode

theorem Closed.counts (hc : Closed s pid fd t) (h : s.files.Counts)
    (hwrap : s.files.NoWrap) : t.files.Counts := by
  cases hc with
  | notOpen => exact h
  | kept ho ha hf _ =>
    rw [replied_files, hf]
    exact h.unname hwrap _ ho.1 ha
  | @last p i a f ho ha hf hu _ halloc =>
    rw [replied_files]
    have hf' : f.Counts := hf ▸ h.unname hwrap _ ho.1 ha
    have hwrap' : f.NoWrap := hf ▸ hwrap.unname ho.1
    have hfree : (f.freeNfsfile a).Counts := by
      refine hf'.setVnode (fun r => ?_) fun r => ?_ <;> cases r <;> rfl
    refine hfree.drop hwrap' ?_ halloc
    rw [Files.freeNfsfile, setVnode_vnodes_self]
    exact hu
  | console ho ha hf _ _ =>
    rw [replied_files, hf]
    exact h.unname hwrap _ ho.1 ha

theorem Dupped.counts {forig fdup : Int} (hd : Dupped s pid forig fdup t) (h : s.files.Counts)
    (hwrap : s.files.NoWrap) : t.files.Counts := by
  cases hd with
  | refused => rwa [replied_files]
  | copied =>
    rw [replied_files]
    exact h.dupTo ..
  | @replaced p i j u g _ _ _ hu =>
    rw [replied_files]
    have hu' := hu.counts (h.upd fun _ _ => rfl) (hwrap.congr (held_upd fun _ _ => rfl)
      (upd_lost ..))
    have hon : (u.files.upd pid ({ · with ipcAccept := p.ipcAccept })).Counts :=
      hu'.upd fun _ _ => rfl
    exact hon.dupTo ..

theorem Answers.counts (ha : Answers s pid t) (h : s.files.Counts) : t.files.Counts := by
  obtain ⟨f, n, words, hf, rfl⟩ := ha
  rw [replied_files]
  exact h.quiet hf

/-- The counts are exact, and a lookup is for a mode with a right. -/
structure Accounted (s : Vfs) : Prop where
  counts : s.files.Counts
  modes : ∀ rq ∈ s.nfs.requests, ∀ a mode, rq.rt = .lookup a mode →
    ∃ r : Right, r.granted mode = true

theorem openPath_mode {p : Process} {path path' : Path} (h : openPath p path mode = .ok path') :
    ∃ r : Right, r.granted mode = true := by
  unfold openPath at h
  split at h
  · simp at h
  · split at h
    · simp at h
    · split at h
      · simp at h
      · next hm =>
        cases hr : reads mode with
        | true => exact ⟨.read, hr⟩
        | false =>
          cases hw : writes mode with
          | true => exact ⟨.write, hw⟩
          | false => simp [hr, hw] at hm

theorem accounted_of_started (h : Started s) : s.Accounted := by
  obtain ⟨sosProcs, incs, a, rfl, hinit⟩ := h
  have hheld : ∀ k, (vfsInit sosProcs incs a).files.held k = none := by
    rintro ⟨pid, i⟩
    change (sosProcs pid).held i = none
    cases hp : sosProcs pid with
    | pcb p => simp [Slot.held, VFile.open?, (hinit pid p hp).1.2 i]
    | _ => rfl
  have hnone : ∀ x, ¬ (vfsInit sosProcs incs a).files.Refers x := by
    rintro x (⟨k, hk⟩ | hx)
    · simp [hheld k] at hk
    · simp [vfsInit] at hx
  have hzero : ∀ b r, ((vfsInit sosProcs incs a).files.vnodes b).count r = 0 := by
    intro b r
    by_cases hb : b = a <;> cases r <;> simp [vfsInit, hb, VNode.count, consoleVnode]
  refine ⟨⟨fun b r _ => ?_, fun x hx => absurd hx (hnone x), fun b r _ => ?_⟩, fun r hr =>
    absurd hr List.not_mem_nil⟩
  · rw [hzero, refs_eq_zero_iff.mpr fun x hx => absurd hx (hnone x), Nat.zero_mod]
  · rw [hzero]
    exact .inl (Nat.zero_le _)

theorem Accounted.of_frame (h : s.Accounted) (hf : Frame s t) (hc : t.files.Counts) :
    t.Accounted := by
  refine ⟨hc, ?_⟩
  rw [hf.nfs]
  exact h.modes

theorem Answers.accounted (ha : Answers s pid t) (h : s.Accounted) : t.Accounted := by
  refine ⟨ha.counts h.counts, ?_⟩
  rw [ha.nfs]
  exact h.modes

theorem Accounted.removed (h : s.Accounted) (rq : NfsRequest) : (s.removed rq).Accounted := by
  refine ⟨h.counts, fun r hr => h.modes r ?_⟩
  have hr' : r ∈ (s.nfs.remove s.files rq).requests := hr
  rw [Nfs.remove_requests] at hr'
  exact List.mem_of_mem_eraseP hr'

/-- A request is added. -/
theorem modes_request {f : Files} {rt : RequestType} {cl : Caller}
    (h : ∀ rq ∈ s.nfs.requests, ∀ a mode, rq.rt = .lookup a mode →
      ∃ r : Right, r.granted mode = true)
    (hrt : ∀ a mode, rt = .lookup a mode → ∃ r : Right, r.granted mode = true) :
    ∀ rq ∈ (s.nfs.request f pid rt cl).requests, ∀ a mode, rq.rt = .lookup a mode →
      ∃ r : Right, r.granted mode = true := by
  intro rq hrq
  rw [Nfs.request_requests] at hrq
  rcases List.mem_append.mp hrq with hold | hnew
  · exact h rq hold
  · rw [List.mem_singleton.mp hnew]
    exact hrt

theorem Opened.accounted {path : Path} {readers writers block : Nat}
    (ho : Opened s pid path mode readers writers block t) (hs : s.Sorted) (h : s.Accounted)
    (hwrap : s.files.NoWrap) (hblock : s.files.allocated block = false)
    (hlock : ¬ (s.openTarget pid path mode = some none ∧ LockedOut mode readers writers)) :
    t.Accounted := by
  cases ho with
  | null => exact h
  | refused =>
    exact h.of_frame (frame_replied s s.files pid _ _) (by rw [replied_files]; exact h.counts)
  | shared _ hpath hfind _ hd =>
    refine h.of_frame hd.frame (hd.counts hs.files h.counts hwrap (fun _ => ?_)
      (openPath_mode hpath))
    exact hs.files.listed.allocated_of_find hfind
  | @made p path' f _ hpath _ _ hf =>
    refine ⟨?_, ?_⟩
    · rw [hf]
      exact h.counts.made hblock path' readers writers
    · refine modes_request (s := s) h.modes fun a m hrt => ?_
      obtain ⟨-, rfl⟩ := RequestType.lookup.inj hrt
      exact openPath_mode hpath
  | lockedOut hp hpath hfind hl _ =>
    exact absurd ⟨(openTarget_eq hp hpath).trans hfind, hl⟩ hlock

theorem Completed.accounted {token : Nat} {ans : RpcAnswer} (hc : Completed s token ans t)
    (hs : s.Sorted) (h : s.Accounted) (hwrap : s.files.NoWrap) : t.Accounted := by
  cases hc with
  | unknown => exact h
  | @lookedUp rq a mode u hrq hrt _ he ho =>
    have hmem := List.mem_of_find?_eq_some hrq
    have hne : a ≠ s.console.vnode := fun ha => hs.requests rq hmem (by rw [hrt, ha]; rfl)
    have halloc : s.files.allocated a = true := by
      by_contra hn
      exact he (hs.files.blank a (by simpa using hn))
    have hfilled : (s.files.filled a ans).Counts := by
      refine Counts.quiet ?_ (.cpStats _ a ans.attr)
      refine h.counts.setVnode (fun r => ?_) fun r => ?_ <;> cases r <;> rfl
    have h' : ((s.resumed rq).withFiles (s.files.filled a ans)).Accounted := ⟨hfilled, h.modes⟩
    refine (h'.of_frame ho.frame ?_).removed rq
    exact ho.counts (hs.files.filled hne he ans) hfilled hwrap (fun _ => halloc)
      (h.modes rq hmem a mode hrt)
  | missing => exact ⟨h.counts, h.modes⟩
  | @failed rq a mode u hrq hrt hst ho =>
    have hmem := List.mem_of_find?_eq_some hrq
    have hne : a ≠ s.console.vnode := fun ha => hs.requests rq hmem (by rw [hrt, ha]; rfl)
    have hfree : (s.files.freeNfsfile a).Counts := by
      refine h.counts.setVnode (fun r => ?_) fun r => ?_ <;> cases r <;> rfl
    have h' : ((s.resumed rq).withFiles (s.files.freeNfsfile a)).Accounted := ⟨hfree, h.modes⟩
    refine (h'.of_frame ho.frame ?_).removed rq
    exact ho.counts (hs.files.freeNfsfile hne) hfree hwrap
      (fun hok => absurd hok (NfsStatus.toVfs_ne_ok hst)) (h.modes rq hmem a mode hrt)
  | @answered rq u _ _ ha =>
    have h' : (s.resumed rq).Accounted := ⟨h.counts, h.modes⟩
    exact (ha.accounted h').removed rq
  | more =>
    refine ⟨h.counts, fun rq hrq => ?_⟩
    obtain ⟨r, hr, rfl⟩ := List.mem_map.mp hrq
    split
    · exact nofun
    · exact h.modes r hr

theorem held_withSlot {x : Slot} (hp : s.process? pid = none) (hx : ∀ i, x.held i = none) :
    (s.withSlot pid x).files.held = s.files.held :=
  held_setSlot hp rfl hx

theorem Step.accounted (hst : Step s e t) (hs : s.Sorted) (h : s.Accounted) (hwrap : s.files.NoWrap)
    (hlock : ¬ MakesLockedOut s e) : t.Accounted := by
  have hcalled : ∀ pid own, (s.called pid own).Accounted := fun _ _ => ⟨h.counts, h.modes⟩
  cases hst.handled with
  | opened own pid path mode readers writers block he ho =>
    have hblock : s.files.allocated block = false := by
      refine hst.1.1 block ?_
      rw [he]
      cases own <;> rfl
    refine ho.accounted ⟨hs.files, hs.requests⟩ (hcalled pid own) hwrap hblock fun hm => hlock ?_
    rw [he]
    cases own <;> exact hm
  | closed own pid fd _ hc => exact (hcalled pid own).of_frame hc.frame (hc.counts h.counts hwrap)
  | dupped own pid forig fdup _ hd =>
    exact (hcalled pid own).of_frame hd.frame (hd.counts h.counts hwrap)
  | called own pid _ _ hc =>
    cases hc with
    | silent => exact ⟨h.counts, h.modes⟩
    | answered ha => exact ha.accounted (hcalled pid own)
    | @requested rt hrt =>
      refine ⟨h.counts, modes_request (s := s) h.modes fun a m hlook => ?_⟩
      rw [hlook] at hrt
      exact absurd hrt id
    | reader => exact ⟨h.counts, h.modes⟩
  | completed i rpc ans _ _ hc =>
    exact hc.accounted ⟨hs.files, hs.requests⟩ ⟨h.counts, h.modes⟩ hwrap
  | typed newline _ ht =>
    cases ht with
    | idle => exact h
    | kept => exact ⟨h.counts, h.modes⟩
    | @line r u _ ha =>
      have h' : { s with caller := r.caller : Vfs }.Accounted := ⟨h.counts, h.modes⟩
      have hu := ha.accounted h'
      exact ⟨hu.counts, hu.modes⟩
  | reserved pid he | spawned pid p he =>
    have hnone : s.process? pid = none := (he ▸ hst.1).2
    exact ⟨h.counts.congr rfl (held_withSlot hnone fun _ => rfl) rfl (fun _ _ => rfl)
      fun _ _ => rfl, h.modes⟩
  | turned => exact ⟨h.counts.upd fun _ _ => rfl, h.modes⟩
  | retired pid p he hp => exact ⟨h.counts.retire hp, h.modes⟩

end Vfs

end Sos
