import Sos.Lib.RefCount
import Sos.Vfs.Run
import Sos.Vfs.Steps

/-!
# Descriptors and open files

The two tables of a process: `fds` maps descriptors to entries of `files`, and an entry counts the
descriptors that name it in `ref`. Opening, closing and duplicating keep the count exact, with one
exception: `dup2(f, f)` closes the file it is about to duplicate.
-/

namespace Sos

open RefCount

namespace Process

variable {p q : Process} {fd : Int} {i j : Fin 16} {g : Fin 19}

/-- How many descriptors name an entry of `files`. -/
def names (p : Process) (i : Fin 16) : Nat :=
  (Finset.univ.filter fun g : Fin 19 => p.fds g = (i : Int)).card

theorem names_eq_count (p : Process) (i : Fin 16) :
    p.names i = count (fun g => some (p.fds g)) fun e => e = (i : Int) := by
  unfold names count
  rw [Finset.card_filter]
  refine Finset.sum_congr rfl fun g _ => ?_
  simp [mark]

theorem names_le (p : Process) (i : Fin 16) : p.names i ≤ 19 := by
  rw [names_eq_count]
  exact count_le _ _

theorem names_pos (h : p.fds g = (i : Int)) : 0 < p.names i :=
  Finset.card_pos.mpr ⟨g, by simp [h]⟩

theorem names_eq_zero_iff : p.names i = 0 ↔ ∀ g, p.fds g ≠ (i : Int) := by
  unfold names
  rw [Finset.card_eq_zero, Finset.filter_eq_empty_iff]
  simp

theorem names_congr (hfds : q.fds = p.fds) : q.names i = p.names i := by
  unfold names
  rw [hfds]

/-- One descriptor is written. -/
theorem names_update {e : Int} (hq : q.fds = Function.update p.fds g e) (i : Fin 16) :
    q.names i + (if p.fds g = i then 1 else 0) = p.names i + (if e = i then 1 else 0) := by
  have hupd : (fun k => some (Function.update p.fds g e k)) =
      Function.update (fun k => some (p.fds k)) g (some e) := by
    funext k
    by_cases hk : k = g
    · subst hk; simp
    · simp [hk]
  have h := count_update (fun k => some (p.fds k)) (fun e => decide (e = (i : Int))) g (some e)
  rw [names_eq_count, names_eq_count, hq, hupd]
  simpa [mark] using h

/-- Every descriptor in use names an occupied entry, and every occupied entry counts the descriptors
that name it, of which there are some. -/
structure Tabled (p : Process) : Prop where
  entry : ∀ g, p.fds g = vfsNilFile ∨ ∃ i : Fin 16, p.fds g = i ∧ (p.files i).vnode.isSome
  ref : ∀ i, (p.files i).vnode.isSome → (p.files i).ref = p.names i
  used : ∀ i, (p.files i).vnode.isSome → 0 < p.names i

/-- The counts depend on these fields only. -/
theorem Tabled.congr (h : p.Tabled) (hfds : q.fds = p.fds)
    (hvnode : ∀ i, (q.files i).vnode = (p.files i).vnode)
    (href : ∀ i, (q.files i).ref = (p.files i).ref) : q.Tabled where
  entry := fun g => by
    rcases h.entry g with hg | ⟨i, hi, hocc⟩
    · exact .inl (by rw [hfds, hg])
    · exact .inr ⟨i, by rw [hfds, hi], by rw [hvnode, hocc]⟩
  ref := fun i hocc => by
    rw [hvnode] at hocc
    rw [href, names_congr hfds, h.ref i hocc]
  used := fun i hocc => by
    rw [hvnode] at hocc
    rw [names_congr hfds]
    exact h.used i hocc

theorem tabled_of_vfilesInit (h : p.VfilesInit) : p.Tabled where
  entry := fun g => .inl (h.1 g)
  ref := fun i hocc => by simp [h.2 i] at hocc
  used := fun i hocc => by simp [h.2 i] at hocc

/-- A free entry is named by no descriptor. -/
theorem Tabled.names_eq_zero (h : p.Tabled) (hi : (p.files i).vnode = none) : p.names i = 0 := by
  rw [names_eq_zero_iff]
  intro g hg
  rcases h.entry g with hnil | ⟨j, hj, hocc⟩
  · rw [hg] at hnil
    unfold vfsNilFile at hnil
    omega
  · obtain rfl : i = j := by
      have : (i : Int) = j := hg.symm.trans hj
      omega
    simp [hi] at hocc

/-- A descriptor that is not open is not in use. -/
theorem Tabled.fds_eq_nil (h : p.Tabled) (hg : p.vfile? g = none) : p.fds g = vfsNilFile := by
  rcases h.entry g with hnil | ⟨i, hi, hocc⟩
  · exact hnil
  · rw [vfile?_eq_some.mpr ⟨g, rfl, hi, hocc⟩] at hg
    simp at hg

theorem nil_ne_coe (i : Fin 16) : ¬ vfsNilFile = (i : Int) := by
  unfold vfsNilFile
  omega

/-- A free descriptor comes to name an entry, which counts one name more. -/
theorem Tabled.named (h : p.Tabled) {f : VFile} (hfds : q.fds = Function.update p.fds g (i : Int))
    (hfiles : q.files = Function.update p.files i f) (hg : p.fds g = vfsNilFile)
    (hf : f.vnode.isSome) (href : f.ref = p.names i + 1) : q.Tabled := by
  refine ⟨fun k => ?_, fun j hocc => ?_, fun j hocc => ?_⟩
  · rw [hfds, hfiles]
    by_cases hk : k = g
    · subst hk
      exact .inr ⟨i, by simp, by simpa using hf⟩
    · rw [Function.update_of_ne hk]
      rcases h.entry k with hnil | ⟨j, hj, hocc⟩
      · exact .inl hnil
      · refine .inr ⟨j, hj, ?_⟩
        by_cases hji : j = i
        · subst hji
          simpa using hf
        · simpa [hji] using hocc
  · have hn := names_update hfds j
    rw [hg, if_neg (nil_ne_coe j)] at hn
    rw [hfiles] at hocc ⊢
    by_cases hji : j = i
    · subst hji
      rw [if_pos rfl] at hn
      rw [Function.update_self, href]
      omega
    · rw [if_neg (by omega)] at hn
      rw [Function.update_of_ne hji] at hocc ⊢
      rw [h.ref j hocc]
      omega
  · have hn := names_update hfds j
    rw [hg, if_neg (nil_ne_coe j)] at hn
    rw [hfiles] at hocc
    by_cases hji : j = i
    · subst hji
      rw [if_pos rfl] at hn
      omega
    · rw [Function.update_of_ne hji] at hocc
      have := h.used j hocc
      omega

theorem Tabled.install (h : p.Tabled) (hfree : p.findNextFd = some (g, i)) {f : VFile}
    (hf : f.vnode.isSome) (hone : f.ref = 1) : ((p.setFile i f).setFd g i).Tabled := by
  obtain ⟨hg, hi⟩ := findNextFd_eq hfree
  refine h.named (i := i) (by simp [setFile]) (by simp [setFile]) hg hf ?_
  rw [hone, h.names_eq_zero hi]
  rfl

theorem forget_fds (p : Process) (g : Fin 19) (i : Fin 16) :
    (p.forget g i).fds = Function.update p.fds g vfsNilFile := by
  simp [Process.forget, setFile]

/-- The count of an open file is lowered; at 0 the entry is free. -/
theorem Tabled.forget_files (h : p.Tabled) (hg : p.fds g = (i : Int))
    (hocc : (p.files i).vnode.isSome) :
    (p.forget g i).files = Function.update p.files i
      (if p.names i = 1 then { vnode := none, fmode := 0, fp := 0, ref := 0 }
      else { p.files i with ref := (p.names i : Int) - 1 }) := by
  have href := h.ref i hocc
  have hpos := names_pos hg
  have hle := p.names_le i
  have hmod : ((p.files i).ref - 1) % wordLimit = (p.names i : Int) - 1 := by
    unfold wordLimit
    omega
  have hone : ((p.names i : Int) - 1 = 0) = (p.names i = 1) := by
    rw [eq_iff_iff]
    omega
  simp only [Process.forget, setFd_coe, setFile, hmod, hone]

theorem Tabled.forget (h : p.Tabled) (hfd : p.vfile? fd = some i) : (p.forget fd i).Tabled := by
  obtain ⟨g, rfl, hg, hocc⟩ := vfile?_eq_some.mp hfd
  have hn := names_update (p.forget_fds g i)
  have hfiles := h.forget_files hg hocc
  simp only [if_neg (nil_ne_coe _), hg] at hn
  refine ⟨fun k => ?_, fun j hj => ?_, fun j hj => ?_⟩
  · by_cases hk : k = g
    · subst hk
      exact .inl (by rw [forget_fds, Function.update_self])
    · have hfds : (p.forget g i).fds k = p.fds k := by rw [forget_fds, Function.update_of_ne hk]
      rw [hfds, hfiles]
      rcases h.entry k with hnil | ⟨j, hj, hocc'⟩
      · exact .inl hnil
      · refine .inr ⟨j, hj, ?_⟩
        by_cases hji : j = i
        · subst hji
          -- A second descriptor names the entry, so that it stays.
          have hother : 0 < (p.forget g j).names j := names_pos (hfds.trans hj)
          have htwo := hn j
          rw [if_pos rfl] at htwo
          rw [Function.update_self, if_neg (by omega)]
          exact hocc
        · rw [Function.update_of_ne hji]
          exact hocc'
  · have hnj := hn j
    rw [hfiles] at hj ⊢
    by_cases hji : j = i
    · subst hji
      rw [if_pos rfl] at hnj
      rw [Function.update_self] at hj ⊢
      by_cases hone : p.names j = 1
      · rw [if_pos hone] at hj
        simp at hj
      · rw [if_neg hone]
        dsimp only
        omega
    · rw [if_neg (by omega)] at hnj
      rw [Function.update_of_ne hji] at hj ⊢
      rw [h.ref j hj]
      omega
  · have hnj := hn j
    rw [hfiles] at hj
    by_cases hji : j = i
    · subst hji
      rw [if_pos rfl] at hnj
      have hpos := h.used j hocc
      by_cases hone : p.names j = 1
      · rw [Function.update_self, if_pos hone] at hj
        simp at hj
      · omega
    · rw [if_neg (by omega)] at hnj
      rw [Function.update_of_ne hji] at hj
      have := h.used j hj
      omega

/-- `fds[g] = fds[forig]; files[i].ref++` -/
def aliased (p : Process) (forig : Int) (g : Fin 19) (i : Fin 16) : Process :=
  (p.setFd g ((p.fdFile? forig).getD vfsNilFile)).setFile i
    { p.files i with ref := ((p.files i).ref + 1) % wordLimit }

theorem aliased_fds (hfd : p.vfile? fd = some i) (g : Fin 19) :
    (p.aliased fd g i).fds = Function.update p.fds g (i : Int) := by
  obtain ⟨k, rfl, hk, -⟩ := vfile?_eq_some.mp hfd
  simp [Process.aliased, setFile, hk]

theorem aliased_fdFile? (hfd : p.vfile? fd = some i) (g : Fin 19) :
    (p.aliased fd g i).fdFile? fd = some (i : Int) := by
  have hfds := aliased_fds hfd g
  obtain ⟨k, rfl, hk, -⟩ := vfile?_eq_some.mp hfd
  rw [fdFile?_coe, hfds]
  by_cases hkg : k = g
  · rw [hkg, Function.update_self]
  · rw [Function.update_of_ne hkg, hk]

theorem Tabled.aliased (h : p.Tabled) (hfd : p.vfile? fd = some i) (hg : p.vfile? g = none) :
    (p.aliased fd g i).Tabled := by
  obtain ⟨k, rfl, hk, hocc⟩ := vfile?_eq_some.mp hfd
  have href := h.ref i hocc
  have hle := p.names_le i
  have hmod : ((p.files i).ref + 1) % wordLimit = (p.files i).ref + 1 := by
    unfold wordLimit
    omega
  have hfiles : (p.aliased k g i).files =
      Function.update p.files i { p.files i with ref := (p.files i).ref + 1 } := by
    simp [Process.aliased, setFile, hmod]
  exact h.named (aliased_fds hfd g) hfiles (h.fds_eq_nil hg) hocc (by rw [href])

/-- The descriptor that is closed is no longer open. -/
theorem vfile?_forget_self (p : Process) (g : Fin 19) (i : Fin 16) :
    (p.forget g i).vfile? g = none := by
  unfold vfile?
  rw [fdFile?_coe, forget_fds, Function.update_self]
  rfl

/-- Closing another descriptor leaves the first one open. -/
theorem Tabled.vfile?_forget (h : p.Tabled) (hfd : p.vfile? fd = some i) (hg : p.vfile? g = some j)
    (hne : fd ≠ g) : (p.forget g j).vfile? fd = some i ∧
      ((p.forget g j).files i).vnode = (p.files i).vnode := by
  obtain ⟨k, rfl, hk, hocc⟩ := vfile?_eq_some.mp hfd
  have hkg : k ≠ g := by
    rintro rfl
    exact hne rfl
  have hfds : (p.forget g j).fds k = i := by rw [forget_fds, Function.update_of_ne hkg, hk]
  -- The descriptor still has its entry in the tables, so that it is open.
  have hocc' : ((p.forget g j).files i).vnode.isSome := by
    rcases (h.forget hg).entry k with hnil | ⟨i', hi', hocc'⟩
    · exact absurd (hnil.symm.trans hfds) (nil_ne_coe i)
    · obtain rfl : i = i' := by
        have : (i : Int) = i' := hfds.symm.trans hi'
        omega
      exact hocc'
  refine ⟨vfile?_eq_some.mpr ⟨k, rfl, hfds, hocc'⟩, ?_⟩
  obtain ⟨g', hg', hgj, hoccj⟩ := vfile?_eq_some.mp hg
  obtain rfl : g = g' := by omega
  rw [h.forget_files hgj hoccj] at hocc' ⊢
  by_cases hij : i = j
  · subst hij
    rw [Function.update_self] at hocc' ⊢
    split
    · next hone => simp [hone] at hocc'
    · rfl
  · rw [Function.update_of_ne hij]

end Process

theorem Files.dupTo_sosProcs {f : Files} {pid : Pid} {p : Process} (hp : f.sosProcs pid = .pcb p)
    (forig : Int) (g : Fin 19) (i : Fin 16) : (f.dupTo pid forig g i).sosProcs =
      Function.update f.sosProcs pid (.pcb (p.aliased forig g i)) := by
  have hp' : (f.setProcess pid (p.setFd g ((p.fdFile? forig).getD vfsNilFile))).sosProcs pid =
      .pcb (p.setFd g ((p.fdFile? forig).getD vfsNilFile)) := Function.update_self ..
  unfold Files.dupTo
  rw [Files.upd_pcb hp, Files.upd_pcb hp']
  simp [Files.setProcess, Process.aliased]

namespace Vfs

variable {s t : Vfs} {e : Event} {pid : Pid} {p : Process} {fd : Int} {i : Fin 16}

/-- The tables of all processes are sound. -/
def Tables (s : Vfs) : Prop := ∀ pid p, s.files.sosProcs pid = .pcb p → p.Tabled

theorem Tables.congr (h : s.Tables) (ht : t.files.sosProcs = s.files.sosProcs) : t.Tables := by
  unfold Tables
  rw [ht]
  exact h

theorem Tables.update (h : s.Tables) {x : Slot} (pid : Pid)
    (ht : t.files.sosProcs = Function.update s.files.sosProcs pid x)
    (hx : ∀ p, x = .pcb p → p.Tabled) : t.Tables := by
  intro q r hr
  rw [ht] at hr
  by_cases hq : q = pid
  · subst hq
    rw [Function.update_self] at hr
    exact hx r hr
  · rw [Function.update_of_ne hq] at hr
    exact h q r hr

/-- A process is changed in other fields than its tables. -/
theorem Tables.upd (h : s.Tables) {f : Process → Process} (hfds : ∀ p, (f p).fds = p.fds)
    (hfiles : ∀ p, (f p).files = p.files) : (s.withFiles (s.files.upd pid f)).Tables := by
  unfold Files.upd
  split
  · next p hp =>
    refine h.update pid (x := .pcb (f p)) rfl fun q hq => ?_
    obtain rfl := Slot.pcb.inj hq
    exact (h pid p hp).congr (hfds p) (fun i => by rw [hfiles]) fun i => by rw [hfiles]
  · exact h

theorem Tables.quiet {f : Files} (h : s.Tables) (hf : s.files.Quiet f) :
    (s.withFiles f).Tables := by
  intro q r hr
  rcases hf.slot q with hslot | ⟨p, fp, hp, hslot⟩
  · exact h q r (hslot.symm.trans hr)
  · obtain rfl := Slot.pcb.inj (hslot.symm.trans hr)
    exact (h q p hp).congr rfl (fun _ => rfl) fun _ => rfl

theorem Answers.tables (ha : Answers s pid t) (h : s.Tables) : t.Tables := by
  obtain ⟨f, n, words, hf, rfl⟩ := ha
  exact (h.quiet hf).congr (by rw [replied_files]; rfl)

theorem OpenDone.tables {a mode : Nat} {status : Int} (ho : OpenDone s pid a mode status t)
    (h : s.Tables) : t.Tables := by
  cases ho with
  | gone | failed => exact h.congr (by simp [withFiles])
  | full => exact h.congr (by simp [withFiles, Files.setVnode])
  | @done p v fd i hp _ _ hfree =>
    refine h.update pid (x := .pcb _) (by rw [replied_files]; rfl) fun q hq => ?_
    obtain rfl := Slot.pcb.inj hq
    exact (h pid p hp).install hfree rfl rfl

/-- What `vfs_close` does to the tables. -/
theorem Closed.sosProcs {u : Vfs} (hc : Closed s pid fd u) (ho : s.OpenFd pid fd p i) :
    u.files.sosProcs = Function.update s.files.sosProcs pid (.pcb (p.forget fd i)) := by
  have hsame : ∀ {q : Process} {j : Fin 16}, s.OpenFd pid fd q j → q = p ∧ j = i := by
    intro q j hq
    obtain rfl := Slot.pcb.inj (hq.1.symm.trans ho.1)
    exact ⟨rfl, Option.some.inj (hq.2.symm.trans ho.2)⟩
  cases hc with
  | notOpen hn => exact absurd hn ho.not_notOpen
  | kept hq _ hf _ =>
    obtain ⟨rfl, rfl⟩ := hsame hq
    rw [replied_files, hf]
    exact s.files.unname_sosProcs ..
  | last hq _ hf _ _ _ =>
    obtain ⟨rfl, rfl⟩ := hsame hq
    rw [replied_files, hf]
    exact (Files.drop_sosProcs _ _).trans (s.files.unname_sosProcs ..)
  | console hq _ hf _ _ =>
    obtain ⟨rfl, rfl⟩ := hsame hq
    rw [replied_files, hf]
    exact s.files.unname_sosProcs ..

theorem Closed.tables (hc : Closed s pid fd t) (h : s.Tables) : t.Tables := by
  by_cases hn : s.NotOpen pid fd
  · cases hc with
    | notOpen => exact h
    | kept ho | last ho | console ho => exact absurd hn ho.not_notOpen
  · obtain ⟨p, i, ho⟩ := exists_openFd hn
    refine h.update pid (hc.sosProcs ho) fun q hq => ?_
    obtain rfl := Slot.pcb.inj hq
    exact (h pid p ho.1).forget ho.2

/-- What `vfs_dup` does to the tables, unless it copies a descriptor onto itself: it fails and
leaves them, or closes the target if need be and lets it name the file. -/
theorem Dupped.sosProcs {forig fdup : Int} (hd : Dupped s pid forig fdup t) (h : s.Tables)
    (hself : forig = fdup → s.NotOpen pid forig) :
    (t.files.sosProcs = s.files.sosProcs ∧ (s.NotOpen pid forig ∨ ¬ (0 ≤ fdup ∧ fdup < 19))) ∨
    ∃ (p q : Process) (i : Fin 16) (g : Fin 19), s.OpenFd pid forig p i ∧ (0 ≤ fdup → fdup = g) ∧
      q.Tabled ∧ q.vfile? forig = some i ∧ (q.files i).vnode = (p.files i).vnode ∧
      q.vfile? g = none ∧
      t.files.sosProcs = Function.update s.files.sosProcs pid (.pcb (q.aliased forig g i)) := by
  cases hd with
  | refused _ hwhy => exact .inl ⟨by rw [replied_files], hwhy⟩
  | @copied p i g ho hg hfdup =>
    refine .inr ⟨p, p, i, g, ho, ?_, h pid p ho.1, ho.2, rfl, hg, ?_⟩
    · rintro hnonneg
      rcases hfdup with hfdup | ⟨rfl, -⟩
      · exact hfdup
      · exact absurd hnonneg (by decide)
    · rw [replied_files]
      exact Files.dupTo_sosProcs ho.1 forig g i
  | @replaced p i j u g hfdup ho hoj hu =>
    have hne : forig ≠ g := fun hfg => ho.not_notOpen (hself (hfg.trans hfdup.symm))
    -- The process with the replies off, and after the close with the replies on again.
    obtain ⟨p₁, hp₁⟩ : ∃ p₁ : Process, p₁ = { p with ipcAccept := .none } := ⟨_, rfl⟩
    obtain ⟨q, hq⟩ : ∃ q : Process, q = { p₁.forget g j with ipcAccept := p.ipcAccept } := ⟨_, rfl⟩
    have htab : p.Tabled := h pid p ho.1
    have htab₁ : p₁.Tabled := by rw [hp₁]; exact htab.congr rfl (fun _ => rfl) fun _ => rfl
    have hforig₁ : p₁.vfile? forig = some i := by rw [hp₁]; exact ho.2
    have hg₁ : p₁.vfile? g = some j := by rw [hp₁]; exact hoj.2
    have ho₁ :
        (s.withFiles (s.files.upd pid ({ · with ipcAccept := .none }))).OpenFd pid g p₁ j := by
      refine ⟨?_, hg₁⟩
      rw [Files.upd_pcb ho.1, hp₁]
      exact Function.update_self ..
    have hsame : (s.withFiles (s.files.upd pid ({ · with ipcAccept := .none }))).files.sosProcs =
        Function.update s.files.sosProcs pid (.pcb p₁) := by
      rw [Files.upd_pcb ho.1, hp₁]
      rfl
    have hclosed := hu.sosProcs ho₁
    rw [hsame, Function.update_idem] at hclosed
    obtain ⟨hforig₂, hvnode⟩ := htab₁.vfile?_forget hforig₁ hg₁ hne
    have hup : u.files.sosProcs pid = .pcb (p₁.forget g j) := by rw [hclosed, Function.update_self]
    have hset : (u.files.upd pid ({ · with ipcAccept := p.ipcAccept })).sosProcs =
        Function.update s.files.sosProcs pid (.pcb q) := by
      rw [Files.upd_pcb hup, hq]
      change Function.update u.files.sosProcs pid _ = _
      rw [hclosed, Function.update_idem]
    have hqp : (u.files.upd pid ({ · with ipcAccept := p.ipcAccept })).sosProcs pid = .pcb q := by
      rw [hset, Function.update_self]
    refine .inr ⟨p, q, i, g, ho, fun _ => hfdup, ?_, ?_, ?_, ?_, ?_⟩
    · rw [hq]
      exact (htab₁.forget hg₁).congr rfl (fun _ => rfl) fun _ => rfl
    · rw [hq]
      exact hforig₂
    · rw [hq]
      refine hvnode.trans ?_
      rw [hp₁]
    · rw [hq]
      exact Process.vfile?_forget_self ..
    · rw [replied_files]
      refine (Files.dupTo_sosProcs hqp forig g i).trans ?_
      rw [hset, Function.update_idem]

/-- `dup2(f, f)` on an open `f`. -/
def SelfDup (s : Vfs) : Event → Prop
  | .dup pid f g | .psDup pid f g => f = g ∧ ¬ s.NotOpen pid f
  | _ => False

instance (s : Vfs) (e : Event) : Decidable (SelfDup s e) := by
  unfold SelfDup
  rcases e <;> infer_instance

theorem Dupped.tables {forig fdup : Int} (hd : Dupped s pid forig fdup t) (h : s.Tables)
    (hself : forig = fdup → s.NotOpen pid forig) : t.Tables := by
  rcases hd.sosProcs h hself with ⟨ht, -⟩ | ⟨p, q, i, g, -, -, hq, hforig, -, hg, ht⟩
  · exact h.congr ht
  · refine h.update pid ht fun r hr => ?_
    obtain rfl := Slot.pcb.inj hr
    exact hq.aliased hforig hg

theorem tables_of_started (h : Started s) : s.Tables := by
  obtain ⟨sosProcs, incs, a, rfl, hinit⟩ := h
  exact fun pid p hp => Process.tabled_of_vfilesInit (hinit pid p hp).1

theorem Step.tables (h : s.Tables) (hself : ¬ SelfDup s e) (hst : Step s e t) : t.Tables := by
  cases hst.handled with
  | opened own pid path mode readers writers block _ ho =>
    cases ho with
    | null => exact h
    | refused => exact h.congr (by rw [replied_files]; rfl)
    | shared _ _ _ _ hd => exact hd.tables h
    | made _ _ _ _ hf | lockedOut _ _ _ _ hf =>
      refine h.congr ?_
      rw [hf]
      exact Files.addVnode_sosProcs ..
  | closed own pid fd _ hc => exact hc.tables h
  | dupped own pid forig fdup he hd =>
    refine hd.tables h fun hfg => ?_
    have hdup : SelfDup s e = (forig = fdup ∧ ¬ s.NotOpen pid forig) := by
      rw [he]
      cases own <;> rfl
    rw [hdup] at hself
    exact not_not.mp fun hn => hself ⟨hfg, hn⟩
  | called own pid _ _ hc =>
    cases hc with
    | silent => exact h
    | answered ha => exact ha.tables h
    | requested => exact h
    | reader => exact h
  | completed i rpc ans _ _ hc =>
    cases hc with
    | unknown => exact h
    | @lookedUp _ _ _ u _ _ _ _ ho =>
      have hu : u.Tables := ho.tables h
      exact hu
    | missing => exact h
    | @failed _ _ _ u _ _ _ ho =>
      have hu : u.Tables := ho.tables h
      exact hu
    | @answered _ u _ _ ha =>
      have hu : u.Tables := ha.tables h
      exact hu
    | more => exact h
  | typed newline _ ht =>
    cases ht with
    | idle => exact h
    | kept => exact h
    | @line r u _ ha =>
      have hu : u.Tables := ha.tables h
      exact hu
  | reserved pid => exact h.update pid rfl nofun
  | spawned pid p =>
    refine h.update pid (x := .pcb _) rfl fun q hq => ?_
    obtain rfl := Slot.pcb.inj hq
    exact Process.tabled_of_vfilesInit ⟨fun _ => rfl, fun _ => rfl⟩
  | turned pid state => exact h.upd (fun _ => rfl) fun _ => rfl
  | retired pid p => exact h.update pid rfl nofun

theorem Reachable.tables (h : Reachable (fun s e => ¬ SelfDup s e) s) : s.Tables :=
  h.invariant (fun _ => tables_of_started) fun _ _ _ hs => Step.tables hs

/-- **Descriptor counts are exact.** In every run without a `dup2(f, f)` on an open `f`: every
descriptor in use names an occupied entry of `files`, every occupied entry counts the descriptors
that name it, and after a `dup2(f, g)` on an open `f` both descriptors name the file that `f` named
before. -/
theorem descriptor_counts_exact {s : Vfs} (h : Reachable (fun s e => ¬ SelfDup s e) s) :
    (∀ pid p, s.process? pid = some p →
      (∀ g, p.fds g ≠ vfsNilFile → ∃ i : Fin 16, p.fds g = i ∧ (p.files i).vnode.isSome) ∧
      ∀ i, (p.files i).vnode.isSome → (p.files i).ref = p.names i) ∧
    ∀ (e : Event) (pid : Pid) (f : Int) (g : Fin 19) (p : Process) (i : Fin 16) (t : Vfs),
      e = .dup pid f g ∨ e = .psDup pid f g → ¬ SelfDup s e → s.OpenFd pid f p i → Step s e t →
      ∃ q, t.process? pid = some q ∧ q.fdFile? f = some (i : Int) ∧ q.fds g = i ∧
        (q.files i).vnode = (p.files i).vnode := by
  have htables := h.tables
  constructor
  · intro pid p hp
    have hslot : s.files.sosProcs pid = .pcb p := slot_of_process? hp
    refine ⟨fun g hg => ?_, (htables pid p hslot).ref⟩
    exact ((htables pid p hslot).entry g).resolve_left hg
  · intro e pid f g p i t he hself ho hst
    obtain ⟨own, hd⟩ : ∃ own, Dupped (s.called pid own) pid f g t := by
      rcases he with rfl | rfl
      · exact ⟨true, (wp_serve.mpr (vfsDup_spec pid f g)).ok hst.2⟩
      · exact ⟨false, (wp_serve.mpr (vfsDup_spec pid f g)).ok hst.2⟩
    have hne : f = g → s.NotOpen pid f := fun hfg => by
      by_contra hn
      rcases he with rfl | rfl <;> exact hself ⟨hfg, hn⟩
    rcases hd.sosProcs htables hne with ⟨-, hn | hrange⟩ | ⟨p', q, i', g', ho', hg, -, hq,
      hv, -, ht⟩
    · exact absurd hn ho.not_notOpen
    · exact absurd ⟨by omega, by omega⟩ hrange
    · obtain rfl := Slot.pcb.inj (ho.1.symm.trans ho'.1)
      obtain rfl := Option.some.inj (ho.2.symm.trans ho'.2)
      obtain rfl : g = g' := by
        have := hg (by omega)
        omega
      refine ⟨q.aliased f g i, ?_, Process.aliased_fdFile? hq g, ?_, ?_⟩
      · unfold process?
        rw [ht, Function.update_self]
        rfl
      · rw [Process.aliased_fds hq, Function.update_self]
      · simpa [Process.aliased, Process.setFile] using hv

/-- A process opens a file and duplicates the descriptor onto another one. -/
def dupRun : List Event :=
  [.open 1 [70] 4 fmUnlimitedRw fmUnlimitedRw 200, .rpcReply 0 {}, .dup 1 0 5]

theorem descriptor_counts_exact_dupRun :
    ∃ s p, Reachable (fun s e => ¬ SelfDup s e) s ∧ s.process? 1 = some p ∧
      (p.files 0).ref = 2 ∧ p.names 0 = 2 := by
  obtain ⟨s, hr, p, hp, hocc, href⟩ := reachable_of_run (fun s e => ¬ SelfDup s e) 1 dupRun
    (fun s => ∃ p ∈ s.process? 1, (p.files 0).vnode.isSome ∧ (p.files 0).ref = 2)
    (by decide +kernel)
  have hcount := ((descriptor_counts_exact hr).1 1 p hp).2 0 hocc
  refine ⟨s, p, hr, hp, href, ?_⟩
  rw [href] at hcount
  exact_mod_cast hcount.symm

/-- The file that descriptor 0 names is closed by `dup2(0, 0)`, although the call replies 0. -/
theorem selfDup_closes :
    ∃ s t, Reachable (fun _ _ => True) s ∧ Step s (.dup 1 0 0) t ∧
      (∃ p ∈ s.process? 1, p.fds 0 = 0 ∧ (p.files 0).vnode = some 200) ∧
      (∃ r, t.replies = s.replies ++ [r] ∧ r.pid = 1 ∧ r.words = [0]) ∧
      ∃ q ∈ t.process? 1, q.fds 0 = vfsNilFile ∧ (q.files 0).vnode = none := by
  obtain ⟨s, t, hr, hst, hp, hreply, hq⟩ := step_of_run (fun _ _ => True) 1
    [.open 1 [70] 4 fmUnlimitedRw fmUnlimitedRw 200, .rpcReply 0 {}] (.dup 1 0 0)
    (fun s t => (∃ p ∈ s.process? 1, p.fds 0 = 0 ∧ (p.files 0).vnode = some 200) ∧
      (∃ r ∈ t.replies.getLast?, t.replies = s.replies ++ [r] ∧ r.pid = 1 ∧ r.words = [0]) ∧
      ∃ q ∈ t.process? 1, q.fds 0 = vfsNilFile ∧ (q.files 0).vnode = none) (by decide +kernel)
  obtain ⟨r, -, hr'⟩ := hreply
  exact ⟨s, t, hr, hst, hp, ⟨r, hr'⟩, hq⟩

end Vfs

end Sos
