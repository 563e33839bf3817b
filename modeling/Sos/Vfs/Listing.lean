import Sos.Lib.Dll
import Sos.Vfs.Outcomes

/-!
# The list of open vnodes

`GlobalVNodes` is a doubly linked list through the vnodes. `Linked f l` says that it consists of the
vnodes of `l`; `add_vnode` puts a vnode in front and `remove_vnode` takes one out.
-/

namespace Sos.Files

open Dll

variable {f g : Files} {a b : Nat} {l l₁ l₂ : List Nat}

/-- The list of open vnodes. -/
structure Linked (f : Files) (l : List Nat) : Prop where
  isList : IsList (fun a => (f.vnodes a).next) (fun a => (f.vnodes a).previous) f.globalVNodes l
  nodup : l.Nodup

/-- Only the links and the head count. -/
theorem Linked.congr (h : f.Linked l) (hhead : g.globalVNodes = f.globalVNodes)
    (hnext : ∀ a ∈ l, (g.vnodes a).next = (f.vnodes a).next)
    (hprev : ∀ a ∈ l, (g.vnodes a).previous = (f.vnodes a).previous) : g.Linked l :=
  ⟨hhead ▸ h.isList.congr hnext hprev, h.nodup⟩

section Writes

theorem setNext_next (f : Files) (a b : Nat) (x : Option Nat) :
    ((f.setNext a x).vnodes b).next = if b = a then x else (f.vnodes b).next := by
  unfold setNext
  by_cases hb : b = a
  · subst hb; simp
  · rw [setVnode_vnodes_of_ne _ _ hb, if_neg hb]

theorem setNext_previous (f : Files) (a b : Nat) (x : Option Nat) :
    ((f.setNext a x).vnodes b).previous = (f.vnodes b).previous := by
  unfold setNext
  by_cases hb : b = a
  · subst hb; simp
  · rw [setVnode_vnodes_of_ne _ _ hb]

theorem setPrevious_previous (f : Files) (a b : Nat) (x : Option Nat) :
    ((f.setPrevious a x).vnodes b).previous = if b = a then x else (f.vnodes b).previous := by
  unfold setPrevious
  by_cases hb : b = a
  · subst hb; simp
  · rw [setVnode_vnodes_of_ne _ _ hb, if_neg hb]

theorem setPrevious_next (f : Files) (a b : Nat) (x : Option Nat) :
    ((f.setPrevious a x).vnodes b).next = (f.vnodes b).next := by
  unfold setPrevious
  by_cases hb : b = a
  · subst hb; simp
  · rw [setVnode_vnodes_of_ne _ _ hb]

@[simp] theorem setNext_globalVNodes (f : Files) (a : Nat) (x : Option Nat) :
    (f.setNext a x).globalVNodes = f.globalVNodes := rfl

@[simp] theorem setPrevious_globalVNodes (f : Files) (a : Nat) (x : Option Nat) :
    (f.setPrevious a x).globalVNodes = f.globalVNodes := rfl

end Writes

attribute [local simp] setNext_next setNext_previous setPrevious_previous setPrevious_next

theorem Linked.addVnode (h : f.Linked l) (ha : a ∉ l) : (f.addVnode a).Linked (a :: l) := by
  have hhead := h.isList.head_eq
  have hne : ∀ b ∈ l, b ≠ a := fun b hb hba => ha (hba ▸ hb)
  refine ⟨?_, List.nodup_cons.mpr ⟨ha, h.nodup⟩⟩
  cases hg : f.globalVNodes with
  | none =>
    obtain rfl : l = [] := by
      rw [hg] at hhead
      exact List.head?_eq_none_iff.mp hhead.symm
    refine IsList.singleton ?_ ?_
    · simp [Files.addVnode, hg]
    · simp [Files.addVnode, hg]
  | some b =>
    have hb : b ∈ l := by
      rw [hg] at hhead
      exact List.mem_of_head? hhead.symm
    refine h.isList.push h.nodup ?_ ?_ (fun c hc => ?_) (fun c hc => ?_)
    · simp [Files.addVnode, hg]
    · simp [Files.addVnode, hg, (hne b hb).symm]
    · simp [Files.addVnode, hg, hne c hc]
    · by_cases hcb : c = b
      · subst hcb
        simp [Files.addVnode, hg]
      · simp [Files.addVnode, hg, hcb, hne c hc, Ne.symm hcb]

/-- `remove_vnode`, before the links of the vnode itself are cleared. -/
theorem removeVnode_links (f : Files) (a : Nat) (ha : b ≠ a) :
    ((f.removeVnode a).vnodes b).next =
      (if (f.vnodes a).previous = some b then (f.vnodes a).next else (f.vnodes b).next) ∧
    ((f.removeVnode a).vnodes b).previous =
      (if (f.vnodes a).next = some b then (f.vnodes a).previous else (f.vnodes b).previous) := by
  unfold Files.removeVnode
  cases hp : (f.vnodes a).previous <;> cases hn : (f.vnodes a).next <;>
    simp [ha, eq_comm]

theorem removeVnode_globalVNodes (f : Files) (a : Nat) :
    (f.removeVnode a).globalVNodes =
      if (f.vnodes a).previous = none then (f.vnodes a).next else f.globalVNodes := by
  unfold Files.removeVnode
  cases hp : (f.vnodes a).previous <;> cases hn : (f.vnodes a).next <;> simp

theorem Linked.removeVnode (h : f.Linked (l₁ ++ a :: l₂)) :
    (f.removeVnode a).Linked (l₁ ++ l₂) := by
  obtain ⟨hnext, hprev⟩ := h.isList.links l₁ a l₂ rfl
  have hsub : (l₁ ++ l₂).Nodup := h.nodup.sublist (by simp)
  have hne : ∀ b ∈ l₁ ++ l₂, b ≠ a := by
    rintro b hb rfl
    have := List.nodup_middle.mp h.nodup
    exact (List.nodup_cons.mp this).1 hb
  refine ⟨?_, hsub⟩
  have hhead : (f.removeVnode a).globalVNodes = (l₁ ++ l₂).head? := by
    rw [removeVnode_globalVNodes, hprev, hnext, h.isList.head_eq]
    cases l₁ <;> simp
  rw [hhead]
  refine h.isList.remove h.nodup (fun b hb => ?_) (fun b hb => ?_)
  · rw [(f.removeVnode_links a (hne b hb)).1, hprev, hnext]
  · rw [(f.removeVnode_links a (hne b hb)).2, hprev, hnext]

/-! ## Listed vnodes -/

/-- The list holds the vnodes that are allocated, and a walk through it ends. -/
def Listed (f : Files) : Prop :=
  ∃ l, f.Linked l ∧ (∀ a, a ∈ l ↔ f.allocated a = true) ∧ l.length ≤ f.mallocs

/-- `find_vnode` finds the first vnode with the path. -/
theorem Linked.findVnodeFrom_eq {path : Path} {n : Nat} (l₁ : List Nat)
    (h : f.Linked (l₁ ++ l₂)) (hn : l₂.length ≤ n) :
    f.findVnodeFrom path n l₂.head? = some (l₂.find? fun a => (f.vnodes a).path = path) := by
  induction n generalizing l₁ l₂ with
  | zero =>
    obtain rfl : l₂ = [] := List.length_eq_zero_iff.mp (by omega)
    rfl
  | succ n ih =>
    cases l₂ with
    | nil => rfl
    | cons b l₂ =>
      rw [List.head?_cons, findVnodeFrom, (h.isList.links l₁ b l₂ rfl).1, List.find?_cons]
      by_cases hb : (f.vnodes b).path = path
      · simp [hb]
      · simpa [hb] using ih (l₁ ++ [b]) (by simpa using h) (by simpa using hn)

theorem Listed.findVnode_eq (h : f.Listed) (path : Path) :
    ∃ l : List Nat, (∀ a, a ∈ l ↔ f.allocated a = true) ∧
      f.findVnode path = some (l.find? fun a => (f.vnodes a).path = path) := by
  obtain ⟨l, hl, hmem, hlen⟩ := h
  refine ⟨l, hmem, ?_⟩
  unfold findVnode
  rw [hl.isList.head_eq]
  exact hl.findVnodeFrom_eq [] hlen

theorem Listed.allocated_of_find {path : Path} (h : f.Listed)
    (hf : f.findVnode path = some (some a)) : f.allocated a = true := by
  obtain ⟨l, hmem, hfind⟩ := h.findVnode_eq path
  rw [hfind] at hf
  exact (hmem a).mp (List.mem_of_find?_eq_some (Option.some.inj hf))

/-- The walk of `find_vnode` ends. -/
theorem Listed.findVnode_isSome (h : f.Listed) (path : Path) : (f.findVnode path).isSome := by
  obtain ⟨l, -, hfind⟩ := h.findVnode_eq path
  rw [hfind]
  rfl

/-- Links, head, allocation and the bound are all that counts. -/
theorem Listed.congr (h : f.Listed) (hhead : g.globalVNodes = f.globalVNodes)
    (hnext : ∀ a, (g.vnodes a).next = (f.vnodes a).next)
    (hprev : ∀ a, (g.vnodes a).previous = (f.vnodes a).previous)
    (halloc : g.allocated = f.allocated) (hm : g.mallocs = f.mallocs) : g.Listed := by
  obtain ⟨l, hl, hmem, hlen⟩ := h
  exact ⟨l, hl.congr hhead (fun a _ => hnext a) (fun a _ => hprev a), by rwa [halloc], by rwa [hm]⟩

theorem Listed.drop (h : f.Listed) (ha : f.allocated a = true) : (f.drop a).Listed := by
  obtain ⟨l, hl, hmem, hlen⟩ := h
  obtain ⟨l₁, l₂, rfl⟩ := List.append_of_mem ((hmem a).mpr ha)
  have hrel := f.relinked_removeVnode a
  have hnd : a ∉ l₁ ++ l₂ := (List.nodup_cons.mp (List.nodup_middle.mp hl.nodup)).1
  refine ⟨l₁ ++ l₂, ?_, fun b => ?_, ?_⟩
  · refine hl.removeVnode.congr rfl (fun b hb => ?_) (fun b hb => ?_) <;>
    · have hba : b ≠ a := by
        rintro rfl
        exact hnd hb
      rw [Files.drop, freed, freeNfsfile]
      exact congrArg _ (setVnode_vnodes_of_ne _ _ hba)
  · change b ∈ l₁ ++ l₂ ↔ Function.update (f.removeVnode a).allocated a false b = true
    rw [hrel.allocated]
    by_cases hba : b = a
    · subst hba
      simpa using hnd
    · rw [Function.update_of_ne hba, ← hmem b]
      simp [hba]
  · change _ ≤ (f.removeVnode a).mallocs
    rw [hrel.rest]
    simp at hlen ⊢
    omega

/-- A new vnode is linked. -/
theorem Listed.made (h : f.Listed) (ha : f.allocated a = false) (path : Path)
    (readers writers : Nat) : ((f.made a path readers writers).addVnode a).Listed := by
  obtain ⟨l, hl, hmem, hlen⟩ := h
  have hnot : a ∉ l := fun hal => by
    rw [(hmem a).mp hal] at ha
    simp at ha
  have hrel := (f.made a path readers writers).relinked_addVnode a
  refine ⟨a :: l, ?_, fun b => ?_, ?_⟩
  · refine Linked.addVnode (hl.congr rfl (fun b hb => ?_) (fun b hb => ?_)) hnot <;>
    · rw [f.made_vnodes_of_ne path readers writers]
      rintro rfl
      exact hnot hb
  · rw [hrel.allocated]
    change b ∈ a :: l ↔ Function.update f.allocated a true b = true
    by_cases hba : b = a
    · subst hba
      simp
    · rw [Function.update_of_ne hba, ← hmem b]
      simp [hba]
  · rw [hrel.rest]
    change _ ≤ f.mallocs + 1
    simpa using hlen

end Sos.Files
