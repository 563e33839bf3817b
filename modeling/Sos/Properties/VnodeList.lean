import Sos.Vfs.Listing
import Sos.Vfs.Run

/-!
# The global list of vnodes

`Used f l r` describes how the list is used after `console_init`: `add_vnode` is called on vnodes
that are not listed and `remove_vnode` on vnodes that are, and in between everything but the links
of these vnodes may change. `l` are the vnodes added and not removed, the newest first, and `r` the
ones removed and still there.

The list in memory is then `l` in both directions, and `find_vnode` searches it from the newest on.
-/

namespace Sos.Files

open Dll

/-- `GlobalVNodes = console_init(GlobalVNodes)`, with the vnode in the block `a`. -/
def consoleInit (s : Files) (a : Nat) : Files :=
  let s := s.setVnode a Vfs.consoleVnode
  let s := (s.setNext a none).setPrevious a none
  let s := match s.globalVNodes with
    | none => s
    | some b => (s.setNext a (some b)).setPrevious b (some a)
  { s with
    globalVNodes := some a
    allocated := Function.update s.allocated a true
    mallocs := s.mallocs + 1 }

/-- The two links of a vnode. -/
def links (f : Files) (a : Nat) : Option Nat × Option Nat :=
  ((f.vnodes a).next, (f.vnodes a).previous)

/-- The ways the list is used. -/
inductive Used : Files → List Nat → List Nat → Prop
  | init (f : Files) (a : Nat) : f.globalVNodes = none → Used (f.consoleInit a) [a] []
  | write {f g : Files} {l r r' : List Nat} : Used f l r → r' ⊆ r →
      g.globalVNodes = f.globalVNodes → (∀ a ∈ l ++ r', g.links a = f.links a) → Used g l r'
  | add {f : Files} {l r : List Nat} {a : Nat} : Used f l r → a ∉ l →
      Used (f.addVnode a) (a :: l) (r.filter (· ≠ a))
  | remove {f : Files} {l r : List Nat} {a : Nat} : Used f l r → a ∈ l →
      Used (f.removeVnode a) (l.erase a) (a :: r)

variable {f : Files} {l r : List Nat} {a : Nat}

/-! ## One call -/

theorem linked_consoleInit (h : f.globalVNodes = none) (a : Nat) :
    (f.consoleInit a).Linked [a] := by
  refine ⟨IsList.singleton ?_ ?_, List.nodup_singleton a⟩ <;>
    simp [consoleInit, setNext, setPrevious, setVnode, h]

theorem Linked.erase (h : f.Linked l) (ha : a ∈ l) : (f.removeVnode a).Linked (l.erase a) := by
  obtain ⟨l₁, l₂, hnot, rfl, he⟩ := List.exists_erase_eq ha
  rw [he]
  exact h.removeVnode

/-- `remove_vnode` clears the links. -/
theorem links_removeVnode (f : Files) (a : Nat) : (f.removeVnode a).links a = (none, none) := by
  simp [links, removeVnode, setPrevious_next, setPrevious_previous, setNext_next]

theorem links_addVnode_of_ne {b : Nat} (hb : b ≠ a) (hhead : f.globalVNodes ≠ some b) :
    (f.addVnode a).links b = f.links b := by
  unfold addVnode links
  cases hg : f.globalVNodes with
  | none => simp [hg, hb, setNext_next, setNext_previous, setPrevious_next, setPrevious_previous]
  | some c =>
    have hc : b ≠ c := fun hbc => hhead (by rw [hg, hbc])
    simp [hg, hb, hc, setNext_next, setNext_previous, setPrevious_next, setPrevious_previous]

/-- A vnode outside the list is not written when another one is taken out. -/
theorem Linked.links_removeVnode_of_notMem {b : Nat} (h : f.Linked l) (ha : a ∈ l) (hb : b ∉ l) :
    (f.removeVnode a).links b = f.links b := by
  obtain ⟨l₁, l₂, rfl⟩ := List.append_of_mem ha
  have hba : b ≠ a := fun hba => hb (hba ▸ ha)
  obtain ⟨hnext, hprev⟩ := h.isList.links l₁ a l₂ rfl
  have hl₁ : l₁.getLast? ≠ some b := fun hl => hb (by simp [List.mem_of_getLast? hl])
  have hl₂ : l₂.head? ≠ some b := fun hl => hb (by simp [List.mem_of_head? hl])
  obtain ⟨hn, hp⟩ := f.removeVnode_links a hba
  rw [hprev, if_neg hl₁] at hn
  rw [hnext, if_neg hl₂] at hp
  exact Prod.ext hn hp

/-! ## Whole runs -/

theorem Used.linked (h : Used f l r) :
    f.Linked l ∧ ∀ a ∈ r, a ∉ l ∧ f.links a = (none, none) := by
  induction h with
  | init f a hf => exact ⟨linked_consoleInit hf a, by simp⟩
  | write _ hsub hhead hlinks ih =>
    obtain ⟨hl, hr⟩ := ih
    refine ⟨hl.congr hhead (fun a ha => ?_) fun a ha => ?_, fun a ha => ?_⟩
    · exact congrArg Prod.fst (hlinks a (List.mem_append_left _ ha))
    · exact congrArg Prod.snd (hlinks a (List.mem_append_left _ ha))
    · rw [hlinks a (List.mem_append_right _ ha)]
      exact hr a (hsub ha)
  | @add f l r a _ ha ih =>
    obtain ⟨hl, hr⟩ := ih
    refine ⟨hl.addVnode ha, fun b hb => ?_⟩
    obtain ⟨hbr, hba⟩ : b ∈ r ∧ b ≠ a := by simpa using hb
    obtain ⟨hbl, hlinks⟩ := hr b hbr
    refine ⟨by simp [hba, hbl], ?_⟩
    rw [links_addVnode_of_ne hba fun hhead => ?_, hlinks]
    rw [hl.isList.head_eq] at hhead
    exact hbl (List.mem_of_head? hhead)
  | @remove f l r a _ ha ih =>
    obtain ⟨hl, hr⟩ := ih
    refine ⟨hl.erase ha, fun b hb => ?_⟩
    rcases List.mem_cons.mp hb with rfl | hb
    · exact ⟨hl.nodup.not_mem_erase, links_removeVnode f b⟩
    · obtain ⟨hbl, hlinks⟩ := hr b hb
      refine ⟨fun hmem => hbl (List.mem_of_mem_erase hmem), ?_⟩
      rw [hl.links_removeVnode_of_notMem ha hbl, hlinks]

/-- **The vnodes are in a doubly linked list.** However the list is used, the links to the next
vnode lead from `GlobalVNodes` through the vnodes added and not removed, each once and the newest
first, and then to NULL. The links to the previous vnode lead back the same way. A vnode that has
been removed has no links, and `find_vnode` ends with the newest vnode of the path, or with NULL. -/
theorem vnodes_doubly_linked (h : Used f l r) :
    l.Nodup ∧
      (∀ n, l.length ≤ n →
        follow (fun a => (f.vnodes a).next) n f.globalVNodes = l ∧
        follow (fun a => (f.vnodes a).previous) n l.getLast? = l.reverse) ∧
      (∀ a ∈ r, (f.vnodes a).next = none ∧ (f.vnodes a).previous = none) ∧
      ∀ path n, l.length ≤ n →
        f.findVnodeFrom path n f.globalVNodes =
          some (l.find? fun a => (f.vnodes a).path = path) := by
  obtain ⟨hl, hr⟩ := h.linked
  refine ⟨hl.nodup, fun n hn => ⟨hl.isList.follow_next hn, hl.isList.follow_prev hn⟩,
    fun a ha => ?_, fun path n hn => ?_⟩
  · exact Prod.mk.inj (hr a ha).2
  · rw [hl.isList.head_eq]
    exact hl.findVnodeFrom_eq [] hn

/-- Two vnodes are added behind the console's, and the first of them is removed again. -/
theorem vnodes_doubly_linked_afterThreeCalls :
    ∃ f, Used f [9, 100] [7] ∧ follow (fun a => (f.vnodes a).next) 2 f.globalVNodes = [9, 100] := by
  let f : Files := ⟨fun _ => .null, fun _ => {}, fun _ => false, none, 0, [], fun _ => 0⟩
  have hinit : Used (f.consoleInit 100) [100] [] := .init f 100 rfl
  have hadd : Used _ [9, 7, 100] [] := (hinit.add (a := 7) (by decide)).add (a := 9) (by decide)
  have hused : Used _ [9, 100] [7] := hadd.remove (a := 7) (by decide)
  exact ⟨_, hused, ((vnodes_doubly_linked hused).2.1 2 le_rfl).1⟩

end Sos.Files
