import Sos.Lists
import Sos.Pagetable

/-!
# `list.c` is a sequence

A list in memory stands for the sequence of its contents (`Represents`): its chain of nodes has no
node twice and ends in NULL, `last` is the final node, and `head` and `last` are NULL together.
Every function does on the nodes what it says on the sequence (`Refines`), the functions passed in
being called on the same items in the same order.
-/

namespace Sos.Lists

open Hoare Sll

variable {ε α σ τ β ρ : Type} {h h' : Heap α σ} {xs : List α} {l : List (Nat × α)} {a : Nat} {x : α}
  {node : Node Nat α} {E : ListFault ε → Heap α σ → Prop}

/-! ## Memory -/

theorem deref_returns (ha : h.nodes a = some node) :
    Returns (deref (some a) : ListM ε α σ _) h node h := by
  unfold deref
  rw [Returns, wp_bind, wp_get]
  simp only [ha]
  exact wp_pure.mpr ⟨rfl, rfl⟩

theorem setNext_returns (ha : h.nodes a = some node) (next : Option Nat) :
    Returns (setNext (some a) next : ListM ε α σ _) h ()
      { h with nodes := Function.update h.nodes a (some { node with next := next }) } := by
  unfold setNext
  rw [Returns, (deref_returns ha).bind_iff, wp_modify]
  exact ⟨rfl, rfl⟩

theorem free_returns (ha : h.nodes a = some node) :
    Returns (free (some a) : ListM ε α σ _) h ()
      { h with nodes := Function.update h.nodes a none } := by
  unfold free
  rw [Returns, wp_bind, wp_discard, (deref_returns ha).wp_iff, wp_modify]
  exact ⟨rfl, rfl⟩

theorem wp_listAssert {c : Bool} {Q : Unit → Heap α σ → Prop} (hc : c = true) (hQ : Q () h) :
    Wp (listAssert c) h Q E := by
  unfold listAssert
  rw [if_pos hc]
  exact wp_pure.mpr hQ

/-- A function passed in sees the data only. -/
theorem wp_call {m : EStateM ε σ β} {Q : β → Heap α σ → Prop} :
    Wp (call m) h Q E ↔ Wp m h.data (fun b d => Q b { h with data := d })
      (fun e d => E (.callback e) { h with data := d }) := by
  unfold Wp call
  cases m h.data <;> rfl

theorem wp_withData {d : τ} {m : ListM ε α τ β} {Q : β × τ → Heap α σ → Prop} :
    Wp (withData d m) h Q E ↔ Wp m { h with data := d }
      (fun b h' => Q (b, h'.data) { h' with data := h.data })
      (fun e h' => E e { h' with data := h.data }) := by
  unfold Wp withData
  dsimp only
  generalize m { h with data := d } = r
  cases r <;> rfl

/-! ## What a list stands for -/

/-- The list in memory holds the items of `xs`. -/
def Represents (h : Heap α σ) (xs : List α) : Prop :=
  ∃ l, IsList h.nodes h.head h.last l ∧ l.map Prod.snd = xs

/-- Whatever the program on the sequence does, `m` does on the list. -/
def Refines (m : ListM ε α σ ρ) (h : Heap α σ) (spec : EStateM ε σ (ρ × List α)) : Prop :=
  ∀ (Q : ρ → Heap α σ → Prop) (E : ListFault ε → Heap α σ → Prop),
    Wp spec h.data (fun r d => ∀ h', Represents h' r.2 → h'.data = d → Q r.1 h')
      (fun e d => ∀ h', h'.data = d → E (.callback e) h') →
    Wp m h Q E

/-- A program without effects on the data. -/
theorem Refines.of_returns {m : ListM ε α σ ρ} {r : ρ} (h' : Heap α σ) (hm : Returns m h r h')
    (hr : Represents h' xs) (hd : h'.data = h.data) : Refines m h (pure (r, xs)) := by
  intro Q E hspec
  exact hm.wp_iff.mpr (wp_pure.mp hspec h' hr hd)

/-- What is done with the result makes no difference. -/
theorem Refines.map {ρ' : Type} {m : ListM ε α σ ρ} {spec : EStateM ε σ (ρ × List α)}
    (hm : Refines m h spec) (g : ρ → ρ') :
    Refines (do return g (← m)) h (do let r ← spec; return (g r.1, r.2)) := by
  intro Q E hspec
  rw [wp_bind] at hspec ⊢
  refine hm (fun r h' => Wp (pure (g r)) h' Q E) E (hspec.imp fun r d hr => ?_)
  exact fun h' hrep hd => wp_pure.mpr (wp_pure.mp hr h' hrep hd)

/-! ## The functions without loops -/

theorem listNull_refines (hl : IsList h.nodes h.head h.last l) :
    Refines (listNull : ListM ε α σ _) h (pure ((l.map Prod.snd).isEmpty, l.map Prod.snd)) := by
  refine .of_returns h ?_ ⟨l, hl, rfl⟩ rfl
  unfold listNull
  rw [Returns, wp_bind, wp_get, wp_ite]
  refine ⟨fun hhead => ?_, fun hhead => wp_pure.mpr ⟨?_, rfl⟩⟩
  · have hnil := hl.head_eq_none_iff.mp hhead
    rw [wp_bind]
    refine wp_listAssert (by simp [hl.last_eq_none_iff.mpr hnil]) (wp_pure.mpr ⟨?_, rfl⟩)
    rw [hnil]
    rfl
  · rw [hl.head_eq_none_iff] at hhead
    simp [hhead]

theorem listPeek_refines (hl : IsList h.nodes h.head h.last ((a, x) :: l)) :
    Refines (listPeek : ListM ε α σ _) h (pure (x, x :: l.map Prod.snd)) := by
  refine .of_returns h ?_ ⟨_, hl, rfl⟩ rfl
  obtain ⟨hhead, n, hn, -⟩ := hl.seg
  unfold listPeek
  rw [Returns, wp_bind, wp_get, hhead, (deref_returns hn).bind_iff]
  exact wp_pure.mpr ⟨rfl, rfl⟩

theorem listShift_refines (hl : IsList h.nodes h.head h.last l) (ha : h.nodes a = none) (x : α) :
    Refines (listShift a x : ListM ε α σ _) h (pure ((), x :: l.map Prod.snd)) := by
  let nodes := Function.update h.nodes a (some ⟨x, h.head⟩)
  have hlist : IsList nodes (some a) (if h.last = none then some a else h.last) ((a, x) :: l) := by
    by_cases hnil : l = []
    · have hlast := hl.last_eq_none_iff.mpr hnil
      have hhead := hl.head_eq_none_iff.mpr hnil
      subst hnil
      show IsList (Function.update h.nodes a (some ⟨x, h.head⟩)) _ _ _
      rw [if_pos hlast, hhead]
      exact .singleton h.nodes a x
    · rw [if_neg (fun hlast => hnil (hl.last_eq_none_iff.mp hlast))]
      exact hl.shift ha hnil
  refine .of_returns ⟨nodes, some a, if h.last = none then some a else h.last, h.data⟩ ?_
    ⟨_, hlist, rfl⟩ rfl
  have hnode : (Function.update h.nodes a (some ⟨x, none⟩)) a = some ⟨x, none⟩ :=
    Function.update_self ..
  unfold listShift nodeAlloc
  rw [Returns, wp_bind, wp_modify, wp_bind, wp_get, (setNext_returns hnode _).bind_iff]
  unfold setHead setLast
  rw [wp_bind, wp_modify, wp_bind, wp_get, wp_ite]
  refine ⟨fun hlast => wp_modify.mpr ⟨rfl, ?_⟩, fun hlast => wp_pure.mpr ⟨rfl, ?_⟩⟩
  · simp only [Function.update_idem, if_pos hlast, nodes]
  · simp only [Function.update_idem, if_neg hlast, nodes]

theorem listUnshift_refines (hl : IsList h.nodes h.head h.last ((a, x) :: l)) :
    Refines (listUnshift : ListM ε α σ _) h (pure (x, l.map Prod.snd)) := by
  obtain ⟨n, hn, hlist⟩ := hl.unshift
  refine .of_returns
    ⟨Function.update h.nodes a none, n, if n = none then none else h.last, h.data⟩ ?_
    ⟨_, hlist, rfl⟩ rfl
  have hhead := hl.seg.1
  unfold listUnshift setHead setLast
  rw [Returns, wp_bind, wp_get, wp_bind]
  refine wp_listAssert (by simp [hhead]) ?_
  rw [hhead, (deref_returns hn).bind_iff, wp_bind, wp_modify]
  dsimp only
  rw [wp_ite]
  refine ⟨fun hnone => ?_, fun hsome => ?_⟩
  · rw [wp_bind, wp_modify,
      (free_returns (h := { h with head := n, last := none }) hn).bind_iff]
    exact wp_pure.mpr ⟨rfl, by rw [if_pos hnone]⟩
  · rw [(free_returns (h := { h with head := n }) hn).bind_iff]
    exact wp_pure.mpr ⟨rfl, by rw [if_neg hsome]⟩

theorem listPush_refines (hl : IsList h.nodes h.head h.last l) (ha : h.nodes a = none) (x : α) :
    Refines (listPush a x : ListM ε α σ _) h (pure ((), l.map Prod.snd ++ [x])) := by
  have hnode : (Function.update h.nodes a (some ⟨x, none⟩)) a = some ⟨x, none⟩ :=
    Function.update_self ..
  unfold listPush nodeAlloc setHead setLast
  rcases List.eq_nil_or_concat l with rfl | ⟨l, ⟨b, y⟩, rfl⟩
  · have hhead := hl.head_eq_none_iff.mpr rfl
    have hlast := hl.last_eq_none_iff.mpr rfl
    refine .of_returns ⟨_, some a, some a, h.data⟩ ?_ ⟨_, .singleton h.nodes a x, rfl⟩ rfl
    rw [Returns, wp_bind, wp_modify, wp_bind, wp_get, if_pos hhead, wp_bind]
    refine wp_listAssert (by simp [hlast]) ?_
    rw [wp_bind, wp_modify, wp_modify]
    exact ⟨rfl, rfl⟩
  · rw [List.concat_eq_append] at hl ⊢
    have hhead : h.head ≠ none := fun hn => by
      have hnil := hl.head_eq_none_iff.mp hn
      simp at hnil
    have hlast : h.last = some b := hl.last_eq.trans lastAddr_append_singleton
    have hnot := hl.seg.notMem_of_none ha
    have hab : b ≠ a := by
      rintro rfl
      exact hnot (by simp)
    obtain ⟨r, -, rfl, n, hb, hn⟩ := Seg.append_iff.mp hl.seg
    obtain rfl : n = none := hn
    have hb' : (Function.update h.nodes a (some ⟨x, none⟩)) b = some ⟨y, none⟩ := by
      rw [Function.update_of_ne hab]
      exact hb
    refine .of_returns ⟨_, h.head, some a, h.data⟩ ?_ ⟨_, hl.push (x := x) ha, by simp⟩ rfl
    rw [Returns, wp_bind, wp_modify, wp_bind, wp_get, if_neg hhead, hlast,
      (deref_returns hb').bind_iff, wp_bind]
    refine wp_listAssert (by simp) ?_
    rw [(setNext_returns hb' _).bind_iff, wp_modify]
    exact ⟨rfl, rfl⟩

/-! ## Taking the last item off -/

/-- The loop of `list_pop` runs through the nodes before the last one. -/
theorem listPopLoop_returns (hlast : h.last = some a) :
    ∀ (n : Nat) (m kept : List (Nat × α)) (tmp : Option Nat), m.length < n →
      Seg h.nodes tmp (m ++ [(a, x)]) none → a ∉ addrs m →
      Returns (listPopLoop n tmp (lastAddr kept) : ListM ε α σ _) h (lastAddr (kept ++ m)) h
  | 0, _, _, _, hn, _, _ => absurd hn (by omega)
  | n + 1, [], kept, tmp, _, hseg, _ => by
    obtain ⟨rfl, -⟩ := hseg
    unfold listPopLoop
    rw [Returns, wp_bind, wp_get, if_pos hlast.symm, List.append_nil]
    exact wp_pure.mpr ⟨rfl, rfl⟩
  | n + 1, (c, y) :: m, kept, tmp, hn, hseg, hnot => by
    obtain ⟨rfl, next, hc, hrest⟩ := hseg
    have hne : some c ≠ h.last := fun he => by
      rw [hlast] at he
      injection he with he
      exact hnot (by simp [he])
    unfold listPopLoop
    rw [Returns, wp_bind, wp_get, if_neg hne, (deref_returns hc).bind_iff]
    have ih := listPopLoop_returns hlast n m (kept ++ [(c, y)]) next
      (by simpa using hn) hrest fun hin => hnot (List.mem_cons_of_mem _ hin)
    rw [lastAddr_append_singleton, List.append_assoc] at ih
    exact ih

theorem listPop_refines (hl : IsList h.nodes h.head h.last (l ++ [(a, x)])) {n : Nat}
    (hn : l.length < n) :
    Refines (listPop n : ListM ε α σ _) h (pure (x, l.map Prod.snd)) := by
  have hlast : h.last = some a := hl.last_eq.trans lastAddr_append_singleton
  have hnot : a ∉ addrs l := fun hin => by
    have hnd := hl.nodup
    rw [addrs, List.map_append] at hnd
    exact (List.nodup_append.mp hnd).2.2 a hin a (by simp) rfl
  obtain ⟨r, hpre, rfl, next, ha, hnext⟩ := Seg.append_iff.mp hl.seg
  obtain rfl : next = none := hnext
  have hloop := listPopLoop_returns (ε := ε) hlast n l [] h.head hn hl.seg hnot
  rw [List.nil_append, lastAddr_nil] at hloop
  unfold listPop setHead setLast
  rcases List.eq_nil_or_concat l with rfl | ⟨l, ⟨b, y⟩, rfl⟩
  · have hhead : h.head = some a := hpre
    refine .of_returns ⟨Function.update h.nodes a none, none, none, h.data⟩ ?_
      ⟨[], ⟨rfl, List.nodup_nil, rfl⟩, rfl⟩ rfl
    rw [Returns, wp_bind, wp_get, wp_bind]
    refine wp_listAssert (by simp [hlast]) ?_
    rw [hlast, (deref_returns ha).bind_iff, hloop.bind_iff, lastAddr_nil, if_pos rfl, hhead]
    simp only [wp_bind]
    rw [(free_returns ha).wp_iff, wp_modify, wp_modify, wp_pure]
    exact ⟨rfl, rfl⟩
  · rw [List.concat_eq_append] at hl hloop hpre ⊢
    obtain ⟨hb, hlist⟩ := hl.pop
    have hab : a ≠ b := by
      rintro rfl
      exact hnot (by simp)
    have ha' : (Function.update h.nodes b (some ⟨y, none⟩)) a = some ⟨x, none⟩ := by
      rw [Function.update_of_ne hab]
      exact ha
    refine .of_returns ⟨_, h.head, some b, h.data⟩ ?_ ⟨_, hlist, rfl⟩ rfl
    rw [Returns, wp_bind, wp_get, wp_bind]
    refine wp_listAssert (by simp [hlast]) ?_
    rw [hlast, (deref_returns ha).bind_iff, hloop.bind_iff, lastAddr_append_singleton,
      if_neg (by simp)]
    simp only [wp_bind]
    rw [(setNext_returns hb none).wp_iff,
      (free_returns (h := { h with nodes := Function.update h.nodes b (some ⟨y, none⟩) })
        ha').wp_iff,
      wp_modify, wp_pure]
    exact ⟨rfl, rfl⟩

/-! ## Running through the list -/

theorem wp_listFindLoop {f : α → EStateM ε σ Bool} {Q : Option α → Heap α σ → Prop} :
    ∀ (n : Nat) (m : List (Nat × α)) (curr : Option Nat) (h : Heap α σ), m.length < n →
      Seg h.nodes curr m none →
      Wp ((m.map Prod.snd).findM? f) h.data (fun r d => Q r { h with data := d })
        (fun e d => E (.callback e) { h with data := d }) →
      Wp (listFindLoop f n curr) h Q E
  | 0, _, _, _, hn, _, _ => absurd hn (by omega)
  | n + 1, [], curr, h, _, hseg, hspec => by
    obtain rfl : curr = none := hseg
    simp only [List.map_nil, List.findM?, wp_pure] at hspec
    exact wp_pure.mpr hspec
  | n + 1, (c, y) :: m, curr, h, hn, hseg, hspec => by
    obtain ⟨rfl, next, hc, hrest⟩ := hseg
    unfold listFindLoop
    simp only [List.map_cons, List.findM?, wp_bind] at hspec
    rw [(deref_returns hc).bind_iff, wp_bind, wp_call]
    refine hspec.imp fun b d hb => ?_
    cases b with
    | true =>
      dsimp only at hb
      rw [wp_pure] at hb
      exact wp_pure.mpr hb
    | false => exact wp_listFindLoop n m next { h with data := d } (by simpa using hn) hrest hb

theorem listFind_refines (hl : IsList h.nodes h.head h.last l) {n : Nat} (hn : l.length < n)
    (f : α → EStateM ε σ Bool) :
    Refines (listFind n f) h
      (do return (← (l.map Prod.snd).findM? f, l.map Prod.snd)) := by
  intro Q E hspec
  unfold listFind
  rw [wp_bind] at hspec
  rw [wp_bind, wp_get]
  refine wp_listFindLoop n l h.head h hn hl.seg ?_
  exact hspec.mono (fun r d hr => wp_pure.mp hr _ ⟨l, hl, rfl⟩ rfl) fun e d he => he _ rfl

theorem wp_listReduceLoop {f : α → β → EStateM ε σ β} {Q : β → Heap α σ → Prop} :
    ∀ (n : Nat) (m : List (Nat × α)) (curr : Option Nat) (data : β) (h : Heap α σ), m.length < n →
      Seg h.nodes curr m none →
      Wp ((m.map Prod.snd).foldlM (fun d x => f x d) data) h.data
        (fun r d => Q r { h with data := d }) (fun e d => E (.callback e) { h with data := d }) →
      Wp (listReduceLoop f n curr data) h Q E
  | 0, _, _, _, _, hn, _, _ => absurd hn (by omega)
  | n + 1, [], curr, data, h, _, hseg, hspec => by
    obtain rfl : curr = none := hseg
    simp only [List.map_nil, List.foldlM_nil, wp_pure] at hspec
    exact wp_pure.mpr hspec
  | n + 1, (c, y) :: m, curr, data, h, hn, hseg, hspec => by
    obtain ⟨rfl, next, hc, hrest⟩ := hseg
    unfold listReduceLoop
    rw [List.map_cons, List.foldlM_cons, wp_bind] at hspec
    rw [(deref_returns hc).bind_iff, wp_bind, wp_call]
    refine hspec.imp fun data' d hd => ?_
    exact wp_listReduceLoop n m next data' { h with data := d } (by simpa using hn) hrest hd

theorem listReduce_refines (hl : IsList h.nodes h.head h.last l) {n : Nat} (hn : l.length < n)
    (f : α → β → EStateM ε σ β) (data : β) :
    Refines (listReduce n f data) h
      (do return (← (l.map Prod.snd).foldlM (fun d x => f x d) data, l.map Prod.snd)) := by
  intro Q E hspec
  unfold listReduce
  rw [wp_bind] at hspec
  rw [wp_bind, wp_get]
  refine wp_listReduceLoop n l h.head data h hn hl.seg ?_
  exact hspec.mono (fun r d hr => wp_pure.mp hr _ ⟨l, hl, rfl⟩ rfl) fun e d he => he _ rfl

/-- Folding with nothing to carry along is iterating. -/
theorem foldlM_unit_eq_forM (f : α → EStateM ε σ Unit) :
    ∀ xs : List α, xs.foldlM (fun _ x => f x) () = xs.forM f
  | [] => rfl
  | x :: xs => by
    show (do let d ← f x; xs.foldlM (fun _ x => f x) d) = (do f x; xs.forM f)
    exact congrArg _ (funext fun _ => foldlM_unit_eq_forM f xs)

theorem listIterate_refines (hl : IsList h.nodes h.head h.last l) {n : Nat} (hn : l.length < n)
    (f : α → EStateM ε σ Unit) :
    Refines (listIterate n f) h (do (l.map Prod.snd).forM f; return ((), l.map Prod.snd)) := by
  have hred := listReduce_refines hl hn (fun x (_ : Unit) => f x) ()
  rw [foldlM_unit_eq_forM] at hred
  exact hred

/-! ## Deleting -/

/-- Making the node before `curr`, or `head`, point past it. -/
theorem wp_pointPast {kept : List (Nat × α)} {curr next : Option Nat} {Q : Unit → Heap α σ → Prop}
    (hseg : Seg h.nodes h.head kept curr) (hnd : (addrs kept).Nodup)
    (hQ : ∀ h', Seg h'.nodes h'.head kept next → (∀ b ∉ addrs kept, h'.nodes b = h.nodes b) →
      h'.data = h.data → h'.last = h.last → Q () h') :
    Wp (pointPast (lastAddr kept) next) h Q E := by
  unfold pointPast
  rcases List.eq_nil_or_concat kept with rfl | ⟨kept, ⟨b, y⟩, rfl⟩
  · rw [if_pos lastAddr_nil]
    exact wp_modify.mpr (hQ _ rfl (fun _ _ => rfl) rfl rfl)
  · rw [List.concat_eq_append] at hseg hnd hQ ⊢
    have hb : b ∉ addrs kept := fun hin => by
      rw [addrs, List.map_append] at hnd
      exact (List.nodup_append.mp hnd).2.2 b hin b (by simp) rfl
    obtain ⟨hnode, hseg'⟩ := hseg.relink hb next
    rw [lastAddr_append_singleton, if_neg (by simp), (setNext_returns hnode next).wp_iff]
    refine hQ _ hseg' (fun c hc => Function.update_of_ne ?_ ..) rfl rfl
    rintro rfl
    exact hc (by simp)

/-- What the loop of `list_delete_n` is left for: the nodes `kept`, and then some with the values
`ys`. -/
def Leaves (Q : Option Nat → Heap α σ → Prop) (kept : List (Nat × α)) (ys : List α) (d : σ) :
    Prop :=
  ∀ h' m', Seg h'.nodes h'.head (kept ++ m') none → (addrs (kept ++ m')).Nodup →
    m'.map Prod.snd = ys → h'.data = d → Q (lastAddr (kept ++ m')) h'

/-- The loop of `list_delete_n` with the nodes `kept` behind it and those of `m` ahead. -/
theorem wp_listDeleteNLoop {f : α → EStateM ε σ Bool} {Q : Option Nat → Heap α σ → Prop} :
    ∀ (k : Nat) (m kept : List (Nat × α)) (curr : Option Nat) (n : Int) (h : Heap α σ),
      m.length < k → Seg h.nodes h.head kept curr → Seg h.nodes curr m none →
      (addrs (kept ++ m)).Nodup →
      Wp (deleteN f n (m.map Prod.snd)) h.data
        (Leaves Q kept)
        (fun e d => ∀ h', h'.data = d → E (.callback e) h') →
      Wp (listDeleteNLoop f k curr (lastAddr kept) n) h Q E
  | 0, _, _, _, _, _, hk, _, _, _, _ => absurd hk (by omega)
  | k + 1, [], kept, curr, n, h, _, hkept, hseg, hnd, hspec => by
    obtain rfl : curr = none := hseg
    have hQ := wp_pure.mp hspec h [] (by rwa [List.append_nil]) hnd rfl rfl
    rw [List.append_nil] at hQ
    exact wp_pure.mpr hQ
  | k + 1, (c, y) :: m, kept, curr, n, h, hk, hkept, hseg, hnd, hspec => by
    obtain ⟨rfl, next, hc, hrest⟩ := hseg
    have hk' : m.length < k := by simpa using hk
    have hnd' : (addrs (kept ++ [(c, y)] ++ m)).Nodup := by simpa using hnd
    unfold listDeleteNLoop
    rw [List.map_cons, deleteN, wp_bind] at hspec
    rw [(deref_returns hc).bind_iff, wp_bind]
    -- the node goes or stays, with the data as the function has left it
    have hstay : ∀ d, Wp (do return y :: (← deleteN f n (m.map Prod.snd))) d
        (Leaves Q kept)
        (fun e d => ∀ h', h'.data = d → E (.callback e) h') →
        Wp (listDeleteNLoop f k next (some c) n) { h with data := d } Q E := fun d hd => by
      rw [wp_bind] at hd
      rw [← lastAddr_append_singleton (l := kept) (a := c) (x := y)]
      refine wp_listDeleteNLoop k m (kept ++ [(c, y)]) next n { h with data := d } hk'
        (Seg.append_iff.mpr ⟨_, hkept, rfl, next, hc, rfl⟩) hrest hnd'
        (hd.imp fun ys d' hys h' m' hseg' hnd'' hm' hd' => ?_)
      rw [List.append_assoc] at hseg' hnd'' ⊢
      exact wp_pure.mp hys h' ((c, y) :: m') hseg' hnd'' (by rw [← hm']; rfl) hd'
    have hgo : ∀ d, Wp (deleteN f (n - 1) (m.map Prod.snd)) d
        (Leaves Q kept)
        (fun e d => ∀ h', h'.data = d → E (.callback e) h') →
        Wp (do
          pointPast (lastAddr kept) next
          free (some c)
          listDeleteNLoop f k next (lastAddr kept) (n - 1)) { h with data := d } Q E :=
            fun d hd => by
      have hsplit := hnd'
      rw [addrs, List.map_append, List.map_append] at hsplit
      obtain ⟨hkeptc, hndm, hdisjm⟩ := List.nodup_append.mp hsplit
      obtain ⟨hndkept, -, hdisjc⟩ := List.nodup_append.mp hkeptc
      have hckept : c ∉ addrs kept := fun hin => hdisjc c hin c (by simp) rfl
      have hcm : c ∉ addrs m := fun hin => hdisjm c (by simp) c hin rfl
      have hkeptm : ∀ b ∈ addrs m, b ∉ addrs kept := fun b hb hin =>
        hdisjm b (List.mem_append_left _ hin) b hb rfl
      rw [wp_bind]
      refine wp_pointPast (h := { h with data := d }) hkept hndkept fun h₁ hseg₁ hsame hdata _ => ?_
      have hc₁ : h₁.nodes c = some ⟨y, next⟩ := (hsame c hckept).trans hc
      have hm₁ : Seg h₁.nodes next m none := hrest.congr fun b hb => hsame b (hkeptm b hb)
      rw [(free_returns hc₁).bind_iff]
      refine wp_listDeleteNLoop k m kept next (n - 1) _ hk' (hseg₁.update hckept none)
        (hm₁.update hcm none) ?_ (by simpa [hdata] using hd)
      rw [addrs, List.map_append]
      exact List.Nodup.append hndkept hndm fun b hb hb' => hkeptm b hb' hb
    by_cases hn : n = 0
    · rw [if_neg (by simpa using hn), wp_pure, if_neg (by simp)] at hspec ⊢
      exact hstay h.data hspec
    · simp only [ne_eq, hn, not_false_eq_true, if_true] at hspec ⊢
      rw [wp_call]
      refine hspec.mono (fun b d hb => ?_) fun e d he => he _ rfl
      cases b with
      | true => exact hgo d (by simpa using hb)
      | false => exact hstay d (by simpa using hb)

theorem listDeleteN_refines (hl : IsList h.nodes h.head h.last l) {k : Nat} (hk : l.length < k)
    (f : α → EStateM ε σ Bool) (n : Int) :
    Refines (listDeleteN k f n) h (do return ((), ← deleteN f n (l.map Prod.snd))) := by
  intro Q E hspec
  unfold listDeleteN
  rw [wp_bind] at hspec
  rw [wp_bind, wp_get, wp_bind]
  refine wp_listDeleteNLoop k l [] h.head n h hk rfl hl.seg hl.nodup (hspec.imp ?_)
  intro ys d hys h' m hseg hnd hm hd
  rw [List.nil_append] at hseg hnd ⊢
  have hdone : ∀ h'', h''.nodes = h'.nodes → h''.head = h'.head → h''.last = lastAddr m →
      h''.data = h'.data → Q () h'' := fun h'' hnodes hhead hlast hdata => by
    refine wp_pure.mp hys h'' ⟨m, ⟨?_, hnd, hlast⟩, hm⟩ (hdata.trans hd)
    rw [hnodes, hhead]
    exact hseg
  rw [wp_bind, wp_get, wp_ite]
  refine ⟨fun hhead => ?_, fun hhead => ?_⟩
  · have hnil : m = [] := by
      rw [hseg.head_eq] at hhead
      simpa using hhead
    exact wp_modify.mpr (hdone _ rfl rfl (by rw [hnil]; rfl) rfl)
  · rcases List.eq_nil_or_concat m with rfl | ⟨m, ⟨b, y⟩, rfl⟩
    · exact absurd hseg hhead
    · rw [List.concat_eq_append] at hseg hdone ⊢
      obtain ⟨r, -, rfl, next, hb, hnext⟩ := Seg.append_iff.mp hseg
      obtain rfl : next = none := hnext
      rw [lastAddr_append_singleton, (deref_returns hb).bind_iff, if_pos rfl]
      exact wp_modify.mpr (hdone _ rfl rfl lastAddr_append_singleton.symm rfl)

/-- Everything goes, and is counted. -/
theorem deleteN_deleteWithCount : ∀ (xs : List α) (c n : Int), n < 0 →
    deleteN (ε := ε) deleteWithCount n xs c = .ok [] (c + xs.length)
  | [], c, n, _ => by
    show EStateM.Result.ok [] c = _
    simp
  | x :: xs, c, n, hn => by
    have ih := deleteN_deleteWithCount xs (c + 1) (n - 1) (by omega)
    rw [deleteN, if_pos (by omega)]
    show deleteN (ε := ε) deleteWithCount (n - 1) xs (c + 1) = _
    rw [ih, List.length_cons]
    congr 1
    push_cast
    omega

theorem listDestroy_returns (hl : IsList h.nodes h.head h.last l) {k : Nat} (hk : l.length < k) :
    ∃ h', (listDestroy k : ListM ε α σ _) h = .ok (l.length : Int) h' ∧ h'.head = none := by
  have hrun : Wp (listDestroy k : ListM ε α σ _) h
      (fun c h' => c = (l.length : Int) ∧ h'.head = none) (fun _ _ => False) := by
    unfold listDestroy listDelete
    rw [wp_bind, wp_withData]
    refine listDeleteN_refines (h := { h with data := (0 : Int) }) hl hk deleteWithCount (-1) _ _ ?_
    rw [wp_bind]
    refine wp_of_ok (deleteN_deleteWithCount _ _ _ (by decide)) (wp_pure.mpr fun h' hrep hd => ?_)
    obtain ⟨m, hm, hnil⟩ := hrep
    refine wp_pure.mpr ⟨by simpa using hd, hm.head_eq_none_iff.mpr (by simpa using hnil)⟩
  obtain ⟨c, h', hok, rfl, hhead⟩ := hrun.returns
  exact ⟨h', hok, hhead⟩

/-! ## Which items are asked about -/

/-- The items the function has answered no for. -/
def refused (xs : List α) (answers : List Bool) : List α :=
  ((xs.zip answers).filter fun p => !p.2).map Prod.fst

theorem deleteN_zero (f : α → EStateM ε σ Bool) : ∀ (xs : List α) (d : σ),
    deleteN f 0 xs d = .ok xs d
  | [], _ => rfl
  | x :: xs, d => by
    have ih := deleteN_zero f xs d
    rw [deleteN, if_neg (by simp)]
    show (do return x :: (← deleteN f 0 xs) : EStateM ε σ _) d = _
    show EStateM.bind (deleteN f 0 xs) _ d = _
    unfold EStateM.bind
    rw [ih]
    rfl

theorem mapM_cons_ok {f : α → EStateM ε σ Bool} {d d₁ d' : σ} {b : Bool} {answers : List Bool}
    (hx : f x d = .ok b d₁) (hxs : xs.mapM f d₁ = .ok answers d') :
    (x :: xs).mapM f d = .ok (b :: answers) d' := by
  refine Returns.run ?_
  rw [List.mapM_cons, Returns, (returns_of_run hx).bind_iff, (returns_of_run hxs).bind_iff]
  exact wp_pure.mpr ⟨rfl, rfl⟩

/-- `list_delete_n` asks about the items of the front part, once each and in order, until it has
found `n` to delete or is at the end. -/
theorem deleteN_ok {f : α → EStateM ε σ Bool} : ∀ {xs ys : List α} {n : Int} {d d' : σ},
    deleteN f n xs d = .ok ys d' → ∃ front rest answers, xs = front ++ rest ∧
      front.mapM f d = .ok answers d' ∧ ys = refused front answers ++ rest ∧
      (rest = [] ∨ (answers.count true : Int) = n) ∧
      ∀ i < answers.length, ((answers.take i).count true : Int) ≠ n := by
  intro xs
  induction xs with
  | nil =>
    intro ys n d d' h
    injection h with hys hd
    subst hys hd
    exact ⟨[], [], [], rfl, rfl, rfl, .inl rfl, by simp⟩
  | cons x xs ih =>
    intro ys n d d' h
    by_cases hn : n = 0
    · subst hn
      rw [deleteN_zero] at h
      injection h with hys hd
      subst hys hd
      exact ⟨[], x :: xs, [], rfl, rfl, rfl, .inr rfl, by simp⟩
    · have hrun := returns_of_run h
      rw [deleteN, if_pos hn, Returns, wp_bind] at hrun
      obtain ⟨b, d₁, hx, hrest⟩ := hrun.returns
      cases b with
      | true =>
        rw [if_pos rfl] at hrest
        obtain ⟨front, rest, answers, rfl, hmap, rfl, hend, hbefore⟩ := ih (Returns.run hrest)
        refine ⟨x :: front, rest, true :: answers, rfl, mapM_cons_ok hx hmap, rfl, ?_,
          fun i hi => ?_⟩
        · rw [List.count_cons_self]
          push_cast
          exact hend.imp id fun hc => by omega
        · cases i with
          | zero => simpa using Ne.symm hn
          | succ i =>
            have hne := hbefore i (by simpa using hi)
            rw [List.take_succ_cons, List.count_cons_self]
            push_cast
            omega
      | false =>
        rw [if_neg (by simp), wp_bind] at hrest
        obtain ⟨zs, d₂, hzs, hys⟩ := hrest.returns
        obtain ⟨rfl, rfl⟩ := wp_pure.mp hys
        obtain ⟨front, rest, answers, rfl, hmap, rfl, hend, hbefore⟩ := ih hzs
        refine ⟨x :: front, rest, false :: answers, rfl, mapM_cons_ok hx hmap, rfl, ?_,
          fun i hi => ?_⟩
        · rwa [List.count_cons_of_ne (by simp)]
        · cases i with
          | zero => simpa using Ne.symm hn
          | succ i =>
            rw [List.take_succ_cons, List.count_cons_of_ne (by simp)]
            exact hbefore i (by simpa using hi)

/-- The pager's `list_delete` is the one on sequences. -/
theorem listDelete_eq_deleteN (f : α → PagerM Bool) : ∀ (xs : List α) (n : Int), n < 0 →
    Sos.listDelete f xs = deleteN f n xs
  | [], _, _ => rfl
  | x :: xs, n, hn => by
    rw [Sos.listDelete, deleteN, if_pos (by omega)]
    refine congrArg (f x >>= ·) (funext fun b => ?_)
    cases b with
    | true => exact listDelete_eq_deleteN f xs (n - 1) (by omega)
    | false => rw [if_neg (by simp), if_neg (by simp), listDelete_eq_deleteN f xs n hn]

/-! ## Any sequence of calls -/

/-- Each function does on the list what it says on the sequence. -/
theorem Op.refines (hr : Represents h xs) (op : Op ε α σ β) (hen : op.Enabled h xs) {n : Nat}
    (hn : xs.length < n) : Refines (op.run n) h (op.spec xs) := by
  obtain ⟨l, hl, rfl⟩ := hr
  rw [List.length_map] at hn
  have hdelete : ∀ f k, Refines (do listDeleteN n f k; return (Result.unit : Result α β)) h
      (do return (.unit, ← Lists.deleteN f k (l.map Prod.snd))) := fun f k => by
    have hmap := (listDeleteN_refines (ε := ε) hl hn f k).map fun _ => (Result.unit : Result α β)
    simp only [bind_assoc, pure_bind] at hmap
    exact hmap
  cases op with
  | null => exact (listNull_refines hl).map Result.flag
  | peek =>
    obtain ⟨⟨a, x⟩, l, rfl⟩ := List.exists_cons_of_ne_nil (l := l) fun hnil =>
      hen (by rw [hnil]; rfl)
    exact (listPeek_refines hl).map Result.item
  | shift node x => exact (listShift_refines hl hen x).map fun _ => Result.unit
  | unshift =>
    obtain ⟨⟨a, x⟩, l, rfl⟩ := List.exists_cons_of_ne_nil (l := l) fun hnil =>
      hen (by rw [hnil]; rfl)
    exact (listUnshift_refines hl).map Result.item
  | push node x => exact (listPush_refines hl hen x).map fun _ => Result.unit
  | pop =>
    rcases List.eq_nil_or_concat l with rfl | ⟨l, ⟨a, x⟩, rfl⟩
    · exact absurd rfl hen
    · rw [List.concat_eq_append] at hl hn ⊢
      have hpop := (listPop_refines (ε := ε) hl (n := n) (by simp at hn; omega)).map
        (Result.item (β := β))
      rw [List.map_append]
      show Refines _ h (pure (_, _))
      simp only [List.map_cons, List.map_nil, List.getLast?_append, List.dropLast_concat]
      exact hpop
  | find f =>
    have hfind := (listFind_refines hl hn f).map (Result.found (β := β))
    simp only [bind_assoc, pure_bind] at hfind
    exact hfind
  | deleteN f k => exact hdelete f k
  | delete f => exact hdelete f (-1)
  | deleteFirst f => exact hdelete f 1
  | reduce f data =>
    have hreduce := (listReduce_refines hl hn f data).map (Result.value (α := α))
    simp only [bind_assoc, pure_bind] at hreduce
    exact hreduce
  | iterate f =>
    have hiterate := (listIterate_refines hl hn f).map fun _ => (Result.unit : Result α β)
    simp only [bind_assoc, pure_bind] at hiterate
    exact hiterate

/-- What a refinement says of a run. -/
theorem Refines.agree {m : ListM ε α σ ρ} {spec : EStateM ε σ (ρ × List α)}
    (hm : Refines m h spec) :
    (∀ r ys d, spec h.data = .ok (r, ys) d →
      ∃ h', m h = .ok r h' ∧ Represents h' ys ∧ h'.data = d) ∧
    ∀ e d, spec h.data = .error e d → ∃ h', m h = .error (.callback e) h' ∧ h'.data = d := by
  constructor
  · intro r ys d hok
    have hrun : Wp m h (fun r' h' => r' = r ∧ Represents h' ys ∧ h'.data = d) (fun _ _ => False) :=
      hm _ _ (wp_of_ok hok fun h' hrep hd => ⟨rfl, hrep, hd⟩)
    obtain ⟨r', h', hok', rfl, hrep, hd⟩ := hrun.returns
    exact ⟨h', hok', hrep, hd⟩
  · intro e d herr
    have hrun : Wp m h (fun _ _ => False) (fun e' h' => e' = .callback e ∧ h'.data = d) :=
      hm _ _ (wp_of_error herr fun h' hd => ⟨rfl, hd⟩)
    obtain ⟨e', h', herr', rfl, hd⟩ := hrun.faults
    exact ⟨h', herr', hd⟩

/-- A list and the sequence that the same calls have made, from `list_empty` on. -/
inductive Run (ε β : Type) : Heap α σ → List α → Prop
  | empty {h : Heap α σ} : h.head = none → h.last = none → Run ε β h []
  | call {h h' : Heap α σ} {xs ys : List α} {r r' : Result α β} {d : σ} (n : Nat)
      (op : Op ε α σ β) : Run ε β h xs → op.Enabled h xs → xs.length < n →
      op.run n h = .ok r h' → op.spec xs h.data = .ok (r', ys) d → Run ε β h' ys

theorem Run.represents (hrun : Run ε β h xs) : Represents h xs := by
  induction hrun with
  | empty hhead hlast => exact ⟨[], ⟨hhead, List.nodup_nil, hlast⟩, rfl⟩
  | call n op _ hen hn hok hspec ih =>
    obtain ⟨h', hok', hrep, -⟩ := (op.refines ih hen hn).agree.1 _ _ _ hspec
    rw [hok] at hok'
    injection hok' with _ hh
    exact hh ▸ hrep

/-- **`list.c` refines finite sequences.** After any calls the chain of nodes is acyclic and ends
with `last`, `head` and `last` are NULL together, and the list holds the sequence the calls make.
The next call returns what it returns on the sequence, with the same effects of the function passed
in, and leaves the list that stands for the new sequence; it fails only if that function does.
`list_delete_n` asks about the items in order and once each until `n` have matched, and exactly
those go; `list_destroy` returns the length. -/
theorem list_refines_sequence (hrun : Run ε β h xs) :
    (∃ l, Seg h.nodes h.head l none ∧ (addrs l).Nodup ∧ h.last = (addrs l).getLast? ∧
      l.map Prod.snd = xs) ∧
    (h.head = none ↔ h.last = none) ∧
    (∀ (op : Op ε α σ β) (n : Nat), op.Enabled h xs → xs.length < n →
      (∀ r ys d, op.spec xs h.data = .ok (r, ys) d →
        ∃ h', op.run n h = .ok r h' ∧ Represents h' ys ∧ h'.data = d) ∧
      ∀ e d, op.spec xs h.data = .error e d →
        ∃ h', op.run n h = .error (.callback e) h' ∧ h'.data = d) ∧
    (∀ (f : α → EStateM ε σ Bool) (n : Int) (ys : List α) (d : σ),
      deleteN f n xs h.data = .ok ys d → ∃ front rest answers, xs = front ++ rest ∧
        front.mapM f h.data = .ok answers d ∧ ys = refused front answers ++ rest ∧
        (rest = [] ∨ (answers.count true : Int) = n) ∧
        ∀ i < answers.length, ((answers.take i).count true : Int) ≠ n) ∧
    ∀ n, xs.length < n → ∃ h', (listDestroy n : ListM ε α σ _) h = .ok (xs.length : Int) h' := by
  have hrep := hrun.represents
  refine ⟨?_, ?_, fun op n hen hn => (op.refines hrep hen hn).agree,
    fun f n ys d hok => deleteN_ok hok, fun n hn => ?_⟩
  · obtain ⟨l, hl, hxs⟩ := hrep
    exact ⟨l, hl.seg, hl.nodup, hl.last_eq, hxs⟩
  · obtain ⟨l, hl, -⟩ := hrep
    rw [hl.head_eq_none_iff, hl.last_eq_none_iff]
  · obtain ⟨l, hl, rfl⟩ := hrep
    rw [List.length_map] at hn ⊢
    obtain ⟨h', hok, -⟩ := listDestroy_returns (ε := ε) hl hn
    exact ⟨h', hok⟩

/-- `list_empty`, with nothing in memory. -/
def emptyHeap : Heap Nat Unit := ⟨fun _ => none, none, none, ()⟩

/-- Of three items pushed the first one above 4 is deleted. -/
theorem list_refines_sequence_threeItems :
    ∃ h, Run Empty Unit h [3, 6] ∧ ∃ h', (listDestroy 3 : ListM Empty Nat Unit _) h = .ok 2 h' := by
  have h1 := Run.call (h := emptyHeap) 1 (.push 10 3) (.empty (ε := Empty) (β := Unit) rfl rfl) rfl
    (by decide) rfl rfl
  have h2 := Run.call 2 (.push 20 5) h1 rfl (by decide) rfl rfl
  have h3 := Run.call 3 (.push 30 6) h2 rfl (by decide) rfl rfl
  have h4 := Run.call 4 (.deleteFirst fun x => pure (4 < x)) h3 trivial (by decide) rfl rfl
  exact ⟨_, h4, (list_refines_sequence h4).2.2.2.2 3 (by decide)⟩

end Sos.Lists
