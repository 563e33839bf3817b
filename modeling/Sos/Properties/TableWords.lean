import Sos.TableWords
import Sos.Properties.FrameAllocator
import Sos.Simulation.View

/-!
# The page table is a map from pages to words

`Run` are the states of a page table after `pagetable_init`, any calls of `pagetableLookup` and any
writes through the entries it has returned, while others allocate, write and free frames of their
own. The invariant `Table` says what the words of the table are then: the frames the table has taken
are its first level and the second levels that the first points to, all different, and the entries
are what has been written last, or 0.

No address computation of the table and no write of another owner gets into the way, because a word
of a frame is not a word of any other (`apart_of_ne`).
-/

namespace Sos.TableWords

open Frames (Lends Range)

variable {low high : Nat} {s s' : Memory} {pt f i n e w : Nat} {m : Nat → Nat} {out : List Nat}
  {addr : BitVec 32} {seen : List (BitVec 32 × Nat)}

/-- The states of the table at `pt`. `m` is the map it stands for, `seen` the addresses looked up so
far with the entries returned for them, and `out` the frames of others. -/
inductive Run (low high pt : Nat) :
    Memory → (Nat → Nat) → List (BitVec 32 × Nat) → List Nat → Prop
  | init {fr : Frames} {out : List Nat} {s : Memory} : Frames.Run low high fr out →
      pagetableInit ⟨fr, [], []⟩ = some (pt, s) → Run low high pt s (fun _ => 0) [] out
  | lookup {s s' : Memory} {m : Nat → Nat} {seen : List (BitVec 32 × Nat)} {out : List Nat}
      {addr : BitVec 32} {e : Nat} : Run low high pt s m seen out →
      pagetableLookup s pt addr = some (e, s') → Run low high pt s' m ((addr, e) :: seen) out
  | write {s : Memory} {m : Nat → Nat} {seen : List (BitVec 32 × Nat)} {out : List Nat}
      {addr : BitVec 32} {e w : Nat} : Run low high pt s m seen out → (addr, e) ∈ seen →
      w < wordLimit → Run low high pt (s.setWord e w) (Function.update m (pageOf addr) w) seen out
  | otherAlloc {s : Memory} {m : Nat → Nat} {seen : List (BitVec 32 × Nat)} {out : List Nat} :
      Run low high pt s m seen out → s.frames.frameAlloc.1 ≠ 0 →
      Run low high pt { s with frames := s.frames.frameAlloc.2 } m seen
        (s.frames.frameAlloc.1 :: out)
  | otherFree {s : Memory} {m : Nat → Nat} {seen : List (BitVec 32 × Nat)} {out : List Nat}
      {f : Nat} : Run low high pt s m seen out → f ∈ out →
      Run low high pt { s with frames := s.frames.frameFree f } m seen (out.erase f)
  | otherWrite {s : Memory} {m : Nat → Nat} {seen : List (BitVec 32 × Nat)} {out : List Nat}
      {f a : Nat} (b : UInt8) : Run low high pt s m seen out → f ∈ out → f ≤ a → a < f + pageSize →
      Run low high pt
        { s with frames := { s.frames with memory := Function.update s.frames.memory a b } } m seen
        out

/-! ## The invariant -/

/-- The second level that a word of the first points to. -/
def child (s : Memory) (pt i : Nat) : Option Nat :=
  if s.word (pt + 4 * i) = 0 then none else some (s.word (pt + 4 * i))

/-- The second levels. -/
def children (s : Memory) (pt : Nat) : List Nat := (List.range pageWords).filterMap (child s pt)

/-- Where the entry of a page is, if its second level is there. -/
def entryAddr (s : Memory) (pt n : Nat) : Option Nat :=
  (child s pt (n / pageWords)).map (· + 4 * (n % pageWords))

/-- The word of a page. -/
def entryWord (s : Memory) (pt n : Nat) : Nat := (entryAddr s pt n).elim 0 s.word

structure Table (low high : Nat) (s : Memory) (pt : Nat) (m : Nat → Nat) (out : List Nat) : Prop
    where
  lends : Lends low high s.frames (s.taken ++ out)
  taken : s.taken.Perm (pt :: children s pt)
  inj : ∀ i j t, i < pageWords → j < pageWords → child s pt i = some t → child s pt j = some t →
    i = j
  value : ∀ n, n < pageWords * pageWords → entryWord s pt n = m n
  released : s.released = []

theorem child_eq_some {t : Nat} : child s pt i = some t ↔ s.word (pt + 4 * i) = t ∧ t ≠ 0 := by
  unfold child
  by_cases h : s.word (pt + 4 * i) = 0
  · rw [if_pos h, h]
    constructor
    · exact nofun
    · rintro ⟨rfl, ht⟩
      exact absurd rfl ht
  · rw [if_neg h, Option.some.injEq]
    exact ⟨fun ht => ⟨ht, ht ▸ h⟩, And.left⟩

theorem child_eq_none : child s pt i = none ↔ s.word (pt + 4 * i) = 0 := by
  unfold child
  by_cases h : s.word (pt + 4 * i) = 0 <;> simp [h]

theorem div_lt (h : n < pageWords * pageWords) : n / pageWords < pageWords :=
  Nat.div_lt_of_lt_mul h

theorem mod_lt (n : Nat) : n % pageWords < pageWords := Nat.mod_lt _ (by decide)

/-- Only the words of the first level say where the entries are. -/
theorem entryAddr_congr (h : ∀ i < pageWords, s'.word (pt + 4 * i) = s.word (pt + 4 * i)) :
    (∀ i < pageWords, child s' pt i = child s pt i) ∧ children s' pt = children s pt ∧
      ∀ n < pageWords * pageWords, entryAddr s' pt n = entryAddr s pt n := by
  have hchild : ∀ i < pageWords, child s' pt i = child s pt i := fun i hi => by
    unfold child
    rw [h i hi]
  refine ⟨hchild, List.filterMap_congr fun i hi => hchild i (List.mem_range.mp hi), fun n hn => ?_⟩
  unfold entryAddr
  rw [hchild _ (div_lt hn)]

/-- The order of the frames handed out does not count. -/
theorem lends_perm {fr : Frames} {l l' : List Nat} (h : Lends low high fr l) (hp : l.Perm l') :
    Lends low high fr l' :=
  ⟨Multiset.coe_eq_coe.mpr hp ▸ h.shares, hp.length_eq ▸ h.inUse⟩

/-- Writes into frames handed out do not reach the free list. -/
theorem lends_of_memory {l : List Nat} (h : Lends low high s.frames l)
    (hframes : ∃ mem, s'.frames = { s.frames with memory := mem })
    (hwords : ∀ g, pageOffset g = 0 → g ∉ l → s'.word g = s.word g) :
    Lends low high s'.frames l := by
  obtain ⟨mem, hmem⟩ := hframes
  have hshares := h.shares.congr fun g hg hused =>
    hwords g (Frames.mem_pages.mp hg).2 fun hgl => hused (Multiset.mem_coe.mpr hgl)
  have hinUse := h.inUse
  unfold Memory.word at hshares
  rw [hmem] at hshares ⊢
  exact ⟨hshares, hinUse⟩

namespace Table

variable (h : Table low high s pt m out)
include h

theorem nodup : (s.taken ++ out).Nodup := Multiset.coe_nodup.mp h.lends.shares.nodup

theorem nodup_children : (pt :: children s pt).Nodup :=
  h.taken.nodup_iff.mp (List.nodup_append.mp h.nodup).1

theorem aligned (hf : f ∈ s.taken) : pageOffset f = 0 :=
  (Frames.mem_pages.mp (h.lends.mem_pages_of_mem (List.mem_append_left _ hf))).2

theorem notMem_taken (hf : f ∈ out) : f ∉ s.taken := fun hs =>
  (List.nodup_append.mp h.nodup).2.2 f hs f hf rfl

theorem root_mem : pt ∈ s.taken := h.taken.mem_iff.mpr (List.mem_cons_self ..)

theorem root_ne_zero (hr : Range low high) : pt ≠ 0 := by
  rintro rfl
  exact hr.zero_notMem (h.lends.mem_pages_of_mem (List.mem_append_left _ h.root_mem))

theorem child_mem {t : Nat} (hi : i < pageWords) (ht : child s pt i = some t) :
    t ∈ s.taken ∧ t ≠ pt := by
  have hmem : t ∈ children s pt := List.mem_filterMap.mpr ⟨i, List.mem_range.mpr hi, ht⟩
  refine ⟨h.taken.mem_iff.mpr (List.mem_cons_of_mem _ hmem), ?_⟩
  rintro rfl
  exact (List.nodup_cons.mp h.nodup_children).1 hmem

/-- The entry of a page lies in a second level. -/
theorem entryAddr_some (hn : n < pageWords * pageWords) (he : entryAddr s pt n = some e) :
    ∃ t ∈ s.taken, t ≠ pt ∧ child s pt (n / pageWords) = some t ∧
      e = t + 4 * (n % pageWords) := by
  obtain ⟨t, ht, rfl⟩ := Option.map_eq_some_iff.mp he
  obtain ⟨hmem, hne⟩ := h.child_mem (div_lt hn) ht
  exact ⟨t, hmem, hne, ht, rfl⟩

/-- Different pages have different entries. -/
theorem entryAddr_inj {n' : Nat} (hn : n < pageWords * pageWords)
    (hn' : n' < pageWords * pageWords) (he : entryAddr s pt n = some e)
    (he' : entryAddr s pt n' = some e) : n = n' := by
  obtain ⟨t, ht, -, hchild, heq⟩ := h.entryAddr_some hn he
  obtain ⟨t', ht', -, hchild', heq'⟩ := h.entryAddr_some hn' he'
  by_contra hne
  have hplaces : t ≠ t' ∨ n % pageWords ≠ n' % pageWords := by
    by_contra hsame
    rw [not_or, not_not, not_not] at hsame
    obtain ⟨rfl, hmod⟩ := hsame
    have hdiv := h.inj _ _ t (div_lt hn) (div_lt hn') hchild hchild'
    exact hne (by rw [← Nat.div_add_mod n pageWords, hdiv, hmod, Nat.div_add_mod])
  have := apart_of_ne (h.aligned ht) (h.aligned ht') (mod_lt n) (mod_lt n') hplaces
  omega

/-- The words of the frames of the table are all that counts. -/
theorem congr {out' : List Nat} (hl : Lends low high s'.frames (s.taken ++ out'))
    (ht : s'.taken = s.taken) (hr : s'.released = s.released)
    (hwords : ∀ g ∈ s.taken, ∀ i < pageWords, s'.word (g + 4 * i) = s.word (g + 4 * i)) :
    Table low high s' pt m out' ∧ ∀ n < pageWords * pageWords,
      entryAddr s' pt n = entryAddr s pt n := by
  obtain ⟨hchild, hchildren, haddr⟩ := entryAddr_congr (hwords pt h.root_mem)
  refine ⟨⟨ht ▸ hl, ?_, fun i j t hi hj => ?_, fun n hn => ?_, hr.trans h.released⟩, haddr⟩
  · rw [ht, hchildren]
    exact h.taken
  · rw [hchild i hi, hchild j hj]
    exact h.inj i j t hi hj
  · rw [← h.value n hn, entryWord, entryWord, haddr n hn]
    cases he : entryAddr s pt n with
    | none => rw [Option.elim_none, Option.elim_none]
    | some e =>
      obtain ⟨t, htaken, -, -, rfl⟩ := h.entryAddr_some hn he
      exact hwords t htaken _ (mod_lt n)

/-! ## The calls -/

/-- A write through an entry. -/
theorem write (hn : n < pageWords * pageWords) (he : entryAddr s pt n = some e)
    (hw : w < wordLimit) : Table low high (s.setWord e w) pt (Function.update m n w) out ∧
      ∀ n' < pageWords * pageWords, entryAddr (s.setWord e w) pt n' = entryAddr s pt n' := by
  obtain ⟨t, ht, hne, -, heq⟩ := h.entryAddr_some hn he
  have hlends : Lends low high (s.setWord e w).frames (s.taken ++ out) :=
    lends_of_memory h.lends ⟨_, rfl⟩ fun g hg hnot => by
      have hgt : t ≠ g := fun htg => hnot (List.mem_append_left _ (htg ▸ ht))
      have := apart_of_ne (h.aligned ht) hg (mod_lt n) (show 0 < pageWords by decide) (.inl hgt)
      exact word_setWord_of_apart (by omega)
  have hroot : ∀ i < pageWords, (s.setWord e w).word (pt + 4 * i) = s.word (pt + 4 * i) :=
    fun i hi => word_setWord_of_apart
      (heq ▸ apart_of_ne (h.aligned ht) (h.aligned h.root_mem) (mod_lt n) hi (.inl hne))
  obtain ⟨hchild, hchildren, haddr⟩ := entryAddr_congr hroot
  refine ⟨⟨hlends, ?_, fun i j t hi hj => ?_, fun n' hn' => ?_, h.released⟩, haddr⟩
  · rw [hchildren]
    exact h.taken
  · rw [hchild i hi, hchild j hj]
    exact h.inj i j t hi hj
  · rw [entryWord, haddr n' hn']
    by_cases hnn : n' = n
    · subst hnn
      rw [he, Function.update_self]
      exact word_setWord_self hw
    · rw [Function.update_of_ne hnn, ← h.value n' hn', entryWord]
      cases he' : entryAddr s pt n' with
      | none => rw [Option.elim_none, Option.elim_none]
      | some e' =>
        -- Another entry is another word.
        obtain ⟨t', ht', -, -, heq'⟩ := h.entryAddr_some hn' he'
        have hplaces : t ≠ t' ∨ n % pageWords ≠ n' % pageWords := by
          by_contra hsame
          rw [not_or, not_not, not_not] at hsame
          refine hnn (h.entryAddr_inj hn' hn he' ?_)
          rw [he, heq, heq', hsame.1, hsame.2]
        have := apart_of_ne (h.aligned ht) (h.aligned ht') (mod_lt n) (mod_lt n') hplaces
        exact word_setWord_of_apart (by omega)

/-- A second level is added. -/
theorem addTable (hi : i < pageWords) (hnone : child s pt i = none)
    (hf : s.frameAlloc.1 = f) (hne : f ≠ 0) (ha : Added s.frameAlloc.2 s' pt i f) :
    Table low high s' pt m out ∧ child s' pt i = some f ∧
      ∀ j < pageWords, j ≠ i → child s' pt j = child s pt j := by
  obtain ⟨hpages, hnew, hlends⟩ := h.lends.frameAlloc (hf ▸ hne : s.frames.frameAlloc.1 ≠ 0)
  change s.frames.frameAlloc.1 = f at hf
  rw [hf] at hpages hnew hlends
  obtain ⟨hslot, hzero, hother, mem, hmem⟩ := ha
  have hpt := h.aligned h.root_mem
  have hnotTaken : f ∉ s.taken := fun hmem => hnew (List.mem_append_left _ hmem)
  have hfpt : f ≠ pt := fun heq => hnotTaken (heq ▸ h.root_mem)
  have hsame : ∀ a, s.frameAlloc.2.word a = s.word a := fun a => by
    unfold Memory.word Memory.frameAlloc
    rw [Frames.frameAlloc_of_ne (mt Frames.frameAlloc_eq_zero_iff.mpr (hf ▸ hne))]
  have hchildSelf : child s' pt i = some f := child_eq_some.mpr ⟨hslot, hne⟩
  have hchild : ∀ j < pageWords, j ≠ i → child s' pt j = child s pt j := fun j hj hji => by
    unfold child
    rw [hother pt j hpt hj hfpt.symm (.inr hji), hsame]
  have htaken : s'.taken = f :: s.taken := by
    rw [hmem, ← hf]
    rfl
  refine ⟨⟨?_, ?_, fun j k t hj hk hjt hkt => ?_, fun n hn => ?_, ?_⟩, hchildSelf, hchild⟩
  · rw [htaken]
    have hframes : ∃ mem, s'.frames = { s.frameAlloc.2.frames with memory := mem } :=
      ⟨mem, by rw [hmem]⟩
    refine lends_of_memory (s := s.frameAlloc.2) hlends hframes fun g hg hnot => ?_
    obtain ⟨hgf, hg'⟩ := not_or.mp (mt List.mem_cons.mpr hnot)
    have hgpt : g ≠ pt := fun heq => hg' (List.mem_append_left _ (heq ▸ h.root_mem))
    exact hother g 0 hg (by decide) hgf (.inl hgpt)
  · have hupdate : children s' pt =
        (List.range pageWords).filterMap (Function.update (child s pt) i (some f)) := by
      refine List.filterMap_congr fun j hj => ?_
      by_cases hji : j = i
      · rw [hji, hchildSelf, Function.update_self]
      · rw [hchild j (List.mem_range.mp hj) hji, Function.update_of_ne hji]
    rw [htaken, hupdate]
    have hperm := filterMap_update_perm (f := f) hnone List.nodup_range (List.mem_range.mpr hi)
    exact (h.taken.cons f).trans ((List.Perm.swap ..).trans (hperm.symm.cons pt))
  · -- The new table is none of the old ones.
    have hold : ∀ l, l < pageWords → l ≠ i → child s' pt l ≠ some f := fun l hl hli hc =>
      hnotTaken (h.child_mem hl (hchild l hl hli ▸ hc)).1
    by_cases hji : j = i <;> by_cases hki : k = i
    · rw [hji, hki]
    · rw [hji, hchildSelf] at hjt
      exact absurd (hkt.trans hjt.symm) (hold k hk hki)
    · rw [hki, hchildSelf] at hkt
      exact absurd (hjt.trans hkt.symm) (hold j hj hji)
    · exact h.inj j k t hj hk (hchild j hj hji ▸ hjt) (hchild k hk hki ▸ hkt)
  · rw [← h.value n hn]
    unfold entryWord entryAddr
    by_cases hni : n / pageWords = i
    · rw [hni, hchildSelf, hnone, Option.map_some, Option.map_none, Option.elim_some,
        Option.elim_none]
      exact hzero _ (mod_lt n)
    · rw [hchild _ (div_lt hn) hni]
      cases ht : child s pt (n / pageWords) with
      | none => simp only [Option.map_none, Option.elim_none]
      | some t =>
        obtain ⟨hmemt, htpt⟩ := h.child_mem (div_lt hn) ht
        have htf : t ≠ f := fun heq => hnotTaken (heq ▸ hmemt)
        rw [Option.map_some, Option.elim_some, Option.elim_some,
          hother t _ (h.aligned hmemt) (mod_lt n) htf (.inl htpt), hsame]
  · rw [hmem]
    exact h.released

theorem lookup (hr : Range low high) (hl : pagetableLookup s pt addr = some (e, s')) :
    Table low high s' pt m out ∧ entryAddr s' pt (pageOf addr) = some e ∧
      ∀ n < pageWords * pageWords, ∀ e', entryAddr s pt n = some e' →
        entryAddr s' pt n = some e' := by
  have hn := pageOf_lt addr
  unfold pagetableLookup at hl
  rw [offset1_eq, offset2_eq, wordAddr_coe] at hl
  simp only [wordAddr_coe] at hl
  rw [if_neg (h.root_ne_zero hr)] at hl
  split at hl
  · next hzero =>
    have hnone := child_eq_none.mpr hzero
    split at hl
    · simp at hl
    · next hne =>
      obtain ⟨hpages, hnew, -⟩ := h.lends.frameAlloc hne
      obtain ⟨⟨-, hlt⟩, hf⟩ := Frames.mem_pages.mp hpages
      have hfpt : s.frameAlloc.1 ≠ pt := fun heq =>
        hnew (List.mem_append_left _ ((heq : s.frames.frameAlloc.1 = pt) ▸ h.root_mem))
      obtain ⟨htable, hself, hother⟩ := h.addTable (div_lt hn) hnone rfl hne
        (added s.frameAlloc.2 (h.aligned h.root_mem) hf hfpt (hlt.trans_le hr.le) (div_lt hn))
      obtain ⟨rfl, rfl⟩ : _ ∧ _ := by simpa using hl
      refine ⟨htable, ?_, fun n' hn' e' he' => ?_⟩
      · unfold entryAddr
        rw [hself, (child_eq_some.mp hself).1]
        rfl
      · unfold entryAddr at he' ⊢
        rw [hother _ (div_lt hn') fun heq => ?_]
        · exact he'
        · rw [heq, hnone] at he'
          simp at he'
  · next hzero =>
    obtain ⟨rfl, rfl⟩ : _ ∧ _ := by simpa using hl
    refine ⟨h, ?_, fun _ _ _ he' => he'⟩
    unfold entryAddr
    rw [child_eq_some.mpr ⟨rfl, hzero⟩]
    rfl

/-- A lookup fails only for want of a frame for the second level. -/
theorem lookup_isSome (hr : Range low high) (addr : BitVec 32)
    (hfree : child s pt (pageOf addr / pageWords) = none → s.frames.frameAlloc.1 ≠ 0) :
    ∃ e s', pagetableLookup s pt addr = some (e, s') := by
  unfold pagetableLookup
  rw [if_neg (h.root_ne_zero hr), offset1_eq, wordAddr_coe]
  split
  · next hzero =>
    dsimp only [Memory.frameAlloc]
    rw [if_neg (hfree (child_eq_none.mpr hzero))]
    exact ⟨_, _, rfl⟩
  · exact ⟨_, _, rfl⟩

/-! ## Other owners -/

theorem otherAlloc (hne : s.frames.frameAlloc.1 ≠ 0) :
    Table low high { s with frames := s.frames.frameAlloc.2 } pt m (s.frames.frameAlloc.1 :: out) ∧
      ∀ n < pageWords * pageWords,
        entryAddr { s with frames := s.frames.frameAlloc.2 } pt n = entryAddr s pt n := by
  refine h.congr ?_ rfl rfl fun g _ i _ => ?_
  · exact lends_perm (h.lends.frameAlloc hne).2.2 List.perm_middle.symm
  · unfold Memory.word
    rw [Frames.frameAlloc_of_ne (mt Frames.frameAlloc_eq_zero_iff.mpr hne)]

theorem otherFree (hr : Range low high) (hf : f ∈ out) :
    Table low high { s with frames := s.frames.frameFree f } pt m (out.erase f) ∧
      ∀ n < pageWords * pageWords,
        entryAddr { s with frames := s.frames.frameFree f } pt n = entryAddr s pt n := by
  have hmem : f ∈ s.taken ++ out := List.mem_append_right _ hf
  have halign := (Frames.mem_pages.mp (h.lends.mem_pages_of_mem hmem)).2
  refine h.congr ?_ rfl rfl fun g hg i hi => ?_
  · have hlends := h.lends.frameFree hr hmem
    rwa [List.erase_append_right _ (h.notMem_taken hf)] at hlends
  · have hfg : f ≠ g := fun heq => h.notMem_taken hf (heq ▸ hg)
    have := apart_of_ne halign (h.aligned hg) (show 0 < pageWords by decide) hi (.inl hfg)
    exact readWord_writeWord_of_apart _ (by omega)

theorem otherWrite {a : Nat} (hf : f ∈ out) (hfa : f ≤ a) (haf : a < f + pageSize) (b : UInt8) :
    let s' : Memory :=
      { s with frames := { s.frames with memory := Function.update s.frames.memory a b } }
    Table low high s' pt m out ∧
      ∀ n < pageWords * pageWords, entryAddr s' pt n = entryAddr s pt n := by
  have hmem : f ∈ s.taken ++ out := List.mem_append_right _ hf
  have halign := (Frames.mem_pages.mp (h.lends.mem_pages_of_mem hmem)).2
  refine h.congr (h.lends.write hmem hfa haf b) rfl rfl fun g hg i hi => ?_
  have hfg : f ≠ g := fun heq => h.notMem_taken hf (heq ▸ hg)
  have hapart := Frames.apart_of_ne halign (h.aligned hg) hfg
  unfold pageWords pageSize at *
  exact readWord_congr fun k hk hk' => Function.update_of_ne (by omega) ..

end Table

theorem pagetableInit_taken {fr : Frames} (h : pagetableInit ⟨fr, [], []⟩ = some (pt, s)) :
    s.taken = [pt] := by
  unfold pagetableInit at h
  dsimp only [Memory.frameAlloc] at h
  split at h
  · simp at h
  · obtain ⟨rfl, rfl⟩ := Prod.mk.inj (Option.some.inj h)
    obtain ⟨mem, hmem⟩ := clearPages2_rest fr.frameAlloc.1 (List.range pageWords)
      ⟨fr.frameAlloc.2, [fr.frameAlloc.1], []⟩
    rw [hmem]

/-- A table from `pagetable_init`. -/
theorem Table.init {fr : Frames} (hl : Lends low high fr out)
    (hinit : pagetableInit ⟨fr, [], []⟩ = some (pt, s)) :
    Table low high s pt (fun _ => 0) out := by
  unfold pagetableInit at hinit
  dsimp only [Memory.frameAlloc] at hinit
  split at hinit
  · simp at hinit
  · next hne =>
    obtain ⟨rfl, rfl⟩ : _ ∧ _ := by simpa using hinit
    obtain ⟨hpages, hnew, hlends⟩ := hl.frameAlloc hne
    obtain ⟨-, halign⟩ := Frames.mem_pages.mp hpages
    generalize hpt : fr.frameAlloc.1 = pt at *
    let s₀ : Memory := ⟨fr.frameAlloc.2, [pt], []⟩
    obtain ⟨mem, hmem⟩ := clearPages2_rest pt (List.range pageWords) s₀
    have hnone : ∀ i < pageWords,
        child (clearPages2 pt (List.range pageWords) s₀) pt i = none := fun i hi =>
      child_eq_none.mpr (word_clearPages2 (List.mem_range.mpr hi) s₀)
    refine ⟨?_, ?_, fun i j t hi _ hit => ?_, fun n hn => ?_, ?_⟩
    · rw [show (clearPages2 pt (List.range pageWords) s₀).taken = [pt] by rw [hmem]]
      refine lends_of_memory (s := s₀) hlends (by rw [hmem]; exact ⟨mem, rfl⟩) fun g hg hnot => ?_
      have hgpt : pt ≠ g := fun heq => hnot (heq ▸ List.mem_cons_self ..)
      refine word_clearPages2_of_apart _ _ (fun i hi => ?_) s₀
      have := apart_of_ne halign hg (List.mem_range.mp hi) (show 0 < pageWords by decide)
        (.inl hgpt)
      omega
    · have hnil : children (clearPages2 pt (List.range pageWords) s₀) pt = [] :=
        List.filterMap_eq_nil_iff.mpr fun i hi => hnone i (List.mem_range.mp hi)
      rw [hnil, hmem]
    · rw [hnone i hi] at hit
      simp at hit
    · unfold entryWord entryAddr
      rw [hnone _ (div_lt hn), Option.map_none, Option.elim_none]
    · rw [hmem]

/-! ## Releasing the table -/

theorem word_frameFree_of_ne {g : Nat} (hf : pageOffset f = 0) (hg : pageOffset g = 0) (hne : f ≠ g)
    (hi : i < pageWords) : (s.frameFree f).word (g + 4 * i) = s.word (g + 4 * i) := by
  have := apart_of_ne hf hg (show 0 < pageWords by decide) hi (.inl hne)
  exact readWord_writeWord_of_apart _ (by omega)

/-- The loop of `pagetableFree` gives the second levels back, in order. -/
theorem freeLoop_spec (hr : Range low high) (is : List Nat) (s : Memory)
    (his : ∀ i ∈ is, i < pageWords)
    (hl : Lends low high s.frames (is.filterMap (child s pt) ++ pt :: out)) :
    let s' := is.foldl (fun s (i : Nat) =>
      if s.word (wordAddr pt i) ≠ 0 then s.frameFree (s.word (wordAddr pt i)) else s) s
    Lends low high s'.frames (pt :: out) ∧
      s'.released = (is.filterMap (child s pt)).reverse ++ s.released := by
  induction is generalizing s with
  | nil => exact ⟨hl, rfl⟩
  | cons i is ih =>
    have hi := his i (List.mem_cons_self ..)
    have his' : ∀ j ∈ is, j < pageWords := fun j hj => his j (List.mem_cons_of_mem _ hj)
    rw [List.foldl_cons, wordAddr_coe]
    cases ht : child s pt i with
    | none =>
      rw [List.filterMap_cons_none ht] at hl ⊢
      rw [if_neg (not_not.mpr (child_eq_none.mp ht))]
      exact ih s his' hl
    | some t =>
      rw [List.filterMap_cons_some ht] at hl ⊢
      obtain ⟨hword, hne⟩ := child_eq_some.mp ht
      rw [if_pos (hword ▸ hne), hword]
      have hnodup : (t :: (is.filterMap (child s pt) ++ pt :: out)).Nodup :=
        Multiset.coe_nodup.mp hl.shares.nodup
      have htpt : t ≠ pt := fun heq => (List.nodup_cons.mp hnodup).1 (by simp [heq])
      have haligned : ∀ g ∈ t :: (is.filterMap (child s pt) ++ pt :: out), pageOffset g = 0 :=
        fun g hg => (Frames.mem_pages.mp (hl.mem_pages_of_mem hg)).2
      have hlends := hl.frameFree hr (List.mem_cons_self ..)
      rw [List.cons_append, List.erase_cons_head] at hlends
      -- The words of the first level are still there.
      have hsame : is.filterMap (child (s.frameFree t) pt) = is.filterMap (child s pt) :=
        List.filterMap_congr fun j hj => by
          unfold child
          rw [word_frameFree_of_ne (haligned t (by simp)) (haligned pt (by simp)) htpt (his' j hj)]
      obtain ⟨hafter, hreleased⟩ := ih (s.frameFree t) his' (by rw [hsame]; exact hlends)
      refine ⟨hafter, hreleased.trans ?_⟩
      rw [hsame, List.reverse_cons, List.append_assoc]
      rfl

theorem Table.free (hr : Range low high) (h : Table low high s pt m out) :
    Lends low high (pagetableFree s pt).frames out ∧
      (pagetableFree s pt).released.Perm s.taken := by
  have hl : Lends low high s.frames (children s pt ++ pt :: out) :=
    lends_perm h.lends ((h.taken.append_right out).trans List.perm_middle.symm)
  rw [children] at hl
  obtain ⟨hlends, hreleased⟩ :=
    freeLoop_spec hr (List.range pageWords) s (fun i hi => List.mem_range.mp hi) hl
  refine ⟨?_, ?_⟩
  · have hlast := hlends.frameFree hr (List.mem_cons_self ..)
    rwa [List.erase_cons_head] at hlast
  · refine List.Perm.trans ?_ h.taken.symm
    change (pt :: _).Perm _
    rw [hreleased, h.released, List.append_nil]
    exact (List.reverse_perm (children s pt)).cons pt

/-! ## Whole runs -/

theorem Run.table (hr : Range low high) (h : Run low high pt s m seen out) :
    Table low high s pt m out ∧ ∀ x ∈ seen, entryAddr s pt (pageOf x.1) = some x.2 := by
  induction h with
  | init hfr hinit => exact ⟨.init (hfr.lends hr) hinit, by simp⟩
  | lookup _ hl ih =>
    obtain ⟨htable, hseen⟩ := ih
    obtain ⟨htable', hself, hold⟩ := htable.lookup hr hl
    refine ⟨htable', fun x hx => ?_⟩
    rcases List.mem_cons.mp hx with rfl | hx
    · exact hself
    · exact hold _ (pageOf_lt _) _ (hseen x hx)
  | write _ he hw ih =>
    obtain ⟨htable, hseen⟩ := ih
    obtain ⟨htable', haddr⟩ := htable.write (pageOf_lt _) (hseen _ he) hw
    exact ⟨htable', fun x hx => (haddr _ (pageOf_lt _)).trans (hseen x hx)⟩
  | otherAlloc _ hne ih =>
    obtain ⟨htable, hseen⟩ := ih
    obtain ⟨htable', haddr⟩ := htable.otherAlloc hne
    exact ⟨htable', fun x hx => (haddr _ (pageOf_lt _)).trans (hseen x hx)⟩
  | otherFree _ hf ih =>
    obtain ⟨htable, hseen⟩ := ih
    obtain ⟨htable', haddr⟩ := htable.otherFree hr hf
    exact ⟨htable', fun x hx => (haddr _ (pageOf_lt _)).trans (hseen x hx)⟩
  | otherWrite b _ hf hfa haf ih =>
    obtain ⟨htable, hseen⟩ := ih
    obtain ⟨htable', haddr⟩ := htable.otherWrite hf hfa haf b
    exact ⟨htable', fun x hx => (haddr _ (pageOf_lt _)).trans (hseen x hx)⟩

/-- **The page table is a map from page numbers to words.** The indices are in range. Two lookups
have returned the same entry exactly if the addresses lie in the same page, and the entries hold
what was last written through them, or 0. Another lookup fails only if there is no frame; it returns
the entry of its page and changes none that has been returned before. `pagetableFree` gives back the
frames that `pagetable_init` and `pagetableLookup` have taken, each once, and no other. -/
theorem pagetable_refines_map (hr : Range low high) (h : Run low high pt s m seen out) :
    (∀ addr, (0 ≤ offset1 addr ∧ offset1 addr < pageWords) ∧
      0 ≤ offset2 addr ∧ offset2 addr < pageWords) ∧
    (∀ x ∈ seen, ∀ y ∈ seen, x.2 = y.2 ↔ pageOf x.1 = pageOf y.1) ∧
    (∀ x ∈ seen, s.word x.2 = m (pageOf x.1)) ∧
    (s.frames.frameAlloc.1 ≠ 0 → ∀ addr, ∃ e s', pagetableLookup s pt addr = some (e, s')) ∧
    (∀ addr e s', pagetableLookup s pt addr = some (e, s') →
      s'.word e = m (pageOf addr) ∧ ∀ x ∈ seen, s'.word x.2 = s.word x.2) ∧
    s.taken.Nodup ∧ pt ∈ s.taken ∧ (pagetableFree s pt).released.Perm s.taken ∧
      Lends low high (pagetableFree s pt).frames out := by
  obtain ⟨htable, hseen⟩ := h.table hr
  have hread : ∀ {s : Memory} {seen : List (BitVec 32 × Nat)}, Run low high pt s m seen out →
      ∀ x ∈ seen, s.word x.2 = m (pageOf x.1) := fun {s seen} hrun x hx => by
    obtain ⟨ht, hs⟩ := hrun.table hr
    have hvalue := ht.value _ (pageOf_lt x.1)
    rwa [entryWord, hs x hx, Option.elim_some] at hvalue
  refine ⟨fun addr => ?_, fun x hx y hy => ⟨fun heq => ?_, fun heq => ?_⟩, hread h,
    fun hne addr => htable.lookup_isSome hr addr fun _ => hne, fun addr e s' hl =>
      ⟨?_, fun x hx => ?_⟩,
    (List.nodup_append.mp htable.nodup).1, htable.root_mem, (htable.free hr).2, (htable.free hr).1⟩
  · have hdiv := div_lt (pageOf_lt addr)
    have hmod := mod_lt (pageOf addr)
    rw [offset1_eq, offset2_eq]
    exact ⟨⟨Int.natCast_nonneg _, by exact_mod_cast hdiv⟩, Int.natCast_nonneg _,
      by exact_mod_cast hmod⟩
  · exact htable.entryAddr_inj (pageOf_lt _) (pageOf_lt _) (hseen x hx) (heq ▸ hseen y hy)
  · exact Option.some.inj ((hseen x hx).symm.trans ((congrArg _ heq).trans (hseen y hy)))
  · exact hread (h.lookup hl) (addr, e) (List.mem_cons_self ..)
  · rw [hread (h.lookup hl) x (List.mem_cons_of_mem _ hx), hread h x hx]

/-- A table in the first of four frames, with two entries in one second level, which are written. -/
theorem pagetable_refines_map_twoEntries :
    ∃ s m e e', Run 0x1000 0x5000 0x1000 s m [(0x5000, e'), (0x2004, e)] [] ∧ e' ≠ e ∧
      s.word e = 7 ∧ s.word e' = 9 := by
  have hr : Range 0x1000 0x5000 := by constructor <;> decide
  let fr := Frames.uninitialised.frameInit 0x1000 0x4fff
  have hroot : fr.frameAlloc.1 = 0x1000 := by decide
  obtain ⟨s, hinit⟩ : ∃ s, pagetableInit ⟨fr, [], []⟩ = some (0x1000, s) := by
    unfold pagetableInit
    dsimp only [Memory.frameAlloc]
    rw [hroot, if_neg (by decide)]
    exact ⟨_, rfl⟩
  have hrun : Run 0x1000 0x5000 0x1000 s (fun _ => 0) [] [] := .init (.init _) hinit
  obtain ⟨htable, -⟩ := hrun.table hr
  -- The first level is all that has been taken, so there is another frame.
  have hfree : s.frames.frameAlloc.1 ≠ 0 := fun hzero => by
    have hall := (htable.lends.firstFree_eq_zero_iff hr).mp (Frames.frameAlloc_eq_zero_iff.mp hzero)
    have hsecond := hall 0x2000 (Frames.mem_pages.mpr (by decide))
    rw [pagetableInit_taken hinit] at hsecond
    exact absurd hsecond (by decide)
  obtain ⟨e, s₁, hfirst⟩ := htable.lookup_isSome hr 0x2004 fun _ => hfree
  have hrun₁ := (hrun.lookup hfirst).write (w := 7) (List.mem_singleton_self _) (by decide)
  obtain ⟨htable₁, hseen₁⟩ := hrun₁.table hr
  -- The second level is there now.
  obtain ⟨t, hchild, -⟩ := Option.map_eq_some_iff.mp (hseen₁ _ (List.mem_singleton_self _))
  have hlevel : pageOf 0x5000 / pageWords = pageOf 0x2004 / pageWords := by decide
  obtain ⟨e', s₂, hsecond⟩ := htable₁.lookup_isSome hr 0x5000 fun hnone => by
    rw [hlevel, hchild] at hnone
    cases hnone
  have hrun₂ := (hrun₁.lookup hsecond).write (w := 9) (List.mem_cons_self ..) (by decide)
  obtain ⟨-, hsame, hread, -⟩ := pagetable_refines_map hr hrun₂
  have hne : pageOf 0x5000 ≠ pageOf 0x2004 := by decide
  refine ⟨_, _, e, e', hrun₂, ?_, ?_, ?_⟩
  · exact mt (hsame (0x5000, e') (by simp) (0x2004, e) (by simp)).mp hne
  · rw [hread (0x2004, e) (by simp), Function.update_of_ne hne.symm, Function.update_self]
  · rw [hread (0x5000, e') (by simp), Function.update_self]

end Sos.TableWords
