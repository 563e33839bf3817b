import Sos.Frames

/-!
# Page tables in memory

`pagetable_init`, `pagetableLookup` and `pagetableFree` as they are, on words in frames: a table is
a frame of 1024 words, those of the first level are addresses of tables of the second, and 0 stands
for none. `frame_alloc` hands out frames as they were left, so their words are anything; the entries
are 0 because both functions clear a new table.

The index of a word is an `int` computed from an unsigned address. It is kept apart from the number
it should be (`offset1_eq`, `offset2_eq`).
-/

namespace Sos.TableWords

/-- The memory and the frames in it. Two fields are ghosts: what `frame_alloc` has returned to the
page table functions, and what they have passed to `frame_free`. -/
structure Memory where
  frames : Frames
  taken : List Nat
  released : List Nat

namespace Memory

/-- The word at an address. -/
def word (s : Memory) (a : Nat) : Nat := readWord s.frames.memory a

/-- Write a word. -/
def setWord (s : Memory) (a w : Nat) : Memory :=
  { s with frames := { s.frames with memory := writeWord s.frames.memory a w } }

def frameAlloc (s : Memory) : Nat × Memory :=
  (s.frames.frameAlloc.1,
    { s with frames := s.frames.frameAlloc.2, taken := s.frames.frameAlloc.1 :: s.taken })

def frameFree (s : Memory) (f : Nat) : Memory :=
  { s with frames := s.frames.frameFree f, released := f :: s.released }

end Memory

/-- The address of an element of an array of words. -/
def wordAddr (table : Nat) (offset : Int) : Nat := (table + 4 * offset).toNat

/-- `int offset1`. -/
def offset1 (addr : BitVec 32) : Int := (addr / 4096#32 / 1024#32).toInt

/-- `int offset2`; the product and the difference are unsigned. -/
def offset2 (addr : BitVec 32) : Int :=
  (addr / 4096#32 - BitVec.ofInt 32 (offset1 addr) * 1024#32).toInt

/-- The loop of `pagetable_init`. -/
def clearPages2 (pt : Nat) (is : List Nat) (s : Memory) : Memory :=
  is.foldl (fun s (i : Nat) => s.setWord (wordAddr pt i) 0) s

/-- The loop of `pagetableLookup`, which finds the table through the first level each time. -/
def clearPages (slot : Nat) (is : List Nat) (s : Memory) : Memory :=
  is.foldl (fun s (i : Nat) => s.setWord (wordAddr (s.word slot) i) 0) s

/-- `pagetable_init`; `none` if there is no frame, and NULL is written through. -/
def pagetableInit (s : Memory) : Option (Nat × Memory) :=
  let (pt, s) := s.frameAlloc
  if pt = 0 then none else some (pt, clearPages2 pt (List.range pageWords) s)

/-- `pagetableLookup`: the address of the entry. -/
def pagetableLookup (s : Memory) (pt : Nat) (addr : BitVec 32) : Option (Nat × Memory) :=
  let slot := wordAddr pt (offset1 addr)
  if pt = 0 then some (0, s)
  else if s.word slot = 0 then
    let (f, s) := s.frameAlloc
    if f = 0 then none
    else
      let s := clearPages slot (List.range pageWords) (s.setWord slot f)
      some (wordAddr (s.word slot) (offset2 addr), s)
  else some (wordAddr (s.word slot) (offset2 addr), s)

/-- `pagetableFree`. -/
def pagetableFree (s : Memory) (pt : Nat) : Memory :=
  ((List.range pageWords).foldl (fun s (i : Nat) =>
    if s.word (wordAddr pt i) ≠ 0 then s.frameFree (s.word (wordAddr pt i)) else s) s).frameFree pt

/-! ## Indices -/

/-- The number of the page an address lies in. -/
def pageOf (addr : BitVec 32) : Nat := addr.toNat / pageSize

theorem pageOf_lt (addr : BitVec 32) : pageOf addr < pageWords * pageWords := by
  have := addr.isLt
  unfold pageOf pageWords pageSize
  omega

theorem offset1_eq (addr : BitVec 32) : offset1 addr = (pageOf addr / pageWords : Nat) := by
  have hlt := pageOf_lt addr
  unfold pageOf pageWords pageSize at hlt
  unfold offset1 pageOf pageWords pageSize
  have hnat : (addr / 4096#32 / 1024#32).toNat = addr.toNat / 4096 / 1024 := by
    simp only [BitVec.toNat_udiv, BitVec.toNat_ofNat, Nat.reducePow, Nat.reduceMod]
  rw [BitVec.toInt_eq_toNat_of_lt (by rw [hnat]; omega), hnat]

theorem offset2_eq (addr : BitVec 32) : offset2 addr = (pageOf addr % pageWords : Nat) := by
  have hlt := pageOf_lt addr
  have hone := offset1_eq addr
  unfold pageOf pageWords pageSize at *
  have hnat : (addr / 4096#32 - BitVec.ofInt 32 (offset1 addr) * 1024#32).toNat =
      addr.toNat / 4096 % 1024 := by
    rw [hone]
    simp only [BitVec.toNat_sub, BitVec.toNat_mul, BitVec.toNat_ofInt, BitVec.toNat_udiv,
      BitVec.toNat_ofNat, Nat.reducePow, Nat.reduceMod]
    omega
  unfold offset2
  rw [BitVec.toInt_eq_toNat_of_lt (by rw [hnat]; omega), hnat]

theorem wordAddr_coe (table i : Nat) : wordAddr table (i : Int) = table + 4 * i := by
  unfold wordAddr
  omega

/-! ## Words of tables -/

variable {s : Memory} {f g i j a b w : Nat}

/-- Words of tables at different places do not overlap. -/
theorem apart_of_ne (hf : pageOffset f = 0) (hg : pageOffset g = 0) (hi : i < pageWords)
    (hj : j < pageWords) (hne : f ≠ g ∨ i ≠ j) :
    f + 4 * i + 4 ≤ g + 4 * j ∨ g + 4 * j + 4 ≤ f + 4 * i := by
  unfold pageWords at hi hj
  by_cases hfg : f = g
  · subst hfg
    have hij := hne.resolve_left (not_not.mpr rfl)
    omega
  · have hapart := Frames.apart_of_ne hf hg hfg
    unfold pageSize at hapart
    omega

theorem word_setWord_self (hw : w < wordLimit) : (s.setWord a w).word a = w :=
  readWord_writeWord _ hw

theorem word_setWord_of_apart (h : a + 4 ≤ b ∨ b + 4 ≤ a) : (s.setWord a w).word b = s.word b :=
  readWord_writeWord_of_apart _ h

/-- Clearing a table touches no word elsewhere. -/
theorem word_clearPages2_of_apart (pt : Nat) (is : List Nat)
    (h : ∀ i ∈ is, pt + 4 * i + 4 ≤ b ∨ b + 4 ≤ pt + 4 * i) (s : Memory) :
    (clearPages2 pt is s).word b = s.word b := by
  induction is generalizing s with
  | nil => rfl
  | cons i is ih =>
    rw [clearPages2, List.foldl_cons, ← clearPages2, ih fun j hj => h j (List.mem_cons_of_mem _ hj),
      wordAddr_coe]
    exact word_setWord_of_apart (h i (List.mem_cons_self ..))

theorem word_clearPages2 {is : List Nat} (hi : i ∈ is) (s : Memory) :
    (clearPages2 f is s).word (f + 4 * i) = 0 := by
  induction is generalizing s with
  | nil => simp at hi
  | cons j is ih =>
    rw [clearPages2, List.foldl_cons, ← clearPages2, wordAddr_coe]
    by_cases his : i ∈ is
    · exact ih his _
    · obtain rfl : i = j := (List.mem_cons.mp hi).resolve_right his
      rw [word_clearPages2_of_apart f is fun k hk => ?_, word_setWord_self (by decide)]
      have hne : k ≠ i := fun hki => his (hki ▸ hk)
      omega

/-- The table found through the first level is the same all the time. -/
theorem clearPages_eq {slot : Nat} (is : List Nat) (s : Memory)
    (h : ∀ i ∈ is, s.word slot + 4 * i + 4 ≤ slot ∨ slot + 4 ≤ s.word slot + 4 * i) :
    clearPages slot is s = clearPages2 (s.word slot) is s := by
  induction is generalizing s with
  | nil => simp only [clearPages, clearPages2, List.foldl_nil]
  | cons i is ih =>
    have hslot : (s.setWord (s.word slot + 4 * i) 0).word slot = s.word slot :=
      word_setWord_of_apart (h i (List.mem_cons_self ..))
    rw [clearPages, List.foldl_cons, ← clearPages, clearPages2, List.foldl_cons, ← clearPages2,
      wordAddr_coe, ih _ fun j hj => ?_, hslot]
    rw [hslot]
    exact h j (List.mem_cons_of_mem _ hj)

/-- The fields that clearing leaves alone. -/
theorem clearPages2_rest (pt : Nat) (is : List Nat) (s : Memory) :
    ∃ mem, clearPages2 pt is s = { s with frames := { s.frames with memory := mem } } := by
  induction is generalizing s with
  | nil => exact ⟨s.frames.memory, rfl⟩
  | cons i is ih =>
    obtain ⟨mem, hmem⟩ := ih (s.setWord (wordAddr pt i) 0)
    exact ⟨mem, hmem⟩

/-- What a new second level at `f` does: the word of the first level points to it, its own words are
0, and no other word of a table has changed. -/
structure Added (s s' : Memory) (pt i f : Nat) : Prop where
  slot : s'.word (pt + 4 * i) = f
  zero : ∀ j < pageWords, s'.word (f + 4 * j) = 0
  other : ∀ g j, pageOffset g = 0 → j < pageWords → g ≠ f → (g ≠ pt ∨ j ≠ i) →
    s'.word (g + 4 * j) = s.word (g + 4 * j)
  rest : ∃ mem, s' = { s with frames := { s.frames with memory := mem } }

theorem added {pt : Nat} (s : Memory) (hpt : pageOffset pt = 0) (hf : pageOffset f = 0)
    (hne : f ≠ pt) (hlt : f < wordLimit) (hi : i < pageWords) :
    Added s (clearPages (pt + 4 * i) (List.range pageWords) (s.setWord (pt + 4 * i) f)) pt i f := by
  have hself : (s.setWord (pt + 4 * i) f).word (pt + 4 * i) = f := word_setWord_self hlt
  have helse : ∀ g j, pageOffset g = 0 → j < pageWords → g ≠ f → ∀ k ∈ List.range pageWords,
      f + 4 * k + 4 ≤ g + 4 * j ∨ g + 4 * j + 4 ≤ f + 4 * k := fun g j hg hj hgf k hk =>
    apart_of_ne hf hg (List.mem_range.mp hk) hj (.inl hgf.symm)
  have hclear : clearPages (pt + 4 * i) (List.range pageWords) (s.setWord (pt + 4 * i) f) =
      clearPages2 f (List.range pageWords) (s.setWord (pt + 4 * i) f) := by
    rw [clearPages_eq, hself]
    rw [hself]
    exact helse pt i hpt hi hne.symm
  rw [hclear]
  refine ⟨?_, fun j hj => word_clearPages2 (List.mem_range.mpr hj) _, fun g j hg hj hgf hgj => ?_,
    ?_⟩
  · rw [word_clearPages2_of_apart _ _ (helse pt i hpt hi hne.symm), hself]
  · rw [word_clearPages2_of_apart _ _ (helse g j hg hj hgf)]
    have hplaces : pt ≠ g ∨ i ≠ j := hgj.imp Ne.symm Ne.symm
    exact word_setWord_of_apart (apart_of_ne hpt hg hi hj hplaces)
  · obtain ⟨mem, hmem⟩ := clearPages2_rest f (List.range pageWords) (s.setWord (pt + 4 * i) f)
    exact ⟨mem, hmem⟩

end Sos.TableWords
