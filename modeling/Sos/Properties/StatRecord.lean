import Sos.Properties.CopyBuffers

/-!
# Where the `stat` record stands

The kernel puts the `stat_t` at the first word behind the path in the caller's copy buffer. The
library never computes this place: it copies the path in, copies out as many bytes as are missing to
a full word, and takes the record from where these copies have left the offset.
-/

namespace Sos

variable {set : Setting} {t : Pid} {w : World} {s : Client}

/-! ## Copies that follow one another -/

/-- Size and offset are the same: the last copy has got to its end. -/
def Client.At (s : Client) (n : Nat) : Prop := s.copyData = n + n * 65536

theorem copyRange_fresh {size : Nat} (h : size ≤ copyBufsiz) :
    copyRange w size false = (size, 0) := by
  unfold copyRange loHalf
  unfold copyBufsiz at h ⊢
  simp only [Bool.false_eq_true, if_false, Prod.mk.injEq, and_true]
  omega

theorem copyRange_append {n size : Nat} (hw : w.copyData = n + n * 65536)
    (h : n + size ≤ copyBufsiz) : copyRange w size true = (n + size, n) := by
  unfold copyBufsiz at h
  have hlo : loHalf (n + n * 65536) = n := by
    unfold loHalf
    omega
  have hhi : hiHalf (n + n * 65536) = n := by
    unfold hiHalf
    rw [Nat.add_mul_div_right n n (by decide), Nat.div_eq_of_lt (by omega)]
    omega
  unfold copyRange
  rw [hw, hlo, hhi]
  unfold loHalf copyBufsiz
  simp only [if_true, Prod.mk.injEq, and_true]
  omega

theorem copied_eq {size o : Nat} {append : Bool} (h : copyRange w size append = (o + size, o))
    (hacc : size ≤ w.accessible) : copied w size append = size := by
  unfold copied
  rw [h]
  dsimp only
  omega

theorem copyDataAfter_eq {size o : Nat} {append : Bool}
    (h : copyRange w size append = (o + size, o)) (hacc : size ≤ w.accessible) :
    copyDataAfter w size append = (o + size) + (o + size) * 65536 := by
  unfold copyDataAfter
  rw [copied_eq h hacc, h]

/-- A copy in from the beginning of the buffer. -/
theorem Client.copyin_fresh {data size : Nat} (hsize : size ≤ copyBufsiz)
    (hacc : size ≤ w.accessible) :
    (s.copyin set t w data size false).At size ∧
      (s.copyin set t w data size false).memory = s.memory ∧
      ∀ i < size, (s.copyin set t w data size false).buffers (pagerBuffer t + i) =
        s.memory (data + i) := by
  have hrange : copyRange (w.seenBy s) size false = (0 + size, 0) := by
    rw [Nat.zero_add]
    exact copyRange_fresh hsize
  have hcopied := copied_eq hrange (show size ≤ (w.seenBy s).accessible from hacc)
  refine ⟨?_, rfl, fun i hi => ?_⟩
  · have hdata := copyDataAfter_eq hrange (show size ≤ (w.seenBy s).accessible from hacc)
    rw [Nat.zero_add] at hdata
    exact hdata
  · unfold Client.copyin
    simp only [runCall, sosCopyin, hcopied, hrange, Nat.add_zero]
    exact blit_apply hi

/-- A file call of the pager leaves the buffers of the other threads alone. -/
theorem fileCalls_slice (hvp : set.virtualPager ≠ t) (b : Nat → UInt8) (path : Path) {i : Nat}
    (hi : i < copyBufsiz) : fileCalls w set b path (pagerBuffer t + i) = b (pagerBuffer t + i) := by
  have hout : ∀ (f g : Nat → UInt8) (n : Nat), n ≤ copyBufsiz →
      blit f (pagerBuffer set.virtualPager) n g (pagerBuffer t + i) = f (pagerBuffer t + i) := by
    intro f g n hn
    have hne : set.virtualPager.val ≠ t.val := fun h => hvp (Fin.ext h)
    unfold copyBufsiz at hi hn
    refine if_neg ?_
    unfold pagerBuffer copyBufsiz
    omega
  unfold fileCalls
  rw [hout _ _ _ (Nat.min_le_right ..), hout _ _ _ (by decide)]

/-- A copy out from where the last one has ended. -/
theorem Client.copyout_append {n : Nat} (data size : Nat) (hat : s.At n)
    (hfit : n + size ≤ copyBufsiz) (hacc : size ≤ w.accessible) (hvp : set.virtualPager ≠ t) :
    (s.copyout set t w data size true).At (n + size) ∧
      (s.copyout set t w data size true).memory =
        blit s.memory data size (fun i => s.buffers (pagerBuffer t + n + i)) ∧
      ∀ i < copyBufsiz, (s.copyout set t w data size true).buffers (pagerBuffer t + i) =
        s.buffers (pagerBuffer t + i) := by
  have hrange : copyRange (w.seenBy s) size true = (n + size, n) := copyRange_append hat hfit
  have hcopied := copied_eq hrange (show size ≤ (w.seenBy s).accessible from hacc)
  refine ⟨copyDataAfter_eq hrange hacc, ?_, fun i hi => ?_⟩
  · unfold Client.copyout
    simp only [runCall, sosCopyout, hcopied, hrange, bytesAt, List.length_map, List.length_range]
    refine blit_congr fun i hi => ?_
    simp [List.getD_eq_getElem?_getD, hi]
  · unfold Client.copyout
    simp only [runCall, sosCopyout]
    split
    · exact fileCalls_slice hvp _ _ hi
    · rfl

/-! ## The two sides of `stat` -/

/-- The formula of the source. -/
theorem wordAlign_eq {a : Nat} (h : 0 < a) : wordAlign a = a - 1 + (4 - (a - 1) % 4) := by
  unfold wordAlign
  omega

/-- The formula of the library. -/
theorem wordAlign_padding (n : Nat) : wordAlign n = if 0 < n % 4 then n + (4 - n % 4) else n := by
  unfold wordAlign
  split <;> omega

/-- A string of `len` bytes at `path`. -/
structure Client.HasPath (s : Client) (path len : Nat) : Prop where
  bytes : ∀ i < len, s.memory (path + i) ≠ 0
  terminated : s.memory (path + len) = 0

theorem Client.HasPath.cStrlen_eq {path len : Nat} (h : s.HasPath path len)
    (hlen : len < copyBufsiz) : cStrlen s.memory path = len := by
  unfold copyBufsiz at hlen
  exact strlen_eq h.bytes h.terminated (by unfold wordLimit; omega)

/-- What a record is copied over does not matter. -/
theorem blit_over {f g g' : Nat → UInt8} {a m n : Nat} (h : m ≤ n) :
    blit (blit f a m g) a n g' = blit f a n g' := by
  funext x
  unfold blit
  split
  · rfl
  · exact if_neg (by omega)

section Stat

variable {ws : StatWorlds} {path buf len : Nat}

/-- The path is in the caller's buffer. -/
theorem Client.statPath_spec (set : Setting) (t : Pid) (hpath : s.HasPath path len)
    (hlen : len < copyBufsiz) (hacc : len < ws.path.accessible) :
    (s.statPath set t ws path).At (len + 1) ∧ (s.statPath set t ws path).memory = s.memory ∧
      cStrlen (s.statPath set t ws path).buffers (pagerBuffer t) = len := by
  have hasked : s.statPath set t ws path = s.copyin set t ws.path path (len + 1) false := by
    unfold Client.statPath
    rw [hpath.cStrlen_eq hlen]
  obtain ⟨hat, hmem, hbytes⟩ : (s.copyin set t ws.path path (len + 1) false).At (len + 1) ∧ _ ∧ _ :=
    Client.copyin_fresh hlen hacc
  have hlimit : len < wordLimit := hlen.trans (by decide)
  rw [hasked]
  refine ⟨hat, hmem, strlen_eq (fun i hi => ?_) ?_ hlimit⟩
  · rw [hbytes i (by omega)]
    exact hpath.bytes i hi
  · rw [hbytes len (by omega)]
    exact hpath.terminated

/-- Where the kernel puts the record. -/
theorem statAddr_of_cStrlen {b : Nat → UInt8} (hlen : cStrlen b (pagerBuffer t) = len)
    (hbase : set.base % 4 = 0) : statAddr set t b = pagerBuffer t + wordAlign (len + 1) := by
  unfold statAddr
  rw [hlen, wordAlign_eq (by omega), wordAlign_padding]
  unfold pagerBuffer copyBufsiz
  split <;> omega

/-- What the kernel has found for the path; nothing if it has stopped. -/
def Client.statResult (s : Client) (t : Pid) (w : World) : Except Int (Nat → UInt8) :=
  (w.statOf (stringAt s.buffers (pagerBuffer t))).getD (.error vfsError)

/-- After the padding the offset is where the record is. -/
theorem Client.statCall_spec (buf : Nat) (hat : s.At (len + 1))
    (hlen : cStrlen s.buffers (pagerBuffer t) = len)
    (hbase : set.base % 4 = 0) (hfits : wordAlign (len + 1) + statSize ≤ copyBufsiz)
    (hacc : statSize ≤ ws.padding.accessible) (hvp : set.virtualPager ≠ t) :
    (s.statCall set t ws len buf).2.At (wordAlign (len + 1)) ∧
      (∃ m ≤ statSize, ∃ g, (s.statCall set t ws len buf).2.memory = blit s.memory buf m g) ∧
      ∀ st, s.statResult t ws.stat = .ok st →
        (s.statCall set t ws len buf).1 = some [vfsOk] ∧
        ∀ i < statSize, (s.statCall set t ws len buf).2.buffers
          (pagerBuffer t + wordAlign (len + 1) + i) = st i := by
  have hanswer : ∀ st, s.statResult t ws.stat = .ok st →
      (runCall (ws.stat.seenBy s) set t s.buffers .stat).reply = some [vfsOk] ∧
        (runCall (ws.stat.seenBy s) set t s.buffers .stat).buffers =
          blit s.buffers (pagerBuffer t + wordAlign (len + 1)) statSize st := by
    intro st hst
    have hres : (ws.stat.seenBy s).statOf (stringAt s.buffers (pagerBuffer t)) = some (.ok st) := by
      change ws.stat.statOf _ = _
      unfold Client.statResult at hst
      cases hfound : ws.stat.statOf (stringAt s.buffers (pagerBuffer t)) with
      | none => simp [hfound] at hst
      | some r => simpa [hfound] using hst
    simp only [runCall, sosStat, hres, statAddr_of_cStrlen hlen hbase, and_self]
  unfold statSize at hfits hacc ⊢
  unfold Client.statCall
  have halign := wordAlign_padding (len + 1)
  by_cases hpad : 0 < (len + 1) % 4
  · simp only [if_pos hpad] at halign ⊢
    have hat₁ : Client.At { s with
        buffers := (runCall (ws.stat.seenBy s) set t s.buffers .stat).buffers } (len + 1) := hat
    obtain ⟨hatp, hmem, hslice⟩ := Client.copyout_append buf (4 - (len + 1) % 4)
      (w := ws.padding) hat₁ (by omega) (by omega) hvp
    refine ⟨by rw [halign]; exact hatp, ⟨_, by omega, _, hmem⟩, fun st hst => ?_⟩
    obtain ⟨hreply, hbuf⟩ := hanswer st hst
    refine ⟨hreply, fun i hi => ?_⟩
    rw [Nat.add_assoc, hslice _ (by omega), hbuf, ← Nat.add_assoc]
    exact blit_apply hi
  · simp only [if_neg hpad] at halign ⊢
    refine ⟨by rw [halign]; exact hat, ⟨0, by omega, fun _ => 0, by simp⟩, fun st hst => ?_⟩
    obtain ⟨hreply, hbuf⟩ := hanswer st hst
    refine ⟨hreply, fun i hi => ?_⟩
    rw [hbuf]
    exact blit_apply hi

/-- **The two sides of `stat` agree.** For a path of any length behind which the record fits, the
final copy of the library begins where the kernel has put the record, and the caller's buffer then
holds the record, and nothing else of its memory has changed. -/
theorem stat_sides_agree (set : Setting) (t : Pid) (ws : StatWorlds) (buf : Nat)
    (hpath : s.HasPath path len) (hbase : set.base % 4 = 0)
    (hfits : wordAlign (len + 1) + statSize ≤ copyBufsiz) (hvp : set.virtualPager ≠ t)
    (haccp : len < ws.path.accessible) (hacc : statSize ≤ ws.padding.accessible)
    (haccr : statSize ≤ ws.record.accessible) :
    let asked := s.statPath set t ws path
    let padded := (asked.statCall set t ws len buf).2
    statAddr set t asked.buffers =
        pagerBuffer t + (copyRange (ws.record.seenBy padded) statSize true).2 ∧
      ∀ st, asked.statResult t ws.stat = .ok st →
        (s.stat set t ws path buf).1 = some [vfsOk] ∧
        (s.stat set t ws path buf).2.memory = blit s.memory buf statSize st := by
  intro asked padded
  have hlen : len < copyBufsiz := by
    unfold wordAlign statSize at hfits
    omega
  obtain ⟨hat, hmem, hstr⟩ := Client.statPath_spec set t hpath hlen haccp
  obtain ⟨hatp, ⟨m, hm, g, hmemp⟩, hrecord⟩ :=
    Client.statCall_spec buf hat hstr hbase hfits hacc hvp
  obtain ⟨-, hmemr, -⟩ := Client.copyout_append buf statSize hatp hfits haccr hvp
  refine ⟨?_, fun st hst => ?_⟩
  · have hdata : (ws.record.seenBy padded).copyData =
        wordAlign (len + 1) + wordAlign (len + 1) * 65536 :=
      hatp
    rw [statAddr_of_cStrlen hstr hbase, copyRange_append hdata hfits]
  · obtain ⟨hreply, hbytes⟩ := hrecord st hst
    have hstat : s.stat set t ws path buf = ((asked.statCall set t ws len buf).1,
        padded.copyout set t ws.record buf statSize true) := by
      unfold Client.stat
      rw [hpath.cStrlen_eq hlen]
    rw [hstat]
    refine ⟨hreply, hmemr.trans ?_⟩
    rw [hmemp, blit_over hm, hmem]
    exact blit_congr hbytes

end Stat

/-- The path `ab` in the memory of thread 2, and what the file server knows of the file. -/
def shortPath : Client :=
  { memory := fun a => if a = 0x1000 then 97 else if a = 0x1001 then 98 else 0
    buffers := fun _ => 0
    copyData := 0 }

def shortPathWorld : World :=
  { emptyWorld with lookupStat := fun _ => .ok fun i => UInt8.ofNat (i + 1), accessible := 100 }

theorem stat_sides_agree_shortPath :
    let set : Setting := { base := 0, virtualPager := 1, swaps := true, child := none }
    let ws : StatWorlds := ⟨shortPathWorld, shortPathWorld, shortPathWorld, shortPathWorld⟩
    shortPath.HasPath 0x1000 2 ∧
      (shortPath.stat set 2 ws 0x1000 0x2000).2.memory =
        blit shortPath.memory 0x2000 statSize fun i => UInt8.ofNat (i + 1) := by
  intro set ws
  have hpath : shortPath.HasPath 0x1000 2 := ⟨by decide, rfl⟩
  have hagree := stat_sides_agree set 2 ws 0x2000 hpath rfl (by decide)
    (by decide) (by decide) (by decide) (by decide)
  exact ⟨hpath, (hagree.2 _ rfl).2⟩

end Sos
