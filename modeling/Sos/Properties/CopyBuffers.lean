import Sos.CopyBuffers

/-!
# Copy buffers are not isolated

A system call is to change no copy buffer but that of its caller, and what it returns is not to
depend on another's. The pager uses its own buffer when it works for others. A path that does not
end in the buffer does no such harm: before anything is made of it, it is found to be too long.
-/

namespace Sos

variable {w : World} {set : Setting} {t : Pid} {call : SysCall} {b b' c : Nat → UInt8}
variable {f : (Nat → UInt8) → Nat → UInt8} {g : Nat → UInt8}

/-! ## The property and its condition -/

/-- An address of the buffer of `t`. -/
def InSlice (t : Pid) (a : Nat) : Prop := pagerBuffer t ≤ a ∧ a < pagerBuffer t + copyBufsiz

/-- The buffer of `t` has the contents `c`. -/
def SliceIs (t : Pid) (c b : Nat → UInt8) : Prop := ∀ i < copyBufsiz, b (pagerBuffer t + i) = c i

/-- With the contents `c` of the caller's buffer, and whatever the other buffers hold, a call
changes no byte of them, and it returns the same for any two contents of theirs. -/
def Isolated (set : Setting) (t : Pid) (call : SysCall) (c : Nat → UInt8) : Prop :=
  ∀ w b, SliceIs t c b →
    (∀ a < buffersEnd, ¬ InSlice t a → (runCall w set t b call).buffers a = b a) ∧
    ∀ b', SliceIs t c b' → (∀ a, buffersEnd ≤ a → b' a = b a) →
      (runCall w set t b' call).reply = (runCall w set t b call).reply ∧
      (runCall w set t b' call).delivered = (runCall w set t b call).delivered ∧
      ∀ a, InSlice t a → (runCall w set t b' call).buffers a = (runCall w set t b call).buffers a

/-- The length of the path in the buffer, if it ends there. -/
def pathLength (c : Nat → UInt8) : Nat := strlen c copyBufsiz 0

/-- How far from the beginning of the buffer `SOS_STAT` has the `stat_t` put. -/
def statOffset (base n : Nat) : Nat := wordAlign (base + n + 1) - base

/-- No file call of the pager is needed for a copy, and there is no pid for a new process, unless
the buffers they would use are the caller's. -/
def Contained (set : Setting) (t : Pid) : SysCall → Prop
  | .copyin .. | .copyout .. => set.swaps = true → set.virtualPager = t
  | .processCreate .. => ∀ child ∈ set.child, set.virtualPager = t ∧ child = t
  | _ => True

/-! ## Strings in a buffer -/

/-- Looking at fewer bytes. -/
theorem strlen_min (b : Nat → UInt8) : ∀ n m a, n ≤ m → strlen b n a = min (strlen b m a) n
  | 0, m, a, _ => by rw [strlen, Nat.min_zero]
  | n + 1, m + 1, a, h => by
    rw [strlen, strlen]
    split
    · exact (Nat.zero_min _).symm
    · rw [strlen_min b n m (a + 1) (by omega), Nat.add_min_add_right]

theorem strlen_congr {b c : Nat → UInt8} : ∀ n a a', (∀ i < n, b (a + i) = c (a' + i)) →
    strlen b n a = strlen c n a'
  | 0, _, _, _ => rfl
  | n + 1, a, a', h => by
    have hhead : b a = c a' := h 0 (by omega)
    have htail : strlen b n (a + 1) = strlen c n (a' + 1) :=
      strlen_congr n (a + 1) (a' + 1) fun i hi => by
        rw [Nat.add_assoc, Nat.add_assoc, Nat.add_comm 1 i]
        exact h (i + 1) (by omega)
    rw [strlen, strlen, hhead, htail]

theorem strlen_eq {b : Nat → UInt8} : ∀ {m n a : Nat}, (∀ i < m, b (a + i) ≠ 0) → b (a + m) = 0 →
    m < n → strlen b n a = m
  | 0, n + 1, a, _, hz, _ => by rw [strlen, if_pos (by simpa using hz)]
  | m + 1, n + 1, a, hne, hz, hlt => by
    have hhead : b a ≠ 0 := hne 0 (by omega)
    have htail : strlen b n (a + 1) = m := by
      refine strlen_eq (fun i hi => ?_) ?_ (by omega)
      · rw [show a + 1 + i = a + (i + 1) by omega]
        exact hne (i + 1) (by omega)
      · rw [show a + 1 + m = a + (m + 1) by omega]
        exact hz
    rw [strlen, if_neg hhead, htail]

theorem SliceIs.strlen_eq (h : SliceIs t c b) :
    strlen b copyBufsiz (pagerBuffer t) = pathLength c :=
  strlen_congr copyBufsiz _ 0 fun i hi => by rw [Nat.zero_add]; exact h i hi

theorem SliceIs.min_cStrlen (h : SliceIs t c b) :
    min (cStrlen b (pagerBuffer t)) copyBufsiz = pathLength c := by
  rw [← h.strlen_eq, cStrlen, strlen_min b copyBufsiz wordLimit _ (by decide)]

theorem SliceIs.cStrlen_eq (h : SliceIs t c b) (hend : pathLength c < copyBufsiz) :
    cStrlen b (pagerBuffer t) = pathLength c := by
  have := h.min_cStrlen
  omega

theorem SliceIs.bytesAt_eq (h : SliceIs t c b) {o n : Nat} (hn : o + n ≤ copyBufsiz) :
    bytesAt b (pagerBuffer t + o) n = bytesAt c o n := by
  refine List.map_congr_left fun i hi => ?_
  rw [Nat.add_assoc]
  exact h (o + i) (by have := List.mem_range.mp hi; omega)

theorem SliceIs.stringAt_eq (h : SliceIs t c b) (hend : pathLength c < copyBufsiz) :
    stringAt b (pagerBuffer t) = bytesAt c 0 (pathLength c) := by
  have hbytes := h.bytesAt_eq (o := 0) (n := pathLength c) (by omega)
  rw [Nat.add_zero] at hbytes
  rw [stringAt, h.cStrlen_eq hend, hbytes]

/-- Whether the path is too long for a message can be seen in the buffer. -/
theorem SliceIs.long_iff (h : SliceIs t c b) :
    nfsBufsiz < (stringAt b (pagerBuffer t)).length ↔ nfsBufsiz < pathLength c := by
  have hmin := h.min_cStrlen
  rw [stringAt, bytesAt, List.length_map, List.length_range]
  unfold nfsBufsiz copyBufsiz at *
  omega

/-! ## Calls that keep to the buffer of the caller -/

/-- What `f` makes of the buffers is to put `g` into that of `t`, if that held `c`. -/
def Rewrites (t : Pid) (c : Nat → UInt8) (f : (Nat → UInt8) → Nat → UInt8) (g : Nat → UInt8) :
    Prop :=
  ∀ b, SliceIs t c b → f b = blit b (pagerBuffer t) copyBufsiz g

theorem rewrites_id : Rewrites t c id c := by
  intro b hb
  funext a
  unfold blit
  by_cases hin : pagerBuffer t ≤ a ∧ a < pagerBuffer t + copyBufsiz
  · rw [if_pos hin, ← hb (a - pagerBuffer t) (by omega), Nat.add_sub_cancel' hin.1, id]
  · rw [if_neg hin, id]

/-- Then a piece of the buffer is written. -/
theorem Rewrites.piece (h : Rewrites t c f g)
    {o n : Nat} (hn : o + n ≤ copyBufsiz) (s : Nat → UInt8) :
    Rewrites t c (fun b => blit (f b) (pagerBuffer t + o) n s) (blit g o n s) := by
  intro b hb
  show blit (f b) (pagerBuffer t + o) n s = _
  rw [h b hb]
  funext a
  unfold blit
  by_cases hin : pagerBuffer t ≤ a ∧ a < pagerBuffer t + copyBufsiz
  · rw [if_pos hin, if_pos hin]
    by_cases ho : pagerBuffer t + o ≤ a ∧ a < pagerBuffer t + o + n
    · rw [if_pos ho, if_pos (by omega), Nat.sub_add_eq]
    · rw [if_neg ho, if_neg (by omega)]
  · rw [if_neg hin, if_neg hin, if_neg (by omega)]

/-- A piece at the beginning. -/
theorem Rewrites.start (h : Rewrites t c f g) {n : Nat} (hn : n ≤ copyBufsiz) (s : Nat → UInt8) :
    Rewrites t c (fun b => blit (f b) (pagerBuffer t) n s) (blit g 0 n s) := by
  have hp := h.piece (o := 0) (n := n) (by omega) s
  rwa [Nat.add_zero] at hp

/-- What a call returns depends on the contents of the buffer alone, and only the buffer is
written. -/
def Local (w : World) (set : Setting) (t : Pid) (call : SysCall) (c : Nat → UInt8) : Prop :=
  ∃ r d f g, Rewrites t c f g ∧ ∀ b, SliceIs t c b → runCall w set t b call = ⟨r, d, f b⟩

theorem isolated_of_local (h : ∀ w, Local w set t call c) : Isolated set t call c := by
  intro w b hb
  obtain ⟨r, d, f, g, hf, hrun⟩ := h w
  rw [hrun b hb]
  refine ⟨fun a _ ha => ?_, fun b' hb' _ => ?_⟩
  · rw [hf b hb]
    exact if_neg ha
  · rw [hrun b' hb']
    refine ⟨rfl, rfl, fun a ha => ?_⟩
    rw [hf b hb, hf b' hb']
    exact (if_pos ha).trans (if_pos ha).symm

theorem local_of_reply {r : Option (List Int)} {d : List UInt8}
    (h : ∀ b, SliceIs t c b → runCall w set t b call = ⟨r, d, b⟩) : Local w set t call c :=
  ⟨r, d, id, c, rewrites_id, h⟩

section Calls

variable (w : World) (set : Setting) (t : Pid) (c : Nat → UInt8)

theorem kernelPrint_local : Local w set t .kernelPrint c := by
  have hn : copyBufsiz - 1 + 1 ≤ copyBufsiz := by unfold copyBufsiz; omega
  exact ⟨none, [], _, _, rewrites_id.piece hn fun _ => 0, fun _ _ => rfl⟩

/-- Whether the path is too long can be seen from its first bytes. -/
theorem open_local (mode readers writers : Nat) : Local w set t (.open mode readers writers) c := by
  refine local_of_reply (r := if !w.canOpenMore then some [vfsNomore]
      else if maxFileName ≤ pathLength c then some [vfsPathinv]
      else some [w.openFile (bytesAt c 0 (pathLength c)) mode readers writers]) (d := [])
    fun b hb => ?_
  have hmin := hb.min_cStrlen
  have hsizes : maxFileName ≤ copyBufsiz := by decide
  show sosOpen w t b mode readers writers = _
  unfold sosOpen
  by_cases hlong : maxFileName ≤ pathLength c
  · rw [if_pos hlong, if_pos (show maxFileName ≤ cStrlen b (pagerBuffer t) by omega)]
  · rw [if_neg hlong, if_neg (show ¬ maxFileName ≤ cStrlen b (pagerBuffer t) by omega),
      hb.stringAt_eq (by omega)]

theorem read_local (fd : Int) (nbyte : Nat) : Local w set t (.read fd nbyte) c := by
  have hsizes : ioMaxBuffer ≤ copyBufsiz := by decide
  cases hread : w.readFile fd (min nbyte ioMaxBuffer) with
  | error status =>
    refine local_of_reply (r := some [status]) (d := []) fun b _ => ?_
    simp only [runCall, sosRead, hread]
  | ok data =>
    have hn : min data.length (min nbyte ioMaxBuffer) ≤ copyBufsiz := by omega
    refine ⟨some [if min data.length (min nbyte ioMaxBuffer) = 0 then vfsEof else
      (min data.length (min nbyte ioMaxBuffer) : Nat)], [], _, _,
      rewrites_id.start hn fun i => data.getD i 0, fun b _ => ?_⟩
    simp only [runCall, sosRead, hread, id]

theorem write_local (fd : Int) (nbyte : Nat) : Local w set t (.write fd nbyte) c := by
  have hsizes : ioMaxBuffer ≤ copyBufsiz := by decide
  refine local_of_reply (r := some (w.writeFile fd (bytesAt c 0 (min nbyte ioMaxBuffer))))
    (d := []) fun b hb => ?_
  have hbytes := hb.bytesAt_eq (o := 0) (n := min nbyte ioMaxBuffer) (by omega)
  rw [Nat.add_zero] at hbytes
  simp only [runCall, sosWriteCall, hbytes]

theorem getdirent_local (pos : Int) (nbyte : Nat) : Local w set t (.getdirent pos nbyte) c := by
  have hsizes : ioMaxBuffer + 1 ≤ copyBufsiz := by decide
  by_cases hbad : pos < 0 ∨ nbyte = 0
  · refine local_of_reply (r := some [vfsError]) (d := []) fun b _ => ?_
    simp only [runCall, sosGetdirent, if_pos hbad]
  · cases hname : w.dirent pos with
    | error status =>
      refine local_of_reply (r := some [status]) (d := []) fun b _ => ?_
      simp only [runCall, sosGetdirent, if_neg hbad, hname]
    | ok name =>
      by_cases hfits : name.val.length < nbyte
      · have hn : name.val.length + 1 ≤ copyBufsiz := by have := name.property; omega
        refine ⟨some [(name.val.length : Int)], [], _, _,
          rewrites_id.start hn fun i => name.val.getD i 0, fun b _ => ?_⟩
        simp only [runCall, sosGetdirent, if_neg hbad, hname, if_pos hfits, id]
      · refine local_of_reply (r := some [vfsNomem]) (d := []) fun b _ => ?_
        simp only [runCall, sosGetdirent, if_neg hbad, hname, if_neg hfits]

theorem moremem_local (nb : Nat) : Local w set t (.moremem nb) c :=
  ⟨some [1], [], _, _, rewrites_id.start (by decide) _, fun _ _ => rfl⟩

theorem processStatus_local (n : Nat) : Local w set t (.processStatus n) c := by
  have hn : min w.statuses.length (min n (copyBufsiz / processSize)) * processSize ≤
      copyBufsiz := by
    unfold processSize copyBufsiz
    omega
  exact ⟨some [(min w.statuses.length (min n (copyBufsiz / processSize)) : Nat)], [], _, _,
    rewrites_id.start hn _, fun _ _ => rfl⟩

theorem plain_local (call : PlainCall) : Local w set t (.plain call) c :=
  local_of_reply (r := w.answer call) (d := []) fun _ _ => rfl

end Calls

theorem statAddr_eq (hb : SliceIs t c b) (hend : pathLength c < copyBufsiz) :
    statAddr set t b = pagerBuffer t + statOffset set.base (pathLength c) := by
  unfold statAddr statOffset wordAlign
  rw [hb.cStrlen_eq hend]
  unfold pagerBuffer copyBufsiz
  omega

/-- A path that is not too long ends in the buffer, and there is room for the record behind it. -/
theorem stat_local (w : World) : Local w set t .stat c := by
  by_cases hlong : nfsBufsiz < pathLength c
  · refine local_of_reply (r := none) (d := []) fun b hb => ?_
    simp only [runCall, sosStat, World.statOf, if_pos (hb.long_iff.mpr hlong)]
  have hend : pathLength c < copyBufsiz := by unfold nfsBufsiz at hlong; unfold copyBufsiz; omega
  have hpath : ∀ b, SliceIs t c b → w.statOf (stringAt b (pagerBuffer t)) =
      some ((w.vnodeStat (bytesAt c 0 (pathLength c))).getD
        (w.lookupStat (bytesAt c 0 (pathLength c)))) := fun b hb => by
    rw [World.statOf, if_neg (mt hb.long_iff.mp hlong), hb.stringAt_eq hend]
  cases hst : (w.vnodeStat (bytesAt c 0 (pathLength c))).getD
      (w.lookupStat (bytesAt c 0 (pathLength c))) with
  | error status =>
    refine local_of_reply (r := some [status]) (d := []) fun b hb => ?_
    simp only [runCall, sosStat, hpath b hb, hst]
  | ok st =>
    have hfits : statOffset set.base (pathLength c) + statSize ≤ copyBufsiz := by
      unfold nfsBufsiz at hlong
      unfold statOffset wordAlign statSize copyBufsiz
      omega
    refine ⟨some [vfsOk], [], _, _, rewrites_id.piece hfits st, fun b hb => ?_⟩
    simp only [runCall, sosStat, hpath b hb, hst, statAddr_eq hb hend, id]

theorem remove_local (w : World) : Local w set t .remove c := by
  by_cases hlong : nfsBufsiz < pathLength c
  · refine local_of_reply (r := none) (d := []) fun b hb => ?_
    simp only [runCall, sosRemove, if_pos (hb.long_iff.mpr hlong)]
  · have hend : pathLength c < copyBufsiz := by unfold nfsBufsiz at hlong; unfold copyBufsiz; omega
    refine local_of_reply (r := some [(w.vnodeRemove (bytesAt c 0 (pathLength c))).getD
      (w.nfsRemove (bytesAt c 0 (pathLength c)))]) (d := []) fun b hb => ?_
    simp only [runCall, sosRemove]
    rw [if_neg (mt hb.long_iff.mp hlong), hb.stringAt_eq hend]

/-! ### Copies -/

theorem copied_fits (w : World) (size : Nat) (append : Bool) :
    copied w size append = 0 ∨
      (copyRange w size append).2 + copied w size append ≤ copyBufsiz := by
  have hle : (copyRange w size append).1 ≤ copyBufsiz := by
    unfold copyRange
    split <;> exact Nat.min_le_left ..
  unfold copied
  omega

theorem Rewrites.copy (h : Rewrites t c f g)
    (w : World) (size : Nat) (append : Bool) (s : Nat → UInt8) :
    ∃ g', Rewrites t c (fun b => blit (f b) (pagerBuffer t + (copyRange w size append).2)
      (copied w size append) s) g' := by
  rcases copied_fits w size append with h0 | hn
  · rw [h0]
    simp only [blit_zero]
    exact ⟨g, h⟩
  · exact ⟨_, h.piece hn s⟩

/-- The pager's own calls, when it is the caller. -/
theorem rewrites_fileCalls (hvp : set.virtualPager = t) (w : World) (path : Path) :
    ∃ g, Rewrites t c (fun b => fileCalls w set b path) g := by
  subst hvp
  exact ⟨_, (rewrites_id.start (by decide) _).start (Nat.min_le_right ..) _⟩

theorem rewrites_swaps (h : set.swaps = true → set.virtualPager = t) (w : World) :
    ∃ g, Rewrites t c (fun b => if set.swaps then fileCalls w set b swapfileFn else b) g := by
  cases hs : set.swaps with
  | false => exact ⟨c, rewrites_id⟩
  | true => exact rewrites_fileCalls (h hs) w swapfileFn

theorem copyin_local (h : set.swaps = true → set.virtualPager = t) (w : World) (src size : Nat)
    (append : Bool) : Local w set t (.copyin src size append) c := by
  obtain ⟨g, hg⟩ := rewrites_swaps (c := c) h w
  obtain ⟨g', hg'⟩ := hg.copy w size append fun i => w.userByte (src + i)
  exact ⟨copyReply w size append, [], _, g', hg', fun _ _ => rfl⟩

theorem copyout_local (h : set.swaps = true → set.virtualPager = t) (w : World) (dst size : Nat)
    (append : Bool) : Local w set t (.copyout dst size append) c := by
  obtain ⟨g, hg⟩ := rewrites_swaps (c := c) h w
  refine ⟨copyReply w size append,
    bytesAt c (copyRange w size append).2 (copied w size append), _, g, hg, fun b hb => ?_⟩
  have hbytes : bytesAt b (pagerBuffer t + (copyRange w size append).2) (copied w size append) =
      bytesAt c (copyRange w size append).2 (copied w size append) := by
    rcases copied_fits w size append with h0 | hn
    · rw [h0]
      rfl
    · exact hb.bytesAt_eq hn
  simp only [runCall, sosCopyout, hbytes]

theorem processCreate_local (h : ∀ child ∈ set.child, set.virtualPager = t ∧ child = t) (w : World)
    (fdout fderr fdin : Int) : Local w set t (.processCreate fdout fderr fdin) c := by
  cases hchild : set.child with
  | none =>
    refine local_of_reply (r := some [-1]) (d := []) fun b _ => ?_
    simp only [runCall, sosProcessCreate, hchild]
  | some child =>
    obtain ⟨hvp, rfl⟩ := h child hchild
    have hpath : ∀ b, SliceIs child c b →
        bytesAt b (pagerBuffer child) maxFileName = bytesAt c 0 maxFileName := by
      intro b hb
      have hbytes := hb.bytesAt_eq (o := 0) (n := maxFileName) (by decide)
      rwa [Nat.add_zero] at hbytes
    let path := (bytesAt c 0 maxFileName).takeWhile (· ≠ 0)
    obtain ⟨g, hg⟩ := rewrites_fileCalls (c := c) hvp w path
    by_cases hok : 0 ≤ w.loads path fdout fderr fdin
    · have hn : maxFileName ≤ copyBufsiz := by decide
      refine ⟨some [w.loads path fdout fderr fdin], [], _, _,
        hg.start hn fun i => w.stdout.getD i 0, fun b hb => ?_⟩
      simp only [runCall, sosProcessCreate, hchild, hpath b hb]
      rw [if_pos hok]
    · refine ⟨some [w.loads path fdout fderr fdin], [], _, g, hg, fun b hb => ?_⟩
      simp only [runCall, sosProcessCreate, hchild, hpath b hb]
      rw [if_neg hok]

theorem isolated_of_contained (h : Contained set t call) : Isolated set t call c := by
  cases call with
  | stat => exact isolated_of_local fun w => stat_local w
  | remove => exact isolated_of_local fun w => remove_local w
  | kernelPrint => exact isolated_of_local fun w => kernelPrint_local w set t c
  | «open» mode readers writers => exact isolated_of_local fun w => open_local w set t c _ _ _
  | read fd nbyte => exact isolated_of_local fun w => read_local w set t c fd nbyte
  | write fd nbyte => exact isolated_of_local fun w => write_local w set t c fd nbyte
  | getdirent pos nbyte => exact isolated_of_local fun w => getdirent_local w set t c pos nbyte
  | copyin src size append => exact isolated_of_local fun w => copyin_local h w src size append
  | copyout dst size append => exact isolated_of_local fun w => copyout_local h w dst size append
  | moremem nb => exact isolated_of_local fun w => moremem_local w set t c nb
  | processStatus n => exact isolated_of_local fun w => processStatus_local w set t c n
  | processCreate fdout fderr fdin =>
    exact isolated_of_local fun w => processCreate_local h w fdout fderr fdin
  | plain call => exact isolated_of_local fun w => plain_local w set t c call

/-! ## Where it fails -/

/-- `c` in the buffer of `t`, and `rest` in all others. -/
def around (t : Pid) (c : Nat → UInt8) (rest : Nat → UInt8) : Nat → UInt8 :=
  blit rest (pagerBuffer t) copyBufsiz c

theorem sliceIs_around (rest : Nat → UInt8) : SliceIs t c (around t c rest) :=
  fun _ hi => blit_apply hi

theorem around_of_not_inSlice {rest : Nat → UInt8} {a : Nat} (h : ¬ InSlice t a) :
    around t c rest a = rest a := if_neg h

theorem not_inSlice_of_ne {t' : Pid} (h : t' ≠ t) : ¬ InSlice t (pagerBuffer t') := by
  intro hin
  have hval : t'.val ≠ t.val := fun he => h (Fin.ext he)
  unfold InSlice pagerBuffer copyBufsiz at hin
  omega

theorem pagerBuffer_lt (t : Pid) : pagerBuffer t < buffersEnd := by
  unfold pagerBuffer buffersEnd copyBufsiz
  omega

/-- A rest of the system that finds nothing. -/
def emptyWorld : World where
  canOpenMore := true
  openFile := fun _ _ _ _ => 0
  readFile := fun _ _ => .error 0
  writeFile := fun _ _ => [0]
  dirent := fun _ => .error 0
  vnodeStat := fun _ => none
  lookupStat := fun _ => .error 0
  vnodeRemove := fun _ => none
  nfsRemove := fun _ => 0
  copyData := 0
  userByte := fun _ => 0
  accessible := 0
  heapTop := 0
  statuses := []
  loads := fun _ _ _ _ => 0
  stdout := []
  fileData := fun _ => 0
  fileBytes := 0
  answer := fun _ => none

theorem fileCalls_start {path : Path} {w : World} (hw : w.fileBytes = 0) :
    fileCalls w set b path (pagerBuffer set.virtualPager) = path.getD 0 0 := by
  unfold fileCalls
  rw [hw, Nat.zero_min, blit_zero]
  have hfirst := blit_apply (f := b) (g := fun i => path.getD i 0)
    (a := pagerBuffer set.virtualPager) (n := maxFileName) (i := 0) (by decide)
  rwa [Nat.add_zero] at hfirst

/-- The path of the swap file comes into the pager's buffer. -/
theorem copy_overwrites (hs : set.swaps = true) (hvp : set.virtualPager ≠ t)
    (hcall : (∃ src size append, call = .copyin src size append) ∨
      ∃ dst size append, call = .copyout dst size append) : ¬ Isolated set t call c := by
  intro h
  have hout := not_inSlice_of_ne hvp
  have hkeep := (h emptyWorld (around t c fun _ => 255) (sliceIs_around _)).1 _
    (pagerBuffer_lt _) hout
  have hcopied : ∀ size append, copied emptyWorld size append = 0 := fun _ _ => Nat.min_zero _
  have hwritten : (runCall emptyWorld set t (around t c fun _ => 255) call).buffers
      (pagerBuffer set.virtualPager) = 46 := by
    rcases hcall with ⟨src, size, append, rfl⟩ | ⟨dst, size, append, rfl⟩
    · simp only [runCall, sosCopyin, hs, hcopied, blit_zero, if_true]
      exact fileCalls_start rfl
    · simp only [runCall, sosCopyout, hs, if_true]
      exact fileCalls_start rfl
  rw [hwritten, around_of_not_inSlice hout] at hkeep
  exact absurd hkeep (by decide)

/-- The path of the executable comes into the pager's buffer. -/
theorem create_overwrites_pager {child : Pid} (hchild : set.child = some child)
    (hvp : set.virtualPager ≠ t) (fdout fderr fdin : Int) :
    ¬ Isolated set t (.processCreate fdout fderr fdin) c := by
  intro h
  let w : World := { emptyWorld with loads := fun _ _ _ _ => -1 }
  let path := (bytesAt c 0 maxFileName).takeWhile (· ≠ 0)
  let b := around t c fun _ => path.getD 0 0 + 1
  have hout := not_inSlice_of_ne hvp
  have hb : SliceIs t c b := sliceIs_around _
  have hkeep := (h w b hb).1 _ (pagerBuffer_lt _) hout
  have hbytes := hb.bytesAt_eq (o := 0) (n := maxFileName) (by decide)
  rw [Nat.add_zero] at hbytes
  have hwritten : (runCall w set t b (.processCreate fdout fderr fdin)).buffers
      (pagerBuffer set.virtualPager) = path.getD 0 0 := by
    simp only [runCall, sosProcessCreate, hchild, hbytes]
    exact fileCalls_start rfl
  have hbefore : b (pagerBuffer set.virtualPager) = path.getD 0 0 + 1 := around_of_not_inSlice hout
  rw [hwritten, hbefore] at hkeep
  have hnat := congrArg UInt8.toNat hkeep
  rw [UInt8.toNat_add] at hnat
  have h1 : (1 : UInt8).toNat = 1 := rfl
  omega

/-- The path of the child's standard output comes into the child's buffer. -/
theorem create_overwrites_child {child : Pid} (hchild : set.child = some child) (hne : child ≠ t)
    (fdout fderr fdin : Int) : ¬ Isolated set t (.processCreate fdout fderr fdin) c := by
  intro h
  have hout := not_inSlice_of_ne hne
  have hkeep := (h emptyWorld (around t c fun _ => 255) (sliceIs_around _)).1 _
    (pagerBuffer_lt _) hout
  have hwritten : (runCall emptyWorld set t (around t c fun _ => 255)
      (.processCreate fdout fderr fdin)).buffers (pagerBuffer child) = 0 := by
    simp only [runCall, sosProcessCreate, hchild]
    exact if_pos ⟨Nat.le_refl _, by unfold maxFileName; omega⟩
  rw [hwritten, around_of_not_inSlice hout] at hkeep
  exact absurd hkeep (by decide)

theorem contained_of_isolated (h : Isolated set t call c) : Contained set t call := by
  cases call with
  | copyin src size append =>
    intro hs
    by_contra hvp
    exact copy_overwrites hs hvp (.inl ⟨src, size, append, rfl⟩) h
  | copyout dst size append =>
    intro hs
    by_contra hvp
    exact copy_overwrites hs hvp (.inr ⟨dst, size, append, rfl⟩) h
  | processCreate fdout fderr fdin =>
    intro child hchild
    refine ⟨?_, ?_⟩
    · by_contra hvp
      exact create_overwrites_pager hchild hvp fdout fderr fdin h
    · by_contra hne
      exact create_overwrites_child hchild hne fdout fderr fdin h
  | _ => trivial

/-! ## The property -/

/-- **Isolation of the copy buffers.** A call is isolated exactly if the pager need not make calls
of its own for it. -/
theorem copy_buffers_isolated_iff (set : Setting) (t : Pid) (c : Nat → UInt8) (call : SysCall) :
    Isolated set t call c ↔ Contained set t call :=
  ⟨contained_of_isolated, isolated_of_contained⟩

/-- Thread 2 has a program loaded, and its path comes into the buffer of the pager, thread 1. -/
theorem create_not_isolated :
    ¬ Isolated ⟨0x80100000, 1, false, some 3⟩ 2 (.processCreate 0 0 0)
      fun i => if i = 0 then 97 else 0 :=
  create_overwrites_pager rfl (by decide) 0 0 0

end Sos
