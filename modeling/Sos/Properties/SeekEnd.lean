import Sos.Properties.SequentialFile

/-!
# Seeking from the end

`vfs_lseek` takes the displacement of `SEEK_END` off the size, so that a seek by `-k` goes `k` bytes
beyond the end and not before it. The two are the same position just if `k` is 0, or half of what a
word can hold.
-/

namespace Sos.Vfs

open Hoare

variable {x : Site} {f : SeqFile} {fd : Int} {n k : Nat} {st : NfsStatus}

/-! ## Reading to the end -/

/-- Reads of at least one byte. -/
def AllReads (ops : List (FileOp × NfsStatus)) : Prop :=
  ∀ op ∈ ops, ∃ n st, 0 < n ∧ op = (.read n, st)

/-- The last call was told that the file is at its end. -/
def EndsAtEof (outs : List Outcome) : Prop := outs.getLast?.map Outcome.words = some [vfsEof]

namespace SeqFile

/-- **One read.** What it gives and what is then left are what was left before. -/
theorem perform_read_data (hlt : f.content.length < wordLimit) (n : Nat) (st : NfsStatus) :
    (f.perform st (.read n)).2.data ++ f.content.drop (f.perform st (.read n)).1.offset =
        f.content.drop f.offset ∧
      (f.perform st (.read n)).1.content = f.content ∧
      (f.perform st (.read n)).1.mode = f.mode ∧
      max (f.perform st (.read n)).1.offset f.content.length = max f.offset f.content.length := by
  unfold perform
  dsimp only
  generalize hc : min (min n ioMaxBuffer) (f.content.length - f.offset) = count
  split
  · exact ⟨rfl, rfl, rfl, rfl⟩
  split
  · exact ⟨rfl, rfl, rfl, rfl⟩
  split
  · exact ⟨rfl, rfl, rfl, rfl⟩
  · have hmod : (f.offset + count) % wordLimit = f.offset + count := Nat.mod_eq_of_lt (by omega)
    refine ⟨?_, rfl, rfl, ?_⟩
    · dsimp only
      rw [hmod, slice, ← List.drop_drop, List.take_append_drop]
    · dsimp only
      omega

/-- A read is told of the end only there, and the file is as it was. -/
theorem perform_read_eof (hn : 0 < n) (h : (f.perform st (.read n)).2.words = [vfsEof]) :
    f.content.length ≤ f.offset ∧ (f.perform st (.read n)).1 = f := by
  have hst : st.toVfs ≠ vfsEof := by cases st <;> decide
  have hmax : 0 < ioMaxBuffer := by decide
  unfold perform at h ⊢
  dsimp only at h ⊢
  split at h
  · exact absurd (List.cons.inj h).1 (by decide)
  split at h
  · exact absurd (List.cons.inj h).1 hst
  split at h
  case isTrue hread hok hcount =>
    rw [if_neg hread, if_neg hok, if_pos hcount]
    exact ⟨by omega, rfl⟩
  case isFalse hcount =>
    have hpos : ((min (min n ioMaxBuffer) (f.content.length - f.offset) : Nat) : Int) = -1 :=
      (List.cons.inj h).1
    omega

/-- A read that is served moves on, unless it is at the end. -/
theorem perform_read_moves (hlt : f.content.length < wordLimit) (hn : 0 < n)
    (hread : reads f.mode = true) :
    (f.perform .ok (.read n)).2.words = [vfsEof] ∨
      f.content.length - (f.perform .ok (.read n)).1.offset < f.content.length - f.offset := by
  have hmax : 0 < ioMaxBuffer := by decide
  unfold perform
  dsimp only
  rw [if_neg (by simp [hread]), if_neg (by simp)]
  generalize hc : min (min n ioMaxBuffer) (f.content.length - f.offset) = count
  split
  · exact .inl rfl
  · have hmod : (f.offset + count) % wordLimit = f.offset + count := Nat.mod_eq_of_lt (by omega)
    right
    dsimp only
    omega

/-- **Reading to the end.** The reads give all that follows the offset. -/
theorem outcomes_to_eof (hlt : f.content.length < wordLimit) {ops : List (FileOp × NfsStatus)}
    (hops : AllReads ops) (heof : EndsAtEof (f.outcomes ops)) :
    (f.outcomes ops).flatMap Outcome.data = f.content.drop f.offset ∧
      (f.after ops).content = f.content ∧ (f.after ops).mode = f.mode ∧
      (f.after ops).offset = max f.offset f.content.length := by
  induction ops generalizing f with
  | nil => nomatch heof
  | cons op ops ih =>
    obtain ⟨n, st, hn, rfl⟩ := hops _ List.mem_cons_self
    obtain ⟨hdata, hcontent, hmode, hoffset⟩ := perform_read_data hlt n st
    rw [outcomes, List.flatMap_cons]
    change _ ∧ (((f.perform st (.read n)).1.after ops).content = _ ∧
      ((f.perform st (.read n)).1.after ops).mode = _ ∧
      ((f.perform st (.read n)).1.after ops).offset = _)
    cases ops with
    | nil =>
      obtain ⟨hend, hsame⟩ := perform_read_eof hn (Option.some.inj heof)
      refine ⟨?_, hcontent, hmode, ?_⟩
      · rw [List.drop_eq_nil_of_le hend] at hdata ⊢
        rw [(List.append_eq_nil_iff.1 hdata).1]
        rfl
      · rw [hsame]
        exact (Nat.max_eq_left hend).symm
    | cons op' ops =>
      have hrest := ih (f := (f.perform st (.read n)).1) (hcontent ▸ hlt)
        (fun o ho => hops o (List.mem_cons_of_mem _ ho)) heof
      rw [hcontent] at hrest
      obtain ⟨hd, hc, hm, ho⟩ := hrest
      exact ⟨by rw [hd]; exact hdata, hc, hm.trans hmode, ho.trans hoffset⟩

/-- As many reads as there are bytes left, and one more, come to the end. -/
theorem exists_eof (hlt : f.content.length < wordLimit) (hread : reads f.mode = true)
    {ns : List Nat} (hns : ∀ n ∈ ns, 0 < n) (hlen : f.content.length - f.offset < ns.length) :
    ∃ out ∈ f.outcomes (ns.map fun n => (.read n, .ok)), out.words = [vfsEof] := by
  induction ns generalizing f with
  | nil => nomatch hlen
  | cons n ns ih =>
    obtain ⟨-, hcontent, hmode, -⟩ := perform_read_data hlt n .ok
    rw [List.map_cons, outcomes]
    rcases perform_read_moves hlt (hns n List.mem_cons_self) hread with heof | hmoves
    · exact ⟨_, List.mem_cons_self, heof⟩
    · rw [List.length_cons] at hlen
      obtain ⟨out, hout, heof⟩ := ih (f := (f.perform .ok (.read n)).1) (hcontent ▸ hlt)
        (hmode ▸ hread) (fun m hm => hns m (List.mem_cons_of_mem _ hm))
        (by rw [hcontent]; omega)
      exact ⟨out, List.mem_cons_of_mem _ hout, heof⟩

theorem length_outcomes (ops : List (FileOp × NfsStatus)) :
    (f.outcomes ops).length = ops.length := by
  induction ops generalizing f with
  | nil => rfl
  | cons op ops ih => rw [outcomes, List.length_cons, List.length_cons, ih]

end SeqFile

theorem overwrite_length (content data : List UInt8) :
    overwrite content content.length data = content ++ data := by
  unfold overwrite
  split
  case isTrue h => rw [h, List.append_nil]
  case isFalse => simp

theorem SeqFile.perform_write_end (hwrite : writes f.mode = true)
    (hend : f.offset = f.content.length) (data : List UInt8) :
    (f.perform .ok (.write data)).1.content = f.content ++ data.take ioMaxBuffer := by
  unfold perform
  dsimp only
  rw [if_neg (by simp [hwrite]), if_neg (by simp), hend, overwrite_length]

/-! ## The seek -/

/-- The file after a seek by `-k` from the end: `k` is added to the size. -/
def SeqFile.seekEnd (f : SeqFile) (k : Nat) : SeqFile :=
  { f with offset := (f.content.length + k) % wordLimit }

/-- The seek is answered, and the file is then where `SeqFile.seekEnd` says. -/
theorem Idle.seekEnd {w : Mounted} (h : Idle w x f) (hfd : Names w.vfs x fd)
    (hsize : (w.vfs.files.vnodes x.a).stSize = f.content.length) (k : Nat) :
    ∃ t, handle (.lseek x.pid fd (-k) Sos.seekEnd) w.vfs = .ok () t ∧ t.nfs = w.vfs.nfs ∧
      wordsTo x.pid w.vfs t = [[vfsOk]] ∧
      Idle ⟨t, w.content⟩ x (f.seekEnd k) := by
  obtain ⟨p, hp, hname⟩ := hfd
  have hseek : Returns (vfsLseek x.pid fd (-k) Sos.seekEnd) (w.vfs.called x.pid true) ()
      (((w.vfs.called x.pid true).seeked x p ((f.content.length + k) % wordLimit : Nat)).replied
        x.pid [vfsOk]) := by
    refine vfsLseek_to h.file.called hp hname ?_
    have hsize' : ((w.vfs.called x.pid true).files.vnodes x.a).stSize = f.content.length := hsize
    rw [if_neg (by decide), if_neg (by decide), if_pos rfl, hsize', Int.sub_neg]
    push_cast
    rfl
  have hrun : Returns (handle (.lseek x.pid fd (-k) Sos.seekEnd)) w.vfs () _ := wp_serve.mpr hseek
  have ha := h.sought hp (Nat.mod_lt (f.content.length + k) (by decide))
  obtain ⟨c, hreply⟩ := ha.reply
  refine ⟨_, hrun.run, ?_, wordsTo_of_append hreply, ?_⟩
  · exact replied_nfs ..
  · exact h.of_answered ha (replied_nfs ..) rfl

/-! ## Main results -/

/-- Half of what a word can hold: minus this is the same word. -/
def halfWord : Nat := 2147483648

/-- What is read from there on is the last `k` bytes just for two `k`. -/
theorem drop_seekEnd_iff {content : List UInt8} (hlt : content.length < wordLimit)
    (hk : k ≤ content.length) :
    content.drop ((content.length + k) % wordLimit) = content.drop (content.length - k) ↔
      k = 0 ∨ k = halfWord := by
  unfold halfWord
  unfold wordLimit at *
  constructor
  · intro h
    have hlen := congrArg List.length h
    rw [List.length_drop, List.length_drop] at hlen
    omega
  · intro h
    have hpos : (content.length + k) % 4294967296 = content.length - k := by omega
    rw [hpos]

theorem seekEnd_le (hk : k ≤ n) (h : k = 0 ∨ k = halfWord) :
    (n + k) % wordLimit ≤ n := by
  unfold halfWord at h
  unfold wordLimit
  omega

/-- If all calls have been answered, the file is idle. -/
theorem FileRun.all_answered {w₀ w : Mounted} {ops : List (FileOp × NfsStatus)}
    {outs : List Outcome} (h : FileRun x w₀ ops outs w) (hser : w₀.vfs.nfs.Serial)
    (h₀ : Idle w₀ x f) (hlen : outs.length = ops.length) :
    outs = f.outcomes ops ∧ Idle w x (f.after ops) := by
  obtain ⟨-, answered, rfl, ⟨rfl, hidle⟩ | ⟨op, rq, fd, rfl, -⟩⟩ := h.sound hser h₀
  · exact ⟨rfl, hidle⟩
  · rw [SeqFile.length_outcomes, List.length_append, List.length_singleton] at hlen
    omega

/-- **Seeking from the end.** A seek by `-k` from the end of a file whose size is known is answered.
If the file is then read until the end is reached, which comes after as many reads as there are
bytes and one more, and then written to, the reads give the last `k` bytes and what is written is
appended, just if `k` is 0 or half of what a word can hold. -/
theorem seek_end_iff {w : Mounted} (hr : Reachable (fun _ _ => True) w.vfs) (h : Idle w x f)
    (hfd : Names w.vfs x fd) (hread : reads f.mode = true) (hwrite : writes f.mode = true)
    (hsize : (w.vfs.files.vnodes x.a).stSize = f.content.length)
    (hlt : f.content.length < wordLimit) (hk : k ≤ f.content.length) :
    ∃ t, handle (.lseek x.pid fd (-k) Sos.seekEnd) w.vfs = .ok () t ∧
      wordsTo x.pid w.vfs t = [[vfsOk]] ∧
      (∀ (ns : List Nat) outs u,
        FileRun x ⟨t, w.content⟩ (ns.map fun n => (.read n, .ok)) outs u → (∀ n ∈ ns, 0 < n) →
        outs.length = ns.length → f.content.length < ns.length →
        ∃ out ∈ outs, out.words = [vfsEof]) ∧
      ∀ ops outs data out u,
        FileRun x ⟨t, w.content⟩ (ops ++ [(.write data, .ok)]) (outs ++ [out]) u →
        AllReads ops → outs.length = ops.length → EndsAtEof outs →
        (outs.flatMap Outcome.data = f.content.drop (f.content.length - k) ∧
            u.content = f.content ++ data.take ioMaxBuffer ↔
          k = 0 ∨ k = halfWord) := by
  obtain ⟨t, hrun, hnfs, hwords, hidle⟩ := h.seekEnd hfd hsize k
  have hser : t.nfs.Serial := hnfs ▸ hr.serial
  refine ⟨t, hrun, hwords, ?_, ?_⟩
  · intro ns outs u hfr hns hlen hmany
    obtain ⟨hout, -⟩ := hfr.all_answered hser hidle (by rw [hlen, List.length_map])
    rw [hout]
    refine SeqFile.exists_eof (f := f.seekEnd k) hlt hread hns ?_
    exact Nat.lt_of_le_of_lt (Nat.sub_le ..) hmany
  · intro ops outs data out u hfr hops hlen heof
    obtain ⟨hout, hu⟩ := hfr.all_answered hser hidle (by simp [hlen])
    rw [SeqFile.outcomes_append] at hout
    obtain ⟨rfl, -⟩ := List.append_inj' hout rfl
    obtain ⟨hdata, hcontent, hmode, hoffset⟩ :=
      SeqFile.outcomes_to_eof (f := f.seekEnd k) hlt hops heof
    change _ = f.content.drop ((f.content.length + k) % wordLimit) at hdata
    rw [hdata, drop_seekEnd_iff hlt hk]
    refine and_iff_left_of_imp fun hcond => ?_
    -- the reads have left the file at its end
    have hend : ((f.seekEnd k).after ops).offset = f.content.length :=
      hoffset.trans (Nat.max_eq_right (seekEnd_le hk hcond))
    have happend := SeqFile.perform_write_end (hmode ▸ hwrite) (hend.trans (hcontent ▸ rfl)) data
    rw [hu.content, SeqFile.after_append, happend, hcontent]
    rfl

/-- A file of three bytes is opened without being truncated. -/
def openedThree : List Event :=
  [.open 1 [70] 14 fmUnlimitedRw fmUnlimitedRw 200, .rpcReply 0 { fh := 9, attr := ⟨stFile, 6, 3⟩ }]

/-- The file is open at its start and its size is known. A seek by `-k` from the end goes to `pos`.
A read from there is told of the end, and a byte is then written. -/
def SeeksEnd (k pos : Nat) (s : Vfs) : Prop :=
  Idle ⟨s, [7, 8, 9]⟩ site ⟨[7, 8, 9], 0, 14⟩ ∧ Names s site 0 ∧ (s.files.vnodes 200).stSize = 3 ∧
    stepShows (.lseek 1 0 (-k) Sos.seekEnd) (fun _ t => Names t site 0 ∧
      stepShows (.read 1 0 10)
      (fun t u => wordsTo 1 t u = [] ∧ AnswerDue (.read (some 9) pos 10) u ∧
        stepShows (.rpcReply 0 {}) (fun t u => wordsTo 1 t u = [[vfsEof]] ∧ Names u site 0 ∧
          u.files.buffers (pagerBuffer 1) = 0 ∧
          stepShows (.write 1 0 1 false []) (fun t u => wordsTo 1 t u = [] ∧
            AnswerDue (.write (some 9) pos [0]) u ∧
            stepShows (.rpcReply 0 {}) (fun t u => wordsTo 1 t u = [[1, sosWrite]]) u) u) u) t) s

instance (k pos : Nat) : DecidablePred (SeeksEnd k pos) := fun _ => by
  unfold SeeksEnd
  infer_instance

theorem SeeksEnd.runs {s : Vfs} {pos : Nat} (h : SeeksEnd k pos s) (hpos : 3 ≤ pos) :
    ∃ t u v, handle (.lseek 1 0 (-k) Sos.seekEnd) s = .ok () t ∧
      FileRun site ⟨t, [7, 8, 9]⟩ [(.read 10, .ok)] [⟨[vfsEof], []⟩] u ∧
      FileRun site ⟨t, [7, 8, 9]⟩ [(.read 10, .ok), (.write [0], .ok)]
        [⟨[vfsEof], []⟩, ⟨[1, sosWrite], []⟩] v := by
  obtain ⟨t, hseek, hname₁, hshows⟩ := exists_step_of_shows h.2.2.2
  obtain ⟨u₁, hcall₁, hnone₁, hdue₁, hshows⟩ := exists_step_of_shows hshows
  obtain ⟨u₂, hanswer₁, hwords₁, hname₂, hzero, hshows⟩ := exists_step_of_shows hshows
  obtain ⟨u₃, hcall₂, hnone₂, hdue₂, hshows⟩ := exists_step_of_shows hshows
  obtain ⟨u₄, hanswer₂, hwords₂⟩ := exists_step_of_shows hshows
  have hserves : Serves [7, 8, 9] 9 (.read (some 9) pos 10) {} [7, 8, 9] :=
    .read rfl (by simp [Nat.sub_eq_zero_of_le hpos]) (by simp [slice, hpos])
  have hloaded : (FileOp.write [0]).Loaded (site.buffer u₂) := by
    intro data hdata j hj _
    rw [← FileOp.write.inj hdata] at hj ⊢
    rw [Nat.lt_one_iff.mp hj]
    exact hzero
  have hcall₁ : Step t ((FileOp.read 10).event 1 0 false []) u₁ := hcall₁
  have hstart : FileRun site ⟨t, [7, 8, 9]⟩ [] [] ⟨t, [7, 8, 9]⟩ := .start
  have hrun := (hstart.call hname₁ (fun _ h => by cases h) hcall₁).answer_due hdue₁ hserves hanswer₁
  have hrun' := (hrun.call hname₂ hloaded hcall₂).answer_due hdue₂ (.write rfl) hanswer₂
  simp only [observed, site, hnone₁, hwords₁, hnone₂, hwords₂] at hrun hrun'
  exact ⟨t, _, _, hseek.2, hrun, hrun'⟩

/-- A seek to the end: there is nothing to be read, and what is written is appended. -/
theorem seek_end_iff_threeBytes :
    ∃ (w : Mounted) (t : Vfs) (u : Mounted), Reachable (fun _ _ => True) w.vfs ∧
      Idle w site ⟨[7, 8, 9], 0, 14⟩ ∧
      handle (.lseek 1 0 (-(0 : Nat)) Sos.seekEnd) w.vfs = .ok () t ∧
      wordsTo 1 w.vfs t = [[vfsOk]] ∧
      FileRun site ⟨t, w.content⟩ [(.read 10, .ok), (.write [0], .ok)]
        [⟨[vfsEof], []⟩, ⟨[1, sosWrite], []⟩] u ∧ u.content = [7, 8, 9, 0] := by
  obtain ⟨s, hr, hs⟩ :=
    reachable_of_run (fun _ _ => True) 1 openedThree (SeeksEnd 0 3) (by decide +kernel)
  obtain ⟨t, -, u, hseek, -, hfr⟩ := hs.runs (by decide)
  obtain ⟨hidle, hname, hsize, -⟩ := hs
  obtain ⟨t', hrun, hwords, -, hiff⟩ := seek_end_iff (k := 0) hr hidle hname (by decide) (by decide)
    hsize (by decide) (by decide)
  obtain rfl : t' = t := (EStateM.Result.ok.inj (hrun.symm.trans hseek)).2
  have hreads : AllReads [(.read 10, .ok)] := by
    intro op hop
    exact ⟨10, .ok, by decide, List.mem_singleton.mp hop⟩
  obtain ⟨-, hcontent⟩ :=
    (hiff [(.read 10, .ok)] [⟨[vfsEof], []⟩] [0] _ u hfr hreads rfl rfl).mpr (.inl rfl)
  exact ⟨_, t', u, hr, hidle, hseek, hwords, hfr, hcontent⟩

/-- A file of three bytes is read from one byte before its end: there is nothing to be read. -/
theorem last_byte_not_read :
    ∃ (w : Mounted) (t : Vfs) (outs : List Outcome) (u : Mounted),
      Reachable (fun _ _ => True) w.vfs ∧
      Idle w site ⟨[7, 8, 9], 0, 14⟩ ∧ Names w.vfs site 0 ∧
      (w.vfs.files.vnodes 200).stSize = 3 ∧
      handle (.lseek 1 0 (-(1 : Nat)) Sos.seekEnd) w.vfs = .ok () t ∧
      FileRun site ⟨t, w.content⟩ [(.read 10, .ok)] outs u ∧
      EndsAtEof outs ∧ outs.flatMap Outcome.data ≠ [7, 8, 9].drop (3 - 1) := by
  obtain ⟨s, hr, hs⟩ :=
    reachable_of_run (fun _ _ => True) 1 openedThree (SeeksEnd 1 4) (by decide +kernel)
  obtain ⟨t, u, -, hseek, hfr, -⟩ := hs.runs (by decide)
  obtain ⟨hidle, hname, hsize, -⟩ := hs
  exact ⟨⟨s, [7, 8, 9]⟩, t, _, u, hr, hidle, hname, hsize, hseek, hfr, rfl,
    (List.cons_ne_nil 9 []).symm⟩

end Sos.Vfs
