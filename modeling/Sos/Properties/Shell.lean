import Sos.Lib.Lines
import Sos.Shell

/-!
# What the shell dispatches

The lines of a chunk are found one after another, but the end of a chunk after its last newline is
written over by the next chunk: `bp` stays at the start of `buf`. So the shell dispatches the lines
of each chunk by itself (`sosh_eq`), and these are the lines of the stream just if no line with a
word in it is divided between chunks.
-/

namespace Sos.Shell

open Lines

/-- The argument vectors of a stream: its lines split at the spaces, without the blank ones. -/
def commands (s : List UInt8) : List (List (List UInt8)) :=
  ((lines newline s).map (words space)).filter (· ≠ [])

/-- Not a control character, or a newline. -/
def Plain (b : UInt8) : Prop := b = newline ∨ 32 ≤ b ∧ b ≠ 127

instance (b : UInt8) : Decidable (Plain b) := inferInstanceAs (Decidable (_ ∨ _))

/-- What one `read` gives of the stream. -/
structure Chunk (c : List UInt8) : Prop where
  length_pos : 1 ≤ c.length
  length_le : c.length ≤ ioMaxBuffer - 1
  plain : ∀ b ∈ c, Plain b

instance (c : List UInt8) : Decidable (Chunk c) :=
  letI := List.decidableBAll Plain c
  decidable_of_iff (1 ≤ c.length ∧ c.length ≤ ioMaxBuffer - 1 ∧ ∀ b ∈ c, Plain b)
    ⟨fun h => ⟨h.1, h.2.1, h.2.2⟩, fun h => ⟨h.length_pos, h.length_le, h.plain⟩⟩

/-! ## The bytes in the buffer -/

/-- The bytes `x` are at `p`. -/
def Stored (buf : Nat → UInt8) : Nat → List UInt8 → Prop
  | _, [] => True
  | p, b :: x => buf p = b ∧ Stored buf (p + 1) x

variable {buf : Nat → UInt8} {p q n : Nat} {b : UInt8} {x l y c : List UInt8}
  {s : State} {inputs : List Input} {cs ds : List (List UInt8)}

theorem stored_append : Stored buf p (x ++ y) ↔ Stored buf p x ∧ Stored buf (p + x.length) y := by
  induction x generalizing p with
  | nil => simp [Stored]
  | cons b x ih =>
    have hp : p + 1 + x.length = p + (x.length + 1) := by omega
    simp only [List.cons_append, Stored, ih, List.length_cons, and_assoc, hp]

theorem Stored.update (h : Stored buf p x) (hq : q < p ∨ p + x.length ≤ q) :
    Stored (Function.update buf q b) p x := by
  induction x generalizing p with
  | nil => trivial
  | cons a x ih =>
    rw [List.length_cons] at hq
    refine ⟨?_, ih h.2 (by omega)⟩
    rw [Function.update_of_ne (by omega), h.1]

theorem Stored.map_range (h : Stored buf p x) :
    (List.range x.length).map (fun i => buf (p + i)) = x := by
  induction x generalizing p with
  | nil => rfl
  | cons a x ih =>
    rw [List.length_cons, List.range_succ_eq_map, List.map_cons, List.map_map, Nat.add_zero, h.1]
    congr 1
    refine Eq.trans (List.map_congr_left fun i _ => ?_) (ih h.2)
    simp only [Function.comp_apply]
    congr 1
    omega

theorem stored_of_getD (h : ∀ i < x.length, buf (p + i) = x.getD i 0) : Stored buf p x := by
  induction x generalizing p with
  | nil => trivial
  | cons a x ih =>
    refine ⟨h 0 (by simp), ih fun i hi => ?_⟩
    have := h (i + 1) (by simpa using hi)
    rwa [List.getD_cons_succ, ← Nat.add_assoc, Nat.add_right_comm] at this

/-! ## The line reader -/

/-- The shell has `x` still to look at. -/
structure Pending (s : State) (x : List UInt8) : Prop where
  next_nonneg : 0 ≤ s.next
  next_add : s.next + x.length = s.r
  stored : Stored s.buf s.next.toNat x
  lineMore : s.lineMore = false
  lineDone : s.lineDone = true → x = []

theorem pending_start (buf : Nat → UInt8) (line : List UInt8) : Pending (start buf line) [] :=
  ⟨Int.le_refl 0, rfl, trivial, rfl, fun _ => rfl⟩

theorem pending_read (s : State) (c : List UInt8) : Pending (s.read c) c where
  next_nonneg := Int.le_refl 0
  next_add := Int.zero_add _
  stored := by
    refine stored_of_getD fun i hi => ?_
    simp [State.read, bp, hi]
  lineMore := rfl
  lineDone := fun h => nomatch h

theorem Pending.lineDone_eq_false (h : Pending s x) (hx : x ≠ []) : s.lineDone = false := by
  by_contra hd
  exact hx (h.lineDone (by simpa using hd))

theorem Pending.terminate (h : Pending s x) : Pending s.terminate x where
  next_nonneg := h.next_nonneg
  next_add := h.next_add
  stored := by
    have hr := h.next_add
    have hn := h.next_nonneg
    refine h.stored.update (.inr ?_)
    simp only [bp]
    omega
  lineMore := h.lineMore
  lineDone := h.lineDone

theorem Pending.line (h : Pending s x) (line : List UInt8) : Pending { s with line } x :=
  ⟨h.next_nonneg, h.next_add, h.stored, h.lineMore, h.lineDone⟩

/-- A byte that is neither a newline nor a control character is passed over. -/
theorem scan_next (hb : Plain b) (hne : b ≠ newline) (hbuf : s.buf p = b) (hp : p < s.r)
    (found : Bool) : s.scan (n + 1) p found = s.scan n (p + 1 : Nat) found := by
  obtain ⟨hlo, hdel⟩ := hb.resolve_left hne
  have h3 : b ≠ 3 := by rintro rfl; exact absurd hlo (by decide)
  have h4 : b ≠ 4 := by rintro rfl; exact absurd hlo (by decide)
  have h8 : b ≠ 8 := by rintro rfl; exact absurd hlo (by decide)
  have hp' : (p : Int) < bp + s.r := by simpa [bp] using hp
  rw [State.scan, if_pos hp']
  simp only [Int.toNat_natCast, hbuf, h3, h4, h8, hdel, hne, or_self, if_false, Int.natCast_add,
    Int.natCast_one]

theorem scan_newline (hbuf : s.buf p = newline) (hp : p < s.r) (found : Bool) :
    s.scan (n + 1) p found = (true, s.takeLine p) := by
  have hp' : (p : Int) < bp + s.r := by simpa [bp] using hp
  rw [State.scan, if_pos hp']
  simp only [Int.toNat_natCast, hbuf]
  rfl

/-- No newline is found if there is none. -/
theorem scan_unended (hx : newline ∉ x) (hplain : ∀ b ∈ x, Plain b) (hst : Stored s.buf p x)
    (hr : (p : Int) + x.length = s.r) (found : Bool) : s.scan n p found = (found, s) := by
  induction x generalizing p n with
  | nil =>
    cases n with
    | zero => rfl
    | succ n =>
      have hp : ¬(p : Int) < bp + s.r := by
        simp only [List.length_nil, bp] at hr ⊢
        omega
      rw [State.scan, if_neg hp]
  | cons b x ih =>
    cases n with
    | zero => rfl
    | succ n =>
      rw [List.length_cons] at hr
      have hne : b ≠ newline := fun e => hx (e ▸ List.mem_cons_self)
      rw [scan_next (hplain b List.mem_cons_self) hne hst.1 (by omega)]
      refine ih (fun h => hx (List.mem_cons_of_mem _ h))
        (fun a ha => hplain a (List.mem_cons_of_mem _ ha)) hst.2 ?_
      push_cast at hr ⊢
      omega

/-- The first newline ends the line. -/
theorem scan_line (hl : newline ∉ l) (hplain : ∀ b ∈ l, Plain b)
    (hst : Stored s.buf p (l ++ newline :: y)) (hr : (p : Int) + l.length < s.r)
    (hn : l.length < n) (found : Bool) :
    s.scan n p found = (true, s.takeLine (p + l.length : Nat)) := by
  induction l generalizing p n with
  | nil =>
    obtain ⟨n, rfl⟩ : ∃ m, n = m + 1 := ⟨n - 1, by simp at hn; omega⟩
    exact scan_newline hst.1 (by simpa using hr) found
  | cons b l ih =>
    obtain ⟨n, rfl⟩ : ∃ m, n = m + 1 := ⟨n - 1, by omega⟩
    rw [List.length_cons] at hr hn
    have hne : b ≠ newline := fun e => hl (e ▸ List.mem_cons_self)
    rw [scan_next (hplain b List.mem_cons_self) hne hst.1 (by omega),
      ih (fun h => hl (List.mem_cons_of_mem _ h)) (fun a ha => hplain a (List.mem_cons_of_mem _ ha))
        hst.2 (by push_cast at hr ⊢; omega) (by omega)]
    rw [List.length_cons, Nat.add_assoc, Nat.add_comm 1]

/-- The line that is taken, and what is left. -/
theorem Pending.takeLine (h : Pending s (l ++ newline :: y)) (hplain : ∀ b ∈ l, Plain b) :
    (s.takeLine (s.next + l.length)).line = l ∧ Pending (s.takeLine (s.next + l.length)) y := by
  have hn := h.next_nonneg
  have hr := h.next_add
  have hdone := h.lineDone_eq_false (by simp)
  simp only [List.length_append, List.length_cons] at hr
  obtain ⟨hst, hnl⟩ := stored_append.1 h.stored
  constructor
  · have hlen : (s.next + l.length - s.next).toNat = l.length := by omega
    simp only [State.takeLine, State.copyLine, hlen, hst.map_range]
    rw [List.takeWhile_eq_self_iff]
    intro b hb
    rcases hplain b hb with rfl | ⟨hlo, -⟩
    · decide
    · have : b ≠ 0 := by rintro rfl; exact absurd hlo (by decide)
      simpa using this
  · refine ⟨?_, ?_, ?_, h.lineMore, ?_⟩
    · simp only [State.takeLine]
      omega
    · simp only [State.takeLine]
      push_cast at hr
      omega
    · have hp : (s.next + l.length + 1).toNat = s.next.toNat + l.length + 1 := by omega
      simp only [State.takeLine, hp]
      exact hnl.2.update (.inl (by omega))
    · intro hd
      simp only [State.takeLine, hdone, Bool.false_or, decide_eq_true_eq] at hd
      -- all of the chunk was one line
      rw [← List.length_eq_zero_iff]
      push_cast at hr
      omega

/-! ### One round of the inner loop -/

theorem Pending.fetch (h : Pending s x) (hd : s.lineDone = false) (inputs : List Input) :
    fetch s inputs = some (s, inputs) := by
  have hr := h.next_add
  have hn := h.next_nonneg
  unfold Shell.fetch
  rw [if_neg (by simp [hd, h.lineMore]), if_neg (by omega)]

theorem readLine_read (h : s.lineDone = true ∨ s.lineMore = true) :
    readLine (n + 1) s (.data c :: inputs) = readLine (n + 1) (s.read c) inputs := by
  have hf : fetch s (.data c :: inputs) = fetch (s.read c) inputs := by
    rw [(pending_read s c).fetch rfl]
    simp only [fetch, if_pos h]
  rw [readLine, readLine, hf]

theorem readLine_end (h : s.lineDone = true ∨ s.lineMore = true) :
    readLine (n + 1) s [] = some none := by
  simp only [readLine, fetch, if_pos h]

theorem readLine_unended (h : Pending s x) (hd : s.lineDone = false) (hx : newline ∉ x)
    (hplain : ∀ b ∈ x, Plain b) :
    readLine (n + 1) s inputs = readLine n { s.terminate with lineMore := true } inputs := by
  obtain ⟨m, hm⟩ := Int.eq_ofNat_of_zero_le h.next_nonneg
  have ht := h.terminate
  have hst := ht.stored
  have hr := ht.next_add
  have hnext : s.terminate.next = m := hm
  rw [hnext, Int.toNat_natCast] at hst
  rw [hnext] at hr
  rw [readLine, h.fetch hd]
  simp only [hm, scan_unended hx hplain hst hr]
  rfl

theorem readLine_line (h : Pending s (l ++ newline :: y)) (hl : newline ∉ l)
    (hplain : ∀ b ∈ l, Plain b) (n : Nat) (inputs : List Input) :
    ∃ t, readLine (n + 1) s inputs = some (some (t, inputs)) ∧ t.line = l ∧ Pending t y := by
  have hd := h.lineDone_eq_false (by simp)
  obtain ⟨m, hm⟩ := Int.eq_ofNat_of_zero_le h.next_nonneg
  have ht := h.terminate
  have hst := ht.stored
  have hr := h.next_add
  have hnext : s.terminate.next = m := hm
  rw [hnext, Int.toNat_natCast] at hst
  simp only [List.length_append, List.length_cons] at hr
  push_cast at hr
  have hscan := scan_line (n := (s.r - s.next + 1).toNat) hl hplain hst
    (show (m : Int) + l.length < s.r by omega) (by omega) false
  refine ⟨_, ?_, ht.takeLine hplain⟩
  rw [readLine, h.fetch hd]
  simp only [hnext, ← hm, Int.natCast_add] at hscan ⊢
  rw [hm] at hscan ⊢
  simp only [hscan]
  rfl

/-- `l` is the first line that is all in one chunk, and `ds` is what follows it. -/
inductive FirstLine : List (List UInt8) → List UInt8 → List (List UInt8) → Prop
  | here {l : List UInt8} (y : List UInt8) (cs : List (List UInt8)) (hl : newline ∉ l) :
    FirstLine ((l ++ newline :: y) :: cs) l (y :: cs)
  | later {c l : List UInt8} {cs ds : List (List UInt8)} (hc : newline ∉ c)
      (h : FirstLine cs l ds) :
    FirstLine (c :: cs) l ds

theorem FirstLine.flatMap_lines (h : FirstLine cs l ds) :
    cs.flatMap (lines newline) = l :: ds.flatMap (lines newline) := by
  induction h with
  | here y cs hl =>
    rw [List.flatMap_cons, lines_cons hl, List.flatMap_cons, List.cons_append]
  | later hc _ ih => rw [List.flatMap_cons, lines_of_notMem hc, List.nil_append, ih]

theorem FirstLine.length_lt (h : FirstLine cs l ds) :
    ds.flatten.length < cs.flatten.length := by
  induction h with
  | here y cs hl =>
    simp only [List.flatten_cons, List.length_append, List.length_cons]
    omega
  | later _ _ ih =>
    rw [List.flatten_cons, List.length_append]
    omega

theorem FirstLine.subset (h : FirstLine cs l ds) : ∀ b ∈ ds.flatten, b ∈ cs.flatten := by
  induction h with
  | here y cs hl =>
    intro b hb
    simp only [List.flatten_cons, List.mem_append, List.mem_cons] at hb ⊢
    tauto
  | later _ _ ih =>
    intro b hb
    exact List.mem_append_right _ (ih b hb)

/-- If there is no newline left, the shell reads on, after one round at most. -/
theorem readLine_more (h : Pending s x) (hx : newline ∉ x) (hplain : ∀ b ∈ x, Plain b)
    (hn : 2 ≤ n) (inputs : List Input) :
    ∃ m t, n ≤ m + 2 ∧ (t.lineDone = true ∨ t.lineMore = true) ∧
      readLine n s inputs = readLine (m + 1) t inputs := by
  obtain ⟨n, rfl⟩ := Nat.exists_eq_add_of_le' hn
  cases hd : s.lineDone with
  | true => exact ⟨n + 1, s, by omega, .inl hd, rfl⟩
  | false =>
    exact ⟨n, { s.terminate with lineMore := true }, by omega, .inr rfl,
      readLine_unended h hd hx hplain⟩

theorem readLine_here (h : Pending s x) (hplain : ∀ b ∈ (x :: cs).flatten, Plain b)
    (hnl : newline ∈ x) (hn : 1 ≤ n) :
    ∃ t l y ds, readLine n s (cs.map .data) = some (some (t, ds.map .data)) ∧
      t.line = l ∧ Pending t y ∧ FirstLine (x :: cs) l (y :: ds) := by
  obtain ⟨n, rfl⟩ := Nat.exists_eq_add_of_le' hn
  obtain ⟨l, y, rfl, hl⟩ := List.eq_append_cons_of_mem hnl
  rw [List.flatten_cons, List.forall_mem_append, List.forall_mem_append] at hplain
  obtain ⟨t, hread, hline, ht⟩ := readLine_line h hl hplain.1.1 n (cs.map .data)
  exact ⟨t, l, y, cs, hread, hline, ht, .here y cs hl⟩

/-- **The inner loop.** It gives the first line that is all in one chunk; if there is none, the
shell ends. -/
theorem readLine_spec (h : Pending s x) (hplain : ∀ b ∈ (x :: cs).flatten, Plain b)
    (hn : cs.length + 2 ≤ n) :
    (readLine n s (cs.map .data) = some none ∧ ∀ c ∈ x :: cs, newline ∉ c) ∨
      ∃ t l y ds, readLine n s (cs.map .data) = some (some (t, ds.map .data)) ∧
        t.line = l ∧ Pending t y ∧ FirstLine (x :: cs) l (y :: ds) := by
  induction cs generalizing s x n with
  | nil =>
    by_cases hnl : newline ∈ x
    · exact .inr (readLine_here h hplain hnl (by omega))
    rw [List.flatten_cons, List.forall_mem_append] at hplain
    obtain ⟨m, t, -, hmore, hread⟩ := readLine_more h hnl hplain.1 (by omega) []
    left
    refine ⟨hread.trans (readLine_end hmore), ?_⟩
    simpa using hnl
  | cons c cs ih =>
    by_cases hnl : newline ∈ x
    · exact .inr (readLine_here h hplain hnl (by omega))
    rw [List.flatten_cons, List.forall_mem_append] at hplain
    rw [List.length_cons] at hn
    have hn2 : 2 ≤ n := by omega
    obtain ⟨m, t, hm, hmore, hread⟩ :=
      readLine_more h hnl hplain.1 hn2 (.data c :: cs.map .data)
    rw [List.map_cons, hread, readLine_read hmore]
    have hm' : cs.length + 2 ≤ m + 1 := by omega
    refine (ih (pending_read t c) hplain.2 hm').imp ?_ ?_
    · rintro ⟨hend, hnone⟩
      exact ⟨hend, List.forall_mem_cons.2 ⟨hnl, hnone⟩⟩
    · rintro ⟨u, l, y, ds, hline, hl, hu, hfirst⟩
      exact ⟨u, l, y, ds, hline, hl, hu, .later hnl hfirst⟩

/-! ## The arguments -/

/-- **The tokeniser.** It splits the line at its spaces. -/
theorem tokenise_eq (hn : l.length < n) : tokenise n l = words space l := by
  induction n generalizing l with
  | zero => omega
  | succ n ih =>
    have hlen := (List.dropWhile_sublist (· = space) (l := l)).length_le
    rw [← words_dropWhile]
    simp only [tokenise]
    cases hp : l.dropWhile (· = space) with
    | nil => rfl
    | cons c p =>
      have hc : c ≠ space := by
        have := List.head_dropWhile_not (· = space) (l := l) (by simp [hp])
        simpa [hp] using this
      have hdrop := (List.dropWhile_sublist (· ≠ space) (l := p)).length_le
      rw [words_cons_of_ne hc]
      refine congrArg (_ :: ·) (ih ?_)
      rw [hp, List.length_cons] at hlen
      rw [List.dropWhile_cons_of_pos (by simpa using hc), List.length_drop]
      omega

/-! ## Main results -/

theorem commands_eq (cs : List (List UInt8)) :
    cs.flatMap commands
      = ((cs.flatMap (lines newline)).map (words space)).filter (· ≠ []) := by
  induction cs with
  | nil => rfl
  | cons c cs ih =>
    rw [List.flatMap_cons, ih, commands, List.flatMap_cons, List.map_append, List.filter_append]

/-- **The main loop.** It dispatches the lines of each chunk by itself. -/
theorem mainLoop_eq (h : Pending s x) (hplain : ∀ b ∈ (x :: cs).flatten, Plain b)
    (hn : (x :: cs).flatten.length < n) :
    mainLoop n s (cs.map .data) = some ((x :: cs).flatMap commands) := by
  induction n generalizing s x cs with
  | zero => omega
  | succ n ih =>
    rcases readLine_spec h hplain (n := (cs.map Input.data).length + 2) (by simp) with
      ⟨hread, hnone⟩ | ⟨t, _, y, ds, hread, rfl, ht, hfirst⟩
    · have hlines : (x :: cs).flatMap (lines newline) = [] :=
        List.flatMap_eq_nil_iff.2 fun c hc => lines_of_notMem (hnone c hc)
      rw [mainLoop, hread, commands_eq, hlines]
      rfl
    · have hrest := ih (ht.line (firstArgument t.line))
        (fun b hb => hplain b (hfirst.subset b hb)) (by have := hfirst.length_lt; omega)
      rw [mainLoop, hread]
      simp only [Option.bind_eq_bind, Option.bind_some, hrest]
      rw [tokenise_eq (Nat.lt_succ_self _), commands_eq (x :: cs), hfirst.flatMap_lines,
        List.map_cons, List.filter_cons, ← commands_eq]
      by_cases hw : words space t.line = [] <;> simp [hw]

theorem sosh_eq (hcs : ∀ c ∈ cs, Chunk c) (buf : Nat → UInt8) (line : List UInt8) :
    sosh buf line (cs.map .data) = some (cs.flatMap commands) := by
  have hplain : ∀ b ∈ ([] :: cs).flatten, Plain b := by
    intro b hb
    obtain ⟨c, hc, hbc⟩ := List.mem_flatten.1 hb
    rcases List.mem_cons.1 hc with rfl | hc
    · nomatch hbc
    · exact (hcs c hc).plain b hbc
  rw [sosh, mainLoop_eq (pending_start buf line) hplain]
  · rfl
  · simp [List.length_flatten, Function.comp_def, Input.length]

/-- No line with a word in it is divided: what a chunk has after its last newline is blank, unless
no line ends any more. -/
def Undivided : List (List UInt8) → Prop
  | [] => True
  | c :: cs => (newline ∈ cs.flatten → ∀ b ∈ unended newline c, b = space) ∧ Undivided cs

/-- The bytes of the words of the stream. -/
theorem flatten_commands (x : List UInt8) :
    (commands x).flatten.flatten = (lines newline x).flatten.filter (· ≠ space) := by
  rw [commands]
  induction lines newline x with
  | nil => rfl
  | cons l ls ih =>
    have hl := flatten_words (a := space) l
    rw [List.map_cons, List.filter_cons, List.flatten_cons, List.filter_append, ← ih, ← hl]
    split <;> simp_all

theorem commands_append (x y : List UInt8) :
    commands (x ++ y) = commands x ++ commands (unended newline x ++ y) := by
  rw [commands, lines_append, List.map_append, List.filter_append, commands, commands]

theorem commands_of_notMem (h : newline ∉ x) : commands x = [] := by
  rw [commands, lines_of_notMem h]
  rfl

/-- Blanks in front of a line make no difference. -/
theorem commands_blank_append (hx : ∀ b ∈ x, b = space) (y : List UInt8) :
    commands (x ++ y) = commands y := by
  have hnx : newline ∉ x := fun h => absurd (hx _ h) (by decide)
  by_cases hy : newline ∈ y
  · obtain ⟨l, z, rfl, hl⟩ := List.eq_append_cons_of_mem hy
    rw [commands, commands, ← List.append_assoc, lines_cons (by simp [hnx, hl]), lines_cons hl,
      List.map_cons, List.map_cons, words_append_of_forall hx]
  · rw [commands_of_notMem hy, commands_of_notMem (by simp [hnx, hy])]

theorem commands_flatten_of_undivided (h : Undivided cs) :
    cs.flatMap commands = commands cs.flatten := by
  induction cs with
  | nil => rfl
  | cons c cs ih =>
    rw [List.flatMap_cons, ih h.2, List.flatten_cons, commands_append]
    congr 1
    by_cases hnl : newline ∈ cs.flatten
    · rw [commands_blank_append (h.1 hnl)]
    · have hnl' : newline ∉ unended newline c ++ cs.flatten := by simp [notMem_unended, hnl]
      rw [commands_of_notMem hnl, commands_of_notMem hnl']

/-- The number of bytes dispatched. -/
def weight (ds : List (List (List UInt8))) : Nat := ds.flatten.flatten.length

theorem weight_append (ds es : List (List (List UInt8))) :
    weight (ds ++ es) = weight ds + weight es := by
  simp [weight]

/-- The end of a chunk is part of the stream's next line. -/
theorem weight_unended_append (hx : newline ∉ x) (hy : newline ∈ y) :
    weight (commands (x ++ y)) = (x.filter (· ≠ space)).length + weight (commands y) := by
  rw [weight, weight, flatten_commands, flatten_commands, flatten_lines_append hx hy,
    List.filter_append, List.length_append]

theorem weight_commands_flatten (c : List UInt8) (cs : List (List UInt8)) :
    weight (commands (c :: cs).flatten) = weight (commands c)
      + (if newline ∈ cs.flatten then ((unended newline c).filter (· ≠ space)).length else 0)
      + weight (commands cs.flatten) := by
  rw [List.flatten_cons, commands_append, weight_append, Nat.add_assoc]
  congr 1
  split
  case isTrue hnl => rw [weight_unended_append (notMem_unended c) hnl]
  case isFalse hnl =>
    have hnl' : newline ∉ unended newline c ++ cs.flatten := by simp [notMem_unended, hnl]
    rw [commands_of_notMem hnl, commands_of_notMem hnl', Nat.zero_add]

/-- The shell dispatches no more bytes than the stream has in its lines. -/
theorem weight_flatMap_le (cs : List (List UInt8)) :
    weight (cs.flatMap commands) ≤ weight (commands cs.flatten) := by
  induction cs with
  | nil => exact Nat.le_refl 0
  | cons c cs ih =>
    rw [weight_commands_flatten, List.flatMap_cons, weight_append]
    omega

theorem undivided_of_weight (h : weight (cs.flatMap commands) = weight (commands cs.flatten)) :
    Undivided cs := by
  induction cs with
  | nil => trivial
  | cons c cs ih =>
    have hle := weight_flatMap_le cs
    rw [weight_commands_flatten, List.flatMap_cons, weight_append] at h
    refine ⟨fun hnl b hb => ?_, ih (by omega)⟩
    rw [if_pos hnl] at h
    have hnil : (unended newline c).filter (· ≠ space) = [] :=
      List.length_eq_zero_iff.1 (by omega)
    simpa using List.filter_eq_nil_iff.1 hnil b hb

/-- **The shell dispatches the lines of the stream just if no line with a word in it is divided
between reads, and `argv` is large enough just if no line has more than 32 words.** -/
theorem dispatches_stream_iff (hcs : ∀ c ∈ cs, Chunk c) (buf : Nat → UInt8) (line : List UInt8) :
    (∃ ds, sosh buf line (cs.map .data) = some ds ∧ ds = commands cs.flatten ∧
        ∀ argv ∈ ds, argv.length ≤ 32) ↔
      Undivided cs ∧ ∀ l ∈ lines newline cs.flatten, (words space l).length ≤ 32 := by
  rw [sosh_eq hcs]
  constructor
  · rintro ⟨ds, hds, heq, hargv⟩
    obtain rfl := Option.some.inj hds
    refine ⟨undivided_of_weight (congrArg weight heq), fun l hl => ?_⟩
    by_cases hw : words space l = []
    · simp [hw]
    · refine hargv _ ?_
      rw [heq, commands, List.mem_filter, List.mem_map]
      exact ⟨⟨l, hl, rfl⟩, by simpa using hw⟩
  · rintro ⟨hdiv, hwords⟩
    refine ⟨_, rfl, commands_flatten_of_undivided hdiv, fun argv h => ?_⟩
    rw [commands_flatten_of_undivided hdiv, commands, List.mem_filter, List.mem_map] at h
    obtain ⟨⟨l, hl, rfl⟩, -⟩ := h
    exact hwords l hl

theorem dispatches_stream_iff_twoLines :
    (∀ c ∈ [[108, 115, 10, 32], [112, 115, 10]], Chunk c) ∧
      ∃ ds, sosh (fun _ => 0) [] ([[108, 115, 10, 32], [112, 115, 10]].map .data) = some ds ∧
        ds = commands [108, 115, 10, 32, 112, 115, 10] ∧ ∀ argv ∈ ds, argv.length ≤ 32 :=
  ⟨by decide +kernel, (dispatches_stream_iff (by decide +kernel) _ _).2
    ⟨⟨by decide +kernel, by decide +kernel, trivial⟩, by decide +kernel⟩⟩

/-- `ls` comes in one read and the newline in the next: nothing is dispatched. -/
theorem divided_line_lost :
    (∀ c ∈ [[108, 115], [10]], Chunk c) ∧
      sosh (fun _ => 0) [] ([[108, 115], [10]].map .data) = some [] ∧
      commands [[108, 115], [10]].flatten = [[[108, 115]]] := by
  exact ⟨by decide +kernel, by decide +kernel, by decide +kernel⟩

end Sos.Shell
