import Sos.Vfs.Calls
import Mathlib.Data.List.Induction

/-!
# What the console sends

`console_write` and `console_flush` with the data that the file layer leaves out: the characters in
the buffer of the `Console_File` and the strings passed to `network_sendstring`.

A round of the loop of `console_write` fills the buffer and may send it. It moves characters from
the data to the buffer and from there to the network, in order (`round_bytes`), and it takes at
least one character of the data, so the loop ends. What `console_write` returns and how full it
leaves the buffer is what the file layer computes from the length of the data
(`writeLoop_consoleFill`).
-/

namespace Sos.Output

/-- The fields of `Console_File` that writing uses. `sent` are the strings passed to
`network_sendstring` so far, a ghost, and `serial` is what `serial_send` will return. -/
structure ConsoleFile where
  buf : Fin consoleBufSiz → UInt8
  bufUsed : Nat
  sent : List (List UInt8)
  serial : List Int

/-- `'\n'`. -/
def newline : UInt8 := 10

namespace ConsoleFile

/-- `cf->buf[0 .. buf_used)`. -/
def held (cf : ConsoleFile) : List UInt8 := (List.ofFn cf.buf).take cf.bufUsed

/-- All characters, sent or held. -/
def bytes (cf : ConsoleFile) : List UInt8 := cf.sent.flatten ++ cf.held

/-- What `console_init` leaves; the buffer is not cleared. -/
def init (buf : Fin consoleBufSiz → UInt8) (serial : List Int) : ConsoleFile := ⟨buf, 0, [], serial⟩

/-- `_flush`. An empty string is not handed to the serial library. -/
def flush (cf : ConsoleFile) : Int × ConsoleFile :=
  (Vfs.sendstring cf.bufUsed (cf.serial.headD 0),
    { cf with
      bufUsed := 0
      sent := cf.sent ++ [cf.held]
      serial := if cf.bufUsed = 0 then cf.serial else cf.serial.tail })

/-- The inner loop of `console_write`: the buffer, and the data that is left. -/
def fill (cf : ConsoleFile) : List UInt8 → ConsoleFile × List UInt8
  | [] => (cf, [])
  | c :: left =>
    if h : cf.bufUsed < consoleBufSiz then
      fill
        { cf with
          buf := Function.update cf.buf ⟨cf.bufUsed, h⟩ c
          bufUsed := cf.bufUsed + 1 }
        left
    else (cf, c :: left)

/-- One round of the outer loop: the status, the buffer, and the data that is left. -/
def round (data left : List UInt8) (status : Int) (cf : ConsoleFile) :
    Int × ConsoleFile × List UInt8 :=
  let (cf, left) := cf.fill left
  let (status, cf) :=
    if consoleBufSiz ≤ cf.bufUsed ∨ data.getLast? = some newline then cf.flush else (status, cf)
  (if status < 0 then vfsError else data.length, cf, left)

/-- The outer loop of `console_write`; `none` if it has not ended after `n` rounds. -/
def writeLoop (data : List UInt8) :
    Nat → List UInt8 → Int → ConsoleFile → Option (Int × ConsoleFile)
  | _, [], status, cf => some (status, cf)
  | 0, _ :: _, _, _ => none
  | n + 1, c :: left, status, cf =>
    let (status, cf, left) := cf.round data (c :: left) status
    writeLoop data n left status cf

end ConsoleFile

open ConsoleFile

/-- What is passed as `self`: NULL, a vnode without a `Console_File`, or the console's. -/
inductive Self
  | null | noFile | console
deriving DecidableEq, Repr

/-- `console_write`: the status for `write_done`. -/
def consoleWrite (self : Self) (data : List UInt8) (cf : ConsoleFile) :
    Option (Int × ConsoleFile) :=
  match self with
  | .null => some (vfsNovnode, cf)
  | .noFile => some (vfsCorvnode, cf)
  | .console => writeLoop data (data.length + 1) data data.length cf

/-- `console_flush`: the reply, if there is one. -/
def consoleFlush (self : Self) (cf : ConsoleFile) : Option Int × ConsoleFile :=
  match self with
  | .null | .noFile => (none, cf)
  | .console =>
    let (status, cf) := cf.flush
    (some (if 0 < status then vfsOk else vfsEof), cf)

/-- The calls of one process. -/
inductive Call
  | write (pid : Pid) (self : Self) (data : List UInt8)
  | flush (pid : Pid) (self : Self)

def Call.run (cf : ConsoleFile) : Call → Option ConsoleFile
  | .write _ self data => (consoleWrite self data cf).map Prod.snd
  | .flush _ self => some (consoleFlush self cf).2

/-- The characters a call writes to the console. -/
def Call.bytes : Call → List UInt8
  | .write _ .console data => data
  | _ => []

/-- A sequence of calls; `none` if one of them does not return. -/
def runCalls (cf : ConsoleFile) (calls : List Call) : Option ConsoleFile :=
  calls.foldlM Call.run cf

/-! ## One round -/

variable {cf cf' : ConsoleFile} {data left left' : List UInt8} {status status' : Int}

theorem held_update (cf : ConsoleFile) (h : cf.bufUsed < consoleBufSiz) (c : UInt8) :
    held { cf with buf := Function.update cf.buf ⟨cf.bufUsed, h⟩ c, bufUsed := cf.bufUsed + 1 } =
      cf.held ++ [c] := by
  refine List.ext_getElem ?_ fun i hi hi' => ?_
  · simp only [held, List.length_take, List.length_ofFn, List.length_append, List.length_singleton]
    omega
  · simp only [held, List.length_append, List.length_take, List.length_ofFn,
      List.length_singleton] at hi'
    simp only [held, List.getElem_take, List.getElem_ofFn, List.getElem_append, List.length_take,
      List.length_ofFn, List.getElem_singleton]
    split
    · next hlt => exact Function.update_of_ne (by simp; omega) _ _
    · next hge =>
      obtain rfl : i = cf.bufUsed := by omega
      exact Function.update_self _ _ _

/-- The inner loop puts characters behind the ones held, until the buffer is full or there are no
more. -/
theorem fill_spec (cf : ConsoleFile) (left : List UInt8) (h : cf.bufUsed ≤ consoleBufSiz) :
    (cf.fill left).1.held ++ (cf.fill left).2 = cf.held ++ left ∧
      (cf.fill left).1.bufUsed = cf.bufUsed + min (consoleBufSiz - cf.bufUsed) left.length ∧
      (cf.fill left).2.length = left.length - min (consoleBufSiz - cf.bufUsed) left.length ∧
      (cf.fill left).1.sent = cf.sent ∧ (cf.fill left).1.serial = cf.serial := by
  induction left generalizing cf with
  | nil => simp [fill]
  | cons c left ih =>
    rw [fill]
    split
    · next hlt =>
      obtain ⟨hbytes, hused, hleft, hsent, hserial⟩ := ih
        { cf with buf := Function.update cf.buf ⟨cf.bufUsed, hlt⟩ c, bufUsed := cf.bufUsed + 1 } hlt
      refine ⟨?_, ?_, ?_, hsent, hserial⟩
      · rw [hbytes, held_update, List.append_assoc, List.singleton_append]
      · rw [hused]
        simp only [List.length_cons]
        omega
      · rw [hleft]
        simp only [List.length_cons]
        omega
    · next hge =>
      have hfull : consoleBufSiz - cf.bufUsed = 0 := by omega
      simp [hfull]

theorem flush_bytes (cf : ConsoleFile) : cf.flush.2.bytes = cf.bytes := by
  simp [flush, bytes, held]

/-- What a round does to the numbers: the file layer's computation. -/
theorem round_numbers (h : cf.bufUsed ≤ consoleBufSiz)
    (hr : cf.round data left status = (status', cf', left')) :
    let taken := min (consoleBufSiz - cf.bufUsed) left.length
    let flushes := consoleBufSiz ≤ cf.bufUsed + taken ∨ data.getLast? = some newline
    let result :=
      if flushes then Vfs.sendstring (cf.bufUsed + taken) (cf.serial.headD 0) else status
    left'.length = left.length - taken ∧
      cf'.bufUsed = (if flushes then 0 else cf.bufUsed + taken) ∧
      status' = (if result < 0 then vfsError else data.length) ∧
      cf'.serial =
        if flushes ∧ cf.bufUsed + taken ≠ 0 then cf.serial.tail else cf.serial := by
  obtain ⟨-, hused, hleft, -, hserial⟩ := fill_spec cf left h
  unfold ConsoleFile.round at hr
  revert hr
  rcases hfill : cf.fill left with ⟨cf₁, left₁⟩
  rw [hfill] at hused hleft hserial
  dsimp only at hused hleft hserial ⊢
  rw [← hused, ← hserial]
  by_cases hflush : consoleBufSiz ≤ cf₁.bufUsed ∨ data.getLast? = some newline
  · simp only [hflush, if_true, true_and]
    rintro ⟨⟩
    refine ⟨hleft, rfl, rfl, ?_⟩
    by_cases hzero : cf₁.bufUsed = 0 <;> simp [flush, hzero]
  · simp only [hflush, if_false, false_and]
    rintro ⟨⟩
    exact ⟨hleft, rfl, rfl, rfl⟩

/-- A round moves characters on, in order. -/
theorem round_bytes (h : cf.bufUsed ≤ consoleBufSiz)
    (hr : cf.round data left status = (status', cf', left')) :
    cf'.bytes ++ left' = cf.bytes ++ left := by
  obtain ⟨hbytes, -, -, hsent, -⟩ := fill_spec cf left h
  unfold ConsoleFile.round at hr
  revert hr
  rcases hfill : cf.fill left with ⟨cf₁, left₁⟩
  rw [hfill] at hbytes hsent
  have hmoved : cf₁.bytes ++ left₁ = cf.bytes ++ left := by
    dsimp only at hbytes hsent
    rw [bytes, bytes, hsent, List.append_assoc, List.append_assoc, hbytes]
  by_cases hflush : consoleBufSiz ≤ cf₁.bufUsed ∨ data.getLast? = some newline
  · simp only [hflush, if_true]
    rintro ⟨⟩
    rw [flush_bytes, hmoved]
  · simp only [hflush, if_false]
    rintro ⟨⟩
    exact hmoved

theorem round_room (h : cf.bufUsed ≤ consoleBufSiz)
    (hr : cf.round data left status = (status', cf', left')) :
    cf'.bufUsed < consoleBufSiz ∧ (data.getLast? = some newline → cf'.bufUsed = 0) := by
  obtain ⟨-, hused, -, -⟩ := round_numbers h hr
  rw [hused]
  split
  · exact ⟨by decide, fun _ => rfl⟩
  · next hflush =>
    rw [not_or] at hflush
    exact ⟨by omega, fun hlast => absurd hlast hflush.2⟩

/-! ## A whole write -/

/-- The loop ends, as each round takes a character. -/
theorem writeLoop_spec (n : Nat) (data left : List UInt8) (status : Int) (cf : ConsoleFile)
    (h : cf.bufUsed < consoleBufSiz) (hn : left.length ≤ n) :
    ∃ status' cf', writeLoop data n left status cf = some (status', cf') ∧
      cf'.bytes = cf.bytes ++ left ∧ cf'.bufUsed < consoleBufSiz ∧
      (left ≠ [] → data.getLast? = some newline → cf'.bufUsed = 0) := by
  induction n generalizing left status cf with
  | zero =>
    obtain rfl : left = [] := List.length_eq_zero_iff.mp (by omega)
    exact ⟨status, cf, rfl, by simp, h, nofun⟩
  | succ n ih =>
    cases left with
    | nil => exact ⟨status, cf, rfl, by simp, h, nofun⟩
    | cons c left =>
      rw [writeLoop]
      rcases hr : cf.round data (c :: left) status with ⟨status₁, cf₁, left₁⟩
      obtain ⟨hroom, hnewline⟩ := round_room h.le hr
      have hshorter : left₁.length ≤ n := by
        obtain ⟨hleft, -⟩ := round_numbers h.le hr
        simp only [List.length_cons] at hleft hn
        omega
      obtain ⟨status', cf', hrun, hbytes, hused, hlast⟩ := ih left₁ status₁ cf₁ hroom hshorter
      refine ⟨status', cf', hrun, by rw [hbytes, round_bytes h.le hr], hused, fun _ hdata => ?_⟩
      by_cases hnil : left₁ = []
      · subst hnil
        obtain ⟨-, rfl⟩ : status₁ = status' ∧ cf₁ = cf' := by
          cases n <;> simpa [writeLoop] using hrun
        exact hnewline hdata
      · exact hlast hnil hdata

/-- The file layer computes the status and the length from the length of the data. -/
theorem writeLoop_consoleFill (n : Nat) (left : List UInt8) (status : Int) (cf : ConsoleFile)
    (h : cf.bufUsed < consoleBufSiz)
    (hrun : writeLoop data n left status cf = some (status', cf')) :
    Vfs.consoleFill data.length (data.getLast? = some newline) n left.length cf.bufUsed status
      cf.serial = (status', cf'.bufUsed) := by
  induction n generalizing left status cf with
  | zero =>
    cases left with
    | nil => simp_all [writeLoop, Vfs.consoleFill]
    | cons c left => simp [writeLoop] at hrun
  | succ n ih =>
    cases left with
    | nil => simp_all [writeLoop, Vfs.consoleFill]
    | cons c left =>
      rw [writeLoop] at hrun
      rcases hr : cf.round data (c :: left) status with ⟨status₁, cf₁, left₁⟩
      rw [hr] at hrun
      obtain ⟨hleft, hused, hstatus, hserial⟩ := round_numbers h.le hr
      have hrest := ih left₁ status₁ cf₁ (round_room h.le hr).1 hrun
      rw [hleft, hused, hstatus, hserial] at hrest
      rw [Vfs.consoleFill, if_neg (by simp)]
      have htaken : cf.bufUsed + min (consoleBufSiz - cf.bufUsed) (c :: left).length ≠ 0 := by
        simp only [List.length_cons]
        omega
      simpa only [decide_eq_true_eq, ne_eq, htaken, not_false_eq_true, and_true] using hrest

/-! ## All calls -/

/-- A call returns, writes its characters behind the ones before, and leaves room in the buffer. -/
theorem Call.run_spec (c : Call) (h : cf.bufUsed < consoleBufSiz) :
    ∃ cf', c.run cf = some cf' ∧ cf'.bytes = cf.bytes ++ c.bytes ∧ cf'.bufUsed < consoleBufSiz ∧
      (c.bytes.getLast? = some newline → cf'.bufUsed = 0) := by
  cases c with
  | write pid self data =>
    cases self with
    | null | noFile => exact ⟨cf, rfl, by simp [Call.bytes], h, by simp [Call.bytes]⟩
    | console =>
      obtain ⟨status', cf', hrun, hbytes, hused, hlast⟩ :=
        writeLoop_spec (data.length + 1) data data data.length cf h (by omega)
      refine ⟨cf', by simp [Call.run, consoleWrite, hrun], hbytes, hused, fun hdata => ?_⟩
      exact hlast (by rintro rfl; simp [Call.bytes] at hdata) hdata
  | flush pid self =>
    cases self with
    | null | noFile => exact ⟨cf, rfl, by simp [Call.bytes], h, by simp [Call.bytes]⟩
    | console =>
      exact ⟨cf.flush.2, rfl, by simp [flush_bytes, Call.bytes], Nat.zero_lt_succ _, fun _ => rfl⟩

/-- **Console output is kept.** Every sequence of calls returns. The strings sent, followed by what
is in the buffer, are the characters written, in order and each once; the buffer has room for
another character; and after a write that ends in a newline it is empty. -/
theorem console_output_kept (buf : Fin consoleBufSiz → UInt8) (serial : List Int)
    (calls : List Call) :
    ∃ cf, runCalls (.init buf serial) calls = some cf ∧
      cf.sent.flatten ++ cf.held = calls.flatMap Call.bytes ∧
      cf.bufUsed < consoleBufSiz ∧
      ∀ c, calls.getLast? = some c → c.bytes.getLast? = some newline → cf.bufUsed = 0 := by
  induction calls using List.reverseRecOn with
  | nil => exact ⟨_, rfl, rfl, Nat.zero_lt_succ _, by simp⟩
  | append_singleton calls c ih =>
    obtain ⟨cf, hrun, hbytes, hroom, -⟩ := ih
    obtain ⟨cf', hc, hbytes', hroom', hlast⟩ := c.run_spec hroom
    refine ⟨cf', ?_, ?_, hroom', fun c' hc' => ?_⟩
    · rw [runCalls, List.foldlM_append, ← runCalls, hrun]
      simpa using hc
    · rw [List.flatMap_append, ← hbytes]
      simpa [bytes] using hbytes'
    · obtain rfl : c = c' := by simpa using hc'
      exact hlast

end Sos.Output
