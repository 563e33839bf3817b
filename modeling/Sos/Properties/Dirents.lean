import Sos.Properties.OpenFile
import Sos.Vfs.Dirent
import Sos.Vfs.Listing

/-!
# Reading a directory

The names of the special files and of the entries of the directory together are a list, and
`vfs_getdirent` gives the name at its position in it, however the server cuts the directory in parts
(`getdirent_enumerates`). What it replies and asks for is what the file layer says
(`vfsGetdirent_refines`, `getdirentCb_refines`).
-/

namespace Sos.Dirent

open Hoare

/-! ## The directory on the server -/

section

variable (after : Int → List (List UInt8))

/-- A reply to the cookie `c`, where `after c` are the entries after it: some of them, with the
cookie of the last; or none, if there are no more. -/
inductive Page (c : Int) : List (List UInt8) → Int → Prop
  | entries {names : List (List UInt8)} {next : Int} : names ≠ [] → 0 < next →
      after c = names ++ after next → Page c names next
  | last {next : Int} : next ≤ 0 → after c = [] → Page c [] next

/-- The states of a call after some replies. -/
inductive Run (st : State) : Nat → State → Prop
  | start : Run st 0 st
  | page {n : Nat} {c next : Int} {rq : DirRequest} {buf : Nat → UInt8}
      {names : List (List UInt8)} : Run st n (.waiting c rq buf) → Page after c names next →
      Run st (n + 1) (getdirentCb rq .ok names next buf)

end

/-- The names of the special files. -/
def specials (vnodes : List VNode) : List Path :=
  (vnodes.filter (·.stType = stSpecial)).map (·.path)

/-- What the caller is to get: the name at the position, terminated, and its length; an error if it
does not fit; the end of the file behind the last one. -/
inductive Answer (names : List (List UInt8)) (pos nbyte : Nat) (buf : Nat → UInt8) : State → Prop
  | name {nm : List UInt8} {buf' : Nat → UInt8} : names[pos]? = some nm → nm.length + 1 ≤ nbyte →
      (∀ j < nm.length, buf' j = nm.getD j 0) → buf' nm.length = 0 →
      (∀ j, nm.length < j → buf' j = buf j) → Answer names pos nbyte buf (.replied nm.length buf')
  | nomem {nm : List UInt8} : names[pos]? = some nm → nbyte < nm.length + 1 →
      Answer names pos nbyte buf (.replied vfsNomem buf)
  | eof : names.length ≤ pos → Answer names pos nbyte buf (.replied vfsEof buf)

variable {names es : List (List UInt8)} {nm : List UInt8} {vnodes : List VNode}
  {pos nbyte k n : Nat} {buf : Nat → UInt8} {after : Int → List (List UInt8)} {rq : DirRequest}
  {c next : Int} {st : State}

/-- A name that has been found is copied if it fits. -/
theorem answer_of_getElem? (h : names[pos]? = some nm) :
    Answer names pos nbyte buf (if nm.length + 1 ≤ nbyte then .replied nm.length (store buf nm)
      else .replied vfsNomem buf) := by
  split
  case isTrue hfits =>
    refine .name h hfits (fun j hj => ?_) ?_ (fun j hj => ?_)
    · rw [store, if_pos hj]
    · rw [store, if_neg (Nat.lt_irrefl _), if_pos rfl]
    · rw [store, if_neg (by omega), if_neg (by omega)]
  case isFalse hlong => exact .nomem h (by omega)

/-! ## The special files -/

/-- The loop finds the name at the position, or passes all special files. -/
theorem specialAt_eq (hk : k ≤ pos) :
    specialAt pos vnodes k = match (specials vnodes)[pos - k]? with
      | some path => .error path
      | none => .ok ((k + (specials vnodes).length : Nat) : Int) := by
  induction vnodes generalizing k with
  | nil => rfl
  | cons vnode vnodes ih =>
    rw [specialAt, specials]
    by_cases hs : vnode.stType = stSpecial
    · rw [if_pos hs, List.filter_cons_of_pos (by simpa using hs), List.map_cons]
      by_cases hpos : pos = k
      · rw [if_pos (by omega), hpos, Nat.sub_self]
        rfl
      · have hsub : pos - k = pos - (k + 1) + 1 := by omega
        have hcount : k + 1 + (specials vnodes).length = k + ((specials vnodes).length + 1) := by
          omega
        rw [if_neg (by omega), hsub, List.getElem?_cons_succ, List.length_cons]
        have hrest := ih (k := k + 1) (by omega)
        rw [hcount] at hrest
        exact hrest
    · rw [if_neg hs, List.filter_cons_of_neg (by simpa using hs)]
      exact ih hk

/-! ## The directory -/

theorem toInt_of_le {i : Int} (h₀ : 0 ≤ i) (h : i ≤ intMax) : toInt i = i := by
  unfold toInt wordLimit
  unfold intMax at h
  rw [Int.bmod_def]
  split <;> omega

/-- The entries that have been passed over come before the cookie. -/
structure Underway (after : Int → List (List UInt8)) (P nbyte : Nat) (c : Int) (rq : DirRequest) :
    Prop where
  pos : rq.pos = P
  nbyte : rq.nbyte = nbyte
  passed : ∃ done, after 0 = done ++ after c ∧ rq.cpos = done.length ∧ done.length ≤ P

/-- **One reply.** The name is found in it, or there is none, or the search goes on behind it. -/
theorem Underway.page {P : Nat} (h : Underway after P nbyte c rq) (hP : P < intMax)
    (hes : (after 0).length ≤ intMax) (hpage : Page after c names next) :
    Answer (after 0) P nbyte buf (getdirentCb rq .ok names next buf) ∨
      ∃ rq', getdirentCb rq .ok names next buf = .waiting next rq' buf ∧
        Underway after P nbyte next rq' ∧ (after next).length < (after c).length := by
  obtain ⟨done, hdone, hcpos, hle⟩ := h.passed
  have hpos1 : toInt (rq.pos + 1) = P + 1 := by
    rw [h.pos, toInt_of_le (by omega) (by omega)]
  cases hpage with
  | entries hne hnext hafter =>
    have hlen : (after 0).length = done.length + (names.length + (after next).length) := by
      rw [hdone, hafter, List.length_append, List.length_append]
    have hsum : toInt (rq.cpos + names.length) = (done.length + names.length : Nat) := by
      rw [hcpos, toInt_of_le (by omega) (by omega)]
      push_cast
      rfl
    unfold getdirentCb
    rw [if_neg (by simp), hpos1, hsum]
    by_cases hin : (P : Int) + 1 ≤ (done.length + names.length : Nat)
    · -- it is in this part
      left
      have hlt : P - done.length < names.length := by omega
      have hidx : (rq.pos - rq.cpos).toNat = P - done.length := by
        rw [h.pos, hcpos]
        omega
      have hat : (after 0)[P]? = names[P - done.length]? := by
        rw [hdone, hafter, List.getElem?_append_right hle, List.getElem?_append_left hlt]
      rw [List.getElem?_eq_getElem hlt] at hat
      rw [if_pos hin, if_neg (by rw [h.pos, hcpos]; omega), hidx, List.getElem?_eq_getElem hlt,
        h.nbyte]
      exact answer_of_getElem? hat
    · right
      rw [if_neg hin, if_pos hnext]
      refine ⟨_, rfl, ⟨h.pos, h.nbyte, done ++ names, ?_, ?_, ?_⟩, ?_⟩
      · rw [hdone, hafter, List.append_assoc]
      · rw [List.length_append]
      · rw [List.length_append]
        omega
      · have := List.length_pos_iff.2 hne
        rw [hafter, List.length_append]
        omega
  | last hnext hafter =>
    left
    have hlen : (after 0).length = done.length := by
      rw [hdone, hafter, List.append_nil]
    have hsum : toInt (rq.cpos + ([] : List (List UInt8)).length) = done.length := by
      rw [hcpos, List.length_nil, Int.natCast_zero, Int.add_zero, toInt_of_le (by omega) (by omega)]
    unfold getdirentCb
    rw [if_neg (by simp), hpos1, hsum, if_neg (by omega), if_neg (by omega)]
    exact .eof (by omega)

/-! ## Main results -/

/-- What follows a list of names that is passed over. -/
theorem Answer.append {fst : List (List UInt8)} (h : Answer es (pos - fst.length) nbyte buf st)
    (hpos : fst.length ≤ pos) : Answer (fst ++ es) pos nbyte buf st := by
  have hat : (fst ++ es)[pos]? = es[pos - fst.length]? := List.getElem?_append_right hpos
  cases h with
  | name hn hfits hbuf hnul hrest => exact .name (hat.trans hn) hfits hbuf hnul hrest
  | nomem hn hlong => exact .nomem (hat.trans hn) hlong
  | eof hlen => exact .eof (by rw [List.length_append]; omega)

/-- The call itself: a special file, or the directory is asked for from its start. -/
theorem vfsGetdirent_eq (hnbyte : 1 ≤ nbyte) :
    Answer (specials vnodes ++ es) pos nbyte buf (vfsGetdirent vnodes pos nbyte buf) ∨
      (specials vnodes).length ≤ pos ∧ vfsGetdirent vnodes pos nbyte buf =
        .waiting 0 ⟨(pos - (specials vnodes).length : Nat), nbyte, 0⟩ buf := by
  have hspecial : specialAt pos vnodes 0 = _ := specialAt_eq (Nat.zero_le pos)
  unfold vfsGetdirent
  rw [if_neg (by omega), hspecial, Nat.sub_zero, Nat.zero_add]
  cases hat : (specials vnodes)[pos]? with
  | some path =>
    left
    have hlt := (List.getElem?_eq_some_iff.1 hat).1
    exact answer_of_getElem? ((List.getElem?_append_left hlt).trans hat)
  | none =>
    have hle := List.getElem?_eq_none_iff.1 hat
    right
    refine ⟨hle, ?_⟩
    dsimp only
    rw [Int.natCast_sub hle]

/-- **A directory is enumerated.** A call with a position gives the name at that position among the
names of the special files, followed by the entries of the directory, after as many replies of the
server as there are entries, and one more, at the latest. No name is looked for outside a reply. -/
theorem getdirent_enumerates (hnbyte : 1 ≤ nbyte) (hpos : pos < (specials vnodes).length + intMax)
    (hes : (after 0).length ≤ intMax)
    (hrun : Run after (vfsGetdirent vnodes pos nbyte buf) n st) :
    Answer (specials vnodes ++ after 0) pos nbyte buf st ∨
      n ≤ (after 0).length ∧ ∃ c rq, st = .waiting c rq buf := by
  suffices h : Answer (specials vnodes ++ after 0) pos nbyte buf st ∨
      ∃ c rq, st = .waiting c rq buf ∧ n + (after c).length ≤ (after 0).length ∧
        (specials vnodes).length ≤ pos ∧
        Underway after (pos - (specials vnodes).length) nbyte c rq by
    refine h.imp_right ?_
    rintro ⟨c, rq, rfl, hn, -⟩
    exact ⟨by omega, c, rq, rfl⟩
  induction hrun with
  | start =>
    refine (vfsGetdirent_eq hnbyte).imp_right ?_
    rintro ⟨hle, heq⟩
    exact ⟨0, _, heq, by omega, hle, rfl, rfl, [], rfl, rfl, Nat.zero_le _⟩
  | page _ hpage ih =>
    rcases ih with hans | ⟨c, rq, heq, hn, hle, hunder⟩
    · nomatch hans
    · obtain ⟨rfl, rfl, rfl⟩ := State.waiting.inj heq
      rcases hunder.page (by omega) hes hpage with hans | ⟨rq', hnext, hunder', hless⟩
      · exact .inl (hans.append hle)
      · exact .inr ⟨_, rq', hnext, by omega, hle, hunder'⟩

/-- A directory with the entries `a` and `b`, which the server sends one by one. -/
def twoEntries (c : Int) : List (List UInt8) :=
  if c = 0 then [[97], [98]] else if c = 1 then [[98]] else []

theorem getdirent_enumerates_second :
    ∃ st, Run twoEntries
        (vfsGetdirent [{ path := stdoutFn, stType := stSpecial }] (2 : Nat) 8 fun _ => 0) 2 st ∧
      Answer ([stdoutFn] ++ [[97], [98]]) 2 8 (fun _ => 0) st := by
  have h₀ : Run twoEntries
      (vfsGetdirent [{ path := stdoutFn, stType := stSpecial }] (2 : Nat) 8 fun _ => 0) 0
      (.waiting 0 ⟨1, 8, 0⟩ fun _ => 0) := .start
  have hfst : getdirentCb ⟨1, 8, 0⟩ .ok [[97]] 1 (fun _ => 0) =
      .waiting 1 ⟨1, 8, 1⟩ fun _ => 0 := by
    simp [getdirentCb, toInt, wordLimit, Int.bmod]
  have h₁ := h₀.page (.entries (List.cons_ne_nil [97] []) (show 0 < 1 by decide) rfl)
  rw [hfst] at h₁
  have h₂ := h₁.page (.entries (List.cons_ne_nil [98] []) (show 0 < 2 by decide) rfl)
  refine ⟨_, h₂, ?_⟩
  rcases getdirent_enumerates (by decide) (by decide) (by decide) h₂ with hans | ⟨-, c, rq, hst⟩
  · exact hans
  · simp [getdirentCb, toInt, wordLimit, Int.bmod] at hst

/-- With no room for even the terminator the call is refused. -/
theorem no_room_refused :
    vfsGetdirent [{ path := stdoutFn, stType := stSpecial }] 0 0 (fun _ => 0) =
        .replied vfsError (fun _ => 0) ∧
      0 < stdoutFn.length + 1 ∧ vfsError ≠ vfsNomem :=
  ⟨rfl, by decide, by decide⟩

/-! ## The file layer -/

open Vfs in
/-- The walk of the file layer is the loop over the listed vnodes. -/
theorem specialFrom_eq {f : Files} {pos k : Int} (l₁ : List Nat) {l₂ : List Nat}
    (h : f.Linked (l₁ ++ l₂)) (hn : l₂.length ≤ n) :
    specialFrom f pos n l₂.head? k = some
      ((specialAt pos (l₂.map f.vnodes) k).mapError List.length) := by
  induction n generalizing l₁ l₂ k with
  | zero =>
    obtain rfl : l₂ = [] := List.length_eq_zero_iff.mp (by omega)
    rfl
  | succ n ih =>
    cases l₂ with
    | nil => rfl
    | cons b l₂ =>
      have hrest : ∀ k, specialFrom f pos n (f.vnodes b).next k =
          some ((specialAt pos (l₂.map f.vnodes) k).mapError List.length) := fun k => by
        rw [(h.isList.links l₁ b l₂ rfl).1]
        exact ih (l₁ ++ [b]) (by simpa using h) (by simpa using hn)
      rw [List.head?_cons, specialFrom, List.map_cons, specialAt]
      split
      · split
        · rfl
        · exact hrest _
      · exact hrest _

section

variable {s : Vfs} {p : Process} {pid : Pid} {l : List Nat}

/-- What a call leaves of the file layer: a reply, or a request. -/
def State.called (s : Vfs) (pid : Pid) : State → Vfs
  | .replied status _ => s.replied pid [status]
  | .waiting _ rq _ => s.requested pid (.dir rq.pos rq.nbyte rq.cpos)
  | .outOfBounds => s

/-- **The call.** The file layer replies, or makes the request, that the names say. -/
theorem vfsGetdirent_refines (hp : s.files.sosProcs pid = .pcb p) (hl : s.files.Linked l)
    (hlen : l.length ≤ s.files.mallocs) (pos : Int) (nbyte : Nat) (buf : Nat → UInt8) :
    Returns (Vfs.vfsGetdirent pid pos nbyte) s ()
      ((vfsGetdirent (l.map s.files.vnodes) pos nbyte buf).called s pid) := by
  have hwalk : Vfs.specialFrom s.files pos s.files.mallocs s.files.globalVNodes 0 =
      some ((specialAt pos (l.map s.files.vnodes) 0).mapError List.length) := by
    rw [hl.isList.head_eq]
    exact specialFrom_eq [] hl hlen
  unfold Vfs.vfsGetdirent vfsGetdirent
  by_cases hbad : pos < 0 ∨ nbyte = 0
  · rw [if_pos hbad, if_pos (by omega)]
    exact Vfs.reply_returns hp [vfsError]
  · rw [if_neg hbad, if_neg (by omega), Returns, wp_bind, wp_get, hwalk]
    cases specialAt pos (l.map s.files.vnodes) 0 with
    | error path =>
      dsimp only [Except.mapError]
      split
      · exact Vfs.reply_returns hp [(path.length : Int)]
      · exact Vfs.reply_returns hp [vfsNomem]
    | ok pos2 => exact (Vfs.request_spec ..).imp fun _ _ ht => ⟨rfl, ht⟩

/-- The queue with the count kept in the request. -/
def counted (n : Nfs) (rq : NfsRequest) (d : DirRequest) : Nfs :=
  { n with requests := n.requests.map fun r =>
      if r.id = rq.id then { r with rt := .dir d.pos d.nbyte d.cpos } else r }

/-- What a callback leaves of it: a reply, and the request is taken off the queue; or the request
with its count, and the next part is asked for. -/
def State.resumed (s : Vfs) (rq : NfsRequest) : State → Vfs
  | .replied status _ => (s.replied rq.pid [status]).removed rq
  | .waiting cookie d _ =>
    { s with nfs := (counted s.nfs rq d).issue (.readdir cookie) .getdirentCb rq.token }
  | .outOfBounds => s

theorem replied_removed {rq : NfsRequest} (hp : s.files.sosProcs rq.pid = .pcb p) (status : Int) :
    Returns (do Vfs.syscallReply rq.pid status; Vfs.removeRequest rq) s ()
      ((s.replied rq.pid [status]).removed rq) :=
  (Vfs.reply_returns hp [status]).bind_iff.mpr (Vfs.removeRequest_returns rq)

/-- **The callback.** As long as the counts are below the largest `int`, the file layer goes on as
the names say. -/
theorem getdirentCb_refines {rq : NfsRequest} {d : DirRequest} {ans : RpcAnswer}
    (hp : s.files.sosProcs rq.pid = .pcb p) (hnames : ans.filenames = names.map List.length)
    (hcpos : 0 ≤ d.cpos) (hle : d.cpos ≤ d.pos) (hpos : d.pos < intMax)
    (hsum : d.cpos + names.length ≤ intMax) (buf : Nat → UInt8) :
    Returns (Vfs.getdirentCb rq d.pos d.nbyte d.cpos ans) s ()
      ((getdirentCb d ans.status names ans.nextCookie buf).resumed s rq) := by
  have hlen : ans.filenames.length = names.length := by rw [hnames, List.length_map]
  unfold Vfs.getdirentCb getdirentCb
  rw [toInt_of_le (by omega) (by omega), toInt_of_le (by omega) (by omega), hlen]
  by_cases hok : ans.status ≠ .ok
  · rw [if_pos hok, if_pos hok]
    exact replied_removed hp _
  rw [if_neg hok, if_neg hok]
  by_cases hin : d.pos + 1 ≤ d.cpos + names.length
  · have hlt : (d.pos - d.cpos).toNat < names.length := by omega
    rw [if_pos hin, if_pos hin, if_neg (by omega), if_neg (by omega), hnames, List.getElem?_map,
      List.getElem?_eq_getElem hlt]
    dsimp only [Option.map_some]
    split
    · exact replied_removed hp _
    · exact replied_removed hp _
  rw [if_neg hin, if_neg hin]
  by_cases hnext : 0 < ans.nextCookie
  · rw [if_pos hnext, if_pos hnext, Returns, wp_bind, Vfs.wp_modifyNfs]
    exact Vfs.wp_modifyNfs.mpr ⟨rfl, rfl⟩
  · rw [if_neg hnext, if_neg hnext]
    exact replied_removed hp _

end

end Sos.Dirent
