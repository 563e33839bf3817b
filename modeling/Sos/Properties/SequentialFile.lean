import Sos.Properties.OpenFile

/-!
# A file over NFS as a sequential file

What a process sees of a file it has open over NFS. Between two calls the file is idle; after one
for which a request is made, the process waits until the server has answered. With a server that
keeps bytes, all descriptors that name one open file together behave as one file with an offset.
-/

namespace Sos.Vfs

open Hoare

variable {s t : Vfs} {x : Site} {f : SeqFile} {fd : Int} {n : Nat}
variable {op : FileOp} {words : List Int} {pid : Pid} {g : SeqFile}

/-! ## Calls and answers -/

namespace FileOp

/-- The message by which a process makes the call; `newline` and `sends` are of no use to a file
over NFS. -/
def event (op : FileOp) (pid : Pid) (fd : Int) (newline : Bool) (sends : List Int) : Event :=
  match op with
  | .read n => .read pid fd n
  | .write data => .write pid fd data.length newline sends
  | .seekSet pos => .lseek pid fd pos Sos.seekSet
  | .seekCur pos => .lseek pid fd pos Sos.seekCur

/-- The request that is made for it, at an offset. -/
def request (op : FileOp) (x : Site) (fd : Int) (offset : Nat) : Option RequestType :=
  match op with
  | .read n => some (.read x.a fd offset (min n ioMaxBuffer))
  | .write data => some (.write x.a fd offset (min data.length ioMaxBuffer))
  | _ => none

def Allowed (op : FileOp) (mode : Nat) : Prop :=
  match op with
  | .read _ => reads mode = true
  | .write _ => writes mode = true
  | _ => True

/-- What the caller gets with a reply: as many bytes of its buffer as the reply to a read says. -/
def outcome (op : FileOp) (buffer : Nat → UInt8) (words : List Int) : Outcome :=
  match op with
  | .read _ => ⟨words, (List.range (words.headD 0).toNat).map buffer⟩
  | _ => ⟨words, []⟩

/-- The data of a write is in the buffer, as far as it fits. -/
def Loaded (op : FileOp) (buffer : Nat → UInt8) : Prop :=
  ∀ data, op = .write data → ∀ j < data.length, j < copyBufsiz → buffer j = data.getD j 0

end FileOp

/-- The replies to a process that a step has sent. -/
def wordsTo (pid : Pid) (s t : Vfs) : List (List Int) :=
  ((t.replies.drop s.replies.length).filter (·.pid = pid)).map (·.words)

/-- What the process sees of a step. -/
def observed (x : Site) (op : FileOp) (s t : Vfs) : List Outcome :=
  (wordsTo x.pid s t).map (op.outcome (x.buffer t))

/-- The server keeps bytes: it serves a call on the handle in full, as far as there are bytes to be
read, or the call fails without an effect. -/
inductive Serves (content : List UInt8) (fh : Nat) : RpcProc → RpcAnswer → List UInt8 → Prop
  | read {pos n ans} : ans.status = .ok →
      ans.bytesRead = ((min n (content.length - pos) : Nat) : Int) →
      ans.data = slice content pos n → Serves content fh (.read (some fh) pos n) ans content
  | write {pos data ans} : ans.status = .ok →
      Serves content fh (.write (some fh) pos data) ans (overwrite content pos data)
  | failed {proc ans} : ans.status ≠ .ok → Serves content fh proc ans content

/-- The request is one of the process about the file. -/
def Site.asks (x : Site) (rq : NfsRequest) : Bool := rq.pid = x.pid ∧ rq.rt.vnode? = some x.a

/-- The requests of the process about the file. -/
def Site.requests (x : Site) (s : Vfs) : List NfsRequest := s.nfs.requests.filter x.asks

/-- What other processes do, and what is done with other files, leaves the open file alone. While
the process waits for an answer about the file its descriptors and its buffer stay as they are. -/
structure Aside (x : Site) (s t : Vfs) : Prop where
  process : ∀ p, s.files.sosProcs x.pid = .pcb p → ∃ q, t.files.sosProcs x.pid = .pcb q ∧
    q.inc = p.inc ∧ (q.files x.i).vnode = (p.files x.i).vnode ∧
    (q.files x.i).fmode = (p.files x.i).fmode ∧ (q.files x.i).fp = (p.files x.i).fp ∧
    (x.requests s ≠ [] → ∀ fd, p.vfile? fd = some x.i → q.vfile? fd = some x.i)
  answerable : Vfs.answerable t.files x.pid = Vfs.answerable s.files x.pid
  vnode : (t.files.vnodes x.a).fs = (s.files.vnodes x.a).fs ∧
    (t.files.vnodes x.a).extra = (s.files.vnodes x.a).extra
  requests : x.requests t = x.requests s
  buffer : x.requests s ≠ [] → ∀ j < copyBufsiz, x.buffer t j = x.buffer s j

/-- The states of the file layer from `w₀` on, with the calls made on the open file and what their
callers have got: a call through a descriptor that names the file, the answer of the server to the
request made for one, something that is put into the copy buffers, or anything else that happens. -/
inductive FileRun (x : Site) (w₀ : Mounted) :
    List (FileOp × NfsStatus) → List Outcome → Mounted → Prop
  | start : FileRun x w₀ [] [] w₀
  | call {ops outs w op fd newline sends t} : FileRun x w₀ ops outs w → Names w.vfs x fd →
      op.Loaded (x.buffer w.vfs) → Step w.vfs (op.event x.pid fd newline sends) t →
      FileRun x w₀ (ops ++ [(op, .ok)]) (outs ++ observed x op w.vfs t) ⟨t, w.content⟩
  | answer {ops outs w op i rpc ans head t content} : FileRun x w₀ (ops ++ [(op, .ok)]) outs w →
      w.vfs.nfs.rpcs[i]? = some rpc → w.vfs.nfs.requests.head? = some head → x.asks head →
      Serves w.content x.fh rpc.proc ans content → Step w.vfs (.rpcReply i ans) t →
      FileRun x w₀ (ops ++ [(op, ans.status)]) (outs ++ observed x op w.vfs t) ⟨t, content⟩
  | copied {ops outs w b} : FileRun x w₀ ops outs w →
      (x.requests w.vfs ≠ [] → ∀ j < copyBufsiz, b (pagerBuffer x.pid + j) = x.buffer w.vfs j) →
      FileRun x w₀ ops outs ⟨w.vfs.withBuffers b, w.content⟩
  | other {ops outs w e t} : FileRun x w₀ ops outs w → Step w.vfs e t → Aside x w.vfs t →
      FileRun x w₀ ops outs ⟨t, w.content⟩

/-! ## Idle and waiting -/

/-- No call on the file is under way. -/
structure Idle (w : Mounted) (x : Site) (f : SeqFile) : Prop where
  file : HasFile w.vfs x f
  content : w.content = f.content
  requests : x.requests w.vfs = []

instance (w : Mounted) : Decidable (Idle w x f) :=
  decidable_of_iff (HasFile w.vfs x f ∧ w.content = f.content ∧ x.requests w.vfs = [])
    ⟨fun ⟨h₁, h₂, h₃⟩ => ⟨h₁, h₂, h₃⟩, fun h => ⟨h.file, h.content, h.requests⟩⟩

/-- The call of the library is what the request asks for. -/
def Posed (s : Vfs) (rq : NfsRequest) : Prop :=
  s.nfs.requests.head? = some rq → ∀ rpc ∈ s.nfs.rpcs, rpc.proc = (rpcOf s.files rq).1

/-- The request for a call is in the queue. -/
structure Waiting (w : Mounted) (x : Site) (f : SeqFile) (op : FileOp) (rq : NfsRequest)
    (fd : Int) : Prop where
  file : HasFile w.vfs x f
  content : w.content = f.content
  requests : x.requests w.vfs = [rq]
  asked : op.request x fd f.offset = some rq.rt
  allowed : op.Allowed f.mode
  names : Names w.vfs x fd
  caller : rq.caller.own = true ∧ rq.caller.pid = x.pid ∧
    ∀ p, w.vfs.files.sosProcs x.pid = .pcb p → rq.caller.inc = p.inc
  loaded : op.Loaded (x.buffer w.vfs)
  posed : Posed w.vfs rq

theorem Waiting.mem {w : Mounted} {rq : NfsRequest} (h : Waiting w x f op rq fd) :
    rq ∈ w.vfs.nfs.requests ∧ rq.pid = x.pid := by
  have hmem : rq ∈ x.requests w.vfs := h.requests ▸ List.mem_singleton_self rq
  obtain ⟨hqueue, hasks⟩ := List.mem_filter.mp hmem
  exact ⟨hqueue, (of_decide_eq_true hasks).1⟩

theorem Waiting.blocked {w : Mounted} {rq : NfsRequest} (h : Waiting w x f op rq fd) :
    w.vfs.Blocked x.pid := by
  obtain ⟨p, hp, -⟩ := h.file.process
  have hmem := h.mem.1
  refine ⟨p, process?_of_slot hp, rq.caller, ?_, h.caller.1, h.caller.2.1, h.caller.2.2 p hp⟩
  exact List.mem_append_left _ (List.mem_map_of_mem hmem)

theorem wordsTo_of_append {c : Caller}
    (h : t.replies = s.replies ++ [⟨pid, words, c, none⟩]) : wordsTo pid s t = [words] := by
  unfold wordsTo
  rw [h, List.drop_left]
  simp

theorem wordsTo_of_eq (h : t.replies = s.replies) : wordsTo pid s t = [] := by
  unfold wordsTo
  rw [h, List.drop_length]
  rfl

/-! ## The call of the library -/

theorem Posed.of_nfs {rq : NfsRequest} (h : Posed s rq) (hn : t.nfs = s.nfs)
    (hf : (rpcOf t.files rq).1 = (rpcOf s.files rq).1) : Posed t rq := by
  intro hhead rpc hrpc
  rw [hn] at hhead hrpc
  rw [hf]
  exact h hhead rpc hrpc

/-- A new request is started only if it is the first. -/
theorem Posed.request {rq : NfsRequest} {g : Files} {rt : RequestType} {c : Caller}
    (h : Posed s rq) (hser : s.nfs.Serial) (hn : t.nfs = s.nfs.request g pid rt c)
    (hf : (rpcOf t.files rq).1 = (rpcOf s.files rq).1)
    (hg : rq.rt = rt → (rpcOf t.files rq).1 = (rpcOf g rq).1) : Posed t rq := by
  intro hhead rpc hrpc
  rw [hn, Nfs.request_requests] at hhead
  rw [hn] at hrpc
  unfold Nfs.request at hrpc
  cases hq : s.nfs.requests with
  | nil =>
    have hrpcs : s.nfs.rpcs = [] := by simpa [hq] using hser.rpcs
    rw [hq] at hhead hrpc
    obtain rfl : s.nfs.newRequest pid rt c = rq := Option.some.inj hhead
    simp only [Nfs.start, Nfs.create, hrpcs, List.nil_append, List.mem_singleton] at hrpc
    rw [hrpc, hg rfl]
  | cons head rest =>
    rw [hq] at hhead hrpc
    dsimp only at hrpc
    rw [if_neg (hser.toOrdered.head_ne_created hq)] at hrpc
    rw [hf]
    exact h (by rw [hq]; exact hhead) rpc hrpc

/-- When a request is taken off, the next one is started. -/
theorem posed_removed (rq rq' : NfsRequest) (hrpcs : s.nfs.rpcs = []) :
    Posed (s.removed rq') rq := by
  intro hhead rpc hrpc
  unfold removed Nfs.remove Nfs.startHead at hhead hrpc
  cases hq : s.nfs.requests.eraseP (·.token = rq'.token) with
  | nil =>
    rw [hq] at hrpc
    dsimp only at hrpc
    rw [hrpcs] at hrpc
    exact absurd hrpc List.not_mem_nil
  | cons next rest =>
    rw [hq] at hhead hrpc
    obtain rfl : next = rq := Option.some.inj hhead
    simp only [Nfs.start, hrpcs, List.nil_append, List.mem_singleton] at hrpc
    rw [hrpc]
    rfl

theorem Completed.posed {i : Nat} {ans : RpcAnswer} {rpc : Rpc} {rq : NfsRequest}
    (h : s.nfs.Serial) (hi : s.nfs.rpcs[i]? = some rpc)
    (hc : Completed (s.received i) rpc.token ans t) (hl : ∀ a mode, rq.rt ≠ .lookup a mode)
    (hd : ∀ pos nbyte cpos, rq.rt ≠ .dir pos nbyte cpos) : Posed t rq := by
  obtain ⟨head, rest, hr, -, htok, -, hnil⟩ := h.received hi
  have hr' : (s.received i).nfs.requests = head :: rest := hr
  have hrpcs : (s.received i).nfs.rpcs = [] := hnil
  have hfind := Nfs.find?_token hr' htok
  cases hc with
  | unknown hn =>
    rw [hfind] at hn
    simp at hn
  | lookedUp _ _ _ _ ho | failed _ _ _ ho => exact posed_removed rq _ (ho.frame.nfs ▸ hrpcs)
  | answered _ _ ha => exact posed_removed rq _ (ha.nfs ▸ hrpcs)
  | @missing rq' a mode _ hrq hrt =>
    obtain rfl := Option.mem_unique hrq hfind
    intro hhead
    obtain rfl : rq' = rq := Option.some.inj ((congrArg List.head? hr').symm.trans hhead)
    exact absurd hrt (hl a mode)
  | @more rq' pos nbyte cpos cpos' _ hrq hrt _ =>
    obtain rfl := Option.mem_unique hrq hfind
    intro hhead
    simp only [Nfs.issue, hr', List.map_cons, if_true, List.head?_cons] at hhead
    exact absurd (by rw [← Option.some.inj hhead]) (hd pos nbyte cpos')

/-- As long as the vnode keeps its handle, the call of the library is what the request asks for. -/
theorem Step.posed {e : Event} {rq : NfsRequest} (h : Posed s rq) (hser : s.nfs.Serial)
    (hst : Step s e t) (hl : ∀ a mode, rq.rt ≠ .lookup a mode)
    (hd : ∀ pos nbyte cpos, rq.rt ≠ .dir pos nbyte cpos)
    (hf : (rpcOf t.files rq).1 = (rpcOf s.files rq).1) : Posed t rq := by
  cases hst.handled with
  | opened own pid path mode readers writers block _ ho =>
    cases ho with
    | null => exact h.of_nfs rfl hf
    | refused => exact h.of_nfs (frame_replied (s.called pid own) s.files pid _ none).nfs hf
    | shared _ _ _ _ hd => exact h.of_nfs hd.frame.nfs hf
    | made => exact h.request hser rfl hf fun hrt => absurd hrt (hl _ _)
    | lockedOut =>
      have hn : ((s.called pid own).replied pid [vfsError]).nfs = s.nfs := replied_nfs ..
      have hfiles : ((s.called pid own).replied pid [vfsError]).files = s.files := replied_files ..
      have hreplied := h.of_nfs hn (by rw [hfiles])
      exact hreplied.request (hn ▸ hser) rfl (hfiles ▸ hf) fun hrt => absurd hrt (hl _ _)
  | closed own pid fd _ hc => exact h.of_nfs hc.frame.nfs hf
  | dupped own pid forig fdup _ hd => exact h.of_nfs hd.frame.nfs hf
  | called own pid _ _ hc =>
    cases hc with
    | silent => exact h.of_nfs rfl hf
    | answered ha => exact h.of_nfs ha.nfs hf
    | requested => exact h.request hser rfl hf fun _ => rfl
    | reader => exact h.of_nfs rfl hf
  | completed i rpc ans _ hi hc => exact hc.posed hser hi hl hd
  | typed newline _ ht =>
    cases ht with
    | idle | kept => exact h.of_nfs rfl hf
    | line _ ha => exact h.of_nfs ha.nfs hf
  | reserved | spawned | turned | retired => exact h.of_nfs rfl hf

/-! ## One step -/

theorem HasFile.called (h : HasFile s x f) : HasFile (s.called x.pid true) x f := h.of_files rfl

theorem Idle.of_answered {w : Mounted} (h : Idle w x f)
    (ha : Answered (w.vfs.called x.pid true) x words g t) (hn : t.nfs = w.vfs.nfs)
    (hc : g.content = f.content) : Idle ⟨t, w.content⟩ x g := by
  refine ⟨ha.file, h.content.trans hc.symm, ?_⟩
  unfold Site.requests
  rw [hn]
  exact h.requests

/-- A call that is answered at once. -/
theorem Idle.answered {w : Mounted} (h : Idle w x f)
    (ha : Answered (w.vfs.called x.pid true) x words g t) (hn : t.nfs = w.vfs.nfs)
    (hc : g.content = f.content) :
    Idle ⟨t, w.content⟩ x g ∧ observed x op w.vfs t = [op.outcome (x.buffer t) words] := by
  obtain ⟨c, hreply⟩ := ha.reply
  have hreplies : wordsTo x.pid w.vfs t = [words] := wordsTo_of_append hreply
  refine ⟨h.of_answered ha hn hc, ?_⟩
  unfold observed
  rw [hreplies]
  rfl

theorem FileOp.vnode_of_request {rt : RequestType} {offset : Nat}
    (h : op.request x fd offset = some rt) : rt.vnode? = some x.a := by
  cases op <;> cases h <;> rfl

/-- A call for which a request is made. -/
theorem Idle.requested {w : Mounted} {rt : RequestType} (h : Idle w x f)
    (hser : w.vfs.nfs.Serial) (hfd : Names w.vfs x fd) (hrt : op.request x fd f.offset = some rt)
    (hallowed : op.Allowed f.mode) :
    ∃ rq, (op.Loaded (x.buffer w.vfs) →
        Waiting ⟨(w.vfs.called x.pid true).requested x.pid rt, w.content⟩ x f op rq fd) ∧
      observed x op w.vfs ((w.vfs.called x.pid true).requested x.pid rt) = [] := by
  obtain ⟨p, hp, -⟩ := h.file.process
  have hqueue : ((w.vfs.called x.pid true).requested x.pid rt).nfs.requests =
      w.vfs.nfs.requests ++ [w.vfs.nfs.newRequest x.pid rt (w.vfs.called x.pid true).caller] :=
    Nfs.request_requests ..
  have hasks : x.asks (w.vfs.nfs.newRequest x.pid rt (w.vfs.called x.pid true).caller) = true :=
    decide_eq_true ⟨rfl, FileOp.vnode_of_request hrt⟩
  refine ⟨w.vfs.nfs.newRequest x.pid rt (w.vfs.called x.pid true).caller, fun hloaded => ?_, ?_⟩
  · refine ⟨h.file.of_files rfl, h.content, ?_, hrt, hallowed, hfd.of_files rfl,
      ⟨rfl, rfl, fun q hq => ?_⟩, hloaded, ?_⟩
    · have hnone : w.vfs.nfs.requests.filter x.asks = [] := h.requests
      unfold Site.requests
      rw [hqueue, List.filter_append, hnone, List.filter_cons_of_pos hasks]
      rfl
    · have hslot : w.vfs.files.sosProcs x.pid = .pcb q := hq
      simp [Nfs.newRequest, Vfs.called, process?_of_slot hslot]
    · refine Posed.request (s := w.vfs) (fun hhead => ?_) hser rfl rfl fun _ => rfl
      exact absurd hasks (List.filter_eq_nil_iff.mp h.requests _ (List.mem_of_mem_head? hhead))
  · have hreplies : wordsTo x.pid w.vfs ((w.vfs.called x.pid true).requested x.pid rt) = [] :=
      wordsTo_of_eq rfl
    unfold observed
    rw [hreplies]
    rfl

theorem toNat_emod_lt (pos : Int) : (pos % wordLimit).toNat < wordLimit := by
  have hlt := Int.emod_lt_of_pos pos (show (0 : Int) < wordLimit by decide)
  have hnn := Int.emod_nonneg pos (show (wordLimit : Int) ≠ 0 by decide)
  omega

/-- The file after a seek. -/
theorem Idle.sought {w : Mounted} {p : Process} {offset : Nat} (h : Idle w x f)
    (hp : w.vfs.files.sosProcs x.pid = .pcb p) (hlt : offset < wordLimit) :
    Answered (w.vfs.called x.pid true) x [vfsOk] { f with offset := offset }
      (((w.vfs.called x.pid true).seeked x p offset).replied x.pid [vfsOk]) :=
  ((h.file.called.seeked hp hlt f.content).replied [vfsOk]).of_start rfl fun _ hn => hn.seeked hp

/-- A seek is answered at once. -/
theorem Idle.seek {w : Mounted} {pos whence : Int} (h : Idle w x f) (hfd : Names w.vfs x fd)
    (hop : op = .seekSet pos ∧ whence = seekSet ∨ op = .seekCur pos ∧ whence = seekCur) :
    ∃ t, handle (.lseek x.pid fd pos whence) w.vfs = .ok () t ∧
      Idle ⟨t, w.content⟩ x (f.perform .ok op).1 ∧
        observed x op w.vfs t = [(f.perform .ok op).2] := by
  obtain ⟨p, hp, hname⟩ := hfd
  have hrun : Returns (handle (.lseek x.pid fd pos whence)) w.vfs () _ :=
    wp_serve.mpr (vfsLseek_returns h.file.called hp hname hop)
  have hlt : (f.perform .ok op).1.offset < wordLimit := by
    rcases hop with ⟨rfl, -⟩ | ⟨rfl, -⟩ <;> exact toNat_emod_lt _
  have hsame : (f.perform .ok op).1 = { f with offset := (f.perform .ok op).1.offset } ∧
      ∀ buffer, op.outcome buffer [vfsOk] = (f.perform .ok op).2 := by
    rcases hop with ⟨rfl, -⟩ | ⟨rfl, -⟩ <;> exact ⟨rfl, fun _ => rfl⟩
  have ha := h.sought hp hlt
  rw [← hsame.1] at ha
  rw [← hsame.2]
  exact ⟨_, hrun.run, h.answered ha (replied_nfs ..) (by rw [hsame.1])⟩

/-- A call on an idle file returns. It is answered at once, as the sequential file does, or waits
for the server. -/
theorem Idle.call {w : Mounted} (h : Idle w x f) (hser : w.vfs.nfs.Serial)
    (hfd : Names w.vfs x fd) (op : FileOp) (newline : Bool) (sends : List Int) :
    ∃ t, handle (op.event x.pid fd newline sends) w.vfs = .ok () t ∧
      ((∃ rq, (op.Loaded (x.buffer w.vfs) → Waiting ⟨t, w.content⟩ x f op rq fd) ∧
          observed x op w.vfs t = []) ∨
        Idle ⟨t, w.content⟩ x (f.perform .ok op).1 ∧
          observed x op w.vfs t = [(f.perform .ok op).2]) := by
  have hfile := h.file.called
  have hname : Names (w.vfs.called x.pid true) x fd := hfd.of_files rfl
  cases op with
  | read n =>
    have hrun : Returns (handle ((FileOp.read n).event x.pid fd newline sends)) w.vfs () _ :=
      wp_serve.mpr (vfsRead_returns hfile hname n)
    cases hread : reads f.mode with
    | true =>
      rw [hread, if_neg (by simp)] at hrun
      exact ⟨_, hrun.run, .inl (h.requested hser hfd rfl
        (show (FileOp.read n).Allowed f.mode from hread))⟩
    | false =>
      rw [hread, if_pos rfl] at hrun
      have hperform : f.perform .ok (.read n) = (f, ⟨[vfsPerm], []⟩) := by
        unfold SeqFile.perform
        exact if_pos hread
      rw [hperform]
      exact ⟨_, hrun.run, .inr (h.answered (hfile.replied _) (replied_nfs ..) rfl)⟩
  | write data =>
    have hrun : Returns (handle ((FileOp.write data).event x.pid fd newline sends)) w.vfs () _ :=
      wp_serve.mpr (vfsWrite_returns hfile hname data.length newline sends)
    cases hwrite : writes f.mode with
    | true =>
      rw [hwrite, if_neg (by simp)] at hrun
      exact ⟨_, hrun.run, .inl (h.requested hser hfd rfl
        (show (FileOp.write data).Allowed f.mode from hwrite))⟩
    | false =>
      rw [hwrite, if_pos rfl] at hrun
      have hperform : f.perform .ok (.write data) = (f, ⟨[vfsPerm], []⟩) := by
        unfold SeqFile.perform
        exact if_pos hwrite
      rw [hperform]
      exact ⟨_, hrun.run, .inr (h.answered (hfile.replied _) (replied_nfs ..) rfl)⟩
  | seekSet pos =>
    obtain ⟨t, hrun, hdone⟩ := h.seek hfd (.inl ⟨rfl, rfl⟩)
    exact ⟨t, hrun, .inr hdone⟩
  | seekCur pos =>
    obtain ⟨t, hrun, hdone⟩ := h.seek hfd (.inr ⟨rfl, rfl⟩)
    exact ⟨t, hrun, .inr hdone⟩

/-! ## The answer of the server -/

/-- The data of a write is what is sent from the buffer. -/
theorem FileOp.Loaded.bytesAt_eq {data : List UInt8} {b : Nat → UInt8} {o : Nat}
    (h : (FileOp.write data).Loaded fun j => b (o + j)) :
    bytesAt b o (min data.length ioMaxBuffer) = data.take ioMaxBuffer := by
  unfold bytesAt
  refine List.ext_getElem (by simp [Nat.min_comm]) fun j hj _ => ?_
  have hlt : j < min data.length ioMaxBuffer := by simpa using hj
  have hsiz : ioMaxBuffer ≤ copyBufsiz := by decide
  have hlen : j < data.length := by omega
  have hbyte : b (o + j) = data.getD j 0 := h data rfl j hlen (by omega)
  rw [List.getElem_map, List.getElem_range, List.getElem_take, hbyte, List.getD_eq_getElem?_getD,
    List.getElem?_eq_getElem hlen]
  rfl

theorem FileOp.Loaded.congr {b b' : Nat → UInt8} (h : op.Loaded b)
    (hb : ∀ j < copyBufsiz, b' j = b j) : op.Loaded b' := by
  intro data hdata j hj hsiz
  rw [hb j hsiz, h data hdata j hj hsiz]

theorem wp_rpcReply {i : Nat} {rpc : Rpc} {ans : RpcAnswer} {Q : Unit → Vfs → Prop}
    {E : VfsFault → Vfs → Prop} (hi : s.nfs.rpcs[i]? = some rpc) :
    Wp (handle (.rpcReply i ans)) s Q E ↔
      Wp (callback rpc.callback rpc.token ans) (s.received i) Q E := by
  unfold handle
  rw [wp_bind, wp_get, hi]
  dsimp only
  rw [wp_bind, wp_modifyNfs]
  rfl

section Callback

variable {token : Nat} {rq : NfsRequest} {a pos : Nat} {ans : RpcAnswer} {Q : Unit → Vfs → Prop}
  {E : VfsFault → Vfs → Prop}

theorem wp_callback_read (hfind : s.nfs.requests.find? (·.token = token) = some rq)
    (hrt : rq.rt = .read a fd pos n) :
    Wp (callback .readCb token ans) s Q E ↔ Wp (readCb rq a fd ans) (s.resumed rq) Q E := by
  unfold callback getRequest
  rw [wp_bind, wp_bind, wp_get, wp_pure, hfind]
  dsimp only
  rw [wp_bind, wp_modify, hrt]
  rfl

theorem wp_callback_write (hfind : s.nfs.requests.find? (·.token = token) = some rq)
    (hrt : rq.rt = .write a fd pos n) :
    Wp (callback .writeCb token ans) s Q E ↔ Wp (writeCb rq a fd n ans) (s.resumed rq) Q E := by
  unfold callback getRequest
  rw [wp_bind, wp_bind, wp_get, wp_pure, hfind]
  dsimp only
  rw [wp_bind, wp_modify, hrt]
  rfl

end Callback

/-- The request of the waiting process is at the head of the queue. -/
theorem Waiting.requests_eq {w : Mounted} {rq head : NfsRequest}
    {rest : List NfsRequest} (h : Waiting w x f op rq fd) (hr : w.vfs.nfs.requests = head :: rest)
    (hasks : x.asks head = true) : head = rq ∧ rest.filter x.asks = [] := by
  have hreq := h.requests
  rw [Site.requests, hr, List.filter_cons_of_pos hasks] at hreq
  exact List.cons.inj hreq

/-- What is left once the request has been taken off. -/
theorem idle_of_removed {w : Mounted} {u : Vfs} {i : Nat}
    {rq : NfsRequest} {rest : List NfsRequest} {content : List UInt8}
    (hr : w.vfs.nfs.requests = rq :: rest) (hrest : rest.filter x.asks = [])
    (hn : u.nfs = (w.vfs.received i).nfs)
    (ha : Answered ((w.vfs.received i).resumed rq) x words g u) (hc : content = g.content) :
    Idle ⟨u.removed rq, content⟩ x g ∧
      observed x op w.vfs (u.removed rq) = [op.outcome (x.buffer u) words] := by
  obtain ⟨c, hreply⟩ := ha.reply
  have hreplies : wordsTo x.pid w.vfs (u.removed rq) = [words] := wordsTo_of_append hreply
  refine ⟨⟨ha.file.of_files rfl, hc, ?_⟩, ?_⟩
  · have herase : u.nfs.requests.eraseP (·.token = rq.token) = rest := by
      rw [hn, show (w.vfs.received i).nfs.requests = rq :: rest from hr]
      exact List.eraseP_cons_of_pos (by simp)
    dsimp only [Site.requests, removed]
    rw [Nfs.remove_requests, herase]
    exact hrest
  · unfold observed
    rw [hreplies]
    rfl

section Rpc

variable {rq : NfsRequest} {pos : Nat}

theorem handleOf_of_extra (h : HasFile s x f) : handleOf (s.files.vnodes x.a) = some x.fh := by
  unfold handleOf
  rw [h.extra]

theorem rpcOf_read (h : HasFile s x f) (hrt : rq.rt = .read x.a fd pos n) :
    (rpcOf s.files rq).1 = .read (some x.fh) pos n := by
  unfold rpcOf
  rw [hrt]
  dsimp only
  rw [handleOf_of_extra h]

/-- What is written is what the buffer is loaded with. -/
theorem rpcOf_write {data : List UInt8} (h : HasFile s x f) (hpid : rq.pid = x.pid)
    (hl : (FileOp.write data).Loaded (x.buffer s))
    (hrt : rq.rt = .write x.a fd pos (min data.length ioMaxBuffer)) :
    (rpcOf s.files rq).1 = .write (some x.fh) pos (data.take ioMaxBuffer) := by
  unfold rpcOf buf
  rw [hrt, hpid]
  dsimp only
  rw [handleOf_of_extra h, hl.bytesAt_eq]

end Rpc

theorem perform_read_failed {st : NfsStatus} (hst : st ≠ .ok) (hread : reads f.mode = true)
    (n : Nat) (buffer : Nat → UInt8) :
    (f.perform st (.read n)).1.content = f.content ∧ (f.perform st (.read n)).2 =
      (FileOp.read n).outcome buffer (f.perform st (.read n)).2.words := by
  have hmay : ¬ reads f.mode = false := by simp [hread]
  have hneg : (List.headD [st.toVfs] 0).toNat = 0 :=
    Int.toNat_of_nonpos (NfsStatus.toVfs_neg hst).le
  unfold SeqFile.perform FileOp.outcome
  dsimp only
  rw [if_neg hmay, if_pos hst]
  exact ⟨rfl, by rw [hneg]; rfl⟩

/-- The bytes of a slice that has been copied to a buffer. -/
theorem map_range_slice {content : List UInt8} {pos : Nat} {buffer : Nat → UInt8}
    (hb : ∀ j < min n (content.length - pos), buffer j = (slice content pos n).getD j 0) :
    (List.range (min n (content.length - pos))).map buffer =
      slice content pos (min n (content.length - pos)) := by
  refine List.ext_getElem (by simp [slice]) fun j hj _ => ?_
  have hlt : j < min n (content.length - pos) := by simpa using hj
  have hslice : j < (slice content pos n).length := by simpa [slice] using hlt
  rw [List.getElem_map, List.getElem_range, hb j hlt, List.getD_eq_getElem?_getD,
    List.getElem?_eq_getElem hslice]
  simp [slice]

theorem perform_read (hread : reads f.mode = true) {buffer : Nat → UInt8}
    (hb : ∀ j < min (min n ioMaxBuffer) (f.content.length - f.offset),
      buffer j = (slice f.content f.offset (min n ioMaxBuffer)).getD j 0) :
    (f.perform .ok (.read n)).1.content = f.content ∧ (f.perform .ok (.read n)).2 =
      (FileOp.read n).outcome buffer (f.perform .ok (.read n)).2.words := by
  have hmay : ¬ reads f.mode = false := by simp [hread]
  have hdata := map_range_slice hb
  unfold SeqFile.perform FileOp.outcome
  dsimp only
  rw [if_neg hmay, if_neg (by simp)]
  split
  · exact ⟨rfl, rfl⟩
  · refine ⟨rfl, ?_⟩
    dsimp only [List.headD_cons]
    rw [Int.toNat_natCast, hdata]

section Answer

variable {w : Mounted} {rq : NfsRequest} {rest : List NfsRequest} {i : Nat} {rpc : Rpc}
  {ans : RpcAnswer} {content : List UInt8}
  (hi : w.vfs.nfs.rpcs[i]? = some rpc) (hr : w.vfs.nfs.requests = rq :: rest)
  (hrest : rest.filter x.asks = []) (htok : rpc.token = rq.token)
  (hcb : rpc.callback = rq.rt.callback) (hproc : rpc.proc = (rpcOf w.vfs.files rq).1)
  (hserves : Serves w.content x.fh rpc.proc ans content)
include hi hr hrest htok hcb hproc hserves

/-- The answer to a read. -/
theorem Waiting.answer_read (h : Waiting w x f (.read n) rq fd) :
    ∃ t, handle (.rpcReply i ans) w.vfs = .ok () t ∧
      Idle ⟨t, content⟩ x (f.perform ans.status (.read n)).1 ∧
        observed x (.read n) w.vfs t = [(f.perform ans.status (.read n)).2] := by
  have hrt : rq.rt = .read x.a fd f.offset (min n ioMaxBuffer) := (Option.some.inj h.asked).symm
  have hread : reads f.mode = true := h.allowed
  rw [hproc, rpcOf_read h.file hrt, h.content] at hserves
  have hbytes : ans.status = .ok →
      ans.bytesRead = (min (min n ioMaxBuffer) (f.content.length - f.offset) : Nat) := by
    intro hok
    cases hserves with
    | read _ hb _ => exact hb
    | failed hne => exact absurd hok hne
  obtain ⟨u, hrun, hn, hcopied, ha⟩ := readCb_returns (s := (w.vfs.received i).resumed rq)
    (h.file.of_files rfl) (h.names.of_files rfl) h.mem.2 hread hbytes
  have hdone : content = (f.perform ans.status (.read n)).1.content ∧
      (f.perform ans.status (.read n)).2 =
        (FileOp.read n).outcome (x.buffer u) (f.perform ans.status (.read n)).2.words := by
    cases hserves with
    | read hok hb hdata =>
      -- The callback has copied the bytes into the buffer before it answers.
      have hbuffer : ∀ j < min (min n ioMaxBuffer) (f.content.length - f.offset),
          x.buffer u j = (slice f.content f.offset (min n ioMaxBuffer)).getD j 0 := by
        intro j hj
        unfold Site.buffer
        rw [hcopied hok, hb, Int.toNat_natCast, blit_apply hj, hdata]
      rw [hok]
      obtain ⟨hc, ho⟩ := perform_read hread hbuffer
      exact ⟨hc.symm, ho⟩
    | failed hne =>
      obtain ⟨hc, ho⟩ := perform_read_failed hne hread n (x.buffer u)
      exact ⟨hc.symm, ho⟩
  have hfind := Nfs.find?_token (show (w.vfs.received i).nfs.requests = _ from hr) htok
  have hreturns : Returns (handle (.rpcReply i ans)) w.vfs () (u.removed rq) := by
    rw [Returns, wp_rpcReply hi, hcb, hrt]
    exact (wp_callback_read hfind hrt).mpr hrun
  refine ⟨_, hreturns.run, ?_⟩
  rw [hdone.2]
  exact idle_of_removed hr hrest hn ha hdone.1

/-- The answer to a write. -/
theorem Waiting.answer_write {data : List UInt8} (h : Waiting w x f (.write data) rq fd) :
    ∃ t, handle (.rpcReply i ans) w.vfs = .ok () t ∧
      Idle ⟨t, content⟩ x (f.perform ans.status (.write data)).1 ∧
        observed x (.write data) w.vfs t = [(f.perform ans.status (.write data)).2] := by
  have hrt : rq.rt = .write x.a fd f.offset (min data.length ioMaxBuffer) :=
    (Option.some.inj h.asked).symm
  have hwrite : writes f.mode = true := h.allowed
  have hmay : ¬ writes f.mode = false := by simp [hwrite]
  rw [hproc, rpcOf_write h.file h.mem.2 h.loaded hrt, h.content] at hserves
  have hdone : content = (f.perform ans.status (.write data)).1.content := by
    unfold SeqFile.perform
    dsimp only
    rw [if_neg hmay]
    cases hserves with
    | write hok => rw [if_neg (not_not_intro hok)]
    | failed hne => rw [if_pos hne]
  have houtcome : ∀ buffer, (f.perform ans.status (.write data)).2 =
      (FileOp.write data).outcome buffer (f.perform ans.status (.write data)).2.words := by
    intro buffer
    unfold SeqFile.perform FileOp.outcome
    dsimp only
    rw [if_neg hmay]
    split <;> rfl
  obtain ⟨u, hrun, hn, ha⟩ := writeCb_returns (s := (w.vfs.received i).resumed rq)
    (h.file.of_files rfl) (h.names.of_files rfl) h.mem.2 hwrite data ans
  have hfind := Nfs.find?_token (show (w.vfs.received i).nfs.requests = _ from hr) htok
  have hreturns : Returns (handle (.rpcReply i ans)) w.vfs () (u.removed rq) := by
    rw [Returns, wp_rpcReply hi, hcb, hrt]
    exact (wp_callback_write hfind hrt).mpr hrun
  refine ⟨_, hreturns.run, ?_⟩
  rw [houtcome (x.buffer u)]
  exact idle_of_removed hr hrest hn ha hdone

end Answer

/-- **The answer of the server.** The callback returns, the call is answered as the sequential file
does, and the file is as the sequential file is. -/
theorem Waiting.answer {w : Mounted} {rq head : NfsRequest} {i : Nat} {rpc : Rpc}
    {ans : RpcAnswer} {content : List UInt8} (h : Waiting w x f op rq fd)
    (hser : w.vfs.nfs.Serial) (hi : w.vfs.nfs.rpcs[i]? = some rpc)
    (hhead : w.vfs.nfs.requests.head? = some head) (hasks : x.asks head = true)
    (hserves : Serves w.content x.fh rpc.proc ans content) :
    ∃ t, handle (.rpcReply i ans) w.vfs = .ok () t ∧
      Idle ⟨t, content⟩ x (f.perform ans.status op).1 ∧
        observed x op w.vfs t = [(f.perform ans.status op).2] := by
  obtain ⟨head', rest, hr, hone, htok, hcb, -⟩ := hser.received hi
  obtain rfl : head' = head := Option.some.inj ((congrArg List.head? hr).symm.trans hhead)
  obtain ⟨rfl, hrest⟩ := h.requests_eq hr hasks
  have hproc := h.posed hhead rpc (by rw [hone]; exact List.mem_singleton_self rpc)
  cases op with
  | read n => exact h.answer_read hi hr hrest htok hcb hproc hserves
  | write data => exact h.answer_write hi hr hrest htok hcb hproc hserves
  | seekSet pos | seekCur pos => exact absurd h.asked (by simp [FileOp.request])

/-! ## Other steps -/

theorem Aside.file (h : Aside x s t) (hf : HasFile s x f) : HasFile t x f := by
  obtain ⟨p, hp, hv, hmode, hfp⟩ := hf.process
  obtain ⟨q, hq, -, hv', hmode', hfp', -⟩ := h.process p hp
  exact ⟨⟨q, hq, hv'.trans hv, hmode'.trans hmode, hfp'.trans hfp⟩,
    h.answerable.trans hf.answerable, h.vnode.1.trans hf.fs, h.vnode.2.trans hf.extra, hf.offset⟩

theorem Waiting.pending {w : Mounted} {rq : NfsRequest} (h : Waiting w x f op rq fd) :
    x.requests w.vfs ≠ [] := h.requests ▸ List.cons_ne_nil rq []

/-- A file and a buffer that are kept ask for the same call of the library. -/
theorem Waiting.rpcOf_eq {w : Mounted} {rq : NfsRequest} (h : Waiting w x f op rq fd)
    (hfile : HasFile t x f) (hloaded : op.Loaded (x.buffer t)) :
    (rpcOf t.files rq).1 = (rpcOf w.vfs.files rq).1 := by
  have hasked := h.asked
  cases op with
  | seekSet | seekCur => simp [FileOp.request] at hasked
  | read n =>
    have hrt := (Option.some.inj hasked).symm
    rw [rpcOf_read hfile hrt, rpcOf_read h.file hrt]
  | write data =>
    have hrt := (Option.some.inj hasked).symm
    rw [rpcOf_write hfile h.mem.2 hloaded hrt, rpcOf_write h.file h.mem.2 h.loaded hrt]

theorem Waiting.other {w : Mounted} {rq : NfsRequest} {e : Event}
    (h : Waiting w x f op rq fd) (hser : w.vfs.nfs.Serial) (hst : Step w.vfs e t)
    (ha : Aside x w.vfs t) : Waiting ⟨t, w.content⟩ x f op rq fd := by
  obtain ⟨p, hp, hname⟩ := h.names
  obtain ⟨q, hq, hinc, -, -, -, hfds⟩ := ha.process p hp
  have hloaded := h.loaded.congr (ha.buffer h.pending)
  have hrpc := h.rpcOf_eq (ha.file h.file) hloaded
  refine ⟨ha.file h.file, h.content, ha.requests.trans h.requests, h.asked, h.allowed,
    ⟨q, hq, hfds h.pending fd hname⟩, ⟨h.caller.1, h.caller.2.1, fun q' hq' => ?_⟩, hloaded, ?_⟩
  · obtain rfl : q = q' := Slot.pcb.inj (hq.symm.trans hq')
    rw [hinc]
    exact h.caller.2.2 p hp
  · -- the request is a read or write of the vnode, which keeps its handle
    refine Step.posed h.posed hser hst (fun a mode hl => ?_) (fun pos nbyte cpos hd => ?_) hrpc
    · have hasked := h.asked
      rw [hl] at hasked
      cases op <;> cases hasked
    · have hasked := h.asked
      rw [hd] at hasked
      cases op <;> cases hasked

theorem Waiting.copied {w : Mounted} {rq : NfsRequest} {b : Nat → UInt8}
    (h : Waiting w x f op rq fd)
    (hb : ∀ j < copyBufsiz, b (pagerBuffer x.pid + j) = x.buffer w.vfs j) :
    Waiting ⟨w.vfs.withBuffers b, w.content⟩ x f op rq fd := by
  have hloaded : op.Loaded (x.buffer (w.vfs.withBuffers b)) := h.loaded.congr hb
  exact ⟨h.file.withBuffers b, h.content, h.requests, h.asked, h.allowed, h.names,
    h.caller, hloaded, h.posed.of_nfs rfl (h.rpcOf_eq (h.file.withBuffers b) hloaded)⟩

/-! ## Runs -/

/-- A process that waits makes no call. -/
theorem Waiting.not_call {w : Mounted} {op op' : FileOp} {rq : NfsRequest} {fd' : Int}
    {newline : Bool} {sends : List Int} (h : Waiting w x f op rq fd)
    (hst : Step w.vfs (op'.event x.pid fd' newline sends) t) : False := by
  have hen := hst.1.2
  cases op' <;> exact (hen x.pid rfl).2.2 h.blocked

/-- The calls that have been answered are answered as the sequential file does; the last call may
still be waiting. -/
theorem FileRun.sound {w₀ w : Mounted} {ops : List (FileOp × NfsStatus)} {outs : List Outcome}
    (hser : w₀.vfs.nfs.Serial) (h₀ : Idle w₀ x f) (h : FileRun x w₀ ops outs w) :
    w.vfs.nfs.Serial ∧ ∃ answered, outs = f.outcomes answered ∧
      (ops = answered ∧ Idle w x (f.after answered) ∨ ∃ op rq fd, ops = answered ++ [(op, .ok)] ∧
        Waiting w x (f.after answered) op rq fd) := by
  -- What has been answered is kept apart from the call that may still wait.
  induction h with
  | start => exact ⟨hser, [], rfl, .inl ⟨rfl, h₀⟩⟩
  | @call ops outs w op fd newline sends t _ hfd hloaded hst ih =>
    obtain ⟨hs, answered, rfl, hcase⟩ := ih
    refine ⟨hst.serial hs, ?_⟩
    rcases hcase with ⟨rfl, hidle⟩ | ⟨_, _, _, _, hw⟩
    · obtain ⟨t', hrun, hcall⟩ := hidle.call hs hfd op newline sends
      obtain rfl : t' = t := (EStateM.Result.ok.inj (hrun.symm.trans hst.2)).2
      rcases hcall with ⟨rq, hw, hnone⟩ | ⟨hnext, hout⟩
      · exact ⟨ops, by rw [hnone, List.append_nil], .inr ⟨op, rq, fd, rfl, hw hloaded⟩⟩
      · refine ⟨ops ++ [(op, .ok)], ?_, .inl ⟨rfl, ?_⟩⟩
        · rw [hout, SeqFile.outcomes_append]
        · rw [SeqFile.after_append]
          exact hnext
    · exact (hw.not_call hst).elim
  | @answer ops outs w op i rpc ans head t content _ hi hhead hasks hserves hst ih =>
    obtain ⟨hs, answered, rfl, hcase⟩ := ih
    refine ⟨hst.serial hs, ?_⟩
    rcases hcase with ⟨_, hidle⟩ | ⟨op', rq, fd, hops, hw⟩
    · -- An idle file has no request that could be answered.
      have hmem := List.mem_of_mem_head? hhead
      exact absurd hasks (List.filter_eq_nil_iff.mp hidle.requests _ hmem)
    · obtain ⟨rfl, hlast⟩ := List.append_inj' hops rfl
      obtain rfl : op = op' := congrArg Prod.fst (List.cons.inj hlast).1
      obtain ⟨t', hrun, hnext, hout⟩ := hw.answer hs hi hhead hasks hserves
      obtain rfl : t' = t := (EStateM.Result.ok.inj (hrun.symm.trans hst.2)).2
      refine ⟨ops ++ [(op, ans.status)], ?_, .inl ⟨rfl, ?_⟩⟩
      · rw [hout, SeqFile.outcomes_append]
      · rw [SeqFile.after_append]
        exact hnext
  | copied _ hb ih =>
    obtain ⟨hs, answered, hout, hcase⟩ := ih
    refine ⟨hs, answered, hout, ?_⟩
    rcases hcase with ⟨hops, hidle⟩ | ⟨op, rq, fd, hops, hw⟩
    · exact .inl ⟨hops, hidle.file.withBuffers _, hidle.content, hidle.requests⟩
    · exact .inr ⟨op, rq, fd, hops, hw.copied (hb hw.pending)⟩
  | other _ hst ha ih =>
    obtain ⟨hs, answered, hout, hcase⟩ := ih
    refine ⟨hst.serial hs, answered, hout, ?_⟩
    rcases hcase with ⟨hops, hidle⟩ | ⟨op, rq, fd, hops, hw⟩
    · exact .inl ⟨hops, ha.file hidle.file, hidle.content, ha.requests.trans hidle.requests⟩
    · exact .inr ⟨op, rq, fd, hops, hw.other hs hst ha⟩

/-- **A file over NFS behaves as a sequential file.** Whatever is read, written and sought through
the descriptors that name an open file, in whatever interleaving with what else the server does, the
replies and the data that have been given are those of a file with one offset. The last call may
still wait for the server. Every call returns, and so does every callback. -/
theorem nfs_file_sequential {w₀ w : Mounted} {ops : List (FileOp × NfsStatus)}
    {outs : List Outcome} (hr : Reachable (fun _ _ => True) w₀.vfs) (h₀ : Idle w₀ x f)
    (h : FileRun x w₀ ops outs w) :
    ∃ answered, outs = f.outcomes answered ∧
      (ops = answered ∧ Idle w x (f.after answered) ∧
          (∀ (op : FileOp) fd newline sends, Names w.vfs x fd →
            ∃ t, handle (op.event x.pid fd newline sends) w.vfs = .ok () t) ∨
        (∃ op rq fd, ops = answered ++ [(op, .ok)] ∧ Waiting w x (f.after answered) op rq fd) ∧
          ∀ i rpc ans head content, w.vfs.nfs.rpcs[i]? = some rpc →
            w.vfs.nfs.requests.head? = some head → x.asks head = true →
            Serves w.content x.fh rpc.proc ans content →
            ∃ t, handle (.rpcReply i ans) w.vfs = .ok () t) := by
  obtain ⟨hs, answered, hout, hcase⟩ := h.sound hr.serial h₀
  refine ⟨answered, hout, ?_⟩
  rcases hcase with ⟨hops, hidle⟩ | ⟨op, rq, fd, hops, hw⟩
  · refine .inl ⟨hops, hidle, fun op fd newline sends hfd => ?_⟩
    obtain ⟨t, hrun, -⟩ := hidle.call hs hfd op newline sends
    exact ⟨t, hrun⟩
  · refine .inr ⟨⟨op, rq, fd, hops, hw⟩, fun i rpc ans head content hi hhead hasks hserves => ?_⟩
    obtain ⟨t, hrun, -⟩ := hw.answer hs hi hhead hasks hserves
    exact ⟨t, hrun⟩

/-- A file is made, and its descriptor duplicated. -/
def sharedFile : List Event :=
  [.open 1 [70] 6 fmUnlimitedRw fmUnlimitedRw 200, .rpcReply 0 { fh := 9 }, .dup 1 0 5]

/-- The open file of the examples. -/
def site : Site := ⟨1, 0, 200, 9⟩

/-- Buffers of which the one of process 1 begins with two bytes. -/
def twoBytes (j : Nat) : UInt8 := [7, 8].getD (j - pagerBuffer 1) 0

/-- The answer to a call on the file is due. -/
def AnswerDue (proc : RpcProc) (s : Vfs) : Prop :=
  (s.nfs.rpcs[0]?).map (·.proc) = some proc ∧ s.nfs.requests.head?.map site.asks = some true

instance (proc : RpcProc) (s : Vfs) : Decidable (AnswerDue proc s) := by
  unfold AnswerDue
  infer_instance

theorem FileRun.answer_due {w₀ w : Mounted} {ops : List (FileOp × NfsStatus)} {outs : List Outcome}
    {proc : RpcProc} {ans : RpcAnswer} {content : List UInt8}
    (h : FileRun site w₀ (ops ++ [(op, .ok)]) outs w) (hdue : AnswerDue proc w.vfs)
    (hserves : Serves w.content site.fh proc ans content) (hst : Step w.vfs (.rpcReply 0 ans) t) :
    FileRun site w₀ (ops ++ [(op, ans.status)]) (outs ++ observed site op w.vfs t)
      ⟨t, content⟩ := by
  obtain ⟨rpc, hrpc, rfl⟩ := Option.map_eq_some_iff.mp hdue.1
  obtain ⟨head, hhead, hasks⟩ := Option.map_eq_some_iff.mp hdue.2
  exact h.answer hrpc hhead hasks hserves hst

/-- The file is open, with both descriptors. A write through the second, a seek and a read through
the first are answered. -/
def SharesFile (s : Vfs) : Prop :=
  Idle ⟨s, []⟩ site ⟨[], 0, 6⟩ ∧ Names s site 5 ∧ stepShows (.write 1 5 2 false [])
    (fun _ t => AnswerDue (.write (some 9) 0 [7, 8]) t ∧
      stepShows (.rpcReply 0 {}) (fun _ t => Names t site 0 ∧
        stepShows (.lseek 1 0 0 seekSet) (fun _ t => Names t site 0 ∧
          stepShows (.read 1 0 10) (fun _ t => AnswerDue (.read (some 9) 0 10) t ∧
            stepShows (.rpcReply 0 { bytesRead := 2, data := [7, 8] })
              (fun _ t => t.nfs.requests.isEmpty) t) t) t) t) (s.withBuffers twoBytes)

instance : DecidablePred SharesFile := fun _ => by
  unfold SharesFile
  infer_instance

/-- What is written through one descriptor is read through the other. -/
theorem nfs_file_sequential_sharedFile :
    ∃ w₀ w ops outs, Reachable (fun _ _ => True) w₀.vfs ∧ Idle w₀ site ⟨[], 0, 6⟩ ∧
      FileRun site w₀ ops outs w ∧
      ops = [(.write [7, 8], .ok), (.seekSet 0, .ok), (.read 10, .ok)] ∧
      outs = [⟨[2, sosWrite], []⟩, ⟨[vfsOk], []⟩, ⟨[2], [7, 8]⟩] := by
  obtain ⟨s, hr, hidle, ⟨p, hp, hname₁⟩, hshows⟩ :=
    reachable_of_run (fun _ _ => True) 1 sharedFile SharesFile (by decide +kernel)
  obtain ⟨t₁, hcall₁, hdue₁, hshows⟩ := exists_step_of_shows hshows
  obtain ⟨t₂, hanswer₁, hname₂, hshows⟩ := exists_step_of_shows hshows
  obtain ⟨t₃, hcall₂, hname₃, hshows⟩ := exists_step_of_shows hshows
  obtain ⟨t₄, hcall₃, hdue₂, hshows⟩ := exists_step_of_shows hshows
  obtain ⟨t₅, hanswer₂, hempty⟩ := exists_step_of_shows hshows
  have hloaded : (FileOp.write [7, 8]).Loaded (site.buffer (s.withBuffers twoBytes)) := by
    intro data hdata j _ _
    rw [← FileOp.write.inj hdata]
    dsimp only [Site.buffer, withBuffers, withFiles, site]
    rw [twoBytes, Nat.add_sub_cancel_left]
  have hcopied : FileRun site ⟨s, []⟩ [] [] ⟨s.withBuffers twoBytes, []⟩ :=
    .copied .start fun h => absurd hidle.requests h
  have hserves₁ : Serves [] 9 (.write (some 9) 0 [7, 8]) {} [7, 8] := .write rfl
  have hserves₂ : Serves [7, 8] 9 (.read (some 9) 0 10) { bytesRead := 2, data := [7, 8] } [7, 8] :=
    .read rfl rfl rfl
  have hwritten := (hcopied.call ⟨p, hp, hname₁⟩ hloaded hcall₁).answer_due hdue₁ hserves₁ hanswer₁
  have hcall₂ : Step t₂ ((FileOp.seekSet 0).event 1 0 false []) t₃ := hcall₂
  have hcall₃ : Step t₃ ((FileOp.read 10).event 1 0 false []) t₄ := hcall₃
  have hsought := hwritten.call hname₂ (fun _ h => by cases h) hcall₂
  have hrun := (hsought.call hname₃ (fun _ h => by cases h) hcall₃).answer_due hdue₂ hserves₂
    hanswer₂
  obtain ⟨answered, hout, ⟨hops, -⟩ | ⟨⟨_, rq, _, -, hw⟩, -⟩⟩ := nfs_file_sequential hr hidle hrun
  · refine ⟨_, _, _, _, hr, hidle, hrun, rfl, ?_⟩
    rw [hout, ← hops]
    rfl
  · exact absurd hw.mem.1 (by simp [List.isEmpty_iff.mp hempty])

end Sos.Vfs
