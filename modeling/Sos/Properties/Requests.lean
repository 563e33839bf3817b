import Sos.Vfs.Run
import Sos.Vfs.Steps

/-!
# NFS requests are served one at a time

The queue of `nfsfs.c`: the request at the head is the only one that is with the NFS library, and
the requests are started and completed in the order in which they were made. The tokens by which the
callbacks find their request repeat once the counter has wrapped; a callback still finds the head,
since the search begins there.
-/

namespace Sos

/-- The callback that is passed to the library for a request. -/
def RequestType.callback : RequestType → RpcCallback
  | .lookup .. => .lookupCb
  | .read .. => .readCb
  | .write .. => .writeCb
  | .stat _ => .statCb
  | .dir .. => .getdirentCb
  | .remove _ => .removeCb

theorem Vfs.rpcOf_callback (f : Files) (rq : NfsRequest) :
    (Vfs.rpcOf f rq).2 = rq.rt.callback := by
  unfold Vfs.rpcOf
  cases rq.rt <;> rfl

namespace Nfs

variable {n : Nfs} {f : Files} {rq head : NfsRequest} {rest : List NfsRequest}

/-- What does not depend on the calls under way: the requests are numbered consecutively, the
completed ones before the queued ones. -/
structure Ordered (n : Nfs) : Prop where
  ids : n.requests.map (·.id) = List.range' n.completed.length n.requests.length
  created : n.created = n.completed.length + n.requests.length
  completed : n.completed = List.range n.completed.length
  started : n.started = List.range (n.completed.length + n.requests.head?.toList.length)

/-- There is one call under way, for the head of the queue, or the queue is empty. -/
structure Serial (n : Nfs) : Prop extends Ordered n where
  rpcs : n.rpcs.map (fun r => (r.callback, r.token)) =
    n.requests.head?.toList.map fun q => (q.rt.callback, q.token)

theorem Ordered.head_id (h : n.Ordered) (hr : n.requests = head :: rest) :
    head.id = n.completed.length := by
  have := h.ids
  rw [hr, List.map_cons, List.length_cons, List.range'_succ] at this
  exact (List.cons.inj this).1

/-- The numbers of the requests in the queue have been given. -/
theorem Ordered.head_ne_created (h : n.Ordered) (hr : n.requests = head :: rest) :
    head.id ≠ n.created := by
  have hcreated := h.created
  rw [hr, List.length_cons] at hcreated
  rw [h.head_id hr]
  omega

theorem Serial.request (h : n.Serial) (f : Files) (pid : Pid) (rt : RequestType) (c : Caller) :
    (n.request f pid rt c).Serial := by
  unfold Nfs.request
  cases hr : n.requests with
  | nil =>
    have hcreated : n.created = n.completed.length := by simpa [hr] using h.created
    refine ⟨⟨?_, ?_, h.completed, ?_⟩, ?_⟩
    · simp [start, create, newRequest, hr, hcreated]
    · simp [start, create, hr, hcreated]
    · have hstarted : n.started = List.range n.completed.length := by simpa [hr] using h.started
      simp [start, create, newRequest, hr, hstarted, hcreated, List.range_succ]
    · have hrpcs : n.rpcs = [] := by simpa [hr] using h.rpcs
      simp [start, create, newRequest, hr, hrpcs, Vfs.rpcOf_callback]
  | cons head rest =>
    dsimp only
    rw [if_neg (h.toOrdered.head_ne_created hr)]
    refine ⟨⟨?_, ?_, h.completed, ?_⟩, ?_⟩
    · have hids := h.ids
      simp only [create, newRequest, List.map_append, List.length_append, List.map_cons,
        List.map_nil, List.length_cons, List.length_nil, hids]
      rw [List.range'_1_concat, h.created]
    · simp [create, h.created]
      omega
    · have hstarted := h.started
      simp only [hr, List.head?_cons] at hstarted
      simp [create, hr, hstarted]
    · have hrpcs := h.rpcs
      simp only [hr, List.head?_cons] at hrpcs
      simp [create, hr, hrpcs]

/-- The answer that arrives is for the head of the queue, which its token finds. -/
theorem Serial.received (h : n.Serial) {i : Nat} {rpc : Rpc} (hi : n.rpcs[i]? = some rpc) :
    ∃ head rest, n.requests = head :: rest ∧ n.rpcs = [rpc] ∧ rpc.token = head.token ∧
      rpc.callback = head.rt.callback ∧ n.rpcs.eraseIdx i = [] := by
  have hrpcs := h.rpcs
  cases hr : n.requests with
  | nil =>
    have hnil : n.rpcs = [] := by simpa [hr] using hrpcs
    rw [hnil] at hi
    simp at hi
  | cons head rest =>
    simp only [hr, List.head?_cons, Option.toList_some, List.map_cons, List.map_nil] at hrpcs
    obtain ⟨r, hone, hmark⟩ := List.map_eq_singleton_iff.mp hrpcs
    obtain ⟨hcb, htok⟩ := Prod.mk.inj hmark
    rw [hone] at hi ⊢
    cases i with
    | zero =>
      obtain rfl : r = rpc := by simpa using hi
      exact ⟨head, rest, rfl, rfl, htok, hcb, rfl⟩
    | succ i => simp at hi

theorem find?_token (hr : n.requests = head :: rest) {token : Nat} (ht : token = head.token) :
    n.requests.find? (·.token = token) = some head := by
  rw [hr]
  exact List.find?_cons_of_pos (by simp [ht])

/-- The head is completed, and the next request is started. -/
theorem Ordered.remove (h : n.Ordered) (hr : n.requests = head :: rest) (hrpcs : n.rpcs = [])
    (f : Files) : (n.remove f head).Serial := by
  have hhead := h.head_id hr
  have herase : n.requests.eraseP (·.token = head.token) = rest := by
    rw [hr]
    exact List.eraseP_cons_of_pos (by simp)
  have hids := h.ids
  have hcreated := h.created
  have hstarted := h.started
  rw [hr] at hids hcreated hstarted
  simp only [List.map_cons, List.length_cons, List.range'_succ] at hids
  simp only [List.head?_cons, Option.toList_some, List.length_cons, List.length_nil] at hstarted
  have hlen : (n.completed ++ [head.id]).length = n.completed.length + 1 := by simp
  have hcompleted : n.completed ++ [head.id] = List.range (n.completed ++ [head.id]).length := by
    rw [hlen, List.range_succ, ← h.completed, hhead]
  unfold Nfs.remove
  rw [herase]
  cases rest with
  | nil =>
    refine ⟨⟨rfl, ?_, hcompleted, ?_⟩, ?_⟩
    · exact hcreated.trans hlen.symm
    · simpa [startHead] using hstarted
    · simp [startHead, hrpcs]
  | cons second rest =>
    have hsecond : second.id = n.completed.length + 1 := by
      have := (List.cons.inj hids).2
      rw [List.map_cons, List.length_cons, List.range'_succ] at this
      exact (List.cons.inj this).1
    refine ⟨⟨?_, ?_, hcompleted, ?_⟩, ?_⟩
    · simpa [startHead, start] using (List.cons.inj hids).2
    · simp only [startHead, start, hlen, List.length_cons] at hcreated ⊢
      omega
    · simp [startHead, start, hstarted, hsecond, List.range_succ]
    · simp [startHead, start, hrpcs, Vfs.rpcOf_callback]

/-- A further call is made for the head. -/
theorem Ordered.issue (h : n.Ordered) (hr : n.requests = head :: rest) (hrpcs : n.rpcs = [])
    {proc : RpcProc} {cb : RpcCallback} (hcb : cb = head.rt.callback) :
    (n.issue proc cb head.token).Serial where
  toOrdered := ⟨h.ids, h.created, h.completed, h.started⟩
  rpcs := by simp [Nfs.issue, hr, hrpcs, hcb]

/-- The head is changed in place, in what it asks for. -/
theorem Ordered.map_rt (h : n.Ordered) (g : NfsRequest → NfsRequest) (hg : ∀ r, (g r).id = r.id) :
    { n with requests := n.requests.map g : Nfs }.Ordered where
  ids := by simpa [Function.comp_def, hg] using h.ids
  created := by simpa using h.created
  completed := h.completed
  started := by
    have hhead : (n.requests.map g).head?.toList.length = n.requests.head?.toList.length := by
      cases n.requests <;> rfl
    exact h.started.trans (by rw [hhead])

end Nfs

namespace Vfs

variable {s t : Vfs} {e : Event}

theorem serial_of_started (h : Started s) : s.nfs.Serial := by
  obtain ⟨_, _, _, rfl, -⟩ := h
  exact ⟨⟨rfl, rfl, rfl, rfl⟩, rfl⟩

theorem Completed.serial {i : Nat} {ans : RpcAnswer} {rpc : Rpc} (h : s.nfs.Serial)
    (hi : s.nfs.rpcs[i]? = some rpc) (hc : Completed (s.received i) rpc.token ans t) :
    t.nfs.Serial := by
  obtain ⟨head, rest, hr, -, htok, -, hnil⟩ := h.received hi
  have hord : (s.received i).nfs.Ordered := ⟨h.ids, h.created, h.completed, h.started⟩
  have hr' : (s.received i).nfs.requests = head :: rest := hr
  have hfind := Nfs.find?_token hr' htok
  have hremoved : ∀ u : Vfs, u.nfs = (s.received i).nfs → (u.removed head).nfs.Serial :=
    fun u hn => by
    change (u.nfs.remove u.files head).Serial
    rw [hn]
    exact hord.remove hr' hnil u.files
  cases hc with
  | unknown hn =>
    rw [hfind] at hn
    simp at hn
  | lookedUp hrq _ _ _ ho | failed hrq _ _ ho =>
    obtain rfl := Option.mem_unique hrq hfind
    exact hremoved _ ho.frame.nfs
  | answered hrq _ ha =>
    obtain rfl := Option.mem_unique hrq hfind
    exact hremoved _ ha.nfs
  | @missing rq a mode path hrq hrt =>
    obtain rfl := Option.mem_unique hrq hfind
    exact hord.issue hr' hnil (by rw [hrt]; rfl)
  | @more rq pos nbyte cpos cpos' cookie hrq hrt _ =>
    obtain rfl := Option.mem_unique hrq hfind
    refine (hord.map_rt _ fun r => ?_).issue
      (show _ = ({ rq with rt := .dir pos nbyte cpos' } : NfsRequest) ::
        rest.map fun r => if r.id = rq.id then { r with rt := .dir pos nbyte cpos' } else r from ?_)
      hnil rfl
    · split <;> rfl
    · simp [hr']

theorem Step.serial (h : s.nfs.Serial) (hst : Step s e t) : t.nfs.Serial := by
  cases hst.handled with
  | opened own pid path mode readers writers block _ ho =>
    cases ho with
    | null => exact h
    | refused => exact (frame_replied (s.called pid own) s.files pid _ none).nfs ▸ h
    | shared _ _ _ _ hd => exact hd.frame.nfs ▸ h
    | made => exact h.request ..
    | lockedOut =>
      refine Nfs.Serial.request ?_ ..
      exact (frame_replied (s.called pid own) s.files pid _ none).nfs ▸ h
  | closed own pid fd _ hc => exact hc.frame.nfs ▸ h
  | dupped own pid forig fdup _ hd => exact hd.frame.nfs ▸ h
  | called own pid _ _ hc =>
    cases hc with
    | silent => exact h
    | answered ha => exact ha.nfs ▸ h
    | requested => exact h.request ..
    | reader => exact h
  | completed i rpc ans _ hi hc => exact hc.serial h hi
  | typed newline _ ht =>
    cases ht with
    | idle => exact h
    | kept => exact h
    | line _ ha => exact ha.nfs ▸ h
  | reserved => exact h
  | spawned => exact h
  | turned => exact h
  | retired => exact h

theorem Reachable.serial {C : Vfs → Event → Prop} (h : Reachable C s) : s.nfs.Serial :=
  h.invariant (fun _ => serial_of_started) fun _ _ _ hs _ => Step.serial hs

/-- **NFS requests are served one at a time, in order.** Between two messages at most one call of
the library is under way; it is there if and only if the queue is not empty, it was made for the
request at the head, and its token finds that request. The completed requests are the first ones
that were made, each once and in the order in which they were made; the queue holds the others in
that order; and the requests that have been started, each once, are the completed ones and the head.
-/
theorem nfs_requests_serialised {s : Vfs} (h : Reachable (fun _ _ => True) s) :
    s.nfs.rpcs.length ≤ 1 ∧
    (s.nfs.rpcs = [] ↔ s.nfs.requests = []) ∧
    (∀ rpc ∈ s.nfs.rpcs, ∃ head rest, s.nfs.requests = head :: rest ∧
      rpc.token = head.token ∧ rpc.callback = head.rt.callback ∧
      s.nfs.requests.find? (·.token = rpc.token) = some head) ∧
    ∃ m, s.nfs.completed = List.range m ∧
      s.nfs.requests.map (·.id) = List.range' m s.nfs.requests.length ∧
      s.nfs.created = m + s.nfs.requests.length ∧
      s.nfs.started = List.range (if s.nfs.requests = [] then m else m + 1) := by
  have hs := h.serial
  refine ⟨?_, ?_, fun rpc hrpc => ?_, s.nfs.completed.length, hs.completed, hs.ids, hs.created, ?_⟩
  · have hlen := congrArg List.length hs.rpcs
    rw [List.length_map, List.length_map] at hlen
    rw [hlen]
    cases s.nfs.requests.head? <;> simp
  · have := hs.rpcs
    constructor <;> intro hnil
    · cases hr : s.nfs.requests <;> simp [hnil, hr] at this ⊢
    · simpa [hnil] using this
  · obtain ⟨i, hi⟩ := List.getElem?_of_mem hrpc
    obtain ⟨head, rest, hr, -, htok, hcb, -⟩ := hs.received hi
    exact ⟨head, rest, hr, htok, hcb, Nfs.find?_token hr htok⟩
  · have := hs.started
    cases hr : s.nfs.requests <;> simpa [hr] using this

/-- Two processes look up a file each: the second lookup waits for the first. -/
def twoLookups : List Event :=
  [.open 1 [70] 4 fmUnlimitedRw fmUnlimitedRw 200, .open 2 [71] 4 fmUnlimitedRw fmUnlimitedRw 201]

theorem nfs_requests_serialised_twoLookups :
    ∃ s, Reachable (fun _ _ => True) s ∧ s.nfs.requests.map (·.id) = [0, 1] ∧
      s.nfs.rpcs.length ≤ 1 ∧ s.nfs.started = [0] := by
  obtain ⟨s, hr, hids⟩ := reachable_of_run (fun _ _ => True) 2 twoLookups
    (fun s => s.nfs.requests.map (·.id) = [0, 1]) (by decide +kernel)
  obtain ⟨hone, -, -, m, -, hrange, -, hstarted⟩ := nfs_requests_serialised hr
  refine ⟨s, hr, hids, hone, ?_⟩
  rw [hids] at hrange
  cases hreq : s.nfs.requests with
  | nil => simp [hreq] at hids
  | cons head rest =>
    obtain rfl : 0 = m := by
      rw [hreq, List.length_cons, List.range'_succ] at hrange
      exact (List.cons.inj hrange).1
    simpa [hreq, List.range_succ] using hstarted

end Vfs

end Sos
