import SysProg.Kvs.Session
import SysProg.Proofs.Kvs.Parse
import SysProg.Proofs.Kvs.HashTable

/-!
# `SysProg.Proofs.Kvs.Session`: fragmentation does not matter

A `Delivery` is one request together with the inputs that bring it: `recv` may cut it into
any pieces, with timeouts and interrupts between them, and `send` may take the reply in any
pieces.

* `skvsServe_partial` and `skvsServe_complete`: `skvs_serve` waits for the line feed, and
  then answers like the reference interpreter.
* `Serving` is the invariant of the loop: the buffer starts with what was received of the
  current request.
* `session_fragmentation`: the bytes sent are the replies of the reference interpreter, one
  for each request, in order.
-/

set_option autoImplicit false

namespace SysProg.Kvs

open SysProg.Lib

/-! ### The inputs of a half-duplex client -/

/-- The text of a request: the bytes before its line feed. -/
structure IsText (w : List UInt8) : Prop where
  nul_free : 0 ∉ w
  lf_free : lf ∉ w
  fits : w.length + 1 ≤ bufSize

/-- What an input adds to the receive buffer. -/
def Input.bytes (i : Input) : List UInt8 :=
  match i.recv with
  | .data bytes => bytes
  | _ => []

/-- What a list of inputs adds. -/
def received (is : List Input) : List UInt8 := is.flatMap Input.bytes

/-- The connection stays up: `recv` brings something or is to be repeated, and `send` does
not fail. -/
structure Input.Benign (i : Input) : Prop where
  recv : i.recv = .retry ∨ i.bytes ≠ []
  sends : .failed ∉ i.sends

/-- One request with the inputs that bring it. The last of them brings its line feed. -/
structure Delivery where
  text : List UInt8
  pieces : List Input
  last : Input
  isText : IsText text
  benign : ∀ i ∈ pieces ++ [last], i.Benign
  last_data : last.bytes ≠ []
  received_eq : received (pieces ++ [last]) = text ++ [lf]

namespace Delivery

def inputs (d : Delivery) : List Input := d.pieces ++ [d.last]

/-- The same request in a single `recv`. -/
def whole (d : Delivery) : Delivery where
  text := d.text
  pieces := []
  last := { d.last with recv := .data (d.text ++ [lf]) }
  isText := d.isText
  benign := by
    intro i hi
    rw [List.nil_append, List.mem_singleton] at hi
    subst hi
    exact ⟨Or.inr (by simp [Input.bytes]), (d.benign d.last (by simp)).sends⟩
  last_data := by simp [Input.bytes]
  received_eq := by simp [received, Input.bytes]

end Delivery

/-- The reference interpreter on a request. -/
def refStep (m : CString → Option CString) (d : Delivery) :
    Option ((CString → Option CString) × List (List UInt8)) :=
  some ((refServe m d.last.mem d.text).1, [(refServe m d.last.mem d.text).2])

/-! ### `skvs_serve` -/

/-- The operation of a message. It has the key and the value of the message, as C strings. -/
theorem message_op {w : List UInt8} {r : Message} (h : message w = some r) :
    ∃ op, r.op = some op := by
  -- A command that takes no value makes an operation of the key alone.
  have hkey : ∀ x cmd key, keyCommand x = some cmd →
      ∃ op, (Message.mk cmd key none).op = some op := by
    intro x cmd key hx
    unfold keyCommand at hx
    split at hx
    · cases hx; exact ⟨_, rfl⟩
    · split at hx
      · cases hx; exact ⟨_, rfl⟩
      · split at hx
        · cases hx; exact ⟨_, rfl⟩
        · cases hx
  -- A command with a value makes one of both.
  have hvalue : ∀ x cmd key value, valueCommand x = some cmd →
      ∃ op, (Message.mk cmd key (some value)).op = some op := by
    intro x cmd key value hx
    unfold valueCommand at hx
    split at hx
    · cases hx; exact ⟨_, rfl⟩
    · split at hx
      · cases hx; exact ⟨_, rfl⟩
      · cases hx
  unfold message at h
  split at h
  · split at h
    · obtain ⟨cmd, hcmd, rfl⟩ := Option.map_eq_some_iff.mp h
      exact hkey _ cmd _ hcmd
    · cases h
  · split at h
    · obtain ⟨cmd, hcmd, rfl⟩ := Option.map_eq_some_iff.mp h
      exact hvalue _ cmd _ _ hcmd
    · cases h
  · cases h

/-- The parser calls the operation of the message it has read. -/
theorem Parsed.Reads.op_eq {p : Parsed} {r : Message} {op : MapOp CString CString}
    (h : p.Reads (some r)) (hop : r.op = some op) : p.op = some op := by
  obtain ⟨hcmd, ⟨key, hkey, hstr⟩, hvalue⟩ := h
  unfold Parsed.op
  simp only [hcmd, hkey]
  unfold Message.op at hop
  rw [← hvalue] at hop
  cases hv : p.value <;> rw [hv] at hop <;> revert hop <;> cases r.cmd <;> simp [hstr]

/-- A message has one of the five commands. -/
theorem Message.op_cmd {r : Message} {op : MapOp CString CString} (h : r.op = some op) :
    r.cmd ≠ .incomplete ∧ r.cmd ≠ .invalid := by
  unfold Message.op at h
  constructor <;> intro hcmd <;> rw [hcmd] at h <;> simp at h

/-- The text of the reply is the answer of the protocol. -/
theorem replyText_apply (m : CString → Option CString) (allocated : Bool)
    (op : MapOp CString CString) :
    replyText op (op.apply m allocated).2 = answer (m op.key) allocated op := by
  cases op with
  | insert k v =>
      cases hm : m k <;> cases allocated <;>
        simp [MapOp.apply, MapOp.key, replyText, answer, msgFor, hm]
  | read k => cases hm : m k <;> simp [MapOp.apply, MapOp.key, replyText, answer, msgFor, hm]
  | update k v =>
      cases hm : m k <;> cases allocated <;>
        simp [MapOp.apply, MapOp.key, replyText, answer, msgFor, hm]
  | delete k => cases hm : m k <;> simp [MapOp.apply, MapOp.key, replyText, answer, msgFor, hm]

/-- Before the line feed `skvs_serve` does nothing to the table. -/
theorem skvsServe_partial (t : Table) (mem : Alloc) {buf w : List UInt8} (h0 : 0 ∉ w)
    (hlf : lf ∉ w) (hw : w <+: buf) (hbuf : buf.length = bufSize + 1) (hne : w ≠ [])
    (hlen : w.length < bufSize) :
    skvsServe t mem buf w.length = some (t, buf.set w.length 0, .incomplete) := by
  have hpos : ¬ w.length = 0 := fun hzero => hne (List.length_eq_zero_iff.mp hzero)
  simp only [skvsServe, if_neg hpos, skvsParse_incomplete h0 hlf hw hbuf hlen]

/-- When the parser has read the message of a text, `skvs_serve` answers like the reference
interpreter on this text. -/
theorem Rep.skvsServe_of_reads {t : Table} {ps : Int → List Ptr} {m : CString → Option CString}
    (h : Rep t ps m) {mem : Alloc} (hfit : mem.Fits t) {buf w : List UInt8} {rlen : Nat}
    (hpos : rlen ≠ 0) (hreads : (skvsParse buf rlen).Reads (message w)) :
    ∃ t' ps', skvsServe t mem buf rlen
        = some (t', (skvsParse buf rlen).buffer, .reply (refServe m mem w).2) ∧
      Rep t' ps' (refServe m mem w).1 := by
  -- The message decides: the reply is an error, or the table is called.
  obtain ⟨p, hp⟩ : ∃ p, p = skvsParse buf rlen := ⟨_, rfl⟩
  rw [← hp] at hreads ⊢
  unfold refServe
  cases hmsg : message w with
  | none =>
      rw [hmsg] at hreads
      have hcmd : p.cmd = .invalid := hreads
      exact ⟨t, ps, by simp [skvsServe, hpos, ← hp, hcmd], h⟩
  | some r =>
      obtain ⟨op, hop⟩ := message_op hmsg
      rw [hmsg] at hreads
      have hpop := hreads.op_eq hop
      obtain ⟨hcomplete, hvalid⟩ := Message.op_cmd hop
      rw [← hreads.1] at hcomplete hvalid
      obtain ⟨t', ps', hcall, hrep⟩ := h.call_spec hfit op
      have hserve : skvsServe t mem buf rlen
          = some (t', p.buffer, .reply (answer (m op.key) (mem.succeeds op) op ++ [lf])) := by
        unfold skvsServe
        rw [if_neg hpos, ← hp]
        simp only [hpop, hcall, Option.map_some, replyText_apply]
      rw [Option.bind_some, hop]
      exact ⟨t', ps', hserve, hrep⟩

/-- With the line feed it answers like the reference interpreter. -/
theorem skvsServe_complete {t : Table} {ps : Int → List Ptr} {m : CString → Option CString}
    (h : Rep t ps m) {mem : Alloc} (hfit : mem.Fits t) {buf w : List UInt8} (ht : IsText w)
    (hw : w ++ [lf] <+: buf) (hbuf : buf.length = bufSize + 1) :
    ∃ t' ps' buf', skvsServe t mem buf (w.length + 1)
        = some (t', buf', .reply (refServe m mem w).2) ∧
      Rep t' ps' (refServe m mem w).1 ∧ buf'.length = bufSize + 1 := by
  have hreads := skvsParse_complete ht.nul_free ht.lf_free hw hbuf ht.fits
  obtain ⟨t', ps', hserve, hrep⟩ := h.skvsServe_of_reads hfit (Nat.succ_ne_zero _) hreads
  exact ⟨t', ps', _, hserve, hrep, (length_skvsParse buf _).trans hbuf⟩

/-! ### `send_all` -/

/-- What was sent is the buffer, in order. Each `send` takes a part from the front of what is left.
-/
theorem sendAll_flatten {sends : List Send} {buf : List UInt8} {chunks : List (List UInt8)}
    (h : sendAll sends buf = some (chunks, true)) : chunks.flatten = buf := by
  induction sends generalizing buf chunks with
  | nil =>
      cases buf with
      | nil => cases h; rfl
      | cons c buf => cases h
  | cons s sends ih =>
      cases buf with
      | nil => cases h; rfl
      | cons c buf =>
          cases s with
          | sent n =>
              simp only [sendAll] at h
              split at h
              · obtain ⟨⟨chunks', ok⟩, hrest, heq⟩ := Option.map_eq_some_iff.mp h
                cases heq
                rw [List.flatten_cons, ih hrest, List.take_append_drop]
              · cases h
          | retry => exact ih h
          | failed => cases h

/-- Without an error all of the buffer is sent. A `send` that takes less than all is followed by
another one. -/
theorem sendAll_complete {sends : List Send} {buf : List UInt8} {chunks : List (List UInt8)}
    {ok : Bool} (hsends : .failed ∉ sends) (h : sendAll sends buf = some (chunks, ok)) :
    ok = true := by
  induction sends generalizing buf chunks with
  | nil =>
      cases buf with
      | nil => cases h; rfl
      | cons c buf => cases h
  | cons s sends ih =>
      have hrest : .failed ∉ sends := fun hmem => hsends (List.mem_cons_of_mem _ hmem)
      cases buf with
      | nil => cases h; rfl
      | cons c buf =>
          cases s with
          | sent n =>
              simp only [sendAll] at h
              split at h
              · obtain ⟨⟨chunks', ok'⟩, hsend, heq⟩ := Option.map_eq_some_iff.mp h
                cases heq
                exact ih hrest hsend
              · cases h
          | retry => exact ih hrest h
          | failed => exact absurd List.mem_cons_self hsends

/-! ### One iteration of the loop -/

/-- The loop serves a client: the table stores `m`, and the buffer starts with the bytes `w`
that were received of the current request. -/
structure Serving (t : Table) (s : Session) (m : CString → Option CString) (w : List UInt8) :
    Prop where
  table : ∃ ps, Rep t ps m
  isOpen : s.isOpen = true
  size : s.rbuf.length = bufSize + 1
  off : s.off = w.length
  bytes : w <+: s.rbuf

/-- What was received follows what was there. -/
theorem prefix_receive {rbuf w : List UInt8} (hw : w <+: rbuf) (bytes : List UInt8) :
    w ++ bytes <+: receive rbuf w.length bytes := by
  rw [receive, ← List.prefix_iff_eq_take.mp hw]
  exact List.prefix_append _ _

/-- `recv` writes into the buffer. Its size stays, since there is room for the bytes. -/
theorem length_receive {rbuf : List UInt8} {off : Nat} {bytes : List UInt8}
    (h : off + bytes.length ≤ rbuf.length) : (receive rbuf off bytes).length = rbuf.length := by
  simp only [receive, List.length_append, List.length_take, List.length_drop]
  omega

/-- An input with bytes is a `recv` that returned them. -/
theorem Input.recv_eq {i : Input} (h : i.bytes ≠ []) : i.recv = .data i.bytes := by
  unfold Input.bytes at h ⊢
  split at h
  · rename_i hrecv
    simp only [hrecv]
  · exact absurd rfl h

/-- The loop calls `skvs_serve` only with an allocator that keeps its contract. -/
theorem fits_of_handleClient {t : Table} {s : Session} {i : Input}
    {r : Table × Session × List (List UInt8)} (hi : i.bytes ≠ [])
    (h : handleClient t s i = some r) : i.mem.Fits t := by
  unfold handleClient at h
  rw [Input.recv_eq hi] at h
  split at h
  · cases h
  · simp only at h
    split at h
    · cases h
    · rename_i hguard
      simp only [not_or, Option.not_isSome_iff_eq_none] at hguard
      exact hguard.2.2

namespace Serving

variable {t : Table} {s : Session} {m : CString → Option CString} {w text : List UInt8}
  {i : Input}

/-- The session's buffer has `BUF_SIZE + 1` bytes behind a `recv` as well, while the request fits
into it. -/
theorem length_receive (h : Serving t s m w) (hlen : (w ++ i.bytes).length ≤ bufSize) :
    (receive s.rbuf w.length i.bytes).length = bufSize + 1 := by
  have hsize := h.size
  rw [List.length_append] at hlen
  rw [SysProg.Kvs.length_receive (by omega), hsize]

/-- An iteration with bytes that fit into the buffer calls `skvs_serve`. -/
theorem handleClient_eq (h : Serving t s m w) (hi : i.bytes ≠ []) (hfit : i.mem.Fits t)
    (hlen : (w ++ i.bytes).length ≤ bufSize) :
    handleClient t s i
      = (skvsServe t i.mem (receive s.rbuf w.length i.bytes) (w ++ i.bytes).length).bind
          (respond i.sends (w ++ i.bytes).length) := by
  have hguard : ¬ (i.bytes = [] ∨ bufSize - w.length < i.bytes.length ∨
      (t.nodes i.mem.node).isSome = true) := by
    rw [show t.nodes i.mem.node = none from hfit]
    rw [List.length_append] at hlen
    simp only [hi, false_or, Option.isSome_none, Bool.false_eq_true, or_false, Nat.not_lt]
    omega
  unfold handleClient
  rw [Input.recv_eq hi, h.isOpen]
  simp only [Bool.not_true, Bool.false_eq_true, if_false, h.off, if_neg hguard,
    List.length_append]

/-- A piece of a request that does not complete it is kept. -/
theorem partial_eq (h : Serving t s m w) (ht : IsText text) (hi : i.bytes ≠ [])
    (hpre : w ++ i.bytes <+: text) (hfit : i.mem.Fits t) :
    ∃ s', handleClient t s i = some (t, s', []) ∧ Serving t s' m (w ++ i.bytes) := by
  have hlen := hpre.length_le
  have hfits := ht.fits
  have hsize := h.length_receive (show (w ++ i.bytes).length ≤ bufSize by omega)
  have hserve := skvsServe_partial t i.mem (fun hmem => ht.nul_free (hpre.subset hmem))
    (fun hmem => ht.lf_free (hpre.subset hmem)) (prefix_receive h.bytes i.bytes) hsize
    (by simp [hi]) (by omega)
  rw [h.handleClient_eq hi hfit (by omega), hserve, Option.bind_some]
  simp only [respond, if_neg (show ¬ bufSize ≤ (w ++ i.bytes).length by omega)]
  refine ⟨_, rfl, h.table, rfl, ?_, rfl, ?_⟩
  · rw [List.length_set, hsize]
  · exact prefix_set_length (prefix_receive h.bytes i.bytes) 0

/-- The piece that completes a request is answered. The request is cut where its line feed is,
whatever the pieces were. -/
theorem complete_eq (h : Serving t s m w) (ht : IsText text) (hi : i.Benign)
    (hne : i.bytes ≠ []) (hrecv : w ++ i.bytes = text ++ [lf]) (hfit : i.mem.Fits t) :
    ∃ t' s', handleClient t s i
        = (sendAll i.sends (refServe m i.mem text).2).map (fun r => (t', s', r.1)) ∧
      Serving t' s' (refServe m i.mem text).1 [] := by
  have hlen : (w ++ i.bytes).length = text.length + 1 := by rw [hrecv]; simp
  have hfits := ht.fits
  have hsize := h.length_receive (show (w ++ i.bytes).length ≤ bufSize by omega)
  have hpre := prefix_receive h.bytes i.bytes
  rw [hrecv] at hpre
  obtain ⟨ps, hrep⟩ := h.table
  obtain ⟨t', ps', buf', hserve, hrep', hbuf'⟩ := skvsServe_complete hrep hfit ht hpre hsize
  refine ⟨t', ⟨buf', 0, true⟩, ?_, ⟨ps', hrep'⟩, rfl, hbuf', rfl, List.nil_prefix⟩
  rw [h.handleClient_eq hne hfit (by omega), hlen, hserve, Option.bind_some, respond]
  cases hsend : sendAll i.sends (refServe m i.mem text).2 with
  | none => rfl
  | some r =>
      obtain ⟨chunks, ok⟩ := r
      rw [show ok = true from sendAll_complete hi.sends hsend]
      rfl

end Serving

/-! ### The loop -/

/-- Inversion of an iteration. -/
theorem sessionStep_eq_some {st st' : Table × Session} {i : Input}
    {es : List (List UInt8)} (h : sessionStep st i = some (st', es)) :
    handleClient st.1 st.2 i = some (st'.1, st'.2, es) := by
  obtain ⟨r, hr, heq⟩ := Option.map_eq_some_iff.mp h
  cases heq
  exact hr

section
variable {st st' : Table × Session} {m : CString → Option CString} {w text : List UInt8}
  {i : Input} {is : List Input} {log : List (List UInt8)}

/-- An iteration that does not complete the request sends nothing and keeps its bytes. -/
theorem Serving.step_partial (h : Serving st.1 st.2 m w) (ht : IsText text) (hi : i.Benign)
    (hpre : w ++ i.bytes <+: text) (hstep : sessionStep st i = some (st', log)) :
    log = [] ∧ Serving st'.1 st'.2 m (w ++ i.bytes) := by
  have hloop := sessionStep_eq_some hstep
  -- `recv` is repeated after a timeout, and otherwise it brings a piece.
  rcases hi.recv with hretry | hne
  · have hbytes : i.bytes = [] := by simp only [Input.bytes, hretry]
    simp only [handleClient, h.isOpen, hretry, Bool.not_true, Bool.false_eq_true, if_false,
      Option.some.injEq, Prod.mk.injEq] at hloop
    obtain ⟨ht', hs', rfl⟩ := hloop
    rw [hbytes, List.append_nil, ← ht', ← hs']
    exact ⟨rfl, h⟩
  · obtain ⟨s', heq, hserving⟩ := h.partial_eq ht hne hpre (fits_of_handleClient hne hloop)
    rw [heq, Option.some.injEq, Prod.mk.injEq, Prod.mk.injEq] at hloop
    obtain ⟨ht', hs', rfl⟩ := hloop
    rw [← ht', ← hs']
    exact ⟨rfl, hserving⟩

/-- The iteration that completes the request sends the reply. -/
theorem Serving.step_complete (h : Serving st.1 st.2 m w) (ht : IsText text) (hi : i.Benign)
    (hne : i.bytes ≠ []) (hrecv : w ++ i.bytes = text ++ [lf])
    (hstep : sessionStep st i = some (st', log)) :
    log.flatten = (refServe m i.mem text).2 ∧
      Serving st'.1 st'.2 (refServe m i.mem text).1 [] := by
  have hloop := sessionStep_eq_some hstep
  obtain ⟨t', s', heq, hserving⟩ := h.complete_eq ht hi hne hrecv (fits_of_handleClient hne hloop)
  rw [heq] at hloop
  obtain ⟨⟨chunks, ok⟩, hsend, hr⟩ := Option.map_eq_some_iff.mp hloop
  rw [Prod.mk.injEq, Prod.mk.injEq] at hr
  obtain ⟨ht', hs', rfl⟩ := hr
  rw [sendAll_complete hi.sends hsend] at hsend
  rw [← ht', ← hs']
  exact ⟨sendAll_flatten hsend, hserving⟩

/-- The pieces of a request, as long as its line feed has not come. They are collected in the
buffer, and nothing is sent. -/
theorem Serving.run_partial (h : Serving st.1 st.2 m w) (ht : IsText text)
    (hi : ∀ i ∈ is, i.Benign) (hpre : w ++ received is <+: text)
    (hrun : run sessionStep st is = some (st', log)) :
    log = [] ∧ Serving st'.1 st'.2 m (w ++ received is) := by
  -- Induction on the inputs. `Serving` is the invariant, and each input adds its bytes to `w`.
  induction is generalizing st w log with
  | nil =>
      rw [run_nil, Option.some.injEq, Prod.mk.injEq] at hrun
      obtain ⟨rfl, rfl⟩ := hrun
      exact ⟨rfl, by simpa [received] using h⟩
  | cons i is ih =>
      have hbytes : w ++ received (i :: is) = w ++ i.bytes ++ received is := by
        simp [received]
      rw [hbytes] at hpre ⊢
      obtain ⟨st₁, log₁, log₂, hstep, hrest, rfl⟩ := run_append_eq_some
        (show run sessionStep st ([i] ++ is) = some (st', log) from hrun)
      rw [run_singleton] at hstep
      obtain ⟨rfl, hserving⟩ := h.step_partial ht (hi i List.mem_cons_self)
        ((List.prefix_append _ _).trans hpre) hstep
      obtain ⟨rfl, hlast⟩ := ih hserving (fun j hj => hi j (List.mem_cons_of_mem _ hj)) hpre hrest
      exact ⟨rfl, hlast⟩

/-- What comes before the last piece of a request is a part of its text. -/
theorem Delivery.pieces_prefix (d : Delivery) : received d.pieces <+: d.text := by
  have hrecv := d.received_eq
  have hsplit : received (d.pieces ++ [d.last]) = received d.pieces ++ d.last.bytes := by
    simp [received]
  rw [hsplit] at hrecv
  have hpre : received d.pieces <+: d.text ++ [lf] := ⟨_, hrecv⟩
  rcases List.prefix_concat_iff.mp hpre with hall | hpre
  -- The last piece has bytes, so the line feed is in it.
  · rw [hall] at hrecv
    exact absurd (List.self_eq_append_right.mp hrecv.symm) d.last_data
  · exact hpre

/-- One request is answered by the reference interpreter. -/
theorem Serving.run_delivery (h : Serving st.1 st.2 m []) (d : Delivery)
    (hrun : run sessionStep st d.inputs = some (st', log)) :
    log.flatten = (refServe m d.last.mem d.text).2 ∧
      Serving st'.1 st'.2 (refServe m d.last.mem d.text).1 [] := by
  obtain ⟨st₁, log₁, es, hpieces, hlast, rfl⟩ := run_snoc_eq_some hrun
  obtain ⟨rfl, hserving⟩ := h.run_partial d.isText
    (fun i hi => d.benign i (List.mem_append_left _ hi)) (by simpa using d.pieces_prefix) hpieces
  have hrecv : received d.pieces ++ d.last.bytes = d.text ++ [lf] := by
    rw [← d.received_eq]
    simp [received]
  exact hserving.step_complete d.isText (d.benign d.last (by simp)) d.last_data
    (by simpa using hrecv) hlast

/-- A sequence of requests is answered by the reference interpreter, one reply for each. The
induction is on the requests, and between them the buffer is empty. -/
theorem Serving.run_deliveries {ds : List Delivery} (h : Serving st.1 st.2 m [])
    (hrun : run sessionStep st (ds.flatMap Delivery.inputs) = some (st', log)) :
    ∃ m' replies, run refStep m ds = some (m', replies) ∧ log.flatten = replies.flatten ∧
      Serving st'.1 st'.2 m' [] := by
  -- Induction on the requests, one `run_delivery` for each.
  induction ds generalizing st m log with
  | nil =>
      rw [List.flatMap_nil, run_nil, Option.some.injEq, Prod.mk.injEq] at hrun
      obtain ⟨rfl, rfl⟩ := hrun
      exact ⟨m, [], rfl, rfl, h⟩
  | cons d ds ih =>
      rw [List.flatMap_cons] at hrun
      obtain ⟨st₁, log₁, log₂, hone, hrest, rfl⟩ := run_append_eq_some hrun
      obtain ⟨hlog₁, hserving⟩ := h.run_delivery d hone
      obtain ⟨m', replies, href, hlog₂, hlast⟩ := ih hserving hrest
      refine ⟨m', (refServe m d.last.mem d.text).2 :: replies, ?_, ?_, hlast⟩
      · simp only [run, refStep, href]
        rfl
      · rw [List.flatten_append, List.flatten_cons, hlog₁, hlog₂]

end

/-- The reference interpreter answers each request by itself, and does not see its pieces. -/
theorem run_refStep_whole (m : CString → Option CString) (ds : List Delivery) :
    run refStep m (ds.map Delivery.whole) = run refStep m ds := by
  induction ds generalizing m with
  | nil => rfl
  | cons d ds ih =>
      simp only [List.map_cons, run, refStep, ih]
      rfl

/-- A connection that was accepted has received nothing. -/
theorem Serving.accept {st : Table × Session} {ps : Int → List Ptr}
    {m : CString → Option CString} (h : Rep st.1 ps m) {rbuf : List UInt8}
    (hrbuf : rbuf.length = bufSize + 1) (hst : st.2 = Session.accept rbuf) :
    Serving st.1 st.2 m [] := by
  rw [hst]
  exact ⟨⟨ps, h⟩, rfl, hrbuf, rfl, List.nil_prefix⟩

/-- The replies of a session do not depend on how its requests are cut. A client connects to
a table that some calls have filled. It sends the requests `ds`, each after the reply to the
one before, and has sent a part `rest` of another one. Then the server has sent the replies of
the reference interpreter, one for each request and in order, and the table stores the map
of the interpreter. With every request in a single `recv` it sends the same. It also goes on:
every further input of the client that the allocator and `send` can serve is served. -/
theorem session_fragmentation (n : UInt64) (hpos : 0 < n) (hle : n ≤ 2147483647)
    (calls : List (MapOp CString CString × Alloc)) (t : Table) (past : List (Reply CString))
    (hcalls : run Table.step (hashInit n) calls = some (t, past))
    (rbuf : List UInt8) (hrbuf : rbuf.length = bufSize + 1)
    (ds : List Delivery) (rest : List Input) (hrest : ∀ i ∈ rest, i.Benign)
    (next : List UInt8) (hnext : IsText next) (hpart : received rest <+: next)
    (st : Table × Session) (log : List (List UInt8))
    (hrun : run sessionStep (t, Session.accept rbuf) (ds.flatMap Delivery.inputs ++ rest)
      = some (st, log)) :
    ∃ m₀ m replies, run mapStep (fun _ => none) calls = some (m₀, past) ∧
      run refStep m₀ ds = some (m, replies) ∧
      log.flatten = replies.flatten ∧ st.1.Refines m ∧
      (∀ st' log', run sessionStep (t, Session.accept rbuf)
          ((ds.map Delivery.whole).flatMap Delivery.inputs) = some (st', log') →
        log'.flatten = log.flatten ∧ st'.1.Refines m) ∧
      ∀ i w, i.Benign → i.mem.Fits st.1 → IsText w →
        (received (rest ++ [i]) <+: w ∨
          received (rest ++ [i]) = w ++ [lf] ∧
            (sendAll i.sends (refServe m i.mem w).2).isSome) →
        (sessionStep st i).isSome := by
  obtain ⟨m₀, ps, hmap, hrep⟩ := rep_of_run hpos hle hcalls
  obtain ⟨start, hst⟩ : ∃ start, start = (t, Session.accept rbuf) := ⟨_, rfl⟩
  rw [← hst] at hrun ⊢
  have hrep₀ : Rep start.1 ps m₀ := by
    rw [hst]
    exact hrep
  have hstart := Serving.accept hrep₀ hrbuf (by rw [hst])
  obtain ⟨st₁, log₁, log₂, hds, hpieces, rfl⟩ := run_append_eq_some hrun
  obtain ⟨m, replies, href, hlog₁, hserving⟩ := hstart.run_deliveries hds
  obtain ⟨rfl, hlast⟩ := hserving.run_partial hnext hrest (by simpa using hpart) hpieces
  rw [List.nil_append] at hlast
  obtain ⟨ps', hrep'⟩ := hlast.table
  refine ⟨m₀, m, replies, hmap, href, ?_, hrep'.refines, ?_, ?_⟩
  · rw [List.append_nil, hlog₁]
  · intro st' log' hwhole
    -- The requests in one piece are a run of the same requests, with the same replies.
    obtain ⟨m', replies', href', hlog', hserving'⟩ := hstart.run_deliveries hwhole
    rw [run_refStep_whole, href, Option.some.injEq, Prod.mk.injEq] at href'
    obtain ⟨rfl, rfl⟩ := href'
    obtain ⟨ps'', hrep''⟩ := hserving'.table
    exact ⟨by rw [List.append_nil, hlog', hlog₁], hrep''.refines⟩
  · intro i w hi hfit hw hcase
    have hsplit : received (rest ++ [i]) = received rest ++ i.bytes := by simp [received]
    rw [hsplit] at hcase
    unfold sessionStep
    rw [Option.isSome_map]
    rcases hi.recv with hretry | hne
    · simp [handleClient, hlast.isOpen, hretry]
    · rcases hcase with hpre | ⟨hrecv, hsend⟩
      · obtain ⟨s', heq, _⟩ := hlast.partial_eq hw hne hpre hfit
        rw [heq]
        rfl
      · obtain ⟨t', s', heq, _⟩ := hlast.complete_eq hw hi hne hrecv hfit
        rw [heq, Option.isSome_map]
        exact hsend

/-- `CREATE a 1` in three pieces with a timeout between them. The reply goes out in two
parts. -/
def createInPieces : Delivery where
  text := ascii ['C', 'R', 'E', 'A', 'T', 'E', ' ', 'a', ' ', '1']
  pieces := [⟨.data (ascii ['C', 'R', 'E']), ⟨8, true, true⟩, []⟩, ⟨.retry, ⟨8, true, true⟩, []⟩,
    ⟨.data (ascii ['A', 'T', 'E', ' ', 'a', ' ', '1']), ⟨8, true, true⟩, []⟩]
  last := ⟨.data [lf], ⟨8, true, true⟩, [.sent 4, .retry, .sent 6]⟩
  isText := ⟨by decide, by decide, by decide⟩
  benign := by
    intro i hi
    simp only [List.cons_append, List.nil_append, List.mem_cons, List.not_mem_nil, or_false] at hi
    rcases hi with rfl | rfl | rfl | rfl
    · exact ⟨Or.inr (by decide), by decide⟩
    · exact ⟨Or.inl rfl, by decide⟩
    · exact ⟨Or.inr (by decide), by decide⟩
    · exact ⟨Or.inr (by decide), by decide⟩
  last_data := by decide
  received_eq := by decide

/-- `read a` in two pieces. -/
def readInPieces : Delivery where
  text := ascii ['r', 'e', 'a', 'd', ' ', 'a']
  pieces := [⟨.data (ascii ['r']), ⟨16, true, true⟩, []⟩]
  last := ⟨.data (ascii ['e', 'a', 'd', ' ', 'a'] ++ [lf]), ⟨16, true, true⟩, [.sent 2]⟩
  isText := ⟨by decide, by decide, by decide⟩
  benign := by
    intro i hi
    simp only [List.cons_append, List.nil_append, List.mem_cons, List.not_mem_nil, or_false] at hi
    rcases hi with rfl | rfl
    · exact ⟨Or.inr (by decide), by decide⟩
    · exact ⟨Or.inr (by decide), by decide⟩
  last_data := by decide
  received_eq := by decide

/-- Two requests in pieces, and a timeout behind them. The second one reads what the first one has
stored. -/
theorem session_fragmentation_create_read :
    ∃ st log m,
      run sessionStep (hashInit 1, Session.accept (List.replicate (bufSize + 1) 0))
        ([createInPieces, readInPieces].flatMap Delivery.inputs
          ++ [⟨.retry, ⟨16, true, true⟩, []⟩]) = some (st, log) ∧
      log.flatten = msgCreateOk ++ [lf] ++ ascii ['1'] ++ [lf] ∧ st.1.Refines m := by
  have hsome : (run sessionStep (hashInit 1, Session.accept (List.replicate (bufSize + 1) 0))
      ([createInPieces, readInPieces].flatMap Delivery.inputs
        ++ [⟨.retry, ⟨16, true, true⟩, []⟩])).isSome = true := by
    rfl
  obtain ⟨⟨st, log⟩, hrun⟩ := Option.isSome_iff_exists.mp hsome
  have hbenign : ∀ i ∈ [(⟨.retry, ⟨16, true, true⟩, []⟩ : Input)], i.Benign := by
    intro i hi
    rw [List.mem_singleton] at hi
    subst hi
    exact ⟨Or.inl rfl, by decide⟩
  obtain ⟨m₀, m, replies, hmap, href, hlog, hrefines, -⟩ :=
    session_fragmentation 1 (by decide) (by decide) [] (hashInit 1) [] rfl
      (List.replicate (bufSize + 1) 0) (by simp) [createInPieces, readInPieces]
      [⟨.retry, ⟨16, true, true⟩, []⟩] hbenign [] ⟨by decide, by decide, by decide⟩
      (by decide) st log hrun
  rw [run_nil, Option.some.injEq, Prod.mk.injEq] at hmap
  rw [← hmap.1] at href
  have hreplies : (run refStep (fun _ => none) [createInPieces, readInPieces]).map
      (fun r => r.2.flatten) = some (msgCreateOk ++ [lf] ++ ascii ['1'] ++ [lf]) := by
    rfl
  rw [href, Option.map_some, Option.some.injEq] at hreplies
  exact ⟨st, log, m, hrun, hlog.trans hreplies, hrefines⟩

end SysProg.Kvs
