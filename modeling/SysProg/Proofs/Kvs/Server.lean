import SysProg.Kvs.Server
import SysProg.Proofs.Kvs.ParseBounds
import SysProg.Proofs.Kvs.SharedLinear

/-!
# `SysProg.Proofs.Kvs.Server`: the buffers of the workers

`skvs_serve` and `hash_read` copy into `wbuf` without a bound, so the replies are as long as what
earlier requests of any worker have stored. `CString.Fits` is the bound on a stored value. The
parser gives it to every key and value (`skvsParse_strings`), and

* `access_fits` and `Shared.Fits.step` keep it through every interleaving of the table functions,
* `Worker.Fits` adds what is true of the buffers of one worker,
* `Server.Inv.step` is the step lemma, and `buffers_fit` the result for runs.

`workers_noFault` brings the table's own invariant to the server.
-/

set_option autoImplicit false

namespace SysProg.Kvs

open SysProg.Lib

/-- The string fits into `wbuf` with a line feed and the terminator. -/
def CString.Fits (v : CString) : Prop := v.bytes.length + 2 ≤ bufSize + 1

/-- Every stored value fits. -/
def Table.ValuesFit (t : Table) : Prop := ∀ p n, t.nodes p = some n → n.value.Fits

/-! ### The table functions -/

/-- The strings of a request fit. -/
def Request.Fits (r : Request) : Prop := ∀ x ∈ r.op.strings, x.Fits

/-- The strings that a thread has in hand fit. -/
structure Pc.Fits (pc : Pc) : Prop where
  request : ∀ r, pc.request = some r → r.Fits
  outcome : ∀ r o, pc = .unlocking r o → ∀ v, o.reply.value = some v → v.Fits

/-- Without a request there is nothing to fit. The place has no request and no outcome. -/
theorem Pc.Fits.unoccupied {pc : Pc} (hr : pc.request = none) : pc.Fits := by
  refine ⟨fun r hr' => ?_, fun r o heq => ?_⟩
  · rw [hr] at hr'
    cases hr'
  · rw [heq] at hr
    cases hr

/-- Where no outcome is known yet, the request decides. These are the places of a table function up
to its last access. -/
theorem Pc.Fits.busy {pc : Pc} {r : Request} (hr : pc.request = some r)
    (hpc : ∀ r o, pc ≠ .unlocking r o) (h : r.Fits) : pc.Fits := by
  refine ⟨fun r' hr' => ?_, fun r' o heq => absurd heq (hpc r' o)⟩
  rw [hr, Option.some.injEq] at hr'
  exact hr' ▸ h

/-- An outcome without a value. It is the reply of a `CREATE`, `UPDATE` or `DELETE`, or of a `READ`
that finds nothing. -/
theorem Pc.Fits.unlocking {r : Request} {code : Int} {b : Bool} (h : r.Fits) :
    (Pc.unlocking r ⟨⟨code, none⟩, b⟩).Fits := by
  constructor
  · intro r' hr'
    cases hr'
    exact h
  · intro r' o heq v hv
    cases heq
    cases hv

section
variable {t : Table} {p : Ptr} {n : Node}

/-- A node is written. Its value fits, and the other nodes stay. -/
theorem Table.ValuesFit.setNode (h : t.ValuesFit) (hn : n.value.Fits) :
    (t.setNode p n).ValuesFit := by
  intro q m hm
  by_cases hq : q = p
  · subst hq
    simp only [Table.setNode, Function.update_self, Option.some.injEq] at hm
    exact hm ▸ hn
  · simp only [Table.setNode, Function.update_of_ne hq] at hm
    exact h q m hm

/-- A node is freed. The nodes that are left had the bound before. -/
theorem Table.ValuesFit.freeNode (h : t.ValuesFit) : (t.freeNode p).ValuesFit := by
  intro q m hm
  by_cases hq : q = p
  · subst hq
    simp [Table.freeNode] at hm
  · simp only [Table.freeNode, Function.update_of_ne hq] at hm
    exact h q m hm

/-- A node is taken out of its bucket. Only links change, and no value does. -/
theorem Table.ValuesFit.unlink (h : t.ValuesFit) {t' : Table} {idx : Int} {f : Found}
    (ht : t.unlink idx f = some t') : t'.ValuesFit := by
  unfold Table.unlink at ht
  split at ht
  case isTrue =>
    split at ht
    case h_1 => cases ht
    case h_2 m hm =>
      cases ht
      have hset : (t.setNode f.prev { m with next := f.node.next }).ValuesFit :=
        h.setNode (h f.prev m hm)
      exact hset
  case isFalse =>
    cases ht
    exact h

end

/-- An access keeps the bound. A value comes into the table from a request, and into an outcome from
the table, and both have the bound. -/
theorem access_fits {t t' : Table} {idx : Int} {mem : Alloc} {pc pc' : Pc} (ht : t.ValuesFit)
    (hpc : pc.Fits) (h : Shared.access t idx mem pc = some (t', pc')) :
    t'.ValuesFit ∧ pc'.Fits := by
  cases pc with
  | idle | locking r | unlocking r o | fault => cases h
  | walk r prev node =>
      have hr := hpc.request r rfl
      simp only [Shared.access] at h
      split at h
      · split at h <;> cases h
        · exact ⟨ht, .busy rfl (by simp) hr⟩
        · exact ⟨ht, .unlocking hr⟩
      · split at h
        · cases h
          exact ⟨ht, .unoccupied rfl⟩
        · split at h <;> cases h
          · exact ⟨ht, .busy rfl (by simp) hr⟩
          · exact ⟨ht, .busy rfl (by simp) hr⟩
  | found r prev node =>
      have hr := hpc.request r rfl
      simp only [Shared.access] at h
      split at h
      · cases h
        exact ⟨ht, .unoccupied rfl⟩
      · rename_i n hn
        split at h
        · cases h
          exact ⟨ht, .unlocking hr⟩
        · cases h
          refine ⟨ht, ⟨fun r' hr' => ?_, fun r' o heq v hv => ?_⟩⟩
          · cases hr'
            exact hr
          · -- `hash_read` copies the stored value.
            cases heq
            cases hv
            exact ht node n hn
        · rename_i key value hop
          have hvalue : value.Fits := hr value (by rw [hop]; simp [MapOp.strings])
          split at h <;> cases h
          · exact ⟨ht.setNode hvalue, .unlocking hr⟩
          · exact ⟨ht, .unlocking hr⟩
        · split at h
          · cases h
            exact ⟨ht, .unoccupied rfl⟩
          · rename_i hunlink
            cases h
            exact ⟨ht.unlink hunlink, .busy rfl (by simp) hr⟩
  | build r =>
      have hr := hpc.request r rfl
      simp only [Shared.access] at h
      split at h
      · rename_i key value hop
        have hvalue : value.Fits := hr value (by rw [hop]; simp [MapOp.strings])
        split at h <;> cases h
        · exact ⟨ht.setNode hvalue, .busy rfl (by simp) hr⟩
        · exact ⟨ht, .unlocking hr⟩
      · cases h
  | publish r p =>
      have hr := hpc.request r rfl
      cases h
      exact ⟨ht, .unlocking hr⟩
  | unlinked r p =>
      have hr := hpc.request r rfl
      cases h
      exact ⟨ht.freeNode, .unlocking hr⟩

section
variable {Tid : Type} {s s' : Shared Tid}

/-- The strings in the table and in the hands of its threads fit. -/
structure Shared.Fits (s : Shared Tid) : Prop where
  values : s.table.ValuesFit
  pcs : ∀ t, (s.pc t).Fits

/-- The empty table has no values, and no thread has a request. -/
theorem Shared.Fits.init (n : UInt64) : (Shared.init Tid n).Fits where
  values _ _ hn := by cases hn
  pcs _ := .unoccupied rfl

variable [DecidableEq Tid]

/-- A thread moves. The table and the other threads stay, so the bound on its new place is enough.
-/
theorem Shared.Fits.setPc (h : s.Fits) {t : Tid} {pc : Pc} (hpc : pc.Fits) :
    (s.setPc t pc).Fits :=
  ⟨h.values, Shared.forall_setPc s t pc (P := fun _ pc => pc.Fits) hpc fun u _ => h.pcs u⟩

/-- A step of the lock keeps the bound. It takes the thread to a place with the same request, and it
does not touch the table. -/
theorem Shared.Fits.lockStep (h : s.Fits) {r : Request} {a : LockAction Tid}
    (hstep : s.lockStep r a = some s') : s'.Fits := by
  obtain ⟨l, -, rfl⟩ := Option.map_eq_some_iff.mp hstep
  exact ⟨h.values, h.pcs⟩

/-- An access of a thread that has the lock keeps the bound, as `access_fits` says. -/
theorem Shared.Fits.work (h : s.Fits) {t : Tid} {mem : Alloc} (hstep : s.work t mem = some s') :
    s'.Fits := by
  have haccess : ∀ idx, ((Shared.access s.table idx mem (s.pc t)).map fun a =>
      { s.setPc t a.2 with table := a.1 }) = some s' → s'.Fits := by
    intro idx hmap
    obtain ⟨⟨table, pc⟩, hacc, rfl⟩ := Option.map_eq_some_iff.mp hmap
    obtain ⟨htable, hpc⟩ := access_fits h.values (h.pcs t) hacc
    exact ⟨htable, (h.setPc hpc).pcs⟩
  unfold Shared.work at hstep
  split at hstep
  case h_1 r hpc =>
    split at hstep
    case isTrue =>
      cases hstep
      have hr := (h.pcs t).request r (by rw [hpc]; rfl)
      exact h.setPc (.busy rfl (by simp) hr)
    case isFalse => cases hstep
  case h_7 => cases hstep
  all_goals exact haccess _ hstep

/-- A step of the table keeps the bound, when the requests have it. A call is the only step that
brings new strings. -/
theorem Shared.Fits.step (h : s.Fits) {a : SharedAction Tid}
    (ha : ∀ t r, a = .call t r → r.Fits) {es : List (HistoryEvent Tid Request Outcome)}
    (hstep : s.step a = some (s', es)) : s'.Fits := by
  cases a with
  | call t r =>
      simp only [Shared.step] at hstep
      split at hstep
      case h_1 =>
        obtain ⟨s₁, hlock, heq⟩ := Option.map_eq_some_iff.mp hstep
        cases heq
        exact (h.lockStep hlock).setPc (.busy rfl (by simp) (ha t r rfl))
      case h_2 => cases hstep
  | lock t move =>
      simp only [Shared.step] at hstep
      split at hstep
      case h_1 =>
        obtain ⟨hlock, rfl⟩ := silent_eq_some hstep
        exact h.lockStep hlock
      case h_2 => cases hstep
  | work t mem =>
      simp only [Shared.step] at hstep
      split at hstep
      case isTrue => cases hstep
      case isFalse =>
        obtain ⟨hwork, rfl⟩ := silent_eq_some hstep
        exact h.work hwork
  | release t =>
      simp only [Shared.step] at hstep
      split at hstep
      case h_1 =>
        obtain ⟨s₁, hlock, heq⟩ := Option.map_eq_some_iff.mp hstep
        cases heq
        exact (h.lockStep hlock).setPc (.unoccupied rfl)
      case h_2 => cases hstep

end

/-! ### The workers -/

/-- The text of a reply fits with its line feed. It is one of the fixed messages, or a value that
fits. -/
theorem length_replyText {op : MapOp CString CString} {r : Reply CString}
    (h : ∀ v, r.value = some v → v.Fits) : (replyText op r ++ [lf]).length ≤ bufSize := by
  have hmsg : ∀ code (positive zero : List UInt8), positive.length < bufSize →
      zero.length < bufSize → (msgFor code positive zero).length < bufSize := by
    intro code positive zero hpositive hzero
    unfold msgFor
    split
    · exact hpositive
    · split
      · exact hzero
      · decide
  have hvalue : ((r.value.map CString.bytes).getD []).length < bufSize := by
    cases hv : r.value with
    | none => decide
    | some v =>
        have hfits : v.bytes.length + 2 ≤ bufSize + 1 := h v hv
        show v.bytes.length < bufSize
        omega
  rw [List.length_append, List.length_singleton]
  cases op with
  | insert key value | update key value | delete key => exact hmsg _ _ _ (by decide) (by decide)
  | read key => exact hmsg _ _ _ hvalue (by decide)

/-- What is true of the buffers of a worker. -/
structure Worker.Fits (w : Worker) : Prop where
  size : w.rbuf.length = bufSize + 1
  off : w.stage = .receiving → w.off < bufSize
  reply : ∀ wbuf, w.stage = .sending wbuf → wbuf.length ≤ bufSize

/-- Only the stages `receiving` and `sending` ask for more than the size of the buffer. At the
others `off` may be anything. -/
theorem Worker.Fits.moved {rbuf : List UInt8} {off : Nat} {stage : Stage}
    (hsize : rbuf.length = bufSize + 1) (hrecv : stage ≠ .receiving)
    (hsend : ∀ wbuf, stage ≠ .sending wbuf) : Worker.Fits ⟨rbuf, off, stage⟩ :=
  ⟨hsize, fun h => absurd h hrecv, fun wbuf h => absurd h (hsend wbuf)⟩

/-- In front of a `recv` there is room in the buffer. So `recv` is never called with no space, which
would look like the end of the connection. -/
theorem Worker.Fits.receiving {rbuf : List UInt8} {off : Nat}
    (hsize : rbuf.length = bufSize + 1) (hoff : off < bufSize) :
    Worker.Fits ⟨rbuf, off, .receiving⟩ :=
  ⟨hsize, fun _ => hoff, fun _ h => by cases h⟩

/-- In front of `send_all` the reply fits into `wbuf`. -/
theorem Worker.Fits.sending {rbuf wbuf : List UInt8} {off : Nat}
    (hsize : rbuf.length = bufSize + 1) (hreply : wbuf.length ≤ bufSize) :
    Worker.Fits ⟨rbuf, off, .sending wbuf⟩ := by
  refine ⟨hsize, fun h => Stage.noConfusion h, fun wbuf' h => ?_⟩
  cases h
  exact hreply

namespace Server

variable {Tid : Type} {s s' : Server Tid} {t : Tid}

/-- The invariant of the server. -/
structure Inv (s : Server Tid) : Prop where
  shared : s.shared.Fits
  workers : ∀ t, (s.workers t).Fits

/-- At the start no worker has a connection, and the table is empty. The buffers have their size
from `handle_client`. -/
theorem Inv.init (n : UInt64) {rbufs : Tid → List UInt8}
    (hsize : ∀ t, (rbufs t).length = bufSize + 1) : (Server.init n rbufs).Inv where
  shared := .init n
  workers t := .moved (hsize t) (by simp) (by simp)

variable [DecidableEq Tid]

/-- One worker moves. The table and the other workers stay, so the bound on the worker is enough. -/
theorem Inv.setWorker (h : s.Inv) {w : Worker} (hw : w.Fits) : (s.setWorker t w).Inv := by
  refine ⟨h.shared, fun u => ?_⟩
  by_cases hu : u = t
  · subst hu
    simpa [Server.setWorker] using hw
  · simpa [Server.setWorker, hu] using h.workers u

/-- A step of the table keeps the invariant. The workers keep their buffers and stages. -/
theorem Inv.table (h : s.Inv) {a : SharedAction Tid} (ha : ∀ t r, a = .call t r → r.Fits)
    (hstep : s.table a = some s') : s'.Inv := by
  obtain ⟨⟨shared, es⟩, hshared, rfl⟩ := Option.map_eq_some_iff.mp hstep
  exact ⟨h.shared.step ha hshared, h.workers⟩

/-- `skvs_serve` on what is in the buffer. A request has strings that fit, by `skvsParse_strings`,
and an error has a fixed reply. A line that is not complete leaves room in the buffer. -/
theorem Inv.serve (h : s.Inv) {rbuf : List UInt8} {off : Nat} (hsize : rbuf.length = bufSize + 1)
    (hoff : off ≤ bufSize) (hstep : s.serve t rbuf off = some s') : s'.Inv := by
  have hbuf : (skvsParse rbuf off).buffer.length = bufSize + 1 :=
    (length_skvsParse rbuf off).trans hsize
  unfold Server.serve at hstep
  simp only at hstep
  split at hstep
  case h_1 hcmd =>
    cases hstep
    -- A full buffer is never incomplete, and it would be dropped.
    refine h.setWorker (.receiving hbuf ?_)
    split
    case isTrue => decide
    case isFalse hlt => omega
  case h_2 =>
    cases hstep
    exact h.setWorker (.sending hbuf (by decide))
  case h_3 =>
    split at hstep
    case h_1 =>
      cases hstep
      exact h.setWorker (.sending hbuf (by decide))
    case h_2 op hop =>
      have hstrings := skvsParse_strings hsize hoff hop
      refine (h.setWorker (.moved hbuf (by simp) (by simp))).table ?_ hstep
      intro u r heq x hx
      cases heq
      have hlen := hstrings x hx
      show x.bytes.length + 2 ≤ bufSize + 1
      omega

/-- A `recv` keeps the invariant. It brings at most as many bytes as there is room for, and then
`skvs_serve` looks at them, and at the end of a connection the worker waits for the next one. -/
theorem Inv.recv (h : s.Inv) {r : Recv} (hstage : (s.workers t).stage = .receiving)
    (hstep : s.recv t r = some s') : s'.Inv := by
  have hw := h.workers t
  cases r with
  | retry =>
      cases hstep
      exact h
  | failed =>
      cases hstep
      exact h.setWorker (.moved hw.size (by simp) (by simp))
  | closed =>
      cases hstep
      exact h.setWorker (.moved hw.size (by simp) (by simp))
  | data bytes =>
      simp only [Server.recv] at hstep
      split at hstep
      case isTrue => cases hstep
      case isFalse hguard =>
        obtain ⟨-, hfits⟩ := not_or.mp hguard
        have hoff := hw.off hstage
        refine h.serve ?_ (by omega) hstep
        rw [length_receive (by rw [hw.size]; omega), hw.size]

/-- A table function returns, and the reply is put into `wbuf`. Its value is a stored one, so it
fits with a line feed and a terminator. -/
theorem Inv.finish (h : s.Inv) {op : MapOp CString CString} (hstep : s.finish t op = some s') :
    s'.Inv := by
  unfold Server.finish at hstep
  split at hstep
  case h_1 r o hpc =>
    have hreply := @length_replyText op _ ((h.shared.pcs t).outcome r o hpc)
    refine (h.setWorker (.sending (h.workers t).size hreply)).table ?_ hstep
    intro u r' heq
    cases heq
  case h_2 => cases hstep

/-- Every step keeps the invariant. A step is one of the table, a `recv`, the return of a table
function, or a worker that moves on its own. -/
theorem Inv.step (h : s.Inv) {a : ServerAction Tid} {es : List (Tid × List UInt8)}
    (hstep : s.step a = some (s', es)) : s'.Inv := by
  cases a with
  | accept t =>
      simp only [Server.step] at hstep
      split at hstep
      case h_1 =>
        cases hstep
        exact h.setWorker (.receiving (h.workers t).size (by decide))
      case h_2 => cases hstep
  | recv t r =>
      simp only [Server.step] at hstep
      split at hstep
      case h_1 hstage => exact h.recv hstage (silent_eq_some hstep).1
      case h_2 => cases hstep
  | lock t move =>
      simp only [Server.step] at hstep
      split at hstep
      case h_1 => exact h.table (fun u r heq => by cases heq) (silent_eq_some hstep).1
      case h_2 => cases hstep
  | work t mem =>
      simp only [Server.step] at hstep
      split at hstep
      case h_1 => exact h.table (fun u r heq => by cases heq) (silent_eq_some hstep).1
      case h_2 => cases hstep
  | release t =>
      simp only [Server.step] at hstep
      split at hstep
      case h_1 => exact h.finish (silent_eq_some hstep).1
      case h_2 => cases hstep
  | send t sends =>
      simp only [Server.step] at hstep
      split at hstep
      case h_1 =>
        obtain ⟨⟨chunks, ok⟩, -, heq⟩ := Option.map_eq_some_iff.mp hstep
        cases heq
        cases ok with
        | true => exact h.setWorker (.receiving (h.workers t).size (show 0 < bufSize by decide))
        | false => exact h.setWorker (.moved (h.workers t).size (by simp) (by simp))
      case h_2 => cases hstep

/-- What keeps the accesses to the buffers in bounds: the space that `recv` is called with is not
empty, `skvs_parse` writes to no index behind `BUF_SIZE` whatever `recv` brings, each stored value
fits into `wbuf` with a line feed and a terminator, and no reply is longer than `BUF_SIZE`. -/
structure BuffersFit (s : Server Tid) : Prop where
  recv_off : ∀ t, (s.workers t).stage = .receiving → (s.workers t).off < bufSize
  parse_writes : ∀ t bytes, (s.workers t).stage = .receiving →
    bytes.length ≤ bufSize - (s.workers t).off →
    ∀ i ∈ skvsParseWrites (receive (s.workers t).rbuf (s.workers t).off bytes)
      ((s.workers t).off + bytes.length), i ≤ bufSize
  stored : ∀ p n, s.shared.table.nodes p = some n → n.value.bytes.length + 2 ≤ bufSize + 1
  reply : ∀ t wbuf, (s.workers t).stage = .sending wbuf → wbuf.length ≤ bufSize

omit [DecidableEq Tid] in
/-- The invariant keeps the accesses to the buffers in bounds. The writes of the parser are those of
`skvsParse_writes_le`, and the rest is in the bounds on workers and values. -/
theorem Inv.buffersFit (h : s.Inv) : s.BuffersFit where
  recv_off t := (h.workers t).off
  parse_writes t bytes hstage hlen i hi := by
    have hw := h.workers t
    have hoff := hw.off hstage
    have hsize : (receive (s.workers t).rbuf (s.workers t).off bytes).length = bufSize + 1 := by
      rw [length_receive (by rw [hw.size]; omega), hw.size]
    have := skvsParse_writes_le hsize (by omega) i hi
    omega
  stored := h.shared.values
  reply t := (h.workers t).reply

/-- The buffers never overflow. In every state of every run the accesses to the buffers stay in
bounds, whatever the clients send, however it is cut, and however the workers are interleaved. -/
theorem buffers_fit (n : UInt64) (rbufs : Tid → List UInt8)
    (hsize : ∀ t, (rbufs t).length = bufSize + 1) (acts : List (ServerAction Tid))
    (log : List (Tid × List UInt8)) (hrun : run step (init n rbufs) acts = some (s, log)) :
    s.BuffersFit :=
  (run_invariant (I := Inv) (Inv.init n hsize) (fun _ _ _ _ hI hs => hI.step hs) hrun).buffersFit

/-- One worker stores a value and another one reads it. Both replies are sent, and the second one is
the value from the table. -/
theorem buffers_fit_create_read :
    ∃ s log, run step (init 1 fun _ : Fin 2 => List.replicate (bufSize + 1) 0)
        [.accept 0, .accept 1,
          .recv 0 (.data (ascii ['C', 'R', 'E', 'A', 'T', 'E', ' ', 'k', ' ', 'v'] ++ [lf])),
          .lock 0 .enter, .work 0 ⟨0, true, true⟩, .work 0 ⟨0, true, true⟩,
          .work 0 ⟨8, true, true⟩, .work 0 ⟨0, true, true⟩, .release 0, .send 0 [.sent 10],
          .recv 1 (.data (ascii ['R', 'E', 'A', 'D', ' ', 'k'] ++ [lf])),
          .lock 1 .enter, .work 1 ⟨0, true, true⟩, .work 1 ⟨0, true, true⟩,
          .work 1 ⟨0, true, true⟩, .release 1, .send 1 [.sent 2]] = some (s, log) ∧
      log = [(0, msgCreateOk ++ [lf]), (1, ascii ['v'] ++ [lf])] ∧ s.BuffersFit := by
  have hlog : (run step (init 1 fun _ : Fin 2 => List.replicate (bufSize + 1) 0)
      [.accept 0, .accept 1,
        .recv 0 (.data (ascii ['C', 'R', 'E', 'A', 'T', 'E', ' ', 'k', ' ', 'v'] ++ [lf])),
        .lock 0 .enter, .work 0 ⟨0, true, true⟩, .work 0 ⟨0, true, true⟩,
        .work 0 ⟨8, true, true⟩, .work 0 ⟨0, true, true⟩, .release 0, .send 0 [.sent 10],
        .recv 1 (.data (ascii ['R', 'E', 'A', 'D', ' ', 'k'] ++ [lf])),
        .lock 1 .enter, .work 1 ⟨0, true, true⟩, .work 1 ⟨0, true, true⟩,
        .work 1 ⟨0, true, true⟩, .release 1, .send 1 [.sent 2]]).map Prod.snd
      = some [(0, msgCreateOk ++ [lf]), (1, ascii ['v'] ++ [lf])] := by
    decide +kernel
  obtain ⟨⟨s, log⟩, hrun, heq⟩ := Option.map_eq_some_iff.mp hlog
  exact ⟨s, log, hrun, heq, buffers_fit 1 _ (fun _ => by simp) _ log hrun⟩

/-! ### The table of the server -/

/-- A step that the server takes in the table is a step of the table. It is a call, a step of the
lock, an access or a return. -/
theorem shared_of_table {s₀ : Server Tid} {b : SharedAction Tid} (h : s₀.table b = some s') :
    ∃ hs, s₀.shared.step b = some (s'.shared, hs) := by
  obtain ⟨⟨shared, hs⟩, hshared, rfl⟩ := Option.map_eq_some_iff.mp h
  exact ⟨hs, hshared⟩

/-- A `recv` calls a function of the table, or leaves it alone. It calls one when the bytes complete
a request. -/
theorem shared_of_recv {t : Tid} {r : Recv} (hrecv : s.recv t r = some s') :
    s'.shared = s.shared ∨ ∃ b hs, s.shared.step b = some (s'.shared, hs) := by
  cases r with
  | retry | failed | closed =>
      cases hrecv
      exact .inl rfl
  | data bytes =>
      simp only [Server.recv] at hrecv
      split at hrecv
      case isTrue => cases hrecv
      case isFalse =>
        unfold Server.serve at hrecv
        simp only at hrecv
        split at hrecv
        case h_1 =>
          cases hrecv
          exact .inl rfl
        case h_2 =>
          cases hrecv
          exact .inl rfl
        case h_3 =>
          split at hrecv
          case h_1 =>
            cases hrecv
            exact .inl rfl
          case h_2 =>
            have htable := shared_of_table hrecv
            exact .inr ⟨_, htable⟩

/-- A step of the server is a step of the table, or leaves it alone. So a run of the server contains
a run of the table, and what holds in all runs of the table holds in the server. -/
theorem shared_of_step {a : ServerAction Tid} {es : List (Tid × List UInt8)}
    (hstep : s.step a = some (s', es)) :
    s'.shared = s.shared ∨ ∃ b hs, s.shared.step b = some (s'.shared, hs) := by
  cases a with
  | accept t =>
      simp only [Server.step] at hstep
      split at hstep <;> cases hstep
      exact .inl rfl
  | recv t r =>
      simp only [Server.step] at hstep
      split at hstep
      case h_2 => cases hstep
      case h_1 =>
        obtain ⟨hrecv, rfl⟩ := silent_eq_some hstep
        exact shared_of_recv hrecv
  | lock t move =>
      simp only [Server.step] at hstep
      split at hstep
      case h_2 => cases hstep
      case h_1 =>
        obtain ⟨hlock, rfl⟩ := silent_eq_some hstep
        exact .inr ⟨_, shared_of_table hlock⟩
  | work t mem =>
      simp only [Server.step] at hstep
      split at hstep
      case h_2 => cases hstep
      case h_1 =>
        obtain ⟨hwork, rfl⟩ := silent_eq_some hstep
        exact .inr ⟨_, shared_of_table hwork⟩
  | release t =>
      simp only [Server.step] at hstep
      split at hstep
      case h_2 => cases hstep
      case h_1 op _ =>
        obtain ⟨hfinish, rfl⟩ := silent_eq_some hstep
        unfold Server.finish at hfinish
        split at hfinish
        case h_2 => cases hfinish
        case h_1 =>
          have htable := shared_of_table hfinish
          exact .inr ⟨_, htable⟩
  | send t sends =>
      simp only [Server.step] at hstep
      split at hstep
      case h_2 => cases hstep
      case h_1 =>
        obtain ⟨r, -, heq⟩ := Option.map_eq_some_iff.mp hstep
        cases heq
        exact .inl rfl

/-- No worker ever reads or writes a node that is not live. It is the same fact about the shared
table, with the calls that the connections bring. -/
theorem workers_noFault [Fintype Tid] (hcard : Fintype.card Tid < 2 ^ 32) {n : UInt64}
    (hpos : 0 < n) (hle : n ≤ 2147483647) {rbufs : Tid → List UInt8}
    {acts : List (ServerAction Tid)} {log : List (Tid × List UInt8)}
    (hrun : run step (init n rbufs) acts = some (s, log)) : ∀ t, s.shared.pc t ≠ .fault := by
  obtain ⟨hist, hlin⟩ := run_invariant (I := fun s : Server Tid => ∃ hist, LinInv s.shared hist)
    ⟨[], LinInv.init hpos hle⟩ (fun s₁ a s₂ es ⟨hist, hlin⟩ hstep => by
      obtain heq | ⟨b, hs, hb⟩ := shared_of_step hstep
      · exact ⟨hist, heq ▸ hlin⟩
      · exact ⟨hist ++ hs, hlin.step hcard hb⟩) hrun
  obtain ⟨ps, m, hinv, -⟩ := hlin.inv
  exact hinv.noFault

end Server

end SysProg.Kvs
