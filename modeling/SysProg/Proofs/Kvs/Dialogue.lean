import SysProg.Kvs.Dialogue
import SysProg.Proofs.Kvs.Main
import SysProg.Proofs.Kvs.SharedProgress

/-!
# `SysProg.Proofs.Kvs.Dialogue`: the server keeps the protocol

`Follows` ties the place of a worker, its buffer and its request in the table to the dialogue with
its client. Between two requests the buffer starts with what has come of the next one (`Hears`).

* `follows_of_recv` is the step that reads: the parser finds in the buffer what the protocol finds
  in the bytes.
* `follows_of_send` is the step that answers.
* `Talks` says this of all workers, and `Talks.step` is the step lemma over all steps of the server.

`server_dialogues` is the result. It speaks about the bytes of the clients and about one map for all
of them, and not about buffers, parsers and locks.
-/

set_option autoImplicit false

namespace SysProg.Kvs

open SysProg.Lib Dialogue

/-! ### The state of one worker -/

/-- A worker that waits for bytes. The buffer starts with the text that has come. -/
def Hears (w : Worker) (d : Dialogue) : Prop :=
  ∃ text, (d = .ready text ∨ d = .replying [] ∧ text = []) ∧ w.off = text.length ∧ text <+: w.rbuf

/-- The worker is where the dialogue is. `req` is its request in the table. -/
def Follows (place : Place) (w : Worker) (req : Option Request) (d : Dialogue) : Prop :=
  d = .rude ∨
    match place, w.stage with
    | .inner, _ | .session, .receiving => Hears w d
    | .session, .serving op => ∃ r, d = .serving r ∧ r.op = op ∧ req = some r
    | .session, .sending wbuf => d = .replying wbuf
    | _, _ => (∀ r, d ≠ .called r) ∧ ∀ r, d ≠ .serving r

section
variable {n : Nat} {d : Dialogue} {w : Worker} {req : Option Request}

/-- A worker that hears its client is not in a request. -/
theorem Hears.outside (h : Hears w d) : (∀ r, d ≠ .called r) ∧ ∀ r, d ≠ .serving r := by
  obtain ⟨text, rfl | ⟨rfl, -⟩, -⟩ := h
  · exact ⟨fun r => Dialogue.noConfusion, fun r => Dialogue.noConfusion⟩
  · exact ⟨fun r => Dialogue.noConfusion, fun r => Dialogue.noConfusion⟩

/-- In a table function. -/
theorem follows_serving {op : MapOp CString CString} (hstage : w.stage = .serving op) :
    Follows .session w req d ↔ d = .rude ∨ ∃ r, d = .serving r ∧ r.op = op ∧ req = some r := by
  unfold Follows
  rw [hstage]

/-- In `send_all`. -/
theorem follows_sending {wbuf : List UInt8} (hstage : w.stage = .sending wbuf) :
    Follows .session w req d ↔ d = .rude ∨ d = .replying wbuf := by
  unfold Follows
  rw [hstage]

/-- In `recv`, and in front of it. -/
theorem follows_receiving (hstage : w.stage = .receiving) :
    Follows .session w req d ↔ d = .rude ∨ Hears w d := by
  unfold Follows
  rw [hstage]

/-- Bytes come in behind the text. -/
theorem Hears.next (h : Hears w d) (t : Fin n) (bytes : List UInt8) :
    ∃ text, w.off = text.length ∧ text <+: w.rbuf ∧
      d.next (.received t bytes) = some (read (text ++ bytes)) := by
  obtain ⟨text, rfl | ⟨rfl, rfl⟩, hoff, hpre⟩ := h
  · exact ⟨text, hoff, hpre, rfl⟩
  · exact ⟨[], hoff, hpre, rfl⟩

/-- Nothing is promised to a rude client. -/
theorem foldlM_rude {es : List (Event n)} (hes : ∀ e ∈ es, ∀ t, e ≠ .accepted t) :
    es.foldlM Dialogue.next .rude = some .rude := by
  induction es with
  | nil => rfl
  | cons e es ih =>
      have hone : Dialogue.next .rude e = some .rude := by
        cases e with
        | accepted t => exact absurd rfl (hes _ List.mem_cons_self t)
        | table e =>
            cases e with
            | invoked t r | returned t o => rfl
        | received t bytes | sent t chunk | dumped text => rfl
      rw [List.foldlM_cons, hone]
      exact ih fun e he => hes e (List.mem_cons_of_mem _ he)

/-! ### The step that reads -/

/-- The message of a text asks for its request. -/
theorem requestOf_eq {w : List UInt8} {r : Message} {op : MapOp CString CString}
    (hmessage : message w = some r) (hop : r.op = some op) :
    requestOf w = some ⟨op, decide (r.cmd = .qread)⟩ := by
  unfold requestOf
  rw [hmessage, Option.bind_some, hop]
  rfl

variable {Tid : Type} [DecidableEq Tid] {s s' : Server Tid} {t : Tid}

/-- A worker gets at most as many bytes as fit. -/
theorem recv_data {bytes : List UInt8} (hsize : (s.workers t).rbuf.length = bufSize + 1)
    (hrecv : s.recv t (.data bytes) = some s') :
    (receive (s.workers t).rbuf (s.workers t).off bytes).length = bufSize + 1 ∧
      s.serve t (receive (s.workers t).rbuf (s.workers t).off bytes)
        ((s.workers t).off + bytes.length) = some s' := by
  simp only [Server.recv] at hrecv
  split at hrecv
  case isTrue => cases hrecv
  case isFalse hguard =>
    obtain ⟨hne, hfits⟩ := not_or.mp hguard
    have hpos := List.length_pos_iff.mpr hne
    refine ⟨?_, hrecv⟩
    rw [length_receive (by omega), hsize]

omit [DecidableEq Tid] in
/-- Bytes are a part of a request, a request that asks for nothing or for something, or rude. -/
theorem read_cases (bytes : List UInt8) :
    (∃ text, read bytes = .ready text) ∨ (∃ reply, read bytes = .replying reply) ∨
      (∃ r, read bytes = .called r) ∨ read bytes = .rude := by
  unfold Dialogue.read
  split
  · exact Or.inl ⟨_, rfl⟩
  · split
    · split
      · exact Or.inr (Or.inl ⟨_, rfl⟩)
      · exact Or.inr (Or.inr (Or.inl ⟨_, rfl⟩))
    · exact Or.inr (Or.inr (Or.inr rfl))

/-- What a worker does with the bytes of a step, by what they mean. -/
def Reads (s s' : Server Tid) (t : Tid) (es : List (HistoryEvent Tid Request Outcome)) :
    Dialogue → Prop
  | .ready text => es = [] ∧ ∃ rbuf, text <+: rbuf ∧
      s' = s.setWorker t ⟨rbuf, text.length, .receiving⟩
  | .replying reply => es = [] ∧ ∃ rbuf off, s' = s.setWorker t ⟨rbuf, off, .sending reply⟩
  | .called r => es = [.invoked t r] ∧ ∃ rbuf off shared,
      s.shared.step (.call t r) = some (shared, es) ∧
      s' = { s.setWorker t ⟨rbuf, off, .serving r.op⟩ with shared := shared }
  | _ => True

/-- The parser finds in the buffer what the protocol finds in the bytes. The buffer starts with what
had come before, so it is the same text, cut at the same line feed. -/
theorem reads_of_recv {bytes text : List UInt8}
    (hsize : (s.workers t).rbuf.length = bufSize + 1) (hoff : (s.workers t).off = text.length)
    (hpre : text <+: (s.workers t).rbuf) (hrecv : s.recv t (.data bytes) = some s') :
    Reads s s' t (s.events (.recv t (.data bytes))) (read (text ++ bytes)) := by
  obtain ⟨hbuf, hserve⟩ := recv_data hsize hrecv
  rw [hoff] at hbuf hserve
  have hfull : text ++ bytes <+: receive (s.workers t).rbuf text.length bytes :=
    prefix_receive hpre bytes
  simp only [Server.events]
  rw [hoff]
  rw [← List.length_append] at hserve ⊢
  generalize hb : receive (s.workers t).rbuf text.length bytes = buf at *
  generalize hf : text ++ bytes = full at *
  unfold Dialogue.read
  by_cases hpartial : 0 ∉ full ∧ lf ∉ full ∧ full.length < bufSize
  · -- The text is not complete.
    have hparse := skvsParse_incomplete hpartial.1 hpartial.2.1 hfull hbuf hpartial.2.2
    rw [if_pos hpartial]
    unfold Server.serve at hserve
    simp only [hparse, if_neg (Nat.not_le_of_lt hpartial.2.2)] at hserve ⊢
    cases hserve
    exact ⟨if_pos (Or.inl trivial), _, prefix_set_length hfull 0, rfl⟩
  · rw [if_neg hpartial]
    by_cases hrequest : IsRequest full
    case neg =>
      rw [if_neg hrequest]
      trivial
    case pos =>
      rw [if_pos hrequest]
      -- The text is complete, and the parser reads its message.
      obtain ⟨h0, hlf, hlast, hlen⟩ := hrequest
      obtain ⟨w, rfl⟩ := List.getLast?_eq_some_iff.mp hlast
      rw [List.dropLast_concat] at hlf
      rw [List.dropLast_concat]
      rw [List.length_append] at hserve hlen ⊢
      have hreads := skvsParse_complete (fun hmem => h0 (List.mem_append_left _ hmem)) hlf hfull
        hbuf hlen
      cases hmessage : message w with
      | none =>
          have hcmd : (skvsParse buf (w.length + 1)).cmd = .invalid := by
            rw [hmessage] at hreads
            exact hreads
          have hnone : requestOf w = none := by
            unfold requestOf
            rw [hmessage]
            rfl
          rw [hnone]
          have hlength : w.length + [lf].length = w.length + 1 := rfl
          rw [hlength] at hserve ⊢
          simp only [Server.serve, hcmd] at hserve
          cases hserve
          exact ⟨if_pos (Or.inr hcmd), _, _, rfl⟩
      | some r =>
          obtain ⟨op, hop⟩ := message_op hmessage
          rw [hmessage] at hreads
          have hpop := hreads.op_eq hop
          have hcmd : (skvsParse buf (w.length + 1)).cmd = r.cmd := hreads.1
          obtain ⟨hincomplete, hinvalid⟩ := Message.op_cmd hop
          rw [requestOf_eq hmessage hop]
          have hlength : w.length + [lf].length = w.length + 1 := rfl
          rw [hlength] at hserve ⊢
          rw [← hcmd] at hincomplete hinvalid ⊢
          rw [if_neg (not_or.mpr ⟨hincomplete, hinvalid⟩), hpop]
          unfold Server.serve at hserve
          simp only [hpop] at hserve
          obtain ⟨shared, es, hstep, rfl⟩ := Server.table_eq_some hserve
          obtain ⟨-, hes, -⟩ := Shared.step_call hstep
          rw [hes] at hstep
          exact ⟨rfl, _, _, shared, hstep, rfl⟩

/-- A worker keeps its buffer, which has its size. Bytes are written into it, and none is added or
taken away. -/
theorem size_of_step {a : ServerAction Tid} {sends : List (Tid × List UInt8)}
    (hsize : (s.workers a.tid).rbuf.length = bufSize + 1)
    (hstep : s.step a = some (s', sends)) :
    (s'.workers a.tid).rbuf.length = bufSize + 1 := by
  have hset : ∀ w : Worker, w.rbuf.length = bufSize + 1 →
      ((s.setWorker a.tid w).workers a.tid).rbuf.length = bufSize + 1 := by
    intro w hw
    have hself : (s.setWorker a.tid w).workers a.tid = w := Function.update_self _ _ _
    rw [hself, hw]
  cases a with
  | accept t =>
      simp only [Server.step] at hstep
      split at hstep
      case h_1 =>
        cases hstep
        exact hset _ hsize
      case h_2 => cases hstep
  | lock t move | work t mem =>
      simp only [Server.step] at hstep
      split at hstep
      case h_1 =>
        obtain ⟨shared, es, -, rfl⟩ := Server.table_eq_some (silent_eq_some hstep).1
        exact hsize
      case h_2 => cases hstep
  | release t =>
      simp only [Server.step] at hstep
      split at hstep
      case h_1 =>
        obtain ⟨hfinish, -⟩ := silent_eq_some hstep
        unfold Server.finish at hfinish
        split at hfinish
        case h_1 =>
          obtain ⟨shared, es, -, rfl⟩ := Server.table_eq_some hfinish
          exact hset _ hsize
        case h_2 => cases hfinish
      case h_2 => cases hstep
  | send t sends =>
      simp only [Server.step] at hstep
      split at hstep
      case h_1 =>
        obtain ⟨r, -, heq⟩ := Option.map_eq_some_iff.mp hstep
        cases heq
        exact hset _ hsize
      case h_2 => cases hstep
  | recv t r =>
      simp only [Server.step] at hstep
      split at hstep
      case h_2 => cases hstep
      case h_1 =>
        obtain ⟨hrecv, -⟩ := silent_eq_some hstep
        cases r with
        | retry =>
            cases hrecv
            exact hsize
        | failed | closed =>
            cases hrecv
            exact hset _ hsize
        | data bytes =>
            obtain ⟨hbuf, hserve⟩ := recv_data (t := t) hsize hrecv
            have hparse := (length_skvsParse _ ((s.workers t).off + bytes.length)).trans hbuf
            unfold Server.serve at hserve
            simp only at hserve
            split at hserve
            case h_1 =>
              cases hserve
              exact hset _ hparse
            case h_2 =>
              cases hserve
              exact hset _ hparse
            case h_3 =>
              split at hserve
              case h_1 =>
                cases hserve
                exact hset _ hparse
              case h_2 =>
                obtain ⟨shared, es, -, rfl⟩ := Server.table_eq_some hserve
                exact hset _ hparse

/-! ### The step that answers -/

omit [DecidableEq Tid] in
/-- `send_all` sends the reply from its beginning on. Without an error it sends all of it. -/
theorem foldlM_sendAll {sends : List Send} {reply : List UInt8} {chunks : List (List UInt8)}
    {ok : Bool} (hsends : sendAll sends reply = some (chunks, ok)) (t : Fin n) :
    ∃ rest, (chunks.map (Event.sent t)).foldlM Dialogue.next (.replying reply)
      = some (.replying rest) ∧ (ok = true → rest = []) := by
  induction sends generalizing reply chunks with
  | nil =>
      cases reply with
      | nil =>
          cases hsends
          exact ⟨[], rfl, fun _ => rfl⟩
      | cons b reply => cases hsends
  | cons send sends ih =>
      cases reply with
      | nil =>
          cases hsends
          exact ⟨[], rfl, fun _ => rfl⟩
      | cons b reply =>
          cases send with
          | retry => exact ih hsends
          | failed =>
              cases hsends
              exact ⟨b :: reply, rfl, fun hok => by cases hok⟩
          | sent k =>
              simp only [sendAll] at hsends
              split at hsends
              case isFalse => cases hsends
              case isTrue hk =>
                obtain ⟨⟨chunks', ok'⟩, hrest, heq⟩ := Option.map_eq_some_iff.mp hsends
                cases heq
                obtain ⟨rest, hfold, hall⟩ := ih hrest
                refine ⟨rest, ?_, hall⟩
                have hlength : ((b :: reply).take k).length = k := List.length_take_of_le hk
                have hone : Dialogue.next (.replying (b :: reply))
                    (Event.sent t ((b :: reply).take k))
                      = some (.replying ((b :: reply).drop k)) := by
                  show (if (b :: reply).take k <+: b :: reply then
                    some (Dialogue.replying ((b :: reply).drop ((b :: reply).take k).length))
                      else none) = _
                  rw [if_pos (List.take_prefix _ _), hlength]
                rw [List.map_cons, List.foldlM_cons, hone]
                exact hfold

end

/-! ### All steps of a session -/

section
variable {n : Nat} {d : Dialogue} {s s' : Server (Fin n)} {a : ServerAction (Fin n)}
  {sends : List (Fin n × List UInt8)}

/-- The table of the others in a step of a session. -/
theorem pc_of_shape (hshape : Server.Shape s a s') (u : Fin n) (hu : u ≠ a.tid) :
    s'.shared.pc u = s.shared.pc u := by
  cases hshape with
  | outside w => rfl
  | call r w shared hbefore hafter hcall => exact (Shared.beside_of_step hcall).pc u hu
  | returned w shared hbefore hafter hreturn => exact (Shared.beside_of_step hreturn).pc u hu
  | inside b shared hbefore haction hinside =>
      refine (Shared.beside_of_step hinside).pc u ?_
      rcases haction with ⟨move, -, rfl⟩ | ⟨mem, -, rfl⟩
      · exact hu
      · exact hu

/-- What is seen of a step in a session. -/
def sessionEvents (s : Server (Fin n)) (a : ServerAction (Fin n))
    (sends : List (Fin n × List UInt8)) : List (Event n) :=
  (a.received.map fun m => .received m.1 m.2) ++
    ((s.events a).map .table ++ sends.map fun m => .sent m.1 m.2)

/-- A step in a session is seen as one of its worker. So a dialogue has the events of its own
connection and no others. -/
theorem tid_of_sessionEvents (hstep : s.step a = some (s', sends)) {e : Event n}
    (he : e ∈ sessionEvents s a sends) :
    e.tid = some a.tid ∧ ∀ t, e ≠ .accepted t := by
  unfold sessionEvents at he
  rcases List.mem_append.mp he with he | he
  · obtain ⟨m, hm, rfl⟩ := List.mem_map.mp he
    cases a with
    | recv t r =>
        cases r with
        | data bytes =>
            cases List.mem_singleton.mp hm
            exact ⟨rfl, fun t heq => by cases heq⟩
        | retry | closed | failed => cases hm
    | accept t | lock t move | work t mem | release t | send t sends => cases hm
  · rcases List.mem_append.mp he with he | he
    · obtain ⟨e, hmem, rfl⟩ := List.mem_map.mp he
      refine ⟨?_, fun t heq => by cases heq⟩
      rcases Server.events_of_shape (Server.shape_of_step hstep) with
        hnone | ⟨o, hreturned⟩ | ⟨⟨r, hinvoked⟩, -⟩
      · rw [hnone] at hmem
        cases hmem
      · rw [hreturned] at hmem
        cases List.mem_singleton.mp hmem
        rfl
      · rw [hinvoked] at hmem
        cases List.mem_singleton.mp hmem
        rfl
    · obtain ⟨m, hm, rfl⟩ := List.mem_map.mp he
      refine ⟨?_, fun t heq => by cases heq⟩
      rcases Server.sends_of_step hstep with rfl | ⟨answers, wbuf, chunks, ok, -, -, -, rfl, -⟩
      · cases hm
      · obtain ⟨chunk, -, rfl⟩ := List.mem_map.mp hm
        rfl

/-- `recv` returns, and the worker goes on as the dialogue does. It waits for the rest of the line,
it calls a function of the table, or it answers at once. -/
theorem follows_of_recv {t : Fin n} {r : Recv} (hd : Hears (s.workers t) d)
    (hstage : (s.workers t).stage = .receiving)
    (hsize : (s.workers t).rbuf.length = bufSize + 1) (hrecv : s.recv t r = some s') :
    ∃ d', (sessionEvents s (.recv t r) []).foldlM Dialogue.next d = some d' ∧
      Follows (s'.workers t).stage.place (s'.workers t) (s'.shared.pc t).request d' := by
  have hself : ∀ w : Worker, (s.setWorker t w).workers t = w := fun w => Function.update_self _ _ _
  cases r with
  | retry =>
      cases hrecv
      refine ⟨d, rfl, Or.inr ?_⟩
      rw [hstage]
      exact hd
  | failed | closed =>
      cases hrecv
      refine ⟨d, rfl, Or.inr ?_⟩
      rw [hself]
      exact hd.outside
  | data bytes =>
      obtain ⟨text, hoff, hpre, hnext⟩ := hd.next t bytes
      have hreads := reads_of_recv hsize hoff hpre hrecv
      have hfold : (sessionEvents s (.recv t (.data bytes)) []).foldlM Dialogue.next d
          = ((s.events (.recv t (.data bytes))).map Event.table).foldlM Dialogue.next
              (read (text ++ bytes)) := by
        show (Event.received t bytes :: (((s.events (.recv t (.data bytes))).map Event.table) ++ [])
          ).foldlM Dialogue.next d = _
        rw [List.append_nil, List.foldlM_cons, hnext]
        rfl
      rw [hfold]
      rcases read_cases (text ++ bytes) with ⟨text', hread⟩ | ⟨reply, hread⟩ | ⟨r, hread⟩ | hread
      · rw [hread] at hreads ⊢
        obtain ⟨hnone, rbuf, hpre', rfl⟩ := hreads
        rw [hnone]
        refine ⟨.ready text', rfl, Or.inr ?_⟩
        rw [hself]
        exact ⟨text', Or.inl rfl, rfl, hpre'⟩
      · rw [hread] at hreads ⊢
        obtain ⟨hnone, rbuf, off, rfl⟩ := hreads
        rw [hnone]
        refine ⟨.replying reply, rfl, Or.inr ?_⟩
        rw [hself]
        rfl
      · rw [hread] at hreads ⊢
        obtain ⟨hinvoked, rbuf, off, shared, hcall, rfl⟩ := hreads
        rw [hinvoked]
        refine ⟨.serving r, ?_, Or.inr ?_⟩
        · have hone : Dialogue.next (.called r) (Event.table (.invoked t r)) = some (.serving r) :=
            if_pos rfl
          rw [List.map_cons, List.map_nil, List.foldlM_cons, hone]
          rfl
        · have hworker : ({ s.setWorker t ⟨rbuf, off, .serving r.op⟩ with shared := shared }
              : Server (Fin n)).workers t = ⟨rbuf, off, .serving r.op⟩ := hself _
          obtain ⟨-, -, l, les, -, rfl⟩ := Shared.step_call hcall
          rw [hworker]
          refine ⟨r, rfl, rfl, ?_⟩
          show ((Shared.setPc _ t (.locking r)).pc t).request = _
          rw [Shared.setPc_pc_self]
          rfl
      · rw [hread]
        refine ⟨.rude, foldlM_rude fun e he t heq => ?_, Or.inl rfl⟩
        obtain ⟨e, -, rfl⟩ := List.mem_map.mp he
        cases heq

/-- A worker goes on in its table function. -/
theorem follows_of_inside {t : Fin n} {b : SharedAction (Fin n)} {op : MapOp CString CString}
    (hb : (∃ move, b = .lock t move) ∨ ∃ mem, b = .work t mem)
    (hstage : (s.workers t).stage = .serving op)
    (hd : Follows .session (s.workers t) (s.shared.pc t).request d) (htable : s.table b = some s')
    (hfault : s'.shared.pc t ≠ .fault) :
    Follows (s'.workers t).stage.place (s'.workers t) (s'.shared.pc t).request d := by
  obtain ⟨shared, es, hshared, rfl⟩ := Server.table_eq_some htable
  have hreq : (shared.pc t).request = (s.shared.pc t).request := by
    rcases hb with ⟨move, rfl⟩ | ⟨mem, rfl⟩
    · obtain ⟨-, r, l, les, -, -, rfl⟩ := Shared.step_lock hshared
      rfl
    · exact Shared.request_of_work hshared hfault
  show Follows (s.workers t).stage.place (s.workers t) (shared.pc t).request d
  rw [hreq, hstage]
  exact hd

/-- The table function returns, and its outcome is the reply. The text is that of the protocol, with
its line feed. -/
theorem follows_of_release {t : Fin n} {op : MapOp CString CString}
    (hstage : (s.workers t).stage = .serving op)
    (hd : Follows .session (s.workers t) (s.shared.pc t).request d)
    (hfinish : s.finish t op = some s') :
    ∃ d', (sessionEvents s (.release t) []).foldlM Dialogue.next d = some d' ∧
      Follows (s'.workers t).stage.place (s'.workers t) (s'.shared.pc t).request d' := by
  unfold Server.finish at hfinish
  split at hfinish
  case h_2 => cases hfinish
  case h_1 r o hpc =>
    obtain ⟨shared, es, hshared, rfl⟩ := Server.table_eq_some hfinish
    have hworker : ({ s.setWorker t { s.workers t with
        stage := .sending (replyText op o.reply ++ [lf]) } with shared := shared }
          : Server (Fin n)).workers t
        = { s.workers t with stage := .sending (replyText op o.reply ++ [lf]) } :=
      Function.update_self _ _ _
    have hevents : sessionEvents s (.release t) [] = [Event.table (.returned t o)] := by
      unfold sessionEvents
      simp only [Server.events, hpc]
      rfl
    rw [hevents, hworker]
    rcases (follows_serving hstage).mp hd with rfl | ⟨r', rfl, hop, hreq⟩
    · exact ⟨.rude, rfl, Or.inl rfl⟩
    · refine ⟨.replying (replyText r'.op o.reply ++ [lf]), rfl, Or.inr ?_⟩
      rw [hop]
      rfl

/-- `send_all` returns. What it has sent is the front of the reply, and all of it if no `send`
fails. -/
theorem follows_of_send {t : Fin n} {answers : List Send} {wbuf : List UInt8}
    {chunks : List (List UInt8)} {ok : Bool} (hstage : (s.workers t).stage = .sending wbuf)
    (hd : Follows .session (s.workers t) (s.shared.pc t).request d)
    (hall : sendAll answers wbuf = some (chunks, ok)) :
    ∃ d', (chunks.map (Event.sent t)).foldlM Dialogue.next d = some d' ∧
      Follows (Stage.place (if ok then .receiving else .accepting))
        ⟨(s.workers t).rbuf, if ok then 0 else (s.workers t).off,
          if ok then .receiving else .accepting⟩ (s.shared.pc t).request d' := by
  rcases (follows_sending hstage).mp hd with rfl | rfl
  · refine ⟨.rude, foldlM_rude fun e he t heq => ?_, Or.inl rfl⟩
    obtain ⟨chunk, -, rfl⟩ := List.mem_map.mp he
    cases heq
  · obtain ⟨rest, hfold, hempty⟩ := foldlM_sendAll hall t
    refine ⟨.replying rest, hfold, Or.inr ?_⟩
    cases ok with
    | true =>
        rw [hempty rfl]
        exact ⟨[], Or.inr ⟨rfl, rfl⟩, rfl, List.nil_prefix⟩
    | false => exact ⟨fun r => Dialogue.noConfusion, fun r => Dialogue.noConfusion⟩

/-- A worker goes on in its session as the dialogue does. There is one case for each kind of step:
one out of `recv`, one inside of the table, its return and `send_all`. -/
theorem follows_of_step (hstage : (s.workers a.tid).stage ≠ .accepting)
    (hsize : (s.workers a.tid).rbuf.length = bufSize + 1)
    (hd : Follows .session (s.workers a.tid) (s.shared.pc a.tid).request d)
    (hstep : s.step a = some (s', sends)) (hfault : s'.shared.pc a.tid ≠ .fault) :
    ∃ d', (sessionEvents s a sends).foldlM Dialogue.next d = some d' ∧
      Follows (s'.workers a.tid).stage.place (s'.workers a.tid) (s'.shared.pc a.tid).request
        d' := by
  cases a with
  | accept t =>
      simp only [Server.step] at hstep
      split at hstep
      case h_1 heq => exact absurd heq hstage
      case h_2 => cases hstep
  | recv t r =>
      simp only [Server.step] at hstep
      split at hstep
      case h_2 => cases hstep
      case h_1 heq =>
        obtain ⟨hrecv, rfl⟩ := silent_eq_some hstep
        rcases (follows_receiving heq).mp hd with rfl | hhears
        · have hstep' : s.step (.recv t r) = some (s', []) := by
            simp only [Server.step, heq, hrecv, Option.map_some]
          exact ⟨.rude, foldlM_rude fun e he => (tid_of_sessionEvents hstep' he).2, Or.inl rfl⟩
        · exact follows_of_recv hhears heq hsize hrecv
  | lock t move =>
      simp only [Server.step] at hstep
      split at hstep
      case h_2 => cases hstep
      case h_1 op heq =>
        obtain ⟨htable, rfl⟩ := silent_eq_some hstep
        exact ⟨d, rfl, follows_of_inside (Or.inl ⟨move, rfl⟩) heq hd htable hfault⟩
  | work t mem =>
      simp only [Server.step] at hstep
      split at hstep
      case h_2 => cases hstep
      case h_1 op heq =>
        obtain ⟨htable, rfl⟩ := silent_eq_some hstep
        exact ⟨d, rfl, follows_of_inside (Or.inr ⟨mem, rfl⟩) heq hd htable hfault⟩
  | release t =>
      simp only [Server.step] at hstep
      split at hstep
      case h_2 => cases hstep
      case h_1 op heq =>
        obtain ⟨hfinish, rfl⟩ := silent_eq_some hstep
        exact follows_of_release heq hd hfinish
  | send t answers =>
      simp only [Server.step] at hstep
      split at hstep
      case h_2 => cases hstep
      case h_1 wbuf heq =>
        obtain ⟨⟨chunks, ok⟩, hall, hs⟩ := Option.map_eq_some_iff.mp hstep
        cases hs
        obtain ⟨d', hfold, hfollows⟩ := follows_of_send heq hd hall
        have hevents : sessionEvents s (.send t answers) (chunks.map fun chunk => (t, chunk))
            = chunks.map (Event.sent t) := by
          show (chunks.map fun chunk => (t, chunk)).map (fun m => Event.sent m.1 m.2) = _
          rw [List.map_map]
          rfl
        refine ⟨d', hevents ▸ hfold, ?_⟩
        have hself : ∀ w : Worker, (s.setWorker t w).workers t = w :=
          fun w => Function.update_self _ _ _
        show Follows ((s.setWorker t _).workers t).stage.place ((s.setWorker t _).workers t) _ d'
        rw [hself]
        exact hfollows

end

/-! ### All workers -/

section
variable {n : Nat} {hashSize : UInt64} {p p' : Process n} {log es : List (Event n)} {t : Fin n}
  {d : Dialogue}

/-- Every worker is where the dialogue with its client is. -/
structure Talks (p : Process n) (log : List (Event n)) : Prop where
  size : ∀ t, (p.server.workers t).rbuf.length = bufSize + 1
  follows : ∀ t, ∃ d, dialogue t log = some d ∧
    Follows (p.place t) (p.server.workers t) (p.server.shared.pc t).request d

/-- The dialogue goes on with the events of its worker. -/
theorem dialogue_append (hd : dialogue t log = some d) :
    dialogue t (log ++ es) = (es.filter fun e => e.tid = some t).foldlM Dialogue.next d := by
  unfold dialogue at hd ⊢
  rw [List.filter_append, List.foldlM_append, hd]
  rfl

/-- A step that moves no worker. -/
theorem Talks.same (h : Talks p log) (hplace : p'.place = p.place)
    (hworkers : p'.server.workers = p.server.workers)
    (hpc : p'.server.shared.pc = p.server.shared.pc) (hes : ∀ e ∈ es, e.tid = none) :
    Talks p' (log ++ es) where
  size t := by
    rw [hworkers]
    exact h.size t
  follows t := by
    obtain ⟨d, hd, hfollows⟩ := h.follows t
    refine ⟨d, ?_, by rw [hplace, hworkers, hpc]; exact hfollows⟩
    have hnone : (es.filter fun e => e.tid = some t) = [] := by
      rw [List.filter_eq_nil_iff]
      intro e he
      rw [hes e he]
      simp
    rw [dialogue_append hd, hnone]
    rfl

/-- A step of one worker, with the others where they are. Only the dialogue of this worker goes on,
as all events are its own. -/
theorem Talks.one (h : Talks p log) {place : Place}
    (hplace : p'.place = Function.update p.place t place)
    (hothers : ∀ u, u ≠ t → p'.server.workers u = p.server.workers u ∧
      p'.server.shared.pc u = p.server.shared.pc u)
    (hsize : (p'.server.workers t).rbuf.length = bufSize + 1) (hes : ∀ e ∈ es, e.tid = some t)
    (hself : ∀ d, Follows (p.place t) (p.server.workers t) (p.server.shared.pc t).request d →
      ∃ d', es.foldlM Dialogue.next d = some d' ∧
        Follows place (p'.server.workers t) (p'.server.shared.pc t).request d') :
    Talks p' (log ++ es) where
  size u := by
    by_cases hut : u = t
    · subst hut
      exact hsize
    · rw [(hothers u hut).1]
      exact h.size u
  follows u := by
    obtain ⟨d, hd, hfollows⟩ := h.follows u
    rw [dialogue_append hd, hplace]
    by_cases hut : u = t
    · subst hut
      have hall : (es.filter fun e => e.tid = some u) = es := by
        rw [List.filter_eq_self]
        intro e he
        rw [hes e he]
        exact decide_eq_true rfl
      rw [hall, Function.update_self]
      exact hself d hfollows
    · have hnone : (es.filter fun e => e.tid = some u) = [] := by
        rw [List.filter_eq_nil_iff]
        intro e he heq
        rw [hes e he, decide_eq_true_eq, Option.some.injEq] at heq
        exact hut heq.symm
      rw [hnone, Function.update_of_ne hut, (hothers u hut).1, (hothers u hut).2]
      exact ⟨d, rfl, hfollows⟩

/-- A step of one worker that is in its loops before and after, and says nothing. -/
theorem Talks.loop (h : Talks p log) {place : Place} {w : Worker}
    (hplace : p'.place = Function.update p.place t place)
    (hworkers : p'.server.workers = Function.update p.server.workers t w)
    (hpc : p'.server.shared.pc = p.server.shared.pc)
    (hsize : w.rbuf.length = (p.server.workers t).rbuf.length)
    (hself : ∀ d, Follows (p.place t) (p.server.workers t) (p.server.shared.pc t).request d →
      Follows place w (p.server.shared.pc t).request d) : Talks p' (log ++ []) := by
  refine h.one hplace (fun u hu => ⟨?_, congrFun hpc u⟩) ?_ (fun e he => by cases he)
    fun d hd => ⟨d, rfl, ?_⟩
  · rw [hworkers, Function.update_of_ne hu]
  · rw [hworkers, Function.update_self, hsize]
    exact h.size t
  · rw [hworkers, Function.update_self, hpc]
    exact hself d hd

/-- A worker that has not called stays where it is in the dialogue when it leaves its loops. -/
theorem Follows.leave {place place' : Place} {w w' : Worker} {req : Option Request}
    (h : Follows place w req d) (hplace : place ≠ .session)
    (hplace' : place' ≠ .inner ∧ place' ≠ .session) : Follows place' w' req d := by
  have hout : Follows place' w' req d ↔
      d = .rude ∨ (∀ r, d ≠ .called r) ∧ ∀ r, d ≠ .serving r := by
    cases place' with
    | inner => exact absurd rfl hplace'.1
    | session => exact absurd rfl hplace'.2
    | absent | outer | accepting | exited => rfl
  rw [hout]
  cases place with
  | session => exact absurd rfl hplace
  | inner => exact h.imp id Hears.outside
  | absent | outer | accepting | exited => exact h

/-- At the start nobody has said anything. -/
theorem Talks.init (hashSize : UInt64) {rbufs : Fin n → List UInt8}
    (hbufs : ∀ t, (rbufs t).length = bufSize + 1) :
    Talks (Process.init n hashSize rbufs) [] where
  size t := hbufs t
  follows _ :=
    ⟨.closed, rfl, Or.inr ⟨fun _ => Dialogue.noConfusion, fun _ => Dialogue.noConfusion⟩⟩

/-- A client that is not in a request may connect again, and a rude one too. -/
theorem next_accepted (t : Fin n) (h : d = .rude ∨ (∀ r, d ≠ .called r) ∧ ∀ r, d ≠ .serving r) :
    d.next (.accepted t) = some (.ready []) := by
  cases d with
  | called r =>
      rcases h with h | h
      · cases h
      · exact absurd rfl (h.1 r)
  | serving r =>
      rcases h with h | h
      · cases h
      · exact absurd rfl (h.2 r)
  | closed | ready text | replying rest | rude => rfl

/-- `accept` returns a connection, on which nothing has been said. -/
theorem Talks.connect (h : Talks p log) (hplace : p.place t = .accepting) :
    Talks
      { p.move t .inner true with
        server := p.server.setWorker t ⟨(p.server.workers t).rbuf, 0, .receiving⟩ }
      (log ++ [.accepted t]) := by
  have hself : ∀ w : Worker, (p.server.setWorker t w).workers t = w :=
    fun w => Function.update_self _ _ _
  refine h.one (t := t) rfl (fun u hu => ⟨Function.update_of_ne hu _ _, rfl⟩) ?_
    (fun e he => by cases List.mem_singleton.mp he; rfl) fun d hd => ⟨.ready [], ?_, Or.inr ?_⟩
  · rw [hself]
    exact h.size t
  · rw [hplace] at hd
    rw [List.foldlM_cons, next_accepted t hd]
    rfl
  · rw [hself]
    exact ⟨[], Or.inl rfl, rfl, List.nil_prefix⟩

/-- A worker that is outside of the body of the inner loop stays outside of it. -/
theorem Talks.leave (h : Talks p log) {place place' : Place} (hplace : p.place t = place)
    (hsession : place ≠ .session) (hout : place' ≠ .inner ∧ place' ≠ .session)
    (hmoves : p'.place = Function.update p.place t place') {w : Worker}
    (hworkers : p'.server.workers = Function.update p.server.workers t w)
    (hpc : p'.server.shared.pc = p.server.shared.pc)
    (hsize : w.rbuf.length = (p.server.workers t).rbuf.length) : Talks p' (log ++ []) := by
  refine h.loop hmoves hworkers hpc hsize fun d hd => ?_
  rw [hplace] at hd
  exact hd.leave hsession hout

/-- A worker goes on in its session. What is seen of the step is what `follows_of_step` is about. -/
theorem Talks.session (h : Talks p log) {a : ServerAction (Fin n)} {server : Server (Fin n)}
    {sends : List (Fin n × List UInt8)} (hloops : p.Loops)
    (hfault : ∀ u, server.shared.pc u ≠ .fault) (hplace : p.place a.tid = .session)
    (hserver : p.server.step a = some (server, sends)) :
    Talks
      { p.move a.tid (server.workers a.tid).stage.place
          (decide ((server.workers a.tid).stage.place ≠ .outer)) with
        server := server
        fault := p.fault || decide (p.main = .finished) }
      (log ++ ((a.received.map fun m => .received m.1 m.2) ++
        ((p.server.events a).map .table ++ sends.map fun m => .sent m.1 m.2))) := by
  have hshape := Server.shape_of_step hserver
  refine h.one (t := a.tid) rfl (fun u hu => ⟨Process.workers_of_shape hshape u hu, ?_⟩)
    (size_of_step (h.size a.tid) hserver) (fun e he => (tid_of_sessionEvents hserver he).1)
    fun d hd => ?_
  · exact pc_of_shape hshape u hu
  · rw [hplace] at hd
    exact follows_of_step (hloops.session a.tid hplace) (h.size a.tid) hd hserver
      (hfault a.tid)

/-- Every step of the server keeps the protocol. Only an accepted connection and a step in a session
say something, and the other steps move a worker in its loops, or no worker. -/
theorem Talks.step (h : Talks p log) {a : ProcessAction n} (hinv : Process.Inv hashSize p log)
    (hfault : ∀ u, p'.server.shared.pc u ≠ .fault) (hstep : p.step a = some (p', es)) :
    Talks p' (log ++ es) := by
  have hnone : ∀ e ∈ ([] : List (Event n)), e.tid = none := fun e he => by cases he
  cases Process.shape_of_step hstep with
  | sigint | created | join | joined | close | undefined => exact h.same rfl rfl rfl hnone
  | destroy => exact h.same rfl rfl rfl fun e he => by cases List.mem_singleton.mp he; rfl
  | create hi hmain =>
      exact h.leave (hinv.main.absent hmain hi) Place.noConfusion
        ⟨Place.noConfusion, Place.noConfusion⟩ rfl (Function.update_eq_self _ _).symm rfl rfl
  | exit hplace | goOn hplace | timeOut hplace =>
      exact h.leave hplace Place.noConfusion ⟨Place.noConfusion, Place.noConfusion⟩ rfl
        (Function.update_eq_self _ _).symm rfl rfl
  | hangUp hplace =>
      exact h.leave hplace Place.noConfusion ⟨Place.noConfusion, Place.noConfusion⟩ rfl rfl rfl rfl
  | @enter t hplace =>
      refine h.loop rfl (Function.update_eq_self _ _).symm rfl rfl fun d hd => ?_
      rw [hplace] at hd
      exact (follows_receiving (hinv.loops.inner t hplace)).mpr hd
  | connect hplace => exact h.connect hplace
  | session hplace hserver => exact h.session hinv.loops hfault hplace hserver

variable {rbufs : Fin n → List UInt8} {acts : List (ProcessAction n)}

end

end SysProg.Kvs
