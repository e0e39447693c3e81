import SysProg.Proofs.Kvs.OneLine

/-!
# `SysProg.Proofs.Kvs.Loop`: one iteration of the session loop on any bytes

* `handleClient_cases` lists what one iteration does.
* `complete` is the test by which the parser decides that a buffer has a whole request.
* `Filled.handles`: the loop keeps the bytes of a request that is not complete, and otherwise
  sends one reply and forgets them.
-/

set_option autoImplicit false

namespace SysProg.Kvs

open SysProg.Lib

/-! ### One iteration -/

/-- What one iteration does: nothing, the end of the connection, or a call of `skvs_serve` with
what was received. -/
inductive Iteration (t : Table) (s : Session) (i : Input) :
    Table → Session → List (List UInt8) → Prop where
  | retry (recv : i.recv = .retry) : Iteration t s i t s []
  | ends (recv : i.recv = .failed ∨ i.recv = .closed) :
      Iteration t s i t { s with isOpen := false } []
  | serves (bytes : List UInt8) (recv : i.recv = .data bytes) (pos : bytes ≠ [])
      (fits : bytes.length ≤ bufSize - s.off) (mem : i.mem.Fits t) (r : Table × List UInt8 × Served)
      (serve : skvsServe t i.mem (receive s.rbuf s.off bytes) (s.off + bytes.length) = some r)
      (t' : Table) (s' : Session) (log : List (List UInt8))
      (result : respond i.sends (s.off + bytes.length) r = some (t', s', log)) :
      Iteration t s i t' s' log

/-- An iteration of an open connection. The client has gone, nothing has come, or there are bytes
for `skvs_serve`. -/
theorem handleClient_cases {t t' : Table} {s s' : Session} {i : Input} {log : List (List UInt8)}
    (h : handleClient t s i = some (t', s', log)) :
    s.isOpen = true ∧ Iteration t s i t' s' log := by
  unfold handleClient at h
  split at h
  case isTrue => cases h
  case isFalse hopen =>
    refine ⟨by simpa using hopen, ?_⟩
    split at h
    case h_1 hrecv =>
      cases h
      exact .retry hrecv
    case h_2 hrecv =>
      cases h
      exact .ends (.inl hrecv)
    case h_3 hrecv =>
      cases h
      exact .ends (.inr hrecv)
    case h_4 bytes hrecv =>
      split at h
      case isTrue => cases h
      case isFalse hguard =>
        simp only [not_or, Option.not_isSome_iff_eq_none, Nat.not_lt] at hguard
        obtain ⟨hpos, hfits, hmem⟩ := hguard
        obtain ⟨r, hserve, hresult⟩ := Option.bind_eq_some_iff.mp h
        exact .serves bytes hrecv hpos hfits hmem r hserve t' s' log hresult

/-! ### The verdict of the parser -/

/-- The parser takes the bytes for a whole request: the buffer is full, or there is a line feed in
front of the first NUL byte. -/
def complete (v : List UInt8) : Prop := v.length = bufSize ∨ lf ∈ v.takeWhile fun c => c ≠ 0

/-- A terminator behind some bytes makes a string of those in front of their first NUL byte. -/
theorem cstr_set_behind {buf v : List UInt8} (hv : v <+: buf) (hlen : v.length < buf.length) :
    cstr (buf.set v.length 0) 0 = v.takeWhile fun c => c ≠ 0 := by
  obtain ⟨rest, rfl⟩ := hv
  cases rest with
  | nil => simp at hlen
  | cons c rest =>
      show ((v ++ c :: rest).set v.length 0).takeWhile (fun c => decide (c ≠ 0)) = _
      rw [List.set_append_right _ _ (Nat.le_refl _), Nat.sub_self, List.set_cons_zero,
        List.takeWhile_append]
      split
      case isTrue hall =>
        rw [List.takeWhile_cons_of_neg (by simp), List.append_nil,
          (List.takeWhile_prefix _).eq_of_length hall]
      case isFalse => rfl

/-- A line is never incomplete. -/
theorem skvsParseLine_cmd (buf : List UInt8) : (skvsParseLine buf).cmd ≠ .incomplete := by
  have hreads := skvsParseLine_reads buf
  cases hmsg : message (cstr buf 0) with
  | none =>
      rw [hmsg] at hreads
      have hcmd : (skvsParseLine buf).cmd = .invalid := hreads
      rw [hcmd]
      decide
  | some r =>
      rw [hmsg] at hreads
      obtain ⟨op, hop⟩ := message_op hmsg
      rw [hreads.1]
      exact (Message.op_cmd hop).1

/-- The parser on bytes that are no whole request. -/
theorem skvsParse_of_not_complete {buf v : List UInt8} (hv : v <+: buf)
    (hbuf : buf.length = bufSize + 1) (hle : v.length ≤ bufSize) (h : ¬ complete v) :
    skvsParse buf v.length = ⟨buf.set v.length 0, .incomplete, none, none⟩ := by
  obtain ⟨hfull, hlf⟩ := not_or.mp h
  have hnone : ((v.takeWhile fun c => c ≠ 0).findIdx? fun c => c = lf) = none := by
    rw [List.findIdx?_eq_none_iff]
    simpa using fun c hc (heq : c = lf) => hlf (heq ▸ hc)
  simp only [skvsParse, cstr_set_behind hv (show v.length < buf.length by omega), hnone]
  rw [if_neg (by omega), if_neg hfull]

/-- The parser on bytes that are a whole request. -/
theorem skvsParse_of_complete {buf v : List UInt8} (hv : v <+: buf)
    (hbuf : buf.length = bufSize + 1) (hle : v.length ≤ bufSize) (h : complete v) :
    (skvsParse buf v.length).cmd ≠ .incomplete := by
  rw [skvsParse, if_neg (by omega)]
  split
  case isTrue =>
    split
    case isTrue => simp
    case isFalse => exact skvsParseLine_cmd _
  case isFalse hfull =>
    simp only [cstr_set_behind hv (show v.length < buf.length by omega)]
    split
    case h_1 hnone =>
      rw [List.findIdx?_eq_none_iff] at hnone
      have := hnone lf (h.resolve_left hfull)
      simp at this
    case h_2 => exact skvsParseLine_cmd _

/-! ### `skvs_serve` -/

/-- Without a whole request `skvs_serve` does nothing to the table. -/
theorem skvsServe_of_incomplete (t : Table) (mem : Alloc) {buf : List UInt8} {rlen : Nat}
    (hpos : rlen ≠ 0) (h : (skvsParse buf rlen).cmd = .incomplete) :
    skvsServe t mem buf rlen = some (t, (skvsParse buf rlen).buffer, .incomplete) := by
  simp only [skvsServe, if_neg hpos, h]

/-- An invalid request does nothing to the table. -/
theorem skvsServe_of_invalid (t : Table) (mem : Alloc) {buf : List UInt8} {rlen : Nat}
    (hpos : rlen ≠ 0) (h : (skvsParse buf rlen).cmd = .invalid) :
    skvsServe t mem buf rlen
      = some (t, (skvsParse buf rlen).buffer, .reply (msgInvalid ++ [lf])) := by
  simp only [skvsServe, if_neg hpos, h]

/-- A whole request is answered with a line. The reply has a line feed at its end, whatever the
request is. -/
theorem reply_of_skvsServe {t : Table} {mem : Alloc} {buf : List UInt8} {rlen : Nat}
    (hpos : rlen ≠ 0) (hcmd : (skvsParse buf rlen).cmd ≠ .incomplete)
    {r : Table × List UInt8 × Served} (h : skvsServe t mem buf rlen = some r) :
    r.2.1 = (skvsParse buf rlen).buffer ∧ ∃ text, r.2.2 = .reply (text ++ [lf]) := by
  simp only [skvsServe, if_neg hpos] at h
  split at h
  case h_1 hinc => exact absurd hinc hcmd
  case h_2 =>
    cases h
    exact ⟨rfl, _, rfl⟩
  case h_3 =>
    split at h
    case h_1 =>
      cases h
      exact ⟨rfl, _, rfl⟩
    case h_2 op hop =>
      obtain ⟨q, -, rfl⟩ := Option.map_eq_some_iff.mp h
      exact ⟨rfl, _, rfl⟩

/-! ### The buffer of a connection -/

/-- The connection is open, and its buffer starts with the bytes `w` of a request. -/
structure Filled (s : Session) (w : List UInt8) : Prop where
  isOpen : s.isOpen = true
  size : s.rbuf.length = bufSize + 1
  off : s.off = w.length
  bytes : w <+: s.rbuf

/-- What an iteration does with the bytes `w` of a request and the new ones `b`. -/
inductive Handles (t : Table) (w b : List UInt8) : Table → Session → List (List UInt8) → Prop where
  | idle (s' : Session) (none : b = []) (filled : Filled s' w) : Handles t w b t s' []
  | waits (s' : Session) (pos : b ≠ []) (lt : (w ++ b).length < bufSize)
      (open_ : ¬ complete (w ++ b)) (filled : Filled s' (w ++ b)) : Handles t w b t s' []
  | answers (t' : Table) (s' : Session) (log : List (List UInt8)) (pos : b ≠ [])
      (le : (w ++ b).length ≤ bufSize) (whole : complete (w ++ b)) (filled : Filled s' [])
      (line : ∃ text, log.flatten = text ++ [lf])
      (tooLong : (w ++ b).length = bufSize → lf ∉ w ++ b →
        t' = t ∧ log.flatten = msgInvalid ++ [lf]) : Handles t w b t' s' log

/-- A connection that has nothing of a request. -/
theorem Filled.start {s : Session} (hopen : s.isOpen = true) (hsize : s.rbuf.length = bufSize + 1)
    (hoff : s.off = 0) : Filled s [] :=
  ⟨hopen, hsize, hoff, List.nil_prefix⟩

/-- One iteration with a client that stays connected. What is in the buffer grows, is answered, or
is dropped as too long. -/
theorem Filled.handles {t t' : Table} {s s' : Session} {w : List UInt8} {i : Input}
    {log : List (List UInt8)} (h : Filled s w) (hi : i.Benign)
    (hstep : handleClient t s i = some (t', s', log)) : Handles t w i.bytes t' s' log := by
  obtain ⟨-, hcase⟩ := handleClient_cases hstep
  cases hcase with
  | retry hrecv =>
      have hnone : i.bytes = [] := by simp only [Input.bytes, hrecv]
      exact .idle s hnone h
  | ends hrecv =>
      obtain hretry | hne := hi.recv
      · obtain hrecv | hrecv := hrecv <;> rw [hretry] at hrecv <;> cases hrecv
      · obtain hrecv | hrecv := hrecv <;> simp [Input.bytes, hrecv] at hne
  | serves bytes hrecv hpos hfits hmem r hserve t' s' log hresult =>
      have hbytes : i.bytes = bytes := by simp only [Input.bytes, hrecv]
      rw [hbytes]
      rw [h.off] at hfits hserve hresult
      have hone := List.length_pos_of_ne_nil hpos
      have hlen : (w ++ bytes).length = w.length + bytes.length := List.length_append
      have hle : (w ++ bytes).length ≤ bufSize := by omega
      have hsize : (receive s.rbuf w.length bytes).length = bufSize + 1 := by
        rw [length_receive (by rw [h.size]; omega), h.size]
      have hpre := prefix_receive h.bytes bytes
      rw [← hlen] at hserve hresult
      have hzero : (w ++ bytes).length ≠ 0 := by omega
      by_cases hwhole : complete (w ++ bytes)
      · have hcmd := skvsParse_of_complete hpre hsize hle hwhole
        obtain ⟨hbuf, text, htext⟩ := reply_of_skvsServe hzero hcmd hserve
        obtain ⟨t₁, buf₁, served⟩ := r
        simp only at hbuf htext
        subst hbuf htext
        obtain ⟨⟨chunks, ok⟩, hsend, hr⟩ := Option.map_eq_some_iff.mp hresult
        obtain rfl := sendAll_complete hi.sends hsend
        rw [if_pos rfl] at hr
        cases hr
        have hflat := sendAll_flatten hsend
        refine .answers t' _ chunks hpos hle hwhole (.start rfl ?_ rfl) ⟨text, hflat⟩ ?_
        · exact (length_skvsParse _ _).trans hsize
        · intro hfull hlf
          -- A full buffer without a line feed is rejected.
          have hinvalid : (skvsParse (receive s.rbuf w.length bytes) (w ++ bytes).length).cmd
              = .invalid := by
            have hlast : (receive s.rbuf w.length bytes).getD (bufSize - 1) 0 ≠ lf := by
              have hlt : bufSize - 1 < (w ++ bytes).length := by
                rw [hfull]
                decide
              obtain ⟨rest, hrest⟩ := hpre
              rw [← hrest, List.getD_eq_getElem?_getD, List.getElem?_append_left hlt,
                List.getElem?_eq_getElem hlt, Option.getD_some]
              exact fun heq => hlf (heq ▸ List.getElem_mem hlt)
            rw [skvsParse, if_neg (by omega), if_pos hfull, if_pos hlast]
          rw [skvsServe_of_invalid t i.mem hzero hinvalid, Option.some.injEq, Prod.mk.injEq,
            Prod.mk.injEq] at hserve
          obtain ⟨ht, -, hreply⟩ := hserve
          rw [Served.reply.injEq] at hreply
          exact ⟨ht.symm, hflat.trans hreply.symm⟩
      · have hparse := skvsParse_of_not_complete hpre hsize hle hwhole
        have hlt : (w ++ bytes).length < bufSize :=
          lt_of_le_of_ne hle fun heq => hwhole (.inl heq)
        rw [skvsServe_of_incomplete t i.mem hzero (by rw [hparse])] at hserve
        cases hserve
        simp only [respond, if_neg (show ¬ bufSize ≤ (w ++ bytes).length by omega),
          Option.some.injEq, Prod.mk.injEq] at hresult
        obtain ⟨rfl, rfl, rfl⟩ := hresult
        refine .waits _ hpos hlt hwhole ⟨rfl, ?_, rfl, ?_⟩
        · exact (length_skvsParse _ _).trans hsize
        · rw [hparse]
          exact prefix_set_length hpre 0

end SysProg.Kvs
