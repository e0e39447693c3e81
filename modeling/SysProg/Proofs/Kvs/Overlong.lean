import SysProg.Proofs.Kvs.Loop

/-!
# `SysProg.Proofs.Kvs.Overlong`: a request that does not fit into the buffer

When the buffer is full without a line feed, the loop answers `INVALID CMD` and starts anew with
the bytes behind it. So a long line is cut into pieces of `BUF_SIZE` bytes, however `recv` cuts it.
`Filled.run_line` gives the replies to a line: one rejection for each full piece in front of its
last one, and a reply to the last piece, unless a NUL byte hides its line feed.

`overlong_rejected_iff` says when a line that is too long gets a single rejection.
-/

set_option autoImplicit false

namespace SysProg.Kvs

open SysProg.Lib

/-- The reply `INVALID CMD`, so many times. -/
def rejections (q : Nat) : List UInt8 := (List.replicate q (msgInvalid ++ [lf])).flatten

/-- One more rejection in front. -/
theorem rejections_succ (q : Nat) : rejections (q + 1) = msgInvalid ++ [lf] ++ rejections q := by
  rw [rejections, List.replicate_succ, List.flatten_cons, rejections]

/-- Each rejection has 12 bytes with its line feed. -/
theorem length_rejections (q : Nat) : (rejections q).length = q * 12 := by
  induction q with
  | zero => rfl
  | succ q ih =>
      rw [rejections_succ, List.length_append, ih]
      show 12 + q * 12 = (q + 1) * 12
      omega

section
variable {st st' : Table × Session} {w : List UInt8} {is : List Input} {log : List (List UInt8)}

/-- Inputs without bytes change nothing. They are timeouts and interrupts, and the loop goes around.
-/
theorem Filled.run_idle (h : Filled st.2 w) (hi : ∀ i ∈ is, i.Benign) (hrecv : received is = [])
    (hrun : run sessionStep st is = some (st', log)) : st'.1 = st.1 ∧ log = [] := by
  induction is generalizing st log with
  | nil =>
      rw [run_nil, Option.some.injEq, Prod.mk.injEq] at hrun
      obtain ⟨rfl, rfl⟩ := hrun
      exact ⟨rfl, rfl⟩
  | cons i is ih =>
      obtain ⟨st₁, log₁, log₂, hstep, hrest, rfl⟩ := run_append_eq_some
        (show run sessionStep st ([i] ++ is) = some (st', log) from hrun)
      rw [run_singleton] at hstep
      have hcons : i.bytes ++ received is = [] := by
        rw [← hrecv]
        simp [received]
      obtain ⟨hnil, hrecv'⟩ := List.append_eq_nil_iff.mp hcons
      have hhandles := h.handles (hi i List.mem_cons_self) (sessionStep_eq_some hstep)
      obtain ⟨t₁, s₁⟩ := st₁
      cases hhandles with
      | idle _ hnone hfilled =>
          obtain ⟨ht, rfl⟩ := ih hfilled (fun j hj => hi j (List.mem_cons_of_mem i hj)) hrecv' hrest
          exact ⟨ht, rfl⟩
      | waits _ hpos => exact absurd hnil hpos
      | answers _ _ _ hpos => exact absurd hnil hpos

/-- A part of a text with its line feed is a part of the text, or all of it. -/
theorem append_eq_concat {b r x : List UInt8} (h : b ++ r = x ++ [lf]) :
    (∃ y, x = b ++ y ∧ r = y ++ [lf]) ∨ b = x ++ [lf] ∧ r = [] := by
  obtain ⟨y, rfl, hr⟩ | ⟨y, rfl, hy⟩ := List.append_eq_append_iff.mp h
  · exact .inl ⟨y, rfl, hr⟩
  · obtain ⟨rfl, rfl⟩ | ⟨rfl, rfl⟩ := List.append_eq_singleton_iff.mp hy.symm
    · exact .inl ⟨[], by simp, rfl⟩
    · exact .inr ⟨rfl, rfl⟩

/-- The replies to a line of which `w` is in the buffer. A full piece without its line feed is
rejected and dropped, and what is left is served as a line of its own. -/
theorem Filled.run_line {x : List UInt8} (h : Filled st.2 w) (hw : w.length < bufSize)
    (hlf : lf ∉ w ++ x) (hi : ∀ i ∈ is, i.Benign) (hrecv : received is = x ++ [lf])
    (hrun : run sessionStep st is = some (st', log)) {q : Nat}
    (hq : q = (w ++ x).length / bufSize) {tail : List UInt8}
    (htail : tail = (w ++ x).drop (bufSize * q) ++ [lf]) :
    (¬ complete tail ∧ st'.1 = st.1 ∧ log.flatten = rejections q) ∨
      (complete tail ∧ ∃ text, log.flatten = rejections q ++ text ++ [lf]) := by
  -- Induction on the inputs. Each one adds its bytes to `w`, or empties `w` with a rejection.
  induction is generalizing st w x q log with
  | nil => simp [received] at hrecv
  | cons i is ih =>
      obtain ⟨st₁, log₁, log₂, hstep, hrest, rfl⟩ := run_append_eq_some
        (show run sessionStep st ([i] ++ is) = some (st', log) from hrun)
      rw [run_singleton] at hstep
      have hrest_benign : ∀ j ∈ is, j.Benign := fun j hj => hi j (List.mem_cons_of_mem i hj)
      have hcons : i.bytes ++ received is = x ++ [lf] := by
        rw [← hrecv]
        simp [received]
      have hhandles := h.handles (hi i List.mem_cons_self) (sessionStep_eq_some hstep)
      obtain ⟨t₁, s₁⟩ := st₁
      obtain ⟨y, rfl, hrest_recv⟩ | ⟨hlast, hrest_recv⟩ := append_eq_concat hcons
      · rw [← List.append_assoc] at hlf hq htail
        cases hhandles with
        | idle _ hnone hfilled =>
            rw [hnone, List.append_nil] at hlf hq htail
            exact ih hfilled hw hlf hrest_benign hrest_recv hrest hq htail
        | waits _ hpos hlt _ hfilled =>
            exact ih hfilled hlt hlf hrest_benign hrest_recv hrest hq htail
        | answers _ _ _ hpos hle hwhole hfilled hline htooLong =>
            have hlf' : lf ∉ w ++ i.bytes := fun hmem => hlf (List.mem_append_left y hmem)
            have hfull : (w ++ i.bytes).length = bufSize :=
              hwhole.resolve_right fun hmem => hlf' ((List.takeWhile_prefix _).subset hmem)
            obtain ⟨rfl, hreject⟩ := htooLong hfull hlf'
            rw [List.length_append, hfull, Nat.add_div_left _ (by decide)] at hq
            have hdrop : (w ++ i.bytes ++ y).drop (bufSize * (y.length / bufSize + 1))
                = y.drop (bufSize * (y.length / bufSize)) := by
              rw [Nat.mul_succ, Nat.add_comm, ← List.drop_drop, ← hfull, List.drop_left]
            rw [hq, hdrop] at htail
            have hlfy : lf ∉ [] ++ y := fun hmem => hlf (List.mem_append_right _ hmem)
            rw [hq, List.flatten_append, hreject, rejections_succ]
            obtain ⟨hopen, ht, hlog⟩ | ⟨hdone, text, hlog⟩ := ih hfilled (by decide) hlfy
              hrest_benign hrest_recv hrest rfl htail
            · exact .inl ⟨hopen, ht, by rw [hlog]; rfl⟩
            · refine .inr ⟨hdone, text, ?_⟩
              rw [hlog]
              simp only [List.append_assoc, List.nil_append]
      · -- The line feed comes, and nothing behind it.
        have hlen : (w ++ x).length + 1 = (w ++ i.bytes).length := by
          rw [hlast]
          simp
          omega
        have htail' : ∀ hle : (w ++ i.bytes).length ≤ bufSize, q = 0 ∧ tail = w ++ i.bytes := by
          intro hle
          have hzero : q = 0 := by
            rw [hq]
            exact Nat.div_eq_of_lt (by omega)
          refine ⟨hzero, ?_⟩
          rw [htail, hzero, Nat.mul_zero, List.drop_zero, hlast, List.append_assoc]
        cases hhandles with
        | idle _ hnone =>
            rw [hnone] at hlast
            simp at hlast
        | waits _ hpos hlt hopen hfilled =>
            obtain ⟨hzero, heq⟩ := htail' hlt.le
            obtain ⟨ht, rfl⟩ := hfilled.run_idle hrest_benign hrest_recv hrest
            rw [heq, hzero]
            exact .inl ⟨hopen, ht, rfl⟩
        | answers _ _ _ hpos hle hwhole hfilled hline =>
            obtain ⟨hzero, heq⟩ := htail' hle
            obtain ⟨-, rfl⟩ := hfilled.run_idle hrest_benign hrest_recv hrest
            obtain ⟨text, htext⟩ := hline
            rw [heq, hzero]
            exact .inr ⟨hwhole, text, by rw [List.append_nil, htext]; rfl⟩

/-! ### A line that is too long -/

/-- The last piece of a line is incomplete when a NUL byte hides its line feed. -/
theorem complete_concat_iff {y : List UInt8} (hlf : lf ∉ y) :
    complete (y ++ [lf]) ↔ y.length + 1 = bufSize ∨ 0 ∉ y := by
  have htakes : lf ∈ (y ++ [lf]).takeWhile (fun c => c ≠ 0) ↔ 0 ∉ y := by
    constructor
    · intro hmem hzero
      obtain ⟨a, b, rfl⟩ := List.append_of_mem hzero
      rw [List.append_assoc, List.takeWhile_append] at hmem
      split at hmem
      case isTrue =>
        rw [List.cons_append, List.takeWhile_cons_of_neg (by simp), List.append_nil] at hmem
        exact hlf (List.mem_append_left _ hmem)
      case isFalse => exact hlf (List.mem_append_left _ ((List.takeWhile_prefix _).subset hmem))
    · intro hzero
      have hall : ∀ c ∈ y ++ [lf], (decide (c ≠ 0)) = true := by
        intro c hc
        obtain hc | hc := List.mem_append.mp hc
        · exact decide_eq_true fun heq => hzero (heq ▸ hc)
        · rw [List.mem_singleton.mp hc]
          decide
      rw [List.takeWhile_eq_self_iff.mpr hall]
      exact List.mem_append_right y (List.mem_singleton.mpr rfl)
  rw [complete, htakes, List.length_append, List.length_singleton]

/-- One full piece in front of the last piece. -/
theorem div_bufSize_eq_one {n : Nat} (h : bufSize ≤ n) : n / bufSize = 1 ↔ n < 2 * bufSize := by
  rw [Nat.div_eq_iff (by decide), bufSize] at *
  omega

/-- When a line that is too long is rejected as a whole. With a buffer that has nothing of a
request yet, and with any table and any pieces in which `recv` brings the line, the loop leaves
the table alone and sends one `INVALID CMD` if and only if the line is shorter than two buffers
and a NUL byte behind the first buffer hides its line feed. -/
theorem overlong_rejected_iff {t : Table} {s : Session} (hopen : s.isOpen = true)
    (hsize : s.rbuf.length = bufSize + 1) (hoff : s.off = 0) {x : List UInt8} (hlf : lf ∉ x)
    (hlong : bufSize < (x ++ [lf]).length) (hi : ∀ i ∈ is, i.Benign)
    (hrecv : received is = x ++ [lf]) (hrun : run sessionStep (t, s) is = some (st', log)) :
    st'.1 = t ∧ log.flatten = msgInvalid ++ [lf] ↔
      (x ++ [lf]).length < 2 * bufSize ∧ 0 ∈ x.drop bufSize := by
  rw [List.length_append, List.length_singleton] at hlong ⊢
  have hle : bufSize ≤ x.length := by omega
  have hone : 1 ≤ x.length / bufSize := (Nat.one_le_div_iff (by decide)).mpr hle
  have hlfdrop : lf ∉ x.drop (bufSize * (x.length / bufSize)) :=
    fun hmem => hlf (List.mem_of_mem_drop hmem)
  have hcomplete := complete_concat_iff hlfdrop
  have hinvalid : (msgInvalid ++ [lf]).length = 12 := by decide
  have hcases := Filled.run_line (Filled.start hopen hsize hoff) (by decide)
    (by rw [List.nil_append]; exact hlf) hi hrecv hrun rfl rfl
  rw [List.nil_append, hcomplete, not_or, Decidable.not_not] at hcases
  obtain ⟨⟨hnotfull, hzero⟩, ht, hlog⟩ | ⟨hwhole, text, hlog⟩ := hcases
  · constructor
    · intro ⟨_, hmsg⟩
      have hq : x.length / bufSize * 12 = 12 := by
        rw [← length_rejections, ← hlog, hmsg, hinvalid]
      have hq' : x.length / bufSize = 1 := by omega
      have hshort := (div_bufSize_eq_one hle).mp hq'
      rw [hq', Nat.mul_one] at hnotfull hzero
      rw [List.length_drop] at hnotfull
      exact ⟨by omega, hzero⟩
    · intro ⟨hshort, _⟩
      rw [(div_bufSize_eq_one hle).mpr (by omega)] at hlog
      exact ⟨ht, hlog⟩
  · -- A reply to the last piece comes behind the rejection.
    constructor
    · intro ⟨_, hmsg⟩
      have hsum : x.length / bufSize * 12 + text.length + 1 = 12 := by
        rw [← length_rejections, ← hinvalid, ← hmsg, hlog]
        simp only [List.length_append, List.length_singleton]
      omega
    · intro ⟨hshort, hzero⟩
      have hq := (div_bufSize_eq_one hle).mpr (by omega)
      rw [hq, Nat.mul_one, List.length_drop] at hwhole
      obtain hfull | hnone := hwhole
      · omega
      · exact absurd hzero hnone

end

/-! ### A full buffer and a tail -/

/-- A full buffer of letters. -/
def fullPiece : List UInt8 := List.replicate bufSize 97

/-- The line of a full buffer and `tail`. It comes in two pieces, and `send` takes whole replies. -/
def overlongInputs (tail : List UInt8) : List Input :=
  [⟨.data fullPiece, ⟨0, true, true⟩, [.sent 12]⟩,
    ⟨.data (tail ++ [lf]), ⟨0, true, true⟩, [.sent 10]⟩]

/-- None of these inputs ends the connection. -/
theorem overlongInputs_benign (tail : List UInt8) : ∀ i ∈ overlongInputs tail, i.Benign := by
  intro i hi
  simp only [overlongInputs, List.mem_cons, List.not_mem_nil, or_false] at hi
  obtain rfl | rfl := hi
  · exact ⟨Or.inr (by decide +kernel), by decide⟩
  · exact ⟨Or.inr (by simp [Input.bytes]), by simp⟩

/-- The inputs together are the full piece, the tail and a line feed. -/
theorem received_overlongInputs (tail : List UInt8) :
    received (overlongInputs tail) = (fullPiece ++ tail) ++ [lf] := by
  simp [received, overlongInputs, Input.bytes]

/-- `DELETE k`. -/
def deleteText : List UInt8 := ascii ['D', 'E', 'L', 'E', 'T', 'E', ' ', 'k']

/-- The table with the value `v` for the key `k`. -/
def oneKey : Option Table :=
  ((hashInit 1).call ⟨8, true, true⟩
    (.insert (.ofBytes (ascii ['k'])) (.ofBytes (ascii ['v'])))).map Prod.fst

/-- What a table says of the key `k`. -/
def readKey (t : Table) : Option Int :=
  (t.call ⟨0, true, true⟩ (.read (.ofBytes (ascii ['k'])))).map fun r => r.2.code

/-- The tail of a line that is too long is executed: the key is in the table, the line brings two
replies, and the key is gone. -/
theorem overlong_tail_executed :
    ∃ t s st log, oneKey = some t ∧ s = Session.accept (List.replicate (bufSize + 1) 0) ∧
      lf ∉ fullPiece ++ deleteText ∧ bufSize < (fullPiece ++ deleteText ++ [lf]).length ∧
      (∀ i ∈ overlongInputs deleteText, i.Benign) ∧
      received (overlongInputs deleteText) = fullPiece ++ deleteText ++ [lf] ∧
      run sessionStep (t, s) (overlongInputs deleteText) = some (st, log) ∧
      log.flatten = msgInvalid ++ [lf] ++ msgDeleteOk ++ [lf] ∧
      log.flatten ≠ msgInvalid ++ [lf] ∧ st.1 ≠ t := by
  obtain ⟨t, ht⟩ := Option.isSome_iff_exists.mp (show oneKey.isSome = true by decide +kernel)
  have hrun : (oneKey.bind fun t =>
      run sessionStep (t, Session.accept (List.replicate (bufSize + 1) 0))
        (overlongInputs deleteText)).map (fun r => (r.2.flatten, readKey r.1.1))
      = some (msgInvalid ++ [lf] ++ msgDeleteOk ++ [lf], some 0) := by
    decide +kernel
  rw [ht, Option.bind_some, Option.map_eq_some_iff] at hrun
  obtain ⟨⟨st, log⟩, hrun, hresult⟩ := hrun
  obtain ⟨hlog, hgone⟩ := Prod.mk.inj hresult
  have hread : oneKey.map readKey = some (some 1) := by decide +kernel
  rw [ht, Option.map_some, Option.some.injEq] at hread
  refine ⟨t, _, st, log, ht, rfl, by decide +kernel, by decide +kernel,
    overlongInputs_benign _, received_overlongInputs _, hrun, hlog, ?_, ?_⟩
  · rw [hlog]
    decide
  · rintro rfl
    rw [hread] at hgone
    cases hgone

/-- With a NUL byte in the tail the line brings one reply. -/
theorem overlong_rejected_iff_nul :
    ∃ st log, run sessionStep (hashInit 1, Session.accept (List.replicate (bufSize + 1) 0))
        (overlongInputs [0]) = some (st, log) ∧
      st.1 = hashInit 1 ∧ log.flatten = msgInvalid ++ [lf] := by
  obtain ⟨⟨st, log⟩, hrun⟩ := Option.isSome_iff_exists.mp
    (show (run sessionStep (hashInit 1, Session.accept (List.replicate (bufSize + 1) 0))
      (overlongInputs [0])).isSome = true by decide +kernel)
  have hiff := overlong_rejected_iff rfl (by decide +kernel) rfl
    (show lf ∉ fullPiece ++ [0] by decide +kernel) (by decide +kernel) (overlongInputs_benign [0])
    (received_overlongInputs [0]) hrun
  exact ⟨st, log, hrun, hiff.mpr ⟨by decide +kernel, by decide +kernel⟩⟩

end SysProg.Kvs
