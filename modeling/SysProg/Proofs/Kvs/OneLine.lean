import SysProg.Proofs.Kvs.Session

/-!
# `SysProg.Proofs.Kvs.OneLine`: when a reply is one line

A reply ends at its line feed, so no stored key or value may have one. `serveStep` is one call
of `skvs_serve` with any bytes in the receive buffer.

With fewer than `BUF_SIZE` bytes the parser cuts the text at its first line feed. With exactly
`BUF_SIZE` bytes it looks at the last byte only, and a line feed before it stays in a word.
`StoresLf` is the call that stores such a word. `skvsServe_one_line` shows that nothing else
goes wrong: in a run the table and the replies are as they should be if and only if no call
stores a line feed. `skvsServe_two_lines` is such a run.
-/

set_option autoImplicit false

namespace SysProg.Kvs

open SysProg.Lib

/-! ### Calls with any bytes -/

/-- One call of `skvs_serve`: the receive buffer, the number of bytes received, and what the
allocator does. -/
structure ServeCall where
  rbuf : List UInt8
  rlen : Nat
  mem : Alloc
  size : rbuf.length = bufSize + 1
  pos : 1 ≤ rlen
  le : rlen ≤ bufSize

/-- A call of `skvs_serve` on the table, with its result. `calloc` does not hand out the address
of a live node. -/
def serveStep (t : Table) (c : ServeCall) : Option (Table × List Served) :=
  if (t.nodes c.mem.node).isSome then none
  else (skvsServe t c.mem c.rbuf c.rlen).map fun r => (r.1, [r.2.2])

/-- A string without space and line feed. -/
def CString.OneWord (s : CString) : Prop := ∀ c ∈ s.bytes, c ≠ space ∧ c ≠ lf

/-- No stored key or value has a space or a line feed. -/
def Table.OneWord (t : Table) : Prop :=
  ∀ p n, t.nodes p = some n → n.key.OneWord ∧ n.value.OneWord

/-- A reply has one line feed, at its end. -/
def Served.OneLine : Served → Prop
  | .reply wbuf => ∃ line, wbuf = line ++ [lf] ∧ lf ∉ line
  | .error | .incomplete => True

/-- The text in a full buffer. Its last byte is the line feed, and nothing else is looked at. -/
def fullText (rbuf : List UInt8) : List UInt8 :=
  (rbuf.take (bufSize - 1)).takeWhile fun c => c ≠ 0

/-- A key is in the table. -/
def Table.HasKey (t : Table) (key : CString) : Prop := ∃ p n, t.nodes p = some n ∧ n.key = key

/-- The call stores a line feed. The buffer is full and ends with a line feed, and the text in
it creates an absent key or updates a present one, with a line feed in the key or the value and
with enough memory. -/
def StoresLf (t : Table) (c : ServeCall) : Prop :=
  c.rlen = bufSize ∧ c.rbuf.getD (bufSize - 1) 0 = lf ∧
    ∃ key value, (lf ∈ key.bytes ∨ lf ∈ value.bytes) ∧
      ((message (fullText c.rbuf)).bind Message.op = some (.insert key value) ∧
          ¬ t.HasKey key ∧ c.mem.succeeds (.insert key value) ∨
        (message (fullText c.rbuf)).bind Message.op = some (.update key value) ∧
          t.HasKey key ∧ c.mem.succeeds (.update key value))

/-! ### The parser on any bytes -/

/-- Behind the terminator that replaces the last byte of a full buffer nothing is read. -/
theorem cstr_set_last {buf : List UInt8} (hbuf : buf.length = bufSize + 1) :
    cstr (buf.set (bufSize - 1) 0) 0 = fullText buf := by
  have hlt : bufSize - 1 < buf.length := by omega
  show (buf.set (bufSize - 1) 0).takeWhile _ = _
  rw [List.set_eq_take_append_cons_drop, if_pos hlt, List.takeWhile_append, fullText]
  split
  · rename_i hall
    rw [List.takeWhile_cons_of_neg (by simp), List.append_nil,
      (List.takeWhile_prefix _).eq_of_length hall]
  · rfl

/-- A full buffer that ends with a line feed is read as its text. -/
theorem skvsParse_full {buf : List UInt8} (hbuf : buf.length = bufSize + 1)
    (hlast : buf.getD (bufSize - 1) 0 = lf) :
    (skvsParse buf bufSize).Reads (message (fullText buf)) := by
  have hreads := skvsParseLine_reads (buf.set (bufSize - 1) 0)
  rw [cstr_set_last hbuf] at hreads
  unfold skvsParse
  rwa [if_neg (Nat.lt_irrefl _), if_pos rfl, if_neg (by simpa using hlast)]

/-- On any bytes the parser waits for more, or has read a text. A text with a line feed comes
from a full buffer only. -/
theorem skvsParse_reads {buf : List UInt8} {len : Nat} (hbuf : buf.length = bufSize + 1)
    (hlen : len ≤ bufSize) :
    (skvsParse buf len).cmd = .incomplete ∨
      ∃ w, (skvsParse buf len).Reads (message w) ∧
        (lf ∉ w ∨ len = bufSize ∧ buf.getD (bufSize - 1) 0 = lf ∧ w = fullText buf) := by
  by_cases hfull : len = bufSize
  · subst hfull
    by_cases hlast : buf.getD (bufSize - 1) 0 = lf
    · exact Or.inr ⟨_, skvsParse_full hbuf hlast, Or.inr ⟨rfl, hlast, rfl⟩⟩
    -- Without the line feed the request is rejected, as the empty text is.
    · refine Or.inr ⟨[], ?_, Or.inl (by simp)⟩
      unfold skvsParse
      rw [if_neg (Nat.lt_irrefl _), if_pos rfl, if_pos hlast]
      rfl
  · unfold skvsParse
    rw [if_neg (by omega), if_neg hfull]
    cases hfind : (cstr (buf.set len 0) 0).findIdx? fun c => c = lf with
    | none => exact Or.inl (by simp only [hfind])
    | some stop =>
        simp only [hfind]
        obtain ⟨hstop, -, hbefore⟩ := List.findIdx?_eq_some_iff_getElem.mp hfind
        have hcut : cstr ((buf.set len 0).set (0 + stop) 0) 0
            = (cstr (buf.set len 0) 0).take stop := cstr_set_zero hstop
        rw [Nat.zero_add] at hcut
        have hreads := skvsParseLine_reads ((buf.set len 0).set stop 0)
        rw [hcut] at hreads
        refine Or.inr ⟨_, hreads, Or.inl fun hmem => ?_⟩
        -- The text ends at the first line feed.
        obtain ⟨j, hj, hval⟩ := List.mem_take_iff_getElem.mp hmem
        have hne := hbefore j (by omega)
        simp [hval] at hne

/-! ### One request -/

/-- The bytes of a C string are among those it is made from. -/
theorem CString.mem_ofBytes {bs : List UInt8} {c : UInt8} (h : c ∈ (CString.ofBytes bs).bytes) :
    c ∈ bs :=
  (List.takeWhile_prefix _).subset h

/-- The strings of an operation, a key and perhaps a value. -/
def MapOp.strings {K : Type} : MapOp K K → List K
  | .insert key value | .update key value => [key, value]
  | .read key | .delete key => [key]

/-- The strings of a request have no space, and no byte that is not in its text. -/
theorem message_strings {w : List UInt8} {op : MapOp CString CString}
    (h : (message w).bind Message.op = some op) :
    ∀ s ∈ op.strings, ∀ c ∈ s.bytes, c ≠ space ∧ c ∈ w := by
  have htoken : ∀ x ∈ tokens isSpace w, ∀ c ∈ (CString.ofBytes x).bytes, c ≠ space ∧ c ∈ w := by
    intro x hx c hc
    obtain ⟨hsep, hmem⟩ := mem_tokens_imp hx c (CString.mem_ofBytes hc)
    exact ⟨by simpa [isSpace] using hsep, hmem⟩
  obtain ⟨r, hr, hop⟩ := Option.bind_eq_some_iff.mp h
  -- The key and the value of a message are words of the text.
  have hwords : r.key ∈ tokens isSpace w ∧ ∀ v ∈ r.value, v ∈ tokens isSpace w := by
    unfold message at hr
    split at hr
    · rename_i x key hts
      split at hr
      · obtain ⟨cmd, -, rfl⟩ := Option.map_eq_some_iff.mp hr
        simp [hts]
      · cases hr
    · rename_i x key value hts
      split at hr
      · obtain ⟨cmd, -, rfl⟩ := Option.map_eq_some_iff.mp hr
        simp [hts]
      · cases hr
    · cases hr
  obtain ⟨hkey, hvalue⟩ := hwords
  unfold Message.op at hop
  split at hop
  · rename_i value _ hv
    cases hop
    intro s hs
    rcases List.mem_pair.mp hs with rfl | rfl
    · exact htoken _ hkey
    · exact htoken _ (hvalue value hv)
  · rename_i value _ hv
    cases hop
    intro s hs
    rcases List.mem_pair.mp hs with rfl | rfl
    · exact htoken _ hkey
    · exact htoken _ (hvalue value hv)
  · cases hop
    intro s hs
    rw [List.mem_singleton.mp hs]
    exact htoken _ hkey
  · cases hop
    intro s hs
    rw [List.mem_singleton.mp hs]
    exact htoken _ hkey
  · cases hop
    intro s hs
    rw [List.mem_singleton.mp hs]
    exact htoken _ hkey
  · cases hop

/-- No key or value of the map has a space or a line feed. -/
def MapOneWord (m : CString → Option CString) : Prop :=
  ∀ key value, m key = some value → key.OneWord ∧ value.OneWord

/-- The operation stores this key with this value. -/
def MapOp.Stores (m : CString → Option CString) (allocated : Bool) (op : MapOp CString CString)
    (key value : CString) : Prop :=
  (op = .insert key value ∧ m key = none ∨ op = .update key value ∧ (m key).isSome) ∧
    allocated = true

/-- The map after an operation has what it had before, or what the operation stores. -/
theorem MapOp.apply_eq_some {m : CString → Option CString} {allocated : Bool}
    {op : MapOp CString CString} {key value : CString}
    (h : (op.apply m allocated).1 key = some value) :
    m key = some value ∨ op.Stores m allocated key value := by
  by_cases hkey : key = op.key
  · subst hkey
    cases op with
    | insert k v =>
        cases hm : m k <;> cases allocated <;>
          simp_all [MapOp.apply, MapOp.key, MapOp.Stores]
    | read k => cases hm : m k <;> simp_all [MapOp.apply, MapOp.key]
    | update k v =>
        cases hm : m k <;> cases allocated <;>
          simp_all [MapOp.apply, MapOp.key, MapOp.Stores]
    | delete k => cases hm : m k <;> simp_all [MapOp.apply, MapOp.key]
  · rw [MapOp.apply_ne m allocated op hkey] at h
    exact Or.inl h

/-- What an operation stores is in the map after it. -/
theorem MapOp.Stores.apply_eq {m : CString → Option CString} {allocated : Bool}
    {op : MapOp CString CString} {key value : CString} (h : op.Stores m allocated key value) :
    (op.apply m allocated).1 key = some value := by
  obtain ⟨⟨rfl, hm⟩ | ⟨rfl, hm⟩, rfl⟩ := h
  · simp [MapOp.apply, hm]
  · obtain ⟨old, hold⟩ := Option.isSome_iff_exists.mp hm
    simp [MapOp.apply, hold]

/-- What an operation stores are its strings. -/
theorem MapOp.Stores.strings {m : CString → Option CString} {allocated : Bool}
    {op : MapOp CString CString} {key value : CString} (h : op.Stores m allocated key value) :
    key ∈ op.strings ∧ value ∈ op.strings := by
  obtain ⟨⟨rfl, -⟩ | ⟨rfl, -⟩, -⟩ := h <;> simp [MapOp.strings]

/-- The answer to an operation has no line feed. -/
theorem lf_notMem_answer {m : CString → Option CString} (hm : MapOneWord m) (allocated : Bool)
    (op : MapOp CString CString) : lf ∉ answer (m op.key) allocated op := by
  cases op with
  | insert k v => cases h : m k <;> cases allocated <;> simp [answer, MapOp.key, h] <;> decide
  | read k =>
      cases h : m k with
      | none => simp only [answer, MapOp.key, h]; decide
      | some value =>
          simp only [answer, MapOp.key, h]
          intro hmem
          exact ((hm k value h).2 lf hmem).2 rfl
  | update k v => cases h : m k <;> cases allocated <;> simp [answer, MapOp.key, h] <;> decide
  | delete k => cases h : m k <;> simp [answer, MapOp.key, h] <;> decide

/-- A request keeps the words of the map in order, unless it stores a line feed. Its reply is one
line. -/
theorem refServe_one_line {m : CString → Option CString} (hm : MapOneWord m) (mem : Alloc)
    {w : List UInt8}
    (hstore : ∀ op key value, (message w).bind Message.op = some op →
      op.Stores m (mem.succeeds op) key value → lf ∉ key.bytes ∧ lf ∉ value.bytes) :
    MapOneWord (refServe m mem w).1 ∧ (Served.reply (refServe m mem w).2).OneLine := by
  unfold refServe
  cases hop : (message w).bind Message.op with
  | none => exact ⟨hm, msgInvalid, rfl, by decide⟩
  | some op =>
      refine ⟨fun key value hkv => ?_, _, rfl, lf_notMem_answer hm _ op⟩
      rcases MapOp.apply_eq_some hkv with hold | hnew
      · exact hm key value hold
      · obtain ⟨hkey, hvalue⟩ := hnew.strings
        obtain ⟨hlfk, hlfv⟩ := hstore op key value hop hnew
        have hwords := message_strings hop
        exact ⟨fun c hc => ⟨(hwords key hkey c hc).1, fun heq => hlfk (heq ▸ hc)⟩,
          fun c hc => ⟨(hwords value hvalue c hc).1, fun heq => hlfv (heq ▸ hc)⟩⟩

/-! ### One call -/

namespace Rep

variable {t t' : Table} {ps : Int → List Ptr} {m : CString → Option CString} {c : ServeCall}
  {rs : List Served}

/-- The table has the words of its map. -/
theorem oneWord_iff (h : Rep t ps m) : t.OneWord ↔ MapOneWord m := by
  constructor
  · intro ht key value hkv
    obtain ⟨p, n, hn, rfl, rfl⟩ := (h.refines.content key value).mp hkv
    exact ht p n hn
  · intro hm p n hn
    exact hm n.key n.value ((h.refines.content n.key n.value).mpr ⟨p, n, hn, rfl, rfl⟩)

/-- The table has the keys of its map. -/
theorem hasKey_iff (h : Rep t ps m) (key : CString) : t.HasKey key ↔ (m key).isSome = true := by
  rw [Option.isSome_iff_exists]
  constructor
  · intro ⟨p, n, hn, hkey⟩
    exact ⟨n.value, (h.refines.content key n.value).mpr ⟨p, n, hn, hkey, rfl⟩⟩
  · intro ⟨value, hkv⟩
    obtain ⟨p, n, hn, hkey, -⟩ := (h.refines.content key value).mp hkv
    exact ⟨p, n, hn, hkey⟩

/-- `StoresLf` on the map. -/
theorem storesLf_iff (h : Rep t ps m) :
    StoresLf t c ↔ c.rlen = bufSize ∧ c.rbuf.getD (bufSize - 1) 0 = lf ∧
      ∃ op key value, (message (fullText c.rbuf)).bind Message.op = some op ∧
        op.Stores m (c.mem.succeeds op) key value ∧ (lf ∈ key.bytes ∨ lf ∈ value.bytes) := by
  have habsent : ∀ key, ¬ t.HasKey key ↔ m key = none := by
    intro key
    rw [h.hasKey_iff, Option.not_isSome_iff_eq_none]
  constructor
  · rintro ⟨hfull, hlast, key, value, hlf, ⟨hop, hkey, hmem⟩ | ⟨hop, hkey, hmem⟩⟩
    · exact ⟨hfull, hlast, _, key, value, hop, ⟨Or.inl ⟨rfl, (habsent key).mp hkey⟩, hmem⟩, hlf⟩
    · exact ⟨hfull, hlast, _, key, value, hop, ⟨Or.inr ⟨rfl, (h.hasKey_iff key).mp hkey⟩, hmem⟩,
        hlf⟩
  · rintro ⟨hfull, hlast, op, key, value, hop, ⟨⟨rfl, hkey⟩ | ⟨rfl, hkey⟩, hmem⟩, hlf⟩
    · exact ⟨hfull, hlast, key, value, hlf, Or.inl ⟨hop, (habsent key).mpr hkey, hmem⟩⟩
    · exact ⟨hfull, hlast, key, value, hlf, Or.inr ⟨hop, (h.hasKey_iff key).mpr hkey, hmem⟩⟩

/-- A call returns. The parser waits for more and nothing changes, or the request of some text is
served, and a text with a line feed comes from a full buffer. -/
theorem skvsServe_cases (h : Rep t ps m) (hfit : c.mem.Fits t) :
    ∃ t' ps' m' buf r, skvsServe t c.mem c.rbuf c.rlen = some (t', buf, r) ∧ Rep t' ps' m' ∧
      (m' = m ∧ r = .incomplete ∨
        ∃ w, m' = (refServe m c.mem w).1 ∧ r = .reply (refServe m c.mem w).2 ∧
          (lf ∉ w ∨
            c.rlen = bufSize ∧ c.rbuf.getD (bufSize - 1) 0 = lf ∧ w = fullText c.rbuf)) := by
  have hpos : c.rlen ≠ 0 := Nat.ne_of_gt c.pos
  rcases skvsParse_reads c.size c.le with hwait | ⟨w, hreads, hw⟩
  · have heq : skvsServe t c.mem c.rbuf c.rlen
        = some (t, (skvsParse c.rbuf c.rlen).buffer, .incomplete) := by
      simp only [skvsServe, if_neg hpos, hwait]
    exact ⟨t, ps, m, _, _, heq, h, Or.inl ⟨rfl, rfl⟩⟩
  · obtain ⟨t', ps', heq, hrep⟩ := h.skvsServe_of_reads hfit hpos hreads
    exact ⟨t', ps', _, _, _, heq, hrep, Or.inr ⟨w, rfl, rfl, hw⟩⟩

/-- A call with an allocator that keeps its contract is a step. -/
theorem serveStep_enabled (h : Rep t ps m) (hfit : c.mem.Fits t) :
    ∃ r, serveStep t c = some r := by
  obtain ⟨t', ps', m', buf, r, hserve, -, -⟩ := h.skvsServe_cases hfit
  have hdead : ¬ (t.nodes c.mem.node).isSome = true := by
    rw [show t.nodes c.mem.node = none from hfit]
    simp
  exact ⟨_, by rw [serveStep, if_neg hdead, hserve, Option.map_some]⟩

end Rep

/-- A step is a call with an allocator that keeps its contract. -/
theorem serveStep_eq_some {t t' : Table} {c : ServeCall} {rs : List Served}
    (hstep : serveStep t c = some (t', rs)) :
    c.mem.Fits t ∧ ∃ buf r, skvsServe t c.mem c.rbuf c.rlen = some (t', buf, r) ∧ rs = [r] := by
  unfold serveStep at hstep
  split at hstep
  · cases hstep
  · rename_i hdead
    obtain ⟨⟨t₁, buf, r⟩, hserve, heq⟩ := Option.map_eq_some_iff.mp hstep
    cases heq
    exact ⟨Option.not_isSome_iff_eq_none.mp hdead, buf, r, hserve, rfl⟩

namespace Rep

variable {t t' : Table} {ps : Int → List Ptr} {m : CString → Option CString} {c : ServeCall}
  {rs : List Served}

/-- The table stores a map after a step. When no line feed is stored its words stay in order,
and the reply is one line. -/
theorem serveStep_spec (h : Rep t ps m) (hstep : serveStep t c = some (t', rs)) :
    ∃ ps' m', Rep t' ps' m' ∧
      (t.OneWord → ¬ StoresLf t c → t'.OneWord ∧ ∀ r ∈ rs, r.OneLine) := by
  obtain ⟨hfit, buf, r, hserve, rfl⟩ := serveStep_eq_some hstep
  obtain ⟨t₁, ps', m', buf', r', heq, hrep, hres⟩ := h.skvsServe_cases hfit
  rw [heq, Option.some.injEq, Prod.mk.injEq, Prod.mk.injEq] at hserve
  obtain ⟨rfl, -, rfl⟩ := hserve
  refine ⟨ps', m', hrep, fun ht hc => ?_⟩
  rw [hrep.oneWord_iff]
  rw [h.oneWord_iff] at ht
  rcases hres with ⟨rfl, rfl⟩ | ⟨w, rfl, rfl, hw⟩
  · exact ⟨ht, by simp [Served.OneLine]⟩
  · have hline := refServe_one_line ht c.mem (w := w) fun op key value hop hs => by
      by_contra hlf
      rw [not_and_or, not_not, not_not] at hlf
      rcases hw with hlfw | ⟨hfull, hlast, rfl⟩
      · have hwords := message_strings hop
        rcases hlf with hlf | hlf
        · exact hlfw (hwords key hs.strings.1 lf hlf).2
        · exact hlfw (hwords value hs.strings.2 lf hlf).2
      · exact hc (h.storesLf_iff.mpr ⟨hfull, hlast, op, key, value, hop, hs, hlf⟩)
    exact ⟨hline.1, by simpa using hline.2⟩

/-- A call that stores a line feed leaves it in the table. -/
theorem serveStep_storesLf (h : Rep t ps m) (hc : StoresLf t c)
    (hstep : serveStep t c = some (t', rs)) : ¬ t'.OneWord := by
  obtain ⟨hfit, buf, r, hserve, rfl⟩ := serveStep_eq_some hstep
  obtain ⟨hfull, hlast, op, key, value, hop, hs, hlf⟩ := h.storesLf_iff.mp hc
  have hreads := skvsParse_full c.size hlast
  rw [← hfull] at hreads
  obtain ⟨t₁, ps', heq, hrep⟩ := h.skvsServe_of_reads hfit (Nat.ne_of_gt c.pos) hreads
  rw [heq, Option.some.injEq, Prod.mk.injEq, Prod.mk.injEq] at hserve
  obtain ⟨rfl, -, rfl⟩ := hserve
  rw [hrep.oneWord_iff]
  intro hwords
  have hstored : (refServe m c.mem (fullText c.rbuf)).1 key = some value := by
    simp only [refServe, hop, hs.apply_eq]
  obtain ⟨hkey, hvalue⟩ := hwords key value hstored
  rcases hlf with hlf | hlf
  · exact (hkey lf hlf).2 rfl
  · exact (hvalue lf hlf).2 rfl

end Rep

/-! ### Runs -/

section
variable {n : UInt64} {calls : List ServeCall} {t : Table} {replies : List Served}

/-- The table stores a map in every run. -/
theorem rep_of_serve_run (hpos : 0 < n) (hle : n ≤ 2147483647)
    (hrun : run serveStep (hashInit n) calls = some (t, replies)) : ∃ ps m, Rep t ps m :=
  run_invariant (I := fun t => ∃ ps m, Rep t ps m) ⟨_, _, Rep.init hpos hle⟩
    (fun _ _ _ _ ⟨_, _, hrep⟩ hstep =>
      let ⟨ps', m', hrep', _⟩ := hrep.serveStep_spec hstep
      ⟨ps', m', hrep'⟩) hrun

/-- A run in which no call stores a line feed keeps the words in order, and its replies are
lines. -/
theorem one_line_of_serve_run (hpos : 0 < n) (hle : n ≤ 2147483647)
    (hrun : run serveStep (hashInit n) calls = some (t, replies))
    (hcalls : ∀ k s c, StateAt serveStep (hashInit n) calls k s → calls[k]? = some c →
      ¬ StoresLf s c) :
    t.OneWord ∧ ∀ r ∈ replies, r.OneLine := by
  have hempty : (hashInit n).OneWord := by
    intro p n hn
    cases hn
  refine (run_induction_of_steps (I := fun t replies =>
    (∃ ps m, Rep t ps m) ∧ t.OneWord ∧ ∀ r ∈ replies, r.OneLine)
    ⟨⟨_, _, Rep.init hpos hle⟩, hempty, by simp⟩ ?_ calls hcalls t replies hrun).2
  intro t₁ replies₁ c t rs ⟨⟨_, _, hrep⟩, ht₁, hr₁⟩ hlast hstep
  obtain ⟨ps', m', hrep', hone⟩ := hrep.serveStep_spec hstep
  obtain ⟨ht, hr⟩ := hone ht₁ hlast
  refine ⟨⟨ps', m', hrep'⟩, ht, fun r hmem => ?_⟩
  rcases List.mem_append.mp hmem with hmem | hmem
  · exact hr₁ r hmem
  · exact hr r hmem

/-- One reply is one line, exactly as long as no call stores a line feed. In a run of calls with
any bytes from an empty table, no table on the way has a key or a value with a space or a line
feed and every reply has one line feed, at its end, if and only if none of the calls stores a
line feed in the table it finds. Every further call returns. -/
theorem skvsServe_one_line (hpos : 0 < n) (hle : n ≤ 2147483647)
    (hrun : run serveStep (hashInit n) calls = some (t, replies)) :
    (((∀ s, Visits serveStep (hashInit n) calls s → s.OneWord) ∧ ∀ r ∈ replies, r.OneLine) ↔
      ∀ k s c, StateAt serveStep (hashInit n) calls k s → calls[k]? = some c → ¬ StoresLf s c) ∧
      ∀ c : ServeCall, c.mem.Fits t → ∃ r, serveStep t c = some r := by
  refine ⟨⟨fun ⟨hwords, _⟩ k s c hs hc hstore => ?_, fun hcalls => ⟨fun s hs => ?_, ?_⟩⟩,
    fun c hfit => ?_⟩
  · -- The table after the call has the line feed.
    obtain ⟨s', hs'⟩ := stateAt_exists hrun (k + 1)
    obtain ⟨es, hstep⟩ := hs.step_eq hc hs'
    obtain ⟨h₁, hrun₁⟩ := hs
    obtain ⟨ps, m, hrep⟩ := rep_of_serve_run hpos hle hrun₁
    obtain ⟨h₂, hrun₂⟩ := hs'
    exact hrep.serveStep_storesLf hstore hstep (hwords s' ⟨_, h₂, List.take_prefix _ _, hrun₂⟩)
  · obtain ⟨as, es, hpre, hrun'⟩ := hs
    refine (one_line_of_serve_run hpos hle hrun' fun k s c hs hc => ?_).1
    -- What a prefix of the run does, the run does.
    have hk := (List.getElem?_eq_some_iff.mp hc).1
    obtain ⟨rest, rfl⟩ := hpre
    obtain ⟨es', hs⟩ := hs
    refine hcalls k s c ⟨es', ?_⟩ (by rw [List.getElem?_append_left hk, hc])
    rwa [List.take_append_of_le_length hk.le]
  · exact (one_line_of_serve_run hpos hle hrun hcalls).2
  · obtain ⟨ps, m, hrep⟩ := rep_of_serve_run hpos hle hrun
    exact hrep.serveStep_enabled hfit

end

/-! ### A value of two lines -/

/-- `CREATE k v`, a line feed and `w`, padded with spaces to a full buffer with a line feed at its
end. -/
def createTwoLines : ServeCall where
  rbuf := ascii ['C', 'R', 'E', 'A', 'T', 'E', ' ', 'k', ' ', 'v'] ++ [lf] ++ ascii ['w'] ++
    List.replicate 4083 space ++ [lf, 0]
  rlen := 4096
  mem := ⟨8, true, true⟩
  size := by decide +kernel
  pos := by decide
  le := by decide

/-- `READ k` with its line feed. -/
def readTwoLines : ServeCall where
  rbuf := ascii ['R', 'E', 'A', 'D', ' ', 'k'] ++ [lf] ++ List.replicate 4090 0
  rlen := 7
  mem := ⟨0, true, true⟩
  size := by decide +kernel
  pos := by decide
  le := by decide

/-- The full buffer stores a value with a line feed, and the reply that reads it has two lines. -/
theorem skvsServe_two_lines :
    (run serveStep (hashInit 1) [createTwoLines, readTwoLines]).map Prod.snd
        = some [.reply (msgCreateOk ++ [lf]), .reply (ascii ['v'] ++ [lf] ++ ascii ['w'] ++ [lf])] ∧
      ¬ (Served.reply (ascii ['v'] ++ [lf] ++ ascii ['w'] ++ [lf])).OneLine := by
  refine ⟨by decide +kernel, ?_⟩
  intro ⟨line, heq, hlf⟩
  rw [List.append_left_inj] at heq
  exact hlf (heq ▸ by decide)

/-- After the first of the two calls the table has a value with a line feed. -/
theorem skvsServe_one_line_createTwoLines :
    ∃ t replies, run serveStep (hashInit 1) [createTwoLines] = some (t, replies) ∧
      ¬ ((∀ s, Visits serveStep (hashInit 1) [createTwoLines] s → s.OneWord) ∧
        ∀ r ∈ replies, r.OneLine) := by
  obtain ⟨⟨t, replies⟩, hrun⟩ := Option.isSome_iff_exists.mp
    (show (run serveStep (hashInit 1) [createTwoLines]).isSome = true by decide +kernel)
  refine ⟨t, replies, hrun, fun hgood => ?_⟩
  have hcalls := (skvsServe_one_line (by decide) (by decide) hrun).1.mp hgood
  refine hcalls 0 (hashInit 1) createTwoLines ⟨[], rfl⟩ rfl ⟨rfl, by decide +kernel,
    .ofBytes (ascii ['k']), .ofBytes (ascii ['v'] ++ [lf] ++ ascii ['w']), Or.inr (by decide),
    Or.inl ⟨by decide +kernel, ?_, rfl⟩⟩
  intro ⟨p, n, hn, _⟩
  cases hn

end SysProg.Kvs
