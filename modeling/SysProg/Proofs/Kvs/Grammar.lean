import SysProg.Proofs.Kvs.Parse

/-!
# `SysProg.Proofs.Kvs.Grammar`: `skvs_parse` accepts exactly the grammar

`Grammar` is the request grammar on the words of a text. `message_eq_some_iff` connects it to
the function `message` of the reference interpreter, and `skvsParse_grammar` is the result:
with its line feed a text is accepted as the message of the grammar and otherwise rejected,
and before its line feed it is incomplete. The length of the text decides which branch of the
parser looks for the line feed, and the statement is the same for both.
-/

set_option autoImplicit false

namespace SysProg.Kvs

open SysProg.Lib

/-- The grammar of the requests, by the words of a text. -/
inductive Grammar : List (List UInt8) → Message → Prop
  | key {x key : List UInt8} {cmd : Cmd}
      (hcmd : (x.map toupper, cmd) ∈ [(ascii ['R', 'E', 'A', 'D'], Cmd.read),
        (ascii ['Q', 'R', 'E', 'A', 'D'], Cmd.qread),
        (ascii ['D', 'E', 'L', 'E', 'T', 'E'], Cmd.delete)])
      (hkey : key.length ≤ maxKeyLen) : Grammar [x, key] ⟨cmd, key, none⟩
  | keyValue {x key value : List UInt8} {cmd : Cmd}
      (hcmd : (x.map toupper, cmd) ∈ [(ascii ['C', 'R', 'E', 'A', 'T', 'E'], Cmd.create),
        (ascii ['U', 'P', 'D', 'A', 'T', 'E'], Cmd.update)])
      (hkey : key.length ≤ maxKeyLen) : Grammar [x, key, value] ⟨cmd, key, some value⟩

/-- The parser has returned the command of the message, with pointers to its key and its
value. -/
structure Parsed.Accepts (p : Parsed) (r : Message) : Prop where
  recognized : r.cmd ≠ .invalid ∧ r.cmd ≠ .incomplete
  cmd : p.cmd = r.cmd
  key : p.key.map (cstr p.buffer) = some r.key
  value : p.value.map (cstr p.buffer) = r.value

/-- The three commands with a key only, as a table. -/
theorem keyCommand_eq_some_iff {x : List UInt8} {cmd : Cmd} :
    keyCommand x = some cmd ↔ (x, cmd) ∈ [(ascii ['R', 'E', 'A', 'D'], Cmd.read),
      (ascii ['Q', 'R', 'E', 'A', 'D'], Cmd.qread),
      (ascii ['D', 'E', 'L', 'E', 'T', 'E'], Cmd.delete)] := by
  simp only [List.mem_cons, Prod.mk.injEq, List.not_mem_nil, or_false]
  constructor
  · intro h
    unfold keyCommand at h
    split at h
    · exact Or.inl ⟨‹_›, (Option.some.inj h).symm⟩
    · split at h
      · exact Or.inr (Or.inl ⟨‹_›, (Option.some.inj h).symm⟩)
      · split at h
        · exact Or.inr (Or.inr ⟨‹_›, (Option.some.inj h).symm⟩)
        · cases h
  · rintro (⟨rfl, rfl⟩ | ⟨rfl, rfl⟩ | ⟨rfl, rfl⟩) <;> rfl

/-- The two commands with a value, as a table. -/
theorem valueCommand_eq_some_iff {x : List UInt8} {cmd : Cmd} :
    valueCommand x = some cmd ↔ (x, cmd) ∈ [(ascii ['C', 'R', 'E', 'A', 'T', 'E'], Cmd.create),
      (ascii ['U', 'P', 'D', 'A', 'T', 'E'], Cmd.update)] := by
  simp only [List.mem_cons, Prod.mk.injEq, List.not_mem_nil, or_false]
  constructor
  · intro h
    unfold valueCommand at h
    split at h
    · exact Or.inl ⟨‹_›, (Option.some.inj h).symm⟩
    · split at h
      · exact Or.inr ⟨‹_›, (Option.some.inj h).symm⟩
      · cases h
  · rintro (⟨rfl, rfl⟩ | ⟨rfl, rfl⟩) <;> rfl

/-- The function `message` computes the grammar. It cuts the text into words, looks the first one up
and counts the others. -/
theorem message_eq_some_iff {w : List UInt8} {r : Message} :
    message w = some r ↔ Grammar (tokens isSpace w) r := by
  unfold message
  constructor
  · intro h
    split at h
    · split at h
      · rename_i hts hkey
        obtain ⟨cmd, hcmd, rfl⟩ := Option.map_eq_some_iff.mp h
        rw [hts]
        exact .key (keyCommand_eq_some_iff.mp hcmd) hkey
      · cases h
    · split at h
      · rename_i hts hkey
        obtain ⟨cmd, hcmd, rfl⟩ := Option.map_eq_some_iff.mp h
        rw [hts]
        exact .keyValue (valueCommand_eq_some_iff.mp hcmd) hkey
      · cases h
    · cases h
  · intro h
    generalize tokens isSpace w = ts at h
    cases h with
    | key hcmd hkey => simp only [if_pos hkey, keyCommand_eq_some_iff.mpr hcmd, Option.map_some]
    | keyValue hcmd hkey =>
        simp only [if_pos hkey, valueCommand_eq_some_iff.mpr hcmd, Option.map_some]

/-- A message of the grammar has one of the five commands. -/
theorem Grammar.recognized {ts : List (List UInt8)} {r : Message} (h : Grammar ts r) :
    r.cmd ≠ .invalid ∧ r.cmd ≠ .incomplete := by
  cases h with
  | key hcmd _ =>
      simp only [List.mem_cons, Prod.mk.injEq, List.not_mem_nil, or_false] at hcmd
      rcases hcmd with ⟨_, rfl⟩ | ⟨_, rfl⟩ | ⟨_, rfl⟩ <;> simp
  | keyValue hcmd _ =>
      simp only [List.mem_cons, Prod.mk.injEq, List.not_mem_nil, or_false] at hcmd
      rcases hcmd with ⟨_, rfl⟩ | ⟨_, rfl⟩ <;> simp

/-- A parser that reads the message of a text accepts exactly that message. If the text is no
message, it accepts none. -/
theorem Parsed.Reads.accepts_iff {p : Parsed} {w : List UInt8} (h : p.Reads (message w))
    {r : Message} : p.Accepts r ↔ message w = some r := by
  constructor
  · intro hr
    cases hw : message w with
    | none =>
        rw [hw] at h
        have hinvalid : p.cmd = .invalid := h
        exact absurd (hr.cmd.symm.trans hinvalid) hr.recognized.1
    | some q =>
        rw [hw] at h
        obtain ⟨hcmd, ⟨key, hkey, hstr⟩, hvalue⟩ := h
        have hkeys : some q.key = some r.key := by
          rw [← hr.key, hkey, Option.map_some, hstr]
        have hvalues : q.value = r.value := hvalue.symm.trans hr.value
        have hcmds : q.cmd = r.cmd := hcmd.symm.trans hr.cmd
        cases q
        cases r
        simp only [Option.some.injEq] at hkeys
        simp only at hcmds hvalues
        rw [hcmds, hkeys, hvalues]
  · intro hw
    rw [hw] at h
    obtain ⟨hcmd, ⟨key, hkey, hstr⟩, hvalue⟩ := h
    refine ⟨(message_eq_some_iff.mp hw).recognized, hcmd, ?_, hvalue⟩
    rw [hkey, Option.map_some, hstr]

/-- `skvs_parse` accepts exactly the request grammar. Let `w` be a text without NUL and line
feed that fits into a message with its line feed. When the buffer starts with this message,
the parser accepts the message of the grammar for the words of `w`, and answers `CMD_INVALID`
when there is none. When the buffer starts with a proper prefix of the message, the parser
answers `CMD_INCOMPLETE` and keeps these bytes. -/
theorem skvsParse_grammar {w buf : List UInt8} (h0 : 0 ∉ w) (hlf : lf ∉ w)
    (hlen : w.length + 1 ≤ bufSize) (hbuf : buf.length = bufSize + 1) :
    (w ++ [lf] <+: buf →
      (∀ r, (skvsParse buf (w.length + 1)).Accepts r ↔ Grammar (tokens isSpace w) r) ∧
        ((∀ r, ¬ Grammar (tokens isSpace w) r) →
          (skvsParse buf (w.length + 1)).cmd = .invalid)) ∧
      ∀ m, m <+: w ++ [lf] → m ≠ w ++ [lf] → m <+: buf →
        (skvsParse buf m.length).cmd = .incomplete ∧
          m <+: (skvsParse buf m.length).buffer := by
  refine ⟨fun hw => ⟨fun r => ?_, fun hnone => ?_⟩, fun m hm hne hbuf' => ?_⟩
  · rw [(skvsParse_complete h0 hlf hw hbuf hlen).accepts_iff, message_eq_some_iff]
  · have hreads := skvsParse_complete h0 hlf hw hbuf hlen
    have hmsg : message w = none := by
      cases hmsg : message w with
      | none => rfl
      | some r => exact absurd (message_eq_some_iff.mp hmsg) (hnone r)
    rw [hmsg] at hreads
    exact hreads
  · -- A proper prefix of the message is a prefix of the text.
    have hmw : m <+: w := (List.prefix_concat_iff.mp hm).resolve_left hne
    have hmlen := hmw.length_le
    rw [skvsParse_incomplete (fun hmem => h0 (hmw.subset hmem)) (fun hmem => hlf (hmw.subset hmem))
      hbuf' hbuf (by omega)]
    exact ⟨rfl, prefix_set_length hbuf' 0⟩

/-- `Create k v`, padded with spaces up to the largest text. -/
def createPadded : List UInt8 :=
  ascii ['C', 'r', 'e', 'a', 't', 'e', ' ', 'k', ' ', 'v'] ++ List.replicate 4085 space

/-- A message of 4096 bytes takes the branch for a full buffer and is accepted. Its first five
bytes are incomplete. -/
theorem skvsParse_grammar_full :
    createPadded.length + 1 = bufSize ∧
      (skvsParse (createPadded ++ [lf, 7]) 4096).Accepts
        ⟨.create, ascii ['k'], some (ascii ['v'])⟩ ∧
      (skvsParse (createPadded ++ [lf, 7]) 5).cmd = .incomplete := by
  have hfull : createPadded.length + 1 = bufSize := by decide +kernel
  have hbuf : createPadded ++ [lf] <+: createPadded ++ [lf, 7] := ⟨[7], by simp⟩
  have hlen : (createPadded ++ [lf, 7]).length = bufSize + 1 := by decide +kernel
  have hnul : 0 ∉ createPadded := by decide +kernel
  have h := skvsParse_grammar hnul (by decide +kernel) (Nat.le_of_eq hfull) hlen
  have haccepts := ((h.1 hbuf).1 _).mpr (message_eq_some_iff.mp
    (show message createPadded = some ⟨.create, ascii ['k'], some (ascii ['v'])⟩ by
      decide +kernel))
  rw [hfull] at haccepts
  exact ⟨hfull, haccepts, (h.2 (ascii ['C', 'r', 'e', 'a', 't']) ⟨_, rfl⟩ (by decide +kernel)
    ⟨_, rfl⟩).1⟩

end SysProg.Kvs
