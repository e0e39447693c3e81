import SysProg.Proofs.Kvs.Strtok

/-!
# `SysProg.Proofs.Kvs.Parse`: `skvs_parse` follows the grammar

`Parsed.Reads` compares what `skvs_parse` leaves with a message of the grammar.

* `skvsParseLine_reads`: on a line the parser reads the message of the text, or rejects it.
* `skvsParse_complete`: so it does on a text with its line feed, for both branches of the
  length check.
* `skvsParse_incomplete`: before the line feed it answers `incomplete` and keeps the bytes.
-/

set_option autoImplicit false

namespace SysProg.Kvs

open SysProg.Lib

/-- The parser has read the message `r`, or has rejected the line when there is none. -/
def Parsed.Reads (p : Parsed) : Option Message → Prop
  | none => p.cmd = .invalid
  | some r =>
      p.cmd = r.cmd ∧ (∃ key, p.key = some key ∧ cstr p.buffer key = r.key) ∧
        p.value.map (cstr p.buffer) = r.value

/-! ### The grammar, command first -/

/-- The command a word stands for. -/
def command (x : List UInt8) : Option Cmd := (gCmds.find? fun g => g.1 = x).map Prod.snd

/-- The grammar behind a recognized command. -/
def messageArgs (cmd : Cmd) : List (List UInt8) → Option Message
  | [key] =>
      if key.length ≤ maxKeyLen ∧ cmd.takesValue = false then some ⟨cmd, key, none⟩ else none
  | [key, value] =>
      if key.length ≤ maxKeyLen ∧ cmd.takesValue = true then some ⟨cmd, key, some value⟩
      else none
  | _ => none

/-- A word that is no command, or one of the five. In the first case the parser and the grammar both
reject it. -/
theorem command_cases (x : List UInt8) :
    (command x = none ∧ keyCommand x = none ∧ valueCommand x = none) ∨
      x ∈ gCmds.map Prod.fst := by
  by_cases hx : x ∈ gCmds.map Prod.fst
  · exact Or.inr hx
  · have hne : ∀ g ∈ gCmds, ¬ decide (g.1 = x) = true := by
      intro g hg heq
      exact hx (List.mem_map.mpr ⟨g, hg, by simpa using heq⟩)
    have hnone : command x = none := by
      rw [command, List.find?_eq_none.mpr hne, Option.map_none]
    simp only [gCmds, List.map_cons, List.map_nil, List.mem_cons, not_or] at hx
    exact Or.inl ⟨hnone, by simp [keyCommand, hx], by simp [valueCommand, hx]⟩

/-- The commands with a key only are those of the table that take no value. -/
theorem keyCommand_eq (x : List UInt8) :
    keyCommand x = (command x).filter fun cmd => !cmd.takesValue := by
  rcases command_cases x with ⟨h, hk, _⟩ | h
  · rw [h, hk, Option.filter_none]
  · revert x
    decide

/-- The commands with a value are the others of the table. -/
theorem valueCommand_eq (x : List UInt8) :
    valueCommand x = (command x).filter Cmd.takesValue := by
  rcases command_cases x with ⟨h, _, hv⟩ | h
  · rw [h, hv, Option.filter_none]
  · revert x
    decide

/-- The first word decides first, as in the code. What is behind it is read as the arguments of its
command. -/
theorem message_eq {w x : List UInt8} {ts : List (List UInt8)} (h : tokens isSpace w = x :: ts) :
    message w = (command (x.map toupper)).bind fun cmd => messageArgs cmd ts := by
  unfold message
  rw [h]
  cases ts with
  | nil => cases command (x.map toupper) <;> rfl
  | cons key ts =>
      cases ts with
      | nil =>
          show (if key.length ≤ maxKeyLen then (keyCommand _).map _ else none) = _
          rw [keyCommand_eq]
          cases command (x.map toupper) with
          | none => simp
          | some cmd =>
              by_cases hkey : key.length ≤ maxKeyLen <;> cases hv : cmd.takesValue <;>
                simp [messageArgs, hkey, hv, Option.filter]
      | cons value ts =>
          cases ts with
          | nil =>
              show (if key.length ≤ maxKeyLen then (valueCommand _).map _ else none) = _
              rw [valueCommand_eq]
              cases command (x.map toupper) with
              | none => simp
              | some cmd =>
                  by_cases hkey : key.length ≤ maxKeyLen <;> cases hv : cmd.takesValue <;>
                    simp [messageArgs, hkey, hv, Option.filter]
          | cons extra ts => cases command (x.map toupper) <;> rfl

/-- A text without a word is no message. It is empty, or it has white space only. -/
theorem message_eq_none {w : List UInt8} (h : tokens isSpace w = []) : message w = none := by
  unfold message
  rw [h]

/-! ### The arguments -/

/-- A key that is too long makes no message, with or without a value. -/
theorem messageArgs_long {key : List UInt8} (hlong : maxKeyLen < key.length) (cmd : Cmd)
    (ts : List (List UInt8)) : messageArgs cmd (key :: ts) = none := by
  have hkey : ¬ key.length ≤ maxKeyLen := by omega
  cases ts with
  | nil => simp [messageArgs, hkey]
  | cons value ts =>
      cases ts with
      | nil => simp [messageArgs, hkey]
      | cons extra ts => rfl

/-- Behind the command the parser reads the arguments of the grammar. Each call of `strtok_r` gives
the next word, and a word too many or too few makes the line invalid. -/
theorem skvsParseArgs_reads (buf : List UInt8) (cmd : Cmd) (save : Nat) :
    (skvsParseArgs buf cmd save).Reads
      (messageArgs cmd (tokens isSpace (cstr buf save))) := by
  -- The code asks for the key, for the value and for one word more, in this order.
  cases hts : tokens isSpace (cstr buf save) with
  | nil =>
      obtain ⟨_, htok, _⟩ := strtokR_nil hts
      simp only [skvsParseArgs, htok]
      rfl
  | cons key ts =>
      obtain ⟨k, htok, _, hkey, hend, hrest⟩ := strtokR_cons hts
      by_cases hlong : maxKeyLen < key.length
      · simp only [skvsParseArgs, htok, hkey, if_pos hlong, messageArgs_long hlong]
        rfl
      · have hshort : key.length ≤ maxKeyLen := by omega
        cases ts with
        | nil =>
            -- There is no third word, and the call after it does not find one either.
            obtain ⟨hvbuf, hvtok, hvrest⟩ := strtokR_nil hrest
            obtain ⟨hebuf, hetok, _⟩ := strtokR_nil hvrest
            cases hv : cmd.takesValue with
            | false =>
                have heq : skvsParseArgs buf cmd save
                    = ⟨(strtokR buf save).buffer, cmd, some k, none⟩ := by
                  simp [skvsParseArgs, htok, hkey, hlong, hvtok, hetok, hv, hebuf, hvbuf]
                rw [heq, messageArgs, if_pos ⟨hshort, hv⟩]
                exact ⟨rfl, ⟨k, rfl, hkey⟩, rfl⟩
            | true => simp [skvsParseArgs, htok, hkey, hlong, hvtok, hv, messageArgs, Parsed.Reads]
        | cons value ts =>
            obtain ⟨v, hvtok, _, hvalue, hvend, hvrest⟩ := strtokR_cons hrest
            -- The search for the value leaves the key in the buffer as it is.
            have hkey' : cstr (strtokR (strtokR buf save).buffer (strtokR buf save).save).buffer k
                = key := by
              rw [cstr_strtokR (by rw [hkey]; exact hend), hkey]
            cases hv : cmd.takesValue with
            | false =>
                have hnone : messageArgs cmd (key :: value :: ts) = none := by
                  cases ts <;> simp [messageArgs, hv]
                rw [hnone]
                simp [skvsParseArgs, htok, hkey, hlong, hvtok, hv, Parsed.Reads]
            | true =>
                cases ts with
                | nil =>
                    obtain ⟨hebuf, hetok, _⟩ := strtokR_nil hvrest
                    have heq : skvsParseArgs buf cmd save
                        = ⟨(strtokR (strtokR buf save).buffer (strtokR buf save).save).buffer, cmd,
                          some k, some v⟩ := by
                      simp [skvsParseArgs, htok, hkey, hlong, hvtok, hetok, hv, hebuf]
                    rw [heq, messageArgs, if_pos ⟨hshort, hv⟩]
                    exact ⟨rfl, ⟨k, rfl, hkey'⟩, congrArg some hvalue⟩
                | cons extra ts =>
                    obtain ⟨e, hetok, _⟩ := strtokR_cons hvrest
                    simp [skvsParseArgs, htok, hkey, hlong, hvtok, hetok, hv, messageArgs,
                      Parsed.Reads]

/-! ### The line -/

/-- On a line the parser reads the message of the text, or rejects it. The name of the command is
compared behind a conversion to upper case, as in the grammar. -/
theorem skvsParseLine_reads (buf : List UInt8) :
    (skvsParseLine buf).Reads (message (cstr buf 0)) := by
  cases hts : tokens isSpace (cstr buf 0) with
  | nil =>
      obtain ⟨_, htok, _⟩ := strtokR_nil hts
      rw [message_eq_none hts]
      simp only [skvsParseLine, htok]
      rfl
  | cons x ts =>
      obtain ⟨c, htok, _, hword, hend, hrest⟩ := strtokR_cons hts
      -- The command is converted in place, and the arguments behind it are not.
      have hupper := cstr_upperCase (strtokR buf 0).buffer c
      rw [hword] at hupper
      have hargs := cstr_upperCase_ge (show c + (cstr (strtokR buf 0).buffer c).length
        ≤ (strtokR buf 0).save by rw [hword]; exact hend)
      rw [message_eq hts]
      simp only [skvsParseLine, htok, hupper]
      unfold command
      cases hfind : gCmds.find? fun g => g.1 = x.map toupper with
      | none => rfl
      | some g =>
          have hreads := skvsParseArgs_reads (upperCase (strtokR buf 0).buffer c) g.2
            (strtokR buf 0).save
          rw [hargs, hrest] at hreads
          exact hreads

/-! ### The whole buffer -/

/-- A terminator behind a text makes it a string. The text has no NUL of its own. -/
theorem cstr_set_length {buf w : List UInt8} (h0 : 0 ∉ w) (hw : w <+: buf)
    (hlen : w.length < buf.length) : cstr (buf.set w.length 0) 0 = w := by
  obtain ⟨rest, rfl⟩ := hw
  cases rest with
  | nil => simp at hlen
  | cons c rest =>
      have hne : ∀ c ∈ w, decide (c ≠ 0) = true := by
        intro c hc
        simpa using fun hzero : c = 0 => h0 (hzero ▸ hc)
      show ((w ++ c :: rest).set w.length 0).takeWhile (fun c => decide (c ≠ 0)) = w
      rw [List.set_append_right _ _ (Nat.le_refl _), Nat.sub_self, List.set_cons_zero,
        List.takeWhile_append_of_pos hne, List.takeWhile_cons_of_neg (by simp),
        List.append_nil]

/-- A terminator behind a text keeps the text. -/
theorem prefix_set_length {buf w : List UInt8} (hw : w <+: buf) (c : UInt8) :
    w <+: buf.set w.length c := by
  obtain ⟨rest, rfl⟩ := hw
  rw [List.set_append_right _ _ (Nat.le_refl _)]
  exact List.prefix_append _ _

/-- The first line feed of a text that has none before its end is the one at its end. -/
theorem findIdx?_lf {w : List UInt8} (hlf : lf ∉ w) :
    ((w ++ [lf]).findIdx? fun c => c = lf) = some w.length := by
  have hne : ∀ c ∈ w, ¬ c = lf := fun c hc hlf' => hlf (hlf' ▸ hc)
  have hnone : (w.findIdx? fun c => c = lf) = none := by
    rw [List.findIdx?_eq_none_iff]
    simpa using hne
  rw [List.findIdx?_append, hnone]
  simp

/-- Before its line feed a text is incomplete, and the bytes stay in the buffer. Only the terminator
behind them is written. -/
theorem skvsParse_incomplete {buf w : List UInt8} (h0 : 0 ∉ w) (hlf : lf ∉ w) (hw : w <+: buf)
    (hbuf : buf.length = bufSize + 1) (hlen : w.length < bufSize) :
    skvsParse buf w.length = ⟨buf.set w.length 0, .incomplete, none, none⟩ := by
  have hstr := cstr_set_length h0 hw (by omega)
  have hnone : (w.findIdx? fun c => c = lf) = none := by
    rw [List.findIdx?_eq_none_iff]
    simpa using fun c hc (hlf' : c = lf) => hlf (hlf' ▸ hc)
  -- Neither the buffer is full nor is there a line feed in it.
  simp only [skvsParse, hstr, hnone]
  rw [if_neg (by omega), if_neg (by omega)]

/-- With its line feed a text is read as the grammar has it. It may fill the buffer, and then the
line feed is the last byte. -/
theorem skvsParse_complete {buf w : List UInt8} (h0 : 0 ∉ w) (hlf : lf ∉ w)
    (hw : w ++ [lf] <+: buf) (hbuf : buf.length = bufSize + 1) (hlen : w.length + 1 ≤ bufSize) :
    (skvsParse buf (w.length + 1)).Reads (message w) := by
  have hw' : w <+: buf := (List.prefix_append w [lf]).trans hw
  unfold skvsParse
  rw [if_neg (by omega)]
  by_cases hfull : w.length + 1 = bufSize
  · -- The message fills the buffer, and its last byte is looked at.
    have hidx : bufSize - 1 = w.length := by omega
    have hlast : buf.getD w.length 0 = lf := by
      obtain ⟨rest, rfl⟩ := hw
      simp
    rw [if_pos hfull, hidx, if_neg (by simpa using hlast)]
    have hreads := skvsParseLine_reads (buf.set w.length 0)
    rwa [cstr_set_length h0 hw' (by omega)] at hreads
  -- Otherwise the parser looks for the first line feed, and puts a terminator there.
  · have h0' : 0 ∉ w ++ [lf] := by
      intro hmem
      rcases List.mem_append.mp hmem with hmem | hmem
      · exact h0 hmem
      · exact absurd (List.mem_singleton.mp hmem) (by decide)
    have hlen' : (w ++ [lf]).length = w.length + 1 := by simp
    have hstr := cstr_set_length h0' hw (by rw [hlen']; omega)
    have hkeep := prefix_set_length hw 0
    rw [hlen'] at hstr hkeep
    rw [if_neg hfull]
    simp only [hstr, findIdx?_lf hlf]
    have hreads := skvsParseLine_reads ((buf.set (w.length + 1) 0).set w.length 0)
    rwa [cstr_set_length h0 ((List.prefix_append w [lf]).trans hkeep)
      (by rw [List.length_set]; omega)] at hreads

/-! ### The size of the buffer -/

/-- `strtok_r` keeps the length of the buffer. -/
theorem length_strtokR (buf : List UInt8) (s : Nat) :
    (strtokR buf s).buffer.length = buf.length := by
  unfold strtokR
  simp only
  split
  · rfl
  · split
    · rfl
    · exact List.length_set

/-- A conversion to upper case keeps the length of the buffer. -/
theorem length_upperCase (buf : List UInt8) (p : Nat) :
    (upperCase buf p).length = buf.length := by
  have hle : (cstr buf p).length ≤ buf.length - p := by
    rw [← List.length_drop]
    exact (List.takeWhile_prefix _).length_le
  simp only [upperCase, List.length_append, List.length_take, List.length_map, List.length_drop]
  omega

/-- The arguments of a command keep the length of the buffer, as `strtok_r` does. -/
theorem length_skvsParseArgs (buf : List UInt8) (cmd : Cmd) (save : Nat) :
    (skvsParseArgs buf cmd save).buffer.length = buf.length := by
  unfold skvsParseArgs
  simp only
  repeat' split
  all_goals simp only [length_strtokR]

/-- A line keeps the length of the buffer. -/
theorem length_skvsParseLine (buf : List UInt8) :
    (skvsParseLine buf).buffer.length = buf.length := by
  unfold skvsParseLine
  simp only
  split
  · exact length_strtokR buf 0
  · split
    · rw [length_upperCase, length_strtokR]
    · rw [length_skvsParseArgs, length_upperCase, length_strtokR]

/-- The parser writes inside the buffer, so the buffer keeps its length. -/
theorem length_skvsParse (buf : List UInt8) (len : Nat) :
    (skvsParse buf len).buffer.length = buf.length := by
  unfold skvsParse
  simp only
  repeat' split
  all_goals simp only [length_skvsParseLine, List.length_set]

end SysProg.Kvs
