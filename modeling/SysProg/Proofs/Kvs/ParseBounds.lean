import SysProg.Proofs.Kvs.OneLine

/-!
# `SysProg.Proofs.Kvs.ParseBounds`: the parser stays in front of a terminator

`Terminated buf e` says that the buffer has a NUL byte at the index `e`. Before it cuts the text
into tokens, `skvs_parse` writes such a byte. From then on no function reads or writes behind it:

* `Terminated.strtokR` and `Terminated.upperCase` are the two functions that write,
* `skvsParse_writes_le` bounds the indices that the parser writes to,
* `skvsParse_strings` bounds the length of the key and of the value.

`skvsParse_unwritten` says that the parser changes the buffer at these indices only.
-/

set_option autoImplicit false

namespace SysProg.Kvs

open SysProg.Lib

/-- The buffer has a NUL byte at `e`. -/
structure Terminated (buf : List UInt8) (e : Nat) : Prop where
  lt : e < buf.length
  nul : buf.getD e 0 = 0

section
variable {buf : List UInt8} {e p s : Nat}

/-- A NUL byte is written into the buffer. It is a terminator, as the index is inside of the buffer.
-/
theorem terminated_set (h : e < buf.length) : Terminated (buf.set e 0) e := by
  refine ⟨by rwa [List.length_set], ?_⟩
  rw [List.getD_eq_getElem?_getD, List.getElem?_set_self h, Option.getD_some]

/-- One more terminator leaves the one at `e`. The tokenizer writes nothing else. -/
theorem Terminated.set (h : Terminated buf e) (i : Nat) : Terminated (buf.set i 0) e := by
  by_cases hi : i = e
  · subst hi
    exact terminated_set h.lt
  · refine ⟨by rw [List.length_set]; exact h.lt, ?_⟩
    rw [List.getD_eq_getElem?_getD, List.getElem?_set_ne hi, ← List.getD_eq_getElem?_getD, h.nul]

/-- A string ends at the terminator or in front of it. So a loop over the string stays in the
buffer. -/
theorem Terminated.cstr_le (h : Terminated buf e) (hp : p ≤ e) :
    p + (cstr buf p).length ≤ e := by
  by_contra hlt
  have hadd : cstr buf (p + (e - p)) = (cstr buf p).drop (e - p) := cstr_add (by omega)
  rw [Nat.add_sub_cancel' hp, (getD_eq_zero_iff buf e).mp h.nul] at hadd
  have hlen := congrArg List.length hadd
  simp only [List.length_nil, List.length_drop] at hlen
  omega

/-- `strspn` counts characters of the string, so it is not behind its end. -/
theorem strspn_le (buf : List UInt8) (p : Nat) : strspn buf p ≤ (cstr buf p).length := by
  rw [strspn_eq]
  exact (List.takeWhile_prefix _).length_le

/-- `strcspn` counts characters of the string too, and stops at its end when no delimiter comes. -/
theorem strcspn_le (buf : List UInt8) (p : Nat) : strcspn buf p ≤ (cstr buf p).length := by
  rw [strcspn_eq]
  exact (List.takeWhile_prefix _).length_le

/-! ### The functions that write -/

/-- `strtok_r` in front of the terminator. -/
structure Terminated.Strtok (buf : List UInt8) (s e : Nat) : Prop where
  buffer : Terminated (strtokR buf s).buffer e
  save : (strtokR buf s).save ≤ e
  token : ∀ p, (strtokR buf s).token = some p → p ≤ e
  writes : ∀ i ∈ strtokRWrites buf s, i ≤ e

/-- What `strtok_r` leaves in front of a terminator. It skips delimiters and then the token, and
both stop at the terminator, where `strtok_r` writes nothing. -/
theorem Terminated.strtokR (h : Terminated buf e) (hs : s ≤ e) : Terminated.Strtok buf s e := by
  have hstart : s + strspn buf s ≤ e := by
    have := strspn_le buf s
    have := h.cstr_le hs
    omega
  have hstop : s + strspn buf s + strcspn buf (s + strspn buf s) ≤ e := by
    have := strcspn_le buf (s + strspn buf s)
    have := h.cstr_le hstart
    omega
  by_cases hend : buf.getD (s + strspn buf s) 0 = 0
  · have heq : Kvs.strtokR buf s = ⟨buf, none, s + strspn buf s⟩ := if_pos hend
    have hwrites : strtokRWrites buf s = [] := if_pos hend
    constructor
    · rw [heq]
      exact h
    · rw [heq]
      exact hstart
    · intro p hp
      rw [heq] at hp
      cases hp
    · simp [hwrites]
  · by_cases hnul : buf.getD (s + strspn buf s + strcspn buf (s + strspn buf s)) 0 = 0
    · have heq : Kvs.strtokR buf s = ⟨buf, some (s + strspn buf s),
          s + strspn buf s + strcspn buf (s + strspn buf s)⟩ :=
        (if_neg hend).trans (if_pos hnul)
      have hwrites : strtokRWrites buf s = [] := (if_neg hend).trans (if_pos hnul)
      constructor
      · rw [heq]
        exact h
      · rw [heq]
        exact hstop
      · intro p hp
        rw [heq] at hp
        cases hp
        exact hstart
      · simp [hwrites]
    · -- The separator is not the terminator.
      have hne : s + strspn buf s + strcspn buf (s + strspn buf s) ≠ e := by
        intro heq
        rw [heq] at hnul
        exact hnul h.nul
      have heq : Kvs.strtokR buf s = ⟨buf.set (s + strspn buf s + strcspn buf (s + strspn buf s)) 0,
          some (s + strspn buf s), s + strspn buf s + strcspn buf (s + strspn buf s) + 1⟩ :=
        (if_neg hend).trans (if_neg hnul)
      have hwrites : strtokRWrites buf s = [s + strspn buf s + strcspn buf (s + strspn buf s)] :=
        (if_neg hend).trans (if_neg hnul)
      constructor
      · rw [heq]
        exact h.set _
      · rw [heq]
        show _ + 1 ≤ e
        omega
      · intro p hp
        rw [heq] at hp
        cases hp
        exact hstart
      · intro i hi
        rw [hwrites, List.mem_singleton] at hi
        exact hi.trans_le hstop

/-- A conversion to upper case changes no byte behind its string, and none in front of it. It goes
from the start of the string to its NUL. -/
theorem getElem?_upperCase (buf : List UInt8) (p : Nat) {i : Nat}
    (hi : i < p ∨ p + (cstr buf p).length ≤ i) : (upperCase buf p)[i]? = buf[i]? := by
  by_cases hp : p ≤ buf.length
  · have htake : (buf.take p).length = p := List.length_take_of_le hp
    have hfront : (buf.take p ++ (cstr buf p).map toupper).length = p + (cstr buf p).length := by
      rw [List.length_append, htake, List.length_map]
    rw [upperCase]
    obtain hlt | hge := hi
    · rw [List.append_assoc, List.getElem?_append_left (by omega), List.getElem?_take_of_lt hlt]
    · rw [List.getElem?_append_right (by omega), hfront, List.getElem?_drop]
      congr 1
      omega
  · have hnil : cstr buf p = [] := by
      rw [cstr, List.drop_eq_nil_of_le (by omega), List.takeWhile_nil]
    rw [upperCase_of_nil hnil]

/-- A conversion to upper case leaves the terminator. The string that is converted ends there at the
latest. -/
theorem Terminated.upperCase (h : Terminated buf e) (hp : p ≤ e) :
    Terminated (upperCase buf p) e := by
  refine ⟨by rw [length_upperCase]; exact h.lt, ?_⟩
  rw [List.getD_eq_getElem?_getD, getElem?_upperCase buf p (.inr (h.cstr_le hp)),
    ← List.getD_eq_getElem?_getD, h.nul]

/-- A conversion to upper case writes to the characters of the string, so at most up to the
terminator. -/
theorem Terminated.upperCaseWrites_le (h : Terminated buf e) (hp : p ≤ e) :
    ∀ i ∈ upperCaseWrites buf p, i ≤ e := by
  intro i hi
  have := List.mem_range'_1.mp hi
  have := h.cstr_le hp
  omega

/-! ### The parser -/

/-- What the parser leaves, and where it wrote, in front of a terminator. -/
structure Parsed.Within (p : Parsed) (writes : List Nat) (e : Nat) : Prop where
  buffer : Terminated p.buffer e
  key : ∀ k ∈ p.key, k ≤ e
  value : ∀ v ∈ p.value, v ≤ e
  writes : ∀ i ∈ writes, i ≤ e

/-- The arguments of a command, in front of a terminator. There are up to three calls of `strtok_r`,
each from where the one before has stopped. -/
theorem Terminated.skvsParseArgs (h : Terminated buf e) (cmd : Cmd) (hs : s ≤ e) :
    (skvsParseArgs buf cmd s).Within (skvsParseArgsWrites buf cmd s) e := by
  have hk := h.strtokR hs
  have hv := hk.buffer.strtokR hk.save
  have he := hv.buffer.strtokR hv.save
  unfold Kvs.skvsParseArgs skvsParseArgsWrites
  cases hkey : (Kvs.strtokR buf s).token with
  | none =>
      simp only [hkey, List.append_nil]
      exact ⟨hk.buffer, by simp, by simp, hk.writes⟩
  | some k =>
      have hkey_le : ∀ q ∈ some k, q ≤ e := by
        intro q hq
        exact hk.token q (hkey.trans hq)
      have hvalue_le : ∀ q ∈ (Kvs.strtokR (Kvs.strtokR buf s).buffer
          (Kvs.strtokR buf s).save).token, q ≤ e := hv.token
      have hkv := List.forall_mem_append.mpr ⟨hk.writes, hv.writes⟩
      simp only [hkey]
      split
      case isTrue =>
        rw [List.append_nil]
        exact ⟨hk.buffer, hkey_le, by simp, hk.writes⟩
      case isFalse =>
        rw [← List.append_assoc]
        split
        case isTrue =>
          rw [List.append_nil]
          exact ⟨hv.buffer, hkey_le, hvalue_le, hkv⟩
        case isFalse =>
          split
          case isTrue =>
            rw [List.append_nil]
            exact ⟨hv.buffer, hkey_le, hvalue_le, hkv⟩
          case isFalse =>
            have hall := List.forall_mem_append.mpr ⟨hkv, he.writes⟩
            split
            case isTrue => exact ⟨he.buffer, hkey_le, hvalue_le, hall⟩
            case isFalse => exact ⟨he.buffer, hkey_le, hvalue_le, hall⟩

/-- A whole line, in front of a terminator: the name of the command, its conversion to upper case
and the arguments. -/
theorem Terminated.skvsParseLine (h : Terminated buf e) :
    (skvsParseLine buf).Within (skvsParseLineWrites buf) e := by
  have hc := h.strtokR (Nat.zero_le e)
  unfold Kvs.skvsParseLine skvsParseLineWrites
  cases hcmd : (Kvs.strtokR buf 0).token with
  | none =>
      simp only [hcmd, List.append_nil]
      exact ⟨hc.buffer, by simp, by simp, hc.writes⟩
  | some c =>
      have hle := hc.token c hcmd
      have hupper := hc.buffer.upperCase hle
      have hwrites := List.forall_mem_append.mpr
        ⟨hc.writes, hc.buffer.upperCaseWrites_le hle⟩
      simp only [hcmd]
      rw [← List.append_assoc]
      split
      case h_1 =>
        rw [List.append_nil]
        exact ⟨hupper, by simp, by simp, hwrites⟩
      case h_2 g _ =>
        have hargs := hupper.skvsParseArgs g.2 hc.save
        exact ⟨hargs.buffer, hargs.key, hargs.value,
          List.forall_mem_append.mpr ⟨hwrites, hargs.writes⟩⟩

end

/-- A text with a line feed has it in front of its terminator. So the line feed that `skvs_parse`
replaces is in the buffer. -/
theorem findIdx?_lt {buf : List UInt8} {e stop : Nat} (h : Terminated buf e)
    (hstop : ((cstr buf 0).findIdx? fun c => c = lf) = some stop) : stop < e := by
  obtain ⟨hlt, -⟩ := List.findIdx?_eq_some_iff_getElem.mp hstop
  have := h.cstr_le (Nat.zero_le e)
  omega

/-- The parser writes at most at the index behind the bytes it was given. That is where it puts its
terminator if the buffer is not full, and the buffer has one byte more than `BUF_SIZE`. -/
theorem skvsParse_writes_le {buf : List UInt8} {len : Nat} (hbuf : buf.length = bufSize + 1)
    (hle : len ≤ bufSize) : ∀ i ∈ skvsParseWrites buf len, i ≤ len := by
  rw [skvsParseWrites, if_neg (by omega)]
  split
  case isTrue hfull =>
    split
    case isTrue => simp
    case isFalse =>
      have hterm : Terminated (buf.set (bufSize - 1) 0) (bufSize - 1) := terminated_set (by omega)
      have hline : ∀ i ∈ skvsParseLineWrites (buf.set (bufSize - 1) 0), i ≤ len := fun i hi =>
        (hterm.skvsParseLine.writes i hi).trans (by omega)
      exact List.forall_mem_cons.mpr ⟨by omega, hline⟩
  case isFalse =>
    have hterm : Terminated (buf.set len 0) len := terminated_set (by omega)
    simp only
    split
    case h_1 => simp
    case h_2 stop hstop =>
      have hline := (hterm.set stop).skvsParseLine.writes
      exact List.forall_mem_cons.mpr
        ⟨le_rfl, List.forall_mem_cons.mpr ⟨(findIdx?_lt hterm hstop).le, hline⟩⟩

/-- The strings of a parsed request are shorter than the buffer. They start in the buffer and end at
the terminator, which stands in front of the end. -/
theorem Parsed.Within.strings {p : Parsed} {writes : List Nat} {e : Nat}
    (h : p.Within writes e) (he : e < bufSize) {op : MapOp CString CString}
    (hop : p.op = some op) : ∀ x ∈ op.strings, x.bytes.length < bufSize := by
  have hshort : ∀ q ≤ e, (CString.ofBytes (cstr p.buffer q)).bytes.length < bufSize := by
    intro q hq
    have hlen : (CString.ofBytes (cstr p.buffer q)).bytes.length ≤ (cstr p.buffer q).length :=
      (List.takeWhile_prefix _).length_le
    have := h.buffer.cstr_le hq
    omega
  obtain ⟨buffer, cmd, key, value⟩ := p
  have hkey : ∀ k, key = some k →
      (CString.ofBytes (cstr buffer k)).bytes.length < bufSize :=
    fun k hk => hshort k (h.key k hk)
  have hvalue : ∀ v, value = some v →
      (CString.ofBytes (cstr buffer v)).bytes.length < bufSize :=
    fun v hv => hshort v (h.value v hv)
  simp only [Parsed.op] at hop
  split at hop
  case h_6 => cases hop
  all_goals
    cases hop
    simp only [MapOp.strings, List.forall_mem_cons, List.not_mem_nil, false_implies,
      implies_true, and_true]
    simp only [forall_eq', Option.some.injEq] at hkey hvalue
  · exact ⟨hkey, hvalue⟩
  · exact hkey
  · exact hkey
  · exact ⟨hkey, hvalue⟩
  · exact hkey

/-- The strings of a request are shorter than the buffer, whatever its bytes are. A request is found
only when its line feed is among the bytes that came. -/
theorem skvsParse_strings {buf : List UInt8} {len : Nat} (hbuf : buf.length = bufSize + 1)
    (hle : len ≤ bufSize) {op : MapOp CString CString} (hop : (skvsParse buf len).op = some op) :
    ∀ x ∈ op.strings, x.bytes.length < bufSize := by
  rw [skvsParse, if_neg (by omega)] at hop
  split at hop
  case isTrue hfull =>
    split at hop
    case isTrue => cases hop
    case isFalse =>
      have hterm : Terminated (buf.set (bufSize - 1) 0) (bufSize - 1) := terminated_set (by omega)
      exact hterm.skvsParseLine.strings (by decide) hop
  case isFalse hne =>
    have hterm : Terminated (buf.set len 0) len := terminated_set (by omega)
    simp only at hop
    split at hop
    case h_1 => cases hop
    case h_2 stop _ => exact (hterm.set stop).skvsParseLine.strings (by omega) hop

/-! ### Nothing else is written -/

/-- `strtok_r` changes the buffer at the index of its write, and nowhere else. There is at most one
such index. -/
theorem strtokR_unwritten {buf : List UInt8} {s i : Nat} (hi : i ∉ strtokRWrites buf s) :
    (strtokR buf s).buffer[i]? = buf[i]? := by
  unfold strtokR
  unfold strtokRWrites at hi
  simp only at hi ⊢
  split
  case isTrue => rfl
  case isFalse hend =>
    rw [if_neg hend] at hi
    split
    case isTrue => rfl
    case isFalse hnul =>
      rw [if_neg hnul, List.mem_singleton] at hi
      exact List.getElem?_set_ne (Ne.symm hi)

/-- A conversion to upper case changes the buffer at the indices that it writes to, and nowhere
else. -/
theorem upperCase_unwritten {buf : List UInt8} {p i : Nat} (hi : i ∉ upperCaseWrites buf p) :
    (upperCase buf p)[i]? = buf[i]? := by
  rw [upperCaseWrites, List.mem_range'_1] at hi
  exact getElem?_upperCase buf p (by omega)

/-- The arguments of a command change the buffer where `strtok_r` writes. Without an argument there
is no write. -/
theorem skvsParseArgs_unwritten {buf : List UInt8} {cmd : Cmd} {save i : Nat}
    (hi : i ∉ skvsParseArgsWrites buf cmd save) :
    (skvsParseArgs buf cmd save).buffer[i]? = buf[i]? := by
  unfold skvsParseArgsWrites at hi
  unfold skvsParseArgs
  obtain ⟨hk, hi⟩ := not_or.mp (List.mem_append.not.mp hi)
  have hkey := strtokR_unwritten hk
  simp only at hi ⊢
  split
  case h_1 => exact hkey
  case h_2 key htoken =>
    simp only [htoken] at hi
    split
    case isTrue => exact hkey
    case isFalse hlen =>
      rw [if_neg hlen] at hi
      obtain ⟨hv, hi⟩ := not_or.mp (List.mem_append.not.mp hi)
      have hvalue := (strtokR_unwritten hv).trans hkey
      split
      case isTrue => exact hvalue
      case isFalse hsome =>
        rw [if_neg hsome] at hi
        split
        case isTrue => exact hvalue
        case isFalse hnone =>
          rw [if_neg hnone] at hi
          have hend := (strtokR_unwritten hi).trans hvalue
          split
          case isTrue => exact hend
          case isFalse => exact hend

/-- A line changes the buffer where `strtok_r` and the conversion to upper case write, and nowhere
else. -/
theorem skvsParseLine_unwritten {buf : List UInt8} {i : Nat}
    (hi : i ∉ skvsParseLineWrites buf) : (skvsParseLine buf).buffer[i]? = buf[i]? := by
  unfold skvsParseLineWrites at hi
  unfold skvsParseLine
  obtain ⟨hc, hi⟩ := not_or.mp (List.mem_append.not.mp hi)
  have hcmd := strtokR_unwritten hc
  simp only at hi ⊢
  split
  case h_1 => exact hcmd
  case h_2 cmd htoken =>
    simp only [htoken] at hi
    obtain ⟨hu, hi⟩ := not_or.mp (List.mem_append.not.mp hi)
    have hupper := (upperCase_unwritten hu).trans hcmd
    split
    case h_1 => exact hupper
    case h_2 g hg =>
      simp only [hg] at hi
      exact (skvsParseArgs_unwritten hi).trans hupper

/-- The parser changes the buffer at the indices that it writes to, and nowhere else. So the list of
its writes is complete, and a bound on the list is a bound on the parser. -/
theorem skvsParse_unwritten {buf : List UInt8} {len i : Nat}
    (hi : i ∉ skvsParseWrites buf len) : (skvsParse buf len).buffer[i]? = buf[i]? := by
  unfold skvsParseWrites at hi
  unfold skvsParse
  split
  case isTrue => rfl
  case isFalse hle =>
    rw [if_neg hle] at hi
    split
    case isTrue hfull =>
      rw [if_pos hfull] at hi
      split
      case isTrue => rfl
      case isFalse hlast =>
        rw [if_neg hlast] at hi
        obtain ⟨hset, hi⟩ := not_or.mp (List.mem_cons.not.mp hi)
        exact (skvsParseLine_unwritten hi).trans (List.getElem?_set_ne (Ne.symm hset))
    case isFalse hfull =>
      rw [if_neg hfull] at hi
      obtain ⟨hset, hi⟩ := not_or.mp (List.mem_cons.not.mp hi)
      have hlen : (buf.set len 0)[i]? = buf[i]? := List.getElem?_set_ne (Ne.symm hset)
      simp only at hi ⊢
      split
      case h_1 => exact hlen
      case h_2 stop hstop =>
        simp only [hstop] at hi
        obtain ⟨hlf, hi⟩ := not_or.mp (List.mem_cons.not.mp hi)
        exact ((skvsParseLine_unwritten hi).trans (List.getElem?_set_ne (Ne.symm hlf))).trans hlen

end SysProg.Kvs
