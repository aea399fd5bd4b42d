import EbnAnchor.Stack.H4
import EbnAnchor.Stack.HciCmds
import Mathlib.Data.List.Forall2
import Mathlib.Data.Nat.Digits.Defs
import Mathlib.Tactic.IntervalCases

/-!
`hci_create_cmd_internal`: a command from its template and its arguments.

`FieldKind.bytes` is what a field writes, and `splitPayload` takes a payload apart by the
format again. `encodeFields_writes` says that the loop writes the fields one after the other,
`splitPayload_payload` that taking them apart recovers the arguments, and
`hciCreateCmdInternal_writes` what the buffer holds in the end.
-/

namespace EbnAnchor.Stack

/-! ### Arguments -/

/-- An argument of the `va_list`. A pointer is the memory behind it, apart from the buffer. -/
inductive Arg where
  | int (value : Word)
  | ptr (bytes : Packet)

/-- The kinds of fields of a format. -/
inductive FieldKind where
  /-- `1` -/
  | byte
  /-- `2` -/
  | word
  /-- `H` -/
  | handle
  /-- `3` -/
  | three
  /-- `4` -/
  | four
  /-- `B` -/
  | bdAddr
  /-- `D` -/
  | dataBlock
  /-- `E` -/
  | inquiryResult
  /-- `N` -/
  | name
  /-- `P` -/
  | pinCode
  /-- `I` -/
  | irk
  /-- `C` -/
  | csrk
  /-- `A` -/
  | advertisingData
  deriving DecidableEq

/-- The `case` of a format character; `HAVE_SDP` is not defined, and other characters are
passed over. -/
def fieldKind : Char → Option FieldKind
  | '1' => some .byte
  | '2' => some .word
  | 'H' => some .handle
  | '3' => some .three
  | '4' => some .four
  | 'B' => some .bdAddr
  | 'D' => some .dataBlock
  | 'E' => some .inquiryResult
  | 'N' => some .name
  | 'P' => some .pinCode
  | 'I' => some .irk
  | 'C' => some .csrk
  | 'A' => some .advertisingData
  | _ => none

/-- `strlen`, for strings whose length is a `uint16_t`: from index `i` on. -/
def strlenFrom (ptr : Packet) : Nat → Nat → Option Nat
  | 0, _ => none
  | fuel + 1, i => if ptr i = 0 then some i else strlenFrom ptr fuel (i + 1)

def strlen (ptr : Packet) : Option Nat := strlenFrom ptr 65536 0

/-! ### The buffer -/

/-- `hci_cmd_buffer`, and `pos` in it. -/
structure CmdBuffer where
  bytes : Packet
  pos : Nat

/-- `hci_cmd_buffer[pos++] = b`. -/
def CmdBuffer.put (b : Byte) (s : CmdBuffer) : CmdBuffer :=
  ⟨Function.update s.bytes s.pos b, s.pos + 1⟩

/-- `memcpy(&buffer[pos], ptr, n)`. -/
def memcpyBytes (buffer : Packet) (pos : Nat) (ptr : Packet) (n : Nat) : Packet := fun i =>
  if pos ≤ i ∧ i < pos + n then ptr (i - pos) else buffer i

/-- `memcpy(&hci_cmd_buffer[pos], ptr, n); pos += n`. -/
def CmdBuffer.copy (ptr : Packet) (n : Nat) (s : CmdBuffer) : CmdBuffer :=
  ⟨memcpyBytes s.bytes s.pos ptr n, s.pos + n⟩

/-- The `case` of `N`. -/
def CmdBuffer.putName (ptr : Packet) (len : Nat) (s : CmdBuffer) : CmdBuffer :=
  let len := if len > 248 then 248 else len
  let bytes := memcpyBytes s.bytes s.pos ptr len
  let bytes := if len < 248 then memcpyBytes bytes (s.pos + len) (fun _ => 0) (248 - len) else bytes
  ⟨bytes, s.pos + 248⟩

/-- One round of the loop; nothing where an argument is not of the type read. -/
def encodeField (kind : FieldKind) (arg : Arg) (s : CmdBuffer) : Option CmdBuffer :=
  match kind, arg with
  | .byte, .int value =>
    let word : BitVec 16 := value.setWidth 16
    some (s.put ((word &&& 0xff).setWidth 8))
  | .word, .int value =>
    let word : BitVec 16 := value.setWidth 16
    some ((s.put ((word &&& 0xff).setWidth 8)).put ((word >>> 8).setWidth 8))
  | .handle, .int value =>
    let word : BitVec 16 := value.setWidth 16
    some ((s.put ((word &&& 0xff).setWidth 8)).put ((word >>> 8).setWidth 8))
  | .three, .int longword =>
    some (((s.put (longword.setWidth 8)).put ((longword >>> 8).setWidth 8)).put
      ((longword >>> 16).setWidth 8))
  | .four, .int longword =>
    some ((((s.put (longword.setWidth 8)).put ((longword >>> 8).setWidth 8)).put
      ((longword >>> 16).setWidth 8)).put ((longword >>> 24).setWidth 8))
  | .bdAddr, .ptr ptr =>
    some ((((((s.put (ptr 5)).put (ptr 4)).put (ptr 3)).put (ptr 2)).put (ptr 1)).put (ptr 0))
  | .dataBlock, .ptr ptr => some (s.copy ptr 8)
  | .inquiryResult, .ptr ptr => some (s.copy ptr 240)
  | .name, .ptr ptr => (strlen ptr).map fun len => s.putName ptr len
  | .pinCode, .ptr ptr => some (s.copy ptr 16)
  | .irk, .ptr ptr => some (s.copy ptr 16)
  | .csrk, .ptr ptr => some (s.copy ptr 16)
  | .advertisingData, .ptr ptr => some (s.copy ptr 31)
  | _, _ => none

/-- The loop over the format; nothing where the arguments run out. -/
def encodeFields : List Char → List Arg → CmdBuffer → Option CmdBuffer
  | [], _, s => some s
  | c :: format, args, s =>
    match fieldKind c, args with
    | none, args => encodeFields format args s
    | some _, [] => none
    | some kind, arg :: args => (encodeField kind arg s).bind (encodeFields format args)

/-- `hci_cmd_t`, `gap_cmd_t`. -/
structure HciCmd where
  opcode : BitVec 16
  format : List Char

/-- `hci_create_cmd_internal`: the size returned, and the buffer. -/
def hciCreateCmdInternal (buffer : Packet) (cmd : HciCmd) (args : List Arg) :
    Option (BitVec 16 × Packet) :=
  let bytes := Function.update buffer 0 ((cmd.opcode &&& 0xff).setWidth 8)
  let bytes := Function.update bytes 1 ((cmd.opcode >>> 8).setWidth 8)
  (encodeFields cmd.format args ⟨bytes, 3⟩).map fun s =>
    (BitVec.ofNat 16 s.pos, Function.update s.bytes 2 (BitVec.ofNat 8 (s.pos - 3)))

/-! ### Taking a payload apart -/

/-- A field of a payload, or the argument it is for. -/
inductive Field where
  | int (value : Nat)
  | bytes (data : List Byte)
  deriving DecidableEq

def FieldKind.width : FieldKind → Nat
  | byte => 1
  | word => 2
  | handle => 2
  | three => 3
  | four => 4
  | bdAddr => 6
  | dataBlock => 8
  | inquiryResult => 240
  | name => 248
  | pinCode => 16
  | irk => 16
  | csrk => 16
  | advertisingData => 31

/-- The number some bytes spell, low byte first. -/
def littleEndian (bytes : List Byte) : Nat := Nat.ofDigits 256 (bytes.map BitVec.toNat)

def FieldKind.isInt : FieldKind → Bool
  | byte => true
  | word => true
  | handle => true
  | three => true
  | four => true
  | _ => false

/-- What a field says. -/
def FieldKind.decode (kind : FieldKind) (data : List Byte) : Field :=
  if kind.isInt then .int (littleEndian data)
  else match kind with
    | bdAddr => .bytes data.reverse
    | name => .bytes (data.takeWhile (· ≠ 0))
    | _ => .bytes data

/-- Split the payload by the format. -/
def splitPayload : List FieldKind → List Byte → List Field
  | [], _ => []
  | kind :: kinds, payload =>
    kind.decode (payload.take kind.width) :: splitPayload kinds (payload.drop kind.width)

/-- The first `n` bytes behind a pointer. -/
def firstBytes (ptr : Packet) (n : Nat) : List Byte := (List.range n).map ptr

/-- What is to be recovered of an argument: an integer truncated to its width, a name up to
its NUL or 248 bytes, or all the bytes. -/
def FieldKind.recovered (kind : FieldKind) : Arg → Field
  | .int value => .int (value.toNat % 256 ^ kind.width)
  | .ptr ptr =>
    match kind with
    | name => .bytes ((firstBytes ptr 248).takeWhile (· ≠ 0))
    | _ => .bytes (firstBytes ptr kind.width)

/-- The argument is of the type the field reads; a name ends before 65536 bytes. -/
def FieldKind.Accepts (kind : FieldKind) : Arg → Prop
  | .int _ => kind.isInt = true
  | .ptr ptr => kind.isInt = false ∧ (kind = .name → ∃ n < 65536, ptr n = 0)

/-! ### Writing -/

/-- The bytes were written from `pos` on, and nothing else was. -/
structure Writes (s t : CmdBuffer) (data : List Byte) : Prop where
  pos : t.pos = s.pos + data.length
  written : ∀ i < data.length, data[i]? = some (t.bytes (s.pos + i))
  kept : ∀ i, i < s.pos ∨ t.pos ≤ i → t.bytes i = s.bytes i

theorem firstBytes_length (ptr : Packet) (n : Nat) : (firstBytes ptr n).length = n := by
  rw [firstBytes, List.length_map, List.length_range]

theorem firstBytes_getElem? {ptr : Packet} {n i : Nat} (h : i < n) :
    (firstBytes ptr n)[i]? = some (ptr i) := by
  rw [firstBytes, List.getElem?_map, List.getElem?_range h]
  rfl

namespace Writes

variable {s t u : CmdBuffer} {data data' : List Byte}

theorem nil (s : CmdBuffer) : Writes s s [] where
  pos := rfl
  written i hi := absurd hi (Nat.not_lt_zero i)
  kept _ _ := rfl

theorem trans (h : Writes s t data) (h' : Writes t u data') : Writes s u (data ++ data') := by
  have hpos := h.pos
  have hpos' := h'.pos
  refine ⟨?_, fun i hi => ?_, fun i hi => ?_⟩
  · rw [hpos', hpos, List.length_append, Nat.add_assoc]
  · rw [List.length_append] at hi
    by_cases hfirst : i < data.length
    · rw [List.getElem?_append_left hfirst, h.written i hfirst, h'.kept _ (Or.inl (by omega))]
    · have hat : t.pos + (i - data.length) = s.pos + i := by omega
      rw [List.getElem?_append_right (Nat.le_of_not_lt hfirst), h'.written _ (by omega), hat]
  · rw [h'.kept i (by omega), h.kept i (by omega)]

theorem put (b : Byte) (s : CmdBuffer) : Writes s (s.put b) [b] where
  pos := rfl
  written i hi := by
    have hzero : i = 0 := Nat.lt_one_iff.mp hi
    subst hzero
    have hat : (s.put b).bytes s.pos = b := Function.update_self ..
    exact congrArg some hat.symm
  kept i hi := by
    have hpos : (s.put b).pos = s.pos + 1 := rfl
    exact Function.update_of_ne (by omega) ..

/-- A write through `memcpy`. -/
theorem copy (ptr : Packet) (n : Nat) (s : CmdBuffer) :
    Writes s (s.copy ptr n) (firstBytes ptr n) := by
  refine ⟨?_, fun i hi => ?_, fun i hi => ?_⟩
  · rw [firstBytes_length]
    rfl
  · rw [firstBytes_length] at hi
    have hin : s.pos ≤ s.pos + i ∧ s.pos + i < s.pos + n := by omega
    have hat : (s.copy ptr n).bytes (s.pos + i) = ptr (s.pos + i - s.pos) := if_pos hin
    rw [firstBytes_getElem? hi, hat, Nat.add_sub_cancel_left]
  · have hpos : (s.copy ptr n).pos = s.pos + n := rfl
    have hout : ¬ (s.pos ≤ i ∧ i < s.pos + n) := by omega
    exact if_neg hout

end Writes

/-! ### Strings -/

theorem strlenFrom_eq_some {ptr : Packet} {fuel i len : Nat}
    (h : strlenFrom ptr fuel i = some len) :
    ptr len = 0 ∧ i ≤ len ∧ ∀ j, i ≤ j → j < len → ptr j ≠ 0 := by
  induction fuel generalizing i with
  | zero => cases h
  | succ fuel ih =>
    unfold strlenFrom at h
    split at h
    · next hnul =>
      cases h
      exact ⟨hnul, Nat.le_refl _, fun j hj hlt => absurd hlt (Nat.not_lt.mpr hj)⟩
    · next hchar =>
      obtain ⟨hnul, hle, hchars⟩ := ih h
      refine ⟨hnul, Nat.le_of_succ_le hle, fun j hj hlt => ?_⟩
      rcases Nat.eq_or_lt_of_le hj with rfl | hj
      · exact hchar
      · exact hchars j hj hlt

theorem strlenFrom_ne_none {ptr : Packet} {fuel i n : Nat} (hle : i ≤ n) (hlt : n < i + fuel)
    (hnul : ptr n = 0) : ∃ len, strlenFrom ptr fuel i = some len := by
  induction fuel generalizing i with
  | zero => omega
  | succ fuel ih =>
    unfold strlenFrom
    split
    · exact ⟨i, rfl⟩
    · next hchar =>
      have hne : i ≠ n := fun heq => hchar (heq ▸ hnul)
      exact ih (by omega) (by omega)

theorem firstBytes_add (ptr : Packet) (m n : Nat) :
    firstBytes ptr (m + n) = firstBytes ptr m ++ firstBytes (fun i => ptr (m + i)) n := by
  rw [firstBytes, List.range_add, List.map_append, List.map_map]
  rfl

/-- The characters before the NUL. -/
theorem takeWhile_firstBytes {ptr : Packet} {len : Nat} (hnul : ptr len = 0)
    (hchars : ∀ j < len, ptr j ≠ 0) (n : Nat) :
    (firstBytes ptr n).takeWhile (· ≠ 0) = firstBytes ptr (min len n) := by
  have hsplit : n = min len n + (n - min len n) := by omega
  have hall : ∀ b ∈ firstBytes ptr (min len n), decide (b ≠ 0) = true := by
    intro b hmem
    obtain ⟨j, hj, rfl⟩ := List.mem_map.mp hmem
    have hlt := List.mem_range.mp hj
    exact decide_eq_true (hchars j (by omega))
  conv_lhs => rw [hsplit, firstBytes_add]
  rw [List.takeWhile_append_of_pos hall]
  cases hrest : n - min len n with
  | zero => exact List.append_nil _
  | succ k =>
    have hmin : min len n = len := by omega
    have hrest : ∀ ptr' : Packet, ptr' 0 = 0 →
        (firstBytes ptr' (k + 1)).takeWhile (· ≠ 0) = [] := by
      intro ptr' hzero
      rw [firstBytes, List.range_succ_eq_map, List.map_cons, hzero]
      exact List.takeWhile_cons_of_neg Bool.false_ne_true
    rw [hrest _ (by rw [hmin]; exact hnul), List.append_nil]

/-- A name is padded with zeroes. -/
def nameBytes (ptr : Packet) : List Byte :=
  let text := (firstBytes ptr 248).takeWhile (· ≠ 0)
  text ++ List.replicate (248 - text.length) 0

theorem Writes.putName {s : CmdBuffer} {ptr : Packet} {len : Nat} (h : strlen ptr = some len) :
    Writes s (s.putName ptr len) (nameBytes ptr) := by
  obtain ⟨hnul, -, hchars⟩ := strlenFrom_eq_some h
  have htext := takeWhile_firstBytes hnul (fun j hj => hchars j (Nat.zero_le j) hj) 248
  have hlen : (if len > 248 then 248 else len) = min len 248 := by
    split
    all_goals omega
  have hzeroes : firstBytes (fun _ => 0) (248 - min len 248) =
      List.replicate (248 - min len 248) 0 := by
    rw [firstBytes, List.map_const', List.length_range]
  have hpos : s.pos + 248 = s.pos + min len 248 + (248 - min len 248) := by omega
  unfold nameBytes CmdBuffer.putName
  simp only [hlen, htext, firstBytes_length, ← hzeroes, hpos]
  split
  · exact (Writes.copy ptr (min len 248) s).trans (.copy _ _ _)
  · next hfull =>
    have hrest : 248 - min len 248 = 0 := by omega
    rw [hrest]
    exact (Writes.copy ptr (min len 248) s).trans (.nil _)

/-! ### Fields -/

/-- The low bytes of an integer, the lowest first. -/
def lowBytes (value : Word) (n : Nat) : List Byte :=
  (List.range n).map fun i => value.extractLsb' (8 * i) 8

/-- What a field writes. -/
def FieldKind.bytes (kind : FieldKind) : Arg → List Byte
  | .int value => lowBytes value kind.width
  | .ptr ptr =>
    match kind with
    | bdAddr => (firstBytes ptr 6).reverse
    | name => nameBytes ptr
    | _ => firstBytes ptr kind.width

theorem shift_setWidth (value : Word) (n : Nat) :
    (value >>> n).setWidth 8 = value.extractLsb' n 8 := by
  refine BitVec.eq_of_getLsbD_eq fun i hi => ?_
  rw [BitVec.getLsbD_setWidth, BitVec.getLsbD_ushiftRight, BitVec.getLsbD_extractLsb']

theorem word_low (value : Word) :
    ((value.setWidth 16 &&& (0xff : BitVec 16)).setWidth 8) = value.extractLsb' 0 8 := by
  refine BitVec.eq_of_getLsbD_eq fun i hi => ?_
  have hmask : (0xff : BitVec 16).getLsbD i = true := by
    interval_cases i
    all_goals rfl
  have hlt : i < 16 := by omega
  rw [BitVec.getLsbD_setWidth, BitVec.getLsbD_and, hmask, BitVec.getLsbD_setWidth,
    BitVec.getLsbD_extractLsb', Nat.zero_add, decide_eq_true hlt, Bool.true_and, Bool.and_true]

theorem word_high (value : Word) :
    (((value.setWidth 16 : BitVec 16) >>> 8).setWidth 8) = value.extractLsb' 8 8 := by
  refine BitVec.eq_of_getLsbD_eq fun i hi => ?_
  have hlt : 8 + i < 16 := by omega
  rw [BitVec.getLsbD_setWidth, BitVec.getLsbD_ushiftRight, BitVec.getLsbD_setWidth,
    BitVec.getLsbD_extractLsb', decide_eq_true hlt, Bool.true_and]

theorem encodeField_writes {kind : FieldKind} {arg : Arg} (h : kind.Accepts arg)
    (s : CmdBuffer) : ∃ t, encodeField kind arg s = some t ∧ Writes s t (kind.bytes arg) := by
  cases arg with
  | int value =>
    have hword : Writes s
        ((s.put ((value.setWidth 16 &&& (0xff : BitVec 16)).setWidth 8)).put
          (((value.setWidth 16 : BitVec 16) >>> 8).setWidth 8)) (lowBytes value 2) := by
      rw [word_low, word_high]
      exact (Writes.put _ s).trans (.put _ _)
    have hthree : Writes s (((s.put (value.setWidth 8)).put ((value >>> 8).setWidth 8)).put
        ((value >>> 16).setWidth 8)) (lowBytes value 3) := by
      have hlow := shift_setWidth value 0
      rw [BitVec.ushiftRight_zero] at hlow
      rw [hlow, shift_setWidth, shift_setWidth]
      exact ((Writes.put _ s).trans (.put _ _)).trans (.put _ _)
    cases kind with
    | byte =>
      refine ⟨_, rfl, ?_⟩
      rw [word_low]
      exact .put _ s
    | word => exact ⟨_, rfl, hword⟩
    | handle => exact ⟨_, rfl, hword⟩
    | three => exact ⟨_, rfl, hthree⟩
    | four =>
      refine ⟨_, rfl, ?_⟩
      have hbytes : FieldKind.four.bytes (.int value) =
          lowBytes value 3 ++ [(value >>> 24).setWidth 8] := by
        rw [shift_setWidth]
        rfl
      rw [hbytes]
      exact hthree.trans (.put _ _)
    | bdAddr | dataBlock | inquiryResult | name | pinCode | irk | csrk | advertisingData => cases h
  | ptr ptr =>
    obtain ⟨hptr, hname⟩ := h
    cases kind with
    | bdAddr =>
      refine ⟨_, rfl, ?_⟩
      exact ((((((Writes.put _ s).trans (.put _ _)).trans (.put _ _)).trans (.put _ _)).trans
        (.put _ _)).trans (.put _ _))
    | name =>
      obtain ⟨n, hn, hnul⟩ := hname rfl
      obtain ⟨len, hlen⟩ : ∃ len, strlen ptr = some len :=
        strlenFrom_ne_none (Nat.zero_le n) (by omega) hnul
      exact ⟨s.putName ptr len, congrArg (Option.map _) hlen, .putName hlen⟩
    | dataBlock => exact ⟨_, rfl, .copy ptr 8 s⟩
    | inquiryResult => exact ⟨_, rfl, .copy ptr 240 s⟩
    | pinCode | irk | csrk => exact ⟨_, rfl, .copy ptr 16 s⟩
    | advertisingData => exact ⟨_, rfl, .copy ptr 31 s⟩
    | byte | word | handle | three | four => cases hptr

theorem lowBytes_littleEndian (value : Word) (n : Nat) :
    littleEndian (lowBytes value n) = value.toNat % 256 ^ n := by
  induction n with
  | zero => exact (Nat.mod_one value.toNat).symm
  | succ n ih =>
    have hsplit : lowBytes value (n + 1) = lowBytes value n ++ [value.extractLsb' (8 * n) 8] := by
      rw [lowBytes, List.range_succ, List.map_append]
      rfl
    have hlen : (lowBytes value n).length = n := by
      rw [lowBytes, List.length_map, List.length_range]
    have hpow : 2 ^ (8 * n) = 256 ^ n := Nat.pow_mul 2 8 n
    unfold littleEndian at ih ⊢
    rw [hsplit, List.map_append, Nat.ofDigits_append, List.length_map, hlen, ih, List.map_singleton,
      Nat.ofDigits_singleton, BitVec.extractLsb'_toNat, Nat.shiftRight_eq_div_pow, hpow]
    exact Nat.mod_pow_succ.symm

theorem bytes_length {kind : FieldKind} {arg : Arg} (h : kind.Accepts arg) :
    (kind.bytes arg).length = kind.width := by
  cases arg with
  | int value => exact (List.length_map _).trans List.length_range
  | ptr ptr =>
    cases kind with
    | bdAddr => exact (List.length_reverse).trans (firstBytes_length ptr 6)
    | name =>
      have hle : ((firstBytes ptr 248).takeWhile (· ≠ 0)).length ≤ 248 := by
        refine (List.takeWhile_sublist _).length_le.trans ?_
        rw [firstBytes_length]
      rw [FieldKind.bytes, nameBytes, List.length_append, List.length_replicate]
      exact Nat.add_sub_cancel' hle
    | dataBlock => exact firstBytes_length ptr 8
    | inquiryResult => exact firstBytes_length ptr 240
    | pinCode | irk | csrk => exact firstBytes_length ptr 16
    | advertisingData => exact firstBytes_length ptr 31
    | byte | word | handle | three | four => cases h.1

/-- The zeroes behind a name are no part of it. -/
theorem nameBytes_takeWhile (ptr : Packet) :
    (nameBytes ptr).takeWhile (· ≠ 0) = (firstBytes ptr 248).takeWhile (· ≠ 0) := by
  unfold nameBytes
  rw [List.takeWhile_append_of_pos (List.all_eq_true.mp List.all_takeWhile)]
  cases 248 - ((firstBytes ptr 248).takeWhile (· ≠ 0)).length with
  | zero => exact List.append_nil _
  | succ n =>
    rw [List.replicate_succ, List.takeWhile_cons_of_neg, List.append_nil]
    exact Bool.false_ne_true

theorem decode_bytes {kind : FieldKind} {arg : Arg} (h : kind.Accepts arg) :
    kind.decode (kind.bytes arg) = kind.recovered arg := by
  unfold FieldKind.decode
  cases arg with
  | int value =>
    have hint : kind.isInt = true := h
    rw [if_pos hint]
    exact congrArg Field.int (lowBytes_littleEndian value kind.width)
  | ptr ptr =>
    rw [if_neg (by rw [h.1]; exact Bool.false_ne_true)]
    cases kind with
    | bdAddr => exact congrArg Field.bytes (List.reverse_reverse (firstBytes ptr 6))
    | name => exact congrArg Field.bytes (nameBytes_takeWhile ptr)
    | dataBlock | inquiryResult | pinCode | irk | csrk | advertisingData => rfl
    | byte | word | handle | three | four => cases h.1

/-! ### Payloads -/

/-- The fields, one after the other. -/
def payload : List FieldKind → List Arg → List Byte
  | kind :: kinds, arg :: args => kind.bytes arg ++ payload kinds args
  | _, _ => []

def payloadWidth (kinds : List FieldKind) : Nat := (kinds.map FieldKind.width).sum

variable {kinds : List FieldKind} {args : List Arg}

theorem payload_length (h : List.Forall₂ FieldKind.Accepts kinds args) :
    (payload kinds args).length = payloadWidth kinds := by
  induction h with
  | nil => rfl
  | cons harg hargs ih =>
    rw [payload, List.length_append, bytes_length harg, ih]
    rfl

/-- Taking the payload apart recovers the arguments. -/
theorem splitPayload_payload (h : List.Forall₂ FieldKind.Accepts kinds args) :
    splitPayload kinds (payload kinds args) = List.zipWith FieldKind.recovered kinds args := by
  induction h with
  | nil => rfl
  | cons harg hargs ih =>
    rw [payload, splitPayload, List.take_left' (bytes_length harg),
      List.drop_left' (bytes_length harg), decode_bytes harg, ih, List.zipWith_cons_cons]

theorem encodeFields_writes {format : List Char}
    (h : List.Forall₂ FieldKind.Accepts (format.filterMap fieldKind) args) (s : CmdBuffer) :
    ∃ t, encodeFields format args s = some t ∧
      Writes s t (payload (format.filterMap fieldKind) args) := by
  induction format generalizing args s with
  | nil => exact ⟨s, rfl, by rw [List.filterMap_nil] at h ⊢; cases h; exact .nil s⟩
  | cons c format ih =>
    unfold encodeFields
    cases hkind : fieldKind c with
    | none =>
      rw [List.filterMap_cons_none hkind] at h ⊢
      exact ih h s
    | some kind =>
      rw [List.filterMap_cons_some hkind] at h ⊢
      cases h with
      | cons harg hargs =>
        obtain ⟨t, hfield, ht⟩ := encodeField_writes harg s
        obtain ⟨u, hrest, hu⟩ := ih hargs t
        refine ⟨u, ?_, ht.trans hu⟩
        simp only [hfield, Option.bind_some, hrest]

/-! ### Commands -/

/-- The opcode is written low byte first. -/
theorem opcode_bytes (opcode : BitVec 16) :
    ((opcode >>> 8).setWidth 8 : Byte) ++ ((opcode &&& 0xff).setWidth 8 : Byte) = opcode := by
  refine BitVec.eq_of_getLsbD_eq fun i hi => ?_
  rw [BitVec.getLsbD_append]
  by_cases hlow : i < 8
  · have hmask : (0xff : BitVec 16).getLsbD i = true := by
      interval_cases i
      all_goals rfl
    rw [if_pos hlow, BitVec.getLsbD_setWidth, BitVec.getLsbD_and, hmask,
      decide_eq_true hlow, Bool.true_and, Bool.and_true]
  · have hpos : 8 + (i - 8) = i := by omega
    have hlt : i - 8 < 8 := by omega
    rw [if_neg hlow, BitVec.getLsbD_setWidth, BitVec.getLsbD_ushiftRight, hpos,
      decide_eq_true hlt, Bool.true_and]

/-- The payload of a command, by its length byte. -/
def commandPayload (packet : Packet) : List Byte :=
  firstBytes (fun i => packet (hciCmdHeaderSize + i)) (packet 2).toNat

/-- Bytes found one by one from a position on. -/
theorem firstBytes_eq_of_written {ptr : Packet} {pos : Nat} {data : List Byte}
    (h : ∀ i < data.length, data[i]? = some (ptr (pos + i))) :
    firstBytes (fun i => ptr (pos + i)) data.length = data := by
  refine List.ext_getElem? fun i => ?_
  by_cases hi : i < data.length
  · rw [firstBytes_getElem? hi, h i hi]
  · have hout : data.length ≤ i := Nat.le_of_not_lt hi
    rw [List.getElem?_eq_none hout, List.getElem?_eq_none]
    rw [firstBytes_length]
    exact hout

/-- The header, the payload and the size, for a payload the length byte can count; the rest of
the buffer is as it was. -/
theorem hciCreateCmdInternal_writes (buffer : Packet) (cmd : HciCmd)
    (hargs : List.Forall₂ FieldKind.Accepts (cmd.format.filterMap fieldKind) args)
    (hwidth : payloadWidth (cmd.format.filterMap fieldKind) ≤ hciCmdPayloadSize) :
    ∃ size packet, hciCreateCmdInternal buffer cmd args = some (size, packet) ∧
      size.toNat = hciCmdHeaderSize + payloadWidth (cmd.format.filterMap fieldKind) ∧
      readBt16 packet 0 = cmd.opcode ∧
      (packet 2).toNat = payloadWidth (cmd.format.filterMap fieldKind) ∧
      commandPayload packet = payload (cmd.format.filterMap fieldKind) args ∧
      ∀ i, size.toNat ≤ i → packet i = buffer i := by
  let start : CmdBuffer := ⟨Function.update (Function.update buffer 0
    ((cmd.opcode &&& 0xff).setWidth 8)) 1 ((cmd.opcode >>> 8).setWidth 8), 3⟩
  obtain ⟨s, hfields, hwrites⟩ := encodeFields_writes hargs start
  have hlen := payload_length hargs
  generalize payload (cmd.format.filterMap fieldKind) args = data at hwrites hlen ⊢
  generalize payloadWidth (cmd.format.filterMap fieldKind) = width at hwidth hlen ⊢
  subst hlen
  have hmax : data.length ≤ 255 := hwidth
  have hstart : start.pos = 3 := rfl
  have hpos : s.pos = 3 + data.length := hwrites.pos
  have hsize : (BitVec.ofNat 16 s.pos).toNat = 3 + data.length := by
    rw [BitVec.toNat_ofNat, hpos]
    exact Nat.mod_eq_of_lt (by omega)
  have hcount : (BitVec.ofNat 8 (s.pos - 3)).toNat = data.length := by
    rw [BitVec.toNat_ofNat, hpos, Nat.add_sub_cancel_left]
    exact Nat.mod_eq_of_lt (by omega)
  -- The length byte is written last and hides nothing the fields wrote.
  let packet := Function.update s.bytes 2 (BitVec.ofNat 8 (s.pos - 3))
  have hkept : ∀ i, i ≠ 2 → packet i = s.bytes i := fun i hne => Function.update_of_ne hne ..
  have hlast : packet 2 = BitVec.ofNat 8 (s.pos - 3) := Function.update_self ..
  have hbyte : (packet 2).toNat = data.length := by rw [hlast, hcount]
  refine ⟨BitVec.ofNat 16 s.pos, packet, congrArg (Option.map _) hfields, hsize, ?_, hbyte, ?_,
    fun i hi => ?_⟩
  · have hfirst : packet 0 = (cmd.opcode &&& 0xff).setWidth 8 := by
      rw [hkept 0 (by decide), hwrites.kept 0 (Or.inl (by omega))]
      rfl
    have hsecond : packet (0 + 1) = (cmd.opcode >>> 8).setWidth 8 := by
      rw [hkept 1 (by decide), hwrites.kept 1 (Or.inl (by omega))]
      rfl
    rw [readBt16, hfirst, hsecond, opcode_bytes]
  · rw [commandPayload, hbyte]
    refine firstBytes_eq_of_written fun i hi => ?_
    have hheader : hciCmdHeaderSize = 3 := rfl
    rw [hwrites.written i hi, hkept _ (by omega)]
  · rw [hsize] at hi
    have hzero : i ≠ 0 := by omega
    have hone : i ≠ 1 := by omega
    rw [hkept i (by omega), hwrites.kept i (Or.inr (by omega))]
    exact (Function.update_of_ne hone ..).trans (Function.update_of_ne hzero ..)

end EbnAnchor.Stack
