import EbnAnchor.Stack.H4
import Mathlib.Data.List.Induction

/-!
The receiver refines the pure parser.

`RxInv` ties the parser to every state: the bytes received are some whole packets and
skipped bytes, `pre`, followed by the beginning `cur` of a packet, which is what the
buffer holds. One interrupt (`RxInv.receiveByte`) and one poll (`RxInv.process`) keep it,
as long as the packet fits into the buffer.

* `h4_refines_parse`: the handler gets every complete packet of a well-formed stream,
  once and in order;
* `h4_stores_inBounds_iff`: a store leaves the buffer exactly when a packet outgrows it.
-/

namespace EbnAnchor.Stack

/-! ### The parser -/

theorem parseH4_skip {type : Byte} (h : ¬ IsType type) (rest : List Byte) :
    parseH4 (type :: rest) = parseH4 rest := by
  rw [parseH4, if_neg h]

theorem parseH4_header {type : Byte} (h : IsType type) {rest : List Byte}
    (hlen : packetLength type rest = none) : parseH4 (type :: rest) = some [] := by
  rw [parseH4, if_pos h, hlen]

theorem parseH4_unfinished {type : Byte} (h : IsType type) {rest : List Byte} {n : Nat}
    (hlen : packetLength type rest = some n) (hfits : rest.length < hciPacketBufferSize)
    (hmore : rest.length < n) : parseH4 (type :: rest) = some [] := by
  rw [parseH4, if_pos h, hlen]
  dsimp only
  rw [if_neg (by omega), if_neg (by omega)]

theorem parseH4_overrun {type : Byte} (h : IsType type) {rest : List Byte} {n : Nat}
    (hlen : packetLength type rest = some n) (hn : hciPacketBufferSize ≤ n)
    (hover : hciPacketBufferSize ≤ rest.length) : parseH4 (type :: rest) = none := by
  rw [parseH4, if_pos h, hlen]
  dsimp only
  rw [if_pos ⟨hn, hover⟩]

theorem packetLength_append {type : Byte} {bytes : List Byte} {n : Nat}
    (h : packetLength type bytes = some n) (more : List Byte) :
    packetLength type (bytes ++ more) = some n := by
  have hget : ∀ (i : Nat) (b : Byte), bytes[i]? = some b → (bytes ++ more)[i]? = some b :=
    fun i b hb => by
      rw [List.getElem?_append_left (List.getElem?_eq_some_iff.mp hb).1, hb]
  rw [packetLength] at h ⊢
  split_ifs at h ⊢ with hevent
  · obtain ⟨len, hlen, rfl⟩ := Option.map_eq_some_iff.mp h
    rw [hget 1 len hlen, Option.map_some]
  · obtain ⟨low, hlow, h⟩ := Option.bind_eq_some_iff.mp h
    obtain ⟨high, hhigh, rfl⟩ := Option.map_eq_some_iff.mp h
    rw [hget 2 low hlow, hget 3 high hhigh]
    rfl

/-- A whole packet that fits the buffer is taken off the front. -/
theorem parseH4_packet {type : Byte} (h : IsType type) {bytes : List Byte} {n : Nat}
    (hlen : packetLength type bytes = some n) (hn : bytes.length = n)
    (hfits : n < hciPacketBufferSize) (rest : List Byte) :
    parseH4 (type :: (bytes ++ rest)) = (parseH4 rest).map (⟨type, bytes⟩ :: ·) := by
  rw [parseH4, if_pos h, packetLength_append hlen]
  dsimp only
  rw [if_neg (by omega), if_pos (by rw [List.length_append]; omega), ← hn, List.drop_left,
    List.take_left]

/-- More bytes only add packets. -/
theorem parseH4_append {bytes more : List Byte} {packets : List H4Packet}
    (h : parseH4 (bytes ++ more) = some packets) :
    ∃ first, parseH4 bytes = some first ∧ first <+: packets := by
  induction bytes using parseH4.induct generalizing packets with
  | case1 => exact ⟨[], by rw [parseH4], List.nil_prefix⟩
  | case2 type rest htype hlen =>
    exact ⟨[], parseH4_header htype hlen, List.nil_prefix⟩
  | case3 type rest htype n hlen hover =>
    rw [List.cons_append, parseH4_overrun htype (packetLength_append hlen more) hover.1
      (by rw [List.length_append]; omega)] at h
    cases h
  | case4 type rest htype n hlen hover hn ih =>
    rw [List.cons_append, parseH4, if_pos htype, packetLength_append hlen more] at h
    dsimp only at h
    rw [List.length_append] at h
    split_ifs at h with hover'
    · rw [List.drop_append_of_le_length hn, List.take_append_of_le_length hn,
        Option.map_eq_some_iff] at h
      obtain ⟨tail, htail, rfl⟩ := h
      obtain ⟨first, hfirst, hinit⟩ := ih htail
      refine ⟨⟨type, rest.take n⟩ :: first, ?_, List.cons_prefix_cons.mpr ⟨rfl, hinit⟩⟩
      rw [parseH4, if_pos htype, hlen]
      dsimp only
      rw [if_neg hover, if_pos hn, hfirst, Option.map_some]
    · omega
  | case5 type rest htype n hlen hover hn =>
    refine ⟨[], ?_, List.nil_prefix⟩
    rw [parseH4, if_pos htype, hlen]
    dsimp only
    rw [if_neg hover, if_neg hn]
  | case6 type rest htype ih =>
    rw [List.cons_append, parseH4, if_neg htype] at h
    obtain ⟨first, hfirst, hinit⟩ := ih h
    exact ⟨first, by rw [parseH4, if_neg htype, hfirst], hinit⟩

theorem parseH4_none_append {bytes : List Byte} (h : parseH4 bytes = none)
    (more : List Byte) : parseH4 (bytes ++ more) = none := by
  cases hall : parseH4 (bytes ++ more) with
  | none => rfl
  | some packets =>
    obtain ⟨first, hfirst, -⟩ := parseH4_append hall
    cases h.symm.trans hfirst

/-- The packets of a well-formed stream are the ones the parser finds. -/
theorem H4Stream.parse {bytes : List Byte} {packets : List H4Packet}
    (h : H4Stream bytes packets) : parseH4 bytes = some packets := by
  induction h with
  | nil => rw [parseH4]
  | skip hevent hacl _ ih =>
    rw [parseH4_skip (fun htype => htype.elim hevent hacl), ih]
  | event code len hlen _ ih =>
    have hfits : len.toNat < 256 := len.isLt
    rw [← List.cons_append, ← List.cons_append,
      parseH4_packet (n := 2 + len.toNat) (Or.inl rfl) rfl
        (by rw [List.length_cons, List.length_cons, hlen]; omega)
        (by rw [hciPacketBufferSize_eq]; omega), ih, Option.map_some]
  | acl h₀ h₁ l₀ l₁ hlen hfits _ ih =>
    rw [← List.cons_append, ← List.cons_append, ← List.cons_append, ← List.cons_append,
      parseH4_packet (n := 4 + (l₀.toNat + 256 * l₁.toNat)) (Or.inr rfl) rfl
        (by rw [List.length_cons, List.length_cons, List.length_cons, List.length_cons, hlen]
            omega)
        (by rw [hciPacketBufferSize_eq]; omega), ih, Option.map_some]

/-! ### The invariant -/

/-- The buffer holds `cur`. -/
def H4Rx.Holds (s : H4Rx) (cur : List Byte) : Prop :=
  ∀ (i : Nat) (b : Byte), cur[i]? = some b → s.packetByte i = b

/-- A block of `len` bytes from offset `start` on is being received, up to the end of
`cur`; the two layers agree on what remains. -/
structure H4Rx.Armed (s : H4Rx) (cur : List Byte) (start len : Nat) : Prop where
  rbr : s.rbr = true
  readPos : s.readPos = start
  bytesToRead : s.bytesToRead = len
  rxBufferPtr : s.rxBufferPtr = cur.length
  remaining : cur.length + s.halBytesToRead = start + len
  start_le : start ≤ cur.length
  pending : 0 < s.halBytesToRead

/-- What the framing state says about the beginning of a packet. -/
def H4Rx.Phase (s : H4Rx) (cur : List Byte) : Prop :=
  match s.h4State with
  | .w4PacketType => cur = [] ∧ s.Armed cur 0 1
  | .w4EventHeader => ∃ rest, cur = hciEventPacket :: rest ∧ s.Armed cur 1 hciEventHeaderSize
  | .w4AclHeader => ∃ rest, cur = hciAclDataPacket :: rest ∧ s.Armed cur 1 hciAclHeaderSize
  | .w4Payload => ∃ type rest n start len, cur = type :: rest ∧ IsType type ∧
      packetLength type rest = some n ∧ start + len = 1 + n ∧
      cur.length ≤ hciPacketBufferSize ∧ s.Armed cur start len
  | .packetReceived => ∃ type rest, cur = type :: rest ∧ IsType type ∧
      packetLength type rest = some rest.length ∧ cur.length ≤ hciPacketBufferSize ∧
      s.rbr = false ∧ s.readPos = cur.length

/-- `done` are the packets handed over. -/
structure RxInv (received : List Byte) (done : List H4Packet) (s : H4Rx)
    (pre cur : List Byte) : Prop where
  split : received = pre ++ cur
  parsed : ∀ rest, parseH4 (pre ++ rest) = (parseH4 rest).map (done ++ ·)
  holds : s.Holds cur
  phase : s.Phase cur

/-! ### A received byte -/

theorem packetByte_storeByte (data : Byte) (s : H4Rx) (i : Nat) :
    (storeByte data s).packetByte i =
      if s.rxBufferPtr = i ∧ i < hciPacketBufferSize then data else s.packetByte i := by
  rw [H4Rx.packetByte, storeByte]
  dsimp only
  rw [Vector.getElem?_setIfInBounds]
  by_cases hptr : s.rxBufferPtr = i
  · subst hptr
    by_cases hi : s.rxBufferPtr < hciPacketBufferSize
    · rw [if_pos rfl, if_pos hi, if_pos ⟨rfl, hi⟩, Option.getD_some]
    · rw [if_pos rfl, if_neg hi, if_neg (by tauto), H4Rx.packetByte,
        Vector.getElem?_eq_none (Nat.le_of_not_lt hi)]
  · rw [if_neg hptr, if_neg (by tauto)]
    rfl

theorem H4Rx.Holds.storeByte {s : H4Rx} {cur : List Byte} (h : s.Holds cur) {data : Byte}
    (hptr : s.rxBufferPtr = cur.length) (hlt : cur.length < hciPacketBufferSize) :
    (Stack.storeByte data s).Holds (cur ++ [data]) := by
  intro i b hb
  rw [packetByte_storeByte]
  by_cases hi : i < cur.length
  · rw [List.getElem?_append_left hi] at hb
    rw [if_neg (by omega), h i b hb]
  · have hi' := (List.getElem?_eq_some_iff.mp hb).1
    rw [List.length_append, List.length_singleton] at hi'
    have hieq : i = cur.length := by omega
    subst hieq
    rw [List.getElem?_append_right le_rfl, Nat.sub_self] at hb
    rw [if_pos ⟨hptr, hlt⟩]
    exact Option.some.inj hb

/-- A store inside a block leaves one byte less to read. -/
theorem H4Rx.Armed.storeByte {s : H4Rx} {cur : List Byte} {start len : Nat}
    (h : s.Armed cur start len) {data : Byte} (hmore : 1 < s.halBytesToRead) :
    (Stack.storeByte data s).Armed (cur ++ [data]) start len := by
  have hlen : (cur ++ [data]).length = cur.length + 1 := List.length_append
  obtain ⟨hrbr, hpos, hread, hptr, hrem, hstart, hpend⟩ := h
  refine ⟨hrbr, hpos, hread, ?_, ?_, by omega, ?_⟩
  · rw [hlen, Stack.storeByte, hptr]
  · rw [hlen, Stack.storeByte]
    dsimp only
    omega
  · rw [Stack.storeByte]
    dsimp only
    omega

/-- Arming the next block after `cur`. -/
theorem H4Rx.armed_receiveBlock {s : H4Rx} {cur : List Byte} {start len : Nat}
    (hpos : s.readPos = start) (hread : s.bytesToRead = len) (hcur : cur.length = start)
    (hlen : 0 < len) (hlt : len < 2 ^ 16) :
    (halUartDmaReceiveBlock start len s).Armed cur start len := by
  have hmod : len % 2 ^ 16 = len := Nat.mod_eq_of_lt hlt
  refine ⟨rfl, hpos, hread, hcur.symm, ?_, by omega, ?_⟩
  · rw [halUartDmaReceiveBlock, hmod, hcur]
  · rw [halUartDmaReceiveBlock, hmod]
    exact hlen

theorem H4Rx.armed_readNextBlock {s : H4Rx} {cur : List Byte} {start len : Nat}
    (hpos : s.readPos = start) (hread : s.bytesToRead = len) (hcur : cur.length = start)
    (hlen : 0 < len) (hlt : len < 2 ^ 16) : (readNextBlock s).Armed cur start len := by
  rw [readNextBlock, if_pos (by omega), hpos, hread]
  exact H4Rx.armed_receiveBlock hpos hread hcur hlen hlt

/-! ### A complete block

`u` is the state in which the block has been counted in `read_pos`. -/

section BlockReceived

variable {u : H4Rx} {rest : List Byte}

/-- After a header: the packet is complete if it has no payload, else the payload block
starts. -/
theorem phase_header {type : Byte} {len : Nat}
    (htype : IsType type) (hlen : packetLength type rest = some (rest.length + len))
    (hpos : u.readPos = rest.length + 1) (hrbr : u.rbr = false) (hlt : len < 2 ^ 16)
    (hfits : rest.length < hciPacketBufferSize) :
    (readNextBlock (if len = 0 then
        { u with bytesToRead := len, h4State := .packetReceived }
      else { u with bytesToRead := len, h4State := .w4Payload })).Phase (type :: rest) := by
  have hcur : (type :: rest).length = rest.length + 1 := rfl
  by_cases hzero : len = 0
  · subst hzero
    exact ⟨type, rest, rfl, htype, hlen, by omega, hrbr, hpos⟩
  · rw [if_neg hzero]
    have harmed := @H4Rx.armed_readNextBlock
      { u with bytesToRead := len, h4State := .w4Payload } (type :: rest) _ len hpos rfl hcur
      (Nat.pos_of_ne_zero hzero) hlt
    rw [readNextBlock, if_pos hzero] at harmed ⊢
    refine ⟨type, rest, rest.length + len, rest.length + 1, len, rfl, htype, hlen, by omega,
      ?_, harmed⟩
    rw [hcur]
    exact hfits

/-- After the type byte: the header block, or the next type byte when it is none. -/
theorem framing_type {data : Byte} (hstate : u.h4State = .w4PacketType)
    (hpos : u.readPos = 1) (hholds : u.Holds [data]) :
    (IsType data ∧ (readNextBlock (h4Framing u)).Phase [data]) ∨
      (¬ IsType data ∧ (readNextBlock (h4Framing u)).Phase []) := by
  rw [h4Framing, hstate]
  dsimp only
  have htype : u.packetByte 0 = data := hholds 0 data rfl
  rw [htype]
  by_cases hacl : data = hciAclDataPacket
  · rw [if_pos hacl]
    exact Or.inl ⟨Or.inr hacl, [], by rw [hacl],
      H4Rx.armed_readNextBlock hpos rfl rfl (by decide) (by decide)⟩
  · rw [if_neg hacl]
    by_cases hevent : data = hciEventPacket
    · rw [if_pos hevent]
      exact Or.inl ⟨Or.inl hevent, [], by rw [hevent],
        H4Rx.armed_readNextBlock hpos rfl rfl (by decide) (by decide)⟩
    · rw [if_neg hevent]
      exact Or.inr ⟨fun h => h.elim hevent hacl, rfl,
        H4Rx.armed_readNextBlock rfl rfl rfl (by decide) (by decide)⟩

theorem framing_eventHeader (hstate : u.h4State = .w4EventHeader)
    (hpos : u.readPos = 3) (hrbr : u.rbr = false)
    (hholds : u.Holds (hciEventPacket :: rest)) (hrest : rest.length = 2) :
    (readNextBlock (h4Framing u)).Phase (hciEventPacket :: rest) := by
  have hshort : rest.length < hciPacketBufferSize := by rw [hrest]; decide
  obtain ⟨code, len, rfl⟩ := List.length_eq_two.mp hrest
  have hlt : len.toNat < 256 := len.isLt
  rw [h4Framing, hstate]
  dsimp only
  have hbyte : u.packetByte 2 = len := hholds 2 len rfl
  rw [hbyte]
  exact phase_header (Or.inl rfl) rfl hpos hrbr (by omega) hshort

theorem framing_aclHeader (hstate : u.h4State = .w4AclHeader)
    (hpos : u.readPos = 5) (hrbr : u.rbr = false)
    (hholds : u.Holds (hciAclDataPacket :: rest)) (hrest : rest.length = 4) :
    (readNextBlock (h4Framing u)).Phase (hciAclDataPacket :: rest) := by
  have hshort : rest.length < hciPacketBufferSize := by rw [hrest]; decide
  match rest, hrest with
  | [h₀, h₁, low, high], _ =>
    have hlow : low.toNat < 256 := low.isLt
    have hhigh : high.toNat < 256 := high.isLt
    rw [h4Framing, hstate]
    dsimp only
    have hlowByte : u.packetByte 3 = low := hholds 3 low rfl
    have hhighByte : u.packetByte (3 + 1) = high := hholds 4 high rfl
    rw [H4Rx.readBt16, hlowByte, hhighByte]
    exact phase_header (Or.inr rfl) rfl hpos hrbr (by omega) hshort

theorem framing_payload {type : Byte} (hstate : u.h4State = .w4Payload)
    (htype : IsType type) (hlen : packetLength type rest = some rest.length)
    (hpos : u.readPos = rest.length + 1) (hrbr : u.rbr = false)
    (hfits : rest.length + 1 ≤ hciPacketBufferSize) :
    (readNextBlock (h4Framing u)).Phase (type :: rest) := by
  rw [h4Framing, hstate]
  exact ⟨type, rest, rfl, htype, hlen, hfits, hrbr, hpos⟩

end BlockReceived

/-! ### Interrupts -/

/-- The parser goes past what has been handled. -/
theorem RxInv.parse_received {received : List Byte} {done : List H4Packet} {s : H4Rx}
    {pre cur : List Byte} (h : RxInv received done s pre cur) (more : List Byte) :
    parseH4 (received ++ more) = (parseH4 (cur ++ more)).map (done ++ ·) := by
  rw [h.split, List.append_assoc, h.parsed]

theorem receiveByte_eq {s : H4Rx} (data : Byte) (hpend : 0 < s.halBytesToRead) :
    receiveByte data s = if s.halBytesToRead = 1 then
      h4BlockReceived { storeByte data s with rbr := false } else storeByte data s := by
  rw [receiveByte, if_neg (by omega)]
  have hhal : (storeByte data s).halBytesToRead = s.halBytesToRead - 1 := rfl
  by_cases hone : s.halBytesToRead = 1
  · rw [if_pos hone, if_neg (by omega)]
  · rw [if_neg hone, if_pos (by omega)]

/-- The framing does not touch the buffer. -/
theorem h4BlockReceived_records (t : H4Rx) :
    (h4BlockReceived t).stores = t.stores ∧ (h4BlockReceived t).hciPacket = t.hciPacket := by
  have hframe : ∀ u : H4Rx, (h4Framing u).stores = u.stores ∧
      (h4Framing u).hciPacket = u.hciPacket := fun u => by
    rw [h4Framing]
    cases u.h4State with
    | w4PacketType | w4EventHeader | w4AclHeader =>
      dsimp only
      split_ifs <;> exact ⟨rfl, rfl⟩
    | w4Payload => exact ⟨rfl, rfl⟩
    | packetReceived => exact ⟨rfl, rfl⟩
  rw [h4BlockReceived, readNextBlock]
  split_ifs
  · exact hframe _
  · exact hframe _

theorem receiveByte_records {s : H4Rx} (data : Byte) (hpend : 0 < s.halBytesToRead) :
    (receiveByte data s).stores = s.stores ++ [s.rxBufferPtr] ∧
      (receiveByte data s).hciPacket = (storeByte data s).hciPacket := by
  rw [receiveByte_eq data hpend]
  split_ifs
  · exact h4BlockReceived_records _
  · exact ⟨rfl, rfl⟩

/-- While a packet is being received, some block is armed. -/
theorem H4Rx.Phase.armed {s : H4Rx} {cur : List Byte} (h : s.Phase cur)
    (hstate : s.h4State ≠ .packetReceived) :
    cur.length ≤ hciPacketBufferSize ∧ ∃ start len, s.Armed cur start len := by
  rw [H4Rx.Phase] at h
  cases hs : s.h4State with
  | w4PacketType =>
    rw [hs] at h
    exact ⟨by rw [h.1]; exact Nat.zero_le _, _, _, h.2⟩
  | w4EventHeader =>
    rw [hs] at h
    obtain ⟨rest, -, harmed⟩ := h
    refine ⟨?_, _, _, harmed⟩
    have hrem : cur.length + s.halBytesToRead = 1 + 2 := harmed.remaining
    rw [hciPacketBufferSize_eq]
    omega
  | w4AclHeader =>
    rw [hs] at h
    obtain ⟨rest, -, harmed⟩ := h
    refine ⟨?_, _, _, harmed⟩
    have hrem : cur.length + s.halBytesToRead = 1 + 4 := harmed.remaining
    rw [hciPacketBufferSize_eq]
    omega
  | w4Payload =>
    rw [hs] at h
    obtain ⟨type, rest, n, start, len, -, -, -, -, hfits, harmed⟩ := h
    exact ⟨hfits, start, len, harmed⟩
  | packetReceived => exact absurd hs hstate

/-- The block goes on, or is complete: the phase after one more byte. -/
theorem phase_receiveByte {s : H4Rx} {cur : List Byte} {data : Byte} (h : s.Phase cur)
    (hholds : s.Holds cur) (hstate : s.h4State ≠ .packetReceived)
    (hlt : cur.length < hciPacketBufferSize) :
    (receiveByte data s).Phase (cur ++ [data]) ∨
      (cur = [] ∧ ¬ IsType data ∧ (receiveByte data s).Phase []) := by
  obtain ⟨-, start, len, harmed⟩ := h.armed hstate
  have hnew : (storeByte data s).Holds (cur ++ [data]) :=
    hholds.storeByte harmed.rxBufferPtr hlt
  rw [receiveByte_eq data harmed.pending]
  by_cases hlast : s.halBytesToRead = 1
  · -- the block is complete
    rw [if_pos hlast, h4BlockReceived]
    have hread : s.readPos + s.bytesToRead = cur.length + 1 := by
      have := harmed.remaining
      rw [harmed.readPos, harmed.bytesToRead]
      omega
    generalize hu : ({ { storeByte data s with rbr := false } with
      readPos := s.readPos + s.bytesToRead } : H4Rx) = u
    have hustate : u.h4State = s.h4State := by rw [← hu]; rfl
    have hupos : u.readPos = cur.length + 1 := by rw [← hu]; exact hread
    have hurbr : u.rbr = false := by rw [← hu]
    have huholds : u.Holds (cur ++ [data]) := by rw [← hu]; exact hnew
    show (readNextBlock (h4Framing { { storeByte data s with rbr := false } with
      readPos := s.readPos + s.bytesToRead })).Phase _ ∨ _ ∧ _ ∧ (readNextBlock (h4Framing
        { { storeByte data s with rbr := false } with
          readPos := s.readPos + s.bytesToRead })).Phase []
    rw [hu]
    rw [H4Rx.Phase] at h
    cases hs : s.h4State with
    | w4PacketType =>
      rw [hs] at h
      obtain ⟨rfl, -⟩ := h
      rcases framing_type (hustate.trans hs) hupos huholds with ⟨-, hphase⟩ | ⟨hno, hphase⟩
      · exact Or.inl hphase
      · exact Or.inr ⟨rfl, hno, hphase⟩
    | w4EventHeader =>
      rw [hs] at h
      obtain ⟨rest, rfl, harmed⟩ := h
      have hrem : (hciEventPacket :: rest).length + s.halBytesToRead = 1 + 2 :=
        harmed.remaining
      rw [List.length_cons] at hrem hupos
      have hlength : (rest ++ [data]).length = 2 := by
        rw [List.length_append, List.length_singleton]
        omega
      exact Or.inl (framing_eventHeader (hustate.trans hs) (by omega) hurbr huholds hlength)
    | w4AclHeader =>
      rw [hs] at h
      obtain ⟨rest, rfl, harmed⟩ := h
      have hrem : (hciAclDataPacket :: rest).length + s.halBytesToRead = 1 + 4 :=
        harmed.remaining
      rw [List.length_cons] at hrem hupos
      have hlength : (rest ++ [data]).length = 4 := by
        rw [List.length_append, List.length_singleton]
        omega
      exact Or.inl (framing_aclHeader (hustate.trans hs) (by omega) hurbr huholds hlength)
    | w4Payload =>
      rw [hs] at h
      obtain ⟨type, rest, n, start, len, rfl, htype, hlen, hsum, hfits, harmed⟩ := h
      have hrem := harmed.remaining
      rw [List.length_cons] at hrem hupos hlt
      have hlength : (rest ++ [data]).length = n := by
        rw [List.length_append, List.length_singleton]
        omega
      have hlen' : packetLength type (rest ++ [data]) = some (rest ++ [data]).length := by
        rw [hlength]
        exact packetLength_append hlen [data]
      exact Or.inl (@framing_payload _ (rest ++ [data]) type (hustate.trans hs) htype hlen'
        (by omega) hurbr (by omega))
    | packetReceived => exact absurd hs hstate
  · -- the block goes on
    rw [if_neg hlast]
    have hmore : 1 < s.halBytesToRead := by
      have := harmed.pending
      omega
    refine Or.inl ?_
    have hsame : (storeByte data s).h4State = s.h4State := rfl
    rw [H4Rx.Phase] at h ⊢
    rw [hsame]
    cases hs : s.h4State with
    | w4PacketType =>
      rw [hs] at h
      obtain ⟨rfl, harmed⟩ := h
      have hrem : 0 + s.halBytesToRead = 0 + 1 := harmed.remaining
      omega
    | w4EventHeader =>
      rw [hs] at h
      obtain ⟨rest, rfl, harmed⟩ := h
      exact ⟨rest ++ [data], rfl, harmed.storeByte hmore⟩
    | w4AclHeader =>
      rw [hs] at h
      obtain ⟨rest, rfl, harmed⟩ := h
      exact ⟨rest ++ [data], rfl, harmed.storeByte hmore⟩
    | w4Payload =>
      rw [hs] at h
      obtain ⟨type, rest, n, start, len, rfl, htype, hlen, hsum, hfits, harmed⟩ := h
      refine ⟨type, rest ++ [data], n, start, len, rfl, htype, packetLength_append hlen _,
        hsum, ?_, harmed.storeByte hmore⟩
      rw [List.length_append, List.length_singleton]
      exact hlt
    | packetReceived => exact absurd hs hstate

/-- One received byte keeps the invariant, as long as the packet fits the buffer. -/
theorem RxInv.receiveByte {received : List Byte} {done : List H4Packet} {s : H4Rx}
    {pre cur : List Byte} (h : RxInv received done s pre cur)
    (hstate : s.h4State ≠ .packetReceived) (data : Byte)
    (hlt : cur.length < hciPacketBufferSize) :
    ∃ pre' cur', RxInv (received ++ [data]) done (Stack.receiveByte data s) pre' cur' := by
  obtain ⟨-, start, len, harmed⟩ := h.phase.armed hstate
  obtain ⟨-, hpacket⟩ := receiveByte_records data harmed.pending
  have hholds : (Stack.receiveByte data s).Holds (cur ++ [data]) := by
    intro i b hb
    rw [H4Rx.packetByte, hpacket]
    exact h.holds.storeByte harmed.rxBufferPtr hlt i b hb
  rcases @phase_receiveByte s cur data h.phase h.holds hstate hlt with
    hphase | ⟨rfl, hno, hphase⟩
  · refine ⟨pre, cur ++ [data], ?_, h.parsed, hholds, hphase⟩
    rw [h.split, List.append_assoc]
  · refine ⟨pre ++ [data], [], ?_, fun rest => ?_, fun i b hb => ?_, hphase⟩
    · rw [h.split, List.append_nil, List.append_nil]
    · rw [List.append_assoc, h.parsed, List.singleton_append, parseH4_skip hno]
    · cases hb

/-- One byte more than the buffer holds: the parser rejects the packet. -/
theorem RxInv.overrun {received : List Byte} {done : List H4Packet} {s : H4Rx} {pre cur : List Byte}
    (h : RxInv received done s pre cur) (hstate : s.h4State ≠ .packetReceived) (data : Byte)
    (hfull : cur.length = hciPacketBufferSize) : parseH4 (received ++ [data]) = none := by
  rw [h.parse_received]
  have hphase := h.phase
  rw [H4Rx.Phase] at hphase
  have h258 : hciPacketBufferSize = 258 := rfl
  cases hs : s.h4State with
  | w4PacketType =>
    rw [hs] at hphase
    rw [hphase.1, h258] at hfull
    cases hfull
  | w4EventHeader =>
    rw [hs] at hphase
    obtain ⟨rest, -, harmed⟩ := hphase
    have hrem : cur.length + s.halBytesToRead = 1 + 2 := harmed.remaining
    omega
  | w4AclHeader =>
    rw [hs] at hphase
    obtain ⟨rest, -, harmed⟩ := hphase
    have hrem : cur.length + s.halBytesToRead = 1 + 4 := harmed.remaining
    omega
  | w4Payload =>
    rw [hs] at hphase
    obtain ⟨type, rest, n, start, len, rfl, htype, hlen, hsum, -, harmed⟩ := hphase
    have hrem := harmed.remaining
    have hpend := harmed.pending
    rw [List.length_cons] at hrem hfull
    rw [List.cons_append, parseH4_overrun htype (packetLength_append hlen [data]) (by omega)
      (by rw [List.length_append, List.length_singleton]; omega)]
    rfl
  | packetReceived => exact absurd hs hstate

/-! ### Polls -/

theorem holds_payload {s : H4Rx} {type : Byte} {rest : List Byte}
    (h : s.Holds (type :: rest)) : s.payload rest.length = rest := by
  apply List.ext_getElem?
  intro i
  rw [H4Rx.payload, List.getElem?_map]
  by_cases hi : i < rest.length
  · rw [List.getElem?_range hi, Option.map_some, List.getElem?_eq_getElem hi]
    refine congrArg some (h (1 + i) _ ?_)
    rw [Nat.add_comm, List.getElem?_cons_succ, List.getElem?_eq_getElem hi]
  · rw [List.getElem?_eq_none (by rw [List.length_range]; omega),
      List.getElem?_eq_none (by omega), Option.map_none]

/-- The packet handed over is the one received. -/
theorem bufferedPacket_eq {s : H4Rx} {type : Byte} {rest : List Byte}
    (hholds : s.Holds (type :: rest)) (hpos : s.readPos = (type :: rest).length)
    (hfits : (type :: rest).length ≤ hciPacketBufferSize) :
    s.bufferedPacket = ⟨type, rest⟩ := by
  have h258 := hciPacketBufferSize_eq
  have hbyte : s.packetByte 0 = type := hholds 0 type rfl
  rw [List.length_cons] at hpos hfits
  rw [H4Rx.bufferedPacket, hbyte, hpos, Nat.add_sub_cancel, Nat.mod_eq_of_lt (by omega),
    holds_payload hholds]

/-- What `h4_process` does to the packets and the receiver. -/
theorem h4Process_cases (handler : HandlerCall → TxState → TxState) (s : H4) :
    (s.rx.h4State ≠ .packetReceived ∧ (h4Process handler s).rx = s.rx ∧
      (h4Process handler s).handled = s.handled) ∨
    (s.rx.h4State = .packetReceived ∧ (h4Process handler s).rx = h4InitSm s.rx ∧
      (h4Process handler s).handled = s.handled ++ [s.rx.bufferedPacket]) := by
  rw [h4Process]
  by_cases htx : s.txState = .done
  · simp only [if_pos htx]
    by_cases hstate : s.rx.h4State = .packetReceived
    · rw [if_neg (not_not.mpr hstate)]
      exact Or.inr ⟨hstate, rfl, by simp [H4.handled]⟩
    · rw [if_pos hstate]
      exact Or.inl ⟨hstate, rfl, by simp [H4.handled]⟩
  · simp only [if_neg htx]
    by_cases hstate : s.rx.h4State = .packetReceived
    · rw [if_neg (not_not.mpr hstate)]
      exact Or.inr ⟨hstate, rfl, by simp [H4.handled]⟩
    · rw [if_pos hstate]
      exact Or.inl ⟨hstate, rfl, rfl⟩

theorem phase_initSm (s : H4Rx) : (h4InitSm s).Phase [] :=
  ⟨rfl, H4Rx.armed_receiveBlock rfl rfl rfl (by decide) (by decide)⟩

/-- A poll hands over the packet received, if there is one, and arms the receiver. -/
theorem RxInv.process {received : List Byte} {s : H4} {pre cur : List Byte}
    (h : RxInv received s.handled s.rx pre cur)
    (handler : HandlerCall → TxState → TxState) :
    ∃ pre' cur', RxInv received (h4Process handler s).handled (h4Process handler s).rx
      pre' cur' := by
  rcases h4Process_cases handler s with ⟨-, hrx, hhandled⟩ | ⟨hstate, hrx, hhandled⟩
  · exact ⟨pre, cur, by rw [hrx, hhandled]; exact h⟩
  · have hphase := h.phase
    rw [H4Rx.Phase, hstate] at hphase
    obtain ⟨type, rest, rfl, htype, hlen, hfits, -, hpos⟩ := hphase
    rw [hrx, hhandled, bufferedPacket_eq h.holds hpos hfits]
    refine ⟨pre ++ type :: rest, [], by rw [h.split, List.append_nil], fun more => ?_,
      fun i b hb => (by cases hb), phase_initSm s.rx⟩
    rw [List.append_assoc, h.parsed, List.cons_append,
      parseH4_packet htype hlen rfl (Nat.lt_of_succ_le hfits), Option.map_map]
    congr 1
    funext packets
    simp only [Function.comp_apply, List.append_assoc, List.singleton_append]

/-! ### Runs -/

/-- What the parser says of the bytes received: the packets handed over, then the one
that waits. -/
theorem RxInv.parse_eq {received : List Byte} {s : H4} {pre cur : List Byte}
    (h : RxInv received s.handled s.rx pre cur) :
    parseH4 received = some (s.handled ++ s.waiting) := by
  suffices hcur : parseH4 cur = some s.waiting by
    have hall := h.parse_received []
    rwa [List.append_nil, List.append_nil, hcur, Option.map_some] at hall
  have hphase := h.phase
  rw [H4Rx.Phase] at hphase
  rw [H4.waiting]
  cases hs : s.rx.h4State with
  | w4PacketType =>
    rw [hs] at hphase
    rw [hphase.1, parseH4, if_neg (by decide)]
  | w4EventHeader =>
    rw [hs] at hphase
    obtain ⟨rest, rfl, harmed⟩ := hphase
    have hrem : rest.length + 1 + s.rx.halBytesToRead = 1 + 2 := harmed.remaining
    have hpend := harmed.pending
    rw [parseH4_header (Or.inl rfl), if_neg (by decide)]
    rw [packetLength, if_pos rfl, List.getElem?_eq_none (by omega), Option.map_none]
  | w4AclHeader =>
    rw [hs] at hphase
    obtain ⟨rest, rfl, harmed⟩ := hphase
    have hrem : rest.length + 1 + s.rx.halBytesToRead = 1 + 4 := harmed.remaining
    have hpend := harmed.pending
    rw [parseH4_header (Or.inr rfl), if_neg (by decide)]
    have hshort : rest[3]? = none := List.getElem?_eq_none (by omega)
    rw [packetLength, if_neg (by decide), hshort]
    simp
  | w4Payload =>
    rw [hs] at hphase
    obtain ⟨type, rest, n, start, len, rfl, htype, hlen, hsum, hfits, harmed⟩ := hphase
    have hrem : rest.length + 1 + s.rx.halBytesToRead = start + len := harmed.remaining
    have hpend := harmed.pending
    rw [List.length_cons] at hfits
    rw [parseH4_unfinished htype hlen (by omega) (by omega), if_neg (by decide)]
  | packetReceived =>
    rw [hs] at hphase
    obtain ⟨type, rest, rfl, htype, hlen, hfits, -, hpos⟩ := hphase
    have hpacket := parseH4_packet htype hlen rfl (Nat.lt_of_succ_le hfits) []
    rw [List.append_nil, parseH4, Option.map_some] at hpacket
    rw [hpacket, if_pos rfl, bufferedPacket_eq h.holds hpos hfits]

/-- Reception is only off while a packet waits. -/
theorem RxInv.waiting_of_off {received : List Byte} {s : H4} {pre cur : List Byte}
    (h : RxInv received s.handled s.rx pre cur) (hoff : s.rx.rbr = false) :
    s.waiting ≠ [] := by
  by_cases hstate : s.rx.h4State = .packetReceived
  · rw [H4.waiting, if_pos hstate]
    exact List.cons_ne_nil _ _
  · obtain ⟨-, start, len, harmed⟩ := h.phase.armed hstate
    rw [harmed.rbr] at hoff
    cases hoff

theorem RxInv.state_of_on {received : List Byte} {done : List H4Packet} {s : H4Rx}
    {pre cur : List Byte} (h : RxInv received done s pre cur) (hon : s.rbr = true) :
    s.h4State ≠ .packetReceived := by
  intro hstate
  have hphase := h.phase
  rw [H4Rx.Phase, hstate] at hphase
  obtain ⟨-, -, -, -, -, -, hoff, -⟩ := hphase
  rw [hoff] at hon
  cases hon

/-- The receiver is inside its buffer, and in step with the parser. -/
def Receiving (received : List Byte) (s : H4) : Prop :=
  (∃ pre cur, RxInv received s.handled s.rx pre cur) ∧
    ∀ o ∈ s.rx.stores, o < hciPacketBufferSize

/-- A packet outgrew the buffer, and a store went past it. -/
def Overrun (received : List Byte) (s : H4) : Prop :=
  parseH4 received = none ∧ ∃ o ∈ s.rx.stores, hciPacketBufferSize ≤ o

theorem uart1IrqHandler_receive {iir lsr : Byte} (h : IsReceive iir lsr) (rbr : Byte)
    (s : H4Rx) : uart1IrqHandler iir lsr rbr s = receiveByte rbr s := by
  have hne : uartIirIntidRda ≠ uartIirIntidRls := by decide
  rw [uart1IrqHandler]
  rcases h with hrda | ⟨hrls, hok, hready⟩
  · rw [if_neg (by rw [hrda]; exact hne), if_pos hrda]
  · rw [if_pos hrls, if_neg (not_not.mpr hok), if_pos hready]

theorem rxStep_stores {s s' : H4} {e : RxEvent} (h : rxStep s e = some s') {o : Nat}
    (ho : o ∈ s.rx.stores) : o ∈ s'.rx.stores := by
  cases e with
  | interrupt iir lsr rbr =>
    rw [rxStep] at h
    split_ifs at h with hcond
    cases h
    rw [uart1IrqHandler_receive hcond.2]
    by_cases hzero : s.rx.halBytesToRead = 0
    · rw [receiveByte, if_pos hzero]
      exact ho
    · rw [(receiveByte_records rbr (Nat.pos_of_ne_zero hzero)).1]
      exact List.mem_append_left _ ho
  | poll handler =>
    cases h
    rcases h4Process_cases handler s with ⟨-, hrx, -⟩ | ⟨-, hrx, -⟩
    · rw [hrx]
      exact ho
    · rw [hrx]
      exact ho
  | send =>
    cases h
    exact ho

theorem receiving_step {received : List Byte} {s s' : H4} {e : RxEvent}
    (h : Receiving received s) (hstep : rxStep s e = some s') :
    Receiving (received ++ delivered [e]) s' ∨ Overrun (received ++ delivered [e]) s' := by
  obtain ⟨⟨pre, cur, hinv⟩, hstores⟩ := h
  cases e with
  | interrupt iir lsr rbr =>
    rw [rxStep] at hstep
    split_ifs at hstep with hcond
    cases hstep
    have hstate := hinv.state_of_on hcond.1
    obtain ⟨hfits, start, len, harmed⟩ := hinv.phase.armed hstate
    have hrecords := (receiveByte_records rbr harmed.pending).1
    rw [harmed.rxBufferPtr] at hrecords
    have hdelivered : delivered [.interrupt iir lsr rbr] = [rbr] := rfl
    rw [hdelivered]
    simp only [Receiving, Overrun, uart1IrqHandler_receive hcond.2, hrecords, List.mem_append,
      List.mem_singleton]
    rcases Nat.eq_or_lt_of_le hfits with hfull | hlt
    · exact Or.inr ⟨hinv.overrun hstate rbr hfull, cur.length, Or.inr rfl, Nat.le_of_eq hfull.symm⟩
    · refine Or.inl ⟨hinv.receiveByte hstate rbr hlt, fun o ho => ?_⟩
      rcases ho with hold | rfl
      · exact hstores o hold
      · exact hlt
  | poll handler =>
    cases hstep
    have hdelivered : delivered [.poll handler] = [] := rfl
    rw [hdelivered, List.append_nil]
    refine Or.inl ⟨hinv.process handler, fun o ho => hstores o ?_⟩
    rcases h4Process_cases handler s with ⟨-, hrx, -⟩ | ⟨-, hrx, -⟩
    · rwa [hrx] at ho
    · rwa [hrx] at ho
  | send =>
    cases hstep
    have hdelivered : delivered [.send] = [] := rfl
    rw [hdelivered, List.append_nil]
    exact Or.inl ⟨⟨pre, cur, hinv⟩, hstores⟩

theorem delivered_append (events more : List RxEvent) :
    delivered (events ++ more) = delivered events ++ delivered more := by
  induction events with
  | nil => rfl
  | cons e events ih =>
    cases e with
    | interrupt iir lsr rbr => rw [List.cons_append, delivered, ih, delivered, List.cons_append]
    | poll handler => rw [List.cons_append, delivered, ih, delivered]
    | send => rw [List.cons_append, delivered, ih, delivered]

/-- After every run the receiver is in step with the parser, or has left the buffer. -/
theorem rxRun_invariant {memory : H4Rx} {events : List RxEvent} {s : H4}
    (hrun : rxRun (h4Open memory) events = some s) :
    Receiving (delivered events) s ∨ Overrun (delivered events) s := by
  induction events using List.reverseRecOn generalizing s with
  | nil =>
    cases hrun
    refine Or.inl ⟨⟨[], [], rfl, fun rest => ?_, fun i b hb => (by cases hb),
      phase_initSm _⟩, fun o ho => (by cases ho)⟩
    rw [List.nil_append]
    cases parseH4 rest <;> rfl
  | append_singleton events e ih =>
    rw [rxRun, List.foldlM_append] at hrun
    obtain ⟨t, ht, hlast⟩ := Option.bind_eq_some_iff.mp hrun
    have hstep : rxStep t e = some s := by
      simpa [List.foldlM] using hlast
    rw [delivered_append]
    rcases ih ht with hrec | ⟨hnone, o, ho, hout⟩
    · exact receiving_step hrec hstep
    · exact Or.inr ⟨parseH4_none_append hnone _, o, rxStep_stores hstep ho, hout⟩

/-- The handler is called once for each complete packet, in stream order, with its type
and its bytes; what a poll finds waiting it hands over, and reception goes on. -/
theorem h4_refines_parse {memory : H4Rx} {events : List RxEvent} {s : H4}
    {stream : List Byte} {packets : List H4Packet} (hstream : H4Stream stream packets)
    (hinit : delivered events <+: stream)
    (hrun : rxRun (h4Open memory) events = some s) :
    parseH4 (delivered events) = some (s.handled ++ s.waiting) ∧
      s.handled ++ s.waiting <+: packets ∧
      (delivered events = stream → s.handled ++ s.waiting = packets) ∧
      (∀ handler, (h4Process handler s).handled = s.handled ++ s.waiting ∧
        (h4Process handler s).waiting = [] ∧ (h4Process handler s).rx.rbr = true) ∧
      (s.rx.rbr = false → s.waiting ≠ []) := by
  obtain ⟨more, rfl⟩ := hinit
  obtain ⟨first, hfirst, hle⟩ := parseH4_append hstream.parse
  rcases rxRun_invariant hrun with ⟨⟨pre, cur, hinv⟩, -⟩ | ⟨hnone, -⟩
  · have hparse := hinv.parse_eq
    have hfirst' : first = s.handled ++ s.waiting :=
      Option.some.inj (hfirst.symm.trans hparse)
    refine ⟨hparse, hfirst' ▸ hle, fun hall => ?_, fun handler => ?_, hinv.waiting_of_off⟩
    · rw [hall, hstream.parse] at hparse
      exact (Option.some.inj hparse).symm
    · have hwaiting : ∀ t : H4, t.rx.h4State ≠ .packetReceived → t.waiting = [] := fun t ht => by
        rw [H4.waiting, if_neg ht]
      rcases h4Process_cases handler s with ⟨hstate, hrx, hhandled⟩ | ⟨hstate, hrx, hhandled⟩
      · obtain ⟨-, start, len, harmed⟩ := hinv.phase.armed hstate
        rw [hwaiting s hstate, List.append_nil, hhandled, hrx]
        exact ⟨rfl, hwaiting _ (by rw [hrx]; exact hstate), harmed.rbr⟩
      · refine ⟨?_, hwaiting _ (by rw [hrx]; exact nofun), by rw [hrx]; rfl⟩
        rw [hhandled, H4.waiting, if_pos hstate]
  · rw [hfirst] at hnone
    cases hnone

/-- A receiver before `h4_open`: static storage. -/
def H4Rx.zero : H4Rx where
  h4State := .w4PacketType
  readPos := 0
  bytesToRead := 0
  hciPacket := Vector.replicate _ 0
  rxBufferPtr := 0
  halBytesToRead := 0
  rbr := false
  stores := []

/-- One receive interrupt for each byte. -/
def interrupts (bytes : List Byte) : List RxEvent :=
  bytes.map (.interrupt uartIirIntidRda 0 ·)

/-- A junk byte, an event without parameters, a poll, and the beginning of another event. -/
theorem h4_refines_parse_event :
    ∃ s, rxRun (h4Open .zero)
        (interrupts [0x99, 0x04, 0x0F, 0x00] ++ [.poll fun _ tx => tx] ++
          interrupts [0x04, 0x0E]) = some s ∧
      s.handled ++ s.waiting <+: [⟨0x04, [0x0F, 0x00]⟩, ⟨0x04, [0x0E, 0x01, 0x07]⟩] := by
  have hsome : (rxRun (h4Open .zero)
      (interrupts [0x99, 0x04, 0x0F, 0x00] ++ [.poll fun _ tx => tx] ++
        interrupts [0x04, 0x0E])).isSome := by decide +kernel
  obtain ⟨s, hs⟩ := Option.isSome_iff_exists.mp hsome
  have hstream : H4Stream [0x99, 0x04, 0x0F, 0x00, 0x04, 0x0E, 0x01, 0x07]
      [⟨0x04, [0x0F, 0x00]⟩, ⟨0x04, [0x0E, 0x01, 0x07]⟩] :=
    .skip (by decide) (by decide) (.event 0x0F 0x00 (List.length_nil)
      (@H4Stream.event 0x0E 0x01 [0x07] [] [] rfl .nil))
  exact ⟨s, hs, (h4_refines_parse hstream (by decide) hs).2.1⟩

/-- Every store lands in the buffer exactly when no packet goes on past its end. -/
theorem h4_stores_inBounds_iff {memory : H4Rx} {events : List RxEvent} {s : H4}
    (hrun : rxRun (h4Open memory) events = some s) :
    (∀ o ∈ s.rx.stores, o < hciPacketBufferSize) ↔ parseH4 (delivered events) ≠ none := by
  rcases rxRun_invariant hrun with ⟨⟨pre, cur, hinv⟩, hstores⟩ | ⟨hnone, o, ho, hout⟩
  · refine ⟨fun _ => ?_, fun _ => hstores⟩
    rw [hinv.parse_eq]
    exact Option.some_ne_none _
  · exact ⟨fun hin => absurd (hin o ho) (Nat.not_lt_of_le hout), fun h => absurd hnone h⟩

theorem h4_stores_inBounds_event :
    ∃ s, rxRun (h4Open .zero) (interrupts [0x04, 0x0F, 0x00]) = some s ∧
      ∀ o ∈ s.rx.stores, o < hciPacketBufferSize := by
  have hsome : (rxRun (h4Open .zero) (interrupts [0x04, 0x0F, 0x00])).isSome := by
    decide +kernel
  obtain ⟨s, hs⟩ := Option.isSome_iff_exists.mp hsome
  refine ⟨s, hs, (h4_stores_inBounds_iff hs).mpr ?_⟩
  have hstream : H4Stream [0x04, 0x0F, 0x00] [⟨0x04, [0x0F, 0x00]⟩] :=
    @H4Stream.event 0x0F 0x00 [] [] [] rfl .nil
  have hdelivered : delivered (interrupts [0x04, 0x0F, 0x00]) = [0x04, 0x0F, 0x00] := rfl
  rw [hdelivered, hstream.parse]
  exact Option.some_ne_none _

/-- An ACL packet of 254 bytes stores its last byte behind the buffer. -/
theorem h4_acl_254_overruns :
    ∃ s, rxRun (h4Open .zero)
        (interrupts ([0x02, 0x00, 0x00, 0xFE, 0x00] ++ List.replicate 254 0x00)) = some s ∧
      258 ∈ s.rx.stores ∧ ¬ 258 < hciPacketBufferSize := by
  have hrun : ((rxRun (h4Open .zero) (interrupts
      ([0x02, 0x00, 0x00, 0xFE, 0x00] ++ List.replicate 254 0x00))).map
        fun s => decide (258 ∈ s.rx.stores)) = some true := by decide +kernel
  obtain ⟨s, hs, hmem⟩ := Option.map_eq_some_iff.mp hrun
  exact ⟨s, hs, of_decide_eq_true hmem, by decide⟩

end EbnAnchor.Stack
