import EbnAnchor.Drivers.Sd
import Mathlib.Data.List.TakeWhile

/-!
Who owns chip select, and how long each destination is.

`cardAnswer` and `dataResponse` find the two bytes of the card that decide how a call goes.
`sdCommand_cases` is what a command does with them; `sdReadBlock_ends` and `sdWriteBlock_ends`
what the block functions do.
-/

namespace EbnAnchor.Drivers

/-! ### What the card answers -/

/-- A byte that ends the wait for a response. -/
def isResponse (b : Byte) : Bool := b &&& 0x80 = 0

theorem isResponse_iff {b : Byte} : isResponse b = true ↔ b &&& 0x80 = 0 := decide_eq_true_iff

/-- The first response among the bytes `sd_command` waits for. -/
def cardAnswer (card : List Byte) : Option Byte :=
  ((card.drop 6).take sdMaxRespTries).find? isResponse

/-- The bytes behind the answer. -/
def afterAnswer (card : List Byte) : List Byte :=
  ((card.drop 6).dropWhile fun b => !isResponse b).drop 1

/-- The bytes behind the first that is not busy. -/
def afterBusy (card : List Byte) : List Byte := (card.dropWhile (· = 0)).drop 1

/-- The card takes the command. -/
def CardAccepts (card : List Byte) : Prop := cardAnswer card = some 0x00

/-- `sd_command` goes on after the answer. -/
def CardAnswers (index : Byte) (card : List Byte) : Prop :=
  ∃ b, cardAnswer card = some b ∧ ¬ (index = 0 ∧ b &&& 0x01 = 0)

/-- The byte the card returns behind the block and its CRC. -/
def dataResponse (card : List Byte) : Option Byte :=
  (afterBusy (afterAnswer card))[1 + 1 + sdBlockLen + 2]?

/-- The card takes the data. -/
def DataAccepted (card : List Byte) : Prop :=
  ∃ b, dataResponse card = some b ∧ (b &&& 0xE) >>> 1 = 0x2

/-! ### What a step leaves -/

/-- The transfers were issued, and chip select was left as it was. -/
structure Issues (s s' : Sd) (ts : List Transfer) : Prop where
  csHigh_eq : s'.csHigh = s.csHigh
  transfers_eq : s'.transfers = s.transfers ++ ts

variable {s t u : Sd} {ts us : List Transfer} {p : Pointer}

theorem Issues.refl (s : Sd) : Issues s s [] := ⟨rfl, (List.append_nil _).symm⟩

theorem Issues.trans (h : Issues s t ts) (h' : Issues t u us) : Issues s u (ts ++ us) where
  csHigh_eq := h'.csHigh_eq.trans h.csHigh_eq
  transfers_eq := by rw [h'.transfers_eq, h.transfers_eq, List.append_assoc]

theorem write_read (p : Pointer) (b : Byte) (s : Sd) : (s.write p b).read p = b := by
  simp [Sd.read, Sd.write, Sd.store]

theorem issues_transferred (s : Sd) : Issues s s.transferred [s.dataCfg.transfer] := by
  unfold Sd.transferred
  cases s.dataCfg.rxData with
  | none => exact ⟨rfl, rfl⟩
  | some p => exact ⟨rfl, rfl⟩

theorem sspReadWrite_eq_some (h : sspReadWrite s = some t) :
    s.dataCfg.length ≤ s.incoming.length ∧ t = s.transferred := by
  unfold sspReadWrite at h
  split at h
  · next hle => exact ⟨hle, (Option.some.inj h).symm⟩
  · cases h

@[simp] theorem transferred_incoming (s : Sd) :
    s.transferred.incoming = s.incoming.drop s.dataCfg.length := rfl

@[simp] theorem transferred_dataCfg (s : Sd) : s.transferred.dataCfg = s.dataCfg := by
  unfold Sd.transferred
  cases s.dataCfg.rxData with
  | none => rfl
  | some p => rfl

/-- The polling loop takes the bytes the transfer does, whatever the rounds they arrive in. -/
theorem sspReadWrite_of_polling {rounds : List SspRound} {ret : SspReturn}
    (hcard : s.incoming = rounds.flatMap SspRound.arrived)
    (hfine : ∀ round ∈ rounds, round.overrun = false)
    (h : sspReadWritePolling s.dataCfg.length rounds = some ret) :
    sspReadWrite s = some s.transferred ∧ ret.received = s.incoming.take s.dataCfg.length := by
  obtain ⟨hreceived, hle⟩ := sspReadWritePolling_received hfine h
  rw [← hcard] at hreceived hle
  exact ⟨if_pos hle, hreceived⟩

/-- A transfer stores into its destination only, from its offset on. -/
theorem transferred_read_of_ne (h : ∀ q, s.dataCfg.rxData = some q →
    p.object = q.object → p.offset < q.offset) : s.transferred.read p = s.read p := by
  unfold Sd.transferred Sd.read
  cases hrx : s.dataCfg.rxData with
  | none => rfl
  | some q =>
    have hout : ¬ (p.object = q.object ∧ q.offset ≤ p.offset) := fun ⟨hsame, hle⟩ =>
      Nat.not_le_of_lt (h q hrx hsame) hle
    exact if_neg hout

/-- The first byte of a transfer. -/
theorem transferred_read (hrx : s.dataCfg.rxData = some p) {b : Byte} {rest : List Byte}
    (hin : s.incoming = b :: rest) (hlen : 0 < s.dataCfg.length) :
    s.transferred.read p = b := by
  obtain ⟨n, hn⟩ : ∃ n, s.dataCfg.length = n + 1 := ⟨_, (Nat.succ_pred_eq_of_pos hlen).symm⟩
  have hat : (s.store p (b :: rest.take n)).read p = b := by
    simp [Sd.read, Sd.store]
  unfold Sd.transferred
  rw [hrx, hin, hn, List.take_succ_cons]
  exact hat

/-! ### Waiting -/

/-- A transfer of one byte. -/
def byteTransfer (p : Pointer) : Transfer := ⟨[0xFF], some p, 1⟩

theorem sspWhile_issues {wait : Byte → Bool} {fuel : Nat} (h : sspWhile wait p fuel s = some t) :
    ∃ k, (wait (s.read p) = true → 0 < k) ∧
      Issues s t (List.replicate k s.dataCfg.transfer) := by
  induction fuel generalizing s with
  | zero => cases h
  | succ fuel ih =>
    unfold sspWhile at h
    split at h
    · obtain ⟨u, hread, hrest⟩ := Option.bind_eq_some_iff.mp h
      obtain ⟨-, rfl⟩ := sspReadWrite_eq_some hread
      obtain ⟨k, -, hk⟩ := ih hrest
      rw [transferred_dataCfg] at hk
      exact ⟨k + 1, fun _ => Nat.succ_pos k, (issues_transferred s).trans hk⟩
    · next hstop =>
      cases h
      exact ⟨0, fun hwait => absurd hwait hstop, .refl _⟩

/-- A wait that ends, ends before the bytes of the card run out: fuel for those is enough. -/
theorem sspWhile_returns {wait : Byte → Bool} {fuel enough : Nat} (hlen : 0 < s.dataCfg.length)
    (h : sspWhile wait p fuel s = some t) (henough : s.incoming.length < enough) :
    sspWhile wait p enough s = some t := by
  induction fuel generalizing s enough with
  | zero => cases h
  | succ fuel ih =>
    obtain ⟨n, rfl⟩ : ∃ n, enough = n + 1 := ⟨enough - 1, by omega⟩
    unfold sspWhile at h ⊢
    split at h
    · next hwait =>
      obtain ⟨u, hread, hrest⟩ := Option.bind_eq_some_iff.mp h
      obtain ⟨hle, rfl⟩ := sspReadWrite_eq_some hread
      rw [if_pos hwait, hread, Option.bind_some]
      refine ih (by rwa [transferred_dataCfg]) hrest ?_
      rw [transferred_incoming, List.length_drop]
      omega
    · next hstop =>
      rw [if_neg hstop]
      exact h

/-- What is not waited on is left alone. -/
theorem sspWhile_read_of_ne {wait : Byte → Bool} {fuel : Nat} {q : Pointer}
    (hrx : s.dataCfg.rxData = some p) (hne : q.object ≠ p.object)
    (h : sspWhile wait p fuel s = some t) : t.read q = s.read q := by
  induction fuel generalizing s with
  | zero => cases h
  | succ fuel ih =>
    unfold sspWhile at h
    split at h
    · obtain ⟨u, hread, hrest⟩ := Option.bind_eq_some_iff.mp h
      obtain ⟨-, rfl⟩ := sspReadWrite_eq_some hread
      rw [ih (by rwa [transferred_dataCfg]) hrest]
      refine transferred_read_of_ne fun r hr hsame => ?_
      cases hrx.symm.trans hr
      exact absurd hsame hne
    · cases h
      rfl

/-- The bytes waited for are gone, and the one that ended the wait. -/
theorem sspWhile_incoming {wait : Byte → Bool} {fuel : Nat} (hrx : s.dataCfg.rxData = some p)
    (hlen : s.dataCfg.length = 1) (hwait : wait (s.read p) = true)
    (h : sspWhile wait p fuel s = some t) :
    t.incoming = (s.incoming.dropWhile wait).drop 1 := by
  induction fuel generalizing s with
  | zero => cases h
  | succ fuel ih =>
    unfold sspWhile at h
    rw [if_pos hwait] at h
    obtain ⟨u, hread, hrest⟩ := Option.bind_eq_some_iff.mp h
    obtain ⟨hle, rfl⟩ := sspReadWrite_eq_some hread
    rw [hlen] at hle
    obtain ⟨b, rest, hin⟩ := List.exists_cons_of_length_pos hle
    have hb : s.transferred.read p = b := transferred_read hrx hin (by omega)
    have hleft : s.transferred.incoming = rest := by
      rw [transferred_incoming, hlen, hin, List.drop_one, List.tail_cons]
    by_cases hagain : wait b = true
    · rw [ih (by rwa [transferred_dataCfg]) (by rwa [transferred_dataCfg]) (by rwa [hb]) hrest,
        hleft, hin, List.dropWhile_cons_of_pos hagain]
    · rw [hin, List.dropWhile_cons_of_neg hagain, List.drop_one, List.tail_cons, ← hleft]
      cases fuel with
      | zero => cases hrest
      | succ fuel =>
        unfold sspWhile at hrest
        rw [hb, if_neg hagain] at hrest
        cases hrest
        rfl

/-- Waiting for the busy flag takes the bytes up to the first that is not busy. -/
theorem waitBusy_ends (h : waitBusy p s = some t) :
    (∃ k, Issues s t (List.replicate k (byteTransfer p))) ∧ t.incoming = afterBusy s.incoming ∧
      ∀ q : Pointer, q.object ≠ p.object → t.read q = s.read q := by
  let start := dataStructConfig none (some p) 1 (s.write p 0)
  have hrun : sspWhile (fun b => decide (b = 0)) p (s.incoming.length + 1) start = some t := h
  have hbusy : decide (start.read p = 0) = true := decide_eq_true (write_read p 0 s)
  have hrx : start.dataCfg.rxData = some p := rfl
  refine ⟨?_, sspWhile_incoming (s := start) hrx rfl hbusy hrun, fun q hne => ?_⟩
  · obtain ⟨k, -, hk⟩ := sspWhile_issues hrun
    exact ⟨k, hk.csHigh_eq, hk.transfers_eq⟩
  · rw [sspWhile_read_of_ne (s := start) hrx hne hrun]
    exact if_neg fun hin => hne hin.1

/-! ### Commands -/

/-- A transfer of one byte takes the next byte of the card. -/
theorem readByte_ends (h : sspReadWrite (dataStructConfig none (some p) 1 s) = some t) :
    ∃ b, s.incoming = b :: t.incoming ∧ t.read p = b ∧ Issues s t [byteTransfer p] := by
  obtain ⟨hle, rfl⟩ := sspReadWrite_eq_some h
  have hpos : 0 < s.incoming.length := hle
  obtain ⟨b, rest, hin⟩ := List.exists_cons_of_length_pos hpos
  have hleft : (dataStructConfig none (some p) 1 s).transferred.incoming = rest := by
    rw [transferred_incoming]
    exact (congrArg (List.drop 1) hin).trans rfl
  have hissues := issues_transferred (dataStructConfig none (some p) 1 s)
  refine ⟨b, hin.trans (congrArg (b :: ·) hleft.symm), ?_, hissues.csHigh_eq,
    hissues.transfers_eq⟩
  exact transferred_read rfl hin Nat.one_pos

/-- The response is the first byte without the stop bit, if there is one in time. -/
theorem readResponse_ends {tries : Nat} (hstop : s.read p &&& 0x80 ≠ 0)
    (h : readResponse p tries s = some t) :
    (∃ k, (0 < tries → 0 < k) ∧ Issues s t (List.replicate k (byteTransfer p))) ∧
    ((s.incoming.take tries).find? isResponse = none → t.read p &&& 0x80 ≠ 0) ∧
    ∀ b, (s.incoming.take tries).find? isResponse = some b →
      t.read p = b ∧ t.incoming = (s.incoming.dropWhile fun b => !isResponse b).drop 1 := by
  induction tries generalizing s with
  | zero =>
    cases h
    exact ⟨⟨0, id, .refl _⟩, fun _ => hstop, fun b hb => by cases hb⟩
  | succ tries ih =>
    unfold readResponse at h
    rw [if_pos hstop] at h
    obtain ⟨u, hread, hrest⟩ := Option.bind_eq_some_iff.mp h
    obtain ⟨b, hin, hb, hissues⟩ := readByte_ends hread
    rw [hin, List.take_succ_cons]
    by_cases hfound : isResponse b = true
    · -- The loop ends here, however many tries are left.
      have hend : u = t := by
        cases tries with
        | zero => exact Option.some.inj hrest
        | succ tries =>
          unfold readResponse at hrest
          rw [hb, if_neg (not_not.mpr (isResponse_iff.mp hfound))] at hrest
          exact Option.some.inj hrest
      subst hend
      rw [List.find?_cons_of_pos hfound]
      refine ⟨⟨1, fun _ => Nat.one_pos, hissues⟩, fun hnone => absurd hnone (Option.some_ne_none b),
        fun c hc => ?_⟩
      cases hc
      refine ⟨hb, ?_⟩
      rw [List.dropWhile_cons_of_neg (by simpa using hfound)]
      rfl
    · have hstop : u.read p &&& 0x80 ≠ 0 := fun hzero =>
        hfound (isResponse_iff.mpr (hb ▸ hzero))
      obtain ⟨⟨k, -, hk⟩, hnone, hsome⟩ := ih hstop hrest
      rw [List.find?_cons_of_neg hfound]
      refine ⟨⟨k + 1, fun _ => Nat.succ_pos k, hissues.trans hk⟩, hnone, fun c hc => ?_⟩
      obtain ⟨hc, hleft⟩ := hsome c hc
      refine ⟨hc, hleft.trans ?_⟩
      rw [List.dropWhile_cons_of_pos (by simpa using hfound)]

/-- The six bytes of a command; what the card returns meanwhile is not read. -/
def commandTransfer (index a1 a2 a3 a4 crc : Byte) : Transfer :=
  ⟨[0b01000000 ||| index, a1, a2, a3, a4, crc], none, 6⟩

/-- The transfer behind the answer. -/
def restTransfer (p : Pointer) (responseLen : BitVec 16) : Transfer :=
  ⟨List.replicate responseLen.toNat 0xFF, some (p.add 1), responseLen.toNat⟩

variable {index a1 a2 a3 a4 crc : Byte} {responseLen : BitVec 16}

/-- A command ends with the polls when there is no answer to go on with; otherwise the rest of
the response and the wait for the busy flag follow. -/
theorem sdCommand_cases (h : sdCommand index a1 a2 a3 a4 crc p responseLen s = some t) :
    ∃ polled k, 0 < k ∧
      Issues s polled (commandTransfer index a1 a2 a3 a4 crc :: List.replicate k (byteTransfer p)) ∧
      (cardAnswer s.incoming = none → polled.read p &&& 0x80 ≠ 0) ∧
      (∀ b, cardAnswer s.incoming = some b →
        polled.read p = b ∧ polled.incoming = afterAnswer s.incoming) ∧
      ((¬ CardAnswers index s.incoming ∧ t = polled) ∨
        (CardAnswers index s.incoming ∧ ∃ rested, readRest p responseLen polled = some rested ∧
          waitBusy ⟨.commandRx, 0⟩ rested = some t)) := by
  obtain ⟨commanded, hsend, hafter⟩ := Option.bind_eq_some_iff.mp h
  obtain ⟨polled, hpoll, hend⟩ := Option.bind_eq_some_iff.mp hafter
  obtain ⟨-, rfl⟩ := sspReadWrite_eq_some hsend
  generalize hcommanded : (dataStructConfig (some [0b01000000 ||| index, a1, a2, a3, a4, crc]) none
    6 (s.store p (List.replicate responseLen.toNat 0))).transferred = commanded at hpoll
  have hin : commanded.incoming = s.incoming.drop 6 := by
    subst hcommanded
    rfl
  have hissues : Issues s commanded [commandTransfer index a1 a2 a3 a4 crc] := by
    subst hcommanded
    exact ⟨rfl, rfl⟩
  have hstop : (commanded.write p 0xFF).read p &&& 0x80 ≠ 0 := by
    rw [write_read]
    decide
  obtain ⟨⟨k, hk, hpolls⟩, hnone, hsome⟩ := readResponse_ends hstop hpoll
  have hwritten : (commanded.write p 0xFF).incoming = s.incoming.drop 6 := hin
  rw [hwritten] at hnone hsome
  refine ⟨polled, k, hk (by decide), ?_, hnone, hsome, ?_⟩
  · exact hissues.trans ⟨hpolls.csHigh_eq, hpolls.transfers_eq⟩
  · cases hanswer : cardAnswer s.incoming with
    | none =>
      have hno : ¬ CardAnswers index s.incoming := fun ⟨b, hb, _⟩ => by
        rw [hanswer] at hb
        cases hb
      rw [if_pos (Or.inl (hnone hanswer))] at hend
      exact Or.inl ⟨hno, (Option.some.inj hend).symm⟩
    | some b =>
      obtain ⟨hb, -⟩ := hsome b hanswer
      have hseven : b &&& 0x80 = 0 := isResponse_iff.mp (List.find?_some hanswer)
      rw [hb] at hend
      by_cases hidle : index = 0 ∧ b &&& 0x01 = 0
      · have hno : ¬ CardAnswers index s.incoming := fun ⟨c, hc, hgo⟩ => by
          cases hanswer.symm.trans hc
          exact hgo hidle
        rw [if_pos (Or.inr hidle)] at hend
        exact Or.inl ⟨hno, (Option.some.inj hend).symm⟩
      · have hgo : ¬ (b &&& 0x80 ≠ 0 ∨ (index = 0 ∧ b &&& 0x01 = 0)) := by
          rintro (hbit | hboth)
          · exact hbit hseven
          · exact hidle hboth
        rw [if_neg hgo] at hend
        exact Or.inr ⟨⟨b, hanswer, hidle⟩, Option.bind_eq_some_iff.mp hend⟩

/-! ### Destinations -/

/-- Every transfer has room for what it stores. -/
def AllFit (ts : List Transfer) : Prop := ∀ t ∈ ts, t.Fits

instance (ts : List Transfer) : Decidable (AllFit ts) :=
  inferInstanceAs (Decidable (∀ t ∈ ts, t.Fits))

theorem allFit_append : AllFit (ts ++ us) ↔ AllFit ts ∧ AllFit us := List.forall_mem_append

theorem allFit_cons {t : Transfer} : AllFit (t :: ts) ↔ t.Fits ∧ AllFit ts :=
  List.forall_mem_cons

theorem allFit_replicate {k : Nat} {t : Transfer} (h : t.Fits) :
    AllFit (List.replicate k t) := fun u hu => by
  rw [List.eq_of_mem_replicate hu]
  exact h

theorem allFit_replicate_iff {k : Nat} {t : Transfer} (hk : 0 < k) :
    AllFit (List.replicate k t) ↔ t.Fits :=
  ⟨fun h => h t (List.mem_replicate.mpr ⟨Nat.ne_of_gt hk, rfl⟩), allFit_replicate⟩

theorem fits_of_none {t : Transfer} (h : t.destination = none) : t.Fits := fun p hp => by
  rw [h] at hp
  cases hp

theorem fits_iff {sent : List Byte} {length : Nat} :
    Transfer.Fits ⟨sent, some p, length⟩ ↔ p.offset + length ≤ p.object.size :=
  ⟨fun h => h p rfl, fun h q hq => by cases hq; exact h⟩

theorem byteTransfer_fits_iff : (byteTransfer p).Fits ↔ p.offset + 1 ≤ p.object.size := fits_iff

/-- A byte at a time fits into `rx`. -/
theorem allFit_bytes {object : SdObject} (h : object.size = 1) (k : Nat) :
    AllFit (List.replicate k (byteTransfer ⟨object, 0⟩)) :=
  allFit_replicate (byteTransfer_fits_iff.mpr (Nat.le_of_eq h.symm))

/-- A command stores one byte at a time into the response, and when it goes on after the
answer, as many bytes behind the first as the response has altogether. -/
theorem sdCommand_fits (h : sdCommand index a1 a2 a3 a4 crc p responseLen s = some t) :
    ∃ ts, Issues s t ts ∧ (AllFit ts ↔ p.offset + 1 ≤ p.object.size ∧
      (CardAnswers index s.incoming → 1 < responseLen.toNat →
        p.offset + 1 + responseLen.toNat ≤ p.object.size)) := by
  obtain ⟨polled, k, hk, hpolled, -, -, hend⟩ := sdCommand_cases h
  have hpolls : AllFit (commandTransfer index a1 a2 a3 a4 crc :: List.replicate k (byteTransfer p))
      ↔ p.offset + 1 ≤ p.object.size := by
    rw [allFit_cons, allFit_replicate_iff hk, byteTransfer_fits_iff]
    exact and_iff_right (fits_of_none rfl)
  rcases hend with ⟨hno, rfl⟩ | ⟨hgo, rested, hrest, hbusy⟩
  · refine ⟨_, hpolled, hpolls.trans ?_⟩
    exact ⟨fun hfits => ⟨hfits, fun hgo => absurd hgo hno⟩, And.left⟩
  · obtain ⟨⟨j, hwait⟩, -, -⟩ := waitBusy_ends hbusy
    have hwaits : AllFit (List.replicate j (byteTransfer ⟨.commandRx, 0⟩)) := allFit_bytes rfl j
    unfold readRest at hrest
    split at hrest
    · next hlong =>
      obtain ⟨-, rfl⟩ := sspReadWrite_eq_some hrest
      have hissues := issues_transferred
        (dataStructConfig none (some (p.add 1)) responseLen.toNat polled)
      have hlast : Issues polled _ [restTransfer p responseLen] :=
        ⟨hissues.csHigh_eq, hissues.transfers_eq⟩
      refine ⟨_, (hpolled.trans hlast).trans hwait, ?_⟩
      rw [allFit_append, allFit_append, hpolls, allFit_cons, restTransfer, fits_iff]
      constructor
      · rintro ⟨⟨hfirst, hrest, -⟩, -⟩
        exact ⟨hfirst, fun _ _ => hrest⟩
      · rintro ⟨hfirst, hrest⟩
        exact ⟨⟨hfirst, hrest hgo hlong, fun u hu => absurd hu List.not_mem_nil⟩, hwaits⟩
    · next hshort =>
      cases hrest
      refine ⟨_, hpolled.trans hwait, ?_⟩
      rw [allFit_append, hpolls]
      constructor
      · rintro ⟨hfirst, -⟩
        exact ⟨hfirst, fun _ hlong => absurd hlong hshort⟩
      · rintro ⟨hfirst, -⟩
        exact ⟨hfirst, hwaits⟩

/-! ### Blocks -/

variable {blockNum : Word}

/-- The command of a block function leaves chip select low, and `rx` zero exactly when the card
accepts. -/
theorem blockCommand_ends (hindex : index ≠ 0) (h : blockCommand index blockNum s = some t) :
    t.csHigh = false ∧ (∃ ts, t.transfers = s.transfers ++ ts ∧ AllFit ts) ∧
      (t.read ⟨.rx, 0⟩ = 0x00 ↔ CardAccepts s.incoming) ∧
      (CardAccepts s.incoming → t.incoming = afterBusy (afterAnswer s.incoming)) := by
  unfold blockCommand at h
  obtain ⟨ts, hissues, hfits⟩ := sdCommand_fits h
  have hall : AllFit ts := hfits.mpr ⟨Nat.le_refl 1, fun _ hlong => absurd hlong (by decide)⟩
  refine ⟨hissues.csHigh_eq, ⟨ts, hissues.transfers_eq, hall⟩, ?_⟩
  obtain ⟨polled, -, -, -, hnone, hsome, hend⟩ := sdCommand_cases h
  have hin : (Sd.setCs false (s.write ⟨.rx, 0⟩ 0xFF)).incoming = s.incoming := rfl
  rw [hin] at hnone hsome hend
  unfold CardAccepts
  rcases hend with ⟨hno, rfl⟩ | ⟨⟨b, hb, -⟩, rested, hrest, hbusy⟩
  · have hanswer : cardAnswer s.incoming = none := by
      cases hfound : cardAnswer s.incoming with
      | none => rfl
      | some b => exact absurd ⟨b, hfound, fun hboth => hindex hboth.1⟩ hno
    have hne : t.read ⟨.rx, 0⟩ ≠ 0 := fun hzero => hnone hanswer (by rw [hzero]; rfl)
    rw [hanswer]
    exact ⟨⟨fun hzero => absurd hzero hne, fun hzero => by cases hzero⟩,
      fun hzero => by cases hzero⟩
  · have hsame : rested = polled := by
      unfold readRest at hrest
      rw [if_neg (by decide)] at hrest
      exact (Option.some.inj hrest).symm
    subst hsame
    obtain ⟨-, hleft, hkept⟩ := waitBusy_ends hbusy
    obtain ⟨hread, hanswered⟩ := hsome b hb
    have hobj : SdObject.rx ≠ SdObject.commandRx := by decide
    rw [hkept ⟨.rx, 0⟩ hobj, hread, hb, hleft, hanswered]
    exact ⟨⟨congrArg some, Option.some.inj⟩, fun _ => rfl⟩

/-- A transfer without a destination. -/
theorem sspSend_ends {txData : Option (List Byte)} {n : Nat} (h : sspSend txData n s = some t) :
    t.incoming = s.incoming.drop n ∧ ∃ ts, Issues s t ts ∧ AllFit ts := by
  obtain ⟨-, rfl⟩ := sspReadWrite_eq_some h
  have hissues := issues_transferred (dataStructConfig txData none n s)
  refine ⟨rfl, _, ⟨hissues.csHigh_eq, hissues.transfers_eq⟩, ?_⟩
  exact allFit_cons.mpr ⟨fits_of_none rfl, fun u hu => absurd hu List.not_mem_nil⟩

/-- A transfer of the wait for the data token. -/
def tokenTransfer : Transfer := ⟨List.replicate 10 0xFF, some ⟨.rx, 0⟩, 10⟩

/-- The wait for the data token stores ten bytes at a time into `rx`, so a read fits only when
the card refuses it, and then chip select stays low. -/
theorem sdReadBlock_ends {rc : Byte} (h : sdReadBlock blockNum s = some (rc, t)) :
    (t.csHigh = true ↔ CardAccepts s.incoming) ∧
      ∃ ts, t.transfers = s.transfers ++ ts ∧ (AllFit ts ↔ ¬ CardAccepts s.incoming) := by
  obtain ⟨asked, hask, hrest⟩ := Option.bind_eq_some_iff.mp h
  obtain ⟨hlow, ⟨ts, hts, hfits⟩, hzero, -⟩ := blockCommand_ends (by decide) hask
  split at hrest
  · next hrefused =>
    cases hrest
    have hno : ¬ CardAccepts s.incoming := fun hyes => hrefused (hzero.mpr hyes)
    refine ⟨⟨fun hhigh => ?_, fun hyes => absurd hyes hno⟩, ts, hts, iff_of_true hfits hno⟩
    rw [hlow] at hhigh
    cases hhigh
  · next htaken =>
    have hyes : CardAccepts s.incoming := hzero.mp (not_not.mp htaken)
    obtain ⟨tokened, htoken, hrest⟩ := Option.bind_eq_some_iff.mp hrest
    obtain ⟨filled, hblock, hrest⟩ := Option.bind_eq_some_iff.mp hrest
    obtain ⟨checked, hcrc, hrest⟩ := Option.bind_eq_some_iff.mp hrest
    obtain ⟨ready, hready, hend⟩ := Option.map_eq_some_iff.mp hrest
    cases hend
    -- The wait makes one transfer at least, as `rx` starts as `0xFF`.
    obtain ⟨k, hk, htokens⟩ := sspWhile_issues htoken
    have hstart : (asked.write ⟨.rx, 0⟩ 0xFF).read ⟨.rx, 0⟩ ≠ 0b11111110 := by
      rw [write_read]
      decide
    have hone : 0 < k := hk (decide_eq_true hstart)
    have hwait : Issues asked tokened (List.replicate k tokenTransfer) :=
      ⟨htokens.csHigh_eq, htokens.transfers_eq⟩
    obtain ⟨-, rfl⟩ := sspReadWrite_eq_some hblock
    have hblocks := issues_transferred
      (dataStructConfig none (some ⟨.block, 0⟩) sdBlockLen tokened)
    have hfill : Issues tokened _ _ := ⟨hblocks.csHigh_eq, hblocks.transfers_eq⟩
    obtain ⟨-, vs, hvs, -⟩ := sspSend_ends hcrc
    obtain ⟨-, ws, hws, -⟩ := sspSend_ends hready
    have hall := (((hwait.trans hfill).trans hvs).trans hws).transfers_eq
    rw [hts, List.append_assoc] at hall
    refine ⟨iff_of_true rfl hyes, _, hall, iff_of_false ?_ (not_not.mpr hyes)⟩
    intro hfit
    have htoken : tokenTransfer.Fits := (allFit_replicate_iff hone).mp
      (allFit_append.mp (allFit_append.mp (allFit_append.mp (allFit_append.mp hfit).2).1).1).1
    exact absurd (htoken ⟨.rx, 0⟩ rfl) (by decide)

/-- The data response is the byte that comes when the block and its CRC have gone out. -/
theorem dataAccepted_iff {card rest : List Byte} {b : Byte}
    (h : (afterBusy (afterAnswer card)).drop (1 + 1 + sdBlockLen + 2) = b :: rest) :
    DataAccepted card ↔ (b &&& 0xE) >>> 1 = 0x2 := by
  have hresponse : dataResponse card = some b := by
    have hhead : ((afterBusy (afterAnswer card)).drop (1 + 1 + sdBlockLen + 2))[0]? =
        dataResponse card := List.getElem?_drop
    rw [h] at hhead
    exact hhead.symm
  unfold DataAccepted
  rw [hresponse]
  constructor
  · rintro ⟨c, hc, hok⟩
    cases hc
    exact hok
  · intro hok
    exact ⟨b, rfl, hok⟩

/-- A write fits always; it leaves chip select high when the card takes the command and the
data. -/
theorem sdWriteBlock_ends {rc : Byte} (h : sdWriteBlock blockNum s = some (rc, t)) :
    (t.csHigh = true ↔ CardAccepts s.incoming ∧ DataAccepted s.incoming) ∧
      ∃ ts, t.transfers = s.transfers ++ ts ∧ AllFit ts := by
  obtain ⟨asked, hask, hrest⟩ := Option.bind_eq_some_iff.mp h
  obtain ⟨hlow, ⟨ts, hts, hfits⟩, hzero, hleft⟩ := blockCommand_ends (by decide) hask
  split at hrest
  · next hrefused =>
    cases hrest
    have hno : ¬ CardAccepts s.incoming := fun hyes => hrefused (hzero.mpr hyes)
    refine ⟨⟨fun hhigh => ?_, fun hyes => absurd hyes.1 hno⟩, ts, hts, hfits⟩
    rw [hlow] at hhigh
    cases hhigh
  · next htaken =>
    have hyes : CardAccepts s.incoming := hzero.mp (not_not.mp htaken)
    obtain ⟨ticked, htick, hrest⟩ := Option.bind_eq_some_iff.mp hrest
    obtain ⟨tokened, htoken, hrest⟩ := Option.bind_eq_some_iff.mp hrest
    obtain ⟨written, hdata, hrest⟩ := Option.bind_eq_some_iff.mp hrest
    obtain ⟨checked, hcrc, hrest⟩ := Option.bind_eq_some_iff.mp hrest
    obtain ⟨answered, hanswer, hrest⟩ := Option.bind_eq_some_iff.mp hrest
    obtain ⟨hone, us, hus, hufit⟩ := sspSend_ends htick
    obtain ⟨htwo, vs, hvs, hvfit⟩ := sspSend_ends htoken
    obtain ⟨hthree, ws, hws, hwfit⟩ := sspSend_ends hdata
    obtain ⟨hfour, xs, hxs, hxfit⟩ := sspSend_ends hcrc
    obtain ⟨b, hin, hb, hbyte⟩ := readByte_ends hanswer
    have hissues := (((hus.trans hvs).trans hws).trans hxs).trans hbyte
    have hfit : AllFit ((((us ++ vs) ++ ws) ++ xs) ++ [byteTransfer ⟨.rx, 0⟩]) := by
      rw [allFit_append, allFit_append, allFit_append, allFit_append]
      exact ⟨⟨⟨⟨hufit, hvfit⟩, hwfit⟩, hxfit⟩, allFit_bytes rfl 1⟩
    have hsent : checked.incoming = asked.incoming.drop (1 + 1 + sdBlockLen + 2) := by
      rw [hfour, hthree, htwo, hone, List.drop_drop, List.drop_drop, List.drop_drop]
      rfl
    rw [hsent, hleft hyes] at hin
    have haccepted := dataAccepted_iff hin
    rw [hb] at hrest
    split at hrest
    · next hrejected =>
      cases hrest
      refine ⟨⟨fun hhigh => ?_, fun hboth => absurd (haccepted.mp hboth.2) hrejected⟩, _, ?_,
        allFit_append.mpr ⟨hfits, hfit⟩⟩
      · rw [hissues.csHigh_eq, hlow] at hhigh
        cases hhigh
      · rw [hissues.transfers_eq, hts, List.append_assoc]
    · next hstored =>
      have hok : DataAccepted s.incoming := haccepted.mpr (not_not.mp hstored)
      obtain ⟨released, hbusy, hrest⟩ := Option.bind_eq_some_iff.mp hrest
      obtain ⟨ready, hready, hend⟩ := Option.map_eq_some_iff.mp hrest
      cases hend
      obtain ⟨⟨k, hwait⟩, -, -⟩ := waitBusy_ends hbusy
      obtain ⟨-, ys, hys, hyfit⟩ := sspSend_ends hready
      have hwaits : AllFit (List.replicate k (byteTransfer ⟨.rx, 0⟩)) := allFit_bytes rfl k
      have hall := ((hissues.trans hwait).trans hys).transfers_eq
      rw [hts, List.append_assoc] at hall
      refine ⟨iff_of_true rfl ⟨hyes, hok⟩, _, hall, ?_⟩
      rw [allFit_append, allFit_append, allFit_append]
      exact ⟨hfits, ⟨hfit, hwaits⟩, hyfit⟩

/-! ### The calls -/

/-- A call of a block function or of `sd_command`. -/
inductive SdCall where
  | readBlock (blockNum : Word)
  | writeBlock (blockNum : Word)
  | command (index a1 a2 a3 a4 crc : Byte) (responseLen : BitVec 16)

/-- Before a call: the card is going to return these bytes. -/
def Sd.start (s : Sd) (card : List Byte) : Sd := { s with incoming := card, transfers := [] }

/-- The state in which the call returns. -/
def SdCall.run (s : Sd) : SdCall → Option Sd
  | readBlock blockNum => (sdReadBlock blockNum s).map Prod.snd
  | writeBlock blockNum => (sdWriteBlock blockNum s).map Prod.snd
  | command index a1 a2 a3 a4 crc responseLen =>
    sdCommand index a1 a2 a3 a4 crc ⟨.response responseLen.toNat, 0⟩ responseLen s

/-- The block functions leave chip select high, and every transfer has fit. -/
def SdCall.Restores (s : Sd) : SdCall → Prop
  | readBlock _ => s.csHigh = true ∧ AllFit s.transfers
  | writeBlock _ => s.csHigh = true ∧ AllFit s.transfers
  | command _ _ _ _ _ _ _ => AllFit s.transfers

/-- When they do. -/
def SdCall.Safe (card : List Byte) : SdCall → Prop
  | readBlock _ => False
  | writeBlock _ => CardAccepts card ∧ DataAccepted card
  | command index _ _ _ _ _ responseLen =>
    responseLen.toNat = 1 ∨ (1 < responseLen.toNat ∧ ¬ CardAnswers index card)

/-- A call that returns restores the bus and respects its buffers exactly when it is a write
the card takes, or a command with a response of one byte, or one without an answer. -/
theorem sdCall_restores_iff (s : Sd) (card : List Byte) (call : SdCall)
    (h : call.run (s.start card) = some t) : call.Restores t ↔ call.Safe card := by
  cases call with
  | readBlock blockNum =>
    obtain ⟨⟨rc, u⟩, hrun, rfl⟩ := Option.map_eq_some_iff.mp h
    obtain ⟨hcs, ts, hts, hfit⟩ := sdReadBlock_ends hrun
    have hall : u.transfers = ts := hts
    refine iff_of_false ?_ id
    rintro ⟨hhigh, hfits⟩
    rw [hall] at hfits
    exact hfit.mp hfits (hcs.mp hhigh)
  | writeBlock blockNum =>
    obtain ⟨⟨rc, u⟩, hrun, rfl⟩ := Option.map_eq_some_iff.mp h
    obtain ⟨hcs, ts, hts, hfit⟩ := sdWriteBlock_ends hrun
    have hall : AllFit u.transfers := by
      rw [hts]
      exact hfit
    exact (and_iff_left hall).trans hcs
  | command index a1 a2 a3 a4 crc responseLen =>
    obtain ⟨ts, hissues, hfit⟩ := sdCommand_fits h
    have hall : t.transfers = ts := hissues.transfers_eq
    have hiff : AllFit t.transfers ↔ 0 + 1 ≤ responseLen.toNat ∧
        (CardAnswers index card → 1 < responseLen.toNat →
          0 + 1 + responseLen.toNat ≤ responseLen.toNat) := by
      rw [hall]
      exact hfit
    refine hiff.trans ⟨fun ⟨hroom, hrest⟩ => ?_, ?_⟩
    · by_cases hone : responseLen.toNat = 1
      · exact Or.inl hone
      · have hlong : 1 < responseLen.toNat := by omega
        exact Or.inr ⟨hlong, fun hgo => absurd (hrest hgo hlong) (by omega)⟩
    · rintro (hone | ⟨hlong, hno⟩)
      · exact ⟨by omega, fun _ hlong => absurd hlong (by omega)⟩
      · exact ⟨by omega, fun hgo => absurd hgo hno⟩

/-- The bus before the first call. -/
def idleBus : Sd := ⟨[], true, ⟨none, none, 0⟩, fun _ _ => 0, []⟩

/-- What a card returns during a command, with a response and a byte that is not busy. -/
def commandReply (response : List Byte) : List Byte := List.replicate 6 0xFF ++ response ++ [0xFF]

/-- What a card returns during a write it takes. -/
def writeReply : List Byte :=
  commandReply [0x00] ++ List.replicate (1 + 1 + sdBlockLen + 2) 0xFF ++ [0x05, 0xFF, 0xFF]

theorem writeReply_safe (blockNum : Word) : (SdCall.writeBlock blockNum).Safe writeReply := by
  have hanswer : cardAnswer writeReply = some 0x00 := by decide +kernel
  have hdata : dataResponse writeReply = some 0x05 := by decide +kernel
  exact ⟨hanswer, _, hdata, by decide⟩

/-- A reset the card answers with one byte, and a write it takes. -/
theorem sdCall_restores_reset :
    (∃ t, (SdCall.command 0 0 0 0 0 0x95 1).run (idleBus.start (commandReply [0x01])) = some t ∧
      (SdCall.command 0 0 0 0 0 0x95 1).Restores t) ∧
    ∃ t, (SdCall.writeBlock 7).run (idleBus.start writeReply) = some t ∧
      t.csHigh = true ∧ AllFit t.transfers := by
  have hreset : ((SdCall.command 0 0 0 0 0 0x95 1).run
      (idleBus.start (commandReply [0x01]))).isSome = true := by decide
  have hwrite : ((SdCall.writeBlock 7).run (idleBus.start writeReply)).isSome = true := by
    decide +kernel
  obtain ⟨t, ht⟩ := Option.isSome_iff_exists.mp hreset
  obtain ⟨u, hu⟩ := Option.isSome_iff_exists.mp hwrite
  exact ⟨⟨t, ht, (sdCall_restores_iff idleBus _ _ ht).mpr (Or.inl rfl)⟩,
    u, hu, (sdCall_restores_iff idleBus _ _ hu).mpr (writeReply_safe 7)⟩

/-- A card that refuses the command keeps chip select low, and five bytes of response end one
byte behind the response. -/
theorem sdCall_refused :
    (∃ t, (SdCall.readBlock 0).run (idleBus.start (commandReply [0x05])) = some t ∧
      t.csHigh = false) ∧
    (∃ t, (SdCall.writeBlock 0).run (idleBus.start (commandReply [0x05])) = some t ∧
      t.csHigh = false) ∧
    ∃ t, (SdCall.command 58 0 0 0 0 0 5).run
        (idleBus.start (commandReply [0x00, 0x80, 0xFF, 0x80, 0x00, 0xFF])) = some t ∧
      ¬ AllFit t.transfers := by
  refine ⟨?_, ?_, ?_⟩
  · exact ⟨_, (Option.some_get (by decide)).symm, by decide⟩
  · exact ⟨_, (Option.some_get (by decide)).symm, by decide⟩
  · exact ⟨_, (Option.some_get (by decide)).symm, by decide⟩

end EbnAnchor.Drivers
