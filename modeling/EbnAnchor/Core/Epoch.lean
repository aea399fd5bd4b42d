import EbnAnchor.Core.Ecc
import EbnAnchor.Core.Jerasure

/-!
`EBN.c` and `random.c`: the epoch state of the anchor node.

What comes from outside is an `EbnEnv`: the samples of the ADC, the answers of
`ecc_make_key` (any function; the loop of `Generate_New_Key` asks again after a
failure, so the functions that generate a key take fuel) and the byte in memory
behind `current_id`, which `Insert_Checksum` reads.

A store outside an array is dropped, and every index used is recorded in
`accesses`, so that what stays inside can be told from what does not.
-/

namespace EbnAnchor.Core

open Loop

/-! ### Constants -/

abbrev rsK : Nat := 6
abbrev rsM : Nat := 62

/-- `K`, the number of data symbols. -/
abbrev numData : Nat := rsK
/-- `M`, the number of coding devices. -/
abbrev numCoding : Nat := rsM + rsK - 1
abbrev numSymbols : Nat := numData + numCoding
abbrev numOverlap : Nat := 5
abbrev epochLength : Nat := numSymbols - numOverlap
/-- `sizeof(long)`, the size of a device. -/
abbrev sizeofLong : Nat := 4

/-! ### Data -/

/-- `struct EBN_Epoch_ID`: three bytes, the bit fields from the lowest bit up. -/
structure EbnEpochId where
  yCoord : BitVec 1
  random : BitVec 19
  checksum : BitVec 4
  deriving DecidableEq

def sizeofEpochId : Nat := 3

def EbnEpochId.bits (id : EbnEpochId) : BitVec 24 := id.checksum ++ id.random ++ id.yCoord

/-- `bytes[i]`. -/
def EbnEpochId.byte (id : EbnEpochId) (i : Nat) : Byte := id.bits.extractLsb' (8 * i) 8

/-- Write all three bytes. -/
def EbnEpochId.ofBytes (bytes : Nat → Byte) : EbnEpochId :=
  let bits : BitVec 24 := bytes 2 ++ bytes 1 ++ bytes 0
  { yCoord := bits.extractLsb' 0 1
    random := bits.extractLsb' 1 19
    checksum := bits.extractLsb' 20 4 }

/-- `struct EBN_Mac_Address`. -/
structure EbnMacAddress where
  previous : EbnEpochId
  current : EbnEpochId
  deriving DecidableEq

/-- `struct EBN_Advert`, 31 bytes. -/
structure EbnAdvert where
  nodeType : BitVec 1
  messageNum : BitVec 7
  dhSymbol : Word
  prevDhSymbol : Word
  smallData : Vector Byte 22
  deriving DecidableEq

/-- `memset` to zero. -/
def EbnAdvert.zero : EbnAdvert := ⟨0, 0, 0, 0, Vector.replicate 22 0⟩

/-- The arrays `Epoch_Change` indexes. -/
inductive EbnArray where
  | epochIdBytes
  | currentSyms
  | oldSyms
  | currentAdverts
  deriving DecidableEq

def EbnArray.length : EbnArray → Nat
  | epochIdBytes => sizeofEpochId
  | currentSyms => numSymbols
  | oldSyms => numSymbols
  | currentAdverts => epochLength

structure Access where
  array : EbnArray
  index : Nat
  deriving DecidableEq

def Access.InBounds (a : Access) : Prop := a.index < a.array.length

instance : DecidablePred Access.InBounds := fun a => Nat.decLt a.index a.array.length

/-- The static data of `EBN.c`, the positions reached in the streams of the
environment, and the indices used so far. -/
structure EbnState where
  oldPrivate : Vli
  currentPrivate : Vli
  oldPoint : EccPoint
  currentPoint : EccPoint
  oldY : Byte
  currentY : Byte
  macAddr : EbnMacAddress
  oldId : EbnEpochId
  currentId : EbnEpochId
  oldSyms : Vector Word numSymbols
  currentSyms : Vector Word numSymbols
  currentAdverts : Vector EbnAdvert epochLength
  messageNum : Byte
  rsCodingMatrix : IntArray
  samples : Nat
  keyCalls : Nat
  checksums : Nat
  accesses : List Access

/-- Static storage at start-up. -/
def EbnState.zero : EbnState where
  oldPrivate := Vector.replicate _ 0
  currentPrivate := Vector.replicate _ 0
  oldPoint := ⟨Vector.replicate _ 0, Vector.replicate _ 0⟩
  currentPoint := ⟨Vector.replicate _ 0, Vector.replicate _ 0⟩
  oldY := 0
  currentY := 0
  macAddr := ⟨⟨0, 0, 0⟩, ⟨0, 0, 0⟩⟩
  oldId := ⟨0, 0, 0⟩
  currentId := ⟨0, 0, 0⟩
  oldSyms := Vector.replicate _ 0
  currentSyms := Vector.replicate _ 0
  currentAdverts := Vector.replicate _ .zero
  messageNum := 0
  rsCodingMatrix := fun _ => 0
  samples := 0
  keyCalls := 0
  checksums := 0
  accesses := []

/-- What `ecc_make_key` returns and leaves in its two output arguments. -/
structure KeyResult where
  rc : Word
  publicKey : EccPoint
  privateKey : Vli

structure EbnEnv where
  /-- `(ADDR0 >> 4) & 0x0fff` at each conversion. -/
  adc : Nat → Word
  /-- The answer of call `n` of `ecc_make_key` to its random number. -/
  makeKey : Nat → Vli → KeyResult
  /-- The byte behind `current_id` at checksum `n`. -/
  behindId : Nat → Byte

/-! ### Entropy -/

/-- `Get_Random_Byte1`: eight low order bits, the first one highest. -/
def getRandomByte1 (env : EbnEnv) (pos : Nat) : Byte :=
  forUp 0 8 (fun i collectorByte =>
    (collectorByte <<< 1) ||| ((env.adc (pos + i)).setWidth 8 &&& 0x01)) 0

/-- `Fill_Random_Bytes`, the bytes it stores. -/
def fillRandomBytes (env : EbnEnv) (pos : Nat) : Nat → Byte :=
  fun i => getRandomByte1 env (pos + 8 * i)

/-- The `entropy` array: words from bytes, low byte first. -/
def entropyWords (bytes : Nat → Byte) : Vli :=
  Vector.ofFn fun i =>
    bytes (4 * i + 3) ++ bytes (4 * i + 2) ++ bytes (4 * i + 1) ++ bytes (4 * i)

/-! ### The generators -/

/-- The call of `ecc_make_key` after `keyCalls` others, on the random number that starts
at sample `samples`. -/
def attempt (env : EbnEnv) (samples keyCalls : Nat) : KeyResult :=
  env.makeKey keyCalls (entropyWords (fillRandomBytes env samples))

/-- Samples one random number takes: a bit each. -/
def samplesPerKey : Nat := 8 * (numData * 4)

/-- The loop `while(!rc)`. -/
def makeKeyLoop (env : EbnEnv) : Nat → EbnState → Option EbnState
  | 0, _ => none
  | fuel + 1, s =>
    let key := attempt env s.samples s.keyCalls
    let s := { s with
      samples := s.samples + samplesPerKey
      keyCalls := s.keyCalls + 1
      currentPoint := key.publicKey
      currentPrivate := key.privateKey }
    if key.rc ≠ 0 then some s else makeKeyLoop env fuel s

def generateNewKey (env : EbnEnv) (fuel : Nat) (s : EbnState) : Option EbnState :=
  let s := { s with
    oldPoint := s.currentPoint
    oldPrivate := s.currentPrivate
    oldY := s.currentY }
  (makeKeyLoop env fuel s).map fun s =>
    { s with currentY := (eccCompressYCoord s.currentPoint).setWidth 8 }

/-- `(b >> 4) + (b & 0x0F)`. -/
def nibbleSum (b : Byte) : Byte := (b >>> 4) + (b &&& 0x0F)

/-- `Insert_Checksum(&current_id)`; the last byte summed is behind the array. -/
def insertChecksum (env : EbnEnv) (s : EbnState) : EbnState :=
  let byte := fun i => if i < sizeofEpochId then s.currentId.byte i else env.behindId s.checksums
  let checksum := forUp 0 (sizeofEpochId - 1) (fun i checksum =>
    checksum + nibbleSum (byte i)) 0
  let checksum := checksum + (byte sizeofEpochId >>> 4)
  { s with
    currentId := { s.currentId with checksum := checksum.setWidth 4 }
    checksums := s.checksums + 1
    accesses := s.accesses ++ ((List.range (sizeofEpochId - 1) ++ [sizeofEpochId]).map
      (Access.mk .epochIdBytes)) }

def generateNewEpochId (env : EbnEnv) (s : EbnState) : EbnState :=
  let s := { s with
    oldId := s.currentId
    currentId := .ofBytes (fillRandomBytes env s.samples)
    samples := s.samples + 8 * sizeofEpochId }
  let s := { s with currentId := { s.currentId with yCoord := s.currentY.setWidth 1 } }
  insertChecksum env s

def generateNewMacAddress (s : EbnState) : EbnState :=
  { s with macAddr := { previous := s.oldId, current := s.currentId } }

/-- `Generate_RS_Pointers`: `curr_sym_ptrs[i] = &current_syms[i]`, with the code pointers
from `N_DATA_SYMBOLS` on. -/
def currSymPtrs : Pointers where
  data := fun i => i
  coding := fun i => numData + i

/-- `current_syms` as memory. -/
def symbolMemory (syms : Vector Word numSymbols) : Memory :=
  ⟨fun i => syms[i]?.getD 0, []⟩

/-- `memcpy(current_syms, current_point.x, sizeof(current_point.x))`. -/
def copyData (x : Vli) (syms : Vector Word numSymbols) : Vector Word numSymbols :=
  Vector.ofFn fun i => x[i.val]?.getD (syms.get i)

/-- `current_syms` after `jerasure_matrix_encode(K, M, W, ..)`, as memory. -/
def encodeSymbols (matrix : IntArray) (syms : Vector Word numSymbols) : Memory :=
  jerasureMatrixEncode numData numCoding matrix currSymPtrs sizeofLong (symbolMemory syms)

def generateNewSymbols (s : EbnState) : EbnState :=
  let s := { s with oldSyms := s.currentSyms }
  let s := { s with currentSyms := copyData s.currentPoint.x s.currentSyms }
  let memory := encodeSymbols s.rsCodingMatrix s.currentSyms
  { s with
    currentSyms := Vector.ofFn fun i => memory.cells i
    accesses := s.accesses ++ memory.touched.map (Access.mk .currentSyms) }

/-- The advert `Generate_Epoch_Adverts` stores at index `i`. -/
def epochAdvert (s : EbnState) (i : Nat) : EbnAdvert :=
  let advert := { EbnAdvert.zero with
    nodeType := 1
    messageNum := BitVec.ofNat 7 i
    dhSymbol := s.currentSyms[i]?.getD 0 }
  if i < numOverlap then
    { advert with prevDhSymbol := s.oldSyms[numSymbols - numOverlap + i]?.getD 0 }
  else advert

def generateEpochAdverts (s : EbnState) : EbnState :=
  forUp 0 numSymbols (fun i s =>
    { s with
      currentAdverts := s.currentAdverts.setIfInBounds i (epochAdvert s i)
      accesses := s.accesses ++ [⟨.currentAdverts, i⟩, ⟨.currentSyms, i⟩] ++
        if i < numOverlap then [⟨.oldSyms, numSymbols - numOverlap + i⟩] else [] }) s

def epochChange (env : EbnEnv) (fuel : Nat) (s : EbnState) : Option EbnState :=
  (generateNewKey env fuel s).map fun s =>
    generateEpochAdverts (generateNewSymbols (generateNewMacAddress (generateNewEpochId env s)))

/-! ### The interface -/

/-- `Init_RS`; `vdm` and `dist` are what `malloc` hands out. -/
def initRs (vdm dist : IntArray) (s : EbnState) : Option EbnState :=
  (reedSolVandermondeCodingMatrix numData numCoding vdm dist).map fun matrix =>
    { s with rsCodingMatrix := matrix }

def ebnInit (env : EbnEnv) (fuel : Nat) (vdm dist : IntArray) (s : EbnState) :
    Option EbnState :=
  (initRs vdm dist s).bind fun s =>
  (epochChange env fuel s).bind fun s =>
  (epochChange env fuel s).map fun s =>
  { s with messageNum := 0 }

/-- `EBN_Increment_Time`: the value returned and the state left. -/
def ebnIncrementTime (env : EbnEnv) (fuel : Nat) (s : EbnState) : Option (Word × EbnState) :=
  let s := { s with messageNum := s.messageNum + 1 }
  if s.messageNum.toNat ≥ epochLength then
    (epochChange env fuel s).map fun s => (1, { s with messageNum := 0 })
  else some (0, s)

/-- `EBN_Get_Advert`; `none` when the pointer would leave the array. -/
def ebnGetAdvert (s : EbnState) : Option EbnAdvert := s.currentAdverts[s.messageNum.toNat]?

def ebnGetMacAddress (s : EbnState) : EbnMacAddress := s.macAddr

end EbnAnchor.Core
