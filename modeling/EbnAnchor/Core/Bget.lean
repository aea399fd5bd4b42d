import EbnAnchor.Lib.LinkedRing
import Mathlib.Logic.Function.Basic
import Mathlib.Algebra.Order.Group.Int

/-!
`bget.c`, the memory allocator behind `malloc` and `free`, as it is configured: best fit,
statistics kept, no automatic expansion of the pool.

Memory is the words by their addresses, and a `bufsize` a whole number: with the pool inside
the address space no number the functions compute leaves the range of a `long`, but for the
size of a block for a request from `2 ^ 31 - 11` on, which runs over (`blockSize`). A failing
`assert` ends a call.
-/

namespace EbnAnchor.Core

/-! ### Memory -/

/-- The words of memory by their addresses. -/
abbrev Words := Nat → Int

abbrev sizeQuant : Int := 4

/-- `sizeof(struct bhead)`. -/
abbrev sizeofBhead : Nat := 8

/-- `SizeQ`, the larger of the quantum and `sizeof(struct qlinks)`. -/
abbrev sizeQ : Int := 8

/-- `ESent`. -/
abbrev eSent : Int := -2147483648

section Fields

variable (m : Words) (p : Nat)

/-- `BH(p)->prevfree`. -/
def prevfree : Int := m p

/-- `BH(p)->bsize`. -/
def bsize : Int := m (p + 4)

/-- `BFH(p)->ql.flink`. -/
def flink : Nat := (m (p + 8)).toNat

/-- `BFH(p)->ql.blink`. -/
def blink : Nat := (m (p + 12)).toNat

def setPrevfree (v : Int) : Words := Function.update m p v

def setBsize (v : Int) : Words := Function.update m (p + 4) v

def setFlink (q : Nat) : Words := Function.update m (p + 8) q

def setBlink (q : Nat) : Words := Function.update m (p + 12) q

@[simp] theorem bsize_setBsize (v : Int) : bsize (setBsize m p v) p = v :=
  Function.update_self ..

@[simp] theorem prevfree_setPrevfree (v : Int) : prevfree (setPrevfree m p v) p = v :=
  Function.update_self ..

end Fields

/-- Memory and the statistics. -/
structure Allocator where
  words : Words
  totalloc : Int
  numget : Nat
  numrel : Nat

/-- Why a call does not return. -/
inductive Halt
  | assertion
  | outOfTime

/-- `assert`. -/
def check (p : Prop) [Decidable p] : Except Halt Unit :=
  if p then .ok () else .error .assertion

@[simp] theorem ok_bind {α β : Type} (a : α) (f : α → Except Halt β) :
    ((.ok a : Except Halt α) >>= f) = f a := rfl

theorem check_pos {p : Prop} [Decidable p] (h : p) : check p = .ok () := if_pos h

/-! ### The free list -/

/-- A block becomes the last of the free list. -/
def chain (freelist b : Nat) (m : Words) : Except Halt Words := do
  check (flink m (blink m freelist) = freelist)
  check (blink m (flink m freelist) = freelist)
  let m := setFlink m b freelist
  let m := setBlink m b (blink m freelist)
  let m := setBlink m freelist b
  return setFlink m (blink m b) b

/-- A block leaves the free list. -/
def dechain (b : Nat) (m : Words) : Except Halt Words := do
  check (flink m (blink m b) = b)
  check (blink m (flink m b) = b)
  let m := setFlink m (blink m b) (flink m b)
  return setBlink m (flink m b) (blink m b)

/-! ### `bpool` -/

/-- `bpool`. The comparison with the largest size is one of unsigned numbers, which fails for
a pool with no room for a header. -/
def bpool (freelist buf : Nat) (len : Int) (s : Allocator) : Except Halt Allocator := do
  let len := len / sizeQuant * sizeQuant
  check (sizeofBhead ≤ len ∧ len - sizeofBhead ≤ -(eSent + 1))
  let m := setPrevfree s.words buf 0
  let m ← chain freelist buf m
  let len := len - sizeofBhead
  let m := setBsize m buf len
  let bn := buf + len.toNat
  let m := setPrevfree m bn len
  let m := setBsize m bn eSent
  return { s with words := m }

/-! ### `bget` -/

/-- A number as a `bufsize`, which is a `long` of 32 bits. -/
def bufsize (n : Int) : Int := n.bmod 4294967296

/-- The bytes of a block that has room for the request. -/
def blockSize (size : Int) : Int :=
  let size := if size < sizeQ then sizeQ else size
  bufsize ((size + (sizeQuant - 1)) / sizeQuant * sizeQuant + sizeofBhead)

/-- The first loop: the smallest block that is big enough, or the head of the list. -/
def scan (freelist : Nat) (m : Words) (size : Int) : Nat → Nat → Nat → Except Halt Nat
  | 0, _, _ => .error .outOfTime
  | time + 1, b, best =>
    if b ≠ freelist then
      let best :=
        if bsize m b ≥ size ∧ (best = freelist ∨ bsize m b < bsize m best) then b else best
      scan freelist m size time (flink m b) best
    else .ok best

/-- The end of the block goes to the caller, the rest stays free. -/
def split (s : Allocator) (b : Nat) (size : Int) : Except Halt (Nat × Allocator) := do
  let m := s.words
  let ba := b + (bsize m b - size).toNat
  let bn := ba + size.toNat
  check (prevfree m bn = bsize m b)
  let m := setBsize m b (bsize m b - size)
  let m := setPrevfree m ba (bsize m b)
  let m := setBsize m ba (-size)
  let m := setPrevfree m bn 0
  return (ba + sizeofBhead, ⟨m, s.totalloc + size, s.numget + 1, s.numrel⟩)

/-- The whole block goes to the caller. -/
def giveWhole (s : Allocator) (b : Nat) : Except Halt (Nat × Allocator) := do
  let m := s.words
  let ba := b + (bsize m b).toNat
  check (prevfree m ba = bsize m b)
  let m ← dechain b m
  let totalloc := s.totalloc + bsize m b
  let m := setBsize m b (-bsize m b)
  let m := setPrevfree m ba 0
  return (b + 8, ⟨m, totalloc, s.numget + 1, s.numrel⟩)

/-- The second loop: the first block from `b` on that is big enough is given. -/
def place (freelist : Nat) (s : Allocator) (size : Int) :
    Nat → Nat → Except Halt (Option Nat × Allocator)
  | 0, _ => .error .outOfTime
  | time + 1, b =>
    if b ≠ freelist then
      if bsize s.words b ≥ size then do
        let (buf, s) ←
          if bsize s.words b - size > sizeQ + sizeofBhead then split s b size else giveWhole s b
        return (some buf, s)
      else place freelist s size time (flink s.words b)
    else .ok (none, s)

/-- `bget`, with the turns each loop has time for. -/
def bget (freelist time : Nat) (requestedSize : Int) (s : Allocator) :
    Except Halt (Option Nat × Allocator) := do
  check (requestedSize > 0)
  let size := blockSize requestedSize
  let best ← scan freelist s.words size time (flink s.words freelist) freelist
  place freelist s size time best

/-! ### `brel` -/

/-- The released block joins the free block before it, or the free list. -/
def joinPrevious (freelist b : Nat) (m : Words) : Except Halt (Nat × Words) := do
  if prevfree m b ≠ 0 then
    let size := bsize m b
    let before := b - (prevfree m b).toNat
    check (bsize m before = prevfree m b)
    return (before, setBsize m before (bsize m before - size))
  else
    let m ← chain freelist b m
    return (b, setBsize m b (-bsize m b))

/-- The free block takes in the block after it when that is free too. -/
def joinNext (b : Nat) (m : Words) : Except Halt Words := do
  let bn := b + (bsize m b).toNat
  if bsize m bn > 0 then
    check (prevfree m (bn + (bsize m bn).toNat) = bsize m bn)
    let m ← dechain bn m
    return setBsize m b (bsize m b + bsize m bn)
  else return m

/-- `brel`. -/
def brel (freelist buf : Nat) (s : Allocator) : Except Halt Allocator := do
  let b := buf - sizeofBhead
  let m := s.words
  check (buf ≠ 0)
  check (bsize m b < 0)
  check (prevfree m (b + (-bsize m b).toNat) = 0)
  let totalloc := s.totalloc + bsize m b
  check (totalloc ≥ 0)
  let (b, m) ← joinPrevious freelist b m
  let m ← joinNext b m
  let bn := b + (bsize m b).toNat
  check (bsize m bn < 0)
  return ⟨setPrevfree m bn (bsize m b), totalloc, s.numget, s.numrel + 1⟩

end EbnAnchor.Core
