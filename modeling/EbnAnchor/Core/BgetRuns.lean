import EbnAnchor.Core.BgetSteps
import EbnAnchor.Lib.Steps
import Mathlib.Data.List.Perm.Subperm

/-!
Runs of a program over `bget.c`: it asks for buffers, writes into those it has and releases
them, in any order.

* `allocator_safe`: no call fails an assertion, and the buffers in use never meet;
* `allocator_keeps`: a buffer in use holds what was written into it;
* `bget_null_iff`: a request is refused only when there is no room for it between the buffers.
-/

namespace EbnAnchor.Core

open LinkedRing

/-! ### A program -/

/-- The heap, and the buffers in use with the bytes asked for. -/
structure Client where
  heap : Allocator
  live : Nat → Option Nat

inductive HeapCall
  | get (size : Int)
  | release (buf : Nat)
  | write (buf i : Nat) (value : Int)

/-- The calls a program may make. Nearer to the largest `long` the size of a block is no
`long`. -/
def HeapCall.Legal (s : Client) : HeapCall → Prop
  | get size => 0 < size ∧ size + 11 < 2147483648
  | release buf => ∃ n, s.live buf = some n
  | write buf i _ => ∃ n, s.live buf = some n ∧ 4 * i < n

/-- The call neither releases the buffer `a` nor writes the word `c`. -/
def HeapCall.Spares (a c : Nat) : HeapCall → Prop
  | get _ => True
  | release buf => buf ≠ a
  | write buf i _ => buf + 4 * i ≠ c

/-- A word is written. -/
def Allocator.write (heap : Allocator) (c : Nat) (value : Int) : Allocator :=
  { heap with words := Function.update heap.words c value }

@[simp] theorem Allocator.write_words (heap : Allocator) (c : Nat) (value : Int) :
    (heap.write c value).words = Function.update heap.words c value := rfl

/-- One call; there is no next state when it does not return or is not legal. -/
def heapStep (freelist time : Nat) (s : Client) : HeapCall → Option Client
  | .get size =>
    if 0 < size ∧ size + 11 < 2147483648 then
      match bget freelist time size s.heap with
      | .ok (some buf, heap) => some ⟨heap, Function.update s.live buf (some size.toNat)⟩
      | .ok (none, heap) => some ⟨heap, s.live⟩
      | .error _ => none
    else none
  | .release buf =>
    if (s.live buf).isSome then
      match brel freelist buf s.heap with
      | .ok heap => some ⟨heap, Function.update s.live buf none⟩
      | .error _ => none
    else none
  | .write buf i value =>
    if ∃ n ∈ s.live buf, 4 * i < n then some ⟨s.heap.write (buf + 4 * i) value, s.live⟩
    else none

/-- `freelist`, as it is before the first call. -/
def staticFreelist (freelist : Nat) (words : Words) : Words :=
  setBlink (setFlink (setBsize (setPrevfree words freelist 0) freelist 0) freelist freelist)
    freelist freelist

/-- `main` gives `bpool` its memory before anything else. -/
def heapInit (freelist buf : Nat) (len : Int) (words : Words) : Option Client :=
  match bpool freelist buf len ⟨staticFreelist freelist words, 0, 0, 0⟩ with
  | .ok heap => some ⟨heap, fun _ => none⟩
  | .error _ => none

/-! ### The invariant -/

variable {freelist start stop time : Nat} {s s' : Client} {blocks : List Block}
  {members : List Nat}

structure Client.Holds (freelist start stop : Nat) (s : Client) (blocks : List Block)
    (members : List Nat) : Prop where
  valid : Valid freelist start stop s.heap blocks members
  live_of_used : ∀ u ∈ used blocks, ∃ n, s.live (u.addr + 8) = some n
  used_of_live : ∀ a n, s.live a = some n →
    ∃ u ∈ used blocks, u.addr + 8 = a ∧ n + 8 ≤ u.size

theorem heapInit_holds {buf : Nat} {len : Int} (h : Fits freelist buf len) (words : Words) :
    ∃ s blocks members, heapInit freelist buf len words = some s ∧
      s.Holds freelist buf (sentinel buf len) blocks members := by
  have hring : IsRing (flink (staticFreelist freelist words))
      (blink (staticFreelist freelist words)) freelist [] := by
    apply isRing_nil
    · rw [flink, staticFreelist, setBlink, Function.update_of_ne (by omega), setFlink,
        Function.update_self, Int.toNat_natCast]
    · rw [blink, staticFreelist, setBlink, Function.update_self, Int.toNat_natCast]
  obtain ⟨heap, blocks, members, hpool, hvalid, hused⟩ :=
    bpool_spec h (s := ⟨staticFreelist freelist words, 0, 0, 0⟩) hring rfl
  refine ⟨⟨heap, fun _ => none⟩, blocks, members, ?_, hvalid, ?_, ?_⟩
  · rw [heapInit, hpool]
  · intro u hu
    rw [hused] at hu
    exact absurd hu List.not_mem_nil
  · intro a n hlive
    cases hlive

theorem Segment.length_le {m : Words} {a e : Nat} {p q : Int} (h : Segment m a p blocks e q) :
    16 * blocks.length ≤ e - a := by
  induction blocks generalizing a p with
  | nil => exact Nat.zero_le _
  | cons b blocks ih =>
    obtain ⟨rfl, hb, hrest⟩ := h
    have hlength := ih hrest
    have hle := hrest.bounds.1
    have hlarge := hb.le_size
    simp only [Block.next] at hlength hle
    rw [List.length_cons]
    omega

/-- The free list is no longer than the pool has room for. -/
theorem Valid.length_le {heap : Allocator} (h : Valid freelist start stop heap blocks members) :
    16 * members.length ≤ stop - start := by
  obtain ⟨q, hseg, -⟩ := h.rest
  have hnodup := (List.nodup_cons.mp h.list.ring.nodup).2
  have hsub : members ⊆ blocks.map Block.addr := by
    intro a ha
    obtain ⟨b, hb, rfl, -⟩ := (h.list.mem_iff a).mp ha
    exact List.mem_map_of_mem hb
  have hle := (List.subperm_of_subset hnodup hsub).length_le
  rw [List.length_map] at hle
  have := hseg.length_le
  omega

/-- Two blocks in use are in different places. -/
theorem Valid.addr_inj {heap : Allocator} (h : Valid freelist start stop heap blocks members)
    {u v : Block} (hu : u ∈ used blocks) (hv : v ∈ used blocks) (heq : u.addr = v.addr) :
    u = v := by
  have hlarge := (h.laid.inside u (mem_used.mp hu).1).2.2
  have hlarge' := (h.laid.inside v (mem_used.mp hv).1).2.2
  rcases h.laid.disjoint (mem_used.mp hu).1 (mem_used.mp hv).1 with rfl | hle | hle
  · rfl
  · simp only [Block.next] at hle
    omega
  · simp only [Block.next] at hle
    omega

/-- A word of a buffer in use is one the heap leaves alone. -/
theorem Client.Holds.inUse (h : s.Holds freelist start stop blocks members) {a n c : Nat}
    (hlive : s.live a = some n) (hle : a ≤ c) (hlt : c < a + n) : InUse blocks c := by
  obtain ⟨u, hu, rfl, hsize⟩ := h.used_of_live a n hlive
  refine ⟨u, hu, hle, ?_⟩
  simp only [Block.next]
  omega

/-- Two buffers in use do not meet. -/
theorem Client.Holds.apart (h : s.Holds freelist start stop blocks members) {a n a' n' : Nat}
    (hlive : s.live a = some n) (hlive' : s.live a' = some n') (hne : a ≠ a') :
    a + n ≤ a' ∨ a' + n' ≤ a := by
  obtain ⟨u, hu, rfl, hsize⟩ := h.used_of_live a n hlive
  obtain ⟨v, hv, rfl, hsize'⟩ := h.used_of_live a' n' hlive'
  rcases h.valid.laid.disjoint (mem_used.mp hu).1 (mem_used.mp hv).1 with rfl | hle | hle
  · exact absurd rfl hne
  · simp only [Block.next] at hle
    omega
  · simp only [Block.next] at hle
    omega

/-! ### The calls keep it -/

/-- After `bget` gave a buffer. -/
theorem Client.Holds.got {heap : Allocator} {u : Block} {size : Int} {blocks' : List Block}
    {members' : List Nat} (h : s.Holds freelist start stop blocks members)
    (hvalid : Valid freelist start stop heap blocks' members')
    (hused : ∀ x, x ∈ used blocks' ↔ x = u ∨ x ∈ used blocks) (hpos : 0 < size)
    (hsize : size + 8 ≤ u.size) :
    Client.Holds freelist start stop
      ⟨heap, Function.update s.live (u.addr + 8) (some size.toNat)⟩ blocks' members' := by
  refine ⟨hvalid, ?_, ?_⟩
  · intro x hx
    dsimp only
    by_cases hxu : x.addr = u.addr
    · exact ⟨size.toNat, by rw [hxu, Function.update_self]⟩
    · rcases (hused x).mp hx with rfl | hx
      · exact absurd rfl hxu
      · obtain ⟨n, hn⟩ := h.live_of_used x hx
        exact ⟨n, by rw [Function.update_of_ne (by omega), hn]⟩
  · intro a n hlive
    dsimp only at hlive
    by_cases ha : a = u.addr + 8
    · subst ha
      rw [Function.update_self] at hlive
      cases hlive
      exact ⟨u, (hused u).mpr (Or.inl rfl), rfl, by omega⟩
    · rw [Function.update_of_ne ha] at hlive
      obtain ⟨v, hv, hav, hn⟩ := h.used_of_live a n hlive
      exact ⟨v, (hused v).mpr (Or.inr hv), hav, hn⟩

/-- A new block is not where a buffer in use is. -/
theorem Client.Holds.live_eq_none {heap : Allocator} {u : Block} {blocks' : List Block}
    {members' : List Nat} (h : s.Holds freelist start stop blocks members)
    (hvalid : Valid freelist start stop heap blocks' members')
    (hused : ∀ x, x ∈ used blocks' ↔ x = u ∨ x ∈ used blocks) (hfresh : u ∉ used blocks) :
    s.live (u.addr + 8) = none := by
  cases hlive : s.live (u.addr + 8) with
  | none => rfl
  | some n =>
    obtain ⟨v, hv, heq, -⟩ := h.used_of_live _ n hlive
    have hu := (hused u).mpr (Or.inl rfl)
    have huv := hvalid.addr_inj hu ((hused v).mpr (Or.inr hv)) (by omega)
    exact absurd (huv ▸ hv) hfresh

/-- After `brel` took one back. -/
theorem Client.Holds.released {heap : Allocator} {u : Block} {l r blocks' : List Block}
    {members' : List Nat} (h : s.Holds freelist start stop (l ++ u :: r) members)
    (hvalid : Valid freelist start stop heap blocks' members')
    (hused : used blocks' = used l ++ used r) :
    Client.Holds freelist start stop ⟨heap, Function.update s.live (u.addr + 8) none⟩ blocks'
      members' := by
  have hothers : ∀ x, x ∈ used blocks' ↔ x ∈ used (l ++ u :: r) ∧ x.addr ≠ u.addr := by
    intro x
    obtain ⟨hleft, hright⟩ := h.valid.laid.sides
    have hlarge := (h.valid.laid.inside u (by simp)).2.2
    rw [hused]
    simp only [mem_used, List.mem_append, List.mem_cons]
    constructor
    · rintro (⟨hx, hfree⟩ | ⟨hx, hfree⟩)
      · have := hleft x hx
        simp only [Block.next] at this
        exact ⟨⟨Or.inl hx, hfree⟩, by omega⟩
      · have := hright x hx
        simp only [Block.next] at this
        exact ⟨⟨Or.inr (Or.inr hx), hfree⟩, by omega⟩
    · rintro ⟨⟨hx | rfl | hx, hfree⟩, hne⟩
      · exact Or.inl ⟨hx, hfree⟩
      · exact absurd rfl hne
      · exact Or.inr ⟨hx, hfree⟩
  refine ⟨hvalid, ?_, ?_⟩
  · intro x hx
    dsimp only
    obtain ⟨hx, hne⟩ := (hothers x).mp hx
    obtain ⟨n, hn⟩ := h.live_of_used x hx
    exact ⟨n, by rw [Function.update_of_ne (by omega), hn]⟩
  · intro a n hlive
    dsimp only at hlive
    by_cases ha : a = u.addr + 8
    · rw [ha, Function.update_self] at hlive
      cases hlive
    · rw [Function.update_of_ne ha] at hlive
      obtain ⟨v, hv, hav, hn⟩ := h.used_of_live a n hlive
      exact ⟨v, (hothers v).mpr ⟨hv, by omega⟩, hav, hn⟩

/-- A program writes where no header and no link is. -/
theorem Valid.write {heap : Allocator} (h : Valid freelist start stop heap blocks members)
    {c : Nat} (hc : InUse blocks c) (v : Int) :
    Valid freelist start stop (heap.write c v) blocks members := by
  have hlaid := h.laid
  refine ⟨h.apart, ?_, ?_, h.total⟩
  · apply h.rest.congr
    intro y hy
    have hout : y ≠ c ∧ y + 4 ≠ c := by
      obtain ⟨u, hu, hle, hlt⟩ := hc
      obtain ⟨l, r, rfl⟩ := List.append_of_mem (mem_used.mp hu).1
      have := hlaid.around (Or.inr hy)
      omega
    rw [Allocator.write_words, prevfree, prevfree, bsize, bsize, Function.update_of_ne hout.1,
      Function.update_of_ne hout.2]
    exact ⟨rfl, rfl⟩
  · apply h.list.congr
    · intro d hd
      rw [Allocator.write_words, Function.update_of_ne]
      rintro rfl
      refine hlaid.not_linkCell_inUse (fun w hw => ?_) hc hd
      exact (List.mem_cons.mp hw).imp_right (h.list.mem_iff w).mp
    · intro a
      exact Iff.rfl

/-! ### Runs -/

/-- Every legal call returns, leaves the heap in order and the other buffers as they are. -/
theorem Client.Holds.step (h : s.Holds freelist start stop blocks members)
    (htime : members.length < time) {call : HeapCall} (hlegal : call.Legal s) :
    ∃ s' blocks' members', heapStep freelist time s call = some s' ∧
      s'.Holds freelist start stop blocks' members' ∧
      ∀ a n c, s.live a = some n → a ≤ c → c < a + n → call.Spares a c →
        s'.live a = some n ∧ s'.heap.words c = s.heap.words c := by
  cases call with
  | get size =>
    obtain ⟨hpos, hsmall⟩ := hlegal
    rcases h.valid.bget hpos hsmall htime with
      ⟨u, heap, blocks', members', hget, hvalid, hused, hfresh, hsize, hkeep⟩ | ⟨hget, -⟩
    · obtain ⟨k, hk, -, -, hroom⟩ := blockSize_spec hpos hsmall
      refine ⟨_, blocks', members', ?_, h.got hvalid hused hpos (by omega), ?_⟩
      · rw [heapStep, if_pos ⟨hpos, hsmall⟩, hget]
      · intro a n c hlive hle hlt _
        have hne : a ≠ u.addr + 8 := by
          rintro rfl
          rw [h.live_eq_none hvalid hused hfresh] at hlive
          cases hlive
        exact ⟨(Function.update_of_ne hne ..).trans hlive, hkeep c (h.inUse hlive hle hlt)⟩
    · refine ⟨s, blocks, members, ?_, h, fun a n c hlive _ _ _ => ⟨hlive, rfl⟩⟩
      rw [heapStep, if_pos ⟨hpos, hsmall⟩, hget]
  | release buf =>
    obtain ⟨n, hlive⟩ := hlegal
    obtain ⟨u, hu, rfl, -⟩ := h.used_of_live buf n hlive
    obtain ⟨hu, huse⟩ := mem_used.mp hu
    obtain ⟨l, r, rfl⟩ := List.append_of_mem hu
    obtain ⟨heap, blocks', members', hrel, hvalid, hused, hkeep⟩ := h.valid.brel huse
    have hholds := h.released hvalid hused
    refine ⟨_, blocks', members', ?_, hholds, ?_⟩
    · rw [heapStep, if_pos (by rw [hlive]; rfl), hrel]
    · intro a n' c hlive' hle hlt hne
      have hstays : Function.update s.live (u.addr + 8) none a = some n' :=
        (Function.update_of_ne (Ne.symm hne) ..).trans hlive'
      exact ⟨hstays, hkeep c (hholds.inUse hstays hle hlt)⟩
  | write buf i value =>
    obtain ⟨n, hlive, hi⟩ := hlegal
    have hvalid := h.valid.write (h.inUse hlive (c := buf + 4 * i) (by omega) (by omega)) value
    refine ⟨⟨s.heap.write (buf + 4 * i) value, s.live⟩, blocks, members, ?_,
      ⟨hvalid, h.live_of_used, h.used_of_live⟩, ?_⟩
    · rw [heapStep, if_pos ⟨n, hlive, hi⟩]
    · intro a n' c hlive' _ _ hne
      exact ⟨hlive', Function.update_of_ne (Ne.symm hne) ..⟩

/-- Only legal calls are made. -/
theorem legal_of_heapStep {call : HeapCall} (h : heapStep freelist time s call = some s') :
    call.Legal s := by
  cases call with
  | get size =>
    by_contra hlegal
    have hnot : ¬ (0 < size ∧ size + 11 < 2147483648) := hlegal
    rw [heapStep, if_neg hnot] at h
    cases h
  | release buf =>
    by_contra hlegal
    have hnot : ¬ (s.live buf).isSome = true := by rwa [Option.isSome_iff_exists]
    rw [heapStep, if_neg hnot] at h
    cases h
  | write buf i value =>
    by_contra hlegal
    have hnot : ¬ ∃ n ∈ s.live buf, 4 * i < n := hlegal
    rw [heapStep, if_neg hnot] at h
    cases h

/-- There is time for every loop. -/
theorem Fits.enough_time {buf : Nat} {len : Int} (hfits : Fits freelist buf len)
    (htime : len < 16 * time) {heap : Allocator}
    (hvalid : Valid freelist buf (sentinel buf len) heap blocks members) :
    members.length < time := by
  have hlength := hvalid.length_le
  have hlarge := hfits.large
  simp only [sentinel, sizeQuant, sizeofBhead] at hlength
  omega

/-- The heap is in order. -/
def Client.InOrder (freelist buf : Nat) (len : Int) (s : Client) : Prop :=
  ∃ blocks members, s.Holds freelist buf (sentinel buf len) blocks members

section Run

variable {buf : Nat} {len : Int} (hfits : Fits freelist buf len) (htime : len < 16 * time)
include hfits htime

theorem Client.InOrder.step {call : HeapCall} (h : s.InOrder freelist buf len)
    (hstep : heapStep freelist time s call = some s') :
    s'.InOrder freelist buf len ∧
      ∀ a n c, s.live a = some n → a ≤ c → c < a + n → call.Spares a c →
        s'.live a = some n ∧ s'.heap.words c = s.heap.words c := by
  obtain ⟨blocks, members, hholds⟩ := h
  obtain ⟨s'', blocks', members', hstep', hholds', hkeep⟩ :=
    hholds.step (hfits.enough_time htime hholds.valid) (legal_of_heapStep hstep)
  obtain rfl := Option.some_inj.mp (hstep.symm.trans hstep')
  exact ⟨⟨blocks', members', hholds'⟩, hkeep⟩

/-- The heap is in order after any run. -/
theorem inOrder_of_run {words : Words} {s₀ : Client}
    (h₀ : heapInit freelist buf len words = some s₀) {calls : List HeapCall}
    (hrun : Steps.run (heapStep freelist time) s₀ calls = some s) :
    s.InOrder freelist buf len := by
  obtain ⟨s₁, blocks, members, h₁, hholds⟩ := heapInit_holds hfits words
  obtain rfl : s₁ = s₀ := Option.some_inj.mp (h₁.symm.trans h₀)
  exact Steps.run_invariant
    (fun s call s' hin hstep => (hin.step hfits htime hstep).1) hrun ⟨blocks, members, hholds⟩

/-- In every run no call fails an assertion, the buffers in use lie in the pool and do not
meet, and a new buffer is not one of them. -/
theorem allocator_safe (words : Words) :
    ∃ s₀, heapInit freelist buf len words = some s₀ ∧
      ∀ calls s, Steps.run (heapStep freelist time) s₀ calls = some s →
        (∀ call : HeapCall, call.Legal s → ∃ s', heapStep freelist time s call = some s') ∧
        (∀ a n, s.live a = some n → buf + 8 ≤ a ∧ (a : Int) + n ≤ buf + len) ∧
        (∀ a n a' n', s.live a = some n → s.live a' = some n' → a ≠ a' →
          a + n ≤ a' ∨ a' + n' ≤ a) ∧
        ∀ size a heap, 0 < size → size + 11 < 2147483648 →
          bget freelist time size s.heap = .ok (some a, heap) → s.live a = none := by
  obtain ⟨s₀, -, -, h₀, -⟩ := heapInit_holds hfits words
  refine ⟨s₀, h₀, ?_⟩
  intro calls s hrun
  obtain ⟨blocks, members, hholds⟩ := inOrder_of_run hfits htime h₀ hrun
  have hshort := hfits.enough_time htime hholds.valid
  refine ⟨?_, ?_, ?_, ?_⟩
  · intro call hlegal
    obtain ⟨s', -, -, hstep, -⟩ := hholds.step hshort hlegal
    exact ⟨s', hstep⟩
  · intro a n hlive
    obtain ⟨u, hu, rfl, hsize⟩ := hholds.used_of_live a n hlive
    obtain ⟨hstart, hstop, -⟩ := hholds.valid.laid.inside u (mem_used.mp hu).1
    have hlarge := hfits.large
    simp only [Block.next, sentinel, sizeQuant, sizeofBhead] at hstop
    omega
  · intro a n a' n' hlive hlive' hne
    exact hholds.apart hlive hlive' hne
  · intro size a heap hpos hlong hget
    rcases hholds.valid.bget hpos hlong hshort with
      ⟨u, heap', blocks', members', hget', hvalid, hused, hfresh, -⟩ | ⟨hget', -⟩
    · rw [hget] at hget'
      obtain ⟨rfl, rfl⟩ : a = u.addr + 8 ∧ heap = heap' := by
        simpa using hget'
      exact hholds.live_eq_none hvalid hused hfresh
    · rw [hget] at hget'
      cases hget'

/-- Whatever else a program does, a buffer it has keeps the words it does not write. -/
theorem allocator_keeps {words : Words} {s₀ : Client}
    (h₀ : heapInit freelist buf len words = some s₀) {calls : List HeapCall}
    (hrun : Steps.run (heapStep freelist time) s₀ calls = some s) {a n c : Nat}
    (hlive : s.live a = some n) (hle : a ≤ c) (hlt : c < a + n) {more : List HeapCall}
    (hmore : ∀ call ∈ more, call.Spares a c)
    (hrun' : Steps.run (heapStep freelist time) s more = some s') :
    s'.live a = some n ∧ s'.heap.words c = s.heap.words c := by
  have hin := inOrder_of_run hfits htime h₀ hrun
  clear hrun h₀
  induction more generalizing s with
  | nil =>
    cases hrun'
    exact ⟨hlive, rfl⟩
  | cons call more ih =>
    obtain ⟨t, hstep, hrest⟩ := Steps.run_cons hrun'
    obtain ⟨hin', hkeep⟩ := hin.step hfits htime hstep
    obtain ⟨hlive', hword⟩ := hkeep a n c hlive hle hlt (hmore call List.mem_cons_self)
    obtain ⟨hlive'', hword'⟩ :=
      ih hlive' (fun call' hmem => hmore call' (List.mem_cons_of_mem call hmem)) hrest hin'
    exact ⟨hlive'', hword'.trans hword⟩

end Run

/-- With the memory `main` gives it. -/
theorem allocator_safe_main :
    ∃ s₀, heapInit 0 16 8192 (fun _ => 0) = some s₀ ∧
      ∀ calls s, Steps.run (heapStep 0 513) s₀ calls = some s →
        (∀ call : HeapCall, call.Legal s → ∃ s', heapStep 0 513 s call = some s') ∧
        (∀ a n, s.live a = some n → 16 + 8 ≤ a ∧ (a : Int) + n ≤ (16 : Nat) + 8192) ∧
        (∀ a n a' n', s.live a = some n → s.live a' = some n' → a ≠ a' →
          a + n ≤ a' ∨ a' + n' ≤ a) ∧
        ∀ size a heap, 0 < size → size + 11 < 2147483648 →
          bget 0 513 size s.heap = .ok (some a, heap) →
          s.live a = none :=
  allocator_safe ⟨by decide, by decide, by decide⟩ (by decide) fun _ => 0

theorem allocator_keeps_word :
    ∃ s₀ s s', heapInit 0 16 64 (fun _ => 0) = some s₀ ∧
      Steps.run (heapStep 0 5) s₀ [.get 10, .write 60 1 7] = some s ∧
      Steps.run (heapStep 0 5) s [.get 4, .write 60 0 1, .release 44] = some s' ∧
      s.heap.words 64 = 7 ∧ s'.live 60 = some 10 ∧ s'.heap.words 64 = s.heap.words 64 := by
  have hfits : Fits 0 16 64 := ⟨by decide, by decide, by decide⟩
  obtain ⟨s₀, h₀, s, hrun, s', hrun', hlive, hword⟩ :
      ∃ s₀, heapInit 0 16 64 (fun _ => 0) = some s₀ ∧
        ∃ s, Steps.run (heapStep 0 5) s₀ [.get 10, .write 60 1 7] = some s ∧
        ∃ s', Steps.run (heapStep 0 5) s [.get 4, .write 60 0 1, .release 44] = some s' ∧
          s.live 60 = some 10 ∧ s.heap.words 64 = 7 :=
    ⟨_, rfl, _, rfl, _, rfl, rfl, rfl⟩
  refine ⟨s₀, s, s', h₀, hrun, hrun', hword, ?_⟩
  refine allocator_keeps hfits (by decide) h₀ hrun hlive (by decide) (by decide) ?_ hrun'
  intro call hcall
  simp only [List.mem_cons, List.not_mem_nil, or_false] at hcall
  rcases hcall with rfl | rfl | rfl
  · trivial
  · exact (by decide : 60 + 4 * 0 ≠ 64)
  · exact (by decide : 44 ≠ 60)

/-! ### When a request is refused -/

/-- From `g` on there are `n` bytes of the pool outside the blocks of the buffers in use, their
headers included. -/
structure Client.Gap (s : Client) (start stop g n : Nat) : Prop where
  start_le : start ≤ g
  le_stop : g + n ≤ stop
  outside : ∀ a k, s.live a = some k →
    g + n ≤ a - 8 ∨ a - 8 + (-bsize s.heap.words (a - 8)).toNat ≤ g

theorem Rest.covers {m : Words} {a c : Nat} {p : Int} (h : Rest m stop a p blocks) (hle : a ≤ c)
    (hlt : c < stop) : ∃ l b r, blocks = l ++ b :: r ∧ b.addr ≤ c ∧ c < b.next := by
  induction blocks generalizing a p with
  | nil =>
    obtain ⟨q, ⟨rfl, -⟩, -⟩ := h
    omega
  | cons b blocks ih =>
    obtain ⟨rfl, -, hrest⟩ := rest_cons.mp h
    by_cases hin : c < b.next
    · exact ⟨[], b, blocks, rfl, hle, hin⟩
    · obtain ⟨l, x, r, rfl, hx⟩ := ih hrest (not_lt.mp hin)
      exact ⟨b :: l, x, r, rfl, hx⟩

/-- The size of a block in use is in its header. -/
theorem Valid.bsize_used {heap : Allocator} (h : Valid freelist start stop heap blocks members)
    {u : Block} (hu : u ∈ used blocks) : (-bsize heap.words u.addr).toNat = u.size := by
  obtain ⟨hu, huse⟩ := mem_used.mp hu
  obtain ⟨l, r, rfl⟩ := List.append_of_mem hu
  obtain ⟨p', -, hheader, -⟩ := rest_around.mp h.rest
  rw [hheader.bsize, Block.tag, if_neg (by simp [huse]), neg_neg, Int.toNat_natCast]

theorem Client.Gap.outside_used {g n : Nat} (hgap : s.Gap start stop g n)
    (h : s.Holds freelist start stop blocks members) {u : Block} (hu : u ∈ used blocks) :
    g + n ≤ u.addr ∨ u.next ≤ g := by
  obtain ⟨k, hlive⟩ := h.live_of_used u hu
  have hout := hgap.outside _ k hlive
  rw [Nat.add_sub_cancel, h.valid.bsize_used hu] at hout
  exact hout

/-- Where there is a gap, there is a free block. -/
theorem Client.Gap.free_block {g n : Nat} (hgap : s.Gap start stop g n)
    (h : s.Holds freelist start stop blocks members) (hn : 0 < n) :
    ∃ b ∈ blocks, b.free = true ∧ n ≤ b.size := by
  have hle := hgap.le_stop
  obtain ⟨l, b, r, rfl, hlow, hhigh⟩ := h.valid.rest.covers hgap.start_le (by omega : g < stop)
  have hfree : b.free = true := by
    by_contra hused
    have hout := hgap.outside_used h (u := b) (by simpa using hused)
    omega
  refine ⟨b, by simp, hfree, ?_⟩
  by_contra hsmall
  have hnext : b.next = b.addr + b.size := rfl
  obtain ⟨p', -, hb, hr⟩ := rest_around.mp h.valid.rest
  -- the gap goes beyond the block, and what follows is not free
  rcases r with _ | ⟨x, r⟩
  · obtain ⟨q, ⟨heq, -⟩, -⟩ := hr
    omega
  · obtain ⟨haddr, hx, -⟩ := rest_cons.mp hr
    have huse : x.free = false := by
      by_contra hfree'
      have hzero := hx.alone (by simpa using hfree')
      have hlarge := hb.le_size
      rw [Block.back, if_pos hfree] at hzero
      omega
    have hout := hgap.outside_used h (u := x) (by simp [huse])
    have hlarge := hx.le_size
    have hnext' : x.next = x.addr + x.size := rfl
    omega

/-- A new block lies in a gap between those in use before. -/
theorem Client.Holds.gap_of_new (h : s.Holds freelist start stop blocks members) {heap : Allocator}
    {blocks' : List Block} {members' : List Nat} {u : Block} {n : Nat}
    (hvalid : Valid freelist start stop heap blocks' members')
    (hused : ∀ v, v ∈ used blocks' ↔ v = u ∨ v ∈ used blocks) (hfresh : u ∉ used blocks)
    (hroom : n ≤ u.size) : s.Gap start stop u.addr n := by
  have hu := (mem_used.mp ((hused u).mpr (Or.inl rfl))).1
  obtain ⟨hstart, hstop, -⟩ := hvalid.laid.inside u hu
  have hnext : u.next = u.addr + u.size := rfl
  refine ⟨hstart, by omega, fun a k hlive => ?_⟩
  obtain ⟨v, hv, rfl, -⟩ := h.used_of_live a k hlive
  have hv' := (mem_used.mp ((hused v).mpr (Or.inr hv))).1
  have hnext' : v.next = v.addr + v.size := rfl
  rw [Nat.add_sub_cancel, h.valid.bsize_used hv]
  rcases hvalid.laid.disjoint hu hv' with rfl | hle | hle
  · exact absurd hv hfresh
  · omega
  · omega

/-- A request is refused exactly when there is no gap for its block. -/
theorem Client.Holds.bget_none_iff (h : s.Holds freelist start stop blocks members)
    (htime : members.length < time) {size : Int} (hpos : 0 < size)
    (hlong : size + 11 < 2147483648) :
    bget freelist time size s.heap = .ok (none, s.heap) ↔
      ∀ g, ¬ s.Gap start stop g (blockSize size).toNat := by
  obtain ⟨n, hn, hlarge, -, -⟩ := blockSize_spec hpos hlong
  rw [hn, Int.toNat_natCast]
  rcases h.valid.bget hpos hlong htime with
    ⟨u, heap, blocks', members', hget, hvalid, hused, hfresh, hroom, -⟩ | ⟨hget, hnone⟩
  · rw [hget]
    constructor
    · intro hnull
      cases hnull
    · intro hno
      exact absurd (h.gap_of_new hvalid hused hfresh (by omega)) (hno u.addr)
  · refine ⟨fun _ g hgap => ?_, fun _ => hget⟩
    obtain ⟨b, hb, hfree, hle⟩ := hgap.free_block h (by omega)
    have := hnone b hb hfree
    omega

/-- With nothing in use the whole pool is a gap. -/
theorem Client.no_gap_iff_of_released {buf : Nat} {len : Int} (hfits : Fits freelist buf len)
    (hnone : ∀ a, s.live a = none) {n : Int} (hn : 0 ≤ n) :
    (∀ g, ¬ s.Gap buf (sentinel buf len) g n.toNat) ↔ len / 4 * 4 - 8 < n := by
  have hlarge := hfits.large
  constructor
  · intro hno
    by_contra hroom
    refine hno buf ⟨le_rfl, ?_, fun a k hlive => ?_⟩
    · simp only [sentinel, sizeQuant, sizeofBhead]
      omega
    · rw [hnone a] at hlive
      cases hlive
  · intro hsmall g hgap
    have hle := hgap.le_stop
    have hstart := hgap.start_le
    simp only [sentinel, sizeQuant, sizeofBhead] at hle
    omega

theorem taken_pos {u : Block} (hu : u ∈ used blocks) (hsize : 0 < u.size) : 0 < taken blocks := by
  obtain ⟨hu, huse⟩ := mem_used.mp hu
  obtain ⟨l, r, rfl⟩ := List.append_of_mem hu
  have hl := taken_nonneg l
  have hr := taken_nonneg r
  rw [taken_append, taken_cons, if_neg (by simp [huse])]
  omega

/-- The statistics tell when nothing is in use. -/
theorem Client.Holds.totalloc_eq_zero_iff (h : s.Holds freelist start stop blocks members) :
    s.heap.totalloc = 0 ↔ ∀ a, s.live a = none := by
  rw [h.valid.total]
  constructor
  · intro hzero a
    cases hlive : s.live a with
    | none => rfl
    | some k =>
      obtain ⟨u, hu, -, hsize⟩ := h.used_of_live a k hlive
      exact absurd hzero (ne_of_gt (taken_pos hu (by omega)))
  · intro hnone
    have hused : used blocks = [] := by
      rw [List.eq_nil_iff_forall_not_mem]
      intro u hu
      obtain ⟨k, hlive⟩ := h.live_of_used u hu
      rw [hnone] at hlive
      cases hlive
    rw [← taken_used, hused]
    rfl

/-- In every run a request whose block has a size is refused exactly when there is no room for
its block between those in use. So when all buffers are released the whole pool is free again;
the statistics tell when that is. -/
theorem bget_null_iff {buf : Nat} {len : Int} (hfits : Fits freelist buf len)
    (htime : len < 16 * time) {words : Words} {s₀ : Client}
    (h₀ : heapInit freelist buf len words = some s₀) {calls : List HeapCall}
    (hrun : Steps.run (heapStep freelist time) s₀ calls = some s) {size : Int} (hpos : 0 < size)
    (hlong : size + 11 < 2147483648) :
    (bget freelist time size s.heap = .ok (none, s.heap) ↔
      ∀ g, ¬ s.Gap buf (sentinel buf len) g (blockSize size).toNat) ∧
    ((∀ a, s.live a = none) → (bget freelist time size s.heap = .ok (none, s.heap) ↔
      len / 4 * 4 - 8 < blockSize size)) ∧
    (s.heap.totalloc = 0 ↔ ∀ a, s.live a = none) := by
  obtain ⟨blocks, members, hholds⟩ := inOrder_of_run hfits htime h₀ hrun
  have hiff := hholds.bget_none_iff (hfits.enough_time htime hholds.valid) hpos hlong
  obtain ⟨n, hn, -⟩ := blockSize_spec hpos hlong
  refine ⟨hiff, fun hnone => ?_, hholds.totalloc_eq_zero_iff⟩
  rw [hiff]
  exact Client.no_gap_iff_of_released hfits hnone (hn ▸ Int.natCast_nonneg n)

theorem bget_null_iff_small :
    ∃ s₀ s, heapInit 0 16 64 (fun _ => 0) = some s₀ ∧
      Steps.run (heapStep 0 5) s₀ [.get 10] = some s ∧
      (bget 0 5 30 s.heap = .ok (none, s.heap) ↔
        ∀ g, ¬ s.Gap 16 (sentinel 16 64) g (blockSize 30).toNat) ∧
      ((∀ a, s.live a = none) → (bget 0 5 30 s.heap = .ok (none, s.heap) ↔
        64 / 4 * 4 - 8 < blockSize 30)) ∧
      (s.heap.totalloc = 0 ↔ ∀ a, s.live a = none) := by
  obtain ⟨s₀, h₀, s, hrun⟩ : ∃ s₀, heapInit 0 16 64 (fun _ => 0) = some s₀ ∧
      ∃ s, Steps.run (heapStep 0 5) s₀ [.get 10] = some s := ⟨_, rfl, _, rfl⟩
  exact ⟨s₀, s, h₀, hrun,
    bget_null_iff ⟨by decide, by decide, by decide⟩ (by decide) h₀ hrun (by decide) (by decide)⟩

end EbnAnchor.Core
