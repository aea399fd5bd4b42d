import EbnAnchor.Core.Bget

/-!
The heap `bget.c` keeps in its pool.

The pool is a row of blocks with no gap between them, the free ones never next to each other,
and a sentinel behind the last. Every header says whether the block before it is free. The
free blocks are the members of a ring.

* `Valid`: the invariant, with the blocks and the members of the free list;
* `Rest.replace`: a part of the row is replaced, and the header behind it is told so;
* `FreeList.dechain`, `FreeList.chain`: a block leaves the free list, or joins it.
-/

namespace EbnAnchor.Core

open LinkedRing

/-! ### Blocks and their headers -/

/-- A block of the pool, its header included. -/
structure Block where
  addr : Nat
  size : Nat
  free : Bool

namespace Block

variable (b : Block)

/-- Where the next header is. -/
def next : Nat := b.addr + b.size

/-- What `bsize` is. -/
def tag : Int := if b.free then b.size else -b.size

/-- What `prevfree` of the next header is. -/
def back : Int := if b.free then b.size else 0

end Block

/-- A header is right: `p` is what it says of the block before. -/
structure Header (m : Words) (b : Block) (p : Int) : Prop where
  prevfree : prevfree m b.addr = p
  bsize : bsize m b.addr = b.tag
  le_size : 16 ≤ b.size
  quantum : b.size % 4 = 0
  alone : b.free = true → p = 0

/-- The blocks from `a` to `e`; the header at `a` says `p`, and the one at `e` should say `q`. -/
def Segment (m : Words) : Nat → Int → List Block → Nat → Int → Prop
  | a, p, [], e, q => a = e ∧ p = q
  | a, p, b :: blocks, e, q => b.addr = a ∧ Header m b p ∧ Segment m b.next b.back blocks e q

/-- The blocks from `a` to the sentinel at `stop`. -/
def Rest (m : Words) (stop a : Nat) (p : Int) (blocks : List Block) : Prop :=
  ∃ q, Segment m a p blocks stop q ∧ prevfree m stop = q ∧ bsize m stop = eSent

/-- Where there is a header: the blocks and the sentinel. -/
def IsStart (stop : Nat) (blocks : List Block) (y : Nat) : Prop :=
  y = stop ∨ ∃ b ∈ blocks, b.addr = y

variable {m m' : Words} {a e stop : Nat} {p q : Int} {b : Block} {l r blocks : List Block}

theorem segment_append : Segment m a p (l ++ r) e q ↔
    ∃ a' p', Segment m a p l a' p' ∧ Segment m a' p' r e q := by
  induction l generalizing a p with
  | nil =>
    constructor
    · intro h
      exact ⟨a, p, ⟨rfl, rfl⟩, h⟩
    · rintro ⟨a', p', ⟨rfl, rfl⟩, h⟩
      exact h
  | cons b l ih =>
    simp only [List.cons_append, Segment, ih]
    constructor
    · rintro ⟨ha, hb, a', p', hl, hr⟩
      exact ⟨a', p', ⟨ha, hb, hl⟩, hr⟩
    · rintro ⟨a', p', ⟨ha, hb, hl⟩, hr⟩
      exact ⟨ha, hb, a', p', hl, hr⟩

theorem rest_append : Rest m stop a p (l ++ r) ↔
    ∃ a' p', Segment m a p l a' p' ∧ Rest m stop a' p' r := by
  constructor
  · rintro ⟨q, hseg, hstop⟩
    obtain ⟨a', p', hl, hr⟩ := segment_append.mp hseg
    exact ⟨a', p', hl, q, hr, hstop⟩
  · rintro ⟨a', p', hl, q, hr, hstop⟩
    exact ⟨q, segment_append.mpr ⟨a', p', hl, hr⟩, hstop⟩

theorem rest_cons : Rest m stop a p (b :: r) ↔
    b.addr = a ∧ Header m b p ∧ Rest m stop b.next b.back r := by
  constructor
  · rintro ⟨q, ⟨ha, hb, hr⟩, hstop⟩
    exact ⟨ha, hb, q, hr, hstop⟩
  · rintro ⟨ha, hb, q, hr, hstop⟩
    exact ⟨q, ⟨ha, hb, hr⟩, hstop⟩

/-- A block in the row: the blocks before it, its header and the blocks behind it. -/
theorem rest_around : Rest m stop a p (l ++ b :: r) ↔
    ∃ p', Segment m a p l b.addr p' ∧ Header m b p' ∧ Rest m stop b.next b.back r := by
  rw [rest_append]
  constructor
  · rintro ⟨a', p', hl, hr⟩
    obtain ⟨rfl, hb, hr⟩ := rest_cons.mp hr
    exact ⟨p', hl, hb, hr⟩
  · rintro ⟨p', hl, hb, hr⟩
    exact ⟨b.addr, p', hl, rest_cons.mpr ⟨rfl, hb, hr⟩⟩

/-! ### Where the blocks are -/

theorem Segment.bounds (h : Segment m a p blocks e q) :
    a ≤ e ∧ ∀ b ∈ blocks, a ≤ b.addr ∧ b.next ≤ e ∧ 16 ≤ b.size := by
  induction blocks generalizing a p with
  | nil =>
    constructor
    · exact h.1.le
    · intro b hb
      exact absurd hb List.not_mem_nil
  | cons c blocks ih =>
    obtain ⟨rfl, hc, hrest⟩ := h
    obtain ⟨hle, hblocks⟩ := ih hrest
    have hsize := hc.le_size
    have hnext : c.next = c.addr + c.size := rfl
    constructor
    · omega
    · intro b hb
      rcases List.mem_cons.mp hb with rfl | hb
      · exact ⟨le_rfl, hle, hsize⟩
      · obtain ⟨h₁, h₂, h₃⟩ := hblocks b hb
        exact ⟨by omega, h₂, h₃⟩

theorem Rest.bounds (h : Rest m stop a p blocks) :
    a ≤ stop ∧ ∀ b ∈ blocks, a ≤ b.addr ∧ b.next ≤ stop ∧ 16 ≤ b.size := by
  obtain ⟨q, hseg, -⟩ := h
  exact hseg.bounds

theorem Rest.prevfree (h : Rest m stop a p blocks) : prevfree m a = p := by
  obtain ⟨q, hseg, hstop, -⟩ := h
  cases blocks with
  | nil =>
    obtain ⟨rfl, rfl⟩ := hseg
    exact hstop
  | cons b blocks =>
    obtain ⟨rfl, hb, -⟩ := hseg
    exact hb.prevfree

/-- The header at `a` is that of the first block, or the sentinel. -/
theorem Rest.bsize (h : Rest m stop a p blocks) :
    (∃ b r, blocks = b :: r ∧ b.addr = a ∧ bsize m a = b.tag) ∨
      blocks = [] ∧ a = stop ∧ bsize m a = eSent := by
  cases blocks with
  | nil =>
    obtain ⟨q, ⟨rfl, -⟩, -, hstop⟩ := h
    exact Or.inr ⟨rfl, rfl, hstop⟩
  | cons b r =>
    obtain ⟨rfl, hb, -⟩ := rest_cons.mp h
    exact Or.inl ⟨b, r, rfl, rfl, hb.bsize⟩

theorem Rest.isStart (h : Rest m stop a p blocks) : IsStart stop blocks a := by
  rcases h.bsize with ⟨b, r, rfl, rfl, -⟩ | ⟨-, rfl, -⟩
  · exact Or.inr ⟨b, List.mem_cons_self, rfl⟩
  · exact Or.inl rfl

theorem IsStart.mono {y : Nat} (h : IsStart stop blocks y) {blocks' : List Block}
    (hsub : ∀ b ∈ blocks, b ∈ blocks') : IsStart stop blocks' y :=
  h.imp_right fun ⟨b, hb, heq⟩ => ⟨b, hsub b hb, heq⟩

/-! ### Memory that keeps the headers -/

theorem Header.congr (h : Header m b p) (hprev : Core.prevfree m' b.addr = Core.prevfree m b.addr)
    (hsize : Core.bsize m' b.addr = Core.bsize m b.addr) : Header m' b p :=
  ⟨hprev.trans h.prevfree, hsize.trans h.bsize, h.le_size, h.quantum, h.alone⟩

theorem Segment.congr (h : Segment m a p blocks e q)
    (hkeep : ∀ b ∈ blocks, Core.prevfree m' b.addr = Core.prevfree m b.addr ∧
      Core.bsize m' b.addr = Core.bsize m b.addr) : Segment m' a p blocks e q := by
  induction blocks generalizing a p with
  | nil => exact h
  | cons c blocks ih =>
    obtain ⟨ha, hc, hrest⟩ := h
    obtain ⟨hprev, hsize⟩ := hkeep c List.mem_cons_self
    exact ⟨ha, hc.congr hprev hsize, ih hrest fun b hb => hkeep b (List.mem_cons_of_mem c hb)⟩

/-- The first header is told something else about the block before it. -/
theorem Rest.retag {p' : Int} (h : Rest m stop a p blocks) (hprev : Core.prevfree m' a = p')
    (halone : p' = 0 ∨ ∀ b ∈ blocks.head?, b.free = false)
    (hkeep : ∀ x, IsStart stop blocks x →
      (x ≠ a → Core.prevfree m' x = Core.prevfree m x) ∧ Core.bsize m' x = Core.bsize m x) :
    Rest m' stop a p' blocks := by
  cases blocks with
  | nil =>
    obtain ⟨q, ⟨rfl, -⟩, -, hstop⟩ := h
    exact ⟨p', ⟨rfl, rfl⟩, hprev, (hkeep a (Or.inl rfl)).2.trans hstop⟩
  | cons b r =>
    obtain ⟨rfl, hb, q, hr, hstop, hsent⟩ := rest_cons.mp h
    obtain ⟨hle, hbounds⟩ := hr.bounds
    have hsize := hb.le_size
    have hnext : b.next = b.addr + b.size := rfl
    refine rest_cons.mpr ⟨rfl, ⟨hprev, ?_, hb.le_size, hb.quantum, ?_⟩, q, ?_, ?_, ?_⟩
    · exact (hkeep b.addr (Or.inr ⟨b, List.mem_cons_self, rfl⟩)).2.trans hb.bsize
    · intro hfree
      rcases halone with rfl | halone
      · rfl
      · exact absurd (halone b rfl) (by simp [hfree])
    · apply hr.congr
      intro c hc
      have hkeepc := hkeep c.addr (Or.inr ⟨c, List.mem_cons_of_mem b hc, rfl⟩)
      have hle := (hbounds c hc).1
      exact ⟨hkeepc.1 (by omega), hkeepc.2⟩
    · rw [(hkeep stop (Or.inl rfl)).1 (by omega), hstop]
    · rw [(hkeep stop (Or.inl rfl)).2, hsent]

theorem Rest.congr (h : Rest m stop a p blocks)
    (hkeep : ∀ x, IsStart stop blocks x →
      Core.prevfree m' x = Core.prevfree m x ∧ Core.bsize m' x = Core.bsize m x) :
    Rest m' stop a p blocks := by
  obtain ⟨q, hseg, hstop, hsent⟩ := h
  obtain ⟨hprev, hsize⟩ := hkeep stop (Or.inl rfl)
  refine ⟨q, hseg.congr fun b hb => hkeep b.addr (Or.inr ⟨b, hb, rfl⟩), ?_, ?_⟩
  · rw [hprev, hstop]
  · rw [hsize, hsent]

/-- The blocks between `a` and `e` are replaced, and the header at `e` is told so. -/
theorem Rest.replace (bs : List Block) {start : Nat} {p p' q' : Int}
    (hl : Segment m start p l a p') (hr : Rest m stop e q r) (hbs : Segment m' a p' bs e q')
    (hprev : Core.prevfree m' e = q') (halone : q' = 0 ∨ ∀ b ∈ r.head?, b.free = false)
    (hkeep : ∀ y, IsStart stop (l ++ r) y → y + 16 ≤ a ∨ e < y →
      Core.prevfree m' y = Core.prevfree m y ∧ Core.bsize m' y = Core.bsize m y)
    (hsize : Core.bsize m' e = Core.bsize m e) : Rest m' stop start p (l ++ (bs ++ r)) := by
  have hle := hr.bounds
  refine rest_append.mpr ⟨a, p', ?_, rest_append.mpr ⟨e, q', hbs, hr.retag hprev halone ?_⟩⟩
  · apply hl.congr
    intro b hb
    obtain ⟨-, hnext, hlarge⟩ := hl.bounds.2 b hb
    simp only [Block.next] at hnext
    exact hkeep b.addr (Or.inr ⟨b, List.mem_append_left r hb, rfl⟩) (by omega)
  · intro y hy
    have hey : e ≤ y := by
      rcases hy with rfl | ⟨b, hb, rfl⟩
      · exact hle.1
      · exact (hle.2 b hb).1
    have hy' : IsStart stop (l ++ r) y := hy.mono fun b hb => List.mem_append_right l hb
    rcases Nat.eq_or_lt_of_le hey with rfl | hlt
    · exact ⟨fun hne => absurd rfl hne, hsize⟩
    · have hsame := hkeep y hy' (Or.inr hlt)
      exact ⟨fun _ => hsame.1, hsame.2⟩

/-! ### The row of blocks and the free list -/

/-- The blocks are where they can be, the head of the free list outside the pool. -/
structure Laid (freelist start stop : Nat) (blocks : List Block) : Prop where
  apart : freelist + 16 ≤ start ∨ stop + 8 ≤ freelist
  le_stop : start ≤ stop
  inside : ∀ b ∈ blocks, start ≤ b.addr ∧ b.next ≤ stop ∧ 16 ≤ b.size
  spaced : blocks.Pairwise fun x y => x.next ≤ y.addr

theorem Rest.spaced (h : Rest m stop a p blocks) :
    blocks.Pairwise fun x y => x.next ≤ y.addr := by
  induction blocks generalizing a p with
  | nil => exact List.Pairwise.nil
  | cons b blocks ih =>
    obtain ⟨-, -, hrest⟩ := rest_cons.mp h
    refine List.pairwise_cons.mpr ⟨?_, ih hrest⟩
    intro c hc
    exact (hrest.bounds.2 c hc).1

variable {freelist start : Nat} {members : List Nat}

theorem Rest.laid (h : Rest m stop start p blocks)
    (apart : freelist + 16 ≤ start ∨ stop + 8 ≤ freelist) : Laid freelist start stop blocks :=
  ⟨apart, h.bounds.1, h.bounds.2, h.spaced⟩

/-- Two blocks are the same or do not meet. -/
theorem Laid.disjoint (h : Laid freelist start stop blocks) {x y : Block} (hx : x ∈ blocks)
    (hy : y ∈ blocks) : x = y ∨ x.next ≤ y.addr ∨ y.next ≤ x.addr := by
  obtain ⟨i, hi, rfl⟩ := List.getElem_of_mem hx
  obtain ⟨j, hj, rfl⟩ := List.getElem_of_mem hy
  rcases Nat.lt_trichotomy i j with hlt | rfl | hlt
  · exact Or.inr (Or.inl (List.pairwise_iff_getElem.mp h.spaced i j hi hj hlt))
  · exact Or.inl rfl
  · exact Or.inr (Or.inr (List.pairwise_iff_getElem.mp h.spaced j i hj hi hlt))

/-- The nodes of the free list: its head and free blocks. -/
def IsNode (freelist : Nat) (blocks : List Block) (w : Nat) : Prop :=
  w = freelist ∨ ∃ b ∈ blocks, b.addr = w

theorem Laid.node_node (h : Laid freelist start stop blocks) {x w : Nat}
    (hx : IsNode freelist blocks x) (hw : IsNode freelist blocks w) :
    x = w ∨ x + 16 ≤ w ∨ w + 16 ≤ x := by
  have hapart := h.apart
  rcases hx with rfl | ⟨b, hb, rfl⟩
  · rcases hw with rfl | ⟨c, hc, rfl⟩
    · exact Or.inl rfl
    · obtain ⟨hstart, hstop, hsize⟩ := h.inside c hc
      simp only [Block.next] at hstop
      omega
  · obtain ⟨hstart, hstop, hsize⟩ := h.inside b hb
    rcases hw with rfl | ⟨c, hc, rfl⟩
    · simp only [Block.next] at hstop
      omega
    · have hsize' := (h.inside c hc).2.2
      rcases h.disjoint hb hc with rfl | hle | hle
      · exact Or.inl rfl
      · simp only [Block.next] at hle
        omega
      · simp only [Block.next] at hle
        omega

theorem Laid.node_start (h : Laid freelist start stop blocks) {w y : Nat}
    (hw : IsNode freelist blocks w) (hy : IsStart stop blocks y) :
    y = w ∨ y + 8 ≤ w ∨ w + 16 ≤ y := by
  have hapart := h.apart
  have hle := h.le_stop
  rcases hy with rfl | ⟨b, hb, rfl⟩
  · rcases hw with rfl | ⟨c, hc, rfl⟩
    · omega
    · obtain ⟨hstart, hstop, hsize⟩ := h.inside c hc
      simp only [Block.next] at hstop
      omega
  · have := h.node_node (Or.inr ⟨b, hb, rfl⟩) hw
    omega

/-- The cells of the links of the nodes. -/
def LinkCell (nodes : List Nat) (c : Nat) : Prop := ∃ w ∈ nodes, c = w + 8 ∨ c = w + 12

/-- The nodes of the free list are apart from each other. -/
def Spread (nodes : List Nat) : Prop :=
  ∀ x ∈ nodes, ∀ w ∈ nodes, x = w ∨ x + 16 ≤ w ∨ w + 16 ≤ x

theorem ring_congr (h : IsRing (flink m) (blink m) freelist members)
    (hkeep : ∀ c, LinkCell (freelist :: members) c → m' c = m c) :
    IsRing (flink m') (blink m') freelist members := by
  apply h.congr
  · intro x hx
    rw [flink, flink, hkeep _ ⟨x, hx, Or.inl rfl⟩]
  · intro x hx
    rw [blink, blink, hkeep _ ⟨x, hx, Or.inr rfl⟩]

/-- A forward link is written: a node reads it back, and the other links are as before. -/
theorem links_setFlink {nodes : List Nat} (hspread : Spread nodes) {w v : Nat} (hw : w ∈ nodes) :
    (∀ x ∈ nodes, flink (setFlink m w v) x = Function.update (flink m) w v x) ∧
      ∀ x ∈ nodes, blink (setFlink m w v) x = blink m x := by
  constructor
  · intro x hx
    rw [flink, setFlink]
    by_cases hxw : x = w
    · rw [hxw, Function.update_self, Function.update_self, Int.toNat_natCast]
    · rw [Function.update_of_ne hxw, Function.update_of_ne (by omega), flink]
  · intro x hx
    have := hspread x hx w hw
    rw [blink, setFlink, Function.update_of_ne (by omega), blink]

theorem links_setBlink {nodes : List Nat} (hspread : Spread nodes) {w v : Nat} (hw : w ∈ nodes) :
    (∀ x ∈ nodes, blink (setBlink m w v) x = Function.update (blink m) w v x) ∧
      ∀ x ∈ nodes, flink (setBlink m w v) x = flink m x := by
  constructor
  · intro x hx
    rw [blink, setBlink]
    by_cases hxw : x = w
    · rw [hxw, Function.update_self, Function.update_self, Int.toNat_natCast]
    · rw [Function.update_of_ne hxw, Function.update_of_ne (by omega), blink]
  · intro x hx
    have := hspread x hx w hw
    rw [flink, setBlink, Function.update_of_ne (by omega), flink]

theorem setFlink_of_not_linkCell {nodes : List Nat} {w v : Nat} (hw : w ∈ nodes) {c : Nat}
    (hc : ¬ LinkCell nodes c) : setFlink m w v c = m c := by
  rw [setFlink, Function.update_of_ne]
  rintro rfl
  exact hc ⟨w, hw, Or.inl rfl⟩

theorem setBlink_of_not_linkCell {nodes : List Nat} {w v : Nat} (hw : w ∈ nodes) {c : Nat}
    (hc : ¬ LinkCell nodes c) : setBlink m w v c = m c := by
  rw [setBlink, Function.update_of_ne]
  rintro rfl
  exact hc ⟨w, hw, Or.inr rfl⟩

/-- Taking a block out of the free list writes two links of its neighbours. -/
theorem dechain_spec {c₁ c₂ : List Nat} {b : Nat}
    (h : IsRing (flink m) (blink m) freelist (c₁ ++ b :: c₂))
    (hspread : Spread (freelist :: (c₁ ++ b :: c₂))) :
    ∃ m', dechain b m = .ok m' ∧ IsRing (flink m') (blink m') freelist (c₁ ++ c₂) ∧
      ∀ c, ¬ LinkCell (freelist :: (c₁ ++ c₂)) c → m' c = m c := by
  obtain ⟨hnext, hprev⟩ := h.next_prev
  obtain ⟨hblink, hflink⟩ := h.neighbours
  have hsub : ∀ x ∈ freelist :: (c₁ ++ c₂), x ∈ freelist :: (c₁ ++ b :: c₂) := by
    intro x hx
    simp only [List.mem_cons, List.mem_append] at hx ⊢
    tauto
  have hb : b ∈ freelist :: (c₁ ++ b :: c₂) := by simp
  have hne : b ≠ blink m b := by
    have hnodup := h.nodup
    have hout : b ∉ freelist :: (c₁ ++ c₂) := by
      rw [← List.cons_append] at hnodup ⊢
      exact (List.nodup_middle.mp hnodup).notMem
    intro heq
    exact hout (heq ▸ hblink)
  obtain ⟨hflink₁, hblink₁⟩ := links_setFlink (m := m) (v := flink m b) hspread (hsub _ hblink)
  set m₁ := setFlink m (blink m b) (flink m b) with hm₁
  have hfb : flink m₁ b = flink m b := by rw [hflink₁ b hb, Function.update_of_ne hne]
  have hbb : blink m₁ b = blink m b := hblink₁ b hb
  obtain ⟨hblink₂, hflink₂⟩ := links_setBlink (m := m₁) (v := blink m b) hspread (hsub _ hflink)
  refine ⟨setBlink m₁ (flink m b) (blink m b), ?_, ?_, ?_⟩
  · simp only [dechain, check_pos hnext, check_pos hprev, ok_bind, ← hm₁, hfb, hbb]
    rfl
  · apply h.unlink
    · intro x hx
      rw [hflink₂ x (hsub x hx), hflink₁ x (hsub x hx)]
    · intro x hx
      rw [hblink₂ x (hsub x hx)]
      by_cases hxf : x = flink m b
      · rw [hxf, Function.update_self, Function.update_self]
      · rw [Function.update_of_ne hxf, Function.update_of_ne hxf, hblink₁ x (hsub x hx)]
  · intro c hc
    rw [setBlink_of_not_linkCell hflink hc, hm₁, setFlink_of_not_linkCell hblink hc]

/-- Putting a block last writes its links and two of its neighbours. -/
theorem chain_spec {b : Nat} (h : IsRing (flink m) (blink m) freelist members)
    (hb : b ∉ freelist :: members) (hspread : Spread (b :: freelist :: members)) :
    ∃ m', chain freelist b m = .ok m' ∧
      IsRing (flink m') (blink m') freelist (members ++ [b]) ∧
      ∀ c, ¬ LinkCell (b :: freelist :: members) c → m' c = m c := by
  obtain ⟨hnext, hprev⟩ := h.next_prev_head
  obtain ⟨pre, hpre⟩ := h.ends.2
  have hlast : blink m freelist ∈ freelist :: members := by
    rw [hpre]
    simp
  have hbmem : b ∈ b :: freelist :: members := List.mem_cons_self
  have hhead : freelist ∈ b :: freelist :: members := by simp
  have hlast' : blink m freelist ∈ b :: freelist :: members := List.mem_cons_of_mem b hlast
  have hne : b ≠ freelist := fun heq => hb (heq ▸ List.mem_cons_self)
  have hneLast : blink m freelist ≠ b := fun heq => hb (heq ▸ hlast)
  obtain ⟨hf₁, hb₁⟩ := links_setFlink (m := m) (v := freelist) hspread hbmem
  set m₁ := setFlink m b freelist with hm₁
  have hlast₁ : blink m₁ freelist = blink m freelist := hb₁ freelist hhead
  obtain ⟨hb₂, hf₂⟩ := links_setBlink (m := m₁) (v := blink m freelist) hspread hbmem
  set m₂ := setBlink m₁ b (blink m freelist) with hm₂
  obtain ⟨hb₃, hf₃⟩ := links_setBlink (m := m₂) (v := b) hspread hhead
  set m₃ := setBlink m₂ freelist b with hm₃
  have hlast₃ : blink m₃ b = blink m freelist := by
    rw [hb₃ b hbmem, Function.update_of_ne hne, hb₂ b hbmem, Function.update_self]
  obtain ⟨hf₄, hb₄⟩ := links_setFlink (m := m₃) (v := b) hspread hlast'
  refine ⟨setFlink m₃ (blink m freelist) b, ?_, ?_, ?_⟩
  · simp only [chain, check_pos hnext, check_pos hprev, ok_bind, ← hm₁, hlast₁, ← hm₂, ← hm₃,
      hlast₃]
    rfl
  · apply h.insertLast hb
    · intro x hx
      have hx' := List.mem_cons_of_mem b hx
      have hxb : x ≠ b := fun heq => hb (heq ▸ hx)
      rw [hf₄ x hx']
      by_cases hxl : x = blink m freelist
      · rw [hxl, Function.update_self, Function.update_self]
      · rw [Function.update_of_ne hxl, Function.update_of_ne hxl, hf₃ x hx', hf₂ x hx',
          hf₁ x hx', Function.update_of_ne hxb]
    · intro x hx
      have hx' := List.mem_cons_of_mem b hx
      have hxb : x ≠ b := fun heq => hb (heq ▸ hx)
      rw [hb₄ x hx', hb₃ x hx']
      by_cases hxh : x = freelist
      · rw [hxh, Function.update_self, Function.update_self]
      · rw [Function.update_of_ne hxh, Function.update_of_ne hxh, hb₂ x hx',
          Function.update_of_ne hxb, hb₁ x hx']
    · rw [hf₄ b hbmem, Function.update_of_ne hneLast.symm, hf₃ b hbmem, hf₂ b hbmem, hf₁ b hbmem,
        Function.update_self]
    · rw [hb₄ b hbmem, hlast₃]
  · intro c hc
    rw [setFlink_of_not_linkCell hlast' hc, hm₃, setBlink_of_not_linkCell hhead hc, hm₂,
      setBlink_of_not_linkCell hbmem hc, hm₁, setFlink_of_not_linkCell hbmem hc]

/-! ### The invariant -/

/-- The blocks in use. -/
def used (blocks : List Block) : List Block := blocks.filter fun b => !b.free

@[simp] theorem mem_used {u : Block} : u ∈ used blocks ↔ u ∈ blocks ∧ u.free = false := by
  simp [used]

/-- The bytes in use. -/
def taken : List Block → Int
  | [] => 0
  | b :: blocks => (if b.free then 0 else (b.size : Int)) + taken blocks

/-- The words that belong to the callers. -/
def InUse (blocks : List Block) (c : Nat) : Prop := ∃ u ∈ used blocks, u.addr + 8 ≤ c ∧ c < u.next

/-- There is a free block at `a`. -/
def FreeAt (blocks : List Block) (a : Nat) : Prop := ∃ b ∈ blocks, b.addr = a ∧ b.free = true

theorem freeAt_append {a : Nat} : FreeAt (l ++ r) a ↔ FreeAt l a ∨ FreeAt r a := by
  simp only [FreeAt, List.mem_append, or_and_right, exists_or]

theorem freeAt_cons {a : Nat} :
    FreeAt (b :: r) a ↔ (b.addr = a ∧ b.free = true) ∨ FreeAt r a := by
  simp only [FreeAt, List.mem_cons, or_and_right, exists_or, exists_eq_left]

theorem taken_cons : taken (b :: r) = (if b.free then 0 else (b.size : Int)) + taken r := rfl

theorem taken_append : taken (l ++ r) = taken l + taken r := by
  induction l with
  | nil => exact (zero_add _).symm
  | cons b l ih => rw [List.cons_append, taken_cons, taken_cons, ih, add_assoc]

/-- Only the blocks in use count. -/
theorem taken_used (blocks : List Block) : taken (used blocks) = taken blocks := by
  induction blocks with
  | nil => rfl
  | cons b blocks ih =>
    by_cases hfree : b.free = true
    · rw [used, List.filter_cons_of_neg (by simp [hfree]), ← used, ih, taken_cons, if_pos hfree,
        zero_add]
    · rw [used, List.filter_cons_of_pos (by simpa using hfree), ← used, taken_cons, taken_cons, ih]

/-- The free list is a ring of the free blocks. -/
structure FreeList (freelist : Nat) (m : Words) (blocks : List Block) (members : List Nat) :
    Prop where
  ring : IsRing (flink m) (blink m) freelist members
  mem_iff : ∀ a, a ∈ members ↔ FreeAt blocks a

structure Valid (freelist start stop : Nat) (s : Allocator) (blocks : List Block)
    (members : List Nat) : Prop where
  apart : freelist + 16 ≤ start ∨ stop + 8 ≤ freelist
  rest : Rest s.words stop start 0 blocks
  list : FreeList freelist s.words blocks members
  total : s.totalloc = taken blocks

theorem Valid.laid {s : Allocator} (h : Valid freelist start stop s blocks members) :
    Laid freelist start stop blocks :=
  h.rest.laid h.apart

theorem FreeList.isNode (h : FreeList freelist m blocks members) {w : Nat}
    (hw : w ∈ freelist :: members) : IsNode freelist blocks w := by
  rcases List.mem_cons.mp hw with rfl | hw
  · exact Or.inl rfl
  · obtain ⟨b, hb, haddr, -⟩ := (h.mem_iff w).mp hw
    exact Or.inr ⟨b, hb, haddr⟩

theorem FreeList.spread (h : FreeList freelist m blocks members)
    (hlaid : Laid freelist start stop blocks) : Spread (freelist :: members) :=
  fun _ hx _ hw => hlaid.node_node (h.isNode hx) (h.isNode hw)

/-- Headers are not where links are. -/
theorem Laid.not_linkCell (h : Laid freelist start stop blocks) {nodes : List Nat}
    (hnodes : ∀ w ∈ nodes, IsNode freelist blocks w) {y : Nat} (hy : IsStart stop blocks y) :
    ¬ LinkCell nodes y ∧ ¬ LinkCell nodes (y + 4) := by
  constructor
  · rintro ⟨w, hw, hcell⟩
    have := h.node_start (hnodes w hw) hy
    omega
  · rintro ⟨w, hw, hcell⟩
    have := h.node_start (hnodes w hw) hy
    omega

/-- Nor are the words of the callers. -/
theorem Laid.not_linkCell_inUse (h : Laid freelist start stop blocks) {nodes : List Nat}
    (hnodes : ∀ w ∈ nodes, w = freelist ∨ FreeAt blocks w) {c : Nat}
    (hc : InUse blocks c) : ¬ LinkCell nodes c := by
  rintro ⟨w, hw, hcell⟩
  obtain ⟨u, hu, hle, hlt⟩ := hc
  obtain ⟨hu, huse⟩ := mem_used.mp hu
  obtain ⟨hstart, hstop, -⟩ := h.inside u hu
  rcases hnodes w hw with rfl | ⟨b, hb, rfl, hfree⟩
  · have := h.apart
    omega
  · have hsize := (h.inside b hb).2.2
    rcases h.disjoint hu hb with rfl | hnext | hnext
    · exact absurd hfree (by simp [huse])
    · omega
    · simp only [Block.next] at hnext
      omega

/-- The places around a block. -/
theorem Laid.around (h : Laid freelist start stop (l ++ b :: r)) {w : Nat}
    (hw : IsNode freelist (l ++ b :: r) w ∨ IsStart stop (l ++ b :: r) w) :
    w = b.addr ∨ w + 16 ≤ b.addr ∨ b.next ≤ w := by
  have hb : b ∈ l ++ b :: r := by simp
  obtain ⟨hstart, hstop, hsize⟩ := h.inside b hb
  have hblock : ∀ x ∈ l ++ b :: r, x.addr = b.addr ∨ x.addr + 16 ≤ b.addr ∨ b.next ≤ x.addr := by
    intro x hx
    have hsize' := (h.inside x hx).2.2
    rcases h.disjoint hx hb with rfl | hle | hle
    · exact Or.inl rfl
    · simp only [Block.next] at hle
      omega
    · exact Or.inr (Or.inr hle)
  rcases hw with (rfl | ⟨x, hx, rfl⟩) | (rfl | ⟨x, hx, rfl⟩)
  · have := h.apart
    omega
  · exact hblock x hx
  · exact Or.inr (Or.inr hstop)
  · exact hblock x hx

/-- The blocks before and behind a block. -/
theorem Laid.sides (h : Laid freelist start stop (l ++ b :: r)) :
    (∀ x ∈ l, x.next ≤ b.addr ∧ 16 ≤ x.size) ∧ ∀ x ∈ r, b.next ≤ x.addr ∧ 16 ≤ x.size := by
  obtain ⟨-, hright, hcross⟩ := List.pairwise_append.mp h.spaced
  constructor
  · intro x hx
    exact ⟨hcross x hx b (by simp), (h.inside x (by simp [hx])).2.2⟩
  · intro x hx
    exact ⟨(List.pairwise_cons.mp hright).1 x hx, (h.inside x (by simp [hx])).2.2⟩

/-- A caller's word is outside every free block. -/
theorem Laid.inUse_around (h : Laid freelist start stop (l ++ b :: r)) (hfree : b.free = true)
    {c : Nat} (hc : InUse (l ++ b :: r) c) : c < b.addr ∨ b.next + 8 ≤ c := by
  obtain ⟨u, hu, hle, hlt⟩ := hc
  obtain ⟨hu, huse⟩ := mem_used.mp hu
  rcases h.disjoint hu (y := b) (by simp) with rfl | hnext | hnext
  · exact absurd hfree (by simp [huse])
  · omega
  · omega

theorem FreeList.congr {blocks' : List Block} (h : FreeList freelist m blocks members)
    (hkeep : ∀ c, LinkCell (freelist :: members) c → m' c = m c)
    (hsame : ∀ a, FreeAt blocks' a ↔ FreeAt blocks a) : FreeList freelist m' blocks' members :=
  ⟨ring_congr h.ring hkeep, fun a => (h.mem_iff a).trans (hsame a).symm⟩

/-- Where the links of free blocks are, there are no headers and no caller's words. -/
theorem Laid.keeps (h : Laid freelist start stop blocks) {nodes : List Nat}
    (hnodes : ∀ w ∈ nodes, w = freelist ∨ FreeAt blocks w)
    (hcells : ∀ c, ¬ LinkCell nodes c → m' c = m c) :
    (∀ y, IsStart stop blocks y → prevfree m' y = prevfree m y ∧ bsize m' y = bsize m y) ∧
      ∀ c, InUse blocks c → m' c = m c := by
  constructor
  · intro y hy
    have hnode : ∀ w ∈ nodes, IsNode freelist blocks w := by
      intro w hw
      rcases hnodes w hw with rfl | ⟨b, hb, heq, -⟩
      · exact Or.inl rfl
      · exact Or.inr ⟨b, hb, heq⟩
    have hnot := h.not_linkCell hnode hy
    exact ⟨hcells y hnot.1, hcells (y + 4) hnot.2⟩
  · intro c hc
    exact hcells c (h.not_linkCell_inUse hnodes hc)

/-- A free block leaves the free list. -/
theorem FreeList.dechain (h : FreeList freelist m (l ++ b :: r) members)
    (hlaid : Laid freelist start stop (l ++ b :: r)) (hfree : b.free = true) :
    ∃ m₁ members₁, Core.dechain b.addr m = .ok m₁ ∧
      IsRing (flink m₁) (blink m₁) freelist members₁ ∧
      (∀ a, a ∈ members₁ ↔ FreeAt (l ++ r) a) ∧
      (∀ w ∈ freelist :: members₁, w + 16 ≤ b.addr ∨ b.next ≤ w) ∧
      (∀ y, IsStart stop (l ++ b :: r) y →
        prevfree m₁ y = prevfree m y ∧ bsize m₁ y = bsize m y) ∧
      ∀ c, InUse (l ++ b :: r) c → m₁ c = m c := by
  obtain ⟨c₁, c₂, rfl⟩ := List.append_of_mem ((h.mem_iff b.addr).mpr ⟨b, by simp, rfl, hfree⟩)
  obtain ⟨m₁, hm₁, hring, hcells⟩ := dechain_spec h.ring (h.spread hlaid)
  have hmem : ∀ w ∈ freelist :: (c₁ ++ c₂), w = freelist ∨ FreeAt (l ++ b :: r) w := by
    intro w hw
    rcases List.mem_cons.mp hw with rfl | hw
    · exact Or.inl rfl
    · refine Or.inr ((h.mem_iff w).mp ?_)
      simp only [List.mem_append, List.mem_cons] at hw ⊢
      tauto
  have hnodup := h.ring.nodup
  rw [← List.cons_append] at hnodup
  have hhead : b.addr ∉ freelist :: (c₁ ++ c₂) := (List.nodup_middle.mp hnodup).notMem
  have hout : b.addr ∉ c₁ ++ c₂ := fun hin => hhead (List.mem_cons_of_mem freelist hin)
  refine ⟨m₁, c₁ ++ c₂, hm₁, hring, ?_, ?_, hlaid.keeps hmem hcells⟩
  rotate_left
  · intro w hw
    have hnode : IsNode freelist (l ++ b :: r) w :=
      (hmem w hw).imp_right fun ⟨x, hx, heq, _⟩ => ⟨x, hx, heq⟩
    exact (hlaid.around (Or.inl hnode)).resolve_left fun heq => hhead (heq ▸ hw)
  intro a
  obtain ⟨hleft, hright⟩ := hlaid.sides
  have hsize := (hlaid.inside b (by simp)).2.2
  have hother : ¬ FreeAt (l ++ r) b.addr := by
    rintro ⟨x, hx, haddr, -⟩
    rcases List.mem_append.mp hx with hx | hx
    · have := hleft x hx
      simp only [Block.next] at this
      omega
    · have := hright x hx
      simp only [Block.next] at this
      omega
  have hiff := h.mem_iff a
  rw [freeAt_append, freeAt_cons, List.mem_append, List.mem_cons] at hiff
  rw [List.mem_append] at hout ⊢
  rw [freeAt_append] at hother ⊢
  by_cases ha : a = b.addr
  · subst ha
    tauto
  · simp only [ha, Ne.symm ha, false_and, false_or] at hiff
    exact hiff

/-- A block in use becomes free and the last of the free list. -/
theorem FreeList.chain (h : FreeList freelist m (l ++ b :: r) members)
    (hlaid : Laid freelist start stop (l ++ b :: r)) (huse : b.free = false) :
    ∃ m₁, Core.chain freelist b.addr m = .ok m₁ ∧
      FreeList freelist m₁ (l ++ { b with free := true } :: r) (members ++ [b.addr]) ∧
      (∀ y, IsStart stop (l ++ b :: r) y →
        prevfree m₁ y = prevfree m y ∧ bsize m₁ y = bsize m y) ∧
      ∀ c, InUse (l ++ { b with free := true } :: r) c → m₁ c = m c := by
  have hbmem : b ∈ l ++ b :: r := by simp
  have hsize := (hlaid.inside b hbmem).2.2
  have hout : b.addr ∉ freelist :: members := by
    intro hmem
    rcases List.mem_cons.mp hmem with heq | hmem
    · have hbounds := hlaid.inside b hbmem
      have := hlaid.apart
      simp only [Block.next] at hbounds
      omega
    · obtain ⟨x, hx, haddr, hfree⟩ := (h.mem_iff b.addr).mp hmem
      rcases hlaid.disjoint hx hbmem with rfl | hle | hle
      · exact absurd hfree (by simp [huse])
      · have := (hlaid.inside x hx).2.2
        simp only [Block.next] at hle
        omega
      · simp only [Block.next] at hle
        omega
  have hnode : ∀ w ∈ b.addr :: freelist :: members, IsNode freelist (l ++ b :: r) w := by
    intro w hw
    rcases List.mem_cons.mp hw with rfl | hw
    · exact Or.inr ⟨b, hbmem, rfl⟩
    · exact h.isNode hw
  obtain ⟨m₁, hm₁, hring, hcells⟩ := chain_spec h.ring hout
    fun x hx w hw => hlaid.node_node (hnode x hx) (hnode w hw)
  -- the same row of blocks, with `b` free
  have hlaid' : Laid freelist start stop (l ++ { b with free := true } :: r) := by
    refine ⟨hlaid.apart, hlaid.le_stop, ?_, ?_⟩
    · intro x hx
      rcases List.mem_append.mp hx with hx | hx
      · exact hlaid.inside x (by simp [hx])
      · rcases List.mem_cons.mp hx with rfl | hx
        · exact hlaid.inside b hbmem
        · exact hlaid.inside x (by simp [hx])
    · have := hlaid.spaced
      rw [List.pairwise_append, List.pairwise_cons] at this ⊢
      obtain ⟨hl, ⟨hbr, hr⟩, hcross⟩ := this
      refine ⟨hl, ⟨hbr, hr⟩, ?_⟩
      intro x hx y hy
      rcases List.mem_cons.mp hy with rfl | hy
      · exact hcross x hx b (by simp)
      · exact hcross x hx y (by simp [hy])
  have hlist : ∀ a, a ∈ members ++ [b.addr] ↔ FreeAt (l ++ { b with free := true } :: r) a := by
    intro a
    have hiff := h.mem_iff a
    rw [freeAt_append, freeAt_cons] at hiff ⊢
    simp only [huse, Bool.false_eq_true, and_false, false_or] at hiff
    simp only [List.mem_append, List.mem_singleton, hiff, and_true, eq_comm (a := a)]
    tauto
  have hmem : ∀ w ∈ b.addr :: freelist :: members,
      w = freelist ∨ FreeAt (l ++ { b with free := true } :: r) w := by
    intro w hw
    rcases List.mem_cons.mp hw with rfl | hw
    · exact Or.inr ((hlist b.addr).mp (by simp))
    · rcases List.mem_cons.mp hw with rfl | hw
      · exact Or.inl rfl
      · exact Or.inr ((hlist w).mp (by simp [hw]))
  have hkeeps := hlaid'.keeps hmem hcells
  refine ⟨m₁, hm₁, ⟨hring, hlist⟩, ?_, hkeeps.2⟩
  intro y hy
  apply hkeeps.1
  rcases hy with rfl | ⟨x, hx, rfl⟩
  · exact Or.inl rfl
  · simp only [List.mem_append, List.mem_cons] at hx
    rcases hx with hx | rfl | hx
    · exact Or.inr ⟨x, by simp [hx], rfl⟩
    · exact Or.inr ⟨{ x with free := true }, by simp, rfl⟩
    · exact Or.inr ⟨x, by simp [hx], rfl⟩

end EbnAnchor.Core
