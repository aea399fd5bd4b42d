import EbnAnchor.Core.BgetHeap

/-!
What the functions of `bget.c` do to the heap.

* `Valid.bget`: the smallest free block that is big enough is given, whole or split;
* `Valid.brel`: a released block is joined with the free blocks on both sides;
* `bpool_spec`: a pool starts as one free block.
-/

namespace EbnAnchor.Core

open LinkedRing

variable {m m' : Words} {freelist start a e stop : Nat} {p q : Int} {b : Block}
  {l r blocks : List Block} {members : List Nat}

/-! ### `bget` -/

/-- Splitting a free block. -/
theorem Valid.split {s : Allocator} (h : Valid freelist start stop s (l ++ b :: r) members)
    (hfree : b.free = true) {n : Nat} (hn : 16 ≤ n) (hquantum : n % 4 = 0)
    (hlt : n + 16 < b.size) :
    ∃ s', Core.split s b.addr n = .ok (b.addr + (b.size - n) + 8, s') ∧
      Valid freelist start stop s' (l ++ ⟨b.addr, b.size - n, true⟩ ::
        ⟨b.addr + (b.size - n), n, false⟩ :: r) members ∧
      ∀ c, InUse (l ++ b :: r) c → s'.words c = s.words c := by
  have hlaid := h.laid
  obtain ⟨p', hl, hb, hr⟩ := rest_around.mp h.rest
  have hsize := hb.bsize
  rw [Block.tag, if_pos hfree] at hsize
  have hback := hr.prevfree
  rw [Block.back, if_pos hfree] at hback
  have hnext : b.next = b.addr + b.size := rfl
  have hba : ((b.size : Int) - n).toNat = b.size - n := by omega
  have hbn : b.addr + (b.size - n) + n = b.next := by omega
  obtain ⟨ba, hba'⟩ : ∃ ba, ba = b.addr + (b.size - n) := ⟨_, rfl⟩
  rw [← hba'] at hbn ⊢
  obtain ⟨m', hm'⟩ : ∃ m', m' = setPrevfree (setBsize (setPrevfree (setBsize s.words b.addr
    (b.size - n)) ba (b.size - n)) ba (-n)) b.next 0 := ⟨_, rfl⟩
  simp only [setPrevfree, setBsize] at hm'
  have hcells : ∀ c, c ≠ b.addr + 4 → c ≠ ba → c ≠ ba + 4 → c ≠ b.next → m' c = s.words c := by
    intro c h₁ h₂ h₃ h₄
    rw [hm', Function.update_of_ne h₄, Function.update_of_ne h₃, Function.update_of_ne h₂,
      Function.update_of_ne h₁]
  have hkeep : ∀ y, IsStart stop (l ++ r) y → y + 16 ≤ b.addr ∨ b.next < y →
      prevfree m' y = prevfree s.words y ∧ bsize m' y = bsize s.words y := by
    intro y _ hy
    exact ⟨hcells _ (by omega) (by omega) (by omega) (by omega),
      hcells _ (by omega) (by omega) (by omega) (by omega)⟩
  have hblock : Header m' ⟨b.addr, b.size - n, true⟩ p' := by
    have hquantum' := hb.quantum
    refine ⟨?_, ?_, ?_, ?_, fun _ => hb.alone hfree⟩
    · rw [← hb.prevfree]
      exact hcells b.addr (by omega) (by omega) (by omega) (by omega)
    · have htag : bsize m' b.addr = b.size - n := by
        rw [bsize, hm', Function.update_of_ne (by omega), Function.update_of_ne (by omega),
          Function.update_of_ne (by omega), Function.update_self]
      simp only [Block.tag, htag, if_true]
      omega
    · change 16 ≤ b.size - n
      omega
    · change (b.size - n) % 4 = 0
      omega
  have hgiven : Header m' ⟨ba, n, false⟩ (b.size - n) := by
    refine ⟨?_, ?_, hn, hquantum, fun hused => absurd hused Bool.false_ne_true⟩
    · change m' ba = _
      rw [hm', Function.update_of_ne (by omega), Function.update_of_ne (by omega),
        Function.update_self]
    · change m' (ba + 4) = _
      rw [hm', Function.update_of_ne (by omega), Function.update_self]
      rfl
  refine ⟨⟨m', s.totalloc + n, s.numget + 1, s.numrel⟩, ?_, ⟨h.apart, ?_, ?_, ?_⟩, ?_⟩
  · simp only [Core.split, hsize, hback, hba, Int.toNat_natCast, ← hba', hbn, check_pos, ok_bind,
      bsize_setBsize, hm']
    rfl
  · apply Rest.replace [⟨b.addr, b.size - n, true⟩, ⟨ba, n, false⟩] hl hr
    · have hback' : Block.back ⟨b.addr, b.size - n, true⟩ = b.size - n := by
        simp only [Block.back, if_true]
        omega
      refine ⟨rfl, hblock, hba', ?_, hbn, rfl⟩
      rw [hback']
      exact hgiven
    · change m' b.next = _
      rw [hm', Function.update_self]
      rfl
    · exact Or.inl rfl
    · exact hkeep
    · exact hcells (b.next + 4) (by omega) (by omega) (by omega) (by omega)
  · apply h.list.congr
    · rintro c ⟨w, hw, hcell⟩
      have := hlaid.around (Or.inl (h.list.isNode hw))
      exact hcells c (by omega) (by omega) (by omega) (by omega)
    · intro a
      simp [freeAt_append, freeAt_cons, hfree]
  · simp only [h.total, taken_append, taken_cons, hfree]
    simp
    omega
  · intro c hc
    have := hlaid.inUse_around hfree hc
    exact hcells c (by omega) (by omega) (by omega) (by omega)

/-- Giving a free block away. -/
theorem Valid.giveWhole {s : Allocator} (h : Valid freelist start stop s (l ++ b :: r) members)
    (hfree : b.free = true) :
    ∃ s' members', Core.giveWhole s b.addr = .ok (b.addr + 8, s') ∧
      Valid freelist start stop s' (l ++ ⟨b.addr, b.size, false⟩ :: r) members' ∧
      ∀ c, InUse (l ++ b :: r) c → s'.words c = s.words c := by
  have hlaid := h.laid
  obtain ⟨p', hl, hb, hr⟩ := rest_around.mp h.rest
  have hsize := hb.bsize
  rw [Block.tag, if_pos hfree] at hsize
  have hback := hr.prevfree
  rw [Block.back, if_pos hfree] at hback
  have hnext : b.addr + b.size = b.next := rfl
  have hlarge := hb.le_size
  obtain ⟨m₁, members₁, hm₁, hring, hmem, haway, hkeep, huse⟩ := h.list.dechain hlaid hfree
  have hself := hkeep b.addr (Or.inr ⟨b, by simp, rfl⟩)
  obtain ⟨m', hm'⟩ : ∃ m', m' = setPrevfree (setBsize m₁ b.addr (-b.size)) b.next 0 := ⟨_, rfl⟩
  simp only [setPrevfree, setBsize] at hm'
  have hcells : ∀ c, c ≠ b.addr + 4 → c ≠ b.next → m' c = m₁ c := by
    intro c h₁ h₂
    rw [hm', Function.update_of_ne h₂, Function.update_of_ne h₁]
  have hgiven : Header m' ⟨b.addr, b.size, false⟩ p' := by
    refine ⟨?_, ?_, hlarge, hb.quantum, fun hused => absurd hused Bool.false_ne_true⟩
    · rw [← hb.prevfree, ← hself.1]
      exact hcells b.addr (by omega) (by omega)
    · change m' (b.addr + 4) = _
      rw [hm', Function.update_of_ne (by omega), Function.update_self]
      rfl
  refine ⟨⟨m', s.totalloc + b.size, s.numget + 1, s.numrel⟩, members₁, ?_,
    ⟨h.apart, ?_, ⟨?_, ?_⟩, ?_⟩, ?_⟩
  · simp only [Core.giveWhole, hsize, Int.toNat_natCast, hnext, hback, check_pos, ok_bind, hm₁,
      hself.2, hm']
    rfl
  · apply Rest.replace [⟨b.addr, b.size, false⟩] hl hr
    · exact ⟨rfl, hgiven, rfl, rfl⟩
    · change m' b.next = _
      rw [hm', Function.update_self]
      rfl
    · exact Or.inl rfl
    · intro y hy hout
      have hold := hkeep y (hy.mono fun x hx => by
        simp only [List.mem_append, List.mem_cons] at hx ⊢
        tauto)
      rw [← hold.1, ← hold.2]
      exact ⟨hcells y (by omega) (by omega), hcells (y + 4) (by omega) (by omega)⟩
    · have hold := hkeep b.next (hr.isStart.mono fun x hx => by simp [hx])
      rw [← hold.2]
      exact hcells (b.next + 4) (by omega) (by omega)
  · apply ring_congr hring
    rintro c ⟨w, hw, hcell⟩
    have := haway w hw
    exact hcells c (by omega) (by omega)
  · intro a
    rw [hmem, freeAt_append, freeAt_append, freeAt_cons]
    simp
  · simp only [h.total, taken_append, taken_cons, hfree]
    simp
    omega
  · intro c hc
    have := hlaid.inUse_around hfree hc
    rw [← huse c hc]
    exact hcells c (by omega) (by omega)

/-- The first loop ends with the smallest block that is big enough, if there is one. -/
theorem scan_spec {x : Nat} {rest : List Nat} (h : Walk (flink m) freelist x rest) (n : Int)
    (best time : Nat) (htime : rest.length < time) :
    ∃ found, scan freelist m n time x best = .ok found ∧
      (found = best ∨ found ∈ rest ∧ n ≤ bsize m found) ∧
      (∀ a ∈ rest, n ≤ bsize m a → found ≠ freelist ∧ bsize m found ≤ bsize m a) ∧
      (best ≠ freelist → found ≠ freelist ∧ bsize m found ≤ bsize m best) := by
  induction h generalizing best time with
  | stop =>
    obtain ⟨time, rfl⟩ := Nat.exists_eq_succ_of_ne_zero (Nat.ne_of_gt htime)
    refine ⟨best, ?_, Or.inl rfl, fun a ha => absurd ha List.not_mem_nil, fun h => ⟨h, le_rfl⟩⟩
    rw [scan, if_neg (not_not.mpr rfl)]
  | @step x rest hx hrest ih =>
    obtain ⟨time, rfl⟩ := Nat.exists_eq_succ_of_ne_zero (Nat.ne_zero_of_lt htime)
    rw [List.length_cons] at htime
    rw [scan, if_pos hx]
    by_cases hbetter : bsize m x ≥ n ∧ (best = freelist ∨ bsize m x < bsize m best)
    · rw [if_pos hbetter]
      obtain ⟨found, hscan, hwhere, hleast, hbest⟩ := ih x time (by omega)
      obtain ⟨hfound, hle⟩ := hbest hx
      refine ⟨found, hscan, ?_, ?_, ?_⟩
      · rcases hwhere with rfl | ⟨hmem, hn⟩
        · exact Or.inr ⟨List.mem_cons_self, hbetter.1⟩
        · exact Or.inr ⟨List.mem_cons_of_mem x hmem, hn⟩
      · intro a ha hn
        rcases List.mem_cons.mp ha with rfl | ha
        · exact ⟨hfound, hle⟩
        · exact hleast a ha hn
      · intro hne
        exact ⟨hfound, hle.trans (hbetter.2.resolve_left hne).le⟩
    · rw [if_neg hbetter]
      obtain ⟨found, hscan, hwhere, hleast, hbest⟩ := ih best time (by omega)
      refine ⟨found, hscan, ?_, ?_, hbest⟩
      · exact hwhere.imp_right fun ⟨hmem, hn⟩ => ⟨List.mem_cons_of_mem x hmem, hn⟩
      · intro a ha hn
        rcases List.mem_cons.mp ha with rfl | ha
        · have hkept : best ≠ freelist ∧ bsize m best ≤ bsize m a := by
            constructor
            · intro heq
              exact hbetter ⟨hn, Or.inl heq⟩
            · by_contra hlt
              exact hbetter ⟨hn, Or.inr (not_le.mp hlt)⟩
          obtain ⟨hfound, hle⟩ := hbest hkept.1
          exact ⟨hfound, hle.trans hkept.2⟩
        · exact hleast a ha hn

/-- A block for the request has room for it, its header and the links of the free list. -/
theorem bufsize_of_lt {n : Int} (hpos : 0 ≤ n) (hlt : n < 2147483648) : bufsize n = n :=
  Int.bmod_eq_of_le (by omega) (by omega)

/-- Below `2 ^ 31 - 11` the size of the block is a `long`. -/
theorem blockSize_spec {size : Int} (hpos : 0 < size) (hlong : size + 11 < 2147483648) :
    ∃ n : Nat, blockSize size = n ∧ 16 ≤ n ∧ n % 4 = 0 ∧ size + 8 ≤ n := by
  refine ⟨(blockSize size).toNat, ?_⟩
  have hlarge : 16 ≤ blockSize size ∧ blockSize size % 4 = 0 ∧ size + 8 ≤ blockSize size := by
    simp only [blockSize, sizeQ, sizeQuant, sizeofBhead]
    split
    · rw [bufsize_of_lt (by omega) (by omega)]
      omega
    · rw [bufsize_of_lt (by omega) (by omega)]
      omega
  omega

/-- What a free block gives for a request of `n` bytes, header included. -/
theorem Valid.place {s : Allocator} (h : Valid freelist start stop s blocks members) {a n : Nat}
    (time : Nat) (ha : a ∈ members) (hn : 16 ≤ n) (hquantum : n % 4 = 0)
    (hle : (n : Int) ≤ bsize s.words a) :
    ∃ u s' blocks' members',
      Core.place freelist s n (time + 1) a = .ok (some (u.addr + 8), s') ∧
      Valid freelist start stop s' blocks' members' ∧
      (∀ x, x ∈ used blocks' ↔ x = u ∨ x ∈ used blocks) ∧ u ∉ used blocks ∧ n ≤ u.size ∧
      ∀ c, InUse blocks c → s'.words c = s.words c := by
  have hne : a ≠ freelist := by
    rintro rfl
    exact (List.nodup_cons.mp h.list.ring.nodup).1 ha
  obtain ⟨b, hb, rfl, hfree⟩ := (h.list.mem_iff a).mp ha
  obtain ⟨l, r, rfl⟩ := List.append_of_mem hb
  have hsize : bsize s.words b.addr = b.size := by
    obtain ⟨p', -, hheader, -⟩ := rest_around.mp h.rest
    rw [hheader.bsize, Block.tag, if_pos hfree]
  have hsplit : sizeQ + sizeofBhead = 16 := rfl
  -- a block inside `b` is none of those in use
  have hfresh : ∀ u : Block, u.free = false → b.addr ≤ u.addr → u.next = b.next → 0 < u.size →
      u ∉ used (l ++ b :: r) := by
    intro u huse hlow hhigh hsize hmem
    rcases h.laid.disjoint (mem_used.mp hmem).1 hb with rfl | hle | hle
    · exact absurd hfree (by simp [huse])
    · simp only [Block.next] at hle hhigh
      omega
    · simp only [Block.next] at hle hhigh
      omega
  rw [Core.place, if_pos hne, if_pos hle]
  rw [hsize] at hle
  by_cases hlt : bsize s.words b.addr - n > sizeQ + sizeofBhead
  · rw [if_pos hlt]
    rw [hsize, hsplit] at hlt
    obtain ⟨s', hgive, hvalid, hkeep⟩ := h.split hfree hn hquantum (by omega)
    refine ⟨⟨b.addr + (b.size - n), n, false⟩, s', _, _, ?_, hvalid, ?_, ?_, le_rfl, hkeep⟩
    · rw [hgive]
      rfl
    · intro x
      simp only [mem_used, List.mem_append, List.mem_cons]
      constructor
      · rintro ⟨hx | rfl | rfl | hx, huse⟩
        · exact Or.inr ⟨Or.inl hx, huse⟩
        · cases huse
        · exact Or.inl rfl
        · exact Or.inr ⟨Or.inr (Or.inr hx), huse⟩
      · rintro (rfl | ⟨hx | rfl | hx, huse⟩)
        · exact ⟨Or.inr (Or.inr (Or.inl rfl)), rfl⟩
        · exact ⟨Or.inl hx, huse⟩
        · exact absurd hfree (by simp [huse])
        · exact ⟨Or.inr (Or.inr (Or.inr hx)), huse⟩
    · apply hfresh _ rfl
      · simp only
        omega
      · simp only [Block.next]
        omega
      · simp only
        omega
  · rw [if_neg hlt]
    obtain ⟨s', members', hgive, hvalid, hkeep⟩ := h.giveWhole hfree
    refine ⟨⟨b.addr, b.size, false⟩, s', _, _, ?_, hvalid, ?_, ?_, ?_, hkeep⟩
    · rw [hgive]
      rfl
    · intro x
      simp only [mem_used, List.mem_append, List.mem_cons]
      constructor
      · rintro ⟨hx | rfl | hx, huse⟩
        · exact Or.inr ⟨Or.inl hx, huse⟩
        · exact Or.inl rfl
        · exact Or.inr ⟨Or.inr (Or.inr hx), huse⟩
      · rintro (rfl | ⟨hx | rfl | hx, huse⟩)
        · exact ⟨Or.inr (Or.inl rfl), rfl⟩
        · exact ⟨Or.inl hx, huse⟩
        · exact absurd hfree (by simp [huse])
        · exact ⟨Or.inr (Or.inr hx), huse⟩
    · refine hfresh ⟨b.addr, b.size, false⟩ rfl le_rfl rfl ?_
      simp only
      omega
    · simp only
      omega

/-- `bget` gives a block that was not in use, or finds no free block that is big enough. -/
theorem Valid.bget {s : Allocator} (h : Valid freelist start stop s blocks members)
    {size : Int} (hpos : 0 < size) (hlong : size + 11 < 2147483648) {time : Nat}
    (htime : members.length < time) :
    (∃ u s' blocks' members', Core.bget freelist time size s = .ok (some (u.addr + 8), s') ∧
      Valid freelist start stop s' blocks' members' ∧
      (∀ x, x ∈ used blocks' ↔ x = u ∨ x ∈ used blocks) ∧ u ∉ used blocks ∧
      blockSize size ≤ u.size ∧ ∀ c, InUse blocks c → s'.words c = s.words c) ∨
    (Core.bget freelist time size s = .ok (none, s) ∧
      ∀ b ∈ blocks, b.free = true → (b.size : Int) < blockSize size) := by
  obtain ⟨n, hn, hlarge, hquantum, hroom⟩ := blockSize_spec hpos hlong
  obtain ⟨found, hscan, hwhere, hleast, -⟩ :=
    scan_spec h.list.ring.walk n freelist time htime
  obtain ⟨turns, rfl⟩ := Nat.exists_eq_succ_of_ne_zero (Nat.ne_zero_of_lt htime)
  simp only [Core.bget, gt_iff_lt, check_pos hpos, ok_bind, hn, hscan]
  rcases hwhere with rfl | ⟨hmem, hle⟩
  · refine Or.inr ⟨by rw [Core.place, if_neg (not_not.mpr rfl)], ?_⟩
    intro b hb hfree
    by_contra hge
    obtain ⟨l, r, rfl⟩ := List.append_of_mem hb
    have hsize : bsize s.words b.addr = b.size := by
      obtain ⟨p', -, hheader, -⟩ := rest_around.mp h.rest
      rw [hheader.bsize, Block.tag, if_pos hfree]
    have hmem := (h.list.mem_iff b.addr).mpr ⟨b, hb, rfl, hfree⟩
    exact (hleast b.addr hmem (by omega)).1 rfl
  · obtain ⟨u, s', blocks', members', hplace, hvalid, hused, hfresh, hsize, hkeep⟩ :=
      h.place turns hmem hlarge hquantum hle
    exact Or.inl ⟨u, s', blocks', members', hplace, hvalid, hused, hfresh, by omega, hkeep⟩

/-! ### `brel` -/

theorem Segment.spaced (h : Segment m a p blocks e q) :
    blocks.Pairwise fun x y => x.next ≤ y.addr := by
  induction blocks generalizing a p with
  | nil => exact List.Pairwise.nil
  | cons b blocks ih =>
    obtain ⟨-, -, hrest⟩ := h
    refine List.pairwise_cons.mpr ⟨?_, ih hrest⟩
    intro c hc
    exact (hrest.bounds.2 c hc).1

/-- While a block is released: it is free already, and the header behind it says `q`. -/
structure Joining (freelist start stop : Nat) (m : Words) (l : List Block) (b : Block) (q : Int)
    (r : List Block) (members : List Nat) : Prop where
  apart : freelist + 16 ≤ start ∨ stop + 8 ≤ freelist
  left : Segment m start 0 l b.addr 0
  header : Header m b 0
  free : b.free = true
  right : Rest m stop b.next q r
  list : FreeList freelist m (l ++ b :: r) members

theorem Joining.laid (h : Joining freelist start stop m l b q r members) :
    Laid freelist start stop (l ++ b :: r) := by
  obtain ⟨hstart, hleft⟩ := h.left.bounds
  obtain ⟨hstop, hright⟩ := h.right.bounds
  have hlarge := h.header.le_size
  have hnext : b.next = b.addr + b.size := rfl
  refine ⟨h.apart, by omega, ?_, ?_⟩
  · intro x hx
    simp only [List.mem_append, List.mem_cons] at hx
    rcases hx with hx | rfl | hx
    · obtain ⟨h₁, h₂, h₃⟩ := hleft x hx
      exact ⟨h₁, by omega, h₃⟩
    · exact ⟨hstart, hstop, hlarge⟩
    · obtain ⟨h₁, h₂, h₃⟩ := hright x hx
      exact ⟨by omega, h₂, h₃⟩
  · rw [List.pairwise_append, List.pairwise_cons]
    refine ⟨h.left.spaced, ⟨fun x hx => (hright x hx).1, h.right.spaced⟩, ?_⟩
    intro x hx y hy
    have hx' := (hleft x hx).2.1
    rcases List.mem_cons.mp hy with rfl | hy
    · exact hx'
    · have := (hright y hy).1
      omega

theorem Joining.bsize (h : Joining freelist start stop m l b q r members) :
    bsize m b.addr = b.size := by
  rw [h.header.bsize, Block.tag, if_pos h.free]

/-- A word of a header is not where a link is. -/
theorem Laid.not_linkCell_header (h : Laid freelist start stop (l ++ b :: r)) {w : Nat}
    (hw : IsNode freelist (l ++ b :: r) w) :
    w + 8 ≠ b.addr + 4 ∧ w + 12 ≠ b.addr + 4 := by
  have hsize := (h.inside b (by simp)).2.2
  have hplace := h.around (Or.inl hw)
  simp only [Block.next] at hplace
  omega

/-- The released block becomes free, alone or as a part of the free block before it. -/
theorem Valid.joinPrevious {s : Allocator} (h : Valid freelist start stop s (l ++ b :: r) members)
    (huse : b.free = false) :
    ∃ l₁ b₁ m₁ members₁, Core.joinPrevious freelist b.addr s.words = .ok (b₁.addr, m₁) ∧
      Joining freelist start stop m₁ l₁ b₁ 0 r members₁ ∧ used l₁ = used l ∧
      ∀ c, InUse (l₁ ++ b₁ :: r) c → m₁ c = s.words c := by
  have hlaid := h.laid
  obtain ⟨p', hl, hb, hr⟩ := rest_around.mp h.rest
  have hnext : b.next = b.addr + b.size := rfl
  have hlarge := hb.le_size
  have hsize := hb.bsize
  rw [Block.tag, if_neg (by simp [huse])] at hsize
  have hback : b.back = 0 := if_neg (by simp [huse])
  rw [hback] at hr
  obtain ⟨hleft, hright⟩ := hlaid.sides
  have hafter := hr.bounds
  by_cases hp : p' = 0
  · -- the block before is in use, or there is none
    subst hp
    obtain ⟨m₁, hm₁, hlist, hkeep, hwords⟩ := h.list.chain hlaid huse
    have hself := hkeep b.addr (Or.inr ⟨b, by simp, rfl⟩)
    obtain ⟨m', hm'⟩ : ∃ m', m' = setBsize m₁ b.addr b.size := ⟨_, rfl⟩
    rw [setBsize] at hm'
    have hcells : ∀ c, c ≠ b.addr + 4 → m' c = m₁ c := by
      intro c hc
      rw [hm', Function.update_of_ne hc]
    have hsame : ∀ y, IsStart stop (l ++ b :: r) y → y + 16 ≤ b.addr ∨ b.next ≤ y →
        prevfree m' y = prevfree s.words y ∧ Core.bsize m' y = Core.bsize s.words y := by
      intro y hy hout
      obtain ⟨hprev, hsz⟩ := hkeep y hy
      rw [← hprev, ← hsz]
      exact ⟨hcells y (by omega), hcells (y + 4) (by omega)⟩
    have hjoin : Joining freelist start stop m' l { b with free := true } 0 r
        (members ++ [b.addr]) := by
      refine ⟨h.apart, ?_, ⟨?_, ?_, hlarge, hb.quantum, fun _ => rfl⟩, rfl, ?_, ⟨?_, ?_⟩⟩
      · apply hl.congr
        intro x hx
        obtain ⟨hle, hsize⟩ := hleft x hx
        simp only [Block.next] at hle
        exact hsame x.addr (Or.inr ⟨x, by simp [hx], rfl⟩) (by omega)
      · rw [← hb.prevfree, ← hself.1]
        exact hcells b.addr (by omega)
      · change m' (b.addr + 4) = _
        rw [hm', Function.update_self]
        rfl
      · apply hr.congr
        intro y hy
        have hle : b.next ≤ y := by
          rcases hy with rfl | ⟨x, hx, rfl⟩
          · exact hafter.1
          · exact (hafter.2 x hx).1
        exact hsame y (hy.mono fun x hx => by simp [hx]) (Or.inr hle)
      · apply ring_congr hlist.ring
        rintro c ⟨w, hw, hcell⟩
        have hnode : IsNode freelist (l ++ b :: r) w := by
          rcases hlist.isNode hw with rfl | ⟨x, hx, rfl⟩
          · exact Or.inl rfl
          · simp only [List.mem_append, List.mem_cons] at hx
            rcases hx with hx | rfl | hx
            · exact Or.inr ⟨x, by simp [hx], rfl⟩
            · exact Or.inr ⟨b, by simp, rfl⟩
            · exact Or.inr ⟨x, by simp [hx], rfl⟩
        have := hlaid.not_linkCell_header hnode
        exact hcells c (by omega)
      · exact hlist.mem_iff
    refine ⟨l, _, m', _, ?_, hjoin, rfl, ?_⟩
    · simp only [Core.joinPrevious, hb.prevfree, ne_eq, not_true_eq_false, if_false, hm₁, ok_bind,
        hself.2, hsize, neg_neg, hm']
      rfl
    · intro c hc
      rw [← hwords c hc]
      have := hjoin.laid.inUse_around rfl hc
      simp only [Block.next] at this
      exact hcells c (by omega)
  · -- the block before is free
    rcases List.eq_nil_or_concat' l with rfl | ⟨l', before, rfl⟩
    · exact absurd hl.2.symm hp
    obtain ⟨a', p'', hl', rfl, hbefore, hnext', hback'⟩ := segment_append.mp hl
    have hfree : before.free = true := by
      by_contra hfree
      rw [Block.back, if_neg hfree] at hback'
      exact hp hback'.symm
    rw [Block.back, if_pos hfree] at hback'
    obtain rfl := hbefore.alone hfree
    have htag := hbefore.bsize
    rw [Block.tag, if_pos hfree] at htag
    have hlarge' := hbefore.le_size
    have hbnext : before.addr + before.size = b.addr := hnext'
    obtain ⟨m', hm'⟩ : ∃ m', m' = setBsize s.words before.addr (before.size + b.size) := ⟨_, rfl⟩
    rw [setBsize] at hm'
    have hcells : ∀ c, c ≠ before.addr + 4 → m' c = s.words c := by
      intro c hc
      rw [hm', Function.update_of_ne hc]
    have hlist : l' ++ [before] ++ b :: r = l' ++ before :: b :: r := by simp
    rw [hlist] at h hlaid
    have hjoin : Joining freelist start stop m' l' ⟨before.addr, before.size + b.size, true⟩ 0 r
        members := by
      have hquantum := hb.quantum
      have hquantum' := hbefore.quantum
      refine ⟨h.apart, ?_, ⟨?_, ?_, ?_, ?_, fun _ => rfl⟩, rfl, ?_, ?_⟩
      · apply hl'.congr
        intro x hx
        obtain ⟨-, hle, hsize⟩ := hl'.bounds.2 x hx
        simp only [Block.next] at hle
        exact ⟨hcells x.addr (by omega), hcells (x.addr + 4) (by omega)⟩
      · rw [← hbefore.prevfree]
        exact hcells before.addr (by omega)
      · change m' (before.addr + 4) = _
        rw [hm', Function.update_self]
        simp [Block.tag]
      · change 16 ≤ before.size + b.size
        omega
      · change (before.size + b.size) % 4 = 0
        omega
      · have hend : Block.next ⟨before.addr, before.size + b.size, true⟩ = b.next := by
          simp only [Block.next]
          omega
        rw [hend]
        apply hr.congr
        intro y hy
        have hle : b.next ≤ y := by
          rcases hy with rfl | ⟨x, hx, rfl⟩
          · exact hafter.1
          · exact (hafter.2 x hx).1
        exact ⟨hcells y (by omega), hcells (y + 4) (by omega)⟩
      · apply h.list.congr
        · rintro c ⟨w, hw, hcell⟩
          have := hlaid.not_linkCell_header (h.list.isNode hw)
          exact hcells c (by omega)
        · intro a
          simp [freeAt_append, freeAt_cons, hfree, huse]
    refine ⟨l', _, m', members, ?_, hjoin, ?_, ?_⟩
    · have hsub : b.addr - before.size = before.addr := by omega
      simp only [Core.joinPrevious, hb.prevfree, ← hback', ne_eq, hback'.symm ▸ hp,
        not_false_eq_true, if_true, Int.toNat_natCast, hsub, htag, check_pos, ok_bind, hsize,
        sub_neg_eq_add, hm']
      rfl
    · simp [used, hfree]
    · intro c hc
      have := hjoin.laid.inUse_around rfl hc
      simp only [Block.next] at this
      exact hcells c (by omega)

/-- The free block takes in the block behind it, so that the next one is in use. -/
theorem Joining.joinNext (h : Joining freelist start stop m l b q r members) :
    ∃ b₁ r₁ m₁ q₁ members₁, Core.joinNext b.addr m = .ok m₁ ∧ b₁.addr = b.addr ∧
      Joining freelist start stop m₁ l b₁ q₁ r₁ members₁ ∧
      (∀ x ∈ r₁.head?, x.free = false) ∧ used r₁ = used r ∧
      ∀ c, InUse (l ++ b₁ :: r₁) c → m₁ c = m c := by
  have hsize := h.bsize
  have hnext : b.addr + b.size = b.next := rfl
  have hlarge := h.header.le_size
  by_cases hbn : Core.bsize m b.next > 0
  · -- a free block follows
    obtain ⟨bn, r', rfl, haddr, htag⟩ := h.right.bsize.resolve_right fun ⟨_, _, hsent⟩ => by
      rw [hsent] at hbn
      exact absurd hbn (by decide)
    have hfree : bn.free = true := by
      by_contra hused
      rw [htag, Block.tag, if_neg hused] at hbn
      omega
    rw [Block.tag, if_pos hfree] at htag
    obtain ⟨-, hheader, hright⟩ := rest_cons.mp h.right
    have hback := hright.prevfree
    rw [Block.back, if_pos hfree] at hback
    have hbnext : b.next + bn.size = bn.next := by rw [← haddr]; rfl
    have hlaid := h.laid
    have hlist := h.list
    have hassoc : l ++ b :: bn :: r' = (l ++ [b]) ++ bn :: r' := by simp
    rw [hassoc] at hlaid hlist
    obtain ⟨m₁, members₁, hm₁, hring, hmem, haway, hkeep, hwords⟩ := hlist.dechain hlaid hfree
    rw [haddr] at hm₁
    have hself := hkeep b.addr (Or.inr ⟨b, by simp, rfl⟩)
    have hselfn := hkeep bn.addr (Or.inr ⟨bn, by simp, rfl⟩)
    rw [haddr] at hselfn
    obtain ⟨m', hm'⟩ : ∃ m', m' = setBsize m₁ b.addr (b.size + bn.size) := ⟨_, rfl⟩
    rw [setBsize] at hm'
    have hcells : ∀ c, c ≠ b.addr + 4 → m' c = m₁ c := by
      intro c hc
      rw [hm', Function.update_of_ne hc]
    have hsame : ∀ y, IsStart stop ((l ++ [b]) ++ bn :: r') y → y + 16 ≤ b.addr ∨ b.next ≤ y →
        prevfree m' y = prevfree m y ∧ Core.bsize m' y = Core.bsize m y := by
      intro y hy hout
      obtain ⟨hprev, hsz⟩ := hkeep y hy
      rw [← hprev, ← hsz]
      exact ⟨hcells y (by omega), hcells (y + 4) (by omega)⟩
    have hend : Block.next ⟨b.addr, b.size + bn.size, true⟩ = bn.next := by
      simp only [Block.next] at hbnext ⊢
      omega
    have hjoin : Joining freelist start stop m' l ⟨b.addr, b.size + bn.size, true⟩ bn.back r'
        members₁ := by
      have hquantum := h.header.quantum
      have hquantum' := hheader.quantum
      refine ⟨h.apart, ?_, ⟨?_, ?_, ?_, ?_, fun _ => rfl⟩, rfl, ?_, ⟨?_, ?_⟩⟩
      · apply h.left.congr
        intro x hx
        obtain ⟨-, hle, hsize⟩ := h.left.bounds.2 x hx
        simp only [Block.next] at hle
        exact hsame x.addr (Or.inr ⟨x, by simp [hx], rfl⟩) (by omega)
      · rw [← h.header.prevfree, ← hself.1]
        exact hcells b.addr (by omega)
      · change m' (b.addr + 4) = _
        rw [hm', Function.update_self]
        simp [Block.tag]
      · change 16 ≤ b.size + bn.size
        omega
      · change (b.size + bn.size) % 4 = 0
        omega
      · rw [hend]
        apply hright.congr
        intro y hy
        have hle : bn.next ≤ y := by
          rcases hy with rfl | ⟨x, hx, rfl⟩
          · exact hright.bounds.1
          · exact (hright.bounds.2 x hx).1
        exact hsame y (hy.mono fun x hx => by simp [hx]) (Or.inr (by omega))
      · apply ring_congr hring
        rintro c ⟨w, hw, hcell⟩
        have hnode : IsNode freelist (l ++ b :: bn :: r') w := by
          rcases List.mem_cons.mp hw with rfl | hw
          · exact Or.inl rfl
          · obtain ⟨x, hx, heq, -⟩ := (hmem w).mp hw
            simp only [List.mem_append, List.mem_cons, List.not_mem_nil, or_false] at hx
            refine Or.inr ⟨x, ?_, heq⟩
            simp only [List.mem_append, List.mem_cons]
            tauto
        have := h.laid.not_linkCell_header hnode
        exact hcells c (by omega)
      · intro a
        rw [hmem, List.append_assoc, List.singleton_append, freeAt_append, freeAt_append,
          freeAt_cons, freeAt_cons, h.free]
    refine ⟨⟨b.addr, b.size + bn.size, true⟩, r', m', bn.back, members₁, ?_, rfl, hjoin, ?_, ?_,
      ?_⟩
    · have hpos : (bn.size : Int) > 0 := htag ▸ hbn
      simp only [Core.joinNext, hsize, Int.toNat_natCast, hnext, hpos, if_true, htag, hbnext, hback,
        check_pos, ok_bind, hm₁, hself.2, hselfn.2, hm']
      rfl
    · intro x hx
      cases r' with
      | nil => cases hx
      | cons y r'' =>
        obtain rfl : y = x := Option.some_inj.mp hx
        obtain ⟨-, hy, -⟩ := rest_cons.mp hright
        by_contra hyfree
        have hzero := hy.alone (by simpa using hyfree)
        rw [Block.back, if_pos hfree] at hzero
        have := hheader.le_size
        omega
    · simp [used, hfree]
    · intro c hc
      have hin : InUse ((l ++ [b]) ++ bn :: r') c := by
        obtain ⟨u, hu, hrange⟩ := hc
        refine ⟨u, ?_, hrange⟩
        simp only [mem_used, List.mem_append, List.mem_cons] at hu ⊢
        rcases hu with ⟨hu | rfl | hu, huse⟩
        · exact ⟨by simp [hu], huse⟩
        · cases huse
        · exact ⟨by simp [hu], huse⟩
      rw [← hwords c hin]
      have := hjoin.laid.inUse_around rfl hc
      simp only [Block.next] at this
      exact hcells c (by omega)
  · -- the next block is in use, or there is none
    refine ⟨b, r, m, q, members, ?_, rfl, h, ?_, rfl, fun _ _ => rfl⟩
    · simp only [Core.joinNext, hsize, Int.toNat_natCast, hnext, hbn, if_false]
      rfl
    · intro x hx
      rcases h.right.bsize with ⟨y, r', rfl, -, htag⟩ | ⟨rfl, -⟩
      · obtain rfl : y = x := Option.some_inj.mp hx
        by_contra hfree
        have hy := (rest_cons.mp h.right).2.1.le_size
        rw [htag, Block.tag, if_pos (by simpa using hfree)] at hbn
        omega
      · cases hx

theorem taken_nonneg (blocks : List Block) : 0 ≤ taken blocks := by
  induction blocks with
  | nil => exact le_rfl
  | cons b blocks ih =>
    rw [taken_cons]
    split
    · omega
    · omega

/-- `brel` takes back a block in use. -/
theorem Valid.brel {s : Allocator} (h : Valid freelist start stop s (l ++ b :: r) members)
    (huse : b.free = false) :
    ∃ s' blocks' members', Core.brel freelist (b.addr + 8) s = .ok s' ∧
      Valid freelist start stop s' blocks' members' ∧ used blocks' = used l ++ used r ∧
      ∀ c, InUse blocks' c → s'.words c = s.words c := by
  obtain ⟨p', -, hb, hr⟩ := rest_around.mp h.rest
  have hsize := hb.bsize
  rw [Block.tag, if_neg (by simp [huse])] at hsize
  have hback := hr.prevfree
  rw [Block.back, if_neg (by simp [huse])] at hback
  have hnext : b.addr + b.size = b.next := rfl
  have hlarge := hb.le_size
  have htotal : s.totalloc + -b.size = taken l + taken r := by
    rw [h.total, taken_append, taken_cons, if_neg (by simp [huse])]
    omega
  have hnonneg : 0 ≤ taken l + taken r := add_nonneg (taken_nonneg l) (taken_nonneg r)
  obtain ⟨l₁, b₁, m₁, members₁, hm₁, hjoin₁, hused₁, hwords₁⟩ := h.joinPrevious huse
  obtain ⟨b₂, r₂, m₂, q, members₂, hm₂, haddr, hjoin₂, hhead, hused₂, hwords₂⟩ := hjoin₁.joinNext
  have hlaid := hjoin₂.laid
  have hend : b₁.addr + b₂.size = b₂.next := by rw [← haddr]; rfl
  have hneg : Core.bsize m₂ b₂.next < 0 := by
    rcases hjoin₂.right.bsize with ⟨x, r', rfl, -, htag⟩ | ⟨-, -, hsent⟩
    · have hx := (rest_cons.mp hjoin₂.right).2.1.le_size
      rw [htag, Block.tag, if_neg (by simp [hhead x rfl])]
      omega
    · rw [hsent]
      decide
  obtain ⟨m', hm'⟩ : ∃ m', m' = setPrevfree m₂ b₂.next b₂.size := ⟨_, rfl⟩
  rw [setPrevfree] at hm'
  have hcells : ∀ c, c ≠ b₂.next → m' c = m₂ c := by
    intro c hc
    rw [hm', Function.update_of_ne hc]
  have hlarge₂ := hjoin₂.header.le_size
  have hnext₂ : b₂.next = b₂.addr + b₂.size := rfl
  have hstart : IsStart stop (l₁ ++ b₂ :: r₂) b₂.next :=
    hjoin₂.right.isStart.mono fun x hx => by simp [hx]
  have hback₂ : b₂.back = b₂.size := if_pos hjoin₂.free
  refine ⟨⟨m', s.totalloc + -b.size, s.numget, s.numrel + 1⟩, l₁ ++ b₂ :: r₂, members₂, ?_,
    ⟨h.apart, ?_, ?_, ?_⟩, ?_, ?_⟩
  · have hne : b.addr + 8 ≠ 0 := by omega
    have hless : -(b.size : Int) < 0 := by omega
    simp only [Core.brel, sizeofBhead, Nat.add_sub_cancel, hne, ne_eq, not_false_eq_true, hsize,
      hless, neg_neg, Int.toNat_natCast, hnext, hback, htotal, ge_iff_le, hnonneg, check_pos,
      ok_bind, hm₁, hm₂]
    rw [← haddr, hjoin₂.bsize, Int.toNat_natCast, ← hnext₂]
    simp only [hneg, check_pos, ok_bind, hm']
    rfl
  · refine rest_around.mpr ⟨0, ?_, ?_, ?_⟩
    · apply hjoin₂.left.congr
      intro x hx
      obtain ⟨-, hle, hsize⟩ := hjoin₂.left.bounds.2 x hx
      simp only [Block.next] at hle
      exact ⟨hcells x.addr (by omega), hcells (x.addr + 4) (by omega)⟩
    · apply hjoin₂.header.congr
      · exact hcells b₂.addr (by omega)
      · exact hcells (b₂.addr + 4) (by omega)
    · rw [hback₂]
      apply hjoin₂.right.retag
      · change m' b₂.next = _
        rw [hm', Function.update_self]
      · exact Or.inr hhead
      · intro y hy
        have hle : b₂.next ≤ y := by
          rcases hy with rfl | ⟨x, hx, rfl⟩
          · exact hjoin₂.right.bounds.1
          · exact (hjoin₂.right.bounds.2 x hx).1
        exact ⟨fun hne => hcells y hne, hcells (y + 4) (by omega)⟩
  · apply hjoin₂.list.congr
    · intro c hc
      apply hcells
      rintro rfl
      exact (hlaid.not_linkCell (fun w hw => hjoin₂.list.isNode hw) hstart).1 hc
    · intro a
      exact Iff.rfl
  · change s.totalloc + -b.size = _
    rw [htotal, taken_append, taken_cons, if_pos hjoin₂.free, zero_add, ← taken_used l₁, hused₁,
      taken_used, ← taken_used r₂, hused₂, taken_used]
  · simp [used, hjoin₂.free] at hused₁ hused₂ ⊢
    rw [hused₁, hused₂]
  · intro c hc
    have hout := hlaid.inUse_around hjoin₂.free hc
    have hin : InUse (l₁ ++ b₁ :: r) c := by
      obtain ⟨u, hu, hrange⟩ := hc
      refine ⟨u, ?_, hrange⟩
      have hr : u ∈ used r₂ ↔ u ∈ used r := by rw [hused₂]
      simp only [mem_used, List.mem_append, List.mem_cons] at hu hr ⊢
      rcases hu with ⟨hu | rfl | hu, hfree⟩
      · exact ⟨Or.inl hu, hfree⟩
      · exact absurd hjoin₂.free (by simp [hfree])
      · exact ⟨Or.inr (Or.inr (hr.mp ⟨hu, hfree⟩).1), hfree⟩
    rw [← hwords₁ c hin, ← hwords₂ c hc]
    exact hcells c (by omega)

/-! ### `bpool` -/

/-- Where a pool may be: outside the head of the free list, with room for one block. -/
structure Fits (freelist buf : Nat) (len : Int) : Prop where
  large : 24 ≤ len
  small : len < 2147483648
  apart : freelist + 16 ≤ buf ∨ (buf : Int) + len ≤ freelist

/-- Where the sentinel of a pool is. -/
def sentinel (buf : Nat) (len : Int) : Nat :=
  buf + (len / sizeQuant * sizeQuant - sizeofBhead).toNat

/-- The first pool becomes one free block. -/
theorem bpool_spec {buf : Nat} {len : Int} (h : Fits freelist buf len) {s : Allocator}
    (hring : IsRing (flink s.words) (blink s.words) freelist []) (htotal : s.totalloc = 0) :
    ∃ s' blocks members, bpool freelist buf len s = .ok s' ∧
      Valid freelist buf (sentinel buf len) s' blocks members ∧ used blocks = [] := by
  obtain ⟨n, hn, hlarge, hquantum, hle⟩ : ∃ n : Nat, len / sizeQuant * sizeQuant = n + 8 ∧
      16 ≤ n ∧ n % 4 = 0 ∧ (n : Int) + 8 ≤ len := by
    have := h.large
    refine ⟨(len / sizeQuant * sizeQuant - 8).toNat, ?_, ?_, ?_, ?_⟩
    · simp only [sizeQuant]
      omega
    · simp only [sizeQuant]
      omega
    · simp only [sizeQuant]
      omega
    · simp only [sizeQuant]
      omega
  have hsub : (n : Int) + 8 - (sizeofBhead : Nat) = n := by
    simp only [sizeofBhead]
    omega
  have hstop : sentinel buf len = buf + n := by rw [sentinel, hn, hsub, Int.toNat_natCast]
  have hroom : ((sizeofBhead : Nat) : Int) ≤ n + 8 ∧
      (n : Int) ≤ -(eSent + 1) := by
    have := h.small
    simp only [sizeofBhead, eSent]
    omega
  have hapart : freelist + 16 ≤ buf ∨ buf + n + 8 ≤ freelist := by
    have := h.apart
    omega
  rw [hstop]
  have hspread : Spread [buf, freelist] := by
    intro x hx w hw
    simp only [List.mem_cons, List.not_mem_nil, or_false] at hx hw
    omega
  have hring₁ : IsRing (flink (setPrevfree s.words buf 0)) (blink (setPrevfree s.words buf 0))
      freelist [] := by
    apply ring_congr hring
    rintro c ⟨w, hw, hcell⟩
    obtain rfl : w = freelist := by simpa using hw
    rw [setPrevfree, Function.update_of_ne (by omega)]
  have hout : buf ∉ [freelist] := by
    simp only [List.mem_cons, List.not_mem_nil, or_false]
    omega
  obtain ⟨m₁, hm₁, hring₂, hcells₁⟩ := chain_spec hring₁ hout hspread
  obtain ⟨m', hm'⟩ : ∃ m', m' = setBsize (setPrevfree (setBsize m₁ buf n) (buf + n) n) (buf + n)
    eSent := ⟨_, rfl⟩
  simp only [setBsize, setPrevfree] at hm'
  have hcells : ∀ c, c ≠ buf + 4 → c ≠ buf + n → c ≠ buf + n + 4 → m' c = m₁ c := by
    intro c h₁ h₂ h₃
    rw [hm', Function.update_of_ne h₃, Function.update_of_ne h₂, Function.update_of_ne h₁]
  have hfirst : prevfree m' buf = 0 := by
    have hnot : ¬ LinkCell [buf, freelist] buf := by
      rintro ⟨w, hw, hcell⟩
      simp only [List.mem_cons, List.not_mem_nil, or_false] at hw
      omega
    rw [prevfree, hcells buf (by omega) (by omega) (by omega), hcells₁ buf hnot, setPrevfree,
      Function.update_self]
  refine ⟨⟨m', s.totalloc, s.numget, s.numrel⟩, [⟨buf, n, true⟩], [buf], ?_,
    ⟨hapart, ?_, ⟨?_, ?_⟩, ?_⟩, rfl⟩
  · simp only [bpool, hn, hsub, check_pos hroom, ok_bind, hm₁, Int.toNat_natCast, hm']
    rfl
  · refine rest_cons.mpr ⟨rfl, ⟨hfirst, ?_, hlarge, hquantum, fun _ => rfl⟩, n, ⟨rfl, rfl⟩, ?_, ?_⟩
    · change m' (buf + 4) = _
      rw [hm', Function.update_of_ne (by omega), Function.update_of_ne (by omega),
        Function.update_self]
      rfl
    · change m' (buf + n) = _
      rw [hm', Function.update_of_ne (by omega), Function.update_self]
    · change m' (buf + n + 4) = _
      rw [hm', Function.update_self]
  · apply ring_congr hring₂
    rintro c ⟨w, hw, hcell⟩
    simp only [List.nil_append, List.mem_cons, List.not_mem_nil, or_false] at hw
    exact hcells c (by omega) (by omega) (by omega)
  · intro a
    simp [FreeAt, eq_comm (a := a)]
  · exact htotal

end EbnAnchor.Core
