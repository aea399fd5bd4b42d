import EbnAnchor.Core.Jerasure

/-!
`jerasure_matrix_dotprod` and `jerasure_matrix_encode` over regions of any size.

A region of `4 * n` bytes is the `n` words from its pointer on. When the region written
shares no word with those read, the call applies the matrix row word by word
(`dotprod_regions`), whatever devices the row is applied to. Encoding leaves each coding
device with its row of the matrix applied to the data devices (`encode_regions`).
-/

namespace EbnAnchor.Core

open Loop

/-! ### Word by word -/

/-- A loop that stores into the `n` words from `dst` on, with the help of those from `src`
on. -/
theorem forUp_region {n dst src : Nat} {body : Nat → Memory → Memory} {w : Word → Word → Word}
    {m : Memory}
    (hbody : ∀ k m, (body k m).cells =
      Function.update m.cells (dst + k) (w (m.cells (dst + k)) (m.cells (src + k))))
    (hsep : ∀ o < n, ∀ o' < n, src + o ≠ dst + o') :
    (∀ o < n, (forUp 0 n body m).cells (dst + o) = w (m.cells (dst + o)) (m.cells (src + o))) ∧
      ∀ a, (∀ o < n, a ≠ dst + o) → (forUp 0 n body m).cells a = m.cells a := by
  rw [forUp_hom (g := Memory.cells) (u := fun k u =>
    Function.update u (dst + k) (w (u (dst + k)) (u (src + k)))) fun k m _ _ => hbody k m]
  obtain ⟨hdone, hkeep⟩ := forUp_store (a := 0) (n := n) (x := fun k => dst + k)
    (w := fun k u => w (u (dst + k)) (u (src + k))) (v := m.cells)
    (fun k k' _ hlt _ heq => by omega)
    (fun k u _ hk hu => by
      rw [hu (dst + k) fun k' _ hlt heq => by omega,
        hu (src + k) fun k' _ hlt heq => hsep k (by omega) k' (by omega) heq.symm])
  constructor
  · intro o ho
    exact hdone o (Nat.zero_le o) (by omega)
  · intro a ha
    exact hkeep a fun k _ hk heq => ha k (by omega) heq.symm

section Operations

variable {n dst src : Nat} {m : Memory} (hsep : ∀ o < n, ∀ o' < n, src + o ≠ dst + o')
include hsep

theorem memcpyWords_region :
    (∀ o < n, (memcpyWords dst src (4 * n) m).cells (dst + o) = m.cells (src + o)) ∧
      ∀ a, (∀ o < n, a ≠ dst + o) →
        (memcpyWords dst src (4 * n) m).cells a = m.cells a := by
  have hwords : 4 * n / 4 = n := by omega
  rw [memcpyWords, hwords]
  exact forUp_region (w := fun _ y => y) (fun _ _ => rfl) hsep

theorem galoisRegionXor_region :
    (∀ o < n, (galoisRegionXor src dst dst (4 * n) m).cells (dst + o)
        = m.cells (src + o) ^^^ m.cells (dst + o)) ∧
      ∀ a, (∀ o < n, a ≠ dst + o) →
        (galoisRegionXor src dst dst (4 * n) m).cells a = m.cells a := by
  have hwords : (4 * n + 3) / 4 = n := by omega
  rw [galoisRegionXor, hwords]
  exact forUp_region (w := fun x y => y ^^^ x) (fun _ _ => rfl) hsep

theorem galoisW32RegionMultiply_region (multby : Word) (add : Bool) :
    (∀ o < n, (galoisW32RegionMultiply src multby (4 * n) (some dst) add m).cells (dst + o)
        = if add then m.cells (dst + o) ^^^ regionProduct multby (m.cells (src + o))
          else regionProduct multby (m.cells (src + o))) ∧
      ∀ a, (∀ o < n, a ≠ dst + o) →
        (galoisW32RegionMultiply src multby (4 * n) (some dst) add m).cells a
          = m.cells a := by
  have hwords : 4 * n / 4 = n := by omega
  rw [galoisW32RegionMultiply, hwords]
  cases add with
  | false =>
    exact @forUp_region n dst src (fun k m => (m.touch (src + k)).store (dst + k)
      (regionProduct multby (m.cells (src + k)))) (fun _ y => regionProduct multby y) m
      (fun _ _ => rfl) hsep
  | true =>
    exact @forUp_region n dst src (fun k m => (m.touch (src + k)).store (dst + k)
      (m.cells (dst + k) ^^^ regionProduct multby (m.cells (src + k))))
      (fun x y => x ^^^ regionProduct multby y) m (fun _ _ => rfl) hsep

end Operations

/-! ### The inner product -/

section Dotprod

variable {k n : Nat} {row : IntArray} {p : Pointers} {ids : Option (Nat → Nat)} {dptr : Nat}
  {m₀ : Memory}

/-- What the two passes keep: the region at `dptr` collects the terms passed, the other
words are those of `m₀`. -/
structure CollectsRegion (n dptr : Nat) (m₀ : Memory) (total : Nat → GF)
    (s : Memory × Bool) : Prop where
  value : ∀ o < n, (if s.2 then gf (s.1.cells (dptr + o)) else 0) = total o
  frame : ∀ a, (∀ o < n, a ≠ dptr + o) → s.1.cells a = m₀.cells a

/-- The term of column `c` at offset `o`. -/
noncomputable def regionTerm (k : Nat) (row : IntArray) (p : Pointers)
    (ids : Option (Nat → Nat)) (m₀ : Memory) (c o : Nat) : GF :=
  gf (row c) * gf (m₀.cells (p.source k ids c + o))

/-- The operations of both passes store the sum of what was collected and one term. -/
theorem CollectsRegion.next {total : Nat → GF} {s : Memory × Bool} {m : Memory}
    (h : CollectsRegion n dptr m₀ total s) {term : Nat → GF}
    (hvalue : ∀ o < n, gf (m.cells (dptr + o))
      = (if s.2 then gf (s.1.cells (dptr + o)) else 0) + term o)
    (hframe : ∀ a, (∀ o < n, a ≠ dptr + o) → m.cells a = s.1.cells a) :
    CollectsRegion n dptr m₀ (fun o => total o + term o) (m, true) := by
  constructor
  · intro o ho
    rw [if_pos rfl, hvalue o ho, h.value o ho]
  · intro a ha
    exact (hframe a ha).trans (h.frame a ha)

/-- The source of a column is not where the result goes. -/
def Apart (k n : Nat) (p : Pointers) (ids : Option (Nat → Nat)) (dptr : Nat) : Prop :=
  ∀ c < k, ∀ o < n, ∀ o' < n, p.source k ids c + o ≠ dptr + o'

theorem collectsRegion_ones (hsep : Apart k n p ids dptr) {c : Nat} (hc : c < k)
    {total : Nat → GF} {s : Memory × Bool} (h : CollectsRegion n dptr m₀ total s)
    (hrow : row c = 1) :
    CollectsRegion n dptr m₀ (fun o => total o + regionTerm k row p ids m₀ c o)
      (if !s.2 then (memcpyWords dptr (p.source k ids c) (4 * n) s.1, true)
        else (galoisRegionXor (p.source k ids c) dptr dptr (4 * n) s.1, s.2)) ∧
    (if !s.2 then (memcpyWords dptr (p.source k ids c) (4 * n) s.1, true)
        else (galoisRegionXor (p.source k ids c) dptr dptr (4 * n) s.1, s.2)).2 = true := by
  have hterm : ∀ o < n, gf (s.1.cells (p.source k ids c + o))
      = regionTerm k row p ids m₀ c o := by
    intro o ho
    rw [h.frame _ fun o' ho' => hsep c hc o ho o' ho', regionTerm, hrow, gf_ofNat_one, one_mul]
  obtain ⟨m, init⟩ := s
  cases init with
  | false =>
    obtain ⟨hcopy, hframe⟩ := @memcpyWords_region n dptr _ m (hsep c hc)
    refine ⟨h.next (fun o ho => ?_) hframe, rfl⟩
    rw [hcopy o ho, if_neg (by simp), zero_add]
    exact hterm o ho
  | true =>
    obtain ⟨hxor, hframe⟩ := @galoisRegionXor_region n dptr _ m (hsep c hc)
    refine ⟨h.next (fun o ho => ?_) hframe, rfl⟩
    rw [hxor o ho, gf_xor, add_comm, if_pos rfl]
    exact congrArg _ (hterm o ho)

theorem collectsRegion_factor (hsep : Apart k n p ids dptr) {c : Nat} (hc : c < k)
    {total : Nat → GF} {s : Memory × Bool} (h : CollectsRegion n dptr m₀ total s) :
    CollectsRegion n dptr m₀ (fun o => total o + regionTerm k row p ids m₀ c o)
      (galoisW32RegionMultiply (p.source k ids c) (row c) (4 * n) (some dptr) s.2 s.1,
        true) := by
  obtain ⟨hmul, hframe⟩ := galoisW32RegionMultiply_region (m := s.1) (hsep c hc) (row c) s.2
  refine h.next (fun o ho => ?_) hframe
  have hterm : gf (regionProduct (row c) (s.1.cells (p.source k ids c + o)))
      = regionTerm k row p ids m₀ c o := by
    rw [gf_regionProduct, h.frame _ fun o' ho' => hsep c hc o ho o' ho', regionTerm]
  rw [hmul o ho]
  cases s.2 with
  | false => rw [if_neg (by simp), if_neg (by simp), zero_add, hterm]
  | true => rw [if_pos rfl, if_pos rfl, gf_xor, hterm]

/-- The columns before `i` that `pred` selects. -/
noncomputable def partialSum (k : Nat) (row : IntArray) (p : Pointers)
    (ids : Option (Nat → Nat)) (m₀ : Memory) (pred : Word → Prop) [DecidablePred pred]
    (i o : Nat) : GF :=
  ∑ c ∈ Finset.range i, if pred (row c) then regionTerm k row p ids m₀ c o else 0

/-- `jerasure_matrix_dotprod`: a row that is not all zero is applied word by word. -/
theorem dotprod_regions {destId : Nat} (hdest : p.device k destId = dptr)
    (hsep : Apart k n p ids dptr) :
    let m := jerasureMatrixDotprod k row ids destId p (4 * n) m₀
    ((∃ c < k, row c ≠ 0#32) → ∀ o < n, gf (m.cells (dptr + o))
      = ∑ c ∈ Finset.range k, gf (row c) * gf (m₀.cells (p.source k ids c + o))) ∧
      ∀ a, (∀ o < n, a ≠ dptr + o) → m.cells a = m₀.cells a := by
  rw [jerasureMatrixDotprod]
  simp only [hdest]
  have hfirst := forUp_invariant (a := 0) (n := k) (s := (m₀, false))
    (f := fun i (s : Memory × Bool) =>
      if row i = 1 then
        if !s.2 then (memcpyWords dptr (p.source k ids i) (4 * n) s.1, true)
        else (galoisRegionXor (p.source k ids i) dptr dptr (4 * n) s.1, s.2)
      else s)
    (P := fun i s =>
      CollectsRegion n dptr m₀ (partialSum k row p ids m₀ (fun x => x = 1) i) s ∧
      ((∃ c < i, row c = 1) → s.2 = true))
    ⟨⟨fun o _ => by simp [partialSum], fun _ _ => rfl⟩, by simp⟩
    (by
      rintro i s - hi ⟨hcol, hinit⟩
      have hsum : partialSum k row p ids m₀ (fun x => x = 1) (i + 1) = fun o =>
          partialSum k row p ids m₀ (fun x => x = 1) i o +
            if row i = 1 then regionTerm k row p ids m₀ i o else 0 :=
        funext fun o => Finset.sum_range_succ ..
      rw [hsum]
      by_cases hrow : row i = 1
      · simp only [if_pos hrow]
        obtain ⟨hnew, htrue⟩ := collectsRegion_ones hsep (by omega) hcol hrow
        exact ⟨hnew, fun _ => htrue⟩
      · simp only [if_neg hrow, add_zero]
        refine ⟨hcol, ?_⟩
        rintro ⟨c, hc, hone⟩
        apply hinit
        rcases Nat.eq_or_lt_of_le (Nat.le_of_lt_succ hc) with rfl | hlt
        · exact absurd hone hrow
        · exact ⟨c, hlt, hone⟩)
  rw [Nat.zero_add] at hfirst
  generalize forUp 0 k _ (m₀, false) = s₁ at hfirst
  have hsecond := forUp_invariant (a := 0) (n := k) (s := s₁)
    (f := fun i (s : Memory × Bool) =>
      if row i ≠ 0 ∧ row i ≠ 1 then
        (galoisW32RegionMultiply (p.source k ids i) (row i) (4 * n) (some dptr) s.2 s.1, true)
      else s)
    (P := fun i s => CollectsRegion n dptr m₀ (fun o =>
        partialSum k row p ids m₀ (fun x => x = 1) k o +
          partialSum k row p ids m₀ (fun x => x ≠ 0 ∧ x ≠ 1) i o) s ∧
      ((∃ c < k, row c = 1) ∨ (∃ c < i, row c ≠ 0 ∧ row c ≠ 1) → s.2 = true))
    ⟨⟨fun o ho => by simpa [partialSum] using hfirst.1.value o ho, hfirst.1.frame⟩,
      fun h => hfirst.2 (by simpa using h)⟩
    (by
      rintro i s - hi ⟨hcol, hinit⟩
      have hsum : (fun o => partialSum k row p ids m₀ (fun x => x = 1) k o +
          partialSum k row p ids m₀ (fun x => x ≠ 0 ∧ x ≠ 1) (i + 1) o) = fun o =>
          (partialSum k row p ids m₀ (fun x => x = 1) k o +
            partialSum k row p ids m₀ (fun x => x ≠ 0 ∧ x ≠ 1) i o) +
            if row i ≠ 0 ∧ row i ≠ 1 then regionTerm k row p ids m₀ i o else 0 := by
        funext o
        rw [add_assoc]
        exact congrArg _ (Finset.sum_range_succ ..)
      rw [hsum]
      by_cases hrow : row i ≠ 0 ∧ row i ≠ 1
      · simp only [if_pos hrow]
        exact ⟨collectsRegion_factor hsep (by omega) hcol, fun _ => trivial⟩
      · simp only [if_neg hrow, add_zero]
        refine ⟨hcol, ?_⟩
        rintro (hone | ⟨c, hc, hne⟩)
        · exact hinit (Or.inl hone)
        · rcases Nat.eq_or_lt_of_le (Nat.le_of_lt_succ hc) with rfl | hlt
          · exact absurd hne hrow
          · exact hinit (Or.inr ⟨c, hlt, hne⟩))
  rw [Nat.zero_add] at hsecond
  obtain ⟨hcol, hinit⟩ := hsecond
  refine ⟨fun hsome o ho => ?_, hcol.frame⟩
  have htrue := hinit (by
    obtain ⟨c, hc, hne⟩ := hsome
    by_cases hone : row c = 1
    · exact Or.inl ⟨c, hc, hone⟩
    · exact Or.inr ⟨c, hc, hne, hone⟩)
  have hvalue := hcol.value o ho
  rw [if_pos htrue, partialSum, partialSum, ← Finset.sum_add_distrib] at hvalue
  rw [hvalue]
  refine Finset.sum_congr rfl fun c _ => ?_
  by_cases hone : row c = 1
  · rw [if_pos hone, if_neg (by tauto), add_zero, regionTerm]
  · by_cases hzero : row c = 0
    · rw [if_neg hone, if_neg (by tauto), hzero, gf_ofNat_zero, add_zero, zero_mul]
    · rw [if_neg hone, if_pos ⟨hzero, hone⟩, zero_add, regionTerm]

end Dotprod

/-! ### Devices -/

/-- The regions of different devices share no word. -/
def Separate (k m n : Nat) (p : Pointers) : Prop :=
  ∀ a < k + m, ∀ b < k + m, a ≠ b → ∀ o < n, ∀ o' < n, p.device k a + o ≠ p.device k b + o'

/-- Device `id` holds, at every offset, its symbol of the code word of `v`. -/
def Holds (k m n : Nat) (matrix : IntArray) (p : Pointers) (v : Nat → Fin k → GF)
    (mem : Memory) (id : Fin (k + m)) : Prop :=
  ∀ o < n, gf (mem.cells (p.device k id + o)) = (generator k m matrix).mulVec (v o) id

section Devices

variable {k m n : Nat} {matrix : IntArray} {p : Pointers} {v : Nat → Fin k → GF}

theorem generator_data {c : Fin (k + m)} (hc : (c : Nat) < k) (x : Fin k → GF) :
    (generator k m matrix).mulVec x c = x ⟨c, hc⟩ := by
  rw [Matrix.mulVec, dotProduct, Finset.sum_eq_single ⟨c, hc⟩]
  · rw [generator, if_pos hc, if_pos rfl, one_mul]
  · intro b _ hb
    rw [generator, if_pos hc, if_neg fun heq => hb (Fin.ext heq), zero_mul]
  · intro hmem
    exact absurd (Finset.mem_univ _) hmem

theorem generator_coding {c : Fin (k + m)} (hc : k ≤ (c : Nat)) (x : Fin k → GF) :
    (generator k m matrix).mulVec x c
      = ∑ j : Fin k, gf (matrix ((c - k) * k + j)) * x j := by
  rw [Matrix.mulVec, dotProduct]
  refine Finset.sum_congr rfl fun j _ => ?_
  rw [generator, if_neg (by omega)]

/-- A row of the coding matrix is not all zero. -/
theorem coding_row_ne (hmds : Mds.IsMds (generator k m matrix)) (hk : 0 < k) {i : Nat}
    (hi : i < m) : ∃ c < k, matrix (i * k + c) ≠ 0#32 := by
  have hne := hmds.systematic_ne (Nat.le_add_right k m) (r := ⟨k + i, by omega⟩)
    (fun r c => by
      rw [generator, Fin.val_castLE, if_pos r.isLt]
      simp only [Fin.ext_iff]) (by simp) ⟨0, hk⟩
  refine ⟨0, hk, fun hzero => hne ?_⟩
  rw [generator, if_neg (by simp), Nat.add_sub_cancel_left]
  exact gf_eq_zero_iff.mpr hzero

/-- The device a call writes to is apart from the devices it reads. -/
theorem Separate.apart (h : Separate k m n p) {ids : Option (Nat → Nat)} {dest : Nat}
    (hdest : dest < k + m)
    (hids : ∀ c < k, (ids.elim c fun f => f c) < k + m ∧ (ids.elim c fun f => f c) ≠ dest) :
    Apart k n p ids (p.device k dest) := by
  intro c hc o ho o' ho'
  have hsource : p.source k ids c = p.device k (ids.elim c fun f => f c) := by
    cases ids with
    | none => rw [Pointers.source, Pointers.device, Option.elim_none, if_pos hc]
    | some f => rfl
  obtain ⟨hlt, hne⟩ := hids c hc
  rw [hsource]
  exact h _ hlt _ hdest hne o ho o' ho'

/-- A call that computes the symbol of its device leaves the device with its symbol, and
the others as they are. -/
theorem Separate.dotprod (h : Separate k m n p) {row : IntArray} {ids : Option (Nat → Nat)}
    {dest : Fin (k + m)} {mem : Memory} (hrow : ∃ c < k, row c ≠ 0#32)
    (hids : ∀ c < k, (ids.elim c fun f => f c) < k + m ∧ (ids.elim c fun f => f c) ≠ dest)
    (hsum : ∀ o < n, (∑ c ∈ Finset.range k, gf (row c) *
      gf (mem.cells (p.device k (ids.elim c fun f => f c) + o)))
        = (generator k m matrix).mulVec (v o) dest) :
    Holds k m n matrix p v (jerasureMatrixDotprod k row ids dest p (4 * n) mem) dest ∧
      (∀ id, id ≠ dest → Holds k m n matrix p v mem id →
        Holds k m n matrix p v (jerasureMatrixDotprod k row ids dest p (4 * n) mem) id) ∧
      ∀ a, (∀ o < n, a ≠ p.device k dest + o) →
        (jerasureMatrixDotprod k row ids dest p (4 * n) mem).cells a = mem.cells a := by
  obtain ⟨hvalue, hframe⟩ := @dotprod_regions k n row p ids _ mem dest rfl
    (h.apart dest.isLt hids)
  refine ⟨fun o ho => ?_, fun id hid hold o ho => ?_, hframe⟩
  · rw [hvalue hrow o ho, ← hsum o ho]
    refine Finset.sum_congr rfl fun c hc => ?_
    cases ids with
    | none =>
      rw [Pointers.source, Pointers.device, Option.elim_none, if_pos (Finset.mem_range.mp hc)]
    | some f => rfl
  · rw [hframe _ fun o' ho' => h id id.isLt dest dest.isLt (Fin.val_ne_of_ne hid) o ho o' ho']
    exact hold o ho

/-- A coding device is computed from the data devices. -/
theorem Separate.coding (h : Separate k m n p) (hmds : Mds.IsMds (generator k m matrix))
    (hk : 0 < k) {i : Nat} (hi : i < m) {mem : Memory}
    (hdata : ∀ id : Fin (k + m), (id : Nat) < k → Holds k m n matrix p v mem id) :
    let mem' := jerasureMatrixDotprod k (fun c => matrix (i * k + c)) none (k + i) p (4 * n) mem
    Holds k m n matrix p v mem' ⟨k + i, by omega⟩ ∧
      (∀ id, id ≠ ⟨k + i, by omega⟩ → Holds k m n matrix p v mem id →
        Holds k m n matrix p v mem' id) ∧
      ∀ a, (∀ o < n, a ≠ p.device k (k + i) + o) → mem'.cells a = mem.cells a := by
  have hdest : k + i < k + m := by omega
  refine @Separate.dotprod k m n matrix p v h _ none ⟨k + i, hdest⟩ mem (coding_row_ne hmds hk hi)
    (fun c hc => ⟨?_, ?_⟩) fun o ho => ?_
  · simp only [Option.elim_none]
    omega
  · simp only [Option.elim_none]
    omega
  · rw [generator_coding (by simp), Finset.sum_range]
    refine Finset.sum_congr rfl fun c _ => ?_
    dsimp only [Option.elim_none]
    rw [Nat.add_sub_cancel_left, hdata ⟨c, by omega⟩ c.isLt o ho, generator_data c.isLt]

/-- `jerasure_matrix_encode`: every device holds its symbol of the code word of the data,
and only the coding devices are stored into. -/
theorem encode_regions (h : Separate k m n p) (hmds : Mds.IsMds (generator k m matrix))
    (hk : 0 < k) (mem : Memory) :
    let mem' := jerasureMatrixEncode k m matrix p (4 * n) mem
    (∀ id, Holds k m n matrix p (fun o c => gf (mem.cells (p.data c + o))) mem' id) ∧
      ∀ a, (∀ i < m, ∀ o < n, a ≠ p.coding i + o) → mem'.cells a = mem.cells a := by
  have hloop := forUp_invariant (a := 0) (n := m) (s := mem)
    (f := fun i mem => jerasureMatrixDotprod k (fun c => matrix (i * k + c)) none (k + i) p
      (4 * n) mem)
    (P := fun i u => (∀ id : Fin (k + m), (id : Nat) < k + i →
        Holds k m n matrix p (fun o c => gf (mem.cells (p.data c + o))) u id) ∧
      ∀ a, (∀ j < i, ∀ o < n, a ≠ p.coding j + o) → u.cells a = mem.cells a)
    (by
      refine ⟨fun id hid o ho => ?_, fun _ _ => rfl⟩
      rw [Nat.add_zero] at hid
      rw [generator_data hid, Pointers.device, if_pos hid])
    (by
      rintro i u - hi ⟨hdone, hkeep⟩
      rw [Nat.zero_add] at hi
      obtain ⟨hnew, hold, hframe⟩ := h.coding hmds hk hi fun id hid => hdone id (by omega)
      refine ⟨fun id hid => ?_, fun a ha => ?_⟩
      · by_cases heq : id = ⟨k + i, by omega⟩
        · rw [heq]
          exact hnew
        · have hne : (id : Nat) ≠ k + i := fun hval => heq (Fin.ext hval)
          exact hold id heq (hdone id (by omega))
      · rw [hframe a fun o ho => ?_, hkeep a fun j hj => ha j (by omega)]
        rw [Pointers.device, if_neg (by omega), Nat.add_sub_cancel_left]
        exact ha i (by omega) o ho)
  rw [Nat.zero_add] at hloop
  exact ⟨fun id => hloop.1 id id.isLt, hloop.2⟩

end Devices

end EbnAnchor.Core
