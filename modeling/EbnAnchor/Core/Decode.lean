import EbnAnchor.Core.InvertMatrix
import EbnAnchor.Core.Regions

/-!
`jerasure.c`: from a list of erasures back to the devices.

`erasures` is the list before its `-1`. Memory from `malloc` is assumed to be there and
holds anything (`Blocks`); a call of which `free` is the only effect on a block leaves it
out. A decoding matrix that was not made is a null pointer: a use of it ends the run.

Main results:

* `erasuresToErased_spec`: the marks, or `NULL` exactly when more than `m` devices are lost;
* `makeDecodingMatrix_spec`: the rows of the decoding matrix rebuild the data from any `k`
  devices that are left;
* `decode_spec`: up to `m` lost devices are restored, data and coding alike, whichever way
  the last data device is rebuilt, and nothing else is written.
-/

namespace EbnAnchor.Core

open Loop Mds

/-! ### The erasures -/

/-- One entry of `erasures`; `none` when fewer than `k` devices are left. -/
def markErased (k : Nat) (s : IntArray × Int) (e : Nat) : Option (IntArray × Int) :=
  if s.1 e = 0 then
    let erased := Function.update s.1 e 1
    let tNonErased := s.2 - 1
    if tNonErased < k then none else some (erased, tNonErased)
  else some s

/-- `jerasure_erasures_to_erased`; `none` is `NULL`. -/
def jerasureErasuresToErased (k m : Nat) (erasures : List Nat) (erased : IntArray) :
    Option IntArray :=
  let td := k + m
  let erased := forUp 0 td (fun i erased => Function.update erased i 0) erased
  (erasures.foldlM (markErased k) (erased, (td : Int))).map Prod.fst

/-! ### The decoding matrix -/

/-- `dm_ids`: the first `k` devices that are not erased; `none` when the loop runs beyond
the marks. -/
def survivors (k m : Nat) (erased : IntArray) (dmIds : Nat → Nat) : Option (Nat → Nat) :=
  let s := forUp 0 (k + m) (fun i (s : Nat × (Nat → Nat)) =>
    if s.1 < k ∧ erased i = 0 then (s.1 + 1, Function.update s.2 s.1 i) else s) (0, dmIds)
  if s.1 < k then none else some s.2

/-- Row `i` of `tmpmat`: a unit row for a data device, a row of the coding matrix else. -/
def survivorRow (k : Nat) (matrix : IntArray) (dmIds : Nat → Nat) (i : Nat)
    (tmpmat : IntArray) : IntArray :=
  if dmIds i < k then
    Function.update (forUp 0 k (fun j tmpmat => Function.update tmpmat (i * k + j) 0) tmpmat)
      (i * k + dmIds i) 1
  else
    forUp 0 k (fun j tmpmat => Function.update tmpmat (i * k + j)
      (matrix ((dmIds i - k) * k + j))) tmpmat

/-- `jerasure_make_decoding_matrix`: what it returns, `decoding_matrix` and `dm_ids`. -/
def jerasureMakeDecodingMatrix (k m : Nat) (matrix erased decodingMatrix tmpmat : IntArray)
    (dmIds : Nat → Nat) : Option (Int × IntArray × (Nat → Nat)) :=
  (survivors k m erased dmIds).bind fun dmIds =>
    (jerasureInvertMatrix k (forUp 0 k (survivorRow k matrix dmIds) tmpmat)
      decodingMatrix).map fun r => (r.1, r.2.inv, dmIds)

/-! ### Decoding -/

/-- The blocks `malloc` hands out during a call. -/
structure Blocks where
  erased : IntArray
  tmpmat : IntArray
  decodingMatrix : IntArray
  dmIds : Nat → Nat
  tmpids : Nat → Nat

/-- The number of data devices lost, and the last of them. -/
def lostData (k : Nat) (erased : IntArray) : Nat × Nat :=
  forUp 0 k (fun i (s : Nat × Nat) => if erased i ≠ 0 then (s.1 + 1, i) else s) (0, k)

/-- `decoding_matrix` and `dm_ids`; `none` is the null pointer. -/
abbrev Decoding := Option (IntArray × (Nat → Nat))

/-- Decode the data drives before `lastdrive`, while there are any left. -/
def decodeData (k lastdrive : Nat) (erased : IntArray) (decoding : Decoding) (p : Pointers)
    (size : Nat) (s : Memory × Nat) : Option (Memory × Nat) :=
  forUpM 0 lastdrive (fun i (s : Memory × Nat) =>
    if 0 < s.2 ∧ erased i ≠ 0 then
      decoding.map fun d =>
        (jerasureMatrixDotprod k (fun c => d.1 (i * k + c)) (some d.2) i p size s.1, s.2 - 1)
    else some s) s

/-- Decode drive `lastdrive` with the first coding device. -/
def decodeLast (k lastdrive : Nat) (matrix : IntArray) (tmpids : Nat → Nat) (p : Pointers)
    (size : Nat) (mem : Memory) : Memory :=
  let tmpids := forUp 0 k (fun i tmpids =>
    Function.update tmpids i (if i < lastdrive then i else i + 1)) tmpids
  jerasureMatrixDotprod k matrix (some tmpids) lastdrive p size mem

/-- Re-encode any erased coding devices. -/
def reencode (k m : Nat) (matrix erased : IntArray) (p : Pointers) (size : Nat)
    (mem : Memory) : Memory :=
  forUp 0 m (fun i mem =>
    if erased (k + i) ≠ 0 then
      jerasureMatrixDotprod k (fun c => matrix (i * k + c)) none (i + k) p size mem
    else mem) mem

/-- `jerasure_matrix_decode(k, m, 32, ..)`: what it returns and the memory. -/
def jerasureMatrixDecode (k m : Nat) (matrix : IntArray) (rowKOnes : Bool)
    (erasures : List Nat) (p : Pointers) (size : Nat) (heap : Blocks) (mem : Memory) :
    Option (Int × Memory) :=
  match jerasureErasuresToErased k m erasures heap.erased with
  | none => some (-1, mem)
  | some erased =>
    let (edd, lastdrive) := lostData k erased
    let noParity := !rowKOnes || erased k ≠ 0
    let lastdrive := if noParity then k else lastdrive
    let made : Option (Int × Decoding) :=
      if edd > 1 ∨ (edd > 0 ∧ noParity) then
        (jerasureMakeDecodingMatrix k m matrix erased heap.decodingMatrix heap.tmpmat
          heap.dmIds).map fun r => (r.1, some r.2)
      else some (0, none)
    made.bind fun (code, decoding) =>
      if code < 0 then some (-1, mem) else
      (decodeData k lastdrive erased decoding p size (mem, edd)).map fun s =>
        let mem := if 0 < s.2 then decodeLast k lastdrive matrix heap.tmpids p size s.1 else s.1
        (0, reencode k m matrix erased p size mem)

/-! ### The marks -/

/-- `erased` marks the devices of the list. -/
def Marks (k m : Nat) (erasures : List Nat) (erased : IntArray) : Prop :=
  ∀ i < k + m, erased i = if i ∈ erasures then 1 else 0

theorem Marks.ne_iff {k m : Nat} {erasures : List Nat} {erased : IntArray}
    (h : Marks k m erasures erased) {i : Nat} (hi : i < k + m) :
    erased i ≠ 0 ↔ i ∈ erasures := by
  rw [h i hi]
  split_ifs with hmem
  · simp [hmem]
  · simp [hmem]

/-- The entries to come, when those of `seen` are marked. -/
theorem foldlM_markErased {k m : Nat} (l seen : List Nat) (hl : ∀ e ∈ l, e < k + m)
    {erased : IntArray} (hmarks : Marks k m seen erased) (hseen : seen.toFinset.card ≤ m) :
    ((seen ++ l).toFinset.card ≤ m ∧ ∃ erased' t,
      l.foldlM (markErased k) (erased, ((k + m : Nat) : Int) - seen.toFinset.card)
        = some (erased', t) ∧ Marks k m (seen ++ l) erased') ∨
    (m < (seen ++ l).toFinset.card ∧
      l.foldlM (markErased k) (erased, ((k + m : Nat) : Int) - seen.toFinset.card) = none) := by
  induction l generalizing seen erased with
  | nil =>
    left
    rw [List.append_nil]
    exact ⟨hseen, erased, _, rfl, hmarks⟩
  | cons e l ih =>
    have he : e < k + m := hl e List.mem_cons_self
    have hassoc : seen ++ e :: l = (seen ++ [e]) ++ l := by simp
    have hmarks' : ∀ u : IntArray, (∀ i < k + m, u i = if i = e then 1 else erased i) →
        Marks k m (seen ++ [e]) u := by
      intro u hu i hi
      rw [hu i hi, hmarks i hi]
      by_cases hie : i = e
      · simp [hie]
      · simp [hie]
    rw [List.foldlM_cons, markErased, hassoc]
    by_cases hmem : e ∈ seen
    · -- marked before: nothing changes
      have hmark : erased e ≠ 0 := (hmarks.ne_iff he).mpr hmem
      have hsame : (seen ++ [e]).toFinset = seen.toFinset := by
        ext i
        simp only [List.mem_toFinset, List.mem_append, List.mem_singleton]
        exact ⟨fun h => h.elim id fun hi => hi ▸ hmem, Or.inl⟩
      rw [if_neg hmark, Option.bind_eq_bind, Option.bind_some, ← hsame]
      refine ih (seen ++ [e]) (fun i hi => hl i (List.mem_cons_of_mem e hi)) ?_
        (by rw [hsame]; exact hseen)
      refine hmarks' erased fun i hi => ?_
      split_ifs with hie
      · rw [hie, hmarks e he, if_pos hmem]
      · rfl
    · have hmark : erased e = 0 := by rw [hmarks e he, if_neg hmem]
      have hcard : (seen ++ [e]).toFinset.card = seen.toFinset.card + 1 := by
        rw [List.toFinset_append, Finset.union_comm, List.toFinset_cons, List.toFinset_nil,
          insert_empty_eq, ← Finset.insert_eq, Finset.card_insert_of_notMem (by simpa using hmem)]
      rw [if_pos hmark]
      dsimp only
      by_cases hfull : m ≤ seen.toFinset.card
      · right
        rw [if_pos (by omega)]
        refine ⟨?_, rfl⟩
        calc m < (seen ++ [e]).toFinset.card := by omega
          _ ≤ (seen ++ [e] ++ l).toFinset.card := Finset.card_le_card (by
            rw [List.toFinset_append (l := seen ++ [e])]
            exact Finset.subset_union_left)
      · rw [if_neg (by omega), Option.bind_eq_bind, Option.bind_some]
        have ht : ((k + m : Nat) : Int) - seen.toFinset.card - 1
            = ((k + m : Nat) : Int) - (seen ++ [e]).toFinset.card := by omega
        rw [ht]
        refine ih (seen ++ [e]) (fun i hi => hl i (List.mem_cons_of_mem e hi)) ?_ (by omega)
        refine hmarks' _ fun i _ => ?_
        split_ifs with hie
        · rw [hie, Function.update_self]
        · rw [Function.update_of_ne hie]

/-- `jerasure_erasures_to_erased` marks the lost devices, or answers `NULL` when they are
more than `m`. -/
theorem erasuresToErased_spec {k m : Nat} {erasures : List Nat}
    (hlt : ∀ e ∈ erasures, e < k + m) (erased : IntArray) :
    (erasures.toFinset.card ≤ m ∧ ∃ erased',
      jerasureErasuresToErased k m erasures erased = some erased' ∧
        Marks k m erasures erased') ∨
    (m < erasures.toFinset.card ∧ jerasureErasuresToErased k m erasures erased = none) := by
  have hclear : Marks k m []
      (forUp 0 (k + m) (fun i erased => Function.update erased i 0) erased) := fun i hi =>
    (forUp_store (x := id) (w := fun _ _ => (0 : Word)) (fun _ _ _ hlt _ heq => by
      simp only [id] at heq; omega) (fun _ _ _ _ _ => rfl)).1 i (by omega) (by omega)
  have hfold := foldlM_markErased erasures [] hlt hclear (by simp)
  rw [List.nil_append, List.toFinset_nil, Finset.card_empty, Nat.cast_zero, sub_zero] at hfold
  rw [jerasureErasuresToErased]
  rcases hfold with ⟨hcard, erased', t, hrun, hmarks⟩ | ⟨hcard, hrun⟩
  · exact Or.inl ⟨hcard, erased', by rw [hrun, Option.map_some], hmarks⟩
  · exact Or.inr ⟨hcard, by rw [hrun, Option.map_none]⟩

/-! ### Counting the lost data devices -/

/-- How many devices from `a` up to `b` are lost. -/
def lostIn (erasures : List Nat) (a b : Nat) : Nat :=
  ((Finset.Ico a b).filter (· ∈ erasures)).card

section Lost

variable {k m : Nat} {erasures : List Nat} {erased : IntArray} {a b : Nat}

theorem lostIn_self : lostIn erasures a a = 0 := by simp [lostIn]

theorem lostIn_succ_right (hab : a ≤ b) :
    lostIn erasures a (b + 1) = lostIn erasures a b + if b ∈ erasures then 1 else 0 := by
  rw [lostIn, lostIn, ← Finset.insert_Ico_right_eq_Ico_add_one hab, Finset.filter_insert]
  split_ifs
  · rw [Finset.card_insert_of_notMem (by simp)]
  · rfl

theorem lostIn_succ_left (hab : a < b) :
    lostIn erasures a b = lostIn erasures (a + 1) b + if a ∈ erasures then 1 else 0 := by
  rw [lostIn, lostIn, ← Finset.insert_Ico_add_one_left_eq_Ico hab, Finset.filter_insert]
  split_ifs
  · rw [Finset.card_insert_of_notMem (by simp)]
  · rfl

theorem lostIn_pos {i : Nat} (hi : i ∈ erasures) (ha : a ≤ i) (hb : i < b) :
    0 < lostIn erasures a b :=
  Finset.card_pos.mpr ⟨i, Finset.mem_filter.mpr ⟨Finset.mem_Ico.mpr ⟨ha, hb⟩, hi⟩⟩

theorem lostIn_two {i j : Nat} (hi : i ∈ erasures) (hj : j ∈ erasures) (ha : a ≤ i)
    (hij : i < j) (hb : j < b) : 1 < lostIn erasures a b :=
  Finset.one_lt_card.mpr ⟨i, Finset.mem_filter.mpr ⟨Finset.mem_Ico.mpr ⟨ha, hij.trans hb⟩, hi⟩,
    j, Finset.mem_filter.mpr ⟨Finset.mem_Ico.mpr ⟨ha.trans hij.le, hb⟩, hj⟩, hij.ne⟩

/-- `edd` counts the lost data devices, `lastdrive` is the last of them. -/
theorem lostData_spec (hmarks : Marks k m erasures erased) :
    (lostData k erased).1 = lostIn erasures 0 k ∧ (lostData k erased).2 ≤ k ∧
      ((lostData k erased).1 = 0 ∨ (lostData k erased).2 < k ∧
        (lostData k erased).2 ∈ erasures ∧
        ∀ i, (lostData k erased).2 < i → i < k → i ∉ erasures) := by
  have hloop := forUp_invariant (a := 0) (n := k) (s := ((0 : Nat), k))
    (f := fun i (s : Nat × Nat) => if erased i ≠ 0 then (s.1 + 1, i) else s)
    (P := fun i s => s.1 = lostIn erasures 0 i ∧ s.2 ≤ k ∧
      (s.1 = 0 ∨ s.2 < i ∧ s.2 ∈ erasures ∧ ∀ j, s.2 < j → j < i → j ∉ erasures))
    ⟨lostIn_self.symm, le_rfl, Or.inl rfl⟩
    (by
      rintro i ⟨edd, last⟩ - hi ⟨hcount, hle, hlast⟩
      rw [Nat.zero_add] at hi
      rw [lostIn_succ_right (Nat.zero_le i)]
      by_cases hmem : i ∈ erasures
      · rw [if_pos ((hmarks.ne_iff (by omega)).mpr hmem), if_pos hmem]
        exact ⟨by rw [← hcount], hi.le, Or.inr ⟨Nat.lt_succ_self i, hmem, fun j hj hlt => by
          dsimp only at hj; omega⟩⟩
      · rw [if_neg (mt (hmarks.ne_iff (by omega)).mp hmem), if_neg hmem]
        refine ⟨hcount, hle, hlast.imp_right fun ⟨hlt, hin, hrest⟩ =>
          ⟨by omega, hin, fun j hj hji => ?_⟩⟩
        rcases Nat.eq_or_lt_of_le (Nat.le_of_lt_succ hji) with rfl | hlt'
        · exact hmem
        · exact hrest j hj hlt')
  rw [Nat.zero_add] at hloop
  exact hloop

/-- With at most `m` losses there are `k` devices left: `dm_ids` are different devices,
none of them lost. -/
theorem survivors_spec (hmarks : Marks k m erasures erased)
    (hcard : erasures.toFinset.card ≤ m) (dmIds : Nat → Nat) :
    ∃ ids, survivors k m erased dmIds = some ids ∧
      (∀ c < k, ids c < k + m ∧ ids c ∉ erasures) ∧ ∀ c c', c < c' → c' < k → ids c < ids c' := by
  have hloop := forUp_invariant (a := 0) (n := k + m) (s := ((0 : Nat), dmIds))
    (f := fun i (s : Nat × (Nat → Nat)) =>
      if s.1 < k ∧ erased i = 0 then (s.1 + 1, Function.update s.2 s.1 i) else s)
    (P := fun i s => s.1 ≤ k ∧ (s.1 < k → s.1 + lostIn erasures 0 i = i) ∧
      (∀ c < s.1, s.2 c < i ∧ s.2 c ∉ erasures) ∧ ∀ c c', c < c' → c' < s.1 → s.2 c < s.2 c')
    ⟨Nat.zero_le k, fun _ => by rw [lostIn_self], by simp, by simp⟩
    (by
      rintro i ⟨j, ids⟩ - hi ⟨hj, hcount, hids, hmono⟩
      rw [Nat.zero_add] at hi
      dsimp only at hj hcount hids hmono ⊢
      rw [lostIn_succ_right (Nat.zero_le i)]
      by_cases htake : j < k ∧ erased i = 0
      · have hmem : i ∉ erasures := fun h => (hmarks.ne_iff hi).mpr h htake.2
        have hold : ∀ c < j, Function.update ids j i c = ids c := fun c hc =>
          Function.update_of_ne (by omega) ..
        rw [if_pos htake, if_neg hmem]
        refine ⟨by omega, fun _ => by have := hcount htake.1; omega, fun c hc => ?_,
          fun c c' hlt hc' => ?_⟩
        · dsimp only at hc ⊢
          rcases Nat.eq_or_lt_of_le (Nat.le_of_lt_succ hc) with rfl | hlt
          · rw [Function.update_self]
            exact ⟨Nat.lt_succ_self i, hmem⟩
          · rw [hold c hlt]
            exact ⟨Nat.lt_succ_of_lt (hids c hlt).1, (hids c hlt).2⟩
        · dsimp only at hc' ⊢
          rw [hold c (by omega)]
          rcases Nat.eq_or_lt_of_le (Nat.le_of_lt_succ hc') with rfl | hlt'
          · rw [Function.update_self]
            exact (hids c hlt).1
          · rw [hold c' hlt']
            exact hmono c c' hlt hlt'
      · rw [if_neg htake]
        refine ⟨hj, fun hjk => ?_, fun c hc => ⟨Nat.lt_succ_of_lt (hids c hc).1, (hids c hc).2⟩,
          hmono⟩
        have hmem : i ∈ erasures := by
          rw [← hmarks.ne_iff hi]
          exact fun h => htake ⟨hjk, h⟩
        rw [if_pos hmem]
        have := hcount hjk
        omega)
  rw [Nat.zero_add] at hloop
  rw [survivors]
  generalize forUp 0 (k + m) _ ((0 : Nat), dmIds) = s at hloop
  obtain ⟨j, ids⟩ := s
  obtain ⟨hj, hcount, hids, hmono⟩ := hloop
  have hlost : lostIn erasures 0 (k + m) ≤ m := by
    refine le_trans (Finset.card_le_card fun i hi => ?_) hcard
    rw [List.mem_toFinset]
    exact (Finset.mem_filter.mp hi).2
  have hfull : j = k := by
    by_contra hne
    have hlt : j < k := lt_of_le_of_ne hj hne
    have := hcount hlt
    dsimp only at this
    omega
  subst hfull
  exact ⟨ids, if_neg (lt_irrefl j), hids, hmono⟩

end Lost

/-! ### The decoding matrix -/

section DecodingMatrix

variable {k m : Nat} {matrix : IntArray}

/-- One row of `tmpmat`. -/
theorem survivorRow_entry (ids : Nat → Nat) (tmpmat : IntArray) {i r c : Nat} (hc : c < k) :
    gf (survivorRow k matrix ids i tmpmat (r * k + c))
      = if r = i then
          (if ids i < k then (if c = ids i then 1 else 0)
            else gf (matrix ((ids i - k) * k + c)))
        else gf (tmpmat (r * k + c)) := by
  rw [survivorRow]
  by_cases hdata : ids i < k
  · rw [if_pos hdata, if_pos hdata]
    have hzero := @forUp_row k tmpmat 0 k i (by omega) (fun _ _ => (0 : Word))
      (fun _ _ _ _ => rfl) r c hc
    by_cases hri : r = i
    · rw [if_pos hri]
      by_cases hci : c = ids i
      · rw [if_pos hci, hri, hci, Function.update_self]
        exact gf_ofNat_one
      · rw [if_neg hci, Function.update_of_ne fun heq => hci (flat_inj hc hdata heq).2, hzero,
          if_pos ⟨hri, by omega, by omega⟩]
        exact gf_ofNat_zero
    · rw [if_neg hri, Function.update_of_ne fun heq => hri (flat_inj hc hdata heq).1, hzero,
        if_neg (by tauto)]
  · rw [if_neg hdata, if_neg hdata, forUp_row (by omega)
      (w := fun j _ => matrix ((ids i - k) * k + j)) (fun _ _ _ _ => rfl) hc]
    by_cases hri : r = i
    · rw [if_pos ⟨hri, by omega, by omega⟩, if_pos hri]
    · rw [if_neg (by tauto), if_neg hri]

/-- `tmpmat` holds the rows of the generator that belong to the devices left. -/
theorem gfMatrix_survivorRows {ids : Nat → Nat} (hids : ∀ c < k, ids c < k + m)
    (tmpmat : IntArray) :
    gfMatrix k k (forUp 0 k (survivorRow k matrix ids) tmpmat)
      = Matrix.of fun r c : Fin k => generator k m matrix ⟨ids r, hids r r.isLt⟩ c := by
  have hloop := forUp_invariant (a := 0) (n := k) (s := tmpmat)
    (f := survivorRow k matrix ids)
    (P := fun i u => ∀ r (hr : r < k), r < i → ∀ c : Fin k,
      gf (u (r * k + c)) = generator k m matrix ⟨ids r, hids r hr⟩ c)
    (fun r _ hlt => absurd hlt (Nat.not_lt_zero r))
    (by
      rintro i u - hi hu r hr hlt c
      rw [survivorRow_entry ids u c.isLt]
      by_cases hri : r = i
      · rw [if_pos hri, ← hri, generator]
      · rw [if_neg hri]
        exact hu r hr (by omega) c)
  funext r c
  rw [Nat.zero_add] at hloop
  exact hloop r r.isLt r.isLt c

/-- Any `k` rows of the generator of an MDS code are invertible. -/
theorem isUnit_rows (hmds : IsMds (generator k m matrix)) {ids : Fin k → Fin (k + m)}
    (hinj : Function.Injective ids) :
    IsUnit (Matrix.of fun r c : Fin k => generator k m matrix (ids r) c) := by
  rw [← Matrix.mulVec_injective_iff_isUnit]
  intro x y hxy
  refine hmds.eq_of_agree (s := Finset.univ.map ⟨ids, hinj⟩) ?_ fun r hr => ?_
  · rw [Finset.card_map, Finset.card_univ, Fintype.card_fin]
  · obtain ⟨i, -, rfl⟩ := Finset.mem_map.mp hr
    exact congrFun hxy i

variable {erasures : List Nat} {erased : IntArray}

/-- `dm_ids` are devices left, and row `i` of the decoding matrix, applied to their symbols,
is data symbol `i`. -/
structure Rebuilds (k m : Nat) (matrix : IntArray) (erasures : List Nat)
    (d : IntArray × (Nat → Nat)) : Prop where
  ids_lt : ∀ c < k, d.2 c < k + m
  ids_left : ∀ c < k, d.2 c ∉ erasures
  row_ne : ∀ i < k, ∃ c < k, d.1 (i * k + c) ≠ 0#32
  data : ∀ (x : Fin k → GF) (i : Fin k), (∑ c : Fin k, gf (d.1 (i * k + c)) *
    (generator k m matrix).mulVec x ⟨d.2 c, ids_lt c c.isLt⟩) = x i

theorem makeDecodingMatrix_spec (hmds : IsMds (generator k m matrix))
    (hmarks : Marks k m erasures erased) (hcard : erasures.toFinset.card ≤ m)
    (decodingMatrix tmpmat : IntArray) (dmIds : Nat → Nat) :
    ∃ d, jerasureMakeDecodingMatrix k m matrix erased decodingMatrix tmpmat dmIds
        = some (0, d) ∧ Rebuilds k m matrix erasures d := by
  obtain ⟨ids, hrun, hids, hmono⟩ := survivors_spec hmarks hcard dmIds
  have hlt : ∀ c < k, ids c < k + m := fun c hc => (hids c hc).1
  have hinj : Function.Injective fun c : Fin k => (⟨ids c, hlt c c.isLt⟩ : Fin (k + m)) := by
    intro c c' heq
    have hval : ids c = ids c' := congrArg Fin.val heq
    rcases lt_trichotomy c c' with h | h | h
    · exact absurd hval (hmono c c' h c'.isLt).ne
    · exact h
    · exact absurd hval (hmono c' c h c.isLt).ne'
  have hunit := isUnit_rows hmds hinj
  have hrows := @gfMatrix_survivorRows k m matrix ids hlt tmpmat
  obtain ⟨code, s, hinvert, hcode, -⟩ :=
    invertMatrix_spec k (forUp 0 k (survivorRow k matrix ids) tmpmat) decodingMatrix
  rw [hrows] at hcode
  rcases hcode with ⟨-, rfl, -, hinv⟩ | ⟨hnot, -⟩
  · have hleft : gfMatrix k k s.inv * Matrix.of (fun r c : Fin k =>
        generator k m matrix ⟨ids r, hlt r r.isLt⟩ c) = 1 := by
      rw [hinv]
      exact Matrix.nonsing_inv_mul _ ((Matrix.isUnit_iff_isUnit_det _).mp hunit)
    have happly : ∀ (x : Fin k → GF) (i : Fin k), (∑ c : Fin k, gf (s.inv (i * k + c)) *
        (generator k m matrix).mulVec x ⟨ids c, hlt c c.isLt⟩) = x i := by
      intro x i
      have hx := congrArg (fun M => Matrix.mulVec M x i) hleft
      rw [← Matrix.mulVec_mulVec, Matrix.one_mulVec] at hx
      exact hx
    refine ⟨(s.inv, ids), ?_, hlt, fun c hc => (hids c hc).2, fun i hi => ?_, happly⟩
    · rw [jerasureMakeDecodingMatrix, hrun, Option.bind_some, hinvert, Option.map_some]
    · by_contra hzero
      push Not at hzero
      have hone := happly (Pi.single ⟨i, hi⟩ 1) ⟨i, hi⟩
      rw [Pi.single_eq_same, Finset.sum_eq_zero] at hone
      · exact zero_ne_one hone
      · intro c _
        have hentry : gf (s.inv (i * k + c)) = 0 := gf_eq_zero_iff.mpr (hzero c c.isLt)
        rw [hentry, zero_mul]
  · exact absurd hunit hnot

end DecodingMatrix

/-! ### The devices while decoding -/

section Decoding

variable {k m n : Nat} {matrix : IntArray} {p : Pointers} {v : Nat → Fin k → GF}
  {erasures : List Nat} {erased : IntArray} {mem₀ : Memory}

/-- The devices in `good` hold their symbols, and only lost devices were written. -/
structure Restored (k m n : Nat) (matrix : IntArray) (p : Pointers) (v : Nat → Fin k → GF)
    (erasures : List Nat) (mem₀ : Memory) (good : Nat → Prop) (mem : Memory) : Prop where
  holds : ∀ id : Fin (k + m), good id → Holds k m n matrix p v mem id
  frame : ∀ a, (∀ e ∈ erasures, ∀ o < n, a ≠ p.device k e + o) → mem.cells a = mem₀.cells a

/-- A lost device gets its symbol. -/
theorem Restored.step {good good' : Nat → Prop} {mem mem' : Memory} {dest : Fin (k + m)}
    (h : Restored k m n matrix p v erasures mem₀ good mem) (hlost : (dest : Nat) ∈ erasures)
    (hgood : ∀ id < k + m, good' id → id = dest ∨ good id)
    (hcall : Holds k m n matrix p v mem' dest ∧
      (∀ id, id ≠ dest → Holds k m n matrix p v mem id → Holds k m n matrix p v mem' id) ∧
      ∀ a, (∀ o < n, a ≠ p.device k dest + o) → mem'.cells a = mem.cells a) :
    Restored k m n matrix p v erasures mem₀ good' mem' := by
  obtain ⟨hnew, hold, hframe⟩ := hcall
  constructor
  · intro id hid
    by_cases heq : id = dest
    · rw [heq]
      exact hnew
    · rcases hgood id id.isLt hid with hval | hid'
      · exact absurd (Fin.ext hval) heq
      · exact hold id heq (h.holds id hid')
  · intro a ha
    rw [hframe a (ha dest hlost), h.frame a ha]

theorem Restored.mono {good good' : Nat → Prop} {mem : Memory}
    (h : Restored k m n matrix p v erasures mem₀ good mem)
    (hgood : ∀ id < k + m, good' id → good id) :
    Restored k m n matrix p v erasures mem₀ good' mem :=
  ⟨fun id hid => h.holds id (hgood id id.isLt hid), h.frame⟩

theorem lost_or_good {id i : Nat} (h : id ∉ erasures ∨ id < i + 1) :
    id = i ∨ id ∉ erasures ∨ id < i := by
  rcases h with hout | hlt
  · exact Or.inr (Or.inl hout)
  · rcases Nat.eq_or_lt_of_le (Nat.le_of_lt_succ hlt) with heq | hlt'
    · exact Or.inl heq
    · exact Or.inr (Or.inr hlt')

theorem good_of_left {id i : Nat} (hi : i ∉ erasures) (h : id ∉ erasures ∨ id < i + 1) :
    id ∉ erasures ∨ id < i :=
  (lost_or_good h).elim (fun heq => Or.inl (heq ▸ hi)) fun hold => hold

/-- The first loop: the lost data devices before `lastdrive` are restored from the devices
left. -/
theorem decodeData_spec (hsep : Separate k m n p) (hmarks : Marks k m erasures erased)
    {decoding : Decoding} {lastdrive : Nat} (hlast : lastdrive ≤ k)
    (hdecoding : ∀ i < lastdrive, i ∈ erasures →
      ∃ d, decoding = some d ∧ Rebuilds k m matrix erasures d)
    {mem : Memory} (h : Restored k m n matrix p v erasures mem₀ (· ∉ erasures) mem) :
    ∃ mem', decodeData k lastdrive erased decoding p (4 * n) (mem, lostIn erasures 0 k)
        = some (mem', lostIn erasures lastdrive k) ∧
      Restored k m n matrix p v erasures mem₀ (fun id => id ∉ erasures ∨ id < lastdrive)
        mem' := by
  have hloop := forUpM_invariant (a := 0) (n := lastdrive) (s := (mem, lostIn erasures 0 k))
    (f := fun i (s : Memory × Nat) =>
      if 0 < s.2 ∧ erased i ≠ 0 then
        decoding.map fun d => (jerasureMatrixDotprod k (fun c => d.1 (i * k + c)) (some d.2) i
          p (4 * n) s.1, s.2 - 1)
      else some s)
    (P := fun i s => s.2 = lostIn erasures i k ∧ Restored k m n matrix p v erasures mem₀
      (fun id => id ∉ erasures ∨ id < i) s.1)
    ⟨rfl, h.mono fun id _ hid => hid.elim (fun hout => hout) (fun hlt => absurd hlt (by omega))⟩
    (by
      rintro i ⟨u, edd⟩ - hi ⟨hedd, hu⟩
      rw [Nat.zero_add] at hi
      dsimp only at hedd hu ⊢
      have hcount : lostIn erasures i k =
          lostIn erasures (i + 1) k + if i ∈ erasures then 1 else 0 :=
        lostIn_succ_left (by omega)
      by_cases hmem : i ∈ erasures
      · rw [if_pos hmem] at hcount
        obtain ⟨d, rfl, hd⟩ := hdecoding i hi hmem
        rw [if_pos ⟨by omega, (hmarks.ne_iff (by omega)).mpr hmem⟩, Option.map_some]
        refine ⟨_, rfl, by dsimp only; omega, ?_⟩
        have hids : ∀ c < k, d.2 c < k + m ∧ d.2 c ≠ i := fun c hc =>
          ⟨hd.ids_lt c hc, fun heq => hd.ids_left c hc (heq ▸ hmem)⟩
        have hsum : ∀ o < n, (∑ c ∈ Finset.range k, gf (d.1 (i * k + c)) *
            gf (u.cells (p.device k (d.2 c) + o)))
              = (generator k m matrix).mulVec (v o) ⟨i, by omega⟩ := by
          intro o ho
          rw [generator_data (by dsimp only; omega), Finset.sum_range,
            ← hd.data (v o) ⟨i, by omega⟩]
          refine Finset.sum_congr rfl fun c _ => ?_
          rw [hu.holds ⟨d.2 c, hd.ids_lt c c.isLt⟩ (Or.inl (hd.ids_left c c.isLt)) o ho]
        exact hu.step hmem (fun id _ hid => lost_or_good hid)
          (@Separate.dotprod k m n matrix p v hsep (fun c => d.1 (i * k + c)) (some d.2)
            ⟨i, by omega⟩ u (hd.row_ne i (by omega)) hids hsum)
      · rw [if_neg hmem] at hcount
        rw [if_neg fun hcase => hmem ((hmarks.ne_iff (by omega)).mp hcase.2)]
        exact ⟨_, rfl, by dsimp only; omega, hu.mono fun id _ hid => good_of_left hmem hid⟩)
  rw [Nat.zero_add] at hloop
  obtain ⟨⟨mem', edd⟩, hrun, hedd, hres⟩ := hloop
  dsimp only at hedd hres
  exact ⟨mem', by rw [decodeData, hrun, hedd], hres⟩

/-- With all but one of `k + 1` symbols that add up to zero, the one is the sum of the
others. -/
theorem sum_others {g : Nat → GF} {k last : Nat} (hlast : last < k)
    (htotal : ∑ i ∈ Finset.range (k + 1), g i = 0) :
    ∑ c ∈ Finset.range k, g (if c < last then c else c + 1) = g last := by
  have hall := Fin.sum_univ_succAbove (fun i : Fin (k + 1) => g i) ⟨last, by omega⟩
  rw [← Finset.sum_range (n := k + 1) g, htotal] at hall
  have hothers : ∑ c ∈ Finset.range k, g (if c < last then c else c + 1)
      = ∑ c : Fin k, g ((⟨last, by omega⟩ : Fin (k + 1)).succAbove c) := by
    rw [Finset.sum_range]
    refine Finset.sum_congr rfl fun c _ => ?_
    rw [Fin.succAbove]
    by_cases hc : (c : Nat) < last
    · rw [if_pos hc, if_pos (Fin.lt_def.mpr hc), Fin.val_castSucc]
    · rw [if_neg hc, if_neg (fun h => hc (Fin.lt_def.mp h)), Fin.val_succ]
  rw [hothers]
  have hsum := eq_neg_of_add_eq_zero_right hall.symm
  rw [hsum, CharTwo.neg_eq]

/-- The last lost data device is the sum of the other data devices and the first coding
device, when the first row of the matrix is all ones. -/
theorem decodeLast_spec (hsep : Separate k m n p) {last : Nat} (hlast : last < k) (hm : 0 < m)
    (hones : ∀ c < k, matrix c = 1) (hmem : last ∈ erasures)
    (hafter : ∀ i, last < i → i ≤ k → i ∉ erasures) (tmpids : Nat → Nat) {mem : Memory}
    (h : Restored k m n matrix p v erasures mem₀ (fun id => id ∉ erasures ∨ id < last) mem) :
    Restored k m n matrix p v erasures mem₀ (fun id => id ∉ erasures ∨ id < k)
      (decodeLast k last matrix tmpids p (4 * n) mem) := by
  rw [decodeLast]
  have hids : ∀ c < k, forUp 0 k (fun i tmpids =>
      Function.update tmpids i (if i < last then i else i + 1)) tmpids c
        = if c < last then c else c + 1 := fun c hc =>
    (forUp_store (x := id) (w := fun i _ => if i < last then i else i + 1)
      (fun _ _ _ hlt _ heq => by simp only [id] at heq; omega)
      (fun _ _ _ _ _ => rfl)).1 c (by omega) (by omega)
  generalize forUp 0 k _ tmpids = ids at hids
  have hgood : ∀ c < k, (if c < last then c else c + 1) ∉ erasures ∨
      (if c < last then c else c + 1) < last := by
    intro c hc
    split_ifs with hlt
    · exact Or.inr hlt
    · exact Or.inl (hafter _ (by omega) (by omega))
  have hrow : ∃ c < k, matrix c ≠ 0#32 := ⟨0, by omega, by rw [hones 0 (by omega)]; decide⟩
  have hapart : ∀ c < k, ids c < k + m ∧ ids c ≠ last := by
    intro c hc
    rw [hids c hc]
    split_ifs
    · omega
    · omega
  have hsum : ∀ o < n, (∑ c ∈ Finset.range k, gf (matrix c) *
      gf (mem.cells (p.device k (ids c) + o)))
        = (generator k m matrix).mulVec (v o) ⟨last, by omega⟩ := by
    intro o ho
    let g : Nat → GF := fun i =>
      if hi : i < k + m then (generator k m matrix).mulVec (v o) ⟨i, hi⟩ else 0
    have hg : ∀ i (hi : i < k + m), g i = (generator k m matrix).mulVec (v o) ⟨i, hi⟩ :=
      fun i hi => dif_pos hi
    have htotal : ∑ i ∈ Finset.range (k + 1), g i = 0 := by
      have hparity : g k = ∑ i ∈ Finset.range k, g i := by
        rw [hg k (by omega), generator_coding le_rfl, Finset.sum_range]
        refine Finset.sum_congr rfl fun c _ => ?_
        dsimp only
        rw [hg c (by omega), generator_data c.isLt, Nat.sub_self, Nat.zero_mul, Nat.zero_add,
          hones c c.isLt, gf_ofNat_one, one_mul]
      rw [Finset.sum_range_succ, hparity, CharTwo.add_self_eq_zero]
    rw [← hg last (by omega), ← sum_others hlast htotal]
    refine Finset.sum_congr rfl fun c hc => ?_
    have hck : c < k := Finset.mem_range.mp hc
    have hid : (if c < last then c else c + 1) < k + m := by split_ifs <;> omega
    rw [hones c hck, gf_ofNat_one, one_mul, hids c hck, hg _ hid]
    exact h.holds ⟨_, hid⟩ (hgood c hck) o ho
  have hafter' : ∀ id < k + m, id ∉ erasures ∨ id < k →
      id = last ∨ id ∉ erasures ∨ id < last := by
    intro id _ hcase
    rcases lt_trichotomy id last with hlt | heq | hgt
    · exact Or.inr (Or.inr hlt)
    · exact Or.inl heq
    · exact Or.inr (Or.inl (hcase.elim (fun hout => hout) fun hk => hafter id hgt hk.le))
  exact h.step hmem hafter' (@Separate.dotprod k m n matrix p v hsep matrix (some ids)
    ⟨last, by omega⟩ mem hrow hapart hsum)

/-- The lost coding devices are encoded again. -/
theorem reencode_spec (hsep : Separate k m n p) (hmds : IsMds (generator k m matrix))
    (hk : 0 < k) (hmarks : Marks k m erasures erased) {mem : Memory}
    (h : Restored k m n matrix p v erasures mem₀ (fun id => id ∉ erasures ∨ id < k) mem) :
    Restored k m n matrix p v erasures mem₀ (fun _ => True)
      (reencode k m matrix erased p (4 * n) mem) := by
  rw [reencode]
  have hloop := forUp_invariant (a := 0) (n := m) (s := mem)
    (f := fun i mem => if erased (k + i) ≠ 0 then
      jerasureMatrixDotprod k (fun c => matrix (i * k + c)) none (i + k) p (4 * n) mem
      else mem)
    (P := fun i u => Restored k m n matrix p v erasures mem₀
      (fun id => id ∉ erasures ∨ id < k + i) u)
    h
    (by
      rintro i u - hi hu
      rw [Nat.zero_add] at hi
      by_cases hmem : k + i ∈ erasures
      · rw [if_pos ((hmarks.ne_iff (by omega)).mpr hmem), Nat.add_comm i k]
        have hcall := hsep.coding hmds hk hi fun id hid => hu.holds id (Or.inr (by omega))
        exact hu.step hmem (fun id _ hid => lost_or_good hid) hcall
      · rw [if_neg (mt (hmarks.ne_iff (by omega)).mp hmem)]
        exact hu.mono fun id _ hid => good_of_left hmem hid)
  rw [Nat.zero_add] at hloop
  exact hloop.mono fun id hid _ => Or.inr hid

/-- A decoding matrix is there for every data device the first loop rebuilds. -/
theorem decoding_spec (hmds : IsMds (generator k m matrix))
    (hmarks : Marks k m erasures erased) (hcard : erasures.toFinset.card ≤ m)
    {last : Nat} (hlast : lostIn erasures 0 k = 0 ∨ last < k ∧ last ∈ erasures ∧
      ∀ i, last < i → i < k → i ∉ erasures)
    (noParity : Bool) (heap : Blocks) :
    ∃ decoding : Decoding,
      (if lostIn erasures 0 k > 1 ∨ (lostIn erasures 0 k > 0 ∧ noParity = true) then
        (jerasureMakeDecodingMatrix k m matrix erased heap.decodingMatrix heap.tmpmat
          heap.dmIds).map fun r => (r.1, some r.2)
        else some (0, none)) = some (0, decoding) ∧
      ∀ i < (if noParity = true then k else last), i < k → i ∈ erasures →
        ∃ d, decoding = some d ∧ Rebuilds k m matrix erasures d := by
  obtain ⟨d, hmake, hd⟩ := makeDecodingMatrix_spec hmds hmarks hcard heap.decodingMatrix
    heap.tmpmat heap.dmIds
  by_cases hneed : lostIn erasures 0 k > 1 ∨ (lostIn erasures 0 k > 0 ∧ noParity = true)
  · rw [if_pos hneed, hmake, Option.map_some]
    exact ⟨some d, rfl, fun _ _ _ _ => ⟨d, rfl, hd⟩⟩
  · rw [if_neg hneed]
    refine ⟨none, rfl, fun i hi hik hmem => absurd hneed (not_not.mpr ?_)⟩
    have hpos := lostIn_pos (a := 0) hmem (Nat.zero_le i) hik
    cases noParity with
    | true => exact Or.inr ⟨hpos, rfl⟩
    | false =>
      rw [if_neg (by simp)] at hi
      obtain ⟨hlt, hin, -⟩ := hlast.resolve_left hpos.ne'
      exact Or.inl (lostIn_two hmem hin (Nat.zero_le i) hi hlt)

/-- `jerasure_matrix_decode`. With up to `m` lost devices it returns 0 with every device
holding its symbol, and stores into lost devices only; with more it returns -1 and leaves
the memory alone. -/
theorem decode_spec (hsep : Separate k m n p) (hmds : IsMds (generator k m matrix))
    (hk : 0 < k) {rowKOnes : Bool} (hones : rowKOnes = true → ∀ c < k, matrix c = 1)
    (hlt : ∀ e ∈ erasures, e < k + m) (heap : Blocks) {mem : Memory}
    (hleft : ∀ id : Fin (k + m), (id : Nat) ∉ erasures → Holds k m n matrix p v mem id) :
    (erasures.toFinset.card ≤ m → ∃ mem',
      jerasureMatrixDecode k m matrix rowKOnes erasures p (4 * n) heap mem = some (0, mem') ∧
        Restored k m n matrix p v erasures mem (fun _ => True) mem') ∧
    (m < erasures.toFinset.card →
      jerasureMatrixDecode k m matrix rowKOnes erasures p (4 * n) heap mem
        = some (-1, mem)) := by
  rw [jerasureMatrixDecode]
  rcases erasuresToErased_spec hlt heap.erased with
    ⟨hcard, erased, hrun, hmarks⟩ | ⟨hcard, hrun⟩
  · refine ⟨fun _ => ?_, fun hover => absurd hover (by omega)⟩
    rw [hrun]
    dsimp only
    obtain ⟨hedd, hle, hlast⟩ := lostData_spec hmarks
    rw [hedd] at hlast ⊢
    generalize (lostData k erased).2 = last at hle hlast ⊢
    generalize hparity : (!rowKOnes || decide (erased k ≠ 0)) = noParity
    obtain ⟨decoding, hmade, hdecoding⟩ := decoding_spec hmds hmarks hcard hlast noParity heap
    have hdrive : (if noParity = true then k else last) ≤ k := by
      split_ifs
      · exact le_rfl
      · exact hle
    have hstart : Restored k m n matrix p v erasures mem (· ∉ erasures) mem :=
      ⟨hleft, fun _ _ => rfl⟩
    obtain ⟨mem₁, hdata, h₁⟩ := decodeData_spec hsep hmarks hdrive
      (fun i hi hmem => hdecoding i hi (by omega) hmem) hstart
    rw [hmade, Option.bind_some, if_neg (lt_irrefl _), hdata, Option.map_some]
    refine ⟨_, rfl, reencode_spec hsep hmds hk hmarks ?_⟩
    dsimp only
    by_cases hrest : 0 < lostIn erasures (if noParity = true then k else last) k
    · rw [if_pos hrest]
      cases noParity with
      | true => exact absurd hrest (by rw [if_pos rfl, lostIn_self]; exact lt_irrefl 0)
      | false =>
        simp only [Bool.false_eq_true, if_false] at hrest h₁ ⊢
        rw [Bool.or_eq_false_iff, Bool.not_eq_false', decide_eq_false_iff_not, not_not]
          at hparity
        obtain ⟨i, hi⟩ := Finset.card_pos.mp hrest
        rw [Finset.mem_filter, Finset.mem_Ico] at hi
        obtain ⟨hlastk, hin, hafter⟩ := hlast.resolve_left
          (lostIn_pos hi.2 (Nat.zero_le i) hi.1.2).ne'
        have hm : 0 < m := lt_of_lt_of_le
          (Finset.card_pos.mpr ⟨last, List.mem_toFinset.mpr hin⟩) hcard
        refine decodeLast_spec hsep hlastk hm (hones hparity.1) hin (fun i hi hik => ?_) _ h₁
        rcases Nat.eq_or_lt_of_le hik with rfl | hik
        · exact fun hmem => (hmarks.ne_iff (by omega)).mpr hmem hparity.2
        · exact hafter i hi hik
    · rw [if_neg hrest]
      refine h₁.mono fun id _ hid => ?_
      rcases hid with hout | hik
      · exact Or.inl hout
      · by_cases hbefore : id < (if noParity = true then k else last)
        · exact Or.inr hbefore
        · exact Or.inl fun hmem => hrest (lostIn_pos hmem (by omega) hik)
  · refine ⟨fun hunder => absurd hunder (by omega), fun _ => ?_⟩
    rw [hrun]

end Decoding

end EbnAnchor.Core
