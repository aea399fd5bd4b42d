import Mathlib.Data.Fintype.Pigeonhole
import Mathlib.Data.List.Nodup

/-!
Singly linked lists in memory.

The list is a cell that holds the first item, and every item is a cell that holds the next one.
From the list the cells may lead to an end, or into a ring.

* `Chain.insert`, `Chain.remove`: linking an item in and out of a list that ends;
* `Chain.cut`: what the list loses when an item's own link is emptied;
* `find_none`: a search that has not ended after as many cells as there are never ends.
-/

namespace LinkedList

variable {τ : Type*}

/-- What the cells hold: `none` is the cell of the list. -/
structure Links (τ : Type*) where
  head : Option τ
  next : τ → Option τ

namespace Links

def link (l : Links τ) : Option τ → Option τ
  | none => l.head
  | some x => l.next x

/-- The first cell, from `cell` on, that holds nothing or an item the test is true of. -/
def find (l : Links τ) (test : τ → Bool) : Nat → Option τ → Option (Option τ)
  | 0, _ => none
  | time + 1, cell =>
    match l.link cell with
    | none => some cell
    | some x => if test x then some cell else l.find test time (some x)

/-- The list leads to the cell. -/
def Reaches (l : Links τ) (cell : Option τ) : Prop := ∃ k, l.link^[k] none = cell

section

variable {l : Links τ} {cell cell' : Option τ}

theorem Reaches.first : l.Reaches none := ⟨0, rfl⟩

theorem Reaches.link (h : l.Reaches cell) : l.Reaches (l.link cell) := by
  obtain ⟨k, rfl⟩ := h
  exact ⟨k + 1, Function.iterate_succ_apply' ..⟩

theorem Reaches.induct {P : Option τ → Prop} (hfirst : P none)
    (hlink : ∀ cell, P cell → P (l.link cell)) (h : l.Reaches cell) : P cell := by
  obtain ⟨k, rfl⟩ := h
  induction k with
  | zero => exact hfirst
  | succ k ih =>
    rw [Function.iterate_succ_apply']
    exact hlink _ ih

theorem Reaches.of_find {test : τ → Bool} {time : Nat} (hcell : l.Reaches cell)
    (h : l.find test time cell = some cell') : l.Reaches cell' := by
  induction time generalizing cell with
  | zero => cases h
  | succ time ih =>
    rw [find] at h
    split at h
    · cases h
      exact hcell
    · next x hlink =>
      split_ifs at h
      · cases h
        exact hcell
      · exact ih (hlink ▸ hcell.link) h

end

variable [DecidableEq τ]

def set (l : Links τ) (cell item : Option τ) : Links τ :=
  match cell with
  | none => { l with head := item }
  | some x => { l with next := Function.update l.next x item }

/-- Link an item in, behind a cell. -/
def insertAt (l : Links τ) (cell : Option τ) (x : τ) : Links τ :=
  (l.set (some x) (l.link cell)).set cell (some x)

variable (l : Links τ)

@[simp] theorem link_set_self (cell item : Option τ) : (l.set cell item).link cell = item := by
  cases cell with
  | none => rfl
  | some x => exact Function.update_self ..

@[simp] theorem link_set_of_ne {cell cell' : Option τ} (h : cell' ≠ cell) (item : Option τ) :
    (l.set cell item).link cell' = l.link cell' := by
  cases cell with
  | none =>
    cases cell' with
    | none => exact absurd rfl h
    | some y => rfl
  | some x =>
    cases cell' with
    | none => rfl
    | some y => exact Function.update_of_ne (fun heq => h (congrArg some heq)) ..

theorem link_insertAt_cell (cell : Option τ) (x : τ) : (l.insertAt cell x).link cell = some x :=
  link_set_self ..

theorem link_insertAt_item {cell : Option τ} {x : τ} (h : some x ≠ cell) :
    (l.insertAt cell x).link (some x) = l.link cell := by
  rw [insertAt, link_set_of_ne _ h, link_set_self]

theorem link_insertAt_of_ne {cell cell' : Option τ} {x : τ} (hcell : cell' ≠ cell)
    (hitem : cell' ≠ some x) : (l.insertAt cell x).link cell' = l.link cell' := by
  rw [insertAt, link_set_of_ne _ hcell, link_set_of_ne _ hitem]

variable {l} {cell cell' : Option τ}

/-- A cell that is set to one the list leads to leads nowhere else. -/
theorem Reaches.of_set {item : Option τ} (hitem : l.Reaches item)
    (h : (l.set cell item).Reaches cell') : l.Reaches cell' := by
  refine h.induct .first fun c hc => ?_
  by_cases hsame : c = cell
  · rw [hsame, link_set_self]
    exact hitem
  · rw [link_set_of_ne _ hsame]
    exact hc.link

theorem Reaches.of_insertAt {x : τ} (hcell : l.Reaches cell)
    (h : (l.insertAt cell x).Reaches cell') : cell' = some x ∨ l.Reaches cell' := by
  refine h.induct (P := fun c => c = some x ∨ l.Reaches c) (Or.inr .first) fun c hc => ?_
  by_cases hsame : c = cell
  · rw [hsame, link_insertAt_cell]
    exact Or.inl rfl
  · by_cases hitem : c = some x
    · rw [hitem, l.link_insertAt_item (hitem ▸ hsame)]
      exact Or.inr hcell.link
    · rw [l.link_insertAt_of_ne hsame hitem]
      exact Or.inr (hc.resolve_left hitem).link

end Links

/-! ### Lists that end -/

/-- The items behind a cell, up to the end. -/
inductive Chain (l : Links τ) : Option τ → List τ → Prop
  | nil {cell : Option τ} : l.link cell = none → Chain l cell []
  | cons {cell : Option τ} {x : τ} {items : List τ} :
    l.link cell = some x → Chain l (some x) items → Chain l cell (x :: items)

/-- The cells of a chain. -/
abbrev cells (cell : Option τ) (items : List τ) : List (Option τ) := cell :: items.map some

variable {l l' : Links τ} {cell : Option τ} {items items' : List τ} {test : τ → Bool} {x : τ}
  {time : Nat}

theorem Chain.congr (h : Chain l cell items)
    (hsame : ∀ c ∈ cells cell items, l'.link c = l.link c) : Chain l' cell items := by
  induction h with
  | nil hend => exact .nil ((hsame _ List.mem_cons_self).trans hend)
  | cons hlink _ ih =>
    refine .cons ((hsame _ List.mem_cons_self).trans hlink) (ih fun c hc => ?_)
    exact hsame c (List.mem_cons_of_mem _ hc)

/-- The items are determined. -/
theorem Chain.unique (h : Chain l cell items) (h' : Chain l cell items') : items = items' := by
  induction h generalizing items' with
  | nil hend =>
    cases h' with
    | nil => rfl
    | cons hlink _ =>
      rw [hend] at hlink
      cases hlink
  | cons hlink _ ih =>
    cases h' with
    | nil hend =>
      rw [hlink] at hend
      cases hend
    | cons hlink' hrest =>
      obtain rfl := Option.some.inj (hlink.symm.trans hlink')
      rw [ih hrest]

theorem Chain.link_cases (h : Chain l cell items) :
    ∀ c ∈ cells cell items, l.link c = none ∨ ∃ x ∈ items, l.link c = some x := by
  induction h with
  | nil hend =>
    intro c hc
    rw [List.mem_singleton.mp hc]
    exact Or.inl hend
  | @cons cell y items hlink _ ih =>
    intro c hc
    rcases List.mem_cons.mp hc with rfl | hc
    · exact Or.inr ⟨y, List.mem_cons_self, hlink⟩
    · rcases ih c hc with hend | ⟨x, hx, hat⟩
      · exact Or.inl hend
      · exact Or.inr ⟨x, List.mem_cons_of_mem _ hx, hat⟩

theorem Chain.reaches (h : Chain l cell items) (hcell : l.Reaches cell) :
    ∀ c ∈ cells cell items, l.Reaches c := by
  induction h with
  | nil hend =>
    intro c hc
    rw [List.mem_singleton.mp hc]
    exact hcell
  | cons hlink _ ih =>
    intro c hc
    rcases List.mem_cons.mp hc with rfl | hc
    · exact hcell
    · exact ih (hlink ▸ hcell.link) c hc

theorem Chain.reaches_iff (h : Chain l none items) : l.Reaches (some x) ↔ x ∈ items := by
  have hcells : some x ∈ cells none items ↔ x ∈ items := by simp
  rw [← hcells]
  constructor
  · refine Links.Reaches.induct List.mem_cons_self fun c hc => ?_
    rcases h.link_cases c hc with hend | ⟨y, hy, hat⟩
    · rw [hend]
      exact List.mem_cons_self
    · rw [hat]
      exact List.mem_cons_of_mem _ (List.mem_map_of_mem hy)
  · exact h.reaches .first _

theorem nodup_cells (h : items.Nodup) : (cells none items).Nodup :=
  List.nodup_cons.mpr ⟨by simp, h.map (Option.some_injective τ)⟩

/-- Before the first item the test is true of. -/
def insertBefore (test : τ → Bool) (x : τ) : List τ → List τ
  | [] => [x]
  | y :: items => if test y then x :: y :: items else y :: insertBefore test x items

theorem insertBefore_perm (test : τ → Bool) (x : τ) (items : List τ) :
    (insertBefore test x items).Perm (x :: items) := by
  induction items with
  | nil => exact .refl _
  | cons y items ih =>
    rw [insertBefore]
    split
    · exact .refl _
    · exact (ih.cons y).trans (.swap x y items)

variable [DecidableEq τ]

theorem Chain.insert (h : Chain l cell items) (test : τ → Bool)
    (hnodup : (cells cell items).Nodup) (hnew : some x ∉ cells cell items)
    (htime : items.length < time) :
    ∃ c ∈ cells cell items, l.find test time cell = some c ∧
      Chain (l.insertAt c x) cell (insertBefore test x items) := by
  induction h generalizing time with
  | @nil cell hend =>
    obtain ⟨time, rfl⟩ := Nat.exists_eq_succ_of_ne_zero (Nat.ne_of_gt htime)
    refine ⟨cell, List.mem_cons_self, by simp only [Links.find, hend], ?_⟩
    have hne : some x ≠ cell := fun heq => hnew (by rw [heq]; exact List.mem_cons_self)
    refine .cons (l.link_insertAt_cell cell x) (.nil ?_)
    rw [l.link_insertAt_item hne, hend]
  | @cons cell y items hlink hrest ih =>
    obtain ⟨time, rfl⟩ := Nat.exists_eq_succ_of_ne_zero (Nat.ne_of_gt (Nat.zero_lt_of_lt htime))
    obtain ⟨hcell, hnodup⟩ := List.nodup_cons.mp hnodup
    have hne : some x ≠ cell := fun heq => hnew (by rw [heq]; exact List.mem_cons_self)
    have hnew' : some x ∉ cells (some y) items := fun hmem => hnew (List.mem_cons_of_mem _ hmem)
    simp only [Links.find, hlink, insertBefore]
    by_cases htest : test y = true
    · rw [if_pos htest, if_pos htest]
      refine ⟨cell, List.mem_cons_self, rfl, .cons (l.link_insertAt_cell cell x) (.cons ?_ ?_)⟩
      · rw [l.link_insertAt_item hne, hlink]
      · refine hrest.congr fun c hc => l.link_insertAt_of_ne ?_ ?_
        · rintro rfl
          exact hcell hc
        · rintro rfl
          exact hnew' hc
    · rw [if_neg htest, if_neg htest]
      obtain ⟨c, hc, hfind, hchain⟩ := ih hnodup hnew' (Nat.lt_of_succ_lt_succ htime)
      refine ⟨c, List.mem_cons_of_mem _ hc, hfind, .cons ?_ hchain⟩
      rw [l.link_insertAt_of_ne ?_ hne.symm, hlink]
      rintro rfl
      exact hcell hc

theorem Chain.remove (h : Chain l cell items) (hnodup : (cells cell items).Nodup)
    (hx : x ∈ items) (htime : items.length < time) :
    ∃ c ∈ cells cell items, l.find (fun y => y = x) time cell = some c ∧ l.link c = some x ∧
      Chain (l.set c (l.next x)) cell (items.erase x) := by
  induction h generalizing time with
  | nil => cases hx
  | @cons cell y items hlink hrest ih =>
    obtain ⟨time, rfl⟩ := Nat.exists_eq_succ_of_ne_zero (Nat.ne_of_gt (Nat.zero_lt_of_lt htime))
    obtain ⟨hcell, hnodup⟩ := List.nodup_cons.mp hnodup
    simp only [Links.find, hlink]
    by_cases hsame : y = x
    · subst hsame
      rw [if_pos (decide_eq_true rfl), List.erase_cons_head]
      refine ⟨cell, List.mem_cons_self, rfl, hlink, ?_⟩
      -- the cell now holds what the item held
      cases hrest with
      | nil hend => exact .nil ((l.link_set_self ..).trans hend)
      | @cons _ z items hlink' hrest' =>
        refine .cons ((l.link_set_self ..).trans hlink') (hrest'.congr fun c hc => ?_)
        refine l.link_set_of_ne ?_ _
        rintro rfl
        exact hcell (List.mem_cons_of_mem _ hc)
    · have hx' : x ∈ items := (List.mem_cons.mp hx).resolve_left (Ne.symm hsame)
      obtain ⟨c, hc, hfind, hat, hchain⟩ := ih hnodup hx' (Nat.lt_of_succ_lt_succ htime)
      rw [if_neg (by rw [decide_eq_true_iff]; exact hsame),
        List.erase_cons_tail (by simpa using hsame)]
      refine ⟨c, List.mem_cons_of_mem _ hc, hfind, hat, .cons ?_ hchain⟩
      rw [l.link_set_of_ne ?_, hlink]
      rintro rfl
      exact hcell hc

/-- An item that is set to nothing cuts off what is behind it. -/
theorem Chain.cut (h : Chain l cell (items ++ x :: items'))
    (hnodup : (cells cell (items ++ x :: items')).Nodup) :
    Chain (l.set (some x) none) cell (items ++ [x]) := by
  induction items generalizing cell with
  | nil =>
    cases h with
    | cons hlink _ =>
      refine .cons ((l.link_set_of_ne ?_ none).trans hlink) (.nil (l.link_set_self ..))
      rintro rfl
      exact (List.nodup_cons.mp hnodup).1 List.mem_cons_self
  | cons y items ih =>
    cases h with
    | cons hlink hrest =>
      refine .cons ((l.link_set_of_ne ?_ none).trans hlink) (ih hrest (List.nodup_cons.mp hnodup).2)
      rintro rfl
      exact (List.nodup_cons.mp hnodup).1 (by simp)

omit [DecidableEq τ] in
/-- The search for an item that is not there ends at the end. -/
theorem Chain.find_end (h : Chain l cell items) (htest : ∀ y ∈ items, test y = false)
    (htime : items.length < time) : ∃ c, l.find test time cell = some c ∧ l.link c = none := by
  induction h generalizing time with
  | @nil cell hend =>
    obtain ⟨time, rfl⟩ := Nat.exists_eq_succ_of_ne_zero (Nat.ne_of_gt htime)
    exact ⟨cell, by simp only [Links.find, hend], hend⟩
  | @cons cell y items hlink _ ih =>
    obtain ⟨time, rfl⟩ := Nat.exists_eq_succ_of_ne_zero (Nat.ne_of_gt (Nat.zero_lt_of_lt htime))
    have hy : ¬ test y = true := by
      rw [htest y List.mem_cons_self]
      decide
    simp only [Links.find, hlink, if_neg hy]
    exact ih (fun z hz => htest z (List.mem_cons_of_mem _ hz)) (Nat.lt_of_succ_lt_succ htime)

/-! ### Searches that do not end -/

omit [DecidableEq τ]

/-- The cells a search goes through. -/
theorem find_none_iff : l.find test time cell = none ↔
    ∀ k < time, ∃ x, l.link^[k + 1] cell = some x ∧ test x = false := by
  induction time generalizing cell with
  | zero => simp [Links.find]
  | succ time ih =>
    rw [Nat.forall_lt_succ_left, Function.iterate_one]
    simp only [Function.iterate_succ_apply l.link (_ + 1)]
    rw [Links.find]
    cases hlink : l.link cell with
    | none => simp
    | some y =>
      cases htest : test y with
      | true => simp [htest]
      | false => simp [htest, ih]

/-- After as many cells as there are the search has been everywhere it will be. -/
theorem find_none [Fintype τ] (h : l.find test (Fintype.card τ + 1) cell = none) (time : Nat) :
    l.find test time cell = none := by
  rw [find_none_iff] at h ⊢
  choose item hitem htest using h
  -- two of the items are the same, and the cells between them come again and again
  obtain ⟨i, j, hne, hsame⟩ := Fintype.exists_ne_map_eq_of_card_lt
    (fun k : Fin (Fintype.card τ + 1) => item k k.isLt) (by simp)
  wlog hij : i < j generalizing i j with hswap
  · exact hswap j i hne.symm hsame.symm (lt_of_le_of_ne (not_lt.mp hij) hne.symm)
  have hagain : l.link^[j + 1] cell = l.link^[i + 1] cell := by
    rw [hitem j j.isLt, hitem i i.isLt, hsame]
  intro k _
  induction k using Nat.strong_induction_on with
  | _ k ih =>
    by_cases hk : k < Fintype.card τ + 1
    · exact ⟨item k hk, hitem k hk, htest k hk⟩
    · have hj := j.isLt
      obtain ⟨x, hx, hfalse⟩ := ih (k - (j - i)) (by omega) (by omega)
      refine ⟨x, ?_, hfalse⟩
      have hlate : k + 1 = (k - j) + (j + 1) := by omega
      have hearly : k - (j - i) + 1 = (k - j) + (i + 1) := by omega
      rw [hlate, Function.iterate_add_apply, hagain, ← Function.iterate_add_apply, ← hearly, hx]

end LinkedList
