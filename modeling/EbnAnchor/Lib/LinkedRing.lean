import Mathlib.Data.List.Infix
import Mathlib.Data.List.Nodup

/-!
Circular doubly linked lists.

The nodes are a head and the members in the order of the forward links. `next` and `prev` are
the two links of every node.

* `IsRing.unlink`: taking a member out changes two links;
* `IsRing.insertLast`: a new last member, before the head;
* `IsRing.walk`: following the forward links from the head meets the members in order.
-/

namespace LinkedRing

variable {α : Type*} {next prev next' prev' : α → α}

/-! ### Linked both ways -/

/-- Each node of the list is linked with the one after it, both ways. -/
def Links (next prev : α → α) : List α → Prop
  | x :: y :: rest => next x = y ∧ prev y = x ∧ Links next prev (y :: rest)
  | _ => True

/-- Both halves, and the node they share. -/
theorem links_append (l : List α) (x : α) (r : List α) :
    Links next prev (l ++ x :: r) ↔ Links next prev (l ++ [x]) ∧ Links next prev (x :: r) := by
  induction l with
  | nil => simp [Links]
  | cons a l ih =>
    cases l with
    | nil => simp [Links, and_assoc]
    | cons b l =>
      simp only [List.cons_append, Links] at ih ⊢
      rw [ih]
      simp only [and_assoc]

/-- Only the forward links of the nodes but the last and the backward links of the nodes but
the first are read. -/
theorem Links.congr {l : List α} (h : Links next prev l)
    (hnext : ∀ x ∈ l.dropLast, next' x = next x) (hprev : ∀ x ∈ l.tail, prev' x = prev x) :
    Links next' prev' l := by
  induction l with
  | nil => trivial
  | cons x l ih =>
    cases l with
    | nil => trivial
    | cons y rest =>
      obtain ⟨hxy, hyx, hrest⟩ := h
      constructor
      · rw [hnext x (by simp), hxy]
      constructor
      · rw [hprev y (by simp), hyx]
      · apply ih hrest
        · intro z hz
          exact hnext z (by simp [hz])
        · intro z hz
          exact hprev z (by simp only [List.tail_cons] at hz ⊢; exact List.mem_cons_of_mem _ hz)

/-! ### Rings -/

structure IsRing (next prev : α → α) (head : α) (members : List α) : Prop where
  links : Links next prev (head :: members ++ [head])
  nodup : (head :: members).Nodup

variable {head b : α} {l r members : List α}

/-- A node of the ring between its neighbours. -/
theorem IsRing.around (h : IsRing next prev head (l ++ b :: r)) :
    ∃ pre x z post, head :: l = pre ++ [x] ∧ r ++ [head] = z :: post ∧
      Links next prev (pre ++ [x]) ∧ Links next prev (z :: post) ∧
      next x = b ∧ prev b = x ∧ next b = z ∧ prev z = b := by
  obtain ⟨pre, x, hpre⟩ := List.eq_nil_or_concat' (head :: l) |>.resolve_left (by simp)
  obtain ⟨z, post, hpost⟩ := List.exists_cons_of_ne_nil (l := r ++ [head]) (by simp)
  have hlinks := h.links
  have hsplit : head :: (l ++ b :: r) ++ [head] = pre ++ x :: b :: z :: post := by
    rw [← List.cons_append, hpre]
    simp [← hpost]
  rw [hsplit, links_append] at hlinks
  obtain ⟨hleft, hxb, hbx, hbz, hzb, hright⟩ := hlinks
  exact ⟨pre, x, z, post, hpre, hpost, hleft, hright, hxb, hbx, hbz, hzb⟩

theorem IsRing.next_prev (h : IsRing next prev head (l ++ b :: r)) :
    next (prev b) = b ∧ prev (next b) = b := by
  obtain ⟨pre, x, z, post, -, -, -, -, hxb, hbx, hbz, hzb⟩ := h.around
  rw [hbx, hbz]
  exact ⟨hxb, hzb⟩

/-- The neighbours of a member are nodes of the ring without it. -/
theorem IsRing.neighbours (h : IsRing next prev head (l ++ b :: r)) :
    prev b ∈ head :: (l ++ r) ∧ next b ∈ head :: (l ++ r) := by
  obtain ⟨pre, x, z, post, hpre, hpost, -, -, -, hbx, hbz, -⟩ := h.around
  have hx : x ∈ head :: l := by
    rw [hpre]
    simp
  have hz : z ∈ r ++ [head] := by
    rw [hpost]
    simp
  rw [hbx, hbz]
  simp only [List.mem_cons, List.mem_append] at hx hz ⊢
  constructor
  · tauto
  · simp only [List.not_mem_nil, or_false] at hz
    tauto

/-- What follows the head, and what comes before it. -/
theorem IsRing.ends (h : IsRing next prev head members) :
    (∃ post, members ++ [head] = next head :: post) ∧
      ∃ pre, head :: members = pre ++ [prev head] := by
  obtain ⟨z, post, hpost⟩ := List.exists_cons_of_ne_nil (l := members ++ [head]) (by simp)
  obtain ⟨pre, x, hpre⟩ := List.eq_nil_or_concat' (head :: members) |>.resolve_left (by simp)
  constructor
  · have hlinks := h.links
    rw [List.cons_append, hpost] at hlinks
    exact ⟨post, by rw [hpost, hlinks.1]⟩
  · have hlinks := h.links
    rw [hpre, List.append_assoc, List.singleton_append, links_append] at hlinks
    exact ⟨pre, by rw [hpre, hlinks.2.2.1]⟩

theorem IsRing.next_prev_head (h : IsRing next prev head members) :
    next (prev head) = head ∧ prev (next head) = head := by
  obtain ⟨⟨post, hpost⟩, pre, hpre⟩ := h.ends
  constructor
  · have hlinks := h.links
    rw [hpre, List.append_assoc, List.singleton_append, links_append] at hlinks
    exact hlinks.2.1
  · have hlinks := h.links
    rw [List.cons_append, hpost] at hlinks
    exact hlinks.2.1

/-- A ring stays one when the links of its nodes stay. -/
theorem IsRing.congr (h : IsRing next prev head members)
    (hnext : ∀ x ∈ head :: members, next' x = next x)
    (hprev : ∀ x ∈ head :: members, prev' x = prev x) :
    IsRing next' prev' head members := by
  refine ⟨h.links.congr ?_ ?_, h.nodup⟩
  · intro x hx
    rw [List.dropLast_concat] at hx
    exact hnext x hx
  · intro x hx
    apply hprev
    simp only [List.cons_append, List.tail_cons, List.mem_append, List.mem_singleton] at hx
    simp only [List.mem_cons]
    tauto

/-- The two links that change when `b` is taken out. -/
theorem IsRing.unlink [DecidableEq α] (h : IsRing next prev head (l ++ b :: r))
    (hnext : ∀ x ∈ head :: (l ++ r), next' x = Function.update next (prev b) (next b) x)
    (hprev : ∀ x ∈ head :: (l ++ r), prev' x = Function.update prev (next b) (prev b) x) :
    IsRing next' prev' head (l ++ r) := by
  have hnodup := h.nodup
  obtain ⟨pre, x, z, post, hpre, hpost, hleft, hright, -, hbx, hbz, -⟩ := h.around
  rw [hbx, hbz] at hnext hprev
  have hsub : (l ++ r).Sublist (l ++ b :: r) :=
    List.Sublist.append_left (List.sublist_cons_self ..) l
  have hnodup' : (head :: (l ++ r)).Nodup := hnodup.sublist (hsub.cons_cons head)
  -- the nodes from the head on, and from `z` round to the head
  have hfront : (pre ++ [x] ++ r).Nodup := by rwa [← hpre]
  have hback : (l ++ (z :: post)).Nodup := by
    rw [← hpost, ← List.append_assoc]
    exact List.nodup_append_comm.mp hnodup'
  have hfrontMem : ∀ y, y ∈ pre ++ [x] ++ r ↔ y ∈ head :: (l ++ r) := by
    intro y
    rw [← hpre]
    simp
  have hbackMem : ∀ y, y ∈ l ++ (z :: post) ↔ y ∈ head :: (l ++ r) := by
    intro y
    rw [← hpost]
    simp only [List.mem_append, List.mem_cons, List.not_mem_nil, or_false]
    tauto
  refine ⟨?_, hnodup'⟩
  have hsplit : head :: (l ++ r) ++ [head] = pre ++ x :: z :: post := by
    rw [← List.cons_append, hpre]
    simp [← hpost]
  rw [hsplit, links_append]
  constructor
  · apply hleft.congr
    · intro y hy
      rw [List.dropLast_concat] at hy
      rw [hnext y ((hfrontMem y).mp (by simp [hy])), Function.update_of_ne]
      rintro rfl
      exact (List.nodup_append.mp (List.nodup_append.mp hfront).1).2.2 y hy y (by simp) rfl
    · intro y hy
      rw [← hpre, List.tail_cons] at hy
      rw [hprev y (by simp [hy]), Function.update_of_ne]
      rintro rfl
      exact (List.nodup_append.mp hback).2.2 y hy y (by simp) rfl
  constructor
  · rw [hnext x ((hfrontMem x).mp (by simp)), Function.update_self]
  constructor
  · rw [hprev z ((hbackMem z).mp (by simp)), Function.update_self]
  · apply hright.congr
    · intro y hy
      rw [← hpost, List.dropLast_concat] at hy
      rw [hnext y (by simp [hy]), Function.update_of_ne]
      rintro rfl
      exact (List.nodup_append.mp hfront).2.2 y (by simp) y hy rfl
    · intro y hy
      rw [List.tail_cons] at hy
      rw [hprev y ((hbackMem y).mp (by simp [hy])), Function.update_of_ne]
      rintro rfl
      exact (List.nodup_cons.mp (List.nodup_append.mp hback).2.1).1 hy

/-- The four links that are set when `b` becomes the last member. -/
theorem IsRing.insertLast [DecidableEq α] (h : IsRing next prev head members)
    (hb : b ∉ head :: members)
    (hnext : ∀ x ∈ head :: members, next' x = Function.update next (prev head) b x)
    (hprev : ∀ x ∈ head :: members, prev' x = Function.update prev head b x)
    (hnextb : next' b = head) (hprevb : prev' b = prev head) :
    IsRing next' prev' head (members ++ [b]) := by
  obtain ⟨pre, hpre⟩ := h.ends.2
  have hnodup := h.nodup
  constructor
  · have hlinks := h.links
    have hsplit : head :: (members ++ [b]) ++ [head] = pre ++ prev head :: [b, head] := by
      rw [← List.cons_append, hpre]
      simp
    rw [hpre, List.append_assoc, List.singleton_append, links_append] at hlinks
    rw [hsplit, links_append]
    constructor
    · apply hlinks.1.congr
      · intro y hy
        rw [List.dropLast_concat] at hy
        rw [hnext y (by rw [hpre]; simp [hy]), Function.update_of_ne]
        rintro rfl
        rw [hpre] at hnodup
        exact (List.nodup_append.mp hnodup).2.2 _ hy _ (by simp) rfl
      · intro y hy
        rw [← hpre, List.tail_cons] at hy
        rw [hprev y (by simp [hy]), Function.update_of_ne]
        rintro rfl
        exact (List.nodup_cons.mp hnodup).1 hy
    · have hmem : prev head ∈ head :: members := by
        rw [hpre]
        simp
      refine ⟨?_, hprevb, hnextb, ?_, trivial⟩
      · rw [hnext _ hmem, Function.update_self]
      · rw [hprev head (by simp), Function.update_self]
  · have hperm : (head :: (members ++ [b])).Perm (b :: head :: members) := by
      rw [← List.cons_append]
      exact List.perm_append_comm
    exact hperm.nodup_iff.mpr (List.nodup_cons.mpr ⟨hb, hnodup⟩)

theorem isRing_nil (hnext : next head = head) (hprev : prev head = head) :
    IsRing next prev head [] :=
  ⟨⟨hnext, hprev, trivial⟩, List.nodup_singleton head⟩

/-! ### Following the links -/

/-- The nodes met from `x` on, up to `head`. -/
inductive Walk (next : α → α) (head : α) : α → List α → Prop
  | stop : Walk next head head []
  | step {x : α} {rest : List α} : x ≠ head → Walk next head (next x) rest →
      Walk next head x (x :: rest)

theorem walk_of_links {x : α} {l : List α} (h : Links next prev (x :: l ++ [head]))
    (hl : head ∉ l) : Walk next head (next x) l := by
  induction l generalizing x with
  | nil =>
    rw [h.1]
    exact .stop
  | cons y l ih =>
    rw [h.1]
    refine .step ?_ (ih h.2.2 fun hmem => hl (List.mem_cons_of_mem y hmem))
    rintro rfl
    exact hl List.mem_cons_self

/-- The forward links lead from the head through all members and back. -/
theorem IsRing.walk (h : IsRing next prev head members) : Walk next head (next head) members :=
  walk_of_links h.links (List.nodup_cons.mp h.nodup).1

end LinkedRing
