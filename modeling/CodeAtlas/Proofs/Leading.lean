import Mathlib.Data.List.Induction
import Mathlib.Data.List.Nodup
import CodeAtlas.Data.Leading

/-!
# Leading parts, pieces, first occurrences and stable sorting

A leading part of a list has elements of the list only, and so have its first occurrences, which are
all of its elements once. Its pieces make up the list again. Sorting is stable: the first element of
a list goes behind those that must stand before it and no further, so that sorting and filtering
commute (`filter_mergeSort`).
-/

namespace CodeAtlas

open List

theorem mem_of_mem_leading {α : Type} {limit : Int} {x : α} {xs : List α}
    (h : x ∈ leading limit xs) : x ∈ xs := by
  unfold leading at h
  split at h
  · exact mem_of_mem_take h
  · exact mem_of_mem_take h

theorem leading_of_length_le {α : Type} {limit : Int} {xs : List α} (h : xs.length ≤ limit) :
    leading limit xs = xs := by
  have hlimit : 0 ≤ limit := by omega
  rw [leading, if_pos hlimit, take_of_length_le]
  omega

section Pieces

variable {α : Type} {size : Nat}

/-- The induction that follows the pieces of a list. -/
theorem pieces_induction {motive : List α → Prop} (hsize : 0 < size) (nil : motive [])
    (cut : ∀ xs, xs ≠ [] → motive (xs.drop size) → motive xs) (xs : List α) : motive xs := by
  by_cases hne : xs = []
  · exact hne ▸ nil
  · have hpos := length_pos_iff.2 hne
    exact cut xs hne (pieces_induction hsize nil cut (xs.drop size))
termination_by xs.length
decreasing_by
  rw [length_drop]
  omega

variable (hsize : 0 < size)

include hsize

theorem piecesFrom_of_length_le {steps : Nat} {xs : List α}
    (hsteps : xs.length ≤ steps) : piecesFrom size steps xs = pieces size xs := by
  -- both bounds are used up together, so the shorter one may be any that is long enough
  suffices h : ∀ {least : Nat}, xs.length ≤ least →
      piecesFrom size steps xs = piecesFrom size least xs from h (Nat.le_refl _)
  induction steps generalizing xs with
  | zero =>
    intro least _
    rw [length_eq_zero_iff.1 (Nat.le_zero.1 hsteps)]
    cases least <;> rfl
  | succ steps ih =>
    intro least hleast
    cases xs with
    | nil => cases least <;> rfl
    | cons x xs =>
      obtain ⟨least, rfl⟩ :=
        Nat.exists_eq_succ_of_ne_zero (Nat.ne_of_gt (Nat.lt_of_lt_of_le (Nat.succ_pos _) hleast))
      rw [length_cons] at hsteps hleast
      have hrest : ((x :: xs).drop size).length + 1 ≤ (x :: xs).length := by
        rw [length_drop, length_cons]
        omega
      rw [length_cons] at hrest
      unfold piecesFrom
      have hmore : ((x :: xs).drop size).length ≤ least := by omega
      rw [ih (by omega) hmore]

theorem pieces_of_ne_nil {xs : List α} (hne : xs ≠ []) :
    pieces size xs = xs.take size :: pieces size (xs.drop size) := by
  cases xs with
  | nil => exact absurd rfl hne
  | cons x xs =>
    have hrest : ((x :: xs).drop size).length ≤ xs.length := by
      rw [length_drop, length_cons]
      omega
    rw [← piecesFrom_of_length_le hsize hrest]
    rfl

theorem flatten_pieces (xs : List α) : (pieces size xs).flatten = xs := by
  induction xs using pieces_induction hsize with
  | nil => rfl
  | cut xs hne ih => rw [pieces_of_ne_nil hsize hne, flatten_cons, ih, take_append_drop]

theorem length_pieces (xs : List α) :
    (pieces size xs).length = (xs.length + size - 1) / size := by
  induction xs using pieces_induction hsize with
  | nil =>
    rw [length_nil, Nat.zero_add, Nat.div_eq_of_lt (by omega)]
    rfl
  | cut xs hne ih =>
    have hpos := length_pos_iff.2 hne
    rw [pieces_of_ne_nil hsize hne, length_cons, ih, length_drop]
    by_cases hlast : xs.length ≤ size
    · rw [Nat.sub_eq_zero_of_le hlast, Nat.zero_add, Nat.div_eq_of_lt (by omega)]
      exact (Nat.div_eq_of_lt_le (by omega) (by omega)).symm
    · rw [← Nat.add_div_right _ hsize]
      congr 1
      omega

theorem lt_length_pieces_iff {xs : List α} {k : Nat} :
    k < (pieces size xs).length ↔ k * size < xs.length := by
  rw [length_pieces hsize, ← Nat.succ_le_iff, Nat.le_div_iff_mul_le hsize, Nat.succ_mul]
  omega

theorem flatten_take_pieces (xs : List α) (k : Nat) :
    ((pieces size xs).take k).flatten = xs.take (k * size) := by
  induction k generalizing xs with
  | zero => simp
  | succ k ih =>
    by_cases hne : xs = []
    · rw [hne, take_nil]
      rfl
    · rw [pieces_of_ne_nil hsize hne, take_succ_cons, flatten_cons, ih, Nat.succ_mul, Nat.add_comm,
        take_add]

theorem flatMap_zipIdx_pieces (xs : List α) (k : Nat) :
    ((pieces size xs).zipIdx k).flatMap (fun b => b.1.map fun x => (x, b.2)) =
      xs.zipIdx.map fun x => (x.1, k + x.2 / size) := by
  induction xs using pieces_induction hsize generalizing k with
  | nil => rfl
  | cut xs hne ih =>
    have hfirst : ((xs.take size).zipIdx.map fun x => (x.1, k + x.2 / size)) =
        (xs.take size).map fun x => (x, k) := by
      apply ext_getElem
      · simp only [length_map, length_zipIdx]
      · intro i hi _
        rw [length_map, length_zipIdx, length_take] at hi
        simp only [getElem_map, getElem_zipIdx, Nat.zero_add,
          Nat.div_eq_of_lt (show i < size by omega), Nat.add_zero]
    have hrest :
        ((xs.drop size).zipIdx (xs.take size).length).map (fun x => (x.1, k + x.2 / size)) =
        (xs.drop size).zipIdx.map fun x => (x.1, k + 1 + x.2 / size) := by
      apply ext_getElem
      · simp only [length_map, length_zipIdx]
      · intro i hi _
        rw [length_map, length_zipIdx, length_drop] at hi
        have htake : (xs.take size).length = size := by
          rw [length_take]
          omega
        simp only [getElem_map, getElem_zipIdx, Nat.zero_add, htake, Nat.add_div_left i hsize]
        rw [Nat.add_comm (i / size), Nat.add_assoc]
    have hwhole :
        xs.zipIdx = (xs.take size).zipIdx ++ (xs.drop size).zipIdx (xs.take size).length := by
      rw [← Nat.zero_add (xs.take size).length, ← zipIdx_append, take_append_drop]
    rw [pieces_of_ne_nil hsize hne, zipIdx_cons, flatMap_cons, ih, ← hfirst, ← hrest, ← map_append,
      ← hwhole]

end Pieces

/-! ## Stable sorting

An element is put behind those that must precede it; the others stay as they are without it. -/

section Sorting

variable {α : Type} {le : α → α → Bool} (htrans : ∀ a b c, le a b → le b c → le a c)
  (htotal : ∀ a b, le a b || le b a)

include htrans htotal

theorem exists_mergeSort_cons (a : α) (xs : List α) :
    ∃ front back, (a :: xs).mergeSort le = front ++ a :: back ∧
    xs.mergeSort le = front ++ back ∧ (∀ b ∈ front, le a b = false) ∧ ∀ b ∈ back,
      le a b := by
  obtain ⟨front, back, hcons, hrest, hfront⟩ := mergeSort_cons htrans htotal a xs
  refine ⟨front, back, hcons, hrest, fun b hb => by simpa using hfront b hb, ?_⟩
  have hsorted := pairwise_mergeSort htrans htotal (a :: xs)
  rw [hcons] at hsorted
  exact (pairwise_cons.1 (pairwise_append.1 hsorted).2.1).1

theorem mergeSort_cons_eq {a : α} {xs : List α} (front back : List α)
    (hrest : xs.mergeSort le = front ++ back)
    (hfront : ∀ b ∈ front, le a b = false) (hback : ∀ b ∈ back, le a b) :
    (a :: xs).mergeSort le = front ++ a :: back := by
  obtain ⟨front', back', hcons, hrest', hfront', hback'⟩ := exists_mergeSort_cons htrans htotal a xs
  -- both cuts come after as many elements as must stand before the first one
  have hcut {xs ys : List α} (hxs : ∀ b ∈ xs, le a b = false) (hys : ∀ b ∈ ys, le a b) :
      (xs ++ ys).countP (fun b => !le a b) = xs.length := by
    rw [countP_append, countP_eq_length.2 fun b hb => by simp [hxs b hb],
      countP_eq_zero.2 fun b hb => by simp [hys b hb], Nat.add_zero]
  have hsame : front' ++ back' = front ++ back := hrest'.symm.trans hrest
  have hlength : front'.length = front.length := by
    rw [← hcut hfront' hback', hsame, hcut hfront hback]
  obtain ⟨rfl, rfl⟩ := append_inj hsame hlength
  exact hcons

/-- A stable sort commutes with any filter. -/
theorem filter_mergeSort (p : α → Bool) (xs : List α) :
    (xs.mergeSort le).filter p = (xs.filter p).mergeSort le := by
  induction xs with
  | nil => simp
  | cons a xs ih =>
    obtain ⟨front, back, hcons, hrest, hfront, hback⟩ := exists_mergeSort_cons htrans htotal a xs
    have hkept : (xs.filter p).mergeSort le = front.filter p ++ back.filter p := by
      rw [← ih, hrest, filter_append]
    rw [hcons, filter_append]
    by_cases ha : p a
    · rw [filter_cons_of_pos ha, filter_cons_of_pos ha]
      exact (mergeSort_cons_eq htrans htotal _ _ hkept (fun b hb => hfront b (mem_of_mem_filter hb))
        fun b hb => hback b (mem_of_mem_filter hb)).symm
    · rw [filter_cons_of_neg ha, filter_cons_of_neg ha, hkept]

/-- What is cut off comes behind everything that is left. -/
theorem le_of_mem_take_mergeSort {xs : List α} {a b : α} {n : Nat}
    (ha : a ∈ (xs.mergeSort le).take n) (hb : b ∈ xs)
    (hout : b ∉ (xs.mergeSort le).take n) : le a b := by
  have hsorted := pairwise_mergeSort htrans htotal xs
  rw [← take_append_drop n (xs.mergeSort le)] at hsorted
  have hmem : b ∈ xs.mergeSort le := mem_mergeSort.2 hb
  rw [← take_append_drop n (xs.mergeSort le)] at hmem
  have hdrop : b ∈ (xs.mergeSort le).drop n := (mem_append.1 hmem).resolve_left hout
  exact (pairwise_append.1 hsorted).2.2 a ha b hdrop

end Sorting

variable {α : Type} [DecidableEq α]

theorem distinct_append_singleton (xs : List α) (x : α) :
    distinct (xs ++ [x]) = if (distinct xs).contains x then distinct xs else distinct xs ++ [x] :=
  foldl_append

theorem mem_distinct {x : α} {xs : List α} : x ∈ distinct xs ↔ x ∈ xs := by
  induction xs using List.reverseRecOn with
  | nil => rfl
  | append_singleton xs y ih =>
    rw [distinct_append_singleton, mem_append, mem_singleton, ← ih]
    split
    · next hy =>
      refine (or_iff_left_of_imp ?_).symm
      rintro rfl
      exact contains_iff_mem.1 hy
    · rw [mem_append, mem_singleton]

theorem distinct_concat (xs : List α) (x : α) :
    distinct (xs ++ [x]) = if x ∈ xs then distinct xs else distinct xs ++ [x] := by
  rw [distinct_append_singleton]
  simp only [contains_iff_mem, mem_distinct]

theorem distinct_eq_self {xs : List α} (h : xs.Nodup) : distinct xs = xs := by
  induction xs using List.reverseRecOn with
  | nil => rfl
  | append_singleton xs x ih =>
    obtain ⟨hxs, -, hnew⟩ := nodup_append.1 h
    have hx : x ∉ xs := fun hx => hnew x hx x (mem_singleton_self x) rfl
    rw [distinct_concat, if_neg hx, ih hxs]

theorem nodup_distinct (xs : List α) : (distinct xs).Nodup := by
  induction xs using List.reverseRecOn with
  | nil => exact nodup_nil
  | append_singleton xs x ih =>
    rw [distinct_append_singleton]
    split
    · exact ih
    · next hx => exact ih.append (nodup_singleton x) (by simpa using hx)

end CodeAtlas
