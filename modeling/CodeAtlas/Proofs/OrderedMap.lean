import Mathlib.Data.List.Induction
import Mathlib.Data.List.Nodup
import CodeAtlas.Data.OrderedMap

/-!
# Looking keys up

What the value of a key is after each operation on an ordered map: one equation on `get?` for every
operation. A map that groups a list is described by which elements each group has
(`exists_mem_groupBy`, `of_mem_groupBy`). Where no key occurs twice, a value is looked up if and
only if it stands in the map (`mem_entries_iff`).
-/

namespace CodeAtlas.OrderedMap

open List

variable {α β : Type} [DecidableEq α] (m : OrderedMap α β) (key k : α)

theorem lookup_insertEntry (value : β) (entries : List (α × β)) :
    (insertEntry key value entries).lookup k = if k = key then some value
      else entries.lookup k := by
  induction entries with
  | nil => grind [insertEntry]
  | cons e rest ih =>
    obtain ⟨k', old⟩ := e
    by_cases hk' : k' = key <;> grind [insertEntry]

theorem lookup_filter_ne (entries : List (α × β)) :
    (entries.filter fun e => !(e.1 == key)).lookup k = if k = key then none
      else entries.lookup k := by
  induction entries with
  | nil => simp
  | cons e rest ih => grind

@[simp] theorem get?_insert (value : β) :
    (m.insert key value).get? k = if k = key then some value else m.get? k :=
  lookup_insertEntry key k value m.entries

@[simp] theorem get?_erase : (m.erase key).get? k = if k = key then none else m.get? k :=
  lookup_filter_ne key k m.entries

@[simp] theorem get?_alter (default : β) (f : β → β) :
    (m.alter key default f).get? k =
      if k = key then some (f ((m.get? key).getD default)) else m.get? k :=
  get?_insert m key k _

theorem get?_foldl_erase (keys : List α) :
    (keys.foldl erase m).get? k = if k ∈ keys then none else m.get? k := by
  induction keys generalizing m with
  | nil => simp
  | cons key rest ih =>
    rw [foldl_cons, ih, get?_erase]
    by_cases hrest : k ∈ rest <;> by_cases hkey : k = key <;> simp [hrest, hkey]

theorem keys_foldl_erase (keys : List α) :
    (keys.foldl erase m).keys = m.keys.filter fun k => decide (k ∉ keys) := by
  induction keys generalizing m with
  | nil => simp
  | cons key rest ih =>
    have herase : (m.erase key).keys = m.keys.filter fun k => !(k == key) := by
      simp only [OrderedMap.keys, erase, filter_map, Function.comp_def]
    rw [foldl_cons, ih, herase, filter_filter]
    refine filter_congr fun k _ => ?_
    by_cases hk : k = key <;> simp [hk]

theorem get?_eq_none_of_not_mem_keys {m : OrderedMap α β} {key : α} (h : key ∉ m.keys) :
    m.get? key = none := by
  refine lookup_eq_none_iff.2 fun e he => ?_
  rw [bne_iff_ne]
  rintro rfl
  exact h (mem_map_of_mem he)

/-! ## Writing lists

Both folds go from left to right, so the inductions take elements off the end. -/

theorem get?_foldl_insert (pairs : List (α × β)) :
    (pairs.foldl (fun m p => m.insert p.1 p.2) m).get? key =
      ((pairs.reverse.find? fun p => p.1 == key).map (·.2)).or (m.get? key) := by
  induction pairs using List.reverseRecOn with
  | nil => rfl
  | append_singleton rest p ih =>
    rw [foldl_append, foldl_cons, foldl_nil, get?_insert, reverse_append, reverse_singleton,
      singleton_append, find?_cons, ih]
    by_cases hkey : p.1 = key
    · simp [hkey]
    · have hbeq : (p.1 == key) = false := beq_false_of_ne hkey
      rw [if_neg (Ne.symm hkey), hbeq]

theorem ofList_concat (pairs : List (α × β)) (p : α × β) :
    ofList (pairs ++ [p]) = (ofList pairs).insert p.1 p.2 :=
  foldl_append

variable {value : β} {pairs : List (α × β)}

theorem get?_ofList_of_mem {key : α} (hmem : (key, value) ∈ pairs)
    (hvalue : ∀ v, (key, v) ∈ pairs → v = value) : (ofList pairs).get? key = some value := by
  induction pairs using List.reverseRecOn with
  | nil => cases hmem
  | append_singleton rest p ih =>
    rw [ofList_concat, get?_insert]
    split
    · next hkey =>
      rw [hvalue p.2 (by simp [hkey])]
    · next hkey =>
      rcases mem_append.1 hmem with hrest | hlast
      · exact ih hrest fun v hv => hvalue v (mem_append_left _ hv)
      · exact absurd (congrArg Prod.fst (mem_singleton.1 hlast)) hkey

variable {γ : Type} (group : γ → α)

theorem groupBy_concat (xs : List γ) (x : γ) :
    groupBy group (xs ++ [x]) = (groupBy group xs).alter (group x) [] (· ++ [x]) :=
  foldl_append

theorem getD_get?_groupBy (xs : List γ) (k : α) :
    ((groupBy group xs).get? k).getD [] = xs.filter fun x => group x = k := by
  induction xs using List.reverseRecOn with
  | nil => rfl
  | append_singleton rest x ih =>
    rw [groupBy_concat, get?_alter, filter_append, ← ih]
    by_cases hk : k = group x
    · simp [hk]
    · simp [hk, Ne.symm hk]

theorem mem_insertEntry {key : α} {entries : List (α × β)} {e : α × β}
    (h : e ∈ insertEntry key value entries) : e = (key, value) ∨ e ∈ entries := by
  induction entries with
  | nil => exact .inl (mem_singleton.1 h)
  | cons first rest ih =>
    rw [insertEntry] at h
    split at h
    · next hkey =>
      rcases mem_cons.1 h with rfl | h
      · exact .inl (by rw [eq_of_beq hkey])
      · exact .inr (mem_cons_of_mem first h)
    · rcases mem_cons.1 h with rfl | h
      · exact .inr mem_cons_self
      · exact (ih h).imp_right (mem_cons_of_mem first)

theorem exists_mem_groupBy {xs : List γ} {x : γ} (hx : x ∈ xs) :
    ∃ members, (group x, members) ∈ (groupBy group xs).entries ∧ x ∈ members := by
  have hfilter := getD_get?_groupBy group xs (group x)
  have hmem : x ∈ xs.filter fun y => group y = group x := by simp [hx]
  cases hfound : (groupBy group xs).get? (group x) with
  | none =>
    rw [hfound] at hfilter
    rw [← hfilter] at hmem
    cases hmem
  | some members =>
    rw [hfound] at hfilter
    obtain ⟨front, back, hentries, -⟩ := lookup_eq_some_iff.1 hfound
    refine ⟨members, ?_, ?_⟩
    · rw [hentries]
      simp
    · rw [show members = _ from hfilter]
      exact hmem

theorem of_mem_groupBy {xs : List γ} {k : α} {members : List γ}
    (hentry : (k, members) ∈ (groupBy group xs).entries)
    {x : γ} (hx : x ∈ members) : x ∈ xs ∧ group x = k := by
  induction xs using List.reverseRecOn generalizing k members with
  | nil => cases hentry
  | append_singleton rest y ih =>
    rw [groupBy_concat] at hentry
    rcases mem_insertEntry hentry with hnew | hold
    · obtain ⟨rfl, rfl⟩ := Prod.mk.inj hnew
      rw [getD_get?_groupBy, mem_append, mem_filter, mem_singleton] at hx
      rcases hx with ⟨hrest, hkey⟩ | rfl
      · exact ⟨mem_append_left _ hrest, by simpa using hkey⟩
      · exact ⟨by simp, rfl⟩
    · exact (ih hold hx).imp_left (mem_append_left _)

section Distinct

variable {m : OrderedMap α β} {key k : α}

theorem keys_insert (value : β) :
    (m.insert key value).keys = if key ∈ m.keys then m.keys else m.keys ++ [key] := by
  obtain ⟨entries⟩ := m
  show (insertEntry key value entries).map Prod.fst =
    if key ∈ entries.map Prod.fst then entries.map Prod.fst else entries.map Prod.fst ++ [key]
  induction entries with
  | nil => rfl
  | cons e rest ih =>
    unfold insertEntry
    by_cases hkey : e.1 = key
    · simp [hkey]
    · simp only [beq_iff_eq, hkey, if_false, map_cons, ih, mem_cons, Ne.symm hkey, false_or]
      split <;> rfl

theorem nodup_keys_insert (h : m.keys.Nodup) (value : β) : (m.insert key value).keys.Nodup := by
  rw [keys_insert]
  split
  · exact h
  · next hnew =>
    rw [← concat_eq_append]
    exact List.Nodup.concat hnew h

theorem nodup_keys_groupBy {γ : Type} (group : γ → α) (xs : List γ) :
    (groupBy group xs).keys.Nodup := by
  induction xs using List.reverseRecOn with
  | nil => exact nodup_nil
  | append_singleton rest x ih =>
    rw [groupBy_concat]
    exact nodup_keys_insert ih _

theorem mem_keys_groupBy {γ : Type} (group : γ → α) (xs : List γ) :
    k ∈ (groupBy group xs).keys ↔ xs.filter (fun x => group x = k) ≠ [] := by
  induction xs using List.reverseRecOn with
  | nil => simp [groupBy, keys, empty]
  | append_singleton rest x ih =>
    rw [groupBy_concat, alter, keys_insert, filter_append]
    by_cases hk : group x = k
    · subst hk
      split <;> simp_all
    · split <;> simp_all [Ne.symm hk]

theorem mem_entries_iff (h : m.keys.Nodup) : (k, value) ∈ m.entries ↔ m.get? k = some value := by
  constructor
  · intro hmem
    obtain ⟨front, back, hentries⟩ := append_of_mem hmem
    refine lookup_eq_some_iff.2 ⟨front, back, hentries, ?_⟩
    -- an entry in front with the same key would make that key occur twice
    intro e he
    have hkeys : (front.map Prod.fst ++ k :: back.map Prod.fst).Nodup := by
      simpa [keys, hentries] using h
    have hfront := (nodup_append.1 hkeys).2.2 e.1 (mem_map_of_mem he) k mem_cons_self
    simpa using Ne.symm hfront
  · intro hget
    obtain ⟨front, back, hentries, -⟩ := lookup_eq_some_iff.1 hget
    simp [hentries]

theorem nodup_keys_ofList (pairs : List (α × β)) : (ofList pairs).keys.Nodup := by
  induction pairs using List.reverseRecOn with
  | nil => exact nodup_nil
  | append_singleton rest p ih =>
    rw [ofList_concat]
    exact nodup_keys_insert ih p.2

theorem mem_entries_ofList_iff {e : α × β} : e ∈ (ofList pairs).entries ↔
    ∃ front back, pairs = front ++ e :: back ∧ ∀ p ∈ back, p.1 ≠ e.1 := by
  have hget : (ofList pairs).get? e.1 = (pairs.reverse.find? fun p => p.1 == e.1).map (·.2) := by
    rw [ofList, get?_foldl_insert, empty, get?, lookup_nil, Option.or_none]
  rw [show e = (e.1, e.2) from rfl, mem_entries_iff (nodup_keys_ofList pairs), hget]
  constructor
  · intro h
    obtain ⟨p, hp, hvalue⟩ := Option.map_eq_some_iff.1 h
    obtain ⟨hkey, front, back, heq, hfront⟩ := find?_eq_some_iff_append.1 hp
    refine ⟨back.reverse, front.reverse, ?_, ?_⟩
    · rw [← reverse_reverse pairs, heq, ← hvalue, ← eq_of_beq hkey]
      simp
    · intro q hq
      simpa using hfront q (mem_reverse.1 hq)
  · rintro ⟨front, back, rfl, hback⟩
    refine Option.map_eq_some_iff.2 ⟨e, find?_eq_some_iff_append.2 ⟨beq_self_eq_true e.1, ?_⟩, rfl⟩
    refine ⟨back.reverse, front.reverse, by simp, fun q hq => ?_⟩
    simpa using hback q (mem_reverse.1 hq)

theorem get?_filter (h : m.keys.Nodup) (keep : β → Bool) :
    (⟨m.entries.filter fun e => keep e.2⟩ : OrderedMap α β).get? k = (m.get? k).filter keep := by
  have hsub : (⟨m.entries.filter fun e => keep e.2⟩ : OrderedMap α β).keys.Nodup :=
    h.sublist (filter_sublist.map Prod.fst)
  apply Option.ext
  intro value
  rw [← mem_entries_iff hsub, mem_filter, mem_entries_iff h, Option.filter_eq_some_iff]

end Distinct

end CodeAtlas.OrderedMap
