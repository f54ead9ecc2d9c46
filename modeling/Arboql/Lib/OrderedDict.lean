import Mathlib.Data.List.Nodup
import Mathlib.Data.List.Basic
import Mathlib.Data.List.Induction

/-!
# Insertion-ordered dictionaries

A dictionary in the sense of Python: finitely many keys, one value each, and the
keys in the order in which they were first inserted. It is a list of items with
distinct keys, the distinctness being a field, so that an item list with a
repeated key cannot be built.

`get?` looks a key up, `keyOf?` goes the other way, and `set` binds a key: in
place when it is there, at the end otherwise. `appendAt` is `d[k].append(x)` on a
dictionary of lists whose default is the empty list. Two dictionaries are the
same mapping, Python's `==`, when `get?` agrees on them.
-/

/-- **An insertion-ordered dictionary.** -/
structure OrderedDict (κ ν : Type) where
  items : List (κ × ν)
  nodup : (items.map Prod.fst).Nodup

namespace OrderedDict

variable {κ ν : Type}

@[ext] theorem ext {d e : OrderedDict κ ν} (h : d.items = e.items) : d = e := by
  cases d
  cases e
  subst h
  rfl

/-- The empty dictionary. -/
def empty : OrderedDict κ ν := ⟨[], by simp⟩

/-- The keys, in insertion order. -/
def keys (d : OrderedDict κ ν) : List κ := d.items.map Prod.fst

/-- `len(d)`. -/
def length (d : OrderedDict κ ν) : ℕ := d.items.length

/-- The dictionary with `f` applied to every value. -/
def mapValues {ν' : Type} (f : ν → ν') (d : OrderedDict κ ν) : OrderedDict κ ν' where
  items := d.items.map fun p => (p.1, f p.2)
  nodup := by
    rw [List.map_map]
    exact d.nodup

@[simp] theorem keys_mapValues {ν' : Type} (f : ν → ν') (d : OrderedDict κ ν) :
    (d.mapValues f).keys = d.keys := List.map_map

variable [DecidableEq κ]

instance [DecidableEq ν] : DecidableEq (OrderedDict κ ν) := fun d e =>
  decidable_of_iff (d.items = e.items) ⟨ext, fun h => h ▸ rfl⟩

/-- `d.get(k)`. -/
def get? (d : OrderedDict κ ν) (k : κ) : Option ν :=
  (d.items.find? fun p => p.1 = k).map Prod.snd

/-- The items after `d[k] = v`. -/
def setItems (items : List (κ × ν)) (k : κ) (v : ν) : List (κ × ν) :=
  if k ∈ items.map Prod.fst then items.map fun p => if p.1 = k then (k, v) else p
  else items ++ [(k, v)]

theorem map_fst_setItems (items : List (κ × ν)) (k : κ) (v : ν) :
    (setItems items k v).map Prod.fst
      = if k ∈ items.map Prod.fst then items.map Prod.fst
        else items.map Prod.fst ++ [k] := by
  unfold setItems
  by_cases hk : k ∈ items.map Prod.fst
  · rw [if_pos hk, if_pos hk, List.map_map]
    refine List.map_congr_left fun p _ => ?_
    by_cases hp : p.1 = k
    · simp [hp]
    · simp [hp]
  · rw [if_neg hk, if_neg hk, List.map_append, List.map_singleton]

/-- `d[k] = v`. -/
def set (d : OrderedDict κ ν) (k : κ) (v : ν) : OrderedDict κ ν where
  items := setItems d.items k v
  nodup := by
    rw [map_fst_setItems]
    split
    · exact d.nodup
    · next hk =>
      rw [List.nodup_append]
      refine ⟨d.nodup, List.nodup_singleton k, fun a ha b hb h => hk ?_⟩
      rw [← List.mem_singleton.mp hb, ← h]
      exact ha

/-- `d[k].append(x)`, the value of an absent key being the empty list. -/
def appendAt (d : OrderedDict κ (List ν)) (k : κ) (x : ν) : OrderedDict κ (List ν) :=
  d.set k ((d.get? k).getD [] ++ [x])

theorem keys_set (d : OrderedDict κ ν) (k : κ) (v : ν) :
    (d.set k v).keys = if k ∈ d.keys then d.keys else d.keys ++ [k] :=
  map_fst_setItems d.items k v

/-- An item is what looking its key up finds. -/
theorem get?_eq_some_iff {d : OrderedDict κ ν} {k : κ} {v : ν} :
    d.get? k = some v ↔ (k, v) ∈ d.items := by
  unfold get?
  constructor
  · intro h
    obtain ⟨p, hp, rfl⟩ := Option.map_eq_some_iff.mp h
    have hk : p.1 = k := by simpa using List.find?_some hp
    rw [← hk]
    exact List.mem_of_find?_eq_some hp
  · intro h
    obtain ⟨items, hnd⟩ := d
    simp only at h ⊢
    induction items with
    | nil => exact absurd h (by simp)
    | cons p items ih =>
      rw [List.map_cons, List.nodup_cons] at hnd
      rcases List.mem_cons.mp h with rfl | hmem
      · simp
      · -- the first item has another key, since keys are distinct
        have hne : p.1 ≠ k := fun heq => hnd.1 (heq ▸ List.mem_map_of_mem hmem)
        rw [List.find?_cons_of_neg (by simpa using hne)]
        exact ih hnd.2 hmem

theorem get?_eq_none_iff {d : OrderedDict κ ν} {k : κ} : d.get? k = none ↔ k ∉ d.keys := by
  unfold get? keys
  rw [Option.map_eq_none_iff, List.find?_eq_none]
  constructor
  · intro h hk
    obtain ⟨p, hp, hpk⟩ := List.mem_map.mp hk
    exact h p hp (by simpa using hpk)
  · intro h p hp hpk
    exact h (List.mem_map.mpr ⟨p, hp, by simpa using hpk⟩)

/-- The items after `d[k] = v` for a new key. -/
theorem items_set_of_notMem {d : OrderedDict κ ν} {k : κ} (hk : k ∉ d.keys) (v : ν) :
    (d.set k v).items = d.items ++ [(k, v)] := if_neg hk

theorem items_set_of_mem {d : OrderedDict κ ν} {k : κ} (hk : k ∈ d.keys) (v : ν) :
    (d.set k v).items = d.items.map fun p => if p.1 = k then (k, v) else p := if_pos hk

@[simp] theorem get?_set_self (d : OrderedDict κ ν) (k : κ) (v : ν) :
    (d.set k v).get? k = some v := by
  rw [get?_eq_some_iff]
  by_cases hk : k ∈ d.keys
  · rw [items_set_of_mem hk]
    obtain ⟨p, hp, hpk⟩ := List.mem_map.mp hk
    exact List.mem_map.mpr ⟨p, hp, if_pos hpk⟩
  · rw [items_set_of_notMem hk]
    simp

/-- Setting a key leaves the others alone. -/
theorem get?_set_of_ne {d : OrderedDict κ ν} {k k' : κ} (h : k' ≠ k) (v : ν) :
    (d.set k v).get? k' = d.get? k' := by
  have hiff : ∀ w, (d.set k v).get? k' = some w ↔ d.get? k' = some w := by
    intro w
    rw [get?_eq_some_iff, get?_eq_some_iff]
    by_cases hk : k ∈ d.keys
    · -- `k` is overwritten in place, which is not the item of `k'`
      rw [items_set_of_mem hk]
      constructor
      · intro hmem
        obtain ⟨p, hp, hpe⟩ := List.mem_map.mp hmem
        by_cases hpk : p.1 = k
        · rw [if_pos hpk] at hpe
          exact absurd (congrArg Prod.fst hpe).symm h
        · rw [if_neg hpk] at hpe
          exact hpe ▸ hp
      · intro hmem
        exact List.mem_map.mpr ⟨(k', w), hmem, if_neg h⟩
    · rw [items_set_of_notMem hk]
      simp [h]
  cases hd : d.get? k' with
  | some w => exact (hiff w).mpr hd
  | none =>
    cases he : (d.set k v).get? k' with
    | none => rfl
    | some w => rw [(hiff w).mp he] at hd; exact hd

theorem get?_set (d : OrderedDict κ ν) (k k' : κ) (v : ν) :
    (d.set k v).get? k' = if k' = k then some v else d.get? k' := by
  by_cases h : k' = k
  · rw [if_pos h, h, get?_set_self]
  · rw [if_neg h, get?_set_of_ne h]

theorem get?_appendAt (d : OrderedDict κ (List ν)) (k k' : κ) (x : ν) :
    ((d.appendAt k x).get? k').getD []
      = (d.get? k').getD [] ++ if k' = k then [x] else [] := by
  unfold appendAt
  rw [get?_set]
  by_cases h : k' = k
  · subst h
    simp
  · simp [h]

theorem keys_appendAt (d : OrderedDict κ (List ν)) (k : κ) (x : ν) :
    (d.appendAt k x).keys = if k ∈ d.keys then d.keys else d.keys ++ [k] :=
  keys_set d k _

theorem get?_mapValues {ν' : Type} (f : ν → ν') (d : OrderedDict κ ν) (k : κ) :
    (d.mapValues f).get? k = (d.get? k).map f := by
  unfold get? mapValues
  rw [List.find?_map, Option.map_map, Option.map_map]
  rfl

/-- Among members with distinct keys, one has a given key. -/
theorem filterMap_key {β γ : Type} {key : β → κ} {f : β → γ} {l : List β}
    (hnodup : (l.map key).Nodup) {b : β} (hb : b ∈ l) :
    (l.filterMap fun c => if key c = key b then some (f c) else none) = [f b] := by
  induction l with
  | nil => exact absurd hb List.not_mem_nil
  | cons c l ih =>
    rw [List.map_cons, List.nodup_cons] at hnodup
    rcases List.mem_cons.mp hb with rfl | hmem
    · -- the first has the key, so no other one does
      have hnone : (l.filterMap fun c => if key c = key b then some (f c) else none) = [] := by
        refine List.filterMap_eq_nil_iff.mpr fun c hc => if_neg fun heq => hnodup.1 ?_
        exact List.mem_map.mpr ⟨c, hc, heq⟩
      simp only [List.filterMap_cons, if_true, hnone]
    · have hne : ¬ key c = key b := fun heq =>
        hnodup.1 (List.mem_map.mpr ⟨b, hmem, heq.symm⟩)
      simp only [List.filterMap_cons, if_neg hne]
      exact ih hnodup.2 hmem

/-! ### The inverse of a dictionary -/

/-- The key with the value `v`, the first one if there are several. -/
def keyOf? [DecidableEq ν] (d : OrderedDict κ ν) (v : ν) : Option κ :=
  (d.items.find? fun p => p.2 = v).map Prod.fst

/-- No two keys have the same value. -/
def Injective (d : OrderedDict κ ν) : Prop :=
  ∀ k k' v, d.get? k = some v → d.get? k' = some v → k = k'

/-- Without repeated values the inverse looks up what the dictionary does. -/
theorem Injective.keyOf?_eq_some_iff [DecidableEq ν] {d : OrderedDict κ ν} (h : d.Injective)
    {k : κ} {v : ν} : d.keyOf? v = some k ↔ d.get? k = some v := by
  unfold keyOf?
  constructor
  · intro hk
    obtain ⟨p, hp, rfl⟩ := Option.map_eq_some_iff.mp hk
    have hv : p.2 = v := by simpa using List.find?_some hp
    rw [get?_eq_some_iff, ← hv]
    exact List.mem_of_find?_eq_some hp
  · intro hget
    have hmem := get?_eq_some_iff.mp hget
    cases hfind : d.items.find? (fun p => p.2 = v) with
    | none =>
      have hnone := List.find?_eq_none.mp hfind _ hmem
      simp at hnone
    | some p =>
      -- the first item with the value is an item of the same key
      have hv : p.2 = v := by simpa using List.find?_some hfind
      have hp : d.get? p.1 = some v := by
        rw [get?_eq_some_iff, ← hv]
        exact List.mem_of_find?_eq_some hfind
      rw [Option.map_some, h _ _ _ hp hget]

/-! ### Keys in order of first use -/

/-- The distinct members of `ks` in the order of their first occurrence, which are
the keys of a dictionary after it has been written at `ks`. -/
def firsts (ks : List κ) : List κ :=
  ks.foldl (fun seen k => if k ∈ seen then seen else seen ++ [k]) []

theorem firsts_concat (ks : List κ) (k : κ) :
    firsts (ks ++ [k]) = if k ∈ firsts ks then firsts ks else firsts ks ++ [k] := by
  unfold firsts
  rw [List.foldl_append]
  rfl

theorem mem_firsts {ks : List κ} {k : κ} : k ∈ firsts ks ↔ k ∈ ks := by
  induction ks using List.reverseRecOn with
  | nil => exact Iff.rfl
  | append_singleton ks l ih =>
    rw [firsts_concat]
    by_cases hl : l ∈ firsts ks
    · -- a repeated key is there already
      rw [if_pos hl, ih, List.mem_append, List.mem_singleton]
      refine ⟨Or.inl, ?_⟩
      rintro (h | rfl)
      · exact h
      · exact ih.mp hl
    · rw [if_neg hl, List.mem_append, List.mem_append, ih]

/-- **In order of first occurrence.** -/
theorem firsts_sorted (ks : List κ) :
    (firsts ks).Pairwise fun k l => ks.idxOf k < ks.idxOf l := by
  induction ks using List.reverseRecOn with
  | nil => exact List.Pairwise.nil
  | append_singleton ks l ih =>
    -- a first occurrence stays where it is
    have hold : (firsts ks).Pairwise fun k k' =>
        (ks ++ [l]).idxOf k < (ks ++ [l]).idxOf k' := by
      refine ih.imp_of_mem fun hk hk' hlt => ?_
      rw [List.idxOf_append_of_mem (mem_firsts.mp hk), List.idxOf_append_of_mem (mem_firsts.mp hk')]
      exact hlt
    rw [firsts_concat]
    by_cases hl : l ∈ firsts ks
    · rw [if_pos hl]
      exact hold
    · rw [if_neg hl, List.pairwise_append]
      refine ⟨hold, List.pairwise_singleton _ _, fun k hk k' hk' => ?_⟩
      obtain rfl := List.mem_singleton.mp hk'
      have hk := mem_firsts.mp hk
      rw [List.idxOf_append_of_mem hk, List.idxOf_append_of_notMem fun h => hl (mem_firsts.mpr h)]
      exact Nat.lt_add_right _ (List.idxOf_lt_length_of_mem hk)

theorem nodup_firsts (ks : List κ) : (firsts ks).Nodup :=
  (firsts_sorted ks).imp fun hlt heq => by
    rw [heq] at hlt
    exact Nat.lt_irrefl _ hlt

/-- Further uses append. -/
theorem firsts_prefix (ks : List κ) (k : κ) : firsts ks <+: firsts (ks ++ [k]) := by
  rw [firsts_concat]
  split
  · exact List.prefix_rfl
  · exact List.prefix_append _ _

/-! ### The same mapping -/

/-- **Equality of dictionaries**, Python's `==`: the same keys with the same
values, in whatever order. -/
def Same (d e : OrderedDict κ ν) : Prop := ∀ k, d.get? k = e.get? k

theorem Same.mem_keys {d e : OrderedDict κ ν} (h : Same d e) (k : κ) :
    k ∈ d.keys ↔ k ∈ e.keys := by
  have hnone : d.get? k = none ↔ e.get? k = none := by rw [h k]
  rw [get?_eq_none_iff, get?_eq_none_iff] at hnone
  exact not_iff_not.mp hnone

/-! ### Dictionaries of lists, entry by entry -/

/-- All the entries of a dictionary of lists, in iteration order: the keys in
insertion order, and under each key its list in order. -/
def pairs (d : OrderedDict κ (List ν)) : List (κ × ν) :=
  d.items.flatMap fun p => p.2.map fun x => (p.1, x)

theorem pairs_eq_flatMap_keys (d : OrderedDict κ (List ν)) :
    d.pairs = d.keys.flatMap fun k => ((d.get? k).getD []).map fun x => (k, x) := by
  unfold pairs keys
  rw [List.flatMap_map]
  refine List.flatMap_congr fun p hp => ?_
  have hget : d.get? p.1 = some p.2 := get?_eq_some_iff.mpr hp
  rw [hget, Option.getD_some]

/-! ### Some of the keys -/

/-- The items whose keys satisfy `P`. -/
def filterKeys (P : κ → Bool) (d : OrderedDict κ ν) : OrderedDict κ ν where
  items := d.items.filter fun p => P p.1
  nodup := d.nodup.sublist (List.filter_sublist.map Prod.fst)

theorem get?_filterKeys (P : κ → Bool) (d : OrderedDict κ ν) (k : κ) :
    (d.filterKeys P).get? k = if P k then d.get? k else none := by
  ext v
  rw [get?_eq_some_iff, filterKeys, List.mem_filter]
  by_cases hk : P k
  · rw [if_pos hk, get?_eq_some_iff]
    exact and_iff_left hk
  · rw [if_neg hk]
    refine iff_of_false (fun h => hk h.2) (fun h => ?_)
    cases h

/-- Looking up after a key is set, as a function. -/
theorem get?_set_eq_update (d : OrderedDict κ ν) (k : κ) (v : ν) :
    (d.set k v).get? = Function.update d.get? k (some v) := by
  funext k'
  rw [get?_set]
  by_cases hk : k' = k
  · rw [hk, if_pos rfl, Function.update_self]
  · rw [if_neg hk, Function.update_of_ne hk]

/-- Looking up after a key is removed, as a function. -/
theorem get?_remove_eq_update (d : OrderedDict κ ν) (k : κ) :
    (d.filterKeys (· ≠ k)).get? = Function.update d.get? k none := by
  funext k'
  rw [get?_filterKeys]
  by_cases hk : k' = k
  · rw [hk, if_neg (by simp), Function.update_self]
  · rw [if_pos (by simpa using hk), Function.update_of_ne hk]

/-- The item that is removed, and the others. -/
theorem items_perm_remove {d : OrderedDict κ ν} {k : κ} {v : ν} (hk : d.get? k = some v) :
    d.items.Perm ((k, v) :: (d.filterKeys (· ≠ k)).items) := by
  have hother : (k, v) ∉ (d.filterKeys (· ≠ k)).items := by
    rw [← get?_eq_some_iff, get?_remove_eq_update, Function.update_self]
    exact fun h => Option.some_ne_none _ h.symm
  have hnodup : ((k, v) :: (d.filterKeys (· ≠ k)).items).Nodup :=
    List.nodup_cons.mpr ⟨hother, (d.filterKeys _).nodup.of_map⟩
  refine (List.perm_ext_iff_of_nodup d.nodup.of_map hnodup).mpr ?_
  rintro ⟨k', v'⟩
  rw [List.mem_cons, ← get?_eq_some_iff, ← get?_eq_some_iff, get?_remove_eq_update]
  by_cases hne : k' = k
  · subst hne
    rw [hk, Function.update_self]
    simp [eq_comm]
  · rw [Function.update_of_ne hne]
    simp [hne]

end OrderedDict
