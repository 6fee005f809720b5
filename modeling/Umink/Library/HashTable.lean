import Mathlib.Data.List.Nodup
import Mathlib.Tactic.Common

/-!
# Intrusive hash tables

Elements carry their own key and stay in insertion order for iteration. A lookup returns the
element under the key; adding does not look for an element that is already there.

## Implementation notes

A lookup goes through the chain of a bucket, not through the elements in their order. New elements
come first in a chain, and every expansion of the buckets turns the chains around. Of several
elements under one key the newest is found only until the first expansion; of one element it makes
no difference in which order the chains are (`find?_of_perm`).
-/

namespace Umink.Library.HashTable

variable {κ ν : Type*} [DecidableEq κ] (key : ν → κ)

/-- The element under a key; of several ones the newest, as before any expansion of the buckets. -/
def find (t : List ν) (k : κ) : Option ν := t.reverse.find? fun v => key v = k

/-- Add an element at the end of the iteration order. -/
def add (t : List ν) (v : ν) : List ν := t ++ [v]

/-- Change the elements under a key in place; `f` keeps the key. -/
def modify (t : List ν) (k : κ) (f : ν → ν) : List ν :=
  t.map fun v => if key v = k then f v else v

variable {key}

theorem find_add (t : List ν) (v : ν) (k : κ) :
    find key (add t v) k = if key v = k then some v else find key t k := by
  by_cases h : key v = k <;> simp [find, add, h]

theorem key_of_find {t : List ν} {k : κ} {v : ν} (h : find key t k = some v) : key v = k := by
  simpa using List.find?_some h

theorem mem_of_find {t : List ν} {k : κ} {v : ν} (h : find key t k = some v) : v ∈ t :=
  List.mem_reverse.mp (List.mem_of_find?_eq_some h)

theorem find_eq_none_iff {t : List ν} {k : κ} : find key t k = none ↔ k ∉ t.map key := by
  simp [find]

/-- A change of elements that keeps their keys is seen by the lookup. -/
theorem find_map (t : List ν) {f : ν → ν} (hf : ∀ v, key (f v) = key v) (k : κ) :
    find key (t.map f) k = (find key t k).map f := by
  simp only [find, ← List.map_reverse, List.find?_map, Function.comp_def, hf]

/-- A change of the elements under a key that leaves them there. -/
theorem find_modify (t : List ν) (k : κ) {f : ν → ν} (hf : ∀ v, key v = k → key (f v) = k)
    (k' : κ) :
    find key (modify key t k f) k' = if k' = k then (find key t k).map f else find key t k' := by
  have hkey : ∀ v, key (if key v = k then f v else v) = key v := fun v => by
    by_cases h : key v = k
    · rw [if_pos h, hf v h, h]
    · rw [if_neg h]
  rw [modify, find_map t hkey]
  by_cases hk : k' = k
  · rw [if_pos hk, hk]
    apply Option.map_congr
    intro v hv
    rw [if_pos (key_of_find hv)]
  · rw [if_neg hk]
    refine (Option.map_congr fun v hv => ?_).trans (congrFun Option.map_id _)
    rw [if_neg (key_of_find hv ▸ hk), id]

/-- The lookup under a key that one element has. -/
theorem find_of_filter {t : List ν} {k : κ} {v : ν} (h : t.filter (fun u => key u = k) = [v]) :
    find key t k = some v := by
  rw [find, ← List.head?_filter, List.filter_reverse, h]
  rfl

/-- A key that at most one element has is looked up in chains of any order. -/
theorem find?_of_perm {t chain : List ν} {k : κ} (hperm : chain.Perm t)
    (h : (t.map key).count k ≤ 1) : chain.find? (fun v => key v = k) = find key t k := by
  have hfilter : (chain.filter fun v => key v = k).Perm (t.reverse.filter fun v => key v = k) :=
    (hperm.trans t.reverse_perm.symm).filter _
  have hshort : (t.reverse.filter fun v => key v = k).length ≤ 1 := by
    rw [List.filter_reverse, List.length_reverse, ← List.countP_eq_length_filter]
    simpa only [List.count, List.countP_map, Function.comp_def, beq_eq_decide] using h
  have heq : chain.filter (fun v => key v = k) = t.reverse.filter fun v => key v = k := by
    generalize t.reverse.filter (fun v => key v = k) = one at hfilter hshort
    obtain _ | ⟨v, _ | ⟨w, rest⟩⟩ := one
    · exact hfilter.eq_nil
    · exact hfilter.eq_singleton
    · simp only [List.length_cons] at hshort
      omega
  rw [find, ← List.head?_filter, heq, List.head?_filter]

/-- The lookup when no two elements have one key. -/
theorem find_eq_some_iff {t : List ν} (hnodup : (t.map key).Nodup) {k : κ} {v : ν} :
    find key t k = some v ↔ v ∈ t ∧ key v = k := by
  constructor
  · exact fun h => ⟨mem_of_find h, key_of_find h⟩
  · rintro ⟨hv, rfl⟩
    cases hfind : find key t (key v) with
    | none => exact absurd (List.mem_map_of_mem hv) (find_eq_none_iff.mp hfind)
    | some u =>
        have heq : u = v :=
          List.inj_on_of_nodup_map hnodup (mem_of_find hfind) hv (key_of_find hfind)
        rw [heq]

/-- The lookup after all elements under a key were removed. -/
theorem find_remove (t : List ν) (k k' : κ) :
    find key (t.filter fun v => key v ≠ k) k' = if k' = k then none else find key t k' := by
  rw [find, ← List.filter_reverse, List.find?_filter, find]
  by_cases hk : k' = k
  · rw [if_pos hk, List.find?_eq_none]
    intro v _ hv
    simp [hk] at hv
  · rw [if_neg hk]
    congr 1
    funext v
    by_cases hv : key v = k' <;> simp [hv, hk]

section AddNew

variable (key)

/-- Add an element unless there is one under its key. -/
def addNew (t : List ν) (v : ν) : List ν :=
  match find key t (key v) with
  | none => add t v
  | some _ => t

/-- Add the elements one after another. -/
def addAll (t vs : List ν) : List ν := vs.foldl (addNew key) t

/-- What a table gains: under each of the new keys the first element that has it, in the order of
these. -/
structure Gained (t vs new : List ν) : Prop where
  nodup : (new.map key).Nodup
  mem_keys_iff : ∀ k, k ∈ new.map key ↔ k ∉ t.map key ∧ k ∈ vs.map key
  first : ∀ v ∈ new, vs.find? (fun u => key u = key v) = some v
  order : new.Pairwise fun v w =>
    vs.findIdx (fun u => key u = key v) < vs.findIdx fun u => key u = key w

variable {key}

theorem addNew_of_mem {t : List ν} {v : ν} (h : key v ∈ t.map key) : addNew key t v = t := by
  cases hfind : find key t (key v) with
  | none => exact absurd h (find_eq_none_iff.mp hfind)
  | some u => rw [addNew, hfind]

theorem addNew_of_not_mem {t : List ν} {v : ν} (h : key v ∉ t.map key) :
    addNew key t v = t ++ [v] := by
  rw [addNew, find_eq_none_iff.mpr h]
  rfl

theorem addAll_cons (t vs : List ν) (v : ν) :
    addAll key t (v :: vs) = addAll key (addNew key t v) vs := rfl

theorem addAll_append (t us vs : List ν) :
    addAll key t (us ++ vs) = addAll key (addAll key t us) vs := List.foldl_append

theorem find?_cons_of_key_ne {v u : ν} (vs : List ν) (h : key v ≠ key u) :
    (v :: vs).find? (fun w => key w = key u) = vs.find? fun w => key w = key u :=
  List.find?_cons_of_neg (by simpa using h)

theorem findIdx_cons_of_key_ne {v u : ν} (vs : List ν) (h : key v ≠ key u) :
    (v :: vs).findIdx (fun w => key w = key u) = (vs.findIdx fun w => key w = key u) + 1 := by
  rw [List.findIdx_cons, decide_eq_false h, cond_false]

/-- An element under a key of the table is not gained. -/
theorem Gained.skip {t vs new : List ν} {v : ν} (h : Gained key t vs new)
    (hmem : key v ∈ t.map key) : Gained key t (v :: vs) new where
  nodup := h.nodup
  mem_keys_iff k := by
    rw [h.mem_keys_iff k, List.map_cons, List.mem_cons]
    constructor
    · exact fun hk => ⟨hk.1, .inr hk.2⟩
    · rintro ⟨hold, rfl | hk⟩
      · exact absurd hmem hold
      · exact ⟨hold, hk⟩
  first u hu := by
    have hold := ((h.mem_keys_iff (key u)).mp (List.mem_map_of_mem hu)).1
    have hne : key v ≠ key u := fun heq => hold (heq ▸ hmem)
    rw [find?_cons_of_key_ne vs hne, h.first u hu]
  order := by
    have hne : ∀ u ∈ new, key v ≠ key u := fun u hu heq =>
      ((h.mem_keys_iff (key u)).mp (List.mem_map_of_mem hu)).1 (heq ▸ hmem)
    refine h.order.imp_of_mem fun hu hw hlt => ?_
    rw [findIdx_cons_of_key_ne vs (hne _ hu), findIdx_cons_of_key_ne vs (hne _ hw)]
    exact Nat.succ_lt_succ hlt

/-- An element under a new key is gained, and no later one under its key. -/
theorem Gained.take {t vs new : List ν} {v : ν} (h : Gained key (t ++ [v]) vs new)
    (hmem : key v ∉ t.map key) : Gained key t (v :: vs) (v :: new) where
  nodup := by
    refine List.nodup_cons.mpr ⟨fun hv => ?_, h.nodup⟩
    exact ((h.mem_keys_iff (key v)).mp hv).1 (by simp)
  mem_keys_iff k := by
    rw [List.map_cons, List.mem_cons, h.mem_keys_iff k]
    by_cases hk : k = key v
    · simp [hk, hmem]
    · simp [hk]
  first u hu := by
    obtain rfl | hu := List.mem_cons.mp hu
    · exact List.find?_cons_of_pos (decide_eq_true rfl)
    · have hold := ((h.mem_keys_iff (key u)).mp (List.mem_map_of_mem hu)).1
      have hne : key v ≠ key u := fun heq => hold (by simp [heq])
      rw [find?_cons_of_key_ne vs hne, h.first u hu]
  order := by
    have hne : ∀ u ∈ new, key v ≠ key u := fun u hu heq =>
      ((h.mem_keys_iff (key u)).mp (List.mem_map_of_mem hu)).1 (by simp [heq])
    refine List.pairwise_cons.mpr ⟨fun u hu => ?_, h.order.imp_of_mem fun hu hw hlt => ?_⟩
    · rw [findIdx_cons_of_key_ne vs (hne u hu), List.findIdx_cons, decide_eq_true rfl, cond_true]
      exact Nat.succ_pos _
    · rw [findIdx_cons_of_key_ne vs (hne _ hu), findIdx_cons_of_key_ne vs (hne _ hw)]
      exact Nat.succ_lt_succ hlt

/-- What is gained is what is first under a new key. -/
theorem Gained.mem_iff {t vs new : List ν} (h : Gained key t vs new) (v : ν) :
    v ∈ new ↔ key v ∉ t.map key ∧ vs.find? (fun u => key u = key v) = some v := by
  constructor
  · intro hv
    exact ⟨((h.mem_keys_iff (key v)).mp (List.mem_map_of_mem hv)).1, h.first v hv⟩
  · rintro ⟨hnew, hfirst⟩
    have hkey := (h.mem_keys_iff (key v)).mpr
      ⟨hnew, List.mem_map_of_mem (List.mem_of_find?_eq_some hfirst)⟩
    obtain ⟨u, hu, hsame⟩ := List.mem_map.mp hkey
    have hfirst' := h.first u hu
    rw [hsame, hfirst] at hfirst'
    exact Option.some.inj hfirst' ▸ hu

/-- A table only grows by the first element under each new key. -/
theorem addAll_eq_append (t vs : List ν) :
    ∃ new, addAll key t vs = t ++ new ∧ Gained key t vs new := by
  induction vs generalizing t with
  | nil => exact ⟨[], (List.append_nil t).symm, List.nodup_nil, by simp, by simp, .nil⟩
  | cons v vs ih =>
      rw [addAll_cons]
      by_cases hmem : key v ∈ t.map key
      · obtain ⟨new, heq, hgained⟩ := ih t
        rw [addNew_of_mem hmem]
        exact ⟨new, heq, hgained.skip hmem⟩
      · obtain ⟨new, heq, hgained⟩ := ih (t ++ [v])
        rw [addNew_of_not_mem hmem]
        exact ⟨v :: new, heq.trans (List.append_cons t v new).symm, hgained.take hmem⟩

/-- Adding elements commutes with a map that keeps the keys. -/
theorem addNew_map {μ : Type*} {key' : μ → κ} {f : ν → μ} (hf : ∀ v, key' (f v) = key v)
    (t : List ν) (v : ν) : addNew key' (t.map f) (f v) = (addNew key t v).map f := by
  have hkeys : (t.map f).map key' = t.map key := by
    rw [List.map_map]
    exact List.map_congr_left fun u _ => hf u
  by_cases hmem : key v ∈ t.map key
  · rw [addNew_of_mem hmem, addNew_of_mem]
    rwa [hf, hkeys]
  · rw [addNew_of_not_mem hmem, addNew_of_not_mem, List.map_append]
    · rfl
    · rwa [hf, hkeys]

end AddNew

end Umink.Library.HashTable
