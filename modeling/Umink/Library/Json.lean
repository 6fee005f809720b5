import Mathlib.Data.List.Basic
import Mathlib.Tactic.Common

/-!
# JSON values

Values of the JSON format with the accessors that programs use on them. An
object is the list of its members in their order.
-/

namespace Umink.Library

/-- `dec m e` is the number `m * 10 ^ e`, written with a fraction or an exponent. -/
inductive Json where
  | null
  | bool (b : Bool)
  | int (n : Int)
  | dec (m e : Int)
  | str (s : String)
  | arr (vs : List Json)
  | obj (kvs : List (String × Json))

namespace Json

/-- The member of an object under a key; null when there is none or the value is
no object. -/
def field (j : Json) (k : String) : Json :=
  match j with
  | obj kvs => ((kvs.find? fun kv => kv.1 = k).map Prod.snd).getD null
  | _ => null

/-- The object without the members under a key. -/
def erase (j : Json) (k : String) : Json :=
  match j with
  | obj kvs => obj (kvs.filter fun kv => kv.1 ≠ k)
  | j => j

/-- `v` is a member of the object `j` under the key `k`. -/
def HasMember (j : Json) (k : String) (v : Json) : Prop := ∃ kvs, j = obj kvs ∧ (k, v) ∈ kvs

def isNull : Json → Bool
  | null => true
  | _ => false

def isBool : Json → Bool
  | bool _ => true
  | _ => false

def isInt : Json → Bool
  | int _ => true
  | _ => false

def isStr : Json → Bool
  | str _ => true
  | _ => false

def isObj : Json → Bool
  | obj _ => true
  | _ => false

def isTrue : Json → Bool
  | bool b => b
  | _ => false

/-- The elements of an array. -/
def elems? : Json → Option (List Json)
  | arr vs => some vs
  | _ => none

theorem not_hasMember_erase (j : Json) (k : String) (v : Json) : ¬ (j.erase k).HasMember k v := by
  rintro ⟨kvs, heq, hmem⟩
  cases j with
  | obj kvs' =>
      obtain rfl : kvs'.filter (fun kv => kv.1 ≠ k) = kvs := by simpa [erase] using heq
      simp at hmem
  | _ => cases heq

theorem hasMember_obj_iff {kvs : List (String × Json)} {k : String} {v : Json} :
    (obj kvs).HasMember k v ↔ (k, v) ∈ kvs := by
  constructor
  · rintro ⟨kvs', heq, hmem⟩
    cases heq
    exact hmem
  · exact fun h => ⟨kvs, rfl, h⟩

mutual

/-- How deep arrays and objects nest in a value. -/
def depth : Json → Nat
  | null | bool _ | int _ | dec _ _ | str _ => 0
  | arr vs => depthElems vs + 1
  | obj kvs => depthMembers kvs + 1

def depthElems : List Json → Nat
  | [] => 0
  | v :: vs => max v.depth (depthElems vs)

def depthMembers : List (String × Json) → Nat
  | [] => 0
  | (_, v) :: kvs => max v.depth (depthMembers kvs)

end

end Json

end Umink.Library
