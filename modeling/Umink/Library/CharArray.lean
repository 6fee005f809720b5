import Umink.Library.CString

/-!
# Arrays of characters

The string functions of C on an array of `n` bytes. A store outside of the array
and a string that does not end in it have no defined result; a run ends with the
first of them.
-/

namespace Umink.Library

/-- Why a run has no defined result. -/
inductive Fault where
  /-- A store at the index `i` of an array of `n` bytes. -/
  | store (i n : Nat)
  /-- No NUL in an array of `n` bytes. -/
  | unterminated (n : Nat)
  deriving DecidableEq

theorem ok_bind {ε α β : Type} (a : α) (f : α → Except ε β) : (Except.ok a >>= f) = f a := rfl

/-- `char a[n]`. -/
abbrev CharArray (n : Nat) : Type := Vector UInt8 n

namespace CharArray

variable {n : Nat}

/-- An array that is not initialized, in a memory with arbitrary contents. -/
def uninit (n : Nat) (mem : Nat → UInt8) : CharArray n := Vector.ofFn fun i => mem i

/-- The string at the start of an array. -/
def str (a : CharArray n) : Except Fault CStr :=
  if 0 ∈ a.toList then .ok (CStr.ofBytes a.toList) else .error (.unterminated n)

/-- `a[i] = b`. -/
def store (a : CharArray n) (i : Nat) (b : UInt8) : Except Fault (CharArray n) :=
  if h : i < n then .ok (a.set i b) else .error (.store i n)

/-- `memcpy(a + i, bs, …)`. -/
def memcpy : CharArray n → Nat → List UInt8 → Except Fault (CharArray n)
  | a, _, [] => .ok a
  | a, i, b :: bs => do memcpy (← store a i b) (i + 1) bs

/-- `strcpy(a, s)`. -/
def strcpy (a : CharArray n) (s : CStr) : Except Fault (CharArray n) := memcpy a 0 (s.bytes ++ [0])

/-- `strcat(a, s)`. -/
def strcat (a : CharArray n) (s : CStr) : Except Fault (CharArray n) := do
  memcpy a (← str a).length (s.bytes ++ [0])

/-- `strdup`. -/
def strdup (s : CStr) : CharArray (s.length + 1) :=
  ⟨(s.bytes ++ [0]).toArray, by rw [List.size_toArray, List.length_append, List.length_singleton,
    CStr.length]⟩

/-- `realloc` to `m` bytes, in a memory with arbitrary contents. -/
def realloc (a : CharArray n) (m : Nat) (mem : Nat → UInt8) : CharArray m :=
  Vector.ofFn fun i => if h : i < n then a[i] else mem i

section Strings

variable {a : CharArray n} {s t : CStr}

theorem toList_strdup (s : CStr) : (strdup s).toList = s.bytes ++ [0] := rfl

/-- The bytes that are in both arrays stay. -/
theorem take_realloc {k m : Nat} (hn : k ≤ n) (hm : k ≤ m) (mem : Nat → UInt8) :
    (realloc a m mem).toList.take k = a.toList.take k := by
  apply List.ext_getElem
  · rw [List.length_take, List.length_take, Vector.length_toList, Vector.length_toList]
    omega
  · intro i hi hi'
    rw [List.length_take] at hi
    have hlt : i < n := by omega
    rw [List.getElem_take, List.getElem_take, Vector.getElem_toList, Vector.getElem_toList]
    exact (Vector.getElem_ofFn ..).trans (dif_pos hlt)

theorem str_of_toList {rest : List UInt8} (h : a.toList = s.bytes ++ 0 :: rest) :
    str a = .ok s := by
  have hmem : 0 ∈ a.toList := h ▸ List.mem_append_right _ List.mem_cons_self
  rw [str, if_pos hmem, h, CStr.ofBytes_append_nul]

theorem str_eq_ok_iff : str a = .ok s ↔ ∃ rest, a.toList = s.bytes ++ 0 :: rest := by
  constructor
  · intro h
    by_cases hmem : 0 ∈ a.toList
    · obtain ⟨bytes, rest, hsplit, hnul⟩ := List.eq_append_cons_of_mem hmem
      have hstr : str a = .ok ⟨bytes, hnul⟩ := str_of_toList hsplit
      obtain rfl : ⟨bytes, hnul⟩ = s := Except.ok.inj (hstr.symm.trans h)
      exact ⟨rest, hsplit⟩
    · rw [str, if_neg hmem] at h
      cases h
  · rintro ⟨rest, hrest⟩
    exact str_of_toList hrest

theorem length_lt_of_str (h : str a = .ok s) : s.length < n := by
  obtain ⟨rest, hrest⟩ := str_eq_ok_iff.mp h
  have hlen := congrArg List.length hrest
  rw [Vector.length_toList, List.length_append, List.length_cons] at hlen
  rw [CStr.length]
  omega

end Strings

section Copies

variable {a : CharArray n} {i : Nat} {bs : List UInt8}

theorem store_of_lt (h : i < n) (b : UInt8) : store a i b = .ok (a.set i b) := dif_pos h

theorem memcpy_singleton (b : UInt8) : memcpy a i [b] = store a i b := bind_pure _

theorem memcpy_append (bs cs : List UInt8) :
    memcpy a i (bs ++ cs) = memcpy a i bs >>= fun a => memcpy a (i + bs.length) cs := by
  induction bs generalizing a i with
  | nil => rfl
  | cons b bs ih =>
      rw [List.cons_append, memcpy, memcpy, bind_assoc]
      apply bind_congr
      intro a
      rw [ih, List.length_cons, Nat.add_right_comm, Nat.add_assoc]

/-- The bytes of a copy that fits replace those that were there. -/
theorem memcpy_of_le (h : i + bs.length ≤ n) :
    ∃ b, memcpy a i bs = .ok b ∧
      b.toList = a.toList.take i ++ bs ++ a.toList.drop (i + bs.length) := by
  induction bs generalizing a i with
  | nil => exact ⟨a, rfl, by simp⟩
  | cons c bs ih =>
      rw [List.length_cons] at h
      have hi : i < n := by omega
      obtain ⟨b, hcopy, hbytes⟩ := @ih (a.set i c) (i + 1) (by omega)
      refine ⟨b, ?_, ?_⟩
      · rw [memcpy, store_of_lt hi]
        exact hcopy
      · have htake : (a.toList.set i c).take (i + 1) = a.toList.take i ++ [c] := by
          rw [List.take_succ_eq_append_getElem (by simpa using hi), List.take_set_of_le le_rfl,
            List.getElem_set_self]
        rw [hbytes, Vector.toList_set, List.drop_set_of_lt (by omega), htake, List.append_assoc,
          List.append_assoc, List.append_assoc, List.length_cons, Nat.add_right_comm]
        rfl

/-- A copy of a whole array. -/
theorem memcpy_toList (a b : CharArray n) : memcpy a 0 b.toList = .ok b := by
  have hlen : b.toList.length = n := Vector.length_toList
  obtain ⟨b', hcopy, hbytes⟩ := @memcpy_of_le n a 0 b.toList (by omega)
  have hdrop : a.toList.drop (0 + b.toList.length) = [] := by
    rw [List.drop_eq_nil_iff, Vector.length_toList]
    omega
  rw [hdrop, List.take_zero, List.nil_append, List.append_nil] at hbytes
  rw [hcopy, Vector.toList_inj.mp hbytes]

/-- A copy that does not fit ends at the end of the array. -/
theorem memcpy_of_lt (hi : i ≤ n) (h : n < i + bs.length) :
    memcpy a i bs = .error (.store n n) := by
  induction bs generalizing a i with
  | nil => exact absurd h (Nat.not_lt_of_le hi)
  | cons c bs ih =>
      rw [List.length_cons] at h
      rw [memcpy]
      obtain hlt | rfl := Nat.lt_or_eq_of_le hi
      · rw [store_of_lt hlt]
        exact ih hlt (by omega)
      · rw [store, dif_neg (Nat.lt_irrefl i)]
        rfl

end Copies

section Functions

variable {a : CharArray n} {s t : CStr}

/-- A string and its NUL, copied behind a string, make one string with it. -/
theorem memcpy_str (ht : a.toList.take t.length = t.bytes) (h : t.length + s.length < n) :
    ∃ b, memcpy a t.length (s.bytes ++ [0]) = .ok b ∧ str b = .ok (t ++ s) := by
  have hlen : (s.bytes ++ [0]).length = s.length + 1 := by
    rw [List.length_append, List.length_singleton, CStr.length]
  obtain ⟨b, hcopy, hbytes⟩ := @memcpy_of_le n a t.length (s.bytes ++ [0]) (by omega)
  refine ⟨b, hcopy, str_eq_ok_iff.mpr ⟨a.toList.drop (t.length + (s.length + 1)), ?_⟩⟩
  rw [hbytes, ht, hlen, CStr.bytes_append, List.append_assoc, List.append_assoc,
    List.append_assoc]
  rfl

theorem strcpy_of_lt (h : s.length < n) : ∃ b, strcpy a s = .ok b ∧ str b = .ok s := by
  have hroom : CStr.empty.length + s.length < n := (Nat.zero_add s.length).symm ▸ h
  have htake : a.toList.take CStr.empty.length = CStr.empty.bytes := List.take_zero
  exact memcpy_str htake hroom

/-- A string that fills the array has no place for its NUL. -/
theorem strcpy_of_le (h : n ≤ s.length) : strcpy a s = .error (.store n n) := by
  apply memcpy_of_lt (Nat.zero_le n)
  rw [List.length_append, List.length_singleton]
  rw [CStr.length] at h
  omega

theorem strcat_of_lt (ht : str a = .ok t) (h : t.length + s.length < n) :
    ∃ b, strcat a s = .ok b ∧ str b = .ok (t ++ s) := by
  obtain ⟨rest, hrest⟩ := str_eq_ok_iff.mp ht
  have htake : a.toList.take t.length = t.bytes := by
    rw [hrest, CStr.length, List.take_left]
  obtain ⟨b, hcopy, hstr⟩ := memcpy_str htake h
  refine ⟨b, ?_, hstr⟩
  rw [strcat, ht]
  exact hcopy

/-- A string whose NUL is written again. -/
theorem store_length (ht : str a = .ok t) : ∃ b, store a t.length 0 = .ok b ∧ str b = .ok t := by
  obtain ⟨rest, hrest⟩ := str_eq_ok_iff.mp ht
  have htake : a.toList.take t.length = t.bytes := by
    rw [hrest, CStr.length, List.take_left]
  obtain ⟨b, hcopy, hstr⟩ := @memcpy_str n a CStr.empty t htake (length_lt_of_str ht)
  exact ⟨b, (memcpy_singleton 0).symm.trans hcopy, by rw [hstr, CStr.append_empty]⟩

/-- A string copied to the end of the string in an array, which `strlen` has told. -/
theorem memcpy_length (ht : str a = .ok t) (h : t.length + s.length < n) :
    ∃ b, memcpy a t.length (s.bytes ++ [0]) = .ok b ∧ str b = .ok (t ++ s) := by
  obtain ⟨b, hcat, hstr⟩ := strcat_of_lt ht h
  refine ⟨b, ?_, hstr⟩
  rw [← hcat, strcat, ht]
  rfl

/-- `a[0] = 0` makes the string of an array empty. -/
theorem store_zero (h : 0 < n) : ∃ b, store a 0 0 = .ok b ∧ str b = .ok CStr.empty := by
  have hcopy : strcpy a CStr.empty = store a 0 0 := memcpy_singleton 0
  rw [← hcopy]
  exact strcpy_of_lt h

/-- `memcpy` of a string without its NUL, and a NUL at its end. -/
theorem memcpy_store (s : CStr) :
    (do store (← memcpy a 0 s.bytes) s.length 0) = strcpy a s := by
  rw [strcpy, memcpy_append]
  apply bind_congr
  intro b
  rw [memcpy_singleton, Nat.zero_add, CStr.length]

end Functions

end CharArray

end Umink.Library
