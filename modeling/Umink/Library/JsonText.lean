import Umink.Library.Json

/-!
# JSON texts

A printer without white space and a reader that takes white space between the
tokens and refuses values nested deeper than a given limit. The reader gives
back what was printed when the limit allows its depth.

## Implementation notes

The fuel of the reader bounds the number of characters it may read, so that the
length of a text is always enough of it.
-/

namespace Umink.Library.Json

section Printer

def printInt (n : Int) : List Char :=
  if n < 0 then '-' :: Nat.toDigits 10 n.natAbs else Nat.toDigits 10 n.natAbs

def hexDigits (n : Nat) : List Char :=
  [(n / 4096 % 16).digitChar, (n / 256 % 16).digitChar, (n / 16 % 16).digitChar,
    (n % 16).digitChar]

def printChar (c : Char) : List Char :=
  if c = '"' then ['\\', '"']
  else if c = '\\' then ['\\', '\\']
  else if c.toNat < 32 then '\\' :: 'u' :: hexDigits c.toNat
  else [c]

def printString (s : String) : List Char := '"' :: s.toList.flatMap printChar ++ ['"']

mutual

def print : Json → List Char
  | null => ['n', 'u', 'l', 'l']
  | bool true => ['t', 'r', 'u', 'e']
  | bool false => ['f', 'a', 'l', 's', 'e']
  | int n => printInt n
  | dec m e => printInt m ++ 'e' :: printInt e
  | str s => printString s
  | arr [] => ['[', ']']
  | arr (v :: vs) => '[' :: v.print ++ printElems vs
  | obj [] => ['{', '}']
  | obj ((k, v) :: kvs) => '{' :: printString k ++ ':' :: v.print ++ printMembers kvs

/-- The elements of an array after the first, with its end. -/
def printElems : List Json → List Char
  | [] => [']']
  | v :: vs => ',' :: v.print ++ printElems vs

/-- The members of an object after the first, with its end. -/
def printMembers : List (String × Json) → List Char
  | [] => ['}']
  | (k, v) :: kvs => ',' :: printString k ++ ':' :: v.print ++ printMembers kvs

end

end Printer

section Reader

def isWs (c : Char) : Bool := c = ' ' ∨ c = '\t' ∨ c = '\n' ∨ c = '\r'

def skipWs (cs : List Char) : List Char := cs.dropWhile isWs

/-- A nonempty sequence of digits. -/
def readDigits (cs : List Char) : Option (List Char × List Char) :=
  match cs.takeWhile Char.isDigit with
  | [] => none
  | d :: ds => some (d :: ds, cs.dropWhile Char.isDigit)

def signed (neg : Bool) (n : Nat) : Int := if neg then -n else n

def readSign (cs : List Char) : Bool × List Char :=
  match cs with
  | [] => (false, [])
  | c :: r => if c = '-' then (true, r) else if c = '+' then (false, r) else (false, c :: r)

def readInt (cs : List Char) : Option (Int × List Char) :=
  (readDigits (readSign cs).2).map fun (ds, r) =>
    (signed (readSign cs).1 (Nat.ofDigitChars 10 ds 0), r)

/-- The digits of the fraction, if there is one. -/
def readFrac (cs : List Char) : Option (List Char × List Char) :=
  match cs with
  | [] => some ([], [])
  | c :: r => if c = '.' then readDigits r else some ([], c :: r)

/-- The exponent, if there is one. -/
def readExp (cs : List Char) : Option (Option Int × List Char) :=
  match cs with
  | [] => some (none, [])
  | c :: r =>
      if c = 'e' ∨ c = 'E' then (readInt r).map fun (e, r) => (some e, r)
      else some (none, c :: r)

/-- A number after its sign. -/
def readNumber (neg : Bool) (cs : List Char) : Option (Json × List Char) := do
  let (ds, r) ← readDigits cs
  let (fs, r) ← readFrac r
  let (e, r) ← readExp r
  let m := signed neg (Nat.ofDigitChars 10 (ds ++ fs) 0)
  match e with
  | some e => some (dec m (e - fs.length), r)
  | none => if fs.isEmpty then some (int m, r) else some (dec m (-fs.length), r)

def hexVal (c : Char) : Option Nat :=
  if '0' ≤ c ∧ c ≤ '9' then some (c.toNat - '0'.toNat)
  else if 'a' ≤ c ∧ c ≤ 'f' then some (c.toNat - 'a'.toNat + 10)
  else if 'A' ≤ c ∧ c ≤ 'F' then some (c.toNat - 'A'.toNat + 10)
  else none

def hexVal4 (a b c d : Char) : Option Nat := do
  some (4096 * (← hexVal a) + 256 * (← hexVal b) + 16 * (← hexVal c) + (← hexVal d))

def escapes : List (Char × Char) :=
  [('"', '"'), ('\\', '\\'), ('/', '/'), ('b', '\x08'), ('f', '\x0c'), ('n', '\n'), ('r', '\r'),
    ('t', '\t')]

/-- The character of a code point, and the replacement character for a surrogate. -/
def ofCodePoint (n : Nat) : Char := if n.isValidChar then Char.ofNat n else '\ufffd'

/-- The characters of a string up to its end. -/
def readChars : List Char → Option (List Char × List Char)
  | [] => none
  | '"' :: r => some ([], r)
  | '\\' :: 'u' :: h₁ :: h₂ :: h₃ :: h₄ :: r =>
      (hexVal4 h₁ h₂ h₃ h₄).bind fun n => (readChars r).map fun p => (ofCodePoint n :: p.1, p.2)
  | '\\' :: e :: r =>
      (escapes.find? fun p => p.1 = e).bind fun b => (readChars r).map fun p => (b.2 :: p.1, p.2)
  | c :: r =>
      if c.toNat < 32 ∨ c = '\\' then none
      else (readChars r).map fun p => (c :: p.1, p.2)

def readString (cs : List Char) : Option (String × List Char) :=
  match cs with
  | '"' :: r => (readChars r).map fun (cs, r) => (String.ofList cs, r)
  | _ => none

/-- A key with the colon after it. -/
def readKey (cs : List Char) : Option (String × List Char) := do
  let (k, r) ← readString (skipWs cs)
  match skipWs r with
  | ':' :: r => some (k, r)
  | _ => none

mutual

/-- A value that nests at most `limit` deep. -/
def readValue : Nat → Nat → List Char → Option (Json × List Char)
  | 0, _, _ => none
  | fuel + 1, limit, cs =>
      match skipWs cs with
      | [] => none
      | c :: r =>
          if c.isDigit then readNumber false (c :: r)
          else
            match c, r with
            | 'n', 'u' :: 'l' :: 'l' :: r => some (null, r)
            | 't', 'r' :: 'u' :: 'e' :: r => some (bool true, r)
            | 'f', 'a' :: 'l' :: 's' :: 'e' :: r => some (bool false, r)
            | '"', r => (readChars r).map fun (cs, r) => (str (String.ofList cs), r)
            | '-', r => readNumber true r
            | '[', r =>
                match limit with
                | 0 => none
                | limit + 1 =>
                    match skipWs r with
                    | ']' :: r => some (arr [], r)
                    | r =>
                        (readValue fuel limit r).bind fun p =>
                          (readElems fuel limit p.2).map fun q => (arr (p.1 :: q.1), q.2)
            | '{', r =>
                match limit with
                | 0 => none
                | limit + 1 =>
                    match skipWs r with
                    | '}' :: r => some (obj [], r)
                    | r =>
                        (readKey r).bind fun k =>
                          (readValue fuel limit k.2).bind fun p =>
                            (readMembers fuel limit p.2).map fun q =>
                              (obj ((k.1, p.1) :: q.1), q.2)
            | _, _ => none

/-- The elements of an array after the first. -/
def readElems : Nat → Nat → List Char → Option (List Json × List Char)
  | 0, _, _ => none
  | fuel + 1, limit, cs =>
      match skipWs cs with
      | ']' :: r => some ([], r)
      | ',' :: r =>
          (readValue fuel limit r).bind fun p =>
            (readElems fuel limit p.2).map fun q => (p.1 :: q.1, q.2)
      | _ => none

/-- The members of an object after the first. -/
def readMembers : Nat → Nat → List Char → Option (List (String × Json) × List Char)
  | 0, _, _ => none
  | fuel + 1, limit, cs =>
      match skipWs cs with
      | '}' :: r => some ([], r)
      | ',' :: r =>
          (readKey r).bind fun k =>
            (readValue fuel limit k.2).bind fun p =>
              (readMembers fuel limit p.2).map fun q => ((k.1, p.1) :: q.1, q.2)
      | _ => none

end

/-- The value of a text that is nested at most `limit` deep. -/
def read (limit : Nat) (cs : List Char) : Option Json :=
  match readValue cs.length limit cs with
  | some (v, r) => if (skipWs r).isEmpty then some v else none
  | none => none

end Reader

section Numbers

/-- The text does not go on with a digit. -/
def NoDigit (r : List Char) : Prop := ∀ c ∈ r.head?, c.isDigit = false

/-- The text does not go on with a part of a number. -/
def NumEnd (r : List Char) : Prop := ∀ c ∈ r.head?, c.isDigit = false ∧ c ≠ '.' ∧ c ≠ 'e' ∧ c ≠ 'E'

theorem NumEnd.noDigit {r : List Char} (h : NumEnd r) : NoDigit r := fun c hc => (h c hc).1

theorem readDigits_append {ds r : List Char} (hne : ds ≠ []) (hds : ∀ c ∈ ds, c.isDigit = true)
    (hr : NoDigit r) : readDigits (ds ++ r) = some (ds, r) := by
  have htake : r.takeWhile Char.isDigit = [] := by
    cases r with
    | nil => rfl
    | cons c r => simp [hr c rfl]
  have hdrop : r.dropWhile Char.isDigit = r := by
    cases r with
    | nil => rfl
    | cons c r => simp [hr c rfl]
  obtain ⟨d, ds, rfl⟩ := List.exists_cons_of_ne_nil hne
  simp only [readDigits, List.takeWhile_append_of_pos hds, List.dropWhile_append_of_pos hds, htake,
    hdrop, List.append_nil]

theorem readDigits_toDigits (n : Nat) {r : List Char} (hr : NoDigit r) :
    readDigits (Nat.toDigits 10 n ++ r) = some (Nat.toDigits 10 n, r) :=
  readDigits_append Nat.toDigits_ne_nil
    (fun _ hc => Nat.isDigit_of_mem_toDigits (by decide) (by decide) hc) hr

theorem signed_natAbs (n : Int) : signed (decide (n < 0)) n.natAbs = n := by
  by_cases h : n < 0
  · simp only [signed, h, decide_true, if_true]
    omega
  · simp only [signed, h, decide_false, Bool.false_eq_true, if_false]
    omega

theorem readSign_digits {ds : List Char} (hds : ∀ c ∈ ds, c.isDigit = true) (hne : ds ≠ [])
    (r : List Char) : readSign (ds ++ r) = (false, ds ++ r) := by
  obtain ⟨d, ds, rfl⟩ := List.exists_cons_of_ne_nil hne
  have hd := hds d List.mem_cons_self
  have hminus : d ≠ '-' := by rintro rfl; cases hd
  have hplus : d ≠ '+' := by rintro rfl; cases hd
  simp [readSign, hminus, hplus]

theorem isDigit_toDigits {n : Nat} {c : Char} (hc : c ∈ Nat.toDigits 10 n) : c.isDigit = true :=
  Nat.isDigit_of_mem_toDigits (by decide) (by decide) hc

theorem readInt_printInt (e : Int) {r : List Char} (hr : NoDigit r) :
    readInt (printInt e ++ r) = some (e, r) := by
  have hval := signed_natAbs e
  by_cases h : e < 0
  · simp only [h, decide_true] at hval
    simp [readInt, printInt, h, readSign, readDigits_toDigits _ hr, hval]
  · simp only [h, decide_false] at hval
    simp [readInt, printInt, h, readSign_digits (fun _ => isDigit_toDigits) Nat.toDigits_ne_nil,
      readDigits_toDigits _ hr, hval]

theorem readFrac_of_ne {r : List Char} (hr : ∀ c ∈ r.head?, c ≠ '.') :
    readFrac r = some ([], r) := by
  cases r with
  | nil => rfl
  | cons c r => simp [readFrac, hr c rfl]

theorem readExp_of_ne {r : List Char} (hr : ∀ c ∈ r.head?, c ≠ 'e' ∧ c ≠ 'E') :
    readExp r = some (none, r) := by
  cases r with
  | nil => rfl
  | cons c r => simp [readExp, hr c rfl]

theorem readNumber_int (neg : Bool) (n : Nat) {r : List Char} (hr : NumEnd r) :
    readNumber neg (Nat.toDigits 10 n ++ r) = some (int (signed neg n), r) := by
  have hfrac : readFrac r = some ([], r) := readFrac_of_ne fun c hc => (hr c hc).2.1
  have hexp : readExp r = some (none, r) := readExp_of_ne fun c hc => (hr c hc).2.2
  simp [readNumber, readDigits_toDigits n hr.noDigit, hfrac, hexp]

theorem readNumber_dec (neg : Bool) (n : Nat) (e : Int) {r : List Char} (hr : NoDigit r) :
    readNumber neg (Nat.toDigits 10 n ++ 'e' :: (printInt e ++ r)) =
      some (dec (signed neg n) e, r) := by
  have hend : NoDigit ('e' :: (printInt e ++ r)) := fun c hc => by
    obtain rfl : 'e' = c := by simpa using hc
    rfl
  have hexp : readExp ('e' :: (printInt e ++ r)) = some (some e, r) := by
    simp [readExp, readInt_printInt e hr]
  simp [readNumber, readDigits_toDigits n hend, readFrac, hexp]

end Numbers

section Strings

theorem ofCodePoint_hexDigits :
    ∀ n < 32, (hexVal4 '0' '0' (n / 16 % 16).digitChar (n % 16).digitChar) = some n ∧
      ofCodePoint n = Char.ofNat n := by
  decide

theorem readChars_printChar (c : Char) (r : List Char) :
    readChars (printChar c ++ r) = (readChars r).map fun p => (c :: p.1, p.2) := by
  unfold printChar
  split_ifs with hquote hslash hcontrol
  · subst hquote
    simp [readChars, escapes]
  · subst hslash
    simp [readChars, escapes]
  · obtain ⟨hval, hchar⟩ := ofCodePoint_hexDigits c.toNat hcontrol
    have hhigh : c.toNat / 4096 % 16 = 0 ∧ c.toNat / 256 % 16 = 0 := by omega
    rw [hexDigits, hhigh.1, hhigh.2]
    change readChars ('\\' :: 'u' :: '0' :: '0' :: _ :: _ :: r) = _
    rw [readChars, hval, Option.bind_some, hchar, Char.ofNat_toNat]
  · rw [List.singleton_append, readChars, if_neg (by simp [hcontrol, hslash])]
    · exact fun h => hquote h
    · exact fun _ _ _ _ _ h => absurd h hslash
    · exact fun _ _ h => absurd h hslash

theorem readChars_print (cs r : List Char) :
    readChars (cs.flatMap printChar ++ '"' :: r) = some (cs, r) := by
  induction cs with
  | nil => rfl
  | cons c cs ih => simp [List.append_assoc, readChars_printChar, ih]

theorem readString_print (s : String) (r : List Char) :
    readString (printString s ++ r) = some (s, r) := by
  simp [readString, printString, readChars_print]

end Strings

section Values

/-- Every printed value starts with a character that is no white space and does
not close an array. -/
theorem print_eq_cons (v : Json) : ∃ c cs, v.print = c :: cs ∧ isWs c = false ∧ c ≠ ']' := by
  have hint : ∀ n : Int, ∃ c cs, printInt n = c :: cs ∧ isWs c = false ∧ c ≠ ']' := fun n => by
    unfold printInt
    split
    · exact ⟨'-', _, rfl, by decide, by decide⟩
    · obtain ⟨d, ds, hds⟩ :=
        List.exists_cons_of_ne_nil (Nat.toDigits_ne_nil (n := n.natAbs) (b := 10))
      have hd : d.isDigit = true := isDigit_toDigits (hds ▸ List.mem_cons_self)
      refine ⟨d, ds, hds, ?_, ?_⟩
      · simp only [isWs, decide_eq_false_iff_not]
        rintro (rfl | rfl | rfl | rfl) <;> cases hd
      · rintro rfl
        cases hd
  cases v with
  | null => exact ⟨'n', _, by rw [print], by decide, by decide⟩
  | bool b => cases b <;> exact ⟨_, _, by rw [print], by decide, by decide⟩
  | int n =>
      obtain ⟨c, cs, h⟩ := hint n
      exact ⟨c, cs, by rw [print]; exact h.1, h.2⟩
  | dec m e =>
      obtain ⟨c, cs, heq, h⟩ := hint m
      exact ⟨c, cs ++ 'e' :: printInt e, by rw [print, heq, List.cons_append], h⟩
  | str s => exact ⟨'"', _, by rw [print, printString]; rfl, by decide, by decide⟩
  | arr vs =>
      cases vs with
      | nil => exact ⟨'[', _, by rw [print], by decide, by decide⟩
      | cons v vs => exact ⟨'[', v.print ++ printElems vs, by rw [print]; rfl, by decide, by decide⟩
  | obj kvs =>
      cases kvs with
      | nil => exact ⟨'{', _, by rw [print], by decide, by decide⟩
      | cons kv kvs =>
          exact ⟨'{', printString kv.1 ++ ':' :: kv.2.print ++ printMembers kvs, by rw [print]; rfl,
            by decide, by decide⟩

theorem skipWs_print (v : Json) (r : List Char) : skipWs (v.print ++ r) = v.print ++ r := by
  obtain ⟨c, cs, heq, hws, -⟩ := print_eq_cons v
  simp [heq, skipWs, hws]

theorem readKey_print (k : String) (r : List Char) :
    readKey (printString k ++ ':' :: r) = some (k, r) := by
  have hskip : skipWs (printString k ++ ':' :: r) = printString k ++ ':' :: r := rfl
  have hcolon : skipWs (':' :: r) = ':' :: r := rfl
  simp [readKey, hskip, readString_print, hcolon]

/-- The reader of values leaves a printed number to the reader of numbers. -/
theorem readValue_printInt (fuel limit : Nat) (n : Int) (r : List Char) :
    readValue (fuel + 1) limit (printInt n ++ r) =
      readNumber (decide (n < 0)) (Nat.toDigits 10 n.natAbs ++ r) := by
  have hskip : skipWs (printInt n ++ r) = printInt n ++ r := by
    have h := skipWs_print (int n) r
    rwa [print] at h
  rw [readValue, hskip]
  by_cases h : n < 0
  · simp only [printInt, h, if_true, List.cons_append, decide_true]
    rfl
  · obtain ⟨d, ds, hds⟩ :=
      List.exists_cons_of_ne_nil (Nat.toDigits_ne_nil (n := n.natAbs) (b := 10))
    have hd : d.isDigit = true := isDigit_toDigits (hds ▸ List.mem_cons_self)
    simp only [printInt, h, if_false, hds, List.cons_append, hd, if_true, decide_false]

/-- What follows a value inside an array or object ends a number. -/
theorem numEnd_printElems (vs : List Json) (r : List Char) : NumEnd (printElems vs ++ r) := by
  intro c hc
  cases vs <;> (rw [printElems] at hc; obtain rfl := Option.some.inj hc; decide)

theorem numEnd_printMembers (kvs : List (String × Json)) (r : List Char) :
    NumEnd (printMembers kvs ++ r) := by
  intro c hc
  cases kvs <;> (rw [printMembers] at hc; obtain rfl := Option.some.inj hc; decide)

section Nested

variable (fuel limit : Nat) (k : String) (v : Json) (vs : List Json) (kvs : List (String × Json))
  (r : List Char)

theorem readValue_arr_cons :
    readValue (fuel + 1) (limit + 1) ((arr (v :: vs)).print ++ r) =
      (readValue fuel limit (v.print ++ (printElems vs ++ r))).bind fun p =>
        (readElems fuel limit p.2).map fun q => (arr (p.1 :: q.1), q.2) := by
  obtain ⟨c, cs, heq, -, hne⟩ := print_eq_cons v
  have hskip := skipWs_print v (printElems vs ++ r)
  simp only [print, List.cons_append, List.append_assoc]
  have hopen : skipWs ('[' :: (v.print ++ (printElems vs ++ r))) =
      '[' :: (v.print ++ (printElems vs ++ r)) := rfl
  have hdigit : ¬ '['.isDigit = true := by decide
  rw [readValue, hopen]
  dsimp only
  rw [if_neg hdigit]
  simp only [hskip]
  rw [heq]
  dsimp only [List.cons_append]
  split
  · next h => exact absurd (List.cons.inj h).1 hne
  · rfl

theorem readValue_obj_cons :
    readValue (fuel + 1) (limit + 1) ((obj ((k, v) :: kvs)).print ++ r) =
      (readValue fuel limit (v.print ++ (printMembers kvs ++ r))).bind fun p =>
        (readMembers fuel limit p.2).map fun q => (obj ((k, p.1) :: q.1), q.2) := by
  have hkey := readKey_print k (v.print ++ (printMembers kvs ++ r))
  simp only [print, List.cons_append, List.append_assoc]
  change ((readKey (printString k ++ ':' :: (v.print ++ (printMembers kvs ++ r)))).bind fun k =>
    (readValue fuel limit k.2).bind fun p =>
      (readMembers fuel limit p.2).map fun q => (obj ((k.1, p.1) :: q.1), q.2)) = _
  rw [hkey, Option.bind_some]

theorem readElems_cons :
    readElems (fuel + 1) limit (printElems (v :: vs) ++ r) =
      (readValue fuel limit (v.print ++ (printElems vs ++ r))).bind fun p =>
        (readElems fuel limit p.2).map fun q => (p.1 :: q.1, q.2) := by
  simp only [printElems, List.cons_append, List.append_assoc]
  rfl

theorem readMembers_cons :
    readMembers (fuel + 1) limit (printMembers ((k, v) :: kvs) ++ r) =
      (readValue fuel limit (v.print ++ (printMembers kvs ++ r))).bind fun p =>
        (readMembers fuel limit p.2).map fun q => ((k, p.1) :: q.1, q.2) := by
  have hkey := readKey_print k (v.print ++ (printMembers kvs ++ r))
  simp only [printMembers, List.cons_append, List.append_assoc]
  change ((readKey (printString k ++ ':' :: (v.print ++ (printMembers kvs ++ r)))).bind fun k =>
    (readValue fuel limit k.2).bind fun p =>
      (readMembers fuel limit p.2).map fun q => ((k.1, p.1) :: q.1, q.2)) = _
  rw [hkey, Option.bind_some]

end Nested

mutual

/-- The reader gives back a printed value and what follows it, when the limit
allows the depth of the value. -/
theorem readValue_print (v : Json) (fuel limit : Nat) (r : List Char)
    (hfuel : v.print.length ≤ fuel) (hlimit : v.depth ≤ limit) (hr : NumEnd r) :
    readValue fuel limit (v.print ++ r) = some (v, r) := by
  obtain ⟨c, cs, heq, -, -⟩ := print_eq_cons v
  obtain ⟨fuel, rfl⟩ : ∃ k, fuel = k + 1 := ⟨fuel - 1, by
    have : 0 < v.print.length := by simp [heq]
    omega⟩
  cases v with
  | null => rw [print]; rfl
  | bool b => cases b <;> rw [print] <;> rfl
  | int n => rw [print, readValue_printInt, readNumber_int _ _ hr, signed_natAbs]
  | dec m e =>
      rw [print, List.append_assoc, List.cons_append, readValue_printInt,
        readNumber_dec _ _ _ hr.noDigit, signed_natAbs]
  | str s =>
      have hchars := readChars_print s.toList r
      rw [print, printString]
      change ((readChars (s.toList.flatMap printChar ++ ['"'] ++ r)).map fun p =>
        (str (String.ofList p.1), p.2)) = _
      simp [hchars]
  | arr vs =>
      cases vs with
      | nil =>
          obtain ⟨limit, rfl⟩ : ∃ k, limit = k + 1 := ⟨limit - 1, by simp [depth] at hlimit; omega⟩
          rw [print]
          rfl
      | cons v vs =>
          simp only [print, depth, depthElems, List.length_cons, List.length_append] at hfuel hlimit
          obtain ⟨limit, rfl⟩ : ∃ k, limit = k + 1 := ⟨limit - 1, by omega⟩
          have hv := readValue_print v fuel limit (printElems vs ++ r) (by omega) (by omega)
            (numEnd_printElems vs r)
          have hvs := readElems_print vs fuel limit r (by omega) (by omega)
          rw [readValue_arr_cons, hv, Option.bind_some, hvs, Option.map_some]
  | obj kvs =>
      cases kvs with
      | nil =>
          obtain ⟨limit, rfl⟩ : ∃ k, limit = k + 1 := ⟨limit - 1, by simp [depth] at hlimit; omega⟩
          rw [print]
          rfl
      | cons kv kvs =>
          obtain ⟨k, v⟩ := kv
          simp only [print, depth, depthMembers, List.length_cons, List.length_append]
            at hfuel hlimit
          obtain ⟨limit, rfl⟩ : ∃ k, limit = k + 1 := ⟨limit - 1, by omega⟩
          have hv := readValue_print v fuel limit (printMembers kvs ++ r) (by omega) (by omega)
            (numEnd_printMembers kvs r)
          have hkvs := readMembers_print kvs fuel limit r (by omega) (by omega)
          rw [readValue_obj_cons, hv, Option.bind_some, hkvs, Option.map_some]

theorem readElems_print (vs : List Json) (fuel limit : Nat) (r : List Char)
    (hfuel : (printElems vs).length ≤ fuel) (hlimit : depthElems vs ≤ limit) :
    readElems fuel limit (printElems vs ++ r) = some (vs, r) := by
  cases vs with
  | nil =>
      obtain ⟨fuel, rfl⟩ : ∃ k, fuel = k + 1 := ⟨fuel - 1, by simp [printElems] at hfuel; omega⟩
      rw [printElems]
      rfl
  | cons v vs =>
      simp only [printElems, depthElems, List.length_cons, List.length_append] at hfuel hlimit
      obtain ⟨fuel, rfl⟩ : ∃ k, fuel = k + 1 := ⟨fuel - 1, by omega⟩
      have hv := readValue_print v fuel limit (printElems vs ++ r) (by omega) (by omega)
        (numEnd_printElems vs r)
      have hvs := readElems_print vs fuel limit r (by omega) (by omega)
      rw [readElems_cons, hv, Option.bind_some, hvs, Option.map_some]

theorem readMembers_print (kvs : List (String × Json)) (fuel limit : Nat) (r : List Char)
    (hfuel : (printMembers kvs).length ≤ fuel) (hlimit : depthMembers kvs ≤ limit) :
    readMembers fuel limit (printMembers kvs ++ r) = some (kvs, r) := by
  cases kvs with
  | nil =>
      obtain ⟨fuel, rfl⟩ : ∃ k, fuel = k + 1 := ⟨fuel - 1, by simp [printMembers] at hfuel; omega⟩
      rw [printMembers]
      rfl
  | cons kv kvs =>
      obtain ⟨k, v⟩ := kv
      simp only [printMembers, depthMembers, List.length_cons, List.length_append] at hfuel hlimit
      obtain ⟨fuel, rfl⟩ : ∃ k, fuel = k + 1 := ⟨fuel - 1, by omega⟩
      have hv := readValue_print v fuel limit (printMembers kvs ++ r) (by omega) (by omega)
        (numEnd_printMembers kvs r)
      have hkvs := readMembers_print kvs fuel limit r (by omega) (by omega)
      rw [readMembers_cons, hv, Option.bind_some, hkvs, Option.map_some]

end

/-- A printed value is read again when the limit allows its depth. -/
theorem read_print {v : Json} {limit : Nat} (h : v.depth ≤ limit) :
    read limit v.print = some v := by
  have hread := readValue_print v v.print.length limit [] (Nat.le_refl _) h
    (fun c hc => by cases hc)
  rw [List.append_nil] at hread
  rw [read, hread]
  rfl

/-- Reading a value and the rest fails when one of the two is nested too deep. -/
theorem bind_readValue_deep {α β : Type*} {v : Json} {fuel limit : Nat} {r : List Char}
    {rest : List Char → Option α} {f : Json × List Char → α → β} (hfuel : v.print.length ≤ fuel)
    (hr : NumEnd r) (hv : limit < v.depth → readValue fuel limit (v.print ++ r) = none)
    (hrest : v.depth ≤ limit → rest r = none) :
    ((readValue fuel limit (v.print ++ r)).bind fun p => (rest p.2).map (f p)) = none := by
  by_cases h : v.depth ≤ limit
  · rw [readValue_print v fuel limit r hfuel h hr, Option.bind_some, hrest h, Option.map_none]
  · rw [hv (Nat.lt_of_not_le h), Option.bind_none]

mutual

/-- The reader refuses a printed value that is nested deeper than the limit. -/
theorem readValue_deep (v : Json) (fuel limit : Nat) (r : List Char)
    (hfuel : v.print.length ≤ fuel) (hlimit : limit < v.depth) :
    readValue fuel limit (v.print ++ r) = none := by
  cases v with
  | arr vs =>
      cases vs with
      | nil =>
          obtain rfl : limit = 0 := by simpa [depth, depthElems] using hlimit
          cases fuel <;> (rw [print]; rfl)
      | cons v vs =>
          simp only [print, depth, depthElems, List.length_cons, List.length_append] at hfuel hlimit
          obtain ⟨fuel, rfl⟩ : ∃ k, fuel = k + 1 := ⟨fuel - 1, by omega⟩
          cases limit with
          | zero => rw [print]; rfl
          | succ limit =>
              rw [readValue_arr_cons]
              apply bind_readValue_deep (by omega) (numEnd_printElems vs r)
              · exact fun hv => readValue_deep v fuel limit _ (by omega) hv
              · exact fun hv => readElems_deep vs fuel limit r (by omega) (by omega)
  | obj kvs =>
      cases kvs with
      | nil =>
          obtain rfl : limit = 0 := by simpa [depth, depthMembers] using hlimit
          cases fuel <;> (rw [print]; rfl)
      | cons kv kvs =>
          obtain ⟨k, v⟩ := kv
          simp only [print, depth, depthMembers, List.length_cons, List.length_append]
            at hfuel hlimit
          obtain ⟨fuel, rfl⟩ : ∃ k, fuel = k + 1 := ⟨fuel - 1, by omega⟩
          cases limit with
          | zero => rw [print]; rfl
          | succ limit =>
              rw [readValue_obj_cons]
              apply bind_readValue_deep (by omega) (numEnd_printMembers kvs r)
              · exact fun hv => readValue_deep v fuel limit _ (by omega) hv
              · exact fun hv => readMembers_deep kvs fuel limit r (by omega) (by omega)
  | _ => simp [depth] at hlimit

theorem readElems_deep (vs : List Json) (fuel limit : Nat) (r : List Char)
    (hfuel : (printElems vs).length ≤ fuel) (hlimit : limit < depthElems vs) :
    readElems fuel limit (printElems vs ++ r) = none := by
  cases vs with
  | nil => simp [depthElems] at hlimit
  | cons v vs =>
      simp only [printElems, depthElems, List.length_cons, List.length_append] at hfuel hlimit
      obtain ⟨fuel, rfl⟩ : ∃ k, fuel = k + 1 := ⟨fuel - 1, by omega⟩
      rw [readElems_cons]
      apply bind_readValue_deep (by omega) (numEnd_printElems vs r)
      · exact fun hv => readValue_deep v fuel limit _ (by omega) hv
      · exact fun hv => readElems_deep vs fuel limit r (by omega) (by omega)

theorem readMembers_deep (kvs : List (String × Json)) (fuel limit : Nat) (r : List Char)
    (hfuel : (printMembers kvs).length ≤ fuel) (hlimit : limit < depthMembers kvs) :
    readMembers fuel limit (printMembers kvs ++ r) = none := by
  cases kvs with
  | nil => simp [depthMembers] at hlimit
  | cons kv kvs =>
      obtain ⟨k, v⟩ := kv
      simp only [printMembers, depthMembers, List.length_cons, List.length_append] at hfuel hlimit
      obtain ⟨fuel, rfl⟩ : ∃ k, fuel = k + 1 := ⟨fuel - 1, by omega⟩
      rw [readMembers_cons]
      apply bind_readValue_deep (by omega) (numEnd_printMembers kvs r)
      · exact fun hv => readValue_deep v fuel limit _ (by omega) hv
      · exact fun hv => readMembers_deep kvs fuel limit r (by omega) (by omega)

end

/-- A printed value that is nested deeper than the limit is not read. -/
theorem read_deep {v : Json} {limit : Nat} (h : limit < v.depth) : read limit v.print = none := by
  have hread := readValue_deep v v.print.length limit [] (Nat.le_refl _) h
  rw [List.append_nil] at hread
  rw [read, hread]

mutual

theorem depth_le_length (v : Json) : v.depth ≤ v.print.length := by
  cases v with
  | arr vs =>
      cases vs with
      | nil => simp [depth, depthElems, print]
      | cons v vs =>
          have hv := depth_le_length v
          have hvs := depthElems_le_length vs
          simp only [depth, depthElems, print, List.length_cons, List.length_append]
          omega
  | obj kvs =>
      cases kvs with
      | nil => simp [depth, depthMembers, print]
      | cons kv kvs =>
          obtain ⟨k, v⟩ := kv
          have hv := depth_le_length v
          have hkvs := depthMembers_le_length kvs
          simp only [depth, depthMembers, print, List.length_cons, List.length_append]
          omega
  | _ => simp [depth]

theorem depthElems_le_length (vs : List Json) : depthElems vs ≤ (printElems vs).length := by
  cases vs with
  | nil => simp [depthElems]
  | cons v vs =>
      have hv := depth_le_length v
      have hvs := depthElems_le_length vs
      simp only [depthElems, printElems, List.length_cons, List.length_append]
      omega

theorem depthMembers_le_length (kvs : List (String × Json)) :
    depthMembers kvs ≤ (printMembers kvs).length := by
  cases kvs with
  | nil => simp [depthMembers]
  | cons kv kvs =>
      obtain ⟨k, v⟩ := kv
      have hv := depth_le_length v
      have hkvs := depthMembers_le_length kvs
      simp only [depthMembers, printMembers, List.length_cons, List.length_append]
      omega

end

end Values

section Bytes

/-- A text in UTF-8. -/
def utf8Encode (cs : List Char) : List UInt8 := cs.flatMap String.utf8EncodeChar

def utf8Decode (bs : List UInt8) : Option (List Char) :=
  (String.fromUTF8? bs.toByteArray).map String.toList

theorem utf8Decode_encode (cs : List Char) : utf8Decode (utf8Encode cs) = some cs := by
  have hvalid : (utf8Encode cs).toByteArray.IsValidUTF8 := ⟨cs, rfl⟩
  rw [utf8Decode, String.fromUTF8?, dif_pos hvalid, Option.map_some]
  exact congrArg some (String.toList_ofList (l := cs))

/-- The text of a value in bytes. -/
def printBytes (v : Json) : List UInt8 := utf8Encode v.print

/-- The value of the bytes of a text that is nested at most `limit` deep. -/
def readBytes (limit : Nat) (bs : List UInt8) : Option Json := (utf8Decode bs).bind (read limit)

/-- A reader without a limit on the depth. -/
def readBytesAny (bs : List UInt8) : Option Json :=
  (utf8Decode bs).bind fun cs => read cs.length cs

theorem readBytes_printBytes {v : Json} {limit : Nat} (h : v.depth ≤ limit) :
    readBytes limit v.printBytes = some v := by
  rw [readBytes, printBytes, utf8Decode_encode, Option.bind_some, read_print h]

theorem readBytes_deep {v : Json} {limit : Nat} (h : limit < v.depth) :
    readBytes limit v.printBytes = none := by
  rw [readBytes, printBytes, utf8Decode_encode, Option.bind_some, read_deep h]

theorem readBytesAny_printBytes (v : Json) : readBytesAny v.printBytes = some v := by
  rw [readBytesAny, printBytes, utf8Decode_encode, Option.bind_some, read_print (depth_le_length v)]

end Bytes

end Umink.Library.Json
