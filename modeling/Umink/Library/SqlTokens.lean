import Mathlib.Data.List.Basic
import Mathlib.Tactic.Common

/-!
# Tokens of SQL texts

A lexer that reads one byte at a time gives a text that is put between two others its own
tokens, unless it leaves a comment or a quotation open.

## Implementation notes

The lexer follows the tokenizer of SQLite for whitespace, words, comments and quoted
names. Keywords are words, and a number or an operator of several characters can be
several tokens.
-/

namespace Umink.Library

/-- A machine that emits tokens while it reads a text. -/
structure Lexer (σ α τ : Type*) where
  start : σ
  next : σ → α → List τ × σ
  finish : σ → List τ

namespace Lexer

variable {σ α τ : Type*} (L : Lexer σ α τ)

/-- The tokens emitted by a text, and the state after it. -/
def scan : σ → List α → List τ × σ
  | s, [] => ([], s)
  | s, a :: as =>
      match L.next s a with
      | (ts, s) =>
          match scan s as with
          | (ts', s) => (ts ++ ts', s)

/-- The tokens of the rest of a text. -/
def tokensFrom (s : σ) (as : List α) : List τ := (L.scan s as).1 ++ L.finish (L.scan s as).2

def tokens (as : List α) : List τ := L.tokensFrom L.start as

theorem scan_append (s : σ) (as bs : List α) :
    L.scan s (as ++ bs) =
      ((L.scan s as).1 ++ (L.scan (L.scan s as).2 bs).1, (L.scan (L.scan s as).2 bs).2) := by
  induction as generalizing s with
  | nil => rfl
  | cons a as ih =>
      simp only [List.cons_append, scan, ih, List.append_assoc]

theorem tokensFrom_append (s : σ) (as bs : List α) :
    L.tokensFrom s (as ++ bs) = (L.scan s as).1 ++ L.tokensFrom (L.scan s as).2 bs := by
  simp only [tokensFrom, scan_append, List.append_assoc]

/-- A text all of whose bytes are skipped in a state emits nothing. -/
theorem scan_of_skip {I : σ → Prop} {as : List α}
    (hskip : ∀ s, I s → ∀ a ∈ as, (L.next s a).1 = [] ∧ I (L.next s a).2) {s : σ} (hs : I s) :
    (L.scan s as).1 = [] ∧ I (L.scan s as).2 := by
  induction as generalizing s with
  | nil => exact ⟨rfl, hs⟩
  | cons a as ih =>
      obtain ⟨hnone, hnext⟩ := hskip s hs a List.mem_cons_self
      obtain ⟨hrest, hlast⟩ :=
        ih (fun s hs b hb => hskip s hs b (List.mem_cons_of_mem a hb)) hnext
      refine ⟨?_, hlast⟩
      simp only [scan, hnone, hrest, List.append_nil]

end Lexer

namespace Sql

/-- A token; the texts of quoted names and of string literals are those between their
quotes. -/
inductive Token where
  | word (s : List UInt8)
  | quoted (q : UInt8) (s : List UInt8)
  | number (s : List UInt8)
  | punct (b : UInt8)
  | illegal
  deriving DecidableEq

/-- A name, bare or between quotes; between single quotes it is a string literal. -/
def Token.IsIdent : Token → Prop
  | .word _ => True
  | .quoted q _ => q ≠ 39
  | _ => False

instance : DecidablePred Token.IsIdent
  | .word _ => inferInstanceAs (Decidable True)
  | .quoted q _ => inferInstanceAs (Decidable (q ≠ 39))
  | .number _ => inferInstanceAs (Decidable False)
  | .punct _ => inferInstanceAs (Decidable False)
  | .illegal => inferInstanceAs (Decidable False)

/-- What the bytes since the last token begin. -/
inductive LexState where
  | start
  | space
  | word (s : List UInt8)
  | number (s : List UInt8)
  | minus
  | slash
  | lineComment
  | blockStart
  | block (star : Bool)
  | quote (q : UInt8) (s : List UInt8)
  | quoteEnd (q : UInt8) (s : List UInt8)
  deriving DecidableEq

def isIdStart (b : UInt8) : Bool :=
  (65 ≤ b && b ≤ 90) || (97 ≤ b && b ≤ 122) || b == 95 || 128 ≤ b

def isDigit (b : UInt8) : Bool := 48 ≤ b && b ≤ 57

/-- Letters, digits, `_`, `$` and all bytes that are not ASCII. -/
def isIdChar (b : UInt8) : Bool := isIdStart b || isDigit b || b == 36

/-- The first byte of a token. -/
def first (b : UInt8) : List Token × LexState :=
  if b = 32 ∨ b = 9 ∨ b = 10 ∨ b = 12 ∨ b = 13 then ([], .space)
  else if isIdStart b then ([], .word [b])
  else if isDigit b then ([], .number [b])
  else if b = 45 then ([], .minus)
  else if b = 47 then ([], .slash)
  else if b = 39 ∨ b = 34 ∨ b = 96 ∨ b = 91 then ([], .quote b [])
  else ([.punct b], .start)

/-- The byte after the end of a token. -/
def emit (t : Token) (b : UInt8) : List Token × LexState := (t :: (first b).1, (first b).2)

/-- The quote that closes a quotation; `[` is closed by `]`. -/
def closing (q : UInt8) : UInt8 := if q = 91 then 93 else q

def next : LexState → UInt8 → List Token × LexState
  | .start, b => first b
  | .space, b => if b = 11 then ([], .space) else first b
  | .word s, b => if isIdChar b then ([], .word (s ++ [b])) else emit (.word s) b
  | .number s, b => if isIdChar b then ([], .number (s ++ [b])) else emit (.number s) b
  | .minus, b => if b = 45 then ([], .lineComment) else emit (.punct 45) b
  | .slash, b => if b = 42 then ([], .blockStart) else emit (.punct 47) b
  | .lineComment, b => if b = 10 then first b else ([], .lineComment)
  | .blockStart, b => ([], .block (b == 42))
  | .block star, b => if star ∧ b = 47 then ([], .start) else ([], .block (b == 42))
  | .quote q s, b =>
      if b = closing q then
        if q = 91 then ([.quoted q s], .start) else ([], .quoteEnd q s)
      else ([], .quote q (s ++ [b]))
  | .quoteEnd q s, b => if b = q then ([], .quote q (s ++ [b])) else emit (.quoted q s) b

/-- The token at the end of a text; a comment may be left open, a quotation may not. -/
def finish : LexState → List Token
  | .start | .space | .lineComment | .block _ => []
  | .word s => [.word s]
  | .number s => [.number s]
  | .minus => [.punct 45]
  | .slash => [.punct 47]
  | .blockStart => [.punct 47, .punct 42]
  | .quote _ _ => [.illegal]
  | .quoteEnd q s => [.quoted q s]

def lexer : Lexer LexState UInt8 Token := ⟨.start, next, finish⟩

/-- Inside a comment and not after a star. -/
def LexState.IsComment : LexState → Prop
  | .lineComment => True
  | .block star => star = false
  | _ => False

/-- Inside a quotation. -/
def LexState.IsQuote : LexState → Prop
  | .quote q _ => q = 39 ∨ q = 34 ∨ q = 96 ∨ q = 91
  | _ => False

/-- A text that neither ends a comment nor closes a quotation. -/
def Inert (s : List UInt8) : Prop :=
  ∀ b ∈ s, b ≠ 10 ∧ b ≠ 42 ∧ b ≠ 39 ∧ b ≠ 34 ∧ b ≠ 96 ∧ b ≠ 93

instance (s : List UInt8) : Decidable (Inert s) :=
  List.decidableBAll (fun b => b ≠ 10 ∧ b ≠ 42 ∧ b ≠ 39 ∧ b ≠ 34 ∧ b ≠ 96 ∧ b ≠ 93) s

/-- Quotations begin with a quote. -/
def LexState.Valid : LexState → Prop
  | .quote q _ | .quoteEnd q _ => q = 39 ∨ q = 34 ∨ q = 96 ∨ q = 91
  | _ => True

section Steps

variable {s : LexState} {b : UInt8}

theorem valid_first (b : UInt8) : (first b).2.Valid := by
  unfold first
  split_ifs with _ _ _ _ _ hq
  all_goals first
    | exact trivial
    | exact hq

theorem valid_next (hs : s.Valid) (b : UInt8) : (next s b).2.Valid := by
  cases s with
  | start => exact valid_first b
  | blockStart => exact trivial
  | quote q t =>
      simp only [next]
      split_ifs
      · exact trivial
      · exact hs
      · exact hs
  | quoteEnd q t =>
      simp only [next]
      split_ifs
      · exact hs
      · exact valid_first b
  | _ =>
      simp only [next]
      split_ifs
      all_goals first
        | exact valid_first b
        | exact trivial

theorem valid_scan (hs : s.Valid) (bs : List UInt8) : (lexer.scan s bs).2.Valid := by
  induction bs generalizing s with
  | nil => exact hs
  | cons b bs ih => exact ih (valid_next hs b)

/-- A space ends every token; it does not end a comment or a quotation. -/
theorem next_space (hs : s.Valid) :
    (next s 32).2 = .space ∨ (next s 32).2.IsComment ∨ (next s 32).2.IsQuote := by
  cases s with
  | quote q t =>
      refine .inr (.inr ?_)
      obtain rfl | rfl | rfl | rfl := hs <;> simp [next, closing, LexState.IsQuote]
  | quoteEnd q t =>
      refine .inl ?_
      obtain rfl | rfl | rfl | rfl := hs <;> rfl
  | _ => simp [next, emit, first, isIdChar, isIdStart, isDigit, LexState.IsComment]

theorem skip_comment (hs : s.IsComment) {bs : List UInt8} (hbs : Inert bs) (hb : b ∈ bs) :
    (next s b).1 = [] ∧ (next s b).2.IsComment := by
  obtain ⟨hline, hstar, -⟩ := hbs b hb
  cases s with
  | lineComment => simp [next, hline, LexState.IsComment]
  | block star =>
      obtain rfl : star = false := hs
      simp [next, hstar, LexState.IsComment]
  | _ => exact False.elim hs

/-- Inside a comment the rest of a text that does not end it has no tokens. -/
theorem tokensFrom_comment (hs : s.IsComment) {bs : List UInt8} (hbs : Inert bs) :
    lexer.tokensFrom s bs = [] := by
  obtain ⟨hnone, hlast⟩ := lexer.scan_of_skip (I := LexState.IsComment)
    (fun s hs b hb => skip_comment hs hbs hb) hs
  rw [Lexer.tokensFrom, hnone, List.nil_append]
  generalize (lexer.scan s bs).2 = t at hlast
  cases t with
  | lineComment => rfl
  | block star => rfl
  | _ => exact False.elim hlast

theorem skip_quote (hs : s.IsQuote) {bs : List UInt8} (hbs : Inert bs) (hb : b ∈ bs) :
    (next s b).1 = [] ∧ (next s b).2.IsQuote := by
  obtain ⟨-, -, h39, h34, h96, h93⟩ := hbs b hb
  cases s with
  | quote q t =>
      have hopen : b ≠ closing q := by
        obtain rfl | rfl | rfl | rfl := hs <;> assumption
      simp only [next, if_neg hopen]
      exact ⟨trivial, hs⟩
  | _ => exact False.elim hs

/-- Inside a quotation the rest of a text that does not close it is illegal. -/
theorem tokensFrom_quote (hs : s.IsQuote) {bs : List UInt8} (hbs : Inert bs) :
    lexer.tokensFrom s bs = [.illegal] := by
  obtain ⟨hnone, hlast⟩ := lexer.scan_of_skip (I := LexState.IsQuote)
    (fun s hs b hb => skip_quote hs hbs hb) hs
  rw [Lexer.tokensFrom, hnone, List.nil_append]
  generalize (lexer.scan s bs).2 = t at hlast
  cases t with
  | quote q t => rfl
  | _ => exact False.elim hlast

theorem not_isComment_of_isQuote (hs : s.IsQuote) : ¬ s.IsComment := by
  cases s with
  | quote q t => exact id
  | _ => exact False.elim hs

/-- What is open after a text and a space. -/
theorem scan_space_cases (name : List UInt8) :
    (lexer.scan .space (name ++ [32])).2 = .space ∨
      (lexer.scan .space (name ++ [32])).2.IsComment ∨
      (lexer.scan .space (name ++ [32])).2.IsQuote := by
  rw [Lexer.scan_append]
  exact next_space (valid_scan (s := .space) trivial name)

end Steps

theorem scan_word (t bs : List UInt8) (hbs : ∀ b ∈ bs, isIdChar b = true) :
    lexer.scan (.word t) bs = ([], .word (t ++ bs)) := by
  induction bs generalizing t with
  | nil => rw [List.append_nil, Lexer.scan]
  | cons b bs ih =>
      have hb : next (.word t) b = ([], .word (t ++ [b])) := by
        rw [next, if_pos (hbs b List.mem_cons_self)]
      have hrest := ih (t ++ [b]) fun c hc => hbs c (List.mem_cons_of_mem b hc)
      simp only [Lexer.scan, lexer] at hrest ⊢
      simp only [hb, hrest, List.nil_append, List.append_assoc, List.singleton_append]

/-- Letters, digits and the like after a letter are one word. -/
theorem scan_space_word {b : UInt8} {bs : List UInt8} (hb : isIdStart b = true)
    (hbs : ∀ c ∈ bs, isIdChar c = true) :
    lexer.scan .space (b :: bs ++ [32]) = ([.word (b :: bs)], .space) := by
  have hfirst : next .space b = ([], .word [b]) := by
    have hspace : ¬ (b = 32 ∨ b = 9 ∨ b = 10 ∨ b = 12 ∨ b = 13) := by
      rintro (rfl | rfl | rfl | rfl | rfl) <;> exact absurd hb (by decide)
    have htab : b ≠ 11 := by
      rintro rfl
      exact absurd hb (by decide)
    rw [next, if_neg htab, first, if_neg hspace, if_pos hb]
  have hscan : lexer.scan .space (b :: bs) = ([], .word (b :: bs)) := by
    have hword := scan_word [b] bs hbs
    simp only [Lexer.scan, lexer] at hword ⊢
    simp only [hfirst, hword, List.nil_append, List.singleton_append]
  rw [Lexer.scan_append, hscan]
  rfl

/-- The tokens of a text that is put between two others, where the first one ends in a
space and the second one begins with one: they are one name and the tokens around it exactly
if the text has no other token than the name and leaves nothing open, or if the text has the
tokens of the second one itself and leaves it in a comment. -/
theorem tokens_splice_iff {pre name post : List UInt8} {i : Token} (hi : i.IsIdent)
    (hpre : (lexer.scan .start pre).2 = .space) (hpost : Inert post)
    (hlegal : Token.illegal ∉ lexer.tokens (32 :: post)) :
    lexer.tokens (pre ++ (name ++ 32 :: post)) =
        lexer.tokens pre ++ i :: lexer.tokens (32 :: post) ↔
      lexer.scan .space (name ++ [32]) = ([i], .space) ∨
        ((lexer.scan .space (name ++ [32])).1 = i :: lexer.tokens (32 :: post) ∧
          (lexer.scan .space (name ++ [32])).2.IsComment) := by
  have hbefore : lexer.tokens pre = (lexer.scan .start pre).1 := by
    rw [Lexer.tokens, Lexer.tokensFrom, show lexer.start = .start from rfl, hpre]
    exact List.append_nil _
  have hsplit : lexer.tokens (pre ++ (name ++ 32 :: post)) =
      lexer.tokens pre ++ ((lexer.scan .space (name ++ [32])).1 ++
        lexer.tokensFrom (lexer.scan .space (name ++ [32])).2 post) := by
    rw [hbefore, List.append_cons, ← Lexer.tokensFrom_append, ← hpre]
    exact Lexer.tokensFrom_append lexer .start pre _
  rw [hsplit, List.append_cancel_left_eq]
  have hcases := scan_space_cases name
  generalize lexer.scan .space (name ++ [32]) = r at hcases ⊢
  obtain ⟨ts, s⟩ := r
  have hafter : lexer.tokens (32 :: post) = lexer.tokensFrom .space post := rfl
  obtain hspace | hcomment | hquote := hcases
  · obtain rfl : s = .space := hspace
    rw [hafter, ← List.singleton_append, List.append_cancel_right_eq]
    simp [LexState.IsComment]
  · have hopen : s ≠ .space := by
      rintro rfl
      exact hcomment
    rw [tokensFrom_comment hcomment hpost]
    simp [hopen, hcomment]
  · have hopen : s ≠ .space := by
      rintro rfl
      exact hquote
    rw [tokensFrom_quote hquote hpost]
    refine iff_of_false (fun h => ?_) (by simp [hopen, not_isComment_of_isQuote hquote])
    -- the last token is illegal
    have hmem : Token.illegal ∈ i :: lexer.tokens (32 :: post) := by
      rw [← h]
      exact List.mem_append_right ts (List.mem_singleton_self _)
    obtain rfl | hmem := List.mem_cons.mp hmem
    · exact hi
    · exact hlegal hmem

end Sql

end Umink.Library
