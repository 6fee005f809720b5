import Umink.Library.SqlTokens
import Umink.Umdb.Statements

/-!
# Names of user stores

The name of a store is written into the text of the statement, while its keys and values
are bound to parameters: a name that is no single identifier makes another statement.

## Implementation notes

The buffer of a text has the length that `snprintf` computes for it. What SQLite does with
a text is a parameter.
-/

namespace Umink.Umdb

open Umink.Library Sql

/-- The functions that write the name of a store into their statement. -/
inductive StoreFn where
  | init
  | set
  | get
  deriving DecidableEq, Repr

namespace StoreFn

/-- `SQL_STORAGE_INIT`, `SQL_STORAGE_SET` and `SQL_STORAGE_GET`. -/
def template : StoreFn → CStr
  | .init => .ascii "CREATE TABLE IF NOT EXISTS %s (k STRING PRIMARY KEY, v STRING)" (by decide)
  | .set => .ascii "INSERT INTO %s VALUES (?, ?) ON CONFLICT(k) DO UPDATE SET v = ?" (by decide)
  | .get => .ascii "SELECT v FROM %s WHERE k = ?" (by decide)

def fn : StoreFn → UmdbFn
  | .init => .storeInit
  | .set => .storeSet
  | .get => .storeGet

variable (f : StoreFn)

/-- The template up to its `%s`. -/
def before : List UInt8 := f.template.bytes.takeWhile (· ≠ 37)

/-- The template from its `%s` on. -/
def after : List UInt8 := f.template.bytes.drop (f.before.length + 2)

/-- The text that `snprintf` makes of the template and a name. -/
def sqlText (name : CStr) : List UInt8 := f.before ++ (name.bytes ++ f.after)

/-- A call with a name; `sql` is what SQLite does with a text. -/
def run (sql : List UInt8 → SqlCalls) (name : CStr) : Option Nat × List StmtCall :=
  f.fn.stmt.run (sql (f.sqlText name))

/-- The call returns an error before its statement is run. -/
def Refused (sql : List UInt8 → SqlCalls) (name : CStr) : Prop := .step ∉ (f.run sql name).2

/-- The text has the tokens of the template with one identifier in the place of `%s`. -/
def Intact (name : CStr) : Prop :=
  ∃ i : Token, i.IsIdent ∧
    lexer.tokens (f.sqlText name) = lexer.tokens f.before ++ i :: lexer.tokens f.after

/-- SQLite compiles the text and binds the parameters of the function. -/
def Accepted (sql : List UInt8 → SqlCalls) (name : CStr) : Prop :=
  (sql (f.sqlText name)).prepare = true ∧
    ∀ j < f.fn.stmt.binds.length, (sql (f.sqlText name)).bind (1 + j) = true

/-- The name has an identifier and the tokens of the rest of the template, and comments
the rest of the template out. -/
def Restated (name : CStr) : Prop :=
  ∃ i : Token, i.IsIdent ∧
    (lexer.scan .space (name.bytes ++ [32])).1 = i :: lexer.tokens f.after ∧
    (lexer.scan .space (name.bytes ++ [32])).2.IsComment

end StoreFn

/-- The name is one identifier, with whitespace and closed comments around it. -/
def IsIdentName (name : CStr) : Prop :=
  ∃ i : Token, i.IsIdent ∧ lexer.scan .space (name.bytes ++ [32]) = ([i], .space)

/-- Letters, digits, `_`, `$` and bytes that are not ASCII make an identifier unless they
begin with a digit or `$`. -/
theorem isIdentName_of_plain {name : CStr} {b : UInt8} {bs : List UInt8}
    (hname : name.bytes = b :: bs) (hb : isIdStart b = true)
    (hbs : ∀ c ∈ bs, isIdChar c = true) : IsIdentName name := by
  refine ⟨.word (b :: bs), trivial, ?_⟩
  rw [hname]
  exact scan_space_word hb hbs

/-- A statement is run exactly if it is compiled and all its parameters are bound. -/
theorem step_mem_run_iff (fn : StmtFn) (sql : SqlCalls) :
    .step ∈ (fn.run sql).2 ↔
      sql.prepare = true ∧ ∀ j < fn.binds.length, sql.bind (1 + j) = true := by
  have hbinds : StmtCall.step ∉ (bindAll sql 1 fn.binds).2 :=
    List.count_eq_zero.mp (bindAll_calls 1 fn.binds .step nofun)
  rw [← bindAll_eq_none_iff]
  unfold StmtFn.run
  cases hprepare : sql.prepare with
  | false => simp
  | true =>
      cases hr : (bindAll sql 1 fn.binds).1 with
      | some code => simp [hr, hbinds]
      | none =>
          cases sql.clearBindings with
          | false => simp [hr]
          | true =>
              cases sql.reset with
              | false => simp [hr]
              | true => cases sql.finalize <;> simp [hr]

namespace StoreFn

variable {f : StoreFn} {name : CStr}

theorem refused_iff (sql : List UInt8 → SqlCalls) : f.Refused sql name ↔ ¬ f.Accepted sql name :=
  (step_mem_run_iff f.fn.stmt (sql (f.sqlText name))).not

/-- Every template has a space on both sides of its `%s`, and closes no comment and no
quotation after it. -/
theorem template_shape (f : StoreFn) :
    (lexer.scan .start f.before).2 = .space ∧ f.after = 32 :: f.after.tail ∧
      Inert f.after.tail ∧ Token.illegal ∉ lexer.tokens (32 :: f.after.tail) := by
  cases f <;> decide

/-- The text keeps the tokens of the template exactly if the name is an identifier or
restates the template. -/
theorem intact_iff : f.Intact name ↔ IsIdentName name ∨ f.Restated name := by
  obtain ⟨hbefore, hafter, hinert, hlegal⟩ := template_shape f
  have hsplice : ∀ i : Token, i.IsIdent →
      (lexer.tokens (f.sqlText name) = lexer.tokens f.before ++ i :: lexer.tokens f.after ↔
        lexer.scan .space (name.bytes ++ [32]) = ([i], .space) ∨
          ((lexer.scan .space (name.bytes ++ [32])).1 = i :: lexer.tokens f.after ∧
            (lexer.scan .space (name.bytes ++ [32])).2.IsComment)) := by
    intro i hi
    rw [sqlText, hafter]
    exact tokens_splice_iff hi hbefore hinert hlegal
  constructor
  · rintro ⟨i, hi, htokens⟩
    obtain hname | hrest := (hsplice i hi).mp htokens
    · exact .inl ⟨i, hi, hname⟩
    · exact .inr ⟨i, hi, hrest⟩
  · rintro (⟨i, hi, hname⟩ | ⟨i, hi, hrest⟩)
    · exact ⟨i, hi, (hsplice i hi).mpr (.inl hname)⟩
    · exact ⟨i, hi, (hsplice i hi).mpr (.inr hrest)⟩

/-- A name of letters and digits leaves every statement as it is. -/
theorem intact_of_plain {b : UInt8} {bs : List UInt8} (hname : name.bytes = b :: bs)
    (hb : isIdStart b = true) (hbs : ∀ c ∈ bs, isIdChar c = true) : f.Intact name :=
  intact_iff.mpr (.inl (isIdentName_of_plain hname hb hbs))

/-- Every name is refused or leaves the statement of the template as it is exactly if SQLite
refuses the text, or the name is an identifier, or it restates the template. -/
theorem store_name_intact_iff (f : StoreFn) (sql : List UInt8 → SqlCalls) (name : CStr) :
    f.Refused sql name ∨ f.Intact name ↔
      ¬ f.Accepted sql name ∨ IsIdentName name ∨ f.Restated name := by
  rw [refused_iff, intact_iff]

/-- Another number of tokens is another statement. -/
theorem not_intact_of_length
    (h : (lexer.tokens (f.sqlText name)).length ≠
      (lexer.tokens f.before).length + ((lexer.tokens f.after).length + 1)) : ¬ f.Intact name := by
  rintro ⟨i, -, htokens⟩
  have hlength := congrArg List.length htokens
  rw [List.length_append, List.length_cons] at hlength
  exact h hlength

/-- A name that is a query of the user table. -/
def userQuery : CStr :=
  .ascii "(SELECT username AS k, password AS v FROM user)" (by decide)

/-- A name that makes a new store of the user table. -/
def userCopy : CStr :=
  .ascii "x AS SELECT username AS k, password AS v FROM user --" (by decide)

/-- `umdb_mngr_store_get` reads the password of a user; and `umdb_mngr_store_init`, which scripts
reach first, copies the user table into a store that they can read. -/
theorem store_get_reads_users :
    StoreFn.get.sqlText userQuery =
      (CStr.ascii "SELECT v FROM (SELECT username AS k, password AS v FROM user) WHERE k = ?"
        (by decide)).bytes ∧
    Token.word (CStr.ascii "user" (by decide)).bytes ∈
      lexer.tokens (StoreFn.get.sqlText userQuery) ∧
    ¬ (StoreFn.get.Refused (fun _ => .success) userQuery ∨ StoreFn.get.Intact userQuery) ∧
    Token.word (CStr.ascii "user" (by decide)).bytes ∈
      lexer.tokens (StoreFn.init.sqlText userCopy) ∧
    ¬ (StoreFn.init.Refused (fun _ => .success) userCopy ∨ StoreFn.init.Intact userCopy) := by
  refine ⟨by decide, by decide, ?_, by decide, ?_⟩
  · exact not_or.mpr ⟨fun hrefused => hrefused (by decide), not_intact_of_length (by decide)⟩
  · exact not_or.mpr ⟨fun hrefused => hrefused (by decide), not_intact_of_length (by decide)⟩

end StoreFn

end Umink.Umdb
