import Umink.Library.CTypes
import Umink.Library.Json

/-!
# The json-c library

The functions of json-c that convert between texts, values and C types. What
depends on the library alone, its parser and its reading of strings and doubles
as integers, is a parameter. The null value stands for a null pointer.
-/

namespace Umink.Library

structure JsonC where
  /-- `json_tokener_parse`; null for a text it rejects. -/
  tokenerParse : String → Json
  /-- The integer that `json_object_get_int` makes of a string or a double. -/
  coerceInt : Json → Int
  /-- `json_object_get_string` of a value that is no string. -/
  valueText : Json → String

namespace JsonC

variable (c : JsonC)

/-- `json_object_get_int`. -/
def getInt : Json → Int
  | .int n => clampInt32 n
  | .bool b => if b then 1 else 0
  | .null | .arr _ | .obj _ => 0
  | j => clampInt32 (c.coerceInt j)

/-- `json_object_get_string`. -/
def getString : Json → String
  | .str s => cText s
  | j => cText (c.valueText j)

end JsonC

end Umink.Library
