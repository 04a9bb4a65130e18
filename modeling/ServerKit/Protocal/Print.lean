import ServerKit.Protocal.Tree

/-! # The printer of `cJSON`

`cJSON_Print` writes a tree with line ends and tabs; `malloc` succeeds. What `sprintf` writes for
a `double`, and the conversion of a `double` to an `int`, are parameters. -/

namespace ServerKit.Protocal

open ServerKit.CString

/-- The conversions of a `double` that belong to the C library. -/
structure Conversions where
  /-- `(int)d` -/
  trunc : Float → ℤ
  /-- `sprintf(str, "%.0f", d)` -/
  whole : Float → List UInt8
  /-- `sprintf(str, "%e", d)` -/
  scientific : Float → List UInt8
  /-- `sprintf(str, "%f", d)` -/
  fixed : Float → List UInt8

def DBL_EPSILON : Float := 2.220446049250313e-16

/-- `print_number`. -/
def printNumber (c : Conversions) (d : Float) : List UInt8 :=
  if d == 0 then ofString "0"
  else if (Float.ofInt (c.trunc d) - d).abs ≤ DBL_EPSILON ∧ d ≤ 2147483647 ∧ d ≥ -2147483648 then
    ofString (toString (c.trunc d))
  else if (d.floor - d).abs ≤ DBL_EPSILON ∧ d.abs < 1.0e60 then c.whole d
  else if d.abs < 1.0e-6 ∨ d.abs > 1.0e9 then c.scientific d
  else c.fixed d

/-- A digit of `%04x`. -/
def hexDigit (n : UInt8) : UInt8 := if n < 10 then 48 + n else 87 + n

/-- What stands for a byte of a string. -/
def escape (token : UInt8) : List UInt8 :=
  if token = 34 ∨ token = 92 then [92, token]
  else if token = 8 then ofString "\\b"
  else if token = 12 then ofString "\\f"
  else if token = 10 then ofString "\\n"
  else if token = 13 then ofString "\\r"
  else if token = 9 then ofString "\\t"
  else if token < 32 then ofString "\\u00" ++ [hexDigit (token / 16), hexDigit (token % 16)]
  else [token]

/-- `print_string_ptr`. -/
def printString (str : List UInt8) : List UInt8 := 34 :: (text str).flatMap escape ++ [34]

def tabs (n : ℕ) : List UInt8 := List.replicate n 9

section Printing

variable (c : Conversions)

mutual

/-- `print_value` with formatting. -/
def printValue (depth : ℕ) : Json → List UInt8
  | .item _ .null _ => ofString "null"
  | .item _ (.bool false) _ => ofString "false"
  | .item _ (.bool true) _ => ofString "true"
  | .item _ (.number d) _ => printNumber c d
  | .item _ (.string s) _ => printString s
  | .item _ .array child => 91 :: printElements (depth + 1) child ++ [93]
  | .item _ .object child =>
    -- an object without members is closed one tab further to the left
    if child.isEmpty then 123 :: 10 :: tabs (depth - 1) ++ [125]
    else 123 :: 10 :: printMembers (depth + 1) child ++ tabs depth ++ [125]

/-- The elements of an array, with what separates them. -/
def printElements (depth : ℕ) : List Json → List UInt8
  | [] => []
  | child :: rest =>
    printValue depth child ++ (if rest.isEmpty then [] else ofString ", ") ++
      printElements depth rest

/-- The members of an object, each on its line. -/
def printMembers (depth : ℕ) : List Json → List UInt8
  | [] => []
  | child :: rest =>
    tabs depth ++ printString (ofString (child.name.getD "")) ++ ofString ":\t" ++
      printValue depth child ++ (if rest.isEmpty then [] else ofString ",") ++ ofString "\n" ++
      printMembers depth rest

end

def cJSONPrint (item : Json) : List UInt8 := printValue c 0 item

end Printing

end ServerKit.Protocal
