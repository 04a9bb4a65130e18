import ServerKit.CJson.Item

/-! # The parser of `cJSON`

A pointer into the text is what stands from there on in front of its zero byte. A step past the
zero byte is undefined, as the byte behind it is read next. -/

namespace ServerKit.CJson

open ServerKit.Blocks ServerKit.CString ServerKit.Json

variable {D : Type}

/-- `*ptr` -/
def deref (ptr : List UInt8) : UInt8 := ptr.headD 0

@[simp] theorem deref_cons (b : UInt8) (ptr : List UInt8) : deref (b :: ptr) = b := rfl

/-- `ptr + n` -/
def advance (ptr : List UInt8) (n : ℕ) : Option (List UInt8) :=
  if n ≤ ptr.length then some (ptr.drop n) else none

/-- What a function returns: a pointer, or `NULL` with what `ep` then is, which stays `NULL` when
only memory is missing. -/
abbrev End := Except (Option (List UInt8)) (List UInt8)

def isDigit (b : UInt8) : Bool := 48 ≤ b && b ≤ 57

/-- `skip`. -/
def skip (ptr : List UInt8) : List UInt8 := ptr.dropWhile fun b => b ≠ 0 && b ≤ 32

/-! ## Numbers -/

/-- The digits from here on, each taken by one more round of a loop. -/
def takeDigits {α : Type} (step : α → ℕ → α) (n : α) (num : List UInt8) : α × List UInt8 :=
  ((num.takeWhile isDigit).foldl (fun n b => step n (b.toNat - 48)) n, num.dropWhile isDigit)

/-- A byte that is taken if it is one of these. -/
def stepOver (p : UInt8 → Bool) (num : List UInt8) : List UInt8 :=
  if p (deref num) then num.tail else num

/-- The sign of a number and a zero behind it. -/
def skipSign (num : List UInt8) : List UInt8 := stepOver (· == 48) (stepOver (· == 45) num)

def readInteger (a : Doubles D) (num : List UInt8) : D × List UInt8 :=
  if 49 ≤ deref num ∧ deref num ≤ 57 then takeDigits a.digit a.zero num else (a.zero, num)

/-- The fractional part, with `scale`. -/
def readFraction (a : Doubles D) (n : D) (num : List UInt8) : (D × ℤ) × List UInt8 :=
  if deref num = 46 ∧ isDigit (deref num.tail) then
    takeDigits (fun r b => (a.digit r.1 b, r.2 - 1)) (n, 0) num.tail
  else ((n, 0), num)

/-- `(subscale * 10) + digit` in an `int`. -/
def Doubles.subscale (a : Doubles D) (subscale : ℤ) (digit : ℕ) : ℤ :=
  if -2 ^ 31 ≤ subscale * 10 + digit ∧ subscale * 10 + digit < 2 ^ 31 then subscale * 10 + digit
  else a.overflow (subscale * 10 + digit)

/-- `subscale * signsubscale`. -/
def readExponent (a : Doubles D) (num : List UInt8) : ℤ × List UInt8 :=
  if deref num = 101 ∨ deref num = 69 then
    let signsubscale : ℤ := if deref num.tail = 45 then -1 else 1
    let subscale := takeDigits a.subscale 0
      (stepOver (fun b => b == 43 || b == 45) num.tail)
    (subscale.1 * signsubscale, subscale.2)
  else (0, num)

/-- The number that `parse_number` reads, and the pointer behind it. -/
def readNumber (a : Doubles D) (num : List UInt8) : D × List UInt8 :=
  let integer := readInteger a (skipSign num)
  let fraction := readFraction a integer.1 integer.2
  let exponent := readExponent a fraction.2
  (a.scaled (deref num == 45) fraction.1.1 (fraction.1.2 + exponent.1), exponent.2)

/-- `parse_number`, which cannot fail. -/
def parseNumber (a : Doubles D) (item : Item D) (num : List UInt8) : Item D × List UInt8 :=
  let n := (readNumber a num).1
  (.mk { item.node with valuedouble := n, valueint := a.trunc n, kind := .number } item.child,
    (readNumber a num).2)

/-! ## Strings -/

/-- The loop of `parse_hex4`. -/
def hex4Loop : ℕ → ℕ → List UInt8 → ℕ
  | 0, h, _ => h
  | k + 1, h, str =>
    match hexDigit (deref str) with
    | none => 0
    | some d => hex4Loop k (h * 16 + d) str.tail

/-- `parse_hex4`. -/
def parseHex4 (str : List UInt8) : ℕ := hex4Loop 4 0 str

/-- The first loop of `parse_string`, which counts the bytes to allocate. -/
def lengthLoop : ℕ → List UInt8 → Option ℕ
  | len, [] => some len
  | len, b :: ptr =>
    if b = 34 ∨ b = 0 then some len
    else if b = 92 then
      match ptr with
      | [] => none
      | _ :: ptr => lengthLoop (len + 1) ptr
    else lengthLoop (len + 1) ptr

def firstByteMark (len : ℕ) : ℕ := [0x00, 0x00, 0xC0, 0xE0, 0xF0, 0xF8, 0xFC].getD len 0

/-- The bytes of a code point, the last one first. -/
def utf8Loop (len : ℕ) : ℕ → ℕ → List UInt8 → List UInt8
  | 0, _, out => out
  | 1, uc, out => .ofNat (uc ||| firstByteMark len) :: out
  | k + 2, uc, out => utf8Loop len (k + 1) (uc >>> 6) (.ofNat ((uc ||| 0x80) &&& 0xBF) :: out)

def utf8Length (uc : ℕ) : ℕ :=
  if uc < 0x80 then 1 else if uc < 0x800 then 2 else if uc < 0x10000 then 3 else 4

/-- The case `'u'` of `parse_string`, with `ptr` at the `u`: the bytes to store, and the pointer
to the last byte that is used up. -/
def unescapeUnit (ptr : List UInt8) : Option (List UInt8 × List UInt8) :=
  let uc := parseHex4 ptr.tail
  (advance ptr 4).bind fun ptr =>
    if 0xDC00 ≤ uc ∧ uc ≤ 0xDFFF ∨ uc = 0 then some ([], ptr)
    else if 0xD800 ≤ uc ∧ uc ≤ 0xDBFF then
      if deref ptr.tail ≠ 92 ∨ deref (ptr.drop 2) ≠ 117 then some ([], ptr)
      else
        let uc2 := parseHex4 (ptr.drop 3)
        (advance ptr 6).bind fun ptr =>
          if uc2 < 0xDC00 ∨ 0xDFFF < uc2 then some ([], ptr)
          else
            let uc := 0x10000 + (((uc &&& 0x3FF) <<< 10) ||| (uc2 &&& 0x3FF))
            some (utf8Loop (utf8Length uc) (utf8Length uc) uc [], ptr)
    else some (utf8Loop (utf8Length uc) (utf8Length uc) uc [], ptr)

/-- The `switch` of `parse_string`. -/
def unescape (ptr : List UInt8) : Option (List UInt8 × List UInt8) :=
  if deref ptr = 98 then some ([8], ptr)
  else if deref ptr = 102 then some ([12], ptr)
  else if deref ptr = 110 then some ([10], ptr)
  else if deref ptr = 114 then some ([13], ptr)
  else if deref ptr = 116 then some ([9], ptr)
  else if deref ptr = 117 then unescapeUnit ptr
  else some ([deref ptr], ptr)

/-- The second loop of `parse_string`, with what is stored in `out` so far. -/
def copyLoop : ℕ → List UInt8 → List UInt8 → Option (List UInt8 × List UInt8)
  | 0, _, _ => none
  | fuel + 1, out, ptr =>
    if deref ptr = 34 ∨ deref ptr = 0 then some (out, ptr)
    else if deref ptr ≠ 92 then copyLoop fuel (out ++ [deref ptr]) ptr.tail
    else
      (unescape ptr.tail).bind fun r =>
        (advance r.2 1).bind fun ptr => copyLoop fuel (out ++ r.1) ptr

section Parser

variable (succeeds : ℕ → Bool) (a : Doubles D)

/-- `parse_string`. What is stored must have room in the `len + 1` bytes of `out`. -/
def parseString (item : Item D) (str : List UInt8) : Prog (Item D × End) :=
  if deref str ≠ 34 then return (item, .error (some str))
  else do
    let len ← compute (lengthLoop 0 str.tail)
    match ← malloc succeeds with
    | none => return (item, .error none)
    | some out =>
      let (bytes, ptr) ← compute (copyLoop (str.length + 1) [] str.tail)
      if bytes.length ≤ len then
        return (.mk { item.node with valuestring := some ⟨out, bytes⟩, kind := .string } item.child,
          .ok (if deref ptr = 34 then ptr.tail else ptr))
      else undefined

section Recursion

variable (parseValue : Item D → List UInt8 → Prog (Item D × End))

/-- The elements of an array from `child` on, whose text starts at `value`. -/
def arrayLoop : ℕ → Item D → List UInt8 → Prog (List (Item D) × End)
  | 0, _, _ => undefined
  | fuel + 1, child, value => do
    match ← parseValue child (skip value) with
    | (child, .error ep) => return ([child], .error ep)
    | (child, .ok value) =>
      if deref (skip value) = 44 then
        match ← cJSONNewItem succeeds a.zero with
        | none => return ([child], .error none)
        | some newItem => do
          let (rest, r) ← arrayLoop fuel newItem (skip value).tail
          return (child :: rest, r)
      else if deref (skip value) = 93 then return ([child], .ok (skip value).tail)
      else return ([child], .error (some (skip value)))

/-- `parse_array`. -/
def parseArray (fuel : ℕ) (item : Item D) (value : List UInt8) : Prog (Item D × End) :=
  if deref value ≠ 91 then return (item, .error (some value))
  else
    let node := { item.node with kind := .array }
    if deref (skip value.tail) = 93 then return (.mk node item.child, .ok (skip value.tail).tail)
    else do
      match ← cJSONNewItem succeeds a.zero with
      | none => return (.mk node [], .error none)
      | some child => do
        let (child, r) ← arrayLoop succeeds a parseValue fuel child (skip value.tail)
        return (.mk node child, r)

/-- The name that `parse_string` has left in `valuestring`. -/
def takeName (child : Item D) : Item D :=
  .mk { child.node with string := child.node.valuestring, valuestring := none } child.child

/-- The members of an object from `child` on, whose text starts at `value`. -/
def objectLoop : ℕ → Item D → List UInt8 → Prog (List (Item D) × End)
  | 0, _, _ => undefined
  | fuel + 1, child, value => do
    match ← parseString succeeds child (skip value) with
    | (child, .error ep) => return ([child], .error ep)
    | (child, .ok value) =>
      if deref (skip value) ≠ 58 then return ([takeName child], .error (some (skip value)))
      else do
        match ← parseValue (takeName child) (skip (skip value).tail) with
        | (child, .error ep) => return ([child], .error ep)
        | (child, .ok value) =>
          if deref (skip value) = 44 then
            match ← cJSONNewItem succeeds a.zero with
            | none => return ([child], .error none)
            | some newItem => do
              let (rest, r) ← objectLoop fuel newItem (skip value).tail
              return (child :: rest, r)
          else if deref (skip value) = 125 then return ([child], .ok (skip value).tail)
          else return ([child], .error (some (skip value)))

/-- `parse_object`. -/
def parseObject (fuel : ℕ) (item : Item D) (value : List UInt8) : Prog (Item D × End) :=
  if deref value ≠ 123 then return (item, .error (some value))
  else
    let node := { item.node with kind := .object }
    if deref (skip value.tail) = 125 then return (.mk node item.child, .ok (skip value.tail).tail)
    else do
      match ← cJSONNewItem succeeds a.zero with
      | none => return (.mk node [], .error none)
      | some child => do
        let (child, r) ← objectLoop succeeds a parseValue fuel child (skip value.tail)
        return (.mk node child, r)

end Recursion

/-- `parse_value`, down to a depth of `fuel`. -/
def parseValue : ℕ → Item D → List UInt8 → Prog (Item D × End)
  | 0, _, _ => undefined
  | fuel + 1, item, value =>
    if value.take 4 = ofString "null" then
      return (.mk { item.node with kind := .null } item.child, .ok (value.drop 4))
    else if value.take 5 = ofString "false" then
      return (.mk { item.node with kind := .false } item.child, .ok (value.drop 5))
    else if value.take 4 = ofString "true" then
      return (.mk { item.node with kind := .true, valueint := 1 } item.child, .ok (value.drop 4))
    else if deref value = 34 then parseString succeeds item value
    else if deref value = 45 ∨ isDigit (deref value) then
      return ((parseNumber a item value).1, .ok (parseNumber a item value).2)
    else if deref value = 91 then parseArray succeeds a (parseValue fuel) fuel item value
    else if deref value = 123 then parseObject succeeds a (parseValue fuel) fuel item value
    else return (item, .error (some value))

/-- `cJSON_ParseWithOpts`: the item with the end of what was parsed, or what `ep` is. -/
def cJSONParseWithOpts (value : List UInt8) (requireNullTerminated : Bool) :
    Prog (Except (Option (List UInt8)) (Item D × List UInt8)) := do
  match ← cJSONNewItem succeeds a.zero with
  | none => return .error none
  | some c =>
    match ← parseValue succeeds a (value.length + 1) c (skip value) with
    | (c, .error ep) => do
      cJSONDelete [c]
      return .error ep
    | (c, .ok e) =>
      if requireNullTerminated && deref (skip e) ≠ 0 then do
        cJSONDelete [c]
        return .error (some (skip e))
      else return .ok (c, if requireNullTerminated then skip e else e)

/-- `cJSON_Parse` on a memory area. -/
def cJSONParse (value : List UInt8) : Prog (Option (Item D)) := do
  let value ← compute (cstr value)
  match ← cJSONParseWithOpts succeeds a value false with
  | .error _ => return none
  | .ok (c, _) => return some c

end Parser

end ServerKit.CJson
