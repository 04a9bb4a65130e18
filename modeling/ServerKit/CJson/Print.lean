import ServerKit.CJson.Render
import ServerKit.CJson.Value

/-! # The printer of `cJSON`

Every text is put together in a block of its own, whose length is computed beforehand. -/

namespace ServerKit.CJson

open ServerKit.Blocks ServerKit.CString ServerKit.Json ServerKit.Protocal

/-- A text, and the bytes that are asked for to write it and a zero byte. -/
structure Output where
  size : ℕ
  bytes : List UInt8

variable {D : Type}

section Outputs

variable (a : Doubles D)

def literalOutput (s : String) : Output := ⟨(ofString s).length + 1, ofString s⟩

/-- What `print_number` writes. -/
def numberOutput (n : ℤ × D) : Output := ⟨numberSize a n, numberText a n⟩

/-- The bytes that have to be escaped. -/
def isSpecial (token : UInt8) : Bool := token < 32 || token == 34 || token == 92

/-- The bytes that are counted for one byte of a string. -/
def tokenLength (token : UInt8) : ℕ :=
  if token ∈ [34, 92, 8, 12, 10, 13, 9] then 2 else if token < 32 then 6 else 1

/-- What `print_string_ptr` writes. -/
def stringOutput (str : List UInt8) : Output :=
  if str.any isSpecial then ⟨(str.map tokenLength).sum + 3, 34 :: (str.flatMap escape ++ [34])⟩
  else ⟨str.length + 3, 34 :: (str ++ [34])⟩

def emptyArrayOutput : Output := ⟨3, ofString "[]"⟩

def emptyObjectOutput (fmt : Bool) (depth : ℕ) : Output :=
  ⟨if fmt then depth + 4 else 3, 123 :: (pad fmt (10 :: tabs (depth - 1)) ++ [125])⟩

/-- The entries of an array, with what separates them. -/
def joinEntries (fmt : Bool) : List (List UInt8) → List UInt8
  | [] => []
  | s :: rest => s ++ (if rest.isEmpty then [] else 44 :: pad fmt [32]) ++ joinEntries fmt rest

/-- What `print_array` puts together from the texts of the entries. -/
def arrayOutput (fmt : Bool) (entries : List (List UInt8)) : Output :=
  ⟨5 + (entries.map fun ret => ret.length + 2 + if fmt then 1 else 0).sum,
    91 :: (joinEntries fmt entries ++ [93])⟩

/-- The names and entries of an object, each pair on its line. -/
def joinMembers (fmt : Bool) (depth : ℕ) : List (List UInt8 × List UInt8) → List UInt8
  | [] => []
  | (name, s) :: rest =>
    pad fmt (tabs depth) ++ name ++ 58 :: pad fmt [9] ++ s ++
      (if rest.isEmpty then [] else [44]) ++ pad fmt [10] ++ joinMembers fmt depth rest

/-- What `print_object` puts together; its members stand at this depth. -/
def objectOutput (fmt : Bool) (depth : ℕ) (members : List (List UInt8 × List UInt8)) : Output :=
  ⟨7 + (if fmt then depth else 0) +
      (members.map fun m => m.2.length + m.1.length + 2 + if fmt then 2 + depth else 0).sum,
    123 :: (pad fmt [10] ++ joinMembers fmt depth members ++ pad fmt (tabs (depth - 1)) ++ [125])⟩

end Outputs

section Printer

variable (succeeds : ℕ → Bool) (a : Doubles D) (fmt : Bool)

/-- The text in a block of its own, in which it must fit. -/
def emit (o : Output) : Prog (Option Str) := do
  match ← malloc succeeds with
  | none => return none
  | some out => if o.bytes.length < o.size then return some ⟨out, o.bytes⟩ else undefined

/-- `print_string_ptr`. A string that is `NULL` is read all the same. -/
def printStringPtr : Option Str → Prog (Option Str)
  | none => undefined
  | some s => emit succeeds (stringOutput (text s.bytes))

def freeStrs : List Str → Prog Unit
  | [] => return ()
  | s :: rest => do
    free s.block
    freeStrs rest

/-- `if (!fail) out = malloc(len);` -/
def mallocIf (ok : Bool) : Prog (Option ℕ) := if ok then malloc succeeds else pure none

/-- The end of `print_array`: the entries are put together, and freed. -/
def finishArray (entries : ℕ) (strs : List Str) (fail : Bool) : Prog (Option Str) := do
  let o := arrayOutput fmt (strs.map fun s => text s.bytes)
  let out ← mallocIf succeeds (!fail)
  freeStrs strs
  free entries
  match out with
  | none => return none
  | some out => if o.bytes.length < o.size then return some ⟨out, o.bytes⟩ else undefined

/-- The names and entries of an object, if none of them is missing. -/
def gather : List (Option Str × Option Str) → Option (List (Str × Str))
  | [] => some []
  | (str, ret) :: rest => str.bind fun str => ret.bind fun ret =>
      (gather rest).map ((str, ret) :: ·)

def freePairs : List (Option Str × Option Str) → Prog Unit
  | [] => return ()
  | (str, ret) :: rest => do
    freeStr str
    freeStr ret
    freePairs rest

/-- The end of `print_object`. -/
def finishObject (depth entries names : ℕ) (strs : List (Option Str × Option Str)) :
    Prog (Option Str) := do
  let o := (gather strs).map fun members =>
    objectOutput fmt depth (members.map fun m => (text m.1.bytes, text m.2.bytes))
  let out ← mallocIf succeeds o.isSome
  freePairs strs
  free names
  free entries
  match out, o with
  | some out, some o =>
    if o.bytes.length < o.size then return some ⟨out, o.bytes⟩ else undefined
  | _, _ => return none

mutual

/-- `print_value` without a buffer. -/
def printValue (depth : ℕ) : Item D → Prog (Option Str)
  | .mk node child =>
    match node.kind with
    | .null => emit succeeds (literalOutput "null")
    | .false => emit succeeds (literalOutput "false")
    | .true => emit succeeds (literalOutput "true")
    | .number => emit succeeds (numberOutput a (node.valueint, node.valuedouble))
    | .string => printStringPtr succeeds node.valuestring
    | .array =>
      if child.isEmpty then emit succeeds emptyArrayOutput
      else do
        match ← malloc succeeds with
        | none => return none
        | some entries => do
          let (strs, fail) ← printEntries (depth + 1) child
          finishArray succeeds fmt entries strs fail
    | .object =>
      if child.isEmpty then emit succeeds (emptyObjectOutput fmt depth)
      else do
        match ← malloc succeeds with
        | none => return none
        | some entries => do
          match ← malloc succeeds with
          | none => do
            free entries
            return none
          | some names => do
            let strs ← printMembers (depth + 1) child
            finishObject succeeds fmt (depth + 1) entries names strs

/-- The entries of an array, up to the first that fails. -/
def printEntries (depth : ℕ) : List (Item D) → Prog (List Str × Bool)
  | [] => return ([], false)
  | c :: next => do
    match ← printValue depth c with
    | none => return ([], true)
    | some ret => do
      let (rest, fail) ← printEntries depth next
      return (ret :: rest, fail)

/-- The names and entries of an object, also those behind one that fails. -/
def printMembers (depth : ℕ) : List (Item D) → Prog (List (Option Str × Option Str))
  | [] => return []
  | c :: next => do
    let str ← printStringPtr succeeds c.node.string
    let ret ← printValue depth c
    let rest ← printMembers depth next
    return (str, ret) :: rest

end

/-- `cJSON_Print` and `cJSON_PrintUnformatted`. -/
def cJSONPrint (item : Item D) : Prog (Option Str) := printValue succeeds a true 0 item

def cJSONPrintUnformatted (item : Item D) : Prog (Option Str) := printValue succeeds a false 0 item

end Printer

end ServerKit.CJson
