import ServerKit.CJson.Print

/-! # The printer with a buffer

`cJSON_PrintBuffered` writes everything into one block, which is replaced by a larger one when it
is full. What a new block holds is not known. -/

namespace ServerKit.CJson

open ServerKit.Blocks ServerKit.CString ServerKit.Memory ServerKit.Json ServerKit.Protocal

/-- `pow2gt`. The sizes, in the source of type `int`, are natural numbers here and in what
follows. -/
def pow2gt (x : ℕ) : ℕ :=
  let x := x - 1
  let x := x ||| (x >>> 1)
  let x := x ||| (x >>> 2)
  let x := x ||| (x >>> 4)
  let x := x ||| (x >>> 8)
  let x := x ||| (x >>> 16)
  x + 1

/-- `printbuffer`, with the `length` bytes of the buffer. -/
structure PrintBuffer where
  buffer : Option ℕ
  area : List UInt8
  offset : ℕ

variable {D : Type}

section Printer

variable (succeeds : ℕ → Bool) (junk : ℕ → ℕ → UInt8)

/-- What stands in a new block. -/
def uninitialized (b n : ℕ) : List UInt8 := (List.range n).map (junk b)

/-- `ensure`, and whether it returns a pointer. Unlike an `int`, a size has no bound here. -/
def ensure (needed : ℕ) (p : PrintBuffer) : Prog (Bool × PrintBuffer) :=
  match p.buffer with
  | none => return (false, p)
  | some buffer =>
    if needed + p.offset ≤ p.area.length then return (true, p)
    else do
      let newsize := pow2gt (needed + p.offset)
      match ← malloc succeeds with
      | none => do
        free buffer
        return (false, { p with buffer := none, area := [] })
      | some newbuffer => do
        let area ← compute
          (memcpy (uninitialized junk newbuffer newsize) 0 p.area 0 p.area.length)
        free buffer
        return (true, { p with buffer := some newbuffer, area := area })

/-- `update`, and the offset is set to what it returns. -/
def update (p : PrintBuffer) : Prog PrintBuffer :=
  match p.buffer with
  | none => return { p with offset := 0 }
  | some _ => do
    let len ← compute (strlen (p.area.drop p.offset))
    return { p with offset := p.offset + len }

/-- `ensure`, and behind it what is written at `ptr` and added to the offset. -/
def put (needed : ℕ) (bytes : List UInt8) (len : ℕ) (p : PrintBuffer) :
    Prog (Bool × PrintBuffer) := do
  let (ok, p) ← ensure succeeds junk needed p
  if ok then do
    let area ← compute (store p.area p.offset bytes)
    return (true, { p with area := area, offset := p.offset + len })
  else return (false, p)

/-- `if (!ptr) return 0;` -/
def ifOk (f : PrintBuffer → Prog (Bool × PrintBuffer)) (r : Bool × PrintBuffer) :
    Prog (Bool × PrintBuffer) := if r.1 then f r.2 else return (false, r.2)

/-- The text in the buffer, with a zero byte behind it. -/
def emitBuffered (o : Output) (p : PrintBuffer) : Prog (Bool × PrintBuffer) :=
  put succeeds junk o.size (o.bytes ++ [0]) 0 p

/-- `print_string_ptr` with a buffer. -/
def printStringBuffered : Option Str → PrintBuffer → Prog (Bool × PrintBuffer)
  | none, _ => undefined
  | some s, p => emitBuffered succeeds junk (stringOutput (text s.bytes)) p

variable (a : Doubles D) (fmt : Bool)

mutual

/-- `print_value` with a buffer, and whether it returns a pointer, to what was the end before. -/
def printValueBuffered (depth : ℕ) : Item D → PrintBuffer → Prog (Bool × PrintBuffer)
  | .mk node child, p =>
    match node.kind with
    | .null => emitBuffered succeeds junk (literalOutput "null") p
    | .false => emitBuffered succeeds junk (literalOutput "false") p
    | .true => emitBuffered succeeds junk (literalOutput "true") p
    | .number => emitBuffered succeeds junk (numberOutput a (node.valueint, node.valuedouble)) p
    | .string => printStringBuffered succeeds junk node.valuestring p
    | .array =>
      if child.isEmpty then emitBuffered succeeds junk emptyArrayOutput p
      else
        put succeeds junk 1 [91] 1 p >>= ifOk (printEntriesBuffered (depth + 1) child) >>=
          ifOk (put succeeds junk 2 [93, 0] 0)
    | .object =>
      if child.isEmpty then emitBuffered succeeds junk (emptyObjectOutput fmt depth) p
      else
        let s := 123 :: pad fmt [10]
        put succeeds junk (s.length + 1) (s ++ [0]) s.length p >>=
          ifOk (printMembersBuffered (depth + 1) child) >>=
          ifOk (put succeeds junk (if fmt then depth + 2 else 2)
            (pad fmt (tabs depth) ++ [125, 0]) 0)

/-- The loop of `print_array`. -/
def printEntriesBuffered (depth : ℕ) : List (Item D) → PrintBuffer → Prog (Bool × PrintBuffer)
  | [], p => return (true, p)
  | c :: next, p => do
    let (_, p) ← printValueBuffered depth c p
    let p ← update p
    if next.isEmpty then return (true, p)
    else
      let s := 44 :: pad fmt [32]
      put succeeds junk (s.length + 1) (s ++ [0]) s.length p >>=
        ifOk (printEntriesBuffered depth next)

/-- The loop of `print_object`. -/
def printMembersBuffered (depth : ℕ) : List (Item D) → PrintBuffer → Prog (Bool × PrintBuffer)
  | [], p => return (true, p)
  | c :: next, p =>
    (if fmt then put succeeds junk depth (tabs depth) depth p else return (true, p)) >>=
      ifOk fun p => do
        let (_, p) ← printStringBuffered succeeds junk c.node.string p
        let p ← update p
        let s := 58 :: pad fmt [9]
        put succeeds junk s.length s s.length p >>= ifOk fun p => do
          let (_, p) ← printValueBuffered depth c p
          let p ← update p
          let s := (if next.isEmpty then [] else [44]) ++ pad fmt [10]
          put succeeds junk (s.length + 1) (s ++ [0]) s.length p >>=
            ifOk (printMembersBuffered depth next)

end

/-- `cJSON_PrintBuffered`. -/
def cJSONPrintBuffered (item : Item D) (prebuffer : ℕ) : Prog (Option Str) := do
  let buffer ← malloc succeeds
  let area := (buffer.map fun b => uninitialized junk b prebuffer).getD []
  let (ok, p) ← printValueBuffered succeeds junk a fmt 0 item ⟨buffer, area, 0⟩
  match ok, p.buffer with
  | true, some b => do
    let s ← compute (cstr p.area)
    return some ⟨b, s⟩
  | _, _ => return none

end Printer

end ServerKit.CJson
