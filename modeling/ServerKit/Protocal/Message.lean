import ServerKit.Lib.Owned
import Mathlib.Data.Int.Notation

/-! # The messages of `Protocal_Demo/test_main.cpp`

The owned object of the code is the tree that `cJSON_Parse` returns. The parser is a parameter,
`malloc` succeeds, and the answer to a registration, which has a tree of its own, is left out. -/

namespace ServerKit.Protocal

open ServerKit.Owned

/-! ## The tree -/

/-- `cJSON`, with the items of an array or object as a list; `none` for a `NULL` string. -/
inductive CJSON where
  | item (string : Option String) (valuestring : Option (List UInt8)) (valueint : ℤ)
      (child : List CJSON)

namespace CJSON

def string : CJSON → Option String
  | .item string _ _ _ => string

def valuestring : CJSON → Option (List UInt8)
  | .item _ valuestring _ _ => valuestring

def valueint : CJSON → ℤ
  | .item _ _ valueint _ => valueint

def child : CJSON → List CJSON
  | .item _ _ _ child => child

/-- `cJSON_strcasecmp(c->string, string) == 0`. -/
def named (c : CJSON) (string : String) : Bool :=
  match c.string with
  | none => false
  | some s => s.toList.map Char.toLower == string.toList.map Char.toLower

end CJSON

def cJSONGetObjectItem (object : CJSON) (string : String) : Code (Option CJSON) := do
  read
  return object.child.find? (·.named string)

def cJSONGetArraySize (array : CJSON) : Code ℕ := do
  read
  return array.child.length

def cJSONGetArrayItem (array : CJSON) (item : ℕ) : Code (Option CJSON) := do
  read
  return array.child[item]?

def cJSONDelete : Code Unit := release

/-- `if (child == NULL) goto END`. -/
def orEnd (child : Option CJSON) : Code CJSON :=
  match child with
  | none => throw .jump
  | some c => return c

/-- `child->valueint`. -/
def valueintOf (child : Option CJSON) : Code ℤ :=
  match child with
  | none => throw .undefined
  | some c => do
    read
    return c.valueint

/-- A member that is looked for and has to be there. -/
def member (object : CJSON) (string : String) : Code CJSON := do
  orEnd (← cJSONGetObjectItem object string)

/-- The number of a member that has to be there. -/
def intMember (object : CJSON) (string : String) : Code ℤ := do
  valueintOf (some (← member object string))

/-! ## Registration -/

/-- The members of a registration are read one by one into `inforsu`, which is never read. -/
def parseRegister (root : CJSON) : Code ℤ := do
  labelled (["lat", "lon", "ele", "rsutime", "rsustatus", "gnssstatus"].forM fun string => do
    let _ ← member root string
    read) (pure ())
  cJSONDelete
  return 0

/-! ## Basic safety messages -/

structure Bsmdata where
  obuid : ℤ
  secmark : ℤ
  vehicleid : List UInt8
  lon : ℤ
  lat : ℤ
  ele : ℤ
  transmission : ℤ
  speed : ℤ
  heading : ℤ
  width : ℤ
  length : ℤ
  accelsetLon : ℤ
  accelsetLat : ℤ
  accelsetVert : ℤ
  accelsetYaw : ℤ

/-- `sizeof(Bsmdata_t)`, with `long` of eight bytes, and the place of `vehicleid` in it. -/
def sizeofBsmdata : ℕ := 88

def offsetVehicleid : ℕ := 8

/-- The copy into `bsmdata[i].vehicleid`. What does not fit into its 24 bytes is written over
the fields and records behind it, which get their values later. -/
def copyVehicleid (arraysize i : ℕ) (child2 : CJSON) : Code (List UInt8) := do
  read
  match child2.valuestring with
  | none => throw .undefined
  | some bytes =>
    if i * sizeofBsmdata + offsetVehicleid + bytes.length ≤ arraysize * sizeofBsmdata then
      return (bytes ++ List.replicate 24 0).take 24
    else throw .undefined

/-- One turn of the loop. The three members of `refpos` are used unchecked, since the source
checks `child2` again in the place of `child3`. -/
def parseBsm (array : CJSON) (arraysize i : ℕ) : Code Bsmdata := do
  let child1 ← orEnd (← cJSONGetArrayItem array i)
  let obuid ← intMember child1 "obuid"
  let vehicleid ← copyVehicleid arraysize i (← member child1 "vehicleid")
  let secmark ← intMember child1 "secmark"
  let refpos ← member child1 "refpos"
  let lat ← valueintOf (← cJSONGetObjectItem refpos "lat")
  let lon ← valueintOf (← cJSONGetObjectItem refpos "lon")
  let ele ← valueintOf (← cJSONGetObjectItem refpos "ele")
  let transmission ← intMember child1 "transmission"
  let speed ← intMember child1 "speed"
  let heading ← intMember child1 "heading"
  let size ← member child1 "size"
  let width ← intMember size "width"
  let length ← intMember size "length"
  let accelset ← member child1 "accelset"
  let accelsetLon ← intMember accelset "long"
  let accelsetLat ← intMember accelset "lat"
  let accelsetVert ← intMember accelset "vert"
  let accelsetYaw ← intMember accelset "yaw"
  return { obuid, secmark, vehicleid, lon, lat, ele, transmission, speed, heading, width, length,
           accelsetLon, accelsetLat, accelsetVert, accelsetYaw }

/-- Returns what is stored in `*bsm`; nothing is stored on the way through `END`. -/
def parseRsu2mecBsm (root : CJSON) : Code (Option (List Bsmdata)) :=
  labelled
    (do
      let array ← member root "datas"
      let arraysize ← cJSONGetArraySize array
      let bsmdata ← (List.range arraysize).mapM (parseBsm array arraysize)
      return some bsmdata)
    (do
      cJSONDelete
      return none)

/-! ## The callback -/

/-- The calls that the `frametype` leads to. -/
def handleFrame (root : CJSON) (bsm : List Bsmdata) (frametype : ℤ) : Code (List Bsmdata) := do
  if frametype = 0xB0 then
    let _ ← parseRegister root
  if frametype = 0xb1 then
    return (← parseRsu2mecBsm root).getD bsm
  return bsm

/-- Returns its value, if it returns one, and the static variable `bsm` after the call. -/
def lwsCallbackRecv (cJSONParse : List UInt8 → Option CJSON) (bsm : List Bsmdata)
    (recvbuf : List UInt8) : Code (Option ℤ × List Bsmdata) :=
  match cJSONParse recvbuf with
  | none => return (some (-1), bsm)
  | some root => do
    let bsm ← labelled
      (do
        let frametype ← intMember root "frametype"
        handleFrame root bsm frametype)
      (return bsm)
    cJSONDelete
    return (none, bsm)

end ServerKit.Protocal
