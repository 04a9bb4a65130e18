import ServerKit.Protocal.Ownership
import ServerKit.Protocal.Send

/-! # What is read from a tree and taken out of it

The trees are those of the printer, whose items have their numbers as `double`s. -/

namespace ServerKit.Protocal.Json

def name : Json → Option String
  | .item string _ _ => string

def value : Json → Value
  | .item _ value _ => value

def child : Json → List Json
  | .item _ _ child => child

/-- `cJSON_strcasecmp(c->string, string) == 0`. -/
def named (c : Json) (string : String) : Bool := (CJSON.item c.name none 0 []).named string

/-- `cJSON_GetObjectItem`. -/
def getObjectItem (object : Json) (string : String) : Option Json :=
  object.child.find? (·.named string)

/-- `valuedouble`, which is 0 for an item that is no number. -/
def valuedouble (c : Json) : Float :=
  match c.value with
  | .number d => d
  | _ => 0

/-- `valueint`; the parser sets it for `true`, too. -/
def valueint (trunc : Float → ℤ) (c : Json) : ℤ :=
  match c.value with
  | .number d => trunc d
  | .bool true => 1
  | _ => 0

/-- `cJSON_DetachItemFromObject`: the item that is taken out, and the object without it. -/
def detachItemFromObject (object : Json) (string : String) : Option Json × Json :=
  (object.getObjectItem string,
    .item object.name object.value (object.child.eraseP (·.named string)))

/-- All these members are there. -/
def Has (object : Json) (strings : List String) : Prop :=
  ∀ string ∈ strings, ∃ c, object.getObjectItem string = some c

@[simp] theorem named_self (string : String) (value : Value) (child : List Json) :
    (Json.item (some string) value child).named string = true :=
  beq_self_eq_true (string.toList.map Char.toLower)

/-- An item that was added under a name is taken out again if no other has this name. -/
theorem detach_addItemToObject {object : Json} {string : String} (item : Json)
    (h : object.getObjectItem string = none) :
    (addItemToObject object string item).detachItemFromObject string =
      (some (.item (some string) item.value item.child), object) := by
  cases object with
  | item name value child =>
      cases item with
      | item _ value' child' =>
          let new : Json := .item (some string) value' child'
          have hnew : new.named string = true := named_self string value' child'
          have hnone : child.find? (·.named string) = none := h
          have hfind : (child ++ [new]).find? (·.named string) = some new := by
            rw [List.find?_append, hnone, Option.none_or, List.find?_singleton, if_pos hnew]
          have herase : (child ++ [new]).eraseP (·.named string) = child := by
            rw [List.eraseP_append_right _ (List.find?_eq_none.mp hnone)]
            simp [hnew]
          exact Prod.ext hfind (congrArg (Json.item name value) herase)

/-! ## The tree of the parsers -/

/-- `valuestring`. -/
def valuestring (c : Json) : Option (List UInt8) :=
  match c.value with
  | .string s => some s
  | _ => none

section Conversion

variable (trunc : Float → ℤ)

mutual

/-- What the functions that parse a message see of a tree. -/
def toCJSON : Json → CJSON
  | .item string value child =>
    .item string (valuestring (.item string value [])) (valueint trunc (.item string value []))
      (toCJSONs child)

def toCJSONs : List Json → List CJSON
  | [] => []
  | c :: rest => toCJSON c :: toCJSONs rest

end

variable {trunc}

theorem toCJSONs_eq_map (child : List Json) :
    toCJSONs trunc child = child.map (toCJSON trunc) := by
  induction child with
  | nil => rfl
  | cons c rest ih => rw [toCJSONs, ih, List.map_cons]

theorem named_toCJSON (c : Json) (string : String) :
    (c.toCJSON trunc).named string = c.named string := by
  cases c
  rw [toCJSON]
  rfl

theorem valueint_toCJSON (c : Json) : (c.toCJSON trunc).valueint = c.valueint trunc := by
  cases c
  rw [toCJSON]
  rfl

/-- The same members are found. -/
theorem find_toCJSON (object : Json) (string : String) :
    (object.toCJSON trunc).find string =
      (object.getObjectItem string).map (toCJSON trunc) := by
  cases object with
  | item name value child =>
      have hnamed : (fun c : CJSON => c.named string) ∘ toCJSON trunc = (·.named string) :=
        funext fun c => named_toCJSON c string
      rw [toCJSON, toCJSONs_eq_map]
      show (child.map (toCJSON trunc)).find? (·.named string) = _
      rw [List.find?_map, hnamed]
      rfl

end Conversion

end ServerKit.Protocal.Json
