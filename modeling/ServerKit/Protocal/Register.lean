import ServerKit.Protocal.Tree

/-! # Registration

What `parse_register` writes into `inforsu`, and the answer of `lws_callback_recv`. The conversion
of a `double` to an integer type is a parameter. The deletion of the tree is not modelled here. -/

namespace ServerKit.Protocal.Register

open ServerKit.CString

/-- `rsu_info`. -/
structure RsuInfo where
  lon : Float
  lat : Float
  high : Float
  rsuTime : ℤ
  rsustate : ℤ
  gnssstate : ℤ

/-- The names of the six members. -/
def memberNames : List String := ["lat", "lon", "ele", "rsutime", "rsustatus", "gnssstatus"]

section Functions

variable (trunc : Float → ℤ)

/-- The six members with what their numbers are stored in. The time is read into a local variable
that nothing reads. -/
def members : List (String × (Float → RsuInfo → RsuInfo)) :=
  [("lat", fun d inforsu => { inforsu with lat := d }),
    ("lon", fun d inforsu => { inforsu with lon := d }),
    ("ele", fun d inforsu => { inforsu with high := d }),
    ("rsutime", fun _ inforsu => inforsu),
    ("rsustatus", fun d inforsu => { inforsu with rsustate := trunc d }),
    ("gnssstatus", fun d inforsu => { inforsu with gnssstate := trunc d })]

/-- One member after the other is looked for and stored. The first that is missing sets `ret` and
goes to `END`. -/
def storeMembers (root : Json) :
    List (String × (Float → RsuInfo → RsuInfo)) → RsuInfo → RsuInfo
  | [], inforsu => inforsu
  | (string, store) :: rest, inforsu =>
    match root.getObjectItem string with
    | none => inforsu
    | some child => storeMembers root rest (store child.valuedouble inforsu)

/-- The value that is returned, which is not `ret`, and the global record after the call. -/
def parseRegister (root : Json) (inforsu : RsuInfo) : ℤ × RsuInfo :=
  (0, storeMembers root (members trunc) inforsu)

variable (cJSONParse : List UInt8 → Option Json) (cJSONPrint : Json → List UInt8)

/-- The callback on a text, up to the messages that are no registration. It has no result where
the answer does not fit into the send buffer. -/
def lwsCallbackRecv (s : Process) (inforsu : RsuInfo) (recvbuf : List UInt8) :
    Option (RsuInfo × Process × Sent) :=
  match (cJSONParse recvbuf).bind fun root =>
      (root.getObjectItem "frametype").map fun child1 => (root, child1.valueint trunc) with
  | none => some (inforsu, s, ⟨none, none⟩)
  | some (root, frametype) =>
    if frametype = 0xB0 then
      -- the value that `parse_register` returns is not looked at
      (responseRegister cJSONPrint s).map fun out => ((parseRegister trunc root inforsu).2, out)
    else
      some (inforsu, s, ⟨none, none⟩)

/-- The number of a member, and 0 if it is missing. -/
def numberOf (root : Json) (string : String) : Float :=
  (root.getObjectItem string).elim 0 Json.valuedouble

/-- The record of a registration. -/
def registered (root : Json) : RsuInfo where
  lon := numberOf root "lon"
  lat := numberOf root "lat"
  high := numberOf root "ele"
  rsuTime := trunc (numberOf root "rsutime")
  rsustate := trunc (numberOf root "rsustatus")
  gnssstate := trunc (numberOf root "gnssstatus")

/-- All six members are found, and the record is made from them. -/
def Registers (root : Json) (inforsu : RsuInfo) : Prop :=
  root.Has memberNames ∧ parseRegister trunc root inforsu = (0, registered trunc root)

/-- An error is returned, and the record is as before. -/
def Rejects (root : Json) (inforsu : RsuInfo) : Prop :=
  ∃ ret, ret ≠ 0 ∧ parseRegister trunc root inforsu = (ret, inforsu)

/-- A registration is taken or rejected as a whole, and it is answered only if it is taken. -/
def RegistersAtomically (s : Process) (inforsu : RsuInfo) (recvbuf : List UInt8) : Prop :=
  ∀ root child1, cJSONParse recvbuf = some root → root.getObjectItem "frametype" = some child1 →
    child1.valueint trunc = 0xB0 →
    (Registers trunc root inforsu ∨ Rejects trunc root inforsu) ∧
      ∀ out, lwsCallbackRecv trunc cJSONParse cJSONPrint s inforsu recvbuf = some out →
        out.2.2.handed ≠ none → Registers trunc root inforsu

variable {trunc cJSONParse cJSONPrint}

/-- The members in front of the first missing one are stored. -/
theorem storeMembers_eq (root : Json) (stores : List (String × (Float → RsuInfo → RsuInfo)))
    (inforsu : RsuInfo) :
    storeMembers root stores inforsu =
      (stores.takeWhile fun member => (root.getObjectItem member.1).isSome).foldl
        (fun inforsu member => member.2 (numberOf root member.1) inforsu) inforsu := by
  induction stores generalizing inforsu with
  | nil => rfl
  | cons member rest ih =>
      cases hfind : root.getObjectItem member.1 with
      | none => simp [storeMembers, hfind]
      | some child => simp [storeMembers, hfind, ih, numberOf]

/-- A complete registration is stored except for its time. -/
theorem parseRegister_of_has {root : Json} (inforsu : RsuInfo) (h : root.Has memberNames) :
    parseRegister trunc root inforsu =
      (0, { registered trunc root with rsuTime := inforsu.rsuTime }) := by
  have hall : (members trunc).takeWhile (fun member => (root.getObjectItem member.1).isSome) =
      members trunc := by
    apply List.takeWhile_eq_self_iff.mpr
    intro member hmember
    have hname : member.1 ∈ memberNames := List.mem_map_of_mem (f := Prod.fst) hmember
    rcases h member.1 hname with ⟨c, hc⟩
    rw [hc]
    rfl
  rw [parseRegister, storeMembers_eq, hall]
  rfl

/-- No registration is rejected. -/
theorem not_rejects (root : Json) (inforsu : RsuInfo) : ¬ Rejects trunc root inforsu := by
  intro h
  rcases h with ⟨ret, hret, hrun⟩
  exact hret (congrArg Prod.fst hrun).symm

/-- The value is the one of the function that deletes the tree. -/
theorem parseRegister_toCJSON (root : Json) (inforsu : RsuInfo) :
    Protocal.parseRegister (root.toCJSON trunc) .live =
      .ok (parseRegister trunc root inforsu).1 .once :=
  parseRegister_live _

/-- The tree of a registration is deleted by the function that reads it. -/
theorem not_leftToCaller {root child1 : Json}
    (hchild : root.getObjectItem "frametype" = some child1)
    (hframe : child1.valueint trunc = 0xB0) : ¬ (root.toCJSON trunc).LeftToCaller := by
  intro h
  have hfind : (root.toCJSON trunc).find "frametype" = some (child1.toCJSON trunc) := by
    rw [Json.find_toCJSON, hchild, Option.map_some]
  exact (h _ hfind).1 ((Json.valueint_toCJSON child1).trans hframe)

theorem registers_iff {root : Json} {inforsu : RsuInfo} :
    Registers trunc root inforsu ↔
      root.Has memberNames ∧ inforsu.rsuTime = trunc (numberOf root "rsutime") := by
  refine and_congr_right fun hhas => ?_
  rw [parseRegister_of_has inforsu hhas]
  constructor
  · intro h
    exact congrArg (fun result => result.2.rsuTime) h
  · intro h
    rw [h]
    rfl

/-- **Registration.** A registration is handled as it should be exactly if all its members are
there and the time of the record is already the one of the registration. -/
theorem registersAtomically_iff (s : Process) (inforsu : RsuInfo) (recvbuf : List UInt8) :
    RegistersAtomically trunc cJSONParse cJSONPrint s inforsu recvbuf ↔
      ∀ root child1, cJSONParse recvbuf = some root →
        root.getObjectItem "frametype" = some child1 → child1.valueint trunc = 0xB0 →
        root.Has memberNames ∧ inforsu.rsuTime = trunc (numberOf root "rsutime") := by
  simp only [← registers_iff]
  constructor
  · intro h root child1 hroot hchild hframe
    exact (h root child1 hroot hchild hframe).1.resolve_right (not_rejects root inforsu)
  · intro h root child1 hroot hchild hframe
    have hregisters := h root child1 hroot hchild hframe
    exact ⟨Or.inl hregisters, fun _ _ _ => hregisters⟩

end Functions

/-- The message `{"frametype":176,"lat":1.5}`. -/
def halfRegistration : Json :=
  .item none .object
    [.item (some "frametype") (.number 176) [], .item (some "lat") (.number 1.5) []]

def halfRegistrationText : List UInt8 := ofString "\x7b\"frametype\":176,\"lat\":1.5\x7d"

/-- The first answer to a registration. -/
def responseText : List UInt8 :=
  ofString "\x7b\n\t\"frametype\":\t193,\n\t\"rsctl\":\t0,\n\t\"acktype\":\t1,\n" ++
    ofString "\t\"rcvstatus\":\ttrue,\n\t\"errstatus\":\t0,\n\t\"rsuid\":\t123,\n" ++
    ofString "\t\"rsuesn\":\t\"123\"\n\x7d"

/-- The record before the first registration. -/
def unregistered : RsuInfo := ⟨0, 0, 0, 0, 0, 0⟩

/-- A message with one of the members changes the record, and 0 is returned. -/
theorem half_registration_stored :
    parseRegister (fun _ => 176) halfRegistration unregistered =
        (0, { unregistered with lat := 1.5 }) ∧
      ¬ RegistersAtomically (fun _ => 176) (fun _ => some halfRegistration) (fun _ => responseText)
        connected unregistered halfRegistrationText := by
  refine ⟨rfl, ?_⟩
  intro h
  rcases (h halfRegistration _ rfl rfl rfl).1 with hregisters | hrejects
  · rcases hregisters.1 "lon" (by decide) with ⟨c, hc⟩
    cases hc
  · exact not_rejects _ _ hrejects

end ServerKit.Protocal.Register
