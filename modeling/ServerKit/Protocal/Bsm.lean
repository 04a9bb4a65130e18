import ServerKit.Protocal.Ownership

/-! # Basic safety messages, all or nothing

`parse_rsu2mec_bsm` with the end of `vehicleid` checked, and with the value that it returns. The
way through `END` stores nothing, and it returns no value at all. -/

namespace ServerKit.Protocal

open ServerKit.Owned

/-- The copy into `bsmdata[i].vehicleid` is undefined where it leaves the 24 bytes. -/
def checkVehicleid (child2 : CJSON) : Code Unit := do
  read
  match child2.valuestring with
  | none => throw .undefined
  | some bytes => if bytes.length ≤ 24 then return else throw .undefined

/-- One turn of the loop. The reads up to the copy are made twice, the first time for the
check. -/
def checkedBsm (array : CJSON) (arraysize i : ℕ) : Code Bsmdata := do
  let child1 ← orEnd (← cJSONGetArrayItem array i)
  let _ ← intMember child1 "obuid"
  checkVehicleid (← member child1 "vehicleid")
  parseBsm array arraysize i

/-- The value that is returned, if one is, and `*bsm` after the call. -/
def checkedRsu2mecBsm (root : CJSON) (bsm : List Bsmdata) : Code (Option ℤ × List Bsmdata) :=
  labelled
    (do
      let array ← member root "datas"
      let arraysize ← cJSONGetArraySize array
      let bsmdata ← (List.range arraysize).mapM (checkedBsm array arraysize)
      return (some 0, bsmdata))
    (do
      cJSONDelete
      return (none, bsm))

/-- All members of a basic safety message are there. -/
structure CJSON.HasBsm (element : CJSON) : Prop where
  members : element.Has ["obuid", "vehicleid", "secmark", "refpos", "transmission", "speed",
    "heading", "size", "accelset"]
  refpos : ∀ c, element.find "refpos" = some c → c.Has ["lat", "lon", "ele"]
  size : ∀ c, element.find "size" = some c → c.Has ["width", "length"]
  accelset : ∀ c, element.find "accelset" = some c → c.Has ["long", "lat", "vert", "yaw"]

/-- The member `vehicleid` is a string of at most 24 bytes. -/
def CJSON.VehicleidFits (element : CJSON) : Prop :=
  ∀ c, element.find "vehicleid" = some c → ∃ bytes, c.valuestring = some bytes ∧ bytes.length ≤ 24

/-- Every element of `datas` has all required members. -/
def CJSON.HasRecords (root : CJSON) : Prop :=
  ∃ datas, root.find "datas" = some datas ∧ ∀ element ∈ datas.child, element.HasBsm

/-- The parser returns, it returns 0 exactly for the complete messages, which then are all
stored, and it returns another value for the other messages, of which nothing is stored. -/
def AllOrNothing (root : CJSON) (bsm : List Bsmdata) : Prop :=
  ∃ ret bsm' o, checkedRsu2mecBsm root bsm .live = .ok (ret, bsm') o ∧
    (ret = some 0 ↔ root.HasRecords) ∧
    (root.HasRecords →
      ∀ datas, root.find "datas" = some datas → bsm' = datas.child.map CJSON.bsmdata) ∧
    (¬ root.HasRecords → (∃ n, ret = some n ∧ n ≠ 0) ∧ bsm' = bsm)

section Elements

variable {element array : CJSON} {m i : ℕ}

/-- What the code asks for, where `vehicleid` fits. -/
theorem CJSON.HasBsm.complete (h : element.HasBsm) (hfits : element.VehicleidFits) (hi : i < m) :
    element.Complete m i := by
  rcases h.members "vehicleid" (by simp) with ⟨vehicleid, hvehicleid⟩
  rcases hfits vehicleid hvehicleid with ⟨bytes, hbytes, hlength⟩
  rcases h.members "refpos" (by simp) with ⟨refpos, hrefpos⟩
  rcases h.members "size" (by simp) with ⟨size, hsize⟩
  rcases h.members "accelset" (by simp) with ⟨accelset, haccelset⟩
  refine ⟨?_, ⟨vehicleid, bytes, hvehicleid, hbytes, ?_⟩, ⟨refpos, hrefpos, h.refpos _ hrefpos⟩,
    ⟨size, hsize, h.size _ hsize⟩, ⟨accelset, haccelset, h.accelset _ haccelset⟩⟩
  · intro string hstring
    apply h.members
    simp only [List.mem_cons, List.not_mem_nil, or_false] at hstring ⊢
    tauto
  · simp only [sizeofBsmdata, offsetVehicleid]
    omega

theorem CJSON.Complete.hasBsm (h : element.Complete m i) : element.HasBsm := by
  rcases h.vehicleid with ⟨vehicleid, _, hvehicleid, -⟩
  rcases h.refpos with ⟨refpos, hrefpos, hpos⟩
  rcases h.size with ⟨size, hsize, hlengths⟩
  rcases h.accelset with ⟨accelset, haccelset, haxes⟩
  refine ⟨?_, ?_, ?_, ?_⟩
  · have hnumbers := h.numbers
    simp only [CJSON.Has, List.forall_mem_cons, List.not_mem_nil, false_imp_iff, implies_true,
      and_true] at hnumbers ⊢
    exact ⟨hnumbers.1, ⟨_, hvehicleid⟩, hnumbers.2.1, ⟨_, hrefpos⟩, hnumbers.2.2.1,
      hnumbers.2.2.2.1, hnumbers.2.2.2.2, ⟨_, hsize⟩, ⟨_, haccelset⟩⟩
  · intro c hc
    rw [hrefpos] at hc
    cases hc
    exact hpos
  · intro c hc
    rw [hsize] at hc
    cases hc
    exact hlengths
  · intro c hc
    rw [haccelset] at hc
    cases hc
    exact haxes

theorem checkVehicleid_cases (c : CJSON) :
    Yields (checkVehicleid c) () ∨ Fails (checkVehicleid c) .undefined := by
  unfold checkVehicleid
  cases c.valuestring with
  | none => exact Or.inr rfl
  | some bytes =>
      by_cases hfits : bytes.length ≤ 24
      · simp only [if_pos hfits]
        exact Or.inl rfl
      · simp only [if_neg hfits]
        exact Or.inr rfl

@[simp] theorem reads_checkVehicleid {c : CJSON} : Reads (checkVehicleid c) := by
  rcases checkVehicleid_cases c with hyields | hfails
  · exact Or.inl ⟨(), hyields⟩
  · exact Or.inr ⟨.undefined, hfails⟩

@[simp] theorem yields_checkVehicleid {c : CJSON} {u : Unit} :
    Yields (checkVehicleid c) u ↔ ∃ bytes, c.valuestring = some bytes ∧ bytes.length ≤ 24 := by
  rw [checkVehicleid, reads_read.yields_bind_iff]
  cases c.valuestring with
  | none => simp
  | some bytes =>
      by_cases hfits : bytes.length ≤ 24
      · simp [hfits]
      · simp [hfits]

theorem reads_checkedBsm : Reads (checkedBsm array m i) :=
  reads_getArrayItem.bind fun _ _ => reads_orEnd.bind fun _ _ => reads_intMember.bind fun _ _ =>
    reads_member.bind fun _ _ => reads_checkVehicleid.bind fun _ _ => reads_parseBsm

/-- Apart from the check, the turn of the loop is the one of the parser. -/
theorem checks_checkedBsm : Checks (checkedBsm array m i) (parseBsm array m i) := by
  refine reads_getArrayItem.checks_bind fun _ hitem => reads_orEnd.checks_bind fun _ hchild1 =>
    reads_intMember.checks_bind fun _ hobuid => reads_member.checks_bind fun c hc => ?_
  rcases checkVehicleid_cases c with hcheck | hundefined
  · refine Or.inr ((bind_ok hcheck).trans ?_)
    exact (bind_ok hitem).trans ((bind_ok hchild1).trans ((bind_ok hobuid).trans (bind_ok hc)))
  · exact Or.inl (bind_error hundefined)

/-- The checked turn of the loop comes to its end exactly for the complete elements whose
`vehicleid` fits. -/
theorem yields_checkedBsm_iff {d : Bsmdata} (hi : i < m) :
    Yields (checkedBsm array m i) d ↔
      ∃ element, array.child[i]? = some element ∧ (element.HasBsm ∧ element.VehicleidFits) ∧
        d = element.bsmdata := by
  simp only [checkedBsm, Reads.yields_bind_iff, reads_getArrayItem, reads_orEnd, reads_intMember,
    reads_member, reads_checkVehicleid, yields_getArrayItem, yields_orEnd, yields_intMember,
    yields_member, yields_checkVehicleid, yields_parseBsm_iff]
  constructor
  · intro h
    rcases h with ⟨_, helement, element, rfl, _, -, vehicleid, hvehicleid, _, hfits, h⟩
    rcases h with ⟨element', helement', hcomplete, hd⟩
    rw [helement] at helement'
    cases helement'
    refine ⟨element, helement, ⟨hcomplete.hasBsm, ?_⟩, hd⟩
    intro c hc
    rw [hvehicleid] at hc
    cases hc
    exact hfits
  · intro h
    rcases h with ⟨element, helement, ⟨hhas, hfits⟩, hd⟩
    rcases hhas.members "obuid" (by simp) with ⟨obuid, hobuid⟩
    rcases hhas.members "vehicleid" (by simp) with ⟨vehicleid, hvehicleid⟩
    exact ⟨_, helement, element, rfl, _, ⟨obuid, hobuid, rfl⟩, vehicleid, hvehicleid, (),
      hfits _ hvehicleid, element, helement, hhas.complete hfits hi, hd⟩

end Elements

theorem checkedRsu2mecBsm_eq (root : CJSON) (bsm : List Bsmdata) :
    checkedRsu2mecBsm root bsm =
      labelled (elements checkedBsm root >>= fun bsmdata => return (some 0, bsmdata))
        (cJSONDelete >>= fun _ => return (none, bsm)) := by
  simp only [checkedRsu2mecBsm, elements, bind_assoc]

theorem reads_checked_elements (root : CJSON) : Reads (elements checkedBsm root) :=
  reads_elements checkedBsm (fun _ _ _ => reads_checkedBsm) root

/-- The loop comes to its end if all elements are complete and fit, with their records. -/
theorem yields_checked_elements_iff {root : CJSON} {bsmdata : List Bsmdata} :
    Yields (elements checkedBsm root) bsmdata ↔ ∃ datas, root.find "datas" = some datas ∧
      (∀ element ∈ datas.child, element.HasBsm ∧ element.VehicleidFits) ∧
      bsmdata = datas.child.map CJSON.bsmdata := by
  have hall : ∀ datas : CJSON,
      (∀ (i : ℕ) (element : CJSON), datas.child[i]? = some element →
        element.HasBsm ∧ element.VehicleidFits) ↔
        ∀ element ∈ datas.child, element.HasBsm ∧ element.VehicleidFits := by
    intro datas
    constructor
    · intro h element helement
      rcases List.mem_iff_getElem?.mp helement with ⟨i, hi⟩
      exact h i element hi
    · intro h i element helement
      exact h element (List.mem_of_getElem? helement)
  simp only [yields_elements_iff checkedBsm (fun _ _ _ => reads_checkedBsm) fun _ _ _ hi _ =>
    yields_checkedBsm_iff hi, hall]

/-- What the checked parser stores is what the parser stores. -/
theorem parseRsu2mecBsm_of_checked {root : CJSON} {bsm bsm' : List Bsmdata} {ret : Option ℤ}
    {o : State} (h : checkedRsu2mecBsm root bsm .live = .ok (ret, bsm') o) :
    ∃ data, parseRsu2mecBsm root .live = .ok data o ∧ bsm' = data.getD bsm := by
  have hchecks : Checks (elements checkedBsm root) (elements parseBsm root) :=
    reads_member.checks_bind fun _ _ => reads_getArraySize.checks_bind fun _ _ =>
      checks_mapM (fun _ _ => reads_parseBsm) fun _ _ => checks_checkedBsm
  rw [checkedRsu2mecBsm_eq, labelled] at h
  rw [parseRsu2mecBsm_eq, labelled]
  rcases reads_checked_elements root with ⟨data, hdata⟩ | ⟨e, he⟩
  · rw [bind_ok hdata] at h
    rw [bind_ok (hchecks.yields hdata)]
    cases h
    exact ⟨_, rfl, rfl⟩
  · rw [bind_error he] at h
    cases e with
    | undefined => cases h
    | jump =>
        rw [bind_error (hchecks.jumps he)]
        cases h
        exact ⟨none, rfl, rfl⟩

/-- **All or nothing.** The parser meets its specification exactly on the messages that it
accepts: all members are there, and every `vehicleid` is a string that fits. -/
theorem allOrNothing_iff (root : CJSON) (bsm : List Bsmdata) :
    AllOrNothing root bsm ↔ ∃ datas, root.find "datas" = some datas ∧
      ∀ element ∈ datas.child, element.HasBsm ∧ element.VehicleidFits := by
  rw [AllOrNothing, checkedRsu2mecBsm_eq]
  constructor
  · intro h
    rcases h with ⟨ret, bsm', o, hrun, hret, -, hnot⟩
    rcases reads_checked_elements root with ⟨bsmdata, hyields⟩ | ⟨e, hfails⟩
    · rcases yields_checked_elements_iff.mp hyields with ⟨datas, hdatas, hgood, -⟩
      exact ⟨datas, hdatas, hgood⟩
    · rw [labelled, bind_error hfails] at hrun
      cases e with
      | undefined => cases hrun
      | jump =>
          -- no value is returned behind the label
          cases hrun
          by_cases hhas : root.HasRecords
          · cases hret.mpr hhas
          · rcases (hnot hhas).1 with ⟨n, hn, -⟩
            cases hn
  · intro h
    rcases h with ⟨datas, hdatas, hgood⟩
    have hhas : root.HasRecords :=
      ⟨datas, hdatas, fun element helement => (hgood element helement).1⟩
    have hyields := yields_checked_elements_iff.mpr ⟨datas, hdatas, hgood, rfl⟩
    refine ⟨_, _, _, labelled_ok (bind_ok hyields), iff_of_true rfl hhas, ?_,
      fun hnot => absurd hhas hnot⟩
    intro _ datas' hdatas'
    rw [hdatas] at hdatas'
    cases hdatas'
    rfl

/-- The message `{"frametype":177,"datas":[{"obuid":1,"vehicleid":"a","secmark":0,
"refpos":{}}]}`. -/
def placeless : CJSON :=
  .item none none 0 [.item (some "frametype") none 177 [], .item (some "datas") none 0
    [.item none none 0 [.item (some "obuid") none 1 [], .item (some "vehicleid") (some [97]) 0 [],
      .item (some "secmark") none 0 [], .item (some "refpos") none 0 []]]]

/-- A place without coordinates leads to the use of a member that is not there. -/
theorem placeless_undefined :
    checkedRsu2mecBsm placeless [] .live = .error .undefined .live ∧
      ¬ AllOrNothing placeless [] := by
  have hrun : checkedRsu2mecBsm placeless [] .live = .error .undefined .live := rfl
  refine ⟨hrun, ?_⟩
  intro h
  rcases h with ⟨ret, bsm', o, hrun', -⟩
  cases hrun.symm.trans hrun'

end ServerKit.Protocal
