import ServerKit.Protocal.Message

/-! # Who deletes the tree of a message -/

namespace ServerKit.Protocal

open ServerKit.Owned

/-- The member that `cJSON_GetObjectItem` finds. -/
def CJSON.find (object : CJSON) (string : String) : Option CJSON :=
  object.child.find? (·.named string)

/-- The object has these members. -/
def CJSON.Has (object : CJSON) (strings : List String) : Prop :=
  ∀ string ∈ strings, ∃ c, object.find string = some c

/-- The member at the end of a path of names. -/
def CJSON.at? (object : CJSON) : List String → Option CJSON
  | [] => some object
  | string :: path => (object.find string).bind (·.at? path)

/-- The number at the end of a path, and 0 if nothing is there. -/
def CJSON.valueAt (object : CJSON) (path : List String) : ℤ :=
  (object.at? path).elim 0 CJSON.valueint

/-- The record of an element of `datas`. -/
def CJSON.bsmdata (element : CJSON) : Bsmdata where
  obuid := element.valueAt ["obuid"]
  secmark := element.valueAt ["secmark"]
  vehicleid := ((((element.find "vehicleid").bind CJSON.valuestring).getD []) ++
    List.replicate 24 0).take 24
  lon := element.valueAt ["refpos", "lon"]
  lat := element.valueAt ["refpos", "lat"]
  ele := element.valueAt ["refpos", "ele"]
  transmission := element.valueAt ["transmission"]
  speed := element.valueAt ["speed"]
  heading := element.valueAt ["heading"]
  width := element.valueAt ["size", "width"]
  length := element.valueAt ["size", "length"]
  accelsetLon := element.valueAt ["accelset", "long"]
  accelsetLat := element.valueAt ["accelset", "lat"]
  accelsetVert := element.valueAt ["accelset", "vert"]
  accelsetYaw := element.valueAt ["accelset", "yaw"]

/-- An element of `datas` that is read to its end: all members are there, and `vehicleid` is a
string that stays inside of the records. -/
structure CJSON.Complete (element : CJSON) (arraysize i : ℕ) : Prop where
  numbers : element.Has ["obuid", "secmark", "transmission", "speed", "heading"]
  vehicleid : ∃ c bytes, element.find "vehicleid" = some c ∧ c.valuestring = some bytes ∧
    i * sizeofBsmdata + offsetVehicleid + bytes.length ≤ arraysize * sizeofBsmdata
  refpos : ∃ c, element.find "refpos" = some c ∧ c.Has ["lat", "lon", "ele"]
  size : ∃ c, element.find "size" = some c ∧ c.Has ["width", "length"]
  accelset : ∃ c, element.find "accelset" = some c ∧ c.Has ["long", "lat", "vert", "yaw"]

/-- The array `datas` is there, and its elements are all complete. -/
def CJSON.AllComplete (root : CJSON) : Prop :=
  ∃ datas, root.find "datas" = some datas ∧
    ∀ (i : ℕ) (element : CJSON), datas.child[i]? = some element →
      element.Complete datas.child.length i

/-- A message without `frametype`, or with one that is no registration and, if it is a basic
safety message, has complete elements. -/
def CJSON.LeftToCaller (root : CJSON) : Prop :=
  ∀ c, root.find "frametype" = some c →
    c.valueint ≠ 0xB0 ∧ (c.valueint = 0xb1 → root.AllComplete)

/-! ## The steps that read -/

section Reading

variable {object array c : CJSON} {child : Option CJSON} {string : String} {n : ℤ} {i m : ℕ}

@[simp] theorem reads_getObjectItem : Reads (cJSONGetObjectItem object string) :=
  Or.inl ⟨_, rfl⟩

@[simp] theorem yields_getObjectItem :
    Yields (cJSONGetObjectItem object string) child ↔ object.find string = child :=
  yields_pure

@[simp] theorem reads_getArrayItem : Reads (cJSONGetArrayItem array i) := Or.inl ⟨_, rfl⟩

@[simp] theorem yields_getArrayItem :
    Yields (cJSONGetArrayItem array i) child ↔ array.child[i]? = child :=
  yields_pure

@[simp] theorem reads_getArraySize : Reads (cJSONGetArraySize array) := Or.inl ⟨_, rfl⟩

@[simp] theorem yields_getArraySize :
    Yields (cJSONGetArraySize array) m ↔ array.child.length = m :=
  yields_pure

@[simp] theorem reads_orEnd : Reads (orEnd child) := by
  cases child with
  | none => exact reads_throw
  | some c => exact reads_pure

@[simp] theorem yields_orEnd : Yields (orEnd child) c ↔ child = some c := by
  cases child with
  | none => simp [orEnd]
  | some c => simp [orEnd]

@[simp] theorem reads_valueintOf : Reads (valueintOf child) := by
  cases child with
  | none => exact reads_throw
  | some c => exact Or.inl ⟨_, rfl⟩

@[simp] theorem yields_valueintOf :
    Yields (valueintOf child) n ↔ ∃ c, child = some c ∧ c.valueint = n := by
  cases child with
  | none => simp [valueintOf]
  | some c =>
      have hread : Yields (valueintOf (some c)) n ↔ c.valueint = n := yields_pure
      simp [hread]

@[simp] theorem reads_member : Reads (member object string) :=
  reads_getObjectItem.bind fun _ _ => reads_orEnd

@[simp] theorem yields_member : Yields (member object string) c ↔ object.find string = some c := by
  rw [member, reads_getObjectItem.yields_bind_iff]
  simp

@[simp] theorem reads_intMember : Reads (intMember object string) :=
  reads_member.bind fun _ _ => reads_valueintOf

@[simp] theorem yields_intMember :
    Yields (intMember object string) n ↔
      ∃ c, object.find string = some c ∧ c.valueint = n := by
  rw [intMember, reads_member.yields_bind_iff]
  simp

@[simp] theorem reads_copyVehicleid : Reads (copyVehicleid m i c) := by
  refine reads_read.bind ?_
  intro u _
  cases c.valuestring with
  | none => exact reads_throw
  | some bytes =>
      dsimp only
      split
      · exact reads_pure
      · exact reads_throw

theorem yields_copyVehicleid {vehicleid : List UInt8} :
    Yields (copyVehicleid m i c) vehicleid ↔
      ∃ bytes, c.valuestring = some bytes ∧
        i * sizeofBsmdata + offsetVehicleid + bytes.length ≤ m * sizeofBsmdata ∧
        vehicleid = (bytes ++ List.replicate 24 0).take 24 := by
  rw [copyVehicleid, reads_read.yields_bind_iff]
  cases c.valuestring with
  | none => simp
  | some bytes =>
      by_cases hfits : i * sizeofBsmdata + offsetVehicleid + bytes.length ≤ m * sizeofBsmdata
      · simp [hfits, eq_comm]
      · simp [hfits]

theorem reads_parseBsm : Reads (parseBsm array m i) := by
  refine reads_getArrayItem.bind fun _ _ => reads_orEnd.bind fun child1 _ => ?_
  refine reads_intMember.bind fun _ _ => reads_member.bind fun _ _ => ?_
  refine reads_copyVehicleid.bind fun _ _ => reads_intMember.bind fun _ _ => ?_
  refine reads_member.bind fun refpos _ => ?_
  refine reads_getObjectItem.bind fun _ _ => reads_valueintOf.bind fun _ _ => ?_
  refine reads_getObjectItem.bind fun _ _ => reads_valueintOf.bind fun _ _ => ?_
  refine reads_getObjectItem.bind fun _ _ => reads_valueintOf.bind fun _ _ => ?_
  refine reads_intMember.bind fun _ _ => reads_intMember.bind fun _ _ => ?_
  refine reads_intMember.bind fun _ _ => reads_member.bind fun size _ => ?_
  refine reads_intMember.bind fun _ _ => reads_intMember.bind fun _ _ => ?_
  refine reads_member.bind fun accelset _ => reads_intMember.bind fun _ _ => ?_
  refine reads_intMember.bind fun _ _ => reads_intMember.bind fun _ _ => ?_
  exact reads_intMember.bind fun _ _ => reads_pure

/-- A turn of the loop that comes to its end has read a complete element into its record. -/
theorem complete_of_yields_parseBsm {d : Bsmdata} (h : Yields (parseBsm array m i) d) :
    ∃ element, array.child[i]? = some element ∧ element.Complete m i ∧ d = element.bsmdata := by
  simp only [parseBsm, Reads.yields_bind_iff, reads_getArrayItem, reads_orEnd, reads_intMember,
    reads_member, reads_copyVehicleid, reads_getObjectItem, reads_valueintOf, yields_getArrayItem,
    yields_orEnd, yields_intMember, yields_member, yields_copyVehicleid, yields_getObjectItem,
    yields_valueintOf, yields_pure] at h
  rcases h with ⟨_, helement, element, rfl, _, ⟨obuid, hobuid, rfl⟩, h⟩
  rcases h with ⟨vehicleid, hvehicleid, _, ⟨bytes, hbytes, hfits, rfl⟩, h⟩
  rcases h with ⟨_, ⟨secmark, hsecmark, rfl⟩, refpos, hrefpos, h⟩
  rcases h with ⟨_, hlat, _, ⟨lat, rfl, rfl⟩, _, hlon, _, ⟨lon, rfl, rfl⟩, _, hele, _,
    ⟨ele, rfl, rfl⟩, h⟩
  rcases h with ⟨_, ⟨transmission, htransmission, rfl⟩, _, ⟨speed, hspeed, rfl⟩, _,
    ⟨heading, hheading, rfl⟩, h⟩
  rcases h with ⟨size, hsize, _, ⟨width, hwidth, rfl⟩, _, ⟨length, hlength, rfl⟩, h⟩
  rcases h with ⟨accelset, haccelset, _, ⟨long, hlong, rfl⟩, _, ⟨alat, halat, rfl⟩, _,
    ⟨vert, hvert, rfl⟩, _, ⟨yaw, hyaw, rfl⟩, rfl⟩
  refine ⟨element, helement, ⟨?_, ⟨vehicleid, bytes, hvehicleid, hbytes, hfits⟩,
    ⟨refpos, hrefpos, ?_⟩, ⟨size, hsize, ?_⟩, ⟨accelset, haccelset, ?_⟩⟩, ?_⟩
  · simp [CJSON.Has, hobuid, hsecmark, htransmission, hspeed, hheading]
  · simp [CJSON.Has, hlat, hlon, hele]
  · simp [CJSON.Has, hwidth, hlength]
  · simp [CJSON.Has, hlong, halat, hvert, hyaw]
  · simp [CJSON.bsmdata, CJSON.valueAt, CJSON.at?, hobuid, hvehicleid, hbytes, hsecmark, hrefpos,
      hlat, hlon, hele, htransmission, hspeed, hheading, hsize, hwidth, hlength, haccelset,
      hlong, halat, hvert, hyaw]

theorem exists_yields_parseBsm {element : CJSON} (helement : array.child[i]? = some element)
    (h : element.Complete m i) : ∃ d, Yields (parseBsm array m i) d := by
  simp only [parseBsm, Reads.yields_bind_iff, reads_getArrayItem, reads_orEnd, reads_intMember,
    reads_member, reads_copyVehicleid, reads_getObjectItem, reads_valueintOf, yields_getArrayItem,
    yields_orEnd, yields_intMember, yields_member, yields_copyVehicleid, yields_getObjectItem,
    yields_valueintOf, yields_pure]
  rcases h with ⟨hnumbers, ⟨vehicleid, bytes, hvehicleid, hbytes, hfits⟩, ⟨refpos, hrefpos, hpos⟩,
    ⟨size, hsize, hlengths⟩, ⟨accelset, haccelset, haxes⟩⟩
  rcases hnumbers "obuid" (by simp) with ⟨obuid, hobuid⟩
  rcases hnumbers "secmark" (by simp) with ⟨secmark, hsecmark⟩
  rcases hnumbers "transmission" (by simp) with ⟨transmission, htransmission⟩
  rcases hnumbers "speed" (by simp) with ⟨speed, hspeed⟩
  rcases hnumbers "heading" (by simp) with ⟨heading, hheading⟩
  rcases hpos "lat" (by simp) with ⟨lat, hlat⟩
  rcases hpos "lon" (by simp) with ⟨lon, hlon⟩
  rcases hpos "ele" (by simp) with ⟨ele, hele⟩
  rcases hlengths "width" (by simp) with ⟨width, hwidth⟩
  rcases hlengths "length" (by simp) with ⟨length, hlength⟩
  rcases haxes "long" (by simp) with ⟨long, hlong⟩
  rcases haxes "lat" (by simp) with ⟨alat, halat⟩
  rcases haxes "vert" (by simp) with ⟨vert, hvert⟩
  rcases haxes "yaw" (by simp) with ⟨yaw, hyaw⟩
  exact ⟨_, _, helement, element, rfl, _, ⟨obuid, hobuid, rfl⟩, vehicleid, hvehicleid, _,
    ⟨bytes, hbytes, hfits, rfl⟩, _, ⟨secmark, hsecmark, rfl⟩, refpos, hrefpos, _, rfl, _,
    ⟨lat, hlat, rfl⟩, _, rfl, _, ⟨lon, hlon, rfl⟩, _, rfl, _, ⟨ele, hele, rfl⟩, _,
    ⟨transmission, htransmission, rfl⟩, _, ⟨speed, hspeed, rfl⟩, _, ⟨heading, hheading, rfl⟩,
    size, hsize, _, ⟨width, hwidth, rfl⟩, _, ⟨length, hlength, rfl⟩, accelset, haccelset, _,
    ⟨long, hlong, rfl⟩, _, ⟨alat, halat, rfl⟩, _, ⟨vert, hvert, rfl⟩, _, ⟨yaw, hyaw, rfl⟩, rfl⟩

/-- The turn of the loop for a complete element yields its record. -/
theorem yields_parseBsm_iff {d : Bsmdata} :
    Yields (parseBsm array m i) d ↔
      ∃ element, array.child[i]? = some element ∧ element.Complete m i ∧ d = element.bsmdata := by
  constructor
  · exact complete_of_yields_parseBsm
  · intro h
    rcases h with ⟨element, helement, hcomplete, rfl⟩
    rcases exists_yields_parseBsm helement hcomplete with ⟨d, hd⟩
    rcases complete_of_yields_parseBsm hd with ⟨element', helement', -, rfl⟩
    rw [helement] at helement'
    cases helement'
    exact hd

end Reading

/-! ## The functions that may delete -/

section Functions

variable {root : CJSON}

theorem fails_member {string : String} (hfind : root.find string = none) :
    Fails (member root string) .jump := by
  have horEnd : Fails (orEnd (root.find string)) .jump := by
    rw [hfind]
    rfl
  exact horEnd

/-- The members of a registration are read, or `END` is reached early. -/
theorem forM_member (root : CJSON) (strings : List String) :
    let body : Code Unit := strings.forM fun string => do
      let _ ← member root string
      read
    Yields body () ∨ Fails body .jump := by
  induction strings with
  | nil => exact Or.inl rfl
  | cons string strings ih =>
      cases hfind : root.find string with
      | none => exact Or.inr (bind_error (bind_error (fails_member hfind)))
      | some c =>
          have hfirst : (do
              let _ ← member root string
              read : Code Unit) .live = .ok () .live := bind_ok (yields_member.mpr hfind)
          rcases ih with hrest | hrest
          · exact Or.inl ((bind_ok hfirst).trans hrest)
          · exact Or.inr ((bind_ok hfirst).trans hrest)

/-- `parse_register` deletes the tree in any case. -/
theorem parseRegister_live (root : CJSON) : parseRegister root .live = .ok 0 .once := by
  have hbody := forM_member root ["lat", "lon", "ele", "rsutime", "rsustatus", "gnssstatus"]
  have hlabelled : labelled (["lat", "lon", "ele", "rsutime", "rsustatus", "gnssstatus"].forM
      fun string => do
        let _ ← member root string
        read) (pure ()) .live = .ok () .live := by
    rcases hbody with hyields | hjump
    · exact labelled_ok hyields
    · exact labelled_jump hjump
  exact bind_ok hlabelled

/-- The loop over `datas`, with what is done in its turns. -/
def elements (turn : CJSON → ℕ → ℕ → Code Bsmdata) (root : CJSON) : Code (List Bsmdata) := do
  let array ← member root "datas"
  let arraysize ← cJSONGetArraySize array
  (List.range arraysize).mapM (turn array arraysize)

section Elements

variable (turn : CJSON → ℕ → ℕ → Code Bsmdata)

theorem reads_elements (hreads : ∀ array n i, Reads (turn array n i)) (root : CJSON) :
    Reads (elements turn root) :=
  reads_member.bind fun array _ => reads_getArraySize.bind fun n _ =>
    reads_mapM fun i _ => hreads array n i

/-- The loop comes to its end if its turns do, and yields the records of the elements. -/
theorem yields_elements_iff {good : ℕ → ℕ → CJSON → Prop} {bsmdata : List Bsmdata}
    (hreads : ∀ array n i, Reads (turn array n i))
    (hturn : ∀ (array : CJSON) (n i : ℕ), i < n → ∀ d, Yields (turn array n i) d ↔
      ∃ element, array.child[i]? = some element ∧ good n i element ∧ d = element.bsmdata) :
    Yields (elements turn root) bsmdata ↔ ∃ datas, root.find "datas" = some datas ∧
      (∀ i element, datas.child[i]? = some element → good datas.child.length i element) ∧
      bsmdata = datas.child.map CJSON.bsmdata := by
  rw [elements, reads_member.yields_bind_iff]
  simp only [reads_getArraySize.yields_bind_iff, yields_member, yields_getArraySize]
  constructor
  · intro h
    rcases h with ⟨datas, hdatas, _, rfl, hyields⟩
    exact ⟨datas, hdatas, (yields_range_mapM_iff (hreads datas _) (hturn datas _)).mp hyields⟩
  · intro h
    rcases h with ⟨datas, hdatas, hgood⟩
    exact ⟨datas, hdatas, _, rfl,
      (yields_range_mapM_iff (hreads datas _) (hturn datas _)).mpr hgood⟩

end Elements

theorem parseRsu2mecBsm_eq (root : CJSON) :
    parseRsu2mecBsm root = labelled (elements parseBsm root >>= fun bsmdata => return some bsmdata)
      (cJSONDelete >>= fun _ => return none) := by
  simp only [parseRsu2mecBsm, elements, bind_assoc]

/-- The loop comes to its end if all the elements are complete. -/
theorem exists_yields_elements_iff :
    (∃ bsmdata, Yields (elements parseBsm root) bsmdata) ↔ root.AllComplete := by
  simp only [yields_elements_iff parseBsm (fun _ _ _ => reads_parseBsm)
    fun _ _ _ _ _ => yields_parseBsm_iff]
  constructor
  · intro h
    rcases h with ⟨_, datas, hdatas, hcomplete, -⟩
    exact ⟨datas, hdatas, hcomplete⟩
  · intro h
    rcases h with ⟨datas, hdatas, hcomplete⟩
    exact ⟨_, datas, hdatas, hcomplete, rfl⟩

/-- `parse_rsu2mec_bsm` keeps the tree if the elements are complete. -/
theorem exists_yields_parseRsu2mecBsm {root : CJSON} (h : root.AllComplete) :
    ∃ bsm, Yields (parseRsu2mecBsm root) bsm := by
  rcases exists_yields_elements_iff.mpr h with ⟨bsmdata, hyields⟩
  rw [parseRsu2mecBsm_eq]
  exact ⟨some bsmdata, labelled_ok (bind_ok hyields)⟩

/-- Else it deletes the tree, or uses a member that is not there. -/
theorem spends_parseRsu2mecBsm {root : CJSON} (h : ¬ root.AllComplete) :
    Spends (parseRsu2mecBsm root) := by
  have hreads := reads_elements parseBsm (fun _ _ _ => reads_parseBsm) root
  rcases hreads with ⟨bsmdata, hyields⟩ | ⟨e, hfails⟩
  · exact absurd (exists_yields_elements_iff.mp ⟨bsmdata, hyields⟩) h
  · rw [parseRsu2mecBsm_eq]
    exact Fails.spends_labelled (a := none) (bind_error hfails) rfl

theorem handleFrame_bsm (root : CJSON) (bsm : List Bsmdata) :
    handleFrame root bsm 0xb1 = do
      let data ← parseRsu2mecBsm root
      return data.getD bsm := rfl

theorem handleFrame_other (root : CJSON) (bsm : List Bsmdata) {frametype : ℤ}
    (h : frametype ≠ 0xB0) (h' : frametype ≠ 0xb1) :
    Yields (handleFrame root bsm frametype) bsm := by
  unfold handleFrame
  rw [if_neg h, if_neg h']
  rfl

theorem exists_yields_handleFrame (bsm : List Bsmdata) {frametype : ℤ} (h : frametype ≠ 0xB0)
    (hcomplete : frametype = 0xb1 → root.AllComplete) :
    ∃ bsm', Yields (handleFrame root bsm frametype) bsm' := by
  by_cases hbsm : frametype = 0xb1
  · rcases exists_yields_parseRsu2mecBsm (hcomplete hbsm) with ⟨data, hdata⟩
    rw [hbsm, handleFrame_bsm]
    exact ⟨data.getD bsm, bind_ok hdata⟩
  · exact ⟨bsm, handleFrame_other root bsm h hbsm⟩

theorem spends_handleFrame (bsm : List Bsmdata) {frametype : ℤ}
    (h : ¬ (frametype ≠ 0xB0 ∧ (frametype = 0xb1 → root.AllComplete))) :
    Spends (handleFrame root bsm frametype) := by
  by_cases hregister : frametype = 0xB0
  · rw [hregister]
    exact Or.inl ⟨bsm, bind_ok (parseRegister_live root)⟩
  · have hbsm : frametype = 0xb1 ∧ ¬ root.AllComplete := by
      by_contra hcontra
      exact h ⟨hregister, fun hb => not_not.mp fun hc => hcontra ⟨hb, hc⟩⟩
    rw [hbsm.1, handleFrame_bsm]
    exact (spends_parseRsu2mecBsm hbsm.2).bind_pure _

/-- The body of `lws_callback_recv` up to its label. -/
def recvBody (root : CJSON) (bsm : List Bsmdata) : Code (List Bsmdata) :=
  labelled
    (do
      let frametype ← intMember root "frametype"
      handleFrame root bsm frametype)
    (return bsm)

theorem recvBody_of_none {root : CJSON} (bsm : List Bsmdata)
    (hfind : root.find "frametype" = none) : Yields (recvBody root bsm) bsm := by
  have hjump : Fails (intMember root "frametype") .jump := bind_error (fails_member hfind)
  exact labelled_jump (bind_error hjump)

/-- The functions that are called keep the tree of the messages that are left to the caller. -/
theorem exists_yields_recvBody (bsm : List Bsmdata) (h : root.LeftToCaller) :
    ∃ bsm', Yields (recvBody root bsm) bsm' := by
  cases hfind : root.find "frametype" with
  | none => exact ⟨bsm, recvBody_of_none bsm hfind⟩
  | some c =>
      have hint : Yields (intMember root "frametype") c.valueint :=
        yields_intMember.mpr ⟨c, hfind, rfl⟩
      rcases exists_yields_handleFrame bsm (h c hfind).1 (h c hfind).2 with ⟨bsm', hyields⟩
      exact ⟨bsm', labelled_ok ((bind_ok hint).trans hyields)⟩

/-- They delete the tree of the other messages, or use a member that is not there. -/
theorem spends_recvBody (bsm : List Bsmdata) (h : ¬ root.LeftToCaller) :
    Spends (recvBody root bsm) := by
  cases hfind : root.find "frametype" with
  | none =>
      refine absurd ?_ h
      intro c hc
      rw [hfind] at hc
      cases hc
  | some c =>
      have hint : Yields (intMember root "frametype") c.valueint :=
        yields_intMember.mpr ⟨c, hfind, rfl⟩
      refine (hint.bind_spends (spends_handleFrame bsm ?_)).labelled _
      intro hcond
      apply h
      intro c' hc'
      rw [hfind] at hc'
      cases hc'
      exact hcond

/-- **One owner.** `lws_callback_recv` deletes the tree exactly once and does not use it after
that if and only if no function that it calls deletes the tree. -/
theorem recv_releases_once_iff (cJSONParse : List UInt8 → Option CJSON) (bsm : List Bsmdata)
    (recvbuf : List UInt8) :
    (∃ ret, lwsCallbackRecv cJSONParse bsm recvbuf .live =
        .ok ret (if (cJSONParse recvbuf).isSome then .once else .live)) ↔
      ∀ root, cJSONParse recvbuf = some root → root.LeftToCaller := by
  unfold lwsCallbackRecv
  cases cJSONParse recvbuf with
  | none =>
      constructor
      · intro _ root hroot
        cases hroot
      · intro _
        exact ⟨_, rfl⟩
  | some root =>
      have hleft : (∀ root', some root = some root' → root'.LeftToCaller) ↔
          root.LeftToCaller := by
        simp
      rw [hleft, Option.isSome_some, if_pos rfl]
      exact released_once_iff (exists_yields_recvBody bsm) (spends_recvBody bsm)
        fun bsm => ((none : Option ℤ), bsm)

/-- The tree of the message `{"frametype":176}` is deleted by `parse_register`, and then again. -/
theorem registration_deleted_twice :
    let root : CJSON := .item none none 0 [.item (some "frametype") none 176 []]
    ¬ ∃ ret, lwsCallbackRecv (fun _ => some root) [] [] .live = .ok ret .once := by
  intro root h
  rcases h with ⟨ret, hret⟩
  have htwice : lwsCallbackRecv (fun _ => some root) [] [] .live =
      .ok (none, []) { State.live with released := 2 } := rfl
  cases htwice.symm.trans hret

end Functions

end ServerKit.Protocal
