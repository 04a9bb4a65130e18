import ServerKit.Lib.CString
import ServerKit.Protocal.Callback

/-! # The messages that `Protocal_Demo/test_main.cpp` sends

Five functions write a message to the one send buffer of `lws_context`. The parser and the
printer of `cJSON` are parameters, and `malloc` succeeds. Numbers are `double`s, and a string
of the caller is read up to its zero byte. -/

namespace ServerKit.Protocal

open ServerKit.Memory ServerKit.CString ServerKit.Transducer

/-! ## Trees -/

/-- The type of a `cJSON` with what this type is about. -/
inductive Value where
  | null
  | bool (b : Bool)
  | number (valuedouble : Float)
  | string (valuestring : List UInt8)
  | array
  | object

/-- A `cJSON` as the printer sees it. -/
inductive Json where
  | item (string : Option String) (value : Value) (child : List Json)

/-- `cJSON_AddItemToArray`: the item becomes the last child. -/
def addItemToArray : Json → Json → Json
  | .item string value child, item => .item string value (child ++ [item])

/-- `cJSON_AddItemToObject`. -/
def addItemToObject (object : Json) (string : String) : Json → Json
  | .item _ value child => addItemToArray object (.item (some string) value child)

def create (value : Value) : Json := .item none value []

def number (num : ℤ) : Json := create (.number (Float.ofInt num))

def double (num : Float) : Json := create (.number num)

def string (bytes : List UInt8) : Json := create (.string (text bytes))

/-- A new object to which items are added one after the other. -/
def object (items : List (String × Json)) : Json :=
  items.foldl (fun o item => addItemToObject o item.1 item.2) (create .object)

def array (items : List Json) : Json := items.foldl addItemToArray (create .array)

/-! ## The data of the callers -/

structure Pos where
  lon : Float
  lat : Float
  ele : ℤ

/-- `rsi_rte_Date_t`, without its field `ele`, which is not sent. -/
structure RsiRteDate where
  eventtype : ℤ
  description : List UInt8
  lat : ℤ
  lon : ℤ

/-- `rsi_rts_Date_t`. -/
structure RsiRtsDate where
  signtype : ℤ
  signpos : Pos
  description : List UInt8

/-- `rsm_parter_t`; `id` are the bytes from this field on. -/
structure RsmParter where
  pos : Pos
  speed : ℤ
  heading : ℤ
  angle : ℤ
  width : ℤ
  length : ℤ
  height : ℤ
  id : List UInt8

/-- The counters that the functions share. -/
structure Counters where
  rsctlRsi : ℤ
  rsctlResponse : ℤ
  rsctlRsm : ℤ
  rteid : ℤ
  deriving DecidableEq, Repr

/-! ## The trees of the five messages -/

/-- The answer to a registration. -/
def registerTree (rsctl : ℤ) : Json :=
  object [("frametype", number 0xc1), ("rsctl", number rsctl), ("acktype", number 1),
    ("rcvstatus", create (.bool true)), ("errstatus", number 0), ("rsuid", number 123),
    ("rsuesn", string (ofString "123"))]

/-- The serial number of the device. -/
def rsuesn : Json := string (ofString "529c9c7d-a3b9-4560-8288-c80aa91798ac")

/-- A message about signs or events at the place of the unit. -/
def rsiTree (rsctl : ℤ) (datamsg : List Json) : Json :=
  object [("frametype", number 0xc2), ("rsctl", number rsctl), ("rsuid", number 52),
    ("rsuesn", rsuesn),
    ("refpos", object [("lon", double 113.300348777), ("lat", double 23.566940348),
      ("ele", number 0)]),
    ("datamsg", array datamsg)]

/-- One event. Its place is left out when both coordinates are zero. -/
def rteItem (rteid : ℤ) (rte : RsiRteDate) : Json :=
  let eventpos := object [("lat", number rte.lat), ("lon", number rte.lon), ("ele", number 0)]
  object ([("type", number 101), ("rteId", number rteid), ("eventtype", number rte.eventtype),
    ("description", string rte.description), ("duration", number 5), ("interval", number 100),
    ("eventradius", number 1000)] ++
    (if rte.lat ≠ 0 ∨ rte.lon ≠ 0 then [("eventpos", eventpos)] else []) ++
    [("priority", number 1)])

/-- A position of the caller. -/
def posItem (pos : Pos) : Json :=
  object [("lon", double pos.lon), ("lat", double pos.lat), ("ele", number pos.ele)]

/-- One sign, numbered by the counter of the events. -/
def rtsItem (rteid : ℤ) (rts : RsiRtsDate) : Json :=
  object [("rtsId", number rteid), ("signtype", number rts.signtype),
    ("signpos", posItem rts.signpos), ("type", number 102), ("duration", number 5),
    ("interval", number 100), ("description", string rts.description), ("priority", number 1)]

/-- One participant of the traffic. -/
def parterItem (parter : RsmParter) : Json :=
  object [("refpos", posItem parter.pos), ("ptctype", number 1), ("ptcid", number 37652),
    ("secmark", number 0), ("source", number 7), ("speed", number parter.speed),
    ("heading", number parter.heading), ("angle", number parter.angle),
    ("motioncfd", create .null), ("accelset", create .null),
    ("size", object [("width", number parter.width), ("length", number parter.length),
      ("height", number parter.height)]),
    ("vehicleclass", object [("fueltype", number 0), ("vehitype", number 0)]),
    ("id", string parter.id)]

def rsmTree (rsctl : ℤ) (datas : List Json) : Json :=
  object [("frametype", number 197), ("rsctl", number rsctl), ("rsuid", number 52),
    ("rsuesn", rsuesn), ("datas", array datas)]

/-- The items of a loop that numbers them from `rteid` on. -/
def numbered {β : Type} (item : ℤ → β → Json) (rteid : ℤ) : List β → List Json
  | [] => []
  | d :: ds => item rteid d :: numbered item (rteid + 1) ds

/-- A message of the platform with its type. -/
def platcontrolTree (root : Json) : Json := addItemToObject root "frametype" (number 0xd1)

/-! ## Sending -/

/-- The process: its counters and `lws_context`. -/
structure Process where
  counters : Counters
  lwsctx : LwsMes
  deriving DecidableEq, Repr

/-- What a call has printed and what it has handed to `lws_write`. -/
structure Sent where
  printed : Option (List UInt8)
  handed : Option (List UInt8)
  deriving DecidableEq, Repr

/-- `memcpy(lwsctx->sendbuffer, text, strlen(text))`. -/
def LwsMes.copy (lwsctx : LwsMes) (text : List UInt8) : Option LwsMes :=
  match h : store lwsctx.sendbuffer 0 text with
  | none => none
  | some sendbuffer =>
    some { lwsctx with
      sendbuffer := sendbuffer
      length_sendbuffer := (store_length h).trans lwsctx.length_sendbuffer }

/-- The bytes that `lws_write` gets, if there is a connection. -/
def LwsMes.write (lwsctx : LwsMes) (n : ℕ) : Option (Option (List UInt8)) :=
  if lwsctx.wsi = 0 then some none else (load lwsctx.sendbuffer 0 n).map some

def send2rsu (lwsctx : LwsMes) : Option (Option (List UInt8)) := lwsctx.write lwsctx.sendnlen

/-- A call of one of the five functions; the arrays hold as many elements as their counts say. -/
inductive Call where
  | responseRegister
  | platcontrol2rsu (recvbuf : List UInt8)
  | mec2rsuRsirte (rtearray : List RsiRteDate)
  | mec2rsuRsirts (rtsarray : List RsiRtsDate)
  | mec2rsuRsm (parter : List RsmParter)

section Functions

variable (cJSONParse : List UInt8 → Option Json) (cJSONPrint : Json → List UInt8)

def responseRegister (s : Process) : Option (Process × Sent) := do
  let str1 := cJSONPrint (registerTree s.counters.rsctlResponse)
  let counters := { s.counters with rsctlResponse := s.counters.rsctlResponse + 1 }
  let lwsctx ← s.lwsctx.copy str1
  let handed ← lwsctx.write str1.length
  return (⟨counters, lwsctx⟩, ⟨some str1, handed⟩)

/-- The length of the text is not stored. -/
def platcontrol2rsu (s : Process) (recvbuf : List UInt8) : Option (Process × Sent) :=
  match cJSONParse recvbuf with
  | none => some (s, ⟨none, none⟩)
  | some root => do
    let sendbuff := cJSONPrint (platcontrolTree root)
    let lwsctx ← s.lwsctx.copy sendbuff
    let handed ← send2rsu lwsctx
    return ({ s with lwsctx := lwsctx }, ⟨some sendbuff, handed⟩)

/-- The end of the functions `mec2rsu_*`, which stores the length. -/
def printAndSend (s : Process) (counters : Counters) (root : Json) : Option (Process × Sent) := do
  let sendbuff := cJSONPrint root
  let lwsctx ← { s.lwsctx with sendnlen := sendbuff.length }.copy sendbuff
  let handed ← send2rsu lwsctx
  return (⟨counters, lwsctx⟩, ⟨some sendbuff, handed⟩)

def mec2rsuRsirte (s : Process) (rtearray : List RsiRteDate) : Option (Process × Sent) :=
  printAndSend cJSONPrint s
    { s.counters with
      rsctlRsi := s.counters.rsctlRsi + 1
      rteid := s.counters.rteid + rtearray.length }
    (rsiTree s.counters.rsctlRsi (numbered rteItem s.counters.rteid rtearray))

def mec2rsuRsirts (s : Process) (rtsarray : List RsiRtsDate) : Option (Process × Sent) :=
  printAndSend cJSONPrint s
    { s.counters with
      rsctlRsi := s.counters.rsctlRsi + 1
      rteid := s.counters.rteid + rtsarray.length }
    (rsiTree s.counters.rsctlRsi (numbered rtsItem s.counters.rteid rtsarray))

def mec2rsuRsm (s : Process) (parter : List RsmParter) : Option (Process × Sent) :=
  printAndSend cJSONPrint s { s.counters with rsctlRsm := s.counters.rsctlRsm + 1 }
    (rsmTree s.counters.rsctlRsm (parter.map parterItem))

/-- A call; without a result when the text does not fit into the send buffer, or when more is
sent than the buffer has. -/
def callStep (s : Process) : Call → Option (Process × Sent)
  | .responseRegister => responseRegister cJSONPrint s
  | .platcontrol2rsu recvbuf => platcontrol2rsu cJSONParse cJSONPrint s recvbuf
  | .mec2rsuRsirte rtearray => mec2rsuRsirte cJSONPrint s rtearray
  | .mec2rsuRsirts rtsarray => mec2rsuRsirts cJSONPrint s rtsarray
  | .mec2rsuRsm parter => mec2rsuRsm cJSONPrint s parter

/-! ## What is sent -/

/-- The tree that a call prints. -/
def Process.tree (s : Process) : Call → Option Json
  | .responseRegister => some (registerTree s.counters.rsctlResponse)
  | .platcontrol2rsu recvbuf => (cJSONParse recvbuf).map platcontrolTree
  | .mec2rsuRsirte rtearray =>
    some (rsiTree s.counters.rsctlRsi (numbered rteItem s.counters.rteid rtearray))
  | .mec2rsuRsirts rtsarray =>
    some (rsiTree s.counters.rsctlRsi (numbered rtsItem s.counters.rteid rtsarray))
  | .mec2rsuRsm parter => some (rsmTree s.counters.rsctlRsm (parter.map parterItem))

/-- The text of the call fits into the send buffer. -/
def TextFits (s : Process) (call : Call) : Prop :=
  ∀ root ∈ s.tree cJSONParse call, (cJSONPrint root).length ≤ s.lwsctx.sendbuffer.length

/-- A message of the platform is as long as the message whose length was stored last. -/
def LengthStored (s : Process) : Call → Prop
  | .platcontrol2rsu recvbuf =>
    ∀ root ∈ cJSONParse recvbuf, s.lwsctx.sendnlen = (cJSONPrint (platcontrolTree root)).length
  | _ => True

/-- The call hands to `lws_write` exactly what it has printed. -/
def HandsText (_ : Process) (_ : Call) (out : Process × Sent) : Prop :=
  out.2.handed = out.2.printed

/-- A client is connected, and what is stored as a length stays within the buffer. -/
structure Process.Connected (s : Process) : Prop where
  wsi : s.lwsctx.wsi ≠ 0
  sendnlen : s.lwsctx.sendnlen ≤ s.lwsctx.sendbuffer.length

variable {cJSONParse cJSONPrint}

/-- All send buffers have one length. -/
theorem LwsMes.sendbuffer_length_eq (a b : LwsMes) : a.sendbuffer.length = b.sendbuffer.length :=
  a.length_sendbuffer.trans b.length_sendbuffer.symm

/-- A text is copied exactly when it fits; it then lies at the start of the buffer. -/
theorem LwsMes.copy_eq_some_iff {lwsctx lwsctx' : LwsMes} {text : List UInt8} :
    lwsctx.copy text = some lwsctx' ↔ text.length ≤ lwsctx.sendbuffer.length ∧
      lwsctx'.wsi = lwsctx.wsi ∧ lwsctx'.sendnlen = lwsctx.sendnlen ∧
      lwsctx'.sendbuffer = text ++ lwsctx.sendbuffer.drop text.length := by
  have hcopy : ∀ sendbuffer, store lwsctx.sendbuffer 0 text = some sendbuffer ↔
      text.length ≤ lwsctx.sendbuffer.length ∧
        sendbuffer = text ++ lwsctx.sendbuffer.drop text.length := by
    intro sendbuffer
    simp [store, eq_comm]
  rw [LwsMes.copy]
  split
  · rename_i hnone
    refine iff_of_false (by simp) ?_
    intro h
    have hsome := (hcopy _).mpr ⟨h.1, rfl⟩
    rw [hnone] at hsome
    cases hsome
  · rename_i sendbuffer hsome
    have hstored := (hcopy _).mp hsome
    constructor
    · intro h
      cases h
      exact ⟨hstored.1, rfl, rfl, hstored.2⟩
    · rintro ⟨-, hwsi, hsendnlen, hsendbuffer⟩
      cases lwsctx'
      simp_all

/-- Sending the first `n` bytes of the buffer. -/
theorem LwsMes.write_spec {lwsctx : LwsMes} {n : ℕ} (hwsi : lwsctx.wsi ≠ 0)
    (hn : n ≤ lwsctx.sendbuffer.length) :
    lwsctx.write n = some (some (lwsctx.sendbuffer.take n)) := by
  rw [LwsMes.write, if_neg hwsi, load_eq_some (by omega), List.drop_zero, Option.map_some]

/-- The first `n` bytes behind which something else may lie are the text. -/
theorem take_eq_text_iff {text rest : List UInt8} {n : ℕ} (hn : n ≤ (text ++ rest).length) :
    (text ++ rest).take n = text ↔ n = text.length := by
  constructor
  · intro htake
    have hlength := congrArg List.length htake
    rw [List.length_take, Nat.min_eq_left hn] at hlength
    exact hlength
  · rintro rfl
    exact List.take_left

/-- A text is written over the buffer, and `n` bytes are sent. -/
theorem LwsMes.copy_write {lwsctx : LwsMes} {text : List UInt8} {n : ℕ} (hwsi : lwsctx.wsi ≠ 0)
    (hn : n ≤ lwsctx.sendbuffer.length) (hfits : text.length ≤ lwsctx.sendbuffer.length) :
    ∃ lwsctx' handed, lwsctx.copy text = some lwsctx' ∧ lwsctx'.write n = some (some handed) ∧
      (handed = text ↔ n = text.length) ∧ lwsctx'.wsi = lwsctx.wsi ∧
      lwsctx'.sendnlen = lwsctx.sendnlen := by
  have hlength :
      (text ++ lwsctx.sendbuffer.drop text.length).length = lwsctx.sendbuffer.length := by
    rw [List.length_append, List.length_drop]
    omega
  let lwsctx' : LwsMes := { lwsctx with
    sendbuffer := text ++ lwsctx.sendbuffer.drop text.length
    length_sendbuffer := hlength.trans lwsctx.length_sendbuffer }
  refine ⟨lwsctx', _, copy_eq_some_iff.mpr ⟨hfits, rfl, rfl, rfl⟩,
    write_spec hwsi (hn.trans hlength.ge), ?_, rfl, rfl⟩
  exact take_eq_text_iff (hn.trans hlength.ge)

/-- The functions that store the length send what they have printed. -/
theorem printAndSend_spec {s : Process} {counters : Counters} {root : Json} (h : s.Connected)
    (hfits : (cJSONPrint root).length ≤ s.lwsctx.sendbuffer.length) :
    ∃ s', printAndSend cJSONPrint s counters root =
        some (s', ⟨some (cJSONPrint root), some (cJSONPrint root)⟩) ∧ s'.Connected := by
  let lwsctx : LwsMes := { s.lwsctx with sendnlen := (cJSONPrint root).length }
  have hconnected : lwsctx.wsi ≠ 0 := h.wsi
  rcases LwsMes.copy_write hconnected hfits hfits with
    ⟨lwsctx', handed, hcopy, hwrite, htext, hwsi, hsendnlen⟩
  have hlength := lwsctx'.sendbuffer_length_eq s.lwsctx
  refine ⟨⟨counters, lwsctx'⟩, ?_, ?_, ?_⟩
  · simp only [printAndSend, send2rsu]
    rw [show LwsMes.copy { s.lwsctx with sendnlen := (cJSONPrint root).length } (cJSONPrint root) =
      some lwsctx' from hcopy, Option.bind_eq_bind, Option.bind_some, hsendnlen, hwrite,
      htext.mpr rfl]
    rfl
  · exact hwsi ▸ h.wsi
  · show lwsctx'.sendnlen ≤ lwsctx'.sendbuffer.length
    rw [hsendnlen, hlength]
    exact hfits

/-- One call whose text fits. -/
theorem callStep_spec {s : Process} {call : Call} (h : s.Connected)
    (hfits : TextFits cJSONParse cJSONPrint s call) :
    ∃ out, callStep cJSONParse cJSONPrint s call = some out ∧ out.1.Connected ∧
      (HandsText s call out ↔ LengthStored cJSONParse cJSONPrint s call) := by
  cases call with
  | responseRegister =>
      have hfits' := hfits _ rfl
      rcases LwsMes.copy_write h.wsi hfits' hfits' with
        ⟨lwsctx', handed, hcopy, hwrite, htext, hwsi, hsendnlen⟩
      have hlength := lwsctx'.sendbuffer_length_eq s.lwsctx
      refine ⟨_, by simp only [callStep, responseRegister, hcopy, hwrite, Option.bind_eq_bind,
        Option.bind_some]; rfl, ⟨hwsi ▸ h.wsi, ?_⟩, ?_⟩
      · show lwsctx'.sendnlen ≤ lwsctx'.sendbuffer.length
        rw [hsendnlen, hlength]
        exact h.sendnlen
      · exact iff_of_true (congrArg some (htext.mpr rfl)) trivial
  | platcontrol2rsu recvbuf =>
      rcases hparse : cJSONParse recvbuf with _ | root
      · refine ⟨(s, ⟨none, none⟩), by simp only [callStep, platcontrol2rsu, hparse], h, ?_⟩
        refine iff_of_true rfl ?_
        intro root hroot
        rw [hparse] at hroot
        cases hroot
      · have hfits' := hfits (platcontrolTree root) (by simp [Process.tree, hparse])
        rcases LwsMes.copy_write h.wsi h.sendnlen hfits' with
          ⟨lwsctx', handed, hcopy, hwrite, htext, hwsi, hsendnlen⟩
        have hlength := lwsctx'.sendbuffer_length_eq s.lwsctx
        refine ⟨_, by simp only [callStep, platcontrol2rsu, hparse, send2rsu, hcopy, hsendnlen,
          hwrite, Option.bind_eq_bind, Option.bind_some]; rfl, ⟨hwsi ▸ h.wsi, ?_⟩, ?_⟩
        · show lwsctx'.sendnlen ≤ lwsctx'.sendbuffer.length
          rw [hsendnlen, hlength]
          exact h.sendnlen
        · show some handed = some _ ↔ _
          rw [Option.some.injEq, htext]
          simp [LengthStored, hparse]
  | mec2rsuRsirte rtearray =>
      rcases printAndSend_spec h (hfits _ rfl) with ⟨s', hrun, hs'⟩
      exact ⟨_, hrun, hs', iff_of_true rfl trivial⟩
  | mec2rsuRsirts rtsarray =>
      rcases printAndSend_spec h (hfits _ rfl) with ⟨s', hrun, hs'⟩
      exact ⟨_, hrun, hs', iff_of_true rfl trivial⟩
  | mec2rsuRsm parter =>
      rcases printAndSend_spec h (hfits _ rfl) with ⟨s', hrun, hs'⟩
      exact ⟨_, hrun, hs', iff_of_true rfl trivial⟩

theorem fits_of_printAndSend {s : Process} {counters : Counters} {root : Json}
    {out : Process × Sent} (h : printAndSend cJSONPrint s counters root = some out) :
    (cJSONPrint root).length ≤ s.lwsctx.sendbuffer.length := by
  rcases Option.bind_eq_some_iff.mp h with ⟨lwsctx, hcopy, -⟩
  exact (LwsMes.copy_eq_some_iff.mp hcopy).1

/-- The length of the text is stored. -/
theorem sendnlen_of_printAndSend {s : Process} {counters : Counters} {root : Json}
    {out : Process × Sent} (h : printAndSend cJSONPrint s counters root = some out) :
    out.1.lwsctx.sendnlen = (cJSONPrint root).length := by
  rcases Option.bind_eq_some_iff.mp h with ⟨lwsctx, hcopy, h⟩
  rcases Option.bind_eq_some_iff.mp h with ⟨handed, -, h⟩
  cases h
  exact (LwsMes.copy_eq_some_iff.mp hcopy).2.2.1

/-- A call that has a result has printed a text that fits. -/
theorem textFits_of_callStep {s : Process} {call : Call} {out : Process × Sent}
    (h : callStep cJSONParse cJSONPrint s call = some out) :
    TextFits cJSONParse cJSONPrint s call := by
  intro root hroot
  cases call with
  | responseRegister =>
      cases hroot
      rcases Option.bind_eq_some_iff.mp h with ⟨lwsctx, hcopy, -⟩
      exact (LwsMes.copy_eq_some_iff.mp hcopy).1
  | platcontrol2rsu recvbuf =>
      rcases Option.map_eq_some_iff.mp hroot with ⟨parsed, hparse, rfl⟩
      simp only [callStep, platcontrol2rsu, hparse] at h
      rcases Option.bind_eq_some_iff.mp h with ⟨lwsctx, hcopy, -⟩
      exact (LwsMes.copy_eq_some_iff.mp hcopy).1
  | mec2rsuRsirte rtearray =>
      cases hroot
      exact fits_of_printAndSend h
  | mec2rsuRsirts rtsarray =>
      cases hroot
      exact fits_of_printAndSend h
  | mec2rsuRsm parter =>
      cases hroot
      exact fits_of_printAndSend h

/-- In a sequence of calls whose texts fit, every call hands over its own text exactly when
every message of the platform has the length that was stored last. -/
theorem hands_text_iff_lengthStored {s : Process} (h : s.Connected) {calls : List Call}
    (hfits : Transducer.Admits (TextFits cJSONParse cJSONPrint) (callStep cJSONParse cJSONPrint)
      s calls) :
    Every HandsText (callStep cJSONParse cJSONPrint) s calls ↔
      Transducer.Admits (LengthStored cJSONParse cJSONPrint) (callStep cJSONParse cJSONPrint)
        s calls := by
  have hstep : ∀ (s : Process) (call : Call), s.Connected →
      (TextFits cJSONParse cJSONPrint s call ∧ LengthStored cJSONParse cJSONPrint s call) →
      ∃ out, callStep cJSONParse cJSONPrint s call = some out ∧ HandsText s call out ∧
        out.1.Connected := by
    intro s call hs hguard
    rcases callStep_spec hs hguard.1 with ⟨out, hout, hs', hiff⟩
    exact ⟨out, hout, hiff.mpr hguard.2, hs'⟩
  have hguard : ∀ (s : Process) (call : Call) (out : Process × Sent), s.Connected →
      callStep cJSONParse cJSONPrint s call = some out → HandsText s call out →
      TextFits cJSONParse cJSONPrint s call ∧ LengthStored cJSONParse cJSONPrint s call := by
    intro s call out hs hout hhands
    have hfits := textFits_of_callStep hout
    rcases callStep_spec hs hfits with ⟨out', hout', -, hiff⟩
    rw [hout] at hout'
    cases hout'
    exact ⟨hfits, hiff.mp hhands⟩
  rw [every_iff_admits hstep hguard h calls, admits_and, and_iff_right hfits]

end Functions

theorem length_sendbuffer_zeros : (zeros 1024).length = 1024 := length_zeros 1024

/-- A process with one client, before its first message. -/
def connected : Process where
  counters := ⟨0, 0, 0, 0⟩
  lwsctx := ⟨8, zeros 1024, length_sendbuffer_zeros, 0⟩

/-- The text of an object without members. -/
def braces : List UInt8 := [123, 125]

/-- The parser on this text. -/
def parseBraces (_ : List UInt8) : Option Json := some (create .object)

/-- The text of the object whose only member is the type 209. -/
def frametypeText : List UInt8 := 123 :: ofString "\n\t\"frametype\":\t209\n" ++ [125]

/-- The printer on this object. -/
def printFrametype (_ : Json) : List UInt8 := frametypeText

/-- An object with a string of `n` letters. -/
def lettersMember (n : ℕ) : Json :=
  .item none .object [.item (some "a") (.string (List.replicate n 97)) []]

/-- The text of this object. -/
def lettersText (n : ℕ) : List UInt8 :=
  ofString "\x7b\"a\":\"" ++ List.replicate n 97 ++ ofString "\"\x7d"

/-- The first message about events, when there are none. -/
def rsiText : List UInt8 :=
  ofString "\x7b\n\t\"frametype\":\t194,\n\t\"rsctl\":\t0,\n\t\"rsuid\":\t52,\n" ++
    ofString "\t\"rsuesn\":\t\"529c9c7d-a3b9-4560-8288-c80aa91798ac\",\n" ++
    ofString "\t\"refpos\":\t\x7b\n\t\t\"lon\":\t113.300349,\n\t\t\"lat\":\t23.566940,\n" ++
    ofString "\t\t\"ele\":\t0\n\t\x7d,\n\t\"datamsg\":\t[]\n\x7d"

/-- The first message about participants, when there are none. -/
def rsmText : List UInt8 :=
  ofString "\x7b\n\t\"frametype\":\t197,\n\t\"rsctl\":\t0,\n\t\"rsuid\":\t52,\n" ++
    ofString "\t\"rsuesn\":\t\"529c9c7d-a3b9-4560-8288-c80aa91798ac\",\n" ++
    ofString "\t\"datas\":\t[]\n\x7d"

/-- The message of the platform with 82 letters and its type. -/
def platcontrolText : List UInt8 :=
  ofString "\x7b\n\t\"a\":\t\"" ++ List.replicate 82 97 ++
    ofString "\",\n\t\"frametype\":\t209\n\x7d"

/-- The printer on these three, which have six, five and two members. -/
def printSession : Json → List UInt8
  | .item _ _ child =>
    if child.length = 6 then rsiText else if child.length = 5 then rsmText else platcontrolText

theorem length_printSession_le (root : Json) : (printSession root).length ≤ 1024 := by
  obtain ⟨string, value, child⟩ := root
  rw [printSession]
  split
  · decide +kernel
  · split
    · decide +kernel
    · decide +kernel

/-- The message of the platform is as long as the one about participants that was sent last. -/
theorem hands_text_iff_lengthStored_mixed :
    Every HandsText (callStep (fun _ => some (lettersMember 82)) printSession) connected
      [.mec2rsuRsirte [], .mec2rsuRsm [], .platcontrol2rsu (lettersText 82)] := by
  refine (hands_text_iff_lengthStored ⟨by decide, Nat.zero_le _⟩ ?_).mpr ?_
  · refine Transducer.admits_of_forall _ ?_ _ _
    intro s call root _
    exact (length_printSession_le root).trans s.lwsctx.length_sendbuffer.ge
  · refine ⟨trivial, fun _ _ => ⟨trivial, fun out hout => ⟨?_, fun _ _ => trivial⟩⟩⟩
    rintro root ⟨⟩
    have hstored := sendnlen_of_printAndSend hout
    exact hstored.trans (by decide : rsmText.length = platcontrolText.length)

/-- The first message of the platform is sent as no byte at all. -/
theorem platcontrol_sends_nothing :
    ∃ s', callStep parseBraces printFrametype connected (.platcontrol2rsu braces) =
        some (s', ⟨some frametypeText, some []⟩) ∧
      ¬ Every HandsText (callStep parseBraces printFrametype) connected
        [.platcontrol2rsu braces] := by
  have hcall : ∃ s', callStep parseBraces printFrametype connected (.platcontrol2rsu braces) =
      some (s', ⟨some frametypeText, some []⟩) := by
    have hfits : frametypeText.length ≤ connected.lwsctx.sendbuffer.length :=
      (show frametypeText.length ≤ 1024 by decide).trans connected.lwsctx.length_sendbuffer.ge
    let lwsctx : LwsMes := ⟨8, frametypeText ++ connected.lwsctx.sendbuffer.drop
      frametypeText.length, by simp [connected, frametypeText, ofString], 0⟩
    have hcopy : connected.lwsctx.copy frametypeText = some lwsctx :=
      LwsMes.copy_eq_some_iff.mpr ⟨hfits, rfl, rfl, rfl⟩
    have hwrite : send2rsu lwsctx = some (some []) :=
      LwsMes.write_spec (by decide) (Nat.zero_le _)
    refine ⟨{ connected with lwsctx := lwsctx }, ?_⟩
    simp only [callStep, platcontrol2rsu, parseBraces, printFrametype, hcopy, hwrite,
      Option.bind_eq_bind, Option.bind_some]
    rfl
  rcases hcall with ⟨s', hcall⟩
  refine ⟨s', hcall, ?_⟩
  rintro ⟨out, hout, hhands, -⟩
  rw [hcall] at hout
  cases hout
  exact absurd hhands (show some [] ≠ some frametypeText by decide)

end ServerKit.Protocal
