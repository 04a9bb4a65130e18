import ServerKit.Protocal.Tree

/-! # The two relays

`platcontrol2rsu` tags a message of the platform, and `rsu2plantcontrol` should strip the tag of
a message of the unit again. -/

namespace ServerKit.Protocal

open ServerKit.Memory

section Relays

variable (cJSONParse : List UInt8 → Option Json) (cJSONPrint : Json → List UInt8)

/-- The variable `root` is used again for the member that is detached. A text that is no JSON
leads to the use of `NULL`. -/
def rsu2plantcontrol (s : Process) (recvbuf : List UInt8) : Option (Process × Sent) :=
  match cJSONParse recvbuf with
  | none => none
  | some object =>
    let root := (object.detachItemFromObject "frametype").1
    if root.isSome then some (s, ⟨none, none⟩)
    else
      -- the printer returns `NULL` for `NULL`
      match root.map cJSONPrint with
      | none => some (s, ⟨none, none⟩)
      | some sendbuff =>
        (s.lwsctx.copy sendbuff).bind fun lwsctx =>
          (send2rsu lwsctx).map fun handed => ({ s with lwsctx := lwsctx }, ⟨some sendbuff, handed⟩)

/-- The call prints this text and hands exactly this text to `lws_write`. -/
def Forwards (result : Option (Process × Sent)) (text : List UInt8) : Prop :=
  ∃ s', result = some (s', ⟨some text, some text⟩)

/-- `platcontrol2rsu` forwards an object without the tag with the tag. -/
def Tags (s : Process) (recvbuf : List UInt8) : Prop :=
  ∀ m, cJSONParse recvbuf = some m → m.value = .object → m.getObjectItem "frametype" = none →
    Forwards (platcontrol2rsu cJSONParse cJSONPrint s recvbuf) (cJSONPrint (platcontrolTree m))

/-- `rsu2plantcontrol` forwards an object that has the tag without the tag. -/
def Strips (s : Process) (recvbuf : List UInt8) : Prop :=
  ∀ m, cJSONParse recvbuf = some m → m.value = .object → m.getObjectItem "frametype" ≠ none →
    Forwards (rsu2plantcontrol cJSONParse cJSONPrint s recvbuf)
      (cJSONPrint (m.detachItemFromObject "frametype").2)

/-- The text of a tagged message is forwarded as the text of the message. -/
def Undoes (s : Process) (m : Json) : Prop :=
  m.value = .object → m.getObjectItem "frametype" = none →
    Forwards (rsu2plantcontrol cJSONParse cJSONPrint s (cJSONPrint (platcontrolTree m)))
      (cJSONPrint m)

/-- A client is connected, the text has room in the send buffer, and its length is the one that
was stored last. -/
def Ready (s : Process) (text : List UInt8) : Prop :=
  s.lwsctx.wsi ≠ 0 ∧ text.length ≤ 1024 ∧ s.lwsctx.sendnlen = text.length

variable {cJSONParse cJSONPrint}

/-- Stripping a tagged object would give the object back. -/
theorem detach_platcontrolTree {m : Json} (h : m.getObjectItem "frametype" = none) :
    (platcontrolTree m).detachItemFromObject "frametype" =
      (some (.item (some "frametype") (number 0xd1).value (number 0xd1).child), m) :=
  Json.detach_addItemToObject (number 0xd1) h

/-- A relay that strips every tagged object would undo the tagging. -/
theorem undoes_of_strips {s : Process} {m : Json}
    (hparse : cJSONParse (cJSONPrint (platcontrolTree m)) = some (platcontrolTree m))
    (h : Strips cJSONParse cJSONPrint s (cJSONPrint (platcontrolTree m))) :
    Undoes cJSONParse cJSONPrint s m := by
  intro hobject hfree
  have hdetach := detach_platcontrolTree hfree
  have hvalue : (platcontrolTree m).value = .object := by
    cases m
    exact hobject
  have htagged : (platcontrolTree m).getObjectItem "frametype" ≠ none := by
    intro hnone
    cases hnone.symm.trans (congrArg Prod.fst hdetach)
  simpa only [hdetach] using h _ hparse hvalue htagged

/-- `send2rsu` hands over the text at the start of the buffer if a client is connected and the
stored length is right. -/
theorem send2rsu_eq_some_iff {lwsctx : LwsMes} {text rest : List UInt8}
    (h : lwsctx.sendbuffer = text ++ rest) :
    send2rsu lwsctx = some (some text) ↔ lwsctx.wsi ≠ 0 ∧ lwsctx.sendnlen = text.length := by
  unfold send2rsu LwsMes.write
  by_cases hwsi : lwsctx.wsi = 0
  · simp [hwsi]
  · rw [if_neg hwsi, h]
    by_cases hn : lwsctx.sendnlen ≤ (text ++ rest).length
    · rw [load_eq_some (by omega), List.drop_zero, Option.map_some, Option.some_inj,
        Option.some_inj, take_eq_text_iff hn]
      simp [hwsi]
    · have hlong : lwsctx.sendnlen ≠ text.length := by
        intro heq
        rw [heq] at hn
        simp at hn
      rw [load, if_neg (by omega), Option.map_none]
      simp [hlong]

theorem forwards_platcontrol2rsu_iff {s : Process} {recvbuf : List UInt8} {m : Json}
    (h : cJSONParse recvbuf = some m) :
    Forwards (platcontrol2rsu cJSONParse cJSONPrint s recvbuf) (cJSONPrint (platcontrolTree m)) ↔
      Ready s (cJSONPrint (platcontrolTree m)) := by
  simp only [Forwards, platcontrol2rsu, h, Ready]
  rw [← s.lwsctx.length_sendbuffer]
  constructor
  · intro hrun
    rcases hrun with ⟨s', hrun⟩
    rcases Option.bind_eq_some_iff.mp hrun with ⟨lwsctx, hcopy, hrest⟩
    rcases Option.bind_eq_some_iff.mp hrest with ⟨handed, hsend, hresult⟩
    cases hresult
    rcases LwsMes.copy_eq_some_iff.mp hcopy with ⟨hfits, hwsi, hsendnlen, hbuffer⟩
    rcases (send2rsu_eq_some_iff hbuffer).mp hsend with ⟨hwsi', hsendnlen'⟩
    exact ⟨hwsi ▸ hwsi', hfits, hsendnlen ▸ hsendnlen'⟩
  · intro hready
    rcases hready with ⟨hwsi, hfits, hsendnlen⟩
    rcases LwsMes.copy_write hwsi (hsendnlen.le.trans hfits) hfits with
      ⟨lwsctx, handed, hcopy, hwrite, htext, -, hstored⟩
    have hsend : send2rsu lwsctx = some (some (cJSONPrint (platcontrolTree m))) := by
      rw [send2rsu, hstored, hwrite, htext.mpr hsendnlen]
    exact ⟨_, by rw [hcopy, Option.bind_eq_bind, Option.bind_some, hsend]; rfl⟩

/-- With or without a tag, nothing is printed. -/
theorem not_forwards_rsu2plantcontrol (s : Process) (recvbuf text : List UInt8) :
    ¬ Forwards (rsu2plantcontrol cJSONParse cJSONPrint s recvbuf) text := by
  intro h
  rcases h with ⟨s', hrun⟩
  unfold rsu2plantcontrol at hrun
  cases hparse : cJSONParse recvbuf with
  | none =>
      rw [hparse] at hrun
      cases hrun
  | some object =>
      rw [hparse] at hrun
      cases hdetach : (object.detachItemFromObject "frametype").1 with
      | none =>
          simp only [hdetach] at hrun
          cases hrun
      | some root =>
          simp only [hdetach] at hrun
          cases hrun

/-- **The relays.** A message is tagged and forwarded if its length happens to be stored. No
message is ever stripped and forwarded, so that no tagged message comes back. -/
theorem relays_iff (s : Process) (recvbuf : List UInt8) (m : Json) :
    (Tags cJSONParse cJSONPrint s recvbuf ↔
      ∀ m, cJSONParse recvbuf = some m → m.value = .object →
        m.getObjectItem "frametype" = none → Ready s (cJSONPrint (platcontrolTree m))) ∧
    (Strips cJSONParse cJSONPrint s recvbuf ↔
      ∀ m, cJSONParse recvbuf = some m → m.value = .object →
        m.getObjectItem "frametype" = none) ∧
    (Undoes cJSONParse cJSONPrint s m ↔
      (m.value = .object → m.getObjectItem "frametype" ≠ none)) := by
  refine ⟨?_, ?_, ?_⟩
  · constructor
    · intro h m hparse hobject hfree
      exact (forwards_platcontrol2rsu_iff hparse).mp (h m hparse hobject hfree)
    · intro h m hparse hobject hfree
      exact (forwards_platcontrol2rsu_iff hparse).mpr (h m hparse hobject hfree)
  · constructor
    · intro h m hparse hobject
      by_contra htagged
      exact not_forwards_rsu2plantcontrol s recvbuf _ (h m hparse hobject htagged)
    · intro h m hparse hobject htagged
      exact absurd (h m hparse hobject) htagged
  · constructor
    · intro h hobject hfree
      exact not_forwards_rsu2plantcontrol s _ _ (h hobject hfree)
    · intro h hobject hfree
      exact absurd hfree (h hobject)

end Relays

/-- The printer on the empty object with and without the tag. -/
def printTagged : Json → List UInt8
  | .item _ _ [] => [123, 10, 125]
  | _ => frametypeText

/-- The tagged empty object is not stripped, and the empty object does not come back. -/
theorem tag_not_undone :
    ¬ Strips (fun _ => some (platcontrolTree (create .object))) printTagged connected
        frametypeText ∧
      ¬ Undoes (fun _ => some (platcontrolTree (create .object))) printTagged connected
        (create .object) := by
  constructor
  · intro h
    refine not_forwards_rsu2plantcontrol _ _ _ (h _ rfl rfl ?_)
    intro hnone
    cases hnone
  · intro h
    exact not_forwards_rsu2plantcontrol _ _ _ (h rfl rfl)

end ServerKit.Protocal
