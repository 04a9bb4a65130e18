import ServerKit.NetFamily.Mac

/-! # The frames that `main` answers

`net_family.c` casts its packed structures onto the frame from `nm_nextpkt`. Here a frame is the
memory of the length that is reported for it: an access behind its end has no result. -/

namespace ServerKit.NetFamily

open ServerKit.Memory ServerKit.CString

/-- A field of a packed structure. -/
structure Field where
  off : ℕ
  size : ℕ

def Field.read (f : Field) (mem : List UInt8) : Option (List UInt8) := load mem f.off f.size

def Field.write (f : Field) (mem xs : List UInt8) : Option (List UInt8) := store mem f.off xs

/-- The value of a field in network byte order, as from `ntohs`. -/
def Field.value (f : Field) (mem : List UInt8) : Option ℕ :=
  (f.read mem).map fun bytes => bytes.foldl (fun n b => 256 * n + b.toNat) 0

/-! ## The structures -/

def ETH_ADDR_LENGTH : ℕ := 6

def PROTO_IP : ℕ := 0x0800

def PROTO_ARP : ℕ := 0x0806

def PROTO_UDP : ℕ := 17

/-- `eh.h_dst` -/
def ehDst : Field := ⟨0, ETH_ADDR_LENGTH⟩

/-- `eh.h_src` -/
def ehSrc : Field := ⟨6, ETH_ADDR_LENGTH⟩

/-- `eh.h_proto` -/
def ehProto : Field := ⟨12, 2⟩

/-- `sizeof(struct ethhdr)` -/
def sizeofEthhdr : ℕ := 14

/-- `udp->ip.type`, behind `hdrlen` and `version`, `tos`, `totlen`, `id`, `flag_offset`, `ttl`. -/
def ipType : Field := ⟨sizeofEthhdr + 9, 1⟩

/-- `sizeof(struct iphdr)` -/
def sizeofIphdr : ℕ := 20

/-- `udp->udp.length`, behind `sport` and `dport`. -/
def udpLength : Field := ⟨sizeofEthhdr + sizeofIphdr + 4, 2⟩

/-- The offset of `udp->data`, behind the eight bytes of `struct udphdr`. -/
def udpData : ℕ := sizeofEthhdr + sizeofIphdr + 8

/-- `arp.h_addrlen` -/
def arpAddrlen : Field := ⟨sizeofEthhdr + 4, 1⟩

/-- `arp.h_protolen` -/
def arpProtolen : Field := ⟨sizeofEthhdr + 5, 1⟩

/-- `arp.oper` -/
def arpOper : Field := ⟨sizeofEthhdr + 6, 2⟩

/-- `arp.smac` -/
def arpSmac : Field := ⟨sizeofEthhdr + 8, ETH_ADDR_LENGTH⟩

/-- `arp.sip` -/
def arpSip : Field := ⟨sizeofEthhdr + 14, 4⟩

/-- `arp.dmac` -/
def arpDmac : Field := ⟨sizeofEthhdr + 18, ETH_ADDR_LENGTH⟩

/-- `arp.dip` -/
def arpDip : Field := ⟨sizeofEthhdr + 24, 4⟩

/-- `sizeof(struct arppkt)` -/
def sizeofArppkt : ℕ := sizeofEthhdr + 28

/-! ## The functions -/

/-- `str2mac` into a field. -/
def Field.writeMac (f : Field) (mem str : List UInt8) : Option (List UInt8) :=
  (f.read mem).bind fun mac => (str2mac mac str).bind fun mac => f.write mem mac

/-- `echo_arp_pkt`: the memory of `arp_rt` afterwards. -/
def echoArpPkt (arp arpRt mac : List UInt8) : Option (List UInt8) := do
  let arpRt ← memcpy arpRt 0 arp 0 sizeofArppkt
  let arpRt ← ehDst.write arpRt (← ehSrc.read arp)
  let arpRt ← ehSrc.writeMac arpRt mac
  let arpRt ← ehProto.write arpRt (← ehProto.read arp)
  let arpRt ← arpAddrlen.write arpRt [6]
  let arpRt ← arpProtolen.write arpRt [4]
  let arpRt ← arpOper.write arpRt [0, 2]
  let arpRt ← arpSmac.writeMac arpRt mac
  let arpRt ← arpSip.write arpRt (← arpDip.read arp)
  let arpRt ← arpDmac.write arpRt (← arpSmac.read arp)
  arpDip.write arpRt (← arpSip.read arp)

/-- `inet_addr("192.168.0.123")` -/
def ownIp : List UInt8 := [192, 168, 0, 123]

/-- The text of `ownMac`. -/
def ownMacText : List UInt8 := ofString "00:50:56:33:1c:ca" ++ [0]

/-- What `main` does with a frame: its memory afterwards, what is printed, and the frames that are
handed to `nm_inject`. -/
structure Handled where
  frame : List UInt8
  printed : List UInt8
  injected : List (List UInt8)
  deriving DecidableEq, Repr

/-- `mem[i] = b` for an index that may be negative. -/
def storeByte (mem : List UInt8) (i : ℤ) (b : UInt8) : Option (List UInt8) :=
  if i < 0 then none else store mem i.toNat [b]

/-- The branch of `main` for UDP. -/
def handleUdp (frame : List UInt8) : Option Handled :=
  (udpLength.value frame).bind fun udplength =>
    (storeByte frame (udpData + ((udplength : ℤ) - 8)) 0).bind fun frame =>
      (cstr (frame.drop udpData)).map fun data =>
        ⟨frame, ofString "udp --> " ++ data ++ ofString "\n", []⟩

/-- The branch of `main` for ARP. -/
def handleArp (frame : List UInt8) : Option Handled :=
  (arpDip.read frame).bind fun dip =>
    if dip = ownIp then
      (echoArpPkt frame (zeros sizeofArppkt) ownMacText).map fun arpRt =>
        ⟨frame, ofString "arp ret\n", [arpRt]⟩
    else some ⟨frame, [], []⟩

/-- The body of the loop of `main` for a frame from `nm_nextpkt`. -/
def handle (frame : List UInt8) : Option Handled :=
  (ehProto.value frame).bind fun proto =>
    if proto = PROTO_IP then
      (ipType.value frame).bind fun type =>
        if type = PROTO_UDP then handleUdp frame else some ⟨frame, [], []⟩
    else if proto = PROTO_ARP then handleArp frame
    else some ⟨frame, [], []⟩

/-! ## Fields -/

/-- Two fields have no byte in common. -/
def Field.Apart (f g : Field) : Prop := f.off + f.size ≤ g.off ∨ g.off + g.size ≤ f.off

instance (f g : Field) : Decidable (f.Apart g) := inferInstanceAs (Decidable (_ ∨ _))

/-- One write after the other. -/
def writeAll (mem : List UInt8) (writes : List (Field × List UInt8)) : Option (List UInt8) :=
  writes.foldlM (fun mem w => w.1.write mem w.2) mem

section Field

variable {f g : Field} {mem mem' xs : List UInt8}

theorem Field.read_isSome : (f.read mem).isSome ↔ f.off + f.size ≤ mem.length := load_isSome

theorem Field.value_isSome : (f.value mem).isSome ↔ f.off + f.size ≤ mem.length := by
  rw [Field.value, Option.isSome_map, Field.read_isSome]

theorem Field.read_write_self (h : f.write mem xs = some mem') (hsize : xs.length = f.size) :
    f.read mem' = some xs := by
  rw [Field.read, ← hsize]
  exact load_store_self h

theorem Field.read_write_apart (h : f.write mem xs = some mem') (hsize : xs.length = f.size)
    (hapart : g.Apart f) : g.read mem' = g.read mem := by
  apply load_store_apart h
  rw [hsize]
  exact hapart

/-- Writes to fields that are apart: each of them is read back, and the other fields are as
before. -/
theorem writeAll_spec {writes : List (Field × List UInt8)}
    (hfits : ∀ w ∈ writes, w.2.length = w.1.size ∧ w.1.off + w.1.size ≤ mem.length)
    (hapart : writes.Pairwise fun v w => v.1.Apart w.1) :
    ∃ mem', writeAll mem writes = some mem' ∧ mem'.length = mem.length ∧
      (∀ w ∈ writes, w.1.read mem' = some w.2) ∧
      ∀ g : Field, (∀ w ∈ writes, g.Apart w.1) → g.read mem' = g.read mem := by
  induction writes generalizing mem with
  | nil => exact ⟨mem, rfl, rfl, by simp, fun _ _ => rfl⟩
  | cons w writes ih =>
      obtain ⟨hsize, hw⟩ := hfits w List.mem_cons_self
      have hwrite : (w.1.write mem w.2).isSome := by
        rw [Field.write, store_isSome, hsize]
        exact hw
      obtain ⟨mem₁, hmem₁⟩ := Option.isSome_iff_exists.mp hwrite
      have hlen₁ : mem₁.length = mem.length := store_length hmem₁
      obtain ⟨hhead, htail⟩ := List.pairwise_cons.mp hapart
      have hfits₁ : ∀ v ∈ writes, v.2.length = v.1.size ∧ v.1.off + v.1.size ≤ mem₁.length := by
        intro v hv
        rw [hlen₁]
        exact hfits v (List.mem_cons_of_mem _ hv)
      obtain ⟨mem', hmem', hlen, hread, hother⟩ := ih hfits₁ htail
      refine ⟨mem', ?_, hlen.trans hlen₁, ?_, ?_⟩
      · rw [writeAll, List.foldlM_cons, hmem₁]
        exact hmem'
      · intro v hv
        rcases List.mem_cons.mp hv with rfl | hv
        · rw [hother v.1 hhead, Field.read_write_self hmem₁ hsize]
        · exact hread v hv
      · intro g hg
        rw [hother g fun v hv => hg v (List.mem_cons_of_mem _ hv),
          Field.read_write_apart hmem₁ hsize (hg w List.mem_cons_self)]

end Field

/-! ## The answer to an ARP request -/

theorem writeMac_ownMac {f : Field} (hsize : f.size = ETH_ADDR_LENGTH) (mem : List UInt8) :
    f.writeMac mem ownMacText = f.write mem ownMac := by
  cases hread : f.read mem with
  | none =>
      have hshort : ¬ f.off + f.size ≤ mem.length := by
        rw [← Field.read_isSome, hread]
        exact Bool.false_ne_true
      have hwrite : ¬ (f.write mem ownMac).isSome := by
        rw [Field.write, store_isSome]
        rwa [hsize] at hshort
      rw [Field.writeMac, hread, Option.not_isSome_iff_eq_none.mp hwrite]
      rfl
  | some mac =>
      have hlen : mac.length = 6 := (load_length hread).trans hsize
      have htext : ownMacText =
          joinGroups (ownMac.map (byteDigits false)) ++ (0 : UInt8) :: [] := by decide
      have hmac : str2mac mac ownMacText = some ownMac := by
        rw [htext, str2mac_joinGroups (char_ne (by decide)) (by decide) [] mac (by decide),
          map_groupValue_byteDigits, store_eq_some (by rw [hlen]; decide)]
        simp [hlen, ownMac]
      rw [Field.writeMac, hread, Option.bind_some, hmac, Option.bind_some]

/-- The answer to an ARP request. The fields in front of `h_addrlen` are copied. -/
structure Answers (arp reply : List UInt8) : Prop where
  length : reply.length = sizeofArppkt
  dst : ehDst.read reply = ehSrc.read arp
  src : ehSrc.read reply = some ownMac
  proto : ehProto.read reply = ehProto.read arp
  addrlen : arpAddrlen.read reply = some [6]
  protolen : arpProtolen.read reply = some [4]
  oper : arpOper.read reply = some [0, 2]
  smac : arpSmac.read reply = some ownMac
  sip : arpSip.read reply = arpDip.read arp
  dmac : arpDmac.read reply = arpSmac.read arp
  dip : arpDip.read reply = arpSip.read arp
  types : ∀ f : Field, sizeofEthhdr ≤ f.off → f.off + f.size ≤ arpAddrlen.off →
    f.read reply = f.read arp

/-- The fields that `echo_arp_pkt` writes. -/
def answerFields : List Field :=
  [ehDst, ehSrc, ehProto, arpAddrlen, arpProtolen, arpOper, arpSmac, arpSip, arpDmac, arpDip]

theorem exists_read {f : Field} {mem : List UInt8} (h : f.off + f.size ≤ mem.length) :
    ∃ bytes, f.read mem = some bytes ∧ bytes.length = f.size := by
  obtain ⟨bytes, hbytes⟩ := Option.isSome_iff_exists.mp (load_isSome.mpr h)
  exact ⟨bytes, hbytes, load_length hbytes⟩

/-- The writes of `echo_arp_pkt` into the copy, for these fields of the request. -/
def answerWrites (src proto smac sip dip : List UInt8) : List (Field × List UInt8) :=
  [(ehDst, src), (ehSrc, ownMac), (ehProto, proto), (arpAddrlen, [6]), (arpProtolen, [4]),
    (arpOper, [0, 2]), (arpSmac, ownMac), (arpSip, dip), (arpDmac, smac), (arpDip, sip)]

section Answers

variable {arp arpRt src proto smac sip dip : List UInt8}

theorem echoArpPkt_eq (harp : sizeofArppkt ≤ arp.length) (hlen : arpRt.length = sizeofArppkt)
    (hsrc : ehSrc.read arp = some src) (hproto : ehProto.read arp = some proto)
    (hsmac : arpSmac.read arp = some smac) (hsip : arpSip.read arp = some sip)
    (hdip : arpDip.read arp = some dip) :
    echoArpPkt arp arpRt ownMacText =
      writeAll (arp.take sizeofArppkt) (answerWrites src proto smac sip dip) := by
  simp only [echoArpPkt, memcpy_full harp hlen, hsrc, hproto, hsmac, hsip, hdip,
    writeMac_ownMac (f := ehSrc) rfl, writeMac_ownMac (f := arpSmac) rfl, writeAll, answerWrites,
    List.foldlM_cons, List.foldlM_nil, Option.bind_eq_bind, Option.bind_some]
  simp

theorem answerWrites_sizes (hsrc : src.length = 6) (hproto : proto.length = 2)
    (hsmac : smac.length = 6) (hsip : sip.length = 4) (hdip : dip.length = 4) :
    ∀ w ∈ answerWrites src proto smac sip dip,
      w.2.length = w.1.size ∧ w.1.off + w.1.size ≤ sizeofArppkt := by
  simp only [answerWrites, List.forall_mem_cons, List.not_mem_nil, false_implies, implies_true,
    and_true, hsrc, hproto, hsmac, hsip, hdip]
  decide

theorem answerWrites_apart (src proto smac sip dip : List UInt8) :
    (answerWrites src proto smac sip dip).Pairwise fun v w => v.1.Apart w.1 := by
  have hfields : answerFields.Pairwise Field.Apart := by decide
  have hmap : (answerWrites src proto smac sip dip).map Prod.fst = answerFields := rfl
  rw [← hmap] at hfields
  exact List.pairwise_map.mp hfields

/-- `echo_arp_pkt` on a packet that is long enough. -/
theorem echoArpPkt_answers (harp : sizeofArppkt ≤ arp.length)
    (hlen : arpRt.length = sizeofArppkt) :
    ∃ reply, echoArpPkt arp arpRt ownMacText = some reply ∧ Answers arp reply := by
  have hfits : ∀ f ∈ answerFields, f.off + f.size ≤ arp.length := by
    intro f hf
    have hwithin : ∀ f ∈ answerFields, f.off + f.size ≤ sizeofArppkt := by decide
    exact (hwithin f hf).trans harp
  obtain ⟨src, hsrc, hsrcLen⟩ := exists_read (hfits ehSrc (by simp [answerFields]))
  obtain ⟨proto, hproto, hprotoLen⟩ := exists_read (hfits ehProto (by simp [answerFields]))
  obtain ⟨smac, hsmac, hsmacLen⟩ := exists_read (hfits arpSmac (by simp [answerFields]))
  obtain ⟨sip, hsip, hsipLen⟩ := exists_read (hfits arpSip (by simp [answerFields]))
  obtain ⟨dip, hdip, hdipLen⟩ := exists_read (hfits arpDip (by simp [answerFields]))
  have hbase : (arp.take sizeofArppkt).length = sizeofArppkt := by simpa using harp
  have hsizes := answerWrites_sizes hsrcLen hprotoLen hsmacLen hsipLen hdipLen
  rw [← hbase] at hsizes
  obtain ⟨reply, hreply, hlength, hread, hother⟩ :=
    writeAll_spec hsizes (answerWrites_apart src proto smac sip dip)
  refine ⟨reply, (echoArpPkt_eq harp hlen hsrc hproto hsmac hsip hdip).trans hreply,
    hlength.trans hbase, ?_, ?_, ?_, ?_, ?_, ?_, ?_, ?_, ?_, ?_, ?_⟩
  · rw [hsrc]
    exact hread (ehDst, src) (by simp [answerWrites])
  · exact hread (ehSrc, ownMac) (by simp [answerWrites])
  · rw [hproto]
    exact hread (ehProto, proto) (by simp [answerWrites])
  · exact hread (arpAddrlen, [6]) (by simp [answerWrites])
  · exact hread (arpProtolen, [4]) (by simp [answerWrites])
  · exact hread (arpOper, [0, 2]) (by simp [answerWrites])
  · exact hread (arpSmac, ownMac) (by simp [answerWrites])
  · rw [hdip]
    exact hread (arpSip, dip) (by simp [answerWrites])
  · rw [hsmac]
    exact hread (arpDmac, smac) (by simp [answerWrites])
  · rw [hsip]
    exact hread (arpDip, sip) (by simp [answerWrites])
  · intro f hlow hhigh
    have happart : ∀ w ∈ answerWrites src proto smac sip dip, f.Apart w.1 := by
      simp only [answerWrites, List.forall_mem_cons, List.not_mem_nil, false_implies,
        implies_true, and_true, Field.Apart, ehDst, ehSrc, ehProto, arpAddrlen, arpProtolen,
        arpOper, arpSmac, arpSip, arpDmac, arpDip, sizeofEthhdr, ETH_ADDR_LENGTH] at hlow hhigh ⊢
      omega
    rw [hother f happart]
    exact load_take (hhigh.trans (by decide))

end Answers

/-! ## Accesses inside of the frame -/

/-- The length in the header of UDP lies in the frame, and so does the byte that it leads to. A
zero byte of the frame, which may be this one, ends the data. -/
def UdpFits (frame : List UInt8) : Prop :=
  ∃ udplength, udpLength.value frame = some udplength ∧
    udpData + udplength < frame.length + 8 ∧
    ∃ j < frame.length, udpData ≤ j ∧ (j + 8 = udpData + udplength ∨ frame[j]? = some 0)

/-- The frame has all that its protocol is answered from. -/
structure Fits (frame : List UInt8) : Prop where
  ip : ehProto.value frame = some PROTO_IP → ipType.off + ipType.size ≤ frame.length
  udp : ehProto.value frame = some PROTO_IP → ipType.value frame = some PROTO_UDP → UdpFits frame
  arp : ehProto.value frame = some PROTO_ARP → sizeofArppkt ≤ frame.length

section Handle

variable {frame : List UInt8}

/-- A string from a place on that ends within the area. -/
theorem cstr_drop_isSome {mem : List UInt8} {k : ℕ} :
    (cstr (mem.drop k)).isSome ↔ ∃ j < mem.length, k ≤ j ∧ mem[j]? = some 0 := by
  have hcstr : (cstr (mem.drop k)).isSome ↔ (0 : UInt8) ∈ mem.drop k := by
    unfold cstr
    split
    · rename_i h
      exact iff_of_true rfl h
    · rename_i h
      exact iff_of_false (by simp) h
  rw [hcstr, List.mem_iff_getElem?]
  constructor
  · rintro ⟨i, hi⟩
    rw [List.getElem?_drop] at hi
    exact ⟨k + i, (List.getElem?_eq_some_iff.mp hi).1, Nat.le_add_right k i, hi⟩
  · rintro ⟨j, -, hkj, hj⟩
    refine ⟨j - k, ?_⟩
    rwa [List.getElem?_drop, Nat.add_sub_cancel' hkj]

/-- The byte at `udp->data[udplength - 8]` lies behind the header of IP. -/
theorem storeByte_udp (frame : List UInt8) (udplength : ℕ) :
    storeByte frame (udpData + ((udplength : ℤ) - 8)) 0 =
      store frame (udpData + udplength - 8) [0] := by
  have hplace : (udpData : ℤ) + ((udplength : ℤ) - 8) = ((udpData + udplength - 8 : ℕ) : ℤ) := by
    simp only [udpData, sizeofEthhdr, sizeofIphdr]
    omega
  rw [hplace, storeByte, if_neg (by omega), Int.toNat_natCast]

theorem handleUdp_isSome : (handleUdp frame).isSome ↔ UdpFits frame := by
  have hdata : udpData = 42 := rfl
  rw [handleUdp, UdpFits]
  cases hlength : udpLength.value frame with
  | none => simp
  | some udplength =>
      simp only [Option.bind_some, storeByte_udp, Option.some.injEq, exists_eq_left']
      cases hstore : store frame (udpData + udplength - 8) [0] with
      | none =>
          have hshort : ¬ (store frame (udpData + udplength - 8) [0]).isSome := by simp [hstore]
          rw [store_isSome, List.length_singleton] at hshort
          refine iff_of_false (by simp) ?_
          rintro ⟨hin, -⟩
          omega
      | some frame' =>
          have hin : (store frame (udpData + udplength - 8) [0]).isSome := by simp [hstore]
          rw [store_isSome, List.length_singleton] at hin
          rw [Option.bind_some, Option.isSome_map, cstr_drop_isSome, store_length hstore,
            and_iff_right (by omega)]
          apply exists_congr
          intro j
          rw [store_single_getElem? hstore]
          split
          · rename_i hj
            have hend : j + 8 = udpData + udplength := by omega
            simp [hend]
          · rename_i hj
            have hend : ¬ j + 8 = udpData + udplength := by omega
            simp [hend]

theorem handleArp_isSome : (handleArp frame).isSome ↔ sizeofArppkt ≤ frame.length := by
  constructor
  · intro h
    have hdip : (arpDip.read frame).isSome := by
      cases hdip : arpDip.read frame with
      | none =>
          rw [handleArp, hdip] at h
          exact absurd h Bool.false_ne_true
      | some dip => rfl
    exact Field.read_isSome.mp hdip
  · intro h
    obtain ⟨dip, hdip, -⟩ := exists_read (f := arpDip) h
    obtain ⟨reply, hreply, -⟩ := echoArpPkt_answers h (length_zeros sizeofArppkt)
    rw [handleArp, hdip, Option.bind_some]
    split
    · rw [hreply]
      rfl
    · rfl

theorem fits_iff_of_ip (hip : ehProto.value frame = some PROTO_IP) :
    Fits frame ↔ ipType.off + ipType.size ≤ frame.length ∧
      (ipType.value frame = some PROTO_UDP → UdpFits frame) := by
  have hnotArp : ¬ ehProto.value frame = some PROTO_ARP := by
    rw [hip]
    decide
  constructor
  · intro h
    exact ⟨h.ip hip, h.udp hip⟩
  · rintro ⟨hlong, hudp⟩
    exact ⟨fun _ => hlong, fun _ => hudp, fun harp => absurd harp hnotArp⟩

theorem fits_iff_of_not_ip (hip : ¬ ehProto.value frame = some PROTO_IP) :
    Fits frame ↔ (ehProto.value frame = some PROTO_ARP → sizeofArppkt ≤ frame.length) := by
  constructor
  · intro h
    exact h.arp
  · intro harp
    exact ⟨fun h => absurd h hip, fun h => absurd h hip, harp⟩

/-- **Frames.** `main` answers a frame, which is at least as long as its first header, without an
access outside of it exactly when it fits. -/
theorem handle_isSome_iff (hframe : sizeofEthhdr ≤ frame.length) :
    (handle frame).isSome ↔ Fits frame := by
  have hvalue : (ehProto.value frame).isSome := Field.value_isSome.mpr hframe
  obtain ⟨proto, hproto⟩ := Option.isSome_iff_exists.mp hvalue
  rw [handle, hproto, Option.bind_some]
  by_cases hip : proto = PROTO_IP
  · rw [if_pos hip, fits_iff_of_ip (hproto.trans (congrArg some hip)), ← Field.value_isSome]
    cases htype : ipType.value frame with
    | none => simp
    | some type =>
        rw [Option.bind_some]
        by_cases hudp : type = PROTO_UDP
        · rw [if_pos hudp, handleUdp_isSome]
          simp [hudp]
        · rw [if_neg hudp]
          simp [hudp]
  · have hnotIp : ¬ ehProto.value frame = some PROTO_IP := by
      rw [hproto]
      exact fun h => hip (Option.some.inj h)
    rw [if_neg hip, fits_iff_of_not_ip hnotIp, hproto]
    by_cases harp : proto = PROTO_ARP
    · rw [if_pos harp, handleArp_isSome]
      simp [harp]
    · rw [if_neg harp]
      simp [harp]

end Handle

/-- A datagram with this length in its header and these bytes behind the headers. -/
def datagram (udplength : List UInt8) (data : List UInt8) : List UInt8 :=
  zeros 12 ++ [0x08, 0x00] ++ zeros 9 ++ [17] ++ zeros 14 ++ udplength ++ zeros 2 ++ data

theorem handle_isSome_iff_datagram :
    handle (datagram [0, 11] (ofString "abcd")) =
        some ⟨datagram [0, 11] (ofString "abc" ++ [0]), ofString "udp --> abc\n", []⟩ ∧
      ((handle (datagram [0, 11] (ofString "abcd"))).isSome ↔
        Fits (datagram [0, 11] (ofString "abcd"))) :=
  ⟨by decide +kernel, handle_isSome_iff (by decide)⟩

/-- The zero byte is stored far behind the frame; and a frame that ends with its first header has
no protocol of IP. -/
theorem handle_outside :
    (sizeofEthhdr ≤ (datagram [255, 255] (zeros 18)).length ∧
      handle (datagram [255, 255] (zeros 18)) = none) ∧
      sizeofEthhdr ≤ (zeros 12 ++ [0x08, 0x00]).length ∧
        handle (zeros 12 ++ [0x08, 0x00]) = none := by
  decide +kernel

end ServerKit.NetFamily
