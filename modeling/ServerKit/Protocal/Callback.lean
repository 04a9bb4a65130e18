import ServerKit.Lib.Memory
import ServerKit.Lib.System
import ServerKit.Lib.Transducer

/-! # The callback of `Protocal_Demo/websocketserver.c`

`libwebsockets` calls `protocol_my_callback` for every connection. A `struct lws*` is its
address, and `NULL` is 0. What the application does in `p_callback` is a parameter. -/

namespace ServerKit.Protocal

open ServerKit.Memory ServerKit.System ServerKit.Transducer

def MAX_PAYLOAD_SIZE : ℕ := 10 * 1024

def LWS_PRE : ℕ := 16

/-- `lws_mes_t`, without the buffer that nothing reads. -/
structure LwsMes where
  wsi : ℕ
  sendbuffer : List UInt8
  length_sendbuffer : sendbuffer.length = 1024
  sendnlen : ℕ
  deriving DecidableEq, Repr

/-- `struct session_data`, without its counter, which nothing reads. -/
structure SessionData where
  buf : List UInt8
  length_buf : buf.length = LWS_PRE + MAX_PAYLOAD_SIZE
  len : ℕ
  bin : Bool
  fin : Bool
  deriving DecidableEq, Repr

/-- The reason of a call, with what `lws_is_final_fragment` and `lws_frame_is_binary` answer. -/
inductive Reason where
  | established
  | receive (input : List UInt8) (final binary : Bool)
  | serverWriteable
  | closed
  | other
  deriving DecidableEq, Repr

/-- A call that leaves the file. -/
inductive Effect where
  | pCallback (input : List UInt8)
  | lwsWrite (wsi : ℕ) (bytes : List UInt8)
  deriving DecidableEq, Repr

/-- The global `lws_context`, the session of every connection, and what the application
keeps. -/
structure Service (α : Type) where
  lwsContext : LwsMes
  user : ℕ → SessionData
  app : α

section Callback

variable {α : Type} (pCallback : LwsMes → α → List UInt8 → LwsMes × α)

/-- The reason `LWS_CALLBACK_RECEIVE`; `p_callback` gets what has just been received. -/
def receive (s : Service α) (wsi : ℕ) (input : List UInt8) (final binary : Bool) :
    Option (Service α × List Effect) :=
  let data := s.user wsi
  match h : store data.buf LWS_PRE input with
  | none => none
  | some buf =>
    let data := {
      buf := buf
      length_buf := (store_length h).trans data.length_buf
      len := input.length
      bin := binary
      fin := final }
    let (lwsContext, app) := pCallback s.lwsContext s.app input
    some (⟨lwsContext, Function.update s.user wsi data, app⟩, [.pCallback input])

def protocolMyCallback (s : Service α) (wsi : ℕ) :
    Reason → Option (Service α × List Effect)
  | .established => some ({ s with lwsContext := { s.lwsContext with wsi := wsi } }, [])
  | .receive input final binary => receive pCallback s wsi input final binary
  | .serverWriteable => do
    let data := s.user wsi
    let bytes ← load data.buf LWS_PRE data.len
    return (s, [.lwsWrite wsi bytes])
  | .closed => some ({ s with lwsContext := { s.lwsContext with wsi := 0 } }, [])
  | .other => some (s, [])

/-! ## Fragments of a message -/

/-- The calls for the fragments of a text message; the last one is final. -/
def deliveries : List (List UInt8) → List Reason
  | [] => []
  | [fragment] => [.receive fragment true false]
  | fragment :: fragments => .receive fragment false false :: deliveries fragments

/-- The application sees the message that the fragments make up, once and whole, so that it is
left as after one call of `p_callback` on it. -/
def SeenWhole (s : Service α) (wsi : ℕ) (fragments : List (List UInt8)) : Prop :=
  ∃ s' effects,
    run (fun s => protocolMyCallback pCallback s wsi) s (deliveries fragments) =
      some (s', effects) ∧
    effects.flatten = [.pCallback fragments.flatten] ∧
    (s'.lwsContext, s'.app) = pCallback s.lwsContext s.app fragments.flatten

/-- A fragment that fits is handed on by itself. -/
theorem receive_spec (s : Service α) (wsi : ℕ) {input : List UInt8} (final binary : Bool)
    (hinput : input.length ≤ MAX_PAYLOAD_SIZE) :
    ∃ s', receive pCallback s wsi input final binary = some (s', [.pCallback input]) ∧
      (s'.lwsContext, s'.app) = pCallback s.lwsContext s.app input := by
  have hlength := (s.user wsi).length_buf
  have hstore := store_eq_some (show LWS_PRE + input.length ≤ (s.user wsi).buf.length by omega)
  rw [receive]
  split
  · rename_i hnone
    rw [hstore] at hnone
    cases hnone
  · exact ⟨_, rfl, rfl⟩

theorem deliveries_cons {fragment : List UInt8} {fragments : List (List UInt8)}
    (hne : fragments ≠ []) :
    deliveries (fragment :: fragments) = .receive fragment false false :: deliveries fragments := by
  cases fragments with
  | nil => contradiction
  | cons fragment' fragments => rfl

/-- Every fragment leads to a call of `p_callback` of its own. -/
theorem run_deliveries {wsi : ℕ} {fragments : List (List UInt8)}
    (hmax : ∀ fragment ∈ fragments, fragment.length ≤ MAX_PAYLOAD_SIZE) (s : Service α) :
    ∃ s', run (fun s => protocolMyCallback pCallback s wsi) s (deliveries fragments) =
        some (s', fragments.map fun fragment => [.pCallback fragment]) ∧
      (s'.lwsContext, s'.app) =
        fragments.foldl (fun c input => pCallback c.1 c.2 input) (s.lwsContext, s.app) := by
  induction fragments generalizing s with
  | nil => exact ⟨s, rfl, rfl⟩
  | cons fragment fragments ih =>
      have hfragment := hmax fragment List.mem_cons_self
      by_cases hlast : fragments = []
      · subst hlast
        rcases receive_spec pCallback s wsi true false hfragment with ⟨s', hreceive, happ⟩
        exact ⟨s', by simp [deliveries, run, protocolMyCallback, hreceive], happ⟩
      · rcases receive_spec pCallback s wsi false false hfragment with ⟨s₁, hreceive, happ₁⟩
        rcases ih (fun fragment' h => hmax fragment' (List.mem_cons_of_mem _ h)) s₁ with
          ⟨s₂, hrun, happ₂⟩
        refine ⟨s₂, ?_, ?_⟩
        · rw [deliveries_cons hlast]
          simp only [run, protocolMyCallback, hreceive, hrun, Option.bind_some, Option.map_some,
            List.map_cons]
        · rw [List.foldl_cons, ← happ₁]
          exact happ₂

variable {pCallback}

/-- The application sees a message whole exactly when it comes in one fragment. -/
theorem seenWhole_iff_single {wsi : ℕ} {fragments : List (List UInt8)}
    (hmax : ∀ fragment ∈ fragments, fragment.length ≤ MAX_PAYLOAD_SIZE) (s : Service α) :
    SeenWhole pCallback s wsi fragments ↔ fragments.length = 1 := by
  rcases run_deliveries pCallback hmax s with ⟨s', hrun, happ⟩
  constructor
  · rintro ⟨s₁, effects, hrun₁, heffects, -⟩
    rw [hrun, Option.some.injEq, Prod.mk.injEq] at hrun₁
    have hlength := congrArg List.length heffects
    rw [← hrun₁.2] at hlength
    simpa [List.length_flatten, Function.comp_def] using hlength
  · intro hone
    rcases List.length_eq_one_iff.mp hone with ⟨message, rfl⟩
    refine ⟨s', _, hrun, ?_, ?_⟩
    · simp
    · simpa using happ

end Callback

/-- A process with no client yet. -/
def fresh : Service Unit where
  lwsContext := ⟨0, List.replicate 1024 0, List.length_replicate, 0⟩
  user := fun _ => ⟨List.replicate (LWS_PRE + MAX_PAYLOAD_SIZE) 0, List.length_replicate, 0,
    false, false⟩
  app := ()

/-- An application that keeps nothing. -/
def ignore (lwsContext : LwsMes) (_ : Unit) (_ : List UInt8) : LwsMes × Unit := (lwsContext, ())

/-- The text `{"a":1}` in one fragment and in three. -/
theorem seenWhole_iff_single_fragments :
    SeenWhole ignore fresh 1 [[123, 34, 97, 34, 58, 49, 125]] ∧
      ¬ SeenWhole ignore fresh 1 [[123, 34], [97, 34, 58], [49, 125]] :=
  ⟨(seenWhole_iff_single (by decide) fresh).mpr rfl,
    fun hwhole => absurd ((seenWhole_iff_single (by decide) fresh).mp hwhole) (by decide)⟩

/-- A message of two bytes in two fragments. -/
theorem not_seenWhole_split : ¬ SeenWhole ignore fresh 1 [[123], [125]] := by
  rintro ⟨s', effects, hrun, heffects, -⟩
  have hmax : ∀ fragment ∈ ([[123], [125]] : List (List UInt8)),
      fragment.length ≤ MAX_PAYLOAD_SIZE := by decide
  rcases run_deliveries ignore hmax fresh with ⟨s₁, hrun₁, -⟩
  rw [hrun₁, Option.some.injEq, Prod.mk.injEq] at hrun
  rw [← hrun.2] at heffects
  simp at heffects

/-! ## The send target -/

/-- A callback for a connection that is established or closed. -/
inductive Turn where
  | established (wsi : ℕ)
  | closed (wsi : ℕ)
  deriving DecidableEq, Repr

/-- The process and the connections that are open. -/
structure Clients (α : Type) where
  service : Service α
  opened : List ℕ

section Target

variable {α : Type} (pCallback : LwsMes → α → List UInt8 → LwsMes × α)

/-- A new connection has an address of its own; one that is closed was open. -/
def Clients.next (c : Clients α) : Turn → Option (Clients α)
  | .established wsi =>
    if wsi = 0 ∨ wsi ∈ c.opened then none
    else (protocolMyCallback pCallback c.service wsi .established).map fun out =>
      ⟨out.1, wsi :: c.opened⟩
  | .closed wsi =>
    if wsi ∈ c.opened then
      (protocolMyCallback pCallback c.service wsi .closed).map fun out =>
        ⟨out.1, c.opened.filter (· ≠ wsi)⟩
    else none

/-- `lws_context.wsi` is an open connection, and `NULL` exactly when there is none. -/
structure Clients.Targets (c : Clients α) : Prop where
  null : c.service.lwsContext.wsi = 0 ↔ c.opened = []
  opened : c.opened ≠ [] → c.service.lwsContext.wsi ∈ c.opened

/-- Nobody else is connected when a connection is closed. -/
def ClosesLast (c : Clients α) : Turn → Prop
  | .established _ => True
  | .closed wsi => ∀ other ∈ c.opened, other = wsi

instance (c : Clients α) : (turn : Turn) → Decidable (ClosesLast c turn)
  | .established _ => .isTrue trivial
  | .closed _ => inferInstanceAs (Decidable (∀ _ ∈ _, _))

variable {pCallback}

/-- One turn: the handle stays right exactly when no other connection is cut off. -/
theorem Clients.next_targets {c c' : Clients α} {turn : Turn}
    (h : c.next pCallback turn = some c') : c'.Targets ↔ ClosesLast c turn := by
  cases turn with
  | established wsi =>
      rw [Clients.next] at h
      split at h
      · cases h
      · rename_i hfresh
        cases h
        refine iff_of_true ⟨?_, ?_⟩ trivial
        · exact iff_of_false (fun hnull => hfresh (Or.inl hnull)) (List.cons_ne_nil _ _)
        · intro _
          exact List.mem_cons_self
  | closed wsi =>
      rw [Clients.next] at h
      split at h
      · rename_i hopen
        cases h
        constructor
        · intro htargets other hother
          have hnil : c.opened.filter (· ≠ wsi) = [] := htargets.null.mp rfl
          simpa using List.filter_eq_nil_iff.mp hnil other hother
        · intro hlast
          have hnil : c.opened.filter (· ≠ wsi) = [] := by
            apply List.filter_eq_nil_iff.mpr
            intro other hother
            simp [hlast other hother]
          refine ⟨iff_of_true rfl hnil, ?_⟩
          intro hne
          exact absurd hnil hne
      · cases h

/-- In a run from a process without clients, the send target is right all the time exactly when
no connection is closed while another one is open. -/
theorem targets_iff_closesLast {c t : Clients α} (hnull : c.service.lwsContext.wsi = 0)
    (hnone : c.opened = []) {turns : List Turn}
    (hexec : exec (Clients.next pCallback) c turns = some t) :
    Throughout (Clients.next pCallback) Clients.Targets c turns ↔
      Admits (Clients.next pCallback) ClosesLast c turns := by
  have hstart : c.Targets := by
    refine ⟨iff_of_true hnull hnone, ?_⟩
    intro hne
    exact absurd hnone hne
  exact throughout_iff_admits (fun _ _ _ _ hnext => Clients.next_targets hnext) hstart hexec

end Target

/-- A client comes, goes and comes again. -/
theorem targets_iff_closesLast_again :
    Throughout (Clients.next ignore) Clients.Targets ⟨fresh, []⟩
        [.established 8, .closed 8, .established 16] ↔
      Admits (Clients.next ignore) ClosesLast ⟨fresh, []⟩
        [.established 8, .closed 8, .established 16] :=
  targets_iff_closesLast rfl rfl (t := ⟨_, [16]⟩) rfl

/-- Two clients, and the first one leaves. -/
theorem closing_cuts_off_other :
    ∃ c, exec (Clients.next ignore) ⟨fresh, []⟩ [.established 8, .established 16, .closed 8] =
        some c ∧ c.opened = [16] ∧ c.service.lwsContext.wsi = 0 ∧ ¬ c.Targets := by
  refine ⟨_, rfl, rfl, rfl, ?_⟩
  intro htargets
  exact absurd (htargets.null.mp rfl) (List.cons_ne_nil 16 [])

end ServerKit.Protocal
