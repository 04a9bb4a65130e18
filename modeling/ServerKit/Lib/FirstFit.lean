import Mathlib.Tactic.Common

/-! # First fit

Requests are served by the first of a list of arenas that has room. If there is none, a new arena
is asked for, which comes behind the others. What an arena is, and when it has room, is open. -/

namespace ServerKit.FirstFit

variable {α ρ β : Type*}

/-- The first arena with room for the request, and what it gives. -/
def serve (fit : ρ → α → Option (β × α)) (request : ρ) : List α → Option (β × List α)
  | [] => none
  | arena :: arenas =>
    match fit request arena with
    | some (block, arena) => some (block, arena :: arenas)
    | none => (serve fit request arenas).map fun (block, arenas) => (block, arena :: arenas)

/-- A request, with a new arena if no arena has room. -/
def step (fit : ρ → α → Option (β × α)) (extend : ρ → List α → Option (β × α))
    (arenas : List α) (request : ρ) : List α × Option β :=
  match serve fit request arenas with
  | some (block, arenas) => (arenas, some block)
  | none =>
    match extend request arenas with
    | some (block, arena) => (arenas ++ [arena], some block)
    | none => (arenas, none)

variable {fit : ρ → α → Option (β × α)} {request : ρ} {arenas arenas' : List α}

theorem serve_cons_none {arena : α} (h : fit request arena = none) :
    serve fit request (arena :: arenas) =
      (serve fit request arenas).map fun (block, arenas) => (block, arena :: arenas) := by
  rw [serve, h]

/-- Arenas without room need not be searched. -/
theorem serve_append (h : ∀ arena ∈ arenas, fit request arena = none) :
    serve fit request (arenas ++ arenas') =
      (serve fit request arenas').map fun (block, rest) => (block, arenas ++ rest) := by
  induction arenas with
  | nil => cases hserve : serve fit request arenas' <;> simp [hserve]
  | cons arena arenas ih =>
      rw [List.cons_append, serve_cons_none (h arena List.mem_cons_self),
        ih fun arena harena => h arena (List.mem_cons_of_mem _ harena), Option.map_map]
      rfl

end ServerKit.FirstFit
