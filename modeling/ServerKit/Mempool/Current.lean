import Mathlib.Tactic.IntervalCases
import ServerKit.Mempool.Ownership

/-! # The failures of the nodes and `current`

Every new node raises the failures of all nodes from `current` on but the last. A node that had
five of them is left behind, so that `current` never falls back more than seven nodes. -/

namespace ServerKit.Mempool

/-- The failures of the last `k` nodes. -/
def recent (k : ℕ) : List ℕ := (List.range (k - 1)).reverse ++ [0]

/-- The failures of a chain of `n` nodes. -/
def ledger (n : ℕ) : List ℕ := List.replicate (n - 7) 6 ++ recent (min n 7)

/-- The failures and `current` are those of a chain of this length. -/
structure Pool.Ledger (pool : Pool) : Prop where
  failed : pool.chain.map (·.failed) = ledger pool.chain.length
  current : pool.current = pool.chain.length - 7

/-! ## The ledger -/

theorem getElem?_recent {k i : ℕ} (hi : i < k) :
    (recent k)[i]? = some (if i + 1 = k then 0 else k - 2 - i) := by
  rw [recent]
  by_cases hlast : i + 1 = k
  · rw [if_pos hlast, List.getElem?_append_right (by simp; omega)]
    have hzero : i - (List.range (k - 1)).reverse.length = 0 := by
      simp only [List.length_reverse, List.length_range]
      omega
    rw [hzero]
    rfl
  · rw [if_neg hlast, List.getElem?_append_left (by simp; omega),
      List.getElem?_reverse (by simp; omega), List.length_range,
      List.getElem?_range (by omega)]
    congr 1

/-- The failures of the node at position `i`. -/
theorem getElem?_ledger {n i : ℕ} (hi : i < n) :
    (ledger n)[i]? = some (if i + 1 = n then 0 else min 6 (n - 2 - i)) := by
  rw [ledger]
  by_cases hold : i < n - 7
  · rw [List.getElem?_append_left (by simpa using hold), List.getElem?_replicate, if_pos hold,
      if_neg (by omega)]
    congr 1
    omega
  · rw [List.getElem?_append_right (by simpa using hold), List.length_replicate,
      getElem?_recent (by omega)]
    by_cases hlast : i + 1 = n
    · rw [if_pos hlast, if_pos (by omega)]
    · rw [if_neg hlast, if_neg (by omega)]
      congr 1
      omega

theorem drop_ledger (n : ℕ) : (ledger n).drop (n - 7) = recent (min n 7) := by
  rw [ledger, List.drop_left' (List.length_replicate)]

/-! ## Counting -/

/-- The loop of `mp_alloc_block` on the failures. -/
def countUp (i current : ℕ) : List ℕ → List ℕ × ℕ
  | failed :: next :: rest =>
    let counted := countUp (i + 1) (if failed > 4 then i + 1 else current) (next :: rest)
    (add64 failed 1 :: counted.1, counted.2)
  | failed => (failed, current)

theorem countFailures_failed (i current : ℕ) (nodes : List Node) :
    ((countFailures i current nodes).1.map (·.failed), (countFailures i current nodes).2) =
      countUp i current (nodes.map (·.failed)) := by
  induction nodes generalizing i current with
  | nil => rfl
  | cons p rest ih =>
    cases rest with
    | nil => rfl
    | cons q rest =>
      have hrest := ih (i + 1) (if p.failed > 4 then i + 1 else current)
      rw [List.map_cons] at hrest
      simp only [countFailures, List.map_cons, countUp, ← hrest]

/-- One more node, while there are fewer than seven, and from then on. -/
theorem countUp_recent {k : ℕ} (hpos : 1 ≤ k) (hk : k ≤ 7) (i : ℕ) :
    ((countUp i i (recent k)).1 ++ [0], (countUp i i (recent k)).2) =
      if k < 7 then (recent (k + 1), i) else (6 :: recent 7, i + 1) := by
  interval_cases k <;> rfl

/-- The node that `mp_alloc_block` adds keeps the ledger. -/
theorem Pool.Ledger.addNode {pool : Pool} (h : pool.Ledger) {node : Node}
    (hnode : node.failed = 0) :
    let counted := countFailures pool.current pool.current (pool.chain.drop pool.current)
    (pool.replace (counted.1 ++ [node]) counted.2).Ledger := by
  obtain ⟨hfailed, hcurrent⟩ := h
  intro counted
  generalize hn : pool.chain.length = n at hfailed hcurrent
  have hpos : 1 ≤ n := by simp [← hn, Pool.chain]
  have hcount := countFailures_failed pool.current pool.current (pool.chain.drop pool.current)
  rw [List.map_drop, hfailed, hcurrent, drop_ledger, ← hcurrent] at hcount
  have hrecent := countUp_recent (k := min n 7) (by omega) (by omega) pool.current
  rw [← hcount] at hrecent
  have htake : (pool.chain.take pool.current).map (·.failed) = List.replicate (n - 7) 6 := by
    rw [List.map_take, hfailed, hcurrent, ledger, List.take_left' List.length_replicate]
  have hchain : (pool.replace (counted.1 ++ [node]) counted.2).chain =
      pool.chain.take pool.current ++ (counted.1 ++ [node]) := replace_chain (by simp)
  have hlength : (pool.replace (counted.1 ++ [node]) counted.2).chain.length = n + 1 := by
    have hmap := congrArg List.length (countFailures_map (f := fun _ => ()) (fun _ _ => rfl)
      pool.current pool.current (pool.chain.drop pool.current))
    simp only [List.length_map, List.length_drop, hn] at hmap
    rw [hchain, List.length_append, List.length_append, hmap, List.length_take, hn]
    simp
    omega
  have hreplace : (pool.replace (counted.1 ++ [node]) counted.2).current = counted.2 :=
    replace_current (by simp)
  have hfails : (pool.replace (counted.1 ++ [node]) counted.2).chain.map (·.failed) =
      List.replicate (n - 7) 6 ++ (counted.1.map (·.failed) ++ [0]) := by
    rw [hchain, List.map_append, List.map_append, htake, List.map_singleton, hnode]
  refine ⟨?_, ?_⟩
  · rw [hfails, hlength, ledger]
    by_cases hfew : n < 7
    · rw [if_pos (by omega)] at hrecent
      have hlist : counted.1.map (·.failed) ++ [0] = recent (min n 7 + 1) :=
        congrArg Prod.fst hrecent
      rw [hlist, show n - 7 = n + 1 - 7 by omega, show min n 7 + 1 = min (n + 1) 7 by omega]
    · rw [if_neg (by omega)] at hrecent
      have hlist : counted.1.map (·.failed) ++ [0] = 6 :: recent 7 :=
        congrArg Prod.fst hrecent
      rw [hlist, show n + 1 - 7 = n - 7 + 1 by omega, List.replicate_succ', List.append_assoc,
        show min (n + 1) 7 = 7 by omega]
      rfl
  · rw [hreplace, hlength]
    by_cases hfew : n < 7
    · rw [if_pos (by omega)] at hrecent
      have hindex : counted.2 = pool.current := congrArg Prod.snd hrecent
      omega
    · rw [if_neg (by omega)] at hrecent
      have hindex : counted.2 = pool.current + 1 := congrArg Prod.snd hrecent
      omega

/-- Taking a block from a node keeps the ledger. -/
theorem Pool.Ledger.take {pool : Pool} (h : pool.Ledger) {round : ℕ → ℕ} {size m : ℕ}
    {nodes : List Node}
    (htake : takeFrom round size (pool.chain.drop pool.current) = some (m, nodes)) :
    (pool.replace nodes pool.current).Ledger := by
  have hne := takeFrom_ne_nil htake
  have hchain : (pool.replace nodes pool.current).chain = pool.chain.take pool.current ++ nodes :=
    replace_chain hne
  have hlength := congrArg List.length
    (takeFrom_map (f := fun _ => ()) (fun _ _ => rfl) htake)
  have hfailed := takeFrom_map (f := Node.failed) (fun _ _ => rfl) htake
  have hsame : (pool.replace nodes pool.current).chain.length = pool.chain.length := by
    simp only [List.length_map, List.length_drop] at hlength
    rw [hchain, List.length_append, List.length_take, hlength]
    omega
  refine ⟨?_, ?_⟩
  · rw [hsame, ← h.failed, hchain, List.map_append, hfailed, ← List.map_append,
      List.take_append_drop]
  · rw [hsame, replace_current hne, h.current]

end ServerKit.Mempool
