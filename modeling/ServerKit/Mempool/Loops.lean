import ServerKit.Mempool.Represents

/-! # The loops over the linked lists

A loop in the memory has a result as soon as `fuel` exceeds the length of the list, and it is that
of the loop over the list. -/

namespace ServerKit.Mempool

open ServerKit.SystemHeap ServerKit.WordMemory

variable {mem : ℕ → ℕ} {h : Heap} {s : State} {nodes : List Node} {large : List Large}
  {fuel size p a : ℕ} {round : ℕ → ℕ}

/-! ## Nodes -/

theorem findRoom_eq (hlinked : Linked mem 16 a (nodes.map (·.addr)))
    (hnodes : ∀ n ∈ nodes, NodeAt mem n) (hne : nodes ≠ []) (hfuel : nodes.length ≤ fuel) :
    findRoom mem round size fuel a =
      some ((nodes.find? fun p => sub64 p.endPtr (round p.last) ≥ size).map
        fun p => (p.addr, round p.last)) := by
  induction nodes generalizing a fuel with
  | nil => exact absurd rfl hne
  | cons n rest ih =>
    obtain ⟨fuel, rfl⟩ := Nat.exists_eq_add_one_of_ne_zero (Nat.ne_zero_of_lt hfuel)
    rw [List.map_cons] at hlinked
    obtain ⟨rfl, -, hrest⟩ := linked_cons.mp hlinked
    obtain ⟨hlast, hend, -⟩ := hnodes n List.mem_cons_self
    rw [findRoom, hlast, hend]
    by_cases htest : sub64 n.endPtr (round n.last) ≥ size
    · rw [if_pos htest, List.find?_cons_of_pos (by simpa using htest)]
      rfl
    · rw [if_neg htest, List.find?_cons_of_neg (by simpa using htest)]
      cases rest with
      | nil =>
        rw [if_pos (linked_nil.mp hrest)]
        rfl
      | cons k rest =>
        have hnext : mem (n.addr + 16) ≠ 0 := by
          rw [hrest.1]
          exact hrest.2.1
        rw [if_neg hnext]
        exact ih hrest (fun k hk => hnodes k (List.mem_cons_of_mem _ hk)) (by simp)
          (by simpa using hfuel)

/-- What the loop of `mp_alloc_block` leaves: the failures, `current` as the element of the
addresses at its position, and the last node. -/
structure Counted (mem mem' : ℕ → ℕ) (nodes : List Node) (counted : List Node × ℕ)
    (addrs : List ℕ) (last current : ℕ) : Prop where
  last : (nodes.map (·.addr)).getLast? = some last
  same : ∀ b, (∀ n ∈ nodes, b ≠ n.addr + 24) → mem' b = mem b
  nodes : ∀ n ∈ counted.1, NodeAt mem' n
  current : addrs[counted.2]? = some current

/-- The first node has its failure counted before the others; its own fields are not theirs. -/
theorem Counted.cons {n k : Node} {rest : List Node} {mem' : ℕ → ℕ}
    {i index last current : ℕ} {addrs : List ℕ} (hn : NodeAt mem n)
    (hfirst : ∀ q ∈ k :: rest, n.addr + 32 ≤ q.addr ∨ q.addr + 32 ≤ n.addr)
    (h : Counted (Function.update mem (n.addr + 24) (add64 (mem (n.addr + 24)) 1)) mem' (k :: rest)
      (countFailures (i + 1) (if n.failed > 4 then i + 1 else index) (k :: rest)) addrs last
      current) :
    Counted mem mem' (n :: k :: rest) (countFailures i index (n :: k :: rest)) addrs last
      current := by
  obtain ⟨hlast, hend, hfailed⟩ := hn
  generalize hmem₁ : Function.update mem (n.addr + 24) (add64 (mem (n.addr + 24)) 1) = mem₁ at h
  have hsame : ∀ b, b ≠ n.addr + 24 → mem₁ b = mem b := by
    intro b hb
    rw [← hmem₁, Function.update_of_ne hb]
  have hkeep : ∀ c ≤ 24, mem' (n.addr + c) = mem₁ (n.addr + c) := by
    intro c hc
    apply h.same
    intro q hq
    have hapart := hfirst q hq
    omega
  refine ⟨?_, ?_, ?_, h.current⟩
  · rw [List.map_cons, List.map_cons, List.getLast?_cons_cons]
    exact h.last
  · intro b hb
    rw [h.same b fun q hq => hb q (List.mem_cons_of_mem _ hq)]
    exact hsame b (hb n List.mem_cons_self)
  · intro q hq
    rcases List.mem_cons.mp hq with rfl | hq
    · refine ⟨?_, ?_, ?_⟩
      · exact ((hkeep 0 (by decide)).trans (hsame _ (by omega))).trans hlast
      · exact ((hkeep 8 (by decide)).trans (hsame _ (by omega))).trans hend
      · rw [hkeep 24 (by decide), ← hfailed, ← hmem₁]
        exact Function.update_self _ _ _
    · exact h.nodes q hq

theorem countLoop_eq {i index current : ℕ} {addrs : List ℕ}
    (hlinked : Linked mem 16 a (nodes.map (·.addr))) (hnodes : ∀ n ∈ nodes, NodeAt mem n)
    (hapart : nodes.Pairwise fun n k => n.addr + 32 ≤ k.addr ∨ k.addr + 32 ≤ n.addr)
    (hne : nodes ≠ []) (hfuel : nodes.length ≤ fuel) (haddrs : addrs.drop i = nodes.map (·.addr))
    (hcurrent : addrs[index]? = some current) :
    ∃ mem' last current', countLoop fuel mem a current = some (mem', last, current') ∧
      Counted mem mem' nodes (countFailures i index nodes) addrs last current' := by
  induction nodes generalizing a fuel mem i index current with
  | nil => exact absurd rfl hne
  | cons n rest ih =>
    obtain ⟨fuel, rfl⟩ := Nat.exists_eq_add_one_of_ne_zero (Nat.ne_zero_of_lt hfuel)
    rw [List.map_cons] at hlinked
    obtain ⟨rfl, -, hrest⟩ := linked_cons.mp hlinked
    cases rest with
    | nil =>
      refine ⟨mem, n.addr, current, ?_, rfl, fun _ _ => rfl, hnodes, hcurrent⟩
      rw [countLoop, if_pos (linked_nil.mp hrest)]
    | cons k rest =>
      obtain ⟨hfirst, happend⟩ := List.pairwise_cons.mp hapart
      obtain ⟨-, -, hfailed⟩ := hnodes n List.mem_cons_self
      have hnext : mem (n.addr + 16) = k.addr := hrest.1
      have hnull : mem (n.addr + 16) ≠ 0 := by
        rw [hnext]
        exact hrest.2.1
      -- the failures of `n` are no field of the other nodes
      let mem₁ := Function.update mem (n.addr + 24) (add64 (mem (n.addr + 24)) 1)
      have hsame : ∀ b, b ≠ n.addr + 24 → mem₁ b = mem b := fun b hb =>
        Function.update_of_ne hb _ _
      have hother : ∀ q ∈ k :: rest, ∀ c ≤ 24, mem₁ (q.addr + c) = mem (q.addr + c) := by
        intro q hq c hc
        have hapart := hfirst q hq
        exact hsame _ (by omega)
      have hnodes₁ : ∀ q ∈ k :: rest, NodeAt mem₁ q := fun q hq =>
        (hnodes q (List.mem_cons_of_mem _ hq)).congr (hother q hq)
      have hlinked₁ : Linked mem₁ 16 (mem (n.addr + 16)) ((k :: rest).map (·.addr)) := by
        exact hrest.congr (List.forall_mem_map.mpr fun q hq => hother q hq 16 (by decide))
      have haddrs₁ : addrs.drop (i + 1) = (k :: rest).map (·.addr) := by
        rw [← List.drop_drop, haddrs]
        rfl
      have hcurrent₁ : addrs[if n.failed > 4 then i + 1 else index]? =
          some (if mem (n.addr + 24) > 4 then mem (n.addr + 16) else current) := by
        rw [hfailed, hnext]
        split
        · rw [← List.head?_drop, haddrs₁]
          rfl
        · exact hcurrent
      obtain ⟨mem', last, current', hloop, hcounted⟩ := ih hlinked₁ hnodes₁ happend (by simp)
        (by simpa using hfuel) haddrs₁ hcurrent₁
      refine ⟨mem', last, current', ?_, hcounted.cons (hnodes n List.mem_cons_self) hfirst⟩
      rw [countLoop, if_neg hnull]
      exact hloop

/-- Every node of the list has its `last` behind its header. -/
theorem resetNodes_eq (hlinked : Linked h.mem 16 a (nodes.map (·.addr)))
    (hapart : nodes.Pairwise fun n k => n.addr + 32 ≤ k.addr ∨ k.addr + 32 ≤ n.addr)
    (hfuel : nodes.length < fuel) :
    ∃ mem', Heap.resetNodes fuel h a = some ⟨mem', h.trace⟩ ∧
      (∀ b, (∀ n ∈ nodes, b ≠ n.addr) → mem' b = h.mem b) ∧
      ∀ n ∈ nodes, mem' n.addr = add64 n.addr sizeofNode := by
  induction nodes generalizing a fuel h with
  | nil =>
    obtain ⟨fuel, rfl⟩ := Nat.exists_eq_add_one_of_ne_zero (Nat.ne_zero_of_lt hfuel)
    refine ⟨h.mem, ?_, fun _ _ => rfl, by simp⟩
    rw [Heap.resetNodes, if_pos (linked_nil.mp hlinked)]
  | cons n rest ih =>
    obtain ⟨fuel, rfl⟩ := Nat.exists_eq_add_one_of_ne_zero (Nat.ne_zero_of_lt hfuel)
    rw [List.map_cons] at hlinked
    obtain ⟨rfl, hnull, hrest⟩ := linked_cons.mp hlinked
    obtain ⟨hfirst, hapart⟩ := List.pairwise_cons.mp hapart
    have hlinked : Linked (h.write n.addr (add64 n.addr sizeofNode)).mem 16 (h.mem (n.addr + 16))
        (rest.map (·.addr)) := by
      apply hrest.congr
      intro b hb
      obtain ⟨q, hq, rfl⟩ := List.mem_map.mp hb
      have hq := hfirst q hq
      exact Function.update_of_ne (by omega) _ _
    obtain ⟨mem', hloop, hsame, hset⟩ := ih hlinked hapart (by simpa using hfuel)
    refine ⟨mem', by rw [Heap.resetNodes, if_neg hnull]; exact hloop, ?_, ?_⟩
    · intro b hb
      rw [hsame b fun q hq => hb q (List.mem_cons_of_mem _ hq)]
      exact Function.update_of_ne (hb n List.mem_cons_self) _ _
    · intro q hq
      rcases List.mem_cons.mp hq with rfl | hq
      · rw [hsame _ fun k hk => by have := hfirst k hk; omega]
        exact Function.update_self _ _ _
      · exact hset q hq

theorem freeNodes_eq (hlinked : Linked h.mem 16 a (nodes.map (·.addr)))
    (htrace : h.trace = s.trace) (hfuel : nodes.length < fuel) :
    Heap.freeNodes fuel h a =
      some ⟨h.mem, (nodes.foldl (fun s n => s.log (.free n.addr)) s).trace⟩ := by
  induction nodes generalizing a fuel h s with
  | nil =>
    obtain ⟨fuel, rfl⟩ := Nat.exists_eq_add_one_of_ne_zero (Nat.ne_zero_of_lt hfuel)
    rw [Heap.freeNodes, if_pos (linked_nil.mp hlinked), List.foldl_nil, ← htrace]
  | cons n rest ih =>
    obtain ⟨fuel, rfl⟩ := Nat.exists_eq_add_one_of_ne_zero (Nat.ne_zero_of_lt hfuel)
    rw [List.map_cons] at hlinked
    obtain ⟨rfl, hnull, hrest⟩ := linked_cons.mp hlinked
    rw [Heap.freeNodes, if_neg hnull]
    exact ih (h := h.free n.addr) (s := s.log (.free n.addr)) hrest
      (congrArg (List.cons _) htrace) (by simpa using hfuel)

/-! ## Records -/

/-- Either no record is taken, or the first one without a block. -/
theorem findSpare_eq {n : ℕ} (hlinked : Linked mem 0 a (large.map (·.addr)))
    (hallocs : ∀ l ∈ large, mem (l.addr + 8) = l.alloc) (hfuel : large.length < fuel) :
    (reuseRecord p n large = none ∧ findSpare mem fuel a n = some 0) ∨
      ∃ pre l post, large = pre ++ l :: post ∧
        reuseRecord p n large = some (pre ++ { l with alloc := p } :: post) ∧
        findSpare mem fuel a n = some l.addr := by
  induction large generalizing a fuel n with
  | nil =>
    obtain ⟨fuel, rfl⟩ := Nat.exists_eq_add_one_of_ne_zero (Nat.ne_zero_of_lt hfuel)
    exact .inl ⟨rfl, by rw [findSpare, if_pos (linked_nil.mp hlinked)]⟩
  | cons l rest ih =>
    obtain ⟨fuel, rfl⟩ := Nat.exists_eq_add_one_of_ne_zero (Nat.ne_zero_of_lt hfuel)
    rw [List.map_cons] at hlinked
    obtain ⟨rfl, hnull, hrest⟩ := linked_cons.mp hlinked
    rw [reuseRecord, findSpare, if_neg hnull, hallocs l List.mem_cons_self]
    by_cases hspare : l.alloc = 0
    · rw [if_pos hspare, if_pos hspare]
      exact .inr ⟨[], l, rest, rfl, rfl, rfl⟩
    · rw [if_neg hspare, if_neg hspare]
      by_cases hfar : n > 3
      · rw [if_pos hfar, if_pos hfar]
        exact .inl ⟨rfl, rfl⟩
      · rw [if_neg hfar, if_neg hfar]
        rcases ih (n := n + 1) hrest (fun k hk => hallocs k (List.mem_cons_of_mem _ hk))
          (by simpa using hfuel) with ⟨hnone, hfind⟩ | ⟨pre, k, post, rfl, hreuse, hfind⟩
        · exact .inl ⟨by rw [hnone]; rfl, hfind⟩
        · exact .inr ⟨l :: pre, k, post, rfl, by rw [hreuse]; rfl, hfind⟩

theorem findBlock_eq (hlinked : Linked mem 0 a (large.map (·.addr)))
    (hallocs : ∀ l ∈ large, mem (l.addr + 8) = l.alloc) (hfuel : large.length < fuel) :
    (dropBlock p large = none ∧ findBlock mem p fuel a = some 0) ∨
      ∃ pre l post, large = pre ++ l :: post ∧ l.alloc = p ∧
        dropBlock p large = some (pre ++ { l with alloc := 0 } :: post) ∧
        findBlock mem p fuel a = some l.addr := by
  induction large generalizing a fuel with
  | nil =>
    obtain ⟨fuel, rfl⟩ := Nat.exists_eq_add_one_of_ne_zero (Nat.ne_zero_of_lt hfuel)
    exact .inl ⟨rfl, by rw [findBlock, if_pos (linked_nil.mp hlinked)]⟩
  | cons l rest ih =>
    obtain ⟨fuel, rfl⟩ := Nat.exists_eq_add_one_of_ne_zero (Nat.ne_zero_of_lt hfuel)
    rw [List.map_cons] at hlinked
    obtain ⟨rfl, hnull, hrest⟩ := linked_cons.mp hlinked
    rw [dropBlock, findBlock, if_neg hnull, hallocs l List.mem_cons_self]
    by_cases hblock : p = l.alloc
    · rw [if_pos hblock, if_pos hblock]
      exact .inr ⟨[], l, rest, rfl, hblock.symm, rfl, rfl⟩
    · rw [if_neg hblock, if_neg hblock]
      rcases ih hrest (fun k hk => hallocs k (List.mem_cons_of_mem _ hk)) (by simpa using hfuel)
        with ⟨hnone, hfind⟩ | ⟨pre, k, post, rfl, halloc, hdrop, hfind⟩
      · exact .inl ⟨by rw [hnone]; rfl, hfind⟩
      · exact .inr ⟨l :: pre, k, post, rfl, halloc, by rw [hdrop]; rfl, hfind⟩

theorem freeLarge_eq (hlinked : Linked h.mem 0 a (large.map (·.addr)))
    (hallocs : ∀ l ∈ large, h.mem (l.addr + 8) = l.alloc) (htrace : h.trace = s.trace)
    (hfuel : large.length < fuel) :
    Heap.freeLarge fuel h a = some ⟨h.mem, (freeLarge s large).trace⟩ := by
  induction large generalizing a fuel h s with
  | nil =>
    obtain ⟨fuel, rfl⟩ := Nat.exists_eq_add_one_of_ne_zero (Nat.ne_zero_of_lt hfuel)
    rw [Heap.freeLarge, if_pos (linked_nil.mp hlinked), freeLarge, ← htrace]
  | cons l rest ih =>
    obtain ⟨fuel, rfl⟩ := Nat.exists_eq_add_one_of_ne_zero (Nat.ne_zero_of_lt hfuel)
    rw [List.map_cons] at hlinked
    obtain ⟨rfl, hnull, hrest⟩ := linked_cons.mp hlinked
    have hrestAllocs : ∀ k ∈ rest, h.mem (k.addr + 8) = k.alloc :=
      fun k hk => hallocs k (List.mem_cons_of_mem _ hk)
    rw [Heap.freeLarge, if_neg hnull, hallocs l List.mem_cons_self, freeLarge]
    by_cases hspare : l.alloc = 0
    · rw [if_pos hspare, if_pos hspare]
      exact ih hrest hrestAllocs htrace (by simpa using hfuel)
    · rw [if_neg hspare, if_neg hspare]
      exact ih (h := h.free l.alloc) (s := s.log (.free l.alloc)) hrest hrestAllocs
        (congrArg (List.cons _) htrace) (by simpa using hfuel)

end ServerKit.Mempool
