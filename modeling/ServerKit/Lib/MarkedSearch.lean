import Mathlib.Data.Finset.Card
import Mathlib.Data.List.Chain

/-! # Depth-first search with marks

A depth-first search over lists of successors marks every vertex it enters, keeps the
marks, and reports the path to every marked vertex it meets. A report closes a cycle
only if the marked vertex is still on the path. -/

namespace ServerKit.MarkedSearch

open Relation

variable {α : Type*} (succ : α → List α)

/-- `b` is a successor of `a`. -/
def Adj (a b : α) : Prop := b ∈ succ a

/-- A cycle can be reached from `a`. -/
def ReachesCycle (a : α) : Prop := ∃ b, ReflTransGen (Adj succ) a b ∧ TransGen (Adj succ) b b

/-- The last vertex of the path is met on it before. -/
def Closes (path : List α) : Prop := ∃ p v, path = p ++ [v] ∧ v ∈ p

/-- A path from `v` to `x` along the successors at the positions `ns`. It visits no
vertex twice, and none of `p`. -/
inductive SimplePath : List α → α → List ℕ → α → Prop where
  | here {p : List α} {v : α} (hv : v ∉ p) : SimplePath p v [] v
  | edge {p : List α} {v w x : α} {n : ℕ} {ns : List ℕ} (hv : v ∉ p)
      (hw : (succ v)[n]? = some w) (rest : SimplePath (p ++ [v]) w ns x) :
      SimplePath p v (n :: ns) x

/-- Some simple path leads from `v` to `x`. -/
def Meets (p : List α) (v x : α) : Prop := ∃ ns, SimplePath succ p v ns x

/-- There are no two simple paths from `v` to one vertex. -/
def Unique (p : List α) (v : α) : Prop :=
  ∀ x ns ms, SimplePath succ p v ns x → SimplePath succ p v ms x → ns = ms

/-- Below `v`, the simple paths from one successor lead to one vertex twice. -/
def Branching (v : α) : Prop := ∃ w ∈ succ v, ¬ Unique succ [v] w

/-- No two simple paths from the listed vertices lead to one vertex. -/
def Spreads (p ws : List α) : Prop :=
  (∀ w ∈ ws, Unique succ p w) ∧
  ws.Pairwise fun w w' => ∀ x, Meets succ p w x → ¬ Meets succ p w' x

variable [DecidableEq α]

/-- The search of the listed vertices below the path `p`: the marks before and after,
and the reports. -/
inductive Explore : List α → List α → Finset α → Finset α → List (List α) → Prop where
  | done {p : List α} {V : Finset α} : Explore p [] V V []
  | marked {p ws : List α} {v : α} {V V' : Finset α} {out : List (List α)} (hv : v ∈ V)
      (rest : Explore p ws V V' out) : Explore p (v :: ws) V V' ((p ++ [v]) :: out)
  | enter {p ws : List α} {v : α} {V V₁ V₂ : Finset α} {out₁ out₂ : List (List α)} (hv : v ∉ V)
      (below : Explore (p ++ [v]) (succ v) (insert v V) V₁ out₁)
      (rest : Explore p ws V₁ V₂ out₂) : Explore p (v :: ws) V V₂ (out₁ ++ out₂)

variable {succ} {p ws : List α} {v w x : α} {V V' : Finset α} {out : List (List α)}

/-! ## Marks -/

theorem Explore.subset (h : Explore succ p ws V V' out) : V ⊆ V' := by
  induction h with
  | done => exact Finset.Subset.refl _
  | marked _ _ ih => exact ih
  | enter _ _ _ ih₁ ih₂ => exact (Finset.subset_insert _ _).trans (ih₁.trans ih₂)

theorem card_sdiff_insert_lt {U : Finset α} (hU : v ∈ U) (hv : v ∉ V) :
    (U \ insert v V).card < (U \ V).card := by
  refine Finset.card_lt_card ⟨Finset.sdiff_subset_sdiff (Finset.Subset.refl _)
    (Finset.subset_insert _ _), fun hsub => ?_⟩
  have := hsub (Finset.mem_sdiff.mpr ⟨hU, hv⟩)
  simp at this

theorem card_sdiff_le_of_subset {U : Finset α} (h : V ⊆ V') : (U \ V').card ≤ (U \ V).card :=
  Finset.card_le_card (Finset.sdiff_subset_sdiff (Finset.Subset.refl _) h)

/-- On finitely many vertices the search comes to its end. -/
theorem exists_explore {U : Finset α} (hU : ∀ v ∈ U, ∀ w ∈ succ v, w ∈ U) (p ws : List α)
    (V : Finset α) (hws : ∀ w ∈ ws, w ∈ U) : ∃ V' out, Explore succ p ws V V' out := by
  -- by the number of unmarked vertices, and below it by the list
  induction hn : (U \ V).card using Nat.strong_induction_on generalizing p ws V with
  | _ n ih =>
    induction ws generalizing V n with
    | nil => exact ⟨V, [], .done⟩
    | cons v ws ihws =>
      have hv := hws v List.mem_cons_self
      have htail : ∀ w ∈ ws, w ∈ U := fun w hw => hws w (List.mem_cons_of_mem _ hw)
      by_cases hmark : v ∈ V
      · obtain ⟨V', out, hrest⟩ := ihws n ih V htail hn
        exact ⟨V', _, .marked hmark hrest⟩
      · obtain ⟨V₁, out₁, hbelow⟩ := ih _ (hn ▸ card_sdiff_insert_lt hv hmark) (p ++ [v])
          (succ v) (insert v V) (hU v hv) rfl
        have hle : (U \ V₁).card ≤ n := hn ▸
          card_sdiff_le_of_subset ((Finset.subset_insert v V).trans hbelow.subset)
        obtain ⟨V₂, out₂, hrest⟩ := ihws _ (fun m hm => ih m (hm.trans_le hle)) V₁ htail rfl
        exact ⟨V₂, _, .enter hmark hbelow hrest⟩

/-! ## Completeness -/

/-- A search without reports has met no marked vertex and no cycle. -/
theorem Explore.quiet (h : Explore succ p ws V V' out) (hout : out = []) {w : α} (hw : w ∈ ws)
    {x : α} (hx : ReflTransGen (Adj succ) w x) : x ∉ V ∧ ¬ TransGen (Adj succ) x x := by
  induction h generalizing w x with
  | done => cases hw
  | marked => cases hout
  | @enter p ws v V V₁ V₂ out₁ out₂ hv below _ ih₁ ih₂ =>
    obtain ⟨rfl, rfl⟩ := List.append_eq_nil_iff.mp hout
    rcases List.mem_cons.mp hw with rfl | hw
    · have hbelow : ∀ c ∈ succ w, ∀ y, ReflTransGen (Adj succ) c y →
          y ∉ insert w V ∧ ¬ TransGen (Adj succ) y y := fun c hc y hy => ih₁ rfl hc hy
      rcases ReflTransGen.cases_head hx with rfl | ⟨c, hc, hrest⟩
      · refine ⟨hv, ?_⟩
        intro hcycle
        obtain ⟨c, hc, hrest⟩ := TransGen.head'_iff.mp hcycle
        exact (hbelow c hc w hrest).1 (Finset.mem_insert_self _ _)
      · obtain ⟨hmark, hcycle⟩ := hbelow c hc x hrest
        exact ⟨fun hxV => hmark (Finset.mem_insert_of_mem hxV), hcycle⟩
    · obtain ⟨hmark, hcycle⟩ := ih₂ rfl hw hx
      exact ⟨fun hxV => hmark (below.subset (Finset.mem_insert_of_mem hxV)), hcycle⟩

/-! ## Reports -/

/-- Every report continues the path. -/
theorem Explore.prefix (h : Explore succ p ws V V' out) : ∀ o ∈ out, p <+: o := by
  induction h with
  | done => simp
  | marked _ _ ih => simpa using ih
  | enter _ _ _ ih₁ ih₂ =>
    intro o ho
    rcases List.mem_append.mp ho with ho | ho
    · exact (List.prefix_append _ _).trans (ih₁ o ho)
    · exact ih₂ o ho

/-- Every report is a walk. -/
theorem Explore.isChain (h : Explore succ p ws V V' out)
    (hp : ∀ w ∈ ws, (p ++ [w]).IsChain (Adj succ)) : ∀ o ∈ out, o.IsChain (Adj succ) := by
  induction h with
  | done => simp
  | marked _ _ ih =>
    intro o ho
    rcases List.mem_cons.mp ho with rfl | ho
    · exact hp _ List.mem_cons_self
    · exact ih (fun w hw => hp w (List.mem_cons_of_mem _ hw)) o ho
  | enter _ _ _ ih₁ ih₂ =>
    intro o ho
    rcases List.mem_append.mp ho with ho | ho
    · refine ih₁ (fun w hw => ?_) o ho
      rw [List.append_assoc]
      exact List.isChain_split.mpr ⟨hp _ List.mem_cons_self, List.isChain_pair.mpr hw⟩
    · exact ih₂ (fun w hw => hp w (List.mem_cons_of_mem _ hw)) o ho

omit [DecidableEq α] in
theorem reachesCycle_of_closes {o : List α} (hchain : (v :: o).IsChain (Adj succ))
    (h : Closes (v :: o)) : ReachesCycle succ v := by
  obtain ⟨p, w, hpw, hw⟩ := h
  obtain ⟨front, back, rfl⟩ := List.append_of_mem hw
  rw [hpw] at hchain
  refine ⟨w, ?_, ?_⟩
  · have hlast : (v :: o).getLast (List.cons_ne_nil _ _) = w := by simp [hpw]
    exact List.relationReflTransGen_of_exists_isChain_cons o (hpw ▸ hchain) hlast
  · have hcycle : (w :: (back ++ [w])).IsChain (Adj succ) := by
      rw [List.append_assoc] at hchain
      exact hchain.right_of_append
    cases hback : back ++ [w] with
    | nil => simp at hback
    | cons c rest =>
      rw [hback, List.isChain_cons_cons] at hcycle
      have hlast : (c :: rest).getLast (List.cons_ne_nil _ _) = w := by simp [← hback]
      exact TransGen.head'_iff.mpr
        ⟨c, hcycle.1, List.relationReflTransGen_of_exists_isChain_cons rest hcycle.2 hlast⟩

/-! ## Simple paths -/

omit [DecidableEq α] in
theorem SimplePath.end_not_mem {ns : List ℕ} (h : SimplePath succ p v ns x) : x ∉ p := by
  induction h with
  | here hv => exact hv
  | edge _ _ _ ih => exact fun hx => ih (List.mem_append_left _ hx)

omit [DecidableEq α] in
theorem SimplePath.start_not_mem {ns : List ℕ} (h : SimplePath succ p v ns x) : v ∉ p := by
  cases h with
  | here hv => exact hv
  | edge hv => exact hv

omit [DecidableEq α] in
/-- Uniqueness below a vertex, read off its successors. -/
theorem unique_iff_spreads (hv : v ∉ p) : Unique succ p v ↔ Spreads succ (p ++ [v]) (succ v) := by
  constructor
  · intro h
    refine ⟨fun w hw x ns ms hns hms => ?_, ?_⟩
    · obtain ⟨n, hn⟩ := List.getElem?_of_mem hw
      exact (List.cons.inj (h x (n :: ns) (n :: ms) (.edge hv hn hns) (.edge hv hn hms))).2
    · rw [List.pairwise_iff_getElem]
      rintro i j hi hj hij x ⟨ns, hns⟩ ⟨ms, hms⟩
      have := h x (i :: ns) (j :: ms) (.edge hv (List.getElem?_eq_getElem hi) hns)
        (.edge hv (List.getElem?_eq_getElem hj) hms)
      injection this
      omega
  · rintro ⟨hunique, hpair⟩ x ns ms hns hms
    cases hns with
    | here =>
      cases hms with
      | here => rfl
      | edge _ _ hrest => exact absurd (by simp) hrest.end_not_mem
    | @edge _ _ w _ n ns _ hn hns =>
      cases hms with
      | here => exact absurd (by simp) hns.end_not_mem
      | @edge _ _ w' _ m ms _ hm hms =>
        obtain ⟨hnlt, rfl⟩ := List.getElem?_eq_some_iff.mp hn
        obtain ⟨hmlt, rfl⟩ := List.getElem?_eq_some_iff.mp hm
        rw [List.pairwise_iff_getElem] at hpair
        rcases Nat.lt_trichotomy n m with hlt | rfl | hlt
        · exact absurd ⟨ms, hms⟩ (hpair n m hnlt hmlt hlt x ⟨ns, hns⟩)
        · rw [hunique _ (List.getElem_mem hnlt) x ns ms hns hms]
        · exact absurd ⟨ns, hns⟩ (hpair m n hmlt hnlt hlt x ⟨ms, hms⟩)

omit [DecidableEq α] in
/-- From `v` a simple path leads to `v` itself and to what its successors meet. -/
theorem meets_iff (hv : v ∉ p) :
    Meets succ p v x ↔ x = v ∨ ∃ w ∈ succ v, Meets succ (p ++ [v]) w x := by
  constructor
  · rintro ⟨ns, hns⟩
    cases hns with
    | here => exact .inl rfl
    | edge _ hw rest => exact .inr ⟨_, List.mem_of_getElem? hw, _, rest⟩
  · rintro (rfl | ⟨w, hw, ns, hns⟩)
    · exact ⟨[], .here hv⟩
    · obtain ⟨n, hn⟩ := List.getElem?_of_mem hw
      exact ⟨n :: ns, .edge hv hn hns⟩

omit [DecidableEq α] in
theorem not_meets_of_mem (hv : v ∈ p) : ¬ Meets succ p v x :=
  fun ⟨_, h⟩ => h.start_not_mem hv

omit [DecidableEq α] in
theorem spreads_cons : Spreads succ p (v :: ws) ↔
    Unique succ p v ∧ (∀ w ∈ ws, ∀ x, Meets succ p v x → ¬ Meets succ p w x) ∧
      Spreads succ p ws := by
  simp only [Spreads, List.forall_mem_cons, List.pairwise_cons]
  tauto

/-! ## Soundness -/

omit [DecidableEq α] in
theorem closes_append_singleton : Closes (p ++ [v]) ↔ v ∈ p := by
  constructor
  · rintro ⟨q, w, hqw, hw⟩
    obtain ⟨rfl, hvw⟩ := List.append_inj' hqw rfl
    cases hvw
    exact hw
  · exact fun hv => ⟨p, v, rfl, hv⟩

/-- What the search below an unmarked vertex needs, said of the vertex. -/
theorem spreads_below_iff (hvp : v ∉ p) (hv : v ∉ V) :
    (Spreads succ (p ++ [v]) (succ v) ∧
      ∀ w ∈ succ v, ∀ x, Meets succ (p ++ [v]) w x → x ∉ insert v V) ↔
    Unique succ p v ∧ ∀ x, Meets succ p v x → x ∉ V := by
  rw [← unique_iff_spreads hvp]
  refine and_congr_right fun _ => ⟨fun h x hx => ?_, fun h c hc x hx => ?_⟩
  · rcases (meets_iff hvp).mp hx with rfl | ⟨c, hc, hx⟩
    · exact hv
    · exact fun hxV => h c hc x hx (Finset.mem_insert_of_mem hxV)
  · have hne : x ≠ v := by
      rintro rfl
      obtain ⟨ns, hns⟩ := hx
      exact hns.end_not_mem (by simp)
    exact fun hxV => h x ((meets_iff hvp).mpr (.inr ⟨c, hc, hx⟩))
      ((Finset.mem_insert.mp hxV).resolve_left hne)

/-- The reports of a search all close exactly when its simple paths lead to different,
unmarked vertices; it then has marked these. -/
theorem Explore.closes_iff (h : Explore succ p ws V V' out) (hp : ∀ x ∈ p, x ∈ V) :
    ((∀ o ∈ out, Closes o) ↔
      Spreads succ p ws ∧ ∀ w ∈ ws, ∀ x, Meets succ p w x → x ∉ V) ∧
    ((∀ o ∈ out, Closes o) → ∀ x, x ∈ V' ↔ x ∈ V ∨ ∃ w ∈ ws, Meets succ p w x) := by
  induction h with
  | done => simp [Spreads]
  | @marked p ws v V V' out hv _ ih =>
    obtain ⟨ih₁, ih₂⟩ := ih hp
    rw [List.forall_mem_cons, closes_append_singleton, ih₁, spreads_cons]
    by_cases hvp : v ∈ p
    · -- a vertex of the path: no simple path starts there
      have hnone : ∀ x, ¬ Meets succ p v x := fun _ => not_meets_of_mem hvp
      have hunique : Unique succ p v := fun _ _ _ hns => absurd ⟨_, hns⟩ (hnone _)
      refine ⟨?_, fun ⟨_, hout⟩ x => ?_⟩
      · simp [hvp, hnone, hunique]
      · rw [ih₂ (ih₁.mpr hout) x]
        simp [hnone]
    · -- marked by an earlier branch
      have hmeets : Meets succ p v v := (meets_iff hvp).mpr (.inl rfl)
      refine ⟨iff_of_false (fun h => hvp h.1) fun ⟨_, hfree⟩ => ?_, fun h => absurd h.1 hvp⟩
      exact hfree v List.mem_cons_self v hmeets hv
  | @enter p ws v V V₁ V₂ out₁ out₂ hv below _ ih₁ ih₂ =>
    have hvp : v ∉ p := fun h => hv (hp v h)
    obtain ⟨hbelow, hmarks⟩ := ih₁ fun x hx => by
      rcases List.mem_append.mp hx with hx | hx
      · exact Finset.mem_insert_of_mem (hp x hx)
      · rw [List.mem_singleton.mp hx]
        exact Finset.mem_insert_self _ _
    obtain ⟨hrest, hmarks'⟩ := ih₂ fun x hx =>
      below.subset (Finset.mem_insert_of_mem (hp x hx))
    rw [spreads_below_iff hvp hv] at hbelow
    replace hmarks : (∀ o ∈ out₁, Closes o) → ∀ x, x ∈ V₁ ↔ x ∈ V ∨ Meets succ p v x := by
      intro hout x
      rw [hmarks hout x, meets_iff hvp, Finset.mem_insert, or_assoc, or_left_comm]
    simp only [List.forall_mem_append, spreads_cons, List.forall_mem_cons, List.exists_mem_cons_iff]
    refine ⟨⟨fun ⟨hout₁, hout₂⟩ => ?_, fun ⟨⟨hunique, hapart, hspreads⟩, hfree, hfree'⟩ => ?_⟩,
      fun ⟨hout₁, hout₂⟩ x => ?_⟩
    · obtain ⟨hunique, hfree⟩ := hbelow.mp hout₁
      obtain ⟨hspreads, hfree'⟩ := hrest.mp hout₂
      refine ⟨⟨hunique, fun w hw x hx hx' => ?_, hspreads⟩, hfree, fun w hw x hx hxV => ?_⟩
      · exact hfree' w hw x hx' ((hmarks hout₁ x).mpr (.inr hx))
      · exact hfree' w hw x hx ((hmarks hout₁ x).mpr (.inl hxV))
    · have hout₁ := hbelow.mpr ⟨hunique, hfree⟩
      refine ⟨hout₁, hrest.mpr ⟨hspreads, fun w hw x hx hxV => ?_⟩⟩
      rcases (hmarks hout₁ x).mp hxV with hxV | hxv
      · exact hfree' w hw x hx hxV
      · exact hapart w hw x hxv hx
    · rw [hmarks' hout₂ x, hmarks hout₁ x, or_assoc]

omit [DecidableEq α] in
/-- Without a choice of successors there is only one simple path. -/
theorem unique_of_length_le_one (hone : ∀ v, (succ v).length ≤ 1) : Unique succ p v := by
  intro x ns ms hns hms
  induction hns generalizing ms with
  | here =>
    cases hms with
    | here => rfl
    | edge _ _ hrest => exact absurd (by simp) hrest.end_not_mem
  | @edge p v w x n ns _ hn hrest ih =>
    cases hms with
    | here => exact absurd (by simp) hrest.end_not_mem
    | @edge _ _ w' _ m ms _ hm hrest' =>
      have hn₀ := (List.getElem?_eq_some_iff.mp hn).1
      have hm₀ := (List.getElem?_eq_some_iff.mp hm).1
      obtain rfl : n = m := by have := hone v; omega
      cases hn.symm.trans hm
      rw [ih ms hrest']

/-! ## One search for every successor -/

variable (succ) in
/-- The reports of the searches below `i`, one for each of its successors, that start
with no mark but that of `i`. -/
def Restarts (i : α) (out : List (List α)) : Prop :=
  ∃ outs, List.Forall₂ (fun w o => ∃ V, Explore succ [i] [w] {i} V o) (succ i) outs ∧
    out = outs.flatten

theorem Restarts.exists_of_mem {i : α} {o : List α} (h : Restarts succ i out) (ho : o ∈ out) :
    ∃ w ∈ succ i, ∃ V out', Explore succ [i] [w] {i} V out' ∧ o ∈ out' := by
  obtain ⟨outs, hall, rfl⟩ := h
  generalize succ i = ws at hall ⊢
  induction hall with
  | nil => cases ho
  | @cons w out' ws outs hw _ ih =>
    rw [List.flatten_cons] at ho
    rcases List.mem_append.mp ho with ho | ho
    · obtain ⟨V, hV⟩ := hw
      exact ⟨w, List.mem_cons_self, V, out', hV, ho⟩
    · obtain ⟨w', hw', hrest⟩ := ih ho
      exact ⟨w', List.mem_cons_of_mem _ hw', hrest⟩

theorem Restarts.explore {i : α} (h : Restarts succ i out) (hw : w ∈ succ i) :
    ∃ V out', Explore succ [i] [w] {i} V out' ∧ ∀ o ∈ out', o ∈ out := by
  obtain ⟨outs, hall, rfl⟩ := h
  generalize succ i = ws at hall hw
  induction hall with
  | nil => cases hw
  | cons hw' _ ih =>
    rcases List.mem_cons.mp hw with rfl | hw
    · obtain ⟨V, hV⟩ := hw'
      exact ⟨V, _, hV, fun o ho => by simp [ho]⟩
    · obtain ⟨V, out', hV, hsub⟩ := ih hw
      exact ⟨V, out', hV, fun o ho => by simpa using .inr (List.mem_flatten.mp (hsub o ho))⟩

/-- Searches without reports: no cycle can be reached. -/
theorem Restarts.quiet {i : α} (h : Restarts succ i []) : ¬ ReachesCycle succ i := by
  rintro ⟨x, hx, hcycle⟩
  have hbelow : ∀ w ∈ succ i, ∀ y, ReflTransGen (Adj succ) w y →
      y ≠ i ∧ ¬ TransGen (Adj succ) y y := by
    intro w hw y hy
    obtain ⟨V, out', hV, hsub⟩ := h.explore hw
    have hnil : out' = [] := List.eq_nil_iff_forall_not_mem.mpr fun o ho => by cases hsub o ho
    obtain ⟨hmark, hcycle⟩ := hV.quiet hnil List.mem_cons_self hy
    exact ⟨by simpa using hmark, hcycle⟩
  rcases ReflTransGen.cases_head hx with rfl | ⟨w, hw, hrest⟩
  · obtain ⟨w, hw, hrest⟩ := TransGen.head'_iff.mp hcycle
    exact (hbelow w hw i hrest).1 rfl
  · exact (hbelow w hw x hrest).2 hcycle

/-- The reports all close exactly when nothing below `i` is met on two paths. -/
theorem Restarts.closes_iff {i : α} (h : Restarts succ i out) :
    (∀ o ∈ out, Closes o) ↔ ¬ Branching succ i := by
  have hone : ∀ w V out', Explore succ [i] [w] {i} V out' →
      ((∀ o ∈ out', Closes o) ↔ Unique succ [i] w) := by
    intro w V out' hV
    rw [(hV.closes_iff (by simp)).1]
    have hfree : ∀ x, Meets succ [i] w x → x ∉ ({i} : Finset α) := fun x ⟨_, hx⟩ => by
      simpa using hx.end_not_mem
    simp only [Spreads, List.forall_mem_singleton]
    exact ⟨fun h => h.1.1, fun h => ⟨⟨h, List.pairwise_singleton _ _⟩, hfree⟩⟩
  simp only [Branching, not_exists, not_and, not_not]
  constructor
  · intro hout w hw
    obtain ⟨V, out', hV, hsub⟩ := h.explore hw
    exact (hone w V out' hV).mp fun o ho => hout o (hsub o ho)
  · intro hunique o ho
    obtain ⟨w, hw, V, out', hV, ho⟩ := h.exists_of_mem ho
    exact (hone w V out' hV).mpr (hunique w hw) o ho

theorem Restarts.isChain {i : α} (h : Restarts succ i out) : ∀ o ∈ out, o.IsChain (Adj succ) := by
  intro o ho
  obtain ⟨w, hw, V, out', hV, ho⟩ := h.exists_of_mem ho
  refine hV.isChain (fun w' hw' => ?_) o ho
  rw [List.mem_singleton.mp hw']
  exact List.isChain_pair.mpr hw

theorem Restarts.reachesCycle {i : α} {o : List α} (h : Restarts succ i out) (ho : o ∈ out)
    (hcloses : Closes o) : ReachesCycle succ i := by
  have hchain := h.isChain o ho
  obtain ⟨w, hw, V, out', hV, ho⟩ := h.exists_of_mem ho
  obtain ⟨rest, rfl⟩ := hV.prefix o ho
  exact reachesCycle_of_closes hchain hcloses

end ServerKit.MarkedSearch
