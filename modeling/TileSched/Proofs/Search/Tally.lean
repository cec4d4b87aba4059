import Mathlib
import TileSched.Search.Value
/-! The tallies a search keeps besides its states: each node's parent, children, least value seen
below it and visit count, with the best value, the best node and the rollout count. Two
invariants hold of every tally a search reaches: the links form a tree rooted at node zero in
which parents come first (`Shaped`), and every count and least value is that of the simulations
run at the node or below it (`Tallies`). Both hold at the start and are kept by the two things an
iteration does to the tallies: adding a child, and recording a simulation. -/

namespace TileSched

/-- The least of some values, infinity for none: a later value replaces the least so far only
when it is strictly lower. -/
def least (vs : List Double) : Double := vs.foldl (fun q v => if v < q then v else q) .infinity

/-- The best value of a run of simulations and the node that gave it, replaced only by a strictly
lower value. -/
def bestOf (sims : List (Nat × Double)) : Double × Option Nat :=
  sims.foldl (fun b x => if x.2 < b.1 then (x.2, some x.1) else b) (.infinity, none)

section Least

variable {vs ws : List Double}

theorem least_append_singleton (vs : List Double) (v : Double) :
    least (vs ++ [v]) = if v < least vs then v else least vs := by
  rw [least, least, List.foldl_append, List.foldl_cons, List.foldl_nil]

theorem least_nil : least [] = .infinity := rfl

theorem foldl_lower_le :
    ∀ {vs : List Double} {q : Double}, (∀ v ∈ vs, v.isNaN = false) → q.isNaN = false →
      let r := vs.foldl (fun q v => if v < q then v else q) q
      r.isNaN = false ∧ r ≤ q ∧ ∀ v ∈ vs, r ≤ v
  | [], q, _, hq => ⟨hq, Double.le_refl hq, by simp⟩
  | v :: vs, q, hvs, hq => by
    have hv : v.isNaN = false := hvs v List.mem_cons_self
    have hrest : ∀ u ∈ vs, u.isNaN = false := fun u hu => hvs u (List.mem_cons_of_mem _ hu)
    -- the accumulator after `v` is the lesser of `q` and `v`
    have hq' : (if v < q then v else q).isNaN = false := by split <;> assumption
    have hle : (if v < q then v else q) ≤ q ∧ (if v < q then v else q) ≤ v := by
      split
      · exact ⟨Double.le_of_lt ‹_›, Double.le_refl hv⟩
      · exact ⟨Double.le_refl hq, Double.le_of_not_lt hv hq ‹_›⟩
    obtain ⟨hr, hrq, hrvs⟩ := foldl_lower_le hrest hq'
    refine ⟨hr, Double.le_trans hrq hle.1, fun u hu => ?_⟩
    rcases List.mem_cons.1 hu with rfl | hu
    · exact Double.le_trans hrq hle.2
    · exact hrvs u hu

theorem least_isNaN (h : ∀ v ∈ vs, v.isNaN = false) : (least vs).isNaN = false :=
  (foldl_lower_le h Double.infinity_isNaN).1

theorem least_le (h : ∀ v ∈ vs, v.isNaN = false) : ∀ v ∈ vs, least vs ≤ v :=
  (foldl_lower_le h Double.infinity_isNaN).2.2

theorem least_mem (vs : List Double) : least vs = .infinity ∨ least vs ∈ vs := by
  induction vs using List.reverseRecOn with
  | nil => exact .inl rfl
  | append_singleton vs v ih =>
    rw [least_append_singleton]
    split
    · exact .inr (List.mem_append_right _ List.mem_cons_self)
    · rcases ih with h | h
      · exact .inl h
      · exact .inr (List.mem_append_left _ h)

theorem least_le_least (hsub : ∀ v ∈ vs, v ∈ ws) (h : ∀ v ∈ ws, v.isNaN = false) :
    least ws ≤ least vs := by
  rcases least_mem vs with hinf | hmem
  · rw [hinf]
    exact Double.le_infinity (least_isNaN h)
  · exact least_le h _ (hsub _ hmem)

theorem bestOf_append_singleton (sims : List (Nat × Double)) (x : Nat × Double) :
    bestOf (sims ++ [x]) = if x.2 < (bestOf sims).1 then (x.2, some x.1) else bestOf sims := by
  rw [bestOf, bestOf, List.foldl_append, List.foldl_cons, List.foldl_nil]

theorem bestOf_fst (sims : List (Nat × Double)) : (bestOf sims).1 = least (sims.map (·.2)) := by
  induction sims using List.reverseRecOn with
  | nil => rfl
  | append_singleton sims x ih =>
    rw [bestOf_append_singleton, List.map_append, List.map_singleton, least_append_singleton, ← ih]
    split <;> rfl

theorem bestOf_snd_first {sims : List (Nat × Double)} (h : ∀ x ∈ sims, x.2.isNaN = false) {id : Nat}
    (hb : (bestOf sims).2 = some id) :
    ∃ k : Nat, sims[k]? = some (id, (bestOf sims).1) ∧
      ∀ j < k, ∀ x : Nat × Double, sims[j]? = some x → (bestOf sims).1 < x.2 := by
  induction sims using List.reverseRecOn with
  | nil => simp [bestOf] at hb
  | append_singleton sims x ih =>
    have hrest : ∀ y ∈ sims, y.2.isNaN = false := fun y hy => h y (List.mem_append_left _ hy)
    rw [bestOf_append_singleton] at hb ⊢
    by_cases hlt : x.2 < (bestOf sims).1
    · -- the last value is strictly below every earlier one
      rw [if_pos hlt] at hb ⊢
      obtain ⟨rfl⟩ : x.1 = id := by simpa using hb
      refine ⟨sims.length, by simp, fun j hj y hy => ?_⟩
      rw [List.getElem?_append_left hj] at hy
      have hle : least (sims.map (·.2)) ≤ y.2 :=
        least_le (fun v hv => by obtain ⟨z, hz, rfl⟩ := List.mem_map.1 hv; exact hrest z hz) _
          (List.mem_map_of_mem (List.mem_of_getElem? hy))
      rw [← bestOf_fst] at hle
      exact Double.lt_of_lt_of_le hlt hle
    · rw [if_neg hlt] at hb ⊢
      obtain ⟨k, hk, hfirst⟩ := ih hrest hb
      have hklt : k < sims.length := (List.getElem?_eq_some_iff.1 hk).1
      refine ⟨k, by rwa [List.getElem?_append_left hklt], fun j hj y hy => hfirst j hj y ?_⟩
      rwa [List.getElem?_append_left (by omega)] at hy

end Least

/-- What the invariants read of a search node: its links, the least value seen below it and its
visit count. -/
structure NodeTally where
  parent : Option Nat
  children : List Nat
  quality : Double
  visits : Nat

def NodeTally.pass (x : NodeTally) (v : Double) : NodeTally :=
  { x with quality := if v < x.quality then v else x.quality, visits := x.visits + 1 }

@[ext]
structure SearchTally where
  nodes : Array NodeTally
  bestValue : Double
  bestNode : Option Nat
  rollouts : Nat

namespace SearchTally

variable {t : SearchTally} {sims : List (Nat × Double)}

def parentOf (t : SearchTally) (j : Nat) : Option Nat := (t.nodes[j]?).bind (·.parent)

/-- Node `j` and the nodes above it, nearest first: the nodes a value found at `j` passes
through. The walk stops at a parent that does not come first. -/
def ancestry (t : SearchTally) (j : Nat) : List Nat :=
  j :: match t.parentOf j with
    | some p => if p < j then t.ancestry p else []
    | none => []
termination_by j

def below (t : SearchTally) (i : Nat) (sims : List (Nat × Double)) : List (Nat × Double) :=
  sims.filter fun x => i ∈ t.ancestry x.1

def grow (t : SearchTally) (id : Nat) : SearchTally :=
  let listed := t.nodes.modify id fun x => { x with children := x.children ++ [t.nodes.size] }
  { t with nodes := listed.push ⟨some id, [], .infinity, 0⟩ }

def passUp (t : SearchTally) (id : Nat) (v : Double) : Array NodeTally :=
  t.nodes.mapIdx fun k x => if k ∈ t.ancestry id then x.pass v else x

/-- A simulation at `id` that returned `v`: counted, kept if strictly best, and passed up from
`id` to the root. -/
def record (t : SearchTally) (id : Nat) (v : Double) : SearchTally :=
  { nodes := t.passUp id v,
    bestValue := if v < t.bestValue then v else t.bestValue,
    bestNode := if v < t.bestValue then some id else t.bestNode,
    rollouts := t.rollouts + 1 }

/-- The links form a tree rooted at node zero whose parents come first, and only visited nodes
have children. -/
structure Shaped (t : SearchTally) : Prop where
  root : ∃ r : NodeTally, t.nodes[0]? = some r ∧ r.parent = none
  parent : ∀ (i : Nat) (x : NodeTally), t.nodes[i]? = some x → 0 < i →
    ∃ (p : Nat) (y : NodeTally), x.parent = some p ∧ p < i ∧ t.nodes[p]? = some y ∧ y.children.count i = 1
  children : ∀ (i : Nat) (x : NodeTally), t.nodes[i]? = some x → ∀ c ∈ x.children, t.parentOf c = some i
  visited : ∀ (i : Nat) (x : NodeTally), t.nodes[i]? = some x → x.children ≠ [] → 0 < x.visits

/-- The counts are those of the simulations `sims`, run in this order: each node has been visited
once per simulation at it or below it and keeps the least of their values, the rollouts are the
simulations, and the best value and node are those of the whole run. -/
structure Tallies (t : SearchTally) (sims : List (Nat × Double)) : Prop where
  rollouts : t.rollouts = sims.length
  valued : ∀ x ∈ sims, x.1 < t.nodes.size ∧ x.2.isNaN = false
  visits : ∀ (i : Nat) (x : NodeTally), t.nodes[i]? = some x → x.visits = (t.below i sims).length
  quality : ∀ (i : Nat) (x : NodeTally), t.nodes[i]? = some x → x.quality = least ((t.below i sims).map (·.2))
  best : (t.bestValue, t.bestNode) = bestOf sims

/-! ### Ancestry -/

theorem ancestry_eq (t : SearchTally) (j : Nat) :
    t.ancestry j = j :: match t.parentOf j with
      | some p => if p < j then t.ancestry p else []
      | none => [] := by
  rw [ancestry]

theorem self_mem_ancestry (t : SearchTally) (j : Nat) : j ∈ t.ancestry j := by
  rw [ancestry_eq]
  exact List.mem_cons_self

theorem le_of_mem_ancestry {t : SearchTally} : ∀ {j k : Nat}, k ∈ t.ancestry j → k ≤ j := by
  intro j
  induction j using Nat.strong_induction_on with
  | _ j ih =>
    intro k hk
    rw [ancestry_eq] at hk
    rcases List.mem_cons.1 hk with rfl | hk
    · exact Nat.le_refl _
    · split at hk
      · split at hk
        · exact Nat.le_of_lt (Nat.lt_of_le_of_lt (ih _ ‹_› hk) ‹_›)
        · simp at hk
      · simp at hk

theorem ancestry_congr {t t' : SearchTally} :
    ∀ {j : Nat}, (∀ k ≤ j, t'.parentOf k = t.parentOf k) → t'.ancestry j = t.ancestry j := by
  intro j
  induction j using Nat.strong_induction_on with
  | _ j ih =>
    intro h
    rw [ancestry_eq, ancestry_eq t, h j (Nat.le_refl _)]
    split
    · split
      · rw [ih _ ‹_› fun k hk => h k (by omega)]
      · rfl
    · rfl

theorem Shaped.parentOf_lt (ht : t.Shaped) {j p : Nat} (h : t.parentOf j = some p) : p < j := by
  obtain ⟨x, hx, hxp⟩ := Option.bind_eq_some_iff.1 h
  rcases Nat.eq_zero_or_pos j with rfl | hj
  · obtain ⟨r, hr, hrp⟩ := ht.root
    rw [hr] at hx
    cases hx
    rw [hrp] at hxp
    cases hxp
  · obtain ⟨p', y, hp', hlt, -⟩ := ht.parent j x hx hj
    rw [hp'] at hxp
    cases hxp
    exact hlt

theorem ancestry_of_lt {j p : Nat} (h : t.parentOf j = some p) (hp : p < j) :
    t.ancestry j = j :: t.ancestry p := by
  rw [ancestry_eq, h]
  exact congrArg _ (if_pos hp)

theorem Shaped.ancestry_of_parent (ht : t.Shaped) {j p : Nat} (h : t.parentOf j = some p) :
    t.ancestry j = j :: t.ancestry p :=
  ancestry_of_lt h (ht.parentOf_lt h)

theorem ancestry_of_none {j : Nat} (h : t.parentOf j = none) : t.ancestry j = [j] := by
  rw [ancestry_eq, h]

theorem length_ancestry_le (t : SearchTally) : ∀ j : Nat, (t.ancestry j).length ≤ j + 1 := by
  intro j
  induction j using Nat.strong_induction_on with
  | _ j ih =>
    rw [ancestry_eq]
    split
    · split
      · have := ih _ ‹_›
        rw [List.length_cons]
        omega
      · simp
    · simp

theorem Shaped.zero_mem_ancestry (ht : t.Shaped) : ∀ {j : Nat}, j < t.nodes.size → 0 ∈ t.ancestry j := by
  intro j
  induction j using Nat.strong_induction_on with
  | _ j ih =>
    intro hj
    rcases Nat.eq_zero_or_pos j with rfl | hpos
    · exact self_mem_ancestry t 0
    · obtain ⟨x, hx⟩ : ∃ x, t.nodes[j]? = some x := ⟨_, Array.getElem?_eq_getElem hj⟩
      obtain ⟨p, y, hp, hlt, hy, -⟩ := ht.parent j x hx hpos
      have hpj : t.parentOf j = some p := by simp [parentOf, hx, hp]
      rw [ht.ancestry_of_parent hpj]
      exact List.mem_cons_of_mem _ (ih p hlt (Array.getElem?_eq_some_iff.1 hy).1)

theorem Shaped.eq_of_parentOf (ht : t.Shaped) :
    ∀ {j c c' n : Nat}, c ∈ t.ancestry j → c' ∈ t.ancestry j → t.parentOf c = some n →
      t.parentOf c' = some n → c = c' := by
  intro j
  induction j using Nat.strong_induction_on with
  | _ j ih =>
    intro c c' n hc hc' hpc hpc'
    cases hj : t.parentOf j with
    | none =>
      rw [ancestry_of_none hj] at hc hc'
      rw [List.mem_singleton.1 hc, List.mem_singleton.1 hc']
    | some p =>
      rw [ht.ancestry_of_parent hj] at hc hc'
      have hp := ht.parentOf_lt hj
      -- a node strictly above `j` on the path has a parent below `p`
      have above : ∀ d, d ∈ t.ancestry p → t.parentOf d = some n → t.parentOf j = some n → False := by
        intro d hd hpd hpj
        rw [hj] at hpj
        cases hpj
        exact absurd (Nat.lt_of_lt_of_le (ht.parentOf_lt hpd) (le_of_mem_ancestry hd)) (Nat.lt_irrefl _)
      rcases List.mem_cons.1 hc with rfl | hc₁
      · rcases List.mem_cons.1 hc' with rfl | hc₁'
        · rfl
        · exact (above c' hc₁' hpc' hpc).elim
      · rcases List.mem_cons.1 hc' with rfl | hc₁'
        · exact (above c hc₁ hpc hpc').elim
        · exact ih p hp hc₁ hc₁' hpc hpc'

/-! ### Adding a child -/

theorem size_grow (t : SearchTally) (id : Nat) : (t.grow id).nodes.size = t.nodes.size + 1 := by
  simp [grow]

theorem getElem?_grow (t : SearchTally) (id i : Nat) :
    (t.grow id).nodes[i]? = if i = t.nodes.size then some ⟨some id, [], .infinity, 0⟩
      else (t.nodes[i]?).map fun x => if i = id then { x with children := x.children ++ [t.nodes.size] } else x := by
  simp only [grow, Array.getElem?_push, Array.size_modify, Array.getElem?_modify]
  split
  · rfl
  · by_cases h : id = i
    · subst h
      simp
    · simp [h, Ne.symm h]

theorem parentOf_grow_of_lt {id k : Nat} (hk : k < t.nodes.size) : (t.grow id).parentOf k = t.parentOf k := by
  simp only [parentOf, getElem?_grow, if_neg (Nat.ne_of_lt hk)]
  cases t.nodes[k]? with
  | none => rfl
  | some x => by_cases h : k = id <;> simp [h]

theorem parentOf_grow_self (t : SearchTally) (id : Nat) : (t.grow id).parentOf t.nodes.size = some id := by
  simp [parentOf, getElem?_grow]

theorem ancestry_grow_of_lt {id j : Nat} (hj : j < t.nodes.size) : (t.grow id).ancestry j = t.ancestry j :=
  ancestry_congr fun _ hk => parentOf_grow_of_lt (by omega)

theorem ancestry_grow_self {id : Nat} (hid : id < t.nodes.size) :
    (t.grow id).ancestry t.nodes.size = t.nodes.size :: t.ancestry id := by
  rw [ancestry_eq, parentOf_grow_self, ← ancestry_grow_of_lt hid]
  exact congrArg _ (if_pos hid)

theorem Shaped.grow (ht : t.Shaped) {id : Nat} {x : NodeTally} (hx : t.nodes[id]? = some x)
    (hvisited : 0 < x.visits) : (t.grow id).Shaped := by
  have hid : id < t.nodes.size := (Array.getElem?_eq_some_iff.1 hx).1
  -- the children listed before are nodes of the tree, so the new node is not among them
  have hfresh : ∀ (i : Nat) (y : NodeTally), t.nodes[i]? = some y → t.nodes.size ∉ y.children := by
    intro i y hy hc
    obtain ⟨z, hz, -⟩ := Option.bind_eq_some_iff.1 (ht.children i y hy _ hc)
    exact absurd (Array.getElem?_eq_some_iff.1 hz).1 (Nat.lt_irrefl _)
  refine ⟨?_, ?_, ?_, ?_⟩
  · obtain ⟨r, hr, hrp⟩ := ht.root
    refine ⟨if 0 = id then { r with children := r.children ++ [t.nodes.size] } else r, ?_, ?_⟩
    · rw [getElem?_grow, if_neg (Nat.ne_of_lt (Array.getElem?_eq_some_iff.1 hr).1), hr]
      rfl
    · split <;> exact hrp
  · intro i y hy hi
    rw [getElem?_grow] at hy
    split at hy
    · -- the new node: its parent is `id`, which lists it once
      cases hy
      refine ⟨id, { x with children := x.children ++ [t.nodes.size] }, rfl, by omega, ?_, ?_⟩
      · rw [getElem?_grow, if_neg (Nat.ne_of_lt hid), hx]
        simp
      · simp [List.count_append, List.count_eq_zero.2 (hfresh id x hx), *]
    · obtain ⟨z, hz, rfl⟩ := Option.map_eq_some_iff.1 hy
      have hilt : i < t.nodes.size := (Array.getElem?_eq_some_iff.1 hz).1
      obtain ⟨p, w, hp, hlt, hw, hcount⟩ := ht.parent i z hz hi
      refine ⟨p, if p = id then { w with children := w.children ++ [t.nodes.size] } else w,
        by split <;> exact hp, hlt, ?_, ?_⟩
      · rw [getElem?_grow, if_neg (by omega), hw]
        rfl
      · split
        · simp only [List.count_append, hcount, List.count_singleton, beq_iff_eq]
          split <;> omega
        · exact hcount
  · intro i y hy c hc
    rw [getElem?_grow] at hy
    split at hy
    · cases hy
      simp at hc
    · obtain ⟨z, hz, rfl⟩ := Option.map_eq_some_iff.1 hy
      split at hc
      · rename_i hii
        subst hii
        rcases List.mem_append.1 hc with hc | hc
        · have hpc := ht.children i z hz c hc
          obtain ⟨u, hu, -⟩ := Option.bind_eq_some_iff.1 hpc
          rw [parentOf_grow_of_lt (Array.getElem?_eq_some_iff.1 hu).1, hpc]
        · rw [List.mem_singleton.1 hc, parentOf_grow_self]
      · have hpc := ht.children i z hz c hc
        obtain ⟨u, hu, -⟩ := Option.bind_eq_some_iff.1 hpc
        rw [parentOf_grow_of_lt (Array.getElem?_eq_some_iff.1 hu).1, hpc]
  · intro i y hy hne
    rw [getElem?_grow] at hy
    split at hy
    · cases hy
      exact absurd rfl hne
    · obtain ⟨z, hz, rfl⟩ := Option.map_eq_some_iff.1 hy
      split
      · rename_i hii
        subst hii
        rw [hx] at hz
        cases hz
        exact hvisited
      · rw [if_neg ‹_›] at hne
        exact ht.visited i z hz hne

theorem Tallies.grow (hs : t.Tallies sims) (id : Nat) : (t.grow id).Tallies sims := by
  -- simulations ran at nodes that were there before, whose paths up are unchanged
  have hbelow : ∀ i, (t.grow id).below i sims = t.below i sims := by
    intro i
    refine List.filter_congr fun y hy => ?_
    rw [ancestry_grow_of_lt (hs.valued y hy).1]
  have hnew : (t.grow id).below t.nodes.size sims = [] := by
    rw [hbelow]
    refine List.filter_eq_nil_iff.2 fun y hy hmem => ?_
    have := le_of_mem_ancestry (of_decide_eq_true hmem)
    have := (hs.valued y hy).1
    omega
  refine ⟨hs.rollouts, fun y hy => ?_, fun i y hy => ?_, fun i y hy => ?_, hs.best⟩
  · rw [size_grow]
    exact ⟨by have := (hs.valued y hy).1; omega, (hs.valued y hy).2⟩
  · rw [getElem?_grow] at hy
    split at hy
    · cases hy
      subst i
      rw [hnew]
      rfl
    · obtain ⟨z, hz, rfl⟩ := Option.map_eq_some_iff.1 hy
      rw [hbelow, ← hs.visits i z hz]
      split <;> rfl
  · rw [getElem?_grow] at hy
    split at hy
    · cases hy
      subst i
      rw [hnew]
      rfl
    · obtain ⟨z, hz, rfl⟩ := Option.map_eq_some_iff.1 hy
      rw [hbelow, ← hs.quality i z hz]
      split <;> rfl

/-! ### Recording a simulation -/

theorem getElem?_record (t : SearchTally) (id : Nat) (v : Double) (i : Nat) :
    (t.record id v).nodes[i]? = (t.nodes[i]?).map fun x => if i ∈ t.ancestry id then x.pass v else x := by
  simp [record, passUp]

theorem parentOf_record (t : SearchTally) (id : Nat) (v : Double) (k : Nat) :
    (t.record id v).parentOf k = t.parentOf k := by
  simp only [parentOf, getElem?_record]
  cases t.nodes[k]? with
  | none => rfl
  | some x => by_cases h : k ∈ t.ancestry id <;> simp [h, NodeTally.pass]

theorem ancestry_record (t : SearchTally) (id : Nat) (v : Double) (j : Nat) :
    (t.record id v).ancestry j = t.ancestry j :=
  ancestry_congr fun k _ => parentOf_record t id v k

theorem Shaped.record (ht : t.Shaped) (id : Nat) (v : Double) : (t.record id v).Shaped := by
  refine ⟨?_, ?_, ?_, ?_⟩
  · obtain ⟨r, hr, hrp⟩ := ht.root
    refine ⟨_, by rw [getElem?_record, hr]; rfl, ?_⟩
    dsimp only
    split <;> exact hrp
  · intro i y hy hi
    rw [getElem?_record] at hy
    obtain ⟨z, hz, rfl⟩ := Option.map_eq_some_iff.1 hy
    obtain ⟨p, w, hp, hlt, hw, hcount⟩ := ht.parent i z hz hi
    refine ⟨p, _, by split <;> exact hp, hlt, by rw [getElem?_record, hw]; rfl, ?_⟩
    dsimp only
    split <;> exact hcount
  · intro i y hy c hc
    rw [getElem?_record] at hy
    obtain ⟨z, hz, rfl⟩ := Option.map_eq_some_iff.1 hy
    rw [parentOf_record]
    refine ht.children i z hz c ?_
    split at hc <;> exact hc
  · intro i y hy hne
    rw [getElem?_record] at hy
    obtain ⟨z, hz, rfl⟩ := Option.map_eq_some_iff.1 hy
    split
    · exact Nat.succ_pos _
    · rw [if_neg ‹_›] at hne
      exact ht.visited i z hz hne

theorem Tallies.record (hs : t.Tallies sims) {id : Nat} (hid : id < t.nodes.size) {v : Double}
    (hv : v.isNaN = false) : (t.record id v).Tallies (sims ++ [(id, v)]) := by
  have hbelow : ∀ i, (t.record id v).below i (sims ++ [(id, v)]) =
      t.below i sims ++ if i ∈ t.ancestry id then [(id, v)] else [] := by
    intro i
    simp only [below, ancestry_record, List.filter_append, List.filter_singleton]
    split <;> simp [*]
  refine ⟨by simp [SearchTally.record, hs.rollouts], fun y hy => ?_, fun i y hy => ?_, fun i y hy => ?_, ?_⟩
  · simp only [SearchTally.record, passUp, Array.size_mapIdx]
    rcases List.mem_append.1 hy with hy | hy
    · exact hs.valued y hy
    · rw [List.mem_singleton.1 hy]
      exact ⟨hid, hv⟩
  · rw [getElem?_record] at hy
    obtain ⟨z, hz, rfl⟩ := Option.map_eq_some_iff.1 hy
    rw [hbelow, List.length_append, ← hs.visits i z hz]
    split <;> rfl
  · rw [getElem?_record] at hy
    obtain ⟨z, hz, rfl⟩ := Option.map_eq_some_iff.1 hy
    rw [hbelow, List.map_append]
    split
    · rw [List.map_singleton, least_append_singleton, ← hs.quality i z hz]
      rfl
    · rw [List.map_nil, List.append_nil, hs.quality i z hz]
  · rw [bestOf_append_singleton, ← hs.best]
    simp only [SearchTally.record]
    split <;> rfl

/-! ### Passing a value up node by node -/

theorem parentOf_modify_pass (t : SearchTally) (i : Nat) (v : Double) (k : Nat) :
    { t with nodes := t.nodes.modify i (·.pass v) }.parentOf k = t.parentOf k := by
  simp only [parentOf, Array.getElem?_modify]
  split
  · cases t.nodes[k]? <;> rfl
  · rfl

theorem passUp_congr {t t' : SearchTally} (h : t'.nodes = t.nodes) (id : Nat) (v : Double) :
    t'.passUp id v = t.passUp id v := by
  have hanc : t'.ancestry id = t.ancestry id := ancestry_congr fun k _ => by simp only [parentOf, h]
  rw [passUp, passUp, hanc, h]

theorem passUp_of_none {id : Nat} (h : t.parentOf id = none) (v : Double) :
    t.passUp id v = t.nodes.modify id (·.pass v) := by
  refine Array.ext_getElem? fun k => ?_
  rw [passUp, Array.getElem?_mapIdx, Array.getElem?_modify, ancestry_of_none h]
  by_cases hk : id = k
  · subst hk
    simp
  · simp [hk, Ne.symm hk]

theorem passUp_of_parent {id p : Nat} (h : t.parentOf id = some p) (hp : p < id) (v : Double) :
    { t with nodes := t.nodes.modify id (·.pass v) }.passUp p v = t.passUp id v := by
  have hanc : { t with nodes := t.nodes.modify id (·.pass v) }.ancestry p = t.ancestry p :=
    ancestry_congr fun k _ => parentOf_modify_pass t id v k
  -- the node is not above its own parent, so it is passed once
  have hnot : id ∉ t.ancestry p := fun hm => absurd (le_of_mem_ancestry hm) (Nat.not_le.2 hp)
  refine Array.ext_getElem? fun k => ?_
  rw [passUp, passUp, hanc, ancestry_of_lt h hp, Array.getElem?_mapIdx, Array.getElem?_mapIdx,
    Array.getElem?_modify]
  by_cases hk : id = k
  · subst hk
    simp [hnot, Function.comp_def]
  · simp [hk, Ne.symm hk]

/-! ### One iteration -/

/-- What expanding node `sel` can do to the tallies: value `sel` itself; refuse; or add a new
child of `sel`, which has been visited, and value the child. -/
inductive Expands (t : SearchTally) (sel : Nat) : Option Nat → SearchTally → Prop
  | itself (hsel : sel < t.nodes.size) : Expands t sel (some sel) t
  | refused : Expands t sel none t
  | grown {x : NodeTally} (hx : t.nodes[sel]? = some x) (hvisited : 0 < x.visits) :
      Expands t sel (some t.nodes.size) (t.grow sel)

/-- What one iteration does to the tallies: nothing when the expansion is refused; else the node
the expansion gives is simulated and its value, a number, recorded. -/
inductive Iterates (t : SearchTally) : Option (Nat × Double) → SearchTally → Prop
  | refused : Iterates t none t
  | simulated {sel id : Nat} {t₁ : SearchTally} {v : Double} (he : t.Expands sel (some id) t₁)
      (hv : v.isNaN = false) : Iterates t (some (id, v)) (t₁.record id v)

inductive IteratesAll : SearchTally → List (Option (Nat × Double)) → SearchTally → Prop
  | nil (t : SearchTally) : IteratesAll t [] t
  | cons {t t₁ t' : SearchTally} {r : Option (Nat × Double)} {rs : List (Option (Nat × Double))} :
      t.Iterates r t₁ → IteratesAll t₁ rs t' → IteratesAll t (r :: rs) t'

theorem Expands.eq_of_none {sel : Nat} {t₁ : SearchTally} (h : t.Expands sel none t₁) : t₁ = t := by
  cases h
  rfl

theorem Expands.lt {sel id : Nat} {t₁ : SearchTally} (h : t.Expands sel (some id) t₁) :
    id < t₁.nodes.size := by
  cases h with
  | itself hsel => exact hsel
  | grown => rw [size_grow]; omega

theorem Expands.shaped {sel : Nat} {r : Option Nat} {t₁ : SearchTally} (h : t.Expands sel r t₁)
    (ht : t.Shaped) : t₁.Shaped := by
  cases h with
  | itself => exact ht
  | refused => exact ht
  | grown hx hvisited => exact ht.grow hx hvisited

theorem Expands.tallies {sel : Nat} {r : Option Nat} {t₁ : SearchTally} (h : t.Expands sel r t₁)
    (hs : t.Tallies sims) : t₁.Tallies sims := by
  cases h with
  | itself => exact hs
  | refused => exact hs
  | grown => exact hs.grow sel

theorem Iterates.shaped {r : Option (Nat × Double)} {t' : SearchTally} (h : t.Iterates r t')
    (ht : t.Shaped) : t'.Shaped := by
  cases h with
  | refused => exact ht
  | simulated he => exact (he.shaped ht).record _ _

theorem Iterates.tallies {r : Option (Nat × Double)} {t' : SearchTally} (h : t.Iterates r t')
    (hs : t.Tallies sims) : t'.Tallies (sims ++ r.toList) := by
  cases h with
  | refused => simpa using hs
  | simulated he hv => exact (he.tallies hs).record he.lt hv

theorem IteratesAll.invariant {rs : List (Option (Nat × Double))} {t t' : SearchTally}
    (h : IteratesAll t rs t') : ∀ {sims : List (Nat × Double)}, t.Shaped → t.Tallies sims →
      t'.Shaped ∧ t'.Tallies (sims ++ rs.filterMap id) := by
  induction h with
  | nil t => intro sims ht hs; simpa using And.intro ht hs
  | @cons t t₁ t' r rs hstep _ ih =>
    intro sims ht hs
    obtain ⟨ht', hs'⟩ := ih (hstep.shaped ht) (hstep.tallies hs)
    refine ⟨ht', ?_⟩
    cases r <;> simpa [List.filterMap_cons] using hs'

/-! ### A new search -/

def init : SearchTally := ⟨#[⟨none, [], .infinity, 0⟩], .infinity, none, 0⟩

theorem init_shaped : init.Shaped := by
  refine ⟨⟨_, rfl, rfl⟩, fun i x hx hi => ?_, fun i x hx c hc => ?_, fun i x hx hne => ?_⟩
  all_goals
    have hlt : i < 1 := (Array.getElem?_eq_some_iff.1 hx).1
    obtain rfl : i = 0 := by omega
    cases hx
  · exact absurd hi (Nat.lt_irrefl 0)
  · cases hc
  · exact absurd rfl hne

theorem init_tallies : init.Tallies [] := by
  refine ⟨rfl, by simp, fun i x hx => ?_, fun i x hx => ?_, rfl⟩
  all_goals
    have hlt : i < 1 := (Array.getElem?_eq_some_iff.1 hx).1
    obtain rfl : i = 0 := by omega
    cases hx
    rfl

/-! ### What the invariants give -/

theorem Shaped.parent_mem_ancestry (ht : t.Shaped) {c i : Nat} (hpc : t.parentOf c = some i) :
    ∀ {j : Nat}, c ∈ t.ancestry j → i ∈ t.ancestry j := by
  intro j
  induction j using Nat.strong_induction_on with
  | _ j ih =>
    intro hj
    cases hpj : t.parentOf j with
    | none =>
      rw [ancestry_of_none hpj, List.mem_singleton] at hj
      subst hj
      rw [hpc] at hpj
      cases hpj
    | some p =>
      rw [ht.ancestry_of_parent hpj] at hj ⊢
      rcases List.mem_cons.1 hj with rfl | hj
      · rw [hpc] at hpj
        cases hpj
        exact List.mem_cons_of_mem _ (self_mem_ancestry t _)
      · exact List.mem_cons_of_mem _ (ih p (ht.parentOf_lt hpj) hj)

theorem Shaped.count_children_le (ht : t.Shaped) {i j : Nat} :
    ∀ {cs : List Nat}, cs.Nodup → (∀ c ∈ cs, t.parentOf c = some i) →
      (cs.map fun c => if c ∈ t.ancestry j then 1 else 0).sum ≤ if i ∈ t.ancestry j then 1 else 0
  | [], _, _ => Nat.zero_le _
  | c :: cs, hnd, hpar => by
    rw [List.nodup_cons] at hnd
    have hrest := ht.count_children_le (j := j) hnd.2 fun d hd => hpar d (List.mem_cons_of_mem _ hd)
    rw [List.map_cons, List.sum_cons]
    split
    · rename_i hc
      -- no other child is on the path
      have hzero : (cs.map fun d => if d ∈ t.ancestry j then 1 else 0).sum = 0 := by
        refine List.sum_eq_zero fun n hn => ?_
        obtain ⟨d, hd, rfl⟩ := List.mem_map.1 hn
        rw [if_neg fun hdj => hnd.1 (ht.eq_of_parentOf hc hdj (hpar c List.mem_cons_self)
          (hpar d (List.mem_cons_of_mem _ hd)) ▸ hd)]
      rw [hzero, if_pos (ht.parent_mem_ancestry (hpar c List.mem_cons_self) hc)]
    · omega

theorem Shaped.children_nodup (ht : t.Shaped) {i : Nat} {x : NodeTally} (hx : t.nodes[i]? = some x) :
    x.children.Nodup := by
  refine List.nodup_iff_count_eq_one.2 fun c hc => ?_
  obtain ⟨u, hu, hup⟩ := Option.bind_eq_some_iff.1 (ht.children i x hx c hc)
  -- a child is not the root, so its parent's list counts it once
  have hcpos : 0 < c := by
    rcases Nat.eq_zero_or_pos c with rfl | h
    · obtain ⟨r, hr, hrp⟩ := ht.root
      rw [hr] at hu
      cases hu
      rw [hrp] at hup
      cases hup
    · exact h
  obtain ⟨p, y, hp, -, hy, hcount⟩ := ht.parent c u hu hcpos
  rw [hup] at hp
  cases hp
  rw [hx] at hy
  cases hy
  exact hcount

theorem Shaped.sum_below_children_le (ht : t.Shaped) {i : Nat} {cs : List Nat} (hnd : cs.Nodup)
    (hpar : ∀ c ∈ cs, t.parentOf c = some i) :
    ∀ sims : List (Nat × Double), (cs.map fun c => (t.below c sims).length).sum ≤ (t.below i sims).length
  | [] => by simp [below]
  | z :: sims => by
    have hlen : ∀ c, (t.below c (z :: sims)).length =
        (if c ∈ t.ancestry z.1 then 1 else 0) + (t.below c sims).length := by
      intro c
      simp only [below, List.filter_cons]
      split <;> simp_all [Nat.add_comm]
    simp only [hlen]
    rw [List.sum_map_add]
    exact Nat.add_le_add (ht.count_children_le hnd hpar) (ht.sum_below_children_le hnd hpar sims)

theorem Tallies.below_isNaN (hs : t.Tallies sims) (i : Nat) : ∀ v ∈ (t.below i sims).map (·.2), v.isNaN = false := by
  intro v hv
  obtain ⟨y, hy, rfl⟩ := List.mem_map.1 hv
  exact (hs.valued y (List.mem_of_mem_filter hy)).2

theorem Tallies.bestNode_first (hs : t.Tallies sims) {id : Nat} (hb : t.bestNode = some id) :
    ∃ k : Nat, sims[k]? = some (id, t.bestValue) ∧
      ∀ j < k, ∀ x : Nat × Double, sims[j]? = some x → t.bestValue < x.2 := by
  have hbest : bestOf sims = (t.bestValue, t.bestNode) := hs.best.symm
  have hsnd : (bestOf sims).2 = some id := by rw [hbest, hb]
  obtain ⟨k, hk, hfirst⟩ := bestOf_snd_first (fun x hx => (hs.valued x hx).2) hsnd
  rw [hbest] at hk hfirst
  exact ⟨k, hk, hfirst⟩

theorem Tallies.bestValue_le (hs : t.Tallies sims) : ∀ x ∈ sims, t.bestValue ≤ x.2 := by
  intro x hx
  have hbest : t.bestValue = least (sims.map (·.2)) := by
    rw [← bestOf_fst, ← hs.best]
  rw [hbest]
  refine least_le (fun v hv => ?_) x.2 (List.mem_map_of_mem hx)
  obtain ⟨y, hy, rfl⟩ := List.mem_map.1 hv
  exact (hs.valued y hy).2

section Consequences

variable (ht : t.Shaped) (hs : t.Tallies sims)
include ht hs

theorem Tallies.below_zero : t.below 0 sims = sims :=
  List.filter_eq_self.2 fun y hy => decide_eq_true (ht.zero_mem_ancestry (hs.valued y hy).1)

theorem root_visits {r : NodeTally} (hr : t.nodes[0]? = some r) : r.visits = t.rollouts := by
  rw [hs.visits 0 r hr, hs.below_zero ht, hs.rollouts]

theorem root_quality {r : NodeTally} (hr : t.nodes[0]? = some r) : r.quality = t.bestValue := by
  rw [hs.quality 0 r hr, hs.below_zero ht, ← bestOf_fst, ← hs.best]

theorem quality_le_child {i c : Nat} {x y : NodeTally} (hx : t.nodes[i]? = some x) (hc : c ∈ x.children)
    (hy : t.nodes[c]? = some y) : x.quality ≤ y.quality := by
  rw [hs.quality i x hx, hs.quality c y hy]
  refine least_le_least (fun v hv => ?_) (hs.below_isNaN i)
  obtain ⟨z, hz, rfl⟩ := List.mem_map.1 hv
  refine List.mem_map_of_mem (List.mem_filter.2 ⟨List.mem_of_mem_filter hz, ?_⟩)
  exact decide_eq_true (ht.parent_mem_ancestry (ht.children i x hx c hc)
    (of_decide_eq_true (List.mem_filter.1 hz).2))

theorem children_visits_le {i : Nat} {x : NodeTally} (hx : t.nodes[i]? = some x) :
    ((x.children.filterMap fun c => t.nodes[c]?).map (·.visits)).sum ≤ x.visits := by
  have hpar : ∀ c ∈ x.children, t.parentOf c = some i := ht.children i x hx
  -- the children's visits are their counts of simulations below them
  have hvisits : ∀ cs : List Nat, (∀ c ∈ cs, t.parentOf c = some i) →
      ((cs.filterMap fun c => t.nodes[c]?).map (·.visits)) = cs.map fun c => (t.below c sims).length := by
    intro cs
    induction cs with
    | nil => intro _; rfl
    | cons c cs ih =>
      intro hcs
      obtain ⟨u, hu, -⟩ := Option.bind_eq_some_iff.1 (hcs c List.mem_cons_self)
      rw [List.filterMap_cons, hu, List.map_cons, List.map_cons, hs.visits c u hu,
        ih fun d hd => hcs d (List.mem_cons_of_mem _ hd)]
  rw [hvisits _ hpar, hs.visits i x hx]
  exact ht.sum_below_children_le (ht.children_nodup hx) hpar sims

end Consequences

end SearchTally

end TileSched
