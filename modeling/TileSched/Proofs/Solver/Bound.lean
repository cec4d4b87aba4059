import Mathlib
import TileSched.Proofs.Solver.Split
/-! The two tests that prune the search. The constraint check never refutes intervals that hold a
solution, and over point intervals it passes only when the points meet every constraint. The
objective bound is at most the objective of every solution that extends the partial assignment,
and once every variable is set and every group has its member it is the objective of the points. -/

namespace TileSched

namespace I128

theorem foldlM_add_eq_ok : ∀ {xs : List Int} {a r : Int}, xs.foldlM add a = .ok r → r = a + xs.sum
  | [], a, r, h => by simpa using (pure_eq_ok.1 h).symm
  | x :: xs, a, r, h => by
    obtain ⟨a', ha, h⟩ := bind_eq_ok.1 (by simpa only [List.foldlM_cons] using h)
    rw [foldlM_add_eq_ok h, add_eq_ok ha, List.sum_cons, Int.add_assoc]

theorem sum_eq_ok {xs : List Int} {r : Int} (h : sum xs = .ok r) : r = xs.sum := by
  simpa using foldlM_add_eq_ok h

end I128

namespace ObjectiveSplit

variable (s : ObjectiveSplit) (b : Array Interval) (pa : Array (Option Int))

def memberLow (g v : Nat) : Int :=
  (((s.guarded.getD g []).filter (·.var == v)).map (Model.guardedCost · b)).sum

/-- The bound's share for group `g` with members `ms`: the cost of the member set to one, or else
of the cheapest member not set to zero. -/
def groupLow (ms : List Nat) (g : Nat) : Int :=
  if (s.guarded.getD g []).isEmpty then 0
  else match ms.find? (fun v => pa.getD v none == some 1) with
    | some v => s.memberLow b g v
    | none =>
      match (ms.filter fun v => pa.getD v none != some 0).map (s.memberLow b g) with
      | [] => 0
      | c :: cs => cs.foldl min c

def freeLow : Int :=
  (s.free.map fun t => min (t.1 * (b.getD t.2 (0, 0)).1) (t.1 * (b.getD t.2 (0, 0)).2)).sum

def lowerBound (m : Model) : Int :=
  s.constant + s.freeLow b + ((m.groups.toList.zipIdx).map fun p => s.groupLow b pa p.1 p.2).sum

end ObjectiveSplit

theorem foldl_min_le : ∀ (cs : List Int) (c x : Int), x ∈ c :: cs → cs.foldl min c ≤ x
  | [], c, x, h => by simp_all
  | d :: cs, c, x, h => by
    rw [List.foldl_cons]
    rcases List.mem_cons.1 h with rfl | h
    · exact le_trans (foldl_min_le cs (min x d) (min x d) List.mem_cons_self) (min_le_left x d)
    · rcases List.mem_cons.1 h with rfl | h
      · exact le_trans (foldl_min_le cs (min c x) (min c x) List.mem_cons_self) (min_le_right c x)
      · exact foldl_min_le cs (min c d) x (List.mem_cons_of_mem _ h)

theorem sum_zipIdx_getD {α β : Type} (H : β → Int) (d : β) :
    ∀ (l : List α) (l' : List β), l.length = l'.length →
      ((l.zipIdx).map fun p => H (l'.getD p.2 d)).sum = (l'.map H).sum
  | [], [], _ => rfl
  | [], _ :: _, h => absurd h (by simp)
  | _ :: _, [], h => absurd h (by simp)
  | x :: xs, y :: ys, h => by
    have hshift : ((xs.zipIdx).map (Prod.map id (· + 1))).map (fun p => H ((y :: ys).getD p.2 d)) =
        (xs.zipIdx).map fun p => H (ys.getD p.2 d) := by
      simp [Function.comp_def]
    rw [List.zipIdx_cons', List.map_cons, List.sum_cons, hshift,
      sum_zipIdx_getD H d xs ys (by simpa using h)]
    simp

theorem GuardedTerm.Guards.mem_group {m : Model} (hm : m.WellFormed) {t : GuardedTerm} {g : Nat} (ht : t.Guards m g)
    {ms : List Nat} (hms : m.groups[g]? = some ms) : t.var ∈ ms := by
  have hlt : t.var < m.vars.size := by
    by_contra hge
    have := ht.group
    simp only [Array.getD_eq_getD_getElem?, Array.getElem?_eq_none (Nat.le_of_not_lt hge),
      Option.getD_none] at this
    cases this
  obtain ⟨ms', hms', hmem⟩ := hm.grouped t.var m.vars[t.var] g (by simp [hlt])
    (by simpa [Array.getD_eq_getD_getElem?, hlt] using ht.group)
  rw [hms] at hms'
  cases hms'
  exact hmem

theorem GuardedTerm.Guards.rest_lt {m : Model} (hm : m.WellFormed) {t : GuardedTerm} {g : Nat} (ht : t.Guards m g) :
    ∀ f ∈ t.rest, f < m.nodes.size := by
  rcases ht.rest with hr | ⟨i, l₁, l₂, hnode, hr⟩
  · simp [hr]
  · intro f hf
    have hi : i < m.nodes.size := (Array.getElem?_eq_some_iff.1 hnode).1
    have hfs : f ∈ l₁ ++ (m.vars.getD t.var default).expr :: l₂ := by
      rw [hr] at hf
      rcases List.mem_append.1 hf with hf | hf
      · exact List.mem_append_left _ hf
      · exact List.mem_append_right _ (List.mem_cons_of_mem _ hf)
    exact lt_trans (hm.product_lt i _ hnode f hfs) hi

namespace Model

variable {m : Model}

def Chosen (m : Model) (pa : Array (Option Int)) : Prop :=
  ∀ ms ∈ m.groups, ∃ w ∈ ms, ∀ v ∈ ms, pa.getD v none = some (if v = w then 1 else 0)

section Consistent

variable {b : Array Interval}

theorem consistent_ne_false {val : Nat → Int} (hmem : ∀ e iv, b[e]? = some iv → InInterval (val e) iv)
    (hposted : ∀ c ∈ m.constraints, c.Holds val) : m.consistent b ≠ .ok false := by
  show consistent.go (fun e => entryAt b e) m.constraints.toList ≠ .ok false
  suffices hgo : ∀ cs : List Constraint, (∀ c ∈ cs, c.Holds val) →
      consistent.go (fun e => entryAt b e) cs ≠ .ok false from
    hgo _ fun c hc => hposted c (by simpa using hc)
  intro cs hcs
  induction cs with
  | nil => simp [consistent.go]
  | cons c cs ih =>
    have hc := hcs c List.mem_cons_self
    have ih := ih fun c' hc' => hcs c' (List.mem_cons_of_mem _ hc')
    cases c with
    | equal x y =>
      rw [consistent.go.eq_2]
      cases hx : entryAt b x with
      | error f => simp [bind, Except.bind]
      | ok ix =>
        cases hy : entryAt b y with
        | error f => simp [bind, Except.bind]
        | ok iy =>
          have mx := hmem x ix (entryAt_eq_ok.1 hx)
          have my := hmem y iy (entryAt_eq_ok.1 hy)
          simp only [Constraint.Holds] at hc
          rw [hc] at mx
          have hfit : ix.1 ≤ iy.2 ∧ iy.1 ≤ ix.2 := ⟨le_trans mx.1 my.2, le_trans my.1 mx.2⟩
          simpa [bind, Except.bind, hfit] using ih
    | lessEqual x y =>
      rw [consistent.go.eq_3]
      cases hx : entryAt b x with
      | error f => simp [bind, Except.bind]
      | ok ix =>
        cases hy : entryAt b y with
        | error f => simp [bind, Except.bind]
        | ok iy =>
          have mx := hmem x ix (entryAt_eq_ok.1 hx)
          have my := hmem y iy (entryAt_eq_ok.1 hy)
          simp only [Constraint.Holds] at hc
          have hfit : ix.1 ≤ iy.2 := le_trans mx.1 (le_trans hc my.2)
          simpa [bind, Except.bind, hfit] using ih

theorem holds_of_consistent (hpt : ∀ (e : Nat) (iv : Interval), b[e]? = some iv → iv.1 = iv.2)
    (h : m.consistent b = .ok true) : ∀ c ∈ m.constraints, c.Holds (fun e => (b.getD e (0, 0)).1) := by
  change consistent.go (fun e => entryAt b e) m.constraints.toList = .ok true at h
  have hpoint : ∀ {e iv}, entryAt b e = .ok iv → (b.getD e (0, 0)).1 = iv.1 ∧ iv.1 = iv.2 :=
    fun he => by
      have := entryAt_eq_ok.1 he
      simp [Array.getD_eq_getD_getElem?, this, hpt _ _ this]
  intro c hc
  rw [← Array.mem_toList_iff] at hc
  revert h hc
  induction m.constraints.toList with
  | nil => intro _ hc; cases hc
  | cons c' cs ih =>
    intro h hc
    cases c' with
    | equal x y =>
      rw [consistent.go.eq_2] at h
      obtain ⟨⟨xl, xh⟩, hx, h⟩ := bind_eq_ok.1 h
      obtain ⟨⟨yl, yh⟩, hy, h⟩ := bind_eq_ok.1 h
      dsimp only at h
      split at h
      · rcases List.mem_cons.1 hc with rfl | hc
        · obtain ⟨hx1, hx2⟩ := hpoint hx
          obtain ⟨hy1, hy2⟩ := hpoint hy
          simp only [Constraint.Holds, hx1, hy1]
          omega
        · exact ih h hc
      · cases h
    | lessEqual x y =>
      rw [consistent.go.eq_3] at h
      obtain ⟨⟨xl, xh⟩, hx, h⟩ := bind_eq_ok.1 h
      obtain ⟨⟨yl, yh⟩, hy, h⟩ := bind_eq_ok.1 h
      dsimp only at h
      split at h
      · rcases List.mem_cons.1 hc with rfl | hc
        · obtain ⟨hx1, hx2⟩ := hpoint hx
          obtain ⟨hy1, hy2⟩ := hpoint hy
          simp only [Constraint.Holds, hx1, hy1]
          omega
        · exact ih h hc
      · cases h

end Consistent

section Bound

variable {s : ObjectiveSplit} {b : Array Interval} {pa : Array (Option Int)}

theorem memberCost_eq {g v : Nat} {c : Int} (h : memberCost s g v b = .ok c) :
    c = s.memberLow b g v :=
  I128.sum_eq_ok h

theorem objectiveBound_eq {r : Int} (h : m.objectiveBound s b pa = .ok r) :
    r = s.lowerBound b pa m := by
  unfold objectiveBound at h
  obtain ⟨free, hfree, h⟩ := bind_eq_ok.1 h
  obtain ⟨total, htotal, h⟩ := bind_eq_ok.1 h
  have hf : free = s.freeLow b := by
    rw [I128.sum_eq_ok hfree]
    rfl
  rw [foldlM_ok_sum (fun p => s.groupLow b pa p.1 p.2) h, I128.add_eq_ok htotal, hf]
  · rfl
  · rintro t ⟨ms, g⟩ t' - hstep
    dsimp only at hstep
    unfold ObjectiveSplit.groupLow
    split at hstep
    · rename_i hempty
      rw [if_pos hempty, ← pure_eq_ok.1 hstep, Int.add_zero]
    · rename_i hempty
      rw [if_neg hempty]
      split at hstep
      · rename_i v hv
        rw [hv]
        obtain ⟨cost, hcost, hstep⟩ := bind_eq_ok.1 hstep
        rw [I128.add_eq_ok hstep, memberCost_eq hcost]
      · rename_i hv
        rw [hv]
        obtain ⟨costs, hcosts, hstep⟩ := bind_eq_ok.1 hstep
        obtain ⟨_, -, hstep⟩ := bind_eq_ok.1 hstep
        obtain rfl := mapM_ok_eq_map (fun v c hc => memberCost_eq hc) hcosts
        -- the two sides take `min` through different instances, equal only after unfolding
        exact (I128.add_eq_ok hstep).trans rfl

theorem sum_guarded_eq {val : Nat → Int} {w : Nat} :
    ∀ {ts : List GuardedTerm}, (∀ t ∈ ts, val (m.vars.getD t.var default).expr = if t.var = w then 1 else 0) →
      (ts.map (·.value m val)).sum = ((ts.filter (·.var == w)).map fun t => t.coeff * (t.rest.map val).prod).sum
  | [], _ => rfl
  | t :: ts, hguard => by
    have ih := sum_guarded_eq fun t' ht' => hguard t' (List.mem_cons_of_mem _ ht')
    have ht := hguard t List.mem_cons_self
    rw [List.map_cons, List.sum_cons, ih, List.filter_cons]
    by_cases hw : t.var = w
    · rw [if_pos hw] at ht
      rw [if_pos (by simpa using hw), List.map_cons, List.sum_cons]
      simp only [GuardedTerm.value, ht, mul_one]
    · rw [if_neg hw] at ht
      rw [if_neg (by simpa using hw)]
      simp only [GuardedTerm.value, ht, mul_zero, zero_mul, zero_add]

theorem groupLow_le {val : Nat → Int} (hext : m.Extends val pa) {ms : List Nat} {g w : Nat} (hw : w ∈ ms)
    (hone : ∀ v ∈ ms, val (m.vars.getD v default).expr = if v = w then 1 else 0)
    (hne : (s.guarded.getD g []).isEmpty = false) :
    s.groupLow b pa ms g ≤ s.memberLow b g w ∧
      (pa.getD w none = some 1 → s.groupLow b pa ms g = s.memberLow b g w) := by
  -- a member the assignment sets to one is the chosen member
  have hset : ∀ v ∈ ms, pa.getD v none = some 1 → v = w := by
    intro v hv hpa
    have h1 := hext v 1 hpa
    rw [hone v hv] at h1
    by_contra hvw
    rw [if_neg hvw] at h1
    cases h1
  unfold ObjectiveSplit.groupLow
  rw [hne, if_neg Bool.false_ne_true]
  cases hfind : ms.find? (fun v => pa.getD v none == some 1) with
  | some v =>
    have hv := hset v (List.mem_of_find?_eq_some hfind) (by simpa using List.find?_some hfind)
    subst hv
    exact ⟨le_refl _, fun _ => rfl⟩
  | none =>
    refine ⟨?_, fun hpw => ?_⟩
    · -- the chosen member is not set to zero, so its cost is among those compared
      have hw0 : pa.getD w none ≠ some 0 := by
        intro h0
        have := hext w 0 h0
        rw [hone w hw, if_pos rfl] at this
        cases this
      have hmem : s.memberLow b g w ∈
          (ms.filter fun v => pa.getD v none != some 0).map (s.memberLow b g) :=
        List.mem_map_of_mem (List.mem_filter.2 ⟨hw, by simpa using hw0⟩)
      revert hmem
      cases (ms.filter fun v => pa.getD v none != some 0).map (s.memberLow b g) with
      | nil => intro hmem; cases hmem
      | cons c cs => exact foldl_min_le cs c _
    · exact absurd hpw (by simpa using List.find?_eq_none.1 hfind w hw)

section Exact

variable (hm : WellFormed m) (hlin : m.LinearBackward) (hu : m.UnclampedAt pa)
include hm hlin hu

theorem guardedCost_eq {g : Nat} {t : GuardedTerm} (ht : t.Guards m g)
    (hone : InInterval 1 ((m.exactBounds pa).getD (m.vars.getD t.var default).expr (0, 0))) :
    guardedCost t (m.exactBounds pa) = t.coeff * (prodHull (m.exactBounds pa) t.rest).1 := by
  unfold guardedCost
  rcases ht.rest with hr | ⟨i, l₁, l₂, hnode, hr⟩
  · rw [hr]
    rfl
  · have hi : i < m.nodes.size := (Array.getElem?_eq_some_iff.1 hnode).1
    have hn : m.nodes[i] = .product (l₁ ++ (m.vars.getD t.var default).expr :: l₂) := by
      simpa [hi] using hnode
    have hw := hu i hi
    rw [hn] at hw
    rw [hr, foldl_mulInterval_of_word _ (word_prodHull_erase (exactBounds_le hm hlin) hone hw)]

variable {val : Nat → Int} (hval : m.Evaluation val) (hext : m.Extends val pa)
include hval hext

theorem memberLow_eq (hs : s.Valid m) {g w : Nat} (hw : w < m.vars.size)
    (hw1 : val (m.vars.getD w default).expr = 1) :
    s.memberLow (m.exactBounds pa) g w = (((s.guarded.getD g []).filter (·.var == w)).map
      fun t => t.coeff * (prodHull (m.exactBounds pa) t.rest).1).sum := by
  unfold ObjectiveSplit.memberLow
  congr 1
  refine List.map_congr_left fun t ht => ?_
  obtain ⟨htg, htw⟩ := List.mem_filter.1 ht
  have hguards : t.Guards m g := by
    rw [Array.getD_eq_getD_getElem?] at htg
    cases hg : s.guarded[g]? with
    | none => rw [hg] at htg; cases htg
    | some ts => rw [hg] at htg; exact hs.guards g ts hg t htg
  rw [beq_iff_eq] at htw
  -- the guard's node holds the member's value, one
  have hexpr : (m.vars.getD w default).expr < m.nodes.size := by
    have hinfo : m.vars[w]? = some (m.vars.getD w default) := by simp [hw, Array.getD_eq_getD_getElem?]
    exact (Array.getElem?_eq_some_iff.1 (hm.var_expr w _ hinfo)).1
  have hone := mem_exactBounds hm hlin hval hext _ hexpr
  rw [hw1, ← htw] at hone
  exact guardedCost_eq hm hlin hu hguards hone

theorem memberLow_vs_guarded (hs : s.Valid m) {ms : List Nat} {g w : Nat}
    (hms : m.groups[g]? = some ms) (hw : w ∈ ms)
    (hwv : ∀ v ∈ ms, val (m.vars.getD v default).expr = if v = w then 1 else 0) :
    s.memberLow (m.exactBounds pa) g w ≤ ((s.guarded.getD g []).map (·.value m val)).sum ∧
      ((∀ f, ((m.exactBounds pa).getD f (0, 0)).1 = ((m.exactBounds pa).getD f (0, 0)).2) →
        s.memberLow (m.exactBounds pa) g w = ((s.guarded.getD g []).map (·.value m val)).sum) := by
  have hwlt : w < m.vars.size := by
    obtain ⟨info, hinfo, _⟩ := hm.member g ms hms w hw
    exact (Array.getElem?_eq_some_iff.1 hinfo).1
  have hw1 : val (m.vars.getD w default).expr = 1 := by rw [hwv w hw, if_pos rfl]
  have hguards : ∀ t ∈ s.guarded.getD g [], t.Guards m g := by
    intro t ht
    rw [Array.getD_eq_getD_getElem?] at ht
    cases hg : s.guarded[g]? with
    | none => rw [hg] at ht; cases ht
    | some ts => rw [hg] at ht; exact hs.guards g ts hg t ht
  have hguard : ∀ t ∈ s.guarded.getD g [], val (m.vars.getD t.var default).expr =
      if t.var = w then 1 else 0 :=
    fun t ht => hwv t.var ((hguards t ht).mem_group hm hms)
  -- each product of a rest lies in the exact hull of the rest
  have hterm : ∀ t ∈ (s.guarded.getD g []).filter (·.var == w),
      InInterval (t.rest.map val).prod (prodHull (m.exactBounds pa) t.rest) := by
    intro t ht
    have hrest := (hguards t (List.mem_filter.1 ht).1).rest_lt hm
    simpa using mem_prodHull t.rest (fun f hf => mem_exactBounds hm hlin hval hext f (hrest f hf))
      (⟨le_refl 1, le_refl 1⟩ : InInterval 1 (1, 1))
  have hcoeff : ∀ t ∈ (s.guarded.getD g []).filter (·.var == w), 0 ≤ t.coeff :=
    fun t ht => (hguards t (List.mem_filter.1 ht).1).coeff
  rw [sum_guarded_eq hguard, memberLow_eq hm hlin hu hval hext hs hwlt hw1]
  refine ⟨List.sum_le_sum fun t ht => mul_le_mul_of_nonneg_left (hterm t ht).1 (hcoeff t ht),
    fun hpt => ?_⟩
  congr 1
  refine List.map_congr_left fun t ht => ?_
  have hpoint : (prodHull (m.exactBounds pa) t.rest).1 = (prodHull (m.exactBounds pa) t.rest).2 := by
    rw [prodHull_points t.rest (fun f _ => hpt f) 1]
  rw [le_antisymm (hpoint ▸ (hterm t ht).2) (hterm t ht).1]

theorem groupLow_vs_guarded (hs : s.Valid m) (hone : m.OneHot val) {ms : List Nat} {g : Nat}
    (hms : m.groups[g]? = some ms) :
    s.groupLow (m.exactBounds pa) pa ms g ≤ ((s.guarded.getD g []).map (·.value m val)).sum ∧
      ((∀ f, ((m.exactBounds pa).getD f (0, 0)).1 = ((m.exactBounds pa).getD f (0, 0)).2) →
        m.Chosen pa →
        s.groupLow (m.exactBounds pa) pa ms g = ((s.guarded.getD g []).map (·.value m val)).sum) := by
  have hmem : ms ∈ m.groups := Array.mem_of_getElem? hms
  obtain ⟨w, hw, hwv⟩ := hone ms hmem
  cases hempty : (s.guarded.getD g []).isEmpty with
  | true =>
    have hnil := List.isEmpty_iff.1 hempty
    simp [ObjectiveSplit.groupLow, hnil]
  | false =>
    obtain ⟨hle, heq⟩ := groupLow_le hext hw hwv hempty
    obtain ⟨hmle, hmeq⟩ := memberLow_vs_guarded hm hlin hu hval hext hs hms hw hwv
    refine ⟨le_trans hle hmle, fun hpt hchosen => ?_⟩
    -- the member the assignment chose is the one the values choose
    obtain ⟨w', hw', hpa⟩ := hchosen ms hmem
    have hww : w' = w := by
      have h1 := hext w' 1 (by rw [hpa w' hw', if_pos rfl])
      rw [hwv w' hw'] at h1
      by_contra hne
      rw [if_neg hne] at h1
      cases h1
    subst hww
    rw [heq (by rw [hpa w' hw', if_pos rfl]), hmeq hpt]

theorem lowerBound_vs_value (hs : s.Valid m) (hone : m.OneHot val) :
    s.lowerBound (m.exactBounds pa) pa m ≤ s.value m val ∧
      ((∀ f, ((m.exactBounds pa).getD f (0, 0)).1 = ((m.exactBounds pa).getD f (0, 0)).2) →
        m.Chosen pa → s.lowerBound (m.exactBounds pa) pa m = s.value m val) := by
  have hfree : ∀ t ∈ s.free, InInterval (val t.2) ((m.exactBounds pa).getD t.2 (0, 0)) :=
    fun t ht => mem_exactBounds hm hlin hval hext _ (hs.free_lt t ht)
  -- the guarded terms of the split, read group by group
  have hget : ∀ g, s.guarded.getD g [] = s.guarded.toList.getD g [] := by
    intro g
    simp [Array.getD_eq_getD_getElem?, List.getD_eq_getElem?_getD]
  have hregroup : ((m.groups.toList.zipIdx).map fun p : List Nat × Nat =>
      ((s.guarded.getD p.2 []).map fun t : GuardedTerm => t.value m val).sum).sum =
      (s.guarded.toList.map fun ts : List GuardedTerm => (ts.map (·.value m val)).sum).sum := by
    simp only [hget]
    exact sum_zipIdx_getD (fun ts : List GuardedTerm => (ts.map (·.value m val)).sum) []
      m.groups.toList s.guarded.toList (by simp [hs.size])
  have hgroup : ∀ p ∈ m.groups.toList.zipIdx, m.groups[p.2]? = some p.1 := fun p hp => by
    simpa using List.mem_zipIdx_iff_getElem?.1 hp
  unfold ObjectiveSplit.lowerBound ObjectiveSplit.value ObjectiveSplit.freeLow
  rw [← hregroup]
  refine ⟨?_, fun hpt hchosen => ?_⟩
  · have hf : (s.free.map fun t => min (t.1 * ((m.exactBounds pa).getD t.2 (0, 0)).1)
        (t.1 * ((m.exactBounds pa).getD t.2 (0, 0)).2)).sum ≤ (s.free.map fun t => t.1 * val t.2).sum := by
      refine List.sum_le_sum fun t ht => ?_
      have := (mul_between (hfree t ht) t.1).1
      rwa [mul_comm _ t.1, mul_comm _ t.1, mul_comm _ t.1] at this
    have hg := List.sum_le_sum fun p hp => (groupLow_vs_guarded hm hlin hu hval hext hs hone (hgroup p hp)).1
    omega
  · have hf : (s.free.map fun t => min (t.1 * ((m.exactBounds pa).getD t.2 (0, 0)).1)
        (t.1 * ((m.exactBounds pa).getD t.2 (0, 0)).2)).sum = (s.free.map fun t => t.1 * val t.2).sum := by
      congr 1
      refine List.map_congr_left fun t ht => ?_
      have hx := hfree t ht
      have hhi := hx.2
      rw [← hpt t.2] at hhi
      rw [← hpt t.2, min_self, le_antisymm hhi hx.1]
    have hg : ((m.groups.toList.zipIdx).map fun p => s.groupLow (m.exactBounds pa) pa p.1 p.2).sum =
        ((m.groups.toList.zipIdx).map fun p : List Nat × Nat =>
          ((s.guarded.getD p.2 []).map fun t : GuardedTerm => t.value m val).sum).sum := by
      congr 1
      exact List.map_congr_left fun p hp =>
        (groupLow_vs_guarded hm hlin hu hval hext hs hone (hgroup p hp)).2 hpt hchosen
    rw [hf, hg]

end Exact

theorem Chosen.oneHot {val : Nat → Int} (hc : m.Chosen pa) (hext : m.Extends val pa) : m.OneHot val := by
  intro ms hms
  obtain ⟨w, hw, hpw⟩ := hc ms hms
  exact ⟨w, hw, fun v hv => hext v _ (hpw v hv)⟩

end Bound

/-- Every exactly-one group is wholly unset, or has one member set to one and its others set to
zero: the assignments the search makes. -/
def GroupsDecided (m : Model) (pa : Array (Option Int)) : Prop :=
  ∀ ms ∈ m.groups, (∀ v ∈ ms, pa.getD v none = none) ∨
    ∃ w ∈ ms, ∀ v ∈ ms, pa.getD v none = some (if v = w then 1 else 0)

theorem GroupsDecided.chosen (hm : WellFormed m) {pa : Array (Option Int)} (hd : m.GroupsDecided pa)
    (hfull : ∀ v < m.vars.size, pa.getD v none ≠ none) : m.Chosen pa := by
  intro ms hms
  rcases hd ms hms with hnone | hchosen
  · obtain ⟨g, hg⟩ := Array.getElem?_of_mem hms
    obtain ⟨v, hv⟩ := List.exists_mem_of_ne_nil _ (hm.group_ne_nil g ms hg)
    obtain ⟨info, hinfo, -⟩ := hm.member g ms hg v hv
    exact absurd (hnone v hv) (hfull v (Array.getElem?_eq_some_iff.1 hinfo).1)
  · exact hchosen

/-- The group-aware objective bound never overestimates. Under an assignment whose intervals no
clamp cuts, the bound the search computes from the split objective and the intervals is at most
the objective's value under every solution of the model that extends the assignment; once every
variable is set and every group is decided, it is the value the intervals give the objective. A
model whose linear node refers forward is refused before the search. -/
theorem objectiveBound_sound (hm : m.Built) (hlin : m.LinearBackward) {objective : Nat} {s : ObjectiveSplit}
    (hs : m.splitObjective objective = .ok s) {pa : Array (Option Int)} (hpa : m.Partial pa)
    (hu : m.UnclampedAt pa) {b : Array Interval} (hb : m.bounds pa = .ok b) {r : Int}
    (hr : m.objectiveBound s b pa = .ok r) :
    (∀ val, m.Satisfies val → m.Extends val pa → r ≤ val objective) ∧
      ((∀ v < m.vars.size, pa.getD v none ≠ none) → m.GroupsDecided pa → r = (b.getD objective (0, 0)).1) := by
  have hwf := hm.wellFormed
  obtain ⟨hvalid, hsplit⟩ := splitObjective_spec hwf hs
  obtain rfl := bounds_eq_exact hwf hlin hu hb
  rw [objectiveBound_eq hr]
  refine ⟨fun val hval hext => ?_, fun hfull hd => ?_⟩
  · rw [← hsplit val hval.toEvaluation]
    exact (lowerBound_vs_value hwf hlin hu hval.toEvaluation hext hvalid (hval.oneHot hwf)).1
  · -- with every variable set, the points of the intervals are an evaluation choosing every member
    have hchosen := hd.chosen hwf hfull
    have heval := point_evaluation hwf hlin hfull hpa
    have hext := point_extends hwf hlin hpa
    rw [(lowerBound_vs_value hwf hlin hu heval hext hvalid (hchosen.oneHot hext)).2
      (exactBounds_point hwf hlin hfull) hchosen]
    exact hsplit _ heval

/-- At the root of the choice model the bound is 3, the constant 1 and the cheaper member of the
group, `a` at `2 * 1`: the interval of the cost starts at 1, and every solution costs at least 4. -/
theorem pickModel_objectiveBound_sound :
    pickModel.Built ∧ pickModel.LinearBackward ∧
      pickModel.splitObjective 5 = .ok ⟨1, [], #[[⟨1, 2, [0]⟩, ⟨2, 3, []⟩]]⟩ ∧
      pickModel.Partial #[none, none, none] ∧ pickModel.UnclampedAt #[none, none, none] ∧
      pickModel.bounds #[none, none, none] = .ok #[(1, 3), (0, 1), (0, 1), (2, 2), (0, 3), (1, 10)] ∧
      pickModel.objectiveBound ⟨1, [], #[[⟨1, 2, [0]⟩, ⟨2, 3, []⟩]]⟩
        #[(1, 3), (0, 1), (0, 1), (2, 2), (0, 3), (1, 10)] #[none, none, none] = .ok 3 ∧
      ((∀ val, pickModel.Satisfies val → pickModel.Extends val #[none, none, none] → 3 ≤ val 5) ∧
        ((∀ v < pickModel.vars.size, (#[none, none, none] : Array (Option Int)).getD v none ≠ none) →
          pickModel.GroupsDecided #[none, none, none] →
          (3 : Int) = ((#[(1, 3), (0, 1), (0, 1), (2, 2), (0, 3), (1, 10)] : Array Interval).getD 5 (0, 0)).1)) := by
  have hpa : pickModel.Partial #[none, none, none] :=
    ⟨rfl, fun v x h => by rcases v with _ | _ | _ | v <;> simp [Array.getD_eq_getD_getElem?] at h⟩
  have hs : pickModel.splitObjective 5 = .ok ⟨1, [], #[[⟨1, 2, [0]⟩, ⟨2, 3, []⟩]]⟩ := by cbv
  have hb : pickModel.bounds #[none, none, none] = .ok #[(1, 3), (0, 1), (0, 1), (2, 2), (0, 3), (1, 10)] := by
    cbv
  have hr : pickModel.objectiveBound ⟨1, [], #[[⟨1, 2, [0]⟩, ⟨2, 3, []⟩]]⟩
      #[(1, 3), (0, 1), (0, 1), (2, 2), (0, 3), (1, 10)] #[none, none, none] = .ok 3 := by cbv
  exact ⟨pickModel_built, pickModel_linearBackward, hs, hpa, pickModel_unclamped, hb, hr,
    objectiveBound_sound pickModel_built pickModel_linearBackward hs hpa pickModel_unclamped hb hr⟩

end Model

end TileSched
