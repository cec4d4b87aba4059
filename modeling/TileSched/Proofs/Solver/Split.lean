import Mathlib
import TileSched.Proofs.Solver.Semantics
/-! The objective as the search splits it: a constant, free terms, and for each exactly-one group
the terms guarded by one of its members. Under every evaluation the split has the objective's
value, and each guarded term sits in its guard's group, with a coefficient that is not negative
and the rest of a product node's factors. -/

namespace TileSched

def GuardedTerm.value (m : Model) (val : Nat → Int) (t : GuardedTerm) : Int :=
  t.coeff * val (m.vars.getD t.var default).expr * (t.rest.map val).prod

def ObjectiveSplit.value (s : ObjectiveSplit) (m : Model) (val : Nat → Int) : Int :=
  s.constant + (s.free.map fun t => t.1 * val t.2).sum +
    (s.guarded.toList.map fun ts => (ts.map (·.value m val)).sum).sum

/-- A term guarded in group `g`: its guard is a variable of the group, its coefficient is not
negative, and its rest is a product node's factors without the guard's node. -/
structure GuardedTerm.Guards (m : Model) (g : Nat) (t : GuardedTerm) : Prop where
  group : (m.vars.getD t.var default).group = some g
  coeff : 0 ≤ t.coeff
  rest : t.rest = [] ∨ ∃ (i : Nat) (l₁ l₂ : List Nat),
    m.nodes[i]? = some (Node.product (l₁ ++ (m.vars.getD t.var default).expr :: l₂)) ∧ t.rest = l₁ ++ l₂

/-- Free terms name nodes of the model, and there is one list of guarded terms per group, each
guarded in its group. -/
structure ObjectiveSplit.Valid (s : ObjectiveSplit) (m : Model) : Prop where
  free_lt : ∀ t ∈ s.free, t.2 < m.nodes.size
  size : s.guarded.size = m.groups.size
  guards : ∀ (g : Nat) (ts : List GuardedTerm), s.guarded[g]? = some ts → ∀ t ∈ ts, t.Guards m g

theorem map_fst_filter_zipIdx {α : Type} :
    ∀ (l : List α) (n i : Nat), ((l.zipIdx n).filter (·.2 != n + i)).map (·.1) = l.take i ++ l.drop (i + 1)
  | [], _, _ => by simp
  | a :: l, n, 0 => by
    -- every later entry has an index past `n`
    have hkeep : (l.zipIdx (n + 1)).filter (·.2 != n) = l.zipIdx (n + 1) := by
      refine List.filter_eq_self.2 fun ⟨x, j⟩ hp => ?_
      have := (List.mem_zipIdx hp).1
      simp only [bne_iff_ne, ne_eq]
      omega
    simp [List.zipIdx_cons, hkeep, List.zipIdx_map_fst]
  | a :: l, n, i + 1 => by
    have := map_fst_filter_zipIdx l (n + 1) i
    rw [show n + 1 + i = n + (i + 1) by omega] at this
    simp [List.zipIdx_cons, this]

theorem prod_eq_mul_erase (val : Nat → Int) (fs : List Nat) {i : Nat} (hi : i < fs.length) :
    (fs.map val).prod = val fs[i] * ((fs.take i ++ fs.drop (i + 1)).map val).prod := by
  conv_lhs => rw [← List.take_append_drop i fs, List.drop_eq_getElem_cons hi]
  simp only [List.map_append, List.map_cons, List.prod_append, List.prod_cons]
  ring

theorem sum_map_modify_append {β : Type} (G : β → Int) (x : β) :
    ∀ (l : List (List β)) (g : Nat), g < l.length →
      ((l.modify g (· ++ [x])).map fun ts => (ts.map G).sum).sum = (l.map fun ts => (ts.map G).sum).sum + G x
  | [], _, h => absurd h (Nat.not_lt_zero _)
  | ts :: l, 0, _ => by
    simp only [List.modify_zero_cons, List.map_cons, List.sum_cons, List.map_append, List.sum_append]
    simp only [List.map_nil, List.sum_nil]
    ring
  | ts :: l, g + 1, h => by
    simp only [List.modify_succ_cons, List.map_cons, List.sum_cons]
    rw [sum_map_modify_append G x l g (by simpa using h)]
    ring

namespace Model

variable {m : Model}

theorem varOf?_eq_some {e v : Nat} : m.varOf? e = some v ↔ m.nodes[e]? = some (.var v) := by
  unfold varOf?
  split <;> simp_all

theorem guardOf?_eq_some {fs : List Nat} {i v g : Nat} (h : m.guardOf? fs = some (i, v, g)) :
    ∃ hi : i < fs.length, m.nodes[fs[i]]? = some (.var v) ∧ (m.vars.getD v default).group = some g := by
  obtain ⟨⟨f, j⟩, hmem, hp⟩ := List.exists_of_findSome?_eq_some h
  have hj := List.mem_zipIdx_iff_getElem?.1 hmem
  obtain ⟨v', hv', hp⟩ := Option.bind_eq_some_iff.1 hp
  obtain ⟨g', hg', hp⟩ := Option.bind_eq_some_iff.1 hp
  simp only [Option.pure_def, Option.some.injEq, Prod.mk.injEq] at hp
  obtain ⟨rfl, rfl, rfl⟩ := hp
  obtain ⟨hlt, hf⟩ := List.getElem?_eq_some_iff.1 hj
  exact ⟨hlt, hf ▸ varOf?_eq_some.1 hv', hg'⟩

def guardedOf (m : Model) (coeff : Int) : Node → Option GuardedTerm
  | .product fs =>
    if coeff ≥ 0 then
      (m.guardOf? fs).map fun (i, v, _) => ⟨v, coeff, (fs.zipIdx.filter (·.2 != i)).map (·.1)⟩
    else none
  | .var v => if coeff ≥ 0 then (m.vars.getD v default).group.map fun _ => ⟨v, coeff, []⟩ else none
  | _ => none

def splitStep (m : Model) (s : ObjectiveSplit) (t : Int × Nat) : Except Fault ObjectiveSplit := do
  let (coeff, term) := t
  let node ← entryAt m.nodes term
  match m.guardedOf coeff node with
  | some gt =>
    let g := ((m.vars.getD gt.var default).group).getD 0
    return { s with guarded := s.guarded.modify g (· ++ [gt]) }
  | none => return { s with free := s.free ++ [t] }

def objectiveTerms (m : Model) (objective : Nat) : Int × List (Int × Nat) :=
  match m.nodes.getD objective default with
  | .linear ts c => (c, ts)
  | _ => ((0 : Int), [((1 : Int), objective)])

theorem splitObjective_eq (objective : Nat) : m.splitObjective objective =
    (m.objectiveTerms objective).2.foldlM m.splitStep
      ⟨(m.objectiveTerms objective).1, [], Array.replicate m.groups.size []⟩ := by
  cases h : m.nodes.getD objective default <;> simp only [splitObjective, objectiveTerms, h] <;> rfl

section Split

variable (hm : WellFormed m)
include hm

theorem guardedOf_spec {e : Nat} {n : Node} {coeff : Int} {gt : GuardedTerm}
    (hnode : m.nodes[e]? = some n) (h : m.guardedOf coeff n = some gt) :
    ∃ g, g < m.groups.size ∧ gt.Guards m g ∧
      ∀ val, m.Evaluation val → gt.value m val = coeff * val e := by
  cases n with
  | product fs =>
    simp only [guardedOf] at h
    split at h
    · obtain ⟨⟨i, v, g⟩, hg, rfl⟩ := Option.map_eq_some_iff.1 h
      obtain ⟨hi, hvar, hgroup⟩ := guardOf?_eq_some hg
      obtain ⟨info, hinfo, hexpr⟩ := hm.var_node _ v hvar
      obtain ⟨ms, hms, _⟩ := hm.grouped v info g hinfo (by rwa [getD_vars hinfo] at hgroup)
      have hrest := map_fst_filter_zipIdx fs 0 i
      rw [Nat.zero_add] at hrest
      dsimp only
      refine ⟨g, (Array.getElem?_eq_some_iff.1 hms).1, ⟨hgroup, by omega, .inr ⟨e, fs.take i, fs.drop (i + 1), ?_, hrest⟩⟩, ?_⟩
      · rw [getD_vars hinfo, hexpr, ← List.drop_eq_getElem_cons hi, List.take_append_drop]
        exact hnode
      · intro val hval
        have hprod := hval.derived e _ hnode
        simp only [Node.Holds] at hprod
        simp only [GuardedTerm.value, getD_vars hinfo, hexpr, hrest, hprod, prod_eq_mul_erase val fs hi]
        ring
    · cases h
  | var v =>
    simp only [guardedOf] at h
    split at h
    · obtain ⟨g, hgroup, rfl⟩ := Option.map_eq_some_iff.1 h
      obtain ⟨info, hinfo, hexpr⟩ := hm.var_node e v hnode
      obtain ⟨ms, hms, _⟩ := hm.grouped v info g hinfo (by rwa [getD_vars hinfo] at hgroup)
      refine ⟨g, (Array.getElem?_eq_some_iff.1 hms).1, ⟨hgroup, by omega, .inl rfl⟩, ?_⟩
      intro val _
      simp [GuardedTerm.value, getD_vars hinfo, hexpr]
    · cases h
  | const c => cases h
  | linear ts c => cases h

theorem splitStep_spec {s s' : ObjectiveSplit} {t : Int × Nat} (hs : s.Valid m)
    (h : m.splitStep s t = .ok s') :
    s'.Valid m ∧ ∀ val, m.Evaluation val → s'.value m val = s.value m val + t.1 * val t.2 := by
  obtain ⟨coeff, term⟩ := t
  obtain ⟨n, hn, h⟩ := bind_eq_ok.1 h
  have hnode := entryAt_eq_ok.1 hn
  cases hg : m.guardedOf coeff n with
  | none =>
    rw [hg] at h
    cases pure_eq_ok.1 h
    have hlt : term < m.nodes.size := (Array.getElem?_eq_some_iff.1 hnode).1
    refine ⟨⟨fun t ht => ?_, hs.size, hs.guards⟩, fun val _ => ?_⟩
    · rcases List.mem_append.1 ht with ht | ht
      · exact hs.free_lt t ht
      · rw [List.mem_singleton.1 ht]
        exact hlt
    simp only [ObjectiveSplit.value, List.map_append, List.map_cons, List.map_nil, List.sum_append,
      List.sum_cons, List.sum_nil]
    ring
  | some gt =>
    rw [hg] at h
    cases pure_eq_ok.1 h
    obtain ⟨g, hlt, hguards, hval⟩ := guardedOf_spec hm hnode hg
    have hgi : (m.vars.getD gt.var default).group.getD 0 = g := by rw [hguards.group]; rfl
    rw [hgi]
    refine ⟨⟨hs.free_lt, by simp [hs.size], fun j ts hj t ht => ?_⟩, fun val hv => ?_⟩
    · rw [Array.getElem?_modify] at hj
      split at hj
      · subst j
        obtain ⟨ts₀, h₀, rfl⟩ := Option.map_eq_some_iff.1 hj
        rcases List.mem_append.1 ht with ht | ht
        · exact hs.guards g ts₀ h₀ t ht
        · rw [List.mem_singleton.1 ht]
          exact hguards
      · exact hs.guards j ts hj t ht
    · simp only [ObjectiveSplit.value, Array.toList_modify]
      rw [sum_map_modify_append _ gt _ g (by simpa [hs.size] using hlt), hval val hv]
      ring

theorem splitObjective_spec {objective : Nat} {s : ObjectiveSplit}
    (h : m.splitObjective objective = .ok s) :
    s.Valid m ∧ ∀ val, m.Evaluation val → s.value m val = val objective := by
  rw [splitObjective_eq] at h
  -- the fold adds each term's value to the split's
  have hfold : ∀ (ts : List (Int × Nat)) (s₀ : ObjectiveSplit), s₀.Valid m →
      ts.foldlM m.splitStep s₀ = .ok s → s.Valid m ∧ ∀ val, m.Evaluation val →
        s.value m val = s₀.value m val + (ts.map fun t => t.1 * val t.2).sum := by
    intro ts
    induction ts with
    | nil =>
      intro s₀ hs₀ h
      cases pure_eq_ok.1 h
      exact ⟨hs₀, fun val _ => by simp⟩
    | cons t ts ih =>
      intro s₀ hs₀ h
      obtain ⟨s₁, h₁, h⟩ := bind_eq_ok.1 (by simpa only [List.foldlM_cons] using h)
      obtain ⟨hs₁, hv₁⟩ := splitStep_spec hm hs₀ h₁
      obtain ⟨hs, hv⟩ := ih s₁ hs₁ h
      refine ⟨hs, fun val hval => ?_⟩
      rw [hv val hval, hv₁ val hval, List.map_cons, List.sum_cons]
      ring
  have hinit : ObjectiveSplit.Valid ⟨(m.objectiveTerms objective).1, [], Array.replicate m.groups.size []⟩ m :=
    ⟨by simp, by simp, fun g ts hg t ht => by
      rw [Array.getElem?_replicate] at hg
      split at hg <;> simp_all⟩
  obtain ⟨hs, hv⟩ := hfold _ _ hinit h
  refine ⟨hs, fun val hval => ?_⟩
  have hzero : (List.replicate m.groups.size (0 : Int)).sum = 0 := by
    induction m.groups.size with
    | zero => rfl
    | succ n ih => simp [List.replicate_succ, ih]
  rw [hv val hval]
  simp only [ObjectiveSplit.value, Array.toList_replicate, List.map_replicate, List.map_nil,
    List.sum_nil, hzero]
  unfold objectiveTerms
  cases hobj : m.nodes.getD objective default with
  | linear ts c =>
    -- a linear objective is a node, so its value is its definition
    have hnode : m.nodes[objective]? = some (.linear ts c) := by
      rw [Array.getD_eq_getD_getElem?] at hobj
      cases hget : m.nodes[objective]? with
      | none => rw [hget] at hobj; cases hobj
      | some n => rw [hget] at hobj; exact hobj ▸ rfl
    have := hval.derived objective _ hnode
    simp only [Node.Holds] at this
    simp [this]
  | const c => simp
  | var v => simp
  | product fs => simp

end Split

end Model

end TileSched
