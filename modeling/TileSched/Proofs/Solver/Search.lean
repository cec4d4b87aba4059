import TileSched.Proofs.Solver.Decisions
/-! The branch and bound search, run by run. Every run of the search from a node where `Pending`
holds gives the assignment back, never lets its best value grow, records only solutions, keeps
to its node budget, and unless the budget ran out finds a best value no greater than the
objective of any solution that extends the node's assignment. The proof follows the search's
recursion over the decisions left: one lemma per way a node can end, and one per kind of
branching, each a fold over the branches with the run lemma of the rest as its step. -/

namespace TileSched

namespace Model

variable (m : Model) (limit objective : Nat) (split : ObjectiveSplit)

def tryValue (rest : List Decision) (v : Nat) (st : SearchState) (x : Int) :
    Except Fault SearchState :=
  if st.exhausted then pure st
  else m.search limit objective split rest { st with assignment := st.assignment.set! v (some x) }

def tryMember (rest : List Decision) (members : List Nat) (st : SearchState) (p : Int × Nat) :
    Except Fault SearchState :=
  match p with
  | (_, chosen) =>
    if st.exhausted then pure st
    else
      let a := members.foldl (fun a v => a.set! v (some (if v = chosen then 1 else 0))) st.assignment
      m.search limit objective split rest { st with assignment := a }

def expand (ds : List Decision) (st : SearchState) (b : Array Interval) : Except Fault SearchState :=
  match ds with
  | [] =>
    let value := (b.getD objective (0, 0)).1
    return { st with best := some (value, b.map (·.1)), found := st.found ++ [(value, st.nodes)] }
  | .var v :: rest => do
    let info := m.vars.getD v default
    let values := if info.isBool then info.domain else info.domain.reverse
    let st ← values.foldlM (m.tryValue limit objective split rest v) st
    return { st with assignment := st.assignment.set! v none }
  | .group g :: rest => do
    let members := m.groups.getD g []
    let costs ← members.mapM fun v => do return (← memberCost split g v b, v)
    let st ← (sortCosts costs).foldlM (m.tryMember limit objective split rest members) st
    return { st with assignment := members.foldl (fun a v => a.set! v none) st.assignment }

def visit (ds : List Decision) (st : SearchState) : Except Fault SearchState := do
  let b ← m.bounds st.assignment
  if !(← m.consistent b) then return st
  let bound ← m.objectiveBound split b st.assignment
  if let some (best, _) := st.best then
    if bound ≥ best then return st
  m.expand limit objective split ds st b

theorem search_eq (ds : List Decision) (st : SearchState) : m.search limit objective split ds st =
    if st.exhausted then pure st
    else if st.nodes ≥ limit then pure { st with exhausted := true }
    else m.visit limit objective split ds { st with nodes := st.nodes + 1 } := by
  rw [search]
  rfl

variable {m limit objective split}

theorem visit_eq_ok {ds : List Decision} {st st' : SearchState}
    (h : m.visit limit objective split ds st = .ok st') :
    ∃ b, m.bounds st.assignment = .ok b ∧
      ((m.consistent b = .ok false ∧ st' = st) ∨
        (m.consistent b = .ok true ∧ ∃ bound, m.objectiveBound split b st.assignment = .ok bound ∧
          (((∃ p ∈ st.best, p.1 ≤ bound) ∧ st' = st) ∨
            ((∀ p ∈ st.best, bound < p.1) ∧ m.expand limit objective split ds st b = .ok st')))) := by
  unfold visit at h
  obtain ⟨b, hb, h⟩ := bind_eq_ok.1 h
  obtain ⟨c, hc, h⟩ := bind_eq_ok.1 h
  refine ⟨b, hb, ?_⟩
  cases c with
  | false => exact .inl ⟨hc, (pure_eq_ok.1 h).symm⟩
  | true =>
    refine .inr ⟨hc, ?_⟩
    obtain ⟨bound, hbound, h⟩ := bind_eq_ok.1 h
    refine ⟨bound, hbound, ?_⟩
    cases hbest : st.best with
    | none =>
      rw [hbest] at h
      exact .inr ⟨fun _ hp => absurd hp (by simp), h⟩
    | some p =>
      obtain ⟨best, vals⟩ := p
      rw [hbest] at h
      dsimp only at h
      split at h
      · exact .inl ⟨⟨(best, vals), rfl, ‹bound ≥ best›⟩, (pure_eq_ok.1 h).symm⟩
      · refine .inr ⟨fun p hp => ?_, h⟩
        cases hp
        exact Int.lt_of_not_ge ‹¬bound ≥ best›

/-- A best value the search records: a value for every node, which assign the model and choose
one member per group, and the objective's value among them. -/
structure Recorded (m : Model) (objective : Nat) (p : Int × Array Int) : Prop where
  size : p.2.size = m.nodes.size
  assigns : m.Assigns fun e => p.2.getD e 0
  oneHot : m.OneHot fun e => p.2.getD e 0
  value : p.1 = p.2.getD objective 0

def Budgeted (limit : Nat) (st : SearchState) : Prop :=
  st.nodes ≤ limit ∧ (st.exhausted → st.nodes = limit)

def Covers (st : SearchState) (c : Int) : Prop :=
  st.exhausted ∨ ∃ p ∈ st.best, p.1 ≤ c

/-- What a stretch of search from `st` to `st'` keeps: a spent budget stays spent, the best value
never grows, every recorded best is a solution's, and the node budget holds. -/
structure Advances (m : Model) (limit objective : Nat) (st st' : SearchState) : Prop where
  exhausted : st.exhausted → st'.exhausted
  improves : ∀ p ∈ st.best, ∃ p' ∈ st'.best, p'.1 ≤ p.1
  recorded : (∀ p ∈ st.best, m.Recorded objective p) → ∀ p ∈ st'.best, m.Recorded objective p
  budget : Budgeted limit st → Budgeted limit st'

namespace Advances

theorem refl (st : SearchState) : m.Advances limit objective st st :=
  ⟨id, fun p hp => ⟨p, hp, le_refl _⟩, id, id⟩

theorem trans {st₁ st₂ st₃ : SearchState} (h₁ : m.Advances limit objective st₁ st₂)
    (h₂ : m.Advances limit objective st₂ st₃) : m.Advances limit objective st₁ st₃ where
  exhausted h := h₂.exhausted (h₁.exhausted h)
  improves p hp := by
    obtain ⟨p₂, hp₂, hle₂⟩ := h₁.improves p hp
    obtain ⟨p₃, hp₃, hle₃⟩ := h₂.improves p₂ hp₂
    exact ⟨p₃, hp₃, le_trans hle₃ hle₂⟩
  recorded h := h₂.recorded (h₁.recorded h)
  budget h := h₂.budget (h₁.budget h)

theorem assign (st : SearchState) (a : Array (Option Int)) :
    m.Advances limit objective st { st with assignment := a } :=
  ⟨id, fun p hp => ⟨p, hp, le_refl _⟩, id, id⟩

theorem keeps {st st' : SearchState} (h : m.Advances limit objective st st') {c : Int}
    (hq : Covers st c) : Covers st' c := by
  rcases hq with hq | ⟨p, hp, hle⟩
  · exact .inl (h.exhausted hq)
  · obtain ⟨p', hp', hle'⟩ := h.improves p hp
    exact .inr ⟨p', hp', le_trans hle' hle⟩

end Advances

/-- What the search from `st` to `st'` guarantees: it advances, gives the assignment back, and
covers the objective of every solution that extends the starting assignment. -/
structure Run (m : Model) (limit objective : Nat) (st st' : SearchState) : Prop where
  advances : m.Advances limit objective st st'
  assignment : st'.assignment = st.assignment
  finds : ∀ val, m.Satisfies val → m.Extends val st.assignment → Covers st' (val objective)

def AgreeOff (S : Nat → Prop) (a b : Array (Option Int)) : Prop :=
  a.size = b.size ∧ ∀ u, ¬S u → a.getD u none = b.getD u none

namespace AgreeOff

variable {S : Nat → Prop} {a b c : Array (Option Int)}

theorem refl (a : Array (Option Int)) : AgreeOff S a a := ⟨rfl, fun _ _ => rfl⟩

theorem trans (h₁ : AgreeOff S a b) (h₂ : AgreeOff S b c) : AgreeOff S a c :=
  ⟨h₁.1.trans h₂.1, fun u hu => (h₁.2 u hu).trans (h₂.2 u hu)⟩

theorem of_set (v : Nat) (x : Option Int) (a : Array (Option Int)) :
    AgreeOff (· = v) (a.set! v x) a := by
  refine ⟨by simp, fun u hu => ?_⟩
  rw [getD_set!, if_neg (fun h => hu h.1)]

theorem of_foldl_set (F : Nat → Option Int) (ms : List Nat) (a : Array (Option Int)) :
    AgreeOff (· ∈ ms) (ms.foldl (fun a v => a.set! v (F v)) a) a := by
  refine ⟨size_foldl_set F ms a, fun u hu => ?_⟩
  rw [getD_foldl_set, if_neg (fun h => hu h.1)]

theorem set_none {v : Nat} (h : AgreeOff (· = v) a b) (hv : b.getD v none = none) :
    a.set! v none = b := by
  refine ext_getD (by simp [h.1]) fun u => ?_
  rw [getD_set!]
  by_cases huv : u = v
  · subst huv
    by_cases hlt : u < a.size
    · rw [if_pos ⟨rfl, hlt⟩, hv]
    · rw [if_neg (fun h' => hlt h'.2), getD_of_size_le (by omega), getD_of_size_le (by rw [← h.1]; omega)]
  · rw [if_neg (fun h' => huv h'.1)]
    exact h.2 u huv

theorem foldl_none {ms : List Nat} (h : AgreeOff (· ∈ ms) a b) (hms : ∀ v ∈ ms, b.getD v none = none) :
    ms.foldl (fun a v => a.set! v none) a = b := by
  refine ext_getD (by rw [size_foldl_set (fun _ => none), h.1]) fun u => ?_
  rw [getD_foldl_set (fun _ => none)]
  by_cases hu : u ∈ ms
  · by_cases hlt : u < a.size
    · rw [if_pos ⟨hu, hlt⟩, hms u hu]
    · rw [if_neg (fun h' => hlt h'.2), getD_of_size_le (by omega), getD_of_size_le (by rw [← h.1]; omega)]
  · rw [if_neg (fun h' => hu h'.1)]
    exact h.2 u hu

end AgreeOff

theorem getD_map_fst (b : Array Interval) (e : Nat) : (b.map (·.1)).getD e 0 = (b.getD e (0, 0)).1 := by
  simp only [Array.getD_eq_getD_getElem?, Array.getElem?_map]
  cases b[e]? <;> rfl

section Run

variable (hm : WellFormed m) (hlin : m.LinearBackward) (hu : m.Unclamped) (hs : split.Valid m)
  (hsplit : ∀ val, m.Evaluation val → split.value m val = val objective)
  (hobj : objective < m.nodes.size)

include hm hlin hu in
theorem finds_of_inconsistent {pa : Array (Option Int)} (hpa : m.Partial pa) {b : Array Interval}
    (hb : m.bounds pa = .ok b) (hc : m.consistent b = .ok false) :
    ∀ val, m.Satisfies val → ¬m.Extends val pa := by
  intro val hval hext
  have hbe := bounds_eq_exact hm hlin (unclampedAt_of_root hm hlin hu hpa) hb
  refine consistent_ne_false (fun e iv he => ?_) hval.posted hc
  have he' : e < m.nodes.size := by
    have := (Array.getElem?_eq_some_iff.1 he).1
    rwa [hbe, exactBounds, size_exactBoundsOf, Array.length_toList] at this
  have := mem_exactBounds hm hlin hval.toEvaluation hext e he'
  rwa [← hbe, Array.getD_eq_getD_getElem?, he, Option.getD_some] at this

include hm hlin hu hs hsplit in
theorem bound_le_objective {pa : Array (Option Int)} (hpa : m.Partial pa) {b : Array Interval}
    (hb : m.bounds pa = .ok b) {bound : Int} (hbound : m.objectiveBound split b pa = .ok bound)
    {val : Nat → Int} (hval : m.Satisfies val) (hext : m.Extends val pa) : bound ≤ val objective := by
  have hunc := unclampedAt_of_root hm hlin hu hpa
  rw [bounds_eq_exact hm hlin hunc hb] at hbound
  rw [objectiveBound_eq hbound, ← hsplit val hval.toEvaluation]
  exact (lowerBound_vs_value hm hlin hunc hval.toEvaluation hext hs (hval.oneHot hm)).1

include hm hlin hu hs hsplit hobj in
theorem leaf_run {st st' : SearchState} (hp : m.Pending [] st.assignment)
    (hpa : m.Partial st.assignment) {b : Array Interval} (hb : m.bounds st.assignment = .ok b)
    (hc : m.consistent b = .ok true) {bound : Int}
    (hbound : m.objectiveBound split b st.assignment = .ok bound) (hcut : ∀ p ∈ st.best, bound < p.1)
    (h : m.expand limit objective split [] st b = .ok st') : m.Run limit objective st st' := by
  have hunc := unclampedAt_of_root hm hlin hu hpa
  have hbe := bounds_eq_exact hm hlin hunc hb
  subst hbe
  cases pure_eq_ok.1 h
  have hfull := hp.full
  have hpt := exactBounds_point hm hlin hfull
  have heval := point_evaluation hm hlin hfull hpa
  have hext := point_extends hm hlin hpa
  have hchosen := hp.chosen_all
  -- at the leaf the chosen members are the ones the points set to one
  have hone : m.OneHot fun j => ((m.exactBounds st.assignment).getD j (0, 0)).1 := Chosen.oneHot hchosen hext
  -- the bound of a leaf is the objective of its points
  have hvalue : bound = ((m.exactBounds st.assignment).getD objective (0, 0)).1 := by
    rw [objectiveBound_eq hbound, ← hsplit _ heval]
    exact (lowerBound_vs_value hm hlin hunc heval hext hs hone).2 hpt hchosen
  have hrec : m.Recorded objective (((m.exactBounds st.assignment).getD objective (0, 0)).1,
      (m.exactBounds st.assignment).map (·.1)) := by
    have hfun : (fun e => ((m.exactBounds st.assignment).map (·.1)).getD e 0) =
        fun e => ((m.exactBounds st.assignment).getD e (0, 0)).1 := funext (getD_map_fst _)
    refine ⟨by simp [exactBounds, size_exactBoundsOf], ?_, by rw [hfun]; exact hone,
      by rw [getD_map_fst]⟩
    rw [hfun]
    refine ⟨heval, holds_of_consistent (fun e iv he => ?_) hc⟩
    have := hpt e
    rwa [Array.getD_eq_getD_getElem?, he, Option.getD_some] at this
  refine ⟨⟨id, fun p hp => ⟨_, rfl, by rw [← hvalue]; exact le_of_lt (hcut p hp)⟩,
    fun _ p hp => by cases hp; exact hrec, fun h => h⟩, rfl, fun val hval hext' => .inr ⟨_, rfl, ?_⟩⟩
  -- a solution below a leaf takes the points' values
  have hin := mem_exactBounds hm hlin hval.toEvaluation hext' objective hobj
  exact le_of_eq (le_antisymm hin.1 (le_of_le_of_eq hin.2 (hpt objective).symm))

section Branches

/-! A decision's branches are a fold: each branch updates the assignment on the entries `S` the
decision sets and searches the rest, unless the budget is spent. -/

variable {rest : List Decision} {α : Type} (S : Nat → Prop)
  (upd : α → Array (Option Int) → Array (Option Int)) (f : SearchState → α → Except Fault SearchState)
  {st₀ : SearchState}

theorem branch_run
    (ih : ∀ {st st' : SearchState}, m.Pending rest st.assignment → m.Partial st.assignment →
      m.search limit objective split rest st = .ok st' → m.Run limit objective st st')
    (hf : ∀ b k, f b k = if b.exhausted then pure b
      else m.search limit objective split rest { b with assignment := upd k b.assignment })
    (hupd : ∀ k a, AgreeOff S a st₀.assignment → upd k a = upd k st₀.assignment)
    (hoff : ∀ k a, AgreeOff S (upd k a) a) {k : α}
    (hk : m.Pending rest (upd k st₀.assignment) ∧ m.Partial (upd k st₀.assignment))
    {b b' : SearchState} (hb : AgreeOff S b.assignment st₀.assignment) (h : f b k = .ok b') :
    m.Advances limit objective b b' ∧ AgreeOff S b'.assignment st₀.assignment ∧
      ∀ val, m.Satisfies val → m.Extends val (upd k st₀.assignment) → Covers b' (val objective) := by
  rw [hf] at h
  split at h
  · -- a spent budget skips the branch
    cases pure_eq_ok.1 h
    exact ⟨Advances.refl b, hb, fun _ _ _ => .inl ‹_›⟩
  · have hupd' := hupd k _ hb
    have hrun := ih (by rw [hupd']; exact hk.1) (by rw [hupd']; exact hk.2) h
    refine ⟨(Advances.assign b _).trans hrun.advances, ?_, fun val hval hext => ?_⟩
    · rw [hrun.assignment]
      exact (hoff k _).trans hb
    · exact hrun.finds val hval (by rw [hupd']; exact hext)

theorem branches_run
    (ih : ∀ {st st' : SearchState}, m.Pending rest st.assignment → m.Partial st.assignment →
      m.search limit objective split rest st = .ok st' → m.Run limit objective st st')
    (hf : ∀ b k, f b k = if b.exhausted then pure b
      else m.search limit objective split rest { b with assignment := upd k b.assignment })
    (hupd : ∀ k a, AgreeOff S a st₀.assignment → upd k a = upd k st₀.assignment)
    (hoff : ∀ k a, AgreeOff S (upd k a) a) {ks : List α}
    (hks : ∀ k ∈ ks, m.Pending rest (upd k st₀.assignment) ∧ m.Partial (upd k st₀.assignment))
    {st' : SearchState} (h : ks.foldlM f st₀ = .ok st') :
    m.Advances limit objective st₀ st' ∧ AgreeOff S st'.assignment st₀.assignment ∧
      ∀ k ∈ ks, ∀ val, m.Satisfies val → m.Extends val (upd k st₀.assignment) →
        Covers st' (val objective) := by
  -- the invariant of the fold: advanced from the start, agreeing with it off `S`
  have step : ∀ b k b', k ∈ ks →
      m.Advances limit objective st₀ b ∧ AgreeOff S b.assignment st₀.assignment → f b k = .ok b' →
      m.Advances limit objective st₀ b' ∧ AgreeOff S b'.assignment st₀.assignment := by
    intro b k b' hk hP hstep
    obtain ⟨hadv, hagree, -⟩ :=
      branch_run S upd f ih hf hupd hoff (hks k hk) hP.2 hstep
    exact ⟨hP.1.trans hadv, hagree⟩
  have hinit : m.Advances limit objective st₀ st₀ ∧ AgreeOff S st₀.assignment st₀.assignment :=
    ⟨Advances.refl st₀, AgreeOff.refl _⟩
  obtain ⟨hadv, hagree⟩ := foldlM_ok_inv _ h hinit step
  refine ⟨hadv, hagree, fun k hk val hval hext => ?_⟩
  refine foldlM_ok_step_mem _ (fun b => Covers b (val objective)) h hk hinit step ?_ ?_
  · intro b b' hP hstep
    exact (branch_run S upd f ih hf hupd hoff (hks k hk) hP.2 hstep).2.2
      val hval hext
  · intro b k' b' hk' hP hq hstep
    exact (branch_run S upd f ih hf hupd hoff (hks k' hk') hP.2 hstep).1.keeps hq

end Branches

include hm in
theorem expand_var_run {v : Nat} {rest : List Decision}
    (ih : ∀ {st st' : SearchState}, m.Pending rest st.assignment → m.Partial st.assignment →
      m.search limit objective split rest st = .ok st' → m.Run limit objective st st')
    {st st' : SearchState} {b : Array Interval} (hp : m.Pending (.var v :: rest) st.assignment)
    (hpa : m.Partial st.assignment) (h : m.expand limit objective split (.var v :: rest) st b = .ok st') :
    m.Run limit objective st st' := by
  obtain ⟨hv, -, hnone⟩ := hp.var v List.mem_cons_self
  have hinfo : m.vars[v]? = some (m.vars.getD v default) := by
    simp [hv, Array.getD_eq_getD_getElem?]
  -- the values tried are the domain, in one order or the other
  have hvalues : ∀ x, x ∈ (if (m.vars.getD v default).isBool then (m.vars.getD v default).domain
      else (m.vars.getD v default).domain.reverse) ↔ x ∈ (m.vars.getD v default).domain := by
    intro x
    by_cases hbool : (m.vars.getD v default).isBool
    · rw [if_pos hbool]
    · rw [if_neg hbool, List.mem_reverse]
  simp only [expand] at h
  obtain ⟨st₂, hfold, h⟩ := bind_eq_ok.1 h
  cases pure_eq_ok.1 h
  obtain ⟨hadv, hagree, hfinds⟩ := branches_run (· = v) (fun x a => a.set! v (some x))
    (m.tryValue limit objective split rest v) ih (fun _ _ => rfl)
    (fun _ _ ha => set!_eq_of_agree ha.1 ha.2 _) (fun x a => AgreeOff.of_set v (some x) a)
    (fun x hx => ⟨hp.set_var hm x, hpa.set_var ((hvalues x).1 hx)⟩) hfold
  refine ⟨hadv.trans (Advances.assign _ _), hagree.set_none hnone, fun val hval hext => ?_⟩
  -- a solution takes one of the values tried
  exact hfinds _ ((hvalues _).2 (hval.domain v _ hinfo)) val hval (hext.set_var rfl)

include hm in
theorem expand_group_run {g : Nat} {rest : List Decision}
    (ih : ∀ {st st' : SearchState}, m.Pending rest st.assignment → m.Partial st.assignment →
      m.search limit objective split rest st = .ok st' → m.Run limit objective st st')
    {st st' : SearchState} {b : Array Interval} (hp : m.Pending (.group g :: rest) st.assignment)
    (hpa : m.Partial st.assignment) (h : m.expand limit objective split (.group g :: rest) st b = .ok st') :
    m.Run limit objective st st' := by
  obtain ⟨hg, hfree⟩ := hp.group g List.mem_cons_self
  simp only [expand] at h
  obtain ⟨costs, hcosts, h⟩ := bind_eq_ok.1 h
  obtain ⟨st₂, hfold, h⟩ := bind_eq_ok.1 h
  cases pure_eq_ok.1 h
  -- the branches are the members of the group, each paired with its cost
  have hchosen : ∀ p ∈ sortCosts costs, p.2 ∈ m.groups.getD g [] := by
    intro p hp'
    obtain ⟨v, hv, hcost⟩ := mapM_ok_mem hcosts p ((List.mergeSort_perm _ _).mem_iff.1 hp')
    obtain ⟨c, -, hc⟩ := bind_eq_ok.1 hcost
    cases pure_eq_ok.1 hc
    exact hv
  have hbranch : ∀ v ∈ m.groups.getD g [], ∃ p ∈ sortCosts costs, p.2 = v := by
    intro v hv
    obtain ⟨p, hp', hcost⟩ := mapM_ok_of_mem hcosts v hv
    obtain ⟨c, -, hc⟩ := bind_eq_ok.1 hcost
    cases pure_eq_ok.1 hc
    exact ⟨(c, v), (List.mergeSort_perm _ _).mem_iff.2 hp', rfl⟩
  obtain ⟨hadv, hagree, hfinds⟩ := branches_run (· ∈ m.groups.getD g [])
    (fun p a => (m.groups.getD g []).foldl (fun a v => a.set! v (some (if v = p.2 then 1 else 0))) a)
    (m.tryMember limit objective split rest (m.groups.getD g [])) ih (fun _ p => by cases p; rfl)
    (fun _ _ ha => foldl_set_eq_of_agree ha.1 ha.2 _) (fun _ a => AgreeOff.of_foldl_set _ _ a)
    (fun p hp' => ⟨hp.set_group hm (hchosen p hp'), hpa.set_group hm g p.2⟩) hfold
  refine ⟨hadv.trans (Advances.assign _ _), hagree.foldl_none hfree, fun val hval hext => ?_⟩
  -- a solution sets one member of the group, the one some branch chooses
  have hms : m.groups.getD g [] ∈ m.groups := by
    rw [Array.getD_eq_getD_getElem?, Array.getElem?_eq_getElem hg, Option.getD_some]
    exact Array.getElem_mem hg
  obtain ⟨w, hw, hone⟩ := hval.oneHot hm _ hms
  obtain ⟨p, hp', rfl⟩ := hbranch w hw
  exact hfinds p hp' val hval (hext.set_group hone)

include hm hlin hu hs hsplit in
theorem search_run_of_expand {ds : List Decision}
    (hexp : ∀ {st st' : SearchState} {b : Array Interval} {bound : Int},
      m.Pending ds st.assignment → m.Partial st.assignment → m.bounds st.assignment = .ok b →
      m.consistent b = .ok true → m.objectiveBound split b st.assignment = .ok bound →
      (∀ p ∈ st.best, bound < p.1) → m.expand limit objective split ds st b = .ok st' →
      m.Run limit objective st st')
    {st st' : SearchState} (hp : m.Pending ds st.assignment) (hpa : m.Partial st.assignment)
    (h : m.search limit objective split ds st = .ok st') : m.Run limit objective st st' := by
  rw [search_eq] at h
  split at h
  · -- the budget was spent before this node
    cases pure_eq_ok.1 h
    exact ⟨Advances.refl st, rfl, fun _ _ _ => .inl ‹_›⟩
  split at h
  · -- the node is past the limit, which spends the budget
    cases pure_eq_ok.1 h
    refine ⟨⟨fun _ => rfl, fun p hp => ⟨p, hp, le_refl _⟩, id, fun hb => ⟨hb.1, fun _ => ?_⟩⟩, rfl,
      fun _ _ _ => .inl rfl⟩
    exact le_antisymm hb.1 ‹st.nodes ≥ limit›
  -- the node is counted
  have hcount : m.Advances limit objective st { st with nodes := st.nodes + 1 } :=
    ⟨id, fun p hp => ⟨p, hp, le_refl _⟩, id, fun _ => ⟨show st.nodes + 1 ≤ limit by omega,
      fun h' => absurd h' ‹_›⟩⟩
  obtain ⟨b, hb, hend⟩ := visit_eq_ok h
  rcases hend with ⟨hc, rfl⟩ | ⟨hc, bound, hbound, ⟨⟨p, hbest, hle⟩, rfl⟩ | ⟨hcut, hexp'⟩⟩
  · exact ⟨hcount, rfl, fun val hval hext =>
      absurd hext (finds_of_inconsistent hm hlin hu hpa hb hc val hval)⟩
  · exact ⟨hcount, rfl, fun val hval hext =>
      .inr ⟨p, hbest, le_trans hle (bound_le_objective hm hlin hu hs hsplit hpa hb hbound hval hext)⟩⟩
  · have hrun := @hexp { st with nodes := st.nodes + 1 } st' b bound hp hpa hb hc hbound hcut hexp'
    exact ⟨hcount.trans hrun.advances, hrun.assignment, hrun.finds⟩

include hm hlin hu hs hsplit hobj in
theorem search_run : ∀ (ds : List Decision) {st st' : SearchState}, m.Pending ds st.assignment →
    m.Partial st.assignment → m.search limit objective split ds st = .ok st' →
    m.Run limit objective st st'
  | [] => search_run_of_expand hm hlin hu hs hsplit fun hp hpa hb hc hbound hcut h =>
      leaf_run hm hlin hu hs hsplit hobj hp hpa hb hc hbound hcut h
  | .var _ :: rest => search_run_of_expand hm hlin hu hs hsplit fun hp hpa _ _ _ _ h =>
      expand_var_run hm (search_run rest) hp hpa h
  | .group _ :: rest => search_run_of_expand hm hlin hu hs hsplit fun hp hpa _ _ _ _ h =>
      expand_group_run hm (search_run rest) hp hpa h

end Run

end Model

/-! ### The search in a form the kernel evaluates

The merge sort that orders a group's members is defined by well-founded recursion, which the
kernel does not unfold. Sorted by insertion the members come out in the same order, so the search
with insertion sort in its place answers alike, and the kernel evaluates it. -/

def CostLE (a b : Int × Nat) : Prop := a.1 < b.1 ∨ (a.1 = b.1 ∧ a.2 ≤ b.2)

instance : DecidableRel CostLE := fun _ _ => inferInstanceAs (Decidable (_ ∨ _))

instance : Std.Total CostLE := ⟨fun a b => by unfold CostLE; omega⟩

instance : IsTrans (Int × Nat) CostLE := ⟨fun a b c => by unfold CostLE; omega⟩

instance : Std.Antisymm CostLE := ⟨fun a b h h' => by
  unfold CostLE at h h'
  exact Prod.ext (by omega) (by omega)⟩

namespace Model

theorem sortCosts_eq_insertionSort (xs : List (Int × Nat)) : sortCosts xs = xs.insertionSort CostLE := by
  rw [← List.mergeSort_eq_insertionSort CostLE, sortCosts]
  congr
  funext a b
  rw [Bool.eq_iff_iff, decide_eq_true_iff]
  simp [CostLE]

def searchByInsertion (m : Model) (limit objective : Nat) (split : ObjectiveSplit) :
    List Decision → SearchState → Except Fault SearchState
  | ds, st => do
    if st.exhausted then return st
    if st.nodes ≥ limit then return { st with exhausted := true }
    let st := { st with nodes := st.nodes + 1 }
    let b ← m.bounds st.assignment
    if !(← m.consistent b) then return st
    let bound ← m.objectiveBound split b st.assignment
    if let some (best, _) := st.best then
      if bound ≥ best then return st
    match ds with
    | [] =>
      let value := (b.getD objective (0, 0)).1
      return { st with best := some (value, b.map (·.1)), found := st.found ++ [(value, st.nodes)] }
    | .var v :: rest =>
      let info := m.vars.getD v default
      let values := if info.isBool then info.domain else info.domain.reverse
      let st ← values.foldlM (fun st x =>
        if st.exhausted then pure st
        else searchByInsertion m limit objective split rest { st with assignment := st.assignment.set! v (some x) }) st
      return { st with assignment := st.assignment.set! v none }
    | .group g :: rest =>
      let members := m.groups.getD g []
      let costs ← members.mapM fun v => do return (← memberCost split g v b, v)
      let st ← (costs.insertionSort CostLE).foldlM (fun st (_, chosen) =>
        if st.exhausted then pure st
        else
          let a := members.foldl (fun a v => a.set! v (some (if v = chosen then 1 else 0))) st.assignment
          searchByInsertion m limit objective split rest { st with assignment := a }) st
      return { st with assignment := members.foldl (fun a v => a.set! v none) st.assignment }

theorem search_eq_searchByInsertion (m : Model) (limit objective : Nat) (split : ObjectiveSplit)
    (ds : List Decision) (st : SearchState) :
    m.search limit objective split ds st = m.searchByInsertion limit objective split ds st := by
  induction ds generalizing st with
  | nil =>
    -- the bodies agree up to their auxiliary matches, which `rw` may already see through
    rw [search, searchByInsertion] <;> rfl
  | cons d rest ih =>
    -- the two bodies differ only in the sort and in the searches of the rest
    cases d <;> rw [search, searchByInsertion] <;> simp only [ih, sortCosts_eq_insertionSort] <;> rfl

/-- The search as a function: a computation that calls it, once unfolded down to the call, runs
the insertion-sorted search instead. -/
theorem search_fun_eq : @search = @searchByInsertion := by
  funext m limit objective split ds st
  exact search_eq_searchByInsertion m limit objective split ds st

end Model

end TileSched
