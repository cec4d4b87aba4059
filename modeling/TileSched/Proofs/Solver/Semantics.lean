import Mathlib
import TileSched.Proofs.Solver.Built
import TileSched.Proofs.Solver.Interval
/-! What a solution of a model is, the partial assignments the search makes, and soundness of
the interval pass: every node's value under a solution that extends a partial assignment lies in
the node's interval, provided no clamp of the pass cuts an interval end. -/

namespace TileSched

def Node.Holds (val : Nat → Int) (i : Nat) : Node → Prop
  | .const c => val i = c
  | .var _ => True
  | .linear ts c => val i = c + (ts.map fun t => t.1 * val t.2).sum
  | .product fs => val i = (fs.map val).prod

def Constraint.Holds (val : Nat → Int) : Constraint → Prop
  | .equal a b => val a = val b
  | .lessEqual a b => val a ≤ val b

instance Node.decidableHolds (val : Nat → Int) (i : Nat) : (n : Node) → Decidable (n.Holds val i)
  | .const _ => inferInstanceAs (Decidable (_ = _))
  | .var _ => inferInstanceAs (Decidable True)
  | .linear _ _ => inferInstanceAs (Decidable (_ = _))
  | .product _ => inferInstanceAs (Decidable (_ = _))

instance Constraint.decidableHolds (val : Nat → Int) : (c : Constraint) → Decidable (c.Holds val)
  | .equal _ _ => inferInstanceAs (Decidable (_ = _))
  | .lessEqual _ _ => inferInstanceAs (Decidable (_ ≤ _))

theorem mem_between_ends {d : List Int} (hs : d.Pairwise (· < ·)) {x : Int} (hx : x ∈ d) :
    d.headD 0 ≤ x ∧ x ≤ d.getLastD 0 := by
  obtain ⟨a, l, rfl⟩ := List.exists_cons_of_ne_nil (List.ne_nil_of_mem hx)
  rw [List.headD_cons, List.getLastD_cons]
  induction l generalizing a x with
  | nil => simp only [List.mem_singleton] at hx; subst hx; exact ⟨le_refl _, le_refl _⟩
  | cons b l ih =>
    have hab : a < b := List.rel_of_pairwise_cons hs List.mem_cons_self
    have hb := ih b (List.pairwise_cons.1 hs).2 List.mem_cons_self
    rw [List.getLastD_cons]
    rcases List.mem_cons.1 hx with rfl | hx
    · exact ⟨le_refl _, le_trans (le_of_lt hab) hb.2⟩
    · have := ih b (List.pairwise_cons.1 hs).2 hx
      exact ⟨le_trans (le_of_lt hab) this.1, this.2⟩

theorem I128.add_eq_ok {a b r : Int} (h : I128.add a b = .ok r) : r = a + b := by
  simp only [I128.add] at h
  split at h <;> cases h
  rfl

namespace Model

/-- Values, one per node, that give every variable a value of its domain and every other node the
value of its definition. -/
structure Evaluation (m : Model) (val : Nat → Int) : Prop where
  domain : ∀ (v : Nat) (info : Var), m.vars[v]? = some info → val info.expr ∈ info.domain
  derived : ∀ (i : Nat) (n : Node), m.nodes[i]? = some n → n.Holds val i

structure Assigns (m : Model) (val : Nat → Int) : Prop extends Evaluation m val where
  posted : ∀ c ∈ m.constraints, c.Holds val

/-- A solution of the model: it also sets exactly one member of every exactly-one group, each
member counted as often as the group lists it. -/
structure Satisfies (m : Model) (val : Nat → Int) : Prop extends Assigns m val where
  grouped : ∀ ms ∈ m.groups, (ms.map fun v => val (m.vars.getD v default).expr).sum = 1

theorem evaluation_iff {m : Model} {val : Nat → Int} : m.Evaluation val ↔
    (∀ info ∈ m.vars.toList, val info.expr ∈ info.domain) ∧
      ∀ i (h : i < m.nodes.size), m.nodes[i].Holds val i := by
  constructor
  · rintro ⟨hdom, hder⟩
    refine ⟨fun info hi => ?_, fun i h => hder i _ (Array.getElem?_eq_getElem h)⟩
    obtain ⟨v, hv, rfl⟩ := List.getElem_of_mem hi
    exact hdom v _ (by simp)
  · rintro ⟨hdom, hder⟩
    refine ⟨fun v info hv => hdom info ?_, fun i n hn => ?_⟩
    · exact Array.mem_toList_iff.2 (Array.mem_of_getElem? hv)
    · obtain ⟨h, rfl⟩ := Array.getElem?_eq_some_iff.1 hn
      exact hder i h

theorem satisfies_iff {m : Model} {val : Nat → Int} : m.Satisfies val ↔
    m.Evaluation val ∧ (∀ c ∈ m.constraints.toList, c.Holds val) ∧
      ∀ ms ∈ m.groups.toList, (ms.map fun v => val (m.vars.getD v default).expr).sum = 1 := by
  constructor
  · rintro ⟨⟨he, hp⟩, hg⟩
    exact ⟨he, fun c hc => hp c (Array.mem_toList_iff.1 hc), fun ms hms => hg ms (Array.mem_toList_iff.1 hms)⟩
  · rintro ⟨he, hp, hg⟩
    exact ⟨⟨he, fun c hc => hp c (Array.mem_toList_iff.2 hc)⟩, fun ms hms => hg ms (Array.mem_toList_iff.2 hms)⟩

instance (m : Model) (val : Nat → Int) : Decidable (m.Evaluation val) := decidable_of_iff _ evaluation_iff.symm

instance (m : Model) (val : Nat → Int) : Decidable (m.Satisfies val) := decidable_of_iff _ satisfies_iff.symm

def OneHot (m : Model) (val : Nat → Int) : Prop :=
  ∀ ms ∈ m.groups, ∃ w ∈ ms, ∀ v ∈ ms, val (m.vars.getD v default).expr = if v = w then 1 else 0

/-- A partial assignment the search can make: one entry per variable, unset or a value of the
variable's domain. -/
def Partial (m : Model) (pa : Array (Option Int)) : Prop :=
  pa.size = m.vars.size ∧ ∀ v x, pa.getD v none = some x → x ∈ (m.vars.getD v default).domain

def Extends (m : Model) (val : Nat → Int) (pa : Array (Option Int)) : Prop :=
  ∀ v x, pa.getD v none = some x → val (m.vars.getD v default).expr = x

def varInterval (m : Model) (pa : Array (Option Int)) (v : Nat) : Interval :=
  match pa.getD v none with
  | some x => (x, x)
  | none =>
    let d := (m.vars.getD v default).domain
    (d.headD 0, d.getLastD 0)

def exactInterval (m : Model) (pa : Array (Option Int)) (out : Array Interval) : Node → Interval
  | .const c => (c, c)
  | .var v => m.varInterval pa v
  | .linear ts c => linearHull out ts (c, c)
  | .product fs => prodHull out fs

def exactBoundsOf (m : Model) (pa : Array (Option Int)) (ns : List Node) : Array Interval :=
  ns.foldl (fun out n => out.push (m.exactInterval pa out n)) #[]

def exactBounds (m : Model) (pa : Array (Option Int)) : Array Interval := m.exactBoundsOf pa m.nodes.toList

/-- No clamp of the interval pass at a node changes a value: the exact interval of a linear node,
and every running product of a product node, have word ends. -/
def NodeUnclamped (out : Array Interval) : Node → Prop
  | .linear ts c => WordInterval (linearHull out ts (c, c))
  | .product fs => ∀ k, WordInterval (prodHull out (fs.take k))
  | _ => True

def UnclampedAt (m : Model) (pa : Array (Option Int)) : Prop :=
  ∀ i (hi : i < m.nodes.size), NodeUnclamped (m.exactBounds pa) m.nodes[i]

/-- No interval end of the search is clamped at its root, where every variable is free. Below the
root intervals only narrow, so none is clamped anywhere (`unclampedAt_of_root`). -/
def Unclamped (m : Model) : Prop := m.UnclampedAt (Array.replicate m.vars.size none)

theorem nodeUnclamped_product_iff (out : Array Interval) (fs : List Nat) :
    NodeUnclamped out (.product fs) ↔ ∀ k < fs.length + 1, WordInterval (prodHull out (fs.take k)) := by
  constructor
  · exact fun h k _ => h k
  · intro h k
    by_cases hk : k < fs.length + 1
    · exact h k hk
    · have hall := h fs.length (Nat.lt_succ_self _)
      rwa [List.take_length, ← List.take_of_length_le (by omega : fs.length ≤ k)] at hall

instance (out : Array Interval) : (n : Node) → Decidable (NodeUnclamped out n)
  | .linear _ _ => inferInstanceAs (Decidable (WordInterval _))
  | .product fs => decidable_of_iff _ (nodeUnclamped_product_iff out fs).symm
  | .const _ => inferInstanceAs (Decidable True)
  | .var _ => inferInstanceAs (Decidable True)

instance (m : Model) (pa : Array (Option Int)) : Decidable (m.UnclampedAt pa) :=
  inferInstanceAs (Decidable (∀ i (_ : i < m.nodes.size), _))

instance (m : Model) : Decidable m.Unclamped := inferInstanceAs (Decidable (m.UnclampedAt _))

def LinearBackward (m : Model) : Prop :=
  ∀ (i : Nat) (ts : List (Int × Nat)) (c : Int), m.nodes[i]? = some (.linear ts c) → ∀ t ∈ ts, t.2 < i

/-- A choice between two options under a lower bound: an integer `x` over the domain given as
`[3, 1, 2, 1]`, two booleans `a` and `b` in one exactly-one group, the constant 2 posted below `x`,
and the cost `2 * x * a + 3 * b + 1`, whose product `x * a` is a node of its own. -/
def pickModel : Model :=
  ⟨#[.var 0, .var 1, .var 2, .const 2, .product [0, 1], .linear [(2, 4), (3, 2)] 1],
    #[⟨"x", 0, [1, 2, 3], false, none⟩, ⟨"a", 1, [0, 1], true, some 0⟩, ⟨"b", 2, [0, 1], true, some 0⟩],
    #[.lessEqual 3 0], #[[1, 2]], [(2, 3)]⟩

theorem pickModel_built : pickModel.Built :=
  .addLessEqual 3 0 <| .linear [(2, 4), (3, 2)] 1 <|
    .product [0, 1] (.constant 2 <| .addExactlyOne [1, 2]
      (.newBool "b" <| .newBool "a" <| .newInt "x" [3, 1, 2, 1] .empty rfl) rfl) rfl

theorem pickModel_unclamped : pickModel.Unclamped := by decide +kernel

theorem pickModel_linearBackward : pickModel.LinearBackward := by
  intro i ts c h t ht
  -- the cost is the one linear node
  have hi : i = 5 ∧ ts = [(2, 4), (3, 2)] := by
    match i, h with
    | 5, h => exact ⟨rfl, (by simpa [pickModel] using h.symm : _ ∧ c = 1).1⟩
  obtain ⟨rfl, rfl⟩ := hi
  simp only [List.mem_cons, List.not_mem_nil, or_false] at ht
  rcases ht with rfl | rfl <;> decide

def linearStep (out : Array Interval) (acc : Int × Int) (t : Int × Nat) : Except Fault (Int × Int) := do
  let (elo, ehi) := out.getD t.2 (0, 0)
  let a := t.1 * elo
  let b := t.1 * ehi
  return (← I128.add acc.1 (min a b), ← I128.add acc.2 (max a b))

variable {m : Model} {pa : Array (Option Int)}

section Prefix

theorem size_exactBoundsOf (ns : List Node) : (m.exactBoundsOf pa ns).size = ns.length := by
  induction ns using List.reverseRecOn with
  | nil => rfl
  | append_singleton ns n ih => simp [exactBoundsOf, List.foldl_append] at ih ⊢; exact ih

theorem exactBoundsOf_append_singleton (ns : List Node) (n : Node) :
    m.exactBoundsOf pa (ns ++ [n]) =
      (m.exactBoundsOf pa ns).push (m.exactInterval pa (m.exactBoundsOf pa ns) n) := by
  simp [exactBoundsOf, List.foldl_append]

theorem getElem?_exactBoundsOf (ns : List Node) (i : Nat) :
    (m.exactBoundsOf pa ns)[i]? =
      ns[i]?.map fun n => m.exactInterval pa (m.exactBoundsOf pa (ns.take i)) n := by
  induction ns using List.reverseRecOn with
  | nil => simp [exactBoundsOf]
  | append_singleton ns n ih =>
    rw [exactBoundsOf_append_singleton, Array.getElem?_push, size_exactBoundsOf]
    split
    · subst i; simp
    · rename_i hne
      rw [ih]
      rcases Nat.lt_or_ge i ns.length with hlt | hge
      · rw [List.getElem?_append_left hlt, List.take_append_of_le_length (Nat.le_of_lt hlt)]
      · rw [List.getElem?_eq_none (by omega), List.getElem?_append_right hge,
          List.getElem?_eq_none (by simp; omega)]
        rfl

theorem getD_exactBoundsOf_take {ns : List Node} {i j : Nat} (hj : j < i) (d : Interval) :
    (m.exactBoundsOf pa (ns.take i)).getD j d = (m.exactBoundsOf pa ns).getD j d := by
  simp only [Array.getD_eq_getD_getElem?, getElem?_exactBoundsOf, List.getElem?_take, hj, if_true,
    List.take_take, Nat.min_eq_left (Nat.le_of_lt hj)]

end Prefix

section Code

theorem foldlM_linearStep (out : Array Interval) :
    ∀ (ts : List (Int × Nat)) {acc r : Int × Int}, ts.foldlM (linearStep out) acc = .ok r →
      r = linearHull out ts acc
  | [], _, _, h => by simpa [linearHull] using (pure_eq_ok.1 h).symm
  | t :: ts, acc, r, h => by
    obtain ⟨acc', hstep, h⟩ := bind_eq_ok.1 (by simpa only [List.foldlM_cons] using h)
    obtain ⟨lo, hlo, hstep⟩ := bind_eq_ok.1 hstep
    obtain ⟨hi, hhi, hstep⟩ := bind_eq_ok.1 hstep
    rw [pure_eq_ok] at hstep
    subst hstep
    rw [foldlM_linearStep out ts h, I128.add_eq_ok hlo, I128.add_eq_ok hhi]
    rfl

theorem nodeInterval_var (out : Array Interval) (v : Nat) :
    m.nodeInterval pa out (.var v) = .ok (m.varInterval pa v) := by
  cases h : pa.getD v none <;> simp [nodeInterval, varInterval, h]

theorem nodeInterval_eq_exact {out : Array Interval} {n : Node} {iv : Interval}
    (hu : NodeUnclamped out n) (h : m.nodeInterval pa out n = .ok iv) :
    iv = m.exactInterval pa out n := by
  cases n with
  | const c => cases h; rfl
  | var v => rw [nodeInterval_var] at h; cases h; rfl
  | linear ts c =>
    obtain ⟨⟨lo, hi⟩, hfold, h⟩ := bind_eq_ok.1 h
    cases pure_eq_ok.1 h
    have hl := foldlM_linearStep out ts hfold
    simp only [NodeUnclamped] at hu
    rw [← hl] at hu
    simp only [exactInterval, ← hl, clamp_of_word hu.1, clamp_of_word hu.2]
  | product fs =>
    cases h
    exact foldl_mulInterval_of_word fs hu

end Code

theorem getD_vars {v : Nat} {info : Var} (h : m.vars[v]? = some info) : m.vars.getD v default = info := by
  simp [Array.getD_eq_getD_getElem?, h]

section Exact

variable (hm : WellFormed m) (hlin : m.LinearBackward)
include hm hlin

theorem getD_exactBounds {i : Nat} (hi : i < m.nodes.size) :
    (m.exactBounds pa).getD i (0, 0) = m.exactInterval pa (m.exactBounds pa) m.nodes[i] := by
  have hent : (m.exactBounds pa).getD i (0, 0) =
      m.exactInterval pa (m.exactBoundsOf pa (m.nodes.toList.take i)) m.nodes[i] := by
    simp [exactBounds, Array.getD_eq_getD_getElem?, getElem?_exactBoundsOf, hi]
  have hpre : ∀ j < i, (m.exactBoundsOf pa (m.nodes.toList.take i)).getD j (0, 0) =
      (m.exactBounds pa).getD j (0, 0) := fun j hj => getD_exactBoundsOf_take hj _
  have hnode : m.nodes[i]? = some m.nodes[i] := by simp [hi]
  rw [hent]
  cases hn : m.nodes[i] with
  | const c => rfl
  | var v => rfl
  | linear ts c =>
    rw [hn] at hnode
    exact linearHull_congr ts (fun t ht => hpre _ (hlin i ts c hnode t ht)) _
  | product fs =>
    rw [hn] at hnode
    exact prodHull_congr fs (fun f hf => hpre _ (hm.product_lt i fs hnode f hf)) _

theorem nodeUnclamped_prefix {i : Nat} (hi : i < m.nodes.size)
    (hu : NodeUnclamped (m.exactBounds pa) m.nodes[i]) :
    NodeUnclamped (m.exactBoundsOf pa (m.nodes.toList.take i)) m.nodes[i] := by
  have hpre : ∀ j < i, (m.exactBounds pa).getD j (0, 0) =
      (m.exactBoundsOf pa (m.nodes.toList.take i)).getD j (0, 0) :=
    fun j hj => (getD_exactBoundsOf_take hj _).symm
  have hnode : m.nodes[i]? = some m.nodes[i] := by simp [hi]
  revert hu
  cases hn : m.nodes[i] with
  | const c => exact id
  | var v => exact id
  | linear ts c =>
    rw [hn] at hnode
    simp only [NodeUnclamped]
    rw [linearHull_congr ts (fun t ht => hpre _ (hlin i ts c hnode t ht))]
    exact id
  | product fs =>
    rw [hn] at hnode
    intro h k
    rw [← prodHull_congr (fs.take k)
      (fun f hf => hpre _ (hm.product_lt i fs hnode f (List.mem_of_mem_take hf)))]
    exact h k

theorem bounds_eq_exact (hu : m.UnclampedAt pa) {b : Array Interval} (h : m.bounds pa = .ok b) :
    b = m.exactBounds pa := by
  unfold bounds at h
  rw [← Array.foldlM_toList] at h
  -- the pass over the nodes after a prefix, starting from the prefix's exact intervals
  have key : ∀ (ns pre : List Node), pre ++ ns = m.nodes.toList → ∀ {b : Array Interval},
      ns.foldlM (fun out n => do return out.push (← m.nodeInterval pa out n))
        (m.exactBoundsOf pa pre) = .ok b → b = m.exactBoundsOf pa (pre ++ ns) := by
    intro ns
    induction ns with
    | nil => intro pre _ b h; simpa using (pure_eq_ok.1 h).symm
    | cons n ns ih =>
      intro pre hpre b h
      obtain ⟨out, hstep, h⟩ := bind_eq_ok.1 (by simpa only [List.foldlM_cons] using h)
      obtain ⟨iv, hiv, hstep⟩ := bind_eq_ok.1 hstep
      cases pure_eq_ok.1 hstep
      have hlen : pre.length < m.nodes.size := by
        rw [← Array.length_toList, ← hpre]; simp
      have hn : m.nodes[pre.length] = n := by
        rw [← Array.getElem_toList]; simp only [← hpre]; simp
      have htake : m.nodes.toList.take pre.length = pre := by rw [← hpre]; simp
      have hunc := nodeUnclamped_prefix hm hlin hlen (hu pre.length hlen)
      rw [hn, htake] at hunc
      rw [nodeInterval_eq_exact hunc hiv, ← exactBoundsOf_append_singleton] at h
      rw [ih (pre ++ [n]) (by simpa using hpre) h]
      simp
  simpa [exactBounds] using key m.nodes.toList [] rfl h

theorem exactBounds_le (i : Nat) :
    ((m.exactBounds pa).getD i (0, 0)).1 ≤ ((m.exactBounds pa).getD i (0, 0)).2 := by
  rcases Nat.lt_or_ge i m.nodes.size with hi | hi
  · rw [getD_exactBounds hm hlin hi]
    have hnode : m.nodes[i]? = some m.nodes[i] := by simp [hi]
    cases hn : m.nodes[i] with
    | const c => exact le_refl c
    | var v =>
      rw [hn] at hnode
      obtain ⟨info, hinfo, _⟩ := hm.var_node i v hnode
      obtain ⟨hne, hsorted⟩ := hm.domain v info hinfo
      simp only [exactInterval, varInterval]
      cases pa.getD v none with
      | some x => exact le_refl x
      | none =>
        simp only [Array.getD_eq_getD_getElem?, hinfo, Option.getD_some]
        obtain ⟨a, ha⟩ := List.exists_mem_of_ne_nil _ hne
        exact le_trans (mem_between_ends hsorted ha).1 (mem_between_ends hsorted ha).2
    | linear ts c => exact linearHull_le ts (le_refl c)
    | product fs => exact prodHull_le fs (le_refl 1)
  · simp [exactBounds, Array.getD_eq_getD_getElem?, size_exactBoundsOf, hi]

theorem mem_exactBounds {val : Nat → Int} (hval : m.Evaluation val) (hext : m.Extends val pa) :
    ∀ i < m.nodes.size, InInterval (val i) ((m.exactBounds pa).getD i (0, 0)) := by
  intro i
  induction i using Nat.strong_induction_on with
  | _ i ih =>
    intro hi
    have hnode : m.nodes[i]? = some m.nodes[i] := by simp [hi]
    have hholds := hval.derived i _ hnode
    rw [getD_exactBounds hm hlin hi]
    cases hn : m.nodes[i] with
    | const c =>
      rw [hn] at hholds
      exact ⟨le_of_eq hholds.symm, le_of_eq hholds⟩
    | var v =>
      rw [hn] at hnode
      obtain ⟨info, hinfo, hexpr⟩ := hm.var_node i v hnode
      simp only [exactInterval, varInterval]
      cases hp : pa.getD v none with
      | some x =>
        have hx := hext v x hp
        rw [getD_vars hinfo, hexpr] at hx
        exact ⟨le_of_eq hx.symm, le_of_eq hx⟩
      | none =>
        have hd := hval.domain v info hinfo
        rw [hexpr] at hd
        rw [getD_vars hinfo]
        exact mem_between_ends (hm.domain v info hinfo).2 hd
    | linear ts c =>
      rw [hn] at hnode hholds
      have hrefs : ∀ t ∈ ts, InInterval (val t.2) ((m.exactBounds pa).getD t.2 (0, 0)) :=
        fun t ht => ih t.2 (hlin i ts c hnode t ht) (lt_trans (hlin i ts c hnode t ht) hi)
      simp only [Node.Holds] at hholds
      rw [hholds]
      exact mem_linearHull ts hrefs ⟨le_refl c, le_refl c⟩
    | product fs =>
      rw [hn] at hnode hholds
      have hrefs : ∀ f ∈ fs, InInterval (val f) ((m.exactBounds pa).getD f (0, 0)) :=
        fun f hf => ih f (hm.product_lt i fs hnode f hf) (lt_trans (hm.product_lt i fs hnode f hf) hi)
      simp only [Node.Holds] at hholds
      rw [hholds, ← one_mul (fs.map val).prod]
      exact mem_prodHull fs hrefs ⟨le_refl 1, le_refl 1⟩

theorem exactBounds_sub (hpa : m.Partial pa) {pa' : Array (Option Int)}
    (hsub : ∀ v x, pa'.getD v none = some x → pa.getD v none = some x) :
    ∀ i, SubInterval ((m.exactBounds pa).getD i (0, 0)) ((m.exactBounds pa').getD i (0, 0)) := by
  intro i
  induction i using Nat.strong_induction_on with
  | _ i ih =>
    rcases Nat.lt_or_ge i m.nodes.size with hi | hi
    · have hnode : m.nodes[i]? = some m.nodes[i] := by simp [hi]
      rw [getD_exactBounds hm hlin hi, getD_exactBounds hm hlin hi]
      cases hn : m.nodes[i] with
      | const c => exact ⟨le_refl c, le_refl c⟩
      | var v =>
        rw [hn] at hnode
        obtain ⟨info, hinfo, _⟩ := hm.var_node i v hnode
        simp only [exactInterval, varInterval]
        cases hp' : pa'.getD v none with
        | some x => rw [hsub v x hp']; exact ⟨le_refl x, le_refl x⟩
        | none =>
          cases hp : pa.getD v none with
          | some x =>
            have hx := hpa.2 v x hp
            rw [getD_vars hinfo] at hx ⊢
            exact mem_between_ends (hm.domain v info hinfo).2 hx
          | none => exact ⟨le_refl _, le_refl _⟩
      | linear ts c =>
        rw [hn] at hnode
        exact linearHull_sub ts
          (fun t ht => ⟨exactBounds_le hm hlin t.2, ih t.2 (hlin i ts c hnode t ht)⟩) ⟨le_refl c, le_refl c⟩
      | product fs =>
        rw [hn] at hnode
        exact prodHull_sub fs (fun f hf => ⟨exactBounds_le hm hlin f, ih f (hm.product_lt i fs hnode f hf)⟩)
          (le_refl 1) ⟨le_refl 1, le_refl 1⟩
    · simp [SubInterval, exactBounds, Array.getD_eq_getD_getElem?, size_exactBoundsOf, hi]

theorem unclampedAt_of_root (hu : m.Unclamped) (hpa : m.Partial pa) : m.UnclampedAt pa := by
  have hsub : ∀ i, SubInterval ((m.exactBounds pa).getD i (0, 0))
      ((m.exactBounds (Array.replicate m.vars.size none)).getD i (0, 0)) :=
    exactBounds_sub hm hlin hpa fun v x h => by
      rw [Array.getD_eq_getD_getElem?, Array.getElem?_replicate] at h
      split at h <;> simp at h
  intro i hi
  have hnode : m.nodes[i]? = some m.nodes[i] := by simp [hi]
  have hroot := hu i hi
  revert hroot
  cases hn : m.nodes[i] with
  | const c => exact id
  | var v => exact id
  | linear ts c =>
    intro hroot
    exact word_of_sub (linearHull_le ts (le_refl c))
      (linearHull_sub ts (fun t _ => ⟨exactBounds_le hm hlin t.2, hsub t.2⟩) ⟨le_refl c, le_refl c⟩) hroot
  | product fs =>
    intro hroot k
    exact word_of_sub (prodHull_le _ (le_refl 1))
      (prodHull_sub (fs.take k) (fun f _ => ⟨exactBounds_le hm hlin f, hsub f⟩) (le_refl 1)
        ⟨le_refl 1, le_refl 1⟩) (hroot k)

theorem point_extends (hpa : m.Partial pa) :
    m.Extends (fun j => ((m.exactBounds pa).getD j (0, 0)).1) pa := by
  intro v x hx
  have hv : v < m.vars.size := by
    rw [← hpa.1]
    by_contra hge
    simp [Array.getD_eq_getD_getElem?, Array.getElem?_eq_none (Nat.le_of_not_lt hge)] at hx
  obtain ⟨info, hinfo⟩ : ∃ info, m.vars[v]? = some info := ⟨m.vars[v], by simp [hv]⟩
  have hnode := hm.var_expr v info hinfo
  have hi : info.expr < m.nodes.size := (Array.getElem?_eq_some_iff.1 hnode).1
  have hn : m.nodes[info.expr] = .var v := by simpa [hi] using hnode
  simp only [getD_vars hinfo, getD_exactBounds hm hlin hi, hn, exactInterval, varInterval, hx]

variable (hfull : ∀ v < m.vars.size, pa.getD v none ≠ none)
include hfull

theorem exactBounds_point :
    ∀ i, ((m.exactBounds pa).getD i (0, 0)).1 = ((m.exactBounds pa).getD i (0, 0)).2 := by
  intro i
  induction i using Nat.strong_induction_on with
  | _ i ih =>
    rcases Nat.lt_or_ge i m.nodes.size with hi | hi
    · have hnode : m.nodes[i]? = some m.nodes[i] := by simp [hi]
      rw [getD_exactBounds hm hlin hi]
      cases hn : m.nodes[i] with
      | const c => rfl
      | var v =>
        rw [hn] at hnode
        obtain ⟨info, hinfo, _⟩ := hm.var_node i v hnode
        simp only [exactInterval, varInterval]
        cases hp : pa.getD v none with
        | some x => rfl
        | none => exact absurd hp (hfull v (Array.getElem?_eq_some_iff.1 hinfo).1)
      | linear ts c =>
        rw [hn] at hnode
        simp only [exactInterval]
        rw [linearHull_points ts (fun t ht => ih t.2 (hlin i ts c hnode t ht)) c]
      | product fs =>
        rw [hn] at hnode
        simp only [exactInterval, prodHull]
        rw [← prodHull, prodHull_points fs (fun f hf => ih f (hm.product_lt i fs hnode f hf)) 1]
    · simp [exactBounds, Array.getD_eq_getD_getElem?, size_exactBoundsOf, hi]

theorem point_holds : ∀ (i : Nat) (n : Node), m.nodes[i]? = some n →
    n.Holds (fun j => ((m.exactBounds pa).getD j (0, 0)).1) i := by
  intro i n hnode
  have hi : i < m.nodes.size := (Array.getElem?_eq_some_iff.1 hnode).1
  have hn : m.nodes[i] = n := by simpa [hi] using hnode
  have hpt : (m.exactBounds pa).getD i (0, 0) = m.exactInterval pa (m.exactBounds pa) n :=
    hn ▸ getD_exactBounds hm hlin hi
  cases n with
  | const c => simp only [Node.Holds, hpt, exactInterval]
  | var v => trivial
  | linear ts c =>
    simp only [Node.Holds, hpt, exactInterval]
    rw [linearHull_points ts (fun t _ => exactBounds_point hm hlin hfull t.2) c]
  | product fs =>
    simp only [Node.Holds, hpt, exactInterval]
    rw [prodHull_points fs (fun f _ => exactBounds_point hm hlin hfull f) 1, one_mul]

theorem point_evaluation (hpa : m.Partial pa) :
    m.Evaluation (fun j => ((m.exactBounds pa).getD j (0, 0)).1) where
  domain v info hinfo := by
    have hv : v < m.vars.size := (Array.getElem?_eq_some_iff.1 hinfo).1
    obtain ⟨x, hx⟩ := Option.ne_none_iff_exists'.1 (hfull v hv)
    have hval := point_extends hm hlin hpa v x hx
    have hdom := hpa.2 v x hx
    rw [getD_vars hinfo] at hval hdom
    show ((m.exactBounds pa).getD info.expr (0, 0)).1 ∈ info.domain
    rw [show ((m.exactBounds pa).getD info.expr (0, 0)).1 = x from hval]
    exact hdom
  derived := point_holds hm hlin hfull

end Exact

theorem exists_one_of_sum_bits {f : Nat → Int} :
    ∀ {l : List Nat}, (∀ v ∈ l, f v = 0 ∨ f v = 1) → (l.map f).sum = 1 →
      ∃ w ∈ l, ∀ v ∈ l, f v = if v = w then 1 else 0
  | [], _, h => by simp at h
  | a :: l, hbit, h => by
    rw [List.map_cons, List.sum_cons] at h
    have hnonneg : 0 ≤ (l.map f).sum :=
      List.sum_nonneg fun x hx => by
        obtain ⟨v, hv, rfl⟩ := List.mem_map.1 hx
        rcases hbit v (List.mem_cons_of_mem _ hv) with h0 | h1 <;> omega
    rcases hbit a List.mem_cons_self with ha | ha
    · -- the one is further on, and `a` is not it
      obtain ⟨w, hw, hf⟩ := exists_one_of_sum_bits (fun v hv => hbit v (List.mem_cons_of_mem _ hv))
        (by omega)
      have haw : a ≠ w := fun haw => by rw [haw, hf w hw, if_pos rfl] at ha; cases ha
      refine ⟨w, List.mem_cons_of_mem _ hw, fun v hv => ?_⟩
      rcases List.mem_cons.1 hv with rfl | hv
      · rw [if_neg haw, ha]
      · exact hf v hv
    · -- `a` is the one, so the rest sums to zero and is all zeros
      have hzero : (l.map f).sum = 0 := by omega
      refine ⟨a, List.mem_cons_self, fun v hv => ?_⟩
      by_cases hva : v = a
      · rw [if_pos hva, hva, ha]
      · rw [if_neg hva]
        have hvl : v ∈ l := (List.mem_cons.1 hv).resolve_left hva
        have hle := List.single_le_sum (fun x hx => by
          obtain ⟨u, hu, rfl⟩ := List.mem_map.1 hx
          rcases hbit u (List.mem_cons_of_mem _ hu) with h0 | h1 <;> omega) (f v)
          (List.mem_map_of_mem hvl)
        rcases hbit v hv with h0 | h1
        · exact h0
        · omega

theorem sum_ite_eq_one {w : Nat} : ∀ {l : List Nat}, l.Nodup → w ∈ l →
    (l.map fun v => if v = w then (1 : Int) else 0).sum = 1
  | [], _, h => absurd h List.not_mem_nil
  | a :: l, hnd, hw => by
    rw [List.map_cons, List.sum_cons]
    obtain ⟨hal, hnd⟩ := List.nodup_cons.1 hnd
    by_cases haw : a = w
    · subst haw
      have hzero : (l.map fun v => if v = a then (1 : Int) else 0).sum = 0 :=
        List.sum_eq_zero fun x hx => by
          obtain ⟨v, hv, rfl⟩ := List.mem_map.1 hx
          have hva : v ≠ a := fun h => hal (h ▸ hv)
          rw [if_neg hva]
      rw [if_pos rfl, hzero]
      rfl
    · rw [if_neg haw, sum_ite_eq_one hnd ((List.mem_cons.1 hw).resolve_left (Ne.symm haw)), zero_add]

theorem Satisfies.oneHot (hm : WellFormed m) {val : Nat → Int} (h : m.Satisfies val) : m.OneHot val := by
  intro ms hms
  obtain ⟨g, hg⟩ := Array.getElem?_of_mem hms
  refine exists_one_of_sum_bits (fun v hv => ?_) (h.grouped ms hms)
  obtain ⟨info, hinfo, hb, _⟩ := hm.member g ms hg v hv
  have hd := h.domain v info hinfo
  rw [hm.bool v info hinfo hb] at hd
  rw [getD_vars hinfo]
  simpa using hd

theorem OneHot.grouped (hone : m.OneHot val) (hnd : ∀ ms ∈ m.groups, ms.Nodup) :
    ∀ ms ∈ m.groups, (ms.map fun v => val (m.vars.getD v default).expr).sum = 1 := by
  intro ms hms
  obtain ⟨w, hw, hf⟩ := hone ms hms
  rw [List.map_congr_left hf]
  exact sum_ite_eq_one (hnd ms hms) hw


end Model

end TileSched
