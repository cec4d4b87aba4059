import Mathlib
import TileSched.Proofs.Solver.Grows
/-! Models built by builder calls whose expression arguments name nodes already made. Over every
such sequence of calls each node reads only nodes before it, so an assignment of the variables
gives every node exactly one value; a constant is made once and every later request for it gets
the same node; and each builder's node takes the value it is asked for: a linear sum its sum, a
product the product of its factors while the folded constant factors stay words, and the sum,
product and multiple defaults what they name. A new variable keeps its domain sorted and without
repeats, and an exactly-one group either is refused or puts all its members in one new group. -/

namespace TileSched

def Node.refs : Node → List Nat
  | .linear ts _ => ts.map (·.2)
  | .product fs => fs
  | _ => []

namespace Model

def Backward (m : Model) : Prop :=
  ∀ (i : Nat) (n : Node), m.nodes[i]? = some n → ∀ r ∈ n.refs, r < i

/-- One builder call, each of its expression arguments a node of the model. A product and an
exactly-one group check their arguments themselves. -/
inductive BuilderCall : Model → Model → Prop
  | newInt {m m' : Model} {e : Nat} (name : String) (dom : List Int) :
      m.newInt name dom = .ok (m', e) → BuilderCall m m'
  | newBool (m : Model) (name : String) : BuilderCall m (m.newBool name).1
  | constant (m : Model) (c : Int) : BuilderCall m (m.constant c).1
  | linear {m : Model} (ts : List (Int × Nat)) (c : Int) :
      (∀ t ∈ ts, t.2 < m.nodes.size) → BuilderCall m (m.linear ts c).1
  | product {m m' : Model} {e : Nat} (fs : List Nat) :
      m.product fs = .ok (m', e) → BuilderCall m m'
  | addEqual {m : Model} (a b : Nat) :
      a < m.nodes.size → b < m.nodes.size → BuilderCall m (m.addEqual a b)
  | addLessEqual {m : Model} (a b : Nat) :
      a < m.nodes.size → b < m.nodes.size → BuilderCall m (m.addLessEqual a b)
  | addExactlyOne {m m' : Model} (bs : List Nat) :
      m.addExactlyOne bs = .ok m' → BuilderCall m m'

def BuiltFrom (m m' : Model) : Prop := Relation.ReflTransGen BuilderCall m m'

variable {m m' : Model}

theorem BuiltFrom.keeps {P : Model → Prop} (hstep : ∀ {m m' : Model}, BuilderCall m m' → P m → P m')
    (h : BuiltFrom m m') (hp : P m) : P m' := by
  induction h with
  | refl => exact hp
  | tail _ hcall ih => exact hstep hcall ih

theorem BuilderCall.built (hc : BuilderCall m m') (hm : m.Built) : m'.Built := by
  cases hc with
  | newInt name dom h => exact .newInt name dom hm h
  | newBool name => exact .newBool name hm
  | constant c => exact .constant c hm
  | linear ts c _ => exact .linear ts c hm
  | product fs h => exact .product fs hm h
  | addEqual a b _ _ => exact .addEqual a b hm
  | addLessEqual a b _ _ => exact .addLessEqual a b hm
  | addExactlyOne bs h => exact .addExactlyOne bs hm h

theorem BuiltFrom.built (h : BuiltFrom m m') (hm : m.Built) : m'.Built :=
  h.keeps (fun hc => hc.built) hm

/-! ### Nodes read only earlier nodes -/

namespace Backward

theorem empty : Backward ({} : Model) := fun _ _ h => by simp at h

theorem of_nodes (h : m.Backward) (hn : m'.nodes = m.nodes) : m'.Backward :=
  fun i n hi => h i n (hn ▸ hi)

theorem push (h : m.Backward) {n : Node} (hn : ∀ r ∈ n.refs, r < m.nodes.size) :
    (m.push n).1.Backward := by
  intro i n' hi r hr
  simp only [Model.push, Array.getElem?_push] at hi
  split at hi
  · cases hi
    subst i
    exact hn r hr
  · exact h i n' hi r hr

theorem constant (h : m.Backward) (c : Int) : (m.constant c).1.Backward := by
  unfold Model.constant
  split
  · exact h
  · exact (h.push (n := .const c) fun _ hr => by simp [Node.refs] at hr).of_nodes rfl

theorem linear (h : m.Backward) {ts : List (Int × Nat)} (hts : ∀ t ∈ ts, t.2 < m.nodes.size)
    (c : Int) : (m.linear ts c).1.Backward := by
  unfold Model.linear
  dsimp only
  split
  · exact h.constant c
  · refine h.push fun r hr => ?_
    -- the terms kept are terms asked for
    obtain ⟨t, ht, rfl⟩ := List.mem_map.1 hr
    exact hts t (List.mem_of_mem_filter ht)

theorem newVar (h : m.Backward) (name : String) (d : List Int) (isBool : Bool) :
    (m.newVar name d isBool).1.Backward :=
  (h.push (n := .var m.vars.size) fun _ hr => by simp [Node.refs] at hr).of_nodes rfl

theorem newInt (h : m.Backward) {name : String} {d : List Int} {e : Nat}
    (hnew : m.newInt name d = .ok (m', e)) : m'.Backward := by
  unfold Model.newInt at hnew
  split at hnew
  · cases hnew
  · cases hnew
    exact h.newVar name d false

theorem product (h : m.Backward) {fs : List Nat} {e : Nat} (hp : m.product fs = .ok (m', e)) :
    m'.Backward := by
  have pair : ∀ r : Model × Nat, (m', e) = r → r.1.Backward → m'.Backward := by
    intro r hr h
    subst hr
    exact h
  obtain ⟨c, rest, hfold, hr⟩ := product_cases hp
  have hrest : ∀ f ∈ rest, f < m.nodes.size := WellFormed.product_rest_lt hfold
  have hpush : (m.push (.product rest)).1.Backward := h.push hrest
  rcases hr with ⟨-, hr⟩ | ⟨-, -, hr⟩ | ⟨-, f, rfl, ⟨-, hr⟩ | ⟨-, hr⟩⟩ | ⟨-, -, -, ⟨-, hr⟩ | ⟨-, hr⟩⟩
  · exact pair _ hr (h.constant 0)
  · exact pair _ hr (h.constant c)
  · exact pair _ hr h
  · exact pair _ hr (h.linear (by simpa using hrest) 0)
  · exact pair _ hr hpush
  · exact pair _ hr (hpush.linear (by simp [Model.push]) 0)

theorem addExactlyOne (h : m.Backward) {bs : List Nat} (hg : m.addExactlyOne bs = .ok m') :
    m'.Backward :=
  h.of_nodes (addExactlyOne_spec hg).1

theorem linearBackward (h : m.Backward) : m.LinearBackward :=
  fun i _ _ hi t ht => h i _ hi t.2 (List.mem_map_of_mem ht)

end Backward

theorem BuilderCall.backward (hc : BuilderCall m m') (h : m.Backward) : m'.Backward := by
  cases hc with
  | newInt name dom hnew => exact h.newInt hnew
  | newBool name => exact h.newVar name _ _
  | constant c => exact h.constant c
  | linear ts c hts => exact h.linear hts c
  | product fs hp => exact h.product hp
  | addEqual a b _ _ => exact h.of_nodes rfl
  | addLessEqual a b _ _ => exact h.of_nodes rfl
  | addExactlyOne bs hg => exact h.addExactlyOne hg

theorem exists_unique_evaluation (hm : WellFormed m) (hback : m.Backward) {pa : Array (Option Int)}
    (hpa : m.Partial pa) (hfull : ∀ v < m.vars.size, pa.getD v none ≠ none) :
    ∃ val, m.Evaluation val ∧ m.Extends val pa ∧
      ∀ val', m.Evaluation val' → m.Extends val' pa → ∀ i < m.nodes.size, val' i = val i := by
  have hlin := hback.linearBackward
  refine ⟨_, point_evaluation hm hlin hfull hpa, point_extends hm hlin hpa, ?_⟩
  intro val' hval hext i hi
  have hmem := mem_exactBounds hm hlin hval hext i hi
  have hpt := exactBounds_point hm hlin hfull i
  exact le_antisymm (hpt ▸ hmem.2) hmem.1

/-! ### Shared constants -/

theorem constant_of_lookup {c : Int} {e : Nat} (h : m.constants.lookup c = some e) :
    m.constant c = (m, e) := by
  unfold Model.constant
  rw [h]

theorem lookup_constant_self (c : Int) : (m.constant c).1.constants.lookup c = some (m.constant c).2 := by
  unfold Model.constant
  split
  · assumption
  · simp

section Lookup

variable {c : Int} {e : Nat}

theorem lookup_constant (h : m.constants.lookup c = some e) (c' : Int) :
    (m.constant c').1.constants.lookup c = some e := by
  unfold Model.constant
  split
  · exact h
  · rename_i hnone
    have hne : (c == c') = false := beq_eq_false_iff_ne.2 fun hcc => by
      rw [hcc, hnone] at h
      cases h
    simp only [Model.push, List.lookup_cons, hne]
    exact h

theorem lookup_linear (h : m.constants.lookup c = some e) (ts : List (Int × Nat)) (c' : Int) :
    (m.linear ts c').1.constants.lookup c = some e := by
  unfold Model.linear
  dsimp only
  split
  · exact lookup_constant h c'
  · exact h

theorem lookup_product (h : m.constants.lookup c = some e) {fs : List Nat} {e' : Nat}
    (hp : m.product fs = .ok (m', e')) : m'.constants.lookup c = some e :=
  product_model (fun m => m.constants.lookup c = some e) hp h (lookup_constant h)
    (fun _ _ => lookup_linear h _ 0) (fun _ => h) (fun _ _ => lookup_linear (m := (m.push _).1) h _ 0)

theorem lookup_addExactlyOne (h : m.constants.lookup c = some e) {bs : List Nat}
    (hg : m.addExactlyOne bs = .ok m') : m'.constants.lookup c = some e := by
  unfold Model.addExactlyOne at hg
  dsimp only at hg
  split at hg
  · cases hg
  obtain ⟨members, -, hg⟩ := bind_eq_ok.1 hg
  cases pure_eq_ok.1 hg
  exact h

theorem BuilderCall.lookup (hc : BuilderCall m m') (h : m.constants.lookup c = some e) :
    m'.constants.lookup c = some e := by
  cases hc with
  | newInt name dom hnew =>
    unfold Model.newInt at hnew
    split at hnew
    · cases hnew
    · cases hnew
      exact h
  | newBool name => exact h
  | constant c' => exact lookup_constant h c'
  | linear ts c' _ => exact lookup_linear h ts c'
  | product fs hp => exact lookup_product h hp
  | addEqual a b _ _ => exact h
  | addLessEqual a b _ _ => exact h
  | addExactlyOne bs hg => exact lookup_addExactlyOne h hg

end Lookup

theorem constant_shared (hm : m.Built) (c : Int) (h : BuiltFrom (m.constant c).1 m') :
    m'.constant c = (m', (m.constant c).2) ∧ m'.nodes[(m.constant c).2]? = some (.const c) := by
  have hlookup : m'.constants.lookup c = some (m.constant c).2 :=
    h.keeps (fun hc hl => hc.lookup hl) (lookup_constant_self c)
  have hcn : m'.ConstantsNamed := (h.built (.constant c hm)).constantsNamed
  exact ⟨constant_of_lookup hlookup, hcn c _ (mem_of_lookup hlookup)⟩

/-! ### Products -/

def constOf? (m : Model) (e : Nat) : Option Int :=
  match m.nodes[e]? with
  | some (.const k) => some k
  | _ => none

theorem constOf?_eq_some {e : Nat} {k : Int} : m.constOf? e = some k ↔ m.nodes[e]? = some (.const k) := by
  unfold constOf?
  split <;> simp_all

/-- The constant factors of a product fold without saturating: every running product of them is
a word. -/
def FoldsExactly (m : Model) (fs : List Nat) : Prop :=
  ∀ k, InInterval ((fs.filterMap m.constOf?).take k).prod (I64.min, I64.max)

section Fold

variable {f : Nat} {acc : Int × List Nat}

theorem factorStep_lt {acc' : Int × List Nat} (h : m.factorStep acc f = .ok acc') : f < m.nodes.size := by
  obtain ⟨n, hn, -⟩ := bind_eq_ok.1 h
  exact (Array.getElem?_eq_some_iff.1 (entryAt_eq_ok.1 hn)).1

theorem factorStep_const {k : Int} (hk : m.constOf? f = some k) :
    m.factorStep acc f = .ok (I64.satMul acc.1 k, acc.2) := by
  simp only [factorStep, entryAt_eq_ok.2 (constOf?_eq_some.1 hk)]
  rfl

theorem factorStep_other (hf : f < m.nodes.size) (hk : m.constOf? f = none) :
    m.factorStep acc f = .ok (acc.1, acc.2 ++ [f]) := by
  obtain ⟨n, hn⟩ : ∃ n, m.nodes[f]? = some n := ⟨_, Array.getElem?_eq_getElem hf⟩
  simp only [factorStep, entryAt_eq_ok.2 hn]
  cases n with
  | const k => simp [constOf?, hn] at hk
  | var v => rfl
  | linear ts c => rfl
  | product fs => rfl

theorem foldlM_factorStep_prod {val : Nat → Int} (hval : ∀ f k, m.constOf? f = some k → val f = k) :
    ∀ {fs : List Nat} {a c : Int} {r rest : List Nat}, fs.foldlM m.factorStep (a, r) = .ok (c, rest) →
      (∀ k, InInterval (a * ((fs.filterMap m.constOf?).take k).prod) (I64.min, I64.max)) →
      c * (rest.map val).prod = a * (r.map val).prod * (fs.map val).prod
  | [], a, c, r, rest, h, _ => by
    rw [List.foldlM_nil, pure_eq_ok] at h
    obtain ⟨rfl, rfl⟩ := Prod.mk.inj h
    simp
  | f :: fs, a, c, r, rest, h, hword => by
    rw [List.foldlM_cons] at h
    obtain ⟨acc, hstep, hfold⟩ := bind_eq_ok.1 h
    have hf := factorStep_lt hstep
    cases hk : m.constOf? f with
    | some k =>
      rw [factorStep_const hk, Except.ok.injEq] at hstep
      subst hstep
      -- the first running product is `a * k`, a word, so the saturating product is exact
      have hak : InInterval (a * k) (I64.min, I64.max) := by
        simpa [hk] using hword 1
      have hmul : I64.satMul a k = a * k := by rw [I64.satMul, clamp_of_word hak]
      rw [hmul] at hfold
      have ih := foldlM_factorStep_prod hval hfold fun j => by
        simpa [hk, Int.mul_assoc] using hword (j + 1)
      rw [ih, List.map_cons, List.prod_cons, hval f k hk]
      ring
    | none =>
      rw [factorStep_other hf hk, Except.ok.injEq] at hstep
      subst hstep
      have ih := foldlM_factorStep_prod hval hfold fun j => by
        simpa [hk] using hword j
      rw [ih, List.map_append, List.prod_append, List.map_cons, List.prod_cons]
      simp only [List.map_cons, List.map_nil, List.prod_cons, List.prod_nil]
      ring

end Fold

theorem product_exists_ok {fs : List Nat} (hfs : ∀ f ∈ fs, f < m.nodes.size) :
    ∃ r, m.product fs = .ok r := by
  obtain ⟨acc, hfold, -⟩ : ∃ r, fs.foldlM m.factorStep ((1 : Int), ([] : List Nat)) = .ok r ∧ True :=
    foldlM_exists_ok (fun _ => True) trivial fun acc f hf _ => by
      cases hk : m.constOf? f with
      | some k => exact ⟨_, factorStep_const hk, trivial⟩
      | none => exact ⟨_, factorStep_other (hfs f hf) hk, trivial⟩
  unfold Model.product
  -- every shape the folded product can take returns
  refine (exists_bind_ok (P := fun _ => True) hfold ?_).imp fun _ h => h.1
  split
  split
  · exact ⟨_, rfl, trivial⟩
  · split
    · exact ⟨_, rfl, trivial⟩
    · split <;> exact ⟨_, rfl, trivial⟩
    · split
      split <;> exact ⟨_, rfl, trivial⟩

theorem Denotes.product (hcn : m.ConstantsNamed) {fs : List Nat} {e : Nat}
    (h : m.product fs = .ok (m', e)) (hx : m.FoldsExactly fs) :
    m'.Denotes e fun val => (fs.map val).prod := by
  obtain ⟨c, rest, hfold, -⟩ := product_cases h
  refine Denotes.product_fold hcn h hfold fun m'' hg val hval => ?_
  -- a constant factor's value is its constant in every grown model
  have hconst : ∀ f k, m.constOf? f = some k → val f = k := fun f k hk =>
    hval.derived f (.const k) (hg.nodes f _ (constOf?_eq_some.1 hk))
  have hprod := foldlM_factorStep_prod hconst hfold fun k => by simpa using hx k
  simpa using hprod.symm

theorem Denotes.scale (hcn : m.ConstantsNamed) (e : Nat) (f : Int) :
    (m.scale e f).1.Denotes (m.scale e f).2 fun val => f * val e := by
  unfold Model.scale
  split
  · rename_i h1
    subst h1
    exact (Denotes.self m e).congr fun _ _ _ _ => (Int.one_mul _).symm
  · exact (Denotes.linear hcn _ 0).congr fun _ _ _ _ => by simp

/-! ### Variables and exactly-one groups -/

theorem newInt_domain {name : String} {dom : List Int} {e : Nat} (h : m.newInt name dom = .ok (m', e)) :
    ∃ v info, m'.nodes[e]? = some (.var v) ∧ m'.vars[v]? = some info ∧
      info.domain.Pairwise (· < ·) ∧ ∀ a, a ∈ info.domain ↔ a ∈ dom := by
  unfold Model.newInt at h
  split at h
  · cases h
  · cases h
    obtain ⟨hmem, hsorted⟩ := normalized_domain dom
    refine ⟨m.vars.size, ⟨name, m.nodes.size, dedupSorted (sortInts dom), false, none⟩, ?_, ?_,
      hsorted, hmem⟩
    · simp
    · simp

def FreeBool (m : Model) (b : Nat) : Prop :=
  ∃ v info, m.nodes[b]? = some (.var v) ∧ m.vars[v]? = some info ∧ info.isBool ∧ info.group = none

theorem addExactlyOne_ok_iff {bs : List Nat} :
    (∃ m', m.addExactlyOne bs = .ok m') ↔ bs ≠ [] ∧ ∀ b ∈ bs, m.FreeBool b := by
  unfold Model.addExactlyOne
  dsimp only
  constructor
  · rintro ⟨m', h⟩
    split at h
    · cases h
    rename_i hbs
    obtain ⟨members, hmap, -⟩ := bind_eq_ok.1 h
    refine ⟨fun hnil => hbs (by simp [hnil]), fun b hb => ?_⟩
    obtain ⟨v, -, hv⟩ := mapM_ok_of_mem hmap b hb
    -- the member passed every check
    split at hv
    · rename_i v' hvar
      split at hv
      · rename_i info hinfo
        split at hv
        · cases hv
        · split at hv
          · cases hv
          · exact ⟨v', info, varOf?_eq_some.1 hvar, hinfo, by simp_all, by simp_all⟩
      · cases hv
    · cases hv
  · rintro ⟨hne, hfree⟩
    rw [if_neg (by simpa using hne)]
    -- every member passes its checks, and then the group is made
    refine (exists_bind_of_exists (P := fun _ => True)
      (mapM_exists_ok (fun _ => True) fun b hb => ?_) fun _ _ => ⟨_, rfl, trivial⟩).imp fun _ h => h.1
    obtain ⟨v, info, hvar, hinfo, hbool, hgroup⟩ := hfree b hb
    exact ⟨v, by simp [varOf?_eq_some.2 hvar, hinfo, hbool, hgroup]; rfl, trivial⟩

theorem addExactlyOne_groups {bs : List Nat} (h : m.addExactlyOne bs = .ok m') :
    ∃ ms, m'.groups = m.groups.push ms ∧ List.Forall₂ (fun b v => m.nodes[b]? = some (.var v)) bs ms ∧
      ∀ v, m'.vars[v]? = if v ∈ ms then (m.vars[v]?).map fun info => { info with group := some m.groups.size }
        else m.vars[v]? := by
  obtain ⟨-, ms, hgroups, hms⟩ := addExactlyOne_spec h
  refine ⟨ms, hgroups, hms, fun v => ?_⟩
  unfold Model.addExactlyOne at h
  dsimp only at h
  split at h
  · cases h
  obtain ⟨members, -, h⟩ := bind_eq_ok.1 h
  cases pure_eq_ok.1 h
  -- the members are the group appended
  have hmem : members = ms := by
    have := congrArg (·[m.groups.size]?) hgroups
    simpa using this
  subst hmem
  exact getElem?_foldl_modify (fun info : Var => { info with group := some m.groups.size }) (fun _ => rfl)
    members m.vars v

/-! ### The builders over every sequence of calls -/

/-- Over every sequence of builder calls from the empty model whose expression arguments name
nodes already made: every node reads only earlier nodes, so a full assignment of the variables
values every node in exactly one way; a constant asked for is returned again, unchanged, by every
model built on, and its node holds it; the linear, sum and multiple builders denote what they are
asked for; a product of nodes returns, and denotes the product of its factors when its constant
factors fold without saturating, as does the product of two; a new integer variable's domain is
sorted and without repeats; and an exactly-one group is made exactly when its members are free
booleans, then appending one new group that all of them, and only they, join. -/
theorem builders_preserve_meaning (hb : BuiltFrom {} m) :
    m.Backward ∧
      (∀ pa, m.Partial pa → (∀ v < m.vars.size, pa.getD v none ≠ none) →
        ∃ val, m.Evaluation val ∧ m.Extends val pa ∧
          ∀ val', m.Evaluation val' → m.Extends val' pa → ∀ i < m.nodes.size, val' i = val i) ∧
      (∀ c m', BuiltFrom (m.constant c).1 m' →
        m'.constant c = (m', (m.constant c).2) ∧ m'.nodes[(m.constant c).2]? = some (.const c)) ∧
      (∀ ts c, (m.linear ts c).1.Denotes (m.linear ts c).2
        fun val => c + (ts.map fun t => t.1 * val t.2).sum) ∧
      (∀ fs, (∀ f ∈ fs, f < m.nodes.size) → ∃ m' e, m.product fs = .ok (m', e) ∧
        (m.FoldsExactly fs → m'.Denotes e fun val => (fs.map val).prod)) ∧
      (∀ es, (m.sum es).1.Denotes (m.sum es).2 fun val => (es.map val).sum) ∧
      (∀ a b, a < m.nodes.size → b < m.nodes.size → ∃ m' e, m.mul a b = .ok (m', e) ∧
        (m.FoldsExactly [a, b] → m'.Denotes e fun val => val a * val b)) ∧
      (∀ e f, (m.scale e f).1.Denotes (m.scale e f).2 fun val => f * val e) ∧
      (∀ name dom m' e, m.newInt name dom = .ok (m', e) → ∃ v info, m'.nodes[e]? = some (.var v) ∧
        m'.vars[v]? = some info ∧ info.domain.Pairwise (· < ·) ∧ ∀ a, a ∈ info.domain ↔ a ∈ dom) ∧
      (∀ bs, ((∃ m', m.addExactlyOne bs = .ok m') ↔ bs ≠ [] ∧ ∀ b ∈ bs, m.FreeBool b) ∧
        ∀ m', m.addExactlyOne bs = .ok m' → ∃ ms, m'.groups = m.groups.push ms ∧
          List.Forall₂ (fun b v => m.nodes[b]? = some (.var v)) bs ms ∧
          ∀ v, m'.vars[v]? = if v ∈ ms then (m.vars[v]?).map fun info => { info with group := some m.groups.size }
            else m.vars[v]?) := by
  have hbuilt : m.Built := hb.built .empty
  have hcn := hbuilt.constantsNamed
  have hback : m.Backward := hb.keeps (fun hc h => hc.backward h) Backward.empty
  -- a product of nodes returns, and denotes the product when its constants fold exactly
  have hprod : ∀ fs, (∀ f ∈ fs, f < m.nodes.size) → ∃ m' e, m.product fs = .ok (m', e) ∧
      (m.FoldsExactly fs → m'.Denotes e fun val => (fs.map val).prod) := by
    intro fs hfs
    obtain ⟨⟨m', e⟩, hp⟩ := product_exists_ok hfs
    exact ⟨m', e, hp, Denotes.product hcn hp⟩
  refine ⟨hback, fun pa hpa hfull => exists_unique_evaluation hbuilt.wellFormed hback hpa hfull,
    fun c m' h => constant_shared hbuilt c h, Denotes.linear hcn, hprod, Denotes.sum hcn,
    fun a b ha hb => ?_, Denotes.scale hcn, fun _ _ _ _ h => newInt_domain h,
    fun bs => ⟨addExactlyOne_ok_iff, fun _ h => addExactlyOne_groups h⟩⟩
  obtain ⟨m', e, hp, hden⟩ := hprod [a, b] (by simp [ha, hb])
  exact ⟨m', e, hp, fun hx => (hden hx).congr fun _ _ val _ => by simp⟩

/-- A model that every kind of builder call makes: an integer over `[2, 0, 2]`, two booleans in an
exactly-one group, the constants 3 and 0, products of every shape (one with a zero factor, one of
constants only, a single factor, a constant times one node, two nodes, and a constant times two
nodes), a linear sum with a zero term dropped, a linear sum of no term left, the constant 3 asked
for again, and an equality and a bound posted. -/
def tourModel : Model :=
  ⟨#[.var 0, .var 1, .var 2, .const 3, .const 0, .const 9, .linear [(3, 2)] 0, .product [0, 1],
      .product [0, 2], .linear [(3, 8)] 0, .linear [(1, 7), (1, 9)] 1],
    #[⟨"x", 0, [0, 2], false, none⟩, ⟨"a", 1, [0, 1], true, some 0⟩, ⟨"b", 2, [0, 1], true, some 0⟩],
    #[.equal 10 5, .lessEqual 3 10], #[[1, 2]], [(9, 5), (0, 4), (3, 3)]⟩

theorem tourModel_builtFrom : BuiltFrom {} tourModel :=
  .head (.newInt "x" [2, 0, 2] rfl) <| .head (.newBool _ "a") <| .head (.newBool _ "b") <|
  .head (.addExactlyOne [1, 2] rfl) <| .head (.constant _ 3) <| .head (.constant _ 0) <|
  .head (.product [4, 0] rfl) <| .head (.product [3, 3] rfl) <| .head (.product [1] rfl) <|
  .head (.product [3, 2] rfl) <| .head (.product [0, 1] rfl) <| .head (.product [0, 3, 2] rfl) <|
  .head (.linear [(1, 7), (0, 5), (1, 9)] 1 (by decide)) <| .head (.linear [(0, 1)] 3 (by decide)) <|
  .head (.constant _ 3) <| .head (.addEqual 10 5 (by decide) (by decide)) <|
  .head (.addLessEqual 3 10 (by decide) (by decide)) .refl

theorem tourModel_preserves_meaning :
    BuiltFrom {} tourModel ∧ tourModel.Backward ∧
      (∀ pa, tourModel.Partial pa → (∀ v < tourModel.vars.size, pa.getD v none ≠ none) →
        ∃ val, tourModel.Evaluation val ∧ tourModel.Extends val pa ∧
          ∀ val', tourModel.Evaluation val' → tourModel.Extends val' pa → ∀ i < tourModel.nodes.size, val' i = val i) ∧
      (∀ c m', BuiltFrom (tourModel.constant c).1 m' →
        m'.constant c = (m', (tourModel.constant c).2) ∧ m'.nodes[(tourModel.constant c).2]? = some (.const c)) ∧
      (∀ ts c, (tourModel.linear ts c).1.Denotes (tourModel.linear ts c).2
        fun val => c + (ts.map fun t => t.1 * val t.2).sum) ∧
      (∀ fs, (∀ f ∈ fs, f < tourModel.nodes.size) → ∃ m' e, tourModel.product fs = .ok (m', e) ∧
        (tourModel.FoldsExactly fs → m'.Denotes e fun val => (fs.map val).prod)) ∧
      (∀ es, (tourModel.sum es).1.Denotes (tourModel.sum es).2 fun val => (es.map val).sum) ∧
      (∀ a b, a < tourModel.nodes.size → b < tourModel.nodes.size → ∃ m' e, tourModel.mul a b = .ok (m', e) ∧
        (tourModel.FoldsExactly [a, b] → m'.Denotes e fun val => val a * val b)) ∧
      (∀ e f, (tourModel.scale e f).1.Denotes (tourModel.scale e f).2 fun val => f * val e) ∧
      (∀ name dom m' e, tourModel.newInt name dom = .ok (m', e) → ∃ v info, m'.nodes[e]? = some (.var v) ∧
        m'.vars[v]? = some info ∧ info.domain.Pairwise (· < ·) ∧ ∀ a, a ∈ info.domain ↔ a ∈ dom) ∧
      (∀ bs, ((∃ m', tourModel.addExactlyOne bs = .ok m') ↔ bs ≠ [] ∧ ∀ b ∈ bs, tourModel.FreeBool b) ∧
        ∀ m', tourModel.addExactlyOne bs = .ok m' → ∃ ms, m'.groups = tourModel.groups.push ms ∧
          List.Forall₂ (fun b v => tourModel.nodes[b]? = some (.var v)) bs ms ∧
          ∀ v, m'.vars[v]? = if v ∈ ms then (tourModel.vars[v]?).map fun info => { info with group := some tourModel.groups.size }
            else tourModel.vars[v]?) :=
  ⟨tourModel_builtFrom, builders_preserve_meaning tourModel_builtFrom⟩

end Model

end TileSched
