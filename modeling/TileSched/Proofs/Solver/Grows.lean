import TileSched.Proofs.Solver.Minimize
/-! Models only grow. Every builder appends nodes, constraints or groups and changes none that
is there, so what an expression denotes, and every constraint and group posted, carries over to
every model built on from it. The builders' results denote what they are asked for: a constant
its value, a sum the sum of its terms, a product of a variable and a word the product. -/

namespace TileSched

namespace Model

def VarsKept (vs vs' : Array Var) : Prop :=
  ∀ (v : Nat) (info : Var), vs[v]? = some info →
    ∃ info', vs'[v]? = some info' ∧ info'.expr = info.expr ∧ info'.domain = info.domain

namespace VarsKept

theorem refl (vs : Array Var) : VarsKept vs vs := fun _ info h => ⟨info, h, rfl, rfl⟩

theorem trans {vs₁ vs₂ vs₃ : Array Var} (h₁ : VarsKept vs₁ vs₂) (h₂ : VarsKept vs₂ vs₃) : VarsKept vs₁ vs₃ := by
  intro v info h
  obtain ⟨info₂, h₂', he₂, hd₂⟩ := h₁ v info h
  obtain ⟨info₃, h₃, he₃, hd₃⟩ := h₂ v info₂ h₂'
  exact ⟨info₃, h₃, he₃.trans he₂, hd₃.trans hd₂⟩

theorem push (vs : Array Var) (x : Var) : VarsKept vs (vs.push x) := by
  intro v info h
  have hv : v < vs.size := (Array.getElem?_eq_some_iff.1 h).1
  refine ⟨info, ?_, rfl, rfl⟩
  rw [Array.getElem?_push, if_neg (Nat.ne_of_lt hv)]
  exact h

theorem foldl_modify {f : Var → Var} (hf : ∀ x, (f x).expr = x.expr ∧ (f x).domain = x.domain) :
    ∀ (l : List Nat) (vs : Array Var), VarsKept vs (l.foldl (fun vs i => vs.modify i f) vs)
  | [], vs => refl vs
  | i :: l, vs => by
    refine VarsKept.trans (fun v info h => ?_) (foldl_modify hf l _)
    rw [Array.getElem?_modify]
    split
    · rw [h]
      exact ⟨f info, rfl, (hf info).1, (hf info).2⟩
    · exact ⟨info, h, rfl, rfl⟩

end VarsKept

structure Grows (m m' : Model) : Prop where
  nodes : ∀ (i : Nat) (n : Node), m.nodes[i]? = some n → m'.nodes[i]? = some n
  constraints : ∀ c ∈ m.constraints, c ∈ m'.constraints
  groups : ∀ ms ∈ m.groups, ms ∈ m'.groups
  vars : VarsKept m.vars m'.vars

def factorStep (m : Model) (acc : Int × List Nat) (f : Nat) : Except Fault (Int × List Nat) := do
  match ← entryAt m.nodes f with
  | .const k => pure (I64.satMul acc.1 k, acc.2)
  | _ => pure (acc.1, acc.2 ++ [f])

def ConstantsNamed (m : Model) : Prop :=
  ∀ c e, (c, e) ∈ m.constants → m.nodes[e]? = some (.const c)

def WordConst (m : Model) (e : Nat) : Prop :=
  ∃ n, m.nodes[e]? = some n ∧ ∀ k, n = .const k → InInterval k (I64.min, I64.max)

def Denotes (m : Model) (e : Nat) (F : (Nat → Int) → Int) : Prop :=
  ∀ m', m.Grows m' → ∀ val, m'.Evaluation val → val e = F val

variable {m m₁ m₂ m' : Model}

theorem getElem?_push_of_some {n n' : Node} {i : Nat} (h : m.nodes[i]? = some n') :
    (m.push n).1.nodes[i]? = some n' := by
  have hi : i < m.nodes.size := (Array.getElem?_eq_some_iff.1 h).1
  simp only [Model.push, Array.getElem?_push, Nat.ne_of_lt hi, if_false]
  exact h

theorem getElem?_push_self (n : Node) : (m.push n).1.nodes[(m.push n).2]? = some n := by
  simp [Model.push]

theorem newInt_var {name : String} {d : List Int} {e : Nat} (h : m.newInt name d = .ok (m', e)) :
    ∃ v, m'.nodes[e]? = some (.var v) := by
  unfold Model.newInt at h
  split at h
  · cases h
  · cases h
    exact ⟨_, getElem?_push_self _⟩

theorem product_cases {fs : List Nat} {r : Model × Nat} (h : m.product fs = .ok r) :
    ∃ c rest, fs.foldlM m.factorStep (1, []) = .ok (c, rest) ∧
      ((c = 0 ∧ r = m.constant 0) ∨ (c ≠ 0 ∧ rest = [] ∧ r = m.constant c) ∨
        (c ≠ 0 ∧ ∃ f, rest = [f] ∧ ((c = 1 ∧ r = (m, f)) ∨ (c ≠ 1 ∧ r = m.linear [(c, f)] 0))) ∨
        (c ≠ 0 ∧ (∀ f, rest ≠ [f]) ∧ rest ≠ [] ∧
          ((c = 1 ∧ r = m.push (.product rest)) ∨
            (c ≠ 1 ∧ r = (m.push (.product rest)).1.linear [(c, (m.push (.product rest)).2)] 0)))) := by
  unfold Model.product at h
  obtain ⟨⟨c, rest⟩, hfold, h⟩ := bind_eq_ok.1 h
  refine ⟨c, rest, hfold, ?_⟩
  dsimp only at h
  split at h
  · exact .inl ⟨‹_›, (pure_eq_ok.1 h).symm⟩
  · rename_i hc
    split at h
    · exact .inr (.inl ⟨hc, rfl, (pure_eq_ok.1 h).symm⟩)
    · rename_i f
      refine .inr (.inr (.inl ⟨hc, f, rfl, ?_⟩))
      split at h
      · exact .inl ⟨‹_›, (pure_eq_ok.1 h).symm⟩
      · exact .inr ⟨‹_›, (pure_eq_ok.1 h).symm⟩
    · rename_i hnil hone
      refine .inr (.inr (.inr ⟨hc, fun f hf => hone f hf, fun hn => hnil hn, ?_⟩))
      split at h
      · exact .inl ⟨‹_›, (pure_eq_ok.1 h).symm⟩
      · exact .inr ⟨‹_›, (pure_eq_ok.1 h).symm⟩

theorem mem_of_lookup {c : Int} {e : Nat} : ∀ {l : List (Int × Nat)}, l.lookup c = some e → (c, e) ∈ l
  | [], h => by cases h
  | (a, b) :: l, h => by
    rw [List.lookup_cons] at h
    split at h
    · cases h
      rename_i hca
      rw [beq_iff_eq.1 hca]
      exact List.mem_cons_self
    · exact List.mem_cons_of_mem _ (mem_of_lookup h)

theorem clamp_word (v : Int) : InInterval (I64.clamp v) (I64.min, I64.max) := by
  simp only [InInterval, I64.clamp, I64.min, I64.max]
  split_ifs <;> omega

theorem product_model (P : Model → Prop) {fs : List Nat} {e : Nat} (h : m.product fs = .ok (m', e))
    (hm : P m) (hc : ∀ c, P (m.constant c).1) (hl : ∀ c f, P (m.linear [(c, f)] 0).1)
    (hp : ∀ rest, P (m.push (.product rest)).1)
    (hpl : ∀ rest c, P ((m.push (.product rest)).1.linear [(c, (m.push (.product rest)).2)] 0).1) :
    P m' := by
  have fst : ∀ r : Model × Nat, (m', e) = r → P r.1 → P m' := fun r hr h => by
    subst hr
    exact h
  obtain ⟨c, rest, -, hr⟩ := product_cases h
  rcases hr with ⟨-, hr⟩ | ⟨-, -, hr⟩ | ⟨-, f, -, ⟨-, hr⟩ | ⟨-, hr⟩⟩ | ⟨-, -, -, ⟨-, hr⟩ | ⟨-, hr⟩⟩
  · exact fst _ hr (hc 0)
  · exact fst _ hr (hc c)
  · exact fst _ hr hm
  · exact fst _ hr (hl c f)
  · exact fst _ hr (hp rest)
  · exact fst _ hr (hpl rest c)

theorem addExactlyOne_spec {bs : List Nat} (h : m.addExactlyOne bs = .ok m') :
    m'.nodes = m.nodes ∧ ∃ ms, m'.groups = m.groups.push ms ∧
      List.Forall₂ (fun e v => m.nodes[e]? = some (.var v)) bs ms := by
  unfold Model.addExactlyOne at h
  dsimp only at h
  split at h
  · cases h
  obtain ⟨members, hmap, h⟩ := bind_eq_ok.1 h
  rw [pure_eq_ok] at h
  subst h
  refine ⟨rfl, members, rfl, (mapM_ok_forall₂ hmap).imp fun e v he => ?_⟩
  -- a member passed the checks only if it names a variable node
  split at he
  · rename_i v' hv
    split at he
    · split at he
      · cases he
      · split at he
        · cases he
        · rw [pure_eq_ok] at he
          subst he
          exact varOf?_eq_some.1 hv
    · cases he
  · cases he

namespace Grows

theorem refl (m : Model) : m.Grows m := ⟨fun _ _ h => h, fun _ h => h, fun _ h => h, VarsKept.refl _⟩

theorem trans (h₁ : m.Grows m₁) (h₂ : m₁.Grows m₂) : m.Grows m₂ :=
  ⟨fun i n h => h₂.nodes i n (h₁.nodes i n h), fun c h => h₂.constraints c (h₁.constraints c h),
    fun ms h => h₂.groups ms (h₁.groups ms h), h₁.vars.trans h₂.vars⟩

theorem push (m : Model) (n : Node) : m.Grows (m.push n).1 :=
  ⟨fun _ _ h => getElem?_push_of_some h, fun _ h => h, fun _ h => h, VarsKept.refl _⟩

theorem constant (m : Model) (c : Int) : m.Grows (m.constant c).1 := by
  unfold Model.constant
  split
  · exact refl m
  · exact ⟨fun _ _ h => getElem?_push_of_some h, fun _ h => h, fun _ h => h, VarsKept.refl _⟩

theorem linear (m : Model) (ts : List (Int × Nat)) (c : Int) : m.Grows (m.linear ts c).1 := by
  unfold Model.linear
  dsimp only
  split
  · exact constant m c
  · exact push m _

theorem newVar (m : Model) (name : String) (d : List Int) (isBool : Bool) :
    m.Grows (m.newVar name d isBool).1 :=
  ⟨fun _ _ h => getElem?_push_of_some h, fun _ h => h, fun _ h => h, VarsKept.push _ _⟩

theorem newBool (m : Model) (name : String) : m.Grows (m.newBool name).1 := newVar m name _ _

theorem newInt {name : String} {d : List Int} {e : Nat} (h : m.newInt name d = .ok (m', e)) :
    m.Grows m' := by
  unfold Model.newInt at h
  split at h
  · cases h
  · cases h
    exact newVar m name d false

theorem product {fs : List Nat} {e : Nat} (h : m.product fs = .ok (m', e)) : m.Grows m' :=
  product_model (m.Grows ·) h (refl m) (constant m) (fun _ _ => linear m _ 0) (fun _ => push m _)
    (fun _ _ => (push m _).trans (linear _ _ 0))

theorem mul {a b e : Nat} (h : m.mul a b = .ok (m', e)) : m.Grows m' := product h

theorem scale (m : Model) (e : Nat) (f : Int) : m.Grows (m.scale e f).1 := by
  unfold Model.scale
  split
  · exact refl m
  · exact linear m _ 0

theorem sum (m : Model) (es : List Nat) : m.Grows (m.sum es).1 := by
  unfold Model.sum
  split
  · exact constant m 0
  · exact refl m
  · exact linear m _ 0

theorem addEqual (m : Model) (a b : Nat) : m.Grows (m.addEqual a b) :=
  ⟨fun _ _ h => h, fun _ h => Array.mem_push_of_mem _ h, fun _ h => h, VarsKept.refl _⟩

theorem addLessEqual (m : Model) (a b : Nat) : m.Grows (m.addLessEqual a b) :=
  ⟨fun _ _ h => h, fun _ h => Array.mem_push_of_mem _ h, fun _ h => h, VarsKept.refl _⟩

theorem size_le (h : m.Grows m') : m.nodes.size ≤ m'.nodes.size := by
  rcases Nat.eq_zero_or_pos m.nodes.size with h0 | hpos
  · omega
  · have hlast : m.nodes[m.nodes.size - 1]? = some m.nodes[m.nodes.size - 1] :=
      Array.getElem?_eq_getElem (by omega)
    have := (Array.getElem?_eq_some_iff.1 (h.nodes _ _ hlast)).1
    omega

theorem addExactlyOne {bs : List Nat} (h : m.addExactlyOne bs = .ok m') : m.Grows m' := by
  unfold Model.addExactlyOne at h
  dsimp only at h
  split at h
  · cases h
  obtain ⟨members, -, h⟩ := bind_eq_ok.1 h
  cases pure_eq_ok.1 h
  exact ⟨fun _ _ h => h, fun _ h => h, fun _ h => Array.mem_push_of_mem _ h,
    VarsKept.foldl_modify (f := fun info => { info with group := some m.groups.size }) (fun _ => ⟨rfl, rfl⟩) _ _⟩

end Grows

namespace ConstantsNamed

theorem of_grows (h : m.ConstantsNamed) (hg : m.Grows m') (hc : m'.constants = m.constants) :
    m'.ConstantsNamed :=
  fun c e he => hg.nodes _ _ (h c e (hc ▸ he))

theorem push (h : m.ConstantsNamed) (n : Node) : (m.push n).1.ConstantsNamed :=
  h.of_grows (Grows.push m n) rfl

theorem constant (h : m.ConstantsNamed) (c : Int) : (m.constant c).1.ConstantsNamed := by
  unfold Model.constant
  split
  · exact h
  · intro c' e he
    rcases List.mem_cons.1 he with he | he
    · cases he
      exact getElem?_push_self _
    · exact getElem?_push_of_some (h c' e he)

theorem linear (h : m.ConstantsNamed) (ts : List (Int × Nat)) (c : Int) :
    (m.linear ts c).1.ConstantsNamed := by
  unfold Model.linear
  dsimp only
  split
  · exact h.constant c
  · exact h.push _

theorem product (h : m.ConstantsNamed) {fs : List Nat} {e : Nat} (hp : m.product fs = .ok (m', e)) :
    m'.ConstantsNamed :=
  product_model ConstantsNamed hp h h.constant (fun _ _ => h.linear _ 0) (fun _ => h.push _)
    (fun _ _ => (h.push _).linear _ 0)

end ConstantsNamed

theorem Built.constantsNamed (h : m.Built) : m.ConstantsNamed := by
  induction h with
  | empty => intro c e he; cases he
  | newInt name dom _ hnew ih =>
    unfold Model.newInt at hnew
    split at hnew
    · cases hnew
    · cases hnew
      exact ih.of_grows (Grows.newVar _ name dom false) rfl
  | newBool name _ ih => exact ih.of_grows (Grows.newBool _ name) rfl
  | constant c _ ih => exact ih.constant c
  | linear ts c _ ih => exact ih.linear ts c
  | product fs _ hp ih => exact ih.product hp
  | addEqual a b _ ih => exact ih
  | addLessEqual a b _ ih => exact ih
  | addExactlyOne bs _ hx ih =>
    refine ih.of_grows (Grows.addExactlyOne hx) ?_
    unfold Model.addExactlyOne at hx
    dsimp only at hx
    split at hx
    · cases hx
    obtain ⟨members, -, hx⟩ := bind_eq_ok.1 hx
    rw [← pure_eq_ok.1 hx]

namespace WordConst

theorem grows (h : m.WordConst e) (hg : m.Grows m') : m'.WordConst e := by
  obtain ⟨n, hn, hk⟩ := h
  exact ⟨n, hg.nodes _ _ hn, hk⟩

theorem push_self {n : Node} (hn : ∀ k, n ≠ .const k) : (m.push n).1.WordConst (m.push n).2 :=
  ⟨n, getElem?_push_self n, fun k hk => absurd hk (hn k)⟩

theorem constant (hcn : m.ConstantsNamed) {c : Int} (hc : InInterval c (I64.min, I64.max)) :
    (m.constant c).1.WordConst (m.constant c).2 := by
  unfold Model.constant
  split
  · rename_i e he
    exact ⟨_, hcn c e (mem_of_lookup he), fun k hk => by cases hk; exact hc⟩
  · exact ⟨_, getElem?_push_self _, fun k hk => by cases hk; exact hc⟩

theorem linear (hcn : m.ConstantsNamed) (ts : List (Int × Nat)) {c : Int}
    (hc : InInterval c (I64.min, I64.max)) : (m.linear ts c).1.WordConst (m.linear ts c).2 := by
  unfold Model.linear
  dsimp only
  split
  · exact constant hcn hc
  · exact push_self fun _ h => by cases h

theorem word_zero : InInterval 0 (I64.min, I64.max) := by
  simp [InInterval, I64.min, I64.max]

theorem scale (hcn : m.ConstantsNamed) (he : m.WordConst e) (f : Int) :
    (m.scale e f).1.WordConst (m.scale e f).2 := by
  unfold Model.scale
  split
  · exact he
  · exact linear hcn _ word_zero

theorem product (hcn : m.ConstantsNamed) {fs : List Nat} (h : m.product fs = .ok (m', e)) :
    m'.WordConst e := by
  have pair : ∀ r : Model × Nat, (m', e) = r → r.1.WordConst r.2 → m'.WordConst e := by
    intro r hr h
    subst hr
    exact h
  obtain ⟨c, rest, hfold, hr⟩ := product_cases h
  have inv := foldlM_ok_inv (fun acc : Int × List Nat => InInterval acc.1 (I64.min, I64.max) ∧
      ∀ f ∈ acc.2, ∃ n, m.nodes[f]? = some n ∧ ∀ k, n ≠ .const k) hfold
    ⟨by simp [InInterval, I64.min, I64.max], by simp⟩ (by
      intro acc f acc' _ hacc hstep
      obtain ⟨n, hn, hstep⟩ := bind_eq_ok.1 hstep
      split at hstep <;> rw [pure_eq_ok] at hstep <;> subst hstep
      · exact ⟨clamp_word _, hacc.2⟩
      · refine ⟨hacc.1, fun g hg => ?_⟩
        rcases List.mem_append.1 hg with hg | hg
        · exact hacc.2 g hg
        · rw [List.mem_singleton.1 hg]
          exact ⟨_, entryAt_eq_ok.1 hn, fun k hk => ‹∀ k, n = Node.const k → False› k hk⟩)
  obtain ⟨hc, hrest⟩ := inv
  rcases hr with ⟨-, hr⟩ | ⟨-, -, hr⟩ | ⟨-, f, rfl, ⟨-, hr⟩ | ⟨-, hr⟩⟩ | ⟨-, -, -, ⟨-, hr⟩ | ⟨-, hr⟩⟩
  · exact pair _ hr (constant hcn word_zero)
  · exact pair _ hr (constant hcn hc)
  · obtain ⟨n, hn, hk⟩ := hrest f List.mem_cons_self
    exact pair _ hr ⟨n, hn, fun k h => absurd h (hk k)⟩
  · exact pair _ hr (linear hcn _ word_zero)
  · exact pair _ hr (push_self fun _ h => by cases h)
  · exact pair _ hr (linear (hcn.push _) _ word_zero)

end WordConst

theorem getElem?_constant (hcn : m.ConstantsNamed) (c : Int) :
    (m.constant c).1.nodes[(m.constant c).2]? = some (.const c) := by
  unfold Model.constant
  split
  · rename_i e he
    exact hcn c e (mem_of_lookup he)
  · exact getElem?_push_self _

def UnitConst (m : Model) (e : Nat) : Prop :=
  ∃ n, m.nodes[e]? = some n ∧ ∀ k, n = .const k → k = 1

namespace UnitConst

theorem grows (h : m.UnitConst e) (hg : m.Grows m') : m'.UnitConst e := by
  obtain ⟨n, hn, hk⟩ := h
  exact ⟨n, hg.nodes _ _ hn, hk⟩

theorem of_var {v : Nat} (h : m.nodes[e]? = some (.var v)) : m.UnitConst e :=
  ⟨_, h, fun _ hk => by cases hk⟩

theorem one (hcn : m.ConstantsNamed) : (m.constant 1).1.UnitConst (m.constant 1).2 :=
  ⟨_, getElem?_constant hcn 1, fun _ hk => by cases hk; rfl⟩

theorem product (hcn : m.ConstantsNamed) {fs : List Nat} (hfs : ∀ f ∈ fs, m.UnitConst f)
    (h : m.product fs = .ok (m', e)) : m'.UnitConst e := by
  have pair : ∀ r : Model × Nat, (m', e) = r → r.1.UnitConst r.2 → m'.UnitConst e := by
    intro r hr h
    subst hr
    exact h
  obtain ⟨c, rest, hfold, hr⟩ := product_cases h
  have inv := foldlM_ok_inv (fun acc : Int × List Nat => acc.1 = 1 ∧
      ∀ f ∈ acc.2, ∃ n, m.nodes[f]? = some n ∧ ∀ k, n ≠ .const k) hfold ⟨rfl, by simp⟩ (by
      intro acc f acc' hf hacc hstep
      obtain ⟨n, hn, hstep⟩ := bind_eq_ok.1 hstep
      obtain ⟨n', hn', hk⟩ := hfs f hf
      rw [entryAt_eq_ok.1 hn] at hn'
      cases hn'
      split at hstep <;> rw [pure_eq_ok] at hstep <;> subst hstep
      · rw [hk _ rfl, hacc.1]
        exact ⟨rfl, hacc.2⟩
      · refine ⟨hacc.1, fun g hg => ?_⟩
        rcases List.mem_append.1 hg with hg | hg
        · exact hacc.2 g hg
        · rw [List.mem_singleton.1 hg]
          exact ⟨_, entryAt_eq_ok.1 hn, fun k hk => ‹∀ k, n = Node.const k → False› k hk⟩)
  obtain ⟨hc, hrest⟩ := inv
  subst hc
  rcases hr with ⟨h0, -⟩ | ⟨-, -, hr⟩ | ⟨-, f, rfl, ⟨-, hr⟩ | ⟨h1, -⟩⟩ | ⟨-, -, -, ⟨-, hr⟩ | ⟨h1, -⟩⟩
  · cases h0
  · exact pair _ hr (one hcn)
  · obtain ⟨n, hn, hk⟩ := hrest f List.mem_cons_self
    exact pair _ hr ⟨n, hn, fun k h => absurd h (hk k)⟩
  · exact absurd rfl h1
  · exact pair _ hr ⟨_, getElem?_push_self _, fun _ h => by cases h⟩
  · exact absurd rfl h1

end UnitConst

theorem sum_filter_coeff (val : Nat → Int) : ∀ ts : List (Int × Nat),
    ((ts.filter (·.1 != 0)).map fun t => t.1 * val t.2).sum = (ts.map fun t => t.1 * val t.2).sum
  | [] => rfl
  | t :: ts => by
    by_cases h : t.1 = 0
    · simp [h, sum_filter_coeff val ts]
    · simp [h, sum_filter_coeff val ts]

namespace Denotes

variable {e : Nat} {F G : (Nat → Int) → Int}

theorem grows (h : m.Denotes e F) (hg : m.Grows m') : m'.Denotes e F :=
  fun m'' hg' val hval => h m'' (hg.trans hg') val hval

theorem congr (h : m.Denotes e F)
    (hF : ∀ m', m.Grows m' → ∀ val, m'.Evaluation val → F val = G val) : m.Denotes e G :=
  fun m' hg val hval => (h m' hg val hval).trans (hF m' hg val hval)

theorem self (m : Model) (e : Nat) : m.Denotes e (· e) := fun _ _ _ _ => rfl

theorem of_node {n : Node} (hn : m.nodes[e]? = some n) (hF : ∀ val, n.Holds val e → val e = F val) :
    m.Denotes e F :=
  fun _ hg val hval => hF val (hval.derived e n (hg.nodes e n hn))

theorem constant (hcn : m.ConstantsNamed) (c : Int) :
    (m.constant c).1.Denotes (m.constant c).2 fun _ => c := by
  unfold Model.constant
  split
  · rename_i e he
    exact of_node (hcn c e (mem_of_lookup he)) fun _ h => h
  · exact of_node (getElem?_push_self _) fun _ h => h

theorem linear (hcn : m.ConstantsNamed) (ts : List (Int × Nat)) (c : Int) :
    (m.linear ts c).1.Denotes (m.linear ts c).2 fun val => c + (ts.map fun t => t.1 * val t.2).sum := by
  unfold Model.linear
  dsimp only
  split
  · rename_i hempty
    refine (constant hcn c).congr fun _ _ val _ => ?_
    rw [← sum_filter_coeff val ts, List.isEmpty_iff.1 hempty]
    simp
  · exact of_node (getElem?_push_self _) fun val h => by rw [h, sum_filter_coeff]

theorem sum (hcn : m.ConstantsNamed) (es : List Nat) :
    (m.sum es).1.Denotes (m.sum es).2 fun val => (es.map val).sum := by
  unfold Model.sum
  split
  · exact (constant hcn 0).congr fun _ _ _ _ => rfl
  · exact (self m _).congr fun _ _ _ _ => by simp
  · exact (linear hcn _ 0).congr fun _ _ _ _ => by simp [Function.comp_def]

theorem mul_var (hcn : m.ConstantsNamed) {a b v : Nat} (ha : m.nodes[a]? = some (.var v))
    (hb : m.WordConst b) (h : m.mul a b = .ok (m', e)) : m'.Denotes e fun val => val a * val b := by
  have pair : ∀ r : Model × Nat, (m', e) = r → r.1.Denotes r.2 (fun val => val a * val b) →
      m'.Denotes e fun val => val a * val b := by
    intro r hr h
    subst hr
    exact h
  obtain ⟨nb, hnb, hk⟩ := hb
  obtain ⟨c, rest, hfold, hr⟩ := product_cases h
  have hA : m.factorStep (1, []) a = .ok (1, [a]) := by
    simp only [factorStep, entryAt_eq_ok.2 ha]
    rfl
  -- the fold keeps `a`, and folds `b` into the coefficient exactly when it is a constant
  rw [List.foldlM_cons] at hfold
  obtain ⟨acc₁, h₁, hfold⟩ := bind_eq_ok.1 hfold
  rw [hA] at h₁
  cases h₁
  rw [List.foldlM_cons] at hfold
  obtain ⟨acc, hB, hfold⟩ := bind_eq_ok.1 hfold
  rw [List.foldlM_nil, pure_eq_ok] at hfold
  subst hfold
  unfold factorStep at hB
  rw [entryAt_eq_ok.2 hnb] at hB
  obtain ⟨n, hn, hB⟩ := bind_eq_ok.1 hB
  cases hn
  by_cases hconst : ∃ k, nb = .const k
  · obtain ⟨k, rfl⟩ := hconst
    dsimp only at hB
    rw [pure_eq_ok] at hB
    cases hB
    have hbk : m.Denotes b fun _ => k := of_node hnb fun _ h => h
    have hck : I64.satMul 1 k = k := by rw [I64.satMul, Int.one_mul, clamp_of_word (hk k rfl)]
    rw [hck] at hr
    rcases hr with ⟨h0, hr⟩ | ⟨-, h, -⟩ | ⟨-, f, hf, ⟨h1, hr⟩ | ⟨h1, hr⟩⟩ | ⟨-, hone, -⟩
    · subst h0
      refine pair _ hr ((constant hcn 0).congr fun m'' hg val hval => ?_)
      rw [hbk.grows (Grows.constant m 0) m'' hg val hval, Int.mul_zero]
    · cases h
    · cases hf
      subst h1
      refine pair _ hr ((self m a).congr fun m'' hg val hval => ?_)
      rw [hbk m'' hg val hval, Int.mul_one]
    · cases hf
      refine pair _ hr ((linear hcn _ 0).congr fun m'' hg val hval => ?_)
      rw [hbk.grows (Grows.linear m _ 0) m'' hg val hval]
      simp [Int.mul_comm]
    · exact absurd rfl (hone a)
  · split at hB
    · exact absurd ⟨_, rfl⟩ hconst
    rw [pure_eq_ok] at hB
    cases hB
    dsimp only at hr
    rcases hr with ⟨h0, -⟩ | ⟨-, h, -⟩ | ⟨-, f, hf, -⟩ | ⟨-, -, -, ⟨-, hr⟩ | ⟨h1, -⟩⟩
    · cases h0
    · cases h
    · cases hf
    · exact pair _ hr (of_node (getElem?_push_self _) fun val h => by simpa [Node.Holds] using h)
    · exact absurd rfl h1

theorem product_fold (hcn : m.ConstantsNamed) {fs rest : List Nat} {c : Int}
    (h : m.product fs = .ok (m', e)) (hfold : fs.foldlM m.factorStep (1, []) = .ok (c, rest))
    (hF : ∀ m'', m.Grows m'' → ∀ val, m''.Evaluation val → F val = c * (rest.map val).prod) :
    m'.Denotes e F := by
  have pair : ∀ r : Model × Nat, (m', e) = r → r.1.Denotes r.2 F → m'.Denotes e F := by
    intro r hr h
    subst hr
    exact h
  obtain ⟨c', rest', hfold', hr⟩ := product_cases h
  rw [hfold] at hfold'
  obtain ⟨rfl, rfl⟩ := Prod.mk.inj (Except.ok.inj hfold')
  rcases hr with ⟨rfl, hr⟩ | ⟨-, rfl, hr⟩ | ⟨-, f, rfl, ⟨rfl, hr⟩ | ⟨-, hr⟩⟩ |
      ⟨-, -, -, ⟨rfl, hr⟩ | ⟨-, hr⟩⟩
  · exact pair _ hr ((constant hcn 0).congr fun m'' hg val hval => by
      rw [hF m'' ((Grows.constant m 0).trans hg) val hval, Int.zero_mul])
  · exact pair _ hr ((constant hcn c).congr fun m'' hg val hval => by
      rw [hF m'' ((Grows.constant m c).trans hg) val hval]
      simp)
  · exact pair _ hr ((self m f).congr fun m'' hg val hval => by
      rw [hF m'' hg val hval]
      simp)
  · exact pair _ hr ((linear hcn _ 0).congr fun m'' hg val hval => by
      rw [hF m'' ((Grows.linear m _ 0).trans hg) val hval]
      simp)
  · -- one new product node of the factors kept
    refine pair _ hr ((self _ _).congr fun m'' hg val hval => ?_)
    have hp : val (m.push (.product rest)).2 = (rest.map val).prod :=
      hval.derived _ (.product rest) (hg.nodes _ _ (getElem?_push_self _))
    rw [hF m'' ((Grows.push m _).trans hg) val hval, Int.one_mul, hp]
  · -- that node scaled by the coefficient
    refine pair _ hr ((linear (hcn.push _) _ 0).congr fun m'' hg val hval => ?_)
    have hp : val (m.push (.product rest)).2 = (rest.map val).prod :=
      hval.derived _ (.product rest) (((Grows.linear _ _ 0).trans hg).nodes _ _ (getElem?_push_self _))
    rw [hF m'' (((Grows.push m _).trans (Grows.linear _ _ 0)).trans hg) val hval, ← hp]
    simp

theorem mul_unit (hcn : m.ConstantsNamed) {a b : Nat} (ha : m.WordConst a) (hb : m.UnitConst b)
    (h : m.mul a b = .ok (m', e)) : m'.Denotes e fun val => val a * val b := by
  obtain ⟨c, rest, hfold, -⟩ := product_cases h
  refine product_fold hcn h hfold fun m'' hg val hval => ?_
  obtain ⟨na, hna, hka⟩ := ha
  obtain ⟨nb, hnb, hkb⟩ := hb
  -- the factors' values: a constant's is its value, and b's is one when it is a constant
  have hva : ∀ k, na = .const k → val a = k := fun k hk =>
    hval.derived a (.const k) (hg.nodes _ _ (hk ▸ hna))
  have hvb : ∀ k, nb = .const k → val b = 1 := fun k hk => by
    have hv : val b = k := hval.derived b (.const k) (hg.nodes _ _ (hk ▸ hnb))
    rw [hv, hkb k hk]
  rw [List.foldlM_cons] at hfold
  obtain ⟨acc, hA, hfold⟩ := bind_eq_ok.1 hfold
  rw [List.foldlM_cons] at hfold
  obtain ⟨acc', hB, hfold⟩ := bind_eq_ok.1 hfold
  rw [List.foldlM_nil, pure_eq_ok] at hfold
  obtain ⟨rfl, rfl⟩ := Prod.mk.inj hfold
  unfold factorStep at hA hB
  rw [entryAt_eq_ok.2 hna] at hA
  rw [entryAt_eq_ok.2 hnb] at hB
  obtain ⟨n, hn, hA₁⟩ := bind_eq_ok.1 hA
  cases hn
  obtain ⟨n, hn, hB₁⟩ := bind_eq_ok.1 hB
  cases hn
  clear hA hB
  -- a word constant becomes the coefficient, any other node is kept
  have hA' : (∃ k, na = .const k ∧ acc = (k, [])) ∨ ((∀ k, na ≠ .const k) ∧ acc = (1, [a])) := by
    split at hA₁
    · rename_i k
      rw [pure_eq_ok] at hA₁
      refine .inl ⟨k, rfl, ?_⟩
      rw [← hA₁, I64.satMul, Int.one_mul, clamp_of_word (hka k rfl)]
    · rename_i hne
      rw [pure_eq_ok] at hA₁
      exact .inr ⟨hne, by rw [← hA₁]; rfl⟩
  have hword : InInterval acc.1 (I64.min, I64.max) := by
    rcases hA' with ⟨k, rfl, rfl⟩ | ⟨-, rfl⟩
    · exact hka k rfl
    · simp [InInterval, I64.min, I64.max]
  -- the constant one leaves the coefficient as it is
  have hB' : (∃ k, nb = .const k ∧ acc' = acc) ∨ ((∀ k, nb ≠ .const k) ∧ acc' = (acc.1, acc.2 ++ [b])) := by
    split at hB₁
    · rename_i k
      rw [pure_eq_ok] at hB₁
      refine .inl ⟨k, rfl, ?_⟩
      rw [← hB₁, hkb k rfl, I64.satMul, Int.mul_one, clamp_of_word hword]
    · rename_i hne
      rw [pure_eq_ok] at hB₁
      exact .inr ⟨hne, hB₁.symm⟩
  rcases hA' with ⟨k, rfl, rfl⟩ | ⟨-, rfl⟩ <;> rcases hB' with ⟨k', rfl, rfl⟩ | ⟨-, rfl⟩
  · simp [hva k rfl, hvb k' rfl]
  · simp [hva k rfl]
  · simp [hvb k' rfl]
  · simp

end Denotes

def SumsTo (m : Model) (es : List Nat) (F : (Nat → Int) → Int) : Prop :=
  ∀ m', m.Grows m' → ∀ val, m'.Evaluation val → (es.map val).sum = F val

namespace SumsTo

variable {es es' : List Nat} {F G : (Nat → Int) → Int}

theorem grows (h : m.SumsTo es F) (hg : m.Grows m') : m'.SumsTo es F :=
  fun m'' hg' val hval => h m'' (hg.trans hg') val hval

theorem congr (h : m.SumsTo es F) (hF : ∀ val, F val = G val) : m.SumsTo es G :=
  fun m' hg val hval => (h m' hg val hval).trans (hF val)

theorem append (h : m.SumsTo es F) (h' : m.SumsTo es' G) :
    m.SumsTo (es ++ es') fun val => F val + G val := fun m' hg val hval => by
  rw [List.map_append, List.sum_append, h m' hg val hval, h' m' hg val hval]

theorem of_forall₂ {γ : Type} {H : γ → (Nat → Int) → Int} :
    ∀ {xs : List γ} {es : List Nat}, List.Forall₂ (fun x e => m.Denotes e (H x)) xs es →
      m.SumsTo es fun val => (xs.map (H · val)).sum
  | [], [], .nil => fun _ _ _ _ => rfl
  | _ :: _, _ :: _, .cons hd tl => fun m' hg val hval => by
    simp only [List.map_cons, List.sum_cons]
    rw [hd m' hg val hval, of_forall₂ tl m' hg val hval]

theorem sum (hcn : m.ConstantsNamed) (h : m.SumsTo es F) : (m.sum es).1.Denotes (m.sum es).2 F :=
  (Denotes.sum hcn es).congr fun m' hg val hval => h m' ((Grows.sum m es).trans hg) val hval

end SumsTo

end Model

end TileSched

