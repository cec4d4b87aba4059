import TileSched.Solver.Model
import TileSched.Proofs.Results
/-! Models built by the builder operations, with any expression names as arguments, and the
shape every such model has: a product refers to earlier nodes, every variable and its node name
each other, domains are sorted without repeats, booleans range over zero and one, and an
exactly-one group holds booleans of that group. -/

namespace TileSched

theorem mem_dedupSorted {a : Int} {l : List Int} : a ∈ dedupSorted l ↔ a ∈ l := by
  fun_induction dedupSorted l with
  | case1 y rest ih => rw [ih]; simp
  | case2 x y rest _ ih => rw [List.mem_cons, ih, ← List.mem_cons]
  | case3 => rfl

theorem pairwise_dedupSorted {l : List Int} (h : l.Pairwise (· ≤ ·)) :
    (dedupSorted l).Pairwise (· < ·) := by
  fun_induction dedupSorted l with
  | case1 y rest ih => exact ih (List.pairwise_cons.1 h).2
  | case2 x y rest hxy ih =>
    have hx := (List.pairwise_cons.1 h).1
    refine List.pairwise_cons.2 ⟨fun z hz => ?_, ih (List.pairwise_cons.1 h).2⟩
    have hxy' : x ≤ y := hx y List.mem_cons_self
    rcases List.mem_cons.1 (mem_dedupSorted.1 hz) with rfl | hz
    · omega
    · have := (List.pairwise_cons.1 (List.pairwise_cons.1 h).2).1 z hz
      omega
  | case3 l hl =>
    match l, hl with
    | [], _ => exact List.Pairwise.nil
    | [_], _ => exact List.pairwise_singleton _ _
    | _ :: _ :: _, hl => exact absurd rfl (hl _ _ _)

theorem mem_insertInt {a x : Int} {l : List Int} : x ∈ insertInt a l ↔ x = a ∨ x ∈ l := by
  induction l with
  | nil => simp [insertInt]
  | cons b l ih =>
    unfold insertInt
    split
    · exact List.mem_cons
    · rw [List.mem_cons, ih, List.mem_cons]
      tauto

theorem mem_sortInts {x : Int} {l : List Int} : x ∈ sortInts l ↔ x ∈ l := by
  induction l with
  | nil => rfl
  | cons a l ih =>
    change x ∈ insertInt a (sortInts l) ↔ _
    rw [mem_insertInt, ih, List.mem_cons]

theorem pairwise_insertInt (a : Int) {l : List Int} (h : l.Pairwise (· ≤ ·)) :
    (insertInt a l).Pairwise (· ≤ ·) := by
  induction l with
  | nil => simp [insertInt]
  | cons b l ih =>
    obtain ⟨hb, hl⟩ := List.pairwise_cons.1 h
    unfold insertInt
    split
    · rename_i hab
      refine List.pairwise_cons.2 ⟨fun c hc => ?_, h⟩
      rcases List.mem_cons.1 hc with rfl | hc
      · exact hab
      · exact Int.le_trans hab (hb c hc)
    · rename_i hab
      refine List.pairwise_cons.2 ⟨fun c hc => ?_, ih hl⟩
      rcases mem_insertInt.1 hc with rfl | hc
      · omega
      · exact hb c hc

theorem pairwise_sortInts (l : List Int) : (sortInts l).Pairwise (· ≤ ·) := by
  induction l with
  | nil => exact List.Pairwise.nil
  | cons a l ih => exact pairwise_insertInt a ih

theorem normalized_domain (d : List Int) :
    (∀ a, a ∈ dedupSorted (sortInts d) ↔ a ∈ d) ∧ (dedupSorted (sortInts d)).Pairwise (· < ·) :=
  ⟨fun _ => by rw [mem_dedupSorted, mem_sortInts], pairwise_dedupSorted (pairwise_sortInts d)⟩

theorem getElem?_foldl_modify {α : Type} (f : α → α) (hf : ∀ a, f (f a) = f a) :
    ∀ (is : List Nat) (xs : Array α) (j : Nat),
      (is.foldl (fun ys i => ys.modify i f) xs)[j]? = if j ∈ is then xs[j]?.map f else xs[j]?
  | [], xs, j => by simp
  | i :: is, xs, j => by
    rw [List.foldl_cons, getElem?_foldl_modify f hf is, Array.getElem?_modify]
    by_cases hij : i = j
    · subst hij
      by_cases hj : i ∈ is
      · simp [hj, Option.map_map, Function.comp_def, hf]
      · simp [hj]
    · by_cases hj : j ∈ is
      · simp [hj, hij]
      · simp [hj, hij, Ne.symm hij]

namespace Model

structure WellFormed (m : Model) : Prop where
  /-- A product refers only to nodes before it. -/
  product_lt : ∀ (i : Nat) (fs : List Nat), m.nodes[i]? = some (.product fs) → ∀ f ∈ fs, f < i
  /-- A variable node names a variable whose node it is. -/
  var_node : ∀ (i v : Nat), m.nodes[i]? = some (.var v) → ∃ info, m.vars[v]? = some info ∧ info.expr = i
  /-- Every variable has its node. -/
  var_expr : ∀ (v : Nat) (info : Var), m.vars[v]? = some info → m.nodes[info.expr]? = some (.var v)
  /-- Domains are not empty, sorted and without repeats. -/
  domain : ∀ (v : Nat) (info : Var), m.vars[v]? = some info → info.domain ≠ [] ∧ info.domain.Pairwise (· < ·)
  /-- Booleans range over zero and one. -/
  bool : ∀ (v : Nat) (info : Var), m.vars[v]? = some info → info.isBool → info.domain = [0, 1]
  /-- Members of a group are booleans of that group. -/
  member : ∀ (g : Nat) (ms : List Nat), m.groups[g]? = some ms → ∀ v ∈ ms,
    ∃ info, m.vars[v]? = some info ∧ info.isBool ∧ info.group = some g
  /-- A variable of a group is among its members. -/
  grouped : ∀ (v : Nat) (info : Var) (g : Nat), m.vars[v]? = some info → info.group = some g →
    ∃ ms, m.groups[g]? = some ms ∧ v ∈ ms
  /-- No group is empty. -/
  group_ne_nil : ∀ (g : Nat) (ms : List Nat), m.groups[g]? = some ms → ms ≠ []

/-- Models reached from the empty model by the builder operations. Expression arguments are
arbitrary: the operations that read them check them, and the search refuses a linear sum that
refers forward. -/
inductive Built : Model → Prop
  | empty : Built {}
  | newInt {m m' : Model} {e : Nat} (name : String) (dom : List Int) :
      Built m → m.newInt name dom = .ok (m', e) → Built m'
  | newBool {m : Model} (name : String) : Built m → Built (m.newBool name).1
  | constant {m : Model} (c : Int) : Built m → Built (m.constant c).1
  | linear {m : Model} (ts : List (Int × Nat)) (c : Int) : Built m → Built (m.linear ts c).1
  | product {m m' : Model} {e : Nat} (fs : List Nat) :
      Built m → m.product fs = .ok (m', e) → Built m'
  | addEqual {m : Model} (a b : Nat) : Built m → Built (m.addEqual a b)
  | addLessEqual {m : Model} (a b : Nat) : Built m → Built (m.addLessEqual a b)
  | addExactlyOne {m m' : Model} (bs : List Nat) :
      Built m → m.addExactlyOne bs = .ok m' → Built m'

namespace WellFormed

variable {m : Model}

theorem empty : WellFormed ({} : Model) where
  product_lt _ _ h := by simp at h
  var_node _ _ h := by simp at h
  var_expr _ _ h := by simp at h
  domain _ _ h := by simp at h
  bool _ _ h := by simp at h
  member _ _ h := by simp at h
  grouped _ _ _ h := by simp at h
  group_ne_nil _ _ h := by simp at h

theorem push (hm : WellFormed m) (n : Node) (hvar : ∀ v, n ≠ .var v)
    (hprod : ∀ fs, n = .product fs → ∀ f ∈ fs, f < m.nodes.size) :
    WellFormed (m.push n).1 where
  product_lt i fs h f hf := by
    simp only [Model.push, Array.getElem?_push] at h
    split at h
    · cases h; subst i; exact hprod fs rfl f hf
    · exact hm.product_lt i fs h f hf
  var_node i v h := by
    simp only [Model.push, Array.getElem?_push] at h
    split at h
    · cases h; exact absurd rfl (hvar v)
    · exact hm.var_node i v h
  var_expr v info h := by
    have := hm.var_expr v info h
    have hlt : info.expr < m.nodes.size := (Array.getElem?_eq_some_iff.1 this).1
    simp only [Model.push, Array.getElem?_push, Nat.ne_of_lt hlt, if_false]
    exact this
  domain := hm.domain
  bool := hm.bool
  member := hm.member
  grouped := hm.grouped
  group_ne_nil := hm.group_ne_nil

theorem congr (hm : WellFormed m) {m' : Model} (hn : m'.nodes = m.nodes) (hv : m'.vars = m.vars)
    (hg : m'.groups = m.groups) : WellFormed m' := by
  obtain ⟨h1, h2, h3, h4, h5, h6, h7, h8⟩ := hm
  exact ⟨hn ▸ h1, hn ▸ hv ▸ h2, hn ▸ hv ▸ h3, hv ▸ h4, hv ▸ h5, hv ▸ hg ▸ h6, hv ▸ hg ▸ h7, hg ▸ h8⟩

theorem constant (hm : WellFormed m) (c : Int) : WellFormed (m.constant c).1 := by
  unfold Model.constant
  split
  · exact hm
  · exact (hm.push (.const c) (fun _ h => by cases h) (fun _ h => by cases h)).congr rfl rfl rfl

theorem linear (hm : WellFormed m) (ts : List (Int × Nat)) (c : Int) :
    WellFormed (m.linear ts c).1 := by
  unfold Model.linear
  dsimp only
  split
  · exact hm.constant c
  · exact hm.push (.linear _ c) (fun _ h => by cases h) (fun _ h => by cases h)

theorem newVar (hm : WellFormed m) (name : String) (d : List Int) (isBool : Bool)
    (hd : d ≠ []) (hb : isBool → d = [0, 1]) :
    WellFormed (m.newVar name d isBool).1 := by
  obtain ⟨hmem, hsorted⟩ := normalized_domain d
  have hne : dedupSorted (sortInts d) ≠ [] := by
    obtain ⟨a, ha⟩ := List.exists_mem_of_ne_nil d hd
    exact List.ne_nil_of_mem ((hmem a).2 ha)
  have hbool : isBool → dedupSorted (sortInts d) = [0, 1] := by
    intro h
    rw [hb h]
    rfl
  -- an old variable's node lies before the new one
  have hold : ∀ v info, m.vars[v]? = some info → v < m.vars.size ∧ info.expr < m.nodes.size :=
    fun v info h => ⟨(Array.getElem?_eq_some_iff.1 h).1,
      (Array.getElem?_eq_some_iff.1 (hm.var_expr v info h)).1⟩
  simp only [Model.newVar, Model.push]
  constructor
  · intro i fs h f hf
    simp only [Array.getElem?_push] at h
    split at h
    · cases h
    · exact hm.product_lt i fs h f hf
  · intro i v h
    simp only [Array.getElem?_push] at h ⊢
    split at h
    · cases h; simp_all
    · obtain ⟨info, hi, he⟩ := hm.var_node i v h
      exact ⟨info, by simpa [Array.getElem?_push, Nat.ne_of_lt (hold v info hi).1] using hi, he⟩
  · intro v info h
    simp only [Array.getElem?_push] at h ⊢
    split at h
    · cases h; simp_all
    · obtain ⟨hv, he⟩ := hold v info h
      simpa [Nat.ne_of_lt he] using hm.var_expr v info h
  · intro v info h
    simp only [Array.getElem?_push] at h
    split at h
    · cases h; exact ⟨hne, hsorted⟩
    · exact hm.domain v info h
  · intro v info h hib
    simp only [Array.getElem?_push] at h
    split at h
    · cases h; exact hbool hib
    · exact hm.bool v info h hib
  · intro g ms h v hv
    obtain ⟨info, hi, hib, hig⟩ := hm.member g ms h v hv
    exact ⟨info, by simpa [Array.getElem?_push, Nat.ne_of_lt (hold v info hi).1] using hi, hib, hig⟩
  · intro v info g h hg
    simp only [Array.getElem?_push] at h
    split at h
    · cases h; cases hg
    · exact hm.grouped v info g h hg
  · exact hm.group_ne_nil

theorem newInt (hm : WellFormed m) {name : String} {d : List Int} {m' : Model} {e : Nat}
    (h : m.newInt name d = .ok (m', e)) : WellFormed m' := by
  unfold Model.newInt at h
  split at h
  · cases h
  · cases h
    exact hm.newVar name d false (by simpa using ‹¬d.isEmpty = true›) (by simp)

theorem newBool (hm : WellFormed m) (name : String) : WellFormed (m.newBool name).1 :=
  hm.newVar name [0, 1] true (by simp) (fun _ => rfl)

theorem product_rest_lt {fs : List Nat} {c : Int} {rest : List Nat}
    (h : fs.foldlM (fun (acc : Int × List Nat) f => do
        match ← entryAt m.nodes f with
        | .const k => pure (I64.satMul acc.1 k, acc.2)
        | _ => pure (acc.1, acc.2 ++ [f])) ((1 : Int), ([] : List Nat)) = .ok (c, rest)) :
    ∀ f ∈ rest, f < m.nodes.size := by
  refine foldlM_ok_inv (fun acc : Int × List Nat => ∀ f ∈ acc.2, f < m.nodes.size) h
    (by simp) ?_
  intro acc f acc' _ hacc hstep
  obtain ⟨n, hn, hstep⟩ := bind_eq_ok.1 hstep
  have hf : f < m.nodes.size := (Array.getElem?_eq_some_iff.1 (entryAt_eq_ok.1 hn)).1
  split at hstep <;> rw [pure_eq_ok] at hstep <;> subst hstep
  · exact hacc
  · intro g hg
    rcases List.mem_append.1 hg with hg | hg
    · exact hacc g hg
    · rw [List.mem_singleton.1 hg]; exact hf

theorem product (hm : WellFormed m) {fs : List Nat} {m' : Model} {e : Nat}
    (h : m.product fs = .ok (m', e)) : WellFormed m' := by
  unfold Model.product at h
  obtain ⟨⟨c, rest⟩, hfold, h⟩ := bind_eq_ok.1 h
  have hrest := product_rest_lt hfold
  have hpush : WellFormed (m.push (.product rest)).1 :=
    hm.push _ (fun _ h => by cases h) (fun _ h => by cases h; exact hrest)
  -- every branch returns a model already known to be well formed
  have ret : ∀ x : Model × Nat, WellFormed x.1 → (pure x : Except Fault _) = .ok (m', e) →
      WellFormed m' := by
    intro x hx hx'
    rw [pure_eq_ok] at hx'
    subst hx'
    exact hx
  dsimp only at h
  split at h
  · exact ret _ (hm.constant 0) h
  · split at h
    · exact ret _ (hm.constant c) h
    · split at h
      · exact ret _ hm h
      · exact ret _ (hm.linear _ 0) h
    · split at h
      · exact ret _ hpush h
      · exact ret _ (hpush.linear _ 0) h

theorem addEqual (hm : WellFormed m) (a b : Nat) : WellFormed (m.addEqual a b) :=
  hm.congr rfl rfl rfl

theorem addLessEqual (hm : WellFormed m) (a b : Nat) : WellFormed (m.addLessEqual a b) :=
  hm.congr rfl rfl rfl

theorem addExactlyOne (hm : WellFormed m) {bs : List Nat} {m' : Model}
    (h : m.addExactlyOne bs = .ok m') : WellFormed m' := by
  unfold Model.addExactlyOne at h
  dsimp only at h
  split at h
  · cases h
  rename_i hbs
  obtain ⟨members, hmap, h⟩ := bind_eq_ok.1 h
  rw [pure_eq_ok] at h
  subst h
  -- each member passed the checks: a boolean in no group yet
  have hfresh : ∀ v ∈ members, ∃ info, m.vars[v]? = some info ∧ info.isBool ∧ info.group = none := by
    intro v hv
    obtain ⟨b, _, hb⟩ := mapM_ok_mem hmap v hv
    split at hb
    · split at hb
      · rename_i info hinfo
        split at hb
        · cases hb
        · split at hb
          · cases hb
          · rw [pure_eq_ok] at hb
            subst hb
            exact ⟨info, hinfo, by simpa using ‹¬(!info.isBool) = true›,
              by simpa using ‹¬info.group.isSome = true›⟩
      · cases hb
    · cases hb
  have hvars := getElem?_foldl_modify (fun info : Var => { info with group := some m.groups.size })
    (fun _ => rfl) members m.vars
  constructor
  · exact hm.product_lt
  · intro i v hi
    obtain ⟨info, hinfo, he⟩ := hm.var_node i v hi
    rw [hvars v]
    split
    · exact ⟨{ info with group := some m.groups.size }, by rw [hinfo]; rfl, he⟩
    · exact ⟨info, hinfo, he⟩
  · intro v info hv
    rw [hvars v] at hv
    split at hv
    · obtain ⟨info₀, h₀, rfl⟩ := Option.map_eq_some_iff.1 hv
      exact hm.var_expr v info₀ h₀
    · exact hm.var_expr v info hv
  · intro v info hv
    rw [hvars v] at hv
    split at hv
    · obtain ⟨info₀, h₀, rfl⟩ := Option.map_eq_some_iff.1 hv
      exact hm.domain v info₀ h₀
    · exact hm.domain v info hv
  · intro v info hv hb
    rw [hvars v] at hv
    split at hv
    · obtain ⟨info₀, h₀, rfl⟩ := Option.map_eq_some_iff.1 hv
      exact hm.bool v info₀ h₀ hb
    · exact hm.bool v info hv hb
  · intro g ms hg v hv
    rw [hvars v]
    rw [Array.getElem?_push] at hg
    split at hg
    · cases hg
      obtain ⟨info, hinfo, hb, _⟩ := hfresh v hv
      subst g
      exact ⟨{ info with group := some m.groups.size }, by simp [hv, hinfo], hb, rfl⟩
    · obtain ⟨info, hinfo, hb, hig⟩ := hm.member g ms hg v hv
      have hv' : v ∉ members := fun hv' => by
        obtain ⟨_, h, _, hn⟩ := hfresh v hv'
        rw [hinfo] at h; cases h; simp_all
      exact ⟨info, by simp [hv', hinfo], hb, hig⟩
  · intro v info g hv hg
    rw [hvars v] at hv
    split at hv
    · obtain ⟨info₀, _, rfl⟩ := Option.map_eq_some_iff.1 hv
      cases hg
      exact ⟨members, by simp, ‹_›⟩
    · obtain ⟨ms, hms, hvm⟩ := hm.grouped v info g hv hg
      have hlt : g < m.groups.size := (Array.getElem?_eq_some_iff.1 hms).1
      exact ⟨ms, by rw [Array.getElem?_push, if_neg (Nat.ne_of_lt hlt)]; exact hms, hvm⟩
  · intro g ms hg
    rw [Array.getElem?_push] at hg
    split at hg
    · cases hg
      -- the group lists one member for each of the variables asked for, and there is one
      obtain ⟨b, hb⟩ := List.exists_mem_of_ne_nil bs (by simpa using hbs)
      obtain ⟨y, hy, _⟩ := mapM_ok_of_mem hmap b hb
      exact List.ne_nil_of_mem hy
    · exact hm.group_ne_nil g ms hg

end WellFormed

theorem Built.wellFormed {m : Model} (h : Built m) : WellFormed m := by
  induction h with
  | empty => exact .empty
  | newInt _ _ _ h ih => exact ih.newInt h
  | newBool name _ ih => exact ih.newBool name
  | constant c _ ih => exact ih.constant c
  | linear ts c _ ih => exact ih.linear ts c
  | product _ _ h ih => exact ih.product h
  | addEqual a b _ ih => exact ih.addEqual a b
  | addLessEqual a b _ ih => exact ih.addLessEqual a b
  | addExactlyOne _ _ h ih => exact ih.addExactlyOne h

/-! The other builder operations are made of these, so their models are built too. -/

theorem Built.sum {m : Model} (h : Built m) (es : List Nat) : Built (m.sum es).1 := by
  unfold Model.sum
  split
  · exact .constant 0 h
  · exact h
  · exact .linear _ 0 h

theorem Built.mul {m m' : Model} {a b e : Nat} (h : Built m) (hmul : m.mul a b = .ok (m', e)) :
    Built m' :=
  .product [a, b] h hmul

theorem Built.scale {m : Model} (h : Built m) (e : Nat) (f : Int) : Built (m.scale e f).1 := by
  unfold Model.scale
  split
  · exact h
  · exact .linear _ 0 h

end Model

end TileSched
