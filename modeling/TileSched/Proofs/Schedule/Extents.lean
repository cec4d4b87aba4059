import Mathlib
import TileSched.Proofs.Schedule.FirstPass
import TileSched.Proofs.Solver.Builders
import TileSched.Proofs.Solver.Divisors
/-! Tile counts and extents. The first pass gives every tileable node one tile variable per
dimension, over counts that divide the node's bound, and a forward extent per dimension: its tile
variable times the forward extent of the dimension of the tile above that its relation passes it
straight through to. A leaf pins its primitive tile times its forward extents to its operation's
bounds; a tile ties together the extents its children report on one of its dimensions, pins
those over a constant range, and at the root pins its own extents to its bounds. -/

namespace TileSched

open Solving

/-! The chain of dimensions a node's extent is multiplied along. -/

namespace TileTree

/-- The dimension of the tile above node `i` that the node's relation passes its dimension `d`
straight through to: none at the root, and none when that result is not a single dimension of
the tile above. -/
def dimLink (t : TileTree) (i d : Nat) : Option (Nat × Nat) :=
  if i = t.root then none
  else
    match t.parent i, t.relation i with
    | .ok (some p), .ok (some rel) =>
      (rel.dimsMap.lookup d).bind fun j =>
        if j < ((t.bounds p).toOption.getD []).length then some (p, j) else none
    | _, _ => none

/-- Dimension `d` of node `i` and, nearest first, the dimensions of the tiles above that it is
passed straight through to, at most `f` of them in all. -/
def dimChain (t : TileTree) : Nat → Nat → Nat → List (Nat × Nat)
  | 0, _, _ => []
  | f + 1, i, d => (i, d) :: ((t.dimLink i d).map fun pj => t.dimChain f pj.1 pj.2).getD []

end TileTree

namespace SolveMemo

def tileVar (m : SolveMemo) (i d : Nat) : Nat := ((m.domain? i).map (·.tileVars.getD d 0)).getD 0

def forwardAt (m : SolveMemo) (i d : Nat) : Nat := ((m.domain? i).map (·.forwardExtents.getD d 0)).getD 0

end SolveMemo

/-! Legal counts divide the bound. -/

theorem dvd_of_mem_divisorsUpTo {n x : Nat} (hx : x ∈ divisorsUpTo n) : x ∣ n := by
  rcases Nat.eq_zero_or_pos n with rfl | hn
  · exact Nat.dvd_zero x
  · exact (mem_divisorsUpTo hn).1 hx

theorem KernelInfo.dvd_of_mem_opTileDomain {k : KernelInfo} {d : Nat} {b x : Int}
    (hx : x ∈ k.opTileDomain d b) : x ∣ b := by
  unfold KernelInfo.opTileDomain at hx
  dsimp only at hx
  split at hx
  · simp at hx
  · rename_i hmod
    split at hx
    · simp at hx
    · rename_i hq
      obtain ⟨y, hy, rfl⟩ := List.mem_map.1 (List.mem_filter.1 hx).1
      have hdiv : (y : Int) ∣ b.tdiv (k.primitive d) := by
        rw [← Int.toNat_of_nonneg (le_of_lt (not_le.1 hq))]
        exact Int.natCast_dvd_natCast.2 (dvd_of_mem_divisorsUpTo hy)
      exact hdiv.trans ⟨k.primitive d, by rw [mul_comm, Int.mul_tdiv_cancel_of_tmod_eq_zero (not_not.1 hmod)]⟩

theorem dvd_of_mem_divisors {n x : Int} (hx : x ∈ divisors n) : x ∣ n :=
  (((divisors_increasing n).2 x).1 hx).2.2

/-! A range is never both a single dimension and a constant. -/

theorem AffineExpr.pureDimOf_zeros : ∀ (cs : List Int) (i : Nat), cs.all (· == 0) = true →
    AffineExpr.pureDimOf cs i none = none
  | [], _, _ => rfl
  | c :: cs, i, h => by
    simp only [List.all_cons, Bool.and_eq_true, beq_iff_eq] at h
    rw [AffineExpr.pureDimOf, if_pos h.1]
    exact pureDimOf_zeros cs (i + 1) h.2

theorem AffineExpr.asPureDim?_eq_none {e : AffineExpr} {c : Int} (h : e.asConstant? = some c) :
    e.asPureDim? = none := by
  unfold AffineExpr.asConstant? at h
  split at h
  · rename_i hc
    simp only [AffineExpr.isConstant, Bool.and_eq_true] at hc
    unfold AffineExpr.asPureDim?
    split
    · rfl
    · exact AffineExpr.pureDimOf_zeros _ 0 hc.1
  · cases h

theorem AffineRange.asPureDim?_eq_none {r : AffineRange} {o x : Int} (h : r.asConstant? = some (o, x)) :
    r.asPureDim? = none := by
  unfold AffineRange.asConstant? at h
  obtain ⟨c, hc, -⟩ := Option.bind_eq_some_iff.1 h
  unfold AffineRange.asPureDim?
  rw [AffineExpr.asPureDim?_eq_none hc]

/-! Variables over legal counts. -/

namespace Model

def VarWithin (m : Model) (e : Nat) (P : Int → Prop) : Prop :=
  ∃ v info, m.nodes[e]? = some (.var v) ∧ m.vars[v]? = some info ∧ info.expr = e ∧ ∀ x ∈ info.domain, P x

namespace VarWithin

variable {m m' : Model} {e : Nat} {P Q : Int → Prop}

theorem grows (h : m.VarWithin e P) (hg : m.Grows m') : m'.VarWithin e P := by
  obtain ⟨v, info, hn, hv, he, hd⟩ := h
  obtain ⟨info', hv', he', hd'⟩ := hg.vars v info hv
  exact ⟨v, info', hg.nodes _ _ hn, hv', he'.trans he, hd' ▸ hd⟩

theorem mono (h : m.VarWithin e P) (hPQ : ∀ x, P x → Q x) : m.VarWithin e Q := by
  obtain ⟨v, info, hn, hv, he, hd⟩ := h
  exact ⟨v, info, hn, hv, he, fun x hx => hPQ x (hd x hx)⟩

theorem holds (h : m.VarWithin e P) {val : Nat → Int} (hval : m.Evaluation val) : P (val e) := by
  obtain ⟨v, info, -, hv, rfl, hd⟩ := h
  exact hd _ (hval.domain v info hv)

theorem wordConst (h : m.VarWithin e P) : m.WordConst e := by
  obtain ⟨v, -, hn, -⟩ := h
  exact ⟨_, hn, fun _ hk => by cases hk⟩

theorem unitConst (h : m.VarWithin e P) : m.UnitConst e := by
  obtain ⟨v, -, hn, -⟩ := h
  exact .of_var hn

theorem newInt {name : String} {dom : List Int} (h : m.newInt name dom = .ok (m', e)) :
    m'.VarWithin e (· ∈ dom) := by
  unfold Model.newInt at h
  split at h
  · cases h
  · cases h
    refine ⟨m.vars.size, ⟨name, m.nodes.size, dedupSorted (sortInts dom), false, none⟩, ?_, ?_, rfl,
      fun x hx => ((normalized_domain dom).1 x).1 hx⟩
    · simp
    · simp

end VarWithin

end Model

/-! Steps that only build the model. -/

namespace Solving

/-- Only the model changes, growing and staying built; the memo, the results and the clock are
as they were. -/
structure OnlyModel (s s' : SolveState) : Prop where
  steady : Steady s s'
  memo : s'.memo = s.memo
  results : s'.results = s.results
  clock : s'.clock = s.clock

namespace OnlyModel

theorem refl (s : SolveState) : OnlyModel s s := ⟨Steady.refl s, rfl, rfl, rfl⟩

theorem trans {a b c : SolveState} (h₁ : OnlyModel a b) (h₂ : OnlyModel b c) : OnlyModel a c :=
  ⟨h₁.steady.trans h₂.steady, h₂.memo.trans h₁.memo, h₂.results.trans h₁.results, h₂.clock.trans h₁.clock⟩

instance : Std.Refl OnlyModel := ⟨refl⟩

instance : IsTrans SolveState OnlyModel := ⟨fun _ _ _ => trans⟩

theorem of_model {s : SolveState} {m : Model} (hb : s.model.Built → m.Built) (hg : s.model.Grows m) :
    OnlyModel s { s with model := m } :=
  ⟨Steady.of_grows hb hg rfl rfl, rfl, rfl, rfl⟩

end OnlyModel

theorem onlyModel_build {f : Model → Model × Nat} (hb : ∀ m : Model, m.Built → (f m).1.Built)
    (hg : ∀ m : Model, m.Grows (f m).1) : Moves OnlyModel (build f) := fun _ _ _ h => by
  obtain ⟨-, rfl⟩ := runs_build.1 h
  exact .of_model (hb _) (hg _)

theorem onlyModel_buildChecked {f : Model → Except Fault (Model × Nat)}
    (hf : ∀ m m' e, f m = .ok (m', e) → (m.Built → m'.Built) ∧ m.Grows m') :
    Moves OnlyModel (buildChecked f) := fun _ _ _ h => by
  obtain ⟨m', hm, rfl⟩ := runs_buildChecked.1 h
  exact .of_model (hf _ _ _ hm).1 (hf _ _ _ hm).2

theorem onlyModel_buildSolved {f : Model → Except SolveError (Model × Nat)}
    (hf : ∀ m m' e, f m = .ok (m', e) → (m.Built → m'.Built) ∧ m.Grows m') :
    Moves OnlyModel (buildSolved f) := fun _ _ _ h => by
  obtain ⟨m', hm, rfl⟩ := runs_buildSolved.1 h
  exact .of_model (hf _ _ _ hm).1 (hf _ _ _ hm).2

theorem onlyModel_post {f : Model → Model} (hb : ∀ m : Model, m.Built → (f m).Built)
    (hg : ∀ m : Model, m.Grows (f m)) : Moves OnlyModel (post f) := fun _ _ _ h => by
  obtain rfl := runs_post.1 h
  exact .of_model (hb _) (hg _)

theorem onlyModel_record (level : LogLevel) (source message : String) :
    Moves OnlyModel (record level source message) := fun _ _ _ h => by
  obtain rfl := runs_record.1 h
  exact ⟨Steady.of_eq rfl rfl rfl, rfl, rfl, rfl⟩

theorem runs_foldlM_steps {α β : Type} {f : β → α → Solving β} {J : List α → β → SolveState → Prop} :
    ∀ {xs : List α} (done : List α) {b r : β} {s s' : SolveState},
      (∀ x ∈ xs, ∀ done b t r t', J done b t → Runs (f b x) t r t' → J (done ++ [x]) r t') →
      J done b s → Runs (xs.foldlM f b) s r s' → J (done ++ xs) r s'
  | [], done, b, r, s, s', _, hJ, h => by
    rw [List.foldlM_nil] at h
    obtain ⟨rfl, rfl⟩ := runs_pure.1 h
    simpa using hJ
  | x :: xs, done, b, r, s, s', hstep, hJ, h => by
    rw [List.foldlM_cons] at h
    obtain ⟨b', t, h₁, h₂⟩ := runs_bind.1 h
    simpa using runs_foldlM_steps _ (fun y hy => hstep y (List.mem_cons_of_mem _ hy))
      (hstep x List.mem_cons_self done b s b' t hJ h₁) h₂

instance : Builds OnlyModel where
  const c := onlyModel_build (fun _ h => .constant c h) fun m => Model.Grows.constant m c
  scale e f := onlyModel_build (fun _ h => h.scale e f) fun m => Model.Grows.scale m e f
  mul _ _ := onlyModel_buildChecked fun _ _ _ h => ⟨fun hb => hb.mul h, Model.Grows.mul h⟩
  product es := onlyModel_buildChecked fun _ _ _ h => ⟨fun hb => .product es hb h, Model.Grows.product h⟩
  linear ts c := onlyModel_build (fun _ h => .linear ts c h) fun m => Model.Grows.linear m ts c
  addEqual a b := onlyModel_post (fun _ h => .addEqual a b h) fun m => Model.Grows.addEqual m a b

end Solving

/-! A node's tile variables and forward extents. -/

/-- The forward extent of the tile above that the context multiplies dimension `d` of a node
with relation `relation` by: none at a root, and none for a dimension not passed straight
through. -/
def InitContext.factor (ctx : InitContext) (relation : AffineMap) (d : Nat) : Option Nat :=
  ((if ctx.parent.isSome then relation.dimsMap else []).lookup d).bind (ctx.forwardExtents[·]?)

/-- The legal tile counts of every dimension of an operation: the counts its kernel allows of
the dimension's bound. -/
def Target.opDomains (tgt : Target) (op : OpNode) : List (List Int) :=
  op.domainBounds.zipIdx.map fun x => (tgt.kernelInfo op).opTileDomain x.2 x.1

@[simp] theorem Target.length_opDomains (tgt : Target) (op : OpNode) :
    (tgt.opDomains op).length = op.domainBounds.length := by
  simp [Target.opDomains]

theorem Target.getD_opDomains (tgt : Target) (op : OpNode) {d : Nat} (hd : d < op.domainBounds.length) :
    (tgt.opDomains op).getD d [] = (tgt.kernelInfo op).opTileDomain d (op.domainBounds.getD d 0) := by
  simp [Target.opDomains, List.getD_eq_getElem?_getD, List.getElem?_eq_getElem hd]

theorem forall₂_zipIdx_getD {α β : Type} {R : α × Nat → β → Prop} {xs : List α} {ys : List β}
    (h : List.Forall₂ R xs.zipIdx ys) (a : α) (b : β) :
    ys.length = xs.length ∧ ∀ d < xs.length, R (xs.getD d a, d) (ys.getD d b) := by
  obtain ⟨hlen, hget⟩ := List.forall₂_iff_get.1 h
  rw [List.length_zipIdx] at hlen
  refine ⟨hlen.symm, fun d hd => ?_⟩
  have hR := hget d (by simpa using hd) (by omega)
  simpa [List.getD_eq_getElem?_getD, List.getElem?_eq_getElem hd, List.getElem?_eq_getElem (hlen ▸ hd)] using hR

/-- A domain entry made over `domains`: a tile variable per dimension over its legal counts, and
a forward extent per dimension, a unit that is the variable times the factor `factor` gives. -/
structure DomainInfo.Made (dom : DomainInfo) (domains : List (List Int)) (factor : Nat → Option Nat)
    (m : Model) : Prop where
  tileVars_length : dom.tileVars.length = domains.length
  forward_length : dom.forwardExtents.length = domains.length
  vars : ∀ d < domains.length, m.VarWithin (dom.tileVars.getD d 0) (· ∈ domains.getD d [])
  unit : ∀ d < domains.length, m.UnitConst (dom.forwardExtents.getD d 0)
  forward : ∀ d < domains.length, m.Denotes (dom.forwardExtents.getD d 0)
    fun val => val (dom.tileVars.getD d 0) * ((factor d).map val).getD 1

theorem DomainInfo.Made.grows {dom : DomainInfo} {domains : List (List Int)} {factor : Nat → Option Nat}
    {m m' : Model} (h : dom.Made domains factor m) (hg : m.Grows m') : dom.Made domains factor m' :=
  ⟨h.tileVars_length, h.forward_length, fun d hd => (h.vars d hd).grows hg, fun d hd => (h.unit d hd).grows hg,
    fun d hd => (h.forward d hd).grows hg⟩

namespace Init

theorem runs_domainInfo {id : Nat} {relation : AffineMap} {domains : List (List Int)} {ctx : InitContext}
    {s s' : SolveState} {dom : DomainInfo} (hfresh : s.memo.domain? id = none) (hb : s.model.Built)
    (hctx : ∀ d p, ctx.factor relation d = some p → s.model.UnitConst p)
    (h : Runs (domainInfo id relation domains ctx) s dom s') :
    ∃ s₁, OnlyModel s s₁ ∧ dom.Made domains (ctx.factor relation) s₁.model ∧
      s' = { s₁ with memo := { s.memo with domains := s.memo.domains.set! id (some dom) } } := by
  unfold domainInfo at h
  rw [runs_bind] at h
  obtain ⟨st, s₀, hget, h⟩ := h
  obtain ⟨rfl, rfl⟩ := runs_get.1 hget
  rw [hfresh] at h
  dsimp only at h
  simp only [runs_bind] at h
  obtain ⟨tileVars, s₁, h₁, forward, s₂, h₂, _, s₃, h₃, h⟩ := h
  obtain ⟨rfl, rfl⟩ := runs_pure.1 h
  obtain rfl := runs_memo.1 h₃
  have newInt_moves : ∀ (name : String) (dom : List Int), Moves OnlyModel (buildSolved (·.newInt name dom)) :=
    fun _ _ => onlyModel_buildSolved fun _ _ _ h => ⟨fun hb => .newInt _ _ hb h, Model.Grows.newInt h⟩
  -- one new integer per dimension, over its legal counts
  obtain ⟨k₁, hvars⟩ := Moves.mapM_forall₂ (R := OnlyModel) (I := fun _ => True)
    (Q := fun x tv t => t.model.VarWithin tv (· ∈ x.1)) (fun _ _ _ _ => trivial)
    (fun _ _ _ _ hq k => hq.grows k.steady.grows)
    (fun x _ => by
      split
      · exact Moves.bind (Moves.throw _) fun _ => newInt_moves _ _
      · exact newInt_moves _ _)
    (fun x _ t tv t' _ hrun => by
      split at hrun
      · obtain ⟨_, _, h, -⟩ := runs_bind.1 hrun
        exact absurd h not_runs_throw
      · obtain ⟨m', hm, rfl⟩ := runs_buildSolved.1 hrun
        exact Model.VarWithin.newInt hm) h₁
  obtain ⟨hlen₁, hvars⟩ := forall₂_zipIdx_getD (hvars trivial) [] 0
  have htvs : ∀ tv ∈ tileVars, s₁.model.VarWithin tv fun _ => True := fun tv htv => by
    obtain ⟨d, hd, rfl⟩ := List.getElem_of_mem htv
    have hv := (hvars d (hlen₁ ▸ hd)).mono fun _ _ => trivial
    simpa [List.getD_eq_getElem?_getD, List.getElem?_eq_getElem hd] using hv
  -- each forward extent: the variable, times the factor of the context when there is one
  obtain ⟨k₂, hfwd⟩ := Moves.mapM_forall₂ (R := OnlyModel)
    (I := fun t => t.model.Built ∧ (∀ tv ∈ tileVars, t.model.VarWithin tv fun _ => True) ∧
      ∀ d p, ctx.factor relation d = some p → t.model.UnitConst p)
    (Q := fun x fe t => t.model.UnitConst fe ∧
      t.model.Denotes fe fun val => val x.1 * ((ctx.factor relation x.2).map val).getD 1)
    (fun _ _ hI k => ⟨k.steady.built hI.1, fun tv htv => (hI.2.1 tv htv).grows k.steady.grows,
      fun d p hp => (hI.2.2 d p hp).grows k.steady.grows⟩)
    (fun x fe t t' hq k => ⟨hq.1.grows k.steady.grows, Model.Denotes.grows hq.2 k.steady.grows⟩)
    (fun x _ => by
      split
      · exact Builds.mul _ _
      · exact Moves.pure _)
    (fun x hx t fe t' hI hrun => by
      obtain ⟨hbt, htvs, hps⟩ := hI
      have htv := htvs x.1 (List.fst_mem_of_mem_zipIdx hx)
      have hcn := hbt.constantsNamed
      split at hrun
      · rename_i p hp
        have hp : ctx.factor relation x.2 = some p := hp
        obtain ⟨m', hm, rfl⟩ := runs_buildChecked.1 hrun
        refine ⟨Model.UnitConst.product hcn (fun f hf => ?_) hm, ?_⟩
        · rcases List.mem_pair.1 hf with rfl | rfl
          · exact htv.unitConst
          · exact hps _ f hp
        · refine (Model.Denotes.mul_unit hcn htv.wordConst (hps _ p hp) hm).congr fun _ _ val _ => ?_
          rw [hp]
          rfl
      · rename_i hp
        have hp : ctx.factor relation x.2 = none := hp
        obtain ⟨rfl, rfl⟩ := runs_pure.1 hrun
        refine ⟨htv.unitConst, (Model.Denotes.self _ _).congr fun _ _ val _ => ?_⟩
        rw [hp]
        simp) h₂
  obtain ⟨hlen₂, hfwd⟩ := forall₂_zipIdx_getD
    (hfwd ⟨k₁.steady.built hb, htvs, fun d p hp => (hctx d p hp).grows k₁.steady.grows⟩) 0 0
  refine ⟨s₂, k₁.trans k₂, ⟨hlen₁, hlen₂.trans hlen₁, fun d hd => (hvars d hd).grows k₂.steady.grows,
    fun d hd => (hfwd d (hlen₁ ▸ hd)).1, fun d hd => (hfwd d (hlen₁ ▸ hd)).2⟩, ?_⟩
  rw [← k₁.memo, ← k₂.memo]


theorem runs_visitLeaf_pins {g : Dataflow} {tgt : Target} {id : Nat} {leaf : OpLeaf} {ctx : InitContext}
    {s s' : SolveState} {r : InitResult} (hfresh : s.results.getD id none = none)
    (hdom : s.memo.domain? id = none) (hb : s.model.Built)
    (hctx : ∀ d p, ctx.factor leaf.relation d = some p → s.model.UnitConst p)
    (h : Runs (visitLeaf g tgt id leaf ctx) s r s') :
    ∃ op dom oi, g.ops[leaf.op]? = some op ∧ dom.Made (tgt.opDomains op) (ctx.factor leaf.relation) s'.model ∧
      s'.memo = { s.memo with domains := s.memo.domains.set! id (some dom), ops := s.memo.ops.set! id (some oi) } ∧
      oi.extents = r.extents ∧ r.extents.length = op.domainBounds.length ∧
      s'.results = s.results.set! id (some r) ∧ s.model.Grows s'.model ∧ s'.model.Built ∧
      ∀ d < op.domainBounds.length, ∃ a b, .equal a b ∈ s'.model.constraints ∧
        s'.model.Denotes a (fun val => (tgt.kernelInfo op).primitive d * val (dom.forwardExtents.getD d 0)) ∧
        s'.model.Denotes b fun _ => op.domainBounds.getD d 0 := by
  unfold visitLeaf at h
  rw [runs_bind] at h
  obtain ⟨c, s₀, hc, h⟩ := h
  obtain ⟨rfl, rfl⟩ := runs_cached.1 hc
  rw [hfresh] at h
  dsimp only at h
  simp only [runs_bind] at h
  obtain ⟨op, s₁, h₁, domain, s₂, h₂, extents, s₃, h₃, tick, s₄, h₄, parts, s₅, h₅, _, s₆, h₆, _, s₇, h₇,
    _, s₈, h₈, h⟩ := h
  obtain ⟨hop, rfl⟩ := runs_lift.1 h₁
  obtain ⟨rfl, rfl⟩ := runs_pure.1 h
  obtain ⟨u, k₁, hmade, rfl⟩ := runs_domainInfo hdom hb hctx h₂
  have hmade : domain.Made (tgt.opDomains op) (ctx.factor leaf.relation) u.model := hmade
  -- per dimension: the absolute extent posted equal to the bound
  obtain ⟨k₃, hpins⟩ := Moves.mapM_forall₂ (R := OnlyModel) (I := fun t => t.model.Built)
    (Q := fun x _ t => ∃ a b, .equal a b ∈ t.model.constraints ∧
      t.model.Denotes a (fun val => (tgt.kernelInfo op).primitive x.2 * val (domain.forwardExtents.getD x.2 0)) ∧
      t.model.Denotes b fun _ => x.1)
    (fun _ _ hb k => k.steady.built hb)
    (fun x y t t' hq k => by
      obtain ⟨a, b, hab, ha, hb⟩ := hq
      exact ⟨a, b, k.steady.grows.constraints _ hab, ha.grows k.steady.grows, hb.grows k.steady.grows⟩)
    (fun x _ => Moves.bind (Moves.tree _) fun _ => Moves.bind (Builds.scale _ _) fun _ =>
      Moves.bind (Builds.const _) fun _ => Moves.bind (Builds.addEqual _ _) fun _ =>
        Moves.bind (Moves.tree _) fun _ => Builds.scale _ _)
    (fun x _ t y t' hbt hrun => by
      simp only [runs_bind] at hrun
      obtain ⟨fe, t₁, hrfe, a, t₂, ha, b, t₃, hb', _, t₄, hpost, tv, t₅, htv, hlast⟩ := hrun
      obtain ⟨hfe, rfl⟩ := runs_tree.1 hrfe
      obtain ⟨rfl, rfl⟩ := runs_build.1 ha
      obtain ⟨rfl, rfl⟩ := runs_build.1 hb'
      obtain rfl := runs_post.1 hpost
      obtain ⟨-, rfl⟩ := runs_tree.1 htv
      have hcn := hbt.constantsNamed
      have hfe : fe = domain.forwardExtents.getD x.2 0 := by
        rw [List.getD_eq_getElem?_getD, itemAt_eq_ok.1 hfe, Option.getD_some]
      subst hfe
      -- the pin is kept by the last step, which scales the tile variable
      have hg := (steady_scale _ _ _ _ _ hlast).grows
      refine ⟨_, _, hg.constraints _ Array.mem_push_self, ?_, ?_⟩
      · exact (Model.Denotes.scale hcn _ _).grows ((Model.Grows.constant _ _).trans ((Model.Grows.addEqual _ _ _).trans hg))
      · exact (Model.Denotes.constant (hbt.scale _ _).constantsNamed x.1).grows
          ((Model.Grows.addEqual _ _ _).trans hg)) h₃
  obtain ⟨hlen, hpins⟩ := forall₂_zipIdx_getD (hpins (k₁.steady.built hb)) 0 0
  -- the stamp moves the clock, the buffers and the record only the model and the log
  obtain ⟨rfl, rfl⟩ := Prod.mk.inj (runs_modifyGet.1 h₄)
  have k₅ : OnlyModel { s₃ with clock := s₃.clock + 2 } s₅ := by
    refine (Moves.mapM fun index _ => ?_) _ _ _ h₅
    split
    · exact Moves.bind (moves_shapeAndSize _ _ _) fun _ => Moves.pure _
    · exact Moves.throw _
  have k₆ := onlyModel_record _ _ _ _ _ _ h₆
  obtain rfl := runs_memo.1 h₇
  obtain rfl := runs_modify.1 h₈
  have hg : s₃.model.Grows s₆.model := k₅.steady.grows.trans k₆.steady.grows
  refine ⟨op, domain, ⟨op.id, tgt.kernelInfo op, extents, parts.map (·.2.1), parts.map (·.2.2.1),
    parts.map (·.2.2.2)⟩, Dataflow.op_eq_ok.1 hop, hmade.grows (k₃.steady.grows.trans hg), ?_, rfl,
    by simpa using hlen, ?_, k₁.steady.grows.trans (k₃.steady.grows.trans hg),
    k₆.steady.built (k₅.steady.built (k₃.steady.built (k₁.steady.built hb))), fun d hd => ?_⟩
  · simp [k₆.memo, k₅.memo, k₃.memo]
  · simp [k₆.results, k₅.results, k₃.results, k₁.results]
  · obtain ⟨a, b, hab, ha, hb⟩ := hpins d hd
    exact ⟨a, b, hg.constraints _ hab, ha.grows hg, hb.grows hg⟩

/-- The ties of one child extent to its tile's dimensions, by the range the child's relation
gives it: an extent passed straight through to dimension `j` is the extent `inner` gives `j` or is
posted equal to it, and an extent over a constant range is posted equal to the range's extent. -/
def TiesTo (inner : List Nat) (m : Model) (range : AffineRange) (e : Nat) : Prop :=
  (∀ j, range.asPureDim? = some j → j < inner.length →
    inner.getD j 0 = e ∨ Constraint.equal (inner.getD j 0) e ∈ m.constraints) ∧
  ∀ o x, range.asConstant? = some (o, x) → ∃ b, Constraint.equal e b ∈ m.constraints ∧ m.Denotes b fun _ => x

theorem TiesTo.grows {inner : List Nat} {m m' : Model} {range : AffineRange} {e : Nat}
    (h : TiesTo inner m range e) (hg : m.Grows m') : TiesTo inner m' range e := by
  refine ⟨fun j hj hlt => (h.1 j hj hlt).imp_right (hg.constraints _), fun o x hc => ?_⟩
  obtain ⟨b, hb, hd⟩ := h.2 o x hc
  exact ⟨b, hg.constraints _ hb, hd.grows hg⟩

def FoundTie (found : List (Option Nat)) (m : Model) (range : AffineRange) (e : Nat) : Prop :=
  (∀ j, range.asPureDim? = some j → j < found.length →
    ∃ a, found[j]? = some (some a) ∧ (a = e ∨ Constraint.equal a e ∈ m.constraints)) ∧
  ∀ o x, range.asConstant? = some (o, x) → ∃ b, Constraint.equal e b ∈ m.constraints ∧ m.Denotes b fun _ => x

def FoundKept (found found' : List (Option Nat)) : Prop :=
  found'.length = found.length ∧ ∀ (j a : Nat), found[j]? = some (some a) → found'[j]? = some (some a)

theorem FoundTie.keep {found found' : List (Option Nat)} {m m' : Model} {range : AffineRange} {e : Nat}
    (h : FoundTie found m range e) (hk : FoundKept found found') (hg : m.Grows m') :
    FoundTie found' m' range e := by
  refine ⟨fun j hj hlt => ?_, fun o x hc => ?_⟩
  · obtain ⟨a, ha, hae⟩ := h.1 j hj (hk.1 ▸ hlt)
    exact ⟨a, hk.2 j a ha, hae.imp_right (hg.constraints _)⟩
  · obtain ⟨b, hb, hd⟩ := h.2 o x hc
    exact ⟨b, hg.constraints _ hb, hd.grows hg⟩

def ChildTied (t : TileTree) (P : AffineRange → Nat → Prop) (c : Nat) (es : List Nat) : Prop :=
  ∀ rel, t.relation c = .ok (some rel) → ∀ (k : Nat) range e, rel.results[k]? = some range →
    es[k]? = some e → P range e

namespace FoundKept

theorem refl (found : List (Option Nat)) : FoundKept found found := ⟨rfl, fun _ _ h => h⟩

theorem trans {a b c : List (Option Nat)} (h₁ : FoundKept a b) (h₂ : FoundKept b c) : FoundKept a c :=
  ⟨h₂.1.trans h₁.1, fun j x h => h₂.2 j x (h₁.2 j x h)⟩

theorem set {found : List (Option Nat)} {j : Nat} (hj : found.getD j none = none) (e : Nat) :
    FoundKept found (if j < found.length then found.set j (some e) else found) := by
  split
  · refine ⟨List.length_set .., fun i a h => ?_⟩
    have hij : i ≠ j := by
      rintro rfl
      rw [List.getD_eq_getElem?_getD, h] at hj
      cases hj
    rw [List.getElem?_set_ne hij.symm]
    exact h
  · exact refl found

end FoundKept

theorem ChildTied.mono {t : TileTree} {P P' : AffineRange → Nat → Prop} {c : Nat} {es : List Nat}
    (h : ChildTied t P c es) (hP : ∀ range e, P range e → P' range e) : ChildTied t P' c es :=
  fun rel hrel k range e hr he => hP range e (h rel hrel k range e hr he)

theorem getElem?_of_getD_eq_some {α : Type} {l : List (Option α)} {j : Nat} {a : α}
    (h : l.getD j none = some a) : l[j]? = some (some a) := by
  rw [List.getD_eq_getElem?_getD] at h
  cases hl : l[j]? with
  | none => rw [hl] at h; cases h
  | some o => rw [hl, Option.getD_some] at h; rw [h]

theorem FoundTie.tiesTo {found : List (Option Nat)} {inner : List Nat} {m : Model} {range : AffineRange} {e : Nat}
    (h : FoundTie found m range e) (hlen : inner.length = found.length)
    (hget : ∀ j < found.length, found.getD j none = some (inner.getD j 0)) : TiesTo inner m range e := by
  refine ⟨fun j hj hlt => ?_, h.2⟩
  obtain ⟨a, ha, hae⟩ := h.1 j hj (hlen ▸ hlt)
  rw [getElem?_of_getD_eq_some (hget j (hlen ▸ hlt))] at ha
  cases ha
  exact hae

theorem runs_childExtents {t : TileTree} {id rank : Nat} {children : List (Nat × InitResult)}
    {s s' : SolveState} {inner : List Nat} (hb : s.model.Built)
    (h : Runs (childExtents t id rank children) s inner s') :
    OnlyModel s s' ∧ inner.length = rank ∧ ∀ x ∈ children, ChildTied t (TiesTo inner s'.model) x.1 x.2.extents := by
  unfold childExtents at h
  rw [runs_bind] at h
  obtain ⟨found, s₁, hfold, hmap⟩ := h
  -- over the children: the ties of the children handled, to the extents gathered so far
  have key := runs_foldlM_steps (J := fun done found u => OnlyModel s u ∧ found.length = rank ∧
      ∀ x ∈ done, ChildTied t (FoundTie found u.model) x.1 x.2.extents) [] ?child ⟨.refl s, by simp, by simp⟩ hfold
  case child =>
    rintro ⟨child, res⟩ - done found u found' u' ⟨k₀, hlen, hold⟩ hrun
    rw [runs_bind] at hrun
    obtain ⟨orel, u₁, hrel, hrun⟩ := hrun
    obtain ⟨hrel, hu₁⟩ := runs_tree.1 hrel
    rw [hu₁] at hrun
    split at hrun
    · rename_i rel
      -- over the results of the child's relation: each extent tied on its own
      have hres := runs_foldlM_steps (J := fun doneK found' u' => OnlyModel u u' ∧ found'.length = rank ∧
          FoundKept found found' ∧ ∀ y ∈ doneK, ∀ e, res.extents[y.2]? = some e → FoundTie found' u'.model y.1 e)
        [] ?result ⟨.refl u, hlen, .refl _, by simp⟩ hrun
      case result =>
        rintro ⟨range, k⟩ - doneK found₁ u₂ found₂ u₃ ⟨k₁, hlen₁, hkept, hprev⟩ hstep
        have hb₂ : u₂.model.Built := (k₀.trans k₁).steady.built hb
        obtain ⟨k₂, hkept₂, hnew⟩ : OnlyModel u₂ u₃ ∧ FoundKept found₁ found₂ ∧
            ∀ e, res.extents[k]? = some e → FoundTie found₂ u₃.model range e := by
          dsimp only at hstep
          split at hstep
          · rename_i ext hext
            split at hstep
            · -- a dimension passed straight through
              rename_i j hj
              have hconst : ∀ o x, range.asConstant? = some (o, x) → False := fun o x hc => by
                rw [AffineRange.asPureDim?_eq_none hc] at hj
                cases hj
              split at hstep
              · -- tied to the extent found before
                rename_i prev hprev
                rw [runs_bind] at hstep
                obtain ⟨_, u₄, hpost, hpure⟩ := hstep
                obtain ⟨rfl, rfl⟩ := runs_pure.1 hpure
                obtain rfl := runs_post.1 hpost
                refine ⟨.of_model (fun h => h.addEqual _ _) (Model.Grows.addEqual _ _ _), .refl _,
                  fun e he => ⟨fun j' hj' _ => ?_, fun o x hc => (hconst o x hc).elim⟩⟩
                rw [hext] at he
                cases he
                rw [hj] at hj'
                cases hj'
                exact ⟨prev, getElem?_of_getD_eq_some hprev, .inr Array.mem_push_self⟩
              · -- the first extent found for the dimension
                rename_i hnone
                obtain ⟨rfl, rfl⟩ := runs_pure.1 hstep
                refine ⟨.refl _, FoundKept.set hnone ext, fun e he => ⟨fun j' hj' hlt => ?_,
                  fun o x hc => (hconst o x hc).elim⟩⟩
                rw [hext] at he
                cases he
                rw [hj] at hj'
                cases hj'
                by_cases hjl : j < found₁.length
                · rw [if_pos hjl]
                  exact ⟨ext, List.getElem?_set_self hjl, .inl rfl⟩
                · rw [if_neg hjl] at hlt
                  exact absurd hlt hjl
            · rename_i hj
              have hpure : ∀ j, range.asPureDim? = some j → False := fun j h => by
                rw [hj] at h
                cases h
              split at hstep
              · -- a constant range: the extent pinned to the range's
                rename_i o extent hc
                simp only [runs_bind] at hstep
                obtain ⟨pinned, u₄, hconst, _, u₅, hpost, hpure'⟩ := hstep
                obtain ⟨rfl, rfl⟩ := runs_pure.1 hpure'
                obtain ⟨rfl, rfl⟩ := runs_build.1 hconst
                obtain rfl := runs_post.1 hpost
                refine ⟨.of_model (fun h => (h.constant extent).addEqual _ _)
                  ((Model.Grows.constant _ _).trans (Model.Grows.addEqual _ _ _)), .refl _,
                  fun e he => ⟨fun j' hj' _ => (hpure j' hj').elim, fun o' x hc' => ?_⟩⟩
                rw [hext] at he
                cases he
                rw [hc] at hc'
                cases hc'
                exact ⟨_, Array.mem_push_self,
                  (Model.Denotes.constant hb₂.constantsNamed extent).grows (Model.Grows.addEqual _ _ _)⟩
              · rename_i hc
                obtain ⟨rfl, rfl⟩ := runs_pure.1 hstep
                refine ⟨.refl _, .refl _, fun e _ => ⟨fun j' hj' _ => (hpure j' hj').elim, fun o x hc' => ?_⟩⟩
                rw [hc] at hc'
                cases hc'
          · rename_i hext
            obtain ⟨rfl, rfl⟩ := runs_pure.1 hstep
            exact ⟨.refl _, .refl _, fun e he => absurd he (hext e)⟩
        refine ⟨k₁.trans k₂, hkept₂.1.trans hlen₁, hkept.trans hkept₂, fun y hy e he => ?_⟩
        rcases List.mem_append.1 hy with hy | hy
        · exact (hprev y hy e he).keep hkept₂ k₂.steady.grows
        · obtain rfl := List.mem_singleton.1 hy
          exact hnew e he
      obtain ⟨k₁, hlen₁, hkept, hres⟩ := hres
      refine ⟨k₀.trans k₁, hlen₁, fun x hx => ?_⟩
      rcases List.mem_append.1 hx with hx | hx
      · exact (hold x hx).mono fun range e h => h.keep hkept k₁.steady.grows
      · obtain rfl := List.mem_singleton.1 hx
        intro rel' hrel' k range e hr he
        rw [hrel] at hrel'
        cases hrel'
        exact hres (range, k) (by simpa using List.mem_zipIdx_iff_getElem?.2 hr) e he
    · exact absurd hrun not_runs_throw
  obtain ⟨k₁, hlen, hties⟩ := key
  -- one extent per dimension, the one gathered for it
  obtain ⟨k₂, hget⟩ := Moves.mapM_forall₂ (R := OnlyModel) (I := fun _ => True)
    (Q := fun (x : Option Nat × Nat) (y : Nat) (_ : SolveState) => x.1 = some y)
    (fun _ _ _ _ => trivial) (fun _ _ _ _ h _ => h)
    (fun x _ => by
      obtain ⟨e, dim⟩ := x
      cases e with
      | none => exact Moves.throw _
      | some e => exact Moves.pure _)
    (fun x _ _ y _ _ hrun => by
      obtain ⟨e, dim⟩ := x
      cases e with
      | none => exact absurd hrun not_runs_throw
      | some e =>
        obtain ⟨rfl, rfl⟩ := runs_pure.1 hrun
        rfl) hmap
  obtain ⟨hlen', hget⟩ := forall₂_zipIdx_getD (hget trivial) none 0
  refine ⟨k₁.trans k₂, hlen'.trans hlen, fun x hx => (hties x (by simpa using hx)).mono fun range e h => ?_⟩
  exact (h.keep (.refl _) k₂.steady.grows).tiesTo hlen' hget

theorem runs_backwardRows_head {tileVars inner : List Nat} {s s' : SolveState} {rows : List (List Nat)}
    (h : Runs (backwardRows tileVars inner) s rows s') : (rows.headD []).length = inner.length := by
  unfold backwardRows at h
  have hrows := runs_mapM_post (Q := fun row : List Nat => row.length = inner.length)
    (fun _ _ _ _ _ hrow => by simpa using runs_mapM_length hrow) h
  have hlen := runs_mapM_length h
  cases rows with
  | nil => simp at hlen
  | cons row rows => exact hrows row List.mem_cons_self

theorem onlyModel_placeBuffer (id level firstPos : Nat) (backward : List (List Nat)) (b : BufferResult) :
    Moves OnlyModel (placeBuffer id level firstPos backward b) := by
  intro s tb s' h
  unfold placeBuffer at h
  rw [runs_bind] at h
  obtain ⟨rows, s₁, hrows, h⟩ := h
  have k₁ : OnlyModel s s₁ := (Moves.mapM fun _ _ => Moves.bind (Moves.mapM fun _ _ =>
    onlyModel_build (fun _ h => .newBool _ h) fun m => Model.Grows.newBool m _) fun _ =>
      Moves.bind (Moves.tree _) fun _ => Moves.bind (moves_shapeAndSize _ _ _) fun _ => Moves.pure _) _ _ _ hrows
  rw [runs_bind] at h
  obtain ⟨st, s₂, hget, h⟩ := h
  obtain ⟨rfl, rfl⟩ := runs_get.1 hget
  split at h
  · rename_i m hm
    simp only [runs_bind, runs_set, runs_pure] at h
    obtain ⟨_, _, rfl, rfl, rfl⟩ := h
    exact k₁.trans (.of_model (fun hb => .addExactlyOne _ hb hm) (Model.Grows.addExactlyOne hm))
  · obtain ⟨_, _, h, -⟩ := runs_bind.1 h
    exact absurd h not_runs_throw

theorem runs_finishTile_extents {g : Dataflow} {tgt : Target} {t : TileTree} {id : Nat} {tile : TileNode}
    {ctx : InitContext} {domain : DomainInfo} {children : List (Nat × InitResult)} {s s' : SolveState}
    {r : InitResult} (hb : s.model.Built) (h : Runs (finishTile g tgt t id tile ctx domain children) s r s') :
    ∃ (info : TileInfo) (inner : List Nat), s'.memo = { s.memo with tiles := s.memo.tiles.set! id (some info) } ∧
      s'.results = s.results.set! id (some r) ∧ r.extents = info.fullExtents ∧
      info.fullExtents.length = tile.bounds.length ∧ inner.length = tile.bounds.length ∧
      s.model.Grows s'.model ∧ s'.model.Built ∧
      (∀ x ∈ children, ChildTied t (TiesTo inner s'.model) x.1 x.2.extents) ∧
      (ctx.parent = none → ∀ j < tile.bounds.length, ∃ b,
        Constraint.equal (info.fullExtents.getD j 0) b ∈ s'.model.constraints ∧
          s'.model.Denotes b fun _ => tile.bounds.getD j 0) := by
  unfold finishTile at h
  simp only [runs_bind] at h
  obtain ⟨inner, s₁, h₁, backward, s₂, h₂, h⟩ := h
  rw [runs_ite_bind] at h
  obtain ⟨_, s₃, h₃, h⟩ := runs_bind.1 h
  simp only [runs_bind] at h
  obtain ⟨lifted, s₄, h₄, ⟨buffers, defUse⟩, s₅, h₅, placed, s₆, h₆, _, s₇, h₇, _, s₈, h₈, _, s₉, h₉,
    h₁₀⟩ := h
  obtain ⟨rfl, rfl⟩ := runs_pure.1 h₁₀
  obtain ⟨k₁, hlen, hties⟩ := runs_childExtents hb h₁
  have k₂ : OnlyModel s₁ s₂ := moves_backwardRows _ _ _ _ _ h₂
  have hhead := runs_backwardRows_head h₂
  -- at a root, each full extent is pinned to its bound
  obtain ⟨k₃, hpins⟩ : OnlyModel s₂ s₃ ∧ (ctx.parent = none → ∀ x ∈ tile.bounds.zipIdx, ∃ b,
      Constraint.equal ((backward.headD []).getD x.2 0) b ∈ s₃.model.constraints ∧
        s₃.model.Denotes b fun _ => x.1) := by
    have hb₂ : s₂.model.Built := k₂.steady.built (k₁.steady.built hb)
    split at h₃
    · have key := runs_forIn_inv (J := fun done _ u => OnlyModel s₂ u ∧ ∀ x ∈ done, ∃ b,
          Constraint.equal ((backward.headD []).getD x.2 0) b ∈ u.model.constraints ∧ u.model.Denotes b fun _ => x.1)
        [] ?pin ⟨.refl _, by simp⟩ h₃
      case pin =>
        rintro ⟨bound, j⟩ - done _ u y u' ⟨k, hdone⟩ hrun
        simp only [runs_bind] at hrun
        obtain ⟨c, u₁, hc, row, u₂, hrow, e, u₃, he, _, u₄, hpost, hpure⟩ := hrun
        obtain ⟨rfl, rfl⟩ := runs_pure.1 hpure
        obtain ⟨rfl, rfl⟩ := runs_build.1 hc
        obtain ⟨hrow', hu₂⟩ := runs_tree.1 hrow
        obtain ⟨he', hu₃⟩ := runs_tree.1 he
        subst hu₂ hu₃
        obtain rfl := runs_post.1 hpost
        have hbu : u.model.Built := k.steady.built hb₂
        have hg : u.model.Grows ((u.model.constant bound).1.addEqual e (u.model.constant bound).2) :=
          (Model.Grows.constant _ _).trans (Model.Grows.addEqual _ _ _)
        refine ⟨_, rfl, k.trans (.of_model (fun h => (h.constant bound).addEqual _ _) hg), fun x hx => ?_⟩
        rcases List.mem_append.1 hx with hx | hx
        · obtain ⟨b, hmem, hd⟩ := hdone x hx
          exact ⟨b, hg.constraints _ hmem, hd.grows hg⟩
        · obtain rfl := List.mem_singleton.1 hx
          have hrow₀ : row = backward.headD [] := by
            cases backward with
            | nil => cases itemAt_eq_ok.1 hrow'
            | cons r rs => exact (Option.some.inj (itemAt_eq_ok.1 hrow')).symm
          have he₀ : e = row.getD j 0 := by
            rw [List.getD_eq_getElem?_getD, itemAt_eq_ok.1 he', Option.getD_some]
          subst hrow₀ he₀
          exact ⟨_, Array.mem_push_self,
            (Model.Denotes.constant hbu.constantsNamed bound).grows (Model.Grows.addEqual _ _ _)⟩
      exact ⟨key.1, fun _ x hx => key.2 x (by simpa using hx)⟩
    · obtain ⟨-, rfl⟩ := runs_pure.1 h₃
      exact ⟨.refl _, fun hp => by simp_all⟩
  -- lifting, joining and placing the buffers only build
  have k₄ : OnlyModel s₃ s₄ := by
    refine (Moves.foldlM _ fun x _ acc => Moves.bind (Moves.tree _) fun _ => ?_) _ _ _ h₄
    split
    · exact Moves.bind (Moves.mapM fun _ _ => Moves.bind (Moves.lift _) fun _ => Moves.pure _)
        fun _ => Moves.pure _
    · exact Moves.throw _
  have k₅ : OnlyModel s₄ s₅ := moves_resolveDefUse _ _ _ _ _ h₅
  have k₆ : OnlyModel s₅ s₆ := (Moves.mapM fun _ _ => onlyModel_placeBuffer _ _ _ _ _) _ _ _ h₆
  have k₇ := onlyModel_record _ _ _ _ _ _ h₇
  obtain rfl := runs_memo.1 h₈
  obtain rfl := runs_modify.1 h₉
  have k : OnlyModel s₂ s₇ := k₃.trans (k₄.trans (k₅.trans (k₆.trans k₇)))
  refine ⟨⟨defUse, placed, backward⟩, inner, ?_, ?_, rfl, hhead.trans hlen, hlen,
    (k₁.trans (k₂.trans k)).steady.grows, (k₁.trans (k₂.trans k)).steady.built hb,
    fun x hx => (hties x hx).mono fun range e h => h.grows (k₂.trans k).steady.grows, fun hp j hj => ?_⟩
  · simp [k.memo, k₂.memo, k₁.memo]
  · simp [k.results, k₂.results, k₁.results]
  · have hmem : (tile.bounds.getD j 0, j) ∈ tile.bounds.zipIdx := by
      rw [List.mem_zipIdx_iff_getElem?, List.getD_eq_getElem?_getD, List.getElem?_eq_getElem hj]
      rfl
    obtain ⟨b, hmem, hd⟩ := hpins hp _ hmem
    have hg := (k₄.trans (k₅.trans (k₆.trans k₇))).steady.grows
    exact ⟨b, hg.constraints _ hmem, hd.grows hg⟩

end Init

end TileSched
