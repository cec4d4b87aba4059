import Mathlib
import TileSched.Proofs.Fusion.Candidates
import TileSched.Proofs.Schedule.ExactTiling
import TileSched.Proofs.Schedule.Solved
/-! What a solve reports of its tile counts. The passes after the first only grow the model, keep
the domain and operation entries, and rewrite tile entries with their backward extents unchanged;
the search answers with an assignment of the model, and the read back reports every node's counts
and extents under it. So the facts the first pass leaves read, in the solved tree, as exact tilings:
the root reports its bounds, every leaf's primitive tile times the counts along a dimension's chain
is the operation's bound, siblings agree on the dimensions they share, constant ranges report their
extents and every count divides its bound. -/

namespace TileSched

open Solving

/-! The later passes keep the first pass's entries. -/

/-- The model grows and stays built, the domain and operation entries stay, and every tile entry
keeps its backward extents. -/
structure EntriesKept (s s' : SolveState) : Prop where
  built : s.model.Built → s'.model.Built
  grows : s.model.Grows s'.model
  domains : s'.memo.domains = s.memo.domains
  ops : s'.memo.ops = s.memo.ops
  backward : ∀ j, (s'.memo.tile? j).map TileInfo.backwardExtents = (s.memo.tile? j).map TileInfo.backwardExtents

namespace EntriesKept

variable {s u s' : SolveState}

theorem refl (s : SolveState) : EntriesKept s s := ⟨id, Model.Grows.refl _, rfl, rfl, fun _ => rfl⟩

theorem trans (h₁ : EntriesKept s u) (h₂ : EntriesKept u s') : EntriesKept s s' :=
  ⟨h₂.built ∘ h₁.built, h₁.grows.trans h₂.grows, h₂.domains.trans h₁.domains, h₂.ops.trans h₁.ops,
    fun j => (h₂.backward j).trans (h₁.backward j)⟩

instance : Std.Refl EntriesKept := ⟨refl⟩

instance : IsTrans SolveState EntriesKept := ⟨fun _ _ _ => trans⟩

theorem of_onlyModel (h : OnlyModel s s') : EntriesKept s s' :=
  ⟨h.steady.built, h.steady.grows, by rw [h.memo], by rw [h.memo], fun j => by rw [h.memo]⟩

theorem sameAt (h : EntriesKept s s') (j : Nat) : s.memo.SameAt s'.memo j :=
  ⟨by simp only [SolveMemo.op?, h.ops], h.backward j⟩

theorem domainsKept (h : EntriesKept s s') : s.memo.DomainsKept s'.memo := fun j dom hj => by
  simpa only [SolveMemo.domain?, h.domains] using hj

end EntriesKept

theorem Solving.Moves.entriesKept {α : Type} {x : Solving α} (h : Moves OnlyModel x) : Moves EntriesKept x :=
  fun s a s' hr => .of_onlyModel (h s a s' hr)

instance : Builds EntriesKept where
  const c := Moves.entriesKept (Builds.const (R := OnlyModel) c)
  scale e f := Moves.entriesKept (Builds.scale (R := OnlyModel) e f)
  mul a b := Moves.entriesKept (Builds.mul (R := OnlyModel) a b)
  product es := Moves.entriesKept (Builds.product (R := OnlyModel) es)
  linear ts c := Moves.entriesKept (Builds.linear (R := OnlyModel) ts c)
  addEqual a b := Moves.entriesKept (Builds.addEqual (R := OnlyModel) a b)

namespace Writes

/-- The steps of `fillBuffer` after it reads the memo of `a`: from a state whose tile entries have
the backward extents of `a`'s, they keep the entries. -/
def FillKept (a s s' : SolveState) : Prop :=
  (∀ j, (s.memo.tile? j).map TileInfo.backwardExtents = (a.memo.tile? j).map TileInfo.backwardExtents) →
    EntriesKept s s'

instance (a : SolveState) : Std.Refl (FillKept a) := ⟨fun s _ => .refl s⟩

instance (a : SolveState) : IsTrans SolveState (FillKept a) :=
  ⟨fun _ _ _ h₁ h₂ ha => (h₁ ha).trans (h₂ fun j => ((h₁ ha).backward j).trans (ha j))⟩

theorem fillKept_of_onlyModel {a : SolveState} {α : Type} {x : Solving α} (h : Moves OnlyModel x) :
    Moves (FillKept a) x :=
  fun _ _ _ hr _ => .of_onlyModel (h _ _ _ hr)

theorem fillKept_write {a : SolveState} {id : Nat} {tile : TileInfo} (htile : a.memo.tile? id = some tile)
    (bufs : List TileBuffer) :
    Moves (FillKept a) (Solving.memo fun m => { m with tiles := m.tiles.set! id (some { tile with buffers := bufs }) }) :=
  fun _ _ _ hr ha => by
  obtain rfl := runs_memo.1 hr
  refine ⟨fun hb => hb, Model.Grows.refl _, rfl, rfl, fun j => ?_⟩
  simp only [SolveMemo.tile?]
  rw [getD_set!]
  split
  · rename_i hj
    obtain ⟨rfl, -⟩ := hj
    have h := ha j
    rw [htile] at h
    simpa only [SolveMemo.tile?, Option.map_some] using h.symm
  · rfl

theorem onlyModel_inheritedTrips (memo : SolveMemo) (rank : Nat) (domain : DomainInfo) (parent : Option Nat)
    (one : Nat) (bid : BufferId) : Moves OnlyModel (inheritedTrips memo rank domain parent one bid) := by
  unfold inheritedTrips
  split
  · exact Moves.pure _
  · split
    · exact Moves.pure _
    · exact Moves.throw _

theorem entriesKept_fillBuffer (id rank : Nat) (domain : DomainInfo) (parent : Option Nat) (one : Nat)
    (bid : BufferId) : Moves EntriesKept (fillBuffer id rank domain parent one bid) := by
  intro s u s' h
  unfold fillBuffer at h
  obtain ⟨a, t, hget, hcont⟩ := runs_bind.1 h
  obtain ⟨rfl, rfl⟩ := runs_get.1 hget
  refine (?_ : Moves (FillKept t) _) t u s' hcont fun _ => rfl
  dsimp only
  refine Moves.bind (fillKept_of_onlyModel (onlyModel_inheritedTrips _ _ _ _ _ _)) fun inherited => ?_
  split
  · refine Moves.bind (fillKept_of_onlyModel ?_) fun dimTrips =>
      Moves.bind (fillKept_of_onlyModel (Builds.product _)) fun total =>
        Moves.bind (fillKept_of_onlyModel ?_) fun tw => ?_
    · refine Moves.mapM fun k _ => ?_
      split
      · exact Moves.bind (Moves.tree _) fun _ => Moves.bind (Moves.tree _) fun _ => Builds.mul _ _
      · exact Moves.bind (Moves.pure _) fun _ => Moves.bind (Moves.tree _) fun _ => Builds.mul _ _
    · exact Moves.mapM fun _ _ => Moves.bind (Moves.mapM fun _ _ => Moves.tree _) fun _ =>
        Moves.bind (Builds.product _) fun _ => Moves.bind (Moves.tree _) fun _ =>
          Moves.bind (Builds.mul _ _) fun _ => Moves.pure _
    split
    · rename_i tile htile
      split
      · exact fillKept_write htile _
      · exact Moves.throw _
    · exact Moves.throw _
  · exact Moves.throw _

theorem entriesKept_visit (t : TileTree) :
    ∀ (f id : Nat) (parent : Option Nat), Moves EntriesKept (visit t f id parent)
  | 0, _, _ => Moves.pure _
  | f + 1, id, parent => by
    rw [visit]
    refine Moves.bind (Moves.tree _) fun kind => ?_
    split
    · exact Moves.pure _
    · refine Moves.bind Moves.get fun st => ?_
      split
      · refine Moves.bind (Builds.const 1) fun one => Moves.bind Moves.get fun st' => ?_
        split
        · exact Moves.bind (Moves.forIn _ fun _ _ _ =>
            Moves.bind (entriesKept_fillBuffer _ _ _ _ _ _) fun _ => Moves.pure _) fun _ =>
              Moves.bind (Moves.tree _) fun _ => Moves.bind (Moves.forIn _ fun _ _ _ =>
                Moves.bind (entriesKept_visit t f _ _) fun _ => Moves.pure _) fun _ => Moves.pure _
        · exact Moves.throw _
      · exact Moves.throw _
    · exact Moves.bind (Moves.tree _) fun _ => Moves.bind (Moves.forIn _ fun _ _ _ =>
        Moves.bind (entriesKept_visit t f _ _) fun _ => Moves.pure _) fun _ => Moves.pure _

end Writes

theorem entriesKept_propagateWrites (t : TileTree) : Moves EntriesKept t.propagateWrites :=
  Writes.entriesKept_visit t _ _ _

namespace Tiler

variable {tl : Tiler} {t : TileTree}

theorem onlyModel_noteBackend (tl : Tiler) : Moves OnlyModel tl.noteBackend := by
  unfold noteBackend
  split
  · exact onlyModel_record _ _ _
  · exact Moves.pure _

theorem onlyModel_heldTerms (sl : Nat) (held : List TileBuffer) : Moves OnlyModel (heldTerms sl held) :=
  Moves.flatMapM fun _ _ => Moves.mapM fun _ _ =>
    Moves.bind (Moves.tree _) fun _ => Moves.bind (Moves.tree _) fun _ => Builds.mul _ _

theorem onlyModel_postCapacity (tl : Tiler) (t : TileTree) : Moves OnlyModel (tl.postCapacity t) := by
  unfold postCapacity
  refine Moves.bind Moves.get fun _ => Moves.bind (Moves.forIn _ fun _ _ _ => ?_) fun _ => Moves.pure _
  refine Moves.bind (Moves.tree _) fun _ => Moves.bind Moves.get fun _ => ?_
  -- the walk up to the enclosing tiles only reads the tree
  refine Moves.bind (Moves.tree _) fun _ => Moves.bind (fun _ _ _ h => ?_) fun _ => ?_
  · obtain ⟨rfl, -⟩ := runs_ancestors t _ h
    exact OnlyModel.refl _
  refine Moves.bind (Moves.forIn _ fun _ _ _ => ?_) fun _ => Moves.pure _
  refine Moves.bind (Moves.forIn _ fun _ _ _ => ?_) fun _ => Moves.pure _
  dsimp only
  split
  · split
    · exact Moves.pure _
    · exact Moves.bind (onlyModel_heldTerms _ _) fun _ =>
        Moves.bind (onlyModel_build (fun _ h => h.sum _) fun m => Model.Grows.sum m _) fun _ =>
          Moves.bind (Builds.const _) fun _ =>
            Moves.bind (onlyModel_post (fun _ h => .addLessEqual _ _ h) fun m => Model.Grows.addLessEqual m _ _)
              fun _ => Moves.pure _
  · exact Moves.pure _

theorem onlyModel_objective (tl : Tiler) (t : TileTree) : Moves OnlyModel (tl.objective t) := by
  unfold objective movedTerms
  exact Moves.bind Moves.get fun _ => Moves.bind (Moves.flatMapM fun _ _ => Moves.mapM fun _ _ =>
    Moves.bind (Moves.tree _) fun _ => Moves.bind (Builds.mul _ _) fun _ => Moves.pure _) fun _ =>
      Moves.bind (onlyModel_record _ _ _) fun _ => Builds.linear _ _

theorem onlyModel_minimize (tl : Tiler) (obj : Nat) : Moves OnlyModel (tl.minimize obj) := by
  unfold minimize
  refine Moves.bind Moves.get fun st => ?_
  split
  refine Moves.bind (Moves.forIn _ fun _ _ _ => Moves.bind (onlyModel_record _ _ _) fun _ => Moves.pure _)
    fun _ => ?_
  split
  · exact Moves.pure _
  · exact Moves.throw _

theorem solveTiled_stages {s s' : SolveState} {st : SolvedTree} (h : Runs (tl.solveTiled t) s st s') :
    ∃ (s₁ s₂ s₅ s₆ : SolveState) (r : InitResult) (obj : Nat) (sol : Solution),
      OnlyModel s s₁ ∧ Runs (t.createVariables tl.dataflow tl.target) s₁ r s₂ ∧ EntriesKept s₂ s₅ ∧
      s₅.model.minimize obj tl.budget = .ok sol ∧ s₆.memo = s₅.memo ∧ s₆.model = s₅.model ∧
      Runs (tl.extract t sol) s₆ st s' := by
  unfold solveTiled at h
  obtain ⟨obj, s₅, hbuild, h₅⟩ := runs_bind.1 h
  unfold buildModel at hbuild
  obtain ⟨_, s₁, h₀, h₁⟩ := runs_bind.1 hbuild
  obtain ⟨r, s₂, hcv, h₂⟩ := runs_bind.1 h₁
  obtain ⟨_, s₃, hpw, h₃⟩ := runs_bind.1 h₂
  obtain ⟨_, s₄, hpc, hobj⟩ := runs_bind.1 h₃
  -- the second pass keeps the entries; the capacity pass and the objective only build
  have k₅ : EntriesKept s₂ s₅ := (entriesKept_propagateWrites t _ _ _ hpw).trans
    ((EntriesKept.of_onlyModel (onlyModel_postCapacity tl t _ _ _ hpc)).trans
      (.of_onlyModel (onlyModel_objective tl t _ _ _ hobj)))
  obtain ⟨sol, s₆, hmin, h₆⟩ := runs_bind.1 h₅
  obtain ⟨k₆, hsol⟩ := runs_minimize hmin
  have m₆ := onlyModel_minimize tl obj _ _ _ hmin
  -- the note of an exhausted budget reads the model and keeps the memo
  obtain ⟨s₇, k₇, m₇, h₇⟩ : ∃ s₇, Reads s₆ s₇ ∧ OnlyModel s₆ s₇ ∧ Runs (tl.extract t sol) s₇ st s' := by
    dsimp only at h₆
    split at h₆
    · obtain ⟨_, s₇, hrec, h₇⟩ := runs_bind.1 h₆
      exact ⟨s₇, reads_record _ _ _ _ _ _ hrec, onlyModel_record _ _ _ _ _ _ hrec, h₇⟩
    · exact ⟨s₆, Reads.refl _, OnlyModel.refl _, h₆⟩
  exact ⟨s₁, s₂, s₅, s₇, r, obj, sol, onlyModel_noteBackend tl _ _ _ h₀, hcv, k₅, hsol,
    by rw [m₇.memo, m₆.memo], by rw [k₇.model, k₆.model], h₇⟩

theorem runs_extract_sizes {sol : Solution} {s s' : SolveState} {st : SolvedTree} {ids : List Nat}
    (h : Runs (tl.extract t sol) s st s') (hpre : t.preorder t.root = .ok ids) :
    st.sizes = ids.filterMap (fun id => (s.memo.domain? id).map fun d =>
      ⟨id, d.tileVars.map sol.value, (s.memo.extentsAt id).map sol.value⟩) := by
  unfold extract at h
  obtain ⟨s₀, t₀, hget, h₁⟩ := runs_bind.1 h
  obtain ⟨rfl, rfl⟩ := runs_get.1 hget
  obtain ⟨ids', t₁, hids, h₂⟩ := runs_bind.1 h₁
  obtain ⟨hids', rfl⟩ := runs_tree.1 hids
  rw [hpre, Except.ok.injEq] at hids'
  subst hids'
  obtain ⟨placements, t₂, -, h₃⟩ := runs_bind.1 h₂
  obtain ⟨rfl, -⟩ := runs_pure.1 h₃
  rfl

theorem onlyModel_extract (tl : Tiler) (t : TileTree) (sol : Solution) : Moves OnlyModel (tl.extract t sol) := by
  unfold extract
  refine Moves.bind Moves.get fun _ => Moves.bind (Moves.tree _) fun _ =>
    Moves.bind (Moves.mapM fun x _ => ?_) fun _ => Moves.pure _
  obtain ⟨id, b⟩ := x
  dsimp only
  split
  · exact Moves.bind (Moves.tree _) fun _ => Moves.bind (Moves.tree _) fun _ =>
      Moves.bind (Moves.tree _) fun _ => Moves.pure _
  · exact Moves.throw _

end Tiler

/-! Reading the solved tree. -/

namespace SolvedTree

/-- The tile count a solved tree reports for dimension `d` of node `i`; zero for a node it does not
size. -/
def countAt (st : SolvedTree) (i d : Nat) : Int := ((st.nodeSizes? i).map fun z => z.tileVars.getD d 0).getD 0

def extentsAt (st : SolvedTree) (i : Nat) : List Int := ((st.nodeSizes? i).map (·.extents)).getD []

theorem find?_filterMap_node (f : Nat → Option NodeSizes) (hf : ∀ id z, f id = some z → z.node = id)
    (i : Nat) : ∀ ids : List Nat, (ids.filterMap f).find? (·.node == i) = if i ∈ ids then f i else none
  | [] => rfl
  | a :: ids => by
    rw [List.filterMap_cons]
    cases ha : f a with
    | none =>
      rw [find?_filterMap_node f hf i ids]
      by_cases hia : i = a
      · subst hia
        split <;> simp [ha]
      · simp [hia]
    | some z =>
      have hz := hf a z ha
      rw [List.find?_cons]
      by_cases hia : i = a
      · subst hia
        simp [hz, ha]
      · have hne : (z.node == i) = false := by rw [hz, beq_eq_false_iff_ne]; exact Ne.symm hia
        rw [hne, find?_filterMap_node f hf i ids]
        simp [hia]

theorem reads_entry {st : SolvedTree} {memo : SolveMemo} {sol : Solution} {ids : List Nat}
    (hsizes : st.sizes = ids.filterMap fun id => (memo.domain? id).map fun d =>
      ⟨id, d.tileVars.map sol.value, (memo.extentsAt id).map sol.value⟩)
    {i : Nat} (hi : i ∈ ids) {dom : DomainInfo} (hdom : memo.domain? i = some dom) :
    st.extentsAt i = (memo.extentsAt i).map sol.value ∧
      ∀ d < dom.tileVars.length, st.countAt i d = sol.value (memo.tileVar i d) := by
  have hfind : st.nodeSizes? i = some ⟨i, dom.tileVars.map sol.value, (memo.extentsAt i).map sol.value⟩ := by
    rw [nodeSizes?, hsizes, find?_filterMap_node _ (fun id z h => ?_) i ids, if_pos hi, hdom, Option.map_some]
    obtain ⟨d, -, rfl⟩ := Option.map_eq_some_iff.1 h
    rfl
  refine ⟨by rw [extentsAt, hfind]; rfl, fun d hd => ?_⟩
  rw [countAt, hfind, SolveMemo.tileVar, hdom]
  simp [List.getD_eq_getElem?_getD, hd]

end SolvedTree

/-! Exact tilings. -/

/-- Counts `count` and extents `extents`, read per node and dimension, tile every loop of the tile
subtree `T` of `t` exactly. -/
structure TilesExactly (g : Dataflow) (tgt : Target) (t : TileTree) (T : Subtree)
    (count : Nat → Nat → Int) (extents : Nat → List Int) : Prop where
  /-- The root tile reports its bounds. -/
  root : ∀ n, T.kind = .tile n → extents T.id = n.bounds
  /-- A tile reports one extent per dimension. -/
  tile_length : ∀ Q ∈ T.subs, ∀ n, Q.kind = .tile n → (extents Q.id).length = n.bounds.length
  /-- A leaf reports one extent per dimension of its operation. -/
  leaf_length : ∀ Q ∈ T.subs, ∀ o op, Q.kind = .leaf o → g.ops[o.op]? = some op →
    (extents Q.id).length = op.domainBounds.length
  /-- At a leaf, the primitive tile times the counts along the chain of a dimension is the
  operation's bound. -/
  leaf : ∀ Q ∈ T.subs, ∀ o op, Q.kind = .leaf o → g.ops[o.op]? = some op → ∀ d < op.domainBounds.length,
    (tgt.kernelInfo op).primitive d * ((t.dimChain t.fuel Q.id d).map fun x => count x.1 x.2).prod =
      op.domainBounds.getD d 0
  /-- Child dimensions passed straight through to one dimension of their tile report one extent. -/
  siblings : ∀ P ∈ T.subs, ∀ n, P.kind = .tile n → ∀ c ∈ P.children, ∀ c' ∈ P.children,
    ∀ rel rel' (k k' : Nat) (r r' : AffineRange) (j : Nat) (x x' : Int), t.relation c.id = .ok (some rel) →
      t.relation c'.id = .ok (some rel') → rel.results[k]? = some r → rel'.results[k']? = some r' →
      r.asPureDim? = some j → r'.asPureDim? = some j → j < n.bounds.length →
      (extents c.id)[k]? = some x → (extents c'.id)[k']? = some x' → x = x'
  /-- A child dimension over a constant range reports the range's extent. -/
  constant : ∀ P ∈ T.subs, ∀ n, P.kind = .tile n → ∀ c ∈ P.children, ∀ rel (k : Nat) (r : AffineRange) (o w x : Int),
    t.relation c.id = .ok (some rel) → rel.results[k]? = some r → r.asConstant? = some (o, w) →
      (extents c.id)[k]? = some x → x = w
  /-- A tile's counts divide its bounds. -/
  tile_dvd : ∀ Q ∈ T.subs, ∀ n, Q.kind = .tile n → ∀ d < n.bounds.length, count Q.id d ∣ n.bounds.getD d 0
  /-- A leaf's counts divide its operation's bounds. -/
  leaf_dvd : ∀ Q ∈ T.subs, ∀ o op, Q.kind = .leaf o → g.ops[o.op]? = some op → ∀ d < op.domainBounds.length,
    count Q.id d ∣ op.domainBounds.getD d 0

section Exact

variable {g : Dataflow} {tgt : Target} {t : TileTree} {T : Subtree} {L : Nat}

theorem TileTree.dimLink_eq_some {i d p j : Nat} (h : t.dimLink i d = some (p, j)) :
    i ≠ t.root ∧ t.parent i = .ok (some p) ∧ j < ((t.bounds p).toOption.getD []).length := by
  unfold TileTree.dimLink at h
  by_cases hr : i = t.root
  · rw [if_pos hr] at h
    cases h
  rw [if_neg hr] at h
  split at h
  · rename_i p' rel hpar hrel
    obtain ⟨j', -, hj'⟩ := Option.bind_eq_some_iff.1 h
    split at hj'
    · cases hj'
      exact ⟨hr, hpar, by assumption⟩
    · cases hj'
  · cases h

theorem dimChain_tiles (hT : t.Realizes T) (hroot : T.id = t.root) (htiled : T.Tiled L) :
    ∀ F i d, i ∈ T.ids → ∀ x ∈ t.dimChain F i d, x = (i, d) ∨
      ∃ P ∈ T.subs, ∃ n, P.kind = .tile n ∧ P.id = x.1 ∧ x.2 < n.bounds.length
  | 0, _, _, _, x, hx => by simp [TileTree.dimChain] at hx
  | F + 1, i, d, hi, x, hx => by
    rw [TileTree.dimChain_succ] at hx
    rcases List.mem_cons.1 hx with rfl | hx
    · exact .inl rfl
    cases hl : t.dimLink i d with
    | none => simp [hl] at hx
    | some pj =>
      obtain ⟨p, j⟩ := pj
      rw [hl, Option.map_some, Option.getD_some] at hx
      obtain ⟨hne, hpar, hj⟩ := TileTree.dimLink_eq_some hl
      -- the link goes to the parent, a tile of the subtree
      obtain ⟨Q, hQ, rfl⟩ := List.mem_map.1 hi
      obtain ⟨P, hP, rfl, hQP⟩ := hT.parent_eq_some hQ (fun h => hne (h ▸ hroot)) hpar
      obtain ⟨n, hn, -⟩ := (htiled.of_mem_subs hP).tile_of_child hQP
      have hbounds : ((t.bounds P.id).toOption.getD []).length = n.bounds.length := by
        rw [TileTree.bounds, hT.kind_of_mem hP, hn]
        rfl
      rcases dimChain_tiles hT hroot htiled F P.id j (List.mem_map_of_mem hP) x hx with rfl | hrest
      · exact .inr ⟨P, hP, n, hn, rfl, hbounds ▸ hj⟩
      · exact .inr hrest

theorem TilesExactly.congr {count count' : Nat → Nat → Int} {extents extents' : Nat → List Int}
    (h : TilesExactly g tgt t T count extents) (hT : t.Realizes T) (hroot : T.id = t.root)
    (htiled : T.Tiled L) (hext : ∀ Q ∈ T.subs, extents' Q.id = extents Q.id)
    (htile : ∀ Q ∈ T.subs, ∀ n, Q.kind = .tile n → ∀ d < n.bounds.length, count' Q.id d = count Q.id d)
    (hleaf : ∀ Q ∈ T.subs, ∀ o op, Q.kind = .leaf o → g.ops[o.op]? = some op →
      ∀ d < op.domainBounds.length, count' Q.id d = count Q.id d) :
    TilesExactly g tgt t T count' extents' where
  root n hn := (hext T (Subtree.self_mem_subs T)).trans (h.root n hn)
  tile_length Q hQ n hn := by
    rw [hext Q hQ]
    exact h.tile_length Q hQ n hn
  leaf_length Q hQ o op ho hop := by
    rw [hext Q hQ]
    exact h.leaf_length Q hQ o op ho hop
  leaf Q hQ o op ho hop d hd := by
    -- every link of the chain is a dimension of a tile of the subtree
    have hchain : ((t.dimChain t.fuel Q.id d).map fun x => count' x.1 x.2) =
        (t.dimChain t.fuel Q.id d).map fun x => count x.1 x.2 := by
      refine List.map_congr_left fun x hx => ?_
      rcases dimChain_tiles hT hroot htiled t.fuel Q.id d (List.mem_map_of_mem hQ) x hx with
        rfl | ⟨P, hP, n, hn, hid, hlt⟩
      · exact hleaf Q hQ o op ho hop d hd
      · rw [← hid]
        exact htile P hP n hn x.2 hlt
    rw [hchain]
    exact h.leaf Q hQ o op ho hop d hd
  siblings P hP n hn c hc c' hc' rel rel' k k' r r' j x x' hrel hrel' hr hr' hj hj' hjn hx hx' := by
    have hcs : c ∈ T.subs := Subtree.subs_trans hP (Subtree.mem_subs_of_mem_children hc)
    have hcs' : c' ∈ T.subs := Subtree.subs_trans hP (Subtree.mem_subs_of_mem_children hc')
    rw [hext c hcs] at hx
    rw [hext c' hcs'] at hx'
    exact h.siblings P hP n hn c hc c' hc' rel rel' k k' r r' j x x' hrel hrel' hr hr' hj hj' hjn hx hx'
  constant P hP n hn c hc rel k r o w x hrel hr hw hx := by
    rw [hext c (Subtree.subs_trans hP (Subtree.mem_subs_of_mem_children hc))] at hx
    exact h.constant P hP n hn c hc rel k r o w x hrel hr hw hx
  tile_dvd Q hQ n hn d hd := by
    rw [htile Q hQ n hn d hd]
    exact h.tile_dvd Q hQ n hn d hd
  leaf_dvd Q hQ o op ho hop d hd := by
    rw [hleaf Q hQ o op ho hop d hd]
    exact h.leaf_dvd Q hQ o op ho hop d hd

theorem tilesExactly_of_pinned {B : Nat} {m m' : Model} {memo : SolveMemo} {val : Nat → Int}
    (hT : t.Realizes T) (hroot : T.id = t.root) (hp : ∀ N ∈ T.subs, Pinned g tgt t B m memo N.id N.kind)
    (hB : B ≤ t.fuel) (hg : m.Grows m') (hval : m'.Assigns val) :
    TilesExactly g tgt t T (fun i d => val (memo.tileVar i d)) (fun i => (memo.extentsAt i).map val) where
  root n hn := by
    have h := hp T (Subtree.self_mem_subs T)
    rw [hn] at h
    exact h.2.root_extents hroot hg hval
  tile_length Q hQ n hn := by
    have h := hp Q hQ
    rw [hn] at h
    rw [List.length_map]
    exact h.2.length_extentsAt
  leaf_length Q hQ o op ho hop := by
    have h := hp Q hQ
    rw [ho] at h
    rw [List.length_map]
    exact (h.leaf hop).2.length_extentsAt
  leaf Q hQ o op ho hop d hd := by
    have h := hp Q hQ
    rw [ho] at h
    obtain ⟨hcount, hleaf⟩ := h.leaf hop
    exact hleaf.chain_prod hcount hg hval hB hd
  siblings P hP n hn c hc c' hc' rel rel' k k' r r' j x x' hrel hrel' hr hr' hj hj' hjn hx hx' := by
    have h := hp P hP
    rw [hn] at h
    -- both extents take the one value the tile gives dimension `j`
    obtain ⟨v, hv⟩ := h.2.pure_eq hg hval (hT.sub hP).children_eq
    rw [List.getElem?_map, Option.map_eq_some_iff] at hx hx'
    obtain ⟨e, he, rfl⟩ := hx
    obtain ⟨e', he', rfl⟩ := hx'
    rw [hv c.id (List.mem_map_of_mem hc) rel hrel k r e j hr he hj hjn,
      hv c'.id (List.mem_map_of_mem hc') rel' hrel' k' r' e' j hr' he' hj' hjn]
  constant P hP n hn c hc rel k r o w x hrel hr hw hx := by
    have h := hp P hP
    rw [hn] at h
    rw [List.getElem?_map, Option.map_eq_some_iff] at hx
    obtain ⟨e, he, rfl⟩ := hx
    exact h.2.const_eq hg hval (hT.sub hP).children_eq (List.mem_map_of_mem hc) hrel hr he hw
  tile_dvd Q hQ n hn d hd := by
    have h := hp Q hQ
    rw [hn] at h
    have hmem := h.1.mem hg hval.toEvaluation (d := d) (by rwa [List.length_map])
    rw [List.getD_eq_getElem?_getD, List.getElem?_map, List.getElem?_eq_getElem hd] at hmem
    simpa [List.getD_eq_getElem?_getD, List.getElem?_eq_getElem hd] using dvd_of_mem_divisors hmem
  leaf_dvd Q hQ o op ho hop d hd := by
    have h := hp Q hQ
    rw [ho] at h
    obtain ⟨hcount, -⟩ := h.leaf hop
    have hmem := hcount.mem hg hval.toEvaluation (d := d) (by rwa [Target.length_opDomains])
    rw [Target.getD_opDomains tgt op hd] at hmem
    exact KernelInfo.dvd_of_mem_opTileDomain hmem

end Exact

theorem Tiler.solveTiled_pinned {tl : Tiler} {e : TileTree} {T : Subtree} {L : Nat} (hT : e.Realizes T)
    (hroot : T.id = e.root) (hnd : T.ids.Nodup) (htiled : T.Tiled L) {sf : SolveState} {st : SolvedTree}
    (h : Runs (tl.solveTiled e) (SolveState.new {} e.len) st sf) :
    (∀ N ∈ T.subs, Pinned tl.dataflow tl.target e T.ids.length sf.model sf.memo N.id N.kind) ∧
      sf.model.Built ∧ ∃ obj sol, sf.model.minimize obj tl.budget = .ok sol ∧
        st.sizes = T.ids.filterMap fun id => (sf.memo.domain? id).map fun d =>
          ⟨id, d.tileVars.map sol.value, (sf.memo.extentsAt id).map sol.value⟩ := by
  obtain ⟨s₁, s₂, s₅, s₆, r, obj, sol, k₁, hcv, k₅, hsol, hmemo, hmodel, hext⟩ := solveTiled_stages h
  have hmemo' : sf.memo = s₅.memo := (onlyModel_extract _ _ _ _ _ _ hext).memo.trans hmemo
  have hmodel' : sf.model = s₅.model := (runs_extract hext).1.model.trans hmodel
  -- the first pass runs from a state that has walked no node, and leaves the facts of every node
  have hw₀ : Unwalked T.ids s₁ := fun j hj => by
    rw [k₁.results, k₁.memo]
    exact unwalked_new {} hT j hj
  have hw := traversed_createVariables hT hroot hnd htiled hw₀ (k₁.steady.built .empty) hcv
  have hsizes := runs_extract_sizes hext (hroot ▸ hT.preorder_eq hnd)
  rw [hmemo] at hsizes
  rw [hmemo', hmodel']
  -- the later passes keep them
  exact ⟨fun N hN => (hw.pinned N hN).keep k₅.grows k₅.domainsKept (k₅.sameAt _) fun _ _ c _ => k₅.sameAt c,
    k₅.built hw.built, obj, sol, hsol, hsizes⟩

/-- Chosen tile counts tile every loop exactly. Take a tile subtree, with distinct positions,
realized from the root of a tree that the solve answers. Every assignment of the model the solve
searches reads the memo's counts and extents as an exact tiling of the subtree; so do the counts
and extents the solved tree reports, when the searched model has no clamped interval. -/
theorem solve_tiles_exactly {tl : Tiler} {e : TileTree} {T : Subtree} {L : Nat} {tile : TileNode}
    {log : Array LogRecord} {st : SolvedTree} (hT : e.Realizes T) (hroot : T.id = e.root)
    (hnd : T.ids.Nodup) (htiled : T.Tiled L) (hkind : T.kind = .tile tile)
    (hsolve : tl.solve e = (log, .ok st)) :
    (∀ val, ((tl.solveTiled e).run.run (SolveState.new {} e.len)).2.model.Assigns val →
        TilesExactly tl.dataflow tl.target e T
          (fun i d => val (((tl.solveTiled e).run.run (SolveState.new {} e.len)).2.memo.tileVar i d))
          (fun i => (((tl.solveTiled e).run.run (SolveState.new {} e.len)).2.memo.extentsAt i).map val)) ∧
      (((tl.solveTiled e).run.run (SolveState.new {} e.len)).2.model.Unclamped →
        TilesExactly tl.dataflow tl.target e T st.countAt st.extentsAt) := by
  have hk : e.kind e.root = .ok (.tile tile) := by rw [← hroot, ← hkind]; exact hT.kind_eq
  have hrun := runs_solve_tiled (fun _ h => nomatch hk.symm.trans h) hsolve
  generalize ((tl.solveTiled e).run.run (SolveState.new {} e.len)).2 = sf at hrun ⊢
  obtain ⟨hp, hb, obj, sol, hsol, hsizes⟩ := Tiler.solveTiled_pinned hT hroot hnd htiled hrun
  have hall : ∀ val, sf.model.Assigns val →
      TilesExactly tl.dataflow tl.target e T (fun i d => val (sf.memo.tileVar i d))
        (fun i => (sf.memo.extentsAt i).map val) := fun val hval =>
    tilesExactly_of_pinned hT hroot hp (TileTree.length_ids_le_fuel hT hnd) (Model.Grows.refl _) hval
  refine ⟨hall, fun hu => ?_⟩
  -- the solution assigns the searched model, and the read back reports every node of the subtree
  -- with the memo's extents and counts under it
  refine (hall sol.value (Model.minimize_recorded hb hu hsol).assigns).congr hT hroot htiled
    (fun Q hQ => ?_) (fun Q hQ n hn d hd => ?_) fun Q hQ o op ho hop d hd => ?_
  · obtain ⟨dom, hdom⟩ := (hp Q hQ).domain_isSome (htiled.of_mem_subs hQ).kind_ne_scope
    exact (SolvedTree.reads_entry hsizes (List.mem_map_of_mem hQ) hdom).1
  · have h := hp Q hQ
    rw [hn] at h
    obtain ⟨dom, hdom, hlen, -⟩ := h.1.entry
    exact (SolvedTree.reads_entry hsizes (List.mem_map_of_mem hQ) hdom).2 d (by rwa [hlen, List.length_map])
  · have h := hp Q hQ
    rw [ho] at h
    obtain ⟨dom, hdom, hlen, -⟩ := (h.leaf hop).1.entry
    exact (SolvedTree.reads_entry hsizes (List.mem_map_of_mem hQ) hdom).2 d (by rwa [hlen, Target.length_opDomains])

def fusedSubtree : Subtree :=
  .node 0 (.tile ⟨2, 1, .identity 1, [2]⟩)
    [.node 1 (.tile ⟨1, 0, .identity 1, [2]⟩) [.node 4 (.leaf ⟨0, .identity 1, [2]⟩) []],
      .node 2 (.tile ⟨1, 1, .identity 1, [2]⟩) [.node 3 (.leaf ⟨1, .identity 1, [2]⟩) []]]

theorem fusedTree_realizes : fusedTree.Realizes fusedSubtree := by
  -- a tile of level one over its one leaf
  have below : ∀ {i j : Nat} {n : TileNode} {o : OpLeaf} {a b : TreeNode}, fusedTree.nodes[i]? = some a →
      a.kind = .tile n → a.children = [j] → fusedTree.nodes[j]? = some b → b.kind = .leaf o →
      b.children = [] → b.parent = some i → fusedTree.Realizes (.node i (.tile n) [.node j (.leaf o) []]) :=
    fun ha hak hac hb hbk hbc hbp => .node ha hak hac (fun c hc => by
        rw [List.mem_singleton] at hc
        exact hc ▸ ⟨_, hb, hbp⟩)
      fun c hc => by
        rw [List.mem_singleton] at hc
        exact hc ▸ .node hb hbk hbc (fun _ h => nomatch h) fun _ h => nomatch h
  refine .node rfl rfl rfl (fun c hc => ?_) fun c hc => ?_
  · simp only [List.mem_cons, List.not_mem_nil, or_false] at hc
    rcases hc with rfl | rfl <;> exact ⟨_, rfl, rfl⟩
  · simp only [List.mem_cons, List.not_mem_nil, or_false] at hc
    rcases hc with rfl | rfl
    · exact below rfl rfl rfl rfl rfl rfl rfl
    · exact below rfl rfl rfl rfl rfl rfl rfl

theorem fusedSubtree_tiled : fusedSubtree.Tiled 3 := by
  refine .tile (by decide) (by decide) fun c hc => ?_
  simp only [List.mem_cons, List.not_mem_nil, or_false] at hc
  rcases hc with rfl | rfl <;>
    exact .tile (by decide) (by decide) fun c hc => (List.mem_singleton.1 hc) ▸ .leaf

theorem fusedTree_tiles_exactly : fusedTree.Realizes fusedSubtree ∧ fusedSubtree.id = fusedTree.root ∧
    fusedSubtree.ids.Nodup ∧ fusedSubtree.Tiled 3 ∧ fusedSubtree.kind = .tile ⟨2, 1, .identity 1, [2]⟩ ∧
    fusedTiler.solve fusedTree = ((fusedTiler.solve fusedTree).1, .ok fusedSolved) ∧
    ((fusedTiler.solveTiled fusedTree).run.run (SolveState.new {} fusedTree.len)).2.model.Unclamped ∧
    TilesExactly fusedTiler.dataflow fusedTiler.target fusedTree fusedSubtree fusedSolved.countAt
      fusedSolved.extentsAt :=
  ⟨fusedTree_realizes, rfl, by decide, fusedSubtree_tiled, rfl, fusedTree_solve, fusedTree_unclamped,
    (solve_tiles_exactly fusedTree_realizes rfl (by decide) fusedSubtree_tiled rfl fusedTree_solve).2
      fusedTree_unclamped⟩

/-! Counts through a clamped interval. -/

def clampGraph : Dataflow :=
  ((Dataflow.add { name := "g" } (OpNode.new "op0" [I64.max] .other)).1.add (OpNode.new "op1" [2] .other)).1

/-- Three unbounded levels at no cost; the first operation's primitive tile is a seventh of its
bound, with multipliers from one to seven. -/
def clampTarget : Target :=
  { levels := [⟨"L0", none, 0⟩, ⟨"L1", none, 0⟩, ⟨"DDR", none, 0⟩],
    kernelOverrides := [("op0", ⟨some [I64.max / 7], some [(1, 7)]⟩)] }

def clampTiler : Tiler := { dataflow := clampGraph, target := clampTarget }

/-- A tile of the second operation over its leaf and a tile of the first, which covers a constant
range of the whole bound and holds the first operation's leaf. -/
def clampTree : TileTree :=
  let t := TileTree.new (.tile ⟨2, 1, .identity 1, [2]⟩)
  let (t, s) := t.addChild 0 (.tile ⟨1, 0, ⟨1, 0, [⟨⟨0, [0], []⟩, ⟨I64.max, [0], []⟩⟩]⟩, [8]⟩)
  let (t, _) := t.addChild s (.leaf ⟨0, .identity 1, [I64.max]⟩)
  (t.addChild 0 (.leaf ⟨1, .identity 1, [2]⟩)).1

def clampSubtree : Subtree :=
  .node 0 (.tile ⟨2, 1, .identity 1, [2]⟩)
    [.node 1 (.tile ⟨1, 0, ⟨1, 0, [⟨⟨0, [0], []⟩, ⟨I64.max, [0], []⟩⟩]⟩, [8]⟩)
        [.node 2 (.leaf ⟨0, .identity 1, [I64.max]⟩) []],
      .node 3 (.leaf ⟨1, .identity 1, [2]⟩) []]

def clampSolved : SolvedTree :=
  ⟨clampTree, [⟨0, [2], [2]⟩, ⟨1, [8], [I64.max]⟩, ⟨2, [7], [I64.max]⟩, ⟨3, [1], [1]⟩],
    [⟨0, ⟨0, 0⟩, [⟨0, 0⟩], 0, 1, I64.max, I64.max, ⟨0, 1⟩, ⟨false, false, true⟩⟩,
      ⟨0, ⟨1, 0⟩, [⟨1, 0⟩], 0, 1, 4, 8, ⟨2, 3⟩, ⟨false, false, true⟩⟩,
      ⟨1, ⟨0, 0⟩, [⟨0, 0⟩], 0, 1, I64.max, I64.max, ⟨0, 1⟩, ⟨false, false, false⟩⟩], 0, .optimal, 9, 7, 16⟩

/-- The reported counts need not tile when an interval is clamped. The search tries the largest
counts first, and the product of the primitive tile with eight tiles of seven is cut to the word
range, the bound itself, so the constraint pinning the first operation's extent passes; the
solve reports these counts, whose product with the primitive tile is eight times the bound. -/
theorem clampTree_tiles_inexactly : clampTree.Realizes clampSubtree ∧ clampSubtree.id = clampTree.root ∧
    clampSubtree.ids.Nodup ∧ clampSubtree.Tiled 3 ∧
    clampTiler.solve clampTree = ((clampTiler.solve clampTree).1, .ok clampSolved) ∧
    ¬TilesExactly clampTiler.dataflow clampTiler.target clampTree clampSubtree clampSolved.countAt
      clampSolved.extentsAt := by
  have hsolve : clampTiler.solve clampTree = ((clampTiler.solve clampTree).1, .ok clampSolved) := by
    refine Prod.ext rfl (toOption_eq_some.1 ?_)
    simp only [Tiler.solve, Tiler.solveTiled, Tiler.minimize, Model.minimizeLogged, Model.explore,
      Model.search_eq_searchByInsertion]
    decide +kernel
  have hreal : clampTree.Realizes clampSubtree := by
    refine .node rfl rfl rfl (fun c hc => ?_) fun c hc => ?_
    · simp only [List.mem_cons, List.not_mem_nil, or_false] at hc
      rcases hc with rfl | rfl <;> exact ⟨_, rfl, rfl⟩
    · simp only [List.mem_cons, List.not_mem_nil, or_false] at hc
      rcases hc with rfl | rfl
      · refine .node rfl rfl rfl (fun c hc => ?_) fun c hc => ?_ <;> rw [List.mem_singleton] at hc <;> subst hc
        · exact ⟨_, rfl, rfl⟩
        · exact .node rfl rfl rfl (fun _ h => absurd h List.not_mem_nil) fun _ h => absurd h List.not_mem_nil
      · exact .node rfl rfl rfl (fun _ h => absurd h List.not_mem_nil) fun _ h => absurd h List.not_mem_nil
  have htiled : clampSubtree.Tiled 3 := by
    refine .tile (by decide) (by decide) fun c hc => ?_
    simp only [List.mem_cons, List.not_mem_nil, or_false] at hc
    rcases hc with rfl | rfl
    · exact .tile (by decide) (by decide) fun c hc => (List.mem_singleton.1 hc) ▸ .leaf
    · exact .leaf
  refine ⟨hreal, rfl, by decide, htiled, hsolve, fun h => ?_⟩
  -- the first operation's leaf: its chain is its own count and its tile's
  have hleaf := h.leaf (.node 2 (.leaf ⟨0, .identity 1, [I64.max]⟩) []) (by simp [clampSubtree, Subtree.subs_node]) ⟨0, .identity 1, [I64.max]⟩ _ rfl rfl 0
    (by decide)
  revert hleaf
  decide +kernel

end TileSched
