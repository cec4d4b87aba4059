import Mathlib
import TileSched.Proofs.Schedule.Extents
/-! Chosen tile counts tile every loop exactly. The first pass, walked over a tree, leaves at every
node the facts its visit established: tile variables over counts that divide the bounds, forward
extents that multiply the counts along each dimension's chain of tiles, at every leaf the primitive
tile times the forward extent posted equal to the operation's bound, and at every tile the extents
of its children tied to its own dimensions, pinned to the bounds at the root. The later passes only
add to the model, so every assignment satisfying the model built reads these facts as equations. -/

namespace TileSched

open Solving Init

/-! Facts of the first pass, read in a model and a memo. -/

/-- The forward extent of dimension `d` of node `i` is the product of the tile counts along its
chain of at most `F` links, every node of which has its tile variables. -/
def ChainDenotes (t : TileTree) (F i d : Nat) (m : Model) (memo : SolveMemo) : Prop :=
  (memo.domain? i).isSome ∧ (∀ x ∈ t.dimChain F i d, (memo.domain? x.1).isSome) ∧
    m.Denotes (memo.forwardAt i d) fun val => ((t.dimChain F i d).map fun x => val (memo.tileVar x.1 x.2)).prod

def SolveMemo.DomainsKept (memo memo' : SolveMemo) : Prop :=
  ∀ j dom, memo.domain? j = some dom → memo'.domain? j = some dom

def SolveMemo.SameAt (memo memo' : SolveMemo) (j : Nat) : Prop :=
  memo'.op? j = memo.op? j ∧
    (memo'.tile? j).map TileInfo.backwardExtents = (memo.tile? j).map TileInfo.backwardExtents

/-- Node `i` has one tile variable per dimension over the counts of `domains`, and forward
extents that are units multiplying the counts along their chains, for every fuel of at least `B`. -/
structure Counted (t : TileTree) (B i : Nat) (domains : List (List Int)) (m : Model) (memo : SolveMemo) :
    Prop where
  entry : ∃ dom, memo.domain? i = some dom ∧ dom.tileVars.length = domains.length ∧
    dom.forwardExtents.length = domains.length
  vars : ∀ d < domains.length, m.VarWithin (memo.tileVar i d) (· ∈ domains.getD d [])
  unit : ∀ d < domains.length, m.UnitConst (memo.forwardAt i d)
  chain : ∀ d < domains.length, ∀ F, B ≤ F → ChainDenotes t F i d m memo

/-- Leaf `i` of operation `op`: no tile entry shadows its operation entry, which holds one extent
per dimension, and for every dimension its primitive tile times its forward extent is posted equal
to the operation's bound. -/
structure LeafPinned (tgt : Target) (i : Nat) (op : OpNode) (m : Model) (memo : SolveMemo) : Prop where
  tile : memo.tile? i = none
  entry : ∃ oi, memo.op? i = some oi ∧ oi.extents.length = op.domainBounds.length
  pins : ∀ d < op.domainBounds.length, ∃ a b, Constraint.equal a b ∈ m.constraints ∧
    m.Denotes a (fun val => (tgt.kernelInfo op).primitive d * val (memo.forwardAt i d)) ∧
    m.Denotes b fun _ => op.domainBounds.getD d 0

/-- Tile `i` over node `n`: its entry has one full extent per dimension, each posted equal to the
bound at the root, and every extent its children report is tied to its dimensions. -/
structure TileTied (t : TileTree) (i : Nat) (n : TileNode) (m : Model) (memo : SolveMemo) : Prop where
  full : ∃ fe, (memo.tile? i).map TileInfo.fullExtents = some fe ∧ fe.length = n.bounds.length ∧
    (i = t.root → ∀ j < n.bounds.length, ∃ b, Constraint.equal (fe.getD j 0) b ∈ m.constraints ∧
      m.Denotes b fun _ => n.bounds.getD j 0)
  ties : ∃ inner : List Nat, inner.length = n.bounds.length ∧
    ∀ cs, t.children i = .ok cs → ∀ c ∈ cs, ChildTied t (TiesTo inner m) c (memo.extentsAt c)

def Pinned (g : Dataflow) (tgt : Target) (t : TileTree) (B : Nat) (m : Model) (memo : SolveMemo) (i : Nat) :
    NodeKind → Prop
  | .leaf o => ∃ op, g.ops[o.op]? = some op ∧ Counted t B i (tgt.opDomains op) m memo ∧
      LeafPinned tgt i op m memo
  | .tile n => Counted t B i (n.bounds.map divisors) m memo ∧ TileTied t i n m memo
  | .scope => True

/-! The facts stay true as the model grows and the entries they read stay. -/

namespace SolveMemo

variable {memo memo' : SolveMemo}

theorem DomainsKept.isSome (h : DomainsKept memo memo') {j : Nat} (hj : (memo.domain? j).isSome) :
    (memo'.domain? j).isSome := by
  obtain ⟨dom, hdom⟩ := Option.isSome_iff_exists.1 hj
  rw [h j dom hdom]
  rfl

theorem DomainsKept.tileVar (h : DomainsKept memo memo') {j : Nat} (hj : (memo.domain? j).isSome) (d : Nat) :
    memo'.tileVar j d = memo.tileVar j d := by
  obtain ⟨dom, hdom⟩ := Option.isSome_iff_exists.1 hj
  rw [SolveMemo.tileVar, SolveMemo.tileVar, h j dom hdom, hdom]

theorem DomainsKept.forwardAt (h : DomainsKept memo memo') {j : Nat} (hj : (memo.domain? j).isSome) (d : Nat) :
    memo'.forwardAt j d = memo.forwardAt j d := by
  obtain ⟨dom, hdom⟩ := Option.isSome_iff_exists.1 hj
  rw [SolveMemo.forwardAt, SolveMemo.forwardAt, h j dom hdom, hdom]

theorem DomainsKept.trans {memo'' : SolveMemo} (h₁ : DomainsKept memo memo') (h₂ : DomainsKept memo' memo'') :
    DomainsKept memo memo'' := fun j dom h => h₂ j dom (h₁ j dom h)

theorem extentsAt_eq_of_sameAt {c : Nat} (h : SameAt memo memo' c) : memo'.extentsAt c = memo.extentsAt c := by
  obtain ⟨hop, htile⟩ := h
  unfold SolveMemo.extentsAt
  rw [hop]
  cases h₁ : memo.tile? c with
  | none =>
    rw [h₁, Option.map_none, Option.map_eq_none_iff] at htile
    rw [htile]
  | some ti =>
    rw [h₁, Option.map_some] at htile
    obtain ⟨ti', h₂, hb⟩ := Option.map_eq_some_iff.1 htile
    rw [h₂]
    simp only [TileInfo.fullExtents, hb]

theorem fullExtents_eq_of_sameAt {c : Nat} (h : SameAt memo memo' c) :
    (memo'.tile? c).map TileInfo.fullExtents = (memo.tile? c).map TileInfo.fullExtents := by
  have hf : TileInfo.fullExtents = (fun b : List (List Nat) => b.headD []) ∘ TileInfo.backwardExtents := rfl
  rw [hf, ← Option.map_map, ← Option.map_map, h.2]

theorem extentsAt_of_fullExtents {i : Nat} {fe : List Nat}
    (h : (memo.tile? i).map TileInfo.fullExtents = some fe) : memo.extentsAt i = fe := by
  obtain ⟨info, hinfo, rfl⟩ := Option.map_eq_some_iff.1 h
  rw [extentsAt, hinfo]

theorem sameAt_set_tile {i j : Nat} (x : Option TileInfo) (hj : j ≠ i) :
    memo.SameAt { memo with tiles := memo.tiles.set! i x } j := by
  refine ⟨rfl, ?_⟩
  simp only [SolveMemo.tile?]
  rw [getD_set!, if_neg fun h => hj h.1]

end SolveMemo

variable {t : TileTree} {m m' : Model} {memo memo' : SolveMemo}

theorem ChainDenotes.keep {F i d : Nat} (h : ChainDenotes t F i d m memo) (hg : m.Grows m')
    (hd : memo.DomainsKept memo') : ChainDenotes t F i d m' memo' := by
  obtain ⟨hi, hchain, hden⟩ := h
  refine ⟨hd.isSome hi, fun x hx => hd.isSome (hchain x hx), ?_⟩
  rw [hd.forwardAt hi]
  refine (hden.grows hg).congr fun _ _ val _ => ?_
  rw [List.map_congr_left fun x hx => by rw [← hd.tileVar (hchain x hx)]]

theorem Counted.keep {B i : Nat} {domains : List (List Int)} (h : Counted t B i domains m memo)
    (hg : m.Grows m') (hd : memo.DomainsKept memo') : Counted t B i domains m' memo' := by
  obtain ⟨dom, hdom, hlen₁, hlen₂⟩ := h.entry
  have hi : (memo.domain? i).isSome := by rw [hdom]; rfl
  refine ⟨⟨dom, hd i dom hdom, hlen₁, hlen₂⟩, fun d hd' => ?_, fun d hd' => ?_,
    fun d hd' F hF => (h.chain d hd' F hF).keep hg hd⟩
  · rw [hd.tileVar hi]
    exact (h.vars d hd').grows hg
  · rw [hd.forwardAt hi]
    exact (h.unit d hd').grows hg

theorem LeafPinned.keep {tgt : Target} {i : Nat} {op : OpNode} (h : LeafPinned tgt i op m memo)
    (hg : m.Grows m') (hd : memo.DomainsKept memo') (hs : memo.SameAt memo' i)
    (hi : (memo.domain? i).isSome) : LeafPinned tgt i op m' memo' := by
  refine ⟨?_, by rw [hs.1]; exact h.entry, fun d hd' => ?_⟩
  · have h₂ := hs.2
    rw [h.tile, Option.map_none, Option.map_eq_none_iff] at h₂
    exact h₂
  · obtain ⟨a, b, hab, ha, hb⟩ := h.pins d hd'
    rw [hd.forwardAt hi]
    exact ⟨a, b, hg.constraints _ hab, ha.grows hg, hb.grows hg⟩

theorem TileTied.keep {i : Nat} {n : TileNode} (h : TileTied t i n m memo) (hg : m.Grows m')
    (hs : memo.SameAt memo' i) (hc : ∀ cs, t.children i = .ok cs → ∀ c ∈ cs, memo.SameAt memo' c) :
    TileTied t i n m' memo' := by
  obtain ⟨fe, hfe, hlen, hroot⟩ := h.full
  obtain ⟨inner, hinner, hties⟩ := h.ties
  refine ⟨⟨fe, by rw [SolveMemo.fullExtents_eq_of_sameAt hs, hfe], hlen, fun hr j hj => ?_⟩,
    ⟨inner, hinner, fun cs hcs c hc' => ?_⟩⟩
  · obtain ⟨b, hb, hd⟩ := hroot hr j hj
    exact ⟨b, hg.constraints _ hb, hd.grows hg⟩
  · rw [SolveMemo.extentsAt_eq_of_sameAt (hc cs hcs c hc')]
    exact (hties cs hcs c hc').mono fun range e h => h.grows hg

theorem Pinned.keep {g : Dataflow} {tgt : Target} {B i : Nat} {k : NodeKind}
    (h : Pinned g tgt t B m memo i k) (hg : m.Grows m') (hd : memo.DomainsKept memo')
    (hs : memo.SameAt memo' i) (hc : ∀ cs, t.children i = .ok cs → ∀ c ∈ cs, memo.SameAt memo' c) :
    Pinned g tgt t B m' memo' i k := by
  cases k with
  | leaf o =>
    obtain ⟨op, hop, hcount, hleaf⟩ := h
    obtain ⟨dom, hdom, -⟩ := hcount.entry
    exact ⟨op, hop, hcount.keep hg hd, hleaf.keep hg hd hs (by rw [hdom]; rfl)⟩
  | tile n => exact ⟨h.1.keep hg hd, h.2.keep hg hs hc⟩
  | scope => trivial

theorem Counted.mono {B B' i : Nat} {domains : List (List Int)} (h : Counted t B i domains m memo)
    (hB : B ≤ B') : Counted t B' i domains m memo :=
  ⟨h.entry, h.vars, h.unit, fun d hd F hF => h.chain d hd F (hB.trans hF)⟩

theorem Pinned.mono {g : Dataflow} {tgt : Target} {B B' i : Nat} {k : NodeKind}
    (h : Pinned g tgt t B m memo i k) (hB : B ≤ B') : Pinned g tgt t B' m memo i k := by
  cases k with
  | leaf o =>
    obtain ⟨op, hop, hcount, hleaf⟩ := h
    exact ⟨op, hop, hcount.mono hB, hleaf⟩
  | tile n => exact ⟨h.1.mono hB, h.2⟩
  | scope => trivial

theorem Pinned.leaf {g : Dataflow} {tgt : Target} {B i : Nat} {o : OpLeaf} {op : OpNode}
    (h : Pinned g tgt t B m memo i (.leaf o)) (hop : g.ops[o.op]? = some op) :
    Counted t B i (tgt.opDomains op) m memo ∧ LeafPinned tgt i op m memo := by
  obtain ⟨op', hop', hcount, hleaf⟩ := h
  rw [hop, Option.some.injEq] at hop'
  subst hop'
  exact ⟨hcount, hleaf⟩

theorem Pinned.domain_isSome {g : Dataflow} {tgt : Target} {B i : Nat} {k : NodeKind}
    (h : Pinned g tgt t B m memo i k) (hk : k ≠ .scope) : ∃ dom, memo.domain? i = some dom := by
  cases k with
  | leaf o =>
    obtain ⟨op, -, hcount, -⟩ := h
    obtain ⟨dom, hdom, -⟩ := hcount.entry
    exact ⟨dom, hdom⟩
  | tile n =>
    obtain ⟨dom, hdom, -⟩ := h.1.entry
    exact ⟨dom, hdom⟩
  | scope => exact absurd rfl hk

/-! A node's counts from its context. -/

theorem TileTree.dimChain_succ (f i d : Nat) :
    t.dimChain (f + 1) i d = (i, d) :: ((t.dimLink i d).map fun pj => t.dimChain f pj.1 pj.2).getD [] := rfl

theorem TileTree.dimLink_of_parent {c p : Nat} {rel : AffineMap} (hne : c ≠ t.root)
    (hpar : t.parent c = .ok (some p)) (hrel : t.relation c = .ok (some rel)) (d : Nat) :
    t.dimLink c d = (rel.dimsMap.lookup d).bind fun j =>
      if j < ((t.bounds p).toOption.getD []).length then some (p, j) else none := by
  unfold TileTree.dimLink
  rw [if_neg hne, hpar, hrel]

/-- A context fits node `i` with relation `rel`: at the root it has no tile above, and the factor
it gives each dimension is the forward extent of the dimension the link names, a unit multiplying
the counts along that dimension's chain for every fuel of at least `A`. -/
structure ContextFits (t : TileTree) (A i : Nat) (rel : AffineMap) (ctx : InitContext) (m : Model)
    (memo : SolveMemo) : Prop where
  root : i = t.root → ctx.parent = none
  factor : ∀ d, ctx.factor rel d = (t.dimLink i d).map fun pj => memo.forwardAt pj.1 pj.2
  link : ∀ d p j, t.dimLink i d = some (p, j) →
    m.UnitConst (memo.forwardAt p j) ∧ ∀ F, A ≤ F → ChainDenotes t F p j m memo

theorem ContextFits.keep {A i : Nat} {rel : AffineMap} {ctx : InitContext} (h : ContextFits t A i rel ctx m memo)
    (hg : m.Grows m') (hd : memo.DomainsKept memo') : ContextFits t A i rel ctx m' memo' := by
  refine ⟨h.root, fun d => ?_, fun d p j hl => ?_⟩
  · rw [h.factor d]
    cases hl : t.dimLink i d with
    | none => rfl
    | some pj =>
      obtain ⟨-, hF⟩ := h.link d pj.1 pj.2 hl
      rw [Option.map_some, Option.map_some, hd.forwardAt (hF A le_rfl).1]
  · obtain ⟨hu, hF⟩ := h.link d p j hl
    rw [hd.forwardAt (hF A le_rfl).1]
    exact ⟨hu.grows hg, fun F hAF => (hF F hAF).keep hg hd⟩

theorem ContextFits.unit {A i : Nat} {rel : AffineMap} {ctx : InitContext} (h : ContextFits t A i rel ctx m memo)
    (d p : Nat) (hp : ctx.factor rel d = some p) : m.UnitConst p := by
  rw [h.factor d] at hp
  obtain ⟨pj, hl, rfl⟩ := Option.map_eq_some_iff.1 hp
  exact (h.link d pj.1 pj.2 hl).1

theorem SolveMemo.DomainsKept.chain_prod {F i d : Nat} (hd : memo.DomainsKept memo')
    (hchain : ∀ x ∈ t.dimChain F i d, (memo.domain? x.1).isSome) (val : Nat → Int) :
    ((t.dimChain F i d).map fun x => val (memo'.tileVar x.1 x.2)).prod =
      ((t.dimChain F i d).map fun x => val (memo.tileVar x.1 x.2)).prod := by
  rw [List.map_congr_left fun x hx => by rw [hd.tileVar (hchain x hx)]]

theorem Counted.of_made {A i : Nat} {rel : AffineMap} {ctx : InitContext} {domains : List (List Int)}
    {dom : DomainInfo} {m₁ : Model} (hctx : ContextFits t A i rel ctx m memo)
    (hmade : dom.Made domains (ctx.factor rel) m₁) (hg : m.Grows m₁) (hfresh : memo.domain? i = none)
    (hsize : i < memo.domains.size) :
    Counted t (A + 1) i domains m₁ { memo with domains := memo.domains.set! i (some dom) } := by
  have hself : ({ memo with domains := memo.domains.set! i (some dom) } : SolveMemo).domain? i = some dom := by
    simp only [SolveMemo.domain?]
    rw [getD_set!, if_pos ⟨rfl, hsize⟩]
  have hkept : memo.DomainsKept { memo with domains := memo.domains.set! i (some dom) } := fun j dom' h => by
    simp only [SolveMemo.domain?] at h ⊢
    rw [getD_set!, if_neg fun hj => by rw [hj.1] at h; exact absurd (hfresh.symm.trans h) (by simp)]
    exact h
  have htv : ∀ d, ({ memo with domains := memo.domains.set! i (some dom) } : SolveMemo).tileVar i d =
      dom.tileVars.getD d 0 := fun d => by rw [SolveMemo.tileVar, hself]; rfl
  have hfa : ∀ d, ({ memo with domains := memo.domains.set! i (some dom) } : SolveMemo).forwardAt i d =
      dom.forwardExtents.getD d 0 := fun d => by rw [SolveMemo.forwardAt, hself]; rfl
  refine ⟨⟨dom, hself, hmade.tileVars_length, hmade.forward_length⟩, fun d hd => ?_, fun d hd => ?_,
    fun d hd F hF => ?_⟩
  · rw [htv]
    exact hmade.vars d hd
  · rw [hfa]
    exact hmade.unit d hd
  -- the chain is this node's dimension, then the chain of the dimension its link names
  obtain ⟨F, rfl⟩ : ∃ F', F = F' + 1 := ⟨F - 1, by omega⟩
  have hfwd := hmade.forward d hd
  rw [hctx.factor d] at hfwd
  refine ⟨by rw [hself]; rfl, fun x hx => ?_, ?_⟩
  · rw [TileTree.dimChain_succ] at hx
    rcases List.mem_cons.1 hx with rfl | hx
    · rw [hself]
      rfl
    · cases hl : t.dimLink i d with
      | none =>
        rw [hl] at hx
        simp at hx
      | some pj =>
        rw [hl, Option.map_some, Option.getD_some] at hx
        exact hkept.isSome (((hctx.link d pj.1 pj.2 hl).2 F (by omega)).2.1 x hx)
  · rw [hfa]
    refine hfwd.congr fun m' hg' val hval => ?_
    rw [TileTree.dimChain_succ, List.map_cons, List.prod_cons, htv]
    congr 1
    cases hl : t.dimLink i d with
    | none => simp
    | some pj =>
      obtain ⟨-, hchain, hden⟩ := (hctx.link d pj.1 pj.2 hl).2 F (by omega)
      simp only [Option.map_some, Option.getD_some]
      rw [hkept.chain_prod hchain val]
      exact hden m' (hg.trans hg') val hval

theorem contextFits_child {B i c : Nat} {n : TileNode} {rel : AffineMap} {dom : DomainInfo}
    (hcount : Counted t B i (n.bounds.map divisors) m memo) (hdom : memo.domain? i = some dom)
    (hkind : t.kind i = .ok (.tile n)) (hpar : t.parent c = .ok (some i)) (hne : c ≠ t.root)
    (hrel : t.relation c = .ok (some rel)) :
    ContextFits t B c rel ⟨some i, dom.forwardExtents⟩ m memo := by
  have hbounds : ((t.bounds i).toOption.getD []).length = n.bounds.length := by
    rw [TileTree.bounds, hkind]
    rfl
  obtain ⟨dom', hdom', -, hlen⟩ := hcount.entry
  rw [hdom] at hdom'
  cases hdom'
  rw [List.length_map] at hlen
  refine ⟨fun h => absurd h hne, fun d => ?_, fun d p j hl => ?_⟩
  · rw [TileTree.dimLink_of_parent hne hpar hrel, hbounds]
    simp only [InitContext.factor, Option.isSome_some, if_true]
    cases rel.dimsMap.lookup d with
    | none => rfl
    | some j =>
      simp only [Option.bind_some]
      by_cases hj : j < n.bounds.length
      · rw [if_pos hj, Option.map_some, List.getElem?_eq_getElem (hlen ▸ hj), SolveMemo.forwardAt, hdom,
          Option.map_some, Option.getD_some, List.getD_eq_getElem?_getD, List.getElem?_eq_getElem (hlen ▸ hj),
          Option.getD_some]
      · rw [if_neg hj, List.getElem?_eq_none (by omega)]
        rfl
  · rw [TileTree.dimLink_of_parent hne hpar hrel, hbounds] at hl
    obtain ⟨j', -, hj'⟩ := Option.bind_eq_some_iff.1 hl
    split at hj'
    · cases hj'
      have hd : j < (n.bounds.map divisors).length := by rwa [List.length_map]
      exact ⟨hcount.unit j hd, fun F hF => hcount.chain j hd F hF⟩
    · cases hj'

/-! The walk. -/

/-- No node of `ids` has a result, a domain entry or a tile entry yet, and each has a place in the
results and the memo tables. -/
def Unwalked (ids : List Nat) (s : SolveState) : Prop :=
  ∀ j ∈ ids, s.results.getD j none = none ∧ s.memo.domain? j = none ∧ s.memo.tile? j = none ∧
    j < s.results.size ∧ j < s.memo.domains.size ∧ j < s.memo.ops.size ∧ j < s.memo.tiles.size

def Encloses (t : TileTree) (ids : List Nat) (subs : List Subtree) : Prop :=
  ∀ N ∈ subs, N.id ∈ ids ∧ ∀ cs, t.children N.id = .ok cs → ∀ c ∈ cs, c ∈ ids

theorem Encloses.of_realizes {S : Subtree} (h : t.Realizes S) : Encloses t S.ids S.subs := by
  intro N hN
  refine ⟨Subtree.ids_sub hN _ (Subtree.id_mem_ids N), fun cs hcs c hc => ?_⟩
  rw [(h.sub hN).children_eq, Except.ok.injEq] at hcs
  subst hcs
  obtain ⟨C, hC, rfl⟩ := List.mem_map.1 hc
  exact Subtree.ids_sub hN _ (Subtree.ids_sub (Subtree.mem_subs_of_mem_children hC) _ (Subtree.id_mem_ids C))

/-- What walking the subtrees with positions `ids` and subtrees `subs` leaves, from `s` to `s'`: a
built model grown from `s`'s, the memo and the results outside `ids` as they were in tables of the
same sizes, and the facts of every node of `subs` for every fuel of at least `B`. -/
structure Traversed (g : Dataflow) (tgt : Target) (t : TileTree) (B : Nat) (ids : List Nat)
    (subs : List Subtree) (s s' : SolveState) : Prop where
  built : s'.model.Built
  grows : s.model.Grows s'.model
  domains : ∀ j ∉ ids, s'.memo.domain? j = s.memo.domain? j
  ops : ∀ j ∉ ids, s'.memo.op? j = s.memo.op? j
  tiles : ∀ j ∉ ids, s'.memo.tile? j = s.memo.tile? j
  results : ∀ j ∉ ids, s'.results.getD j none = s.results.getD j none
  sizes : s'.results.size = s.results.size ∧ s'.memo.domains.size = s.memo.domains.size ∧
    s'.memo.ops.size = s.memo.ops.size ∧ s'.memo.tiles.size = s.memo.tiles.size
  pinned : ∀ N ∈ subs, Pinned g tgt t B s'.model s'.memo N.id N.kind

namespace Traversed

variable {g : Dataflow} {tgt : Target} {B : Nat} {ids ids' : List Nat} {subs subs' : List Subtree}
  {s u s' : SolveState}

theorem sameAt (h : Traversed g tgt t B ids subs s s') {j : Nat} (hj : j ∉ ids) : s.memo.SameAt s'.memo j :=
  ⟨h.ops j hj, by rw [h.tiles j hj]⟩

theorem domainsKept (h : Traversed g tgt t B ids subs s s') (hfresh : ∀ j ∈ ids, s.memo.domain? j = none) :
    s.memo.DomainsKept s'.memo := fun j dom hj => by
  by_cases hji : j ∈ ids
  · rw [hfresh j hji] at hj
    cases hj
  · rw [h.domains j hji]
    exact hj

theorem unwalked (h : Traversed g tgt t B ids subs s s') (hu : Unwalked ids' s) (hdis : ∀ j ∈ ids', j ∉ ids) :
    Unwalked ids' s' := fun j hj => by
  obtain ⟨h₁, h₂, h₃, h₄, h₅, h₆, h₇⟩ := hu j hj
  obtain ⟨hs₁, hs₂, hs₃, hs₄⟩ := h.sizes
  refine ⟨?_, ?_, ?_, hs₁ ▸ h₄, hs₂ ▸ h₅, hs₃ ▸ h₆, hs₄ ▸ h₇⟩
  · rw [h.results j (hdis j hj), h₁]
  · rw [h.domains j (hdis j hj), h₂]
  · rw [h.tiles j (hdis j hj), h₃]

theorem nil (hb : s.model.Built) : Traversed g tgt t B [] [] s s :=
  ⟨hb, .refl _, fun _ _ => rfl, fun _ _ => rfl, fun _ _ => rfl, fun _ _ => rfl, ⟨rfl, rfl, rfl, rfl⟩,
    fun _ hN => absurd hN List.not_mem_nil⟩

theorem append (h₁ : Traversed g tgt t B ids subs s u) (h₂ : Traversed g tgt t B ids' subs' u s')
    (henc : Encloses t ids subs) (hdis : ∀ j ∈ ids, j ∉ ids') (hfresh : ∀ j ∈ ids', u.memo.domain? j = none) :
    Traversed g tgt t B (ids ++ ids') (subs ++ subs') s s' := by
  obtain ⟨a₁, b₁, c₁, d₁⟩ := h₁.sizes
  obtain ⟨a₂, b₂, c₂, d₂⟩ := h₂.sizes
  refine ⟨h₂.built, h₁.grows.trans h₂.grows, fun j hj => ?_, fun j hj => ?_, fun j hj => ?_, fun j hj => ?_,
    ⟨a₂.trans a₁, b₂.trans b₁, c₂.trans c₁, d₂.trans d₁⟩, fun N hN => ?_⟩
  all_goals try rw [List.mem_append, not_or] at hj
  · rw [h₂.domains j hj.2, h₁.domains j hj.1]
  · rw [h₂.ops j hj.2, h₁.ops j hj.1]
  · rw [h₂.tiles j hj.2, h₁.tiles j hj.1]
  · rw [h₂.results j hj.2, h₁.results j hj.1]
  · rcases List.mem_append.1 hN with hN | hN
    · -- a node of the first walk keeps its facts: the second reads none of its entries
      obtain ⟨hid, hcs⟩ := henc N hN
      exact (h₁.pinned N hN).keep h₂.grows (h₂.domainsKept hfresh) (h₂.sameAt (hdis _ hid))
        fun cs hc c hcm => h₂.sameAt (hdis c (hcs cs hc c hcm))
    · exact h₂.pinned N hN

end Traversed

namespace Traversed

variable {g : Dataflow} {tgt : Target} {B B' : Nat} {ids : List Nat} {subs : List Subtree} {s s' : SolveState}

theorem mono (h : Traversed g tgt t B ids subs s s') (hB : B ≤ B') : Traversed g tgt t B' ids subs s s' :=
  { h with pinned := fun N hN => (h.pinned N hN).mono hB }

end Traversed

section Walk

variable {g : Dataflow} {tgt : Target}

theorem traversed_leaf {A i : Nat} {o : OpLeaf} {ctx : InitContext} {s s' : SolveState} {r : InitResult}
    (hu : Unwalked [i] s) (hb : s.model.Built) (hctx : ContextFits t A i o.relation ctx s.model s.memo)
    (h : Runs (visitLeaf g tgt i o ctx) s r s') :
    Traversed g tgt t (A + 1) [i] [.node i (.leaf o) []] s s' ∧ r.extents = s'.memo.extentsAt i := by
  obtain ⟨hres, hdom, htile, hsr, hsd, hso, hst⟩ := hu i List.mem_cons_self
  obtain ⟨op, dom, oi, hop, hmade, hmemo, hoi, hlen, hresults, hg, hb', hpins⟩ :=
    runs_visitLeaf_pins hres hdom hb hctx.unit h
  have hcount := (Counted.of_made hctx hmade hg hdom hsd).keep (Model.Grows.refl _)
    (fun j d hj => by rw [hmemo]; exact hj : SolveMemo.DomainsKept _ s'.memo)
  have hself : s'.memo.domain? i = some dom := by
    rw [hmemo]
    simp only [SolveMemo.domain?]
    rw [getD_set!, if_pos ⟨rfl, hsd⟩]
  have hop' : s'.memo.op? i = some oi := by
    rw [hmemo]
    simp only [SolveMemo.op?]
    rw [getD_set!, if_pos ⟨rfl, hso⟩]
  have htile' : s'.memo.tile? i = none := by
    rw [hmemo]
    exact htile
  refine ⟨⟨hb', hg, fun j hj => ?_, fun j hj => ?_, fun j _ => by rw [hmemo]; rfl, fun j hj => ?_, ?_,
    fun N hN => ?_⟩, ?_⟩
  · rw [List.mem_singleton] at hj
    rw [hmemo]
    simp only [SolveMemo.domain?]
    rw [getD_set!, if_neg fun h' => hj h'.1]
  · rw [List.mem_singleton] at hj
    rw [hmemo]
    simp only [SolveMemo.op?]
    rw [getD_set!, if_neg fun h' => hj h'.1]
  · rw [List.mem_singleton] at hj
    rw [hresults, getD_set!, if_neg fun h' => hj h'.1]
  · simp [hmemo, hresults]
  · rw [List.mem_singleton] at hN
    subst hN
    refine ⟨op, hop, hcount, htile', ⟨oi, hop', by rw [hoi, hlen]⟩, fun d hd => ?_⟩
    rw [Subtree.id_node, SolveMemo.forwardAt, hself]
    exact hpins d hd
  · rw [SolveMemo.extentsAt, htile', hop']
    exact hoi.symm

theorem counted_domainInfo {A i : Nat} {rel : AffineMap} {domains : List (List Int)} {ctx : InitContext}
    {s s₁ : SolveState} {dom : DomainInfo} (hfresh : s.memo.domain? i = none) (hsize : i < s.memo.domains.size)
    (hb : s.model.Built) (hctx : ContextFits t A i rel ctx s.model s.memo)
    (h : Runs (domainInfo i rel domains ctx) s dom s₁) :
    Counted t (A + 1) i domains s₁.model s₁.memo ∧ s₁.memo.domain? i = some dom ∧
      s₁.memo = { s.memo with domains := s.memo.domains.set! i (some dom) } ∧ s₁.results = s.results ∧
      s.model.Grows s₁.model ∧ s₁.model.Built := by
  obtain ⟨s₀, k₀, hmade, rfl⟩ := runs_domainInfo hfresh hb hctx.unit h
  refine ⟨Counted.of_made hctx hmade k₀.steady.grows hfresh hsize, ?_, rfl, k₀.results, k₀.steady.grows,
    k₀.steady.built hb⟩
  simp only [SolveMemo.domain?]
  rw [getD_set!, if_pos ⟨rfl, hsize⟩]

theorem traversed_children {B : Nat} {F : Nat → Solving (Nat × InitResult)} (Fits : Subtree → SolveState → Prop)
    (hkeep : ∀ c {s u : SolveState}, Fits c s → s.model.Grows u.model → s.memo.DomainsKept u.memo → Fits c u) :
    ∀ {cs : List Subtree}, (∀ c ∈ cs, ∀ {s s' : SolveState} {y : Nat × InitResult}, Unwalked c.ids s →
        s.model.Built → Fits c s → Runs (F c.id) s y s' →
        Traversed g tgt t B c.ids c.subs s s' ∧ y.1 = c.id ∧ y.2.extents = s'.memo.extentsAt c.id) →
      (cs.map Subtree.ids).flatten.Nodup → (∀ c ∈ cs, Encloses t c.ids c.subs) →
      ∀ {s s' : SolveState} {ys : List (Nat × InitResult)}, Unwalked (cs.map Subtree.ids).flatten s →
        s.model.Built → (∀ c ∈ cs, Fits c s) → Runs ((cs.map Subtree.id).mapM F) s ys s' →
        Traversed g tgt t B (cs.map Subtree.ids).flatten (cs.flatMap Subtree.subs) s s' ∧
          ys.map Prod.fst = cs.map Subtree.id ∧ ∀ y ∈ ys, y.2.extents = s'.memo.extentsAt y.1
  | [], _, _, _, _, _, _, _, hb, _, h => by
    obtain ⟨rfl, rfl⟩ := runs_pure.1 h
    exact ⟨Traversed.nil hb, rfl, by simp⟩
  | c :: cs, hF, hnd, henc, s, s', ys, hu, hb, hfits, h => by
    rw [List.map_cons] at h
    obtain ⟨y, u, ys', hy, hrest, rfl⟩ := runs_mapM_cons.1 h
    rw [List.map_cons, List.flatten_cons] at hnd hu ⊢
    rw [List.flatMap_cons]
    obtain ⟨-, hnd', hdis⟩ := List.nodup_append.1 hnd
    have hdis' : ∀ j ∈ c.ids, j ∉ (cs.map Subtree.ids).flatten := fun j hj hj' => hdis j hj j hj' rfl
    obtain ⟨hw₁, hy₁, hy₂⟩ := hF c List.mem_cons_self (fun j hj => hu j (List.mem_append_left _ hj)) hb
      (hfits c List.mem_cons_self) hy
    have hfresh : ∀ j ∈ c.ids, s.memo.domain? j = none := fun j hj => (hu j (List.mem_append_left _ hj)).2.1
    -- the later children are still unwalked, and their contexts still fit
    have hu' := hw₁.unwalked (fun j hj => hu j (List.mem_append_right _ hj)) fun j hj hjc => hdis' j hjc hj
    obtain ⟨hw₂, hfst, hext⟩ := traversed_children Fits hkeep (fun c' hc' => hF c' (List.mem_cons_of_mem _ hc'))
      hnd' (fun c' hc' => henc c' (List.mem_cons_of_mem _ hc')) hu' hw₁.built
      (fun c' hc' => hkeep c' (hfits c' (List.mem_cons_of_mem _ hc')) hw₁.grows (hw₁.domainsKept hfresh)) hrest
    refine ⟨hw₁.append hw₂ (henc c List.mem_cons_self) hdis' fun j hj => (hu' j hj).2.1, ?_, fun z hz => ?_⟩
    · rw [List.map_cons, List.map_cons, hfst, hy₁]
    · rcases List.mem_cons.1 hz with rfl | hz
      · rw [hy₂, hy₁]
        exact (SolveMemo.extentsAt_eq_of_sameAt (hw₂.sameAt (hdis' _ (Subtree.id_mem_ids c)))).symm
      · exact hext z hz

theorem traversed_tile {A B i : Nat} {n : TileNode} {cs : List Subtree} {ctx : InitContext}
    {domain : DomainInfo} {children : List (Nat × InitResult)} {s s₁ u s' : SolveState} {r : InitResult}
    (hQ : t.Realizes (.node i (.tile n) cs)) (hnd : (Subtree.node i (.tile n) cs).ids.Nodup)
    (hu : Unwalked (Subtree.node i (.tile n) cs).ids s) (hAB : A + 1 ≤ B)
    (hcount : Counted t (A + 1) i (n.bounds.map divisors) s₁.model s₁.memo)
    (hmemo₁ : s₁.memo = { s.memo with domains := s.memo.domains.set! i (some domain) })
    (hres₁ : s₁.results = s.results) (hg₁ : s.model.Grows s₁.model) (hroot : i = t.root → ctx.parent = none)
    (hw : Traversed g tgt t B (cs.map Subtree.ids).flatten (cs.flatMap Subtree.subs) s₁ u)
    (hys : children.map Prod.fst = cs.map Subtree.id) (hext : ∀ y ∈ children, y.2.extents = u.memo.extentsAt y.1)
    (h : Runs (finishTile g tgt t i n ctx domain children) u r s') :
    Traversed g tgt t B (Subtree.node i (.tile n) cs).ids (Subtree.node i (.tile n) cs).subs s s' ∧
      r.extents = s'.memo.extentsAt i := by
  have hi : i ∉ (cs.map Subtree.ids).flatten := (List.nodup_cons.1 (Subtree.ids_node i _ cs ▸ hnd)).1
  have hin : ∀ j ∈ (cs.map Subtree.ids).flatten, j ∈ (Subtree.node i (.tile n) cs).ids := fun j hj => by
    rw [Subtree.ids_node]
    exact List.mem_cons_of_mem _ hj
  obtain ⟨-, -, -, hsr, hsd, hso, hst⟩ := hu i (Subtree.id_mem_ids _)
  obtain ⟨info, inner, hmemo, hresults, hrext, hfull, hinner, hg, hb', hties, hpins⟩ :=
    runs_finishTile_extents hw.built h
  obtain ⟨hsz₁, hsz₂, hsz₃, hsz₄⟩ := hw.sizes
  have hself : s'.memo.tile? i = some info := by
    rw [hmemo]
    simp only [SolveMemo.tile?]
    rw [getD_set!, if_pos ⟨rfl, by rw [hsz₄, hmemo₁]; exact hst⟩]
  have hsame : ∀ j, j ≠ i → u.memo.SameAt s'.memo j := fun j hj => hmemo ▸ SolveMemo.sameAt_set_tile _ hj
  have hd₂ : u.memo.DomainsKept s'.memo := fun j dom hj => by rw [hmemo]; exact hj
  -- the children's domain entries were still fresh after the tile's own
  have hfresh : ∀ j ∈ (cs.map Subtree.ids).flatten, s₁.memo.domain? j = none := fun j hj => by
    have hji : j ≠ i := fun he => hi (he ▸ hj)
    rw [hmemo₁]
    simp only [SolveMemo.domain?]
    rw [getD_set!, if_neg fun h' => hji h'.1]
    exact (hu j (hin j hj)).2.1
  have hcount' : Counted t B i (n.bounds.map divisors) s'.model s'.memo :=
    ((hcount.keep hw.grows (hw.domainsKept hfresh)).keep hg hd₂).mono hAB
  -- every extent a child reports is tied to the tile's dimensions
  have htied : TileTied t i n s'.model s'.memo := by
    refine ⟨⟨info.fullExtents, by rw [hself]; rfl, hfull, fun hr => hpins (hroot hr)⟩, inner, hinner,
      fun cs' hcs c hc => ?_⟩
    have hch : t.children i = .ok (cs.map Subtree.id) := hQ.children_eq
    rw [hch, Except.ok.injEq] at hcs
    subst hcs
    rw [← hys] at hc
    obtain ⟨y, hy, rfl⟩ := List.mem_map.1 hc
    have hyi : y.1 ≠ i := fun he => by
      have hmem : y.1 ∈ cs.map Subtree.id := hys ▸ List.mem_map_of_mem hy
      obtain ⟨C, hC, hCy⟩ := List.mem_map.1 hmem
      exact hi (he ▸ hCy ▸ List.mem_flatten.2 ⟨C.ids, List.mem_map_of_mem hC, Subtree.id_mem_ids C⟩)
    rw [SolveMemo.extentsAt_eq_of_sameAt (hsame y.1 hyi), ← hext y hy]
    exact hties y hy
  -- a node below the tile, and its children, lie in the children's positions
  have hbelow : ∀ N ∈ cs.flatMap Subtree.subs, N.id ≠ i ∧
      ∀ cs', t.children N.id = .ok cs' → ∀ c ∈ cs', c ≠ i := fun N hN => by
    obtain ⟨C, hC, hNC⟩ := List.mem_flatMap.1 hN
    obtain ⟨hid, hcs⟩ := Encloses.of_realizes (hQ.child hC).1 N hNC
    have hsub : ∀ j ∈ C.ids, j ≠ i := fun j hj he =>
      hi (he ▸ List.mem_flatten.2 ⟨C.ids, List.mem_map_of_mem hC, hj⟩)
    exact ⟨hsub _ hid, fun cs' hc' c hc => hsub c (hcs cs' hc' c hc)⟩
  refine ⟨⟨hb', hg₁.trans (hw.grows.trans hg), fun j hj => ?_, fun j hj => ?_, fun j hj => ?_,
    fun j hj => ?_, ?_, fun N hN => ?_⟩, ?_⟩
  all_goals try rw [Subtree.ids_node, List.mem_cons, not_or] at hj
  · -- the domain entries: only the tile's own was written, before its children
    have hdu : s'.memo.domain? j = u.memo.domain? j := by rw [hmemo]; rfl
    rw [hdu, hw.domains j hj.2, hmemo₁]
    simp only [SolveMemo.domain?]
    rw [getD_set!, if_neg fun h' => hj.1 h'.1]
  · rw [(hsame j hj.1).1, hw.ops j hj.2, hmemo₁]
    rfl
  · have htu : s'.memo.tile? j = u.memo.tile? j := by
      rw [hmemo]
      simp only [SolveMemo.tile?]
      rw [getD_set!, if_neg fun h' => hj.1 h'.1]
    rw [htu, hw.tiles j hj.2, hmemo₁]
    rfl
  · rw [hresults, getD_set!, if_neg fun h' => hj.1 h'.1, hw.results j hj.2, hres₁]
  · simp only [hresults, hmemo, Array.size_set!, hsz₁, hsz₂, hsz₃, hsz₄, hres₁, hmemo₁, and_self]
  · rw [Subtree.subs_node] at hN
    rcases List.mem_cons.1 hN with rfl | hN
    · exact ⟨hcount', htied⟩
    · exact (hw.pinned N hN).keep hg hd₂ (hsame _ (hbelow N hN).1) fun cs' hc c hcm =>
        hsame c ((hbelow N hN).2 cs' hc c hcm)
  · rw [hrext, SolveMemo.extentsAt, hself]

theorem traversed_visit (S : Subtree) :
    ∀ {A L f : Nat} {ctx : InitContext} {s s' : SolveState} {r : InitResult},
      t.Realizes S → S.ids.Nodup → S.Tiled L → S.ids.length ≤ f → Unwalked S.ids s → s.model.Built →
      (S.id = t.root ∨ t.root ∉ S.ids) →
      (∀ rel, S.kind.relation? = some rel → ContextFits t A S.id rel ctx s.model s.memo) →
      Runs (visit g tgt t f S.id ctx) s r s' →
      Traversed g tgt t (A + S.ids.length) S.ids S.subs s s' ∧ r.extents = s'.memo.extentsAt S.id := by
  induction S with
  | _ i k cs ih =>
    intro A L f ctx s s' r hQ hnd htiled hf hu hb hroot hctx h
    cases f with
    | zero => simp [Subtree.ids_node] at hf
    | succ f =>
      rw [Subtree.id_node, visit, runs_bind] at h
      obtain ⟨k', s₀, hk, h⟩ := h
      obtain ⟨hk', hs₀⟩ := runs_tree.1 hk
      subst s₀
      obtain rfl : k = k' := Except.ok.inj (hQ.kind_eq.symm.trans hk')
      cases htiled with
      | @leaf _ _ o =>
        have hids : (Subtree.node i (.leaf o) []).ids = [i] := by simp [Subtree.ids_node]
        rw [hids] at hu ⊢
        rw [Subtree.subs_node, List.flatMap_nil]
        exact traversed_leaf hu hb (hctx o.relation rfl) h
      | @tile _ _ n _ hpos hlt hcs =>
        dsimp only at h
        rw [runs_bind] at h
        obtain ⟨c, s₀, hc, h⟩ := h
        obtain ⟨rfl, hs₀⟩ := runs_cached.1 hc
        subst s₀
        obtain ⟨hfresh, hdomi, -, hsr, hsd, hso, hst⟩ := hu i (Subtree.id_mem_ids _)
        rw [hfresh] at h
        dsimp only at h
        simp only [runs_bind] at h
        obtain ⟨domain, s₁, h₁, cids, s₂, hcids, children, s₃, h₃, h₄⟩ := h
        obtain ⟨hcids', hs₂⟩ := runs_tree.1 hcids
        subst s₂
        obtain rfl : cs.map Subtree.id = cids := Except.ok.inj (hQ.children_eq.symm.trans hcids')
        have hctx' := hctx n.relation rfl
        obtain ⟨hcount, hdom₁, hmemo₁, hres₁, hg₁, hb₁⟩ := counted_domainInfo hdomi hsd hb hctx' h₁
        have hnd' := hnd
        rw [Subtree.ids_node, List.nodup_cons] at hnd'
        have hin : ∀ j ∈ (cs.map Subtree.ids).flatten, j ∈ (Subtree.node i (.tile n) cs).ids := fun j hj => by
          rw [Subtree.ids_node]
          exact List.mem_cons_of_mem _ hj
        -- the root lies in no child's subtree
        have hrootc : ∀ c ∈ cs, t.root ∉ c.ids := fun c hc hr => by
          rcases hroot with hr' | hr'
          · exact Subtree.id_not_mem_child hnd hc (hr' ▸ hr)
          · exact hr' (hin _ (List.mem_flatten.2 ⟨c.ids, List.mem_map_of_mem hc, hr⟩))
        -- the children are unwalked after the tile's domain entry, and their contexts fit
        have hu₁ : Unwalked (cs.map Subtree.ids).flatten s₁ := fun j hj => by
          have hji : j ≠ i := fun he => hnd'.1 (he ▸ hj)
          obtain ⟨h₁', h₂', h₃', h₄', h₅', h₆', h₇'⟩ := hu j (hin j hj)
          simp only [hres₁, hmemo₁, SolveMemo.domain?, SolveMemo.tile?, Array.size_set!] at h₂' ⊢
          rw [getD_set!, if_neg fun h' => hji h'.1]
          exact ⟨h₁', h₂', h₃', h₄', h₅', h₆', h₇'⟩
        have hfits : ∀ c ∈ cs, ∀ rel, c.kind.relation? = some rel →
            ContextFits t (A + 1) c.id rel ⟨some i, domain.forwardExtents⟩ s₁.model s₁.memo := by
          intro c hc rel hrel
          have hrel' : t.relation c.id = .ok (some rel) := by
            rw [TileTree.relation, (hQ.child hc).1.kind_eq, ← hrel]
            rfl
          exact contextFits_child hcount hdom₁ hQ.kind_eq (hQ.parent_eq hc)
            (fun he => hrootc c hc (he ▸ Subtree.id_mem_ids c)) hrel'
        obtain ⟨hw, hys, hext⟩ := traversed_children (B := A + (Subtree.node i (.tile n) cs).ids.length)
          (fun c st => ∀ rel, c.kind.relation? = some rel →
            ContextFits t (A + 1) c.id rel ⟨some i, domain.forwardExtents⟩ st.model st.memo)
          (fun c _ _ hfit hg hd rel hrel => (hfit rel hrel).keep hg hd)
          (fun c hc s s' y hu' hb' hfit hy => by
            -- each child is walked by the induction hypothesis
            rw [runs_bind] at hy
            obtain ⟨res, t', hres, hy⟩ := hy
            obtain ⟨rfl, rfl⟩ := runs_pure.1 hy
            have hlen := Subtree.length_ids_child (S := .node i (.tile n) cs) hc
            obtain ⟨hwc, hextc⟩ := ih c hc (hQ.child hc).1
              (Subtree.nodup_of_mem_subs hnd (Subtree.mem_subs_of_mem_children hc)) (hcs c hc) (by omega) hu' hb'
              (.inr (hrootc c hc)) hfit hres
            exact ⟨hwc.mono (by omega), rfl, hextc⟩)
          hnd'.2 (fun c hc => Encloses.of_realizes (hQ.child hc).1) hu₁ hb₁ hfits h₃
        exact traversed_tile hQ hnd hu (by rw [Subtree.ids_node, List.length_cons]; omega) hcount hmemo₁ hres₁
          hg₁ hctx'.root hw hys hext h₄

theorem unwalked_new (m : Model) {T : Subtree} (h : t.Realizes T) : Unwalked T.ids (SolveState.new m t.len) :=
  fun j hj => by
  have hj := h.lt_size j hj
  simp [SolveState.new, SolveMemo.empty, SolveMemo.domain?, SolveMemo.tile?, TileTree.len,
    Array.getD_eq_getD_getElem?, hj]

theorem ContextFits.root_empty (A : Nat) (rel : AffineMap) (m : Model) (memo : SolveMemo) :
    ContextFits t A t.root rel {} m memo where
  root _ := rfl
  factor d := by simp [InitContext.factor, TileTree.dimLink]
  link d p j h := by simp [TileTree.dimLink] at h

theorem TileTree.length_ids_le_fuel {T : Subtree} (hT : t.Realizes T) (hnd : T.ids.Nodup) :
    T.ids.length ≤ t.fuel := by
  rw [TileTree.fuel]
  exact Nat.le_succ_of_le (hT.length_ids_le hnd)

theorem traversed_createVariables {T : Subtree} {L : Nat} (hT : t.Realizes T) (hroot : T.id = t.root)
    (hnd : T.ids.Nodup) (htiled : T.Tiled L) {s₀ s : SolveState} (hu : Unwalked T.ids s₀) (hm : s₀.model.Built)
    {r : InitResult} (h : Runs (t.createVariables g tgt) s₀ r s) : Traversed g tgt t T.ids.length T.ids T.subs s₀ s := by
  rw [TileTree.createVariables, ← hroot] at h
  have hw := traversed_visit T (A := 0) hT hnd htiled (TileTree.length_ids_le_fuel hT hnd) hu hm (.inl hroot)
    (fun rel _ => hroot ▸ ContextFits.root_empty 0 rel _ _) h
  rw [Nat.zero_add] at hw
  exact hw.1

end Walk

/-! The facts read as equations under every assignment of a model grown from theirs. -/

section Read

variable {m' : Model} {val : Nat → Int}

theorem denotes_eq_of_posted {a b : Nat} {F G : (Nat → Int) → Int} (hab : Constraint.equal a b ∈ m.constraints)
    (ha : m.Denotes a F) (hb : m.Denotes b G) (hg : m.Grows m') (hval : m'.Assigns val) : F val = G val := by
  have heq : val a = val b := hval.posted _ (hg.constraints _ hab)
  rw [← ha m' hg val hval.toEvaluation, ← hb m' hg val hval.toEvaluation, heq]

theorem tied_eq {a e : Nat} (h : a = e ∨ Constraint.equal a e ∈ m.constraints) (hg : m.Grows m')
    (hval : m'.Assigns val) : val a = val e := by
  rcases h with rfl | h
  · rfl
  · exact hval.posted _ (hg.constraints _ h)

theorem LeafPinned.chain_prod {tgt : Target} {i B F : Nat} {op : OpNode} (hleaf : LeafPinned tgt i op m memo)
    (hcount : Counted t B i (tgt.opDomains op) m memo) (hg : m.Grows m') (hval : m'.Assigns val) (hF : B ≤ F)
    {d : Nat} (hd : d < op.domainBounds.length) :
    (tgt.kernelInfo op).primitive d * ((t.dimChain F i d).map fun x => val (memo.tileVar x.1 x.2)).prod =
      op.domainBounds.getD d 0 := by
  obtain ⟨a, b, hab, ha, hb⟩ := hleaf.pins d hd
  obtain ⟨-, -, hchain⟩ := hcount.chain d (by rwa [Target.length_opDomains]) F hF
  have hfwd : val (memo.forwardAt i d) = ((t.dimChain F i d).map fun x => val (memo.tileVar x.1 x.2)).prod :=
    hchain m' hg val hval.toEvaluation
  rw [← hfwd]
  exact denotes_eq_of_posted hab ha hb hg hval

theorem TileTied.root_extents {i : Nat} {n : TileNode} (h : TileTied t i n m memo) (hr : i = t.root)
    (hg : m.Grows m') (hval : m'.Assigns val) : (memo.extentsAt i).map val = n.bounds := by
  obtain ⟨fe, hfe, hlen, hpins⟩ := h.full
  rw [SolveMemo.extentsAt_of_fullExtents hfe]
  refine List.ext_getElem (by rw [List.length_map, hlen]) fun j hj₁ hj₂ => ?_
  obtain ⟨b, hb, hd⟩ := hpins hr j hj₂
  have hj := denotes_eq_of_posted hb (Model.Denotes.self m _) hd hg hval
  have hjf : j < fe.length := by simpa using hj₁
  simpa [List.getD_eq_getElem?_getD, List.getElem?_eq_getElem hjf, hj₂] using hj

theorem TileTied.length_extentsAt {i : Nat} {n : TileNode} (h : TileTied t i n m memo) :
    (memo.extentsAt i).length = n.bounds.length := by
  obtain ⟨fe, hfe, hlen, -⟩ := h.full
  rw [SolveMemo.extentsAt_of_fullExtents hfe, hlen]

theorem LeafPinned.length_extentsAt {tgt : Target} {i : Nat} {op : OpNode} (h : LeafPinned tgt i op m memo) :
    (memo.extentsAt i).length = op.domainBounds.length := by
  obtain ⟨oi, hoi, hlen⟩ := h.entry
  rw [SolveMemo.extentsAt, h.tile, hoi]
  exact hlen

section Ties

variable {i : Nat} {n : TileNode} {cs : List Nat} {c k : Nat} {rel : AffineMap} {range : AffineRange} {e : Nat}

theorem TileTied.pure_eq (h : TileTied t i n m memo) (hg : m.Grows m') (hval : m'.Assigns val)
    (hcs : t.children i = .ok cs) : ∃ v : Nat → Int, ∀ c ∈ cs, ∀ rel, t.relation c = .ok (some rel) →
      ∀ (k : Nat) (range : AffineRange) (e j : Nat), rel.results[k]? = some range → (memo.extentsAt c)[k]? = some e →
        range.asPureDim? = some j → j < n.bounds.length → val e = v j := by
  obtain ⟨inner, hinner, hties⟩ := h.ties
  refine ⟨fun j => val (inner.getD j 0), fun c hc rel hrel k range e j hr he hj hjn => ?_⟩
  exact (tied_eq ((hties cs hcs c hc rel hrel k range e hr he).1 j hj (hinner ▸ hjn)) hg hval).symm

theorem TileTied.const_eq (h : TileTied t i n m memo) (hg : m.Grows m') (hval : m'.Assigns val)
    (hcs : t.children i = .ok cs) (hc : c ∈ cs) (hrel : t.relation c = .ok (some rel))
    (hr : rel.results[k]? = some range) (he : (memo.extentsAt c)[k]? = some e) {o x : Int}
    (hx : range.asConstant? = some (o, x)) : val e = x := by
  obtain ⟨inner, -, hties⟩ := h.ties
  obtain ⟨b, hb, hd⟩ := (hties cs hcs c hc rel hrel k range e hr he).2 o x hx
  exact denotes_eq_of_posted hb (Model.Denotes.self m e) hd hg hval

end Ties

theorem Counted.mem {B i : Nat} {domains : List (List Int)} (h : Counted t B i domains m memo)
    (hg : m.Grows m') (hval : m'.Evaluation val) {d : Nat} (hd : d < domains.length) :
    val (memo.tileVar i d) ∈ domains.getD d [] :=
  ((h.vars d hd).grows hg).holds hval

end Read

end TileSched
