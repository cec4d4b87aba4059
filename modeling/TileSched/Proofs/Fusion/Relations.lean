import Mathlib
import TileSched.Proofs.Fusion.Wellformed
import TileSched.Proofs.Affine.Plain
import TileSched.Proofs.Tree.Paths
/-! Relations agree with bounds. Every tile and leaf of a forest holds a relation from its parent's
domain to its own, and a top tile one from its own domain to itself: a relation of dimensions and
constants, with one input for each dimension of the domain above, whose extents at the bounds above
are the node's own bounds. The initial chains hold identities; a merge keeps the agreement, since
the derived relation sends the consumer tile's bounds to the producer tile's and extents compose.
Composing the relations from a top tile down to any node below it then gives, at the top tile's
bounds, the node's own bounds, without overflow. -/

namespace TileSched

namespace AffineMap

variable {a b c : AffineMap} {pb qb rb : List Int}

/-- `m` relates a domain of bounds `pb` to one of bounds `b`: plain, with one input for each entry
of `pb`, and extents `b` at `pb`. -/
structure Links (m : AffineMap) (pb b : List Int) : Prop where
  plain : m.Plain
  nDim : m.nDim = pb.length
  extents : m.extents pb = b

theorem Links.nOut {m : AffineMap} (h : m.Links pb qb) : m.nOut = qb.length := by
  rw [← h.extents, length_extents]

theorem links_identity (bs : List Int) : (identity bs.length).Links bs bs :=
  ⟨identity_plain _, rfl, identity_extents bs⟩

theorem Links.compose_of_ok (ha : a.DimOrConst) (hn : a.nDim = pb.length) (he : a.extents pb = qb)
    (hb : b.Links qb rb) (h : a.compose b = .ok c) : c.Links pb rb := by
  refine ⟨compose_plain_of_ok ha hb.plain h, by rw [(compose_eq_ok h).1, hn], ?_⟩
  rw [extents_compose h (le_of_eq hn.symm), he, hb.extents]

theorem Links.compose (ha : a.Links pb qb) (hb : b.Links qb rb) : ∃ c, a.compose b = .ok c ∧ c.Links pb rb := by
  obtain ⟨c, hc, -⟩ := compose_plain ha.plain hb.plain (ha.nOut.trans hb.nDim.symm)
  exact ⟨c, hc, compose_of_ok ha.plain.dimOrConst ha.nDim ha.extents hb hc⟩

end AffineMap

namespace NodeKind

variable {k : NodeKind} {r r' : AffineMap}

@[simp] theorem bounds_setRelation : (k.setRelation r).bounds = k.bounds := by
  cases k <;> rfl

theorem relation?_setRelation (h : k.relation? = some r) : (k.setRelation r').relation? = some r' := by
  cases k <;> first | rfl | nomatch h

theorem setRelation_self (h : k.relation? = some r) : k.setRelation r = k := by
  cases k <;> cases h <;> rfl

theorem eq_leaf_of_setRelation {o' : OpLeaf} (h : k.setRelation r = .leaf o') :
    ∃ o, k = .leaf o ∧ o'.op = o.op ∧ o'.bounds = o.bounds := by
  cases k with
  | leaf o =>
    cases h
    exact ⟨o, rfl, rfl, rfl⟩
  | _ => nomatch h

end NodeKind

namespace Subtree

/-- The domains below a domain of bounds `pb` are right for the operations of `g`: a tile or a
leaf holds a relation linking `pb` to its own word bounds, a leaf spans its operation's domain, and
its children relate below its bounds; the children of a scope relate below their own bounds. -/
inductive Relates (g : Dataflow) : List Int → Subtree → Prop
  | scope {pb : List Int} {i : Nat} {cs : List Subtree} (hcs : ∀ c ∈ cs, Relates g c.kind.bounds c) :
      Relates g pb (node i .scope cs)
  | link {pb : List Int} {i : Nat} {k : NodeKind} {cs : List Subtree} {r : AffineMap}
      (hr : k.relation? = some r) (hl : r.Links pb k.bounds) (hfits : ∀ b ∈ k.bounds, I64.fits b = true)
      (hleaf : ∀ o, k = .leaf o → ∃ op, g.op o.op = .ok op ∧ o.bounds = op.domainBounds)
      (hcs : ∀ c ∈ cs, Relates g k.bounds c) : Relates g pb (node i k cs)

namespace Relates

variable {g : Dataflow} {pb : List Int} {S c : Subtree}

theorem child (h : S.Relates g pb) (hS : S.kind ≠ .scope) (hc : c ∈ S.children) : c.Relates g S.kind.bounds := by
  cases h with
  | scope => exact absurd rfl hS
  | link _ _ _ _ hcs => exact hcs c hc

theorem adopt {xb yb : List Int} (hc : c.Relates g xb) {R r r' : AffineMap} (hr : c.kind.relation? = some r)
    (hR : R.DimOrConst) (hn : R.nDim = yb.length) (he : R.extents yb = xb) (h : R.compose r = .ok r') :
    (c.setRelation r').Relates g yb := by
  cases hc with
  | scope => nomatch hr
  | link hr₀ hl hfits hleaf hcs =>
    rw [kind_node, hr₀, Option.some.injEq] at hr
    subst hr
    refine .link (NodeKind.relation?_setRelation hr₀) ?_ ?_ (fun o' ho' => ?_) ?_
    · rw [NodeKind.bounds_setRelation]
      exact hl.compose_of_ok hR hn he h
    · simpa using hfits
    · obtain ⟨o, rfl, hop, hb⟩ := NodeKind.eq_leaf_of_setRelation ho'
      rw [hop, hb]
      exact hleaf o rfl
    · simpa using hcs

theorem links (h : c.Relates g pb) (hc : c.kind ≠ .scope) :
    ∃ r, c.kind.relation? = some r ∧ r.Links pb c.kind.bounds ∧ ∀ b ∈ c.kind.bounds, I64.fits b = true := by
  cases h with
  | scope => exact absurd rfl hc
  | link hr hl hfits _ _ => exact ⟨_, hr, hl, hfits⟩

theorem of_scope (h : S.Relates g pb) (hS : S.kind = .scope) (hc : c ∈ S.children) :
    c.Relates g c.kind.bounds := by
  cases h with
  | scope hcs => exact hcs c hc
  | link hr => rw [kind_node] at hS; subst hS; nomatch hr

theorem leaf (h : c.Relates g pb) {o : OpLeaf} (hk : c.kind = .leaf o) :
    ∃ op, g.op o.op = .ok op ∧ o.bounds = op.domainBounds := by
  cases h with
  | scope => nomatch hk
  | link _ _ _ hleaf _ => exact hleaf o hk

theorem sub (h : S.Relates g pb) {Q : Subtree} (hQ : Q ∈ S.subs) : ∃ q, Q.Relates g q := by
  induction h with
  | @scope pb i cs hcs ih =>
    rcases List.mem_cons.1 (subs_node i _ cs ▸ hQ) with rfl | hQ
    · exact ⟨pb, .scope hcs⟩
    · obtain ⟨c, hc, hQc⟩ := List.mem_flatMap.1 hQ
      exact ih c hc hQc
  | @link pb i k cs r hr hl hfits hleaf hcs ih =>
    rcases List.mem_cons.1 (subs_node i k cs ▸ hQ) with rfl | hQ
    · exact ⟨pb, .link hr hl hfits hleaf hcs⟩
    · obtain ⟨c, hc, hQc⟩ := List.mem_flatMap.1 hQ
      exact ih c hc hQc

end Relates

theorem setRelation_self {c : Subtree} {r : AffineMap} (h : c.kind.relation? = some r) : c.setRelation r = c := by
  cases c
  rw [setRelation, NodeKind.setRelation_self h]
  rfl

theorem forall_mem_adopted {Q : Subtree → Prop} {Rel : Subtree → Nat × AffineMap → Prop}
    (h : ∀ c e, Rel c e → Q (c.setRelation e.2)) :
    ∀ {cs : List Subtree} {L : List (Nat × AffineMap)}, List.Forall₂ Rel cs L → ∀ c' ∈ adopted cs L, Q c'
  | _, _, .nil, _, hc' => nomatch hc'
  | c :: _, e :: _, .cons hce hs, c', hc' => by
    rcases List.mem_cons.1 hc' with rfl | hc'
    · exact h c e hce
    · exact forall_mem_adopted h hs c' hc'

theorem adopted_append {cs ds : List Subtree} {L M : List (Nat × AffineMap)} (hlen : cs.length = L.length) :
    adopted (cs ++ ds) (L ++ M) = adopted cs L ++ adopted ds M := by
  rw [adopted, List.zip_append hlen, List.map_append, adopted, adopted]

section Merged

variable {X Y : Subtree} {xn yn : TileNode} {R : AffineMap} {LX LY : List (Nat × AffineMap)}

/-- What a merge reads and adopts: `X` and `Y` tiles, a relation of dimensions and constants from
the bounds of `Y` to those of `X`, the children of `X` adopted with it composed before their own
relations, those of `Y` with their own. -/
structure Adopts (X Y : Subtree) (xn yn : TileNode) (R : AffineMap) (LX LY : List (Nat × AffineMap)) : Prop where
  left : X.kind = .tile xn
  right : Y.kind = .tile yn
  dimOrConst : R.DimOrConst
  nDim : R.nDim = yn.bounds.length
  extents : R.extents yn.bounds = xn.bounds
  adoptLeft : List.Forall₂ (fun c e => ∃ r, c.kind.relation? = some r ∧ R.compose r = .ok e.2) X.children LX
  adoptRight : List.Forall₂ (fun c e => c.kind.relation? = some e.2) Y.children LY

theorem Relates.mergedNode {g : Dataflow} {qx qy : List Int} (hX : X.Relates g qx) (hY : Y.Relates g qy)
    (ha : Adopts X Y xn yn R LX LY) (m l : Nat) :
    (node m (.tile { yn with level := l }) (adopted (X.children ++ Y.children) (LX ++ LY))).Relates g qy := by
  have hxs : ∀ c ∈ X.children, c.Relates g xn.bounds := fun c hc => by
    have h := hX.child (by rw [ha.left]; nofun) hc
    rwa [ha.left] at h
  cases hY with
  | scope => nomatch ha.right
  | @link _ i k cs r hr hl hfits _ hcs =>
    obtain rfl : k = .tile yn := ha.right
    obtain rfl : r = yn.relation := (Option.some.inj hr).symm
    refine .link rfl hl hfits (fun _ h => nomatch h) fun c' hc' => ?_
    rw [adopted_append ha.adoptLeft.length_eq, List.mem_append] at hc'
    rcases hc' with hc' | hc'
    · refine forall_mem_adopted (fun c e hce => ?_) ((List.forall₂_and_left _ _).2 ⟨fun c hc => hc, ha.adoptLeft⟩) c' hc'
      obtain ⟨hc, r, hr, hcomp⟩ := hce
      exact (hxs c hc).adopt hr ha.dimOrConst ha.nDim ha.extents hcomp
    · refine forall_mem_adopted (fun c e hce => ?_) ((List.forall₂_and_left _ _).2 ⟨fun c hc => hc, ha.adoptRight⟩) c' hc'
      obtain ⟨hc, hr⟩ := hce
      rw [setRelation_self hr]
      exact hcs c hc

theorem Relates.merged {g : Dataflow} {P : Subtree} {pre post : List Subtree} {q : List Int} (hP : P.Relates g q)
    (hch : P.children = pre ++ X :: Y :: post) (ha : Adopts X Y xn yn R LX LY) (m l : Nat) :
    (P.merged pre post X Y m (.tile { yn with level := l }) (LX ++ LY)).Relates g q := by
  have hmem : ∀ c ∈ pre ++ post, c ∈ P.children := fun c hc => by
    rw [hch]
    rcases List.mem_append.1 hc with hc | hc <;> simp [hc]
  cases hP with
  | scope hcs =>
    -- below a scope the merged tile relates below its own bounds, which are those of `Y`
    rw [children_node] at hmem hch
    refine .scope fun c hc => ?_
    rcases List.mem_append.1 hc with hc | hc
    · exact hcs c (hmem c (List.mem_append_left _ hc))
    rcases List.mem_cons.1 hc with rfl | hc
    · have hY := hcs Y (by simp [hch])
      rw [ha.right] at hY
      exact (hcs X (by simp [hch])).mergedNode hY ha m l
    · exact hcs c (hmem c (List.mem_append_right _ hc))
  | link hr hl hfits hleaf hcs =>
    rw [children_node] at hmem hch
    refine .link hr hl hfits hleaf fun c hc => ?_
    rcases List.mem_append.1 hc with hc | hc
    · exact hcs c (hmem c (List.mem_append_left _ hc))
    rcases List.mem_cons.1 hc with rfl | hc
    · exact (hcs X (by simp [hch])).mergedNode (hcs Y (by simp [hch])) ha m l
    · exact hcs c (hmem c (List.mem_append_right _ hc))

end Merged

theorem Relates.replace {g : Dataflow} {pb : List Int} {S P P' : Subtree} (h : S.Relates g pb) (hnd : S.ids.Nodup)
    (hP : P ∈ S.subs) (hk : P'.kind = P.kind) (hP' : ∀ q, P.Relates g q → P'.Relates g q) :
    (S.replace P.id P').Relates g pb := by
  -- a child holding the replaced position is replaced within, keeping its kind; another is kept
  have hchild : ∀ {i k cs} (c : Subtree), c ∈ cs → (node i k cs).ids.Nodup → P ∈ (node i k cs).subs →
      ∀ {q}, c.Relates g q → (c.ids.Nodup → P ∈ c.subs → (c.replace P.id P').Relates g q) →
        (c.replace P.id P').Relates g q ∧ (c.replace P.id P').kind = c.kind := by
    intro i k cs c hc hnd hP q hq ih
    have hcS := mem_subs_of_mem_children (S := node i k cs) hc
    by_cases hPc : P ∈ c.subs
    · exact ⟨ih (nodup_of_mem_subs hnd hcS) hPc, kind_replace (nodup_of_mem_subs hnd hcS) hPc P' hk⟩
    · rw [replace_of_not_mem P' (id_not_mem_of_not_mem_subs hnd hP hcS hPc)]
      exact ⟨hq, rfl⟩
  induction h with
  | @scope pb i cs hcs ih =>
    rw [replace_node]
    split_ifs with hi
    · have hPS := eq_of_id_mem hnd hP (by rw [id_node, hi]; exact id_mem_ids P)
      exact hP' pb (hPS ▸ .scope hcs)
    · refine .scope fun c' hc' => ?_
      obtain ⟨c, hc, rfl⟩ := List.mem_map.1 hc'
      obtain ⟨hr, hkc⟩ := hchild c hc hnd hP (hcs c hc) (ih c hc)
      rw [hkc]
      exact hr
  | @link pb i k cs r hr hl hfits hleaf hcs ih =>
    rw [replace_node]
    split_ifs with hi
    · have hPS := eq_of_id_mem hnd hP (by rw [id_node, hi]; exact id_mem_ids P)
      exact hP' pb (hPS ▸ .link hr hl hfits hleaf hcs)
    · refine .link hr hl hfits hleaf fun c' hc' => ?_
      obtain ⟨c, hc, rfl⟩ := List.mem_map.1 hc'
      exact (hchild c hc hnd hP (hcs c hc) (ih c hc)).1

/-! The initial chains. -/

@[simp] theorem bounds_chain {op : OpNode} (s l : Nat) : (chain op s l).kind.bounds = op.domainBounds := by
  cases l <;> rfl

theorem relates_chain {g : Dataflow} {op : OpNode} (hop : g.op op.id = .ok op)
    (hw : ∀ b ∈ op.domainBounds, I64.fits b = true) : ∀ s l, (chain op s l).Relates g op.domainBounds
  | _, 0 => .link rfl (AffineMap.links_identity _) hw (fun o ho => by cases ho; exact ⟨op, hop, rfl⟩)
      fun _ h => nomatch h
  | s, l + 1 => .link rfl (AffineMap.links_identity _) hw (fun _ h => nomatch h) fun c hc => by
      rw [List.mem_singleton.1 hc]
      exact relates_chain hop hw (s + 1) l

end Subtree

namespace TileTree

variable {t : TileTree}

theorem Realizes.bounds_of_mem {S Q : Subtree} (h : t.Realizes S) (hQ : Q ∈ S.subs) :
    t.bounds Q.id = .ok Q.kind.bounds := by
  rw [bounds, h.kind_of_mem hQ]
  rfl

theorem Realizes.relation_of_mem {S Q : Subtree} (h : t.Realizes S) (hQ : Q ∈ S.subs) :
    t.relation Q.id = .ok Q.kind.relation? := by
  rw [relation, h.kind_of_mem hQ]
  rfl

theorem relationBelow_nDim {a n : Nat} {M : AffineMap} (h : t.relationBelow a n = .ok M) :
    ∃ bs, t.bounds a = .ok bs ∧ M.nDim = bs.length := by
  unfold relationBelow at h
  obtain ⟨path, -, h⟩ := bind_eq_ok.1 h
  obtain ⟨bs, hbs, h⟩ := bind_eq_ok.1 h
  refine ⟨bs, mapError_eq_ok.1 hbs, foldlM_ok_inv (fun acc : AffineMap => acc.nDim = bs.length) h rfl ?_⟩
  intro acc n acc' _ hacc hstep
  obtain ⟨or, -, hstep⟩ := bind_eq_ok.1 hstep
  rcases or with _ | r
  · nomatch hstep
  · rw [(AffineMap.compose_eq_ok hstep).1, hacc]

theorem relationBelow_eq_foldlM {a n : Nat} {path : List Nat} {bs : List Int}
    (hp : t.pathUp a n t.fuel n = .ok path) (hb : t.bounds a = .ok bs) :
    ∃ f : AffineMap → Nat → Outcome AffineMap,
      t.relationBelow a n = path.reverse.foldlM f (AffineMap.identity bs.length) ∧
        ∀ acc j r, t.relation j = .ok (some r) → f acc j = acc.compose r := by
  refine ⟨?_, ?_, ?_⟩
  rotate_left
  · rw [relationBelow, hp, hb]
    rfl
  · intro acc j r hj
    simp [hj, liftFault, Except.mapError, bind, Except.bind]

theorem Chains.foldl_addChain_relates {g : Dataflow} {top : Nat} (htop : 0 < top) :
    ∀ (ops : List OpNode) {t : TileTree} {cs : List Subtree}, Chains top t cs →
      (∀ c ∈ cs, c.Relates g c.kind.bounds) →
      (∀ op ∈ ops, g.op op.id = .ok op ∧ ∀ b ∈ op.domainBounds, I64.fits b = true) →
      ∃ cs', Chains top (ops.foldl (TileGraph.addChain top) t) cs' ∧ ∀ c ∈ cs', c.Relates g c.kind.bounds
  | [], _, cs, h, hcs, _ => ⟨cs, h, hcs⟩
  | op :: ops, t, cs, h, hcs, hops => by
    refine foldl_addChain_relates htop ops (h.addChain htop op) (fun c hc => ?_)
      fun op' h' => hops op' (List.mem_cons_of_mem _ h')
    rcases List.mem_append.1 hc with hc | hc
    · exact hcs c hc
    · rw [List.mem_singleton.1 hc, Subtree.bounds_chain]
      obtain ⟨hop, hw⟩ := hops op List.mem_cons_self
      exact Subtree.relates_chain hop hw _ _

end TileTree

namespace MergePoint

variable {mp : MergePoint} {t : TileTree}

theorem deriveRelation_eq_ok {g : Dataflow} {at_ : MergeSite} {R : AffineMap}
    (h : mp.deriveRelation t g at_ = .ok R) :
    ∃ yb xb, t.bounds at_.y = .ok yb ∧ t.bounds at_.x = .ok xb ∧ R.DimOrConst ∧ R.nDim = yb.length ∧
      R.extents yb = xb := by
  unfold deriveRelation at h
  -- every lookup and check on the way returned a value
  obtain ⟨producer, -, h⟩ := bind_eq_ok.1 h
  obtain ⟨consumer, -, h⟩ := bind_eq_ok.1 h
  split at h
  rotate_left
  · nomatch h
  split_ifs at h
  · nomatch h
  obtain ⟨toConsumer, hto, h⟩ := bind_eq_ok.1 h
  obtain ⟨view, hview, h⟩ := bind_eq_ok.1 h
  split at h
  rotate_left
  · nomatch h
  obtain ⟨fromX, -, h⟩ := bind_eq_ok.1 h
  obtain ⟨xb, hxb, h⟩ := bind_eq_ok.1 h
  obtain ⟨results, -, h⟩ := bind_eq_ok.1 h
  simp only [] at h
  split_ifs at h with hpure
  · nomatch h
  obtain ⟨yb, hyb, h⟩ := bind_eq_ok.1 h
  obtain ⟨projected, hproj, h⟩ := bind_eq_ok.1 h
  split_ifs at h with hne
  · nomatch h
  obtain rfl := pure_eq_ok.1 h
  -- the derived relation has the inputs of the consumer's view, those of the consumer tile
  have hyb' := mapError_eq_ok.1 hyb
  obtain ⟨bs, hbs, hdim⟩ := TileTree.relationBelow_nDim hto
  rw [hyb', Except.ok.injEq] at hbs
  subst hbs
  refine ⟨yb, xb, hyb', mapError_eq_ok.1 hxb, AffineMap.isPureOrConstant_dimOrConst (by simpa using hpure), ?_, ?_⟩
  · rw [← hdim, ← (AffineMap.compose_eq_ok (mapError_eq_ok.1 hview)).1]
    rfl
  · rw [← AffineMap.applyBounds_eq_ok (mapError_eq_ok.1 hproj)]
    simpa using hne

theorem apply_relates {g g' : Dataflow} {top : Nat} {S : Subtree} {t' : TileTree} (hF : t.Forest top S)
    (hS : S.Relates g []) (h : TreeEdit.Runs (mp.apply g') t () t') :
    ∃ S', t'.Forest top S' ∧ S'.Relates g [] := by
  obtain ⟨P, X, Y, pre, post, at_, R, xn, yn, LX, LY, hs, -, -, hX, hY, hR, hxn, hxl, hyn, hyl, hLX, hLY, rfl⟩ :=
    apply_site hF h
  obtain ⟨yb, xb, hyb, hxb, hdc, hn, he⟩ := deriveRelation_eq_ok hR
  -- the bounds the derivation read are those of the two tiles
  have hXS : X ∈ S.subs := Subtree.subs_trans hs.parent (Subtree.mem_subs_of_mem_children hs.mem_left)
  have hYS : Y ∈ S.subs := Subtree.subs_trans hs.parent (Subtree.mem_subs_of_mem_children hs.mem_right)
  rw [hX, hF.realizes.bounds_of_mem hXS, hxn, Except.ok.injEq] at hxb
  rw [hY, hF.realizes.bounds_of_mem hYS, hyn, Except.ok.injEq] at hyb
  subst hxb hyb
  have ha : Subtree.Adopts X Y xn yn R LX LY := ⟨hxn, hyn, hdc, hn, he, hLX, hLY⟩
  exact ⟨_, hF.merged hs hxn hyn hxl hyl rfl,
    hS.replace hF.nodup hs.parent rfl fun q hq => hq.merged hs.children ha _ _⟩

end MergePoint

/-! The walks of a forest whose domains are right. -/

namespace TileTree.Forest

variable {t : TileTree} {g : Dataflow} {top : Nat} {S C Q : Subtree} {ps : List Subtree}

section

variable (hF : t.Forest top S) (hC : C ∈ S.children)
include hF hC

theorem not_scope {P : Subtree} (hP : P ∈ C.subs) : P.kind ≠ .scope :=
  ((hF.tops C hC).2.of_mem_subs hP).kind_ne_scope

theorem tiledTop_eq (h : Subtree.Descends C Q ps) : ∀ f, ps.length < f → t.tiledTop f Q.id = .ok C.id := by
  have hr := hF.realizes
  have hCS := Subtree.mem_subs_of_mem_children hC
  induction h with
  | refl =>
    intro f hf
    obtain ⟨f, rfl⟩ : ∃ f', f = f' + 1 := ⟨f - 1, by omega⟩
    -- the parent of a top tile is the scope root
    simp [TileTree.tiledTop, hr.parent_eq hC, hr.kind_eq, hF.scope, bind, Except.bind, pure, Except.pure]
  | @step P Q ps hP hQ ih =>
    intro f hf
    obtain ⟨f, rfl⟩ : ∃ f', f = f' + 1 := ⟨f - 1, by simp at hf; omega⟩
    have hPC := hP.mem_subs
    have hPS := Subtree.subs_trans hCS hPC
    -- a top tree holds no scope, so the climb goes on from the parent
    have hne := not_scope hF hC hPC
    simp [TileTree.tiledTop, (hr.sub hPS).parent_eq hQ, hr.kind_of_mem hPS, hne, ih f (by simp at hf; omega),
      bind, Except.bind]

variable (hS : S.Relates g [])
include hS

theorem foldlM_links {f : AffineMap → Nat → Outcome AffineMap}
    (hf : ∀ acc j r, t.relation j = .ok (some r) → f acc j = acc.compose r) (h : Subtree.Descends C Q ps) :
    ∃ q, Q.Relates g q ∧ ∃ M, (ps.map Subtree.id).foldlM f (AffineMap.identity C.kind.bounds.length) = .ok M ∧
      M.Links C.kind.bounds Q.kind.bounds := by
  have hCS := Subtree.mem_subs_of_mem_children hC
  induction h with
  | refl => exact ⟨_, hS.of_scope hF.scope hC, _, rfl, AffineMap.links_identity _⟩
  | @step P Q ps hP hQ ih =>
    obtain ⟨q, hPq, M, hM, hML⟩ := ih
    have hQC := Subtree.subs_trans hP.mem_subs (Subtree.mem_subs_of_mem_children hQ)
    -- the next relation links the bounds of `P` to those of `Q`
    have hQr := hPq.child (not_scope hF hC hP.mem_subs) hQ
    obtain ⟨r, hr, hl, -⟩ := hQr.links (not_scope hF hC hQC)
    obtain ⟨M', hM', hl'⟩ := hML.compose hl
    have hstep : f M Q.id = .ok M' := by
      rw [hf M Q.id r (by rw [hF.realizes.relation_of_mem (Subtree.subs_trans hCS hQC), hr]), hM']
    refine ⟨_, hQr, M', ?_, hl'⟩
    rw [List.map_append, List.foldlM_append, hM]
    simp [bind, Except.bind, hstep, pure, Except.pure]

theorem relationBelow_links (h : Subtree.Descends C Q ps) :
    ∃ M, t.relationBelow C.id Q.id = .ok M ∧ M.Links C.kind.bounds Q.kind.bounds := by
  have hr := hF.realizes
  have hCS := Subtree.mem_subs_of_mem_children hC
  have hpath := hr.pathUp_eq hF.nodup hCS h Q.id t.fuel (hr.length_lt_fuel hF.nodup hCS h)
  obtain ⟨f, hbelow, hf⟩ := relationBelow_eq_foldlM hpath (hr.bounds_of_mem hCS)
  obtain ⟨-, -, M, hM, hl⟩ := foldlM_links hF hC hS hf h
  exact ⟨M, by rw [hbelow, List.reverse_reverse, hM], hl⟩

theorem absoluteRelation_links (hQ : Q ∈ C.subs) :
    t.tiledTop t.fuel Q.id = .ok C.id ∧ (∀ b ∈ C.kind.bounds, I64.fits b = true) ∧
      ∃ M, t.absoluteRelation Q.id = .ok M ∧ M.Links C.kind.bounds Q.kind.bounds := by
  have hr := hF.realizes
  have hCS := Subtree.mem_subs_of_mem_children hC
  obtain ⟨ps, hps⟩ := Subtree.Descends.exists_of_mem_subs hQ
  have htop := tiledTop_eq hF hC hps t.fuel (hr.length_lt_fuel hF.nodup hCS hps)
  -- the root's own relation links its bounds to themselves
  obtain ⟨own, hown, hol, hfits⟩ :=
    (hS.of_scope hF.scope hC).links (not_scope hF hC (Subtree.self_mem_subs C))
  obtain ⟨Mb, hMb, hbl⟩ := relationBelow_links hF hC hS hps
  obtain ⟨M, hM, hl⟩ := hol.compose hbl
  refine ⟨htop, hfits, M, ?_, hl⟩
  simp [TileTree.absoluteRelation, htop, hr.relation_of_mem hCS, hown, hMb, hM, liftFault, Except.mapError,
    bind, Except.bind]

end

end TileTree.Forest

namespace TileGraph

variable {g : Dataflow} {top : Nat} {tg₀ tg : TileGraph} {mps : List MergePoint}

theorem new_relates (hnew : TileGraph.new g top = .ok tg₀)
    (hw : ∀ op ∈ g.ops, ∀ b ∈ op.domainBounds, I64.fits b = true) :
    ∃ S, tg₀.tree.Forest top S ∧ S.Relates g [] := by
  obtain ⟨hv, htop, rfl⟩ := new_eq_ok hnew
  -- every operation sits at the position of its number
  have hops : ∀ op ∈ g.ops, g.op op.id = .ok op ∧ ∀ b ∈ op.domainBounds, I64.fits b = true := by
    intro op hop
    obtain ⟨i, hi, rfl⟩ := List.getElem_of_mem hop
    have hget : g.ops[i]? = some g.ops[i] := List.getElem?_eq_getElem hi
    rw [Dataflow.id_of_validate hv hget]
    exact ⟨by simp [Dataflow.op, hget], hw _ hop⟩
  obtain ⟨cs, hcs, hrel⟩ :=
    TileTree.Chains.foldl_addChain_relates htop g.ops (TileTree.chains_new top) (fun _ h => nomatch h) hops
  exact ⟨_, hcs.forest, .scope hrel⟩

theorem reachable_relates (hnew : TileGraph.new g top = .ok tg₀) (hrun : mps.foldlM TileGraph.merge tg₀ = .ok tg)
    (hw : ∀ op ∈ g.ops, ∀ b ∈ op.domainBounds, I64.fits b = true) :
    ∃ S, tg.tree.Forest top S ∧ S.Relates g [] := by
  refine foldlM_ok_inv (fun tg : TileGraph => ∃ S, tg.tree.Forest top S ∧ S.Relates g []) hrun
    (new_relates hnew hw) ?_
  rintro tg mp tg' - ⟨S, hF, hS⟩ h
  obtain ⟨t', hrun', rfl⟩ := merge_eq_ok h
  exact MergePoint.apply_relates hF hS hrun'

/-- Domain relations compose without drift. In every graph reached by successful merges from the
initial one of a graph whose domain bounds are words, below the root `R` of every top tree, every
node the preorder walk reaches climbs back to `R`, and its absolute relation succeeds and gives, at
the bounds of `R`, exactly the node's bounds; at an operation leaf those are its operation's
domain bounds. -/
theorem relations_reproduce_bounds (hnew : TileGraph.new g top = .ok tg₀)
    (hrun : mps.foldlM TileGraph.merge tg₀ = .ok tg) (hw : ∀ op ∈ g.ops, ∀ b ∈ op.domainBounds, I64.fits b = true) :
    ∃ roots, tg.topTrees = .ok roots ∧ ∀ R ∈ roots, ∃ ns bR ls,
      tg.tree.preorder R = .ok ns ∧ tg.tree.bounds R = .ok bR ∧
      (∀ n ∈ ns, tg.tree.tiledTop tg.tree.fuel n = .ok R ∧ ∃ M bn, tg.tree.absoluteRelation n = .ok M ∧
        tg.tree.bounds n = .ok bn ∧ M.applyBounds bR = .ok bn) ∧
      tg.tree.opLeaves R = .ok ls ∧ ∀ a j, (a, j) ∈ ls → ∃ op M, g.op a = .ok op ∧
        tg.tree.absoluteRelation j = .ok M ∧ tg.tree.bounds j = .ok op.domainBounds ∧
        M.applyBounds bR = .ok op.domainBounds := by
  obtain ⟨S, hF, hS⟩ := reachable_relates hnew hrun hw
  have hr := hF.realizes
  refine ⟨S.children.map Subtree.id, ?_, fun R hR => ?_⟩
  · rw [topTrees, ← hF.root, hr.children_eq, liftFault_ok]
    rfl
  obtain ⟨C, hC, rfl⟩ := List.mem_map.1 hR
  have hCS := Subtree.mem_subs_of_mem_children hC
  have hCnd := Subtree.nodup_of_mem_subs hF.nodup hCS
  -- below the root, every node is read through its subtree, whose bounds its relation reproduces
  have hnode : ∀ Q ∈ C.subs, ∃ M, tg.tree.tiledTop tg.tree.fuel Q.id = .ok C.id ∧
      tg.tree.absoluteRelation Q.id = .ok M ∧ M.applyBounds C.kind.bounds = .ok Q.kind.bounds := by
    intro Q hQ
    obtain ⟨htop, hfits, M, hM, hl⟩ := hF.absoluteRelation_links hC hS hQ
    exact ⟨M, htop, hM, by rw [AffineMap.applyBounds_plain hl.plain hfits, hl.extents]⟩
  refine ⟨C.ids, C.kind.bounds, C.leaves, (hr.sub hCS).preorder_eq hCnd, hr.bounds_of_mem hCS,
    fun n hn => ?_, (hr.sub hCS).opLeaves_eq hCnd, fun a j haj => ?_⟩
  · obtain ⟨Q, hQ, rfl⟩ := List.mem_map.1 hn
    obtain ⟨M, htop, hM, happ⟩ := hnode Q hQ
    exact ⟨htop, M, Q.kind.bounds, hM, hr.bounds_of_mem (Subtree.subs_trans hCS hQ), happ⟩
  · obtain ⟨Q, hQ, rfl, o, hk, rfl⟩ := Subtree.mem_leaves.1 haj
    obtain ⟨M, -, hM, happ⟩ := hnode Q hQ
    -- a leaf spans its operation's domain
    obtain ⟨q, hq⟩ := hS.sub (Subtree.subs_trans hCS hQ)
    obtain ⟨op, hop, hb⟩ := hq.leaf hk
    have hQb : Q.kind.bounds = op.domainBounds := by rw [hk]; exact hb
    exact ⟨op, M, hop, hM, by rw [hr.bounds_of_mem (Subtree.subs_trans hCS hQ), hQb], by rw [happ, hQb]⟩

end TileGraph

/-- After merging the first two operations of `threeChain` at the top level, the absolute relation
of every node of every top tree reproduces its bounds from the top tree's root. -/
theorem threeChain_relations_reproduce_bounds :
    TileGraph.new threeChain 3 = .ok ⟨threeChain, threeChainForest, 3⟩ ∧
      [⟨0, 1, 3⟩].foldlM TileGraph.merge ⟨threeChain, threeChainForest, 3⟩ =
        .ok ⟨threeChain, threeChainMerged, 3⟩ ∧
      (∀ op ∈ threeChain.ops, ∀ b ∈ op.domainBounds, I64.fits b = true) ∧
      ∃ roots, (TileGraph.mk threeChain threeChainMerged 3).topTrees = .ok roots ∧ ∀ R ∈ roots, ∃ ns bR ls,
        threeChainMerged.preorder R = .ok ns ∧ threeChainMerged.bounds R = .ok bR ∧
        (∀ n ∈ ns, threeChainMerged.tiledTop threeChainMerged.fuel n = .ok R ∧ ∃ M bn,
          threeChainMerged.absoluteRelation n = .ok M ∧ threeChainMerged.bounds n = .ok bn ∧
          M.applyBounds bR = .ok bn) ∧
        threeChainMerged.opLeaves R = .ok ls ∧ ∀ a j, (a, j) ∈ ls → ∃ op M, threeChain.op a = .ok op ∧
          threeChainMerged.absoluteRelation j = .ok M ∧ threeChainMerged.bounds j = .ok op.domainBounds ∧
          M.applyBounds bR = .ok op.domainBounds := by
  have hnew : TileGraph.new threeChain 3 = .ok ⟨threeChain, threeChainForest, 3⟩ := rfl
  have hw : ∀ op ∈ threeChain.ops, ∀ b ∈ op.domainBounds, I64.fits b = true := by decide
  exact ⟨hnew, threeChain_merge_ok, hw, TileGraph.relations_reproduce_bounds hnew threeChain_merge_ok hw⟩

end TileSched
