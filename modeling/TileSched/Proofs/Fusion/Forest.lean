import TileSched.Fusion.TileGraph
import TileSched.Proofs.Tree.Walks
import TileSched.Proofs.Tree.Edits
/-! Well-formed tile forests, and the initial forest of a valid graph.

A forest is well formed when the table realizes, from its root, a subtree with distinct
positions whose root has no parent and is a scope, and whose children are tile subtrees of the
top level: every tile has a level between one and the top, and every child of a tile is a tile of
a lower level or an operation leaf without children.

The initial forest adds, for every operation in turn, a chain below the root: tiles from the top
level down to one, each the only child of the one before, then the operation's leaf. Every
position of the table is then in use, in preorder, and the leaves list the operations in order. -/

namespace TileSched

def NodeKind.isTile : NodeKind → Bool
  | .tile _ => true
  | _ => false

namespace Subtree

/-- A tile subtree under level `L`: a tile of a level in [1, L) whose children are tile subtrees
under its level, or an operation leaf without children. -/
inductive Tiled : Nat → Subtree → Prop
  | tile {L i : Nat} {n : TileNode} {cs : List Subtree} (hpos : 0 < n.level) (hlt : n.level < L)
      (hcs : ∀ c ∈ cs, Tiled n.level c) : Tiled L (node i (.tile n) cs)
  | leaf {L i : Nat} {o : OpLeaf} : Tiled L (node i (.leaf o) [])

namespace Tiled

variable {L : Nat} {S Q : Subtree}

theorem mono {L' : Nat} (h : S.Tiled L) (hL : L ≤ L') : S.Tiled L' := by
  cases h with
  | tile hpos hlt hcs => exact .tile hpos (by omega) hcs
  | leaf => exact .leaf

theorem of_mem_subs (h : S.Tiled L) (hQ : Q ∈ S.subs) : Q.Tiled L := by
  induction h with
  | @tile L i n cs hpos hlt hcs ih =>
    rcases List.mem_cons.1 (subs_node i _ cs ▸ hQ) with rfl | hQ
    · exact .tile hpos hlt hcs
    · obtain ⟨c, hc, hQc⟩ := List.mem_flatMap.1 hQ
      exact (ih c hc hQc).mono (Nat.le_of_lt hlt)
  | @leaf L i o =>
    rw [subs_node, List.flatMap_nil, List.mem_singleton] at hQ
    subst hQ
    exact .leaf

theorem levels (h : S.Tiled L) (hQ : Q ∈ S.subs) {n : TileNode} (hn : Q.kind = .tile n) :
    0 < n.level ∧ n.level < L ∧ ∀ c ∈ Q.children, c.Tiled n.level := by
  cases h.of_mem_subs hQ with
  | tile hpos hlt hcs =>
    cases hn
    exact ⟨hpos, hlt, hcs⟩
  | leaf => nomatch hn

theorem kind_ne_scope (h : S.Tiled L) : S.kind ≠ .scope := by
  cases h <;> nofun

end Tiled

/-! The chain of one operation. -/

/-- The chain of `op` from position `s`: tiles of levels `l` down to one, each the only child of
the one before, then the operation's leaf, all over the identity relation. -/
def chain (op : OpNode) : Nat → Nat → Subtree
  | s, 0 => node s (.leaf ⟨op.id, .identity op.rank, op.domainBounds⟩) []
  | s, l + 1 => node s (.tile ⟨l + 1, op.id, .identity op.rank, op.domainBounds⟩) [chain op (s + 1) l]

variable {op : OpNode}

@[simp] theorem id_chain (s l : Nat) : (chain op s l).id = s := by
  cases l <;> rfl

theorem ids_chain (s l : Nat) : (chain op s l).ids = List.range' s (l + 1) := by
  induction l generalizing s with
  | zero => rfl
  | succ l ih =>
    rw [chain, ids_node, List.map_singleton, List.flatten_singleton, ih]
    exact List.range'_succ.symm

theorem leaves_chain (s l : Nat) : (chain op s l).leaves = [(op.id, s + l)] := by
  induction l generalizing s with
  | zero => rfl
  | succ l ih =>
    rw [chain, leaves_node, List.map_singleton, List.flatten_singleton, ih]
    simp [leafEntry, Nat.add_right_comm, Nat.add_assoc]

theorem tiled_chain (s l : Nat) : (chain op s l).Tiled (l + 1) := by
  induction l generalizing s with
  | zero => exact .leaf
  | succ l ih =>
    exact .tile (Nat.succ_pos l) (Nat.lt_succ_self _) fun c hc => by
      rw [List.mem_singleton.1 hc]
      exact ih (s + 1)

end Subtree

namespace TileTree

/-- A well-formed tile forest of top level `top`: the table realizes `S` from its root, with
distinct positions; the root has no parent and is a scope, and its children are tile subtrees of
the top level. -/
structure Forest (t : TileTree) (top : Nat) (S : Subtree) : Prop where
  realizes : t.Realizes S
  root : S.id = t.root
  nodup : S.ids.Nodup
  parent_root : t.parent t.root = .ok none
  scope : S.kind = .scope
  tops : ∀ c ∈ S.children, (∃ n, c.kind = .tile n ∧ n.level = top) ∧ c.Tiled (top + 1)

/-! Adding one chain. -/

/-- The chain of `op` below `q`, with tiles from level `l` down: the body of `addChain` at any
node and level. -/
def chainBelow (l : Nat) (op : OpNode) (t : TileTree) (q : Nat) : TileTree :=
  let rel := AffineMap.identity op.rank
  let (t, last) := (List.range l).foldl (fun (acc : TileTree × Nat) k =>
    acc.1.addChild acc.2 (.tile ⟨l - k, op.id, rel, op.domainBounds⟩)) (t, q)
  (t.addChild last (.leaf ⟨op.id, rel, op.domainBounds⟩)).1

theorem addChain_eq (top : Nat) (t : TileTree) (op : OpNode) :
    TileGraph.addChain top t op = chainBelow top op t t.root := rfl

theorem chainBelow_succ (l : Nat) (op : OpNode) (t : TileTree) (q : Nat) :
    chainBelow (l + 1) op t q =
      chainBelow l op (t.addChild q (.tile ⟨l + 1, op.id, .identity op.rank, op.domainBounds⟩)).1
        t.nodes.size := by
  simp only [chainBelow, List.range_succ_eq_map, List.foldl_cons, List.foldl_map, Nat.sub_zero,
    Nat.succ_sub_succ]
  rfl

/-- What adding a chain below `q` leaves: the table grows by the chain, which it realizes from the
old size on with `q` as the parent of its first node; `q` gains that node as its last child and
every other old entry stays. -/
structure ChainAdded (t : TileTree) (q l : Nat) (op : OpNode) (t' : TileTree) : Prop where
  size : t'.nodes.size = t.nodes.size + l + 1
  root : t'.root = t.root
  frame : ∀ j < t.nodes.size, j ≠ q → t'.nodes[j]? = t.nodes[j]?
  parent : t'.nodes[q]? = t.nodes[q]?.map fun n => { n with children := n.children ++ [t.nodes.size] }
  realizes : t'.Realizes (Subtree.chain op t.nodes.size l)
  first : ∃ m, t'.nodes[t.nodes.size]? = some m ∧ m.parent = some q

theorem chainBelow_added (op : OpNode) :
    ∀ (l : Nat) (t : TileTree) {q : Nat}, q < t.nodes.size → ChainAdded t q l op (chainBelow l op t q)
  | 0, t, q, hq => by
    have hnew := t.getElem?_addChild_new (.leaf ⟨op.id, .identity op.rank, op.domainBounds⟩) hq
    refine ⟨by simp [chainBelow], rfl, fun j hj hjq => ?_, ?_, ?_, ⟨_, hnew, rfl⟩⟩
    · exact t.getElem?_addChild_of_ne _ hjq (Nat.ne_of_lt hj)
    · exact t.getElem?_addChild_parent _ hq
    · exact .node hnew rfl rfl (fun _ h => nomatch h) fun _ h => nomatch h
  | l + 1, t, q, hq => by
    rw [chainBelow_succ]
    -- the top tile first, then the rest of the chain below it
    let k : NodeKind := .tile ⟨l + 1, op.id, .identity op.rank, op.domainBounds⟩
    have hnew := t.getElem?_addChild_new k hq
    have hsize : (t.addChild q k).1.nodes.size = t.nodes.size + 1 := size_addChild t q k
    have ih := chainBelow_added op l (t.addChild q k).1 (q := t.nodes.size) (by omega)
    have hparent := ih.parent
    have hrest := ih.realizes
    obtain ⟨m, hm, hmp⟩ := ih.first
    rw [hsize] at hparent hrest hm
    refine ⟨by rw [ih.size, hsize]; omega, ih.root, fun j hj hjq => ?_, ?_, ?_, ?_⟩
    · rw [ih.frame j (by omega) (Nat.ne_of_lt hj)]
      exact t.getElem?_addChild_of_ne _ hjq (Nat.ne_of_lt hj)
    · rw [ih.frame q (by omega) (Nat.ne_of_lt hq)]
      exact t.getElem?_addChild_parent _ hq
    · rw [Subtree.chain]
      refine .node (hparent.trans (by rw [hnew]; rfl)) rfl (by simp) (fun c hc => ?_) fun c hc => ?_
      · rw [List.mem_singleton.1 hc, Subtree.id_chain]
        exact ⟨m, hm, hmp⟩
      · rw [List.mem_singleton.1 hc]
        exact hrest
    · exact ⟨_, hparent.trans (by rw [hnew]; rfl), rfl⟩

/-! The chains of the initial forest. -/

/-- A table holding the scope root at position zero over the chains `cs`, with every position in
use: the invariant of the initial forest while chains are added. -/
structure Chains (top : Nat) (t : TileTree) (cs : List Subtree) : Prop where
  realizes : t.Realizes (.node 0 .scope cs)
  ids : (Subtree.node 0 .scope cs).ids = List.range t.nodes.size
  root : t.root = 0
  parent_root : t.parent 0 = .ok none
  tops : ∀ c ∈ cs, (∃ n, c.kind = .tile n ∧ n.level = top) ∧ c.Tiled (top + 1)

theorem chains_new (top : Nat) : Chains top (.new .scope) [] :=
  ⟨.node rfl rfl rfl (fun _ h => nomatch h) (fun _ h => nomatch h), rfl, rfl, rfl, fun _ h => nomatch h⟩

theorem Chains.addChain {top : Nat} (htop : 0 < top) {t : TileTree} {cs : List Subtree}
    (h : Chains top t cs) (op : OpNode) :
    Chains top (TileGraph.addChain top t op) (cs ++ [Subtree.chain op t.nodes.size top]) := by
  have h0 : 0 < t.nodes.size := h.realizes.lt_size 0 (Subtree.id_mem_ids (.node 0 .scope cs))
  have hadd := chainBelow_added op top t h0
  rw [addChain_eq, h.root]
  obtain ⟨n₀, hn₀, hk₀, hch₀⟩ := h.realizes.entry
  simp only [Subtree.id_node, Subtree.kind_node, Subtree.children_node] at hn₀ hk₀ hch₀
  have hnd : (Subtree.node 0 .scope cs).ids.Nodup := h.ids ▸ List.nodup_range
  -- the old chains lie below the old size and away from the root
  have hold : ∀ c ∈ cs, ∀ j ∈ c.ids, j < t.nodes.size ∧ j ≠ 0 := fun c hc j hj =>
    ⟨h.realizes.lt_size j (Subtree.ids_sub (Subtree.mem_subs_of_mem_children hc) j hj),
      fun h0 => Subtree.id_not_mem_child hnd hc (h0 ▸ hj)⟩
  have hroot : (chainBelow top op t 0).nodes[0]? = some { n₀ with children := n₀.children ++ [t.nodes.size] } := by
    rw [hadd.parent, hn₀]
    rfl
  refine ⟨.node hroot hk₀ ?_ (fun c hc => ?_) (fun c hc => ?_), ?_, ?_, ?_, ?_⟩
  · simp [hch₀]
  · rcases List.mem_append.1 hc with hc | hc
    · obtain ⟨-, m, hm, hmp⟩ := h.realizes.child hc
      obtain ⟨hlt, hne⟩ := hold c hc c.id (Subtree.id_mem_ids c)
      exact ⟨m, (hadd.frame c.id hlt hne).trans hm, hmp⟩
    · rw [List.mem_singleton.1 hc, Subtree.id_chain]
      exact hadd.first
  · rcases List.mem_append.1 hc with hc | hc
    · exact (h.realizes.child hc).1.congr fun j hj => hadd.frame j (hold c hc j hj).1 (hold c hc j hj).2
    · rw [List.mem_singleton.1 hc]
      exact hadd.realizes
  · -- the new chain takes the positions from the old size on
    have hids := h.ids
    rw [Subtree.ids_node] at hids ⊢
    rw [List.map_append, List.flatten_append, List.map_singleton, List.flatten_singleton, ← List.cons_append,
      hids, Subtree.ids_chain, hadd.size, List.range_eq_range', List.range_eq_range', Nat.add_assoc]
    simpa using List.range'_append_1 (s := 0) (m := t.nodes.size) (n := top + 1)
  · rw [hadd.root, h.root]
  · have hp := h.parent_root
    rw [TileTree.parent, TileTree.node, entryAt_eq_ok.2 hn₀] at hp
    rw [TileTree.parent, TileTree.node, entryAt_eq_ok.2 hroot]
    exact hp
  · intro c hc
    rcases List.mem_append.1 hc with hc | hc
    · exact h.tops c hc
    · rw [List.mem_singleton.1 hc]
      obtain ⟨l, rfl⟩ : ∃ l, top = l + 1 := ⟨top - 1, by omega⟩
      exact ⟨⟨_, rfl, rfl⟩, Subtree.tiled_chain _ _⟩

theorem Chains.foldl_addChain {top : Nat} (htop : 0 < top) :
    ∀ (ops : List OpNode) {t : TileTree} {cs : List Subtree}, Chains top t cs →
      ∃ cs', Chains top (ops.foldl (TileGraph.addChain top) t) (cs ++ cs') ∧
        (cs'.map Subtree.leaves).flatten.map Prod.fst = ops.map (·.id)
  | [], t, cs, h => ⟨[], by simpa using h, rfl⟩
  | op :: ops, t, cs, h => by
    obtain ⟨cs', h', hl⟩ := foldl_addChain htop ops (h.addChain htop op)
    refine ⟨Subtree.chain op t.nodes.size top :: cs', by simpa using h', ?_⟩
    rw [List.map_cons, List.flatten_cons, Subtree.leaves_chain, List.map_append, hl]
    rfl

theorem Chains.forest {top : Nat} {t : TileTree} {cs : List Subtree} (h : Chains top t cs) :
    t.Forest top (.node 0 .scope cs) :=
  ⟨h.realizes, h.root.symm, h.ids ▸ List.nodup_range, h.root ▸ h.parent_root, rfl, h.tops⟩

end TileTree

namespace Dataflow

theorem ids_of_validate {g : Dataflow} (hv : g.validate = .ok ()) :
    g.ops.map (·.id) = List.range g.ops.length := by
  refine List.ext_getElem (by simp) fun i h₁ _ => ?_
  have hi : i < g.ops.length := by simpa using h₁
  have hid := forM_eq_ok hv (g.ops[i], i) (List.mem_zipIdx_iff_getElem?.2 (by simp [hi]))
  simp only [List.getElem_map, List.getElem_range]
  by_contra hne
  simp only [checkOp, ne_eq, hne, not_false_eq_true, if_true] at hid
  obtain ⟨_, hthrow, -⟩ := bind_eq_ok.1 hid
  nomatch hthrow

theorem id_of_validate {g : Dataflow} (hv : g.validate = .ok ()) {a : Nat} {op : OpNode}
    (hop : g.ops[a]? = some op) : op.id = a := by
  obtain ⟨ha, rfl⟩ := List.getElem?_eq_some_iff.1 hop
  simpa [ha] using congrArg (·[a]?) (ids_of_validate hv)

end Dataflow

namespace TileGraph

theorem new_eq_ok {g : Dataflow} {top : Nat} {tg : TileGraph} (h : TileGraph.new g top = .ok tg) :
    g.validate = .ok () ∧ 0 < top ∧ tg = ⟨g, g.ops.foldl (addChain top) (.new .scope), top⟩ := by
  rw [TileGraph.new] at h
  obtain ⟨⟨⟩, hv, h⟩ := bind_eq_ok.1 h
  by_cases htop : top = 0
  · simp [htop] at h
    nomatch h
  · simp only [htop, if_false] at h
    exact ⟨hv, Nat.pos_of_ne_zero htop, (pure_eq_ok.1 h).symm⟩

theorem new_forest {g : Dataflow} {top : Nat} {tg : TileGraph} (h : TileGraph.new g top = .ok tg) :
    tg.dataflow = g ∧ tg.topLevel = top ∧
      ∃ S, tg.tree.Forest top S ∧ S.leaves.map Prod.fst = List.range g.ops.length := by
  obtain ⟨hv, htop, rfl⟩ := new_eq_ok h
  obtain ⟨cs, hcs, hl⟩ := TileTree.Chains.foldl_addChain htop g.ops (TileTree.chains_new top)
  refine ⟨rfl, rfl, _, hcs.forest, ?_⟩
  rw [Subtree.leaves_node, List.nil_append]
  simpa [Subtree.leafEntry, hl] using Dataflow.ids_of_validate hv

end TileGraph

end TileSched
