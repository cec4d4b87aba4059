import Mathlib
import TileSched.Proofs.Schedule.FirstPass
import TileSched.Proofs.Fusion.Candidates
import TileSched.Proofs.Tree.Extract
import TileSched.Proofs.Fusion.Wellformed
import TileSched.Proofs.Schedule.Solved
/-! The def-use aliasing the first pass leaves at every tile of a tree extracted from a reachable
tile graph. The leaves of such a tree are distinct operations, so the clock stamps each by its
preorder position, and the walk leaves an alias report in the memo of every tile; there, a read of
an output below the tile is held by the very entry the tile's lookup gives for that output. -/

namespace TileSched

open Solving

/-- The time step at which the first pass visits operation `a`, when the operation leaves in
preorder are `leaves`: two steps for each leaf before it. -/
def preorderStamp (leaves : List (Nat × Nat)) (a : Nat) : Nat := 2 * (leaves.map Prod.fst).idxOf a

theorem preorderStamp_eq {leaves : List (Nat × Nat)} (hnd : (leaves.map Prod.fst).Nodup) :
    leaves.map (fun l => preorderStamp leaves l.1) = List.range' 0 leaves.length 2 := by
  refine List.ext_getElem (by simp) fun k h₁ _ => ?_
  have hk : k < (leaves.map Prod.fst).length := by simpa using h₁
  have hidx := hnd.idxOf_getElem k hk
  simp only [List.getElem_map] at hidx
  simp [preorderStamp, hidx]

namespace Subtree

theorem sublist_leaves {S P : Subtree} (hP : P ∈ S.subs) : P.leaves.Sublist S.leaves := by
  induction S with
  | _ i k cs ih =>
    rcases List.mem_cons.1 (subs_node i k cs ▸ hP) with rfl | hP
    · exact List.Sublist.refl _
    · obtain ⟨c, hc, hPc⟩ := List.mem_flatMap.1 hP
      rw [leaves_node]
      exact ((ih c hc hPc).trans (List.sublist_flatten_of_mem (List.mem_map_of_mem hc))).trans
        (List.sublist_append_right _ _)

end Subtree

namespace TileTree

theorem lt_size_of_kind {e : TileTree} {j : Nat} {k : NodeKind} (h : e.kind j = .ok k) : j < e.nodes.size := by
  obtain ⟨n, hn, -⟩ := bind_eq_ok.1 h
  exact (Array.getElem?_eq_some_iff.1 (entryAt_eq_ok.1 hn)).1

end TileTree

theorem find?_zipIdx_reverse_eq {α : Type} {l : List α} {p : α × Nat → Bool} {k : Nat} (hk : k < l.length)
    (hpk : p (l[k], k) = true) (honly : ∀ j (hj : j < l.length), p (l[j], j) = true → j = k) :
    (l.zipIdx.reverse.find? p).map (·.2) = some k := by
  have hsome : (l.zipIdx.reverse.find? p).isSome :=
    List.find?_isSome.2 ⟨(l[k], k), List.mem_reverse.2 (List.mem_zipIdx_iff_getElem?.2 (by simp [hk])), hpk⟩
  obtain ⟨⟨b, j⟩, hfind⟩ := Option.isSome_iff_exists.1 hsome
  have hj : l[j]? = some b :=
    List.mem_zipIdx_iff_getElem?.1 (List.mem_reverse.1 (List.mem_of_find?_eq_some hfind))
  obtain ⟨hjl, rfl⟩ := List.getElem?_eq_some_iff.1 hj
  rw [hfind, Option.map_some]
  exact congrArg some (honly j hjl (List.find?_some hfind))

namespace TileInfo

theorem buffer?_of_mem {info : TileInfo}
    (hdis : info.buffers.Pairwise fun b b' => b.aliases.Disjoint b'.aliases) {b : TileBuffer}
    (hb : b ∈ info.buffers) {x : BufferId} (hx : x ∈ b.aliases) : info.buffer? x = some b := by
  obtain ⟨k, hk, rfl⟩ := List.getElem_of_mem hb
  have hslot : info.slotOf? x = some k := by
    rw [slotOf?]
    refine find?_zipIdx_reverse_eq hk (by simpa using hx) fun j hj hxj => ?_
    replace hxj : x ∈ info.buffers[j].aliases := by simpa using hxj
    -- no two slots share `x`
    rcases lt_trichotomy j k with hlt | heq | hlt
    · exact absurd hx (List.pairwise_iff_getElem.1 hdis j k hj hk hlt hxj)
    · exact heq
    · exact absurd hxj (List.pairwise_iff_getElem.1 hdis k j hk hj hlt hx)
  rw [buffer?, hslot, Option.bind_some, List.getElem?_eq_getElem hk]

end TileInfo

section Report

variable {g : Dataflow} {stamp : Nat → Nat} {ops : List Nat}

theorem AliasReport.buffer?_shared {info : TileInfo}
    (h : AliasReport g stamp ops (info.buffers.map TileBuffer.entry)) (hnd : ops.Nodup) {x : BufferId}
    (hx : x ∈ g.identities ops) {p : Nat} (hp : g.producerOf? x = some p) (hmem : p ∈ ops) :
    ∃ b ∈ info.buffers, info.buffer? x = some b ∧ info.buffer? (g.outputId p) = some b ∧ x ≠ b.id := by
  obtain ⟨e, he, hxe, hne⟩ := (h.noncanonical_iff hx).2 ⟨p, hp, hmem⟩
  obtain ⟨p', hp', -, hout⟩ := (h.sound e he).shared x hxe hne
  obtain rfl : p = p' := Option.some.inj (hp.symm.trans hp')
  obtain ⟨b, hb, rfl⟩ := List.mem_map.1 he
  have hdis : info.buffers.Pairwise fun b b' => b.aliases.Disjoint b'.aliases := by
    have := h.pairwise_disjoint hnd
    rw [List.pairwise_map] at this
    exact this
  exact ⟨b, hb, TileInfo.buffer?_of_mem hdis hb hxe, TileInfo.buffer?_of_mem hdis hb hout, hne⟩

end Report

/-- What the first pass leaves at every tile node `N` of `e`, with the operation leaves of `e`
stamped by their preorder position: an alias report over the operation leaves below `N` in the
tile memo of `N`, in which every read of an output below `N` is looked up to the entry of that
output. -/
def TilesAliased (g : Dataflow) (e : TileTree) (s : SolveState) : Prop :=
  ∃ all, e.opLeaves e.root = .ok all ∧ ∀ N n, e.kind N = .ok (.tile n) →
    ∃ ls info, e.opLeaves N = .ok ls ∧ s.memo.tile? N = some info ∧
      AliasReport g (preorderStamp all) (ls.map Prod.fst) (info.buffers.map TileBuffer.entry) ∧
      ∀ x ∈ g.identities (ls.map Prod.fst), ∀ p, g.producerOf? x = some p → p ∈ ls.map Prod.fst →
        ∃ b ∈ info.buffers, info.buffer? x = some b ∧ info.buffer? (g.outputId p) = some b ∧ x ≠ b.id

theorem unvisited_new (m : Model) {e : TileTree} {T : Subtree} (h : e.Realizes T) :
    Init.Unvisited T.ids (SolveState.new m e.len) := fun j hj => by
  have hj := h.lt_size j hj
  refine ⟨?_, by simpa [SolveState.new, TileTree.len] using hj,
    by simpa [SolveState.new, SolveMemo.empty, TileTree.len] using hj⟩
  simp only [SolveState.new, Array.getD_eq_getD_getElem?, Array.getElem?_replicate]
  split <;> rfl

theorem tilesAliased_of_walk {g : Dataflow} {tgt : Target} (hid : ∀ a (op : OpNode), g.ops[a]? = some op → op.id = a)
    {e : TileTree} {T : Subtree} {L : Nat} (hT : e.Realizes T) (hroot : T.id = e.root) (hnd : T.ids.Nodup)
    (hsize : e.nodes.size = T.ids.length) (htiled : T.Tiled L) (hleaves : (T.leaves.map Prod.fst).Nodup)
    {m : Model} {r : InitResult} {s : SolveState}
    (hinit : Runs (e.createVariables g tgt) (SolveState.new m e.len) r s) : TilesAliased g e s := by
  rw [TileTree.createVariables, ← hroot] at hinit
  have hw : Init.Walked g (preorderStamp T.leaves) T.ids T.leaves T.subs _ r.buffers s :=
    Init.walked_visit hid T hT hnd htiled (by rw [TileTree.fuel, hsize]; omega) (unvisited_new m hT)
      (by rw [preorderStamp_eq hleaves]; rfl) hinit
  refine ⟨T.leaves, hroot ▸ hT.opLeaves_eq hnd, fun N n hN => ?_⟩
  -- the node is one of the subtree's, realized with its own leaves
  obtain ⟨Q, hQ, rfl⟩ := List.mem_map.1 (hT.mem_ids hnd hsize (TileTree.lt_size_of_kind hN))
  have hQk : Q.kind = .tile n := Except.ok.inj ((hT.sub hQ).kind_eq.symm.trans hN)
  obtain ⟨info, hinfo, hreport⟩ := hw.tile Q hQ n hQk
  have hQnd : (Q.leaves.map Prod.fst).Nodup := hleaves.sublist ((Subtree.sublist_leaves hQ).map _)
  exact ⟨Q.leaves, info, (hT.sub hQ).opLeaves_eq (Subtree.nodup_of_mem_subs hnd hQ), hinfo, hreport,
    fun x hx p hp hmem => hreport.buffer?_shared hQnd hx hp hmem⟩

/-- After the first pass over any top tree extracted from a tile graph reached from a valid one by
merges, every tile node reports its entries aliased over the operation leaves below it: the alias
lists partition their buffer identities; an entry is known by an output or by a read of a value
not produced below the node; a read is an alias of another identity exactly when its producer is
below the node, and then it shares the entry of the producer's output; and each lifetime is the
least interval holding the steps of its aliases' leaves, stamped by preorder position. -/
theorem createVariables_tilesAliased {g : Dataflow} {top : Nat} {tg₀ tg : TileGraph} {mps : List MergePoint}
    (hnew : TileGraph.new g top = .ok tg₀) (hrun : mps.foldlM TileGraph.merge tg₀ = .ok tg)
    {tops : List Nat} (htops : tg.topTrees = .ok tops) {i : Nat} (hi : i ∈ tops) {e : TileTree}
    (hext : tg.extractTree i = .ok e) {tgt : Target} {m : Model} {r : InitResult} {s : SolveState}
    (hinit : Runs (e.createVariables g tgt) (SolveState.new m e.len) r s) : TilesAliased g e s := by
  obtain ⟨-, -, S, hF, hl⟩ := TileGraph.reachable_forest hnew hrun
  obtain ⟨hv, -, -⟩ := TileGraph.new_eq_ok hnew
  -- the top trees are the children of the forest's root
  rw [TileGraph.topTrees, liftFault, mapError_eq_ok, ← hF.root, hF.realizes.children_eq] at htops
  obtain ⟨C, hC, rfl⟩ := List.mem_map.1 ((Except.ok.inj htops) ▸ hi)
  have hCsub : C ∈ S.subs := Subtree.mem_subs_of_mem_children hC
  obtain ⟨e', T, hex, hcopy, hT, hroot, hsize, hnd⟩ :=
    TileTree.extract_copy (hF.realizes.sub hCsub) (Subtree.nodup_of_mem_subs hF.nodup hCsub)
  rw [TileGraph.extractTree, liftFault, mapError_eq_ok, hex] at hext
  obtain rfl := Except.ok.inj hext
  -- the copied leaves are operations of the graph, each once
  have hleaves : (T.leaves.map Prod.fst).Nodup := by
    rw [hcopy.leaf_ops]
    exact (hl ▸ List.nodup_range).sublist ((Subtree.sublist_leaves hCsub).map _)
  exact tilesAliased_of_walk (fun _ _ => Dataflow.id_of_validate hv) hT hroot hnd
    (hsize.trans hcopy.length_ids.symm) (hcopy.tiled (hF.tops C hC).2) hleaves hinit

def threeChainTop : TileTree :=
  ((TileGraph.mk threeChain threeChainMerged 3).extractTree 13).toOption.getD (.new .scope)

/-- The first pass over the top tree of the chain's first two operations, merged at the top level. -/
theorem threeChainTop_tilesAliased :
    (TileGraph.mk threeChain threeChainMerged 3).extractTree 13 = .ok threeChainTop ∧
      ∃ r s, Runs (threeChainTop.createVariables threeChain smallTarget) (SolveState.new {} threeChainTop.len) r s ∧
        TilesAliased threeChain threeChainTop s := by
  have hnew : TileGraph.new threeChain 3 = .ok ⟨threeChain, threeChainForest, 3⟩ := rfl
  have htops : (TileGraph.mk threeChain threeChainMerged 3).topTrees = .ok [13, 9] :=
    toOption_eq_some.1 (by decide +kernel)
  have hsome : ((TileGraph.mk threeChain threeChainMerged 3).extractTree 13).toOption.isSome = true := by
    decide +kernel
  obtain ⟨e, he⟩ := Option.isSome_iff_exists.1 hsome
  have hext : (TileGraph.mk threeChain threeChainMerged 3).extractTree 13 = .ok threeChainTop := by
    rw [threeChainTop, he, Option.getD_some]
    exact toOption_eq_some.1 he
  have hpass : ((threeChainTop.createVariables threeChain smallTarget).run.run
      (SolveState.new {} threeChainTop.len)).1.toOption.isSome = true := by
    decide +kernel
  obtain ⟨r, hr⟩ := Option.isSome_iff_exists.1 hpass
  have hinit : Runs (threeChainTop.createVariables threeChain smallTarget) (SolveState.new {} threeChainTop.len) r
      ((threeChainTop.createVariables threeChain smallTarget).run.run (SolveState.new {} threeChainTop.len)).2 :=
    Prod.ext (toOption_eq_some.1 hr) rfl
  exact ⟨hext, r, _, hinit,
    createVariables_tilesAliased hnew threeChain_merge_ok htops List.mem_cons_self hext hinit⟩

end TileSched
