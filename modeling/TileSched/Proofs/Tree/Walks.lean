import Mathlib
import TileSched.Fusion.Merge
import TileSched.Proofs.Tree.Subtree
/-! The walks of a table over a realized subtree whose positions are distinct. The fuel of the
walks, one more than the table size, covers the subtree, so the preorder, the operation leaves
and the leaf search read the subtree; every parent link leads from a node to its parent in the
subtree; and the search for the tile of a level above a node climbs through the subtree and
stops at a tile of that level. -/

namespace TileSched

namespace Subtree

def leafEntry : Nat × NodeKind → Option (Nat × Nat)
  | (i, .leaf o) => some (o.op, i)
  | _ => none

def leaves (S : Subtree) : List (Nat × Nat) := (S.subs.map label).filterMap leafEntry

theorem leaves_node (i : Nat) (k : NodeKind) (cs : List Subtree) :
    (node i k cs).leaves = (leafEntry (i, k)).toList ++ (cs.map leaves).flatten := by
  rw [leaves, subs_node, List.map_cons, label_node, List.filterMap_cons, List.flatMap_def,
    List.map_flatten, List.filterMap_flatten, List.map_map, List.map_map]
  cases leafEntry (i, k) <;> rfl

theorem mem_leaves {S : Subtree} {a j : Nat} :
    (a, j) ∈ S.leaves ↔ ∃ Q ∈ S.subs, Q.id = j ∧ ∃ o, Q.kind = .leaf o ∧ o.op = a := by
  constructor
  · intro h
    obtain ⟨⟨i, k⟩, hl, he⟩ := List.mem_filterMap.1 h
    obtain ⟨Q, hQ, hQl⟩ := List.mem_map.1 hl
    cases k with
    | leaf o =>
      simp only [leafEntry, Option.some.injEq, Prod.mk.injEq] at he
      simp only [label, Prod.mk.injEq] at hQl
      exact ⟨Q, hQ, hQl.1.trans he.2, o, hQl.2, he.1⟩
    | scope => simp [leafEntry] at he
    | tile n => simp [leafEntry] at he
  · rintro ⟨Q, hQ, rfl, o, hk, rfl⟩
    exact List.mem_filterMap.2 ⟨Q.label, List.mem_map_of_mem hQ, by rw [label, hk]; rfl⟩

mutual
def key : Subtree → StructuralKey
  | node _ .scope cs => .scope (keyAll cs)
  | node _ (.tile n) cs => .tile n.level n.op n.relation n.bounds (keyAll cs)
  | node _ (.leaf o) _ => .leaf o.op o.relation

def keyAll : List Subtree → List StructuralKey
  | [] => []
  | c :: cs => c.key :: keyAll cs
end

theorem keyAll_eq (cs : List Subtree) : keyAll cs = cs.map key := by
  induction cs with
  | nil => rfl
  | cons c cs ih => rw [keyAll, ih, List.map_cons]

end Subtree

namespace TileTree

theorem parent_of_getElem? {t : TileTree} {j : Nat} {n : TreeNode} (h : t.nodes[j]? = some n) :
    t.parent j = .ok n.parent := by
  rw [TileTree.parent, TileTree.node, entryAt_eq_ok.2 h]
  rfl

theorem opLeaves_of_preorder {t : TileTree} {S : Subtree} (hpre : t.preorder S.id = .ok S.ids)
    (hkind : ∀ Q ∈ S.subs, t.kind Q.id = .ok Q.kind) : t.opLeaves S.id = .ok S.leaves := by
  rw [TileTree.opLeaves, hpre]
  -- each position is looked up in the table, which holds the subtree's kind there
  let g n := match t.kind n with
    | .ok k => Subtree.leafEntry (n, k)
    | .error _ => none
  have hg : ∀ Q ∈ S.subs, g Q.id = Subtree.leafEntry Q.label := fun Q hQ => by
    simp only [g, hkind Q hQ, Subtree.label]
  change (S.ids.filterMapM _) = _
  rw [filterMapM_eq_ok_filterMap (g := g), Subtree.leaves, Subtree.ids, List.filterMap_map,
    List.filterMap_map]
  · exact congrArg Except.ok (List.filterMap_congr fun Q hQ => hg Q hQ)
  · intro n hn
    obtain ⟨Q, hQ, rfl⟩ := List.mem_map.1 hn
    rw [hg Q hQ, hkind Q hQ]
    cases hk : Q.kind <;> simp [Subtree.label, hk, Subtree.leafEntry, bind, Except.bind, pure, Except.pure]

/-! The walks over a subtree held through child links alone. Its distinct positions are table
entries, so the fuel of every walk covers it even where a position repeats. -/

namespace Unfolds

variable {t : TileTree} {S Q : Subtree}

theorem preorder_eq (h : t.Unfolds S) : t.preorder S.id = .ok S.ids :=
  h.preorderAux_eq _ (by have := h.card_le_size; rw [TileTree.fuel]; omega)

theorem kind_of_mem (h : t.Unfolds S) (hQ : Q ∈ S.subs) : t.kind Q.id = .ok Q.kind :=
  (h.sub hQ).kind_eq

theorem opLeaves_eq (h : t.Unfolds S) : t.opLeaves S.id = .ok S.leaves :=
  opLeaves_of_preorder h.preorder_eq fun _ hQ => h.kind_of_mem hQ

theorem keyAux_eq (h : t.Unfolds S) : ∀ f, S.ids.toFinset.card ≤ f → t.keyAux f S.id = .ok S.key := by
  induction h with
  | @node i k cs n hn hkind hchildren hsub ih =>
    intro f hf
    have hS : t.Unfolds (.node i k cs) := .node hn hkind hchildren hsub
    obtain ⟨f, rfl⟩ : ∃ f', f = f' + 1 := ⟨f - 1, by have := Subtree.card_ids_pos (.node i k cs); omega⟩
    -- every child holds fewer distinct positions, so the fuel left covers it
    have hkeys : (cs.map Subtree.id).mapM (t.keyAux f) = .ok (cs.map Subtree.key) := by
      rw [List.mapM_map]
      exact mapM_eq_ok_map fun c hc => ih c hc f (by have := hS.card_child_lt (c := c) hc; omega)
    have hch := hS.children_eq
    have hk := hS.kind_eq
    simp only [Subtree.children_node, Subtree.id_node, Subtree.kind_node] at hch hk
    rw [TileTree.keyAux]
    cases k <;> simp [hk, hch, hkeys, bind, Except.bind, pure, Except.pure, Subtree.key, Subtree.keyAll_eq]

theorem structuralKey_eq (h : t.Unfolds S) : t.structuralKey S.id = .ok S.key :=
  h.keyAux_eq _ (by have := h.card_le_size; rw [TileTree.fuel]; omega)

end Unfolds

namespace Realizes

variable {t : TileTree} {S Q : Subtree}

theorem length_ids_le (h : t.Realizes S) (hnd : S.ids.Nodup) : S.ids.length ≤ t.nodes.size := by
  have hsub := List.subperm_of_subset hnd fun j hj => List.mem_range.2 (h.lt_size j hj)
  simpa using hsub.length_le

theorem preorder_eq (h : t.Realizes S) (hnd : S.ids.Nodup) : t.preorder S.id = .ok S.ids :=
  h.preorderAux_eq _ (by have := h.length_ids_le hnd; rw [TileTree.fuel]; omega)

theorem kind_of_mem (h : t.Realizes S) (hQ : Q ∈ S.subs) : t.kind Q.id = .ok Q.kind :=
  (h.sub hQ).kind_eq

theorem opLeaves_eq (h : t.Realizes S) (hnd : S.ids.Nodup) : t.opLeaves S.id = .ok S.leaves :=
  opLeaves_of_preorder (h.preorder_eq hnd) fun _ hQ => h.kind_of_mem hQ

theorem findOp_eq (h : t.Realizes S) (hnd : S.ids.Nodup) (op : Nat) :
    t.findOp S.id op = .ok ((S.leaves.find? (·.1 == op)).map (·.2)) := by
  rw [TileTree.findOp, h.opLeaves_eq hnd]
  rfl

theorem parent_of_mem (h : t.Realizes S) (hQ : Q ∈ S.subs) (hne : Q ≠ S) :
    ∃ P ∈ S.subs, Q ∈ P.children ∧ t.parent Q.id = .ok (some P.id) := by
  obtain ⟨P, hP, hQP⟩ := Subtree.exists_parent hQ hne
  exact ⟨P, hP, hQP, (h.sub hP).parent_eq hQP⟩

theorem parent_eq_some (h : t.Realizes S) (hQ : Q ∈ S.subs) (hne : Q ≠ S) {p : Nat}
    (hp : t.parent Q.id = .ok (some p)) : ∃ P ∈ S.subs, P.id = p ∧ Q ∈ P.children := by
  obtain ⟨P, hP, hQP, hpar⟩ := h.parent_of_mem hQ hne
  refine ⟨P, hP, ?_, hQP⟩
  rw [hp] at hpar
  injection hpar with hpar
  injection hpar with hpar
  exact hpar.symm

theorem parent_mem (h : t.Realizes S) (hroot : t.parent S.id = .ok none) (hQ : Q ∈ S.subs) :
    ∃ o, t.parent Q.id = .ok o ∧ ∀ p ∈ o, p ∈ S.ids := by
  by_cases hne : Q = S
  · subst hne
    exact ⟨none, hroot, fun _ hp => nomatch hp⟩
  · obtain ⟨P, hP, -, hpar⟩ := h.parent_of_mem hQ hne
    refine ⟨some P.id, hpar, fun p hp => ?_⟩
    rw [← Option.mem_some_iff.1 hp]
    exact List.mem_map_of_mem hP

theorem tileAtLevel_mem (h : t.Realizes S) (hroot : t.parent S.id = .ok none) (L : Nat) :
    ∀ f o {x}, (∀ j ∈ o, j ∈ S.ids) → t.tileAtLevel L f o = .ok (some x) →
      ∃ Q ∈ S.subs, Q.id = x ∧ ∃ n, Q.kind = .tile n ∧ n.level = L
  | 0, _, _, _, hx => nomatch hx
  | f + 1, none, _, _, hx => nomatch hx
  | f + 1, some j, x, ho, hx => by
    obtain ⟨Q, hQ, rfl⟩ := List.mem_map.1 (ho j rfl)
    obtain ⟨o, hpar, ho'⟩ := h.parent_mem hroot hQ
    -- one step up from a node that is not the tile sought
    have climb : t.tileAtLevel L f o = .ok (some x) → ∃ Q ∈ S.subs, Q.id = x ∧ ∃ n, Q.kind = .tile n ∧ n.level = L :=
      tileAtLevel_mem h hroot L f o ho'
    rw [TileTree.tileAtLevel, h.kind_of_mem hQ] at hx
    cases hk : Q.kind with
    | tile n =>
      simp only [hk, bind, Except.bind] at hx
      split_ifs at hx with hL hgt
      · simp only [pure, Except.pure, Except.ok.injEq, Option.some.injEq] at hx
        exact ⟨Q, hQ, hx, n, hk, hL⟩
      · nomatch hx
      · rw [hpar] at hx
        exact climb hx
    | scope =>
      simp only [hk, bind, Except.bind, hpar] at hx
      exact climb hx
    | leaf l =>
      simp only [hk, bind, Except.bind, hpar] at hx
      exact climb hx

end Realizes

end TileTree

end TileSched
