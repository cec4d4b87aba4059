import Mathlib
import TileSched.Tree.Basic
/-! The edits of a node table, read entry by entry: what adding a child, adding a detached node,
adopting a node and splicing a parent's children leave at every position. Each edit changes the
entries it names and keeps every other one. -/

namespace TileSched

def NodeKind.setRelation : NodeKind → AffineMap → NodeKind
  | .tile x, r => .tile { x with relation := r }
  | .leaf o, r => .leaf { o with relation := r }
  | .scope, _ => .scope

namespace TileTree

variable (t : TileTree) {j p c q : Nat}

@[simp] theorem addChild_snd (q : Nat) (k : NodeKind) : (t.addChild q k).2 = t.nodes.size := rfl

@[simp] theorem size_addChild (q : Nat) (k : NodeKind) :
    (t.addChild q k).1.nodes.size = t.nodes.size + 1 := by
  simp [addChild]

@[simp] theorem root_addChild (q : Nat) (k : NodeKind) : (t.addChild q k).1.root = t.root := rfl

theorem getElem?_addChild_new (k : NodeKind) (hq : q < t.nodes.size) :
    (t.addChild q k).1.nodes[t.nodes.size]? = some { kind := k, parent := some q } := by
  simp only [addChild, Array.getElem?_modify, Array.getElem?_push, if_neg (Nat.ne_of_lt hq), if_pos]

theorem getElem?_addChild_parent (k : NodeKind) (hq : q < t.nodes.size) :
    (t.addChild q k).1.nodes[q]? =
      t.nodes[q]?.map fun n => { n with children := n.children ++ [t.nodes.size] } := by
  simp only [addChild, Array.getElem?_modify, Array.getElem?_push, if_neg (Nat.ne_of_lt hq), if_pos]

theorem getElem?_addChild_of_ne (k : NodeKind) (hjq : j ≠ q) (hj : j ≠ t.nodes.size) :
    (t.addChild q k).1.nodes[j]? = t.nodes[j]? := by
  simp only [addChild, Array.getElem?_modify, Array.getElem?_push, if_neg (Ne.symm hjq), if_neg hj]

@[simp] theorem addDetached_snd (k : NodeKind) : (t.addDetached k).2 = t.nodes.size := rfl

@[simp] theorem size_addDetached (k : NodeKind) :
    (t.addDetached k).1.nodes.size = t.nodes.size + 1 := by
  simp [addDetached]

@[simp] theorem root_addDetached (k : NodeKind) : (t.addDetached k).1.root = t.root := rfl

theorem getElem?_addDetached (k : NodeKind) (j : Nat) :
    (t.addDetached k).1.nodes[j]? = if j = t.nodes.size then some { kind := k } else t.nodes[j]? := by
  simp [addDetached, Array.getElem?_push]

@[simp] theorem size_adopt (p c : Nat) (r : AffineMap) : (t.adopt p c r).nodes.size = t.nodes.size := by
  simp [adopt]

@[simp] theorem root_adopt (p c : Nat) (r : AffineMap) : (t.adopt p c r).root = t.root := rfl

theorem getElem?_adopt_parent (r : AffineMap) (hcp : c ≠ p) :
    (t.adopt p c r).nodes[p]? = t.nodes[p]?.map fun n => { n with children := n.children ++ [c] } := by
  simp [adopt, Array.getElem?_modify, hcp]

theorem getElem?_adopt_child (r : AffineMap) (hcp : c ≠ p) :
    (t.adopt p c r).nodes[c]? =
      t.nodes[c]?.map fun n => { n with kind := n.kind.setRelation r, parent := some p } := by
  simp only [adopt, Array.getElem?_modify, if_neg (Ne.symm hcp), if_true, Option.map_map]
  congr 1
  funext n
  cases n with
  | mk k par cs => cases k <;> rfl

theorem getElem?_adopt_of_ne (r : AffineMap) (hjp : j ≠ p) (hjc : j ≠ c) :
    (t.adopt p c r).nodes[j]? = t.nodes[j]? := by
  simp [adopt, Array.getElem?_modify, Ne.symm hjp, Ne.symm hjc]

/-! Adopting a list of nodes in turn under one parent. -/

section Adopt

variable (p : Nat)

def adoptAll (L : List (Nat × AffineMap)) : TileTree :=
  L.foldl (fun t (c, r) => t.adopt p c r) t

@[simp] theorem size_adoptAll (L : List (Nat × AffineMap)) :
    (t.adoptAll p L).nodes.size = t.nodes.size := by
  induction L generalizing t with
  | nil => rfl
  | cons e L ih => exact (ih _).trans (t.size_adopt p e.1 e.2)

@[simp] theorem root_adoptAll (L : List (Nat × AffineMap)) : (t.adoptAll p L).root = t.root := by
  induction L generalizing t with
  | nil => rfl
  | cons e L ih => exact ih _

variable {p}

theorem getElem?_adoptAll_of_not_mem {L : List (Nat × AffineMap)} (hjp : j ≠ p)
    (hj : j ∉ L.map Prod.fst) : (t.adoptAll p L).nodes[j]? = t.nodes[j]? := by
  induction L generalizing t with
  | nil => rfl
  | cons e L ih =>
    rw [List.map_cons, List.mem_cons, not_or] at hj
    exact (ih _ hj.2).trans (t.getElem?_adopt_of_ne e.2 hjp hj.1)

theorem getElem?_adoptAll_parent {L : List (Nat × AffineMap)} (hp : p ∉ L.map Prod.fst) :
    (t.adoptAll p L).nodes[p]? =
      t.nodes[p]?.map fun n => { n with children := n.children ++ L.map Prod.fst } := by
  induction L generalizing t with
  | nil => simp [adoptAll]
  | cons e L ih =>
    rw [List.map_cons, List.mem_cons, not_or] at hp
    change (adoptAll (t.adopt p e.1 e.2) p L).nodes[p]? = _
    rw [ih _ hp.2, t.getElem?_adopt_parent e.2 (Ne.symm hp.1), Option.map_map]
    simp [Function.comp_def]

theorem getElem?_adoptAll_child {L : List (Nat × AffineMap)} (hnd : (L.map Prod.fst).Nodup)
    (hp : p ∉ L.map Prod.fst) {r : AffineMap} (hc : (c, r) ∈ L) :
    (t.adoptAll p L).nodes[c]? =
      t.nodes[c]?.map fun n => { n with kind := n.kind.setRelation r, parent := some p } := by
  induction L generalizing t with
  | nil => nomatch hc
  | cons e L ih =>
    rw [List.map_cons, List.mem_cons, not_or] at hp
    rw [List.map_cons, List.nodup_cons] at hnd
    change (adoptAll (t.adopt p e.1 e.2) p L).nodes[c]? = _
    rcases List.mem_cons.1 hc with rfl | hc
    · -- the first adoption is the one of `c`; the later ones do not touch it
      rw [getElem?_adoptAll_of_not_mem _ (Ne.symm hp.1) hnd.1]
      exact t.getElem?_adopt_child r (Ne.symm hp.1)
    · have hce : c ≠ e.1 := fun h => hnd.1 (h ▸ List.mem_map_of_mem (f := Prod.fst) hc)
      rw [ih _ hnd.2 hp.2 hc, t.getElem?_adopt_of_ne e.2 (fun h : c = p => hp.2 (h ▸ List.mem_map_of_mem (f := Prod.fst) hc)) hce]

end Adopt

/-! Splicing a parent's children: `removed` leaves them and `old` is replaced by `new`. -/

section Splice

variable {removed old new : Nat}

@[simp] theorem size_splice (p removed old new : Nat) :
    (t.splice p removed old new).nodes.size = t.nodes.size := by
  simp [splice]

@[simp] theorem root_splice (p removed old new : Nat) : (t.splice p removed old new).root = t.root := rfl

theorem getElem?_splice_parent (hr : p ≠ removed) (ho : p ≠ old) (hn : p ≠ new) :
    (t.splice p removed old new).nodes[p]? = t.nodes[p]?.map fun n =>
      { n with children := (n.children.filter (· != removed)).map fun c => if c = old then new else c } := by
  simp [splice, Array.getElem?_modify, Ne.symm hr, Ne.symm ho, Ne.symm hn]

theorem getElem?_splice_new (hr : new ≠ removed) (ho : new ≠ old) (hp : new ≠ p) :
    (t.splice p removed old new).nodes[new]? = t.nodes[new]?.map fun n => { n with parent := some p } := by
  simp [splice, Array.getElem?_modify, Ne.symm hr, Ne.symm ho, Ne.symm hp]

theorem getElem?_splice_old (hr : old ≠ removed) (hp : old ≠ p) (hn : old ≠ new) :
    (t.splice p removed old new).nodes[old]? = t.nodes[old]?.map fun n => { n with parent := none } := by
  simp [splice, Array.getElem?_modify, Ne.symm hr, Ne.symm hp, Ne.symm hn]

theorem getElem?_splice_removed (hp : removed ≠ p) (hn : removed ≠ new) :
    (t.splice p removed old new).nodes[removed]? =
      t.nodes[removed]?.map fun n => { n with parent := none } := by
  by_cases ho : removed = old
  · subst ho
    simp [splice, Array.getElem?_modify, Ne.symm hp, Ne.symm hn, Option.map_map, Function.comp_def]
  · simp [splice, Array.getElem?_modify, Ne.symm hp, Ne.symm hn, Ne.symm ho]

theorem getElem?_splice_of_ne (hp : j ≠ p) (hr : j ≠ removed) (ho : j ≠ old) (hn : j ≠ new) :
    (t.splice p removed old new).nodes[j]? = t.nodes[j]? := by
  simp [splice, Array.getElem?_modify, Ne.symm hp, Ne.symm hr, Ne.symm ho, Ne.symm hn]

end Splice

end TileTree

end TileSched
