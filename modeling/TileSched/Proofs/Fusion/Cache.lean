import Mathlib
import TileSched.Proofs.Fusion.Relations
import TileSched.Proofs.Fusion.Work
import TileSched.Proofs.Json.Compact
import TileSched.Proofs.Schedule.DefUse
/-! The solve cache on the trees a graph solve hands it. Those trees are compact copies of the top
trees of forests reached by merges from one graph. A structural key leaves out only positions and
leaf bounds: the positions of a compact copy follow from its shape, and a leaf spans its
operation's domain, so among these trees the key determines the tree. The cache is keyed by the
compact JSON text of the key, which determines the key. Every entry is therefore the answer for
the very tree looked up, and each call answers what a fresh solve of its tree answers, a
recoverable failure coming back as an infeasibility with its message.

Trees of one key laid out differently in their tables are another matter: the solve lists
placements in table order, so two such trees get their placements in different orders, and the
cache answers the second with the first one's solution, positions and all. -/

namespace TileSched

namespace Subtree

theorem forall₂_copy_of_keys : ∀ {cs ds : List Subtree}, (∀ c ∈ cs, ∀ d ∈ ds, c.key = d.key → c.Copy d) →
    cs.map key = ds.map key → List.Forall₂ Copy cs ds
  | [], [], _, _ => .nil
  | c :: cs, d :: ds, ih, h => by
    rw [List.map_cons, List.map_cons, List.cons.injEq] at h
    exact .cons (ih c List.mem_cons_self d List.mem_cons_self h.1) (forall₂_copy_of_keys
      (fun c hc d hd => ih c (List.mem_cons_of_mem _ hc) d (List.mem_cons_of_mem _ hd)) h.2)
  | [], _ :: _, _, h | _ :: _, [], _, h => by simp at h

theorem Tiled.copy_of_key_eq {g : Dataflow} {L : Nat} {C : Subtree} (h : C.Tiled L) :
    ∀ {pb : List Int}, C.Relates g pb → ∀ {L' : Nat} {pb' : List Int} {C' : Subtree}, C'.Tiled L' →
      C'.Relates g pb' → C.key = C'.key → C.Copy C' := by
  induction h with
  | @tile L i n cs hpos hlt hcs ih =>
    intro pb hr L' pb' C' h' hr' hk
    cases h' with
    | @tile _ j n' ds _ _ hds =>
      simp only [key, keyAll_eq, StructuralKey.tile.injEq] at hk
      obtain ⟨hl, ho, hrel, hb, hkeys⟩ := hk
      have hn : n = n' := by
        cases n
        cases n'
        simp_all
      subst hn
      -- the children of the two tiles pair off by their keys
      refine .node (forall₂_copy_of_keys (fun c hc d hd hcd => ?_) hkeys)
      exact ih c hc (hr.child (by simp) hc) (hds d hd) (hr'.child (by simp) hd) hcd
    | leaf => simp [key] at hk
  | @leaf L i o =>
    intro pb hr L' pb' C' h' hr' hk
    cases h' with
    | tile => simp [key] at hk
    | @leaf _ j o' =>
      simp only [key, StructuralKey.leaf.injEq] at hk
      -- both leaves span the domain of one operation
      obtain ⟨op, hop, hb⟩ := hr.leaf (o := o) rfl
      obtain ⟨op', hop', hb'⟩ := hr'.leaf (o := o') rfl
      rw [hk.1, hop', Except.ok.injEq] at hop
      subst hop
      have ho : o = o' := by
        cases o
        cases o'
        simp_all
      subst ho
      exact .node .nil

end Subtree


/-! One call of the cache: a hit gives the stored answer and leaves the workspace as it was; a miss
solves, records what the solve recorded, stores the answer unless the failure breaks a rule of the
scheduler, and gives it. -/

def CachedSolve.answer : CachedSolve → Outcome SolvedTree
  | .solved s => .ok s
  | .failed reason => .error (.infeasible reason)

namespace Tiler

def freshEntry (tl : Tiler) (t : TileTree) : Option CachedSolve :=
  match (tl.solve t).2 with
  | .ok s => some (.solved s)
  | .error e => if e.isRecoverable then some (.failed e.message) else none

/-- What a fresh solve of `t` answers through the cache: a recoverable failure comes back as an
infeasibility with its message. -/
def freshAnswer (tl : Tiler) (t : TileTree) : Outcome SolvedTree :=
  match (tl.solve t).2 with
  | .ok s => .ok s
  | .error e => if e.isRecoverable then .error (.infeasible e.message) else .error e

variable {tl : Tiler} {t : TileTree} {k : StructuralKey} {w : Workspace}

theorem runs_key (hk : t.structuralKey t.root = .ok k) :
    Work.Runs (Work.lift (liftFault (t.structuralKey t.root))) w k w := by
  rw [hk]
  rfl

theorem run_solveCached_hit {entry : CachedSolve} (hk : t.structuralKey t.root = .ok k)
    (hhit : w.cache.entries.lookup k.toJson.compact = some entry) :
    (tl.solveCached t).run.run w = (entry.answer, w) := by
  rw [solveCached, Work.run_bind_of_runs (runs_key hk), Work.run_bind_of_runs (Work.runs_get.2 ⟨rfl, rfl⟩)]
  cases entry <;> simp only [hhit] <;> rfl

theorem run_solveCached_miss (hk : t.structuralKey t.root = .ok k)
    (hmiss : w.cache.entries.lookup k.toJson.compact = none) :
    (tl.solveCached t).run.run w = (tl.freshAnswer t,
      { w with
        log := w.log ++ (tl.solve t).1
        cache := ⟨w.cache.entries ++ ((tl.freshEntry t).map fun e => (k.toJson.compact, e)).toList⟩ }) := by
  rw [solveCached, Work.run_bind_of_runs (runs_key hk), Work.run_bind_of_runs (Work.runs_get.2 ⟨rfl, rfl⟩)]
  simp only [hmiss]
  rcases h : tl.solve t with ⟨records, r⟩
  cases r with
  | ok s =>
    simp [h, freshAnswer, freshEntry, Work.noteAll]
    rfl
  | error e =>
    cases he : e.isRecoverable <;> simp [h, he, freshAnswer, freshEntry, Work.noteAll] <;> rfl

theorem freshAnswer_of_solve {s : SolvedTree} (hs : (tl.solve t).2 = .ok s) : tl.freshAnswer t = .ok s := by
  rw [freshAnswer, hs]

theorem freshEntry_of_solve {s : SolvedTree} (hs : (tl.solve t).2 = .ok s) : tl.freshEntry t = some (.solved s) := by
  rw [freshEntry, hs]

theorem solveCached_same_key {t' : TileTree} {s : SolvedTree} (hk : t.structuralKey t.root = .ok k)
    (hk' : t'.structuralKey t'.root = .ok k) (hmiss : w.cache.entries.lookup k.toJson.compact = none)
    (hs : (tl.solve t).2 = .ok s) :
    (([t, t'].mapM fun t => Work.attempt (tl.solveCached t)).run.run w).1 = .ok [.ok s, .ok s] := by
  -- the first tree is solved and its solution stored under its key text
  obtain ⟨w₁, hw₁, hfirst⟩ : ∃ w₁ : Workspace,
      w₁.cache.entries = w.cache.entries ++ [(k.toJson.compact, .solved s)] ∧
      Work.Runs (Work.attempt (tl.solveCached t)) w (.ok s) w₁ := by
    refine ⟨{ w with log := w.log ++ (tl.solve t).1, cache := ⟨w.cache.entries ++ [(k.toJson.compact, .solved s)]⟩ },
      rfl, ?_⟩
    rw [Work.Runs, Work.run_attempt, run_solveCached_miss hk hmiss, freshAnswer_of_solve hs, freshEntry_of_solve hs]
    rfl
  -- the second tree finds that entry
  have hhit : w₁.cache.entries.lookup k.toJson.compact = some (.solved s) := by
    simp [hw₁, List.lookup_append, hmiss]
  have hsecond : Work.Runs (Work.attempt (tl.solveCached t')) w₁ (.ok s) w₁ := by
    rw [Work.Runs, Work.run_attempt, run_solveCached_hit hk' hhit]
    rfl
  have hrest : Work.Runs ([t'].mapM fun t => Work.attempt (tl.solveCached t)) w₁ [.ok s] w₁ := by
    rw [List.mapM_cons]
    exact Work.runs_bind.2 ⟨_, _, hsecond, Work.runs_bind.2 ⟨[], _, rfl, Work.runs_pure.2 ⟨rfl, rfl⟩⟩⟩
  have hall : Work.Runs ([t, t'].mapM fun t => Work.attempt (tl.solveCached t)) w [.ok s, .ok s] w₁ := by
    rw [List.mapM_cons]
    exact Work.runs_bind.2 ⟨_, _, hfirst, Work.runs_bind.2 ⟨_, _, hrest, Work.runs_pure.2 ⟨rfl, rfl⟩⟩⟩
  rw [hall]

end Tiler

/-! The cache over a run of calls. -/

def SolveCache.Answers (c : SolveCache) (tl : Tiler) (E : TileTree → Prop) : Prop :=
  ∀ text entry, c.entries.lookup text = some entry →
    ∃ t k, E t ∧ t.structuralKey t.root = .ok k ∧ k.toJson.compact = text ∧ entry.answer = tl.freshAnswer t

def KeysDetermine (E : TileTree → Prop) : Prop :=
  ∀ t t' k, E t → E t' → t.structuralKey t.root = .ok k → t'.structuralKey t'.root = .ok k → t = t'

namespace SolveCache

variable {tl : Tiler} {E : TileTree → Prop} {t : TileTree} {k : StructuralKey} {w : Workspace}

theorem answers_empty : ({} : SolveCache).Answers tl E := fun _ _ h => absurd h (by simp)

theorem freshEntry_answer {entry : CachedSolve} (h : tl.freshEntry t = some entry) :
    entry.answer = tl.freshAnswer t := by
  unfold Tiler.freshEntry at h
  unfold Tiler.freshAnswer
  split at h
  · cases h
    rfl
  · split at h
    · cases h
      simp [CachedSolve.answer, *]
    · cases h

theorem Answers.solveCached (hc : w.cache.Answers tl E) (hE : KeysDetermine E) (ht : E t)
    (hk : t.structuralKey t.root = .ok k) :
    ((tl.solveCached t).run.run w).1 = tl.freshAnswer t ∧ ((tl.solveCached t).run.run w).2.cache.Answers tl E := by
  cases hl : w.cache.entries.lookup k.toJson.compact with
  | some entry =>
    -- the entry was made for a tree of the same key text, hence of the same key, hence this tree
    obtain ⟨t₀, k₀, ht₀, hk₀, htext, hans⟩ := hc _ _ hl
    obtain rfl := StructuralKey.compact_toJson_inj htext
    obtain rfl := hE t₀ t k₀ ht₀ ht hk₀ hk
    rw [Tiler.run_solveCached_hit hk hl]
    exact ⟨hans, hc⟩
  | none =>
    rw [Tiler.run_solveCached_miss hk hl]
    refine ⟨rfl, fun text entry h => ?_⟩
    rw [List.lookup_append] at h
    cases hold : w.cache.entries.lookup text with
    | some old =>
      rw [hold, Option.some_or, Option.some.injEq] at h
      exact h ▸ hc text old hold
    | none =>
      rw [hold, Option.none_or] at h
      cases hf : tl.freshEntry t with
      | none => simp [hf] at h
      | some e =>
        simp only [hf, Option.map_some, Option.toList_some, List.lookup_cons, List.lookup_nil] at h
        split at h
        next hb =>
          cases h
          exact ⟨t, k, ht, hk, (beq_iff_eq.1 hb).symm, freshEntry_answer hf⟩
        next => cases h

theorem Answers.solveAll (hE : KeysDetermine E) (hkeys : ∀ t, E t → ∃ k, t.structuralKey t.root = .ok k) :
    ∀ (ts : List TileTree) (w : Workspace), (∀ t ∈ ts, E t) → w.cache.Answers tl E →
      ∃ w', (ts.mapM fun t => Work.attempt (tl.solveCached t)).run.run w = (.ok (ts.map tl.freshAnswer), w') ∧
        w'.cache.Answers tl E
  | [], w, _, hc => ⟨w, rfl, hc⟩
  | t :: ts, w, hts, hc => by
    have ht := hts t List.mem_cons_self
    obtain ⟨k, hk⟩ := hkeys t ht
    obtain ⟨hres, hc₁⟩ := hc.solveCached hE ht hk
    obtain ⟨w', hrun, hc'⟩ := solveAll hE hkeys ts _ (fun t' h => hts t' (List.mem_cons_of_mem _ h)) hc₁
    -- the attempt gives the fresh answer and leaves a cache that still answers truly
    have hfirst : Work.Runs (Work.attempt (tl.solveCached t)) w (tl.freshAnswer t)
        ((tl.solveCached t).run.run w).2 := by
      rw [Work.Runs, Work.run_attempt, hres]
    refine ⟨w', ?_, hc'⟩
    rw [List.mapM_cons, Work.run_bind_of_runs hfirst, Work.run_bind_of_runs hrun]
    rfl

end SolveCache

/-! The trees a graph solve hands the cache. -/

/-- `t` is the compact copy of a top tree of a tile graph that merges reach from the tile graph of
`g` with `top` tiling levels. -/
def Extracted (g : Dataflow) (top : Nat) (t : TileTree) : Prop :=
  ∃ (tg₀ tg : TileGraph) (mps : List MergePoint) (roots : List Nat), TileGraph.new g top = .ok tg₀ ∧
    mps.foldlM TileGraph.merge tg₀ = .ok tg ∧
    tg.topTrees = .ok roots ∧ ∃ i ∈ roots, tg.extractTree i = .ok t

theorem liftFault_eq_ok {α : Type} {r : Except Fault α} {a : α} : liftFault r = .ok a ↔ r = .ok a := by
  cases r <;> simp [liftFault, Except.mapError]

theorem Subtree.Relates.scope_child {g : Dataflow} {pb : List Int} {S c : Subtree} (h : S.Relates g pb)
    (hS : S.kind = .scope) (hc : c ∈ S.children) : c.Relates g c.kind.bounds := by
  cases h with
  | scope hcs => exact hcs c hc
  | link hr => simp_all [NodeKind.relation?]

variable {g : Dataflow} {top : Nat} {t : TileTree}

theorem Extracted.copy (hw : ∀ op ∈ g.ops, ∀ b ∈ op.domainBounds, I64.fits b = true) (h : Extracted g top t) :
    ∃ (tr : TileTree) (C : Subtree), tr.Unfolds C ∧ C.Tiled (top + 1) ∧ C.Relates g C.kind.bounds ∧
      tr.extract C.id = .ok t := by
  obtain ⟨tg₀, tg, mps, roots, hnew, hrun, htops, i, hi, hext⟩ := h
  obtain ⟨S, hF, hS⟩ := TileGraph.reachable_relates hnew hrun hw
  -- the top trees are the children of the forest's root
  rw [TileGraph.topTrees, ← hF.root, hF.realizes.children_eq, liftFault_ok] at htops
  obtain rfl : S.children.map Subtree.id = roots := Except.ok.inj htops
  obtain ⟨C, hC, rfl⟩ := List.mem_map.1 hi
  exact ⟨tg.tree, C, hF.realizes.unfolds.child hC, (hF.tops C hC).2, hS.scope_child hF.scope hC,
    liftFault_eq_ok.1 hext⟩

/-- A copy extracted from a subtree has the subtree's key. -/
theorem TileTree.Unfolds.extract_structuralKey {tr : TileTree} {C : Subtree} (hu : tr.Unfolds C)
    (hext : tr.extract C.id = .ok t) : t.structuralKey t.root = .ok C.key := by
  obtain ⟨e, he, -, -, -, -, -, ⟨k, hkC, hk⟩, -⟩ := TileTree.extract_faithful hu
  rw [hext, Except.ok.injEq] at he
  rw [he, hk, ← hkC, hu.structuralKey_eq]

theorem Extracted.key (hw : ∀ op ∈ g.ops, ∀ b ∈ op.domainBounds, I64.fits b = true) (h : Extracted g top t) :
    ∃ k, t.structuralKey t.root = .ok k := by
  obtain ⟨tr, C, hu, -, -, hext⟩ := h.copy hw
  exact ⟨C.key, hu.extract_structuralKey hext⟩

theorem keysDetermine_extracted (hw : ∀ op ∈ g.ops, ∀ b ∈ op.domainBounds, I64.fits b = true) :
    KeysDetermine (Extracted g top) := by
  intro t t' k ht ht' hk hk'
  obtain ⟨tr, C, hu, hC, hr, hext⟩ := ht.copy hw
  obtain ⟨tr', C', hu', hC', hr', hext'⟩ := ht'.copy hw
  -- each extracted tree carries its subtree's key
  have hCC : C.key = C'.key := by
    rw [hu.extract_structuralKey hext, Except.ok.injEq] at hk
    rw [hu'.extract_structuralKey hext', Except.ok.injEq] at hk'
    rw [hk, hk']
  have hcopy := hC.copy_of_key_eq hr hC' hr' hCC
  rw [← Except.ok.injEq (ε := Fault), ← hext, ← hext', hu.extract_eq hu' hcopy]

/-- On the trees a graph solve hands it, the cache is transparent: trees of one key are one tree,
and a run of calls that starts from a cache of true answers gives for each tree what a fresh solve
gives, and leaves a cache of true answers. -/
theorem extracted_cache_transparent (hw : ∀ op ∈ g.ops, ∀ b ∈ op.domainBounds, I64.fits b = true) :
    KeysDetermine (Extracted g top) ∧
      ∀ (tl : Tiler) (ts : List TileTree) (w : Workspace), (∀ t ∈ ts, Extracted g top t) →
        w.cache.Answers tl (Extracted g top) →
        ∃ w', (ts.mapM fun t => Work.attempt (tl.solveCached t)).run.run w = (.ok (ts.map tl.freshAnswer), w') ∧
          w'.cache.Answers tl (Extracted g top) :=
  ⟨keysDetermine_extracted hw, fun _ ts w hts hc =>
    hc.solveAll (keysDetermine_extracted hw) (fun _ ht => ht.key hw) ts w hts⟩

def pairChain (op : Nat) : TileTree :=
  let t := TileTree.new (.tile ⟨3, op, .identity 1, [2]⟩)
  let (t, a) := t.addChild 0 (.tile ⟨2, op, .identity 1, [2]⟩)
  let (t, b) := t.addChild a (.tile ⟨1, op, .identity 1, [2]⟩)
  (t.addChild b (.leaf ⟨op, .identity 1, [2]⟩)).1

def pairMerged : TileTree :=
  let t := TileTree.new (.tile ⟨3, 1, .identity 1, [2]⟩)
  let (t, a) := t.addChild 0 (.tile ⟨2, 0, .identity 1, [2]⟩)
  let (t, b) := t.addChild 0 (.tile ⟨2, 1, .identity 1, [2]⟩)
  let (t, c) := t.addChild b (.tile ⟨1, 1, .identity 1, [2]⟩)
  let (t, _) := t.addChild c (.leaf ⟨1, .identity 1, [2]⟩)
  let (t, d) := t.addChild a (.tile ⟨1, 0, .identity 1, [2]⟩)
  (t.addChild d (.leaf ⟨0, .identity 1, [2]⟩)).1

theorem pairChain_extracted (op : Nat) (hop : op < 2) : Extracted chainPair 3 (pairChain op) := by
  have hops : op = 0 ∨ op = 1 := by omega
  rcases hops with rfl | rfl
  · exact ⟨_, _, [], [1, 5], rfl, rfl, rfl, 1, by simp, rfl⟩
  · exact ⟨_, _, [], [1, 5], rfl, rfl, rfl, 5, by simp, rfl⟩

theorem pairMerged_extracted : Extracted chainPair 3 pairMerged :=
  ⟨_, _, [⟨0, 1, 3⟩], [9], rfl, rfl, rfl, 9, by simp, rfl⟩

theorem chainPair_cache_transparent :
    (∀ op ∈ chainPair.ops, ∀ b ∈ op.domainBounds, I64.fits b = true) ∧
    KeysDetermine (Extracted chainPair 3) ∧
    (∀ t ∈ [pairChain 0, pairChain 1, pairMerged, pairChain 0], Extracted chainPair 3 t) ∧
    ∃ w', ([pairChain 0, pairChain 1, pairMerged, pairChain 0].mapM fun t =>
        Work.attempt (fusedTiler.solveCached t)).run.run {} =
      (.ok [fusedTiler.freshAnswer (pairChain 0), fusedTiler.freshAnswer (pairChain 1),
        fusedTiler.freshAnswer pairMerged, fusedTiler.freshAnswer (pairChain 0)], w') ∧
      w'.cache.Answers fusedTiler (Extracted chainPair 3) := by
  have hw : ∀ op ∈ chainPair.ops, ∀ b ∈ op.domainBounds, I64.fits b = true := by decide
  have hts : ∀ t ∈ [pairChain 0, pairChain 1, pairMerged, pairChain 0], Extracted chainPair 3 t := by
    simp only [List.mem_cons, List.not_mem_nil, or_false]
    rintro t (rfl | rfl | rfl | rfl)
    exacts [pairChain_extracted 0 (by decide), pairChain_extracted 1 (by decide), pairMerged_extracted,
      pairChain_extracted 0 (by decide)]
  exact ⟨hw, (extracted_cache_transparent hw).1, hts,
    (extracted_cache_transparent hw).2 fusedTiler _ {} hts SolveCache.answers_empty⟩

/-! Two layouts of one shape. -/

def twoOps : Dataflow :=
  let (g, _) := Dataflow.addElementwise { name := "g" } "op0" [1] []
  (g.addElementwise "op1" [1] []).1

def twoOpsTiler : Tiler := { dataflow := twoOps, target := { levels := [⟨"L1", some 64, 1⟩, ⟨"DDR", none, 1⟩] } }

def producerFirst : TileTree :=
  let t := TileTree.new .scope
  let (t, a) := t.addChild 0 (.tile ⟨1, 0, .identity 1, [1]⟩)
  let (t, _) := t.addChild a (.leaf ⟨0, .identity 1, [1]⟩)
  let (t, b) := t.addChild 0 (.tile ⟨1, 1, .identity 1, [1]⟩)
  (t.addChild b (.leaf ⟨1, .identity 1, [1]⟩)).1

def consumerFirst : TileTree :=
  ⟨#[{ kind := .scope, children := [3, 1] },
    { kind := .tile ⟨1, 1, .identity 1, [1]⟩, parent := some 0, children := [2] },
    { kind := .leaf ⟨1, .identity 1, [1]⟩, parent := some 1 },
    { kind := .tile ⟨1, 0, .identity 1, [1]⟩, parent := some 0, children := [4] },
    { kind := .leaf ⟨0, .identity 1, [1]⟩, parent := some 3 }], 0⟩

def producerFirstSolved : SolvedTree :=
  ⟨producerFirst, [⟨1, [1], [1]⟩, ⟨2, [1], [1]⟩, ⟨3, [1], [1]⟩, ⟨4, [1], [1]⟩],
    [⟨1, ⟨0, 0⟩, [⟨0, 0⟩], 0, 1, 4, 4, ⟨0, 1⟩, ⟨false, false, false⟩⟩,
      ⟨3, ⟨1, 0⟩, [⟨1, 0⟩], 0, 1, 4, 4, ⟨2, 3⟩, ⟨false, false, false⟩⟩], 8, .optimal, 6, 8, 7⟩

def consumerFirstSolved : SolvedTree :=
  ⟨consumerFirst, [⟨3, [1], [1]⟩, ⟨4, [1], [1]⟩, ⟨1, [1], [1]⟩, ⟨2, [1], [1]⟩],
    [⟨1, ⟨1, 0⟩, [⟨1, 0⟩], 0, 1, 4, 4, ⟨2, 3⟩, ⟨false, false, false⟩⟩,
      ⟨3, ⟨0, 0⟩, [⟨0, 0⟩], 0, 1, 4, 4, ⟨0, 1⟩, ⟨false, false, false⟩⟩], 8, .optimal, 6, 8, 7⟩

theorem producerFirst_solve : (twoOpsTiler.solve producerFirst).2 = .ok producerFirstSolved := by
  refine toOption_eq_some.1 ?_
  simp only [Tiler.solve, Tiler.solveTiled, Tiler.minimize, Model.minimizeLogged, Model.explore,
    Model.search_eq_searchByInsertion]
  decide +kernel

theorem consumerFirst_solve : (twoOpsTiler.solve consumerFirst).2 = .ok consumerFirstSolved := by
  refine toOption_eq_some.1 ?_
  simp only [Tiler.solve, Tiler.solveTiled, Tiler.minimize, Model.minimizeLogged, Model.explore,
    Model.search_eq_searchByInsertion]
  decide +kernel

def swapNode (p : BufferPlacement) : BufferPlacement := { p with node := [0, 3, 4, 1, 2].getD p.node p.node }

theorem layout_orders_placements :
    consumerFirst.structuralKey consumerFirst.root = producerFirst.structuralKey producerFirst.root ∧
    (twoOpsTiler.solve producerFirst).2 = .ok producerFirstSolved ∧
    (twoOpsTiler.solve consumerFirst).2 = .ok consumerFirstSolved ∧
    (producerFirstSolved.placements.map swapNode).Perm consumerFirstSolved.placements ∧
    producerFirstSolved.placements.map swapNode ≠ consumerFirstSolved.placements ∧
    (([producerFirst, consumerFirst].mapM fun t => Work.attempt (twoOpsTiler.solveCached t)).run.run {}).1 =
      .ok [.ok producerFirstSolved, .ok producerFirstSolved] := by
  -- both tables hold a scope over a tile and leaf of the producer, then of the consumer
  let k : StructuralKey := .scope [.tile 1 0 (.identity 1) [1] [.leaf 0 (.identity 1)],
    .tile 1 1 (.identity 1) [1] [.leaf 1 (.identity 1)]]
  have hA : producerFirst.structuralKey producerFirst.root = .ok k := rfl
  have hB : consumerFirst.structuralKey consumerFirst.root = .ok k := rfl
  refine ⟨hB.trans hA.symm, producerFirst_solve, consumerFirst_solve, by decide, by decide, ?_⟩
  exact Tiler.solveCached_same_key hA hB rfl producerFirst_solve

end TileSched
