import Mathlib
import TileSched.Proofs.Schedule.Placement
/-! Def-use aliasing of buffer entries. Below a node whose operation leaves are `ops`, every read
and every output of those operations is one buffer identity. The entries a node reports are
`Aliased` when their alias lists partition these identities and each entry is `Sound`: known by
its first alias, every other alias reads an output of `ops` that the same entry holds, and its
lifetime is the least interval covering the time steps of its aliases' operations. A tile node
joins every read of an output below it with the entry of that output; its entries then form an
`AliasReport`: no entry is known by such a read.

The join runs in two folds: the first pairs each read with the output it reads, when that output
is present; the second absorbs each read so paired into the entry holding its output. -/

namespace TileSched

/-- What aliasing reads of a buffer entry: the identity it is known by, every identity sharing it,
and its lifetime. -/
structure AliasEntry where
  bid : BufferId
  aliases : List BufferId
  lifetime : Lifetime

/-- Entry `e` sharing its storage with entry `k`: known by `e`'s identity, holding both alias
lists, live over both lifetimes. -/
def AliasEntry.absorb (e k : AliasEntry) : AliasEntry :=
  ⟨e.bid, e.aliases ++ k.aliases, e.lifetime.union k.lifetime⟩

def BufferResult.entry (b : BufferResult) : AliasEntry := ⟨b.bid, b.aliases, b.lifetime⟩

def TileBuffer.entry (b : TileBuffer) : AliasEntry := ⟨b.id, b.aliases, b.lifetime⟩

@[simp] theorem BufferResult.entry_absorb (e k : BufferResult) :
    (e.absorb k).entry = e.entry.absorb k.entry := rfl

namespace Lifetime

@[simp] theorem union_start (l l' : Lifetime) : (l.union l').start = min l.start l'.start := rfl

@[simp] theorem union_stop (l l' : Lifetime) : (l.union l').stop = max l.stop l'.stop := rfl

def Spans (l : Lifetime) (ks : List Nat) : Prop :=
  (∀ k ∈ ks, l.start ≤ k ∧ k + 1 ≤ l.stop) ∧ (∃ k ∈ ks, l.start = k) ∧ ∃ k ∈ ks, l.stop = k + 1

theorem spans_step (k : Nat) : Spans ⟨k, k + 1⟩ [k] := by
  simp [Spans]

theorem Spans.union {l l' : Lifetime} {ks ks' : List Nat} (h : l.Spans ks) (h' : l'.Spans ks') :
    (l.union l').Spans (ks ++ ks') := by
  obtain ⟨hin, ⟨a, ha, has⟩, ⟨b, hb, hbs⟩⟩ := h
  obtain ⟨hin', ⟨a', ha', has'⟩, ⟨b', hb', hbs'⟩⟩ := h'
  simp only [Spans, union_start, union_stop, List.mem_append]
  refine ⟨fun k hk => ?_, ?_, ?_⟩
  · rcases hk with hk | hk
    · have := hin k hk
      omega
    · have := hin' k hk
      omega
  · -- the earlier start of the two
    rcases le_total l.start l'.start with hle | hle
    · exact ⟨a, .inl ha, by omega⟩
    · exact ⟨a', .inr ha', by omega⟩
  · rcases le_total l.stop l'.stop with hle | hle
    · exact ⟨b', .inr hb', by omega⟩
    · exact ⟨b, .inl hb, by omega⟩

end Lifetime

namespace Dataflow

variable (g : Dataflow)

def identities (ops : List Nat) : List BufferId :=
  ops.flatMap fun a => ((g.ops[a]?).map fun op => (List.range op.numBuffers).map (⟨a, ·⟩)).getD []

def producerOf? (x : BufferId) : Option Nat :=
  (g.ops[x.op]?).bind fun op => (op.reads[x.index]?).bind (·.producer)

def outputId (p : Nat) : BufferId := ⟨p, ((g.ops[p]?).map (·.outputIndex)).getD 0⟩

def sourceIn (present : List BufferId) (x : BufferId) : Option BufferId :=
  (g.producerOf? x).bind fun p => if g.outputId p ∈ present then some (g.outputId p) else none

variable {g}

theorem op_eq_ok {i : Nat} {o : OpNode} : g.op i = .ok o ↔ g.ops[i]? = some o := by
  unfold op
  split <;> simp_all

theorem identities_append (ops ops' : List Nat) :
    g.identities (ops ++ ops') = g.identities ops ++ g.identities ops' :=
  List.flatMap_append

theorem mem_identities {ops : List Nat} {x : BufferId} :
    x ∈ g.identities ops ↔ x.op ∈ ops ∧ ∃ op, g.ops[x.op]? = some op ∧ x.index < op.numBuffers := by
  simp only [identities, List.mem_flatMap]
  constructor
  · rintro ⟨a, ha, hx⟩
    cases hop : g.ops[a]? with
    | none => simp [hop] at hx
    | some op =>
      simp only [hop, Option.map_some, Option.getD_some, List.mem_map, List.mem_range] at hx
      obtain ⟨i, hi, rfl⟩ := hx
      exact ⟨ha, op, hop, hi⟩
  · rintro ⟨ha, op, hop, hi⟩
    refine ⟨x.op, ha, ?_⟩
    simp only [hop, Option.map_some, Option.getD_some, List.mem_map, List.mem_range]
    exact ⟨x.index, hi, rfl⟩

theorem nodup_identities {ops : List Nat} (hnd : ops.Nodup) : (g.identities ops).Nodup := by
  refine List.nodup_flatMap.2 ⟨fun a _ => ?_, hnd.imp fun {a b} hab => ?_⟩
  · cases g.ops[a]? with
    | none => exact List.nodup_nil
    | some op => exact (List.nodup_range).map fun i j h => by cases h; rfl
  · -- identities of distinct operations differ in their operation
    have hop : ∀ (a : Nat) (x : BufferId),
        x ∈ ((g.ops[a]?).map fun op => (List.range op.numBuffers).map (⟨a, ·⟩)).getD [] → x.op = a := by
      intro a x hx
      cases hoa : g.ops[a]? with
      | none => simp [hoa] at hx
      | some op =>
        simp only [hoa, Option.map_some, Option.getD_some, List.mem_map] at hx
        obtain ⟨i, -, rfl⟩ := hx
        rfl
    exact List.disjoint_left.2 fun _ hxa hxb => hab ((hop a _ hxa).symm.trans (hop b _ hxb))

theorem outputId_mem {ops : List Nat} {p : Nat} {op : OpNode} (hp : p ∈ ops) (hop : g.ops[p]? = some op) :
    g.outputId p ∈ g.identities ops :=
  mem_identities.2 ⟨hp, op, hop, by simp [outputId, hop, OpNode.outputIndex, OpNode.numBuffers]⟩

theorem mem_of_outputId_mem {ops : List Nat} {p : Nat} (h : g.outputId p ∈ g.identities ops) : p ∈ ops :=
  (mem_identities.1 h).1

theorem sourceIn_eq_some {present : List BufferId} {x y : BufferId} :
    g.sourceIn present x = some y ↔ ∃ p, g.producerOf? x = some p ∧ y = g.outputId p ∧ y ∈ present := by
  simp only [sourceIn, Option.bind_eq_some_iff, Option.ite_none_right_eq_some, Option.some.injEq]
  constructor
  · rintro ⟨p, hp, hmem, rfl⟩
    exact ⟨p, hp, rfl, hmem⟩
  · rintro ⟨p, hp, rfl, hmem⟩
    exact ⟨p, hp, hmem, rfl⟩

theorem outputId_not_mem {present : List BufferId} {x : BufferId} {p : Nat} (h : g.sourceIn present x = none)
    (hp : g.producerOf? x = some p) : g.outputId p ∉ present := fun hmem => by
  simp [sourceIn, hp, hmem] at h

end Dataflow

section Aliased

variable (g : Dataflow) (stamp : Nat → Nat) (ops : List Nat)

/-- An entry over the operations `ops`: known by its first alias; any other alias reads an output
of `ops` that the entry holds too; live over the least interval covering the stamps of its
aliases' operations. -/
structure AliasEntry.Sound (e : AliasEntry) : Prop where
  head : e.aliases.head? = some e.bid
  shared : ∀ x ∈ e.aliases, x ≠ e.bid → ∃ p, g.producerOf? x = some p ∧ p ∈ ops ∧ g.outputId p ∈ e.aliases
  lifetime : e.lifetime.Spans (e.aliases.map fun x => stamp x.op)

/-- The entries `es` of a node over the operations `ops`: their alias lists partition the
identities of `ops`, and each entry is sound. -/
structure Aliased (es : List AliasEntry) : Prop where
  partition : (es.flatMap (·.aliases)).Perm (g.identities ops)
  sound : ∀ e ∈ es, e.Sound g stamp ops

/-- Aliased entries of a node after it joins reads with outputs: no entry is known by a read of an
output of `ops`. -/
structure AliasReport (es : List AliasEntry) : Prop extends Aliased g stamp ops es where
  canonical : ∀ e ∈ es, ∀ p, g.producerOf? e.bid = some p → p ∉ ops

variable {g stamp ops}

namespace AliasEntry.Sound

variable {e k : AliasEntry}

theorem mono (h : e.Sound g stamp ops) {ops' : List Nat} (hsub : ops ⊆ ops') : e.Sound g stamp ops' := by
  refine ⟨h.head, fun x hx hne => ?_, h.lifetime⟩
  obtain ⟨p, hp, hmem, hout⟩ := h.shared x hx hne
  exact ⟨p, hp, hsub hmem, hout⟩

theorem absorb (he : e.Sound g stamp ops) (hk : k.Sound g stamp ops) {p : Nat}
    (hp : g.producerOf? k.bid = some p) (hmem : p ∈ ops) (hout : g.outputId p ∈ e.aliases) :
    (e.absorb k).Sound g stamp ops := by
  refine ⟨by simp [AliasEntry.absorb, he.head], fun x hx hne => ?_, ?_⟩
  · rcases List.mem_append.1 hx with hx | hx
    · obtain ⟨p', hp', hmem', hout'⟩ := he.shared x hx hne
      exact ⟨p', hp', hmem', List.mem_append_left _ hout'⟩
    · by_cases hxk : x = k.bid
      · -- the read joined here shares the entry with the output it reads
        subst hxk
        exact ⟨p, hp, hmem, List.mem_append_left _ hout⟩
      · obtain ⟨p', hp', hmem', hout'⟩ := hk.shared x hx hxk
        exact ⟨p', hp', hmem', List.mem_append_right _ hout'⟩
  · simpa only [AliasEntry.absorb, List.map_append] using he.lifetime.union hk.lifetime

end AliasEntry.Sound

theorem aliased_nil : Aliased g stamp [] [] :=
  ⟨by simp [Dataflow.identities], by simp⟩

theorem Aliased.append {ops' : List Nat} {es es' : List AliasEntry} (h : Aliased g stamp ops es)
    (h' : Aliased g stamp ops' es') : Aliased g stamp (ops ++ ops') (es ++ es') := by
  refine ⟨?_, fun e he => ?_⟩
  · rw [List.flatMap_append, Dataflow.identities_append]
    exact h.partition.append h'.partition
  · rcases List.mem_append.1 he with he | he
    · exact (h.sound e he).mono (List.subset_append_left _ _)
    · exact (h'.sound e he).mono (List.subset_append_right _ _)

theorem Aliased.pairwise_disjoint {es : List AliasEntry} (h : Aliased g stamp ops es) (hnd : ops.Nodup) :
    es.Pairwise fun e e' => e.aliases.Disjoint e'.aliases :=
  (List.nodup_flatMap.1 (h.partition.nodup_iff.2 (Dataflow.nodup_identities hnd))).2

theorem aliased_leaf {a : Nat} {op : OpNode} (hop : g.ops[a]? = some op) :
    Aliased g stamp [a] ((List.range op.numBuffers).map fun i =>
      (⟨⟨a, i⟩, [⟨a, i⟩], ⟨stamp a, stamp a + 1⟩⟩ : AliasEntry)) := by
  refine ⟨?_, ?_⟩
  · have : ∀ l : List Nat, l.flatMap (fun i => [(⟨a, i⟩ : BufferId)]) = l.map (⟨a, ·⟩) := fun l => by
      rw [← List.flatMap_singleton' (l.map _), List.flatMap_map]
    simp [Dataflow.identities, hop, List.flatMap_map, this]
  · simp only [List.mem_map, List.mem_range, forall_exists_index, and_imp]
    rintro _ i - rfl
    exact ⟨rfl, by simp, by simpa using Lifetime.spans_step (stamp a)⟩

theorem AliasReport.noncanonical_iff {es : List AliasEntry} (h : AliasReport g stamp ops es)
    {x : BufferId} (hx : x ∈ g.identities ops) :
    (∃ e ∈ es, x ∈ e.aliases ∧ x ≠ e.bid) ↔ ∃ p, g.producerOf? x = some p ∧ p ∈ ops := by
  constructor
  · rintro ⟨e, he, hxe, hne⟩
    obtain ⟨p, hp, hmem, -⟩ := (h.sound e he).shared x hxe hne
    exact ⟨p, hp, hmem⟩
  · rintro ⟨p, hp, hmem⟩
    obtain ⟨e, he, hxe⟩ := List.mem_flatMap.1 (h.partition.mem_iff.2 hx)
    refine ⟨e, he, hxe, fun hxb => h.canonical e he p (hxb ▸ hp) hmem⟩

end Aliased

namespace Solving

theorem runs_foldlM_done {α β : Type} {f : β → α → Solving β} {J : List α → β → Prop} :
    ∀ {xs : List α} (done : List α) {b r : β} {s s' : SolveState},
      (∀ x ∈ xs, ∀ done b t r t', J done b → Runs (f b x) t r t' → J (done ++ [x]) r) →
      J done b → Runs (xs.foldlM f b) s r s' → J (done ++ xs) r
  | [], done, b, r, s, s', _, hJ, h => by
    rw [List.foldlM_nil] at h
    obtain ⟨rfl, -⟩ := runs_pure.1 h
    simpa using hJ
  | x :: xs, done, b, r, s, s', hstep, hJ, h => by
    rw [List.foldlM_cons] at h
    obtain ⟨b', t, h₁, h₂⟩ := runs_bind.1 h
    simpa using runs_foldlM_done _ (fun y hy => hstep y (List.mem_cons_of_mem _ hy))
      (hstep x List.mem_cons_self done b s b' t hJ h₁) h₂

end Solving

theorem flatMap_modify_perm {α β : Type} {A : α → List β} {f : α → α} {B : List β}
    (hf : ∀ a, A (f a) = A a ++ B) : ∀ {l : List α} {k : Nat}, k < l.length →
      ((l.modify k f).flatMap A).Perm (l.flatMap A ++ B)
  | [], _, hk => absurd hk (Nat.not_lt_zero _)
  | a :: l, 0, _ => by
    rw [List.modify_zero_cons, List.flatMap_cons, List.flatMap_cons, hf, List.append_assoc,
      List.append_assoc]
    exact (List.perm_append_comm).append_left _
  | a :: l, k + 1, hk => by
    rw [List.modify_succ_cons, List.flatMap_cons, List.flatMap_cons, List.append_assoc]
    exact (flatMap_modify_perm hf (by simpa using hk)).append_left _

namespace Init

open Solving

section Resolve

variable {g : Dataflow} {stamp : Nat → Nat} {ops : List Nat}

/-- The pairs joined after the buffers `done`: every buffer of `done` that reads an output among
`present`, with that output. -/
def Paired (g : Dataflow) (present : List BufferId) (done : List BufferResult)
    (du : List (BufferId × BufferId)) : Prop :=
  ∀ q, q ∈ du ↔ g.sourceIn present q.1 = some q.2 ∧ q.1 ∈ done.map (·.bid)

theorem Paired.snoc {present : List BufferId} {done : List BufferResult} {du : List (BufferId × BufferId)}
    (hJ : Paired g present done du) (b : BufferResult) :
    Paired g present (done ++ [b]) (match g.sourceIn present b.bid with
      | some src => du.filter (·.1 != b.bid) ++ [(b.bid, src)]
      | none => du) := by
  intro q
  simp only [List.map_append, List.map_cons, List.map_nil, List.mem_append, List.mem_singleton]
  split
  · rename_i src hsrc
    simp only [List.mem_append, List.mem_filter, List.mem_singleton, bne_iff_ne, ne_eq, hJ q]
    constructor
    · rintro (⟨⟨hq, hmem⟩, -⟩ | rfl)
      · exact ⟨hq, .inl hmem⟩
      · exact ⟨hsrc, .inr rfl⟩
    · rintro ⟨hq, hmem | hb⟩
      · by_cases hb : q.1 = b.bid
        · -- the pair of `b` itself
          rw [hb, hsrc, Option.some.injEq] at hq
          exact .inr (Prod.ext hb hq.symm)
        · exact .inl ⟨⟨hq, hmem⟩, hb⟩
      · rw [hb, hsrc, Option.some.injEq] at hq
        exact .inr (Prod.ext hb hq.symm)
  · rename_i hsrc
    rw [hJ q]
    constructor
    · rintro ⟨hq, hmem⟩
      exact ⟨hq, .inl hmem⟩
    · rintro ⟨hq, hmem | hb⟩
      · exact ⟨hq, hmem⟩
      · rw [hb] at hq
        exact absurd (hsrc.symm.trans hq) (by simp)

theorem runs_joinRead {present : List BufferId} {du r : List (BufferId × BufferId)} {b : BufferResult}
    {t t' : SolveState} (h : Runs (joinRead g present du b) t r t') :
    t' = t ∧ r = (match g.sourceIn present b.bid with
      | some src => du.filter (·.1 != b.bid) ++ [(b.bid, src)]
      | none => du) := by
  unfold joinRead at h
  rw [runs_bind] at h
  obtain ⟨op, t₁, h₁, hrest⟩ := h
  obtain ⟨hop, rfl⟩ := runs_lift.1 h₁
  have hop' := Dataflow.op_eq_ok.1 hop
  split at hrest
  · rename_i read hread
    split at hrest
    · rename_i p hp
      rw [runs_bind] at hrest
      obtain ⟨op', t₂, h₂, hrest⟩ := hrest
      obtain ⟨hop₂, rfl⟩ := runs_lift.1 h₂
      have hout : g.outputId p = ⟨p, op'.outputIndex⟩ := by
        simp [Dataflow.outputId, Dataflow.op_eq_ok.1 hop₂]
      have hsrc : g.sourceIn present b.bid =
          if g.outputId p ∈ present then some (g.outputId p) else none := by
        simp [Dataflow.sourceIn, Dataflow.producerOf?, hop', hread, hp]
      rw [hsrc, hout]
      dsimp only at hrest
      split at hrest
      · rename_i hc
        obtain ⟨rfl, rfl⟩ := runs_pure.1 hrest
        simp only [List.contains_iff_mem] at hc
        simp [hc]
      · rename_i hc
        obtain ⟨rfl, rfl⟩ := runs_pure.1 hrest
        simp only [List.contains_iff_mem] at hc
        simp [hc]
    · rename_i hp
      obtain ⟨rfl, rfl⟩ := runs_pure.1 hrest
      simp [Dataflow.sourceIn, Dataflow.producerOf?, hop', hread,
        Option.eq_none_iff_forall_ne_some.2 hp]
  · rename_i hread
    obtain ⟨rfl, rfl⟩ := runs_pure.1 hrest
    simp [Dataflow.sourceIn, Dataflow.producerOf?, hop', Option.eq_none_iff_forall_ne_some.2 hread]

/-- The entries after absorbing the sinks `done` into `sources`: one per source, known by the same
identity and holding its aliases, all sound, and together holding the aliases of the sources and
of `done`. -/
structure Joined (g : Dataflow) (stamp : Nat → Nat) (ops : List Nat)
    (sources done merged : List BufferResult) : Prop where
  length : merged.length = sources.length
  slot : ∀ k (h : k < merged.length) (h' : k < sources.length),
    merged[k].bid = sources[k].bid ∧ sources[k].aliases ⊆ merged[k].aliases
  sound : ∀ e ∈ merged, e.entry.Sound g stamp ops
  perm : (merged.flatMap (·.aliases)).Perm (sources.flatMap (·.aliases) ++ done.flatMap (·.aliases))

theorem joined_nil {sources : List BufferResult} (h : ∀ e ∈ sources, e.entry.Sound g stamp ops) :
    Joined g stamp ops sources [] sources :=
  ⟨rfl, fun _ _ _ => ⟨rfl, List.Subset.refl _⟩, h, by simp⟩

theorem absorbSink_step {lifted sources done merged r : List BufferResult} {sink : BufferResult}
    {defUse : List (BufferId × BufferId)} {t t' : SolveState}
    (hperm : (lifted.flatMap (·.aliases)).Perm (g.identities ops))
    (hdu : Paired g (lifted.flatMap (·.aliases)) lifted defUse) (hs : defUse.any (·.1 == sink.bid) = true)
    (hsound : sink.entry.Sound g stamp ops) (hJ : Joined g stamp ops sources done merged)
    (h : Runs (absorbSink sources defUse merged sink) t r t') : Joined g stamp ops sources (done ++ [sink]) r := by
  -- the pair of the sink names the output it reads, an output of `ops`
  obtain ⟨q, hq, hqs⟩ : ∃ q, defUse.find? (·.1 == sink.bid) = some q ∧ q.1 = sink.bid := by
    obtain ⟨q, hq⟩ := Option.isSome_iff_exists.1 (List.find?_isSome.2 (List.any_eq_true.1 hs))
    exact ⟨q, hq, by simpa using List.find?_some hq⟩
  obtain ⟨p, hp, hq₂, hpresent⟩ :=
    Dataflow.sourceIn_eq_some.1 (hqs ▸ ((hdu q).1 (List.mem_of_find?_eq_some hq)).1)
  have hmem : p ∈ ops := Dataflow.mem_of_outputId_mem (hperm.mem_iff.1 (hq₂ ▸ hpresent))
  unfold absorbSink at h
  simp only [hq, Option.map_some, Option.getD_some] at h
  split at h
  · rename_i k hk
    obtain ⟨rfl, -⟩ := runs_pure.1 h
    -- the slot found holds the output
    obtain ⟨⟨S, k'⟩, hfind, rfl⟩ := Option.map_eq_some_iff.1 hk
    have hS : sources[k']? = some S :=
      List.mem_zipIdx_iff_getElem?.1 (List.mem_reverse.1 (List.mem_of_find?_eq_some hfind))
    have hSout : g.outputId p ∈ S.aliases := by
      simpa [List.contains_iff_mem, hq₂] using List.find?_some hfind
    have hks : k' < sources.length := (List.getElem?_eq_some_iff.1 hS).1
    have hkm : k' < merged.length := hJ.length ▸ hks
    have hSk : sources[k'] = S := (List.getElem?_eq_some_iff.1 hS).2
    refine ⟨by simp [hJ.length], fun j hj hj' => ?_, fun e he => ?_, ?_⟩
    · rw [List.getElem_modify]
      split
      · rename_i hkj
        subst hkj
        obtain ⟨hbid, hsub⟩ := hJ.slot k' hkm hj'
        exact ⟨hbid, List.Subset.trans hsub (List.subset_append_left _ _)⟩
      · exact hJ.slot j (by simpa using hj) hj'
    · rcases mem_modify he with he | ⟨b, hb, rfl⟩
      · exact hJ.sound e he
      · obtain ⟨hkb, rfl⟩ := List.getElem?_eq_some_iff.1 hb
        rw [BufferResult.entry_absorb]
        exact (hJ.sound _ (List.getElem_mem hkb)).absorb hsound hp hmem
          ((hJ.slot k' hkb hks).2 (hSk ▸ hSout))
    · rw [List.flatMap_append, List.flatMap_singleton, ← List.append_assoc]
      exact (flatMap_modify_perm (fun _ => rfl) hkm).trans (hJ.perm.append_right _)
  · exact absurd h not_runs_throw

theorem resolveDefUse_report {lifted bs : List BufferResult} {du : List (BufferId × BufferId)}
    {s s' : SolveState} (hal : Aliased g stamp ops (lifted.map BufferResult.entry))
    (hops : ∀ a ∈ ops, ∃ op, g.ops[a]? = some op) (h : Runs (resolveDefUse g lifted) s (bs, du) s') :
    AliasReport g stamp ops (bs.map BufferResult.entry) := by
  unfold resolveDefUse at h
  obtain ⟨defUse, s₁, h₁, h⟩ := runs_bind.1 h
  obtain ⟨merged, s₂, h₂, h₃⟩ := runs_bind.1 h
  obtain ⟨heq, -⟩ := runs_pure.1 h₃
  obtain rfl : merged = bs := congrArg Prod.fst heq
  have hperm : (lifted.flatMap (·.aliases)).Perm (g.identities ops) := by
    simpa [List.flatMap_map, BufferResult.entry] using hal.partition
  have hsound : ∀ e ∈ lifted, e.entry.Sound g stamp ops := fun e he =>
    hal.sound _ (List.mem_map_of_mem he)
  -- the first fold pairs every read of an output present with that output
  have hdu : Paired g (lifted.flatMap (·.aliases)) lifted defUse := by
    have := runs_foldlM_done (J := Paired g (lifted.flatMap (·.aliases))) []
      (fun _ _ _ _ _ _ _ hJ hr => (runs_joinRead hr).2 ▸ hJ.snoc _) (fun q => by simp) h₁
    simpa using this
  -- the second absorbs every paired read into the entry holding its output
  have hJ := runs_foldlM_done (J := Joined g stamp ops _) []
    (fun x hx _ _ _ _ _ hJ hr => absorbSink_step hperm hdu (List.mem_filter.1 hx).2
      (hsound x (List.mem_filter.1 hx).1) hJ hr)
    (joined_nil fun e he => hsound e (List.mem_filter.1 he).1) h₂
  rw [List.nil_append] at hJ
  -- a source reads no output below the tile: paired with one, it would be a sink
  have hsource : ∀ S ∈ lifted.filter (fun b => !defUse.any (·.1 == b.bid)), ∀ p,
      g.producerOf? S.bid = some p → p ∉ ops := by
    intro S hS p hp hmem
    obtain ⟨hSl, hSs⟩ := List.mem_filter.1 hS
    cases hsrc : g.sourceIn (lifted.flatMap (·.aliases)) S.bid with
    | none =>
      obtain ⟨op, hop⟩ := hops p hmem
      exact Dataflow.outputId_not_mem hsrc hp (hperm.mem_iff.2 (Dataflow.outputId_mem hmem hop))
    | some src =>
      have hpair := (hdu (S.bid, src)).2 ⟨hsrc, List.mem_map_of_mem hSl⟩
      simp only [Bool.not_eq_true', List.any_eq_false, beq_iff_eq] at hSs
      exact hSs _ hpair rfl
  refine ⟨⟨?_, fun e he => ?_⟩, fun e he => ?_⟩
  · -- sources and sinks split the lifted entries
    have hsplit := (List.filter_append_perm (fun b : BufferResult => !defUse.any (·.1 == b.bid)) lifted).flatMap_right
      (·.aliases)
    simp only [Bool.not_not, List.flatMap_append] at hsplit
    rw [List.flatMap_map]
    exact hJ.perm.trans (hsplit.trans hperm)
  · obtain ⟨b, hb, rfl⟩ := List.mem_map.1 he
    exact hJ.sound b hb
  · obtain ⟨b, hb, rfl⟩ := List.mem_map.1 he
    obtain ⟨j, hj, rfl⟩ := List.mem_iff_getElem.1 hb
    have hj' := hJ.length ▸ hj
    obtain ⟨hbid, -⟩ := hJ.slot j hj hj'
    intro p hp
    exact hsource _ (List.getElem_mem hj') p (hbid ▸ hp)

end Resolve

end Init

end TileSched
