import Mathlib
import TileSched.Memory.Lifetime
import TileSched.Proofs.Results
/-! First-fit offsets. Buffers are placed largest first, each at the least aligned offset whose
bytes are clear of every buffer placed before it and live at the same time. The scan that finds
that offset passes the live allocations once, in offset order, jumping past each one it collides
with; it finds the least clear offset because an allocation it does not collide with lies wholly
above the offset, and so do all allocations after it.

Main statement: when the aligned sizes add up to less than `2^64`, scheduling succeeds with one
allocation per buffer, in input order, with the buffer's name, lifetime and aligned size;
allocations live at the same time share no byte; and every offset is the least that first fit
allows. -/

namespace TileSched

/-! Aligned sizes: `v ⌈/⌉ A * A` is the least multiple of `A` not below `v`. -/

section Align

variable {A : Nat}

theorem isLeast_ceilDiv_mul (hA : 0 < A) (v : Nat) : IsLeast {m | A ∣ m ∧ v ≤ m} (v ⌈/⌉ A * A) := by
  refine ⟨⟨Nat.dvd_mul_left A _, ?_⟩, ?_⟩
  · simpa [smul_eq_mul, mul_comm] using (le_smul_ceilDiv hA : v ≤ A • (v ⌈/⌉ A))
  · rintro m ⟨⟨k, rfl⟩, hv⟩
    have hk : v ⌈/⌉ A ≤ k := (ceilDiv_le_iff_le_smul hA).2 (by simpa using hv)
    rw [mul_comm A k]
    exact Nat.mul_le_mul_right A hk

theorem ceilDiv_mul_of_dvd (hA : 0 < A) {v : Nat} (h : A ∣ v) : v ⌈/⌉ A * A = v :=
  (isLeast_ceilDiv_mul hA v).unique ⟨⟨h, le_rfl⟩, fun _ hm => hm.2⟩

theorem ceilDiv_mul_pos (hA : 0 < A) {v : Nat} (h : 0 < v) : 0 < v ⌈/⌉ A * A :=
  lt_of_lt_of_le h (isLeast_ceilDiv_mul hA v).1.2

theorem FirstFit.align_eq (ff : FirstFit) {v : Nat}
    (hv : v ⌈/⌉ ff.alignment * ff.alignment ≤ U64.max) :
    ff.align v = .ok (v ⌈/⌉ ff.alignment * ff.alignment) := by
  rw [FirstFit.align, U64.mul, U64.check, ← Nat.ceilDiv_eq_add_pred_div, if_pos hv]

end Align

theorem Lifetime.overlaps_comm (a b : Lifetime) : a.overlaps b = b.overlaps a := by
  rw [Lifetime.overlaps, Lifetime.overlaps, Bool.and_comm]

namespace Allocation

def bytes (a : Allocation) : Set Nat := Set.Ico a.offset (a.offset + a.sizeBytes)

theorem stop_eq (a : Allocation) (h : a.offset + a.sizeBytes ≤ U64.max) :
    a.stop = .ok (a.offset + a.sizeBytes) := by
  rw [stop, U64.add, U64.check, if_pos h]

theorem conflicts_eq (a : Allocation) {o s : Nat} (l : Lifetime) (ha : a.offset + a.sizeBytes ≤ U64.max)
    (ho : o + s ≤ U64.max) :
    a.conflicts o s l =
      .ok (a.lifetime.overlaps l && decide (o < a.offset + a.sizeBytes) && decide (a.offset < o + s)) := by
  unfold conflicts
  rw [stop_eq a ha]
  cases a.lifetime.overlaps l
  · simp [pure, Except.pure]
  · by_cases hlt : o < a.offset + a.sizeBytes
    · simp [U64.add, U64.check, ho, hlt, bind, Except.bind, pure, Except.pure]
    · simp [hlt, bind, Except.bind, pure, Except.pure]

theorem disjoint_of_clear {a : Allocation} {o s : Nat} (h : a.offset + a.sizeBytes ≤ o ∨ o + s ≤ a.offset) :
    Disjoint (Set.Ico o (o + s)) a.bytes := by
  rw [bytes, Set.Ico_disjoint_Ico]
  omega

theorem not_disjoint_of_meets {a : Allocation} {m s : Nat} (hs : 0 < s) (ha : 0 < a.sizeBytes)
    (hend : m < a.offset + a.sizeBytes) (hstart : a.offset < m + s) :
    ¬ Disjoint (Set.Ico m (m + s)) a.bytes := by
  rw [bytes, Set.Ico_disjoint_Ico]
  omega

theorem disjoint_of_size_zero (a : Allocation) (m : Nat) : Disjoint (Set.Ico m (m + 0)) a.bytes := by
  rw [bytes, Set.Ico_disjoint_Ico]
  omega

end Allocation

namespace FirstFit

/-! The scan for one buffer's offset. -/

section Scan

variable {A size o : Nat} {l : Lifetime} {seen : List Allocation} {f : Allocation}

/-- An allocation the scan for `size` bytes over `l` may pass: aligned, live over `l`, not empty
when `size` is not, and with room for `size` more bytes after its end. -/
structure Passable (A size : Nat) (l : Lifetime) (e : Allocation) : Prop where
  offset_dvd : A ∣ e.offset
  size_dvd : A ∣ e.sizeBytes
  live : e.lifetime.overlaps l
  pos : 0 < size → 0 < e.sizeBytes
  room : e.offset + e.sizeBytes + size ≤ U64.max

/-- What the scan for `size` bytes knows of its offset `o` after passing the allocations `seen`:
it is aligned, zero or the end of one of them, clear of each of them, and every lower offset
meets one of them. -/
structure Scanned (A size : Nat) (seen : List Allocation) (o : Nat) : Prop where
  aligned : A ∣ o
  origin : o = 0 ∨ ∃ e ∈ seen, o = e.offset + e.sizeBytes
  clear : ∀ e ∈ seen, e.offset + e.sizeBytes ≤ o ∨ o + size ≤ e.offset
  blocked : ∀ m < o, ∃ e ∈ seen, ¬ Disjoint (Set.Ico m (m + size)) e.bytes

theorem scanned_nil : Scanned A size [] 0 :=
  ⟨dvd_zero A, .inl rfl, fun _ h => absurd h List.not_mem_nil, fun m hm => absurd hm (Nat.not_lt_zero m)⟩

theorem Scanned.eq_zero (hs : Scanned A 0 seen o) : o = 0 := by
  by_contra hne
  obtain ⟨e, -, he⟩ := hs.blocked 0 (Nat.pos_of_ne_zero hne)
  exact he (e.disjoint_of_size_zero 0)

theorem passLive_eq {ff : FirstFit} (hA : 0 < ff.alignment) (he : Passable ff.alignment size l f)
    (ho : o + size ≤ U64.max) :
    ff.passLive size l o f =
      .ok (if o < f.offset + f.sizeBytes ∧ f.offset < o + size then f.offset + f.sizeBytes else o) := by
  have hend : f.offset + f.sizeBytes ≤ U64.max := by
    have := he.room
    omega
  unfold passLive
  rw [f.conflicts_eq l hend ho, he.live]
  by_cases hc : o < f.offset + f.sizeBytes ∧ f.offset < o + size
  · -- the end of an aligned allocation is aligned already
    have hfix := ceilDiv_mul_of_dvd hA (dvd_add he.offset_dvd he.size_dvd)
    have halign : ff.align (f.offset + f.sizeBytes) = .ok (f.offset + f.sizeBytes) := by
      rw [ff.align_eq (by rwa [hfix]), hfix]
    rw [if_pos hc]
    simp only [hc.1, hc.2, decide_true, Bool.and_self, bind, Except.bind, if_true, f.stop_eq hend, halign]
  · rw [if_neg hc]
    have hc' : (decide (o < f.offset + f.sizeBytes) && decide (f.offset < o + size)) = false := by
      simpa using hc
    simp only [Bool.true_and, hc', bind, Except.bind]
    rfl

theorem Scanned.snoc (hs : Scanned A size seen o) (hle : ∀ e ∈ seen, e.offset ≤ f.offset)
    (hf : Passable A size l f) :
    Scanned A size (seen ++ [f])
      (if o < f.offset + f.sizeBytes ∧ f.offset < o + size then f.offset + f.sizeBytes else o) := by
  split_ifs with hc
  · refine ⟨dvd_add hf.offset_dvd hf.size_dvd, .inr ⟨f, by simp, rfl⟩, fun e he => ?_, fun m hm => ?_⟩
    · rcases List.mem_append.1 he with he | he
      · have := hle e he
        rcases hs.clear e he with h | h <;> omega
      · rw [List.mem_singleton.1 he]
        exact .inl le_rfl
    · by_cases hmo : m < o
      · obtain ⟨e, he, hd⟩ := hs.blocked m hmo
        exact ⟨e, List.mem_append_left _ he, hd⟩
      · -- the bytes from `m` on meet `f`, which is not empty since the bytes are not
        have hsize : 0 < size := by
          rcases Nat.eq_zero_or_pos size with h | h
          · subst h
            have := hs.eq_zero
            omega
          · exact h
        exact ⟨f, by simp, Allocation.not_disjoint_of_meets hsize (hf.pos hsize) hm (by omega)⟩
  · refine ⟨hs.aligned, hs.origin.imp_right fun ⟨e, he, h⟩ => ⟨e, List.mem_append_left _ he, h⟩,
      fun e he => ?_, fun m hm => ?_⟩
    · rcases List.mem_append.1 he with he | he
      · exact hs.clear e he
      · rw [List.mem_singleton.1 he]
        omega
    · obtain ⟨e, he, hd⟩ := hs.blocked m hm
      exact ⟨e, List.mem_append_left _ he, hd⟩

theorem offsetAmong_spec {ff : FirstFit} (hA : 0 < ff.alignment) (hsize : size ≤ U64.max) :
    ∀ {live : List Allocation}, live.Pairwise (fun x y => x.offset ≤ y.offset) →
      (∀ e ∈ live, Passable ff.alignment size l e) →
      ∃ o, ff.offsetAmong live size l = .ok o ∧ Scanned ff.alignment size live o := by
  intro live
  induction live using List.reverseRecOn with
  | nil => exact fun _ _ => ⟨0, rfl, scanned_nil⟩
  | append_singleton seen f ih =>
    intro hsorted hlive
    rw [List.pairwise_append] at hsorted
    obtain ⟨o, ho, hs⟩ := ih hsorted.1 fun e he => hlive e (List.mem_append_left _ he)
    have hf := hlive f (by simp)
    -- the offset so far leaves room for the bytes
    have hroom : o + size ≤ U64.max := by
      rcases hs.origin with rfl | ⟨e, he, rfl⟩
      · simpa using hsize
      · exact (hlive e (List.mem_append_left _ he)).room
    refine ⟨_, ?_, hs.snoc (fun e he => hsorted.2.2 e he f (by simp)) hf⟩
    have ho' : seen.foldlM (ff.passLive size l) 0 = .ok o := ho
    rw [offsetAmong, List.foldlM_append, ho']
    simp only [bind, Except.bind, List.foldlM_cons, List.foldlM_nil, passLive_eq hA hf hroom]
    rfl

end Scan

/-! Placing one buffer, then every buffer in placement order. -/

section Place

variable {A : Nat} {ff : FirstFit}

/-- Allocation `a` sits at the least aligned offset whose bytes are clear of every allocation of
`earlier` live at the same time. -/
def Fits (A : Nat) (earlier : List Allocation) (a : Allocation) : Prop :=
  IsLeast {m | A ∣ m ∧ ∀ e ∈ earlier, e.lifetime.overlaps a.lifetime →
    Disjoint (Set.Ico m (m + a.sizeBytes)) e.bytes} a.offset

theorem placeNext_spec (hA : 0 < ff.alignment) (traced : Bool) {active : List (Allocation × Nat)}
    {b : LiveBuffer} {i S : Nat}
    (hactive : ∀ e ∈ active, ff.alignment ∣ e.1.offset ∧ ff.alignment ∣ e.1.sizeBytes ∧
      e.1.offset + e.1.sizeBytes ≤ S)
    (hroom : S + b.sizeBytes ⌈/⌉ ff.alignment * ff.alignment ≤ U64.max)
    (hpos : 0 < b.sizeBytes → ∀ e ∈ active, 0 < e.1.sizeBytes) :
    ∃ o, ff.placeNext traced active (b, i) =
        .ok (active ++ [(⟨b.name, o, b.sizeBytes ⌈/⌉ ff.alignment * ff.alignment, b.lifetime⟩, i)]) ∧
      ff.alignment ∣ o ∧ o ≤ S ∧
      Fits ff.alignment (active.map (·.1)) ⟨b.name, o, b.sizeBytes ⌈/⌉ ff.alignment * ff.alignment, b.lifetime⟩ := by
  set size := b.sizeBytes ⌈/⌉ ff.alignment * ff.alignment with hsize
  let live := ((active.map (·.1)).filter (·.lifetime.overlaps b.lifetime)).mergeSort
    fun x y => decide (x.offset ≤ y.offset)
  have hmem : ∀ e ∈ live, e ∈ active.map (·.1) ∧ e.lifetime.overlaps b.lifetime := by
    intro e he
    simpa only [live, List.mem_mergeSort, List.mem_filter] using he
  have hsorted : live.Pairwise fun x y => x.offset ≤ y.offset := by
    have h := @List.pairwise_mergeSort _ (fun x y : Allocation => decide (x.offset ≤ y.offset))
      (fun x y z hxy hyz => by simp only [decide_eq_true_eq] at *; omega)
      (fun x y => by simp only [Bool.or_eq_true, decide_eq_true_eq]; omega)
      ((active.map (·.1)).filter (·.lifetime.overlaps b.lifetime))
    simpa only [decide_eq_true_eq] using h
  -- a buffer of size zero takes no aligned bytes
  have hbpos : 0 < size → 0 < b.sizeBytes := fun hs => Nat.pos_of_ne_zero fun h => by
    rw [hsize, h, ceilDiv_mul_of_dvd hA (dvd_zero _)] at hs
    exact Nat.lt_irrefl 0 hs
  have hpass : ∀ e ∈ live, Passable ff.alignment size b.lifetime e := by
    intro e he
    obtain ⟨he, hov⟩ := hmem e he
    obtain ⟨x, hx, rfl⟩ := List.mem_map.1 he
    obtain ⟨hoff, hsz, hend⟩ := hactive x hx
    exact ⟨hoff, hsz, hov, fun hs => hpos (hbpos hs) x hx, by omega⟩
  obtain ⟨o, ho, hs⟩ := offsetAmong_spec hA (by omega) hsorted hpass
  have hoS : o ≤ S := by
    rcases hs.origin with rfl | ⟨e, he, rfl⟩
    · exact Nat.zero_le S
    · obtain ⟨x, hx, rfl⟩ := List.mem_map.1 (hmem e he).1
      exact (hactive x hx).2.2
  refine ⟨o, ?_, hs.aligned, hoS, ⟨hs.aligned, fun e he hov => ?_⟩, fun m ⟨_, hm⟩ => ?_⟩
  · have halign : ff.align b.sizeBytes = .ok size := ff.align_eq (by omega)
    have hstop : (⟨b.name, o, size, b.lifetime⟩ : Allocation).stop = .ok (o + size) :=
      Allocation.stop_eq _ (by simp only; omega)
    have ho' : ff.offsetAmong (((active.map (·.1)).filter (·.lifetime.overlaps b.lifetime)).mergeSort
        fun x y => decide (x.offset ≤ y.offset)) size b.lifetime = .ok o := ho
    unfold placeNext
    simp only [halign, ho', bind, Except.bind]
    cases traced
    · rfl
    · simp only [if_true, hstop]
      rfl
  · have hlive : e ∈ live := by
      simpa only [live, List.mem_mergeSort, List.mem_filter] using And.intro he hov
    exact Allocation.disjoint_of_clear (hs.clear e hlive)
  · -- every lower offset meets an allocation live at the same time
    by_contra hlt
    obtain ⟨e, he, hd⟩ := hs.blocked m (Nat.lt_of_not_le hlt)
    exact hd (hm e (hmem e he).1 (hmem e he).2)

/-- Allocation `a`, given with its buffer's index, is the one made for buffer `p`: the same index,
name and lifetime, the buffer's aligned size, and an aligned offset. -/
def Carries (A : Nat) (a : Allocation × Nat) (p : LiveBuffer × Nat) : Prop :=
  a.2 = p.2 ∧ a.1.name = p.1.name ∧ a.1.lifetime = p.1.lifetime ∧ a.1.sizeBytes = p.1.sizeBytes ⌈/⌉ A * A ∧
    A ∣ a.1.offset

/-- The allocations `active` made for the buffers `ps` in turn: each carries its buffer, fits among
those made before it, and ends within the sum of all their sizes. -/
structure Placed (A : Nat) (ps : List (LiveBuffer × Nat)) (active : List (Allocation × Nat)) : Prop where
  carries : List.Forall₂ (Carries A) active ps
  fits : ∀ k (hk : k < active.length), Fits A ((active.take k).map (·.1)) active[k].1
  within : ∀ a ∈ active, a.1.offset + a.1.sizeBytes ≤ (active.map (·.1.sizeBytes)).sum

theorem placed_nil : Placed A [] [] :=
  ⟨.nil, fun k hk => absurd hk (Nat.not_lt_zero k), fun _ h => absurd h List.not_mem_nil⟩

theorem sum_sizes_eq {active : List (Allocation × Nat)} {ps : List (LiveBuffer × Nat)}
    (h : List.Forall₂ (Carries A) active ps) :
    (active.map (·.1.sizeBytes)).sum = (ps.map fun p => p.1.sizeBytes ⌈/⌉ A * A).sum := by
  induction h with
  | nil => rfl
  | cons hab _ ih => rw [List.map_cons, List.map_cons, List.sum_cons, List.sum_cons, ih, hab.2.2.2.1]

theorem exists_carried {active : List (Allocation × Nat)} {ps : List (LiveBuffer × Nat)}
    (h : List.Forall₂ (Carries A) active ps) {e : Allocation × Nat} (he : e ∈ active) :
    ∃ p ∈ ps, Carries A e p := by
  induction h with
  | nil => exact absurd he List.not_mem_nil
  | cons hab _ ih =>
    rcases List.mem_cons.1 he with rfl | he
    · exact ⟨_, List.mem_cons_self, hab⟩
    · obtain ⟨p, hp, hc⟩ := ih he
      exact ⟨p, List.mem_cons_of_mem _ hp, hc⟩

theorem Placed.placeNext (hA : 0 < ff.alignment) (traced : Bool) {ps : List (LiveBuffer × Nat)}
    {active : List (Allocation × Nat)} (h : Placed ff.alignment ps active) {p : LiveBuffer × Nat}
    (hroom : ((ps ++ [p]).map fun q => q.1.sizeBytes ⌈/⌉ ff.alignment * ff.alignment).sum ≤ U64.max)
    (hpos : 0 < p.1.sizeBytes → ∀ q ∈ ps, 0 < q.1.sizeBytes) :
    ∃ active', ff.placeNext traced active p = .ok active' ∧ Placed ff.alignment (ps ++ [p]) active' := by
  obtain ⟨b, i⟩ := p
  have hS := sum_sizes_eq h.carries
  rw [List.map_append, List.sum_append, ← hS] at hroom
  obtain ⟨o, ho, hoA, hoS, hfit⟩ := placeNext_spec hA traced
    (show ∀ e ∈ active, _ ∧ _ ∧ e.1.offset + e.1.sizeBytes ≤ (active.map (·.1.sizeBytes)).sum from fun e he => by
      obtain ⟨q, -, hc⟩ := exists_carried h.carries he
      exact ⟨hc.2.2.2.2, hc.2.2.2.1 ▸ Nat.dvd_mul_left _ _, h.within e he⟩)
    (by simpa using hroom)
    (fun hb e he => by
      obtain ⟨q, hq, hc⟩ := exists_carried h.carries he
      rw [hc.2.2.2.1]
      exact ceilDiv_mul_pos hA (hpos hb q hq))
  refine ⟨_, ho, ⟨List.rel_append h.carries (.cons ⟨rfl, rfl, rfl, rfl, hoA⟩ .nil), fun k hk => ?_, fun a ha => ?_⟩⟩
  · rw [List.length_append, List.length_singleton] at hk
    rcases Nat.lt_succ_iff_lt_or_eq.1 hk with hk | rfl
    · rw [List.take_append_of_le_length (Nat.le_of_lt hk), List.getElem_append_left hk]
      exact h.fits k hk
    · rw [List.take_append_of_le_length le_rfl, List.take_length, List.getElem_concat_length rfl]
      exact hfit
  · simp only [List.map_append, List.map_singleton, List.sum_append, List.sum_singleton]
    rcases List.mem_append.1 ha with ha | ha
    · have := h.within a ha
      omega
    · rw [List.mem_singleton.1 ha]
      simp only
      omega

end Place

/-! The placement order: buffers sorted by key, equal keys kept in input order. -/

section Order

def placementKey (b : LiveBuffer) : Lex (ℕᵒᵈ × Lex (ℕ × String)) :=
  toLex (OrderDual.toDual b.sizeBytes, toLex (b.lifetime.start, b.name))

/-- Buffer `j` is placed before buffer `i`: its key is smaller, or the keys are equal and `j` is
given first. -/
def PlacedBefore (buffers : List LiveBuffer) (j i : Nat) : Prop :=
  ∃ b c, buffers[j]? = some b ∧ buffers[i]? = some c ∧
    (placementKey b < placementKey c ∨ placementKey b = placementKey c ∧ j < i)

theorem before_eq_true {x y : LiveBuffer × Nat} : before x y = true ↔ placementKey x.1 ≤ placementKey y.1 := by
  simp only [before, placementKey, Prod.Lex.toLex_le_toLex, OrderDual.toDual_lt_toDual, Bool.or_eq_true,
    Bool.and_eq_true, decide_eq_true_eq, beq_iff_eq, gt_iff_lt, OrderDual.toDual_inj]

theorem before_trans (x y z : LiveBuffer × Nat) (hxy : before x y = true) (hyz : before y z = true) :
    before x z = true :=
  before_eq_true.2 ((before_eq_true.1 hxy).trans (before_eq_true.1 hyz))

theorem before_total (x y : LiveBuffer × Nat) : (before x y || before y x) = true := by
  rw [Bool.or_eq_true, before_eq_true, before_eq_true]
  exact le_total _ _

theorem size_le_of_before {x y : LiveBuffer × Nat} (h : before x y = true) : y.1.sizeBytes ≤ x.1.sizeBytes := by
  rw [before_eq_true, placementKey, placementKey, Prod.Lex.toLex_le_toLex, OrderDual.toDual_lt_toDual,
    OrderDual.toDual_inj] at h
  omega

theorem pair_sublist_getElem {α : Type} :
    ∀ {l : List α} {j i : Nat} (hji : j < i) (hi : i < l.length), List.Sublist [l[j], l[i]] l
  | a :: l, 0, i + 1, _, hi => by
    simp
  | a :: l, j + 1, i + 1, hji, hi => by
    simpa using (@pair_sublist_getElem α l j i (Nat.lt_of_succ_lt_succ hji) (Nat.lt_of_succ_lt_succ hi)).cons a

theorem lt_of_pair_sublist {α : Type} {l : List α} (hnd : l.Nodup) {a b : Nat} (ha : a < l.length)
    (hb : b < l.length) (h : List.Sublist [l[a], l[b]] l) : a < b := by
  obtain ⟨f, hf⟩ := List.sublist_iff_exists_fin_orderEmbedding_get_eq.1 h
  have h₀ : l[a] = l[(f ⟨0, by simp⟩ : Nat)] := by simpa using hf ⟨0, by simp⟩
  have h₁ : l[b] = l[(f ⟨1, by simp⟩ : Nat)] := by simpa using hf ⟨1, by simp⟩
  rw [hnd.getElem_inj_iff] at h₀ h₁
  have hlt : f ⟨0, by simp⟩ < f ⟨1, by simp⟩ := f.strictMono (by simp)
  rw [Fin.lt_def] at hlt
  omega

variable (buffers : List LiveBuffer)

theorem mem_order {x : LiveBuffer × Nat} (hx : x ∈ (buffers.zipIdx).mergeSort before) :
    buffers[x.2]? = some x.1 :=
  List.mem_zipIdx_iff_getElem?.1 (List.mem_mergeSort.1 hx)

theorem nodup_order : (((buffers.zipIdx).mergeSort before).map (·.2)).Nodup := by
  rw [((List.mergeSort_perm _ _).map _).nodup_iff, List.zipIdx_map_snd]
  exact List.nodup_range' ..

theorem lt_iff_placedBefore {k k' : Nat} (hk : k < ((buffers.zipIdx).mergeSort before).length)
    (hk' : k' < ((buffers.zipIdx).mergeSort before).length) :
    k' < k ↔ PlacedBefore buffers ((buffers.zipIdx).mergeSort before)[k'].2
      ((buffers.zipIdx).mergeSort before)[k].2 := by
  set O := (buffers.zipIdx).mergeSort before
  have hsorted := List.pairwise_iff_getElem.1 (List.pairwise_mergeSort before_trans before_total buffers.zipIdx)
  have hnd : O.Nodup := (nodup_order buffers).of_map _
  have hsnd : ∀ {a b} (ha : a < O.length) (hb : b < O.length), O[a].2 = O[b].2 → a = b := fun ha hb h =>
    (@List.Nodup.getElem_inj_iff _ _ (nodup_order buffers) _ (by rw [List.length_map]; exact ha) _
      (by rw [List.length_map]; exact hb)).1 (by simpa using h)
  -- an item of the order is the item of the input at its index
  have hentry : ∀ {a} (ha : a < O.length), ∃ h : O[a].2 < buffers.zipIdx.length, O[a] = buffers.zipIdx[O[a].2] := by
    intro a ha
    obtain ⟨h, hb⟩ := List.getElem?_eq_some_iff.1 (mem_order buffers (List.getElem_mem ha))
    exact ⟨by simpa using h, by simp [List.getElem_zipIdx, hb]⟩
  -- equal keys at indices in input order stay in that order
  have stable : ∀ {a b} (ha : a < O.length) (hb : b < O.length), O[a].2 < O[b].2 →
      placementKey O[a].1 ≤ placementKey O[b].1 → a < b := by
    intro a b ha hb hlt hkey
    obtain ⟨ha', hea⟩ := hentry ha
    obtain ⟨hb', heb⟩ := hentry hb
    have hsub : List.Sublist [O[a], O[b]] buffers.zipIdx := by
      rw [hea, heb]
      exact pair_sublist_getElem hlt hb'
    exact lt_of_pair_sublist hnd ha hb
      (List.sublist_mergeSort before_trans before_total (List.pairwise_pair.2 (before_eq_true.2 hkey)) hsub)
  have hx := mem_order buffers (List.getElem_mem hk')
  have hy := mem_order buffers (List.getElem_mem hk)
  constructor
  · intro hlt
    refine ⟨_, _, hx, hy, ?_⟩
    rcases (before_eq_true.1 (hsorted k' k hk' hk hlt)).lt_or_eq with hkey | hkey
    · exact .inl hkey
    · refine .inr ⟨hkey, ?_⟩
      -- equal keys: the indices differ, and the order would otherwise put them the other way
      have hne : O[k'].2 ≠ O[k].2 := fun h => absurd (hsnd hk' hk h) (Nat.ne_of_lt hlt)
      by_contra hji
      exact Nat.lt_asymm hlt (stable hk hk' (lt_of_le_of_ne (not_lt.1 hji) hne.symm) hkey.ge)
  · rintro ⟨b, c, hb, hc, hkey⟩
    rw [hx] at hb
    rw [hy] at hc
    cases hb
    cases hc
    rcases hkey with hkey | ⟨hkey, hji⟩
    · by_contra hle
      rcases Nat.eq_or_lt_of_le (Nat.le_of_not_lt hle) with heq | hlt
      · subst heq
        exact lt_irrefl _ hkey
      · exact absurd hkey (not_lt.2 (before_eq_true.1 (hsorted k k' hk hk' hlt)))
    · exact stable hk' hk hji hkey.le

end Order

section Place

variable {ff : FirstFit}

theorem place_spec (hA : 0 < ff.alignment) (traced : Bool) (buffers : List LiveBuffer)
    (hsum : (buffers.map fun b => b.sizeBytes ⌈/⌉ ff.alignment * ff.alignment).sum ≤ U64.max) :
    ∃ placed, ff.place traced buffers = .ok placed ∧
      Placed ff.alignment ((buffers.zipIdx).mergeSort before) placed := by
  set order := (buffers.zipIdx).mergeSort before
  have hsorted : order.Pairwise fun x y => before x y = true :=
    List.pairwise_mergeSort before_trans before_total _
  have htotal : (order.map fun q => q.1.sizeBytes ⌈/⌉ ff.alignment * ff.alignment).sum ≤ U64.max := by
    show (((buffers.zipIdx).mergeSort before).map _).sum ≤ _
    rw [((List.mergeSort_perm _ _).map _).sum_eq]
    rw [← List.zipIdx_map_fst 0 buffers, List.map_map] at hsum
    exact hsum
  -- every prefix of the placement order is placed
  suffices key : ∀ pre rest, pre ++ rest = order →
      ∃ active, pre.foldlM (ff.placeNext traced) [] = .ok active ∧ Placed ff.alignment pre active from
    key order [] (List.append_nil _)
  intro pre
  induction pre using List.reverseRecOn with
  | nil => exact fun _ _ => ⟨[], rfl, placed_nil⟩
  | append_singleton pre p ih =>
    intro rest hsplit
    obtain ⟨active, hfold, hplaced⟩ := ih (p :: rest) (by rw [← hsplit, List.append_assoc, List.singleton_append])
    have hroom : ((pre ++ [p]).map fun q => q.1.sizeBytes ⌈/⌉ ff.alignment * ff.alignment).sum ≤ U64.max := by
      rw [← hsplit, List.map_append, List.sum_append] at htotal
      omega
    -- buffers placed earlier are at least as large
    have hpos : 0 < p.1.sizeBytes → ∀ q ∈ pre, 0 < q.1.sizeBytes := by
      intro hp q hq
      rw [← hsplit, List.append_assoc, List.pairwise_append] at hsorted
      exact Nat.lt_of_lt_of_le hp (size_le_of_before (hsorted.2.2 q hq p (by simp)))
    obtain ⟨active', hstep, hplaced'⟩ := hplaced.placeNext hA traced hroom hpos
    refine ⟨active', ?_, hplaced'⟩
    rw [List.foldlM_append, hfold]
    simp only [bind, Except.bind, List.foldlM_cons, List.foldlM_nil, hstep]
    rfl

/-! Back in input order. -/

theorem getElem?_inInputOrder {placed : List (Allocation × Nat)}
    (hidx : (placed.map (·.2)).Perm (List.range placed.length)) {j : Nat} {a : Allocation} :
    (inInputOrder placed)[j]? = some a ↔ (a, j) ∈ placed := by
  set S := placed.mergeSort fun x y => decide (x.2 ≤ y.2)
  have hS : S.map (·.2) = List.range placed.length := by
    have hsorted := @List.pairwise_mergeSort _ (fun x y : Allocation × Nat => decide (x.2 ≤ y.2))
      (fun x y z hxy hyz => by simp only [decide_eq_true_eq] at *; omega)
      (fun x y => by simp only [Bool.or_eq_true, decide_eq_true_eq]; omega) placed
    refine @List.Perm.eq_of_pairwise _ (· ≤ ·) _ _ (fun _ _ _ _ => Nat.le_antisymm) ?_
      (List.pairwise_lt_range.imp Nat.le_of_lt) (((List.mergeSort_perm _ _).map _).trans hidx)
    exact List.pairwise_map.2 (hsorted.imp fun h => by simpa using h)
  -- the allocation at position `t` of the sorted list has index `t`
  have hsnd : ∀ t (ht : t < S.length), S[t].2 = t := fun t ht => by
    have := congrArg (·[t]?) hS
    simp only [List.getElem?_map, List.getElem?_eq_getElem ht, Option.map_some,
      List.getElem?_range (show t < placed.length by simpa [S] using ht)] at this
    exact Option.some.inj this
  show (S.map (·.1))[j]? = some a ↔ (a, j) ∈ placed
  rw [List.getElem?_map, Option.map_eq_some_iff]
  constructor
  · rintro ⟨x, hx, rfl⟩
    obtain ⟨hj, rfl⟩ := List.getElem?_eq_some_iff.1 hx
    have hmem : S[j] ∈ placed := List.mem_mergeSort.1 (List.getElem_mem hj)
    have hpair : (S[j].1, j) = S[j] := Prod.ext rfl (hsnd j hj).symm
    rwa [hpair]
  · intro h
    obtain ⟨t, ht, hta⟩ := List.getElem_of_mem (List.mem_mergeSort.2 h : (a, j) ∈ S)
    have htj : t = j := by rw [← hsnd t ht, hta]
    subst htj
    exact ⟨_, List.getElem?_eq_getElem ht, by rw [hta]⟩

end Place

/-! The layout first fit gives. -/

/-- What first fit with alignment `A` gives for `buffers`: one allocation per buffer, in input
order, with the buffer's name and lifetime, the least multiple of `A` not below its size, and an
aligned offset; two allocations live at the same time share no byte; and each offset is the least
aligned one whose bytes are clear of every allocation placed before it and live at the same time. -/
structure Layout (A : Nat) (buffers : List LiveBuffer) (allocs : List Allocation) : Prop where
  length : allocs.length = buffers.length
  entry : ∀ {i : Nat} {a : Allocation} {b : LiveBuffer}, allocs[i]? = some a → buffers[i]? = some b →
    a.name = b.name ∧ a.lifetime = b.lifetime ∧ IsLeast {m | A ∣ m ∧ b.sizeBytes ≤ m} a.sizeBytes ∧ A ∣ a.offset
  disjoint : ∀ {i j : Nat} {a c : Allocation}, allocs[i]? = some a → allocs[j]? = some c → i ≠ j →
    a.lifetime.overlaps c.lifetime → Disjoint a.bytes c.bytes
  least : ∀ {i : Nat} {a : Allocation}, allocs[i]? = some a →
    IsLeast {m | A ∣ m ∧ ∀ (j : Nat) (c : Allocation), allocs[j]? = some c → PlacedBefore buffers j i →
      c.lifetime.overlaps a.lifetime → Disjoint (Set.Ico m (m + a.sizeBytes)) c.bytes} a.offset

section Layout

variable {A : Nat} {buffers : List LiveBuffer} {placed : List (Allocation × Nat)}

theorem mem_take_map_fst {l : List (Allocation × Nat)} {k : Nat} {e : Allocation} :
    e ∈ (l.take k).map (·.1) ↔ ∃ k', ∃ h : k' < l.length, k' < k ∧ l[k'].1 = e := by
  simp only [List.mem_map, List.mem_take_iff_getElem]
  constructor
  · rintro ⟨x, ⟨k', hk', rfl⟩, rfl⟩
    exact ⟨k', by omega, by omega, rfl⟩
  · rintro ⟨k', hk', hlt, rfl⟩
    exact ⟨_, ⟨k', by omega, rfl⟩, rfl⟩

theorem Placed.disjoint_of_lt {ps : List (LiveBuffer × Nat)} {placed : List (Allocation × Nat)}
    (hP : Placed A ps placed) {k k' : Nat} (hk : k < placed.length) (hk' : k' < placed.length) (hlt : k' < k)
    (hov : placed[k'].1.lifetime.overlaps placed[k].1.lifetime) : Disjoint placed[k].1.bytes placed[k'].1.bytes :=
  (hP.fits k hk).1.2 _ (mem_take_map_fst.2 ⟨k', hk', hlt, rfl⟩) hov

theorem layout_of_placed (hA : 0 < A) (hP : Placed A ((buffers.zipIdx).mergeSort before) placed) :
    Layout A buffers (inInputOrder placed) := by
  set O := (buffers.zipIdx).mergeSort before
  have hlen : placed.length = O.length := hP.carries.length_eq
  have hsnd : placed.map (·.2) = O.map (·.2) := by
    have h := List.forall₂_map_left_iff.2 (List.forall₂_map_right_iff.2 (hP.carries.imp fun _ _ h => h.1))
    rwa [List.forall₂_eq_eq_eq] at h
  have hperm : (placed.map (·.2)).Perm (List.range placed.length) := by
    rw [hsnd, hlen, List.length_mergeSort, List.length_zipIdx, List.range_eq_range', ← List.zipIdx_map_snd]
    exact (List.mergeSort_perm _ _).map _
  have hget : ∀ {j a}, (inInputOrder placed)[j]? = some a ↔ (a, j) ∈ placed := getElem?_inInputOrder hperm
  -- the allocation at each position carries the buffer at that position of the order
  have hcarry : ∀ k (hk : k < placed.length) (hk' : k < O.length), Carries A placed[k] O[k] :=
    fun k hk hk' => by simpa using hP.carries.get hk hk'
  -- an allocation of the output is the one placed at some position, with its index
  have hplacedAt : ∀ {j a}, (inInputOrder placed)[j]? = some a →
      ∃ k, ∃ hk : k < placed.length, placed[k] = (a, j) := fun h => List.getElem_of_mem (hget.1 h)
  -- the index an allocation was placed with is the index of the buffer at its position
  have hindex : ∀ {k j a} (hk : k < placed.length) (hk' : k < O.length), placed[k] = (a, j) → O[k].2 = j :=
    fun hk hk' h => by simpa [h] using ((hcarry _ hk hk').1).symm
  refine ⟨?_, fun {i a b} ha hb => ?_, fun {i j a c} ha hc hij hov => ?_, fun {i a} ha => ?_⟩
  · rw [inInputOrder, List.length_map, List.length_mergeSort, hlen, List.length_mergeSort, List.length_zipIdx]
  · obtain ⟨k, hk, hka⟩ := hplacedAt ha
    have hk' : k < O.length := hlen ▸ hk
    obtain ⟨-, hname, hlife, hsize, hoff⟩ := hcarry k hk hk'
    have hbk := mem_order buffers (List.getElem_mem hk')
    rw [hindex hk hk' hka, hb] at hbk
    cases hbk
    rw [hka] at hname hlife hsize hoff
    exact ⟨hname, hlife, hsize ▸ isLeast_ceilDiv_mul hA _, hoff⟩
  · obtain ⟨k, hk, hka⟩ := hplacedAt ha
    obtain ⟨k', hk', hkc⟩ := hplacedAt hc
    have ha' : placed[k].1 = a := by rw [hka]
    have hc' : placed[k'].1 = c := by rw [hkc]
    -- the later of the two was placed clear of the earlier
    rcases lt_trichotomy k' k with hlt | rfl | hlt
    · rw [← ha', ← hc']
      exact hP.disjoint_of_lt hk hk' hlt (by rw [ha', hc', Lifetime.overlaps_comm]; exact hov)
    · rw [hka] at hkc
      cases hkc
      exact absurd rfl hij
    · rw [← ha', ← hc']
      exact (hP.disjoint_of_lt hk' hk hlt (by rw [ha', hc']; exact hov)).symm
  · obtain ⟨k, hk, hka⟩ := hplacedAt ha
    have hk' : k < O.length := hlen ▸ hk
    have hfit := hP.fits k hk
    simp only [hka] at hfit
    -- an allocation placed at an earlier position is one of a buffer placed before
    have hiff : ∀ m, (∀ e ∈ (placed.take k).map (·.1), e.lifetime.overlaps a.lifetime →
          Disjoint (Set.Ico m (m + a.sizeBytes)) e.bytes) ↔
        (∀ (j : Nat) (c : Allocation), (inInputOrder placed)[j]? = some c → PlacedBefore buffers j i →
          c.lifetime.overlaps a.lifetime → Disjoint (Set.Ico m (m + a.sizeBytes)) c.bytes) := by
      intro m
      constructor
      · intro h j c hc hji
        obtain ⟨k', hk'', hkc⟩ := hplacedAt hc
        have hlt : k' < k := by
          rw [lt_iff_placedBefore buffers hk' (hlen ▸ hk''), hindex hk'' (hlen ▸ hk'') hkc, hindex hk hk' hka]
          exact hji
        exact h c (mem_take_map_fst.2 ⟨k', hk'', hlt, by rw [hkc]⟩)
      · intro h e he
        obtain ⟨k', hk'', hlt, rfl⟩ := mem_take_map_fst.1 he
        have hj : (inInputOrder placed)[placed[k'].2]? = some placed[k'].1 := hget.2 (List.getElem_mem hk'')
        refine h _ _ hj ?_
        have := (lt_iff_placedBefore buffers hk' (hlen ▸ hk'')).1 hlt
        rwa [hindex hk'' (hlen ▸ hk'') rfl, hindex hk hk' hka] at this
    simpa only [Fits, hiff] using hfit

end Layout

/-- First fit is collision-free and lowest-first: when the aligned sizes add up to less than
`2^64`, scheduling succeeds, and its allocations are the first-fit layout of the buffers. -/
theorem schedule_first_fit (alignment : Nat) (traced : Bool) (buffers : List LiveBuffer)
    (hsum : (buffers.map fun b => b.sizeBytes ⌈/⌉ max alignment 1 * max alignment 1).sum < 2 ^ 64) :
    ∃ allocs, (FirstFit.new alignment).schedule traced buffers = .ok allocs ∧
      Layout (max alignment 1) buffers allocs := by
  have hA : 0 < (FirstFit.new alignment).alignment := lt_max_of_lt_right Nat.one_pos
  obtain ⟨placed, hplace, hP⟩ := place_spec hA traced buffers (by simp only [FirstFit.new, U64.max]; omega)
  exact ⟨inInputOrder placed, by rw [schedule, hplace]; rfl, layout_of_placed hA hP⟩

def gapBuffers : List LiveBuffer :=
  [⟨"a", 64, ⟨0, 10⟩⟩, ⟨"b", 64, ⟨0, 2⟩⟩, ⟨"c", 64, ⟨5, 10⟩⟩, ⟨"d", 32, ⟨4, 10⟩⟩]

theorem gapBuffers_first_fit :
    (gapBuffers.map fun b => b.sizeBytes ⌈/⌉ max 1 1 * max 1 1).sum < 2 ^ 64 ∧
      ∃ allocs, (FirstFit.new 1).schedule false gapBuffers = .ok allocs ∧ Layout (max 1 1) gapBuffers allocs :=
  ⟨by decide, schedule_first_fit 1 false gapBuffers (by decide)⟩

end FirstFit

end TileSched
