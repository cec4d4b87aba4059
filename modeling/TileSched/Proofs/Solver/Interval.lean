import Mathlib
import TileSched.Solver.Search
/-! Exact interval arithmetic beside the clamped one of the search. The hull of the products of
two intervals' points is attained at corners, grows with its arguments, and is what the search
computes whenever no end leaves the word range. -/

namespace TileSched

def InInterval (x : Int) (a : Interval) : Prop := a.1 ≤ x ∧ x ≤ a.2

def SubInterval (a b : Interval) : Prop := b.1 ≤ a.1 ∧ a.2 ≤ b.2

def WordInterval (a : Interval) : Prop := InInterval a.1 (I64.min, I64.max) ∧ InInterval a.2 (I64.min, I64.max)

instance (x : Int) (a : Interval) : Decidable (InInterval x a) := inferInstanceAs (Decidable (_ ∧ _))

instance (a : Interval) : Decidable (WordInterval a) := inferInstanceAs (Decidable (_ ∧ _))

def mulHull (a b : Interval) : Interval :=
  let cs := [a.1 * b.1, a.1 * b.2, a.2 * b.1, a.2 * b.2]
  (cs.foldl min (a.1 * b.1), cs.foldl max (a.1 * b.1))

def prodHull (b : Array Interval) (fs : List Nat) (acc : Interval := (1, 1)) : Interval :=
  fs.foldl (fun acc f => mulHull acc (b.getD f (0, 0))) acc

def linearHull (b : Array Interval) (ts : List (Int × Nat)) (acc : Interval) : Interval :=
  ts.foldl (fun acc t => (acc.1 + min (t.1 * (b.getD t.2 (0, 0)).1) (t.1 * (b.getD t.2 (0, 0)).2),
    acc.2 + max (t.1 * (b.getD t.2 (0, 0)).1) (t.1 * (b.getD t.2 (0, 0)).2))) acc

theorem mulHull_fst (a b : Interval) :
    (mulHull a b).1 = min (min (a.1 * b.1) (a.1 * b.2)) (min (a.2 * b.1) (a.2 * b.2)) := by
  simp only [mulHull, List.foldl_cons, List.foldl_nil]
  omega

theorem mulHull_snd (a b : Interval) :
    (mulHull a b).2 = max (max (a.1 * b.1) (a.1 * b.2)) (max (a.2 * b.1) (a.2 * b.2)) := by
  simp only [mulHull, List.foldl_cons, List.foldl_nil]
  omega

theorem mul_between {a b x : Int} (hx : a ≤ x ∧ x ≤ b) (y : Int) :
    min (a * y) (b * y) ≤ x * y ∧ x * y ≤ max (a * y) (b * y) := by
  rcases le_total 0 y with hy | hy
  · have h1 := mul_le_mul_of_nonneg_right hx.1 hy
    have h2 := mul_le_mul_of_nonneg_right hx.2 hy
    exact ⟨le_trans (min_le_left _ _) h1, le_trans h2 (le_max_right _ _)⟩
  · have h1 := mul_le_mul_of_nonpos_right hx.1 hy
    have h2 := mul_le_mul_of_nonpos_right hx.2 hy
    exact ⟨le_trans (min_le_right _ _) h2, le_trans h1 (le_max_left _ _)⟩

theorem mem_mulHull {a b : Interval} {x y : Int} (hx : InInterval x a) (hy : InInterval y b) :
    InInterval (x * y) (mulHull a b) := by
  obtain ⟨l1, u1⟩ := mul_between hx y
  obtain ⟨l2, u2⟩ := mul_between hy a.1
  obtain ⟨l3, u3⟩ := mul_between hy a.2
  rw [mul_comm b.1, mul_comm b.2, mul_comm y] at l2 u2 l3 u3
  rw [InInterval, mulHull_fst, mulHull_snd]
  constructor
  · refine le_trans ?_ l1
    rcases le_total (a.1 * y) (a.2 * y) with h | h
    · rw [min_eq_left h]; exact le_trans (min_le_left _ _) l2
    · rw [min_eq_right h]; exact le_trans (min_le_right _ _) l3
  · refine le_trans u1 ?_
    rcases le_total (a.1 * y) (a.2 * y) with h | h
    · rw [max_eq_right h]; exact le_trans u3 (le_max_right _ _)
    · rw [max_eq_left h]; exact le_trans u2 (le_max_left _ _)

theorem mulHull_attained {a b : Interval} (ha : a.1 ≤ a.2) (hb : b.1 ≤ b.2) :
    (∃ x y, InInterval x a ∧ InInterval y b ∧ (mulHull a b).1 = x * y) ∧
      ∃ x y, InInterval x a ∧ InInterval y b ∧ (mulHull a b).2 = x * y := by
  have l : InInterval a.1 a := ⟨le_refl _, ha⟩
  have u : InInterval a.2 a := ⟨ha, le_refl _⟩
  have l' : InInterval b.1 b := ⟨le_refl _, hb⟩
  have u' : InInterval b.2 b := ⟨hb, le_refl _⟩
  rw [mulHull_fst, mulHull_snd]
  constructor
  · rcases min_choice (min (a.1 * b.1) (a.1 * b.2)) (min (a.2 * b.1) (a.2 * b.2)) with h | h <;>
      rw [h]
    · rcases min_choice (a.1 * b.1) (a.1 * b.2) with h' | h' <;> rw [h']
      exacts [⟨_, _, l, l', rfl⟩, ⟨_, _, l, u', rfl⟩]
    · rcases min_choice (a.2 * b.1) (a.2 * b.2) with h' | h' <;> rw [h']
      exacts [⟨_, _, u, l', rfl⟩, ⟨_, _, u, u', rfl⟩]
  · rcases max_choice (max (a.1 * b.1) (a.1 * b.2)) (max (a.2 * b.1) (a.2 * b.2)) with h | h <;>
      rw [h]
    · rcases max_choice (a.1 * b.1) (a.1 * b.2) with h' | h' <;> rw [h']
      exacts [⟨_, _, l, l', rfl⟩, ⟨_, _, l, u', rfl⟩]
    · rcases max_choice (a.2 * b.1) (a.2 * b.2) with h' | h' <;> rw [h']
      exacts [⟨_, _, u, l', rfl⟩, ⟨_, _, u, u', rfl⟩]

theorem mulHull_le (a b : Interval) : (mulHull a b).1 ≤ (mulHull a b).2 := by
  rw [mulHull_fst, mulHull_snd]
  exact le_trans (min_le_left _ _) (le_trans (min_le_left _ _)
    (le_trans (le_max_left _ _) (le_max_left _ _)))

theorem mulHull_sub {a a' b b' : Interval} (ha : a.1 ≤ a.2) (hb : b.1 ≤ b.2)
    (hsa : SubInterval a a') (hsb : SubInterval b b') : SubInterval (mulHull a b) (mulHull a' b') := by
  have inner : ∀ {x y}, InInterval x a → InInterval y b → InInterval (x * y) (mulHull a' b') :=
    fun hx hy => mem_mulHull ⟨le_trans hsa.1 hx.1, le_trans hx.2 hsa.2⟩
      ⟨le_trans hsb.1 hy.1, le_trans hy.2 hsb.2⟩
  obtain ⟨⟨x, y, hx, hy, hlo⟩, ⟨x', y', hx', hy', hhi⟩⟩ := mulHull_attained ha hb
  exact ⟨hlo ▸ (inner hx hy).1, hhi ▸ (inner hx' hy').2⟩

theorem clamp_of_word {v : Int} (h : InInterval v (I64.min, I64.max)) : I64.clamp v = v := by
  obtain ⟨h1, h2⟩ := h
  unfold I64.clamp
  split
  · omega
  · split <;> omega

theorem mulInterval_of_word {a b : Interval} (h : WordInterval (mulHull a b)) :
    mulInterval a b = mulHull a b := by
  show (I64.clamp (mulHull a b).1, I64.clamp (mulHull a b).2) = mulHull a b
  rw [clamp_of_word h.1, clamp_of_word h.2]

theorem sub_mulHull_one {a e : Interval} (ha : a.1 ≤ a.2) (he : InInterval 1 e) :
    SubInterval a (mulHull a e) := by
  have lo := mem_mulHull (⟨le_refl a.1, ha⟩ : InInterval a.1 a) he
  have hi := mem_mulHull (⟨ha, le_refl a.2⟩ : InInterval a.2 a) he
  rw [mul_one] at lo hi
  exact ⟨lo.1, hi.2⟩

theorem word_of_sub {a b : Interval} (ha : a.1 ≤ a.2) (h : SubInterval a b) (hb : WordInterval b) :
    WordInterval a :=
  ⟨⟨le_trans hb.1.1 h.1, le_trans ha (le_trans h.2 hb.2.2)⟩,
    ⟨le_trans hb.1.1 (le_trans h.1 ha), le_trans h.2 hb.2.2⟩⟩

section Fold

variable {b : Array Interval} {val : Nat → Int}

theorem mem_prodHull :
    ∀ (fs : List Nat), (∀ f ∈ fs, InInterval (val f) (b.getD f (0, 0))) → ∀ {acc : Interval} {p : Int},
      InInterval p acc → InInterval (p * (fs.map val).prod) (prodHull b fs acc)
  | [], _, _, _, h => by simpa [prodHull] using h
  | f :: fs, hf, acc, p, h => by
    have := mem_prodHull fs (fun g hg => hf g (List.mem_cons_of_mem _ hg))
      (mem_mulHull h (hf f List.mem_cons_self))
    simpa [prodHull, mul_assoc] using this

theorem prodHull_points :
    ∀ (fs : List Nat), (∀ f ∈ fs, (b.getD f (0, 0)).1 = (b.getD f (0, 0)).2) → ∀ p : Int,
      prodHull b fs (p, p) = (p * (fs.map fun f => (b.getD f (0, 0)).1).prod,
        p * (fs.map fun f => (b.getD f (0, 0)).1).prod)
  | [], _, p => by simp [prodHull]
  | f :: fs, hf, p => by
    have hpt : mulHull (p, p) (b.getD f (0, 0)) = (p * (b.getD f (0, 0)).1, p * (b.getD f (0, 0)).1) := by
      rw [Prod.ext_iff, mulHull_fst, mulHull_snd, ← hf f List.mem_cons_self]
      simp
    have := prodHull_points fs (fun g hg => hf g (List.mem_cons_of_mem _ hg)) (p * (b.getD f (0, 0)).1)
    simp only [prodHull, List.foldl_cons] at this ⊢
    rw [hpt, this]
    simp [mul_assoc]

theorem prodHull_le (fs : List Nat) {acc : Interval} (h : acc.1 ≤ acc.2) :
    (prodHull b fs acc).1 ≤ (prodHull b fs acc).2 := by
  induction fs generalizing acc with
  | nil => exact h
  | cons f fs ih => exact ih (mulHull_le _ _)

theorem prodHull_sub {b' : Array Interval} :
    ∀ (fs : List Nat), (∀ f ∈ fs, (b.getD f (0, 0)).1 ≤ (b.getD f (0, 0)).2 ∧
      SubInterval (b.getD f (0, 0)) (b'.getD f (0, 0))) →
      ∀ {acc acc' : Interval}, acc.1 ≤ acc.2 → SubInterval acc acc' →
      SubInterval (prodHull b fs acc) (prodHull b' fs acc')
  | [], _, _, _, _, h => h
  | f :: fs, hb, _, _, ha, h =>
    prodHull_sub fs (fun g hg => hb g (List.mem_cons_of_mem _ hg)) (mulHull_le _ _)
      (mulHull_sub ha (hb f List.mem_cons_self).1 h (hb f List.mem_cons_self).2)

theorem prodHull_append (l₁ l₂ : List Nat) (acc : Interval) :
    prodHull b (l₁ ++ l₂) acc = prodHull b l₂ (prodHull b l₁ acc) := List.foldl_append

theorem word_prodHull_erase {l₁ l₂ : List Nat} {e : Nat}
    (hne : ∀ f, (b.getD f (0, 0)).1 ≤ (b.getD f (0, 0)).2) (he : InInterval 1 (b.getD e (0, 0)))
    (hw : ∀ k, WordInterval (prodHull b ((l₁ ++ e :: l₂).take k))) :
    ∀ k, WordInterval (prodHull b ((l₁ ++ l₂).take k)) := by
  intro k
  rcases le_or_gt k l₁.length with hk | hk
  · -- a running product within the first part is one of the whole list
    have := hw k
    rwa [List.take_append_of_le_length hk] at this ⊢
  · obtain ⟨j, rfl⟩ : ∃ j, k = l₁.length + j := ⟨k - l₁.length, by omega⟩
    have hwhole := hw (l₁.length + (j + 1))
    rw [List.take_length_add_append, List.take_succ_cons, prodHull_append] at hwhole
    rw [List.take_length_add_append, prodHull_append]
    have hpre : (prodHull b l₁).1 ≤ (prodHull b l₁).2 := prodHull_le l₁ (le_refl (1 : Int))
    refine word_of_sub (prodHull_le _ hpre) ?_ hwhole
    exact prodHull_sub (l₂.take j) (fun f _ => ⟨hne f, le_refl _, le_refl _⟩) hpre
      (sub_mulHull_one hpre he)

theorem foldl_mulInterval_of_word :
    ∀ (fs : List Nat) {acc : Interval}, (∀ k, WordInterval (prodHull b (fs.take k) acc)) →
      fs.foldl (fun acc f => mulInterval acc (b.getD f (0, 0))) acc = prodHull b fs acc
  | [], _, _ => rfl
  | f :: fs, acc, h => by
    have hf : mulInterval acc (b.getD f (0, 0)) = mulHull acc (b.getD f (0, 0)) :=
      mulInterval_of_word (by simpa [prodHull] using h 1)
    rw [List.foldl_cons, hf, foldl_mulInterval_of_word fs fun k => by simpa [prodHull] using h (k + 1)]
    rfl

theorem mem_linearHull :
    ∀ (ts : List (Int × Nat)), (∀ t ∈ ts, InInterval (val t.2) (b.getD t.2 (0, 0))) →
      ∀ {acc : Interval} {s : Int}, InInterval s acc →
      InInterval (s + (ts.map fun t => t.1 * val t.2).sum) (linearHull b ts acc)
  | [], _, _, _, h => by simpa [linearHull] using h
  | t :: ts, hf, acc, s, h => by
    obtain ⟨l, u⟩ := mul_between (hf t List.mem_cons_self) t.1
    rw [mul_comm _ t.1, mul_comm _ t.1, mul_comm _ t.1] at l u
    have step : InInterval (s + t.1 * val t.2) (acc.1 + min (t.1 * (b.getD t.2 (0, 0)).1)
        (t.1 * (b.getD t.2 (0, 0)).2), acc.2 + max (t.1 * (b.getD t.2 (0, 0)).1)
        (t.1 * (b.getD t.2 (0, 0)).2)) :=
      ⟨add_le_add h.1 l, add_le_add h.2 u⟩
    simpa [linearHull, add_assoc] using
      mem_linearHull ts (fun t' ht => hf t' (List.mem_cons_of_mem _ ht)) step

theorem linearHull_points :
    ∀ (ts : List (Int × Nat)), (∀ t ∈ ts, (b.getD t.2 (0, 0)).1 = (b.getD t.2 (0, 0)).2) → ∀ s : Int,
      linearHull b ts (s, s) = (s + (ts.map fun t => t.1 * (b.getD t.2 (0, 0)).1).sum,
        s + (ts.map fun t => t.1 * (b.getD t.2 (0, 0)).1).sum)
  | [], _, s => by simp [linearHull]
  | t :: ts, hf, s => by
    have := linearHull_points ts (fun t' ht => hf t' (List.mem_cons_of_mem _ ht))
      (s + t.1 * (b.getD t.2 (0, 0)).1)
    simp only [linearHull, List.foldl_cons] at this ⊢
    rw [← hf t List.mem_cons_self, min_self, max_self, this]
    simp [add_assoc]

theorem linearHull_le (ts : List (Int × Nat)) {acc : Interval} (h : acc.1 ≤ acc.2) :
    (linearHull b ts acc).1 ≤ (linearHull b ts acc).2 := by
  induction ts generalizing acc with
  | nil => exact h
  | cons t ts ih =>
    exact ih (add_le_add h min_le_max)

theorem linearHull_sub {b' : Array Interval} :
    ∀ (ts : List (Int × Nat)), (∀ t ∈ ts, (b.getD t.2 (0, 0)).1 ≤ (b.getD t.2 (0, 0)).2 ∧
      SubInterval (b.getD t.2 (0, 0)) (b'.getD t.2 (0, 0))) →
      ∀ {acc acc' : Interval}, SubInterval acc acc' →
      SubInterval (linearHull b ts acc) (linearHull b' ts acc')
  | [], _, _, _, h => h
  | t :: ts, hb, acc, acc', h => by
    obtain ⟨hne, hs⟩ := hb t List.mem_cons_self
    -- both ends of the narrow interval lie in the wide one, so their products lie between the
    -- wide products
    obtain ⟨l1, u1⟩ := mul_between ⟨hs.1, le_trans hne hs.2⟩ t.1
    obtain ⟨l2, u2⟩ := mul_between ⟨le_trans hs.1 hne, hs.2⟩ t.1
    rw [mul_comm _ t.1, mul_comm _ t.1, mul_comm _ t.1] at l1 u1 l2 u2
    exact linearHull_sub ts (fun t' ht => hb t' (List.mem_cons_of_mem _ ht))
      ⟨add_le_add h.1 (le_min l1 l2), add_le_add h.2 (max_le u1 u2)⟩

theorem prodHull_congr {b' : Array Interval} :
    ∀ (fs : List Nat), (∀ f ∈ fs, b.getD f (0, 0) = b'.getD f (0, 0)) → ∀ acc : Interval,
      prodHull b fs acc = prodHull b' fs acc
  | [], _, _ => rfl
  | f :: fs, h, acc => by
    simp only [prodHull, List.foldl_cons] at *
    rw [h f List.mem_cons_self]
    exact prodHull_congr fs (fun g hg => h g (List.mem_cons_of_mem _ hg)) _

theorem linearHull_congr {b' : Array Interval} :
    ∀ (ts : List (Int × Nat)), (∀ t ∈ ts, b.getD t.2 (0, 0) = b'.getD t.2 (0, 0)) →
      ∀ acc : Interval, linearHull b ts acc = linearHull b' ts acc
  | [], _, _ => rfl
  | t :: ts, h, acc => by
    simp only [linearHull, List.foldl_cons] at *
    rw [h t List.mem_cons_self]
    exact linearHull_congr ts (fun t' ht => h t' (List.mem_cons_of_mem _ ht)) _

end Fold

end TileSched
