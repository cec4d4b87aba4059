import Mathlib
import TileSched.Proofs.Solver.Grows
/-! The 128-bit sums of the search. Interval ends are words, so one term of a linear sum or of
the objective is at most `2^63` times its coefficient in size, but the sums add such terms up in
128 bits before any clamp. A model whose every linear node weighs, its constant and its terms
counted at the largest word, less than `2^127` never overflows them: the search then answers or
stops at a fault of another kind. Two terms of the least word times the least word already sum to
`2^127`, and the first interval pass overflows. -/

namespace TileSched

namespace Model

/-- Every constant node and every domain value of the model is a word, as the builders'
arguments are. -/
structure Words (m : Model) : Prop where
  const : ∀ c, Node.const c ∈ m.nodes → InInterval c (I64.min, I64.max)
  domain : ∀ info ∈ m.vars, ∀ x ∈ info.domain, InInterval x (I64.min, I64.max)

def termWeight (t : Int × Nat) : Int := |t.1| * 2 ^ 63

def LinearFits (m : Model) : Prop :=
  ∀ ts c, Node.linear ts c ∈ m.nodes → |c| + (ts.map termWeight).sum < 2 ^ 127

def WordValued (pa : Array (Option Int)) : Prop :=
  ∀ v x, pa.getD v none = some x → InInterval x (I64.min, I64.max)

end Model

def NoOverflow {α : Type} (r : Except Fault α) : Prop := ∀ op, r ≠ .error (.overflow op)

def SafeTo {α : Type} (P : α → Prop) (r : Except Fault α) : Prop :=
  NoOverflow r ∧ ∀ a, r = .ok a → P a

def GuardedTerm.weight (t : GuardedTerm) : Int := |t.coeff| * 2 ^ 63

/-- The largest size of a split objective: its constant, and every free and guarded term at its
largest size. -/
def ObjectiveSplit.weight (s : ObjectiveSplit) : Int :=
  |s.constant| + (s.free.map Model.termWeight).sum +
    (s.guarded.toList.map fun ts => (ts.map GuardedTerm.weight).sum).sum

section Safe

variable {α β : Type} {P : α → Prop} {Q : β → Prop}

theorem entryAt_noOverflow (xs : Array α) (i : Nat) : NoOverflow (entryAt xs i) := by
  intro op h
  unfold entryAt at h
  split at h <;> cases h

theorem SafeTo.of_ok {x : Except Fault α} {a : α} (hx : x = .ok a) (h : P a) : SafeTo P x := by
  subst hx
  refine ⟨fun _ h' => ?_, fun _ h' => ?_⟩
  · cases h'
  · cases h'
    exact h

theorem SafeTo.pure {a : α} (h : P a) : SafeTo P (pure a) := SafeTo.of_ok rfl h

theorem SafeTo.bind {x : Except Fault β} {f : β → Except Fault α} (hx : SafeTo Q x)
    (hf : ∀ b, Q b → SafeTo P (f b)) : SafeTo P (x >>= f) := by
  refine ⟨fun op h => ?_, fun a h => ?_⟩
  · rcases bind_eq_error.1 h with h | ⟨b, hb, h⟩
    · exact hx.1 op h
    · exact (hf b (hx.2 b hb)).1 op h
  · obtain ⟨b, hb, h⟩ := bind_eq_ok.1 h
    exact (hf b (hx.2 b hb)).2 a h

theorem SafeTo.foldlM {f : α → β → Except Fault α} (I : α → Prop) :
    ∀ {xs : List β} {a : α}, I a → (∀ a b, b ∈ xs → I a → SafeTo I (f a b)) → SafeTo I (xs.foldlM f a)
  | [], _, ha, _ => SafeTo.pure ha
  | b :: xs, a, ha, hstep => by
    rw [List.foldlM_cons]
    exact (hstep a b List.mem_cons_self ha).bind fun a' ha' =>
      SafeTo.foldlM I ha' fun a'' b' hb' => hstep a'' b' (List.mem_cons_of_mem _ hb')

end Safe

section Sizes

theorem abs_le_of_word {x : Int} (h : InInterval x (I64.min, I64.max)) : |x| ≤ 2 ^ 63 := by
  have h63 : (2 : Int) ^ 63 = 9223372036854775808 := by norm_num
  simp only [InInterval, I64.min, I64.max] at h
  rw [h63, abs_le]
  omega

theorem abs_mul_word_le (c : Int) {x : Int} (h : InInterval x (I64.min, I64.max)) :
    |c * x| ≤ |c| * 2 ^ 63 := by
  rw [abs_mul]
  exact mul_le_mul_of_nonneg_left (abs_le_of_word h) (abs_nonneg c)

theorem I128.add_eq_ok_of_abs_lt {a b : Int} (h : |a + b| < 2 ^ 127) : I128.add a b = .ok (a + b) := by
  have h127 : (2 : Int) ^ 127 = 170141183460469231731687303715884105728 := by norm_num
  rw [h127, abs_lt] at h
  have hfits : I128.fits (a + b) = true := by
    simp only [I128.fits, Bool.and_eq_true, decide_eq_true_eq]
    omega
  simp [I128.add, hfits]

theorem foldlM_bounded {α : Type} {f : Int → α → Except Fault Int} (w : α → Int) :
    ∀ {xs : List α} {t : Int}, (∀ a ∈ xs, 0 ≤ w a) → |t| + (xs.map w).sum < 2 ^ 127 →
      (∀ t a, a ∈ xs → |t| + w a < 2 ^ 127 → ∃ t', f t a = .ok t' ∧ |t'| ≤ |t| + w a) →
      ∃ r, xs.foldlM f t = .ok r ∧ |r| ≤ |t| + (xs.map w).sum
  | [], t, _, _, _ => ⟨t, rfl, by simp⟩
  | a :: xs, t, hw, hfit, hstep => by
    have hrest : 0 ≤ (xs.map w).sum :=
      List.sum_nonneg fun x hx => by
        obtain ⟨y, hy, rfl⟩ := List.mem_map.1 hx
        exact hw y (List.mem_cons_of_mem _ hy)
    simp only [List.map_cons, List.sum_cons] at hfit ⊢
    obtain ⟨t', ht', hle⟩ := hstep t a List.mem_cons_self (by linarith)
    obtain ⟨r, hr, hrle⟩ := foldlM_bounded w (fun x hx => hw x (List.mem_cons_of_mem _ hx))
      (by linarith) fun t x hx => hstep t x (List.mem_cons_of_mem _ hx)
    refine ⟨r, ?_, by linarith⟩
    simp only [List.foldlM_cons, ht']
    exact hr

theorem I128.sum_bounded {xs : List Int} {W : Int} (hxs : (xs.map abs).sum ≤ W) (hW : W < 2 ^ 127) :
    ∃ r, I128.sum xs = .ok r ∧ |r| ≤ W := by
  obtain ⟨r, hr, hle⟩ := @foldlM_bounded Int I128.add abs xs 0
    (fun a _ => abs_nonneg a) (by simp only [abs_zero, zero_add]; linarith)
    fun t a _ h => ⟨t + a, I128.add_eq_ok_of_abs_lt (lt_of_le_of_lt (abs_add_le t a) h), abs_add_le t a⟩
  exact ⟨r, hr, by simp only [abs_zero, zero_add] at hle; linarith⟩

theorem abs_foldl_min_le {W : Int} : ∀ {cs : List Int} {c : Int}, |c| ≤ W → (∀ x ∈ cs, |x| ≤ W) →
    |cs.foldl min c| ≤ W
  | [], _, hc, _ => hc
  | d :: cs, c, hc, hcs => by
    have hd := hcs d List.mem_cons_self
    rw [abs_le] at hc hd
    rw [List.foldl_cons]
    exact abs_foldl_min_le (abs_le.2 ⟨le_min hc.1 hd.1, le_trans (min_le_left c d) hc.2⟩)
      fun x hx => hcs x (List.mem_cons_of_mem _ hx)

end Sizes

namespace Model

variable {m : Model}

section Intervals

theorem word_one : InInterval 1 (I64.min, I64.max) := by
  simp [InInterval, I64.min, I64.max]

theorem wordInterval_one : WordInterval (1, 1) := ⟨word_one, word_one⟩

theorem mulInterval_word (a b : Interval) : WordInterval (mulInterval a b) :=
  ⟨clamp_word _, clamp_word _⟩

theorem foldl_mulInterval_word (F : Nat → Interval) :
    ∀ (fs : List Nat) {acc : Interval}, WordInterval acc →
      WordInterval (fs.foldl (fun acc f => mulInterval acc (F f)) acc)
  | [], _, h => h
  | _ :: fs, _, _ => foldl_mulInterval_word F fs (mulInterval_word _ _)

theorem word_getD_push {out : Array Interval} (hout : ∀ e, WordInterval (out.getD e (0, 0)))
    {iv : Interval} (hiv : WordInterval iv) (e : Nat) : WordInterval ((out.push iv).getD e (0, 0)) := by
  simp only [Array.getD_eq_getD_getElem?, Array.getElem?_push]
  split
  · simpa using hiv
  · simpa [Array.getD_eq_getD_getElem?] using hout e

theorem word_domain_getD (hw : m.Words) {v : Nat} :
    ∀ x ∈ (m.vars.getD v default).domain, InInterval x (I64.min, I64.max) := by
  intro x hx
  by_cases hv : v < m.vars.size
  · rw [Array.getD_eq_getD_getElem?, Array.getElem?_eq_getElem hv, Option.getD_some] at hx
    exact hw.domain _ (Array.getElem_mem hv) x hx
  · have hnil : (default : Var).domain = [] := rfl
    simp [Array.getD_eq_getD_getElem?, Array.getElem?_eq_none (Nat.le_of_not_lt hv), hnil] at hx

theorem word_ends {d : List Int} (hd : ∀ x ∈ d, InInterval x (I64.min, I64.max)) :
    WordInterval (d.headD 0, d.getLastD 0) := by
  cases d with
  | nil => exact ⟨WordConst.word_zero, WordConst.word_zero⟩
  | cons a l =>
    refine ⟨hd a List.mem_cons_self, ?_⟩
    rw [List.getLastD_eq_getLast?, List.getLast?_eq_some_getLast (List.cons_ne_nil a l), Option.getD_some]
    exact hd _ (List.getLast_mem _)

theorem linearStep_ok {out : Array Interval} (hout : ∀ e, WordInterval (out.getD e (0, 0)))
    {acc : Int × Int} {t : Int × Nat} {A : Int} (h₁ : |acc.1| ≤ A) (h₂ : |acc.2| ≤ A)
    (hfit : A + termWeight t < 2 ^ 127) :
    ∃ acc', linearStep out acc t = .ok acc' ∧ |acc'.1| ≤ A + termWeight t ∧ |acc'.2| ≤ A + termWeight t := by
  rcases hiv : out.getD t.2 (0, 0) with ⟨lo, hi⟩
  have hw := hout t.2
  rw [hiv] at hw
  have ha : |t.1 * lo| ≤ termWeight t := abs_mul_word_le t.1 hw.1
  have hb : |t.1 * hi| ≤ termWeight t := abs_mul_word_le t.1 hw.2
  have hmin : |min (t.1 * lo) (t.1 * hi)| ≤ termWeight t := by
    rcases min_choice (t.1 * lo) (t.1 * hi) with h | h <;> rw [h] <;> assumption
  have hmax : |max (t.1 * lo) (t.1 * hi)| ≤ termWeight t := by
    rcases max_choice (t.1 * lo) (t.1 * hi) with h | h <;> rw [h] <;> assumption
  have hs₁ : |acc.1 + min (t.1 * lo) (t.1 * hi)| ≤ A + termWeight t :=
    le_trans (abs_add_le _ _) (by linarith)
  have hs₂ : |acc.2 + max (t.1 * lo) (t.1 * hi)| ≤ A + termWeight t :=
    le_trans (abs_add_le _ _) (by linarith)
  refine ⟨(acc.1 + min (t.1 * lo) (t.1 * hi), acc.2 + max (t.1 * lo) (t.1 * hi)), ?_, hs₁, hs₂⟩
  unfold linearStep
  rw [hiv]
  dsimp only
  rw [I128.add_eq_ok_of_abs_lt (lt_of_le_of_lt hs₁ hfit), I128.add_eq_ok_of_abs_lt (lt_of_le_of_lt hs₂ hfit)]
  rfl

theorem foldlM_linearStep_ok {out : Array Interval} (hout : ∀ e, WordInterval (out.getD e (0, 0))) :
    ∀ (ts : List (Int × Nat)) (acc : Int × Int) (A : Int), |acc.1| ≤ A → |acc.2| ≤ A →
      A + (ts.map termWeight).sum < 2 ^ 127 → ∃ r, ts.foldlM (linearStep out) acc = .ok r
  | [], acc, _, _, _, _ => ⟨acc, rfl⟩
  | t :: ts, acc, A, h₁, h₂, hfit => by
    have hrest : 0 ≤ (ts.map termWeight).sum :=
      List.sum_nonneg fun x hx => by
        obtain ⟨y, -, rfl⟩ := List.mem_map.1 hx
        exact mul_nonneg (abs_nonneg _) (by norm_num)
    simp only [List.map_cons, List.sum_cons] at hfit
    obtain ⟨acc', hstep, h₁', h₂'⟩ := linearStep_ok hout h₁ h₂ (by linarith)
    obtain ⟨r, hr⟩ := foldlM_linearStep_ok hout ts acc' (A + termWeight t) h₁' h₂' (by linarith)
    exact ⟨r, by simp only [List.foldlM_cons, hstep]; exact hr⟩

theorem nodeInterval_ok (hw : m.Words) (hfit : m.LinearFits) {pa : Array (Option Int)}
    (hpa : WordValued pa) {out : Array Interval} (hout : ∀ e, WordInterval (out.getD e (0, 0)))
    {n : Node} (hn : n ∈ m.nodes) : ∃ iv, m.nodeInterval pa out n = .ok iv ∧ WordInterval iv := by
  cases n with
  | const c => exact ⟨(c, c), rfl, hw.const c hn, hw.const c hn⟩
  | var v =>
    refine ⟨_, nodeInterval_var out v, ?_⟩
    unfold varInterval
    cases hv : pa.getD v none with
    | some x => exact ⟨hpa v x hv, hpa v x hv⟩
    | none => exact word_ends (word_domain_getD hw)
  | linear ts c =>
    obtain ⟨⟨lo, hi⟩, hr⟩ := foldlM_linearStep_ok hout ts (c, c) |c| le_rfl le_rfl (hfit ts c hn)
    exact exists_bind_ok hr ⟨_, rfl, clamp_word lo, clamp_word hi⟩
  | product fs => exact ⟨_, rfl, foldl_mulInterval_word _ fs wordInterval_one⟩

theorem bounds_ok (hw : m.Words) (hfit : m.LinearFits) {pa : Array (Option Int)} (hpa : WordValued pa) :
    ∃ b, m.bounds pa = .ok b ∧ ∀ e, WordInterval (b.getD e (0, 0)) := by
  unfold bounds
  rw [← Array.foldlM_toList]
  -- each pushed interval has word ends, so every array the pass builds has
  refine foldlM_exists_ok (fun out : Array Interval => ∀ e, WordInterval (out.getD e (0, 0)))
    (fun _ => ⟨WordConst.word_zero, WordConst.word_zero⟩) fun out n hn hout => ?_
  obtain ⟨iv, hiv, hword⟩ := nodeInterval_ok hw hfit hpa hout (Array.mem_toList_iff.1 hn)
  exact exists_bind_ok hiv ⟨_, rfl, word_getD_push hout hword⟩

end Intervals

section Checks

theorem entryAt_safe {α : Type} (xs : Array α) (i : Nat) : SafeTo (fun _ => True) (entryAt xs i) :=
  ⟨entryAt_noOverflow xs i, fun _ _ => trivial⟩

theorem consistent_safe (b : Array Interval) : SafeTo (fun _ => True) (m.consistent b) := by
  show SafeTo _ (consistent.go (fun e => entryAt b e) m.constraints.toList)
  induction m.constraints.toList with
  | nil => exact SafeTo.pure trivial
  | cons c cs ih =>
    cases c with
    | equal x y =>
      rw [consistent.go.eq_2]
      refine (entryAt_safe b x).bind fun ix _ => (entryAt_safe b y).bind fun iy _ => ?_
      obtain ⟨alo, ahi⟩ := ix
      obtain ⟨blo, bhi⟩ := iy
      dsimp only
      split
      · exact ih
      · exact SafeTo.pure trivial
    | lessEqual x y =>
      rw [consistent.go.eq_3]
      refine (entryAt_safe b x).bind fun ix _ => (entryAt_safe b y).bind fun iy _ => ?_
      obtain ⟨alo, ahi⟩ := ix
      obtain ⟨blo, bhi⟩ := iy
      dsimp only
      split
      · exact ih
      · exact SafeTo.pure trivial

theorem guardedOf_coeff {coeff : Int} {n : Node} {gt : GuardedTerm} (h : m.guardedOf coeff n = some gt) :
    gt.coeff = coeff := by
  cases n with
  | product fs =>
    simp only [guardedOf] at h
    split at h
    · obtain ⟨_, -, rfl⟩ := Option.map_eq_some_iff.1 h
      rfl
    · cases h
  | var v =>
    simp only [guardedOf] at h
    split at h
    · obtain ⟨_, -, rfl⟩ := Option.map_eq_some_iff.1 h
      rfl
    · cases h
  | const c => cases h
  | linear ts c => cases h

theorem splitStep_safe (s : ObjectiveSplit) (t : Int × Nat) :
    SafeTo (fun s' => s'.weight ≤ s.weight + termWeight t) (m.splitStep s t) := by
  obtain ⟨coeff, term⟩ := t
  refine (entryAt_safe m.nodes term).bind fun n _ => ?_
  cases hg : m.guardedOf coeff n with
  | none =>
    refine SafeTo.pure (le_of_eq ?_)
    simp only [ObjectiveSplit.weight, List.map_append, List.map_cons, List.map_nil, List.sum_append,
      List.sum_cons, List.sum_nil]
    ring
  | some gt =>
    refine SafeTo.pure ?_
    have hw : gt.weight = termWeight (coeff, term) := by
      simp only [GuardedTerm.weight, termWeight, guardedOf_coeff hg]
    simp only [ObjectiveSplit.weight, Array.toList_modify]
    by_cases hlt : (m.vars.getD gt.var default).group.getD 0 < s.guarded.toList.length
    · rw [sum_map_modify_append _ gt _ _ hlt, hw]
      linarith
    · rw [List.modify_eq_self (Nat.le_of_not_lt hlt)]
      have : 0 ≤ termWeight (coeff, term) := mul_nonneg (abs_nonneg _) (by norm_num)
      linarith

theorem splitObjective_safe (objective : Nat) :
    SafeTo (fun s => s.weight ≤ |(m.objectiveTerms objective).1| +
      ((m.objectiveTerms objective).2.map termWeight).sum) (m.splitObjective objective) := by
  rw [splitObjective_eq]
  -- the fold's weight grows by at most each term's size
  suffices h : ∀ (ts : List (Int × Nat)) (s₀ : ObjectiveSplit),
      SafeTo (fun s => s.weight ≤ s₀.weight + (ts.map termWeight).sum) (ts.foldlM m.splitStep s₀) by
    refine (h _ _).imp id fun hs s h' => (hs s h').trans (le_of_eq ?_)
    simp [ObjectiveSplit.weight]
  intro ts
  induction ts with
  | nil => exact fun s₀ => SafeTo.pure (by simp)
  | cons t ts ih =>
    intro s₀
    rw [List.foldlM_cons]
    refine (splitStep_safe s₀ t).bind fun s₁ hs₁ => ?_
    refine (ih s₁).imp id fun hs s h' => ?_
    have := hs s h'
    simp only [List.map_cons, List.sum_cons]
    linarith

end Checks

section Bound

variable {s : ObjectiveSplit} {b : Array Interval}

theorem weight_nonneg (t : GuardedTerm) : 0 ≤ t.weight := mul_nonneg (abs_nonneg _) (by norm_num)

theorem sum_weight_nonneg (ts : List GuardedTerm) : 0 ≤ (ts.map GuardedTerm.weight).sum :=
  List.sum_nonneg fun x hx => by
    obtain ⟨t, -, rfl⟩ := List.mem_map.1 hx
    exact weight_nonneg t

theorem abs_guardedCost_le (t : GuardedTerm) :
    |guardedCost t b| ≤ t.weight :=
  abs_mul_word_le t.coeff (foldl_mulInterval_word (fun f => b.getD f (0, 0)) t.rest wordInterval_one).1

theorem memberCost_ok (g v : Nat)
    (hg : ((s.guarded.getD g []).map GuardedTerm.weight).sum < 2 ^ 127) :
    ∃ c, memberCost s g v b = .ok c ∧ |c| ≤ ((s.guarded.getD g []).map GuardedTerm.weight).sum := by
  refine I128.sum_bounded ?_ hg
  rw [List.map_map]
  calc (((s.guarded.getD g []).filter (·.var == v)).map (abs ∘ (guardedCost · b))).sum
      ≤ (((s.guarded.getD g []).filter (·.var == v)).map GuardedTerm.weight).sum :=
        List.sum_le_sum fun t _ => abs_guardedCost_le t
    _ ≤ ((s.guarded.getD g []).map GuardedTerm.weight).sum :=
        List.Sublist.sum_le_sum (List.filter_sublist.map _) fun x hx => by
          obtain ⟨t, -, rfl⟩ := List.mem_map.1 hx
          exact weight_nonneg t

theorem group_weight_le (g : Nat) :
    ((s.guarded.getD g []).map GuardedTerm.weight).sum ≤
      (s.guarded.toList.map fun ts => (ts.map GuardedTerm.weight).sum).sum := by
  have hnonneg : ∀ x ∈ s.guarded.toList.map (fun ts => (ts.map GuardedTerm.weight).sum), 0 ≤ x := by
    intro x hx
    obtain ⟨ts, -, rfl⟩ := List.mem_map.1 hx
    exact sum_weight_nonneg ts
  by_cases hg : g < s.guarded.size
  · rw [Array.getD_eq_getD_getElem?, Array.getElem?_eq_getElem hg, Option.getD_some]
    exact List.single_le_sum hnonneg _ (List.mem_map.2 ⟨_, Array.getElem_mem_toList hg, rfl⟩)
  · rw [Array.getD_eq_getD_getElem?, Array.getElem?_eq_none (Nat.le_of_not_lt hg)]
    exact List.sum_nonneg hnonneg

theorem objectiveBound_ok (hb : ∀ e, WordInterval (b.getD e (0, 0))) (hsize : s.guarded.size = m.groups.size)
    (hs : s.weight < 2 ^ 127) (pa : Array (Option Int)) :
    ∃ r, m.objectiveBound s b pa = .ok r ∧ |r| ≤ s.weight := by
  -- the weight of group `g`, read through the groups' indices
  let G : List Nat × Nat → Int := fun p => ((s.guarded.getD p.2 []).map GuardedTerm.weight).sum
  have hG : ((m.groups.toList.zipIdx).map G).sum =
      (s.guarded.toList.map fun ts => (ts.map GuardedTerm.weight).sum).sum := by
    rw [← sum_zipIdx_getD (fun ts => (ts.map GuardedTerm.weight).sum) [] m.groups.toList s.guarded.toList
      (by simp [hsize])]
    refine congrArg List.sum (List.map_congr_left fun p _ => ?_)
    simp only [G, Array.getD_eq_getD_getElem?, List.getD_eq_getElem?_getD, Array.getElem?_toList]
  have hfree_nonneg : 0 ≤ (s.free.map termWeight).sum :=
    List.sum_nonneg fun x hx => by
      obtain ⟨t, -, rfl⟩ := List.mem_map.1 hx
      exact mul_nonneg (abs_nonneg _) (by norm_num)
  have hguarded_nonneg : 0 ≤ (s.guarded.toList.map fun ts => (ts.map GuardedTerm.weight).sum).sum :=
    List.sum_nonneg fun x hx => by
      obtain ⟨ts, -, rfl⟩ := List.mem_map.1 hx
      exact sum_weight_nonneg ts
  -- the free terms, each at most its own size
  have hfree_abs : ((s.free.map fun t => min (t.1 * (b.getD t.2 (0, 0)).1) (t.1 * (b.getD t.2 (0, 0)).2)).map
      abs).sum ≤ (s.free.map termWeight).sum := by
    rw [List.map_map]
    refine List.sum_le_sum fun t _ => ?_
    obtain ⟨hlo, hhi⟩ := hb t.2
    have hl := abs_mul_word_le t.1 hlo
    have hh := abs_mul_word_le t.1 hhi
    show |min _ _| ≤ termWeight t
    rcases min_choice (t.1 * (b.getD t.2 (0, 0)).1) (t.1 * (b.getD t.2 (0, 0)).2) with h | h <;>
      rw [h] <;> assumption
  obtain ⟨free, hfree, hfree_le⟩ := I128.sum_bounded hfree_abs
    (by unfold ObjectiveSplit.weight at hs; linarith [abs_nonneg s.constant])
  unfold objectiveBound
  refine exists_bind_ok hfree ?_
  have htotal : |s.constant + free| ≤ |s.constant| + (s.free.map termWeight).sum :=
    (abs_add_le _ _).trans (by linarith)
  refine exists_bind_ok (I128.add_eq_ok_of_abs_lt (htotal.trans_lt (by unfold ObjectiveSplit.weight at hs; linarith))) ?_
  -- then each group adds at most its own guarded terms' size
  refine (foldlM_bounded G (fun p _ => sum_weight_nonneg _) ?_ ?_).imp fun r hr => ⟨hr.1, ?_⟩
  · rw [hG]
    unfold ObjectiveSplit.weight at hs
    linarith
  · rintro t ⟨members, g⟩ - hlt
    have hg : G (members, g) < 2 ^ 127 := by
      have := abs_nonneg t
      linarith
    dsimp only
    split
    · exact ⟨t, rfl, le_add_of_nonneg_right (sum_weight_nonneg _)⟩
    · have hadd : ∀ c : Int, |c| ≤ G (members, g) → ∃ t', I128.add t c = .ok t' ∧ |t'| ≤ |t| + G (members, g) :=
        fun c hc => ⟨t + c, I128.add_eq_ok_of_abs_lt ((abs_add_le t c).trans_lt (by linarith)),
          (abs_add_le t c).trans (by linarith)⟩
      split
      · obtain ⟨c, hc, hcle⟩ := memberCost_ok g _ hg
        exact exists_bind_ok hc (hadd c hcle)
      · obtain ⟨costs, hcosts, hcle⟩ := mapM_exists_ok (fun c => |c| ≤ G (members, g))
          fun (v : Nat) (_ : v ∈ members.filter fun v => pa.getD v none != some 0) => memberCost_ok g v hg
        rw [hcosts]
        simp only [bind, Except.bind, pure, Except.pure]
        split
        · exact hadd 0 (by simpa using sum_weight_nonneg _)
        · rename_i c cs
          exact hadd _ (abs_foldl_min_le (hcle c List.mem_cons_self)
            fun x hx => hcle x (List.mem_cons_of_mem _ hx))
  · rw [hG] at hr
    have := hr.2
    unfold ObjectiveSplit.weight
    linarith

end Bound

section Search

variable {limit objective : Nat} {split : ObjectiveSplit}

theorem WordValued.set! {pa : Array (Option Int)} (h : WordValued pa) (v : Nat) {x : Option Int}
    (hx : ∀ y, x = some y → InInterval y (I64.min, I64.max)) : WordValued (pa.set! v x) := by
  intro u y hy
  rw [getD_set!] at hy
  split at hy
  · exact hx y hy
  · exact h u y hy

theorem WordValued.foldl_set {pa : Array (Option Int)} (h : WordValued pa) (F : Nat → Option Int)
    (hF : ∀ u y, F u = some y → InInterval y (I64.min, I64.max)) (ms : List Nat) :
    WordValued (ms.foldl (fun a v => a.set! v (F v)) pa) := by
  intro u y hy
  rw [getD_foldl_set] at hy
  split at hy
  · exact hF u y hy
  · exact h u y hy

theorem wordValued_replicate (n : Nat) : WordValued (Array.replicate n (none : Option Int)) := by
  intro u y hy
  rw [Array.getD_eq_getD_getElem?, Array.getElem?_replicate] at hy
  split at hy <;> cases hy

theorem search_safe_of_expand (hw : m.Words) (hfit : m.LinearFits)
    (hsize : split.guarded.size = m.groups.size) (hs : split.weight < 2 ^ 127) {ds : List Decision}
    (hexp : ∀ (st : SearchState) (b : Array Interval), WordValued st.assignment →
      (∀ e, WordInterval (b.getD e (0, 0))) →
      SafeTo (WordValued ·.assignment) (m.expand limit objective split ds st b))
    (st : SearchState) (hst : WordValued st.assignment) :
    SafeTo (WordValued ·.assignment) (m.search limit objective split ds st) := by
  rw [search_eq]
  split
  · exact SafeTo.pure hst
  split
  · exact SafeTo.pure hst
  -- a counted node: the interval pass, the constraint check and the bound, then the expansion
  obtain ⟨b, hb, hbw⟩ := bounds_ok hw hfit hst
  unfold visit
  refine (SafeTo.of_ok (P := fun b : Array Interval => ∀ e, WordInterval (b.getD e (0, 0))) hb hbw).bind fun b hbw => (consistent_safe b).bind fun c _ => ?_
  split
  · exact SafeTo.pure hst
  obtain ⟨bound, hbound, -⟩ := objectiveBound_ok (m := m) hbw hsize hs st.assignment
  refine (SafeTo.of_ok (P := fun _ => True) hbound trivial).bind fun bound _ => ?_
  split
  · split
    · exact SafeTo.pure hst
    · exact hexp _ _ hst hbw
  · exact hexp _ _ hst hbw

theorem expand_var_safe (hw : m.Words) {v : Nat} {rest : List Decision}
    (ih : ∀ st : SearchState, WordValued st.assignment →
      SafeTo (WordValued ·.assignment) (m.search limit objective split rest st))
    (st : SearchState) (b : Array Interval) (hst : WordValued st.assignment) :
    SafeTo (WordValued ·.assignment) (m.expand limit objective split (.var v :: rest) st b) := by
  -- the values tried are the domain, in one order or the other
  have hvalues : ∀ x ∈ (if (m.vars.getD v default).isBool then (m.vars.getD v default).domain
      else (m.vars.getD v default).domain.reverse), InInterval x (I64.min, I64.max) := by
    intro x hx
    split at hx
    · exact word_domain_getD hw x hx
    · exact word_domain_getD hw x (List.mem_reverse.1 hx)
  simp only [expand]
  refine (SafeTo.foldlM (WordValued ·.assignment) hst fun st' x hx hst' => ?_).bind fun st' hst' =>
    SafeTo.pure (hst'.set! v fun _ h => by cases h)
  unfold tryValue
  split
  · exact SafeTo.pure hst'
  · exact ih _ (hst'.set! v fun y hy => by cases hy; exact hvalues x hx)

theorem expand_group_safe (hs : split.weight < 2 ^ 127) {g : Nat} {rest : List Decision}
    (ih : ∀ st : SearchState, WordValued st.assignment →
      SafeTo (WordValued ·.assignment) (m.search limit objective split rest st))
    (st : SearchState) (b : Array Interval) (hst : WordValued st.assignment) :
    SafeTo (WordValued ·.assignment) (m.expand limit objective split (.group g :: rest) st b) := by
  have hg : ((split.guarded.getD g []).map GuardedTerm.weight).sum < 2 ^ 127 := by
    have hfree : 0 ≤ (split.free.map termWeight).sum :=
      List.sum_nonneg fun x hx => by
        obtain ⟨t, -, rfl⟩ := List.mem_map.1 hx
        exact mul_nonneg (abs_nonneg _) (by norm_num)
    have := group_weight_le (s := split) g
    unfold ObjectiveSplit.weight at hs
    linarith [abs_nonneg split.constant]
  simp only [expand]
  obtain ⟨costs, hcosts, -⟩ := mapM_exists_ok (fun _ => True) fun (v : Nat) (_ : v ∈ m.groups.getD g []) => by
    obtain ⟨c, hc, -⟩ := memberCost_ok (b := b) g v hg
    exact exists_bind_ok hc ⟨(c, v), rfl, trivial⟩
  refine (SafeTo.of_ok (P := fun _ => True) hcosts trivial).bind fun costs _ => ?_
  refine (SafeTo.foldlM (WordValued ·.assignment) hst fun st' p _ hst' => ?_).bind fun st' hst' =>
    SafeTo.pure (hst'.foldl_set (fun _ => none) (fun _ _ h => by cases h) _)
  obtain ⟨c, chosen⟩ := p
  dsimp only [tryMember]
  split
  · exact SafeTo.pure hst'
  · refine ih _ (hst'.foldl_set _ (fun u y hy => ?_) _)
    obtain rfl := Option.some.inj hy
    split
    · exact word_one
    · exact WordConst.word_zero

theorem search_safe (hw : m.Words) (hfit : m.LinearFits) (hsize : split.guarded.size = m.groups.size)
    (hs : split.weight < 2 ^ 127) : ∀ (ds : List Decision) (st : SearchState), WordValued st.assignment →
      SafeTo (WordValued ·.assignment) (m.search limit objective split ds st)
  | [] => search_safe_of_expand hw hfit hsize hs fun st _ hst _ => by
      simp only [expand]
      exact SafeTo.pure hst
  | .var _ :: rest => search_safe_of_expand hw hfit hsize hs fun st b hst _ =>
      expand_var_safe hw (search_safe hw hfit hsize hs rest) st b hst
  | .group _ :: rest => search_safe_of_expand hw hfit hsize hs fun st b hst _ =>
      expand_group_safe hs (search_safe hw hfit hsize hs rest) st b hst

end Search

section Minimize

variable {objective : Nat} {budget : Budget}

theorem forwardReference?_ne_overflow (op : ArithOp) : m.forwardReference? ≠ some (.overflow op) := by
  intro h
  obtain ⟨⟨n, i⟩, -, hn⟩ := List.exists_of_findSome?_eq_some h
  dsimp only at hn
  split at hn
  · obtain ⟨t, -, ht⟩ := Option.map_eq_some_iff.1 hn
    cases ht
  · cases hn

theorem objectiveTerms_fits (hfit : m.LinearFits) (objective : Nat) :
    |(m.objectiveTerms objective).1| + ((m.objectiveTerms objective).2.map termWeight).sum < 2 ^ 127 := by
  unfold objectiveTerms
  split
  · rename_i ts c hobj
    have hlt : objective < m.nodes.size := by
      by_contra hge
      rw [Array.getD_eq_getD_getElem?, Array.getElem?_eq_none (Nat.le_of_not_lt hge), Option.getD_none] at hobj
      cases hobj
    rw [Array.getD_eq_getD_getElem?, Array.getElem?_eq_getElem hlt, Option.getD_some] at hobj
    exact hfit ts c (hobj ▸ Array.getElem_mem hlt)
  · norm_num [termWeight]

theorem explore_noOverflow (hb : m.Built) (hw : m.Words) (hfit : m.LinearFits) (op : ArithOp) :
    m.explore objective budget ≠ .error (.fault (.overflow op)) := by
  intro h
  dsimp only [explore] at h
  split at h
  · rcases bind_eq_error.1 h with h | ⟨_, h, -⟩ <;> cases h
  rcases bind_eq_error.1 h with h | ⟨split, hsplit, h⟩
  · obtain ⟨f, hf, hfe⟩ := mapError_eq_error.1 h
    cases hfe
    exact (splitObjective_safe objective).1 op hf
  obtain ⟨f, hf, hfe⟩ := mapError_eq_error.1 h
  cases hfe
  -- the split is light enough and has one list of guarded terms per group
  replace hsplit := mapError_eq_ok.1 hsplit
  have hsize := (splitObjective_spec hb.wellFormed hsplit).1.size
  have hs : split.weight < 2 ^ 127 :=
    lt_of_le_of_lt ((splitObjective_safe objective).2 split hsplit) (objectiveTerms_fits hfit objective)
  have hsearch : ∀ op, m.search budget.effectiveNodeLimit objective split m.decisions m.searchStart ≠
      .error (.overflow op) :=
    (search_safe hw hfit hsize hs m.decisions m.searchStart (wordValued_replicate m.vars.size)).1
  have hsearch := hsearch op
  -- past the check for forward references the search itself runs
  split at hf
  · split at hf
    · rcases bind_eq_error.1 hf with hf | ⟨_, hf, -⟩
      · cases hf
        exact forwardReference?_ne_overflow op ‹_›
      · cases hf
    · exact hsearch hf
  · exact hsearch hf

/-- On a built model with word constants and domains, whose every linear node weighs less than
`2^127` (its constant and each coefficient times `2^63`), `minimize` never stops at an overflow of
its 128-bit sums: it answers, or fails on an unknown objective, a fault of another kind, or with
no solution. -/
theorem minimize_never_overflows (hb : m.Built) (hw : m.Words) (hfit : m.LinearFits) (objective : Nat)
    (budget : Budget) (op : ArithOp) : m.minimize objective budget ≠ .error (.fault (.overflow op)) := by
  intro h
  rcases minimize_eq_error h with h | ⟨st, -, -, he⟩
  · exact explore_noOverflow hb hw hfit op h
  · split at he <;> cases he

theorem Words.of_floor {ts : List (Int × Nat)} (hn : m.nodes = #[.var 0, .linear ts 0])
    (hv : m.vars = #[⟨"x", 0, [I64.min], false, none⟩]) : m.Words := by
  refine ⟨fun c hc => ?_, fun info hinfo x hx => ?_⟩
  · simp [hn] at hc
  · simp only [hv, List.mem_toArray, List.mem_singleton] at hinfo
    subst hinfo
    simp only [List.mem_singleton] at hx
    subst hx
    decide

def floorVar : Model := (({} : Model).newVar "x" [I64.min] false).1

def floorTerm : Model := (floorVar.linear [(I64.min, 0)] 0).1

theorem floorTerm_built : floorTerm.Built := .linear _ _ (.newInt "x" [I64.min] .empty rfl)

theorem floorTerm_words : floorTerm.Words := Words.of_floor (by cbv) (by cbv)

theorem floorTerm_fits : floorTerm.LinearFits := by
  have hn : floorTerm.nodes = #[.var 0, .linear [(I64.min, 0)] 0] := by cbv
  intro ts c h
  simp only [hn, List.mem_toArray, List.mem_cons, reduceCtorEq, Node.linear.injEq, List.mem_nil_iff,
    or_false, false_or] at h
  obtain ⟨rfl, rfl⟩ := h
  norm_num [termWeight, I64.min]

theorem minimize_floorTerm_never_overflows :
    floorTerm.Built ∧ floorTerm.Words ∧ floorTerm.LinearFits ∧
      ∀ op, floorTerm.minimize 1 {} ≠ .error (.fault (.overflow op)) :=
  ⟨floorTerm_built, floorTerm_words, floorTerm_fits,
    minimize_never_overflows floorTerm_built floorTerm_words floorTerm_fits 1 {}⟩

def doubledFloor : Model := (floorVar.linear [(I64.min, 0), (I64.min, 0)] 0).1

theorem doubledFloor_built : doubledFloor.Built := .linear _ _ (.newInt "x" [I64.min] .empty rfl)

theorem doubledFloor_words : doubledFloor.Words := Words.of_floor (by cbv) (by cbv)

/-- A built model of word constants and domains whose first interval pass overflows: the two
terms at the least word times the least word sum to `2^127`. -/
theorem minimize_doubledFloor_overflows :
    doubledFloor.Built ∧ doubledFloor.Words ∧ doubledFloor.minimize 1 {} = .error (.fault (.overflow .add)) :=
  ⟨doubledFloor_built, doubledFloor_words, by cbv⟩

end Minimize

end Model

end TileSched
