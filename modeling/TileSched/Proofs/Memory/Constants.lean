import Mathlib
import TileSched.Memory.Persistent
import TileSched.Proofs.Results
/-! Read-only constants in outer memory. A run over a module lays out, per module kind, the
distinct constants of the functions it schedules one after another from zero, in order of first
occurrence, and gives every constant of those functions the range of its content; a function
lists as its own the constants no function before it had. Functions scheduled before the run are
left as they are, and their constants are not laid out again: a run starts from an empty space,
so the constants of a function the first run reached but did not mark scheduled are laid out
afresh by the next run, over the ranges of functions it skips. -/

namespace TileSched

/-! Association lists keyed by kind. -/

section Keys

variable {α : Type}

theorem PersistentSpace.lookup_setKey_self (k : String) (v : α) :
    ∀ l : List (String × α), (PersistentSpace.setKey k v l).lookup k = some v
  | [] => by simp [PersistentSpace.setKey]
  | (k', v') :: l => by
    unfold PersistentSpace.setKey
    split
    · simp [List.lookup]
    · rename_i hne
      have hne' : (k == k') = false := by simpa using hne
      simp [List.lookup, hne', lookup_setKey_self k v l]

theorem PersistentSpace.lookup_setKey_ne {k k' : String} (h : k' ≠ k) (v : α) :
    ∀ l : List (String × α), (PersistentSpace.setKey k v l).lookup k' = l.lookup k'
  | [] => by
    have h' : (k' == k) = false := by simpa using h
    simp [PersistentSpace.setKey, List.lookup, h']
  | (k'', v') :: l => by
    unfold PersistentSpace.setKey
    split
    · rename_i hk
      subst hk
      have h' : (k' == k) = false := by simpa using h
      simp [List.lookup, h']
    · simp only [List.lookup]
      split
      · rfl
      · exact lookup_setKey_ne h v l

end Keys

/-! Constants laid out one after another. -/

def bytesOf (cs : List ConstTensor) : Nat := (cs.map (·.bytes.length)).sum

def layoutFrom : Nat → List ConstTensor → List (ConstTensor × ByteRange)
  | _, [] => []
  | n, c :: cs => (c, ⟨n, n + c.bytes.length⟩) :: layoutFrom (n + c.bytes.length) cs

section Layout

@[simp] theorem bytesOf_nil : bytesOf [] = 0 := rfl

@[simp] theorem bytesOf_append (cs ds : List ConstTensor) : bytesOf (cs ++ ds) = bytesOf cs + bytesOf ds := by
  simp [bytesOf]

@[simp] theorem bytesOf_cons (c : ConstTensor) (cs : List ConstTensor) :
    bytesOf (c :: cs) = c.bytes.length + bytesOf cs := by
  simp [bytesOf]

theorem lookup_cons_ite {α β : Type} [DecidableEq α] (a k : α) (b : β) (l : List (α × β)) :
    ((k, b) :: l).lookup a = if a = k then some b else l.lookup a := by
  by_cases h : a = k
  · subst h
    simp
  · have h' : (a == k) = false := by simpa using h
    simp [List.lookup_cons, h', h]

theorem layoutFrom_append :
    ∀ (cs ds : List ConstTensor) (n : Nat), layoutFrom n (cs ++ ds) = layoutFrom n cs ++ layoutFrom (n + bytesOf cs) ds
  | [], ds, n => by simp [layoutFrom]
  | d :: cs, ds, n => by
    simp only [List.cons_append, layoutFrom, layoutFrom_append cs ds, bytesOf_cons, List.cons_append, Nat.add_assoc]

theorem lookup_layoutFrom_eq_none {c : ConstTensor} :
    ∀ {cs : List ConstTensor} {n : Nat}, (layoutFrom n cs).lookup c = none ↔ c ∉ cs
  | [], _ => by simp [layoutFrom]
  | d :: cs, n => by
    simp only [layoutFrom, lookup_cons_ite, List.mem_cons, not_or]
    split
    · simp_all
    · simp_all [lookup_layoutFrom_eq_none]

theorem lookup_layoutFrom_some {c : ConstTensor} {r : ByteRange} :
    ∀ {cs : List ConstTensor} {n : Nat}, (layoutFrom n cs).lookup c = some r →
      r.stop = r.start + c.bytes.length ∧ n ≤ r.start ∧ r.stop ≤ n + bytesOf cs
  | [], _, h => by simp [layoutFrom] at h
  | d :: cs, n, h => by
    simp only [layoutFrom, lookup_cons_ite] at h
    split at h
    · rename_i hcd
      subst hcd
      cases h
      simp
    · obtain ⟨hlen, hlo, hhi⟩ := lookup_layoutFrom_some h
      refine ⟨hlen, by omega, ?_⟩
      simp only [bytesOf_cons]
      omega

theorem lookup_layoutFrom_disjoint {c₁ c₂ : ConstTensor} {r₁ r₂ : ByteRange} (hne : c₁ ≠ c₂) :
    ∀ {cs : List ConstTensor} {n : Nat}, (layoutFrom n cs).lookup c₁ = some r₁ →
      (layoutFrom n cs).lookup c₂ = some r₂ → r₁.stop ≤ r₂.start ∨ r₂.stop ≤ r₁.start
  | [], _, h₁, _ => by simp [layoutFrom] at h₁
  | d :: cs, n, h₁, h₂ => by
    simp only [layoutFrom, lookup_cons_ite] at h₁ h₂
    -- at most one of the two is the head; the other lies past it
    split at h₁
    · rename_i hd₁
      subst hd₁
      rw [if_neg (Ne.symm hne)] at h₂
      cases h₁
      exact .inl (lookup_layoutFrom_some h₂).2.1
    · split at h₂
      · rename_i hd₂
        subst hd₂
        cases h₂
        exact .inr (lookup_layoutFrom_some h₁).2.1
      · exact lookup_layoutFrom_disjoint hne h₁ h₂

theorem lookup_layoutFrom_append {c : ConstTensor} {r : ByteRange} (ds : List ConstTensor)
    {cs : List ConstTensor} {n : Nat} (h : (layoutFrom n cs).lookup c = some r) :
    (layoutFrom n (cs ++ ds)).lookup c = some r := by
  rw [layoutFrom_append, List.lookup_append, h]
  rfl

theorem eraseDups_append_singleton (c : ConstTensor) (cs : List ConstTensor) :
    (cs ++ [c]).eraseDups = if c ∈ cs then cs.eraseDups else cs.eraseDups ++ [c] := by
  rw [List.eraseDups_append]
  split
  · rename_i hc
    simp [List.removeAll, hc]
  · rename_i hc
    simp [List.removeAll, hc, List.eraseDups_cons]

theorem lookup_eraseDups_append {c : ConstTensor} {r : ByteRange} {cs : List ConstTensor}
    (ds : List ConstTensor) (h : (layoutFrom 0 cs.eraseDups).lookup c = some r) :
    (layoutFrom 0 (cs ++ ds).eraseDups).lookup c = some r := by
  rw [List.eraseDups_append]
  exact lookup_layoutFrom_append _ h

theorem mem_of_lookup_eq_some {c : ConstTensor} {r : ByteRange} :
    ∀ {l : List (ConstTensor × ByteRange)}, l.lookup c = some r → (c, r) ∈ l
  | [], h => by simp at h
  | (d, r') :: l, h => by
    rw [lookup_cons_ite] at h
    split at h
    · rename_i hcd
      subst hcd
      cases h
      exact List.mem_cons_self
    · exact List.mem_cons_of_mem _ (mem_of_lookup_eq_some h)

end Layout

theorem U64.add_eq_ok {a b r : Nat} (h : U64.add a b = .ok r) : r = a + b := by
  unfold U64.add U64.check at h
  split at h
  · cases h
    rfl
  · cases h

/-! The space of a run. -/

namespace PersistentSpace

/-- The space holds, for every kind, the distinct constants `seen` has of that kind laid out one
after another from zero, in order of first occurrence, and counts their bytes as used. -/
def Packs (s : PersistentSpace) (seen : String → List ConstTensor) : Prop :=
  ∀ K, (s.placed.lookup K).getD [] = layoutFrom 0 (seen K).eraseDups ∧
    s.rdataUsage K = bytesOf (seen K).eraseDups

theorem packs_empty : ({} : PersistentSpace).Packs fun _ => [] := fun _ => ⟨rfl, rfl⟩

theorem Packs.update {s : PersistentSpace} {seen : String → List ConstTensor} (hs : s.Packs seen)
    {K : String} {l : List ConstTensor} (hl : l.eraseDups = (seen K).eraseDups) :
    s.Packs (Function.update seen K l) := by
  intro K'
  by_cases hK : K' = K
  · subst hK
    rw [Function.update_self, hl]
    exact hs K'
  · rw [Function.update_of_ne hK]
    exact hs K'

theorem placeConstant_spec {s s' : PersistentSpace} {seen : String → List ConstTensor} (hs : s.Packs seen)
    {K : String} {c : ConstTensor} {r : ByteRange} {fresh : Bool}
    (h : s.placeConstant K c = .ok (s', r, fresh)) :
    s'.Packs (Function.update seen K (seen K ++ [c])) ∧
      (layoutFrom 0 (seen K ++ [c]).eraseDups).lookup c = some r ∧ fresh = !decide (c ∈ seen K) := by
  obtain ⟨hplaced, hused⟩ := hs K
  unfold placeConstant at h
  dsimp only at h
  rw [hplaced] at h
  cases hc : (layoutFrom 0 (seen K).eraseDups).lookup c with
  | some r₀ =>
    -- a known content: its range, the space as it was
    rw [hc] at h
    dsimp only at h
    cases pure_eq_ok.1 h
    have hmem : c ∈ seen K := by
      by_contra hn
      have hnone := (lookup_layoutFrom_eq_none (n := 0)).2 (mt List.mem_eraseDups.1 hn)
      rw [hc] at hnone
      cases hnone
    have hsame : (seen K ++ [c]).eraseDups = (seen K).eraseDups := by
      rw [eraseDups_append_singleton, if_pos hmem]
    refine ⟨hs.update hsame, by rw [hsame]; exact hc, by simp [hmem]⟩
  | none =>
    -- a new content: laid out after the kind's used bytes
    rw [hc] at h
    dsimp only at h
    have hnew : c ∉ seen K := by
      rw [← List.mem_eraseDups, ← lookup_layoutFrom_eq_none (n := 0)]
      exact hc
    obtain ⟨stop, hstop, h⟩ := bind_eq_ok.1 h
    cases pure_eq_ok.1 h
    rw [U64.add_eq_ok hstop, hused]
    have hlist : (seen K ++ [c]).eraseDups = (seen K).eraseDups ++ [c] := by
      rw [eraseDups_append_singleton, if_neg hnew]
    refine ⟨fun K' => ?_, ?_, by simp [hnew]⟩
    · by_cases hK : K' = K
      · subst hK
        simp only [Function.update_self, hlist, rdataUsage, lookup_setKey_self, Option.getD_some,
          layoutFrom_append, bytesOf_append]
        simp [layoutFrom, bytesOf]
      · simp only [Function.update_of_ne hK, rdataUsage, lookup_setKey_ne hK]
        exact hs K'
    · rw [hlist, layoutFrom_append, List.lookup_append, hc]
      simp [layoutFrom]

end PersistentSpace

theorem foldlM_ok_prefix {ε α β : Type} {f : β → α → Except ε β} (P : List α → β → Prop) (pre : List α) :
    ∀ {xs : List α} {b r : β}, xs.foldlM f b = .ok r → P pre b →
      (∀ ys x zs b b', xs = ys ++ x :: zs → P (pre ++ ys) b → f b x = .ok b' → P (pre ++ ys ++ [x]) b') →
      P (pre ++ xs) r
  | [], b, r, h, hb, _ => by
    simp only [List.foldlM_nil, pure_eq_ok] at h
    simpa [← h] using hb
  | x :: xs, b, r, h, hb, hstep => by
    obtain ⟨b₁, h₁, h⟩ := bind_eq_ok.1 (by simpa only [List.foldlM_cons] using h)
    have hb₁ : P (pre ++ [x]) b₁ := by
      simpa using hstep [] x xs b b₁ rfl (by simpa using hb) h₁
    have := foldlM_ok_prefix P (pre ++ [x]) h hb₁ fun ys y zs c c' hxs hc hy => by
      have := hstep (x :: ys) y zs c c' (by rw [hxs]; rfl) (by simpa using hc) hy
      simpa using this
    simpa using this

theorem zipIdx_eq_append_cons {α : Type} {l : List α} {n : Nat} {ys zs : List (α × Nat)} {x : α × Nat}
    (h : l.zipIdx n = ys ++ x :: zs) : x.2 = n + ys.length := by
  have hget := congrArg (·[ys.length]?) h
  simp only [List.getElem?_zipIdx, List.getElem?_append_right (le_refl _), Nat.sub_self,
    List.getElem?_cons_zero] at hget
  obtain ⟨a, -, ha⟩ := Option.map_eq_some_iff.1 hget
  rw [← ha]

/-! A function's constants. -/

/-- The placements a function records as its own: the constants, with their index and range,
whose content none of the constants seen before had. -/
def firstPlacements : List ConstTensor → Nat → List (ConstTensor × ByteRange) → List RdataPlacement
  | _, _, [] => []
  | seen, i, p :: ps => (if p.1 ∈ seen then [] else [⟨i, p.2⟩]) ++ firstPlacements (seen ++ [p.1]) (i + 1) ps

theorem firstPlacements_append_singleton (p : ConstTensor × ByteRange) :
    ∀ (ps : List (ConstTensor × ByteRange)) (seen : List ConstTensor) (i : Nat),
      firstPlacements seen i (ps ++ [p]) = firstPlacements seen i ps ++
        if p.1 ∈ seen ++ ps.map Prod.fst then [] else [⟨i + ps.length, p.2⟩]
  | [], seen, i => by simp [firstPlacements]
  | q :: ps, seen, i => by
    simp only [List.cons_append, firstPlacements, firstPlacements_append_singleton p ps, List.append_assoc,
      List.map_cons, List.length_cons]
    simp [Nat.add_assoc, Nat.add_comm 1]

/-- A function with the ranges `rs` for its constants, and the placements `ps` recorded after
those it had. -/
def Function.placed (f : Function) (rs : List ByteRange) (ps : List RdataPlacement) : Function :=
  { f with constRanges := rs, plan := { f.plan with rdatas := f.plan.rdatas ++ ps } }

@[simp] theorem Function.placed_placed (f : Function) (rs rs' : List ByteRange) (ps ps' : List RdataPlacement) :
    (f.placed rs ps).placed rs' ps' = f.placed rs' (ps ++ ps') := by
  simp [Function.placed]

@[simp] theorem Function.moduleKind_placed (f : Function) (rs : List ByteRange) (ps : List RdataPlacement) :
    (f.placed rs ps).moduleKind = f.moduleKind := rfl

@[simp] theorem Function.constants_placed (f : Function) (rs : List ByteRange) (ps : List RdataPlacement) :
    (f.placed rs ps).constants = f.constants := rfl

@[simp] theorem Function.rdatas_placed (f : Function) (rs : List ByteRange) (ps : List RdataPlacement) :
    (f.placed rs ps).plan.rdatas = f.plan.rdatas ++ ps := rfl

@[simp] theorem Function.constRanges_placed (f : Function) (rs : List ByteRange) (ps : List RdataPlacement) :
    (f.placed rs ps).constRanges = rs := rfl

/-- Where a function's constants stand once its first constants `pre` are placed over a space
that packed `seen`: ranges of their contents among the distinct constants seen with them, and the
new ones among them recorded as its own. Nothing else of the function changes. -/
structure Placing (f : Function) (seen : String → List ConstTensor) (pre : List ConstTensor)
    (acc : Function × PersistentSpace × Bool) : Prop where
  ranges : List.Forall₂ (fun c r => (layoutFrom 0 (seen f.moduleKind ++ pre).eraseDups).lookup c = some r)
    pre acc.1.constRanges
  frame : acc.1 = f.placed acc.1.constRanges (firstPlacements (seen f.moduleKind) 0 (pre.zip acc.1.constRanges))
  space : acc.2.1.Packs (Function.update seen f.moduleKind (seen f.moduleKind ++ pre))

namespace Placing

variable {f : Function} {seen : String → List ConstTensor}

theorem start (s : PersistentSpace) (hs : s.Packs seen) (changed : Bool) :
    Placing f seen [] ({ f with constRanges := [] }, s, changed) where
  ranges := .nil
  frame := by simp [Function.placed, firstPlacements]
  space := by simpa using hs

theorem step {pre : List ConstTensor} {acc acc' : Function × PersistentSpace × Bool} {c : ConstTensor}
    {s' : PersistentSpace} {r : ByteRange} {fresh : Bool} (hp : Placing f seen pre acc)
    (hplace : acc.2.1.placeConstant f.moduleKind c = .ok (s', r, fresh))
    (hacc : acc'.1 = acc.1.placed (acc.1.constRanges ++ [r]) (if fresh then [⟨pre.length, r⟩] else []))
    (hs : acc'.2.1 = s') :
    Placing f seen (pre ++ [c]) acc' := by
  obtain ⟨hpack, hlookup, hfresh⟩ := PersistentSpace.placeConstant_spec hp.space hplace
  simp only [Function.update_self, Function.update_idem, List.append_assoc] at hpack hlookup hfresh
  have hlen : pre.length = acc.1.constRanges.length := hp.ranges.length_eq
  refine ⟨?_, ?_, hs ▸ hpack⟩
  · -- the earlier ranges are found again in the longer layout
    rw [hacc, Function.constRanges_placed]
    refine List.rel_append (hp.ranges.imp fun d r' hd => ?_) (.cons hlookup .nil)
    simpa using lookup_eraseDups_append [c] hd
  · rw [hacc, hp.frame, Function.placed_placed, Function.constRanges_placed, Function.constRanges_placed,
      List.zip_append (by simpa using hlen), List.zip_cons_cons, List.zip_nil_left,
      firstPlacements_append_singleton, hfresh]
    simp only [List.map_fst_zip (le_of_eq hlen), List.length_zip, hlen, Nat.min_self, Nat.zero_add]
    by_cases hc : c ∈ seen f.moduleKind ++ pre <;> simp [hc]

end Placing

theorem Function.placeConstants_spec {f f₁ : Function} {s s₁ : PersistentSpace} {changed : Bool}
    {seen : String → List ConstTensor} (hs : s.Packs seen) (h : f.placeConstants s = .ok (f₁, s₁, changed)) :
    Placing f seen f.constants (f₁, s₁, changed) := by
  unfold Function.placeConstants at h
  have hall := foldlM_ok_prefix (fun ys acc => Placing f seen (ys.map Prod.fst) acc) [] h
    (Placing.start s hs false) ?_
  · simpa using hall
  rintro ys ⟨c, idx⟩ zs ⟨g, sp, ch⟩ acc' hxs hp hstep
  dsimp only at hstep
  obtain ⟨⟨s', r, fresh⟩, hplace, hstep⟩ := bind_eq_ok.1 hstep
  dsimp only at hstep
  have hidx : idx = ys.length := by simpa using zipIdx_eq_append_cons hxs
  have hkind : g.moduleKind = f.moduleKind := by
    have := congrArg Function.moduleKind hp.frame
    simpa using this
  rw [hkind] at hplace
  simp only [List.nil_append, List.map_append, List.map_cons, List.map_nil] at hp ⊢
  -- a fresh constant is recorded, a known one only gets its range
  split at hstep
  · rename_i hfresh
    cases pure_eq_ok.1 hstep
    exact Placing.step hp hplace (by simp [Function.placed, hidx, hfresh]) rfl
  · rename_i hfresh
    cases pure_eq_ok.1 hstep
    exact Placing.step hp hplace (by simp [Function.placed, hfresh]) rfl

/-- Two functions with one kind, one list of constants, one list of ranges and one list of
placements recorded as their own. -/
structure Function.SameConstants (f f' : Function) : Prop where
  kind : f'.moduleKind = f.moduleKind
  constants : f'.constants = f.constants
  ranges : f'.constRanges = f.constRanges
  rdatas : f'.plan.rdatas = f.plan.rdatas

theorem Function.SameConstants.trans {f₁ f₂ f₃ : Function} (h₁ : f₁.SameConstants f₂) (h₂ : f₂.SameConstants f₃) :
    f₁.SameConstants f₃ :=
  ⟨h₂.kind.trans h₁.kind, h₂.constants.trans h₁.constants, h₂.ranges.trans h₁.ranges, h₂.rdatas.trans h₁.rdatas⟩

theorem Function.placeData_sameConstants {f f' : Function} {ff : FirstFit} {traced c : Bool}
    {records : List LogRecord} (h : f.placeData ff traced = .ok (f', c, records)) : f.SameConstants f' := by
  unfold placeData at h
  split at h
  · cases pure_eq_ok.1 h
    exact ⟨rfl, rfl, rfl, rfl⟩
  · obtain ⟨_, -, h⟩ := bind_eq_ok.1 h
    obtain ⟨_, -, h⟩ := bind_eq_ok.1 h
    cases pure_eq_ok.1 h
    exact ⟨rfl, rfl, rfl, rfl⟩

/-! A run over a module. -/

def kindConstants (fs : List Function) (K : String) : List ConstTensor :=
  (fs.filter (·.moduleKind == K)).flatMap (·.constants)

def pendingConstants (fs : List Function) (K : String) : List ConstTensor :=
  kindConstants (fs.filter fun f => !f.plan.isScheduled) K

theorem pendingConstants_nil : pendingConstants [] = fun _ => [] := rfl

theorem pendingConstants_append_scheduled (fs : List Function) {f : Function} (hf : f.plan.isScheduled = true) :
    pendingConstants (fs ++ [f]) = pendingConstants fs := by
  funext K
  simp [pendingConstants, kindConstants, List.filter_append, hf]

theorem pendingConstants_append_pending (fs : List Function) {f : Function} (hf : f.plan.isScheduled = false) :
    pendingConstants (fs ++ [f]) =
      Function.update (pendingConstants fs) f.moduleKind (pendingConstants fs f.moduleKind ++ f.constants) := by
  funext K
  by_cases hK : K = f.moduleKind
  · subst hK
    simp [pendingConstants, kindConstants, List.filter_append, hf]
  · have hK' : (f.moduleKind == K) = false := by simpa using Ne.symm hK
    simp [pendingConstants, kindConstants, List.filter_append, hf, Function.update_of_ne hK, hK']

theorem pendingConstants_eq_kindConstants {fs : List Function} (hfresh : ∀ f ∈ fs, f.plan.isScheduled = false) :
    pendingConstants fs = kindConstants fs := by
  funext K
  unfold pendingConstants
  rw [List.filter_eq_self.2 fun f hf => by simp [hfresh f hf]]

/-- What a run gives a function it schedules, given the constants of its kind placed before it
(`prior`) and the distinct constants of its kind the run lays out (`layout`). -/
structure Function.PlacedAs (f f' : Function) (prior layout : List ConstTensor) : Prop where
  kind : f'.moduleKind = f.moduleKind
  constants : f'.constants = f.constants
  ranges : List.Forall₂ (fun c r => (layoutFrom 0 layout).lookup c = some r) f.constants f'.constRanges
  rdatas : f'.plan.rdatas = f.plan.rdatas ++ firstPlacements prior 0 (f.constants.zip f'.constRanges)

theorem Function.PlacedAs.grow {f f' : Function} {prior layout : List ConstTensor} (h : f.PlacedAs f' prior layout.eraseDups)
    (more : List ConstTensor) : f.PlacedAs f' prior (layout ++ more).eraseDups :=
  ⟨h.kind, h.constants, h.ranges.imp fun _ _ hr => lookup_eraseDups_append more hr, h.rdatas⟩

/-- A run over the functions `fs` so far, which gave `fs'`: each function scheduled before is
left as it is, each other one is placed among the pending constants of its kind, and the space
packs those constants. -/
structure ScheduleRun (fs fs' : List Function) (s : PersistentSpace) : Prop where
  length : fs'.length = fs.length
  kept : ∀ (i : Nat) (f f' : Function), fs[i]? = some f → fs'[i]? = some f' → f.plan.isScheduled = true → f' = f
  placed : ∀ (i : Nat) (f f' : Function), fs[i]? = some f → fs'[i]? = some f' → f.plan.isScheduled = false →
    f.PlacedAs f' (pendingConstants (fs.take i) f.moduleKind) (pendingConstants fs f.moduleKind).eraseDups
  space : s.Packs (pendingConstants fs)

namespace ScheduleRun

variable {fs fs' : List Function} {s : PersistentSpace}

theorem start : ScheduleRun [] [] {} := ⟨rfl, fun _ _ _ h => by simp at h, fun _ _ _ h => by simp at h,
  by rw [pendingConstants_nil]; exact PersistentSpace.packs_empty⟩

theorem getElem?_append_singleton {α : Type} {l : List α} {a : α} {i : Nat} {x : α}
    (h : (l ++ [a])[i]? = some x) : l[i]? = some x ∧ i < l.length ∨ i = l.length ∧ x = a := by
  rcases Nat.lt_or_ge i l.length with hi | hi
  · rw [List.getElem?_append_left hi] at h
    exact .inl ⟨h, hi⟩
  · rw [List.getElem?_append_right hi, List.getElem?_singleton] at h
    split at h
    · exact .inr ⟨by omega, (Option.some.inj h).symm⟩
    · cases h

theorem skip (hr : ScheduleRun fs fs' s) {f : Function} (hf : f.plan.isScheduled = true) :
    ScheduleRun (fs ++ [f]) (fs' ++ [f]) s := by
  have hlen := hr.length
  refine ⟨by simp [hr.length], fun i g g' hg hg' hs => ?_, fun i g g' hg hg' hs => ?_, ?_⟩
  · rcases getElem?_append_singleton hg with ⟨hg, hi⟩ | ⟨hi, rfl⟩
    · rcases getElem?_append_singleton hg' with ⟨hg', -⟩ | ⟨hi', -⟩
      · exact hr.kept i g g' hg hg' hs
      · omega
    · rcases getElem?_append_singleton hg' with ⟨-, hi'⟩ | ⟨-, rfl⟩
      · omega
      · rfl
  · rcases getElem?_append_singleton hg with ⟨hg, hi⟩ | ⟨hi, rfl⟩
    · rcases getElem?_append_singleton hg' with ⟨hg', -⟩ | ⟨hi', -⟩
      · rw [List.take_append_of_le_length hi.le, pendingConstants_append_scheduled fs hf]
        exact hr.placed i g g' hg hg' hs
      · omega
    · rw [hs] at hf
      cases hf
  · rw [pendingConstants_append_scheduled fs hf]
    exact hr.space

theorem place (hr : ScheduleRun fs fs' s) {f f₁ f' : Function} {s₁ : PersistentSpace} {changed : Bool}
    (hf : f.plan.isScheduled = false) (hp : Placing f (pendingConstants fs) f.constants (f₁, s₁, changed))
    (hsame : f₁.SameConstants f') : ScheduleRun (fs ++ [f]) (fs' ++ [f']) s₁ := by
  have hkind : f₁.moduleKind = f.moduleKind := by
    have := congrArg Function.moduleKind hp.frame
    simpa using this
  have hlen := hr.length
  refine ⟨by simp [hr.length], fun i g g' hg hg' hs => ?_, fun i g g' hg hg' hs => ?_, ?_⟩
  · rcases getElem?_append_singleton hg with ⟨hg, hi⟩ | ⟨hi, rfl⟩
    · rcases getElem?_append_singleton hg' with ⟨hg', -⟩ | ⟨hi', -⟩
      · exact hr.kept i g g' hg hg' hs
      · omega
    · rw [hs] at hf
      cases hf
  · rcases getElem?_append_singleton hg with ⟨hg, hi⟩ | ⟨hi, rfl⟩
    · rcases getElem?_append_singleton hg' with ⟨hg', -⟩ | ⟨hi', -⟩
      · -- an earlier function keeps its ranges in the longer layout
        rw [List.take_append_of_le_length hi.le, pendingConstants_append_pending fs hf]
        by_cases hK : g.moduleKind = f.moduleKind
        · rw [hK, Function.update_self, ← hK]
          exact (hr.placed i g g' hg hg' hs).grow _
        · rw [Function.update_of_ne hK]
          exact hr.placed i g g' hg hg' hs
      · omega
    · rcases getElem?_append_singleton hg' with ⟨-, hi'⟩ | ⟨-, rfl⟩
      · omega
      · -- the function itself: the ranges and records its constants got
        have hframe : f₁ = _ := hp.frame
        rw [hi, List.take_left, pendingConstants_append_pending fs hf, Function.update_self]
        refine ⟨hsame.kind.trans hkind, hsame.constants.trans (by rw [hframe]; rfl), ?_, ?_⟩
        · rw [hsame.ranges]
          exact hp.ranges
        · rw [hsame.rdatas, hsame.ranges, hframe]
          rfl
  · rw [pendingConstants_append_pending fs hf]
    exact hp.space

end ScheduleRun

theorem Module.scheduleLogged_runs {m m' : Module} {s : PersistentSpace} {ff : FirstFit} {traced : Bool}
    {log : List LogRecord} (h : m.scheduleLogged ff traced = .ok (m', s, log)) :
    ScheduleRun m.functions m'.functions s := by
  unfold scheduleLogged at h
  obtain ⟨⟨fs, s₀, log₀⟩, hfold, h⟩ := bind_eq_ok.1 h
  cases pure_eq_ok.1 h
  have hall := foldlM_ok_prefix (fun pre acc => ScheduleRun pre acc.1 acc.2.1) [] hfold ScheduleRun.start ?_
  · simpa using hall
  rintro pre f - ⟨done, sp, lg⟩ acc' - hr hstep
  simp only [List.nil_append] at hr ⊢
  dsimp only at hstep
  split at hstep
  · rename_i hf
    cases pure_eq_ok.1 hstep
    exact hr.skip hf
  · rename_i hf
    obtain ⟨⟨f₁, s₁, c1⟩, h1, hstep⟩ := bind_eq_ok.1 hstep
    obtain ⟨⟨f₂, c2, records⟩, h2, hstep⟩ := bind_eq_ok.1 hstep
    have hp := Function.placeConstants_spec hr.space h1
    have hsame := Function.placeData_sameConstants h2
    dsimp only at hstep
    split at hstep
    · cases pure_eq_ok.1 hstep
      exact hr.place (by simpa using hf) hp (hsame.trans ⟨rfl, rfl, rfl, rfl⟩)
    · cases pure_eq_ok.1 hstep
      exact hr.place (by simpa using hf) hp hsame

theorem Module.schedule_runs {m m' : Module} {s : PersistentSpace} {ff : FirstFit}
    (h : m.schedule ff = .ok (m', s)) : ScheduleRun m.functions m'.functions s := by
  obtain ⟨⟨m₁, s₁, log⟩, hrun, h⟩ := bind_eq_ok.1 h
  cases pure_eq_ok.1 h
  exact scheduleLogged_runs hrun

theorem ScheduleRun.lookup {fs fs' : List Function} {s : PersistentSpace} (hr : ScheduleRun fs fs' s)
    (hfresh : ∀ f ∈ fs, f.plan.isScheduled = false) {f' : Function} (hf' : f' ∈ fs') :
    List.Forall₂ (fun c r => (layoutFrom 0 (pendingConstants fs f'.moduleKind).eraseDups).lookup c = some r)
      f'.constants f'.constRanges := by
  obtain ⟨i, hi, rfl⟩ := List.getElem_of_mem hf'
  have hi' : i < fs.length := hr.length ▸ hi
  have hp := hr.placed i fs[i] fs'[i] (List.getElem?_eq_getElem hi') (List.getElem?_eq_getElem hi)
    (hfresh _ (List.getElem_mem hi'))
  rw [hp.kind, hp.constants]
  exact hp.ranges

/-- What a run over a module in which no function is scheduled yet gives the constants of kind
`K`: one range per content, shared by every constant with that content; disjoint ranges for
different contents; the contents laid out one after another from zero in order of first
occurrence, up to the kind's usage; and each function recording as its own the constants no
function before it had. -/
structure SharesConstants (m m' : Module) (s : PersistentSpace) (K : String) : Prop where
  same : ∀ f₁ ∈ m'.functions, ∀ f₂ ∈ m'.functions, f₁.moduleKind = K → f₂.moduleKind = K →
    ∀ p₁ ∈ f₁.constants.zip f₁.constRanges, ∀ p₂ ∈ f₂.constants.zip f₂.constRanges, p₁.1 = p₂.1 → p₁.2 = p₂.2
  disjoint : ∀ f₁ ∈ m'.functions, ∀ f₂ ∈ m'.functions, f₁.moduleKind = K → f₂.moduleKind = K →
    ∀ p₁ ∈ f₁.constants.zip f₁.constRanges, ∀ p₂ ∈ f₂.constants.zip f₂.constRanges, p₁.1 ≠ p₂.1 →
      p₁.2.stop ≤ p₂.2.start ∨ p₂.2.stop ≤ p₁.2.start
  length : ∀ f ∈ m'.functions, f.moduleKind = K → f.constRanges.length = f.constants.length
  size : ∀ f ∈ m'.functions, f.moduleKind = K → ∀ p ∈ f.constants.zip f.constRanges,
    p.2.stop = p.2.start + p.1.bytes.length
  layout : ∀ f ∈ m'.functions, f.moduleKind = K → ∀ p ∈ f.constants.zip f.constRanges,
    p ∈ layoutFrom 0 (kindConstants m.functions K).eraseDups
  usage : s.rdataUsage K = bytesOf (kindConstants m.functions K).eraseDups
  rdatas : ∀ (i : Nat) (f f' : Function), m.functions[i]? = some f → m'.functions[i]? = some f' →
    f.moduleKind = K →
      f'.plan.rdatas = f.plan.rdatas ++ firstPlacements (kindConstants (m.functions.take i) K) 0
        (f'.constants.zip f'.constRanges)

/-- A run over a module in which no function is scheduled yet shares its read-only constants by
content, per module kind, in one layout from zero. -/
theorem schedule_shares_constants {m m' : Module} {s : PersistentSpace} {ff : FirstFit}
    (hfresh : ∀ f ∈ m.functions, f.plan.isScheduled = false) (h : m.schedule ff = .ok (m', s)) (K : String) :
    SharesConstants m m' s K := by
  have hr := Module.schedule_runs h
  have hpending := pendingConstants_eq_kindConstants hfresh
  -- every placement is the layout's range of its content
  have hfound : ∀ f ∈ m'.functions, f.moduleKind = K → ∀ p ∈ f.constants.zip f.constRanges,
      (layoutFrom 0 (kindConstants m.functions K).eraseDups).lookup p.1 = some p.2 := by
    intro f hf hK p hp
    have hall := hr.lookup hfresh hf
    rw [hpending, hK] at hall
    exact (List.forall₂_iff_zip.1 hall).2 hp
  refine ⟨fun f₁ hf₁ f₂ hf₂ hK₁ hK₂ p₁ hp₁ p₂ hp₂ hc => ?_, fun f₁ hf₁ f₂ hf₂ hK₁ hK₂ p₁ hp₁ p₂ hp₂ hc => ?_,
    fun f hf hK => ?_, fun f hf hK p hp => ?_, fun f hf hK p hp => ?_, ?_, fun i f f' hf hf' hK => ?_⟩
  · have h₂ := hfound f₂ hf₂ hK₂ p₂ hp₂
    rw [← hc, hfound f₁ hf₁ hK₁ p₁ hp₁] at h₂
    exact Option.some.inj h₂
  · exact lookup_layoutFrom_disjoint hc (hfound f₁ hf₁ hK₁ p₁ hp₁) (hfound f₂ hf₂ hK₂ p₂ hp₂)
  · exact (hr.lookup hfresh hf).length_eq.symm
  · exact (lookup_layoutFrom_some (hfound f hf hK p hp)).1
  · exact mem_of_lookup_eq_some (hfound f hf hK p hp)
  · rw [(hr.space K).2, hpending]
  · have hp := hr.placed i f f' hf hf' (hfresh f (List.mem_of_getElem? hf))
    rw [hp.rdatas, hp.constants, hK, pendingConstants_eq_kindConstants fun g hg =>
      hfresh g (List.mem_of_mem_take hg)]

theorem Module.schedule_of_scheduled {m : Module} {ff : FirstFit}
    (hall : ∀ f ∈ m.functions, f.plan.isScheduled = true) : m.schedule ff = .ok (m, {}) := by
  -- every step only appends the function, so the fold succeeds with the space and records empty
  have hrun : ∃ r, m.scheduleLogged ff true = .ok r ∧ r.2 = ({}, []) := by
    unfold Module.scheduleLogged
    refine exists_bind_of_exists (Q := fun acc : List Function × PersistentSpace × List LogRecord =>
      acc.2 = ({}, [])) (foldlM_exists_ok _ rfl fun acc f hf hacc => ?_) fun acc hacc => ⟨_, rfl, hacc⟩
    obtain ⟨done, sp, lg⟩ := acc
    refine ⟨(done ++ [f], sp, lg), ?_, hacc⟩
    simp only [hall f hf, if_true]
    rfl
  obtain ⟨⟨m', s, log⟩, hr, hI⟩ := hrun
  cases hI
  have hruns := Module.scheduleLogged_runs hr
  have hfs : m'.functions = m.functions := by
    refine List.ext_getElem? fun i => ?_
    cases hi : m.functions[i]? with
    | none => rw [List.getElem?_eq_none (by rw [hruns.length]; exact List.getElem?_eq_none_iff.1 hi)]
    | some f =>
      have hlt : i < m'.functions.length := by
        rw [hruns.length]
        exact (List.getElem?_eq_some_iff.1 hi).1
      rw [List.getElem?_eq_getElem hlt,
        hruns.kept i f _ hi (List.getElem?_eq_getElem hlt) (hall f (List.mem_of_getElem? hi))]
  unfold Module.schedule
  rw [hr]
  cases m'
  cases m
  simp only at hfs
  subst hfs
  rfl

def byteConstant (b : Nat) : ConstTensor := ⟨"u8", [1], [b]⟩

/-- Two functions of one kind: `f` with the constants `1` and `2`, then `g` with the constant `2`
alone, which it finds placed by `f`. -/
def sharedPair : Module :=
  ⟨[{ name := "f", moduleKind := "k", constants := [byteConstant 1, byteConstant 2] },
    { name := "g", moduleKind := "k", constants := [byteConstant 2] }]⟩

theorem sharedPair_shares_constants :
    ∃ m' s, sharedPair.schedule {} = .ok (m', s) ∧ SharesConstants sharedPair m' s "k" :=
  ⟨_, _, rfl, @schedule_shares_constants sharedPair _ _ {} (by decide) rfl "k"⟩

/-- Sharing does not survive a second run. The first run marks `f` scheduled but not `g`, which
placed nothing of its own; the second run starts from an empty space, passes over `f` and lays
`g`'s constant out afresh at zero: the content `2` then has two ranges, and the range of `g`'s
constant is also that of `f`'s constant `1`. -/
theorem reschedule_splits_shared_constant :
    (∀ f ∈ sharedPair.functions, f.plan.isScheduled = false) ∧
      ((sharedPair.schedule {}).bind fun r => r.1.schedule {}).map
          (fun r => r.1.functions.map fun f => f.constants.zip f.constRanges) =
        .ok [[(byteConstant 1, ⟨0, 1⟩), (byteConstant 2, ⟨1, 2⟩)], [(byteConstant 2, ⟨0, 1⟩)]] :=
  ⟨by decide, rfl⟩

end TileSched

