import TileSched.Proofs.Solver.Bound
/-! The decisions of the search and the partial assignments it makes. A node of the search has a
list of decisions left; `Pending` says what holds of them and of the assignment at every node:
each free variable is left to exactly one decision, and every group not left to decide has its
member chosen. The branching order of the model starts it at the empty assignment, each branch
keeps it, and once no decision is left every variable is set. -/

namespace TileSched

section Assignment

variable {a : Array (Option Int)}

theorem getD_set! {α : Type} {a : Array (Option α)} (v u : Nat) (x : Option α) :
    (a.set! v x).getD u none = if u = v ∧ v < a.size then x else a.getD u none := by
  simp only [Array.set!_eq_setIfInBounds, Array.getD_eq_getD_getElem?, Array.getElem?_setIfInBounds]
  by_cases huv : u = v
  · subst huv
    by_cases hlt : u < a.size <;> simp [hlt]
  · simp [huv, Ne.symm huv]

theorem size_foldl_set (F : Nat → Option Int) :
    ∀ (ms : List Nat) (a : Array (Option Int)), (ms.foldl (fun a v => a.set! v (F v)) a).size = a.size
  | [], _ => rfl
  | v :: ms, a => by
    rw [List.foldl_cons, size_foldl_set F ms]
    simp

theorem getD_foldl_set (F : Nat → Option Int) :
    ∀ (ms : List Nat) (a : Array (Option Int)) (u : Nat),
      (ms.foldl (fun a v => a.set! v (F v)) a).getD u none =
        if u ∈ ms ∧ u < a.size then F u else a.getD u none
  | [], _, _ => by simp
  | v :: ms, a, u => by
    rw [List.foldl_cons, getD_foldl_set F ms, getD_set!]
    by_cases huv : u = v
    · subst huv
      by_cases hlt : u < a.size <;> simp [hlt]
    · simp [huv]

theorem getD_of_size_le {u : Nat} (h : a.size ≤ u) : a.getD u none = none := by
  simp [Array.getD_eq_getD_getElem?, Array.getElem?_eq_none h]

theorem ext_getD {b : Array (Option Int)} (hs : a.size = b.size)
    (h : ∀ u, a.getD u none = b.getD u none) : a = b := by
  refine Array.ext hs fun u ha hb => ?_
  have := h u
  simpa [Array.getD_eq_getD_getElem?, ha, hb] using this

theorem set!_eq_of_agree {b : Array (Option Int)} {v : Nat} (hs : a.size = b.size)
    (h : ∀ u, u ≠ v → a.getD u none = b.getD u none) (x : Option Int) : a.set! v x = b.set! v x := by
  refine ext_getD (by simp [hs]) fun u => ?_
  rw [getD_set!, getD_set!, hs]
  by_cases huv : u = v
  · subst huv
    by_cases hlt : u < b.size
    · simp [hlt]
    · simp [hlt, getD_of_size_le (show a.size ≤ u by omega), getD_of_size_le (show b.size ≤ u by omega)]
  · simp [huv, h u huv]

theorem foldl_set_eq_of_agree {b : Array (Option Int)} {ms : List Nat} (hs : a.size = b.size)
    (h : ∀ u, u ∉ ms → a.getD u none = b.getD u none) (F : Nat → Option Int) :
    ms.foldl (fun a v => a.set! v (F v)) a = ms.foldl (fun a v => a.set! v (F v)) b := by
  refine ext_getD (by rw [size_foldl_set, size_foldl_set, hs]) fun u => ?_
  rw [getD_foldl_set, getD_foldl_set, hs]
  by_cases hu : u ∈ ms
  · by_cases hlt : u < b.size
    · simp [hu, hlt]
    · simp [hu, hlt, getD_of_size_le (show a.size ≤ u by omega), getD_of_size_le (show b.size ≤ u by omega)]
  · simp [hu, h u hu]

end Assignment

namespace Model

variable {m : Model}

/-- The decisions left at a node of the search under its partial assignment, which has an entry
per variable: the decisions are distinct; a
variable decision names a free variable of no group; a group decision names a group whose
members are all free; every free variable is left to a decision; and every group not left to
decide has one member set to one and the others to zero. -/
structure Pending (m : Model) (ds : List Decision) (pa : Array (Option Int)) : Prop where
  size : pa.size = m.vars.size
  nodup : ds.Nodup
  var : ∀ v, Decision.var v ∈ ds →
    v < m.vars.size ∧ (m.vars.getD v default).group = none ∧ pa.getD v none = none
  group : ∀ g, Decision.group g ∈ ds → g < m.groups.size ∧ ∀ v ∈ m.groups.getD g [], pa.getD v none = none
  free : ∀ v < m.vars.size, pa.getD v none = none →
    Decision.var v ∈ ds ∨ ∃ g, (m.vars.getD v default).group = some g ∧ Decision.group g ∈ ds
  chosen : ∀ g < m.groups.size, Decision.group g ∉ ds →
    ∃ w ∈ m.groups.getD g [], ∀ v ∈ m.groups.getD g [], pa.getD v none = some (if v = w then 1 else 0)

theorem getD_groups {g : Nat} {ms : List Nat} (h : m.groups[g]? = some ms) : m.groups.getD g [] = ms := by
  simp [Array.getD_eq_getD_getElem?, h]

section Steps

variable (hm : WellFormed m)
include hm

theorem group_of_mem {g : Nat} {v : Nat} (hv : v ∈ m.groups.getD g []) :
    v < m.vars.size ∧ (m.vars.getD v default).group = some g := by
  have hg : g < m.groups.size := by
    by_contra hge
    simp [Array.getD_eq_getD_getElem?, Array.getElem?_eq_none (Nat.le_of_not_lt hge)] at hv
  have hms : m.groups[g]? = some (m.groups.getD g []) := by simp [hg, Array.getD_eq_getD_getElem?]
  obtain ⟨info, hinfo, _, hig⟩ := hm.member g _ hms v hv
  exact ⟨(Array.getElem?_eq_some_iff.1 hinfo).1, by rw [getD_vars hinfo, hig]⟩

theorem Pending.set_var {v : Nat} {rest : List Decision} {pa : Array (Option Int)}
    (hp : m.Pending (.var v :: rest) pa) (x : Int) : m.Pending rest (pa.set! v (some x)) := by
  obtain ⟨hv, hvg, hvpa⟩ := hp.var v List.mem_cons_self
  obtain ⟨hnotin, hnd⟩ := List.nodup_cons.1 hp.nodup
  -- no group holds the variable, so setting it touches no group
  have hnot : ∀ g, v ∉ m.groups.getD g [] := fun g hmem => by
    rw [(group_of_mem hm hmem).2] at hvg
    cases hvg
  have hsize : v < pa.size := hp.size ▸ hv
  refine ⟨by simp [hp.size], hnd, fun u hu => ?_, fun g hg => ?_, fun u hu hfree => ?_, fun g hg hnot' => ?_⟩
  · have huv : u ≠ v := fun h => hnotin (h ▸ hu)
    obtain ⟨h1, h2, h3⟩ := hp.var u (List.mem_cons_of_mem _ hu)
    exact ⟨h1, h2, by rw [getD_set!, if_neg (fun h => huv h.1)]; exact h3⟩
  · obtain ⟨h1, h2⟩ := hp.group g (List.mem_cons_of_mem _ hg)
    refine ⟨h1, fun u hu => ?_⟩
    have huv : u ≠ v := fun h => hnot g (h ▸ hu)
    rw [getD_set!, if_neg (fun h => huv h.1)]
    exact h2 u hu
  · have huv : u ≠ v := by
      rintro rfl
      rw [getD_set!, if_pos ⟨rfl, hsize⟩] at hfree
      cases hfree
    rw [getD_set!, if_neg (fun h => huv h.1)] at hfree
    rcases hp.free u hu hfree with h | ⟨g, hg, hgd⟩
    · exact .inl ((List.mem_cons.1 h).resolve_left fun h => huv (Decision.var.inj h))
    · exact .inr ⟨g, hg, (List.mem_cons.1 hgd).resolve_left fun h => by cases h⟩
  · obtain ⟨w, hw, hone⟩ := hp.chosen g hg (fun h => by
      rcases List.mem_cons.1 h with h | h
      · cases h
      · exact hnot' h)
    refine ⟨w, hw, fun u hu => ?_⟩
    have huv : u ≠ v := fun h => hnot g (h ▸ hu)
    rw [getD_set!, if_neg (fun h => huv h.1)]
    exact hone u hu

theorem Pending.set_group {g : Nat} {rest : List Decision} {pa : Array (Option Int)}
    (hp : m.Pending (.group g :: rest) pa) {chosen : Nat} (hc : chosen ∈ m.groups.getD g []) :
    m.Pending rest ((m.groups.getD g []).foldl
      (fun a v => a.set! v (some (if v = chosen then 1 else 0))) pa) := by
  obtain ⟨hg, hfree⟩ := hp.group g List.mem_cons_self
  obtain ⟨hnotin, hnd⟩ := List.nodup_cons.1 hp.nodup
  have hset := getD_foldl_set (fun v => some (if v = chosen then 1 else 0)) (m.groups.getD g []) pa
  -- a member of another group, or a variable of no group, is not a member of this one
  have hother : ∀ u g', (m.vars.getD u default).group = some g' → g' ≠ g → u ∉ m.groups.getD g [] :=
    fun u g' hu hne hmem => hne (by rw [(group_of_mem hm hmem).2] at hu; cases hu; rfl)
  refine ⟨by rw [size_foldl_set, hp.size], hnd, fun u hu => ?_, fun g' hg' => ?_, fun u hu hfu => ?_,
    fun g' hg' hnot' => ?_⟩
  · obtain ⟨h1, h2, h3⟩ := hp.var u (List.mem_cons_of_mem _ hu)
    have hnu : u ∉ m.groups.getD g [] := fun hmem => by
      rw [(group_of_mem hm hmem).2] at h2
      cases h2
    exact ⟨h1, h2, by rw [hset, if_neg (fun h => hnu h.1)]; exact h3⟩
  · have hne : g' ≠ g := fun h => hnotin (h ▸ hg')
    obtain ⟨h1, h2⟩ := hp.group g' (List.mem_cons_of_mem _ hg')
    refine ⟨h1, fun u hu => ?_⟩
    have hnu := hother u g' (group_of_mem hm hu).2 hne
    rw [hset, if_neg (fun h => hnu h.1)]
    exact h2 u hu
  · have hnu : u ∉ m.groups.getD g [] := by
      intro hmem
      rw [hset, if_pos ⟨hmem, hp.size ▸ (group_of_mem hm hmem).1⟩] at hfu
      cases hfu
    rw [hset, if_neg (fun h => hnu h.1)] at hfu
    rcases hp.free u hu hfu with h | ⟨g', hug, hgd⟩
    · exact .inl ((List.mem_cons.1 h).resolve_left fun h => by cases h)
    · have hne : g' ≠ g := by
        rintro rfl
        obtain ⟨ms, hms, hmem⟩ := hm.grouped u _ g' (by simp [hu, Array.getD_eq_getD_getElem?]) hug
        exact hnu (by rw [getD_groups hms]; exact hmem)
      exact .inr ⟨g', hug, (List.mem_cons.1 hgd).resolve_left fun h => hne (Decision.group.inj h)⟩
  · by_cases hgg : g' = g
    · -- the group just decided has its chosen member
      subst hgg
      refine ⟨chosen, hc, fun u hu => ?_⟩
      rw [hset, if_pos ⟨hu, hp.size ▸ (group_of_mem hm hu).1⟩]
    · obtain ⟨w, hw, hone⟩ := hp.chosen g' hg' (fun h => by
        rcases List.mem_cons.1 h with h | h
        · exact hgg (Decision.group.inj h)
        · exact hnot' h)
      refine ⟨w, hw, fun u hu => ?_⟩
      have hnu := hother u g' (group_of_mem hm hu).2 hgg
      rw [hset, if_neg (fun h => hnu h.1)]
      exact hone u hu

theorem Partial.set_group {pa : Array (Option Int)} (hpa : m.Partial pa) (g chosen : Nat) :
    m.Partial ((m.groups.getD g []).foldl
      (fun a v => a.set! v (some (if v = chosen then 1 else 0))) pa) := by
  refine ⟨by rw [size_foldl_set, hpa.1], fun u y hy => ?_⟩
  rw [getD_foldl_set] at hy
  split at hy
  · rename_i h
    cases hy
    -- a member is a boolean, over zero and one
    obtain ⟨hu, hug⟩ := group_of_mem hm h.1
    have hinfo : m.vars[u]? = some (m.vars.getD u default) := by
      simp [hu, Array.getD_eq_getD_getElem?]
    obtain ⟨info, hinfo', hb, _⟩ := hm.member g _ (by
      have hg : g < m.groups.size := by
        by_contra hge
        have := h.1
        simp [Array.getD_eq_getD_getElem?, Array.getElem?_eq_none (Nat.le_of_not_lt hge)] at this
      simp [hg, Array.getD_eq_getD_getElem?]) u h.1
    rw [hinfo] at hinfo'
    cases hinfo'
    rw [hm.bool u _ hinfo hb]
    split <;> simp
  · exact hpa.2 u y hy

end Steps

theorem Partial.set_var {pa : Array (Option Int)} (hpa : m.Partial pa) {v : Nat} {x : Int}
    (hx : x ∈ (m.vars.getD v default).domain) : m.Partial (pa.set! v (some x)) := by
  refine ⟨by simp [hpa.1], fun u y hy => ?_⟩
  rw [getD_set!] at hy
  split at hy
  · rename_i h
    cases hy
    rw [h.1]
    exact hx
  · exact hpa.2 u y hy

theorem Extends.set_var {val : Nat → Int} {pa : Array (Option Int)} (hext : m.Extends val pa)
    {v : Nat} {x : Int} (hx : val (m.vars.getD v default).expr = x) :
    m.Extends val (pa.set! v (some x)) := by
  intro u y hy
  rw [getD_set!] at hy
  split at hy
  · rename_i h
    cases hy
    rw [h.1]
    exact hx
  · exact hext u y hy

theorem Extends.set_group {val : Nat → Int} {pa : Array (Option Int)} (hext : m.Extends val pa)
    {ms : List Nat} {w : Nat} (hw : ∀ u ∈ ms, val (m.vars.getD u default).expr = if u = w then 1 else 0) :
    m.Extends val (ms.foldl (fun a v => a.set! v (some (if v = w then 1 else 0))) pa) := by
  intro u y hy
  rw [getD_foldl_set] at hy
  split at hy
  · rename_i h
    cases hy
    exact hw u h.1
  · exact hext u y hy

theorem Pending.full {pa : Array (Option Int)} (hp : m.Pending [] pa) :
    ∀ v < m.vars.size, pa.getD v none ≠ none := by
  intro v hv hnone
  rcases hp.free v hv hnone with h | ⟨_, _, h⟩ <;> cases h

theorem Pending.chosen_all {pa : Array (Option Int)} (hp : m.Pending [] pa) : m.Chosen pa := by
  intro ms hms
  obtain ⟨g, hg⟩ := Array.getElem?_of_mem hms
  have := hp.chosen g (Array.getElem?_eq_some_iff.1 hg).1 List.not_mem_nil
  rwa [getD_groups hg] at this

theorem Pending.groupsDecided {ds : List Decision} {pa : Array (Option Int)} (hp : m.Pending ds pa) :
    m.GroupsDecided pa := by
  intro ms hms
  obtain ⟨g, hg⟩ := Array.getElem?_of_mem hms
  by_cases hd : Decision.group g ∈ ds
  · have hunset := (hp.group g hd).2
    rw [getD_groups hg] at hunset
    exact .inl hunset
  · have hchosen := hp.chosen g (Array.getElem?_eq_some_iff.1 hg).1 hd
    rw [getD_groups hg] at hchosen
    exact .inr hchosen

/-- One variable of the branching order: integer variables of no group go first, then booleans
of no group and the groups, each group at its first member. -/
def decisionStep (acc : List Decision × List Decision × List Nat) (p : Var × Nat) :
    List Decision × List Decision × List Nat :=
  let (ints, rest, seen) := acc
  let (info, v) := p
  match info.group with
  | some g => if seen.contains g then acc else (ints, rest ++ [.group g], g :: seen)
  | none => if info.isBool then (ints, rest ++ [.var v], seen) else (ints ++ [.var v], rest, seen)

theorem decisions_eq (m : Model) : m.decisions =
    ((m.vars.toList.zipIdx).foldl decisionStep ([], [], [])).1 ++
      ((m.vars.toList.zipIdx).foldl decisionStep ([], [], [])).2.1 := by
  show (match (m.vars.toList.zipIdx).foldl decisionStep ([], [], []) with
    | (ints, rest, _) => ints ++ rest) = _
  rcases (m.vars.toList.zipIdx).foldl decisionStep ([], [], []) with ⟨ints, rest, seen⟩
  rfl

/-- What the decisions `D` built from the variables before `k`, with the groups `seen`, hold:
they are distinct, name variables before `k` of no group and the groups seen, and leave every
variable before `k` to a decision. -/
structure OrderInv (m : Model) (k : Nat) (D : List Decision) (seen : List Nat) : Prop where
  nodup : D.Nodup
  var : ∀ v, Decision.var v ∈ D → v < k ∧ v < m.vars.size ∧ (m.vars.getD v default).group = none
  group : ∀ g, Decision.group g ∈ D ↔ g ∈ seen
  seen_lt : ∀ g ∈ seen, g < m.groups.size
  covers : ∀ v < k, ((m.vars.getD v default).group = none → Decision.var v ∈ D) ∧
    ∀ g, (m.vars.getD v default).group = some g → g ∈ seen

section Order

variable {k : Nat} {info : Var} {D : List Decision} {seen : List Nat}

theorem nodup_append_singleton {x : Decision} (hnd : D.Nodup) (hx : x ∉ D) : (D ++ [x]).Nodup :=
  List.nodup_append.2 ⟨hnd, by simp, fun a ha b hb => by
    rw [List.mem_singleton] at hb
    subst hb
    exact fun h => hx (h ▸ ha)⟩

theorem OrderInv.skip (hk : m.vars[k]? = some info) {g : Nat} (hg : info.group = some g)
    (hseen : g ∈ seen) (h : m.OrderInv k D seen) : m.OrderInv (k + 1) D seen := by
  refine ⟨h.nodup, fun v hv => ?_, h.group, h.seen_lt, fun v hv => ?_⟩
  · obtain ⟨h1, h2⟩ := h.var v hv
    exact ⟨by omega, h2⟩
  · by_cases hvk : v = k
    · subst hvk
      rw [getD_vars hk, hg]
      exact ⟨nofun, fun g' hg' => Option.some.inj hg' ▸ hseen⟩
    · exact h.covers v (by omega)

theorem OrderInv.add_group (hm : WellFormed m) (hk : m.vars[k]? = some info) {g : Nat}
    (hg : info.group = some g) (hseen : g ∉ seen) (h : m.OrderInv k D seen) :
    m.OrderInv (k + 1) (D ++ [.group g]) (g :: seen) := by
  have hfresh : Decision.group g ∉ D := fun hmem => hseen ((h.group g).1 hmem)
  refine ⟨nodup_append_singleton h.nodup hfresh, fun v hv => ?_, fun g' => ?_, fun g' hg' => ?_,
    fun v hv => ?_⟩
  · rcases List.mem_append.1 hv with hv | hv
    · obtain ⟨h1, h2⟩ := h.var v hv
      exact ⟨by omega, h2⟩
    · simp at hv
  · simp only [List.mem_append, List.mem_cons, List.not_mem_nil, or_false, Decision.group.injEq,
      h.group g']
    exact Or.comm
  · rcases List.mem_cons.1 hg' with rfl | hg'
    · obtain ⟨ms, hms, _⟩ := hm.grouped k info g' hk hg
      exact (Array.getElem?_eq_some_iff.1 hms).1
    · exact h.seen_lt g' hg'
  · by_cases hvk : v = k
    · subst hvk
      rw [getD_vars hk, hg]
      exact ⟨nofun, fun g' hg' => Option.some.inj hg' ▸ List.mem_cons_self⟩
    · obtain ⟨h1, h2⟩ := h.covers v (by omega)
      exact ⟨fun h => List.mem_append_left _ (h1 h), fun g' hg' => List.mem_cons_of_mem _ (h2 g' hg')⟩

theorem OrderInv.add_var (hk : m.vars[k]? = some info) (hg : info.group = none)
    (h : m.OrderInv k D seen) {D' : List Decision} (hD : ∀ d, d ∈ D' ↔ d ∈ D ∨ d = .var k)
    (hnd : (Decision.var k :: D).Nodup → D'.Nodup) : m.OrderInv (k + 1) D' seen := by
  have hfresh : Decision.var k ∉ D := fun hmem => by
    have := (h.var k hmem).1
    omega
  refine ⟨hnd (List.nodup_cons.2 ⟨hfresh, h.nodup⟩), fun v hv => ?_, fun g' => ?_, h.seen_lt,
    fun v hv => ?_⟩
  · rcases (hD _).1 hv with hv | hv
    · obtain ⟨h1, h2⟩ := h.var v hv
      exact ⟨by omega, h2⟩
    · cases hv
      exact ⟨by omega, (Array.getElem?_eq_some_iff.1 hk).1, by rw [getD_vars hk, hg]⟩
  · rw [hD, ← h.group g']
    simp
  · by_cases hvk : v = k
    · subst hvk
      rw [getD_vars hk, hg]
      exact ⟨fun _ => (hD _).2 (.inr rfl), fun _ => nofun⟩
    · obtain ⟨h1, h2⟩ := h.covers v (by omega)
      exact ⟨fun h => (hD _).2 (.inl (h1 h)), h2⟩

theorem OrderInv.step (hm : WellFormed m) (hk : m.vars[k]? = some info)
    {acc : List Decision × List Decision × List Nat} (h : m.OrderInv k (acc.1 ++ acc.2.1) acc.2.2) :
    m.OrderInv (k + 1) ((decisionStep acc (info, k)).1 ++ (decisionStep acc (info, k)).2.1)
      (decisionStep acc (info, k)).2.2 := by
  obtain ⟨ints, rest, seen⟩ := acc
  unfold decisionStep
  dsimp only at h ⊢
  cases hg : info.group with
  | some g =>
    dsimp only
    split
    · exact h.skip hk hg (by simpa using ‹seen.contains g = true›)
    · have := h.add_group hm hk hg (by simpa using ‹¬seen.contains g = true›)
      simpa [List.append_assoc] using this
  | none =>
    dsimp only
    split
    · -- a boolean goes after the integers
      exact h.add_var hk hg (fun d => by simp [or_assoc]) fun hnd => by
        rw [← List.append_assoc]
        exact nodup_append_singleton (List.nodup_cons.1 hnd).2 (List.nodup_cons.1 hnd).1
    · -- an integer goes at the end of the integers
      exact h.add_var hk hg (fun d => by simp [or_assoc, or_comm]) fun hnd => by
        rw [List.append_assoc, List.singleton_append]
        exact List.perm_middle.nodup_iff.2 hnd

theorem orderInv_foldl (hm : WellFormed m) :
    ∀ (l : List Var) (n : Nat) (acc : List Decision × List Decision × List Nat),
      (∀ (i : Nat) (x : Var), l[i]? = some x → m.vars[n + i]? = some x) →
      m.OrderInv n (acc.1 ++ acc.2.1) acc.2.2 →
      m.OrderInv (n + l.length) (((l.zipIdx n).foldl decisionStep acc).1 ++
        ((l.zipIdx n).foldl decisionStep acc).2.1) ((l.zipIdx n).foldl decisionStep acc).2.2
  | [], n, acc, _, h => by simpa using h
  | x :: l, n, acc, hl, h => by
    have hx : m.vars[n]? = some x := by simpa using hl 0 x rfl
    have hrest : ∀ (i : Nat) (y : Var), l[i]? = some y → m.vars[n + 1 + i]? = some y := by
      intro i y hy
      rw [show n + 1 + i = n + (i + 1) by omega]
      exact hl (i + 1) y (by simpa using hy)
    have := orderInv_foldl hm l (n + 1) (decisionStep acc (x, n)) hrest (h.step hm hx)
    rw [show n + 1 + l.length = n + (x :: l).length by simp; omega] at this
    simpa [List.zipIdx_cons] using this

end Order

theorem pending_decisions (hm : WellFormed m) :
    m.Pending m.decisions (Array.replicate m.vars.size none) := by
  have h0 : m.OrderInv 0 ([] ++ []) [] := ⟨by simp, by simp, by simp, by simp, by simp⟩
  have h := orderInv_foldl hm m.vars.toList 0 ([], [], []) (fun i x hx => by simpa using hx) h0
  simp only [Nat.zero_add, Array.length_toList] at h
  rw [decisions_eq]
  have hnone : ∀ u, (Array.replicate m.vars.size (none : Option Int)).getD u none = none := by
    intro u
    rw [Array.getD_eq_getD_getElem?, Array.getElem?_replicate]
    split <;> rfl
  refine ⟨by simp, h.nodup, fun v hv => ?_, fun g hg => ?_, fun v hv _ => ?_, fun g hg hnot => ?_⟩
  · obtain ⟨_, h1, h2⟩ := h.var v hv
    exact ⟨h1, h2, hnone v⟩
  · exact ⟨h.seen_lt g ((h.group g).1 hg), fun v _ => hnone v⟩
  · obtain ⟨h1, h2⟩ := h.covers v hv
    cases hg : (m.vars.getD v default).group with
    | none => exact .inl (h1 hg)
    | some g => exact .inr ⟨g, rfl, (h.group g).2 (h2 g hg)⟩
  · -- a group has a member, whose group it is, so the order has its decision
    exfalso
    have hms : m.groups[g]? = some (m.groups.getD g []) := by simp [hg, Array.getD_eq_getD_getElem?]
    obtain ⟨v, hv⟩ := List.exists_mem_of_ne_nil _ (hm.group_ne_nil g _ hms)
    obtain ⟨hvlt, hvg⟩ := group_of_mem hm hv
    exact hnot ((h.group g).2 ((h.covers v hvlt).2 g hvg))

end Model

end TileSched
