import Mathlib.Data.List.Nodup

/-!
# Labelled trees as tables of children

A `Forest` is what a directory structure looks like from outside: some nodes are
live, and every node has a list of labelled children.  It is well formed when the
children of live nodes are live, no label occurs twice below a node, every node is a
child at most once, and the root is no child at all.

Two changes keep it well formed, and are all a file system does: a fresh node is
linked below a live one (`Linked`), and a child is cut off and dies (`Unlinked`).
Nothing is said about the children of a node that dies, and a well-formed forest may
contain live nodes that no path leads to.  `Reach` and `AllReach` are about paths
from the root: paths to a node are unique, and if every live node has one, that stays
so as long as only childless nodes are cut off.
-/

universe u v

namespace Yorha.Lib

/-- Live nodes, and the labelled children of each node. -/
structure Forest (ν : Type u) (ℓ : Type v) where
  live : ν → Prop
  children : ν → List (ℓ × ν)

namespace Forest

variable {ν : Type u} {ℓ : Type v} {F F' : Forest ν ℓ} {root d e v : ν} {n : ℓ} {k : Nat}

/-- Children of live nodes are live, labelled apart, and children once only. -/
structure WellFormed (F : Forest ν ℓ) (root : ν) : Prop where
  root_live : F.live root
  child_live : ∀ {d e : ν} {k : Nat} {n : ℓ},
    F.live d → (F.children d)[k]? = some (n, e) → F.live e
  child_ne_root : ∀ {d e : ν} {k : Nat} {n : ℓ},
    F.live d → (F.children d)[k]? = some (n, e) → e ≠ root
  labels : ∀ {d : ν}, F.live d → ((F.children d).map Prod.fst).Nodup
  once : ∀ {d d' e : ν} {k k' : Nat} {n n' : ℓ}, F.live d → F.live d' →
    (F.children d)[k]? = some (n, e) → (F.children d')[k']? = some (n', e) → d = d' ∧ k = k'

/-- Below a live node, every child is there once. -/
theorem WellFormed.targets (h : F.WellFormed root) (hd : F.live d) :
    ((F.children d).map Prod.snd).Nodup := by
  rw [List.nodup_iff_getElem?_ne_getElem?]
  intro k k' hlt hk' heq
  rw [List.length_map] at hk'
  have hk : k < (F.children d).length := Nat.lt_trans hlt hk'
  rw [List.getElem?_map, List.getElem?_map, List.getElem?_eq_getElem hk,
    List.getElem?_eq_getElem hk'] at heq
  have hsnd : (F.children d)[k].2 = (F.children d)[k'].2 := Option.some.inj heq
  have hkk' := (h.once hd hd (List.getElem?_eq_getElem hk)
    ((List.getElem?_eq_getElem hk').trans (congrArg some (Prod.ext rfl hsnd.symm)))).2
  exact absurd hkk' (Nat.ne_of_lt hlt)

/-- Below a live node, the child with a label is what looking the label up finds. -/
theorem WellFormed.lookup_eq_some [BEq ℓ] [LawfulBEq ℓ] (h : F.WellFormed root)
    (hd : F.live d) :
    (F.children d).lookup n = some e ↔ (n, e) ∈ F.children d := by
  have hnodup := h.labels hd
  generalize F.children d = l at hnodup
  induction l with
  | nil => simp
  | cons p l ih =>
      obtain ⟨m, c⟩ := p
      rw [List.map_cons, List.nodup_cons] at hnodup
      rw [List.lookup_cons, List.mem_cons]
      by_cases hm : n = m
      · subst hm
        have hnot : (n, e) ∉ l := fun hmem ↦ hnodup.1 (List.mem_map.mpr ⟨_, hmem, rfl⟩)
        simp [hnot, eq_comm]
      · have hne : (n == m) = false := by simpa using hm
        simp only [hne, ih hnodup.2, Prod.mk.injEq, hm, false_and, false_or]

/-! ## Linking a fresh node -/

/-- `F'` is `F` with the fresh node `e` linked below `d` under the label `n`. -/
structure Linked (F F' : Forest ν ℓ) (d : ν) (n : ℓ) (e : ν) : Prop where
  parent_live : F.live d
  fresh : ¬ F.live e
  label : n ∉ (F.children d).map Prod.fst
  live : ∀ v, F'.live v ↔ v = e ∨ F.live v
  children : ∀ {v}, F.live v → v ≠ d → F'.children v = F.children v
  parent : F'.children d = F.children d ++ [(n, e)]
  childless : F'.children e = []

/-- The children after linking: those before, and the new one below `d`. -/
theorem Linked.child_cases (h : F.Linked F' d n e) {w c : ν} {m : ℓ}
    (hw : F'.live w) (hc : (F'.children w)[k]? = some (m, c)) :
    (F.live w ∧ (F.children w)[k]? = some (m, c)) ∨
      (w = d ∧ c = e ∧ k = (F.children d).length) := by
  rcases (h.live w).mp hw with rfl | hw
  · rw [h.childless] at hc
    simp at hc
  · by_cases hwd : w = d
    · subst hwd
      rw [h.parent] at hc
      rcases Nat.lt_trichotomy k (F.children w).length with hk | hk | hk
      · rw [List.getElem?_append_left hk] at hc
        exact .inl ⟨hw, hc⟩
      · subst hk
        rw [List.getElem?_concat_length] at hc
        cases hc
        exact .inr ⟨rfl, rfl, rfl⟩
      · rw [List.getElem?_append_right (by omega), List.getElem?_eq_none (by simp; omega)] at hc
        cases hc
    · rw [h.children hw hwd] at hc
      exact .inl ⟨hw, hc⟩

/-- **Linking keeps the forest well formed.** -/
theorem Linked.wellFormed (h : F.Linked F' d n e) (hF : F.WellFormed root) :
    F'.WellFormed root where
  root_live := (h.live root).mpr (.inr hF.root_live)
  child_live := by
    intro w c k m hw hc
    rcases h.child_cases hw hc with ⟨hw', hc'⟩ | ⟨-, rfl, -⟩
    · exact (h.live c).mpr (.inr (hF.child_live hw' hc'))
    · exact (h.live c).mpr (.inl rfl)
  child_ne_root := by
    intro w c k m hw hc
    rcases h.child_cases hw hc with ⟨hw', hc'⟩ | ⟨-, rfl, -⟩
    · exact hF.child_ne_root hw' hc'
    · rintro rfl
      exact h.fresh hF.root_live
  labels := by
    intro w hw
    rcases (h.live w).mp hw with rfl | hw
    · rw [h.childless]
      exact List.nodup_nil
    · by_cases hwd : w = d
      · subst hwd
        rw [h.parent, List.map_append, List.nodup_append]
        refine ⟨hF.labels hw, by simp, ?_⟩
        intro a ha b hb
        simp only [List.map_cons, List.map_nil, List.mem_singleton] at hb
        rintro rfl
        exact h.label (hb ▸ ha)
      · rw [h.children hw hwd]
        exact hF.labels hw
  once := by
    intro w w' c k k' m m' hw hw' hc hc'
    rcases h.child_cases hw hc with ⟨hw₀, hc₀⟩ | ⟨rfl, rfl, rfl⟩
    · rcases h.child_cases hw' hc' with ⟨hw₁, hc₁⟩ | ⟨rfl, rfl, rfl⟩
      · exact hF.once hw₀ hw₁ hc₀ hc₁
      · exact absurd (hF.child_live hw₀ hc₀) h.fresh
    · rcases h.child_cases hw' hc' with ⟨hw₁, hc₁⟩ | ⟨rfl, -, rfl⟩
      · exact absurd (hF.child_live hw₁ hc₁) h.fresh
      · exact ⟨rfl, rfl⟩

/-! ## Cutting off a child -/

/-- `F'` is `F` with the child `e` at place `k` below `d` cut off and dead. -/
structure Unlinked (F F' : Forest ν ℓ) (d : ν) (k : Nat) (n : ℓ) (e : ν) : Prop where
  parent_live : F.live d
  child : (F.children d)[k]? = some (n, e)
  live : ∀ v, F'.live v ↔ v ≠ e ∧ F.live v
  children : ∀ {v}, F'.live v → v ≠ d → F'.children v = F.children v
  parent : F'.live d → F'.children d = (F.children d).eraseIdx k

/-- The children after cutting off: at the same or the next place, those before. -/
theorem Unlinked.child_cases [DecidableEq ν] (h : F.Unlinked F' d k n e) {w c : ν} {m : ℓ}
    {j : Nat} (hw : F'.live w) (hc : (F'.children w)[j]? = some (m, c)) :
    (F.children w)[if w = d ∧ k ≤ j then j + 1 else j]? = some (m, c) := by
  by_cases hwd : w = d
  · subst hwd
    rw [h.parent hw, List.getElem?_eraseIdx] at hc
    by_cases hj : j < k
    · rw [if_pos hj] at hc
      rwa [if_neg (by omega)]
    · rw [if_neg hj] at hc
      rwa [if_pos ⟨rfl, by omega⟩]
  · rw [h.children hw hwd] at hc
    rwa [if_neg (fun hh ↦ hwd hh.1)]

/-- The child cut off is nobody's child any more. -/
theorem Unlinked.child_ne [DecidableEq ν] (h : F.Unlinked F' d k n e) (hF : F.WellFormed root) {w c : ν} {m : ℓ}
    {j : Nat} (hw : F'.live w) (hc : (F'.children w)[j]? = some (m, c)) : c ≠ e := by
  rintro rfl
  have hold := h.child_cases hw hc
  obtain ⟨rfl, hj⟩ := hF.once ((h.live w).mp hw).2 h.parent_live hold h.child
  split at hj
  · omega
  · rename_i hno
    exact hno ⟨rfl, by omega⟩

/-- **Cutting off a child keeps the forest well formed.** -/
theorem Unlinked.wellFormed [DecidableEq ν] (h : F.Unlinked F' d k n e)
    (hF : F.WellFormed root) : F'.WellFormed root where
  root_live :=
    (h.live root).mpr ⟨(hF.child_ne_root h.parent_live h.child).symm, hF.root_live⟩
  child_live := by
    intro w c j m hw hc
    exact (h.live c).mpr ⟨h.child_ne hF hw hc,
      hF.child_live ((h.live w).mp hw).2 (h.child_cases hw hc)⟩
  child_ne_root := by
    intro w c j m hw hc
    exact hF.child_ne_root ((h.live w).mp hw).2 (h.child_cases hw hc)
  labels := by
    intro w hw
    by_cases hwd : w = d
    · subst hwd
      rw [h.parent hw]
      exact (hF.labels h.parent_live).sublist ((List.eraseIdx_sublist _ _).map _)
    · rw [h.children hw hwd]
      exact hF.labels ((h.live w).mp hw).2
  once := by
    intro w w' c j j' m m' hw hw' hc hc'
    obtain ⟨rfl, hj⟩ := hF.once ((h.live w).mp hw).2 ((h.live w').mp hw').2
      (h.child_cases hw hc) (h.child_cases hw' hc')
    refine ⟨rfl, ?_⟩
    by_cases hwd : w = d
    · simp only [hwd, true_and] at hj
      split at hj <;> split at hj <;> omega
    · simpa only [hwd, false_and, if_false] using hj

/-! ## Paths from the root -/

/-- The path `l` leads from the root to `v`. -/
inductive Reach (F : Forest ν ℓ) (root : ν) : List ℓ → ν → Prop
  | nil : Reach F root [] root
  | snoc {l : List ℓ} {d e : ν} {k : Nat} {n : ℓ} : Reach F root l d →
      (F.children d)[k]? = some (n, e) → Reach F root (l ++ [n]) e

/-- What a path leads to is live. -/
theorem Reach.live (hF : F.WellFormed root) {l : List ℓ} (h : F.Reach root l v) :
    F.live v := by
  induction h with
  | nil => exact hF.root_live
  | snoc _ hc ih => exact hF.child_live ih hc

/-- **At most one path leads to a node.** -/
theorem Reach.unique (hF : F.WellFormed root) {l l' : List ℓ} (h : F.Reach root l v)
    (h' : F.Reach root l' v) : l = l' := by
  induction h generalizing l' with
  | nil =>
      cases h' with
      | nil => rfl
      | snoc hd hc => exact absurd rfl (hF.child_ne_root (Reach.live hF hd) hc)
  | snoc hd hc ih =>
      cases h' with
      | nil => exact absurd rfl (hF.child_ne_root (Reach.live hF hd) hc)
      | snoc hd' hc' =>
          obtain ⟨rfl, rfl⟩ := hF.once (Reach.live hF hd) (Reach.live hF hd') hc hc'
          rw [hc] at hc'
          cases hc'
          rw [ih hd']

/-- No node that a path leads to is its own child. -/
theorem Reach.child_ne (hF : F.WellFormed root) {l : List ℓ} (h : F.Reach root l d)
    (hc : (F.children d)[k]? = some (n, e)) : d ≠ e := by
  rintro rfl
  have hlen := congrArg List.length (h.unique hF (h.snoc hc))
  rw [List.length_append, List.length_singleton] at hlen
  omega

/-- A path leads to every live node. -/
def AllReach (F : Forest ν ℓ) (root : ν) : Prop := ∀ v, F.live v → ∃ l, F.Reach root l v

/-- Linking keeps every path. -/
theorem Linked.reach (h : F.Linked F' d n e) (hF : F.WellFormed root) {l : List ℓ}
    (hr : F.Reach root l v) : F'.Reach root l v := by
  induction hr with
  | nil => exact .nil
  | @snoc l w c k m hw hc ih =>
      have hlive := Reach.live hF hw
      refine ih.snoc (k := k) ?_
      by_cases hwd : w = d
      · subst hwd
        rw [h.parent, List.getElem?_append_left]
        · exact hc
        · exact (List.getElem?_eq_some_iff.mp hc).1
      · rw [h.children hlive hwd]
        exact hc

/-- **Linking keeps every live node reachable.** -/
theorem Linked.allReach (h : F.Linked F' d n e) (hF : F.WellFormed root)
    (hall : F.AllReach root) : F'.AllReach root := by
  intro v hv
  rcases (h.live v).mp hv with rfl | hv
  · obtain ⟨l, hl⟩ := hall d h.parent_live
    refine ⟨l ++ [n], (h.reach hF hl).snoc (k := (F.children d).length) ?_⟩
    rw [h.parent, List.getElem?_concat_length]
  · obtain ⟨l, hl⟩ := hall v hv
    exact ⟨l, h.reach hF hl⟩

/-- Cutting off a childless node keeps the paths to every other node. -/
theorem Unlinked.reach (h : F.Unlinked F' d k n e) (hF : F.WellFormed root)
    (hleaf : F.children e = []) {l : List ℓ} (hr : F.Reach root l v) (hv : v ≠ e) :
    F'.Reach root l v := by
  induction hr with
  | nil => exact .nil
  | @snoc l w c j m hw hc ih =>
      have hwe : w ≠ e := by
        rintro rfl
        rw [hleaf] at hc
        simp at hc
      have hw' : F'.live w := (h.live w).mpr ⟨hwe, Reach.live hF hw⟩
      by_cases hwd : w = d
      · subst hwd
        have hjk : j ≠ k := by
          rintro rfl
          rw [h.child] at hc
          cases hc
          exact hv rfl
        refine (ih hwe).snoc (k := if j < k then j else j - 1) ?_
        rw [h.parent hw', List.getElem?_eraseIdx]
        by_cases hj : j < k
        · rw [if_pos hj, if_pos hj]
          exact hc
        · rw [if_neg hj, if_neg (by omega), show j - 1 + 1 = j by omega]
          exact hc
      · refine (ih hwe).snoc (k := j) ?_
        rw [h.children hw' hwd]
        exact hc

/-- **Cutting off a childless node keeps every live node reachable.** -/
theorem Unlinked.allReach (h : F.Unlinked F' d k n e) (hF : F.WellFormed root)
    (hleaf : F.children e = []) (hall : F.AllReach root) : F'.AllReach root := by
  intro v hv
  obtain ⟨hne, hlive⟩ := (h.live v).mp hv
  obtain ⟨l, hl⟩ := hall v hlive
  exact ⟨l, h.reach hF hleaf hl hne⟩

/-! ## The same forest -/

/-- The same nodes are live, with the same children. -/
structure Same (F F' : Forest ν ℓ) : Prop where
  live : ∀ v, F'.live v ↔ F.live v
  children : ∀ {v}, F.live v → F'.children v = F.children v

theorem Same.wellFormed (h : F.Same F') (hF : F.WellFormed root) : F'.WellFormed root where
  root_live := (h.live root).mpr hF.root_live
  child_live := by
    intro d e k n hd hc
    have hd := (h.live d).mp hd
    rw [h.children hd] at hc
    exact (h.live e).mpr (hF.child_live hd hc)
  child_ne_root := by
    intro d e k n hd hc
    have hd := (h.live d).mp hd
    rw [h.children hd] at hc
    exact hF.child_ne_root hd hc
  labels := by
    intro d hd
    have hd := (h.live d).mp hd
    rw [h.children hd]
    exact hF.labels hd
  once := by
    intro d d' e k k' n n' hd hd' hc hc'
    have hd := (h.live d).mp hd
    have hd' := (h.live d').mp hd'
    rw [h.children hd] at hc
    rw [h.children hd'] at hc'
    exact hF.once hd hd' hc hc'

/-- The same forest has the same paths. -/
theorem Same.allReach (h : F.Same F') (hF : F.WellFormed root) (hall : F.AllReach root) :
    F'.AllReach root := by
  intro v hv
  obtain ⟨l, hl⟩ := hall v ((h.live v).mp hv)
  refine ⟨l, ?_⟩
  clear hv
  induction hl with
  | nil => exact .nil
  | @snoc l w c k m hw hc ih =>
      refine ih.snoc (k := k) ?_
      rw [h.children (Reach.live hF hw)]
      exact hc

/-! ## Following labels -/

section

variable [BEq ℓ] [LawfulBEq ℓ]

/-- Follow labels from a node, each to the first child that has it. -/
def resolve (F : Forest ν ℓ) : List ℓ → ν → Option ν
  | [], v => some v
  | n :: l, v => ((F.children v).lookup n).bind (F.resolve l)

omit [LawfulBEq ℓ] in
/-- The last label is looked up where the others lead. -/
theorem resolve_concat (F : Forest ν ℓ) (l : List ℓ) (n : ℓ) (v : ν) :
    F.resolve (l ++ [n]) v = (F.resolve l v).bind fun w ↦ (F.children w).lookup n := by
  induction l generalizing v with
  | nil =>
      change ((F.children v).lookup n).bind some = (F.children v).lookup n
      exact Option.bind_fun_some _
  | cons m l ih =>
      rw [List.cons_append, Forest.resolve, Forest.resolve, Option.bind_assoc]
      exact congrArg _ (funext ih)

/-- A label found by a lookup is at some place. -/
theorem getElem?_of_lookup {l : List (ℓ × ν)} (h : l.lookup n = some v) :
    ∃ k : Nat, l[k]? = some (n, v) := by
  obtain ⟨l₁, l₂, rfl, -⟩ := List.lookup_eq_some_iff.mp h
  refine ⟨l₁.length, ?_⟩
  rw [List.getElem?_append_right (Nat.le_refl _), Nat.sub_self, List.getElem?_cons_zero]

/-- Labels that lead on from the end of a path make a longer path. -/
theorem Reach.resolve {l l' : List ℓ} (h : F.Reach root l d) (hr : F.resolve l' d = some v) :
    F.Reach root (l ++ l') v := by
  induction l' generalizing l d with
  | nil =>
      cases hr
      rw [List.append_nil]
      exact h
  | cons n l' ih =>
      rw [Forest.resolve, Option.bind_eq_some_iff] at hr
      obtain ⟨c, hc, hr⟩ := hr
      obtain ⟨k, hk⟩ := getElem?_of_lookup hc
      rw [List.append_cons]
      exact ih (h.snoc hk) hr

omit [LawfulBEq ℓ] in
/-- Appending a child with a new label changes no lookup that succeeds. -/
theorem lookup_append_of_eq_some {l l' : List (ℓ × ν)} (h : l.lookup n = some v) :
    (l ++ l').lookup n = some v := by
  rw [List.lookup_append, h]
  rfl

/-- Linking changes no path that leads somewhere. -/
theorem Linked.resolve (h : F.Linked F' d n e) (hF : F.WellFormed root) {l : List ℓ} {w : ν}
    (hw : F.live w) (hr : F.resolve l w = some v) : F'.resolve l w = some v := by
  induction l generalizing w with
  | nil => exact hr
  | cons m l ih =>
      rw [Forest.resolve, Option.bind_eq_some_iff] at hr ⊢
      obtain ⟨c, hc, hr⟩ := hr
      obtain ⟨k, hk⟩ := getElem?_of_lookup hc
      refine ⟨c, ?_, ih (hF.child_live hw hk) hr⟩
      by_cases hwd : w = d
      · subst hwd
        rw [h.parent]
        exact lookup_append_of_eq_some hc
      · rw [h.children hw hwd]
        exact hc

/-- The new label leads to the new node. -/
theorem Linked.lookup_self (h : F.Linked F' d n e) : (F'.children d).lookup n = some e := by
  have hnone : (F.children d).lookup n = none := by
    rw [List.lookup_eq_none_iff]
    intro p hp
    rw [bne_iff_ne]
    rintro rfl
    exact h.label (List.mem_map_of_mem hp)
  rw [h.parent, List.lookup_append, hnone, Option.none_or, List.lookup_cons_self]

/-- Linking changes no other lookup. -/
theorem Linked.lookup_of_ne (h : F.Linked F' d n e) {w : ν} {m : ℓ} (hw : F.live w)
    (hne : w ≠ d ∨ m ≠ n) : (F'.children w).lookup m = (F.children w).lookup m := by
  by_cases hwd : w = d
  · subst hwd
    have hm : (m == n) = false := beq_eq_false_iff_ne.mpr (hne.resolve_left (fun h ↦ h rfl))
    rw [h.parent, List.lookup_append, List.lookup_cons, hm]
    simp
  · rw [h.children hw hwd]

/-- The label of a child that was cut off leads nowhere. -/
theorem Unlinked.lookup_self (h : F.Unlinked F' d k n e) (hF : F.WellFormed root)
    (hd : F'.live d) : (F'.children d).lookup n = none := by
  rw [List.lookup_eq_none_iff]
  intro p hp
  rw [bne_iff_ne]
  rintro rfl
  rw [h.parent hd, List.mem_eraseIdx_iff_getElem?] at hp
  obtain ⟨j, hjk, hj⟩ := hp
  have hj' : ((F.children d).map Prod.fst)[j]? = some p.1 := by rw [List.getElem?_map, hj]; rfl
  have hk' : ((F.children d).map Prod.fst)[k]? = some p.1 := by
    rw [List.getElem?_map, h.child]
    rfl
  obtain ⟨hlt, -⟩ := List.getElem?_eq_some_iff.mp hj'
  exact hjk ((List.getElem?_inj hlt (hF.labels h.parent_live)).mp (hj'.trans hk'.symm))

/-- Cutting off a child changes no other lookup. -/
theorem Unlinked.lookup_of_ne [DecidableEq ν] (h : F.Unlinked F' d k n e)
    (hF : F.WellFormed root) {w : ν} {m : ℓ} (hw : F'.live w) (hne : w ≠ d ∨ m ≠ n) :
    (F'.children w).lookup m = (F.children w).lookup m := by
  by_cases hwd : w = d
  · subst hwd
    have hm := hne.resolve_left (fun h ↦ h rfl)
    ext c
    rw [(h.wellFormed hF).lookup_eq_some hw, hF.lookup_eq_some h.parent_live, h.parent hw,
      List.mem_eraseIdx_iff_getElem?]
    constructor
    · rintro ⟨j, -, hj⟩
      exact List.mem_of_getElem? hj
    · intro hmem
      obtain ⟨j, hj⟩ := List.getElem?_of_mem hmem
      refine ⟨j, ?_, hj⟩
      rintro rfl
      rw [h.child] at hj
      cases hj
      exact hm rfl
  · rw [h.children hw hwd]

/-- The same forest leads to the same nodes. -/
theorem Same.resolve (h : F.Same F') (hF : F.WellFormed root) {l : List ℓ} {w : ν}
    (hw : F.live w) : F'.resolve l w = F.resolve l w := by
  induction l generalizing w with
  | nil => rfl
  | cons m l ih =>
      rw [Forest.resolve, Forest.resolve, h.children hw]
      cases hc : (F.children w).lookup m with
      | none => rfl
      | some c =>
          obtain ⟨k, hk⟩ := getElem?_of_lookup hc
          exact ih (hF.child_live hw hk)

/-- Labels lead from live nodes to live nodes. -/
theorem WellFormed.resolve_live (hF : F.WellFormed root) {l : List ℓ} {w : ν} (hw : F.live w)
    (hr : F.resolve l w = some v) : F.live v := by
  induction l generalizing w with
  | nil =>
      obtain rfl : w = v := Option.some.inj hr
      exact hw
  | cons m l ih =>
      rw [Forest.resolve, Option.bind_eq_some_iff] at hr
      obtain ⟨c, hc, hr⟩ := hr
      obtain ⟨k, hk⟩ := getElem?_of_lookup hc
      exact ih (hF.child_live hw hk) hr

/-- **Cutting off a node** changes no path that does not come to it. -/
theorem Unlinked.resolve [DecidableEq ν] (h : F.Unlinked F' d k n e) (hF : F.WellFormed root)
    {l : List ℓ} {w : ν} (hw : F'.live w) (hr : F.resolve l w = some v)
    (havoid : ∀ m l', m :: l' <+: l → F.resolve (m :: l') w ≠ some e) :
    F'.resolve l w = some v := by
  induction l generalizing w with
  | nil => exact hr
  | cons m l ih =>
      rw [Forest.resolve, Option.bind_eq_some_iff] at hr ⊢
      obtain ⟨c, hc, hr⟩ := hr
      have hstep : ∀ l', F.resolve (m :: l') w = F.resolve l' c := by
        intro l'
        rw [Forest.resolve, hc]
        rfl
      have hce : c ≠ e := by
        rintro rfl
        exact havoid m [] (List.prefix_append [m] l) (hstep [])
      have hlive : F.live w := ((h.live w).mp hw).2
      refine ⟨c, ?_, ih ?_ hr fun m' l' hpre ↦ ?_⟩
      · rw [h.lookup_of_ne hF hw ?_]
        · exact hc
        · by_contra hboth
          rw [not_or, not_not, not_not] at hboth
          obtain ⟨rfl, rfl⟩ := hboth
          have hchild := (hF.lookup_eq_some hlive).mpr (List.mem_of_getElem? h.child)
          rw [hc] at hchild
          exact hce (Option.some.inj hchild)
      · obtain ⟨j, hj⟩ := getElem?_of_lookup hc
        exact (h.live c).mpr ⟨hce, hF.child_live hlive hj⟩
      · rw [← hstep]
        exact havoid m (m' :: l') (List.cons_prefix_cons.mpr ⟨rfl, hpre⟩)

end

end Forest

end Yorha.Lib
