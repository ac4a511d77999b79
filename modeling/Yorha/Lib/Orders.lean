import Yorha.Lib.Store

/-!
# Orders to a store

What a person at a terminal has a store do, line by line.  An order is about the node at a path,
and it says something: the content of a file, the names in a directory, or just a text.

`Store.Obeys` is what becomes of the store, what is said, and whether the order succeeded.
`Store.Follows` is where it is said: it is shown, or it is put into an empty file that the line
names.  Afterwards, the handles are what they were.
-/

universe u v w

namespace Yorha.Lib

/-- What is ordered.  A notice is shown, wherever the rest is said. -/
inductive Order (ℓ : Type v) (β : Type w) where
  | notify (text : List β)
  | say (text : List β)
  | display (path : Option (List ℓ × ℓ)) (render : List β → List β)
  | list (dir : Option (List ℓ)) (render : List ℓ → List β)
  | make (path : Option (List ℓ × ℓ)) (kind : Kind)
  | remove (path : Option (List ℓ × ℓ))

/-- An order, whether it succeeded, and what it said. -/
structure Obeyed (ℓ : Type v) (β : Type w) where
  order : Order ℓ β
  ok : Bool
  text : List β

/-- What a line says: an order, and the file for what it says, if one is named. -/
structure Directed (ℓ : Type v) (β : Type w) where
  order : Order ℓ β
  target : Option (Option (List ℓ × ℓ))

/-- A line, and what was seen of it: whether its order succeeded, and what was shown.  Nothing is
seen of an order whose target is not there. -/
structure Followed (ℓ : Type v) (β : Type w) where
  line : Directed ℓ β
  outcome : Option (Bool × List β)

namespace Store

variable {ν : Type u} {ℓ : Type v} {β : Type w} {s s' : Store ν ℓ β}

/-! ## Handles do not matter for paths -/

theorem child_congr (h : s'.node = s.node) (d : ν) (n : ℓ) : s'.child d n = s.child d n := by
  rw [child, child, h]

theorem isDir_congr (h : s'.node = s.node) (d : ν) : s'.isDir d = s.isDir d := by
  rw [isDir, isDir, h]

theorem walk_congr (h : s'.node = s.node) (names : List ℓ) (v : ν) :
    s'.walk names v = s.walk names v := by
  induction names generalizing v with
  | nil => rfl
  | cons n names ih =>
      rw [walk, walk, child_congr h]
      exact Option.bind_congr fun next _ ↦ ih next

theorem place_congr (h : s'.node = s.node) (root : ν) (path : Option (List ℓ × ℓ)) :
    s'.place root path = s.place root path := by
  cases path with
  | none => rfl
  | some p =>
      rw [place, place, walk_congr h]
      exact Option.bind_congr fun d _ ↦ by rw [isDir_congr h]

/-- A path stands for a name in a directory. -/
theorem isDir_of_place {root d : ν} {path : Option (List ℓ × ℓ)} {n : ℓ}
    (h : s.place root path = some (d, n)) : s.isDir d = true := by
  cases path with
  | none => cases h
  | some p =>
      rw [place, Option.bind_eq_some_iff] at h
      obtain ⟨d', -, h⟩ := h
      split at h
      · rename_i hdir
        cases h
        exact hdir
      · cases h

/-- A handle that was free is closed again. -/
theorem setHandle_free {h : Nat} (hfree : s.handle h = none) (e : Option (Handle ν)) :
    (s.setHandle h e).setHandle h none = s := by
  refine Store.ext rfl ?_
  change Function.update (Function.update s.handle h e) h none = s.handle
  rw [Function.update_idem, ← hfree, Function.update_eq_self]

/-- The handle is the last thing that was changed. -/
theorem setHandle_setHandle (h : Nat) (e e' : Option (Handle ν)) :
    (s.setHandle h e).setHandle h e' = s.setHandle h e' :=
  Store.ext rfl (Function.update_idem _ _ _)

/-- An open handle stays as it is. -/
theorem setHandle_self {h : Nat} {e : Option (Handle ν)} (he : s.handle h = e) :
    s.setHandle h e = s := by
  refine Store.ext rfl ?_
  change Function.update s.handle h e = s.handle
  rw [← he, Function.update_eq_self]

theorem handle_setHandle (h : Nat) (e : Option (Handle ν)) :
    (s.setHandle h e).handle h = e := Function.update_self _ _ _

variable [DecidableEq ν]

/-- Giving a node what it has changes nothing. -/
theorem setNode_self {v : ν} {node : Option (Node ν ℓ β)} (h : s.node v = node) :
    s.setNode v node = s := by
  refine Store.ext ?_ rfl
  change Function.update s.node v node = s.node
  rw [← h, Function.update_eq_self]

/-- Nodes and handles are changed in any order. -/
theorem setNode_setHandle (h : Nat) (e : Option (Handle ν)) (v : ν) (node : Option (Node ν ℓ β)) :
    (s.setHandle h e).setNode v node = (s.setNode v node).setHandle h e := rfl

variable [DecidableEq ℓ]

/-! ## Orders -/

/-- What a store is after an order, whether this succeeded, and what it says, where there may be
room for so many bytes only. -/
inductive Obeys (root : ν) (room : Option Nat) : Store ν ℓ β → Obeyed ℓ β → Store ν ℓ β → Prop
  | notified {s : Store ν ℓ β} {text : List β} : Obeys root room s ⟨.notify text, true, text⟩ s
  | said {s : Store ν ℓ β} {text : List β} :
      Obeys root room s ⟨.say text, room.all (text.length ≤ ·), text⟩ s
  | displayed {s : Store ν ℓ β} {path : Option (List ℓ × ℓ)} {render : List β → List β} {d v : ν}
      {n : ℓ} {content : List β} :
      s.place root path = some (d, n) → s.child d n = some v →
      s.node v = some (.file content) →
      Obeys root room s ⟨.display path render, true, render content⟩ s
  | notDisplayed {s : Store ν ℓ β} {path : Option (List ℓ × ℓ)} {render : List β → List β}
      {d : ν} {n : ℓ} :
      s.place root path = some (d, n) → s.child d n = none →
      Obeys root room s ⟨.display path render, false, []⟩ s
  | listed {s : Store ν ℓ β} {dir names : List ℓ} {render : List ℓ → List β} {d : ν} :
      s.walk dir root = some d → s.isDir d = true → names.Nodup →
      (∀ n, n ∈ names ↔ s.child d n ≠ none) →
      Obeys root room s ⟨.list (some dir) render, true, render names⟩ s
  | notListed {s : Store ν ℓ β} {dir : Option (List ℓ)} {render : List ℓ → List β} :
      (∀ names d, dir = some names → s.walk names root = some d → s.isDir d = false) →
      Obeys root room s ⟨.list dir render, false, []⟩ s
  | made {s : Store ν ℓ β} {path : Option (List ℓ × ℓ)} {kind : Kind} {d v : ν} {n : ℓ} :
      s.place root path = some (d, n) → s.child d n = none → s.node v = none →
      Obeys root room s ⟨.make path kind, true, []⟩
        ((s.setChild d n (some v)).setNode v (some (made kind)))
  | notMade {s : Store ν ℓ β} {path : Option (List ℓ × ℓ)} {kind : Kind} :
      (∀ d n, s.place root path = some (d, n) → s.child d n ≠ none) →
      Obeys root room s ⟨.make path kind, false, []⟩ s
  | removed {s : Store ν ℓ β} {path : Option (List ℓ × ℓ)} {d v : ν} {n : ℓ} :
      s.place root path = some (d, n) → s.child d n = some v → d ≠ v → v ≠ root →
      Obeys root room s ⟨.remove path, true, []⟩ ((s.setChild d n none).setNode v none)
  | notRemoved {s : Store ν ℓ β} {path : Option (List ℓ × ℓ)} {d : ν} {n : ℓ} :
      s.place root path = some (d, n) → s.child d n = none →
      Obeys root room s ⟨.remove path, false, []⟩ s

section

variable {root : ν} {room : Option Nat} {o : Obeyed ℓ β}

/-- **Orders leave handles alone.** -/
theorem Obeys.handle (h : Obeys root room s o s') : s'.handle = s.handle := by
  cases h with
  | _ => rfl

/-- **Handles do not matter for orders.** -/
theorem Obeys.of_setHandle {h : Nat} {e : Option (Handle ν)} {s₁ s₂ : Store ν ℓ β}
    (hs : s₁ = s.setHandle h e) (hobeys : Obeys root room s₁ o s₂) :
    ∃ s', Obeys root room s o s' ∧ s₂ = s'.setHandle h e := by
  have hnode : s.node = s₁.node := by
    rw [hs]
    rfl
  cases hobeys with
  | notified => exact ⟨s, .notified, hs⟩
  | said => exact ⟨s, .said, hs⟩
  | displayed hplace hchild hfile =>
      rw [← place_congr hnode] at hplace
      rw [← child_congr hnode] at hchild
      rw [← hnode] at hfile
      exact ⟨s, .displayed hplace hchild hfile, hs⟩
  | notDisplayed hplace hchild =>
      rw [← place_congr hnode] at hplace
      rw [← child_congr hnode] at hchild
      exact ⟨s, .notDisplayed hplace hchild, hs⟩
  | listed hwalk hdir hnodup hnames =>
      rw [← walk_congr hnode] at hwalk
      rw [← isDir_congr hnode] at hdir
      simp only [← child_congr hnode] at hnames
      exact ⟨s, .listed hwalk hdir hnodup hnames, hs⟩
  | notListed hwalk =>
      simp only [← walk_congr hnode, ← isDir_congr hnode] at hwalk
      exact ⟨s, .notListed hwalk, hs⟩
  | made hplace hchild hfresh =>
      rw [← place_congr hnode] at hplace
      rw [← child_congr hnode] at hchild
      rw [← hnode] at hfresh
      subst hs
      exact ⟨_, .made hplace hchild hfresh, rfl⟩
  | notMade hplace =>
      simp only [← place_congr hnode, ← child_congr hnode] at hplace
      exact ⟨s, .notMade hplace, hs⟩
  | removed hplace hchild hne hroot =>
      rw [← place_congr hnode] at hplace
      rw [← child_congr hnode] at hchild
      subst hs
      exact ⟨_, .removed hplace hchild hne hroot, rfl⟩
  | notRemoved hplace hchild =>
      rw [← place_congr hnode] at hplace
      rw [← child_congr hnode] at hchild
      exact ⟨s, .notRemoved hplace hchild, hs⟩

/-- An order leaves every file alone but the one that it removes. -/
theorem Obeys.file {g : ν} {content : List β} (h : Obeys root room s o s')
    (hg : s.node g = some (.file content))
    (hremove : ∀ path d n, o.order = .remove path → s.place root path = some (d, n) →
      s.child d n ≠ some g) : s'.node g = some (.file content) := by
  have hdir : ∀ {d n path}, s.place root path = some (d, n) → g ≠ d := by
    rintro d n path hplace rfl
    have hdir := isDir_of_place hplace
    rw [isDir, hg] at hdir
    cases hdir
  cases h with
  | made hplace hchild hfresh =>
      have hne : g ≠ _ := fun heq ↦ Option.some_ne_none _ (hg.symm.trans (heq ▸ hfresh))
      change Function.update (Function.update s.node _ _) _ _ g = _
      rw [Function.update_of_ne hne, Function.update_of_ne (hdir hplace)]
      exact hg
  | removed hplace hchild =>
      have hne : g ≠ _ := fun heq ↦ hremove _ _ _ rfl hplace (heq ▸ hchild)
      change Function.update (Function.update s.node _ _) _ _ g = _
      rw [Function.update_of_ne hne, Function.update_of_ne (hdir hplace)]
      exact hg
  | _ => exact hg

end

/-! ## Lines -/

/-- What a store is after a line, and what is seen of it. -/
inductive Follows (root : ν) (capacity : Nat) : Store ν ℓ β → Followed ℓ β → Store ν ℓ β → Prop
  | shown {s s' : Store ν ℓ β} {o : Order ℓ β} {ok : Bool} {text : List β} :
      Obeys root none s ⟨o, ok, text⟩ s' →
      Follows root capacity s ⟨⟨o, none⟩, some (ok, text)⟩ s'
  | refused {s : Store ν ℓ β} {o : Order ℓ β} {path : Option (List ℓ × ℓ)} {d : ν} {n : ℓ} :
      s.place root path = some (d, n) → s.child d n = none →
      Follows root capacity s ⟨⟨o, some path⟩, none⟩ s
  | notified {s : Store ν ℓ β} {text : List β} {path : Option (List ℓ × ℓ)} {d g : ν} {n : ℓ} :
      s.place root path = some (d, n) → s.child d n = some g →
      Follows root capacity s ⟨⟨.notify text, some path⟩, some (true, text)⟩ s
  | redirected {s s' : Store ν ℓ β} {o : Order ℓ β} {path : Option (List ℓ × ℓ)} {d g : ν} {n : ℓ}
      {ok : Bool} {text : List β} :
      s.place root path = some (d, n) → s.child d n = some g → s.node g = some (.file []) →
      (∀ notice, o ≠ .notify notice) → Obeys root (some capacity) s ⟨o, ok, text⟩ s' →
      s'.node g = some (.file []) →
      Follows root capacity s ⟨⟨o, some path⟩, some (ok, [])⟩
        (s'.setNode g (some (.file (text.take capacity))))

/-- **Lines leave handles alone.** -/
theorem Follows.handle {root : ν} {capacity : Nat} {o : Followed ℓ β}
    (h : Follows root capacity s o s') : s'.handle = s.handle := by
  cases h with
  | shown hobeys => exact hobeys.handle
  | refused => rfl
  | notified => rfl
  | redirected _ _ _ _ hobeys => exact hobeys.handle

theorem handle_of_follows {root : ν} {capacity : Nat} {l : List (Followed ℓ β)}
    (h : Run (Follows root capacity) s l s') : s'.handle = s.handle := by
  induction h with
  | nil => rfl
  | snoc _ hstep ih => rw [hstep.handle, ih]

end Store

end Yorha.Lib
