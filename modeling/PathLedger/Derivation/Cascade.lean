import PathLedger.Derivation.Graph

/-!
# Cascades

A change sets off the targets that depend on it, those set off theirs, and so on, breadth first and
each target at most once.

* `Derivation.Graph.cascade` — the targets in the order in which they are set off.
* `Derivation.Graph.changedAt`, `Derivation.Graph.changedUnder` — what a cascade starts from.
-/

namespace PathLedger.Derivation.Graph

/-- The targets of a row that are not yet seen, each once. -/
def unseen (seen : List String) : List String → List String
  | [] => []
  | t :: rest =>
    if seen.contains t then unseen seen rest else t :: unseen (t :: seen) rest

/-- Every target that subscribes to something. -/
def subscribedTargets (g : Graph) : List String := g.subscribers.entries.flatMap Prod.snd

/-- The number of subscribed targets that are not yet seen. -/
def ahead (g : Graph) (seen : List String) : Nat :=
  g.subscribedTargets.countP fun t => !seen.contains t

theorem mem_of_mem_unseen {seen row : List String} {t : String} (h : t ∈ unseen seen row) :
    t ∈ row ∧ t ∉ seen := by
  induction row generalizing seen with
  | nil => simp [unseen] at h
  | cons a rest ih =>
    unfold unseen at h
    split at h
    · exact ⟨List.mem_cons_of_mem _ (ih h).1, (ih h).2⟩
    · next ha =>
      rcases List.mem_cons.1 h with rfl | h
      · exact ⟨List.mem_cons_self, by simpa using ha⟩
      · have := ih h
        exact ⟨List.mem_cons_of_mem _ this.1, fun hm => this.2 (List.mem_cons_of_mem _ hm)⟩

theorem mem_subscribedTargets {g : Graph} {key t : String} (h : t ∈ g.subscribersOf key) :
    t ∈ g.subscribedTargets := by
  unfold subscribersOf at h
  cases hk : g.subscribers.get? key with
  | none => simp [hk] at h
  | some row =>
    rw [hk] at h
    exact List.mem_flatMap.2 ⟨(key, row), Dict.get?_eq_some_iff_mem.1 hk, h⟩

theorem countP_lt_of_imp {α : Type} {p q : α → Bool} {l : List α} {a : α} (ha : a ∈ l)
    (hp : p a = false) (hq : q a = true) (himp : ∀ x, p x = true → q x = true) :
    l.countP p < l.countP q := by
  induction l with
  | nil => simp at ha
  | cons b rest ih =>
    have hle : rest.countP p ≤ rest.countP q := List.countP_mono_left fun x _ => himp x
    rcases List.mem_cons.1 ha with rfl | ha
    · simp [hp, hq]
      omega
    · have := ih ha
      by_cases hb : p b = true
      · simp [hb, himp b hb, this]
      · simp only [List.countP_cons]
        simp only [Bool.not_eq_true] at hb
        simp [hb]
        omega

theorem ahead_lt {g : Graph} {seen : List String} {key t : String} {rest : List String}
    (h : unseen seen (g.subscribersOf key) = t :: rest) :
    g.ahead (seen ++ t :: rest) < g.ahead seen := by
  have ht : t ∈ unseen seen (g.subscribersOf key) := h ▸ List.mem_cons_self
  have hmem := mem_of_mem_unseen ht
  refine countP_lt_of_imp (mem_subscribedTargets hmem.1) ?_ ?_ ?_
  · simp
  · simpa using hmem.2
  · intro x hx
    simp only [Bool.not_eq_eq_eq_not, Bool.not_true, List.contains_eq_mem, decide_eq_false_iff_not,
      List.mem_append, not_or] at hx ⊢
    exact hx.1

/-- The targets still to come: those that wait, then those set off by the changed keys in turn. A target that
passes `changes` counts as changed itself. -/
def cascadeFrom (g : Graph) (changes : String → Bool) (seen waiting changed : List String) :
    List String :=
  match waiting, changed with
  | t :: waiting, changed =>
    t :: g.cascadeFrom changes seen waiting (if changes t then changed ++ [t] else changed)
  | [], [] => []
  | [], key :: changed =>
    match h : unseen seen (g.subscribersOf key) with
    | [] => g.cascadeFrom changes seen [] changed
    | t :: rest =>
      have := ahead_lt h
      g.cascadeFrom changes (seen ++ t :: rest) (t :: rest) changed
termination_by (g.ahead seen, 2 * waiting.length + changed.length)
decreasing_by
  · apply Prod.Lex.right
    split
    · simp
      omega
    · simp
  · apply Prod.Lex.right
    simp
  · exact Prod.Lex.left _ _ this

/-- The targets that a row of changed keys sets off, in order. -/
def cascade (g : Graph) (changes : String → Bool) (changed : List String) : List String :=
  g.cascadeFrom changes [] [] changed

/-- What changes with a path; nothing depends on the root. -/
def changedAt (p : Path) : List String := if p.isRoot then [] else [p.key]

/-- What changes when a whole scope does: every key in it that some target depends on. -/
def changedUnder (g : Graph) (scope : Path) : List String := g.referencesUnder scope

end PathLedger.Derivation.Graph
