import PathLedger.Proofs.Derivation.Cascades

/-!
# The order of a cascade

A cascade goes level by level: first what the changed keys set off, then what these targets set off, and so on.
The keys that have still to set something off are of two neighbouring levels, those of the lower one in front,
and what waits is of the upper one.

* `Derivation.Graph.Away` — a key that is a number of subscriptions away from where a change starts.
* `Derivation.Graph.exists_away_iff` — what is away by one subscription or more is what is reached.
* `Derivation.Graph.Level` — how far a cascade has come; `Derivation.Graph.Level.take`,
  `Derivation.Graph.Level.expand` and `Derivation.Graph.Level.climb` are its steps.
* `Derivation.Graph.pairwise_cascade` — **a cascade never takes a target before one that is nearer**.
-/

namespace PathLedger.Derivation.Graph

/-- A key that is a number of subscriptions away from where a change starts. -/
inductive Away (g : Graph) (start : String → Prop) : Nat → String → Prop where
  | start {key : String} (h : start key) : Away g start 0 key
  | further {n : Nat} {t u : String} (h : Away g start n t) (hu : u ∈ g.subscribersOf t) : Away g start (n + 1) u

/-- However far a target is from the start, another is no farther. A target that is itself where the change
starts counts from the first subscription that leads back to it. -/
def NoFarther (g : Graph) (start : String → Prop) (t u : String) : Prop :=
  ∀ n, Away g start (n + 1) u → ∃ m ≤ n, Away g start (m + 1) t

variable {g : Graph} {start : String → Prop}

/-- **What is away by one subscription or more is what is reached.** -/
theorem exists_away_iff {t : String} :
    (∃ n, Away g start (n + 1) t) ↔ ∃ key, start key ∧ Reaches g key t := by
  constructor
  · rintro ⟨n, ht⟩
    induction n generalizing t with
    | zero =>
      cases ht with
      | further hkey ht =>
        cases hkey with
        | start hkey => exact ⟨_, hkey, .direct ht⟩
    | succ n ih =>
      cases ht with
      | further hs ht =>
        obtain ⟨key, hkey, hreaches⟩ := ih hs
        exact ⟨key, hkey, hreaches.further ht⟩
  · rintro ⟨key, hkey, hreaches⟩
    induction hreaches with
    | direct ht => exact ⟨0, .further (.start hkey) ht⟩
    | further _ hu ih =>
      obtain ⟨n, hn⟩ := ih
      exact ⟨n + 1, hn.further hu⟩

/-! ## Levels -/

/-- A cascade has come to a level: the keys `near` are of this level and `far` and what waits of the next one,
which is complete but for what `near` still sets off. -/
structure Level (g : Graph) (start : String → Prop) (k : Nat) (seen waiting near far : List String) : Prop where
  below : ∀ n t, n < k → Away g start (n + 1) t → t ∈ seen
  next : ∀ t, Away g start (k + 1) t → t ∈ seen ∨ ∃ key ∈ near, t ∈ g.subscribersOf key
  near_away : ∀ key ∈ near, Away g start k key
  far_away : ∀ t ∈ far, Away g start (k + 1) t
  waiting_away : ∀ t ∈ waiting, Away g start (k + 1) t
  fresh : ∀ t ∈ waiting, ∀ n < k, ¬Away g start (n + 1) t
  /-- What is seen has still to set something off, unless it is of a lower level. -/
  kept : ∀ t ∈ seen, t ∈ waiting ∨ t ∈ far ∨ ∃ n ≤ k, Away g start n t

namespace Level

variable {k : Nat} {seen waiting near far : List String}

/-- Where a cascade starts. -/
theorem initial {changed : List String} : Level g (· ∈ changed) 0 [] [] changed [] where
  below _ _ h := absurd h (Nat.not_lt_zero _)
  next t ht := by
    cases ht with
    | further hkey ht =>
      cases hkey with
      | start hkey => exact .inr ⟨_, hkey, ht⟩
  near_away _ h := .start h
  far_away _ h := nomatch h
  waiting_away _ h := nomatch h
  fresh _ h := nomatch h
  kept _ h := nomatch h

/-- The first of what waits is taken, and counts as changed. -/
theorem take {t : String} (h : Level g start k seen (t :: waiting) near far) :
    Level g start k seen waiting near (far ++ [t]) where
  below := h.below
  next := h.next
  near_away := h.near_away
  far_away u hu := by
    rcases List.mem_append.mp hu with hu | hu
    · exact h.far_away u hu
    · exact h.waiting_away u (List.mem_cons.mpr (.inl (List.mem_singleton.mp hu)))
  waiting_away u hu := h.waiting_away u (List.mem_cons_of_mem _ hu)
  fresh u hu := h.fresh u (List.mem_cons_of_mem _ hu)
  kept u hu := by
    rcases h.kept u hu with hwait | hfar | hbelow
    · rcases List.mem_cons.mp hwait with rfl | hwait
      · exact .inr (.inl (List.mem_append_right _ List.mem_cons_self))
      · exact .inl hwait
    · exact .inr (.inl (List.mem_append_left _ hfar))
    · exact .inr (.inr hbelow)

/-- A key of the level sends what it sets off to wait. -/
theorem expand {key : String} (h : Level g start k seen [] (key :: near) far) :
    Level g start k (seen ++ unseen seen (g.subscribersOf key)) (unseen seen (g.subscribersOf key)) near far where
  below n t hn ht := List.mem_append_left _ (h.below n t hn ht)
  next t ht := by
    rcases h.next t ht with hseen | ⟨other, hother, hsub⟩
    · exact .inl (List.mem_append_left _ hseen)
    · rcases List.mem_cons.mp hother with rfl | hother
      · exact .inl (List.mem_append.mpr (mem_unseen seen hsub))
      · exact .inr ⟨other, hother, hsub⟩
  near_away other hother := h.near_away other (List.mem_cons_of_mem _ hother)
  far_away := h.far_away
  waiting_away t ht := (h.near_away key List.mem_cons_self).further (mem_of_mem_unseen ht).1
  fresh t ht n hn haway := (mem_of_mem_unseen ht).2 (h.below n t hn haway)
  kept t ht := by
    rcases List.mem_append.mp ht with hseen | hnew
    · exact .inr ((h.kept t hseen).resolve_left List.not_mem_nil)
    · exact .inl hnew

/-- A level that has nothing left to set off is complete, and the next one begins. -/
theorem climb (h : Level g start k seen [] [] far) : Level g start (k + 1) seen [] far [] := by
  have hcomplete : ∀ t, Away g start (k + 1) t → t ∈ seen := fun t ht =>
    (h.next t ht).resolve_right fun ⟨_, hkey, _⟩ => List.not_mem_nil hkey
  have hbelow : ∀ n t, n < k + 1 → Away g start (n + 1) t → t ∈ seen := by
    intro n t hn ht
    rcases Nat.lt_succ_iff_lt_or_eq.mp hn with hn | rfl
    · exact h.below n t hn ht
    · exact hcomplete t ht
  refine ⟨hbelow, ?_, h.far_away, fun _ h => (nomatch h), fun _ h => (nomatch h), fun _ h => (nomatch h), ?_⟩
  · intro u hu
    cases hu with
    | @further _ t _ ht hu =>
      rcases h.kept t (hcomplete t ht) with hwait | hfar | ⟨n, hn, hnearer⟩
      · cases hwait
      · exact .inr ⟨t, hfar, hu⟩
      · exact .inl (hbelow n u (Nat.lt_succ_of_le hn) (hnearer.further hu))
  · intro t ht
    rcases h.kept t ht with hwait | hfar | ⟨n, hn, hnearer⟩
    · cases hwait
    · exact .inr (.inr ⟨k + 1, Nat.le_refl _, h.far_away t hfar⟩)
    · exact .inr (.inr ⟨n, Nat.le_succ_of_le hn, hnearer⟩)

/-- What waits is no farther than what waits or is not seen yet. -/
theorem noFarther {t u : String} (h : Level g start k seen waiting near far) (ht : t ∈ waiting)
    (hu : u ∈ waiting ∨ u ∉ seen) : NoFarther g start t u := by
  intro n haway
  refine ⟨k, Nat.le_of_not_lt fun hlt => ?_, h.waiting_away t ht⟩
  rcases hu with hwait | hunseen
  · exact h.fresh u hwait n hlt haway
  · exact hunseen (h.below n u hlt haway)

end Level

/-! ## One cascade -/

/-- How far a cascade has come, whatever the level. -/
def Levelled (g : Graph) (start : String → Prop) (seen waiting changed : List String) : Prop :=
  ∃ k near far, changed = near ++ far ∧ Level g start k seen waiting near far

namespace Levelled

variable {seen waiting changed : List String}

theorem take {t : String} (h : Levelled g start seen (t :: waiting) changed) :
    Levelled g start seen waiting (changed ++ [t]) := by
  obtain ⟨k, near, far, rfl, hlevel⟩ := h
  exact ⟨k, near, far ++ [t], List.append_assoc .., hlevel.take⟩

theorem expand {key : String} (h : Levelled g start seen [] (key :: changed)) :
    Levelled g start (seen ++ unseen seen (g.subscribersOf key)) (unseen seen (g.subscribersOf key)) changed := by
  obtain ⟨k, near, far, heq, hlevel⟩ := h
  cases near with
  | cons first near =>
    obtain ⟨rfl, rfl⟩ := List.cons.inj heq
    exact ⟨k, near, far, rfl, hlevel.expand⟩
  | nil =>
    -- The lower level has nothing left to set off, so the key is the first of the next one.
    obtain rfl : key :: changed = far := heq
    exact ⟨k + 1, changed, [], (List.append_nil _).symm, hlevel.climb.expand⟩

end Levelled

/-- A cascade that has come so far goes on from near to far, when every subscriber counts as changed. -/
theorem pairwise_cascadeFrom {changes : String → Bool} (hchanges : ∀ key, ∀ t ∈ g.subscribersOf key, changes t)
    (seen waiting changed : List String) (hlevel : Levelled g start seen waiting changed)
    (hnodup : waiting.Nodup) (hseen : ∀ t ∈ waiting, t ∈ seen) (hwaiting : ∀ t ∈ waiting, changes t) :
    (g.cascadeFrom changes seen waiting changed).Pairwise (NoFarther g start) := by
  fun_induction cascadeFrom g changes seen waiting changed with
  | case1 seen t waiting changed ih =>
    have ht : changes t = true := hwaiting t List.mem_cons_self
    have hrest : ∀ u ∈ waiting, u ∈ seen := fun u hu => hseen u (List.mem_cons_of_mem _ hu)
    have hnodup := (List.nodup_cons.mp hnodup).2
    simp only [ht, dite_true, if_true] at ih ⊢
    refine List.pairwise_cons.mpr ⟨fun u hu => ?_, ?_⟩
    · obtain ⟨k, near, far, -, hlevel⟩ := hlevel
      refine hlevel.noFarther List.mem_cons_self ?_
      exact ((cascadeFrom_nodup seen waiting _ hnodup hrest).2 u hu).imp_left (List.mem_cons_of_mem _)
    · exact ih hlevel.take hnodup hrest fun u hu => hwaiting u (List.mem_cons_of_mem _ hu)
  | case2 seen => exact List.Pairwise.nil
  | case3 seen key changed hnone ih =>
    have hlevel := hlevel.expand
    rw [hnone, List.append_nil] at hlevel
    exact ih hlevel List.nodup_nil (List.forall_mem_nil _) (List.forall_mem_nil _)
  | case4 seen key changed t rest hnew hlt ih =>
    have hlevel := hlevel.expand
    have hfound : ∀ u ∈ t :: rest, u ∈ g.subscribersOf key := by
      intro u hu
      rw [← hnew] at hu
      exact (mem_of_mem_unseen hu).1
    rw [hnew] at hlevel
    exact ih hlevel (hnew ▸ nodup_unseen seen _) (fun u hu => List.mem_append_right _ hu)
      fun u hu => hchanges key u (hfound u hu)

/-- **A cascade never takes a target before one that is nearer**, when every subscriber counts as changed. -/
theorem pairwise_cascade {changes : String → Bool} (hchanges : ∀ key, ∀ t ∈ g.subscribersOf key, changes t)
    (changed : List String) : (g.cascade changes changed).Pairwise (NoFarther g (· ∈ changed)) := by
  refine pairwise_cascadeFrom hchanges [] [] changed ?_ List.nodup_nil (List.forall_mem_nil _) (List.forall_mem_nil _)
  exact ⟨0, changed, [], (List.append_nil _).symm, .initial⟩

end PathLedger.Derivation.Graph
