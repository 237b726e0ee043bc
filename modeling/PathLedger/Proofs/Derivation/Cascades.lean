import PathLedger.Derivation.Cascade

/-!
# What a cascade comes to

A cascade takes the targets that wait, and then those that the changed keys set off. What it has seen, it does
not take again.

* `Derivation.Graph.Reaches` — what a change sets off through one subscription or more.
* `Derivation.Graph.cascadeFrom_closed` — a cascade takes what its own targets set off, unless it was seen.
* `Derivation.Graph.reaches_of_mem_cascade` — **nothing is taken but what is reached**.
* `Derivation.Graph.mem_cascade` — **everything that is reached is taken**.
* `Derivation.Graph.nodup_cascade` — **nothing is taken twice**.
* `Derivation.Graph.cascade_of_closed` — a cascade over one level.
-/

namespace PathLedger.Derivation.Graph

/-- What a change sets off, through one subscription or more. -/
inductive Reaches (g : Graph) : String → String → Prop where
  | direct {key t : String} (h : t ∈ g.subscribersOf key) : Reaches g key t
  | further {key t u : String} (h : Reaches g key t) (hu : u ∈ g.subscribersOf t) : Reaches g key u

/-! ## What is not yet seen -/

theorem mem_unseen (seen : List String) {row : List String} {t : String} (h : t ∈ row) :
    t ∈ seen ∨ t ∈ unseen seen row := by
  induction row generalizing seen with
  | nil => cases h
  | cons a rest ih =>
    unfold unseen
    split
    · rename_i ha
      rcases List.mem_cons.mp h with rfl | h
      · exact .inl (by simpa using ha)
      · exact ih seen h
    · rcases List.mem_cons.mp h with rfl | h
      · exact .inr List.mem_cons_self
      · rcases ih (a :: seen) h with hseen | hrest
        · rcases List.mem_cons.mp hseen with rfl | hseen
          · exact .inr List.mem_cons_self
          · exact .inl hseen
        · exact .inr (List.mem_cons_of_mem _ hrest)

theorem nodup_unseen (seen row : List String) : (unseen seen row).Nodup := by
  induction row generalizing seen with
  | nil => exact List.nodup_nil
  | cons a rest ih =>
    unfold unseen
    split
    · exact ih seen
    · refine List.nodup_cons.mpr ⟨fun h => ?_, ih _⟩
      exact (mem_of_mem_unseen h).2 List.mem_cons_self

theorem unseen_of_all_seen {seen row : List String} (h : ∀ t ∈ row, t ∈ seen) : unseen seen row = [] := by
  induction row with
  | nil => rfl
  | cons a rest ih =>
    unfold unseen
    rw [if_pos (List.contains_iff_mem.mpr (h a List.mem_cons_self))]
    exact ih fun t ht => h t (List.mem_cons_of_mem _ ht)

theorem unseen_of_none_seen {seen row : List String} (hnodup : row.Nodup) (h : ∀ t ∈ row, t ∉ seen) :
    unseen seen row = row := by
  induction row generalizing seen with
  | nil => rfl
  | cons a rest ih =>
    obtain ⟨hfresh, hrest⟩ := List.nodup_cons.mp hnodup
    have ha : a ∉ seen := h a List.mem_cons_self
    unfold unseen
    rw [if_neg (by simpa using ha), ih hrest]
    intro t ht hseen
    rcases List.mem_cons.mp hseen with rfl | hseen
    · exact hfresh ht
    · exact h t (List.mem_cons_of_mem _ ht) hseen

/-! ## One cascade -/

variable {g : Graph} {changes : String → Bool}

theorem cascadeFrom_waiting (seen : List String) (t : String) (waiting changed : List String) :
    g.cascadeFrom changes seen (t :: waiting) changed =
      t :: g.cascadeFrom changes seen waiting (if changes t then changed ++ [t] else changed) := by
  rw [cascadeFrom]

/-- A changed key sends what it sets off, as far as that is not yet seen, to wait. -/
theorem cascadeFrom_changed (seen : List String) (key : String) (changed : List String) :
    g.cascadeFrom changes seen [] (key :: changed) =
      g.cascadeFrom changes (seen ++ unseen seen (g.subscribersOf key)) (unseen seen (g.subscribersOf key))
        changed := by
  rw [cascadeFrom]
  split
  · rename_i hnone
    rw [hnone, List.append_nil]
  · rename_i hnew
    simp only [hnew]

theorem cascadeFrom_nil (seen : List String) : g.cascadeFrom changes seen [] [] = [] := by
  rw [cascadeFrom]

/-- A cascade that comes to nothing new ends with what waits. -/
theorem cascadeFrom_of_all_seen (seen waiting changed : List String)
    (h : ∀ key ∈ waiting ++ changed, ∀ t ∈ g.subscribersOf key, t ∈ seen) :
    g.cascadeFrom changes seen waiting changed = waiting := by
  induction waiting generalizing changed with
  | nil =>
    induction changed with
    | nil => exact cascadeFrom_nil seen
    | cons key rest ih =>
      rw [cascadeFrom_changed, unseen_of_all_seen (h key List.mem_cons_self), List.append_nil]
      exact ih fun k hk => h k (List.mem_cons_of_mem _ hk)
  | cons t rest ih =>
    rw [cascadeFrom_waiting, ih]
    intro key hkey
    refine h key ?_
    split at hkey
    · rw [← List.append_assoc, List.mem_append, List.mem_singleton] at hkey
      exact List.mem_cons.mpr hkey.symm
    · exact List.mem_cons_of_mem _ hkey

/-- **A cascade from a key ends with its subscribers**, when these set off no others. -/
theorem cascade_of_closed {key : String} (hnodup : (g.subscribersOf key).Nodup)
    (hclosed : ∀ t ∈ g.subscribersOf key, ∀ u ∈ g.subscribersOf t, u ∈ g.subscribersOf key) :
    g.cascade changes [key] = g.subscribersOf key := by
  unfold cascade
  rw [cascadeFrom_changed, unseen_of_none_seen hnodup fun _ _ => List.not_mem_nil, List.nil_append]
  refine cascadeFrom_of_all_seen _ _ _ fun t ht => ?_
  rw [List.append_nil] at ht
  exact hclosed t ht

/-- A cascade takes what waits, what the changed keys set off and what its own targets set off, as far as that
was not seen before. -/
theorem cascadeFrom_closed (hchanges : ∀ key, ∀ t ∈ g.subscribersOf key, changes t)
    (seen waiting changed : List String) (hwaiting : ∀ t ∈ waiting, changes t) :
    (∀ t ∈ waiting, t ∈ g.cascadeFrom changes seen waiting changed) ∧
    (∀ key ∈ changed, ∀ t ∈ g.subscribersOf key,
      t ∈ seen ∨ t ∈ g.cascadeFrom changes seen waiting changed) ∧
    (∀ t ∈ g.cascadeFrom changes seen waiting changed, ∀ u ∈ g.subscribersOf t,
      u ∈ seen ∨ u ∈ g.cascadeFrom changes seen waiting changed) := by
  fun_induction cascadeFrom g changes seen waiting changed with
  | case1 seen t waiting changed ih =>
    have ht : changes t = true := hwaiting t List.mem_cons_self
    simp only [ht, dite_true, if_true] at ih ⊢
    obtain ⟨hwait, hchanged, hclosed⟩ := ih fun u hu => hwaiting u (List.mem_cons_of_mem _ hu)
    refine ⟨?_, ?_, ?_⟩
    · intro u hu
      rcases List.mem_cons.mp hu with rfl | hu
      · exact List.mem_cons_self
      · exact List.mem_cons_of_mem _ (hwait u hu)
    · intro key hkey u hu
      exact (hchanged key (List.mem_append_left _ hkey) u hu).imp_right (List.mem_cons_of_mem _)
    · intro u hu w hw
      rcases List.mem_cons.mp hu with rfl | hu
      · have hlast : u ∈ changed ++ [u] := List.mem_append_right _ List.mem_cons_self
        exact (hchanged u hlast w hw).imp_right (List.mem_cons_of_mem _)
      · exact (hclosed u hu w hw).imp_right (List.mem_cons_of_mem _)
  | case2 seen => simp
  | case3 seen key changed hnone ih =>
    obtain ⟨-, hchanged, hclosed⟩ := ih fun _ h => (nomatch h)
    refine ⟨fun _ h => (nomatch h), ?_, hclosed⟩
    intro k hk t ht
    rcases List.mem_cons.mp hk with rfl | hk
    · rcases mem_unseen seen ht with hseen | hnew
      · exact .inl hseen
      · rw [hnone] at hnew
        cases hnew
    · exact hchanged k hk t ht
  | case4 seen key changed t rest hnew hlt ih =>
    have hset : ∀ u ∈ t :: rest, changes u := by
      intro u hu
      rw [← hnew] at hu
      exact hchanges key u (mem_of_mem_unseen hu).1
    obtain ⟨hwait, hchanged, hclosed⟩ := ih hset
    -- What was put behind the seen targets now waits, so it is taken.
    have hsplit : ∀ u,
        u ∈ seen ++ t :: rest ∨ u ∈ g.cascadeFrom changes (seen ++ t :: rest) (t :: rest) changed →
        u ∈ seen ∨ u ∈ g.cascadeFrom changes (seen ++ t :: rest) (t :: rest) changed := by
      rintro u (hu | hu)
      · exact (List.mem_append.mp hu).imp_right (hwait u)
      · exact .inr hu
    refine ⟨fun _ h => (nomatch h), ?_, fun u hu w hw => hsplit w (hclosed u hu w hw)⟩
    intro k hk u hu
    rcases List.mem_cons.mp hk with rfl | hk
    · rcases mem_unseen seen hu with hseen | hfound
      · exact .inl hseen
      · rw [hnew] at hfound
        exact .inr (hwait u hfound)
    · exact hsplit u (hchanged k hk u hu)

/-- A cascade takes each target once, and none but the waiting ones among those it has seen. -/
theorem cascadeFrom_nodup (seen waiting changed : List String) (hnodup : waiting.Nodup)
    (hwaiting : ∀ t ∈ waiting, t ∈ seen) :
    (g.cascadeFrom changes seen waiting changed).Nodup ∧
    ∀ t ∈ g.cascadeFrom changes seen waiting changed, t ∈ waiting ∨ t ∉ seen := by
  fun_induction cascadeFrom g changes seen waiting changed with
  | case1 seen t waiting changed ih =>
    obtain ⟨hfresh, hnodup⟩ := List.nodup_cons.mp hnodup
    obtain ⟨hrest, hnew⟩ := ih hnodup fun u hu => hwaiting u (List.mem_cons_of_mem _ hu)
    refine ⟨List.nodup_cons.mpr ⟨fun h => ?_, hrest⟩, ?_⟩
    · rcases hnew t h with hwait | hunseen
      · exact hfresh hwait
      · exact hunseen (hwaiting t List.mem_cons_self)
    · intro u hu
      rcases List.mem_cons.mp hu with rfl | hu
      · exact .inl List.mem_cons_self
      · exact (hnew u hu).imp_left (List.mem_cons_of_mem _)
  | case2 seen => simp
  | case3 seen key changed hnone ih => exact ih List.nodup_nil fun _ h => nomatch h
  | case4 seen key changed t rest hnew hlt ih =>
    have hunseen : ∀ u ∈ t :: rest, u ∉ seen := by
      intro u hu
      rw [← hnew] at hu
      exact (mem_of_mem_unseen hu).2
    obtain ⟨hall, hfresh⟩ := ih (hnew ▸ nodup_unseen seen _) fun u hu => List.mem_append_right _ hu
    refine ⟨hall, fun u hu => .inr ?_⟩
    rcases hfresh u hu with hwait | hnever
    · exact hunseen u hwait
    · exact fun h => hnever (List.mem_append_left _ h)

/-- A cascade takes nothing but what waits and what is set off. -/
theorem cascadeFrom_sound {P : String → Prop} (hclosed : ∀ t, P t → ∀ u ∈ g.subscribersOf t, P u)
    (seen waiting changed : List String) (hwaiting : ∀ t ∈ waiting, P t)
    (hchanged : ∀ key ∈ changed, ∀ t ∈ g.subscribersOf key, P t) :
    ∀ t ∈ g.cascadeFrom changes seen waiting changed, P t := by
  fun_induction cascadeFrom g changes seen waiting changed with
  | case1 seen t waiting changed ih =>
    have ht := hwaiting t List.mem_cons_self
    have hmore : ∀ key ∈ if changes t then changed ++ [t] else changed, ∀ u ∈ g.subscribersOf key, P u := by
      intro key hkey u hu
      split at hkey
      · rcases List.mem_append.mp hkey with hkey | hkey
        · exact hchanged key hkey u hu
        · obtain rfl := List.mem_singleton.mp hkey
          exact hclosed _ ht u hu
      · exact hchanged key hkey u hu
    have hrest := ih (fun u hu => hwaiting u (List.mem_cons_of_mem _ hu)) hmore
    intro u hu
    rcases List.mem_cons.mp hu with rfl | hu
    · exact ht
    · exact hrest u hu
  | case2 seen => exact fun t ht => (nomatch ht)
  | case3 seen key changed hnone ih =>
    exact ih (fun _ h => (nomatch h)) fun k hk => hchanged k (List.mem_cons_of_mem _ hk)
  | case4 seen key changed t rest hnew hlt ih =>
    refine ih (fun u hu => ?_) fun k hk => hchanged k (List.mem_cons_of_mem _ hk)
    rw [← hnew] at hu
    exact hchanged key List.mem_cons_self u (mem_of_mem_unseen hu).1

/-- **Nothing is taken but what is reached.** -/
theorem reaches_of_mem_cascade {changed : List String} {t : String} (h : t ∈ g.cascade changes changed) :
    ∃ key ∈ changed, Reaches g key t := by
  refine cascadeFrom_sound (P := fun t => ∃ key ∈ changed, Reaches g key t) ?_ [] [] changed
    (fun _ h => (nomatch h)) ?_ t h
  · rintro t ⟨key, hkey, ht⟩ u hu
    exact ⟨key, hkey, ht.further hu⟩
  · intro key hkey t ht
    exact ⟨key, hkey, .direct ht⟩

/-- **Everything that is reached is taken**, when every subscriber counts as changed. -/
theorem mem_cascade (hchanges : ∀ key, ∀ t ∈ g.subscribersOf key, changes t) {changed : List String}
    {key t : String} (hkey : key ∈ changed) (h : Reaches g key t) : t ∈ g.cascade changes changed := by
  obtain ⟨-, hdirect, hclosed⟩ := cascadeFrom_closed hchanges [] [] changed fun _ h => nomatch h
  induction h with
  | direct ht =>
    rcases hdirect _ hkey _ ht with hseen | htaken
    · cases hseen
    · exact htaken
  | further _ hu ih =>
    rcases hclosed _ ih _ hu with hseen | htaken
    · cases hseen
    · exact htaken

/-- **Nothing is taken twice.** -/
theorem nodup_cascade (g : Graph) (changes : String → Bool) (changed : List String) :
    (g.cascade changes changed).Nodup :=
  (cascadeFrom_nodup [] [] changed List.nodup_nil fun _ h => nomatch h).1

end PathLedger.Derivation.Graph
