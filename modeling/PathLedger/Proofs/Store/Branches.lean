import PathLedger.Proofs.Store.Reading
import PathLedger.Proofs.Wire.Room

/-!
# What a removal does to branches

A removal goes through all branches. One at or below the removed path goes, one above it loses what it keeps for that
path, and the others stay as they are. Each step changes the branch at its own key only, as long as the keys spell
their paths.

* `Value.without`, `Value.cut` — nested fields, or a value, without what is at a row of names.
* `Store.openBranch?_removeFromBranch` — **what a branch opens to when it has lost a path**.
* `Store.get?_pruneBranches` — **each branch after a removal** is what its own step makes of it.
* `Store.openBranch?_pruneBranches` — what is left in every branch that is not removed.
-/

namespace PathLedger

namespace Value

/-- Nested fields without what is at a row of names, if anything is. -/
def without (names : List String) (fields : List (String × Value)) : List (String × Value) :=
  (removeAt? names fields).getD fields

variable {names other : List String} {fields : List (String × Value)}

theorem removeAt?_nil (names : List String) : removeAt? names [] = none := by
  cases names with
  | nil => rfl
  | cons name rest => cases rest <;> rfl

theorem without_nil (names : List String) : without names [] = [] := by
  rw [without, removeAt?_nil, Option.getD_none]

theorem lookupAt_without (hne : names ≠ []) (fields : List (String × Value)) :
    lookupAt names (.object (without names fields)) = none := by
  unfold without
  cases hremove : removeAt? names fields with
  | none => exact lookupAt_of_removeAt?_eq_none hne hremove
  | some fields' => exact lookupAt_removeAt? hremove

theorem lookupAt_without_of_apart (h : Apart names other) (fields : List (String × Value)) :
    lookupAt other (.object (without names fields)) = lookupAt other (.object fields) := by
  unfold without
  cases hremove : removeAt? names fields with
  | none => rfl
  | some fields' => exact lookupAt_removeAt?_of_apart h hremove

/-- A value without what is at a row of names, if anything is. -/
def cut (names : List String) (v : Value) : Value := ((removeAt? names v.fieldsOf).map Value.object).getD v

theorem fieldsOf_cut (names : List String) (v : Value) : (v.cut names).fieldsOf = without names v.fieldsOf := by
  unfold cut without
  cases removeAt? names v.fieldsOf <;> rfl

/-- Nothing is left at or below the names. -/
theorem lookupAt_cut (hne : names ≠ []) (more : List String) (v : Value) :
    lookupAt (names ++ more) (v.cut names) = none := by
  rw [lookupAt_append, ← lookupAt_fieldsOf hne, fieldsOf_cut, lookupAt_without hne, Option.bind_none]

theorem lookupAt_cut_of_apart (h : Apart names other) (v : Value) :
    lookupAt other (v.cut names) = lookupAt other v := by
  rw [← lookupAt_fieldsOf h.ne_nil.2, fieldsOf_cut, lookupAt_without_of_apart h, lookupAt_fieldsOf h.ne_nil.2]

theorem roomFields_without_le (h : (Value.object fields).Ordered) (names : List String) :
    Wire.roomFields (without names fields) ≤ Wire.roomFields fields := by
  unfold without
  cases hremove : removeAt? names fields with
  | none => exact Nat.le_refl _
  | some fields' => exact Wire.roomFields_removeAt?_le h hremove

end Value

namespace Store

variable {s t : Store} {scope target : Path} {key : String}

/-! ## One branch -/

theorem mem_keys_sealBranch {fields : List (String × Value)}
    (h : key ∈ (s.sealBranch scope fields).branches.keys) : key ∈ s.branches.keys ∨ key = scope.key := by
  by_cases hkey : key = scope.key
  · exact .inr hkey
  · rw [Dict.mem_keys_iff, sealBranch] at h
    dsimp only at h
    rw [Dict.get?_insert_of_ne _ hkey] at h
    exact .inl (Dict.mem_keys_iff.mpr h)

theorem branchFields_of_openBranch? {v : Value} (h : s.view.openBranch? scope = some v) :
    s.branchFields scope = v.fieldsOf := by
  rw [branchFields, h]
  rfl

/-- **What a branch opens to** when it has lost a path. -/
theorem openBranch?_removeFromBranch (s : Store) (scope target : Path) :
    (s.removeFromBranch scope target).view.openBranch? scope =
      (s.view.openBranch? scope).map (Value.cut (target.drop scope.length).segments) := by
  unfold removeFromBranch
  by_cases hsecret : s.scopes.effectiveSecret scope = ""
  · rw [if_pos (by simpa using hsecret), openBranch?_of_effectiveSecret_eq_empty hsecret, Option.map_none]
  · rw [if_neg (by simpa using hsecret)]
    cases hopen : s.view.openBranch? scope with
    | none =>
      rw [branchFields_of_openBranch?_eq_none hopen, Value.removeAt?_nil, Option.map_none]
      exact hopen
    | some v =>
      have hfields := branchFields_of_openBranch? hopen
      cases hremove : Value.removeAt? (target.drop scope.length).segments (s.branchFields scope) with
      | none =>
        rw [hfields] at hremove
        rw [Option.map_some, Value.cut, hremove]
        exact hopen
      | some fields =>
        have hordered := branchFields_ordered s scope
        have hfits := branchFields_fit s scope
        rw [Option.map_some, Value.cut, ← hfields, hremove]
        exact openBranch?_sealBranch hsecret (hordered.removeAt? hremove) (hfits.removeAt? hordered hremove)

/-- A branch that does not open is left alone. -/
theorem removeFromBranch_of_openBranch?_eq_none (h : s.view.openBranch? scope = none) (target : Path) :
    s.removeFromBranch scope target = s := by
  rw [removeFromBranch, branchFields_of_openBranch?_eq_none h, Value.removeAt?_nil, ite_self]

theorem get?_removeFromBranch_of_ne (h : key ≠ scope.key) (target : Path) :
    (s.removeFromBranch scope target).branches.get? key = s.branches.get? key := by
  unfold removeFromBranch
  split
  · rfl
  · split
    · exact Dict.get?_insert_of_ne _ h _
    · rfl

/-- A branch that loses a path was there before. -/
theorem mem_keys_removeFromBranch (h : key ∈ (s.removeFromBranch scope target).branches.keys) :
    key ∈ s.branches.keys := by
  by_cases hkey : key = scope.key
  · subst hkey
    rw [Dict.mem_keys_iff, Option.isSome_iff_ne_none] at h ⊢
    intro hnone
    rw [removeFromBranch_of_openBranch?_eq_none (openBranch?_of_get?_eq_none hnone)] at h
    exact h hnone
  · rwa [Dict.mem_keys_iff, get?_removeFromBranch_of_ne hkey, ← Dict.mem_keys_iff] at h

/-- What becomes of a branch depends on its seal and on the declarations. -/
theorem get?_removeFromBranch_congr (hscopes : t.scopes = s.scopes)
    (hblob : t.branches.get? scope.key = s.branches.get? scope.key) (target : Path) :
    (t.removeFromBranch scope target).branches.get? scope.key =
      (s.removeFromBranch scope target).branches.get? scope.key := by
  have hfields : t.branchFields scope = s.branchFields scope := branchFields_congr (by rw [hscopes]) hblob
  unfold removeFromBranch
  rw [hscopes, hfields]
  split
  · exact hblob
  · split
    · rw [sealBranch, sealBranch, hscopes]
      dsimp only
      rw [Dict.get?_insert_self, Dict.get?_insert_self]
    · exact hblob

/-! ## One step of a removal -/

/-- A step leaves the other branches alone. -/
theorem get?_pruneBranch_of_ne {other : String} (hspelled : Path.Spelled key) (h : other ≠ key) (target : Path) :
    (pruneBranch target s key).branches.get? other = s.branches.get? other := by
  unfold pruneBranch
  dsimp only
  split
  · rw [Dict.get?_erase, if_neg (mt Std.LawfulEqCmp.eq_of_compare h)]
  · split
    · exact get?_removeFromBranch_of_ne (by rwa [hspelled]) target
    · rfl

theorem get?_pruneBranch_congr (hspelled : Path.Spelled key) (hscopes : t.scopes = s.scopes)
    (hblob : t.branches.get? key = s.branches.get? key) (target : Path) :
    (pruneBranch target t key).branches.get? key = (pruneBranch target s key).branches.get? key := by
  unfold pruneBranch
  dsimp only
  split
  · rw [Dict.get?_erase, Dict.get?_erase, hblob]
  · split
    · have hcut := @get?_removeFromBranch_congr s t (Path.ofKey key) hscopes (by rwa [hspelled]) target
      rwa [hspelled] at hcut
    · exact hblob

/-- A step adds no branch. -/
theorem get?_pruneBranch_of_none (hspelled : Path.Spelled key) (h : s.branches.get? key = none) (target : Path) :
    (pruneBranch target s key).branches.get? key = none := by
  unfold pruneBranch
  dsimp only
  split
  · rw [Dict.get?_erase, if_pos Std.ReflCmp.compare_self]
  · split
    · rw [removeFromBranch_of_openBranch?_eq_none (openBranch?_of_get?_eq_none (by rwa [hspelled]))]
      exact h
    · exact h

/-- The branch of a removed scope goes. -/
theorem get?_pruneBranch_of_under (h : Path.atOrUnder key target.key) (s : Store) :
    (pruneBranch target s key).branches.get? key = none := by
  rw [pruneBranch, if_pos h]
  dsimp only
  rw [Dict.get?_erase, if_pos Std.ReflCmp.compare_self]

/-- A step adds no branch, and its own branch is left only when the scope is not removed. -/
theorem mem_keys_pruneBranch {other : String} (h : key ∈ (pruneBranch target s other).branches.keys) :
    key ∈ s.branches.keys ∧ (key = other → Path.atOrUnder key target.key = false) := by
  constructor
  · unfold pruneBranch at h
    dsimp only at h
    split at h
    · rw [Dict.mem_keys_iff] at h ⊢
      dsimp only at h
      rw [Dict.get?_erase] at h
      split at h
      · cases h
      · exact h
    · split at h
      · exact mem_keys_removeFromBranch h
      · exact h
  · rintro rfl
    refine Bool.eq_false_iff.mpr fun hunder => ?_
    rw [Dict.mem_keys_iff, get?_pruneBranch_of_under hunder] at h
    cases h

/-- The branch of a scope that is not removed loses a path below the scope. -/
theorem pruneBranch_eq (htarget : target.Clean) (hroot : target.isRoot = false) (hclean : scope.Clean)
    (hspared : ¬target.segments <+: scope.segments) :
    pruneBranch target s scope.key =
      if target.startsWith scope then s.removeFromBranch scope target else s := by
  have hkept : Path.atOrUnder scope.key target.key = false := by
    rw [Bool.eq_false_iff]
    exact mt (Path.atOrUnder_key htarget hclean hroot).mp hspared
  rw [pruneBranch, hkept, if_neg (by decide)]
  dsimp only
  rw [Path.ofKey_key hclean]
  cases habove : target.startsWith scope with
  | false => simp
  | true =>
    have hstarts : scope.segments <+: target.segments := by
      rwa [Path.startsWith, List.isPrefixOf_iff_prefix] at habove
    have hlt : scope.length < target.length := by
      refine Nat.lt_of_le_of_ne hstarts.length_le fun heq => hspared ?_
      exact (hstarts.eq_of_length heq).symm ▸ List.prefix_refl scope.segments
    simp [hlt]

/-! ## All steps of a removal -/

/-- Each key is met once, and the other steps leave its branch alone. -/
theorem get?_foldl_pruneBranch {keys : List String} (hspelled : ∀ k ∈ keys, Path.Spelled k) (hnodup : keys.Nodup)
    (target : Path) (s : Store) (key : String) :
    (keys.foldl (pruneBranch target) s).branches.get? key =
      if key ∈ keys then (pruneBranch target s key).branches.get? key else s.branches.get? key := by
  induction keys generalizing s with
  | nil => rfl
  | cons first rest ih =>
    obtain ⟨hnotin, hnodup⟩ := List.nodup_cons.mp hnodup
    obtain ⟨hfirst, hrest⟩ := List.forall_mem_cons.mp hspelled
    rw [List.foldl_cons, ih hrest hnodup]
    by_cases heq : key = first
    · rw [heq, if_neg hnotin, if_pos List.mem_cons_self]
    · have hother := get?_pruneBranch_of_ne (s := s) hfirst heq target
      by_cases hmem : key ∈ rest
      · rw [if_pos hmem, if_pos (List.mem_cons_of_mem _ hmem)]
        exact get?_pruneBranch_congr (hrest key hmem) (frame_pruneBranch target s first).scopes hother target
      · rw [if_neg hmem, if_neg (List.not_mem_cons_of_ne_of_not_mem heq hmem), hother]

/-- No branch is added, and the branches of removed scopes go. -/
theorem mem_keys_foldl_pruneBranch {keys : List String}
    (h : key ∈ (keys.foldl (pruneBranch target) s).branches.keys) :
    key ∈ s.branches.keys ∧ (key ∈ keys → Path.atOrUnder key target.key = false) := by
  induction keys generalizing s with
  | nil => exact ⟨h, fun hmem => nomatch hmem⟩
  | cons first rest ih =>
    obtain ⟨hstep, hrest⟩ := ih h
    obtain ⟨hkey, hfirst⟩ := mem_keys_pruneBranch hstep
    exact ⟨hkey, fun hmem => (List.mem_cons.mp hmem).elim hfirst hrest⟩

/-- **The branches that are left** were there before, and their scopes are not removed. -/
theorem mem_keys_pruneBranches (h : key ∈ (s.branches.keys.foldl (pruneBranch target) s).branches.keys) :
    key ∈ s.branches.keys ∧ Path.atOrUnder key target.key = false := by
  obtain ⟨hkey, hspared⟩ := mem_keys_foldl_pruneBranch h
  exact ⟨hkey, hspared hkey⟩

section Prune

variable (hspelled : ∀ k ∈ s.branches.keys, Path.Spelled k)

include hspelled

/-- **Each branch after a removal** is what its own step makes of it. -/
theorem get?_pruneBranches (hkey : Path.Spelled key) (target : Path) :
    (s.branches.keys.foldl (pruneBranch target) s).branches.get? key =
      (pruneBranch target s key).branches.get? key := by
  rw [get?_foldl_pruneBranch hspelled s.branches.nodup_keys]
  split
  · rfl
  · rename_i habsent
    rw [Dict.mem_keys_iff, Option.not_isSome_iff_eq_none] at habsent
    rw [get?_pruneBranch_of_none hkey habsent, habsent]

variable (htarget : target.Clean) (hroot : target.isRoot = false) (hclean : scope.Clean)
  (hspared : ¬target.segments <+: scope.segments)

include htarget hroot hclean hspared

/-- **What is left in every branch** that is not removed. -/
theorem openBranch?_pruneBranches :
    (s.branches.keys.foldl (pruneBranch target) s).view.openBranch? scope =
      if target.startsWith scope then (s.view.openBranch? scope).map (Value.cut (target.drop scope.length).segments)
      else s.view.openBranch? scope := by
  have hblob := get?_pruneBranches hspelled hclean.spelled target
  rw [pruneBranch_eq htarget hroot hclean hspared] at hblob
  have hscopes := (frame_pruneBranches target s s.branches.keys).scopes
  split
  · rename_i habove
    rw [if_pos habove] at hblob
    rw [← openBranch?_removeFromBranch]
    exact openBranch?_congr (by rw [hscopes, (frame_removeFromBranch s scope target).scopes]) hblob
  · rename_i habove
    rw [if_neg habove] at hblob
    exact openBranch?_congr (by rw [hscopes]) hblob

theorem branchFields_pruneBranches :
    (s.branches.keys.foldl (pruneBranch target) s).branchFields scope =
      if target.startsWith scope then
        Value.without (target.drop scope.length).segments (s.branchFields scope)
      else s.branchFields scope := by
  rw [branchFields, openBranch?_pruneBranches hspelled htarget hroot hclean hspared]
  split
  · rw [branchFields]
    cases s.view.openBranch? scope with
    | none => exact (Value.without_nil _).symm
    | some v => exact Value.fieldsOf_cut _ v
  · rfl

end Prune

end Store

end PathLedger
