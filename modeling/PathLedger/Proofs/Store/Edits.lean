import PathLedger.Proofs.Store.Held

/-!
# Edits of separate paths

A value is written at one of a row of separate paths, or taken away there. What is held for the other
paths stays as it is, wherever they are kept, and nothing else gets into the store.

* `Store.Tidy.sets_commitValue`, `Store.Tidy.sets_removeSubtree` — **an edit of one path leaves the others
  alone**.
* `Store.Tidy.commitValue`, `Store.Tidy.removeSubtree` — **an edit leaves the store tidy**.
-/

namespace PathLedger.Store

variable {P : Path → Prop} {used : Nat} {s : Store} {p q scope : Path} {v : Value}

/-! ## Writing -/

theorem branchFields_commitValue_of_ne (hscope : s.scopes.hidingScope? p = some scope) {other : Path}
    (hne : other.key ≠ scope.key) (v : Value) :
    (s.commitValue p v none).1.branchFields other = s.branchFields other := by
  obtain ⟨-, -, -, -, hsecret⟩ := Scopes.hidingScope?_spec hscope
  have hother := branchFields_sealBranch_of_ne (s := s) hne (s.fieldsWith scope p v)
  rw [commitValue_hidden hscope, writeBranch_eq hsecret, ← hother]
  exact branchFields_congr (by rw [commit_scopes]) (by rw [commit_branches])

theorem branchFields_commitValue_of_clear (hclear : s.scopes.hidingScope? p = none) (v : Value)
    (scope : Path) :
    (s.commitValue p v none).1.branchFields scope = s.branchFields scope := by
  rw [commitValue_clear hclear]
  exact branchFields_congr (by rw [commit_scopes]) (by rw [commit_branches])

theorem mem_keys_commitValue {key : String} {operator : Option Operator.Kind}
    (h : key ∈ (s.commitValue p v operator).1.branches.keys) :
    key ∈ s.branches.keys ∨ ∃ scope, s.scopes.hidingScope? p = some scope ∧ key = scope.key := by
  cases hscope : s.scopes.hidingScope? p with
  | none =>
    rw [commitValue_clear hscope, commit_branches] at h
    exact .inl h
  | some scope =>
    obtain ⟨-, -, -, -, hsecret⟩ := Scopes.hidingScope?_spec hscope
    rw [commitValue_hidden hscope, writeBranch_eq hsecret, commit_branches] at h
    exact (mem_keys_sealBranch h).imp_right fun hkey => ⟨scope, rfl, hkey⟩

/-- A hidden value does not reach the index. -/
theorem commitValue_index_of_hidden (hcurrent : IndexCurrent s) (hfresh : Fresh s) (h : p.Clean)
    (hscope : s.scopes.hidingScope? p = some scope) (v : Value) :
    (s.commitValue p v none).1.index = s.index := by
  have hframe := frame_writeBranch s scope p v
  have hfresh : Fresh (s.writeBranch scope p v) := by
    rw [Fresh, hframe.ledger, hframe.clock]
    exact hfresh
  have hsets : Index.setsKey ((s.writeBranch scope p v).recordOf ⟨p, none, v, v⟩) := rfl
  have hhidden : (s.scopes.hidingScope?
      (Path.ofKey ((s.writeBranch scope p v).recordOf ⟨p, none, v, v⟩).path)).isSome := by
    show (s.scopes.hidingScope? (Path.ofKey p.key)).isSome
    rw [Path.ofKey_key h, hscope]
    rfl
  rw [commitValue_hidden hscope, commit_index hfresh, hframe.ledger, hframe.scopes,
    Index.absorb_hidden hsets hhidden]
  exact hcurrent.symm

/-- The room of a branch that holds one value only, at a path with all its names. -/
def roomAt (p : Path) (v : Value) : Nat := Wire.room (.object (Value.insertAt p.segments v []))

theorem room_le_roomAt {p : Path} (hroot : p.isRoot = false) (v : Value) : Wire.room v ≤ roomAt p v := by
  obtain ⟨names, name, hnames⟩ : ∃ names name, p.segments = names ++ [name] := by
    have hne : p.segments ≠ [] := by simpa [Path.isRoot] using hroot
    exact ⟨_, _, (List.dropLast_concat_getLast hne).symm⟩
  have hlast := Wire.roomFields_insertAt_drop_le names.length p.segments v
  rw [hnames, List.drop_left, Value.insertAt, Entries.put, Wire.roomFields] at hlast
  rw [roomAt, Wire.room_object, hnames]
  omega

theorem Tidy.roomFields_fieldsWith_le (h : Tidy P used s) (hp : P p)
    (hscope : s.scopes.hidingScope? p = some scope) (v : Value) :
    11 + Wire.roomFields (s.fieldsWith scope p v) ≤ used + roomAt p v := by
  obtain ⟨n, hn, rfl, hlength, -⟩ := h.hidden hp hscope
  have hinsert := Wire.roomFields_insertAt_le (p.drop (p.take n).length).segments v
    (branchFields_ordered s (p.take n))
  have hdrop : Wire.roomFields (Value.insertAt (p.drop (p.take n).length).segments v []) ≤
      Wire.roomFields (Value.insertAt p.segments v []) := Wire.roomFields_insertAt_drop_le _ p.segments v
  have hroom := h.room p n hp hn
  rw [fieldsWith, branchNames_below (by omega), roomAt, Wire.room_object]
  omega

section Write

variable (h : Tidy P used s) (hP : Path.Separate P) (hp : P p)

include h hP hp

theorem Tidy.sealFits (hfits : used + roomAt p v < 2 ^ 64) : SealFits s p v := by
  unfold SealFits
  split
  · rename_i scope hscope
    have hbytes := Wire.length_encodeValue_le (.object (s.fieldsWith scope p v))
    have := h.roomFields_fieldsWith_le hp hscope v
    rw [Wire.room_object] at hbytes
    omega
  · intro _
    have hbytes := Wire.length_encodeValue_le v
    have := room_le_roomAt (hP.nonroot hp) v
    omega

theorem Tidy.held_commitValue_of_ne (hfresh : Fresh s) (hfits : used + roomAt p v < 2 ^ 64) (hv : v.Ordered)
    (hq : P q) (hne : q ≠ p) : (s.commitValue p v none).1.held q = s.held q := by
  have hseal := h.sealFits hP hp hfits
  have hscopes : (s.commitValue p v none).1.scopes = s.scopes := commitValue_scopes s p v none
  cases hscope : s.scopes.hidingScope? p with
  | some scope =>
    obtain ⟨n, hn, rfl, hlength, -⟩ := h.hidden hp hscope
    cases hother : s.scopes.hidingScope? q with
    | none =>
      refine held_congr_clear hother (by rw [hscopes, hother]) ?_ (by rw [hscopes])
      rw [commitValue_index_of_hidden h.current hfresh (hP.plain hp).clean hscope]
    | some other =>
      obtain ⟨m, hm, rfl, hlength', -⟩ := h.hidden hq hother
      by_cases hsame : p.take n = q.take m
      · -- Both values lie in one branch.
        obtain rfl : n = m := by rw [← hlength, hsame, hlength']
        have hfields : (s.commitValue p v none).1.branchFields (q.take n) =
            Value.insertAt (p.drop n).segments v (s.branchFields (q.take n)) := by
          rw [← hsame, branchFields_commitValue hscope hv hseal, fieldsWith,
            branchNames_below (by omega), hlength]
        rw [held_hidden hother, held_hidden (show _ = some (q.take n) by rw [hscopes, hother]),
          hlength', hfields]
        exact Value.lookupAt_insertAt_of_apart (hP.apart hp hq hne hsame) v _
      · have hne : (q.take m).key ≠ (p.take n).key := fun hkey =>
          hsame (Path.key_inj ((hP.plain hq).clean.take m) ((hP.plain hp).clean.take n) hkey).symm
        exact held_congr_hidden hother (by rw [hscopes, hother])
          (branchFields_commitValue_of_ne hscope hne v)
  | none =>
    have hindex := commitValue_index h.current hfresh (hP.plain hp).clean hscope v
    cases hother : s.scopes.hidingScope? q with
    | none =>
      refine held_congr_clear hother (by rw [hscopes, hother]) ?_ (by rw [hscopes])
      rw [hindex, Index.entry, Dict.get?_insert_of_ne _ (hP.key_ne hp hq hne)]
      rfl
    | some other =>
      exact held_congr_hidden hother (by rw [hscopes, hother])
        (branchFields_commitValue_of_clear hscope v other)

/-- **A write changes what is held for its path only.** -/
theorem Tidy.sets_commitValue (hfresh : Fresh s) (hfits : used + roomAt p v < 2 ^ 64) (hv : v.Ordered)
    (hdata : v.IsData) : Sets P p (some v) s (s.commitValue p v none).1 where
  self := held_commitValue h.current hfresh (hP.plain hp).clean (h.silent p hp) hv hdata
    (h.sealFits hP hp hfits)
  others _ hq hne := h.held_commitValue_of_ne hP hp hfresh hfits hv hq hne

/-- **A write leaves the store tidy.** -/
theorem Tidy.commitValue (hfits : used + roomAt p v < 2 ^ 64) (hv : v.Ordered) (hdata : v.IsData) :
    Tidy P (used + roomAt p v) (s.commitValue p v none).1 where
  settled := h.settled.of_derivations (commitValue_derivations s p v none)
  operators := (commitValue_operators s p v none).trans h.operators
  current := indexCurrent_stable.value p v none h.current
  records := by
    obtain ⟨r, hrecords, hpath, -, -, hvalue⟩ := commitValue_records s p v none
    intro a ha hsets
    rw [hrecords] at ha
    rcases List.mem_append.mp ha with ha | ha
    · exact h.records a ha hsets
    · obtain rfl := List.mem_singleton.mp ha
      refine ⟨⟨p, hp, hpath⟩, fun target htarget => ?_⟩
      rcases s.recordedForm_eq_or p v none with hform | hform
      · exact hdata.ne_pointer target (hform.symm.trans (hvalue.symm.trans htarget))
      · exact storedForm_ne_pointer hdata p target (hform.symm.trans (hvalue.symm.trans htarget))
  silent q hq := by
    rw [commitValue_scopes]
    exact h.silent q hq
  branches key hkey := by
    rcases mem_keys_commitValue hkey with hkey | ⟨scope, hscope, rfl⟩
    · exact h.branches key hkey
    · obtain ⟨n, hn, rfl, -⟩ := h.hidden hp hscope
      exact ⟨p, n, hp, hn, rfl⟩
  room q n hq hn := by
    have hbefore := h.room q n hq hn
    cases hscope : s.scopes.hidingScope? p with
    | none =>
      rw [branchFields_commitValue_of_clear hscope]
      omega
    | some scope =>
      by_cases hkey : (q.take n).key = scope.key
      · obtain ⟨m, hm, rfl, -⟩ := h.hidden hp hscope
        have := h.roomFields_fieldsWith_le hp hscope v
        rw [Path.key_inj ((hP.plain hq).clean.take n) ((hP.plain hp).clean.take m) hkey,
          branchFields_commitValue hscope hv (h.sealFits hP hp hfits)]
        omega
      · rw [branchFields_commitValue_of_ne hscope hkey]
        omega

end Write

/-! ## Removing -/

/-- The store without what is declared or derived at or under a path. -/
def purged (s : Store) (target : Path) : Store :=
  { s with
    derivations := s.derivations.clearUnder target
    scopes := s.scopes.purgeUnder target }

/-- The store whose branches have lost a path, before the removal is recorded. -/
def pruned (s : Store) (target : Path) : Store :=
  s.branches.keys.foldl (pruneBranch target) (s.purged target)

theorem removeSubtree_eq (s : Store) (target : Path) :
    (s.removeSubtree target).1 =
      ((s.pruned target).commit ⟨target, some .remove, removalMarker, removalMarker⟩).1 :=
  rfl

theorem frame_pruned (s : Store) (target : Path) : Frame (s.purged target) (s.pruned target) :=
  frame_pruneBranches target (s.purged target) _

theorem removeSubtree_scopes (s : Store) (target : Path) :
    (s.removeSubtree target).1.scopes = s.scopes.purgeUnder target := by
  rw [removeSubtree_eq, commit_scopes]
  exact (frame_pruned s target).scopes

/-- The index after a removal: the fold under the declarations that are left, without what was removed. -/
theorem index_removeSubtree (hfresh : Fresh s) (target : Path) :
    (s.removeSubtree target).1.index =
      (Index.materialize s.ledger.records (s.scopes.purgeUnder target)).removeUnder target.key := by
  have hframe := frame_pruned s target
  have hfresh : Fresh (s.pruned target) := by
    rw [Fresh, hframe.ledger, hframe.clock]
    exact hfresh
  have hremove : ((s.pruned target).recordOf ⟨target, some .remove, removalMarker, removalMarker⟩).operator =
      some .remove := rfl
  have hsets :
      ¬Index.setsKey ((s.pruned target).recordOf ⟨target, some .remove, removalMarker, removalMarker⟩) :=
    Bool.false_ne_true
  rw [removeSubtree_eq, commit_index hfresh, Index.absorb_of_not_setsKey hsets, if_pos hremove,
    hframe.ledger, hframe.scopes]
  rfl

theorem Settled.clearUnder (h : Settled s) (target : Path) :
    s.derivations.clearUnder target = s.derivations := by
  have hfold (targets : List String) :
      targets.foldl Derivation.Graph.unregister s.derivations = s.derivations := by
    induction targets with
    | nil => rfl
    | cons target rest ih =>
      have hsame : s.derivations.unregister target = s.derivations := by
        rw [Derivation.Graph.unregister, h target]
      rw [List.foldl_cons, hsame, ih]
  exact hfold _

section Remove

variable (h : Tidy P used s) (hP : Path.Separate P) (hp : P p)

include h hP hp

/-- A removal takes back no secret along any of the paths. -/
theorem Tidy.hidingScope?_purgeUnder (hq : P q) :
    (s.scopes.purgeUnder p).hidingScope? q = s.scopes.hidingScope? q := by
  refine Scopes.hidingScope?_congr fun n _ hle => ?_
  rw [Scopes.liveAt_purgeUnder]
  cases hunder : Path.atOrUnder (q.take n).key p.key with
  | false => rfl
  | true =>
    have hstarts :=
      (Path.atOrUnder_key (hP.plain hp).clean ((hP.plain hq).clean.take n) (hP.nonroot hp)).mp hunder
    have hend : n = q.length := by
      refine Nat.le_antisymm hle (Nat.not_lt.mp fun hlt => ?_)
      exact hP.not_prefix_take hp hq hlt hstarts
    rw [hend, Path.take_length, h.silent q hq]
    rfl

omit h in
theorem effectiveSecret_purgeUnder_take (hq : P q) {n : Nat} (hn : n < q.length) :
    (s.scopes.purgeUnder p).effectiveSecret (q.take n) = s.scopes.effectiveSecret (q.take n) :=
  (Scopes.purgeUnder_agreesAlong s.scopes (hP.plain hp).clean (hP.nonroot hp) ((hP.plain hq).clean.take n)
    (hP.not_prefix_take hp hq hn)).effectiveSecret

omit h in
theorem effectiveSecret_purgeUnder (hq : P q) (hne : q ≠ p) :
    (s.scopes.purgeUnder p).effectiveSecret q = s.scopes.effectiveSecret q :=
  (Scopes.purgeUnder_agreesAlong s.scopes (hP.plain hp).clean (hP.nonroot hp) (hP.plain hq).clean
    (hP.not_prefix hp hq hne)).effectiveSecret

omit hp in
theorem Tidy.spelled {key : String} (hkey : key ∈ s.branches.keys) : Path.Spelled key := by
  obtain ⟨q, n, hq, -, rfl⟩ := h.branches key hkey
  exact ((hP.plain hq).clean.take n).spelled

/-- What is left in a branch above one of the paths. -/
theorem Tidy.branchFields_removeSubtree (hq : P q) {n : Nat} (hn : n < q.length) :
    (s.removeSubtree p).1.branchFields (q.take n) =
      if p.startsWith (q.take n) then Value.without (p.drop n).segments (s.branchFields (q.take n))
      else s.branchFields (q.take n) := by
  have hpurged : (s.purged p).branchFields (q.take n) = s.branchFields (q.take n) :=
    branchFields_congr (effectiveSecret_purgeUnder_take hP hp hq hn) rfl
  have hpruned : (s.pruned p).branchFields (q.take n) = _ :=
    branchFields_pruneBranches (s := s.purged p) (fun key hkey => h.spelled hP hkey) (hP.plain hp).clean
      (hP.nonroot hp) ((hP.plain hq).clean.take n) (hP.not_prefix_take hp hq hn)
  rw [hpurged, Path.length_take (Nat.le_of_lt hn)] at hpruned
  rw [removeSubtree_eq, ← hpruned]
  exact branchFields_congr (by rw [commit_scopes]) (by rw [commit_branches])

/-- A removal takes its path out of the index, and nothing else. -/
theorem Tidy.removeSubtree_index (hfresh : Fresh s) :
    (s.removeSubtree p).1.index = s.index.removeUnder p.key := by
  have hmaterialize : Index.materialize s.ledger.records (s.scopes.purgeUnder p) = s.index := by
    rw [h.current]
    refine Index.materialize_congr fun r hr hsets => ?_
    obtain ⟨⟨q, hq, hpath⟩, -⟩ := h.records r hr hsets
    rw [hpath, (hP.plain hq).ofKey_key, h.hidingScope?_purgeUnder hP hp hq]
  rw [index_removeSubtree hfresh, hmaterialize]

theorem Tidy.hidingScope?_removeSubtree (hq : P q) :
    (s.removeSubtree p).1.scopes.hidingScope? q = s.scopes.hidingScope? q := by
  rw [removeSubtree_scopes, h.hidingScope?_purgeUnder hP hp hq]

theorem Tidy.held_removeSubtree (hfresh : Fresh s) :
    (s.removeSubtree p).1.held p = none := by
  have hhiding := h.hidingScope?_removeSubtree hP hp hp
  cases hscope : s.scopes.hidingScope? p with
  | none =>
    have hkey : Path.atOrUnder p.key p.key :=
      Path.atOrUnder_of_prefix (hP.nonroot hp) (List.prefix_refl _)
    rw [held_clear (by rw [hhiding, hscope]), h.removeSubtree_index hP hp hfresh, Index.entry,
      Index.get?_removeUnder, hkey, if_pos rfl]
    rfl
  | some scope =>
    obtain ⟨n, hn, rfl, hlength, -⟩ := h.hidden hp hscope
    have habove : p.startsWith (p.take n) := by
      rw [Path.startsWith, List.isPrefixOf_iff_prefix]
      exact List.take_prefix n p.segments
    rw [held_hidden (by rw [hhiding, hscope]), h.branchFields_removeSubtree hP hp hp hn,
      habove, if_pos rfl, hlength]
    exact Value.lookupAt_without (Path.drop_ne_nil hn) _

theorem Tidy.held_removeSubtree_of_ne (hfresh : Fresh s) (hq : P q)
    (hne : q ≠ p) : (s.removeSubtree p).1.held q = s.held q := by
  have hhiding := h.hidingScope?_removeSubtree hP hp hq
  cases hscope : s.scopes.hidingScope? q with
  | none =>
    refine held_congr_clear hscope (by rw [hhiding, hscope]) ?_ ?_
    · have hkept : Path.atOrUnder q.key p.key = false := by
        rw [Bool.eq_false_iff]
        exact mt (Path.atOrUnder_key (hP.plain hp).clean (hP.plain hq).clean (hP.nonroot hp)).mp
          (hP.not_prefix hp hq hne)
      rw [h.removeSubtree_index hP hp hfresh, Index.entry, Index.get?_removeUnder, hkept,
        if_neg (by decide)]
      rfl
    · rw [removeSubtree_scopes]
      exact effectiveSecret_purgeUnder hP hp hq hne
  | some scope =>
    obtain ⟨n, hn, rfl, hlength, -⟩ := h.hidden hq hscope
    have hfields := h.branchFields_removeSubtree hP hp hq hn
    cases habove : p.startsWith (q.take n) with
    | false =>
      rw [habove, if_neg (by decide)] at hfields
      exact held_congr_hidden hscope (by rw [hhiding, hscope]) hfields
    | true =>
      -- Both paths go on below one scope.
      have hsame : p.take n = q.take n := by
        rw [Path.startsWith, List.isPrefixOf_iff_prefix, List.prefix_iff_eq_take] at habove
        rw [Path.length] at hlength
        rw [hlength] at habove
        rw [Path.take, ← habove]
      rw [habove, if_pos rfl] at hfields
      rw [held_hidden hscope, held_hidden (show _ = some (q.take n) by rw [hhiding, hscope]), hfields,
        hlength]
      exact Value.lookupAt_without_of_apart (hP.apart hp hq hne hsame) _

/-- **A removal changes what is held for its path only.** -/
theorem Tidy.sets_removeSubtree (hfresh : Fresh s) :
    Sets P p none s (s.removeSubtree p).1 where
  self := h.held_removeSubtree hP hp hfresh
  others _ hq hne := h.held_removeSubtree_of_ne hP hp hfresh hq hne

/-- **A removal leaves the store tidy.** -/
theorem Tidy.removeSubtree : Tidy P used (s.removeSubtree p).1 where
  settled := by
    refine h.settled.of_derivations ?_
    rw [removeSubtree_eq, commit_derivations, (frame_pruned s p).derivations]
    exact h.settled.clearUnder p
  operators := by
    rw [removeSubtree_eq, commit_operators, (frame_pruned s p).operators]
    exact h.operators
  current := indexCurrent_stable.removal p h.current
  records r hr hsets := by
    rw [removeSubtree_eq, commit_records, (frame_pruned s p).ledger] at hr
    rcases List.mem_append.mp hr with hr | hr
    · exact h.records r hr hsets
    · obtain rfl := List.mem_singleton.mp hr
      cases hsets
  silent q hq := by
    rw [removeSubtree_scopes, Scopes.liveAt_purgeUnder, h.silent q hq, Bool.and_false]
  branches key hkey := by
    rw [removeSubtree_eq, commit_branches] at hkey
    exact h.branches key (mem_keys_pruneBranches (s := s.purged p) hkey).1
  room q n hq hn := by
    have hbefore := h.room q n hq hn
    have hle := Value.roomFields_without_le (branchFields_ordered s (q.take n)) (p.drop n).segments
    rw [h.branchFields_removeSubtree hP hp hq hn]
    split
    · omega
    · exact hbefore

end Remove

end PathLedger.Store
