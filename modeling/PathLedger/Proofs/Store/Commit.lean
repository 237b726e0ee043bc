import PathLedger.Proofs.Index.Fold
import PathLedger.Store.Call

/-!
# What a commit changes

Every operation ends in one commit. It adds a record, advances the clock and makes the index anew; before
it, declarations and branches may have changed.

* `Store.commit_records`, … — what a commit does to each part of a store.
* `Store.Frame` — two stores that differ in their branches only; branches are written before the commit.
* `Store.put_of_settled`, `Store.declare_of_settled` — without derivations, nothing is computed anew.
* `Store.commit_index` — **the index after a commit**, when its record is the latest.
-/

namespace PathLedger.Store

variable {s t : Store}

/-! ## Parts of a commit -/

theorem commit_scopes (s : Store) (d : Draft) : (s.commit d).1.scopes = s.scopes := rfl

theorem commit_branches (s : Store) (d : Draft) : (s.commit d).1.branches = s.branches := rfl

theorem commit_derivations (s : Store) (d : Draft) : (s.commit d).1.derivations = s.derivations := rfl

theorem commit_operators (s : Store) (d : Draft) : (s.commit d).1.operators = s.operators := rfl

theorem commit_clock (s : Store) (d : Draft) : (s.commit d).1.clock = s.clock.advance := rfl

/-- The record that a draft becomes. -/
def recordOf (s : Store) (d : Draft) : Record :=
  Ledger.sealDraft s.ledger.lastHash d (s.scopes.effectiveSecret d.path) s.clock.now

theorem commit_records (s : Store) (d : Draft) :
    (s.commit d).1.ledger.records = s.ledger.records ++ [s.recordOf d] := rfl

/-- Every record was made before the next reading of the clock. -/
def Fresh (s : Store) : Prop := ∀ r ∈ s.ledger.records, r.timestamp < s.clock.now

/-- **The index after a commit** is one step from the fold of the records before it. -/
theorem commit_index (hfresh : Fresh s) (d : Draft) :
    (s.commit d).1.index =
      Index.absorb s.scopes (Index.materialize s.ledger.records s.scopes) (s.recordOf d) := by
  have hlast : ∀ r ∈ s.ledger.records, r.timestamp < (s.recordOf d).timestamp := hfresh
  exact Index.materialize_append hlast s.scopes

/-! ## Branches are all that changes before a commit of a value -/

/-- Two stores that differ in their branches only. -/
structure Frame (s t : Store) : Prop where
  ledger : t.ledger = s.ledger
  scopes : t.scopes = s.scopes
  index : t.index = s.index
  derivations : t.derivations = s.derivations
  operators : t.operators = s.operators
  clock : t.clock = s.clock

theorem Frame.refl (s : Store) : Frame s s := ⟨rfl, rfl, rfl, rfl, rfl, rfl⟩

theorem Frame.trans {r : Store} (h : Frame r s) (h' : Frame s t) : Frame r t :=
  ⟨h'.ledger.trans h.ledger, h'.scopes.trans h.scopes, h'.index.trans h.index,
    h'.derivations.trans h.derivations, h'.operators.trans h.operators, h'.clock.trans h.clock⟩

theorem frame_sealBranch (s : Store) (scope : Path) (fields : List (String × Value)) :
    Frame s (s.sealBranch scope fields) := ⟨rfl, rfl, rfl, rfl, rfl, rfl⟩

theorem frame_writeBranch (s : Store) (scope p : Path) (v : Value) : Frame s (s.writeBranch scope p v) := by
  unfold writeBranch
  split
  · exact Frame.refl s
  · exact frame_sealBranch s scope _

theorem frame_removeFromBranch (s : Store) (scope p : Path) : Frame s (s.removeFromBranch scope p) := by
  unfold removeFromBranch
  split
  · exact Frame.refl s
  · split
    · exact frame_sealBranch s scope _
    · exact Frame.refl s

theorem frame_pruneBranch (target : Path) (s : Store) (key : String) :
    Frame s (pruneBranch target s key) := by
  unfold pruneBranch
  split
  · exact ⟨rfl, rfl, rfl, rfl, rfl, rfl⟩
  · dsimp only
    split
    · exact frame_removeFromBranch s _ target
    · exact Frame.refl s

theorem frame_pruneBranches (target : Path) (s : Store) (keys : List String) :
    Frame s (keys.foldl (pruneBranch target) s) := by
  induction keys generalizing s with
  | nil => exact Frame.refl s
  | cons key rest ih => exact (frame_pruneBranch target s key).trans (ih _)

/-- The record of a value: what it stores depends on where the value went. -/
theorem commitValue_hidden {p scope : Path} (h : s.scopes.hidingScope? p = some scope) (v : Value)
    (operator : Option Operator.Kind) :
    s.commitValue p v operator = (s.writeBranch scope p v).commit ⟨p, operator, v, v⟩ := by
  rw [commitValue, h]

theorem commitValue_clear {p : Path} (h : s.scopes.hidingScope? p = none) (v : Value)
    (operator : Option Operator.Kind) :
    s.commitValue p v operator = s.commit ⟨p, operator, v, s.storedForm p v operator⟩ := by
  rw [commitValue, h]

/-- What a record stores for a value: the value itself below a hiding scope, and else the form that the index holds. -/
def recordedForm (s : Store) (p : Path) (v : Value) (operator : Option Operator.Kind) : Value :=
  if (s.scopes.hidingScope? p).isSome then v else s.storedForm p v operator

theorem recordedForm_eq_or (s : Store) (p : Path) (v : Value) (operator : Option Operator.Kind) :
    s.recordedForm p v operator = v ∨ s.recordedForm p v operator = s.storedForm p v operator := by
  unfold recordedForm
  split
  · exact .inl rfl
  · exact .inr rfl

/-- What was computed is stored as it is. -/
theorem storedForm_of_staysPlain {operator : Option Operator.Kind} (h : staysPlain operator) (s : Store) (p : Path)
    (v : Value) : s.storedForm p v operator = v := by
  unfold storedForm
  dsimp only
  rw [h, Bool.or_true, if_pos rfl]

/-- A marker is stored as it is. -/
theorem storedForm_of_isMarker {v : Value} (h : v.isMarker) (s : Store) (p : Path) (operator : Option Operator.Kind) :
    s.storedForm p v operator = v := by
  unfold storedForm
  dsimp only
  rw [h, Bool.or_true, Bool.true_or, if_pos rfl]

theorem recordedForm_of_staysPlain {operator : Option Operator.Kind} (h : staysPlain operator) (s : Store) (p : Path)
    (v : Value) : s.recordedForm p v operator = v := by
  rw [recordedForm, storedForm_of_staysPlain h, ite_self]

section Values

variable (s : Store) (p : Path) (v : Value) (operator : Option Operator.Kind)

/-- **A committed value** changes branches only, before it is recorded as given and in the form it is stored in. -/
theorem exists_commitValue_eq :
    ∃ u, Frame s u ∧ s.commitValue p v operator = u.commit ⟨p, operator, v, s.recordedForm p v operator⟩ := by
  cases hscope : s.scopes.hidingScope? p with
  | some scope =>
    refine ⟨_, frame_writeBranch s scope p v, ?_⟩
    rw [commitValue_hidden hscope, recordedForm, hscope]
    rfl
  | none =>
    refine ⟨s, Frame.refl s, ?_⟩
    rw [commitValue_clear hscope, recordedForm, hscope]
    rfl

theorem commitValue_derivations : (s.commitValue p v operator).1.derivations = s.derivations := by
  obtain ⟨u, hframe, heq⟩ := s.exists_commitValue_eq p v operator
  rw [heq, commit_derivations, hframe.derivations]

theorem commitValue_scopes : (s.commitValue p v operator).1.scopes = s.scopes := by
  obtain ⟨u, hframe, heq⟩ := s.exists_commitValue_eq p v operator
  rw [heq, commit_scopes, hframe.scopes]

theorem commitValue_operators : (s.commitValue p v operator).1.operators = s.operators := by
  obtain ⟨u, hframe, heq⟩ := s.exists_commitValue_eq p v operator
  rw [heq, commit_operators, hframe.operators]

theorem commitValue_clock : (s.commitValue p v operator).1.clock = s.clock.advance := by
  obtain ⟨u, hframe, heq⟩ := s.exists_commitValue_eq p v operator
  rw [heq, commit_clock, hframe.clock]

/-- The record that a committed value gives is the one that is added. -/
theorem commitValue_record : (s.commitValue p v operator).1.ledger.records =
      s.ledger.records ++ [(s.commitValue p v operator).2] ∧
    (s.commitValue p v operator).2.path = p.key ∧ (s.commitValue p v operator).2.operator = operator ∧
    (s.commitValue p v operator).2.expression = v ∧
    (s.commitValue p v operator).2.value = s.recordedForm p v operator := by
  obtain ⟨u, hframe, heq⟩ := s.exists_commitValue_eq p v operator
  rw [heq, commit_records, hframe.ledger]
  exact ⟨rfl, rfl, rfl, rfl, rfl⟩

theorem commitValue_records : ∃ r, (s.commitValue p v operator).1.ledger.records = s.ledger.records ++ [r] ∧
    r.path = p.key ∧ r.operator = operator ∧ r.expression = v ∧ r.value = s.recordedForm p v operator :=
  ⟨_, s.commitValue_record p v operator⟩

end Values

/-! ## Stores without derivations -/

/-- No derivation is registered. -/
def Settled (s : Store) : Prop := ∀ target, s.derivations.get? target = none

theorem recomputeEach_of_settled (h : Settled s) (targets : List String) : s.recomputeEach targets = (s, true) := by
  induction targets with
  | nil => rfl
  | cons target rest ih =>
    have hsame : s.recompute target = some s := by rw [recompute, h target]
    rw [recomputeEach, hsame]
    exact ih

theorem Settled.of_derivations {t : Store} (h : Settled s) (ht : t.derivations = s.derivations) :
    Settled t := by
  intro target
  rw [ht]
  exact h target

theorem put_of_settled (h : Settled s) (p : Path) (v : Value) (operator : Option Operator.Kind) :
    s.put p v operator = ((s.commitValue p v operator).1, some (s.commitValue p v operator).2) := by
  have hafter : Settled (s.commitValue p v operator).1 :=
    h.of_derivations (commitValue_derivations s p v operator)
  rw [put]
  dsimp only
  rw [invalidate, recomputeEach_of_settled hafter, recorded, if_pos rfl]

theorem declare_of_settled (h : Settled s) (scope : Path) (kind : Operator.Kind) :
    s.declare scope kind = ((s.commitMarker scope kind (.text declarationText)).1,
      some (s.commitMarker scope kind (.text declarationText)).2) := by
  have hafter : Settled (s.commitMarker scope kind (.text declarationText)).1 := h
  rw [declare]
  dsimp only
  rw [invalidateScope, recomputeEach_of_settled hafter, recorded, if_pos rfl]

/-! ## What the calls come to -/

theorem Outcome.store_done {α : Type} (o : Outcome α) : o.done.store = o.store := rfl

/-- A value that is put where nothing is registered is committed, and the call returns. -/
theorem Settled.done_put (h : Settled s) (p : Path) (v : Value) (operator : Option Operator.Kind) :
    (apply.committed (s.put p v operator)).done = ⟨(s.commitValue p v operator).1, some (.ok ())⟩ := by
  rw [put_of_settled h]
  rfl

theorem Settled.done_declare (h : Settled s) (scope : Path) (kind : Operator.Kind) :
    (apply.committed (s.declare scope kind)).done =
      ⟨(s.commitMarker scope kind (.text declarationText)).1, some (.ok ())⟩ := by
  rw [declare_of_settled h]
  rfl

theorem callKind_store {kind : Operator.Kind} {raw : String} {v : Value} {i : Operator.Instruction}
    (h : ∀ path, Operator.classifyKind kind (Path.parse raw) path v = .ok i) :
    (s.callKind kind raw v).store = (s.apply i).store := by
  rw [callKind, h]
  rfl

theorem apply_declareSecret (s : Store) (scope : Path) (secret : String) :
    (s.apply (.declareSecret scope secret)).store =
      ({ s with scopes := s.scopes.declareSecret scope secret }.declare scope .secret).1 := rfl

theorem apply_declareNoise (s : Store) (scope : Path) (noise : String) :
    (s.apply (.declareNoise scope noise)).store =
      ({ s with scopes := s.scopes.declareNoise scope noise }.declare scope .noise).1 := rfl

theorem apply_identify (s : Store) (p : Path) (name : String) :
    (s.apply (.identify p name)).store = (s.put p (.identity name) (some .identity)).1 := rfl

theorem declareSecret_store (h : Settled s) (raw secret : String) :
    (s.declareSecret raw secret).store =
      ({ s with scopes := s.scopes.declareSecret (Path.canonical raw) secret }.commitMarker
        (Path.canonical raw) .secret (.text declarationText)).1 := by
  have hdeclared : Settled { s with scopes := s.scopes.declareSecret (Path.canonical raw) secret } := h
  rw [declareSecret, Outcome.store_done, callKind_store fun _ => rfl, apply_declareSecret]
  exact congrArg Prod.fst (declare_of_settled hdeclared _ _)

theorem declareNoise_store (h : Settled s) (raw noise : String) :
    (s.declareNoise raw noise).store =
      ({ s with scopes := s.scopes.declareNoise (Path.canonical raw) noise }.commitMarker
        (Path.canonical raw) .noise (.text declarationText)).1 := by
  have hdeclared : Settled { s with scopes := s.scopes.declareNoise (Path.canonical raw) noise } := h
  rw [declareNoise, Outcome.store_done, callKind_store fun _ => rfl, apply_declareNoise]
  exact congrArg Prod.fst (declare_of_settled hdeclared _ _)

theorem classifyKind_identity {username name : String} (hname : Username.normalize username = .ok name)
    (scope path : Path) :
    Operator.classifyKind .identity scope path (.text username) = .ok (.identify scope.normalize name) := by
  simp only [Operator.classifyKind, Operator.expectText, hname, bind, Except.bind]
  rfl

theorem declareIdentity_store (h : Settled s) (raw : String) {username name : String}
    (hname : Username.normalize username = .ok name) :
    (s.declareIdentity raw username).store =
      (s.commitValue (Path.canonical raw) (.identity name) (some .identity)).1 := by
  rw [declareIdentity, Outcome.store_done, callKind_store (classifyKind_identity hname _), apply_identify,
    put_of_settled h]
  rfl

end PathLedger.Store
