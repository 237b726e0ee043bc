import PathLedger.Operator.Instruction

/-!
# What operators can mean

* `Operator.classifyKind_ok` — **every meaning that an operator of a kind can have**.
* `Operator.classifyKind_ne_define` — no operator of a kind defines another.
* `Operator.classify_identify` — a name that a write claims is in its normal form.
-/

namespace PathLedger.Operator

variable {scope path : Path} {v : Value} {i : Instruction}

theorem classifyDerive_ok (h : classifyDerive scope path v = .ok i) :
    (∃ top name expression, i = .derive top name expression) ∨ ∃ expression, i = .evaluate expression := by
  unfold classifyDerive at h
  split at h
  · dsimp only at h
    split at h
    · cases h
    · cases h
      exact .inl ⟨_, _, _, rfl⟩
  · dsimp only at h
    split at h
    · cases h
    · split at h
      · cases h
        exact .inr ⟨_, rfl⟩
      · cases h
        exact .inl ⟨_, _, _, rfl⟩
  · cases h

/-- The meanings that an operator of a kind can have at a raw scope. -/
def Kind.Means (scope : Path) (i : Instruction) : Kind → Prop
  | .secret => ∃ text, i = .declareSecret scope.normalize text
  | .noise => ∃ text, i = .declareNoise scope.normalize text
  | .pointer => ∃ target, i = .point scope.normalize (Path.canonical target).key
  | .identity => ∃ raw name, Username.normalize raw = .ok name ∧ i = .identify scope.normalize name
  | .derive => (∃ top name expression, i = .derive top name expression) ∨ ∃ expression, i = .evaluate expression
  | .query => ∃ paths, i = .collect scope.normalize paths
  | .remove => ∃ target : Path, i = .remove target.normalize

/-- **Every meaning that an operator of a kind can have.** -/
theorem classifyKind_ok {kind : Kind} (h : classifyKind kind scope path v = .ok i) : kind.Means scope i := by
  cases kind with
  | secret =>
    cases v <;> cases h
    exact ⟨_, rfl⟩
  | noise =>
    cases v <;> cases h
    exact ⟨_, rfl⟩
  | pointer =>
    cases v with
    | text raw =>
      simp only [classifyKind, expectText, bind, Except.bind] at h
      split at h
      · cases h
      · split at h
        · cases h
        · cases h
          exact ⟨_, rfl⟩
    | _ => cases h
  | identity =>
    cases v with
    | text raw =>
      simp only [classifyKind, expectText, bind, Except.bind] at h
      split at h
      · cases h
      · rename_i name hname
        cases h
        exact ⟨raw, name, hname, rfl⟩
    | _ => cases h
  | derive => exact classifyDerive_ok h
  | query =>
    simp only [classifyKind] at h
    split at h
    · cases h
    · cases h
      exact ⟨_, rfl⟩
  | remove =>
    cases v <;> cases h
    · exact ⟨_, rfl⟩
    · exact ⟨_, rfl⟩

/-- No operator of a kind defines another. -/
theorem classifyKind_ne_define {kind : Kind} (h : classifyKind kind scope path v = .ok i) (symbol name : String) :
    i ≠ .define symbol name := by
  have hmeans := classifyKind_ok h
  rintro rfl
  cases kind <;> simp [Kind.Means] at hmeans

/-- The definition of an operator means nothing else. -/
theorem classifyDefinition_ok (h : classifyDefinition path v = .ok i) : ∃ symbol kind, i = .define symbol kind := by
  unfold classifyDefinition at h
  split at h
  · cases h
  · split at h
    · dsimp only at h
      split at h
      · cases h
      · cases h
        exact ⟨_, _, rfl⟩
    · cases h

/-- A write sets a value at a normalized path, or defines an operator, or means what an operator of some kind can
mean. -/
theorem classify_ok {registry : Registry} {hint : Option String} (h : classify registry path v hint = .ok i) :
    (∃ p : Path, i = .set p.normalize v) ∨ (∃ symbol kind, i = .define symbol kind) ∨
      ∃ kind top, Kind.Means top i kind := by
  unfold classify at h
  simp only [bind, Except.bind] at h
  split at h
  · cases h
  · rename_i called _
    split at h
    · -- The root is normalized as it is.
      rename_i hlast
      cases h
      have hroot : called = Path.root.normalize := congrArg Path.mk (List.getLast?_eq_none_iff.mp hlast)
      exact .inl ⟨Path.root, by rw [hroot]⟩
    · split at h
      · exact .inr (.inl (classifyDefinition_ok h))
      · split at h
        · cases h
          exact .inl ⟨_, rfl⟩
        · exact .inr (.inr ⟨_, _, classifyKind_ok h⟩)

/-- A name that is claimed is in its normal form. -/
theorem Kind.Means.identify {kind : Kind} {p : Path} {name : String} (h : kind.Means scope (.identify p name)) :
    ∃ raw, Username.normalize raw = .ok name := by
  cases kind <;> simp [Kind.Means] at h
  obtain ⟨⟨raw, hname⟩, -⟩ := h
  exact ⟨raw, hname⟩

theorem classify_identify {registry : Registry} {hint : Option String} {p : Path} {name : String}
    (h : classify registry path v hint = .ok (.identify p name)) : ∃ raw, Username.normalize raw = .ok name := by
  rcases classify_ok h with ⟨_, hset⟩ | ⟨_, _, hdefine⟩ | ⟨_, _, hmeans⟩
  · cases hset
  · cases hdefine
  · exact hmeans.identify

end PathLedger.Operator
