import PathLedger.Proofs.Index.Latest
import PathLedger.Proofs.Store.Subtree

/-!
# What a write leaves alone

A write makes the whole index anew, and seals a whole branch again. All the same it touches one key of the one or
what is above and below one row of names in the other, and nothing else, at whatever time it is made.

* `Store.Confined` — two stores that differ by a value at a path.
* `Store.get?_index_commitValue_of_ne` — a committed value leaves the other keys of the index alone.
* `Store.opens_commitValue` — a branch that opened still opens, with the same values beside the new one.
* `Store.write_confined` — **a write of a value adds one record and touches nothing but its path**.
-/

namespace PathLedger.Store

variable {s : Store} {p scope : Path} {v : Value} {operator : Option Operator.Kind}

/-- Nothing differs between two stores but what is kept at a path, after a value was put there. -/
structure Confined (s t : Store) (p : Path) (v : Value) : Prop where
  scopes : t.scopes = s.scopes
  operators : t.operators = s.operators
  derivations : t.derivations = s.derivations
  index : ∀ key ≠ p.key, t.index.get? key = s.index.get? key
  /-- The other branches are the same sealed values. -/
  branches : ∀ key, (∀ scope, s.scopes.hidingScope? p = some scope → key ≠ scope.key) →
    t.branches.get? key = s.branches.get? key
  /-- The branch of the hiding scope opens, when it did before, to everything that is neither above nor below the
  names of the path. -/
  inside : ∀ scope content, s.scopes.hidingScope? p = some scope → s.view.openBranch? scope = some content →
    v.Ordered → SealFits s p v →
    ∃ content', t.view.openBranch? scope = some content' ∧
      ∀ names, Value.Apart (branchNames scope p) names → Value.lookupAt names content' = Value.lookupAt names content

/-! ## The index -/

/-- **A committed value leaves the other keys of the index alone**, whatever the clock says. -/
theorem get?_index_commitValue_of_ne (hcurrent : IndexCurrent s) (hremove : operator ≠ some .remove) {key : String}
    (hkey : key ≠ p.key) : (s.commitValue p v operator).1.index.get? key = s.index.get? key := by
  obtain ⟨r, hrecords, hpath, hoperator, -⟩ := s.commitValue_records p v operator
  have hconcerns : ¬Index.concerns key r := by
    rw [Index.concerns, hoperator, if_neg hremove, hpath, Bool.and_eq_true, beq_iff_eq]
    exact fun h => hkey h.2.symm
  have hafter : IndexCurrent (s.commitValue p v operator).1 := indexCurrent_stable.value p v operator hcurrent
  rw [hafter, hrecords, commitValue_scopes, Index.get?_materialize_append_of_not_concerns hconcerns, hcurrent]

/-! ## The branches -/

/-- A committed value leaves the branches of other scopes as they were sealed. -/
theorem get?_branches_commitValue {key : String}
    (hkey : ∀ scope, s.scopes.hidingScope? p = some scope → key ≠ scope.key) (v : Value)
    (operator : Option Operator.Kind) :
    (s.commitValue p v operator).1.branches.get? key = s.branches.get? key := by
  cases hscope : s.scopes.hidingScope? p with
  | none => rw [commitValue_clear hscope, commit_branches]
  | some scope =>
    obtain ⟨n, -, -, -, hsecret⟩ := Scopes.hidingScope?_spec hscope
    rw [commitValue_hidden hscope, commit_branches, writeBranch_eq hsecret, sealBranch]
    exact Dict.get?_insert_of_ne _ (hkey scope hscope) _

/-- **A branch that opened still opens**, with the same values at all names apart from those of the path. -/
theorem opens_commitValue (hscope : s.scopes.hidingScope? p = some scope) (hv : v.Ordered) (hfits : SealFits s p v)
    (operator : Option Operator.Kind) {content : Value} (hopens : s.view.openBranch? scope = some content) :
    ∃ content', (s.commitValue p v operator).1.view.openBranch? scope = some content' ∧
      ∀ names, Value.Apart (branchNames scope p) names →
        Value.lookupAt names content' = Value.lookupAt names content := by
  refine ⟨_, openBranch?_commitValue hscope hv hfits operator, fun names hnames => ?_⟩
  have hfields : s.branchFields scope = content.fieldsOf := by
    rw [branchFields, hopens]
    rfl
  rw [fieldsWith, Value.lookupAt_insertAt_of_apart hnames, hfields, Value.lookupAt_fieldsOf hnames.ne_nil.2]

/-! ## Writes -/

theorem confined_commitValue (hcurrent : IndexCurrent s) (p : Path) (v : Value) :
    Confined s (s.commitValue p v none).1 p v where
  scopes := s.commitValue_scopes p v none
  operators := s.commitValue_operators p v none
  derivations := s.commitValue_derivations p v none
  index _ hkey := get?_index_commitValue_of_ne hcurrent (by decide) hkey
  branches _ hkey := get?_branches_commitValue hkey v none
  inside _ _ hscope hopens hv hfits := opens_commitValue hscope hv hfits none hopens

/-- **A write of a value touches nothing but its path.** In every store that is reached and has no derivations, under
every clock, a write that means a value at a path succeeds, adds one record, and leaves everything else alone. At a plain
path whose last segment is no operator every write means that: see `classify_plain`. -/
theorem write_confined (hs : Reached (fun _ => True) s) (hsettled : Settled s) {raw : String} {hint : Option String}
    (hset : Operator.classify s.operators (Path.parse raw) v hint = .ok (.set p v)) :
    ∃ r, (s.write raw v hint).result = some (.ok (.committed r)) ∧
      (s.write raw v hint).store.ledger.records = s.ledger.records ++ [r] ∧
      r.path = p.key ∧ r.operator = none ∧ r.expression = v ∧
      Confined s (s.write raw v hint).store p v := by
  have hwrite : s.write raw v hint = apply.committed (s.put p v none) := by
    rw [write, hset]
    rfl
  rw [put_of_settled hsettled] at hwrite
  have hstore : (s.write raw v hint).store = (s.commitValue p v none).1 := congrArg Outcome.store hwrite
  have hresult : (s.write raw v hint).result = some (.ok (.committed (s.commitValue p v none).2)) :=
    congrArg Outcome.result hwrite
  obtain ⟨hrecords, hpath, hoperator, hexpression, -⟩ := s.commitValue_record p v none
  refine ⟨_, hresult, by rw [hstore, hrecords], hpath, hoperator, hexpression, ?_⟩
  rw [hstore]
  exact confined_commitValue hs.indexCurrent p v

/-- A second value is written below a secret: the first is still found in the branch. -/
theorem write_confined_sheltered :
    Operator.classify (sheltered default).operators (Path.parse "wallet.owner") (.ofJson (.str "ann")) none =
        .ok (.set ⟨["wallet", "owner"]⟩ (.ofJson (.str "ann"))) ∧
      ∃ r, ((sheltered default).write "wallet.owner" (.ofJson (.str "ann")) none).result = some (.ok (.committed r)) ∧
        ∃ content, ((sheltered default).write "wallet.owner" (.ofJson (.str "ann")) none).store.view.openBranch?
            ⟨["wallet"]⟩ = some content ∧ Value.lookupAt ["balance"] content = some (.ofJson (.int 1)) := by
  obtain ⟨hsettled, hscopes, -⟩ := sheltered_parts default
  have hreached : Reached (fun _ => True) (sheltered default) := (sheltered_reached default).mono fun _ _ => trivial
  have hoperators : (sheltered default).operators = .initial := by
    rw [sheltered_eq, commitValue_operators]
    exact (oneSecret default "wallet" "k").operators
  have hset : Operator.classify (sheltered default).operators (Path.parse "wallet.owner") (.ofJson (.str "ann")) none =
      .ok (.set ⟨["wallet", "owner"]⟩ (.ofJson (.str "ann"))) :=
    classify_plain (p := ⟨["wallet", "owner"]⟩) (by decide) (by decide) (by rw [hoperators]; decide) _
  have hscope : (sheltered default).scopes.hidingScope? ⟨["wallet", "owner"]⟩ = some ⟨["wallet"]⟩ := by
    rw [hscopes]
    decide
  have hfits : SealFits (sheltered default) ⟨["wallet", "owner"]⟩ (.ofJson (.str "ann")) := by
    rw [SealFits, hscope]
    dsimp only
    rw [fieldsWith, branchFields, sheltered_opens]
    decide
  obtain ⟨r, hresult, -, -, -, -, hconfined⟩ := write_confined hreached hsettled hset
  obtain ⟨content, hopens, hapart⟩ :=
    hconfined.inside _ _ hscope (sheltered_opens default) (Value.ofJson_ordered _) hfits
  refine ⟨hset, r, hresult, content, hopens, ?_⟩
  rw [hapart ["balance"] ⟨by decide, by decide⟩]
  rfl

end PathLedger.Store
