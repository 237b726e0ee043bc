import PathLedger.Proofs.Store.Changes

/-!
# Runs of calls

The stores that a row of public operations leads to, and how to show something of all of them.

* `Call`, `Store.after` — a public operation with its input, and the store it leaves behind.
* `Store.Reached` — the stores that calls of some sort lead to, from an empty one on.
* `Store.meaning?` — the instruction that a call stands for; `Store.after_of_meaning` carries it out.
* `Store.Stable` — a property that every elementary change keeps.
* `Store.Reached.holds` — **a stable property holds in every store that is reached**.
* `Store.Reached.indexCurrent` — **the index is always the fold of the records** under the declarations in
  force.
-/

namespace PathLedger

/-- A public operation that may change a store, with its input. -/
inductive Call where
  | write (path : String) (v : Value) (hint : Option String)
  | remove (path : String)
  | declareSecret (scope secret : String)
  | declareNoise (scope noise : String)
  | definePointer (path target : String)
  | declareIdentity (path username : String)
  | defineOperator (symbol kind : String)
  | deriveAt (path expression : String)
  | collectAt (scope : String) (paths : List String)
  | restore (snapshot : Snapshot)
  | replay (records : List Record)

/-- Whether a call brings in nothing that another store recorded. -/
def Call.isLocal : Call → Bool
  | .restore _ => false
  | .replay _ => false
  | _ => true

namespace Store

/-- The store that a call leaves behind, also when it is refused or goes on without end. -/
def after (s : Store) : Call → Store
  | .write path v hint => (s.write path v hint).store
  | .remove path => (s.remove path).store
  | .declareSecret scope secret => (s.declareSecret scope secret).store
  | .declareNoise scope noise => (s.declareNoise scope noise).store
  | .definePointer path target => (s.definePointer path target).store
  | .declareIdentity path username => (s.declareIdentity path username).store
  | .defineOperator symbol kind => (s.defineOperator symbol kind).store
  | .deriveAt path expression => (s.deriveAt path expression).store
  | .collectAt scope paths => (s.collectAt scope paths).store
  | .restore snapshot => s.restore snapshot
  | .replay records => (s.replay records).store

/-- The stores that calls of some sort lead to, from an empty one on. -/
inductive Reached (allowed : Call → Prop) : Store → Prop where
  | start (clock : Clock) : Reached allowed (empty clock)
  | call {s : Store} (h : Reached allowed s) (c : Call) (hc : allowed c) : Reached allowed (s.after c)

theorem Reached.mono {allowed more : Call → Prop} (hmore : ∀ c, allowed c → more c) {s : Store}
    (h : Reached allowed s) : Reached more s := by
  induction h with
  | start clock => exact .start clock
  | call _ c hc ih => exact .call ih c (hmore c hc)

/-! ## What calls mean -/

/-- An operator of a kind called at a raw path. -/
def kindAt (kind : Operator.Kind) (path : String) (v : Value) : Except Fault Operator.Instruction :=
  Operator.classifyKind kind (Path.parse path) ((Path.parse path).child kind.name) v

/-- The instruction that a call stands for in a store, or why it is refused. A call that brings in what another store
recorded stands for none. -/
def meaning? (s : Store) : Call → Option (Except Fault Operator.Instruction)
  | .write path v hint => some (Operator.classify s.operators (Path.parse path) v hint)
  | .remove path => some (.ok (.remove (Path.canonical path)))
  | .declareSecret scope secret => some (kindAt .secret scope (.text secret))
  | .declareNoise scope noise => some (kindAt .noise scope (.text noise))
  | .definePointer path target => some (kindAt .pointer path (.text target))
  | .declareIdentity path username => some (kindAt .identity path (.text username))
  | .defineOperator symbol kind => some (.ok (.define symbol kind))
  | .deriveAt path expression => some (kindAt .derive path (.text expression))
  | .collectAt scope paths => some (kindAt .query scope (.list (paths.map Value.text)))
  | .restore _ => none
  | .replay _ => none

theorem callKind_eq (s : Store) (kind : Operator.Kind) (path : String) (v : Value) :
    s.callKind kind path v = s.perform (kindAt kind path v) := rfl

/-- **A call does what it means.** -/
theorem after_of_meaning {s : Store} {c : Call} {i : Except Fault Operator.Instruction}
    (h : s.meaning? c = some i) : s.after c = (s.perform i).store := by
  cases c with
  | restore snapshot => cases h
  | replay records => cases h
  | remove path =>
    obtain rfl := Option.some.inj h
    rfl
  | _ =>
    obtain rfl := Option.some.inj h
    simp only [after, write, declareSecret, declareNoise, definePointer, declareIdentity, defineOperator, deriveAt,
      collectAt, callKind_eq, Outcome.store_done, perform]

theorem meaning?_eq_none {s : Store} {c : Call} (h : s.meaning? c = none) :
    (∃ snapshot, c = .restore snapshot) ∨ ∃ records, c = .replay records := by
  cases c with
  | restore snapshot => exact .inl ⟨snapshot, rfl⟩
  | replay records => exact .inr ⟨records, rfl⟩
  | _ => cases h

/-! ## Stable properties -/

/-- A property that every elementary change of a store keeps. -/
structure Stable (P : Store → Prop) : Prop where
  value {s : Store} (p : Path) (v : Value) (operator : Option Operator.Kind) (h : P s) :
    P (s.commitValue p v operator).1
  secret {s : Store} (scope : Path) (secret : String) (h : P s) :
    P ({ s with scopes := s.scopes.declareSecret scope secret }.commitMarker scope .secret
      (.text declarationText)).1
  noise {s : Store} (scope : Path) (noise : String) (h : P s) :
    P ({ s with scopes := s.scopes.declareNoise scope noise }.commitMarker scope .noise
      (.text declarationText)).1
  removal {s : Store} (target : Path) (h : P s) : P (s.removeSubtree target).1
  register {s : Store} (scope : Path) (name expression : String) (refs : List Reference)
    (hrefs : Derivation.bindReferences s.resolver expression scope = some refs) (h : P s) :
    P (s.registered scope name expression refs)
  touch {s : Store} (target : String) (h : P s) : P (s.touched target)
  operators {s : Store} (r : Operator.Registry) (h : P s) : P { s with operators := r }

namespace Stable

variable {P : Store → Prop} (stable : Stable P) {s t : Store}

include stable

theorem change (h : P s) (c : Change) : P (s.change c) := by
  cases c with
  | value p v operator => exact stable.value p v operator h
  | secret scope text => exact stable.secret scope text h
  | noise scope text => exact stable.noise scope text h
  | removal target => exact stable.removal target h
  | register scope name expression =>
    obtain hsame | ⟨refs, hrefs, hdone⟩ := s.change_register_cases scope name expression
    · rw [hsame]
      exact h
    · rw [hdone]
      exact stable.register scope name expression refs hrefs h
  | recompute target =>
    obtain hsame | ⟨d, v, -, -, hdone⟩ := s.change_recompute_cases target
    · rw [hsame]
      exact h
    · rw [hdone]
      exact stable.touch _ (stable.value _ _ _ h)
  | operators r => exact stable.operators r h

theorem leads {allowed : Change → Prop} (hleads : Leads allowed s t) (h : P s) : P t :=
  hleads.keeps (fun _ c _ hu => stable.change hu c) h

theorem after (h : P s) (cleared : P s.cleared) (restore : ∀ snapshot, P (s.restore snapshot)) (c : Call) :
    P (s.after c) := by
  cases hc : s.meaning? c with
  | some i =>
    rw [after_of_meaning hc]
    have hleads : Leads (fun _ => True) s (s.perform i).store := s.perform_leads fun _ _ _ _ => trivial
    exact stable.leads hleads h
  | none =>
    rcases meaning?_eq_none hc with ⟨snapshot, rfl⟩ | ⟨records, rfl⟩
    · exact restore snapshot
    · exact stable.leads (s.cleared.replayRecords_leads records) cleared

end Stable

/-- **A stable property holds in every store that is reached.** -/
theorem Reached.holds {P : Store → Prop} (stable : Stable P) (start : ∀ clock, P (empty clock))
    (cleared : ∀ s, P s → P s.cleared) (restore : ∀ s snapshot, P s → P (s.restore snapshot))
    {allowed : Call → Prop} {s : Store} (h : Reached allowed s) : P s := by
  induction h with
  | start clock => exact start clock
  | @call s _ c _ ih => exact stable.after ih (cleared s ih) (fun snapshot => restore s snapshot ih) c

/-! ## The index -/

/-- The index is the fold of the records under the declarations in force. -/
def IndexCurrent (s : Store) : Prop := s.index = Index.materialize s.ledger.records s.scopes

theorem indexCurrent_commit (s : Store) (d : Draft) : IndexCurrent (s.commit d).1 := rfl

theorem indexCurrent_empty (clock : Clock) : IndexCurrent (empty clock) :=
  (Index.materialize_nil .empty).symm

theorem indexCurrent_stable : Stable IndexCurrent where
  value p v operator _ := by
    unfold commitValue
    split <;> exact indexCurrent_commit _ _
  secret _ _ _ := indexCurrent_commit _ _
  noise _ _ _ := indexCurrent_commit _ _
  removal _ _ := indexCurrent_commit _ _
  register _ _ _ _ _ h := h
  touch _ h := h
  operators _ h := h

/-- **The index is always the fold of the records.** -/
theorem Reached.indexCurrent {allowed : Call → Prop} {s : Store} (h : Reached allowed s) : IndexCurrent s :=
  h.holds indexCurrent_stable indexCurrent_empty (fun _ _ => rfl) (fun _ _ _ => rfl)

end Store

end PathLedger
