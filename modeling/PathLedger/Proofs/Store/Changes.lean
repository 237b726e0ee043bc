import PathLedger.Proofs.Operator.Meaning
import PathLedger.Proofs.Store.Commit
import PathLedger.Store.Portable

/-!
# What calls are made of

Every call is a row of elementary changes: values committed, scopes declared, paths removed, formulas registered and
computed, operators bound. What each change keeps, a call keeps.

* `Store.registered`, `Store.touched` — a formula registered, and a target marked as computed.
* `Change`, `Store.change` — an elementary change with its input, and what it makes of a store.
* `Store.Leads` — one store leads to another by changes of some sort.
* `Store.Causes` — the changes that an instruction may be made of.
* `Store.apply_leads` — **an instruction leads to its store by the changes that it causes**.
* `Store.Redoes` — the changes that a record done again may be made of; `Store.replayRecord_leads` says that it is.
* `Store.replayRecords_leads` — **records done again** never bind an operator.
-/

namespace PathLedger

/-- An elementary change of a store, with its input. -/
inductive Change where
  /-- A value committed at a path. -/
  | value (p : Path) (v : Value) (operator : Option Operator.Kind)
  | secret (scope : Path) (text : String)
  | noise (scope : Path) (text : String)
  | removal (target : Path)
  /-- A formula registered at a name under a scope, if it can be bound, before its value is computed. -/
  | register (scope : Path) (name expression : String)
  /-- The derivation at a target computed anew, if there is one and its evaluation ends. -/
  | recompute (target : String)
  | operators (r : Operator.Registry)

namespace Store

/-! ## Formulas registered and computed -/

/-- The store with a formula registered at a name under a scope with its references, before its value is computed. -/
def registered (s : Store) (scope : Path) (name expression : String) (refs : List Reference) : Store :=
  { s with
    derivations := s.derivations.register (scope.join (Path.canonical name)) ⟨expression, scope, refs, s.clock.now⟩
    clock := s.clock.advance }

/-- The store with a target marked as computed now. -/
def touched (s : Store) (target : String) : Store :=
  { s with derivations := s.derivations.touch target s.clock.now, clock := s.clock.advance }

theorem deriveOne_of_bound {s : Store} {scope : Path} {expression : String} {refs : List Reference} {v : Value}
    (hrefs : Derivation.bindReferences s.resolver expression scope = some refs) (name : String)
    (hv : (s.registered scope name expression refs).valueOf expression scope = some v) :
    s.deriveOne scope name expression =
      (s.registered scope name expression refs).put (scope.join (Path.canonical name)) v (some .derive) := by
  unfold registered at *
  unfold deriveOne
  dsimp only
  rw [hrefs]
  dsimp only
  rw [hv]

/-- A formula is registered and its value put at the target, as far as its references and its value are found at all. -/
theorem deriveOne_cases (s : Store) (scope : Path) (name expression : String) :
    Derivation.bindReferences s.resolver expression scope = none ∧ s.deriveOne scope name expression = (s, none) ∨
      ∃ refs, Derivation.bindReferences s.resolver expression scope = some refs ∧
        (s.deriveOne scope name expression = (s.registered scope name expression refs, none) ∨
          ∃ v, (s.registered scope name expression refs).valueOf expression scope = some v ∧
            s.deriveOne scope name expression =
              (s.registered scope name expression refs).put (scope.join (Path.canonical name)) v (some .derive)) := by
  cases hrefs : Derivation.bindReferences s.resolver expression scope with
  | none =>
    refine .inl ⟨rfl, ?_⟩
    unfold deriveOne
    dsimp only
    rw [hrefs]
  | some refs =>
    refine .inr ⟨refs, rfl, ?_⟩
    cases hv : (s.registered scope name expression refs).valueOf expression scope with
    | some v => exact .inr ⟨v, rfl, deriveOne_of_bound hrefs name hv⟩
    | none =>
      refine .inl ?_
      unfold registered at *
      unfold deriveOne
      dsimp only
      rw [hrefs]
      dsimp only
      rw [hv]

theorem recompute_of_none {s : Store} {target : String} (h : s.derivations.get? target = none) :
    s.recompute target = some s := by
  unfold recompute
  rw [h]

theorem recompute_eq {s : Store} {target : String} {d : Derivation} (h : s.derivations.get? target = some d) :
    s.recompute target = (s.valueOf d.expression d.scope).map fun v =>
      (s.commitValue (Path.ofKey target) v (some .derive)).1.touched target := by
  unfold recompute touched
  rw [h]

/-- What it is to have computed a target anew. -/
theorem recompute_cases {s t : Store} {target : String} (h : s.recompute target = some t) :
    s.derivations.get? target = none ∧ t = s ∨
      ∃ d v, s.derivations.get? target = some d ∧ s.valueOf d.expression d.scope = some v ∧
        t = (s.commitValue (Path.ofKey target) v (some .derive)).1.touched target := by
  cases hd : s.derivations.get? target with
  | none =>
    rw [recompute_of_none hd] at h
    exact .inl ⟨rfl, (Option.some.inj h).symm⟩
  | some d =>
    rw [recompute_eq hd] at h
    obtain ⟨v, hv, rfl⟩ := Option.map_eq_some_iff.mp h
    exact .inr ⟨d, v, rfl, hv, rfl⟩

/-- Computing a target anew marks it as computed and leaves the formulas as they were. -/
theorem derivations_recompute {s t : Store} {target : String} (h : s.recompute target = some t) :
    ∃ time, t.derivations = s.derivations.touch target time := by
  obtain ⟨hd, rfl⟩ | ⟨d, v, hd, -, rfl⟩ := recompute_cases h
  · exact ⟨t.clock.now, by rw [Derivation.Graph.touch, hd]⟩
  · rw [touched]
    dsimp only
    rw [commitValue_derivations]
    exact ⟨_, rfl⟩

theorem operators_recompute {s t : Store} {target : String} (h : s.recompute target = some t) :
    t.operators = s.operators := by
  obtain ⟨-, rfl⟩ | ⟨d, v, -, -, rfl⟩ := recompute_cases h
  · rfl
  · rw [touched]
    dsimp only
    rw [commitValue_operators]

/-! ## Rows of changes -/

/-- The store after a change. -/
def change (s : Store) : Change → Store
  | .value p v operator => (s.commitValue p v operator).1
  | .secret scope text =>
    ({ s with scopes := s.scopes.declareSecret scope text }.commitMarker scope .secret (.text declarationText)).1
  | .noise scope text =>
    ({ s with scopes := s.scopes.declareNoise scope text }.commitMarker scope .noise (.text declarationText)).1
  | .removal target => (s.removeSubtree target).1
  | .register scope name expression =>
    ((Derivation.bindReferences s.resolver expression scope).map (s.registered scope name expression)).getD s
  | .recompute target => (s.recompute target).getD s
  | .operators r => { s with operators := r }

/-- One store leads to another by a row of changes of some sort. -/
inductive Leads (allowed : Change → Prop) (s : Store) : Store → Prop where
  | refl : Leads allowed s s
  | step {t : Store} (h : Leads allowed s t) {c : Change} (hc : allowed c) : Leads allowed s (t.change c)

variable {allowed more : Change → Prop} {s t u : Store}

theorem change_register {s : Store} {scope : Path} {expression : String} {refs : List Reference}
    (hrefs : Derivation.bindReferences s.resolver expression scope = some refs) (name : String) :
    s.change (.register scope name expression) = s.registered scope name expression refs := by
  rw [change, hrefs]
  rfl

/-- Registering a formula changes nothing, or registers it with the references that it is bound to. -/
theorem change_register_cases (s : Store) (scope : Path) (name expression : String) :
    s.change (.register scope name expression) = s ∨
      ∃ refs, Derivation.bindReferences s.resolver expression scope = some refs ∧
        s.change (.register scope name expression) = s.registered scope name expression refs := by
  cases hrefs : Derivation.bindReferences s.resolver expression scope with
  | none => exact .inl (by rw [change, hrefs]; rfl)
  | some refs => exact .inr ⟨refs, rfl, change_register hrefs name⟩

/-- Computing a target anew changes nothing, or puts a value at a registered target and marks it as computed. -/
theorem change_recompute_cases (s : Store) (target : String) :
    s.change (.recompute target) = s ∨ ∃ d v, s.derivations.get? target = some d ∧
      s.valueOf d.expression d.scope = some v ∧
      s.change (.recompute target) = (s.commitValue (Path.ofKey target) v (some .derive)).1.touched target := by
  cases h : s.recompute target with
  | none => exact .inl (by rw [change, h]; rfl)
  | some t =>
    have ht : s.change (.recompute target) = t := by rw [change, h]; rfl
    rw [ht]
    exact (recompute_cases h).imp And.right id

theorem Leads.single {c : Change} (hc : allowed c) : Leads allowed s (s.change c) := .step .refl hc

theorem Leads.trans (h : Leads allowed s t) (h' : Leads allowed t u) : Leads allowed s u := by
  induction h' with
  | refl => exact h
  | step _ hc ih => exact .step ih hc

theorem Leads.mono (hmore : ∀ c, allowed c → more c) (h : Leads allowed s t) : Leads more s t := by
  induction h with
  | refl => exact .refl
  | step _ hc ih => exact .step ih (hmore _ hc)

/-- **What every change of a row keeps, the row keeps.** -/
theorem Leads.keeps {P : Store → Prop} (h : Leads allowed s t)
    (hstep : ∀ u c, allowed c → P u → P (u.change c)) (hs : P s) : P t := by
  induction h with
  | refl => exact hs
  | step _ hc ih => exact hstep _ _ hc ih

section Rows

variable (hrecompute : ∀ target, allowed (.recompute target))

include hrecompute

/-- A row of targets, up to the first whose evaluation never ends. -/
theorem recomputeEach_leads (s : Store) (targets : List String) : Leads allowed s (s.recomputeEach targets).1 := by
  induction targets generalizing s with
  | nil => exact .refl
  | cons target rest ih =>
    unfold recomputeEach
    cases h : s.recompute target with
    | none => exact .refl
    | some t =>
      have ht : s.change (.recompute target) = t := by rw [change, h]; rfl
      exact (ht ▸ Leads.single (hrecompute target)).trans (ih t)

theorem put_leads (s : Store) {p : Path} {v : Value} {operator : Option Operator.Kind}
    (hvalue : allowed (.value p v operator)) : Leads allowed s (s.put p v operator).1 :=
  (Leads.single hvalue).trans (recomputeEach_leads hrecompute _ _)

theorem deriveOne_leads (s : Store) {scope : Path} {name expression : String}
    (hregister : allowed (.register scope name expression))
    (hvalue : ∀ v, allowed (.value (scope.join (Path.canonical name)) v (some .derive))) :
    Leads allowed s (s.deriveOne scope name expression).1 := by
  obtain ⟨-, h⟩ | ⟨refs, hrefs, h⟩ := s.deriveOne_cases scope name expression
  · rw [h]
    exact .refl
  · have hregistered : Leads allowed s (s.registered scope name expression refs) :=
      change_register hrefs name ▸ Leads.single hregister
    obtain h | ⟨v, -, h⟩ := h
    · rw [h]
      exact hregistered
    · rw [h]
      exact hregistered.trans (put_leads hrecompute _ (hvalue v))

theorem deriveEach_leads (s : Store) {name : String} {each : List (Path × String)}
    (hregister : ∀ e ∈ each, allowed (.register e.1 name e.2))
    (hvalue : ∀ e ∈ each, ∀ v, allowed (.value (e.1.join (Path.canonical name)) v (some .derive))) (last : Effect) :
    Leads allowed s (s.deriveEach name last each).1 := by
  induction each generalizing s last with
  | nil => exact .refl
  | cons e rest ih =>
    obtain ⟨hfirst, hmore⟩ := List.forall_mem_cons.mp hregister
    obtain ⟨hfirst', hmore'⟩ := List.forall_mem_cons.mp hvalue
    have hone := deriveOne_leads hrecompute s hfirst hfirst'
    unfold deriveEach
    split
    · rename_i heq
      rw [heq] at hone
      exact hone.trans (ih _ hmore hmore' _)
    · rename_i heq
      rw [heq] at hone
      exact hone

end Rows

/-! ## Instructions -/

/-- The changes that an instruction may be made of in a store. -/
inductive Causes (s : Store) : Operator.Instruction → Change → Prop where
  | set (p : Path) (v : Value) : Causes s (.set p v) (.value p v none)
  | declareSecret (scope : Path) (text : String) : Causes s (.declareSecret scope text) (.secret scope text)
  | declareNoise (scope : Path) (text : String) : Causes s (.declareNoise scope text) (.noise scope text)
  | point (p : Path) (target : String) : Causes s (.point p target) (.value p (.pointer target) (some .pointer))
  | identify (p : Path) (name : String) :
    Causes s (.identify p name) (.value p (.identity name) (some .identity))
  | register {scope : Path} {name expression : String} {each : List (Path × String)} {e : Path × String}
    (heach : s.broadcast scope expression = some each) (he : e ∈ each) :
    Causes s (.derive scope name expression) (.register e.1 name e.2)
  | derive {scope : Path} {name expression : String} {each : List (Path × String)} {e : Path × String}
    (heach : s.broadcast scope expression = some each) (he : e ∈ each) (v : Value) :
    Causes s (.derive scope name expression) (.value (e.1.join (Path.canonical name)) v (some .derive))
  | collect (scope : Path) (paths : List String) (v : Value) :
    Causes s (.collect scope paths) (.value scope v (some .query))
  | remove (target : Path) : Causes s (.remove target) (.removal target)
  | define {symbol kind : String} {k : Operator.Kind} {r : Operator.Registry}
    (h : s.operators.define symbol kind = .ok (k, r)) : Causes s (.define symbol kind) (.operators r)
  /-- What is downstream of a change is computed anew. -/
  | recompute (i : Operator.Instruction) (target : String) : Causes s i (.recompute target)

/-- **An instruction leads to its store by the changes that it causes.** -/
theorem apply_leads (s : Store) (i : Operator.Instruction) : Leads (Causes s i) s (s.apply i).store := by
  have hrecompute := Causes.recompute (s := s) i
  cases i with
  | set p v => exact put_leads hrecompute s (.set p v)
  | declareSecret scope text =>
    exact (Leads.single (.declareSecret scope text)).trans (recomputeEach_leads hrecompute _ _)
  | declareNoise scope text =>
    exact (Leads.single (.declareNoise scope text)).trans (recomputeEach_leads hrecompute _ _)
  | point p target => exact put_leads hrecompute s (.point p target)
  | identify p name => exact put_leads hrecompute s (.identify p name)
  | derive scope name expression =>
    simp only [Store.apply, derive]
    cases heach : s.broadcast scope expression with
    | none => exact .refl
    | some each =>
      exact deriveEach_leads hrecompute s (fun _ he => .register heach he)
        (fun _ he v => .derive heach he v) .nothing
  | evaluate expression => exact .refl
  | collect scope paths =>
    simp only [Store.apply]
    split
    · exact .refl
    · split
      · exact .refl
      · exact put_leads hrecompute s (.collect scope paths _)
  | remove target => exact Leads.single (Causes.remove target)
  | define symbol kind =>
    simp only [Store.apply]
    split
    · rename_i hdefine
      exact Leads.single (Causes.define hdefine)
    · exact .refl

/-- What is refused changes nothing. -/
theorem perform_leads (s : Store) {i : Except Fault Operator.Instruction}
    (hi : ∀ j, i = .ok j → ∀ c, Causes s j c → allowed c) : Leads allowed s (s.perform i).store := by
  cases i with
  | ok j => exact (s.apply_leads j).mono (hi j rfl)
  | error f => exact .refl

/-! ## Records done again -/

/-- Whether a change leaves the operators as they are. -/
def KeepsOperators (c : Change) : Prop := ∀ r, c ≠ .operators r

theorem registered_operators (s : Store) (scope : Path) (name expression : String) (refs : List Reference) :
    (s.registered scope name expression refs).operators = s.operators := rfl

theorem removeSubtree_operators (s : Store) (target : Path) : (s.removeSubtree target).1.operators = s.operators := by
  unfold removeSubtree commitMarker
  rw [commit_operators]
  exact (frame_pruneBranches target _ _).operators

theorem KeepsOperators.change {c : Change} (h : KeepsOperators c) (s : Store) :
    (s.change c).operators = s.operators := by
  cases c with
  | value p v operator => exact s.commitValue_operators p v operator
  | removal target => exact s.removeSubtree_operators target
  | register scope name expression =>
    obtain hsame | ⟨refs, -, hdone⟩ := s.change_register_cases scope name expression
    · rw [hsame]
    · rw [hdone, registered_operators]
  | recompute target =>
    obtain hsame | ⟨d, v, -, -, hdone⟩ := s.change_recompute_cases target
    · rw [hsame]
    · rw [hdone, touched, commitValue_operators]
  | operators r => exact absurd rfl (h r)
  | _ => rfl

theorem Leads.operators {s t : Store} (h : Leads KeepsOperators s t) : t.operators = s.operators :=
  h.keeps (fun u _ hc hu => (hc.change u).trans hu) rfl

theorem Causes.keepsOperators {i : Operator.Instruction} (hi : ∀ symbol kind, i ≠ .define symbol kind) {c : Change}
    (h : Causes s i c) : KeepsOperators c := by
  rintro r rfl
  cases h
  exact hi _ _ rfl

/-- The changes that a record may be made of when it is done again. -/
inductive Redoes (r : Record) : Change → Prop where
  | value (v : Value) (operator : Option Operator.Kind) : Redoes r (.value (Path.ofKey r.path) v operator)
  | secret (text : String) : Redoes r (.secret (Path.ofKey r.path) text)
  | noise (text : String) : Redoes r (.noise (Path.ofKey r.path) text)
  /-- A name is claimed anew at the raw path that the key spells. -/
  | identity (name : String) : Redoes r (.value (Path.canonical r.path) (.identity name) (some .identity))
  | removal : Redoes r (.removal (Path.ofKey r.path))
  | recompute (target : String) : Redoes r (.recompute target)

theorem Redoes.keepsOperators {r : Record} {c : Change} (h : Redoes r c) : KeepsOperators c := by
  rintro registry rfl
  cases h

/-- **A record done again** changes what it was recorded at. -/
theorem replayRecord_leads (s : Store) (r : Record) : Leads (Redoes r) s (s.replayRecord r).store := by
  have hvalue (v : Value) (operator : Option Operator.Kind) :
      Leads (Redoes r) s (s.put (Path.ofKey r.path) v operator).1 := put_leads .recompute s (.value v operator)
  have happly {i : Operator.Instruction} (hi : ∀ c, Causes s i c → Redoes r c) :
      Leads (Redoes r) s (s.apply i).store := (s.apply_leads i).mono hi
  unfold replayRecord
  dsimp only
  split
  · refine happly fun c hc => ?_
    cases hc with
    | declareSecret => exact .secret _
    | recompute i target => exact .recompute target
  · refine happly fun c hc => ?_
    cases hc with
    | declareNoise => exact .noise _
    | recompute i target => exact .recompute target
  · split
    · rw [declareIdentity, Outcome.store_done]
      refine s.perform_leads fun j hj c hc => ?_
      obtain ⟨raw, name, -, rfl⟩ := Operator.classifyKind_ok hj
      cases hc with
      | identify => exact .identity _
      | recompute i target => exact .recompute target
    · exact .refl
  · split
    · refine happly fun c hc => ?_
      cases hc with
      | point => exact .value _ _
      | recompute i target => exact .recompute target
    · exact .refl
  · refine happly fun c hc => ?_
    cases hc with
    | remove => exact .removal
    | recompute i target => exact .recompute target
  · rw [Outcome.store_done]
    exact hvalue _ _
  · rw [Outcome.store_done]
    exact hvalue _ _

theorem replayRecords_leads_of_redoes (s : Store) {records : List Record}
    (hrecords : ∀ r ∈ records, ∀ c, Redoes r c → allowed c) :
    Leads allowed s (s.replayRecords records).store := by
  induction records generalizing s with
  | nil => exact .refl
  | cons r rest ih =>
    obtain ⟨hr, hrest⟩ := List.forall_mem_cons.mp hrecords
    have hfirst := (s.replayRecord_leads r).mono hr
    unfold replayRecords
    split
    · rename_i heq
      rw [heq] at hfirst
      exact hfirst.trans (ih _ hrest)
    · exact hfirst

/-- **Records done again bind no operator.** -/
theorem replayRecords_leads (s : Store) (records : List Record) :
    Leads KeepsOperators s (s.replayRecords records).store :=
  s.replayRecords_leads_of_redoes fun _ _ _ hc => hc.keepsOperators

end Store

end PathLedger
