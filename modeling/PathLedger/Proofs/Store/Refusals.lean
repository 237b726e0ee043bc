import PathLedger.Proofs.Store.Declarations
import PathLedger.Proofs.Store.Edits

/-!
# Refused calls

A call is refused where its input is classified, or where a symbol is bound, and both come before anything is changed.
A replay is refused later: at the first record that claims a name which is not allowed, when the store has been cleared
and the records before that one have been done again.

* `Store.Outcome.fault?`, `Store.refusal?` — why an instruction or a call is refused, if it is.
* `Store.fault?_apply` — only the definition of an operator can be refused once it has been classified.
* `Store.refused_unchanged` — **a refused call leaves the store as it was**.
* `Record.refusal?` — why a record cannot be done again, if it cannot; `Store.fault?_replay` — a replay is refused for
  the first such record.
* `Store.result_replay` — **every replay ends**.
* `Store.replay_until_refused` — **a refused replay leaves what the records before that one make**.
* `Store.replay_loses` — a refused replay after which the records and the branches are lost.
-/

namespace PathLedger

namespace Store

variable {s : Store} {f : Fault}

/-! ## Calls -/

/-- Why something was refused, if it was. -/
def Outcome.fault? {α : Type} (o : Outcome α) : Option Fault :=
  match o.result with
  | some (.error f) => some f
  | _ => none

theorem Outcome.fault?_eq_some {α : Type} {o : Outcome α} : o.fault? = some f ↔ o.result = some (.error f) := by
  unfold fault?
  cases o.result with
  | none => simp
  | some result => cases result <;> simp

/-- What was not refused and returns succeeded. -/
theorem Outcome.eq_of_fault?_eq_none {o : Outcome Unit} (hresult : o.result.isSome) (h : o.fault? = none) :
    o = ⟨o.store, some (.ok ())⟩ := by
  obtain ⟨t, result⟩ := o
  cases result with
  | none => cases hresult
  | some result =>
    cases result with
    | ok _ => rfl
    | error f => cases h

theorem Outcome.fault?_done {α : Type} (o : Outcome α) : o.done.fault? = o.fault? := by
  unfold fault? done
  cases o.result with
  | none => rfl
  | some result => cases result <;> rfl

/-- Why a call is refused in a store, if it is. The restoring of a snapshot never is. -/
def refusal? (s : Store) : Call → Option Fault
  | .write path v hint => (s.write path v hint).fault?
  | .remove path => (s.remove path).fault?
  | .declareSecret scope secret => (s.declareSecret scope secret).fault?
  | .declareNoise scope noise => (s.declareNoise scope noise).fault?
  | .definePointer path target => (s.definePointer path target).fault?
  | .declareIdentity path username => (s.declareIdentity path username).fault?
  | .defineOperator symbol kind => (s.defineOperator symbol kind).fault?
  | .deriveAt path expression => (s.deriveAt path expression).fault?
  | .collectAt scope paths => (s.collectAt scope paths).fault?
  | .restore _ => none
  | .replay records => (s.replay records).fault?

/-- A call is refused as what it means is. -/
theorem refusal?_of_meaning {c : Call} {i : Except Fault Operator.Instruction} (h : s.meaning? c = some i) :
    s.refusal? c = (s.perform i).fault? := by
  cases c with
  | restore snapshot => cases h
  | replay records => cases h
  | remove path =>
    obtain rfl := Option.some.inj h
    rfl
  | _ =>
    obtain rfl := Option.some.inj h
    simp only [refusal?, write, declareSecret, declareNoise, definePointer, declareIdentity, defineOperator, deriveAt,
      collectAt, callKind_eq, Outcome.fault?_done, perform]

/-- What returns an effect, if it returns, was not refused. -/
theorem fault?_of_ok {α β : Type} (t : Store) (x : Option β) (result : β → α) :
    (⟨t, x.map fun b => .ok (result b)⟩ : Outcome α).fault? = none := by
  cases x <;> rfl

theorem fault?_committed (c : Store × Option Record) : (apply.committed c).fault? = none := fault?_of_ok _ _ _

/-- Only the definition of an operator can be refused once it has been classified. -/
theorem fault?_apply {i : Operator.Instruction} :
    (s.apply i).fault? = some f ↔
      ∃ symbol kind, i = .define symbol kind ∧ s.operators.define symbol kind = .error f := by
  cases i with
  | define symbol kind =>
    cases hdefine : s.operators.define symbol kind <;> simp [apply, Outcome.fault?, hdefine]
  | collect scope paths =>
    simp only [apply]
    split
    · simp [Outcome.fault?]
    · split
      · simp [Outcome.fault?]
      · simp [fault?_committed]
  | derive scope name expression =>
    cases hdone : (s.derive scope name expression).2 <;> simp [apply, Outcome.fault?, hdone]
  | evaluate expression => simp [apply, fault?_of_ok]
  | _ => simp [apply, fault?_committed]

/-- A refused instruction changes nothing. -/
theorem apply_of_fault? {i : Operator.Instruction} (h : (s.apply i).fault? = some f) : (s.apply i).store = s := by
  obtain ⟨symbol, kind, rfl, hdefine⟩ := fault?_apply.mp h
  rw [apply, hdefine]

/-- **A refused call leaves the store as it was**: records, declarations, branches, index, derivations, operators and
clock. It is refused for its input alone, or for the symbol or the kind of an operator that it defines. -/
theorem refused_unchanged {c : Call} (hlocal : c.isLocal) (hrefused : s.refusal? c = some f) :
    s.after c = s ∧
      (s.meaning? c = some (.error f) ∨
        ∃ symbol kind, s.meaning? c = some (.ok (.define symbol kind)) ∧
          s.operators.define symbol kind = .error f) := by
  cases hi : s.meaning? c with
  | none => rcases meaning?_eq_none hi with ⟨snapshot, rfl⟩ | ⟨records, rfl⟩ <;> cases hlocal
  | some i =>
    rw [refusal?_of_meaning hi] at hrefused
    rw [after_of_meaning hi]
    cases i with
    | error g =>
      obtain rfl : g = f := Option.some.inj hrefused
      exact ⟨rfl, .inl rfl⟩
    | ok i =>
      obtain ⟨symbol, kind, rfl, hdefine⟩ := fault?_apply.mp hrefused
      exact ⟨apply_of_fault? hrefused, .inr ⟨symbol, kind, rfl, hdefine⟩⟩

/-- A name that is too short is refused, in a store with a secret and a value below it. -/
theorem refused_unchanged_sheltered :
    ∃ f, (sheltered default).refusal? (.declareIdentity "me" "x") = some f ∧
      (sheltered default).after (.declareIdentity "me" "x") = sheltered default := by
  have hrefused : (sheltered default).refusal? (.declareIdentity "me" "x") =
      some (.invalidIdentity "'x': length must be between 3 and 63") := rfl
  exact ⟨_, hrefused, (refused_unchanged rfl hrefused).1⟩

/-! ## Replays -/

end Store

/-- Why a record cannot be done again, if it cannot: it claims a name that is not allowed. -/
def Record.refusal? (r : Record) : Option Fault :=
  if r.operator = some .identity then
    (Store.carriedText? r Value.asIdentity?).bind fun name =>
      match Username.normalize name with
      | .ok _ => none
      | .error f => some f
  else none

namespace Store

variable {records : List Record} {r : Record} {f : Fault}

theorem declareIdentity_of_error {username : String} (h : Username.normalize username = .error f) (s : Store)
    (raw : String) : s.declareIdentity raw username = ⟨s, some (.error f)⟩ := by
  simp only [declareIdentity, callKind_eq, kindAt, Operator.classifyKind, Operator.expectText, h, bind, Except.bind]
  rfl

theorem fault?_declareIdentity_of_ok {username name : String} (h : Username.normalize username = .ok name) (s : Store)
    (raw : String) : (s.declareIdentity raw username).fault? = none := by
  rw [declareIdentity, callKind_eq, kindAt, classifyKind_identity h, Outcome.fault?_done]
  exact fault?_committed _

/-- **A record is refused for what it claims**, in whatever store it is done again, and then nothing is changed. -/
theorem replayRecord_of_refusal? (h : r.refusal? = some f) (s : Store) : s.replayRecord r = ⟨s, some (.error f)⟩ := by
  unfold Record.refusal? at h
  split at h
  · rename_i hidentity
    obtain ⟨name, hname, herror⟩ := Option.bind_eq_some_iff.mp h
    split at herror
    · cases herror
    · rename_i g hnormalize
      obtain rfl : g = f := Option.some.inj herror
      unfold replayRecord
      rw [hidentity]
      simp only [hname]
      exact declareIdentity_of_error hnormalize s r.path
  · cases h

/-- Any other record is done again. -/
theorem fault?_replayRecord_of_not_refused (h : r.refusal? = none) (s : Store) : (s.replayRecord r).fault? = none := by
  unfold replayRecord
  split
  · exact (Outcome.fault?_done _).trans (fault?_committed _)
  · exact (Outcome.fault?_done _).trans (fault?_committed _)
  · rename_i hidentity
    cases hname : carriedText? r Value.asIdentity? with
    | none => rfl
    | some name =>
      rw [Record.refusal?, if_pos hidentity, hname, Option.bind_some] at h
      split at h
      · rename_i hnormalize
        exact fault?_declareIdentity_of_ok hnormalize s r.path
      · cases h
  · split
    · exact (Outcome.fault?_done _).trans (fault?_committed _)
    · rfl
  · rfl
  · exact (Outcome.fault?_done _).trans (fault?_committed _)
  · exact (Outcome.fault?_done _).trans (fault?_committed _)

/-! A replay starts without derivations, and no record registers one, so nothing is evaluated and every replay ends. -/

theorem settled_cleared (s : Store) : Settled s.cleared := fun _ => rfl

/-- A record done again returns. -/
theorem Settled.result_replayRecord (h : Settled s) (r : Record) : (s.replayRecord r).result.isSome := by
  have hput (p : Path) (v : Value) (operator : Option Operator.Kind) :
      (apply.committed (s.put p v operator)).done.result.isSome := by
    rw [h.done_put]
    rfl
  have hdeclare (scopes : Scopes) (scope : Path) (kind : Operator.Kind) :
      (apply.committed ({ s with scopes }.declare scope kind)).done.result.isSome := by
    have hdeclared : Settled { s with scopes } := h
    rw [hdeclared.done_declare]
    rfl
  unfold replayRecord
  split
  · exact hdeclare _ _ _
  · exact hdeclare _ _ _
  · split
    · rename_i username _
      rw [declareIdentity, callKind]
      cases hclass : Operator.classifyKind .identity (Path.parse r.path)
          ((Path.parse r.path).child Operator.Kind.identity.name) (.text username) with
      | error f => rfl
      | ok i =>
        obtain ⟨raw, name, -, rfl⟩ := Operator.classifyKind_ok hclass
        exact hput _ _ _
    · rfl
  · split
    · exact hput _ _ _
    · rfl
  · rfl
  · exact hput _ _ _
  · exact hput _ _ _

/-- No change of a record done again registers a derivation. -/
theorem Settled.redo (h : Settled s) {c : Change} (hc : Redoes r c) : Settled (s.change c) := by
  cases hc with
  | value v operator => exact h.of_derivations (s.commitValue_derivations (Path.ofKey r.path) v operator)
  | secret text => exact h
  | noise text => exact h
  | identity name =>
    refine h.of_derivations ?_
    rw [change, commitValue_derivations]
  | removal =>
    refine h.of_derivations ?_
    rw [change, removeSubtree_eq, commit_derivations, (frame_pruned s _).derivations]
    exact h.clearUnder _
  | recompute target =>
    rw [change, recompute_of_none (h target)]
    exact h

theorem Settled.replayRecord (h : Settled s) (r : Record) : Settled (s.replayRecord r).store :=
  (s.replayRecord_leads r).keeps (fun _ _ hc hu => hu.redo hc) h

theorem replayRecord_of_not_refused (h : r.refusal? = none) (hs : Settled s) :
    s.replayRecord r = ⟨(s.replayRecord r).store, some (.ok ())⟩ :=
  Outcome.eq_of_fault?_eq_none (hs.result_replayRecord r) (fault?_replayRecord_of_not_refused h s)

theorem replayRecords_cons_of_not_refused (h : r.refusal? = none) (hs : Settled s) (rest : List Record) :
    s.replayRecords (r :: rest) = (s.replayRecord r).store.replayRecords rest := by
  rw [replayRecords, replayRecord_of_not_refused h hs]

theorem replayRecords_cons_of_refused (h : r.refusal? = some f) (s : Store) (rest : List Record) :
    s.replayRecords (r :: rest) = ⟨s, some (.error f)⟩ := by
  rw [replayRecords, replayRecord_of_refusal? h]

/-- Records done again are refused for the first of them that is. -/
theorem Settled.fault?_replayRecords (hs : Settled s) (records : List Record) :
    (s.replayRecords records).fault? = records.findSome? Record.refusal? := by
  induction records generalizing s with
  | nil => rfl
  | cons r rest ih =>
    cases h : r.refusal? with
    | none => rw [replayRecords_cons_of_not_refused h hs, ih (hs.replayRecord r), List.findSome?_cons, h]
    | some f =>
      rw [replayRecords_cons_of_refused h, List.findSome?_cons, h]
      rfl

/-- **A replay is refused for what its records claim**, whatever the store was before. -/
theorem fault?_replay (s : Store) (records : List Record) :
    (s.replay records).fault? = records.findSome? Record.refusal? := s.settled_cleared.fault?_replayRecords records

/-- Records done again return, refused or not. -/
theorem Settled.result_replayRecords (hs : Settled s) (records : List Record) :
    (s.replayRecords records).result.isSome := by
  induction records generalizing s with
  | nil => rfl
  | cons r rest ih =>
    cases h : r.refusal? with
    | none =>
      rw [replayRecords_cons_of_not_refused h hs]
      exact ih (hs.replayRecord r)
    | some f =>
      rw [replayRecords_cons_of_refused h]
      rfl

/-- **Every replay ends.** -/
theorem result_replay (s : Store) (records : List Record) : (s.replay records).result.isSome :=
  s.settled_cleared.result_replayRecords records

/-- What stands before the first record that is refused is done again, and nothing behind it. -/
theorem replayRecords_of_refused {front rest : List Record} (hfront : ∀ a ∈ front, a.refusal? = none)
    (hr : r.refusal? = some f) (hs : Settled s) :
    s.replayRecords (front ++ r :: rest) = ⟨(s.replayRecords front).store, some (.error f)⟩ := by
  induction front generalizing s with
  | nil => exact replayRecords_cons_of_refused hr s rest
  | cons a front ih =>
    obtain ⟨ha, hfront⟩ := List.forall_mem_cons.mp hfront
    rw [List.cons_append, replayRecords_cons_of_not_refused ha hs, replayRecords_cons_of_not_refused ha hs,
      ih hfront (hs.replayRecord a)]

/-- **A refused replay leaves what the records before the refused one make.** Nothing of the store before the replay is
left but its operators. -/
theorem replay_until_refused {s : Store} (h : (s.replay records).result = some (.error f)) :
    ∃ front r rest, records = front ++ r :: rest ∧ r.refusal? = some f ∧
      s.replay front = ⟨(s.replay records).store, some (.ok ())⟩ ∧
      (s.replay records).store.operators = s.operators := by
  have hfault : (s.replay records).fault? = some f := Outcome.fault?_eq_some.mpr h
  rw [fault?_replay] at hfault
  obtain ⟨front, r, rest, rfl, hr, hfront⟩ := List.findSome?_eq_some_iff.mp hfault
  have hbefore : (s.replay front).fault? = none := by
    rw [fault?_replay]
    exact List.findSome?_eq_none_iff.mpr hfront
  have hleft : s.replay (front ++ r :: rest) = ⟨(s.replay front).store, some (.error f)⟩ :=
    replayRecords_of_refused hfront hr s.settled_cleared
  refine ⟨front, r, rest, rfl, hr, ?_, (s.cleared.replayRecords_leads _).operators⟩
  rw [hleft]
  exact Outcome.eq_of_fault?_eq_none (s.result_replay front) hbefore

/-- The record of a claim to a name that is too short. -/
def shortClaim : Record := ⟨"me", some .identity, .identity "x", .identity "x", "", "", "", 0⟩

/-- The record of a value. -/
def plainRecord : Record := ⟨"a", none, .bool true, .bool true, "", "", "", 0⟩

theorem refusal?_shortClaim :
    shortClaim.refusal? = some (.invalidIdentity "'x': length must be between 3 and 63") := by decide

/-- What stands before the claim is done again. -/
theorem replay_until_refused_shortClaim :
    ∃ f, ((sheltered default).replay [plainRecord, shortClaim]).result = some (.error f) ∧
      ∃ front r rest, [plainRecord, shortClaim] = front ++ r :: rest ∧ r.refusal? = some f ∧
        (sheltered default).replay front =
          ⟨((sheltered default).replay [plainRecord, shortClaim]).store, some (.ok ())⟩ := by
  have hrefused : ((sheltered default).replay [plainRecord, shortClaim]).result =
      some (.error (.invalidIdentity "'x': length must be between 3 and 63")) := by
    rw [← Outcome.fault?_eq_some, fault?_replay]
    decide
  obtain ⟨front, r, rest, hsplit, hr, hreplay, -⟩ := replay_until_refused hrefused
  exact ⟨_, hrefused, front, r, rest, hsplit, hr, hreplay⟩

/-- **A refused replay loses the store.** A secret and a value below it are gone after one record that is refused. -/
theorem replay_loses :
    ∃ s, Reached (fun c => c.isLocal = true) s ∧ s.ledger.length = 2 ∧ (s.branches.get? "wallet").isSome ∧
      ∃ f, (s.replay [shortClaim]).result = some (.error f) ∧ (s.replay [shortClaim]).store.ledger.length = 0 ∧
        (s.replay [shortClaim]).store.branches.get? "wallet" = none := by
  obtain ⟨-, -, hbranch, r, r', hrecords, -⟩ := sheltered_parts (.ticking 1000 1)
  have hreplay := replayRecords_cons_of_refused refusal?_shortClaim (sheltered (.ticking 1000 1)).cleared []
  refine ⟨_, sheltered_reached (.ticking 1000 1), ?_, hbranch, ?_⟩
  · rw [Ledger.length, hrecords]
    rfl
  · rw [replay, hreplay]
    exact ⟨_, rfl, rfl, rfl⟩

end Store

end PathLedger
