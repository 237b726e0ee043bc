import PathLedger.Proofs.Derivation.Subscriptions
import PathLedger.Proofs.Store.Records
import PathLedger.Proofs.Username

/-!
# Runs over plain paths

Stores that are reached by calls whose accepted meanings name plain paths only. Which meaning a call has depends on the
operators that are bound, so this is asked of meanings in the stores where the calls are made.

* `Operator.Instruction.Plain` — an instruction over plain paths, with texts that are not empty.
* `Store.PlainlyReached` — the stores that are reached by such instructions, from an empty one on.
* `Change.Plain`, `Change.OverPlain` — an elementary change over plain paths, with and without a condition on its
  texts.
* `Store.Causes.plain` — **plain instructions cause plain changes**.
* `Store.PlainTargets.change` — changes over plain paths register formulas at plain paths only.
* `Store.PlainlyReached.leads` — **plain changes lead to every store that is plainly reached**.
-/

namespace PathLedger

/-! ## Plain scopes select themselves -/

namespace Selector

open Text

theorem splitOnce_plain {d : Char} {rest s : List Char} (hd : isPlain d = false) (h : ∀ c ∈ s, isPlain c) :
    splitOnce (d :: rest) s = none := by
  induction s with
  | nil => rfl
  | cons c r ih =>
    rw [splitOnce, behind?_plain hd h, ih fun c hc => h c (List.mem_cons_of_mem _ hc)]
    rfl

variable {p : Path} (h : p.Plain)

include h

theorem containsIterator_plain : containsIterator p = false := by
  rw [containsIterator, List.any_eq_false]
  intro s hs
  rw [carriesIterator, contains, iteratorToken, splitOnce_plain (by decide) (h s hs).2]
  exact Bool.false_ne_true

theorem containsFilter_plain : containsFilter p = false := by
  rw [containsFilter, firstFilter?, firstSegment?_selectorOf? _ h]
  rfl

end Selector

theorem Store.broadcast_plain (s : Store) {scope : Path} (h : scope.Plain) (expression : String) :
    s.broadcast scope expression = some [(scope, expression)] := by
  rw [broadcast, Selector.containsIterator_plain h, Selector.containsFilter_plain h, Path.normalize_plain h]
  rfl

theorem Store.mem_broadcast_plain (s : Store) {scope : Path} (h : scope.Plain) {expression : String}
    {each : List (Path × String)} (heach : s.broadcast scope expression = some each) {e : Path × String}
    (he : e ∈ each) : e = (scope, expression) := by
  rw [s.broadcast_plain h] at heach
  obtain rfl := Option.some.inj heach
  exact List.mem_singleton.mp he

/-! ## Plain instructions and changes -/

/-- An instruction over plain paths, with texts that are not empty. The root is a path, but no target of a pointer. -/
def Operator.Instruction.Plain : Operator.Instruction → Prop
  | .set p _ => p.Plain
  | .declareSecret scope secret => scope.Plain ∧ secret ≠ ""
  | .declareNoise scope noise => scope.Plain ∧ noise ≠ ""
  | .point p target => p.Plain ∧ ∃ q : Path, q.Plain ∧ q.isRoot = false ∧ q.key = target
  | .identify p _ => p.Plain
  | .derive scope name _ => scope.Plain ∧ (Path.canonical name).Plain
  | .evaluate _ => True
  | .collect scope _ => scope.Plain
  | .remove target => target.Plain
  | .define _ _ => True

/-- What is recorded with the operator of a value: a target, a name in its normal form, or any value. -/
def Operator.Carries (v : Value) : Option Operator.Kind → Prop
  | some .pointer => ∃ q : Path, q.Plain ∧ q.isRoot = false ∧ v = .pointer q.key
  | some .identity => ∃ name, Username.normalize name = .ok name ∧ v = .identity name
  | some .derive => True
  | some .query => True
  | some _ => False
  | none => True

/-- An elementary change over plain paths, with texts that are not empty. -/
def Change.Plain : Change → Prop
  | .value p v operator => p.Plain ∧ Operator.Carries v operator
  | .secret scope text => scope.Plain ∧ text ≠ ""
  | .noise scope text => scope.Plain ∧ text ≠ ""
  | .removal target => target.Plain
  | .register scope name _ => (scope.join (Path.canonical name)).Plain
  | .recompute _ => True
  | .operators _ => True

/-- An elementary change over plain paths, whatever its texts and values are. -/
def Change.OverPlain : Change → Prop
  | .value p _ _ => p.Plain
  | .secret scope _ => scope.Plain
  | .noise scope _ => scope.Plain
  | .removal target => target.Plain
  | .register scope name _ => (scope.join (Path.canonical name)).Plain
  | .recompute _ => True
  | .operators _ => True

theorem Change.Plain.overPlain {c : Change} (h : c.Plain) : c.OverPlain := by
  cases c with
  | value p v operator => exact h.1
  | secret scope text => exact h.1
  | noise scope text => exact h.1
  | _ => exact h

theorem Path.Plain.join {p q : Path} (hp : p.Plain) (hq : q.Plain) : (p.join q).Plain := by
  intro s hs
  rcases List.mem_append.mp hs with hs | hs
  · exact hp s hs
  · exact hq s hs

namespace Store

variable {s : Store}

/-- **Plain instructions cause plain changes**, when a name that they claim is in its normal form. -/
theorem Causes.plain {i : Operator.Instruction} {c : Change} (h : Causes s i c) (hi : i.Plain)
    (hname : ∀ p name, i = .identify p name → ∃ raw, Username.normalize raw = .ok name) : c.Plain := by
  cases h with
  | set p v => exact ⟨hi, trivial⟩
  | declareSecret scope text => exact hi
  | declareNoise scope text => exact hi
  | point p target =>
    obtain ⟨hp, q, hq, hroot, rfl⟩ := hi
    exact ⟨hp, q, hq, hroot, rfl⟩
  | identify p name =>
    obtain ⟨raw, hraw⟩ := hname p name rfl
    exact ⟨hi, name, Username.normalize_normalized hraw, rfl⟩
  | register heach he =>
    obtain ⟨hscope, hjoined⟩ := hi
    obtain rfl := s.mem_broadcast_plain hscope heach he
    exact hscope.join hjoined
  | derive heach he v =>
    obtain ⟨hscope, hjoined⟩ := hi
    obtain rfl := s.mem_broadcast_plain hscope heach he
    exact ⟨hscope.join hjoined, trivial⟩
  | collect scope paths v => exact ⟨hi, trivial⟩
  | remove target => exact hi
  | define _ => trivial
  | recompute _ _ => trivial

/-! ## Targets -/

/-- Every target is the key of a plain path. -/
def PlainTargets (s : Store) : Prop :=
  ∀ target, (s.derivations.get? target).isSome → ∃ p : Path, p.Plain ∧ p.key = target

/-- **Changes over plain paths register formulas at plain paths.** -/
theorem PlainTargets.change (h : PlainTargets s) {c : Change} (hc : c.OverPlain) : PlainTargets (s.change c) := by
  intro target htarget
  cases c with
  | value p v operator =>
    refine h target ?_
    rwa [Store.change, commitValue_derivations] at htarget
  | removal q =>
    rw [Store.change, removeSubtree_eq, commit_derivations, (frame_pruned s q).derivations, purged,
      Derivation.Graph.get?_clearUnder] at htarget
    split at htarget
    · cases htarget
    · exact h target htarget
  | register scope name expression =>
    obtain hsame | ⟨refs, -, hdone⟩ := s.change_register_cases scope name expression
    · exact h target (by rwa [hsame] at htarget)
    · rw [hdone, registered, Derivation.Graph.get?_register] at htarget
      split at htarget
      · rename_i heq
        exact ⟨_, hc, heq.symm⟩
      · exact h target htarget
  | recompute u =>
    refine h target ?_
    obtain hsame | ⟨d, v, hd, -, hdone⟩ := s.change_recompute_cases u
    · rwa [hsame] at htarget
    · rw [hdone, touched] at htarget
      dsimp only at htarget
      rw [commitValue_derivations, Derivation.Graph.get?_touch] at htarget
      split at htarget
      · rwa [Option.isSome_map] at htarget
      · exact htarget
  | _ => exact h target htarget

/-! ## Plain runs -/

/-- A name that a call claims is in its normal form. -/
theorem meaning?_identify {c : Call} {p : Path} {name : String} (h : s.meaning? c = some (.ok (.identify p name))) :
    ∃ raw, Username.normalize raw = .ok name := by
  have hkind {kind : Operator.Kind} {raw : String} {v : Value} (h : kindAt kind raw v = .ok (.identify p name)) :
      ∃ raw, Username.normalize raw = .ok name := (Operator.classifyKind_ok h).identify
  cases c with
  | write path v hint => exact Operator.classify_identify (Option.some.inj h)
  | declareSecret scope secret => exact hkind (Option.some.inj h)
  | declareNoise scope noise => exact hkind (Option.some.inj h)
  | definePointer path target => exact hkind (Option.some.inj h)
  | declareIdentity path username => exact hkind (Option.some.inj h)
  | deriveAt path expression => exact hkind (Option.some.inj h)
  | collectAt scope paths => exact hkind (Option.some.inj h)
  | _ => cases h

/-- The stores that are reached from an empty one with a clock, by calls that bring in nothing that another store
recorded and that are refused or mean something plain. -/
inductive PlainlyReached (clock : Clock) : Store → Prop where
  | start : PlainlyReached clock (empty clock)
  | call {s : Store} (h : PlainlyReached clock s) {c : Call} {i : Except Fault Operator.Instruction}
    (hi : s.meaning? c = some i) (hplain : ∀ j, i = .ok j → j.Plain) : PlainlyReached clock (s.after c)

/-- **Plain changes lead to every store that is plainly reached.** -/
theorem PlainlyReached.leads {clock : Clock} (h : PlainlyReached clock s) : Leads Change.Plain (empty clock) s := by
  induction h with
  | start => exact .refl
  | @call s _ c i hi hplain ih =>
    rw [after_of_meaning hi]
    refine ih.trans (s.perform_leads fun j hj d hd => hd.plain (hplain j hj) ?_)
    rintro p name rfl
    exact meaning?_identify (hj ▸ hi)

end Store

end PathLedger
