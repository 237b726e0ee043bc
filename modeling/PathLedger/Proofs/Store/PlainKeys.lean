import PathLedger.Proofs.Store.PlainRuns

/-!
# Stores with plain keys

Every key of a store is the key of a plain path, when it is reached by calls over plain paths: whatever they write,
declare or derive, and also when they bring in what another store recorded. Formulas and pointers may mention any path.

* `Path.PlainKey` — the key of a plain path.
* `Store.PlainKeys` — all keys of a store are of that sort.
* `Store.PlainKeys.change` — **changes over plain paths keep the keys plain**.
* `Store.ReachedOverPlain` — the stores that calls over plain paths lead to, from an empty one on.
* `Store.ReachedOverPlain.plainKeys` — **all their keys are plain**.
-/

namespace PathLedger

/-- The key of a plain path. -/
def Path.PlainKey (key : String) : Prop := ∃ p : Path, p.Plain ∧ p.key = key

theorem Path.Plain.plainKey {p : Path} (h : p.Plain) : PlainKey p.key := ⟨p, h, rfl⟩

theorem Path.PlainKey.ofKey {key : String} (h : PlainKey key) : (ofKey key).Plain := by
  obtain ⟨p, hp, rfl⟩ := h
  rwa [hp.ofKey_key]

theorem Path.PlainKey.spelled {key : String} (h : PlainKey key) : Spelled key := by
  obtain ⟨p, hp, rfl⟩ := h
  exact hp.clean.spelled

/-! ## Instructions over plain paths -/

/-- An instruction over plain paths, whatever its texts and values are. -/
def Operator.Instruction.OverPlain : Operator.Instruction → Prop
  | .set p _ => p.Plain
  | .declareSecret scope _ => scope.Plain
  | .declareNoise scope _ => scope.Plain
  | .point p _ => p.Plain
  | .identify p _ => p.Plain
  | .derive scope name _ => scope.Plain ∧ (Path.canonical name).Plain
  | .evaluate _ => True
  | .collect scope _ => scope.Plain
  | .remove target => target.Plain
  | .define _ _ => True

namespace Store

variable {s t : Store}

theorem Causes.overPlain {i : Operator.Instruction} {c : Change} (h : Causes s i c) (hi : i.OverPlain) :
    c.OverPlain := by
  cases h with
  | register heach he =>
    obtain ⟨hscope, hname⟩ := hi
    obtain rfl := s.mem_broadcast_plain hscope heach he
    exact hscope.join hname
  | derive heach he v =>
    obtain ⟨hscope, hname⟩ := hi
    obtain rfl := s.mem_broadcast_plain hscope heach he
    exact hscope.join hname
  | define h => trivial
  | recompute i target => trivial
  | _ => exact hi

/-- A record at a plain key, done again, changes plain paths only. -/
theorem Redoes.overPlain {r : Record} {c : Change} (h : Redoes r c) (hr : Path.PlainKey r.path) : c.OverPlain := by
  cases h with
  | identity name =>
    show (Path.canonical r.path).Plain
    rw [← hr.spelled, Path.canonical_key hr.ofKey]
    exact hr.ofKey
  | recompute target => trivial
  | _ => exact hr.ofKey

theorem replayRecords_overPlain (s : Store) {records : List Record} (hrecords : ∀ r ∈ records, Path.PlainKey r.path) :
    Leads Change.OverPlain s (s.replayRecords records).store :=
  s.replayRecords_leads_of_redoes fun r hr _ hc => hc.overPlain (hrecords r hr)

/-! ## Plain keys -/

/-- Every key of a store is the key of a plain path. -/
structure PlainKeys (s : Store) : Prop where
  records : ∀ r ∈ s.ledger.records, Path.PlainKey r.path
  secrets : ∀ key, (s.scopes.secrets.get? key).isSome → Path.PlainKey key
  noises : ∀ key, (s.scopes.noises.get? key).isSome → Path.PlainKey key
  branches : ∀ key ∈ s.branches.keys, Path.PlainKey key
  targets : PlainTargets s

theorem plainKeys_empty (clock : Clock) : PlainKeys (empty clock) where
  records _ hr := nomatch hr
  secrets _ h := nomatch h
  noises _ h := nomatch h
  branches _ h := nomatch h
  targets _ h := nomatch h

namespace PlainKeys

variable (h : PlainKeys s)

include h

/-- A commit adds one key to the records. -/
theorem commit {d : Draft} (hd : d.path.Plain) : PlainKeys (s.commit d).1 where
  records r hr := by
    rw [commit_records] at hr
    rcases List.mem_append.mp hr with hr | hr
    · exact h.records r hr
    · obtain rfl := List.mem_singleton.mp hr
      exact hd.plainKey
  secrets := h.secrets
  noises := h.noises
  branches := h.branches
  targets := h.targets

theorem commitValue {p : Path} (hp : p.Plain) (v : Value) (operator : Option Operator.Kind) :
    PlainKeys (s.commitValue p v operator).1 where
  records r hr := by
    obtain ⟨a, hrecords, hpath, -⟩ := s.commitValue_records p v operator
    rw [hrecords] at hr
    rcases List.mem_append.mp hr with hr | hr
    · exact h.records r hr
    · obtain rfl := List.mem_singleton.mp hr
      exact ⟨p, hp, hpath.symm⟩
  secrets key hkey := by
    rw [commitValue_scopes] at hkey
    exact h.secrets key hkey
  noises key hkey := by
    rw [commitValue_scopes] at hkey
    exact h.noises key hkey
  branches key hkey := by
    rcases mem_keys_commitValue hkey with hkey | ⟨scope, hscope, rfl⟩
    · exact h.branches key hkey
    · obtain ⟨n, -, rfl, -⟩ := Scopes.hidingScope?_spec hscope
      exact (hp.take n).plainKey
  targets := h.targets.change (c := .value p v operator) hp

theorem declareSecret {scope : Path} (hscope : scope.Plain) (text : String) :
    PlainKeys { s with scopes := s.scopes.declareSecret scope text } where
  records := h.records
  secrets key hkey := by
    by_cases heq : key = scope.key
    · exact ⟨scope, hscope, heq.symm⟩
    · refine h.secrets key ?_
      rwa [Scopes.declareSecret, Dict.get?_insert_of_ne _ heq] at hkey
  noises := h.noises
  branches := h.branches
  targets := h.targets

theorem declareNoise {scope : Path} (hscope : scope.Plain) (text : String) :
    PlainKeys { s with scopes := s.scopes.declareNoise scope text } where
  records := h.records
  secrets := h.secrets
  noises key hkey := by
    by_cases heq : key = scope.key
    · exact ⟨scope, hscope, heq.symm⟩
    · refine h.noises key ?_
      rwa [Scopes.declareNoise, Dict.get?_insert_of_ne _ heq] at hkey
  branches := h.branches
  targets := h.targets

theorem removeSubtree {target : Path} (htarget : target.Plain) : PlainKeys (s.removeSubtree target).1 where
  records r hr := by
    rw [removeSubtree_eq, commit_records, (frame_pruned s target).ledger] at hr
    rcases List.mem_append.mp hr with hr | hr
    · exact h.records r hr
    · obtain rfl := List.mem_singleton.mp hr
      exact htarget.plainKey
  secrets key hkey := by
    rw [removeSubtree_scopes, Scopes.secrets_purgeUnder] at hkey
    split at hkey
    · cases hkey
    · exact h.secrets key hkey
  noises key hkey := by
    rw [removeSubtree_scopes, Scopes.noises_purgeUnder] at hkey
    split at hkey
    · cases hkey
    · exact h.noises key hkey
  branches key hkey := by
    rw [removeSubtree_eq, commit_branches] at hkey
    exact h.branches key (mem_keys_pruneBranches (s := s.purged target) hkey).1
  targets := h.targets.change (c := .removal target) htarget

theorem touched (target : String) : PlainKeys (s.touched target) where
  records := h.records
  secrets := h.secrets
  noises := h.noises
  branches := h.branches
  targets t ht := by
    rw [Store.touched, Derivation.Graph.get?_touch] at ht
    split at ht
    · exact h.targets t (by rwa [Option.isSome_map] at ht)
    · exact h.targets t ht

/-- **Changes over plain paths keep the keys plain.** -/
theorem change {c : Change} (hc : c.OverPlain) : PlainKeys (s.change c) := by
  cases c with
  | value p v operator => exact h.commitValue hc v operator
  | secret scope text => exact (h.declareSecret hc text).commit hc
  | noise scope text => exact (h.declareNoise hc text).commit hc
  | removal target => exact h.removeSubtree hc
  | register scope name expression =>
    have htargets := h.targets.change (c := .register scope name expression) hc
    obtain hsame | ⟨refs, -, hdone⟩ := s.change_register_cases scope name expression
    · rw [hsame]
      exact h
    · rw [hdone] at htargets ⊢
      exact ⟨h.records, h.secrets, h.noises, h.branches, htargets⟩
  | recompute target =>
    obtain hsame | ⟨d, v, hd, -, hdone⟩ := s.change_recompute_cases target
    · rw [hsame]
      exact h
    · have htarget : Path.PlainKey target := h.targets target (by rw [hd]; rfl)
      rw [hdone]
      exact (h.commitValue htarget.ofKey v (some .derive)).touched target
  | operators r => exact ⟨h.records, h.secrets, h.noises, h.branches, h.targets⟩

theorem leads (hleads : Leads Change.OverPlain s t) : PlainKeys t :=
  hleads.keeps (fun _ _ hc hu => hu.change hc) h

end PlainKeys

/-! ## Runs over plain paths -/

/-- A call over plain paths: what it means, if it is not refused, is over plain paths, and what it brings in of another
store has plain keys. -/
def OverPlain (s : Store) : Call → Prop
  | .restore snapshot => PlainKeys (s.restore snapshot)
  | .replay records => ∀ r ∈ records, Path.PlainKey r.path
  | c => ∀ i, s.meaning? c = some (.ok i) → i.OverPlain

/-- The stores that calls over plain paths lead to, from an empty one on. -/
inductive ReachedOverPlain : Store → Prop where
  | start (clock : Clock) : ReachedOverPlain (empty clock)
  | call {s : Store} (h : ReachedOverPlain s) {c : Call} (hc : s.OverPlain c) : ReachedOverPlain (s.after c)

theorem PlainKeys.after (h : PlainKeys s) {c : Call} (hc : s.OverPlain c) : PlainKeys (s.after c) := by
  cases hmeaning : s.meaning? c with
  | some i =>
    have hplain : ∀ j, i = .ok j → j.OverPlain := by
      rintro j rfl
      cases c with
      | restore snapshot => cases hmeaning
      | replay records => cases hmeaning
      | _ => exact hc j hmeaning
    rw [after_of_meaning hmeaning]
    exact h.leads (s.perform_leads fun j hj d hd => hd.overPlain (hplain j hj))
  | none =>
    rcases meaning?_eq_none hmeaning with ⟨snapshot, rfl⟩ | ⟨records, rfl⟩
    · exact hc
    · have hcleared : PlainKeys s.cleared := by
        have hempty := plainKeys_empty s.clock
        exact ⟨hempty.records, hempty.secrets, hempty.noises, hempty.branches, hempty.targets⟩
      exact hcleared.leads (s.cleared.replayRecords_overPlain hc)

/-- **All keys are plain** in every store that calls over plain paths lead to. -/
theorem ReachedOverPlain.plainKeys (h : ReachedOverPlain s) : PlainKeys s := by
  induction h with
  | start clock => exact plainKeys_empty clock
  | call _ hc ih => exact ih.after hc

theorem ReachedOverPlain.reached (h : ReachedOverPlain s) : Reached (fun _ => True) s := by
  induction h with
  | start clock => exact .start clock
  | call _ hc ih => exact ih.call _ trivial

end Store

end PathLedger
