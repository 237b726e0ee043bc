import PathLedger.Proofs.Store.Declarations
import PathLedger.Proofs.Store.Edits

/-!
# No branch without its secret

Branches and secrets are kept apart, and each call edits them on its own: a declaration adds a secret, a hidden value
seals a branch, a removal takes keys out of both, and records done again start from neither. All the same, a branch
never outlives the declaration that it was sealed for. A secret declared anew with an empty text hides nothing any more,
but it stays declared, and its branch stays with it.

* `Change.Named`, `Store.meaning?_named` — what calls mean puts values at named paths only.
* `Store.SealedBranches` — every branch is a sealed value.
* `Store.Anchored` — every branch is sealed, and its key is one of a declared secret below the root.
* `Store.Anchored.change` — **a change keeps branches anchored** when its values go to named paths.
* `Store.Reached.anchored` — **branches are anchored in every store that is reached** without restoring a snapshot.
-/

namespace PathLedger

/-! ## Named paths -/

/-- A change whose value, if it has one, goes to a named path. Formulas computed anew go to the paths of their keys,
which are named. -/
def Change.Named : Change → Prop
  | .value p _ _ => p.Named
  | _ => True

/-- An instruction whose value, if it has one, goes to a named path. -/
def Operator.Instruction.Named : Operator.Instruction → Prop
  | .set p _ => p.Named
  | .point p _ => p.Named
  | .identify p _ => p.Named
  | .collect scope _ => scope.Named
  | _ => True

namespace Operator

theorem Kind.Means.named {kind : Kind} {scope : Path} {i : Instruction} (h : kind.Means scope i) : i.Named := by
  cases kind with
  | secret =>
    obtain ⟨_, rfl⟩ := h
    trivial
  | noise =>
    obtain ⟨_, rfl⟩ := h
    trivial
  | pointer =>
    obtain ⟨_, rfl⟩ := h
    exact scope.named_normalize
  | identity =>
    obtain ⟨_, _, _, rfl⟩ := h
    exact scope.named_normalize
  | derive =>
    rcases h with ⟨_, _, _, rfl⟩ | ⟨_, rfl⟩
    · trivial
    · trivial
  | query =>
    obtain ⟨_, rfl⟩ := h
    exact scope.named_normalize
  | remove =>
    obtain ⟨_, rfl⟩ := h
    trivial

theorem classify_named {registry : Registry} {path : Path} {v : Value} {hint : Option String} {i : Instruction}
    (h : classify registry path v hint = .ok i) : i.Named := by
  rcases classify_ok h with ⟨p, rfl⟩ | ⟨_, _, rfl⟩ | ⟨_, _, hmeans⟩
  · exact p.named_normalize
  · trivial
  · exact hmeans.named

end Operator

namespace Scopes

/-- A hiding scope has a declared secret. -/
theorem mem_keys_of_hidingScope? {s : Scopes} {p scope : Path} (h : s.hidingScope? p = some scope) :
    scope.key ∈ s.secrets.keys := by
  obtain ⟨_, _, _, _, hlive, _⟩ := hidingScope?_eq_some_iff.mp h
  obtain ⟨text, htext⟩ := Option.isSome_iff_exists.mp hlive
  rw [Dict.mem_keys_iff, (Option.filter_eq_some_iff.mp htext).1]
  rfl

/-- Below a named path, a hiding scope has a key of its own. -/
theorem key_ne_of_hidingScope? {s : Scopes} {p scope : Path} (h : s.hidingScope? p = some scope) (hp : p.Named) :
    scope.key ≠ Path.root.key := by
  obtain ⟨n, hpos, hle, rfl, -, -⟩ := hidingScope?_eq_some_iff.mp h
  exact Path.key_ne_empty (hp.take n) (take_isRoot hpos hle)

end Scopes

namespace Store

variable {s t : Store}

/-! ## What calls put at named paths -/

/-- A formula is derived under scopes that are expanded, whatever selects them. -/
theorem named_of_mem_broadcast {scope : Path} {expression : String} {e : Path × String}
    {each : List (Path × String)} (heach : s.broadcast scope expression = some each) (he : e ∈ each) : e.1.Named := by
  unfold broadcast at heach
  split at heach
  · obtain rfl := Option.some.inj heach
    obtain ⟨child, -, rfl⟩ := List.mem_map.mp he
    exact Path.named_normalize _
  · split at heach
    · obtain ⟨scopes, -, rfl⟩ := Option.map_eq_some_iff.mp heach
      obtain ⟨p, -, rfl⟩ := List.mem_map.mp he
      exact p.named_normalize
    · obtain rfl := Option.some.inj heach
      obtain rfl := List.mem_singleton.mp he
      exact scope.named_normalize

theorem Causes.named {i : Operator.Instruction} {c : Change} (h : Causes s i c) (hi : i.Named) : c.Named := by
  cases h with
  | derive heach he v => exact (named_of_mem_broadcast heach he).join (Path.named_normalize _)
  | register heach he => trivial
  | define h => trivial
  | recompute i target => trivial
  | _ => exact hi

theorem Redoes.named {r : Record} {c : Change} (h : Redoes r c) : c.Named := by
  cases h with
  | value v operator => exact (Path.ofKey_clean r.path).named
  | identity name => exact Path.named_normalize _
  | _ => trivial

/-- **What a call means** puts values at named paths. -/
theorem meaning?_named {c : Call} {i : Operator.Instruction} (h : s.meaning? c = some (.ok i)) : i.Named := by
  have hkind {kind : Operator.Kind} {path : String} {v : Value} (hi : kindAt kind path v = .ok i) : i.Named :=
    (Operator.classifyKind_ok hi).named
  cases c with
  | write path v hint => exact Operator.classify_named (Option.some.inj h)
  | remove path =>
    obtain rfl := Except.ok.inj (Option.some.inj h)
    trivial
  | defineOperator symbol kind =>
    obtain rfl := Except.ok.inj (Option.some.inj h)
    trivial
  | restore snapshot => cases h
  | replay records => cases h
  | _ => exact hkind (Option.some.inj h)

/-! ## Sealed branches -/

/-- Every branch is a sealed value. -/
def SealedBranches (s : Store) : Prop :=
  ∀ key blob, s.branches.get? key = some blob → (∃ text, blob = .ciphertext text) ∧ Blob.isBlob blob

namespace SealedBranches

variable (h : SealedBranches s)

include h

theorem sealBranch (scope : Path) (fields : List (String × Value)) : SealedBranches (s.sealBranch scope fields) := by
  intro key blob hblob
  by_cases hkey : key = scope.key
  · rw [Store.sealBranch, hkey] at hblob
    dsimp only at hblob
    rw [Dict.get?_insert_self] at hblob
    obtain rfl := Option.some.inj hblob
    exact ⟨⟨_, rfl⟩, Blob.isBlob_encrypt _ _ _⟩
  · rw [Store.sealBranch] at hblob
    dsimp only at hblob
    rw [Dict.get?_insert_of_ne _ hkey] at hblob
    exact h key blob hblob

theorem writeBranch (scope p : Path) (v : Value) : SealedBranches (s.writeBranch scope p v) := by
  unfold Store.writeBranch
  split
  · exact h
  · exact h.sealBranch scope _

theorem removeFromBranch (scope p : Path) : SealedBranches (s.removeFromBranch scope p) := by
  unfold Store.removeFromBranch
  split
  · exact h
  · split
    · exact h.sealBranch scope _
    · exact h

theorem pruneBranch (target : Path) (key : String) : SealedBranches (pruneBranch target s key) := by
  unfold Store.pruneBranch
  dsimp only
  split
  · intro other blob hblob
    rw [Dict.get?_erase] at hblob
    split at hblob
    · cases hblob
    · exact h other blob hblob
  · split
    · exact h.removeFromBranch _ target
    · exact h

theorem pruneBranches (target : Path) (keys : List String) :
    SealedBranches (keys.foldl (Store.pruneBranch target) s) :=
  List.foldlRecOn keys _ h fun _ hu key _ => hu.pruneBranch target key

theorem commit (d : Draft) : SealedBranches (s.commit d).1 := h

theorem commitValue (p : Path) (v : Value) (operator : Option Operator.Kind) :
    SealedBranches (s.commitValue p v operator).1 := by
  unfold Store.commitValue
  split
  · exact (h.writeBranch _ p v).commit _
  · exact h.commit _

end SealedBranches

/-! ## Anchored branches -/

/-- Every branch is sealed and kept at the key of a declared secret, and none at the root. -/
structure Anchored (s : Store) : Prop where
  declared : ∀ key ∈ s.branches.keys, key ∈ s.scopes.secrets.keys
  nonroot : ∀ key ∈ s.branches.keys, key ≠ Path.root.key
  sealedBranches : SealedBranches s

/-- Only branches and secrets matter. -/
theorem Anchored.congr (h : Anchored s) (hbranches : t.branches = s.branches)
    (hsecrets : t.scopes.secrets = s.scopes.secrets) : Anchored t := by
  obtain ⟨hdeclared, hnonroot, hsealed⟩ := h
  rw [← hbranches] at hnonroot
  rw [← hbranches, ← hsecrets] at hdeclared
  rw [SealedBranches, ← hbranches] at hsealed
  exact ⟨hdeclared, hnonroot, hsealed⟩

theorem anchored_of_vacant (h : s.branches = .empty) : Anchored s where
  declared key hkey := by
    rw [h] at hkey
    cases hkey
  nonroot key hkey := by
    rw [h] at hkey
    cases hkey
  sealedBranches key blob hblob := by
    rw [h] at hblob
    cases hblob

namespace Anchored

variable (h : Anchored s)

include h

/-- A hidden value goes into the branch of a declared secret. -/
theorem commitValue {p : Path} (hp : p.Named) (v : Value) (operator : Option Operator.Kind) :
    Anchored (s.commitValue p v operator).1 where
  declared key hkey := by
    rw [commitValue_scopes]
    rcases mem_keys_commitValue hkey with hkey | ⟨scope, hscope, rfl⟩
    · exact h.declared key hkey
    · exact Scopes.mem_keys_of_hidingScope? hscope
  nonroot key hkey := by
    rcases mem_keys_commitValue hkey with hkey | ⟨scope, hscope, rfl⟩
    · exact h.nonroot key hkey
    · exact Scopes.key_ne_of_hidingScope? hscope hp
  sealedBranches := h.sealedBranches.commitValue p v operator

/-- A secret declared anew stays declared, whatever its text. -/
theorem declareSecret (scope : Path) (text : String) :
    Anchored { s with scopes := s.scopes.declareSecret scope text } where
  declared key hkey := by
    have hdeclared := h.declared key hkey
    rw [Dict.mem_keys_iff] at hdeclared ⊢
    by_cases heq : key = scope.key
    · rw [heq, Scopes.declareSecret, Dict.get?_insert_self]
      rfl
    · rwa [Scopes.declareSecret, Dict.get?_insert_of_ne _ heq]
  nonroot := h.nonroot
  sealedBranches := h.sealedBranches

/-- A removal takes branches and secrets out by one test of their keys, and what it cuts stays sealed. -/
theorem removeSubtree (target : Path) : Anchored (s.removeSubtree target).1 where
  declared key hkey := by
    rw [removeSubtree_eq, commit_branches] at hkey
    obtain ⟨hbefore, hspared⟩ := mem_keys_pruneBranches (s := s.purged target) hkey
    rw [removeSubtree_scopes, Dict.mem_keys_iff, Scopes.secrets_purgeUnder, hspared, if_neg Bool.false_ne_true,
      ← Dict.mem_keys_iff]
    exact h.declared key hbefore
  nonroot key hkey := by
    rw [removeSubtree_eq, commit_branches] at hkey
    exact h.nonroot key (mem_keys_pruneBranches (s := s.purged target) hkey).1
  sealedBranches := by
    have hpurged : SealedBranches (s.purged target) := h.sealedBranches
    rw [removeSubtree_eq]
    exact (hpurged.pruneBranches target s.branches.keys).commit _

theorem touched (target : String) : Anchored (s.touched target) := h.congr rfl rfl

/-- **A change keeps branches anchored** when its value goes to a named path. -/
theorem change {c : Change} (hc : c.Named) : Anchored (s.change c) := by
  cases c with
  | value p v operator => exact h.commitValue hc v operator
  | secret scope text => exact (h.declareSecret scope text).congr rfl rfl
  | noise scope text => exact h.congr rfl rfl
  | removal target => exact h.removeSubtree target
  | register scope name expression =>
    obtain hsame | ⟨refs, -, hdone⟩ := s.change_register_cases scope name expression
    · rw [hsame]
      exact h
    · rw [hdone]
      exact h.congr rfl rfl
  | recompute target =>
    obtain hsame | ⟨d, v, -, -, hdone⟩ := s.change_recompute_cases target
    · rw [hsame]
      exact h
    · rw [hdone]
      exact (h.commitValue (Path.ofKey_clean target).named v (some .derive)).touched target
  | operators r => exact h.congr rfl rfl

theorem leads (hleads : Leads Change.Named s t) : Anchored t :=
  hleads.keeps (fun _ _ hc hu => hu.change hc) h

end Anchored

end Store

/-! ## Runs -/

/-- Whether a call puts the state of a snapshot in place of that of a store. -/
def Call.isRestore : Call → Bool
  | .restore _ => true
  | _ => false

namespace Store

theorem Anchored.after {s : Store} (h : Anchored s) {c : Call} (hc : c.isRestore = false) : Anchored (s.after c) := by
  cases hmeaning : s.meaning? c with
  | some i =>
    rw [after_of_meaning hmeaning]
    refine h.leads (s.perform_leads fun j hj d hd => hd.named ?_)
    rw [hj] at hmeaning
    exact meaning?_named hmeaning
  | none =>
    rcases meaning?_eq_none hmeaning with ⟨snapshot, rfl⟩ | ⟨records, rfl⟩
    · cases hc
    · have hcleared : Anchored s.cleared := anchored_of_vacant rfl
      exact hcleared.leads (s.cleared.replayRecords_leads_of_redoes fun _ _ _ hd => hd.named)

/-- **No branch without its secret.** In every store that calls lead to from an empty one on, removals at any paths,
declarations made anew and records done again among them, but no restored snapshot, the key of a branch is one of a
declared secret and not the root's, and the branch is a sealed value. -/
theorem Reached.anchored {s : Store} (h : Reached (fun c => c.isRestore = false) s) : Anchored s := by
  induction h with
  | start clock => exact anchored_of_vacant rfl
  | call _ c hc ih => exact ih.after hc

/-- A wallet with a secret keeps its balance in an anchored branch. -/
theorem anchored_wallet :
    ∃ s, Reached (fun c => c.isRestore = false) s ∧ (s.branches.get? "wallet").isSome ∧ Anchored s := by
  have hreached : Reached (fun c => c.isRestore = false) (sheltered default) := by
    refine (sheltered_reached default).mono fun c hc => ?_
    cases c with
    | restore snapshot => cases hc
    | _ => rfl
  obtain ⟨-, -, hbranch, -⟩ := sheltered_parts default
  exact ⟨_, hreached, hbranch, Reached.anchored hreached⟩

end Store

end PathLedger
