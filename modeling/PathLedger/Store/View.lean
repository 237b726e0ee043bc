import PathLedger.Cipher.Blob
import PathLedger.Index.Walk
import PathLedger.Scope.Basic
import PathLedger.Selector.Related

/-!
# Reading

What a read sees of a store: the index, the declarations and the sealed branches. A read tries the
selectors of its path, then the branch that hides it, then the index through its pointers.

* `View.readStep` — one read, given how to read further paths.
* `View.reading` — reads that start further reads without bound. One that never ends has no result, which is told apart
  from finding nothing.
* `View.read` — a read with a full budget of steps.
-/

namespace PathLedger

/-- What a read sees of a store. -/
structure View where
  index : Index
  scopes : Scopes
  /-- For every hiding scope with data, the sealed object of that data. -/
  branches : Dict String Value
deriving DecidableEq

namespace View

/-- The opened branch of a scope, when it can be opened. -/
def openBranch? (view : View) (scope : Path) : Option Value :=
  let secret := view.scopes.effectiveSecret scope
  if secret.isEmpty then none
  else (view.branches.get? scope.key).bind fun blob => Blob.decrypt? blob secret scope

/-- The value stored for a path in the branch of its hiding scope. The scope itself has none. -/
def branchEntry? (view : View) (scope p : Path) : Option Value :=
  if p.length = scope.length then none
  else (view.openBranch? scope).bind (Value.lookupAt (p.drop scope.length).segments)

/-- An index entry in plain form: sealed entries are opened under the secret of their path. -/
def plain? (view : View) (p : Path) : Value → Option Value
  | .ciphertext blob =>
    let secret := view.scopes.effectiveSecret p
    if secret.isEmpty then none else Blob.decrypt? (.ciphertext blob) secret p
  | v => some v

section Step

variable {m : Type → Type} [Monad m]

/-- How a read goes on at another path with a budget of steps. -/
abbrev Next (m : Type → Type) := Path → Nat → m (Option Value)

/-- A read in the branch of a hiding scope. A pointer found there costs one step. -/
def readHidden (view : View) (next : Next m) (scope p : Path) (budget : Nat) : m (Option Value) :=
  match view.branchEntry? scope p with
  | some (.pointer target) =>
    match budget with
    | 0 => pure none
    | budget + 1 => next (Path.canonical target) budget
  | found => pure found

/-- A read through the index. A pointer exactly at the path is a value; others are followed, and where they
lead to no entry the read starts anew there. -/
def readIndexed (view : View) (next : Next m) (p : Path) (budget : Nat) : m (Option Value) :=
  match view.index.entry p with
  | some (.pointer target) => pure (some (.pointer target))
  | _ =>
    let w := view.index.walk budget p
    if w.exhausted then pure none
    else
      match w.raw with
      | some v => pure (view.plain? w.path v)
      | none => if w.path = p then pure none else next w.path w.left

/-- A read of a normalized path without selectors. -/
def readPlain (view : View) (next : Next m) (p : Path) (budget : Nat) : m (Option Value) :=
  match view.scopes.hidingScope? p with
  | some scope => view.readHidden next scope p budget
  | none => view.readIndexed next p budget

/-- What evaluation inside a read sees: each path is read with a budget of its own. -/
def inner (view : View) (next : Next m) : Resolver m := ⟨fun p => next p maxHops, view.index.entry⟩

/-- One read of a raw path. -/
def readStep (view : View) (next : Next m) (p : Path) (budget : Nat) : m (Option Value) := do
  let r := view.inner next
  if let some v ← Selector.readTransform r view.index p then return some v
  if let some v ← Selector.readSelection r view.index p then return some v
  if let some v ← Selector.readFilter r view.index p.normalize then return some v
  view.readPlain next p.normalize budget

end Step

section Related

variable {m n : Type → Type} [Monad m] [Monad n] (S : Simulation m n) {next : Next m} {next' : Next n}

theorem readPlain_related (view : View) (h : ∀ p budget, S.Holds (next p budget) (next' p budget)) (p : Path)
    (budget : Nat) : S.Holds (view.readPlain next p budget) (view.readPlain next' p budget) := by
  unfold readPlain
  split
  · unfold readHidden
    split
    · cases budget with
      | zero => exact S.result _
      | succ budget => exact h _ _
    · exact S.result _
  · unfold readIndexed
    split
    · exact S.result _
    · dsimp only
      split
      · exact S.result _
      · split
        · exact S.result _
        · split
          · exact S.result _
          · exact h _ _

/-- **One read keeps the relation** that further reads are in. -/
theorem readStep_related (view : View) (h : ∀ p budget, S.Holds (next p budget) (next' p budget)) (p : Path)
    (budget : Nat) : S.Holds (view.readStep next p budget) (view.readStep next' p budget) := by
  have hread (q : Path) : S.Holds ((view.inner next).readPath q) ((view.inner next').readPath q) := h q maxHops
  unfold readStep
  refine S.next (S.readTransform fun _ _ _ _ _ _ => ?_) fun transformed => ?_
  · exact S.evaluate fun _ _ label _ => S.resolveIdentifier rfl hread label
  cases transformed with
  | some v => exact S.result _
  | none =>
    refine S.next (S.readSelection fun _ _ _ _ _ _ => hread _) fun selected => ?_
    cases selected with
    | some v => exact S.result _
    | none =>
      refine S.next (S.readFilter fun _ _ _ _ _ => ⟨?_, hread _⟩) fun filtered => ?_
      · exact S.matchesAt fun clause _ => ⟨S.readFirst (hread _) (hread _), S.readFirst (hread _) (hread _)⟩
      cases filtered with
      | some v => exact S.result _
      | none => exact readPlain_related S view h _ _

end Related

section Reading

variable (view : View)

/-- Reads that go on at further paths without bound: no result at all where they never end. -/
def reading (p : Path) (budget : Nat) : Option (Option Value) :=
  -- The function names itself by a tactic: as a term it would carry along where it stands in the file.
  view.readStep (by apply reading) p budget
partial_fixpoint monotonicity by
  intro next next' hnext p budget
  have hmore (p : Path) (budget : Nat) : Simulation.outlasts.Holds (next p budget) (next' p budget) := fun a ha =>
    match next p budget, next' p budget, hnext p budget, ha with
    | _, _, .bot, ha => nomatch ha
    | _, _, .refl, ha => ha
  dsimp only
  cases hstep : view.readStep next p budget with
  | none => exact .bot
  | some v =>
    rw [readStep_related Simulation.outlasts view hmore p budget v hstep]
    exact .refl

/-- What a raw path reads as; no result at all where the read never ends. Nothing is found at missing paths, at the
root of a hiding scope, where a seal cannot be opened, and where pointers lead on for more steps than the budget has. -/
def read (p : Path) : Option (Option Value) := view.reading p maxHops

/-- Evaluation against a view. -/
def resolver : Resolver Option := view.inner view.reading

end Reading

end View

end PathLedger
